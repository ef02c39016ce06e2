import Acached.Reply.Cursor

/-! # The cursor behind a write

`aConn::CheckIOVTotalWritten` on entries as the code has them, an address and a
length, with the arithmetic of its `uint32_t`, `int` and `size_t` variables. As
long as fewer than 2 GiB of the entry in which a write ends were written, it
does to the contents of the entries what the replies rely on.
-/
namespace Acached.Reply
open CString Gather

structure Iovec where
  iovBase : UInt64
  iovLen : UInt64
  deriving DecidableEq, Repr

def Iovec.bytes (mem : UInt64 → UInt8) (e : Iovec) : Bytes :=
  (List.range e.iovLen.toNat).map fun k => mem (e.iovBase + UInt64.ofNat k)

/-- The variables that the loop of `CheckIOVTotalWritten` sets; `found` is -1 in front of it. -/
structure Totals where
  total : UInt32
  tmptotal : UInt32
  found : Option ℕ
  deriving DecidableEq, Repr

/-- The first rounds of the loop of `CheckIOVTotalWritten`. -/
def sumLoop (iovec : ℕ → Iovec) (start : ℕ) (writeret : UInt32) : ℕ → Totals
  | 0 => ⟨0, 0, none⟩
  | i + 1 =>
    let s := sumLoop iovec start writeret i
    let total := (s.total.toUInt64 + (iovec (start + i)).iovLen).toUInt32
    if writeret ≤ total ∧ s.tmptotal = 0 then ⟨total, total, some i⟩ else { s with total := total }

/-- An `int` as an operand beside a `size_t` or a pointer. -/
def sizeOfInt (seek : Int32) : UInt64 := seek.toInt64.toUInt64

/-- What `CheckIOVTotalWritten` returns, and what it leaves in `*iovEnd`, if it sets it, in
`*totalptr` and in the entries. -/
structure Written where
  ret : Bool
  iovEnd : Option ℕ
  totalptr : UInt32
  iovec : ℕ → Iovec

def Iovec.checkIOVTotalWritten (iovec : ℕ → Iovec) (start count : ℕ) (writeret : UInt32) : Written :=
  let s := sumLoop iovec start writeret count
  let total := if s.tmptotal ≠ 0 then s.tmptotal else s.total
  let i := if s.tmptotal ≠ 0 then s.found.getD 0 else count
  if total = writeret then ⟨true, some (start + (i + 1)), s.total, iovec⟩
  else if writeret < total then
    let iovEnd := start + i
    let total := (total.toUInt64 - (iovec iovEnd).iovLen).toUInt32
    let seek := (writeret - total).toInt32
    ⟨false, some iovEnd, s.total, Function.update iovec iovEnd
      ⟨(iovec iovEnd).iovBase + sizeOfInt seek, (iovec iovEnd).iovLen - sizeOfInt seek⟩⟩
  else ⟨false, none, s.total, iovec⟩

def totalLen (iovec : ℕ → Iovec) (start : ℕ) : ℕ → ℕ
  | 0 => 0
  | n + 1 => totalLen iovec start n + (iovec (start + n)).iovLen.toNat

/-- The total is reported, the end is one of the entries or behind them, no entry but the one at the
end has changed and that one at most by moving its beginning, and from the end on are the bytes that
were in the entries without those written. -/
structure DropsWritten (mem : UInt64 → UInt8) (iovec : ℕ → Iovec) (start count : ℕ)
    (writeret : UInt32) (r : Written) : Prop where
  total : r.totalptr.toNat = totalLen iovec start count
  ends : ∃ iovEnd, r.iovEnd = some iovEnd ∧ start ≤ iovEnd ∧ iovEnd ≤ start + count ∧
    (∀ i, i ≠ iovEnd → r.iovec i = iovec i) ∧
    (r.iovec iovEnd = iovec iovEnd ∨ ∃ k < (iovec iovEnd).iovLen.toNat, r.iovec iovEnd =
      ⟨(iovec iovEnd).iovBase + UInt64.ofNat k, (iovec iovEnd).iovLen - UInt64.ofNat k⟩) ∧
    gather (fun i => (r.iovec i).bytes mem) iovEnd (start + count - iovEnd) =
      (gather (fun i => (iovec i).bytes mem) start count).drop writeret.toNat

/-- Fewer than 2 GiB were written of an entry of which something is left. -/
def ShortSeek (iovec : ℕ → Iovec) (start count : ℕ) (writeret : UInt32) : Prop :=
  ∀ n < count, totalLen iovec start n < writeret.toNat →
    writeret.toNat < totalLen iovec start (n + 1) →
      writeret.toNat - totalLen iovec start n < 2 ^ 31

section Machine

theorem sizeOfInt_of_lt {s : UInt32} (h : s.toNat < 2 ^ 31) :
    sizeOfInt s.toInt32 = UInt64.ofNat s.toNat := by
  apply UInt64.toNat_inj.mp
  have hmsb : s.toBitVec.msb = false := by
    rw [BitVec.msb_eq_decide]
    exact decide_eq_false (Nat.not_le_of_lt h)
  change (BitVec.signExtend 64 s.toBitVec).toNat = _
  rw [BitVec.signExtend_eq_setWidth_of_msb_false hmsb, BitVec.toNat_setWidth]
  rfl

/-- An `int` that should hold 2 GiB or more is negative. -/
theorem sizeOfInt_of_le {s : UInt32} (h : 2 ^ 31 ≤ s.toNat) : 2 ^ 63 ≤ (sizeOfInt s.toInt32).toNat := by
  have hmsb : s.toBitVec.msb = true := by
    rw [BitVec.msb_eq_decide]
    exact decide_eq_true h
  change 2 ^ 63 ≤ (BitVec.signExtend 64 s.toBitVec).toNat
  rw [BitVec.toNat_signExtend, if_pos hmsb]
  omega

/-- A `uint32_t` plus a length, when the sum is one. -/
theorem add_iovLen {total : UInt32} {len : UInt64} (h : total.toNat + len.toNat < 2 ^ 32) :
    (total.toUInt64 + len).toUInt32.toNat = total.toNat + len.toNat := by
  rw [UInt64.toNat_toUInt32, UInt64.toNat_add, UInt32.toNat_toUInt64]
  omega

theorem sub_iovLen {total : UInt32} {len : UInt64} (h : len.toNat ≤ total.toNat) :
    (total.toUInt64 - len).toUInt32.toNat = total.toNat - len.toNat := by
  have hle : len ≤ total.toUInt64 := by
    rw [UInt64.le_iff_toNat_le, UInt32.toNat_toUInt64]
    exact h
  have hlt := total.toNat_lt
  rw [UInt64.toNat_toUInt32, UInt64.toNat_sub_of_le _ _ hle, UInt32.toNat_toUInt64]
  omega

end Machine

variable {mem : UInt64 → UInt8} {iovec : ℕ → Iovec} {start count : ℕ} {writeret : UInt32}

@[simp] theorem Iovec.length_bytes (mem : UInt64 → UInt8) (e : Iovec) :
    (e.bytes mem).length = e.iovLen.toNat := by
  simp [Iovec.bytes]

theorem Iovec.bytes_advance (mem : UInt64 → UInt8) (e : Iovec) {k : ℕ} (hk : k ≤ e.iovLen.toNat) :
    Iovec.bytes mem ⟨e.iovBase + UInt64.ofNat k, e.iovLen - UInt64.ofNat k⟩ =
      (e.bytes mem).drop k := by
  have hof : (UInt64.ofNat k).toNat = k :=
    UInt64.toNat_ofNat_of_lt (Nat.lt_of_le_of_lt hk e.iovLen.toNat_lt)
  have hle : UInt64.ofNat k ≤ e.iovLen := by
    rw [UInt64.le_iff_toNat_le, hof]
    exact hk
  have hlen : (e.iovLen - UInt64.ofNat k).toNat = e.iovLen.toNat - k := by
    rw [UInt64.toNat_sub_of_le _ _ hle, hof]
  apply List.ext_getElem
  · simp [hlen]
  · intro i hi _
    simp only [bytes, List.getElem_map, List.getElem_range, List.getElem_drop]
    rw [UInt64.add_assoc, ← UInt64.ofNat_add]

theorem length_gather_bytes (mem : UInt64 → UInt8) (iovec : ℕ → Iovec) (start n : ℕ) :
    (gather (fun i => (iovec i).bytes mem) start n).length = totalLen iovec start n := by
  induction n with
  | zero => rfl
  | succ n ih =>
    rw [gather_add, List.length_append, ih, gather_succ, gather_zero, List.append_nil,
      Iovec.length_bytes, totalLen]

theorem totalLen_mono (iovec : ℕ → Iovec) (start : ℕ) {m n : ℕ} (h : m ≤ n) :
    totalLen iovec start m ≤ totalLen iovec start n := by
  induction h with
  | refl => exact Nat.le_refl _
  | step _ ih => exact ih.trans (Nat.le_add_right _ _)

theorem entry_unique {m n w : ℕ} (hm : totalLen iovec start m < w)
    (hm' : w ≤ totalLen iovec start (m + 1)) (hn : totalLen iovec start n < w)
    (hn' : w ≤ totalLen iovec start (n + 1)) : m = n := by
  by_contra hne
  rcases Nat.lt_or_gt_of_ne hne with hlt | hlt
  · exact absurd (hm'.trans (totalLen_mono iovec start hlt)) (Nat.not_le_of_lt hn)
  · exact absurd (hn'.trans (totalLen_mono iovec start hlt)) (Nat.not_le_of_lt hm)

variable (iovec start) in
/-- After each round of the loop the total is that of the entries so far, and the crossing is found
if it is one of them. -/
theorem sumLoop_spec (hpos : 0 < writeret.toNat) (n : ℕ) (hfits : totalLen iovec start n < 2 ^ 32) :
    (sumLoop iovec start writeret n).total.toNat = totalLen iovec start n ∧
      (totalLen iovec start n < writeret.toNat ∧ (sumLoop iovec start writeret n).tmptotal = 0 ∨
        ∃ j < n, (sumLoop iovec start writeret n).found = some j ∧
          (sumLoop iovec start writeret n).tmptotal.toNat = totalLen iovec start (j + 1) ∧
          totalLen iovec start j < writeret.toNat ∧
          writeret.toNat ≤ totalLen iovec start (j + 1)) := by
  induction n with
  | zero => exact ⟨rfl, .inl ⟨hpos, rfl⟩⟩
  | succ n ih =>
    have hlast : totalLen iovec start (n + 1) =
        totalLen iovec start n + (iovec (start + n)).iovLen.toNat := rfl
    obtain ⟨htotal, hfound⟩ := ih (by omega)
    have hsum : ((sumLoop iovec start writeret n).total.toUInt64 +
        (iovec (start + n)).iovLen).toUInt32.toNat = totalLen iovec start (n + 1) := by
      rw [add_iovLen (by rw [htotal]; omega), htotal, hlast]
    have hreach : writeret ≤ ((sumLoop iovec start writeret n).total.toUInt64 +
        (iovec (start + n)).iovLen).toUInt32 ↔ writeret.toNat ≤ totalLen iovec start (n + 1) := by
      rw [UInt32.le_iff_toNat_le, hsum]
    rw [sumLoop]
    rcases hfound with ⟨hlow, hunset⟩ | ⟨j, hj, hset, htmp, hlow, hhigh⟩
    · by_cases hhigh : writeret.toNat ≤ totalLen iovec start (n + 1)
      · rw [if_pos ⟨hreach.mpr hhigh, hunset⟩]
        exact ⟨hsum, .inr ⟨n, Nat.lt_succ_self n, rfl, hsum, hlow, hhigh⟩⟩
      · rw [if_neg fun h => hhigh (hreach.mp h.1)]
        exact ⟨hsum, .inl ⟨Nat.lt_of_not_le hhigh, hunset⟩⟩
    · have hne : (sumLoop iovec start writeret n).tmptotal ≠ 0 := by
        intro hzero
        rw [hzero, UInt32.toNat_zero] at htmp
        omega
      rw [if_neg fun h => hne h.2]
      exact ⟨hsum, .inr ⟨j, Nat.lt_succ_of_lt hj, hset, htmp, hlow, hhigh⟩⟩

/-- A write ends at the end of an entry, which is left alone, or inside one, which is moved by as
much as an `int` makes of what was written of it. -/
theorem Iovec.checkIOVTotalWritten_eq (hpos : 0 < writeret.toNat)
    (hfits : totalLen iovec start count < 2 ^ 32)
    (hle : writeret.toNat ≤ totalLen iovec start count) :
    ∃ j < count, ∃ total s : UInt32, total.toNat = totalLen iovec start count ∧
      totalLen iovec start j < writeret.toNat ∧ writeret.toNat ≤ totalLen iovec start (j + 1) ∧
      s.toNat = writeret.toNat - totalLen iovec start j ∧
      checkIOVTotalWritten iovec start count writeret =
        if totalLen iovec start (j + 1) = writeret.toNat then
          ⟨true, some (start + (j + 1)), total, iovec⟩
        else ⟨false, some (start + j), total, Function.update iovec (start + j)
          ⟨(iovec (start + j)).iovBase + sizeOfInt s.toInt32,
            (iovec (start + j)).iovLen - sizeOfInt s.toInt32⟩⟩ := by
  obtain ⟨htotal, ⟨hlow, -⟩ | ⟨j, hj, hfound, htmp, hlow, hhigh⟩⟩ :=
    sumLoop_spec iovec start hpos count hfits
  · omega
  · have hlast : totalLen iovec start (j + 1) =
        totalLen iovec start j + (iovec (start + j)).iovLen.toNat := rfl
    generalize hs : sumLoop iovec start writeret count = s at htotal hfound htmp
    have hset : s.tmptotal ≠ 0 := by
      intro hzero
      rw [hzero, UInt32.toNat_zero] at htmp
      omega
    -- one addition is undone
    have hundo : (s.tmptotal.toUInt64 - (iovec (start + j)).iovLen).toUInt32.toNat =
        totalLen iovec start j := by
      rw [sub_iovLen (by omega), htmp, hlast, Nat.add_sub_cancel]
    have hseek : (writeret - (s.tmptotal.toUInt64 - (iovec (start + j)).iovLen).toUInt32).toNat =
        writeret.toNat - totalLen iovec start j := by
      rw [UInt32.toNat_sub_of_le, hundo]
      rw [UInt32.le_iff_toNat_le, hundo]
      exact hlow.le
    refine ⟨j, hj, s.total, _, htotal, hlow, hhigh, hseek, ?_⟩
    unfold checkIOVTotalWritten
    dsimp only
    rw [hs, if_pos hset, if_pos hset, hfound, Option.getD_some]
    by_cases hexact : totalLen iovec start (j + 1) = writeret.toNat
    · rw [if_pos hexact, if_pos (UInt32.toNat_inj.mp (htmp.trans hexact))]
    · have hlt : writeret < s.tmptotal := by
        rw [UInt32.lt_iff_toNat_lt]
        omega
      rw [if_neg hexact, if_neg (UInt32.ne_of_lt hlt).symm, if_pos hlt]

theorem Iovec.bytes_update (mem : UInt64 → UInt8) (iovec : ℕ → Iovec) (a : ℕ) {k : ℕ}
    (hk : k ≤ (iovec a).iovLen.toNat) :
    (fun i => (Function.update iovec a
      ⟨(iovec a).iovBase + UInt64.ofNat k, (iovec a).iovLen - UInt64.ofNat k⟩ i).bytes mem) =
      Function.update (fun i => (iovec i).bytes mem) a (((iovec a).bytes mem).drop k) := by
  funext i
  by_cases hi : i = a
  · subst i
    rw [Function.update_self, Function.update_self, Iovec.bytes_advance _ _ hk]
  · rw [Function.update_of_ne hi, Function.update_of_ne hi]

theorem ShortSeek.of_lt (h : writeret.toNat < 2 ^ 31) : ShortSeek iovec start count writeret :=
  fun _ _ _ _ => by omega

/-- On the contents of the entries, the code does what its model on contents does. -/
theorem ShortSeek.checkIOVTotalWritten_bytes (mem : UInt64 → UInt8) (hpos : 0 < writeret.toNat)
    (hfits : totalLen iovec start count < 2 ^ 32)
    (hle : writeret.toNat ≤ totalLen iovec start count) (h : ShortSeek iovec start count writeret) :
    ∃ iovEnd, (Iovec.checkIOVTotalWritten iovec start count writeret).iovEnd = some iovEnd ∧
      checkIOVTotalWritten (fun i => (iovec i).bytes mem) start count writeret.toNat =
        some (iovEnd, fun i =>
          ((Iovec.checkIOVTotalWritten iovec start count writeret).iovec i).bytes mem) := by
  obtain ⟨j, hj, total, s, -, hlow, hhigh, hs, heq⟩ := Iovec.checkIOVTotalWritten_eq hpos hfits hle
  obtain ⟨a, ha, -, hbelow, habove, -, hbytes⟩ :=
    @checkIOVTotalWritten_eq (fun i => (iovec i).bytes mem) start count _ hpos
      (by rwa [length_gather_bytes]) (.of_total _ (by rwa [length_gather_bytes]))
  obtain ⟨m, rfl⟩ := Nat.exists_eq_add_of_le ha
  rw [Nat.add_sub_cancel_left, length_gather_bytes] at hbelow habove hbytes
  rw [Iovec.length_bytes] at habove hbytes
  obtain rfl := entry_unique hlow hhigh hbelow habove
  have hlast : totalLen iovec start (j + 1) =
      totalLen iovec start j + (iovec (start + j)).iovLen.toNat := rfl
  rw [heq, hbytes, ← hlast]
  by_cases hexact : totalLen iovec start (j + 1) = writeret.toNat
  · rw [if_pos hexact, if_pos hexact]
    exact ⟨_, rfl, rfl⟩
  · have hk : s.toNat ≤ (iovec (start + j)).iovLen.toNat := by omega
    rw [if_neg hexact, if_neg hexact, sizeOfInt_of_lt (hs ▸ h j hj hlow (by omega)), ← hs,
      ← Iovec.bytes_update mem iovec _ hk]
    exact ⟨_, rfl, rfl⟩

theorem ShortSeek.dropsWritten (mem : UInt64 → UInt8) (hpos : 0 < writeret.toNat)
    (hfits : totalLen iovec start count < 2 ^ 32)
    (hle : writeret.toNat ≤ totalLen iovec start count) (h : ShortSeek iovec start count writeret) :
    DropsWritten mem iovec start count writeret
      (Iovec.checkIOVTotalWritten iovec start count writeret) := by
  obtain ⟨j, hj, total, s, htotal, hlow, hhigh, hs, heq⟩ :=
    Iovec.checkIOVTotalWritten_eq hpos hfits hle
  rw [heq]
  have hlast : totalLen iovec start (j + 1) =
      totalLen iovec start j + (iovec (start + j)).iovLen.toNat := rfl
  have hall : start + count - start = count := Nat.add_sub_cancel_left ..
  by_cases hexact : totalLen iovec start (j + 1) = writeret.toNat
  · rw [if_pos hexact]
    refine ⟨htotal, _, rfl, Nat.le_add_right .., by omega, fun _ _ => rfl, .inl rfl, ?_⟩
    have hdrop := drop_gather (fun i => (iovec i).bytes mem) (Nat.le_add_right start (j + 1))
      (by omega : start + (j + 1) ≤ start + count)
    rw [hall, Nat.add_sub_cancel_left, length_gather_bytes, hexact] at hdrop
    exact hdrop.symm
  · rw [if_neg hexact]
    have hk : s.toNat < (iovec (start + j)).iovLen.toNat := by omega
    rw [sizeOfInt_of_lt (hs ▸ h j hj hlow (by omega))]
    refine ⟨htotal, _, rfl, Nat.le_add_right .., by omega, fun i hi => Function.update_of_ne hi .., ?_, ?_⟩
    · exact .inr ⟨s.toNat, hk, Function.update_self ..⟩
    · have hpart := drop_gather_part (fun i => (iovec i).bytes mem) (Nat.le_add_right start j)
        (by omega : start + j < start + count) (r := writeret.toNat)
      rw [hall, Nat.add_sub_cancel_left, length_gather_bytes, ← hs, Iovec.length_bytes] at hpart
      rw [← hpart hlow.le (by omega), ← Iovec.bytes_update mem iovec _ hk.le]

/-- An entry of which 2 GiB or more were written is moved the other way. -/
theorem DropsWritten.shortSeek (hpos : 0 < writeret.toNat)
    (hfits : totalLen iovec start count < 2 ^ 32)
    (hle : writeret.toNat ≤ totalLen iovec start count)
    (h : DropsWritten mem iovec start count writeret
      (Iovec.checkIOVTotalWritten iovec start count writeret)) :
    ShortSeek iovec start count writeret := by
  obtain ⟨j, hj, total, s, -, hlow, hhigh, hs, heq⟩ := Iovec.checkIOVTotalWritten_eq hpos hfits hle
  intro n _ hn hn'
  obtain rfl := entry_unique hlow hhigh hn hn'.le
  have hlast : totalLen iovec start (j + 1) =
      totalLen iovec start j + (iovec (start + j)).iovLen.toNat := rfl
  have hmost : totalLen iovec start (j + 1) ≤ _ := totalLen_mono iovec start hj
  rw [← hs]
  by_contra hlong
  have hbig := sizeOfInt_of_le (Nat.le_of_not_lt hlong)
  rw [heq, if_neg hn'.ne'] at h
  obtain ⟨iovEnd, hend, -, -, -, hentry, -⟩ := h.ends
  obtain rfl := Option.some.inj hend
  dsimp only at hentry
  rw [Function.update_self] at hentry
  -- less a `size_t` of 2^63 or more the length comes out larger, not smaller
  have hlen : ((iovec (start + j)).iovLen - sizeOfInt s.toInt32).toNat ≤
      (iovec (start + j)).iovLen.toNat := by
    rcases hentry with hsame | ⟨k, hk, hmoved⟩
    · exact (congrArg (fun e => e.iovLen.toNat) hsame).le
    · have hof : (UInt64.ofNat k).toNat = k :=
        UInt64.toNat_ofNat_of_lt (hk.trans (UInt64.toNat_lt _))
      have hnew := congrArg Iovec.iovLen hmoved
      dsimp only at hnew
      rw [hnew, UInt64.toNat_sub_of_le, hof]
      · exact Nat.sub_le ..
      · rw [UInt64.le_iff_toNat_le, hof]
        exact hk.le
  have hneg := (sizeOfInt s.toInt32).toNat_lt
  rw [UInt64.toNat_sub] at hlen
  omega

/-- For every memory, every list of entries with a total below 2^32 and every number of bytes up to
the total, the cursor drops exactly the written bytes if and only if the write does not end inside an
entry of which 2 GiB or more were written. -/
theorem dropsWritten_iff (mem : UInt64 → UInt8) (iovec : ℕ → Iovec) (start count : ℕ)
    (writeret : UInt32) (hpos : 0 < writeret.toNat)
    (hfits : totalLen iovec start count < 2 ^ 32)
    (hle : writeret.toNat ≤ totalLen iovec start count) :
    DropsWritten mem iovec start count writeret
        (Iovec.checkIOVTotalWritten iovec start count writeret) ↔
      ShortSeek iovec start count writeret :=
  ⟨fun h => h.shortSeek hpos hfits hle, fun h => h.dropsWritten mem hpos hfits hle⟩

def threeIovecs : ℕ → Iovec
  | 0 => ⟨64, 5⟩
  | 2 => ⟨128, 7⟩
  | _ => ⟨0, 0⟩

theorem dropsWritten_insideLast :
    (0 < (8 : UInt32).toNat ∧ totalLen threeIovecs 0 3 < 2 ^ 32 ∧
      (8 : UInt32).toNat ≤ totalLen threeIovecs 0 3) ∧
    DropsWritten (fun a => a.toUInt8) threeIovecs 0 3 8 (Iovec.checkIOVTotalWritten threeIovecs 0 3 8) := by
  have hyps : 0 < (8 : UInt32).toNat ∧ totalLen threeIovecs 0 3 < 2 ^ 32 ∧
      (8 : UInt32).toNat ≤ totalLen threeIovecs 0 3 := by decide
  exact ⟨hyps, (dropsWritten_iff _ _ _ _ _ hyps.1 hyps.2.1 hyps.2.2).mpr (.of_lt (by decide))⟩

/-- A write of 2 GiB out of an entry that is one byte longer. -/
theorem dropsWritten_fails : ¬ ∀ (mem : UInt64 → UInt8) (iovec : ℕ → Iovec) (start count : ℕ)
    (writeret : UInt32), 1 ≤ count → totalLen iovec start count < 2 ^ 32 → 0 < writeret.toNat →
      writeret.toNat ≤ totalLen iovec start count →
        DropsWritten mem iovec start count writeret
          (Iovec.checkIOVTotalWritten iovec start count writeret) := by
  intro h
  have hlen : totalLen (fun _ => ⟨0, 2147483649⟩) 0 1 = 2 ^ 31 + 1 := rfl
  have hret : (2147483648 : UInt32).toNat = 2 ^ 31 := rfl
  have hdrops := h (fun _ => 0) (fun _ => ⟨0, 2147483649⟩) 0 1 2147483648 (Nat.le_refl 1)
    (by rw [hlen]; decide) (by decide) (by rw [hlen, hret]; decide)
  have hseek := hdrops.shortSeek (by decide) (by rw [hlen]; decide) (by rw [hlen, hret]; decide)
    0 Nat.one_pos (by decide) (by rw [hlen, hret]; decide)
  exact absurd hseek (by decide)

end Acached.Reply
