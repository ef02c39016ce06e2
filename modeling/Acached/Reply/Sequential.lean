import Acached.Reply.Flush

/-! # One worker answers a get

A single worker calls `QReply` for one key after the other. Between the calls
`windexlast`, `iovIndex`, `totalsize` and the entries agree about what has gone
out and what is left, however much each early flush sends.
-/
namespace Acached.Reply
open CString Gather Execution

/-- A key that was found, and its value. `vallen + 2` is an `int`. -/
structure Answer where
  key : Bytes
  value : Bytes
  key_le : key.length ≤ 255
  value_ne : value ≠ []
  value_lt : value.length + 2 < 2 ^ 31

def Answer.header (a : Answer) : Bytes := valueLine a.key a.value.length

def Answer.line (a : Answer) : Bytes := a.value ++ crlf

/-- The worker calls `QReply`, or takes its next step; what `sendmsg` returns is an `int32_t`. -/
inductive SeqAct where
  | qReply (a : Answer)
  | step (r : ℤ) (int32 : r < 2 ^ 31)

def SeqAct.act : SeqAct → Act Unit
  | .qReply a => .call () a.header a.line
  | .step r _ => .step () r

def queued (as : List SeqAct) : Bytes :=
  as.flatMap fun
    | .qReply a => a.header ++ a.line
    | .step .. => []

/-- The reply state that a get finds; what the entries were left with does not matter. -/
structure IovReply.Clean (s : IovReply) : Prop where
  iovIndex : s.iovIndex = 0
  windexlast : s.windexlast = 0
  totalsize : s.totalsize = 0
  writingflag : s.writingflag = false
  sent : s.sent = []

def IovReply.left (s : IovReply) : Bytes := gather s.iovec s.windexlast (s.iovIndex - s.windexlast)

/-- The reply state accounts for `q`: part of it has gone out, the rest is in the entries. -/
structure Exact (s : IovReply) (q : Bytes) : Prop where
  window : s.windexlast ≤ s.iovIndex
  totalsize : s.totalsize = UInt32.ofNat s.left.length
  bytes : s.sent ++ s.left = q

/-- With the entries up to `n` filled, what has gone out and what is left of them is `q`; `totalsize`
lacks `late`. -/
structure Filled (s : IovReply) (n : ℕ) (late : UInt32) (q : Bytes) : Prop where
  window : s.windexlast ≤ n
  bytes : s.sent ++ gather s.iovec s.windexlast (n - s.windexlast) = q
  totalsize : s.totalsize + late =
    UInt32.ofNat (gather s.iovec s.windexlast (n - s.windexlast)).length
  short : ∀ i, s.windexlast ≤ i → i < n → (s.iovec i).length < 2 ^ 31

/-- What holds where the worker is, when `q` has been queued with the call that it is in. -/
def At (q : Bytes) (s : IovReply) : QPc → Prop
  | .done => s.writingflag = false ∧ Filled s s.iovIndex 0 q
  | .reserve hdr val => s.writingflag = false ∧ hdr.length < 2 ^ 31 ∧ val.length < 2 ^ 31 ∧
      ∃ q', q = q' ++ hdr ++ val ∧ Filled s s.iovIndex 0 q'
  | .fillHdr index hdr val => s.writingflag = false ∧ hdr.length < 2 ^ 31 ∧ val.length < 2 ^ 31 ∧
      s.iovIndex = index + 2 ∧ ∃ q', q = q' ++ hdr ++ val ∧ Filled s index 0 q'
  | .fillVal index size val => s.writingflag = false ∧ val.length < 2 ^ 31 ∧ s.iovIndex = index + 1 ∧
      ∃ q', q = q' ++ val ∧ Filled s index (UInt32.ofNat size) q'
  | .addTotal index size => s.writingflag = false ∧ s.iovIndex = index + 1 ∧ s.windexlast ≤ index ∧
      Filled s s.iovIndex (UInt32.ofNat size) q
  | .readWindex index _ => s.writingflag = false ∧ s.iovIndex = index + 1 ∧ s.windexlast ≤ index ∧
      Filled s s.iovIndex 0 q
  | .check index _ y => s.writingflag = false ∧ s.iovIndex = index + 1 ∧ y = s.windexlast ∧
      s.windexlast ≤ index ∧ Filled s s.iovIndex 0 q
  | .takeFlag start count => s.writingflag = false ∧ start = s.windexlast ∧ 0 ≤ count ∧
      start + count ≤ s.iovIndex ∧ Filled s s.iovIndex 0 q
  | .sendmsg start count => start = s.windexlast ∧ 0 ≤ count ∧ start + count ≤ s.iovIndex ∧
      Filled s s.iovIndex 0 q
  | .account start count writeret => start = s.windexlast ∧ start + count ≤ s.iovIndex ∧
      0 < writeret ∧ writeret < 2 ^ 31 ∧ writeret ≤ (gather s.iovec start count).length ∧
      ∃ sent, s.sent = sent ++ (gather s.iovec start count).take writeret ∧
        Filled { s with sent := sent } s.iovIndex 0 q
  | .advance start iovEnd writeret => start = s.windexlast ∧ 0 < writeret ∧
      Filled { s with windexlast := iovEnd } s.iovIndex (0 - UInt32.ofNat writeret) q
  | .release ret => Filled s s.iovIndex (if 0 < ret then 0 - UInt32.ofNat ret.toNat else 0) q
  | .subTotal ret => s.writingflag = false ∧ Filled s s.iovIndex (0 - UInt32.ofNat ret) q

theorem Answer.header_length (a : Answer) : a.header.length < 2 ^ 31 := by
  have hdigits : (Nat.toDigits 10 a.value.length).length ≤ 10 := by
    rw [Nat.length_toDigits_le_iff (by decide) (by decide)]
    have := a.value_lt
    omega
  have hkey := a.key_le
  simp only [Answer.header, valueLine, List.length_append, List.length_map, List.length_cons,
    List.length_nil]
  omega

theorem Answer.line_length (a : Answer) : a.line.length < 2 ^ 31 := by
  have := a.value_lt
  rw [Answer.line, List.length_append]
  exact this

namespace Filled

variable {s : IovReply} {n : ℕ} {late : UInt32} {q : Bytes}

theorem fill (h : Filled s n late q) {ptr : Bytes} (hlen : ptr.length < 2 ^ 31) :
    Filled (s.addIOVReply ptr n) (n + 1) (late + UInt32.ofNat ptr.length) (q ++ ptr) where
  window := Nat.le_succ_of_le h.window
  bytes := by
    dsimp only [IovReply.addIOVReply]
    rw [gather_update_last _ h.window, ← List.append_assoc, h.bytes]
  totalsize := by
    dsimp only [IovReply.addIOVReply]
    rw [gather_update_last _ h.window, List.length_append, UInt32.ofNat_add, ← h.totalsize,
      UInt32.add_assoc]
  short i hi hin := by
    dsimp only [IovReply.addIOVReply]
    by_cases hlast : i = n
    · rw [hlast, Function.update_self]
      exact hlen
    · rw [Function.update_of_ne hlast]
      exact h.short i hi (by omega)

theorem settle (h : Filled s n late q) {totalsize late' : UInt32}
    (htotal : totalsize + late' = s.totalsize + late) :
    Filled { s with totalsize := totalsize } n late' q :=
  ⟨h.window, h.bytes, htotal.trans h.totalsize, h.short⟩

theorem frame (h : Filled s n late q) {t : IovReply} (hw : t.windexlast = s.windexlast)
    (hi : t.iovec = s.iovec) (hs : t.sent = s.sent) (ht : t.totalsize = s.totalsize) :
    Filled t n late q := by
  refine ⟨?_, ?_, ?_, ?_⟩
  · rw [hw]
    exact h.window
  · rw [hw, hi, hs]
    exact h.bytes
  · rw [hw, hi, ht]
    exact h.totalsize
  · rw [hw, hi]
    exact h.short

theorem write {sent : Bytes} {count writeret : ℕ} (h : Filled { s with sent := sent } n late q)
    (hcount : s.windexlast + count ≤ n) (hpos : 0 < writeret) (hlt : writeret < 2 ^ 31)
    (hle : writeret ≤ (gather s.iovec s.windexlast count).length)
    (hsent : s.sent = sent ++ (gather s.iovec s.windexlast count).take writeret) :
    ∃ iovEnd iovec, checkIOVTotalWritten s.iovec s.windexlast count writeret = some (iovEnd, iovec) ∧
      Filled { s with windexlast := iovEnd, iovec := iovec } n (late - UInt32.ofNat writeret) q := by
  have hshort : TotalFits s.iovec s.windexlast count 0 writeret :=
    .of_entries hlt fun i hi hin => h.short i hi (by omega)
  obtain ⟨j, hj, hjn, hlow, hhigh, -, hcheck⟩ := checkIOVTotalWritten_eq hpos hle hshort
  have hrange : gather s.iovec s.windexlast count <+: gather s.iovec s.windexlast (n - s.windexlast) :=
    gather_initial _ _ (by omega)
  have htake : (gather s.iovec s.windexlast count).take writeret =
      (gather s.iovec s.windexlast (n - s.windexlast)).take writeret := by
    rw [List.prefix_iff_eq_take.mp hrange, List.take_take, Nat.min_eq_left hle]
  -- what is left of the entries, and what it amounts to
  have hrest : ∀ iovEnd iovec, gather iovec iovEnd (n - iovEnd) =
        (gather s.iovec s.windexlast (n - s.windexlast)).drop writeret →
      s.sent ++ gather iovec iovEnd (n - iovEnd) = q ∧
        s.totalsize + (late - UInt32.ofNat writeret) =
          UInt32.ofNat (gather iovec iovEnd (n - iovEnd)).length := by
    intro iovEnd iovec hdrop
    have htotal : s.totalsize + late =
      UInt32.ofNat (gather s.iovec s.windexlast (n - s.windexlast)).length := h.totalsize
    rw [hdrop, hsent, htake, List.append_assoc, List.take_append_drop, List.length_drop,
      UInt32.ofNat_sub (hle.trans hrange.length_le), ← htotal]
    exact ⟨h.bytes, by grind⟩
  rw [hcheck]
  by_cases hexact : (gather s.iovec s.windexlast (j - s.windexlast)).length + (s.iovec j).length =
      writeret
  · rw [if_pos hexact]
    have hlast : (gather s.iovec s.windexlast (j + 1 - s.windexlast)).length = writeret := by
      rw [gather_last _ hj, List.length_append, hexact]
    have hdrop := drop_gather s.iovec (i := s.windexlast) (j := j + 1) (n := n) (by omega) (by omega)
    rw [hlast] at hdrop
    obtain ⟨hbytes, htotal⟩ := hrest (j + 1) s.iovec hdrop.symm
    exact ⟨j + 1, s.iovec, rfl, by dsimp only; omega, hbytes, htotal,
      fun i hi hin => h.short i (by dsimp only at hi ⊢; omega) hin⟩
  · rw [if_neg hexact]
    obtain ⟨hbytes, htotal⟩ := hrest j _ (drop_gather_part s.iovec hj (by omega) hlow.le hhigh)
    refine ⟨j, _, rfl, by dsimp only; omega, hbytes, htotal, fun i hi hin => ?_⟩
    have hold := h.short i (by dsimp only at hi ⊢; omega) hin
    dsimp only at hold ⊢
    by_cases hij : i = j
    · rw [hij, Function.update_self, List.length_drop, ← hij]
      omega
    · rwa [Function.update_of_ne hij]

end Filled

theorem le_checkWritten (written : ℕ → Bool) {index y : ℕ} (h : y ≤ index) (n : ℕ) :
    y ≤ checkWritten written index y n := by
  suffices hall : ∀ i, y ≤ i → y ≤ checkWritten written index i n from hall y (Nat.le_refl y)
  intro i hi
  induction n generalizing i with
  | zero => exact h
  | succ n ih =>
    rw [checkWritten]
    split
    · exact hi
    · exact ih (i + 1) (by omega)

variable {q : Bytes} {s s' : IovReply} {pc pc' : QPc} {r : ℤ}

theorem At.step (h : At q s pc) (hr : r < 2 ^ 31) (hstep : pc.step r s = some (pc', s')) :
    At q s' pc' := by
  cases pc with
  | reserve hdr val =>
    obtain ⟨hflag, hhdr, hval, q', hq, hfilled⟩ := h
    cases hstep
    exact ⟨hflag, hhdr, hval, rfl, q', hq, hfilled.frame rfl rfl rfl rfl⟩
  | fillHdr index hdr val =>
    obtain ⟨hflag, hhdr, hval, hindex, q', hq, hfilled⟩ := h
    cases hstep
    refine ⟨hflag, hval, hindex, q' ++ hdr, hq, ?_⟩
    rw [← UInt32.zero_add (UInt32.ofNat hdr.length)]
    exact hfilled.fill hhdr
  | fillVal index size val =>
    obtain ⟨hflag, hval, hindex, q', rfl, hfilled⟩ := h
    cases hstep
    refine ⟨hflag, hindex, hfilled.window, ?_⟩
    have hindex' : (s.addIOVReply val index).iovIndex = index + 1 := hindex
    rw [hindex', UInt32.ofNat_add]
    exact hfilled.fill hval
  | addTotal index size =>
    obtain ⟨hflag, hindex, hwindow, hfilled⟩ := h
    cases hstep
    exact ⟨hflag, hindex, hwindow, hfilled.settle (UInt32.add_zero _)⟩
  | readWindex index totalsize =>
    obtain ⟨hflag, hindex, hwindow, hfilled⟩ := h
    cases hstep
    exact ⟨hflag, hindex, rfl, hwindow, hfilled⟩
  | check index totalsize y =>
    obtain ⟨hflag, hindex, rfl, hwindow, hfilled⟩ := h
    simp only [QPc.step] at hstep
    have hnew := le_checkWritten s.written hwindow (index - s.windexlast)
    split at hstep
    · cases hstep
      refine ⟨hflag, rfl, ?_, ?_, hfilled⟩
      · omega
      · omega
    · cases hstep
      exact ⟨hflag, hfilled⟩
  | takeFlag start count =>
    obtain ⟨hflag, hstart, hpos, hcount, hfilled⟩ := h
    simp only [QPc.step, hflag, Bool.false_eq_true, if_false, Option.some.injEq, Prod.mk.injEq] at hstep
    obtain ⟨rfl, rfl⟩ := hstep
    refine ⟨hstart, ?_, ?_, hfilled.frame rfl rfl rfl rfl⟩
    · unfold iovMax
      omega
    · dsimp only
      omega
  | sendmsg start count =>
    obtain ⟨rfl, hpos, hcount, hfilled⟩ := h
    simp only [QPc.step] at hstep
    split_ifs at hstep with hneg hle
    · cases hstep
      rw [At, if_neg (by omega)]
      exact hfilled
    · cases hstep
      refine ⟨rfl, ?_, by omega, by omega, ?_, s.sent, rfl, hfilled.frame rfl rfl rfl rfl⟩
      · dsimp only
        omega
      · dsimp only
        omega
  | account start count writeret =>
    obtain ⟨rfl, hcount, hpos, hlt, hle, sent, hsent, hfilled⟩ := h
    obtain ⟨iovEnd, iovec, hcheck, hwritten⟩ := hfilled.write hcount hpos hlt hle hsent
    simp only [QPc.step, hcheck, Option.map_some, Option.some.injEq, Prod.mk.injEq] at hstep
    obtain ⟨rfl, rfl⟩ := hstep
    exact ⟨rfl, hpos, hwritten⟩
  | advance start iovEnd writeret =>
    obtain ⟨rfl, hpos, hfilled⟩ := h
    cases hstep
    rw [if_pos rfl, At, if_pos (by omega)]
    exact hfilled
  | release ret =>
    cases hstep
    rw [At] at h
    by_cases hpos : 0 < ret
    · rw [if_pos hpos] at h ⊢
      exact ⟨rfl, h.frame rfl rfl rfl rfl⟩
    · rw [if_neg hpos] at h ⊢
      exact ⟨rfl, h.frame rfl rfl rfl rfl⟩
  | subTotal ret =>
    obtain ⟨hflag, hfilled⟩ := h
    cases hstep
    exact ⟨hflag, hfilled.settle (by grind)⟩
  | done => cases hstep

/-- No step of a call is blocked, whatever `sendmsg` returns. -/
theorem At.goes_on (h : At q s pc) (hpc : pc ≠ .done)
    (hoffered : ∀ start count, pc = .sendmsg start count →
      r ≤ (gather s.iovec start count.toNat).length) :
    (pc.step r s).isSome := by
  cases pc with
  | reserve | fillHdr | fillVal | addTotal | readWindex | advance | release | subTotal => rfl
  | check index totalsize y =>
    simp only [QPc.step]
    split
    · rfl
    · rfl
  | takeFlag start count =>
    simp only [QPc.step]
    split
    · rfl
    · rfl
  | sendmsg start count =>
    simp only [QPc.step]
    split
    · rfl
    · rw [if_pos ⟨h.2.1, hoffered start count rfl⟩]
      rfl
  | account start count writeret =>
    obtain ⟨rfl, hcount, hpos, hlt, hle, sent, hsent, hfilled⟩ := h
    obtain ⟨iovEnd, iovec, hcheck, -⟩ := hfilled.write hcount hpos hlt hle hsent
    simp only [QPc.step, hcheck, Option.map_some, Option.isSome_some]
  | done => exact absurd rfl hpc

theorem At.exact (h : At q s .done) : Exact s q := by
  obtain ⟨-, hfilled⟩ := h
  have htotal := hfilled.totalsize
  rw [UInt32.add_zero] at htotal
  exact ⟨hfilled.window, htotal, hfilled.bytes⟩

theorem IovReply.Clean.at_done (h : s.Clean) : At [] s .done := by
  refine ⟨h.writingflag, ?_, ?_, ?_, ?_⟩
  · rw [h.windexlast, h.iovIndex]
  · rw [h.sent, h.iovIndex, Nat.zero_sub]
    rfl
  · rw [h.totalsize, h.iovIndex, Nat.zero_sub]
    rfl
  · intro i hi hin
    rw [h.iovIndex] at hin
    exact absurd hin (Nat.not_lt_zero i)

theorem At.exec {as : List SeqAct} {s t : Flush Unit} (h : At q s.reply (s.worker ()))
    (hrun : Execution.exec Reply.step s (as.map SeqAct.act) = some t) :
    At (q ++ queued as) t.reply (t.worker ()) := by
  induction as generalizing s q with
  | nil =>
    obtain rfl := Option.some.inj hrun
    rw [queued, List.flatMap_nil, List.append_nil]
    exact h
  | cons a as ih =>
    rw [List.map_cons, exec_cons] at hrun
    obtain ⟨u, hu, hrest⟩ := Option.bind_eq_some_iff.mp hrun
    cases a with
    | qReply a =>
      simp only [SeqAct.act, Reply.step, Option.ite_none_right_eq_some, Option.some.injEq] at hu
      obtain ⟨hpc, rfl⟩ := hu
      rw [hpc] at h
      have hcall : At (q ++ a.header ++ a.line) s.reply (.reserve a.header a.line) :=
        ⟨h.1, a.header_length, a.line_length, q, rfl, h.2⟩
      have hqueued : q ++ queued (.qReply a :: as) = q ++ a.header ++ a.line ++ queued as := by
        simp only [queued, List.flatMap_cons, List.append_assoc]
      rw [hqueued]
      refine ih ?_ hrest
      dsimp only
      rw [Function.update_self]
      exact hcall
    | step r int32 =>
      simp only [SeqAct.act, Reply.step] at hu
      obtain ⟨⟨pc, reply⟩, hstep, rfl⟩ := Option.map_eq_some_iff.mp hu
      have hqueued : queued (.step r int32 :: as) = queued as := by
        rw [queued, List.flatMap_cons, List.nil_append, queued]
      rw [hqueued]
      refine ih ?_ hrest
      dsimp only
      rw [Function.update_self]
      exact h.step int32 hstep

/-- From every clean reply state, in every run of one worker with any answers and any results of
`sendmsg`: each call comes to its end, and after it the reply state accounts for what was queued. -/
theorem exact_of_clean (s : IovReply) (hclean : s.Clean) (as : List SeqAct) (t : Flush Unit)
    (hrun : exec step ⟨s, fun _ => .done⟩ (as.map SeqAct.act) = some t) :
    (t.worker () = .done → Exact t.reply (queued as)) ∧
      (t.worker () ≠ .done → ∀ r : ℤ, (∀ start count, t.worker () = .sendmsg start count →
        r ≤ (gather t.reply.iovec start count.toNat).length) → (step t (.step () r)).isSome) := by
  have hat : At (queued as) t.reply (t.worker ()) := At.exec (q := []) hclean.at_done hrun
  constructor
  · intro hdone
    rw [hdone] at hat
    exact hat.exact
  · intro hpc r hoffered
    rw [Reply.step, Option.isSome_map]
    exact hat.goes_on hpc hoffered

def longAnswer : Answer where
  key := [99]
  value := List.replicate 129024 0
  key_le := by decide
  value_ne := by rw [Ne, List.replicate_eq_nil_iff]; decide
  value_lt := by rw [List.length_replicate]; decide

def longRun : List SeqAct :=
  let step : SeqAct := .step 0 (by decide)
  [.qReply longAnswer, step, step, step, step, step, step, step, .step 1 (by decide), step, step, step,
    step]

theorem clean_init : IovReply.init.Clean := ⟨rfl, rfl, rfl, rfl, rfl⟩

theorem longAnswer_header : longAnswer.header =
    [86, 65, 76, 85, 69, 32, 99, 32, 48, 32, 49, 50, 57, 48, 50, 52, 32, 49, 13, 10] := by
  rw [Answer.header, longAnswer, List.length_replicate]
  decide

theorem longRun_runs (val : Bytes) (h : 126 * 1024 < 0 + UInt32.ofNat (20 + val.length)) :
    ∃ t, exec step ⟨.init, fun _ => QPc.done⟩ ((.call () longAnswer.header val) ::
      [0, 0, 0, 0, 0, 0, 0, 1, 0, 0, 0, 0].map (.step ())) = some t ∧ t.worker () = .done := by
  rw [longAnswer_header]
  iterate 6 apply exec_cons_of rfl
  apply exec_cons_of (step_of_pc (QPc.step_check 1 h rfl) rfl)
  apply exec_cons_of (step_of_pc (QPc.step_takeFlag rfl (by decide)) rfl)
  iterate 5 apply exec_cons_of rfl
  exact ⟨_, rfl, rfl⟩

theorem longAnswer_line_length : longAnswer.line.length = 129026 := by
  have hvalue : longAnswer.value = List.replicate 129024 0 := rfl
  rw [Answer.line, List.length_append, hvalue, List.length_replicate]
  rfl

theorem exact_longRun : ∃ t, exec step ⟨.init, fun _ => .done⟩ (longRun.map SeqAct.act) = some t ∧
    Exact t.reply (queued longRun) := by
  obtain ⟨t, ht, hdone⟩ := longRun_runs longAnswer.line (by rw [longAnswer_line_length]; decide)
  exact ⟨t, ht, (exact_of_clean .init clean_init longRun t ht).1 hdone⟩

end Acached.Reply
