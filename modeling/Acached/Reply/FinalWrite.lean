import Acached.Reply.Flush

/-! # The final write of a range

`aConn::WriteAllOnce` on a range of entries, with the results of its calls of
`sendmsg` as input. After a short write that ends inside an entry it goes on
from that entry with as many entries as before; a write that ends with an entry
ends the call.
-/
namespace Acached.Reply
open CString Gather

/-- What a `sendmsg` of `WriteAllOnce` leads to. With `EAGAIN` comes the last result of waiting for
the socket; a number of bytes is at most what Linux transfers at a time, less than `2 ^ 31`. -/
inductive SendResult where
  | eintr
  | eagain (ret2 : ℤ)
  | error
  | sent (writeret : ℕ)
  deriving DecidableEq, Repr

/-- The parameters and locals of `WriteAllOnce`, the entries, and the bytes handed over so far. -/
structure WriteAll where
  start : ℕ
  iovCount : ℕ
  totalcount : ℤ
  iovec : ℕ → Bytes
  sent : Bytes

def WriteAll.init (iovec : ℕ → Bytes) (start iovCount : ℕ) : WriteAll :=
  ⟨start, iovCount, 0, iovec, []⟩

/-- What `CheckIOVTotalWritten` returns: whether the total that it found is `writeret`. -/
def endsWithEntry (iovec : ℕ → Bytes) (start count writeret : ℕ) : Bool :=
  (reachWritten iovec writeret start count 0).any fun (_, total) => total = writeret

/-- `aConn::WriteAllOnce`: what it returns, the bytes it handed over, and the results it left. -/
def writeAllOnce : WriteAll → List SendResult → Option (ℤ × Bytes × List SendResult)
  | _, [] => none
  | s, .eintr :: results => writeAllOnce s results
  | s, .eagain ret2 :: results =>
    if ret2 < 0 then some (ret2, s.sent, results) else writeAllOnce s results
  | s, .error :: results => some (-1, s.sent, results)
  | s, .sent writeret :: results =>
    let offered := gather s.iovec s.start s.iovCount
    if writeret = 0 then some (0, s.sent, results)
    else if offered.length < writeret ∨ 2 ^ 31 ≤ writeret then none
    else match checkIOVTotalWritten s.iovec s.start s.iovCount writeret with
      | none => none
      | some (iovEnd, iovec) =>
        let sent := s.sent ++ offered.take writeret
        let totalcount := Int.bmod (s.totalcount + writeret) (2 ^ 32)
        if endsWithEntry s.iovec s.start s.iovCount writeret then some (totalcount, sent, results)
        else
          let start := iovEnd
          -- `start` is the new one on both sides
          let iovCount := s.iovCount - (iovEnd - start)
          writeAllOnce { start, iovCount, totalcount, iovec, sent } results

/-- One `sendmsg` of `WriteAllOnce`: how the call goes on, and what it returns if it is over. -/
def WriteAll.sendmsg (s : WriteAll) : SendResult → Option (WriteAll × Option ℤ)
  | .eintr => some (s, none)
  | .eagain ret2 => some (s, if ret2 < 0 then some ret2 else none)
  | .error => some (s, some (-1))
  | .sent writeret =>
    let offered := gather s.iovec s.start s.iovCount
    if writeret = 0 then some (s, some 0)
    else if offered.length < writeret ∨ 2 ^ 31 ≤ writeret then none
    else (checkIOVTotalWritten s.iovec s.start s.iovCount writeret).map fun (iovEnd, iovec) =>
      let t := { s with
        totalcount := Int.bmod (s.totalcount + writeret) (2 ^ 32)
        iovec := iovec
        sent := s.sent ++ offered.take writeret }
      if endsWithEntry s.iovec s.start s.iovCount writeret then (t, some t.totalcount)
      else ({ t with start := iovEnd }, none)

/-- `WriteAllOnce` makes one `sendmsg` after the other until it returns. -/
theorem writeAllOnce_cons (s : WriteAll) (r : SendResult) (results : List SendResult) :
    writeAllOnce s (r :: results) = (s.sendmsg r).bind fun (t, ret) => match ret with
      | some v => some (v, t.sent, results)
      | none => writeAllOnce t results := by
  cases r with
  | eintr | error => rfl
  | eagain ret2 =>
    rw [writeAllOnce, WriteAll.sendmsg]
    split <;> rfl
  | sent writeret =>
    simp only [writeAllOnce, WriteAll.sendmsg]
    split
    · rfl
    · split
      · rfl
      · cases checkIOVTotalWritten s.iovec s.start s.iovCount writeret with
        | none => rfl
        | some p =>
          simp only [Option.map_some, Option.bind_some, Nat.sub_self, Nat.sub_zero]
          split <;> rfl

/-- How many bytes have gone out after each write, `p` before the first one. -/
def ends : ℕ → List SendResult → List ℕ
  | _, [] => []
  | p, .sent writeret :: results => (p + writeret) :: ends (p + writeret) results
  | p, _ :: results => ends p results

/-- The bytes handed over are those of the range, and the value returned is their number. -/
def SendsRange (iovec : ℕ → Bytes) (start count : ℕ) (v : ℤ) (sent : Bytes) : Prop :=
  sent = gather iovec start count ∧ v = ((gather iovec start count).length : ℤ)

/-- No write goes past the range, and none ends with an entry while bytes of the range are left. -/
def InsideEntries (iovec : ℕ → Bytes) (start count : ℕ) (positions : List ℕ) : Prop :=
  ∀ p ∈ positions, p ≤ (gather iovec start count).length ∧
    (p < (gather iovec start count).length → ∀ n ≤ count, p ≠ (gather iovec start n).length)

theorem bmod_of_lt {n : ℕ} (h : n < 2 ^ 31) : Int.bmod n (2 ^ 32) = n := by
  rw [Int.bmod_def]
  omega

variable {s : WriteAll} {results rest : List SendResult} {v : ℤ} {out : Bytes}

/-- After a write that `sendmsg` took bytes in: it ended with an entry, and the call is over, or it goes
on with as many entries as before. -/
theorem writeAllOnce_sent {writeret : ℕ}
    (h : writeAllOnce s (.sent writeret :: results) = some (v, out, rest)) :
    (v = 0 ∧ out = s.sent) ∨
    0 < writeret ∧ writeret ≤ (gather s.iovec s.start s.iovCount).length ∧
      ∃ iovEnd iovec, checkIOVTotalWritten s.iovec s.start s.iovCount writeret = some (iovEnd, iovec) ∧
        ((endsWithEntry s.iovec s.start s.iovCount writeret = true ∧
          v = Int.bmod (s.totalcount + writeret) (2 ^ 32) ∧
          out = s.sent ++ (gather s.iovec s.start s.iovCount).take writeret ∧ rest = results) ∨
        endsWithEntry s.iovec s.start s.iovCount writeret = false ∧
          writeAllOnce ⟨iovEnd, s.iovCount, Int.bmod (s.totalcount + writeret) (2 ^ 32), iovec,
            s.sent ++ (gather s.iovec s.start s.iovCount).take writeret⟩ results = some (v, out, rest)) := by
  simp only [writeAllOnce] at h
  by_cases hzero : writeret = 0
  · rw [if_pos hzero] at h
    cases h
    exact .inl ⟨rfl, rfl⟩
  · rw [if_neg hzero] at h
    by_cases hmany : (gather s.iovec s.start s.iovCount).length < writeret ∨ 2 ^ 31 ≤ writeret
    · rw [if_pos hmany] at h
      cases h
    · rw [if_neg hmany] at h
      refine .inr ⟨by omega, by omega, ?_⟩
      cases hcheck : checkIOVTotalWritten s.iovec s.start s.iovCount writeret with
      | none =>
        rw [hcheck] at h
        cases h
      | some p =>
        rw [hcheck] at h
        refine ⟨p.1, p.2, rfl, ?_⟩
        cases hends : endsWithEntry s.iovec s.start s.iovCount writeret with
        | true =>
          rw [hends] at h
          cases h
          exact .inl ⟨rfl, rfl, rfl, rfl⟩
        | false =>
          rw [hends] at h
          refine .inr ⟨rfl, ?_⟩
          simpa using h

/-- What was handed over is never taken back, and the value returned is an `int`. -/
theorem writeAllOnce_extends (h : writeAllOnce s results = some (v, out, rest)) :
    s.sent <+: out ∧ v < 2 ^ 31 := by
  induction results generalizing s with
  | nil => cases h
  | cons r results ih =>
    cases r with
    | eintr => exact ih h
    | eagain ret2 =>
      rw [writeAllOnce] at h
      split at h
      · next hneg =>
        cases h
        exact ⟨List.prefix_refl _, by omega⟩
      · exact ih h
    | error =>
      cases h
      exact ⟨List.prefix_refl _, by decide⟩
    | sent writeret =>
      rcases writeAllOnce_sent h with ⟨rfl, rfl⟩ |
        ⟨-, -, iovEnd, iovec, -, ⟨-, rfl, rfl, -⟩ | ⟨-, hrest⟩⟩
      · exact ⟨List.prefix_refl _, by decide⟩
      · have := Int.bmod_lt (x := s.totalcount + writeret) (m := 2 ^ 32) (by decide)
        exact ⟨List.prefix_append _ _, by omega⟩
      · obtain ⟨hinitial, hlt⟩ := ih hrest
        exact ⟨(List.prefix_append _ _).trans hinitial, hlt⟩

/-- Where the writes so far ended, while bytes of the range are left: inside an entry of it, or at its
beginning. -/
structure Going (iovec : ℕ → Bytes) (start count : ℕ) (s : WriteAll) : Prop where
  cut : Cut iovec s.iovec (gather iovec 0 start ++ s.sent) s.start
  low : start ≤ s.start
  high : s.start < start + count
  iovCount : s.iovCount = count
  total : s.totalcount = s.sent.length
  within : (gather iovec start (s.start - start)).length ≤ s.sent.length

namespace Going

variable {iovec : ℕ → Bytes} {start count : ℕ}

theorem init (hpos : 0 < count) : Going iovec start count (.init iovec start count) where
  cut := by
    refine ⟨?_, fun _ _ => rfl⟩
    rw [WriteAll.init, List.append_nil, gather_add, Nat.zero_add, gather_succ, gather_zero,
      List.append_nil]
  low := Nat.le_refl start
  high := Nat.lt_add_of_pos_right hpos
  iovCount := rfl
  total := rfl
  within := by
    rw [WriteAll.init, Nat.sub_self]
    exact Nat.le_refl 0

theorem sent_append (h : Going iovec start count s) {n : ℕ} (hn : s.start < n) :
    s.sent ++ gather s.iovec s.start (n - s.start) = gather iovec start (n - start) := by
  have hall := h.cut.sent_append hn
  have hlow := h.low
  obtain ⟨m, rfl⟩ : ∃ m, n = start + m := ⟨n - start, by omega⟩
  rw [gather_add iovec 0 start, Nat.zero_add, List.append_assoc] at hall
  rw [Nat.add_sub_cancel_left]
  exact List.append_cancel_left hall

theorem length_append (h : Going iovec start count s) {n : ℕ} (hn : s.start < n) :
    s.sent.length + (gather s.iovec s.start (n - s.start)).length =
      (gather iovec start (n - start)).length := by
  rw [← h.sent_append hn, List.length_append]

theorem reach (h : Going iovec start count s) {writeret : ℕ} (hpos : 0 < writeret)
    (hT : (gather iovec start count).length < 2 ^ 31)
    (hle : s.sent.length + writeret ≤ (gather iovec start count).length) :
    ∃ j, s.start ≤ j ∧ j < start + count ∧
      (gather s.iovec s.start (j - s.start)).length < writeret ∧
      writeret ≤ (gather s.iovec s.start (j - s.start)).length + (s.iovec j).length ∧
      endsWithEntry s.iovec s.start s.iovCount writeret =
        decide ((gather s.iovec s.start (j - s.start)).length + (s.iovec j).length = writeret) ∧
      checkIOVTotalWritten s.iovec s.start s.iovCount writeret =
        some (if (gather s.iovec s.start (j - s.start)).length + (s.iovec j).length = writeret then
            (j + 1, s.iovec)
          else (j, Function.update s.iovec j
            ((s.iovec j).drop (writeret - (gather s.iovec s.start (j - s.start)).length)))) := by
  have hlow := h.low
  have hhigh := h.high
  have hlen := h.length_append hhigh
  rw [Nat.add_sub_cancel_left] at hlen
  have hleft : writeret ≤ (gather s.iovec s.start (start + count - s.start)).length := by omega
  have hinside (n : ℕ) (hn : (gather s.iovec s.start n).length < writeret) :
      n < start + count - s.start := by
    by_contra hge
    have := gather_length_le s.iovec s.start (Nat.le_of_not_lt hge)
    omega
  have hfits : TotalFits s.iovec s.start s.iovCount 0 writeret := by
    intro n _ hn
    rw [Nat.zero_add] at hn ⊢
    have hnext : n + 1 ≤ start + count - s.start := hinside n hn
    have := gather_length_le s.iovec s.start hnext
    omega
  have hoffered : writeret ≤ (gather s.iovec s.start s.iovCount).length := by
    have := gather_length_le s.iovec s.start (m := start + count - s.start) (n := s.iovCount)
      (by rw [h.iovCount]; omega)
    omega
  obtain ⟨j, hj, -, hbelow, habove, hreach, hcheck⟩ := checkIOVTotalWritten_eq hpos hoffered hfits
  have hjn := hinside _ hbelow
  refine ⟨j, hj, by omega, hbelow, habove, ?_, hcheck⟩
  rw [endsWithEntry, hreach, Option.any_some]

theorem inside (h : Going iovec start count s) {j writeret : ℕ} (hj : s.start ≤ j)
    (hjn : j < start + count) (hlow : (gather s.iovec s.start (j - s.start)).length < writeret)
    (hhigh : writeret < (gather s.iovec s.start (j - s.start)).length + (s.iovec j).length)
    (hT : (gather iovec start count).length < 2 ^ 31) :
    Going iovec start count ⟨j, s.iovCount, Int.bmod (s.totalcount + writeret) (2 ^ 32),
        Function.update s.iovec j
          ((s.iovec j).drop (writeret - (gather s.iovec s.start (j - s.start)).length)),
        s.sent ++ (gather s.iovec s.start s.iovCount).take writeret⟩ ∧
      s.sent.length + writeret < (gather iovec start count).length ∧
      ∀ n ≤ count, s.sent.length + writeret ≠ (gather iovec start n).length := by
  have hstart := h.low
  have hend := h.length_append (n := j + 1) (by omega)
  rw [gather_last _ hj, List.length_append] at hend
  have hbegin : (gather iovec start (j - start)).length ≤
      s.sent.length + (gather s.iovec s.start (j - s.start)).length := by
    rcases Nat.lt_or_eq_of_le hj with hlt | rfl
    · exact (h.length_append hlt).ge
    · exact h.within.trans (Nat.le_add_right _ _)
  have hwhole := gather_length_le iovec start (m := j + 1 - start) (n := count) (by omega)
  have hoffered : writeret ≤ (gather s.iovec s.start s.iovCount).length := by
    have hrange := h.length_append h.high
    rw [Nat.add_sub_cancel_left] at hrange
    have := gather_length_le s.iovec s.start (m := start + count - s.start) (n := s.iovCount)
      (by rw [h.iovCount]; omega)
    omega
  have hsent : (s.sent ++ (gather s.iovec s.start s.iovCount).take writeret).length =
      s.sent.length + writeret := by
    rw [List.length_append, List.length_take, Nat.min_eq_left hoffered]
  refine ⟨⟨?_, hstart.trans hj, hjn, h.iovCount, ?_, ?_⟩, by omega, ?_⟩
  · have hcut := h.cut.write hj (n := s.iovCount) (by rw [h.iovCount]; omega) hlow.le hhigh.le
    rw [List.append_assoc] at hcut
    exact hcut
  · dsimp only
    rw [hsent, h.total, ← Int.natCast_add, bmod_of_lt (by omega)]
  · dsimp only
    rw [hsent]
    omega
  · intro n hn heq
    rcases Nat.lt_or_ge (j - start) n with hlt | hge
    · have := gather_length_le iovec start (m := j + 1 - start) (n := n) (by omega)
      omega
    · have := gather_length_le iovec start hge
      omega

theorem whole (h : Going iovec start count s) {j writeret : ℕ} (hj : s.start ≤ j)
    (hjn : j < start + count)
    (hexact : (gather s.iovec s.start (j - s.start)).length + (s.iovec j).length = writeret) :
    s.sent ++ (gather s.iovec s.start s.iovCount).take writeret =
      gather iovec start (j + 1 - start) := by
  have hstart := h.low
  have hinitial := gather_initial s.iovec s.start (m := j + 1 - s.start) (n := s.iovCount)
    (by rw [h.iovCount]; omega)
  have hlen : (gather s.iovec s.start (j + 1 - s.start)).length = writeret := by
    rw [gather_last _ hj, List.length_append, hexact]
  rw [List.prefix_iff_eq_take, hlen] at hinitial
  rw [← hinitial]
  exact h.sent_append (Nat.lt_succ_of_le hj)

end Going

theorem insideEntries_cons {iovec : ℕ → Bytes} {start count p : ℕ} {ps : List ℕ} :
    InsideEntries iovec start count (p :: ps) ↔ (p ≤ (gather iovec start count).length ∧
      (p < (gather iovec start count).length → ∀ n ≤ count, p ≠ (gather iovec start n).length)) ∧
      InsideEntries iovec start count ps := List.forall_mem_cons

variable {iovec : ℕ → Bytes} {start count : ℕ}

/-- A call that ends with an entry has sent the range if the entry is the last one that is not empty. -/
theorem sendsRange_whole_iff {n : ℕ} (hn : n ≤ count) :
    SendsRange iovec start count ((gather iovec start n).length : ℤ) (gather iovec start n) ↔
      InsideEntries iovec start count [(gather iovec start n).length] := by
  have hinitial := gather_initial iovec start hn
  rw [insideEntries_cons]
  constructor
  · rintro ⟨heq, -⟩
    refine ⟨⟨hinitial.length_le, fun hlt => ?_⟩, List.forall_mem_nil _⟩
    rw [heq] at hlt
    exact absurd hlt (Nat.lt_irrefl _)
  · rintro ⟨⟨-, hbetween⟩, -⟩
    have hlen : (gather iovec start n).length = (gather iovec start count).length := by
      by_contra hne
      exact hbetween (Nat.lt_of_le_of_ne hinitial.length_le hne) n hn rfl
    exact ⟨hinitial.eq_of_length hlen, by rw [hlen]⟩

theorem not_sendsRange {sent : Bytes} (hinitial : sent <+: out)
    (hlen : (gather iovec start count).length < sent.length) : ¬ SendsRange iovec start count v out := by
  rintro ⟨rfl, -⟩
  exact absurd hinitial.length_le (Nat.not_le_of_lt hlen)

theorem Going.sendsRange_iff_inside (h : Going iovec start count s)
    (hT : (gather iovec start count).length < 2 ^ 31)
    (hrun : writeAllOnce s results = some (v, out, [])) (hv : 0 < v) :
    SendsRange iovec start count v out ↔
      InsideEntries iovec start count (ends s.sent.length results) := by
  induction results generalizing s with
  | nil => cases hrun
  | cons r results ih =>
    cases r with
    | eintr => exact ih h hrun
    | eagain ret2 =>
      rw [writeAllOnce] at hrun
      split at hrun
      · next hneg =>
        cases hrun
        omega
      · exact ih h hrun
    | error =>
      cases hrun
      exact absurd hv (by decide)
    | sent writeret =>
      rw [ends]
      rcases writeAllOnce_sent hrun with ⟨rfl, -⟩ | ⟨hpos, hoffered, iovEnd, iovec', hcheck, hnext⟩
      · exact absurd hv (Int.lt_irrefl 0)
      have hlen : (s.sent ++ (gather s.iovec s.start s.iovCount).take writeret).length =
          s.sent.length + writeret := by
        rw [List.length_append, List.length_take, Nat.min_eq_left hoffered]
      by_cases hle : s.sent.length + writeret ≤ (gather iovec start count).length
      · obtain ⟨j, hj, hjn, hlow, hhigh, hends, heq⟩ := h.reach hpos hT hle
        rw [heq] at hcheck
        by_cases hexact :
            (gather s.iovec s.start (j - s.start)).length + (s.iovec j).length = writeret
        · rw [hends, decide_eq_true hexact] at hnext
          rcases hnext with ⟨-, rfl, rfl, hnil⟩ | ⟨hfalse, -⟩
          · have hstart := h.low
            rw [h.total, ← Int.natCast_add, bmod_of_lt (by omega), ← hnil, ends, ← hlen,
              h.whole hj hjn hexact]
            exact sendsRange_whole_iff (by omega)
          · cases hfalse
        · rw [if_neg hexact] at hcheck
          cases hcheck
          rw [hends, decide_eq_false hexact] at hnext
          rcases hnext with ⟨htrue, -⟩ | ⟨-, hrest⟩
          · cases htrue
          · obtain ⟨hgoing, hshort, hbetween⟩ := h.inside hj hjn hlow (by omega) hT
            rw [ih hgoing hrest, insideEntries_cons]
            dsimp only
            rw [hlen]
            exact (and_iff_right ⟨hle, fun _ => hbetween⟩).symm
      · have hinitial : s.sent ++ (gather s.iovec s.start s.iovCount).take writeret <+: out := by
          rcases hnext with ⟨-, -, rfl, -⟩ | ⟨-, hrest⟩
          · exact List.prefix_refl _
          · exact (writeAllOnce_extends hrest).1
        refine iff_of_false (not_sendsRange hinitial (by omega)) fun hinside => ?_
        exact hle (insideEntries_cons.mp hinside).1.1

/-- For every range, and all results of the calls that `WriteAllOnce` makes until it returns a positive
value, it has sent the range exactly if the range has less than `2 ^ 31` bytes and each write but the last
one ended inside an entry of it. -/
theorem sendsRange_iff (iovec : ℕ → Bytes) (start count : ℕ) (results : List SendResult) (v : ℤ)
    (out : Bytes) (hcount : 1 ≤ count)
    (hrun : writeAllOnce (.init iovec start count) results = some (v, out, [])) (hv : 0 < v) :
    SendsRange iovec start count v out ↔
      (gather iovec start count).length < 2 ^ 31 ∧ InsideEntries iovec start count (ends 0 results) := by
  by_cases hT : (gather iovec start count).length < 2 ^ 31
  · rw [(Going.init hcount).sendsRange_iff_inside hT hrun hv]
    exact (and_iff_right hT).symm
  · refine iff_of_false ?_ fun h => hT h.1
    rintro ⟨-, rfl⟩
    have := (writeAllOnce_extends hrun).2
    omega

def threeEntries : ℕ → Bytes
  | 0 => [97, 98, 99]
  | 1 => [100, 101]
  | _ => [102]

/-- The first write takes one byte, the second one the rest. -/
theorem sendsRange_threeEntries :
    writeAllOnce (.init threeEntries 0 2) [.eintr, .sent 1, .eagain 1, .sent 4] =
        some (5, [97, 98, 99, 100, 101], []) ∧
      SendsRange threeEntries 0 2 5 [97, 98, 99, 100, 101] :=
  have hrun : writeAllOnce (.init threeEntries 0 2) [.eintr, .sent 1, .eagain 1, .sent 4] =
      some (5, [97, 98, 99, 100, 101], []) := by decide
  ⟨hrun, (sendsRange_iff threeEntries 0 2 _ 5 _ (by decide) hrun (by decide)).mpr
    ⟨by decide, by unfold InsideEntries; decide⟩⟩

/-- The first write takes all of the first entry, and the second entry is not sent. -/
theorem sendsRange_fails : ¬ ∀ (iovec : ℕ → Bytes) (start count : ℕ) (results : List SendResult) (v : ℤ)
    (out : Bytes), 1 ≤ count → 0 < (gather iovec start count).length →
    writeAllOnce (.init iovec start count) results = some (v, out, []) → 0 < v →
    SendsRange iovec start count v out := by
  intro hall
  have h := hall threeEntries 0 2 [.sent 3] 3 [97, 98, 99] (by decide) (by decide) (by decide)
    (by decide)
  exact absurd h.1 (by decide)

end Acached.Reply
