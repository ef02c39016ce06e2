import Acached.Reply.Flush
import Acached.Worker.Program

/-! # Entries that an earlier command left

The entries of `iovReply` keep what an earlier command, or an earlier client of
the connection object, has left in them until they are filled again. Two
connections that differ in nothing but such entries make the same steps as long
as no worker looks at one of them.
-/
namespace Acached.Worker
open CString Dispatch Reply Gather Execution

/-- The reply states differ at most in entries that are not filled in the second one. -/
def SameFilled (s t : IovReply) : Prop :=
  ∃ iovec written original, s = { t with iovec := iovec, written := written, original := original } ∧
    ∀ i, (t.original i).isSome → iovec i = t.iovec i ∧ written i = t.written i

/-- The entries that a step of a worker looks at. -/
def Pc.Reads (r : ℤ) (i : ℕ) : Pc → Prop
  | .setSend => i = 0
  | .qreply q => q.Covers r i ∨ ∃ totalsize y, q = .check i totalsize y
  | .endScan ret2 y => y ≤ i ∧ i < ret2
  | _ => False

variable {W : Type}

def Session.Alike (s t : Session W) : Prop :=
  ∃ reply, s = { t with reply := reply } ∧ SameFilled reply t.reply

def ReadsFilled (s : Session W) : Act W → Prop
  | .step w _ r => ∀ i, (s.worker w).Reads r i → (s.reply.original i).isSome
  | _ => True

variable {s t : IovReply}

theorem SameFilled.addIOVReply (h : SameFilled s t) (ptr : Bytes) (index : ℕ) :
    SameFilled (s.addIOVReply ptr index) (t.addIOVReply ptr index) := by
  obtain ⟨iovec, written, original, rfl, hsame⟩ := h
  refine ⟨_, _, _, rfl, fun i hi => ?_⟩
  by_cases hindex : i = index
  · subst i
    simp [IovReply.addIOVReply]
  · simp only [IovReply.addIOVReply, Function.update_of_ne hindex] at hi ⊢
    exact hsame i hi

theorem SameFilled.freeEntries (h : SameFilled s t) (ret2 : ℕ) :
    SameFilled (freeEntries s ret2) (freeEntries t ret2) := by
  obtain ⟨iovec, written, original, rfl, hsame⟩ := h
  refine ⟨_, _, _, rfl, fun i hi => ?_⟩
  unfold Worker.freeEntries at hi ⊢
  dsimp only at hi ⊢
  split at hi
  · cases hi
  · rename_i hlt
    simp only [if_neg hlt]
    exact hsame i hi

/-- A step of `QReply` that looks only at filled entries. -/
theorem SameFilled.qstep {q : QPc} {r : ℤ} (h : SameFilled s t)
    (hreads : ∀ i, (Pc.qreply q).Reads r i → (t.original i).isSome) :
    Option.Rel (fun x y => x.1 = y.1 ∧ SameFilled x.2 y.2) (q.step r s) (q.step r t) := by
  obtain ⟨iovec, written, original, rfl, hsame⟩ := h
  have hleft : SameFilled { t with iovec := iovec, written := written, original := original } t :=
    ⟨iovec, written, original, rfl, hsame⟩
  have hcovers (i : ℕ) (hi : q.Covers r i) : iovec i = t.iovec i :=
    (hsame i (hreads i (.inl hi))).1
  cases q with
  | reserve | addTotal | readWindex | advance | release | subTotal =>
    exact .some ⟨rfl, iovec, written, original, rfl, hsame⟩
  | fillHdr index hdr val => exact .some ⟨rfl, hleft.addIOVReply hdr index⟩
  | fillVal index size val => exact .some ⟨rfl, hleft.addIOVReply val index⟩
  | check index totalsize y =>
    have hbit : written index = t.written index :=
      (hsame index (hreads index (.inr ⟨totalsize, y, rfl⟩))).2
    have hend (n i : ℕ) : checkWritten written index i n = checkWritten t.written index i n := by
      induction n generalizing i with
      | zero => rfl
      | succ n ih => rw [checkWritten, checkWritten, hbit, ih]
    simp only [QPc.step, hend]
    split
    · exact .some ⟨rfl, iovec, written, original, rfl, hsame⟩
    · exact .some ⟨rfl, iovec, written, original, rfl, hsame⟩
  | takeFlag start count =>
    simp only [QPc.step]
    split
    · exact .some ⟨rfl, iovec, written, original, rfl, hsame⟩
    · exact .some ⟨rfl, iovec, written, original, rfl, hsame⟩
  | sendmsg start count =>
    simp only [QPc.step]
    by_cases hr : r ≤ 0
    · rw [if_pos hr, if_pos hr]
      exact .some ⟨rfl, iovec, written, original, rfl, hsame⟩
    · have hgather : gather iovec start count.toNat = gather t.iovec start count.toNat :=
        gather_congr fun i hi hlt => hcovers i ⟨by omega, hi, hlt⟩
      rw [if_neg hr, if_neg hr, hgather]
      split
      · exact .some ⟨rfl, iovec, written, original, rfl, hsame⟩
      · exact .none
  | account start count writeret =>
    simp only [QPc.step]
    cases hcheck : checkIOVTotalWritten iovec start count writeret with
    | none =>
      cases hcheck' : checkIOVTotalWritten t.iovec start count writeret with
      | none => exact .none
      | some x =>
        obtain ⟨j, b, -, -, -, hsome⟩ := checkIOVTotalWritten_congr
          (fun i hi hlt => (hcovers i ⟨hi, hlt⟩).symm) hcheck'
        cases hcheck.symm.trans hsome
    | some x =>
      obtain ⟨iovEnd, iovec'⟩ := x
      obtain ⟨j, b, -, -, rfl, hcheck'⟩ := checkIOVTotalWritten_congr
        (fun i hi hlt => hcovers i ⟨hi, hlt⟩) hcheck
      rw [hcheck']
      refine .some ⟨rfl, _, written, original, rfl, fun i hi => ?_⟩
      by_cases hj : i = j
      · subst i
        simp only [Function.update_self, true_and]
        exact (hsame j hi).2
      · simp only [Function.update_of_ne hj]
        exact hsame i hi
  | done => exact .none

variable {hash : Bytes → UInt32} {a b : Session W}

theorem Session.Alike.next (h : Alike a b) {pc : Pc} {found : Option (Bytes × Bytes)} {r : ℤ}
    (hreads : ∀ i, pc.Reads r i → (b.reply.original i).isSome) :
    Option.Rel (fun x y => x.1 = y.1 ∧ Alike x.2 y.2) (a.next found r pc) (b.next found r pc) := by
  obtain ⟨reply, rfl, hreply⟩ := h
  have hentries := hreply
  obtain ⟨iovec, written, original, rfl, hsame⟩ := hentries
  cases pc with
  | idle => exact .none
  | setAdd index => exact .some ⟨rfl, _, rfl, hreply.addIOVReply stored index⟩
  | endAdd index => exact .some ⟨rfl, _, rfl, hreply.addIOVReply endLine index⟩
  | endFree ret2 => exact .some ⟨rfl, _, rfl, hreply.freeEntries ret2⟩
  | setSend =>
    have hfirst : iovec 0 = b.reply.iovec 0 := (hsame 0 (hreads 0 rfl)).1
    simp only [Session.next, hfirst]
    exact .some ⟨rfl, _, rfl, _, _, _, rfl, hsame⟩
  | lookup aM =>
    cases found with
    | none | some x => exact .some ⟨rfl, _, rfl, hreply⟩
  | qreply q =>
    simp only [Session.next]
    split
    · exact .some ⟨rfl, _, rfl, hreply⟩
    · have hstep := hreply.qstep hreads
      generalize QPc.step r q b.reply = o at hstep ⊢
      generalize QPc.step r q _ = o' at hstep ⊢
      cases hstep with
      | none => exact .none
      | some hnext =>
        obtain ⟨hpc, hnext⟩ := hnext
        exact .some ⟨congrArg Pc.qreply hpc, _, rfl, hnext⟩
  | endScan ret2 y =>
    have hbits : (∀ i < ret2, y ≤ i → written i = true) ↔
        ∀ i < ret2, y ≤ i → b.reply.written i = true :=
      forall₃_congr fun i hi hy => by rw [(hsame i (hreads i ⟨hy, hi⟩)).2]
    simp only [Session.next, hbits]
    split
    · exact .some ⟨rfl, _, rfl, hreply⟩
    · exact .none
  | compare ret | endWait ret2 y =>
    simp only [Session.next]
    split
    · first | exact .none | exact .some ⟨rfl, _, rfl, hreply⟩
    · exact .some ⟨rfl, _, rfl, hreply⟩
  | reset k ret2 =>
    cases k with
    | windexlast | totalsize | iovIndex | writingflag =>
      exact .some ⟨rfl, _, rfl, _, _, _, rfl, hsame⟩
    | replyCount => exact .some ⟨rfl, _, rfl, hreply⟩
  | _ => exact .some ⟨rfl, _, rfl, _, _, _, rfl, hsame⟩

variable [DecidableEq W]

theorem Session.Alike.step {act : Act W} (h : Alike a b) (hreads : ReadsFilled b act) :
    Option.Rel Alike (Worker.step hash a act) (Worker.step hash b act) := by
  cases act with
  | comm c =>
    obtain ⟨reply, rfl, hreply⟩ := h
    simp only [Worker.step]
    cases b.toReqState.step hash c with
    | none => exact .none
    | some x => exact .some ⟨reply, rfl, hreply⟩
  | take w m =>
    obtain ⟨reply, rfl, hreply⟩ := h
    simp only [Worker.step]
    split
    · exact .some ⟨reply, rfl, hreply⟩
    · exact .none
  | step w found r =>
    have hworker : a.worker = b.worker := by
      obtain ⟨reply, rfl, -⟩ := h
      rfl
    have hnext : Option.Rel (fun x y => x.1 = y.1 ∧ Alike x.2 y.2) (a.next found r (b.worker w))
        (b.next found r (b.worker w)) := h.next hreads
    simp only [Worker.step, hworker]
    generalize a.next found r (b.worker w) = o at hnext ⊢
    generalize b.next found r (b.worker w) = o' at hnext ⊢
    cases hnext with
    | none => exact .none
    | @some x y hnext =>
      obtain ⟨pc, a'⟩ := x
      obtain ⟨rfl, reply, rfl, hreply⟩ := hnext
      exact .some ⟨reply, rfl, hreply⟩

/-- Runs of one schedule that looks only at filled entries end alike, or neither has a result. -/
theorem Session.Alike.exec {acts : List (Act W)} (h : Alike a b)
    (hreads : Guarded (Worker.step hash) ReadsFilled b acts) :
    Option.Rel Alike (Execution.exec (Worker.step hash) a acts)
      (Execution.exec (Worker.step hash) b acts) :=
  hreads.exec_rel (fun _ _ _ h hreads => h.step hreads) h

end Acached.Worker
