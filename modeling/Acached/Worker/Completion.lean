import Acached.Worker.PhaseSteps

/-! # A get completes exactly once

The workers of one get, from `Post2KVdataGets` on. When nothing is left to do
the command has been completed once, with all keys answered, exactly if no
worker compared a zero that it had swapped with a `reqCount` that the
completion had already reset.
-/
namespace Acached.Worker
open CString Dispatch Reply Execution Tally

variable {W : Type}

/-- The comm thread is about to post the keys of a get, and nothing is left of the commands
before. -/
structure Begins (s : Session W) (msgs : List AMsg) : Prop where
  post : s.comm = .posting .set msgs
  busy : s.busy = true
  queue : s.queue = []
  tail : ∀ w, (s.worker w).Tail
  reqCount : s.reqCount = 0
  replyCount : s.replyCount = 0
  record : s.record = ⟨msgs.length, 0, [], 0, 0⟩

/-- The steps that belong to the get: those of `Post2KVdataGets` and those of the workers. -/
def OfGet : Act W → Prop
  | .comm .post | .take .. | .step .. => True
  | _ => False

/-- All keys are posted, no message waits, and the workers have nothing left to do but the test of
the queue and the wake-up. -/
structure Finished (s : Session W) : Prop where
  comm : s.comm = .idle
  queue : s.queue = []
  tail : ∀ w, (s.worker w).Tail

/-- No worker takes a swap of zero for the completion because `reqCount` is zero again. -/
def InTime (s : Session W) : Act W → Prop
  | .step w _ _ => ¬ (s.worker w = .compare 0 ∧ s.reqCount = 0)
  | _ => True

instance (s : Session W) : ∀ a, Decidable (InTime s a)
  | .step .. => inferInstanceAs (Decidable (¬ (_ ∧ _)))
  | .comm _ | .take .. => isTrue trivial

/-- One worker took the completion branch, after `n` keys were answered, one `END` line was
produced and `Busy` was released once. -/
def CompletedOnce (n : ℕ) (record : Record) : Prop :=
  record.completions = [n] ∧ record.ends = 1 ∧ record.releases = 1

instance (n : ℕ) (record : Record) : Decidable (CompletedOnce n record) :=
  inferInstanceAs (Decidable (_ ∧ _ ∧ _))

def Posting (s : Session W) : Prop := s.comm = .idle ∨ ∃ k msgs, s.comm = .posting k msgs

theorem Begins.inPhase [Fintype W] {s : Session W} {msgs : List AMsg} (h : Begins s msgs)
    (hne : msgs ≠ []) (hgets : ∀ m ∈ msgs, m.ctype = .gets) : s.InPhase :=
  .setting msgs h.post hne hgets h.busy h.queue h.tail h.reqCount h.replyCount h.record

theorem Session.InPhase.completedOnce [Fintype W] {s : Session W} (phase : s.InPhase)
    (fin : Finished s) (hkeys : s.record.keys ≠ 0) : CompletedOnce s.record.keys s.record := by
  have htail := fin.tail
  cases phase with
  | quiet place none late req reply once => exact once hkeys
  | setQueued m out busy one => simp [fin.queue] at one
  | setRunning w out busy none setting => exact absurd setting (htail w).not_setting
  | setting msgs post | posting k aM rest post => simp [fin.comm] at post
  | waiting out busy pending queued workers count live =>
    have hnone : tally Pc.Answering s.worker = 0 :=
      tally_eq_zero_iff.mpr fun w => (htail w).not_answering
    obtain ⟨w, hw⟩ := live (by simp [count, fin.queue, hnone])
    exact absurd hw (htail w).not_live
  | won w out busy pending none winner =>
    have := htail w
    simp [winner] at this
  | clearing w out busy pending none winner =>
    have := htail w
    simp [winner] at this
  | ending w out busy none ending => exact absurd ending (htail w).not_ending

/-- A worker that compares in time with the reset `reqCount` finds its own swap to be the one that
completes the get; one that does not completes it again. -/
theorem Session.InPhase.completions_of_late [Fintype W] {s : Session W} (phase : s.InPhase) {w : W}
    (hw : s.worker w = .compare 0) (hreq : s.reqCount = 0) (hkeys : s.record.keys ≠ 0) :
    s.record.completions.length = 1 := by
  cases phase with
  | quiet place none late req reply once => rw [(once hkeys).1, List.length_singleton]
  | setQueued m out busy one set tail | setting msgs post some gets busy none tail =>
    have := tail w
    simp [hw] at this
  | setRunning u out busy none setting tail req reply keys => exact absurd keys hkeys
  | posting k aM rest post loop busy pending gets queued workers =>
    have := workers w
    simp [hw, hreq] at this
  | waiting out busy pending queued workers count live pos => omega
  | won u out busy pending none winner lost reply pos => omega
  | clearing u out busy pending none winner lost reply pos => omega
  | ending u out busy none ending late req reply record =>
    rw [record, List.length_singleton]

theorem Session.next_record {s s' : Session W} {found : Option (Bytes × Bytes)} {r : ℤ} {pc pc' : Pc}
    (h : s.next found r pc = some (pc', s')) : s'.record.keys = s.record.keys ∧
      s.record.completions.length ≤ s'.record.completions.length := by
  cases pc with
  | idle => cases h
  | lookup aM => cases found <;> cases h <;> exact ⟨rfl, le_rfl⟩
  | qreply q =>
    simp only [Session.next] at h
    split at h
    · cases h; exact ⟨rfl, le_rfl⟩
    · obtain ⟨⟨q, reply⟩, -, hq⟩ := Option.map_eq_some_iff.mp h
      cases hq
      exact ⟨rfl, le_rfl⟩
  | compare ret =>
    simp only [Session.next] at h
    split at h <;> cases h
    · exact ⟨rfl, by simp⟩
    · exact ⟨rfl, le_rfl⟩
  | endWait ret2 y | endScan ret2 y =>
    simp only [Session.next] at h
    split at h <;> cases h
    exact ⟨rfl, le_rfl⟩
  | reset k ret2 => cases k <;> cases h <;> exact ⟨rfl, le_rfl⟩
  | _ => cases h; exact ⟨rfl, le_rfl⟩

section
variable [DecidableEq W] {hash : Bytes → UInt32} {s t : Session W} {a : Act W}

/-- The steps of a get dispatch nothing. -/
theorem Posting.step (hp : Posting s) (hok : OfGet a) (h : step hash s a = some t) :
    Posting t ∧ t.record.keys = s.record.keys ∧
      s.record.completions.length ≤ t.record.completions.length := by
  cases a with
  | comm a =>
    cases a <;> try exact hok.elim
    obtain ⟨⟨q, put⟩, hq, rfl⟩ := Option.map_eq_some_iff.mp h
    have hd : s.dispatching .post = none := by
      rcases hp with hc | ⟨k, msgs, hc⟩ <;> simp [ReqState.dispatching, hc]
    have hcomm : q.comm = .idle ∨ ∃ k msgs, q.comm = .posting k msgs := by
      rcases hp with hc | ⟨k, msgs, hc⟩
      · simp [ReqState.step, ReqState.post2KVdataTSQ, hc] at hq
      · cases k <;> cases msgs <;>
          simp only [ReqState.step, ReqState.post2KVdataTSQ, hc, Option.some.injEq, Prod.mk.injEq]
            at hq <;> obtain ⟨rfl, rfl⟩ := hq <;> simp
    refine ⟨hcomm, ?_, ?_⟩ <;> simp [Record.dispatched, hd]
  | take w m =>
    simp only [Worker.step, Option.ite_none_right_eq_some, Option.some.injEq] at h
    obtain ⟨-, rfl⟩ := h
    exact ⟨hp, rfl, le_rfl⟩
  | step w found r =>
    obtain ⟨⟨pc, s'⟩, hnext, rfl⟩ := Option.map_eq_some_iff.mp h
    have hrec := Session.next_record hnext
    obtain ⟨_, _, _, _, _, _, rfl⟩ := Session.next_spec hnext
    exact ⟨hp, hrec⟩

omit [DecidableEq W] in
theorem Posting.orderly (hp : Posting s) (hok : OfGet a) (hgood : InTime s a) :
    Orderly hash s a := by
  cases a with
  | comm a =>
    cases a <;> try exact hok.elim
    have hd : s.dispatching .post = none := by
      rcases hp with hc | ⟨k, msgs, hc⟩ <;> simp [ReqState.dispatching, hc]
    simp [Orderly, DispatchesClear, hd]
  | take w m => trivial
  | step w found r => exact hgood

variable [Fintype W]

theorem Session.InPhase.late_step (phase : s.InPhase) (hkeys : s.record.keys ≠ 0)
    (hlate : ¬ InTime s a) (h : Worker.step hash s a = some t) : 2 ≤ t.record.completions.length := by
  cases a with
  | comm a | take w m => exact absurd trivial hlate
  | step w found r =>
    obtain ⟨hw, hreq⟩ : s.worker w = .compare 0 ∧ s.reqCount = 0 := not_not.mp hlate
    have hone := phase.completions_of_late hw hreq hkeys
    obtain ⟨⟨pc, s'⟩, hnext, rfl⟩ := Option.map_eq_some_iff.mp h
    rw [hw, Session.next, if_pos hreq.symm] at hnext
    cases hnext
    simp [hone]

end

variable [Fintype W] [DecidableEq W]

/-- Whatever the interleaving and however many workers there are, a get whose steps are all done
was completed exactly once, with all its keys answered, if and only if every comparison was in
time. -/
theorem completedOnce_iff (hash : Bytes → UInt32) (aMcmd : AMsg) (s t : Session W)
    (as : List (Act W)) (hkeys : lineKeys aMcmd.cmdptr ≠ [])
    (hs : Begins s (post2KVdataGets hash .gets aMcmd)) (hok : ∀ a ∈ as, OfGet a)
    (hrun : exec (step hash) s as = some t) (hfin : Finished t) :
    CompletedOnce (lineKeys aMcmd.cmdptr).length t.record ↔ Guarded (step hash) InTime s as := by
  have hlen : (post2KVdataGets hash .gets aMcmd).length = (lineKeys aMcmd.cmdptr).length := by
    simp [post2KVdataGets]
  have hne : (lineKeys aMcmd.cmdptr).length ≠ 0 := by simpa using hkeys
  let inv (s : Session W) : Prop :=
    s.InPhase ∧ Posting s ∧ s.record.keys = (lineKeys aMcmd.cmdptr).length
  let bad (s : Session W) : Prop := Posting s ∧ 2 ≤ s.record.completions.length
  have hinv : inv s := by
    refine ⟨hs.inPhase ?_ ?_, .inr ⟨_, _, hs.post⟩, ?_⟩
    · rw [← List.length_pos_iff, hlen]
      omega
    · intro m hm
      obtain ⟨key, -, rfl⟩ := List.mem_map.mp hm
      rfl
    · rw [hs.record, hlen]
  have hstep : ∀ s a t, inv s → OfGet a → InTime s a → step hash s a = some t → inv t := by
    rintro s a t ⟨phase, hp, hk⟩ ha hg ht
    obtain ⟨hp', hk', -⟩ := hp.step ha ht
    exact ⟨phase.step (hp.orderly ha hg) ht, hp', hk'.trans hk⟩
  constructor
  · intro hone
    have hend := guarded_or_bad inv bad hstep ?_ ?_ hinv hok hrun
    · rcases hend with hg | ⟨-, htwo⟩
      · exact hg
      · rw [hone.1, List.length_singleton] at htwo
        omega
    · rintro s a t ⟨phase, hp, hk⟩ ha hlate ht
      exact ⟨(hp.step ha ht).1, phase.late_step (by omega) hlate ht⟩
    · rintro s a t ⟨hp, htwo⟩ ha ht
      obtain ⟨hp', -, hle⟩ := hp.step ha ht
      exact ⟨hp', htwo.trans hle⟩
  · intro hg
    obtain ⟨phase, -, hk⟩ := (hg.and_forall hok).invariant
      (fun s a t hi ha ht => hstep s a t hi ha.1 ha.2 ht) hinv hrun
    have honce := phase.completedOnce hfin (by omega)
    rwa [hk] at honce

instance : ∀ a : Act W, Decidable (OfGet a)
  | .comm .post | .take .. | .step .. => isTrue trivial
  | .comm (.header _) | .comm (.arrive _) | .comm .readP => isFalse id

/-- The line of a get with the keys `a` and `b`, and the connection when its turn has come. -/
def getAB : AMsg := { AMsg.init .gets with cmdptr := [103, 101, 116, 32, 97, 32, 98, 0, 0] }

def beginsAB : Session Bool :=
  { Session.init Bool .gets with
    busy := true
    comm := .posting .set (post2KVdataGets (fun _ => 0) .gets getAB)
    record := ⟨2, 0, [], 0, 0⟩ }

theorem begins_beginsAB : Begins beginsAB (post2KVdataGets (fun _ => 0) .gets getAB) :=
  ⟨rfl, rfl, rfl, fun _ => trivial, rfl, rfl, by decide⟩

/-- The keys are posted and taken by one worker each. -/
def takeAB : List (Act Bool) :=
  List.replicate 8 (.comm .post) ++ [.take false (0, ⟨.gets, [97], 1, 0, [], 0, 0, 0⟩),
    .take true (0, ⟨.gets, [98], 1, 0, [], 0, 0, 0⟩)]

/-- The first worker is done before the second one counts its key. -/
def inTurn : List (Act Bool) :=
  takeAB ++ List.replicate 6 (.step false none 0) ++ List.replicate 24 (.step true none 0)

theorem completedOnce_inTurn : ∃ t, exec (step fun _ => 0) beginsAB inTurn = some t ∧
    (CompletedOnce 2 t.record ↔ Guarded (step fun _ => 0) InTime beginsAB inTurn) := by
  obtain ⟨t, ht⟩ : ∃ t, exec (step fun _ => 0) beginsAB inTurn = some t := ⟨_, rfl⟩
  have hfin : (exec (step fun _ => 0) beginsAB inTurn).map (fun t =>
      (t.comm, t.queue, t.worker false, t.worker true)) = some (.idle, [], .idle, .idle) := by decide
  rw [ht, Option.map_some, Option.some.injEq, Prod.mk.injEq, Prod.mk.injEq, Prod.mk.injEq] at hfin
  obtain ⟨hcomm, hqueue, hfalse, htrue⟩ := hfin
  refine ⟨t, ht, completedOnce_iff (fun _ => 0) getAB beginsAB t inTurn (by decide) begins_beginsAB
    (by decide) ht ⟨hcomm, hqueue, ?_⟩⟩
  intro w
  cases w
  · simp [hfalse]
  · simp [htrue]

/-- The first worker has counted its key when the second one completes the get; then its own test
finds both counters at zero. -/
def lateTest : List (Act Bool) :=
  takeAB ++ List.replicate 2 (.step false none 0) ++ List.replicate 24 (.step true none 0) ++
    List.replicate 22 (.step false none 0)

/-- Both workers take the completion branch. -/
theorem completedOnce_fails : ¬ ∀ (as : List (Act Bool)) (t : Session Bool), (∀ a ∈ as, OfGet a) →
    exec (step fun _ => 0) beginsAB as = some t → Finished t → CompletedOnce 2 t.record := by
  intro h
  have hrun : (exec (step fun _ => 0) beginsAB lateTest).map (fun t =>
      (t.comm, t.queue, t.worker false, t.worker true, t.record)) =
      some (.idle, [], .idle, .idle, ⟨2, 2, [2, 2], 2, 2⟩) := by decide
  obtain ⟨t, ht, hend⟩ := Option.map_eq_some_iff.mp hrun
  rw [Prod.mk.injEq, Prod.mk.injEq, Prod.mk.injEq, Prod.mk.injEq] at hend
  obtain ⟨hcomm, hqueue, hfalse, htrue, hrec⟩ := hend
  have hone := h lateTest t (by decide) ht ⟨hcomm, hqueue, fun w => by
    cases w
    · simp [hfalse]
    · simp [htrue]⟩
  rw [hrec] at hone
  exact absurd hone (by decide)

end Acached.Worker
