import Acached.Dispatch.Arrivals
import Acached.Worker.Backed

/-! # Stranded commands

A command that finds `Busy` taken is queued. The worker that releases `Busy`
makes the resets that are left to it, looks at the queue once and then wakes
the comm thread. The queue is served completely and in order in every orderly
run in which a command is queued only while that look is still to come, no NULL
is queued, and every dispatched command is one that a worker ends.
-/
namespace Acached.Worker
open CString Dispatch Execution

/-- The worker has released `Busy` and has still to look at the queue or to write the `'P'` record. -/
@[simp] def Pc.Waking : Pc → Prop
  | .reset _ none | .test | .write => True
  | _ => False

instance : DecidablePred Pc.Waking
  | .reset _ none | .test | .write => isTrue trivial
  | .idle | .setIndex | .setAdd _ | .setSend | .setRelease | .lookup _ | .qreply _ | .incr
  | .readPending | .readReq | .swap _ | .compare _ | .clearReq | .endIndex | .endAdd _ | .endTotal _
  | .endZero _ | .endWindow _ | .endWait .. | .endScan .. | .endFlag .. | .endWrite ..
  | .reset _ (some _) | .endFree _ | .getRelease => isFalse id

variable {W : Type}

namespace Session

/-- No worker has a message, neither side is in the middle of its steps, and the pipe is empty. -/
def Quiescent (s : Session W) : Prop :=
  s.queue = [] ∧ s.comm = .idle ∧ (∀ w, s.worker w = .idle) ∧ s.pipe = 0

/-- The holder of `Busy` has not released it, or the look at the queue or the wake-up record that
follows the release is still to come. -/
def Watched (s : Session W) : Prop :=
  s.busy = true ∨ (∃ w, (s.worker w).Waking) ∨ 0 < s.pipe

instance (s : Session W) [Fintype W] : Decidable s.Quiescent :=
  inferInstanceAs (Decidable (_ ∧ _ ∧ (∀ _, _) ∧ _))

instance (s : Session W) [Fintype W] : Decidable s.Watched :=
  inferInstanceAs (Decidable (_ ∨ (∃ _, _) ∨ _))

end Session

/-- Commands are dispatched at most once and in the order of their arrival, and when nothing is
going on none is left in the queue. -/
structure Served (s : Session W) : Prop where
  inOrder : s.dispatched.map Prod.fst <+: s.arrived
  noneLeft : s.Quiescent → s.pendingCmdQ.reduceOption = []

/-- An orderly step. A command is queued while the queue is watched, and never NULL; a dispatched
command is one that a worker ends. -/
def Timely (hash : Bytes → UInt32) (s : Session W) (a : Act W) : Prop :=
  Orderly hash s a ∧ match a with
    | .comm .post => match s.comm with
      | .enqueue ptr => ptr ≠ none ∧ s.Watched
      | .branch (some aM) => (dispatch hash s.ctype aM).Ends
      | _ => True
    | _ => True

instance (hash : Bytes → UInt32) (s : Session W) (a : Act W) [Fintype W] :
    Decidable (Timely hash s a) := by
  unfold Timely
  refine @instDecidableAnd _ _ inferInstance ?_
  split
  · split <;> infer_instance
  · infer_instance

variable {hash : Bytes → UInt32} {s s' t : Session W}

/-! ## Who watches the queue -/

/-- `Busy` is released by a worker that goes on to look at the queue, and one that does so and finds
it not empty wakes the comm thread. -/
theorem Session.next_watched {found : Option (Bytes × Bytes)} {r : ℤ} {pc pc' : Pc}
    (h : s.next found r pc = some (pc', s')) (hne : s.pendingCmdQ ≠ [])
    (hw : s.busy = true ∨ pc.Waking ∨ 0 < s.pipe) :
    s'.busy = true ∨ pc'.Waking ∨ 0 < s'.pipe := by
  have hsame (hpc : ¬ pc.Waking) : s.busy = true ∨ pc'.Waking ∨ 0 < s.pipe :=
    hw.imp_right fun hw => .inr (hw.resolve_left hpc)
  cases pc with
  | idle => cases h
  | setRelease | getRelease =>
    cases h
    exact .inr (.inl trivial)
  | test =>
    cases h
    rw [if_neg (by simpa using hne)]
    exact .inr (.inl trivial)
  | write =>
    cases h
    exact .inr (.inr (Nat.succ_pos _))
  | reset k ret2 =>
    cases ret2 with
    | some n =>
      cases k <;> cases h
      all_goals exact hsame id
    | none =>
      cases k <;> cases h
      all_goals exact .inr (.inl trivial)
  | lookup aM =>
    cases found <;> cases h
    all_goals exact hsame id
  | qreply q =>
    rw [next] at h
    split at h
    · cases h
      exact hsame id
    · obtain ⟨⟨q', reply⟩, -, hq⟩ := Option.map_eq_some_iff.mp h
      cases hq
      exact hsame id
  | compare ret | endWait ret2 y | endScan ret2 y =>
    rw [next] at h
    split at h <;> cases h
    all_goals exact hsame id
  | _ =>
    cases h
    exact hsame id

theorem Timely.arrivals {a : CommAct} {q : ReqState} {put : List AMsg} (hgood : Timely hash s (.comm a))
    (h : s.toReqState.InOrder) (hstep : s.toReqState.step hash a = some (q, put)) : q.InOrder := by
  obtain ⟨-, htimely⟩ := hgood
  refine h.step ?_ ?_ hstep
  · rintro rfl hc
    simp [hc] at htimely
  · intro aM hd
    cases a <;> simp only [ReqState.dispatching, Option.mem_def, reduceCtorEq] at hd
    cases hc : s.comm <;> simp only [hc, reduceCtorEq] at hd
    simpa [hc, hd] using htimely

section
variable [DecidableEq W]

theorem Session.Watched.step {w : W} {found : Option (Bytes × Bytes)} {r : ℤ} {pc : Pc}
    (h : s.Watched) (hne : s.pendingCmdQ ≠ [])
    (hnext : s.next found r (s.worker w) = some (pc, s')) :
    Session.Watched { s' with worker := Function.update s.worker w pc } := by
  by_cases hv : ∃ v ≠ w, (s.worker v).Waking
  · obtain ⟨v, hvw, hv⟩ := hv
    refine .inr (.inl ⟨v, ?_⟩)
    dsimp only
    rwa [Function.update_of_ne hvw]
  · have hw : s.busy = true ∨ (s.worker w).Waking ∨ 0 < s.pipe := by
      refine h.imp_right (Or.imp_left ?_)
      rintro ⟨v, hwaking⟩
      by_cases hvw : v = w
      · exact hvw ▸ hwaking
      · exact absurd ⟨v, hvw, hwaking⟩ hv
    refine (Session.next_watched hnext hne hw).imp_right (Or.imp_left fun hpc => ⟨w, ?_⟩)
    dsimp only
    rwa [Function.update_self]

theorem Session.Watched.take (h : s.Watched) {w : W} (idle : s.worker w = .idle) (m : ℕ × AMsg) :
    Session.Watched { s with
      queue := s.queue.erase m
      worker := Function.update s.worker w (start m.2)
      cmd := Function.update s.cmd w m.1 } := by
  refine h.imp_right (Or.imp_left ?_)
  rintro ⟨v, hv⟩
  refine ⟨v, ?_⟩
  have hvw : v ≠ w := by
    rintro rfl
    simp [idle] at hv
  dsimp only
  rwa [Function.update_of_ne hvw]

end

/-! ## Whole runs -/

variable [Fintype W]

structure HandOver (s : Session W) : Prop where
  phase : s.InPhase
  arrivals : s.toReqState.InOrder
  watched : s.pendingCmdQ ≠ [] → s.Watched ∨ s.comm = .swap none

theorem HandOver.init (ctype : ACmdType) : HandOver (Session.init W ctype) where
  phase := Session.init_inPhase ctype
  arrivals := .init ctype
  watched h := absurd rfl h

theorem HandOver.served (inv : HandOver s) : Served s where
  inOrder := inv.arrivals.dispatched
  noneLeft := by
    rintro ⟨hqueue, hidle, hworker, hpipe⟩
    have hfree : s.busy = false := by
      by_contra hb
      have hbacked := inv.phase.backed (Bool.eq_true_of_not_eq_false hb)
      simp [hidle, hqueue, hworker] at hbacked
    have hempty : s.pendingCmdQ = [] := by
      by_contra hne
      rcases inv.watched hne with hwatched | hswap
      · simp [Session.Watched, hfree, hworker, hpipe] at hwatched
      · simp [hidle] at hswap
    rw [hempty]
    rfl

/-- What the comm thread leaves in the queue in a step of `Post2KVdataTSQ` is watched. -/
theorem HandOver.post {q : ReqState} {put : List AMsg} (inv : HandOver s)
    (hgood : Timely hash s (.comm .post)) (h : s.toReqState.post2KVdataTSQ hash = some (q, put))
    (hne : q.pendingCmdQ ≠ []) : Session.Watched { s with toReqState := q } := by
  have hwatched (hc : ∀ ptr, s.comm ≠ .swap ptr) (hne : s.pendingCmdQ ≠ []) : s.Watched :=
    (inv.watched hne).resolve_right (hc none)
  have howns (ho : s.comm.Owns) : s.busy = true := (inv.phase.of_owns ho).1
  obtain ⟨-, htimely⟩ := hgood
  cases hc : s.comm with
  | idle => simp [ReqState.post2KVdataTSQ, hc] at h
  | swap ptr =>
    simp only [ReqState.post2KVdataTSQ, hc] at h
    split at h
    · next hb =>
      cases h
      exact .inl hb
    · cases h
      exact .inl rfl
  | take ptr =>
    have hb := howns (by simp [hc, Tsq.Owns])
    simp only [ReqState.post2KVdataTSQ, hc] at h
    split at h <;> cases h
    all_goals exact .inl hb
  | requeue aM aM1 =>
    have hb := howns (by simp [hc, Tsq.Owns])
    simp only [ReqState.post2KVdataTSQ, hc, Option.some.injEq, Prod.mk.injEq] at h
    obtain ⟨rfl, -⟩ := h
    exact .inl hb
  | branch aM =>
    have hb := howns (by simp [hc, Tsq.Owns])
    cases aM with
    | none =>
      simp only [ReqState.post2KVdataTSQ, hc, Option.some.injEq, Prod.mk.injEq] at h
      obtain ⟨rfl, -⟩ := h
      exact .inl hb
    | some aM =>
      have hrun : (s.run hash aM).1 = q := by
        simp only [ReqState.post2KVdataTSQ, hc, Option.some.injEq] at h
        rw [h]
      have hbusy : (s.run hash aM).1.busy = s.busy := by
        unfold ReqState.run
        cases dispatch hash s.ctype aM <;> rfl
      exact .inl (hrun ▸ hbusy.trans hb)
  | posting k msgs =>
    cases k <;> cases msgs <;>
      simp only [ReqState.post2KVdataTSQ, hc, Option.some.injEq, Prod.mk.injEq] at h <;>
      obtain ⟨rfl, -⟩ := h <;> exact hwatched (by simp [hc]) hne
  | release =>
    simp only [ReqState.post2KVdataTSQ, hc, Option.some.injEq, Prod.mk.injEq] at h
    obtain ⟨rfl, -⟩ := h
    exact absurd (inv.arrivals.drained (.inr hc)) hne
  | enqueue ptr =>
    simp only [hc] at htimely
    simp only [ReqState.post2KVdataTSQ, hc, Option.some.injEq, Prod.mk.injEq] at h
    obtain ⟨rfl, -⟩ := h
    exact htimely.2

variable [DecidableEq W]

theorem HandOver.step {a : Act W} (inv : HandOver s) (hgood : Timely hash s a)
    (h : step hash s a = some t) : HandOver t := by
  have phase := inv.phase.step hgood.1 h
  cases a with
  | comm a =>
    obtain ⟨⟨q, put⟩, hq, rfl⟩ := Option.map_eq_some_iff.mp h
    refine ⟨phase, hgood.arrivals inv.arrivals hq, ?_⟩
    intro hne
    cases a with
    | post => exact .inl (inv.post hgood hq hne)
    | header ctype =>
      simp only [ReqState.step, Option.ite_none_right_eq_some, Option.some.injEq,
        Prod.mk.injEq] at hq
      obtain ⟨-, rfl, rfl⟩ := hq
      exact inv.watched hne
    | arrive p =>
      simp only [ReqState.step, Option.ite_none_right_eq_some, Option.map_eq_some_iff,
        Prod.mk.injEq] at hq
      obtain ⟨⟨hc, -, -⟩, aM, -, rfl, rfl⟩ := hq
      exact .inl ((inv.watched hne).resolve_right (by simp [hc]))
    | readP =>
      simp only [ReqState.step, Option.ite_none_right_eq_some, Option.some.injEq,
        Prod.mk.injEq] at hq
      obtain ⟨-, rfl, rfl⟩ := hq
      simp [inv.arrivals.open_]
  | take w m =>
    simp only [Worker.step, Option.ite_none_right_eq_some, Option.some.injEq] at h
    obtain ⟨⟨idle, -⟩, rfl⟩ := h
    exact ⟨phase, inv.arrivals, fun hne => (inv.watched hne).imp_left fun hw => hw.take idle m⟩
  | step w found r =>
    obtain ⟨⟨pc, s'⟩, hnext, rfl⟩ := Option.map_eq_some_iff.mp h
    have hkeeps (hw : s.Watched) (hne : s.pendingCmdQ ≠ []) := hw.step hne hnext
    obtain ⟨_, _, _, _, _, _, rfl⟩ := Session.next_spec hnext
    obtain ⟨open_, noNull, order, drained⟩ := inv.arrivals
    exact ⟨phase, ⟨open_, noNull, order, drained⟩,
      fun hne => (inv.watched hne).imp_left fun hw => hkeeps hw hne⟩

/-- In every timely run every state reached has served its commands in order, and when nothing is
going on none is left in the queue. -/
theorem served_of_timely (hash : Bytes → UInt32) (ctype : ACmdType) (as : List (Act W))
    (t : Session W) (h : exec (step hash) (.init W ctype) as = some t)
    (hgood : Guarded (step hash) (Timely hash) (.init W ctype) as) : Served t :=
  (hgood.invariant (fun _ _ _ inv hg hs => inv.step hg hs) (HandOver.init ctype) h).served

/-- A set waits behind another one and is woken by the `'P'` record. -/
def wokenSet : List (Act Bool) :=
  [.comm (.header .set), .comm (.arrive ⟨[97], 0, 0, 1, [120, 13, 10]⟩), .comm .post, .comm .post,
    .comm .post, .comm (.header .set), .comm (.arrive ⟨[98], 0, 0, 1, [121, 13, 10]⟩), .comm .post,
    .comm .post, .take false (1, ⟨.set, [97], 1, 0, [120, 13, 10], 0, 0, 1⟩)] ++
  List.replicate 11 (.step false none 8) ++
  [.comm .readP, .comm .post, .comm .post, .comm .post,
    .take true (2, ⟨.set, [98], 1, 0, [121, 13, 10], 0, 0, 1⟩)] ++
  List.replicate 10 (.step true none 8)

theorem served_wokenSet :
    ∃ t, exec (step fun _ => 0) (.init Bool .get) wokenSet = some t ∧ Served t := by
  obtain ⟨t, ht⟩ : ∃ t, exec (step fun _ => 0) (.init Bool .get) wokenSet = some t := ⟨_, rfl⟩
  exact ⟨t, ht, served_of_timely (fun _ => 0) .get _ t ht (by decide)⟩

/-- The second set finds `Busy` taken; the worker releases it, makes its resets and sees an empty
queue; then the set is queued. -/
def strandedSet : List (Act Bool) :=
  [.comm (.header .set), .comm (.arrive ⟨[97], 0, 0, 1, [120, 13, 10]⟩), .comm .post, .comm .post,
    .comm .post, .comm (.header .set), .comm (.arrive ⟨[98], 0, 0, 1, [121, 13, 10]⟩), .comm .post,
    .take false (1, ⟨.set, [97], 1, 0, [120, 13, 10], 0, 0, 1⟩)] ++
  List.replicate 10 (.step false none 8) ++ [.comm .post]

/-- Nothing is going on any more, and the second set is still in the queue. -/
theorem served_fails :
    ¬ ∀ (as : List (Act Bool)) (t : Session Bool),
      exec (step fun _ => 0) (.init Bool .get) as = some t → Served t := by
  intro h
  have hrun : (exec (step fun _ => 0) (.init Bool .get) strandedSet).map
      (fun t => (decide t.Quiescent, t.pendingCmdQ)) =
      some (true, [some ⟨.set, [98], 1, 0, [121, 13, 10], 0, 0, 1⟩]) := by decide
  obtain ⟨t, ht, hq⟩ := Option.map_eq_some_iff.mp hrun
  obtain ⟨hquiet, hqueue⟩ := Prod.mk.inj hq
  have hnone := (h _ t ht).noneLeft (of_decide_eq_true hquiet)
  rw [hqueue] at hnone
  exact absurd hnone (by decide)

end Acached.Worker
