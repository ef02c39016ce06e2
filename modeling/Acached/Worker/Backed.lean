import Acached.Worker.PhaseSteps
import Acached.Receive.Line

/-! # What is behind a busy connection

While `Busy` is 1 the comm thread is still handing a command over, or a worker
has one of its messages queued or in work, as long as the run is orderly. The
line of a get that has no key after its command is accepted and leaves `Busy`
at 1 with nobody to clear it.
-/
namespace Acached.Worker
open CString Dispatch Reply Execution Tally Receive

@[simp] def Pc.Working : Pc → Prop
  | .idle | .test | .write | .reset _ none => False
  | _ => True

instance : DecidablePred Pc.Working
  | .idle | .test | .write | .reset _ none => isFalse id
  | .setIndex | .setAdd _ | .setSend | .setRelease | .lookup _ | .qreply _ | .incr | .readPending
  | .readReq | .swap _ | .compare _ | .clearReq | .endIndex | .endAdd _ | .endTotal _ | .endZero _
  | .endWindow _ | .endWait .. | .endScan .. | .endFlag .. | .endWrite .. | .reset _ (some _)
  | .endFree _ | .getRelease => isTrue trivial

/-- A busy connection has its comm thread inside `Post2KVdataTSQ`, a message in a worker's queue or
a worker at one of its messages. -/
def Backed {W : Type} (s : Session W) : Prop :=
  s.busy = true → s.comm ≠ .idle ∨ s.queue ≠ [] ∨ ∃ w, (s.worker w).Working

instance {W : Type} [Fintype W] (s : Session W) : Decidable (Backed s) :=
  inferInstanceAs (Decidable (_ → _))

instance (hash : Bytes → UInt32) {W : Type} [Fintype W] (s : Session W) :
    ∀ a, Decidable (Orderly hash s a)
  | .comm a => inferInstanceAs (Decidable (DispatchesClear s (.comm a) ∧ ∀ aM ∈ s.dispatching a, _))
  | .take .. => isTrue trivial
  | .step .. => inferInstanceAs (Decidable (¬ (_ ∧ _)))

theorem Pc.Setting.working {pc : Pc} (h : pc.Setting) : pc.Working := by
  cases pc <;> first | exact h.elim | trivial

theorem Pc.Answering.working {pc : Pc} (h : pc.Answering) : pc.Working := by
  cases pc <;> first | exact h.elim | trivial

theorem Pc.Live.working {pc : Pc} (h : pc.Live) : pc.Working := by
  cases pc <;> first | exact h.elim | trivial

theorem Pc.Ending.working {pc : Pc} (h : pc.Ending) : pc.Working := by
  cases pc <;> first | exact h.elim | trivial | skip
  case reset k ret2 => cases ret2 <;> first | exact h.elim | trivial

variable {W : Type} [Fintype W] {s : Session W}

theorem Session.InPhase.backed (phase : s.InPhase) : Backed s := by
  intro hb
  cases phase with
  | quiet place =>
    rcases place with ⟨-, hfree⟩ | ⟨howns, -⟩
    · simp [hb] at hfree
    · left
      intro hidle
      simp [hidle, Tsq.Owns] at howns
  | setQueued m out busy one => simp [one]
  | setRunning w out busy none setting => exact .inr (.inr ⟨w, setting.working⟩)
  | setting msgs post | posting k aM rest post => simp [post]
  | waiting out busy pending queued workers count live =>
    right
    by_cases hqueue : s.queue = []
    · right
      by_cases hans : tally Pc.Answering s.worker = 0
      · obtain ⟨w, hw⟩ := live (by simp [count, hqueue, hans])
        exact ⟨w, hw.working⟩
      · obtain ⟨w, hw⟩ : ∃ w, (s.worker w).Answering := by
          by_contra hnone
          exact hans (tally_eq_zero_iff.mpr (not_exists.mp hnone))
        exact ⟨w, hw.working⟩
    · exact .inl hqueue
  | won w out busy pending none winner =>
    refine .inr (.inr ⟨w, ?_⟩)
    rw [winner]
    trivial
  | clearing w out busy pending none winner =>
    refine .inr (.inr ⟨w, ?_⟩)
    rw [winner]
    trivial
  | ending w out busy none ending => exact .inr (.inr ⟨w, ending.working⟩)

variable [DecidableEq W]

/-- In every state of an orderly run a busy connection has a command behind it. -/
theorem backed_of_orderly (hash : Bytes → UInt32) (ctype : ACmdType) (as : List (Act W))
    (t : Session W) (h : exec (step hash) (.init W ctype) as = some t)
    (hgood : Guarded (step hash) (Orderly hash) (.init W ctype) as) : Backed t :=
  (hgood.invariant (fun _ _ _ phase hg hs => Session.InPhase.step phase hg hs)
    (Session.init_inPhase ctype) h).backed

/-- A set, and a get behind it that ends with a worker's test of the queue. -/
def setThenGetEnded : List (Act Bool) :=
  [.comm (.header .set), .comm (.arrive ⟨[97], 0, 0, 1, [120, 13, 10]⟩), .comm .post, .comm .post,
    .comm .post, .take false (1, ⟨.set, [97], 1, 0, [120, 13, 10], 0, 0, 1⟩)] ++
  List.replicate 10 (.step false none 8) ++
  [.comm (.header .gets), .comm (.arrive ⟨[97], 0, 0, 1, [103, 101, 116, 32, 97, 0, 0]⟩)] ++
  List.replicate 8 (.comm .post) ++ [.take true (2, ⟨.gets, [97], 1, 0, [], 0, 0, 0⟩)] ++
  List.replicate 24 (.step true none 0)

theorem backed_setThenGetEnded : ∃ t, exec (step fun _ => 0) (.init Bool .get) setThenGetEnded =
    some t ∧ Backed t := by
  obtain ⟨t, ht⟩ : ∃ t, exec (step fun _ => 0) (.init Bool .get) setThenGetEnded = some t :=
    ⟨_, rfl⟩
  exact ⟨t, ht, backed_of_orderly (fun _ => 0) .get _ t ht (by decide)⟩

/-- The line of a get with blanks and no key, and what `IsBufferComplete` makes of it. -/
def blankLine : Bytes := [103, 101, 116, 32, 32, 32, 13, 10]

def blankBlock : Bytes := [103, 101, 116, 32, 32, 32, 0, 0]

/-- The comm thread takes `Busy`, finds no key in the line and returns. -/
def blankGet : List (Act Bool) :=
  [.comm (.header .gets), .comm (.arrive ⟨[], 0, 0, 0, blankBlock⟩)] ++
    List.replicate 5 (.comm .post)

/-- The line is accepted as a get, and after it `Busy` is 1 with nothing behind it. -/
theorem backed_fails : setCommandType blankLine 8 = some (some .gets) ∧
    isBufferComplete blankLine 8 = some (8, blankBlock) ∧
    ¬ ∀ (as : List (Act Bool)) (t : Session Bool),
      exec (step fun _ => 0) (.init Bool .get) as = some t → Backed t := by
  refine ⟨by decide, by decide, ?_⟩
  intro h
  have hrun : (exec (step fun _ => 0) (.init Bool .get) blankGet).map
      (fun t => decide (Backed t)) = some false := by decide
  obtain ⟨t, ht, hbacked⟩ := Option.map_eq_some_iff.mp hrun
  exact of_decide_eq_false hbacked (h _ t ht)

end Acached.Worker
