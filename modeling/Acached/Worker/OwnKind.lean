import Acached.Worker.Program

/-! # The kind of a dispatched message

`Post2KVdataTSQ` branches on the type in the connection's `cmd`, which the
parser overwrites while older messages wait. A run treats every message as the
command it was created for exactly when the two types are of one kind at every
dispatch.
-/
namespace Acached.Worker
open CString Dispatch Execution

variable {W : Type}

/-- What a message asks for: a set goes to a worker with its body, the line of a get is split into
its keys, a quit closes the connection. -/
def intended (hash : Bytes → UInt32) (aM : AMsg) : Effect :=
  match aM.ctype with
  | .gets => .split ((lineKeys aM.cmdptr).map fun key =>
      (AMsg.init .gets).msgHdrIN_Init hash key)
  | .quit => .closeConnection
  | _ => .put aM

/-- The line classified last is of the same kind as the message that is about to be dispatched. -/
def OwnKind (s : Session W) : Act W → Prop
  | .comm a => ∀ aM ∈ s.dispatching a,
      (s.ctype = .gets ↔ aM.ctype = .gets) ∧ (s.ctype = .quit ↔ aM.ctype = .quit)
  | _ => True

instance (s : Session W) : ∀ a, Decidable (OwnKind s a)
  | .comm a => inferInstanceAs (Decidable (∀ aM ∈ s.dispatching a, _ ∧ _))
  | .take .. | .step .. => isTrue trivial

theorem dispatch_eq_intended_iff (hash : Bytes → UInt32) (ctype : ACmdType) (aM : AMsg) :
    dispatch hash ctype aM = intended hash aM ↔
      (ctype = .gets ↔ aM.ctype = .gets) ∧ (ctype = .quit ↔ aM.ctype = .quit) := by
  unfold dispatch intended
  cases ctype <;> cases aM.ctype <;> simp [post2KVdataGets]

variable [DecidableEq W]

theorem step_intended_iff {hash : Bytes → UInt32} {s t : Session W} {a : Act W}
    (h : step hash s a = some t) : (∀ d ∈ t.dispatched, d.2 = intended hash d.1) ↔
      (∀ d ∈ s.dispatched, d.2 = intended hash d.1) ∧ OwnKind s a := by
  cases a with
  | comm a =>
    obtain ⟨⟨q, put⟩, hq, rfl⟩ := Option.map_eq_some_iff.mp h
    have hown : OwnKind s (.comm a) ↔
        ∀ aM ∈ s.dispatching a, dispatch hash s.ctype aM = intended hash aM := by
      simp only [OwnKind, dispatch_eq_intended_iff]
    have hd := ReqState.step_dispatched hq
    dsimp only
    rw [hown, hd]
    cases s.dispatching a <;> simp [or_imp, forall_and]
  | take w m =>
    simp only [step, Option.ite_none_right_eq_some, Option.some.injEq] at h
    obtain ⟨-, rfl⟩ := h
    simp [OwnKind]
  | step w found r =>
    obtain ⟨⟨pc, s'⟩, hnext, rfl⟩ := Option.map_eq_some_iff.mp h
    obtain ⟨_, _, _, _, _, _, rfl⟩ := Session.next_spec hnext
    simp [OwnKind]

/-- In every run, every dispatched message is treated as the command it was created for if and
only if the line classified last is of the message's own kind at every dispatch. -/
theorem dispatched_intended_iff (hash : Bytes → UInt32) (ctype : ACmdType) (as : List (Act W))
    (t : Session W) (h : exec (step hash) (.init W ctype) as = some t) :
    (∀ d ∈ t.dispatched, d.2 = intended hash d.1) ↔
      Guarded (step hash) OwnKind (.init W ctype) as := by
  rw [guarded_iff_of_step (fun _ _ _ => step_intended_iff) h]
  simp [Session.init, ReqState.init]

/-- A set whose worker is done before the line of a get is read. -/
def setThenGetLine : List (Act Bool) :=
  [.comm (.header .set), .comm (.arrive ⟨[97], 0, 0, 1, [120, 13, 10]⟩), .comm .post, .comm .post,
    .comm .post, .take false (1, ⟨.set, [97], 1, 0, [120, 13, 10], 0, 0, 1⟩)] ++
  List.replicate 10 (.step false none 8) ++
  [.comm (.header .gets), .comm (.arrive ⟨[97], 0, 0, 1, [103, 101, 116, 32, 97, 0, 0]⟩),
    .comm .post, .comm .post, .comm .post]

theorem dispatched_intended_setThenGet :
    ∃ t, exec (step fun _ => 0) (.init Bool .get) setThenGetLine = some t ∧
      ∀ d ∈ t.dispatched, d.2 = intended (fun _ => 0) d.1 := by
  obtain ⟨t, ht⟩ : ∃ t, exec (step fun _ => 0) (.init Bool .get) setThenGetLine = some t := ⟨_, rfl⟩
  exact ⟨t, ht, (dispatched_intended_iff (fun _ => 0) .get _ t ht).mpr (by decide)⟩

/-- A get waits behind a set, and the line of a third command, a set, is read before the first
worker releases `Busy`. -/
def getBetweenSets : List (Act Bool) :=
  [.comm (.header .set), .comm (.arrive ⟨[97], 0, 0, 1, [120, 13, 10]⟩), .comm .post, .comm .post,
    .comm .post, .comm (.header .gets),
    .comm (.arrive ⟨[97], 0, 0, 1, [103, 101, 116, 32, 97, 0, 0]⟩), .comm .post, .comm .post,
    .comm (.header .set), .take false (1, ⟨.set, [97], 1, 0, [120, 13, 10], 0, 0, 1⟩)] ++
  List.replicate 11 (.step false none 8) ++
  [.comm .readP, .comm .post, .comm .post, .comm .post]

/-- The waiting get is put on a worker's queue whole, as a set would be. -/
theorem dispatched_intended_fails :
    ¬ ∀ (as : List (Act Bool)) (t : Session Bool),
      exec (step fun _ => 0) (.init Bool .get) as = some t →
        ∀ d ∈ t.dispatched, d.2 = intended (fun _ => 0) d.1 := by
  intro h
  have hrun : (exec (step fun _ => 0) (.init Bool .get) getBetweenSets).map
      (fun t => t.dispatched) =
      some [(⟨.set, [97], 1, 0, [120, 13, 10], 0, 0, 1⟩,
          .put ⟨.set, [97], 1, 0, [120, 13, 10], 0, 0, 1⟩),
        (⟨.gets, [], 0, 0, [103, 101, 116, 32, 97, 0, 0], 0, 0, 0⟩,
          .put ⟨.gets, [], 0, 0, [103, 101, 116, 32, 97, 0, 0], 0, 0, 0⟩)] := by decide
  obtain ⟨t, ht, hd⟩ := Option.map_eq_some_iff.mp hrun
  have hall := h _ t ht
  rw [hd] at hall
  exact absurd hall (by decide)

end Acached.Worker
