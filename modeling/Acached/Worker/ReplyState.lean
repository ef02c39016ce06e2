import Acached.Worker.Program
import Mathlib.Data.Fintype.Basic

/-! # Whose reply state it is

The set branch releases `Busy` before it resets the reply state, and a worker
of a get may test for completion after the command is over. When no command is
dispatched while such steps of the one before are left, no step of a finished
command changes the reply state under the next one.
-/
namespace Acached.Worker
open CString Dispatch Reply Execution

variable {W : Type}

def Session.replyState (s : Session W) : ℕ × ℕ × UInt32 × ℕ × Bool :=
  (s.reply.iovIndex, s.reply.windexlast, s.reply.totalsize, s.replyCount, s.reply.writingflag)

/-- A step of a worker for a command that is not the one dispatched last leaves the reply state as
it is. -/
def KeepsReply [DecidableEq W] (hash : Bytes → UInt32) (s : Session W) : Act W → Prop
  | .step w found r => s.cmd w ≠ s.dispatched.length →
      ∀ t ∈ step hash s (.step w found r), t.replyState = s.replyState
  | _ => True

/-- When a command is dispatched no message waits and no worker has anything left to do but the
test of the queue and the wake-up. -/
def DispatchesClear (s : Session W) : Act W → Prop
  | .comm a => s.dispatching a ≠ none → s.queue = [] ∧ ∀ w, (s.worker w).Tail
  | _ => True

instance [DecidableEq W] (hash : Bytes → UInt32) (s : Session W) :
    ∀ a, Decidable (KeepsReply hash s a)
  | .step w found r => inferInstanceAs (Decidable (s.cmd w ≠ s.dispatched.length →
      ∀ t ∈ step hash s (.step w found r), t.replyState = s.replyState))
  | .comm _ | .take .. => isTrue trivial

instance [Fintype W] (s : Session W) : ∀ a, Decidable (DispatchesClear s a)
  | .comm a => inferInstanceAs (Decidable
      (s.dispatching a ≠ none → s.queue = [] ∧ ∀ w, (s.worker w).Tail))
  | .step .. | .take .. => isTrue trivial

/-- Messages and workers that are not in their tail belong to the command dispatched last. -/
structure Current (s : Session W) : Prop where
  queue : ∀ m ∈ s.queue, m.1 = s.dispatched.length
  worker : ∀ w, ¬ (s.worker w).Tail → s.cmd w = s.dispatched.length

theorem Current.init (ctype : ACmdType) : Current (Session.init W ctype) where
  queue _ h := absurd h List.not_mem_nil
  worker _ h := absurd trivial h

theorem next_replyState {s s' : Session W} {found : Option (Bytes × Bytes)} {r : ℤ} {pc pc' : Pc}
    (h : s.next found r pc = some (pc', s')) (hpc : pc.Tail) : s'.replyState = s.replyState := by
  cases pc <;> first | exact hpc.elim | cases h <;> rfl

variable [DecidableEq W] {hash : Bytes → UInt32} {s t : Session W}

theorem Current.step {a : Act W} (cur : Current s) (hclear : DispatchesClear s a)
    (h : step hash s a = some t) : Current t := by
  cases a with
  | comm a =>
    obtain ⟨⟨q, put⟩, hq, rfl⟩ := Option.map_eq_some_iff.mp h
    have hd : q.dispatched = _ := ReqState.step_dispatched hq
    by_cases hnone : s.dispatching a = none
    · have hlen : q.dispatched.length = s.dispatched.length := by simp [hd, hnone]
      refine ⟨?_, fun w hw => (cur.worker w hw).trans hlen.symm⟩
      intro m hm
      rcases List.mem_append.mp hm with hm | hm
      · exact (cur.queue m hm).trans hlen.symm
      · obtain ⟨aM, -, rfl⟩ := List.mem_map.mp hm
        rfl
    · obtain ⟨hqueue, htail⟩ := hclear hnone
      refine ⟨?_, fun w hw => absurd (htail w) hw⟩
      intro m hm
      dsimp only at hm
      rw [hqueue, List.nil_append] at hm
      obtain ⟨aM, -, rfl⟩ := List.mem_map.mp hm
      rfl
  | take w m =>
    simp only [Worker.step, Option.ite_none_right_eq_some, Option.some.injEq] at h
    obtain ⟨⟨-, hm⟩, rfl⟩ := h
    refine ⟨fun m' hm' => cur.queue m' (List.mem_of_mem_erase hm'), ?_⟩
    intro v hv
    dsimp only at hv ⊢
    by_cases hvw : v = w
    · rw [hvw, Function.update_self]
      exact cur.queue m hm
    · rw [Function.update_of_ne hvw] at hv ⊢
      exact cur.worker v hv
  | step w found r =>
    obtain ⟨⟨pc, s'⟩, hnext, rfl⟩ := Option.map_eq_some_iff.mp h
    obtain ⟨_, _, _, _, _, _, rfl⟩ := Session.next_spec hnext
    refine ⟨cur.queue, ?_⟩
    intro v hv
    dsimp only at hv ⊢
    by_cases hvw : v = w
    · subst v
      rw [Function.update_self] at hv
      exact cur.worker w fun hw => hv (Session.next_tail hnext hw)
    · rw [Function.update_of_ne hvw] at hv
      exact cur.worker v hv

theorem Current.keepsReply (cur : Current s) (a : Act W) : KeepsReply hash s a := by
  cases a with
  | step w found r =>
    intro hold t ht
    obtain ⟨⟨pc, s'⟩, hnext, rfl⟩ := Option.map_eq_some_iff.mp ht
    have htail : (s.worker w).Tail := by
      by_contra hw
      exact hold (cur.worker w hw)
    have hkeep := next_replyState hnext htail
    exact hkeep
  | comm a | take w m => trivial

/-- In every run in which each dispatch finds the commands before it cleared away, no step of a
command changes the reply state after the next command was dispatched. -/
theorem keepsReply_of_dispatchesClear (hash : Bytes → UInt32) (ctype : ACmdType) (as : List (Act W))
    (hclear : Guarded (step hash) DispatchesClear (.init W ctype) as) :
    Guarded (step hash) (KeepsReply hash) (.init W ctype) as :=
  hclear.imp (fun _ a cur _ => cur.keepsReply a) (fun _ _ _ cur hg hs => cur.step hg hs)
    (Current.init ctype)

/-- A set whose worker does all its resets before the get behind it is dispatched. -/
def setThenGet : List (Act Bool) :=
  [.comm (.header .set), .comm (.arrive ⟨[97], 0, 0, 1, [120]⟩), .comm .post, .comm .post,
    .comm .post, .take false (1, ⟨.set, [97], 1, 0, [120], 0, 0, 1⟩), .step false none 0,
    .step false none 0, .step false none 8, .step false none 0, .step false none 0,
    .step false none 0, .step false none 0, .step false none 0, .step false none 0,
    .comm (.header .gets), .comm (.arrive ⟨[97], 0, 0, 1, [103, 101, 116, 32, 97]⟩), .comm .post,
    .comm .post, .comm .post, .step false none 0, .comm .post, .comm .post, .comm .post,
    .comm .post, .take true (2, ⟨.gets, [97], 1, 0, [], 0, 0, 0⟩), .step true (some ([86], [120])) 0,
    .step true none 0]

theorem keepsReply_setThenGet : Guarded (step fun _ => 0) (KeepsReply fun _ => 0)
    (.init Bool .get) setThenGet :=
  keepsReply_of_dispatchesClear (fun _ => 0) .get _ (by decide)

/-- The worker of a set has released `Busy` and not yet made its resets when the get behind it is
dispatched to another worker; its reset of `iovIndex` comes after that worker has reserved its two
entries. -/
def resetsLate : List (Act Bool) :=
  [.comm (.header .set), .comm (.arrive ⟨[97], 0, 0, 1, [120]⟩), .comm .post, .comm .post,
    .comm .post, .take false (1, ⟨.set, [97], 1, 0, [120], 0, 0, 1⟩), .step false none 0,
    .step false none 0, .step false none 8, .step false none 0,
    .comm (.header .gets), .comm (.arrive ⟨[97], 0, 0, 1, [103, 101, 116, 32, 97]⟩), .comm .post,
    .comm .post, .comm .post, .comm .post, .comm .post, .comm .post, .comm .post,
    .take true (2, ⟨.gets, [97], 1, 0, [], 0, 0, 0⟩), .step true (some ([86], [120])) 0,
    .step true none 0, .step false none 0, .step false none 0, .step false none 0]

theorem keepsReply_fails : ¬ ∀ as : List (Act Bool),
    Guarded (step fun _ => 0) (KeepsReply fun _ => 0) (.init Bool .get) as :=
  fun h => absurd (h resetsLate) (by decide)

end Acached.Worker
