import Acached.Dispatch.CommThread
import Mathlib.Data.List.ReduceOption

/-! # The order of arrival

`Post2KVdataTSQ` takes what waits in `PendingCmdQ` before what has just arrived,
and queues that behind it. As long as no NULL is queued and the connection stays
open, commands are dispatched in the order of their arrival, each once, and
those that were not are in the queue or in the hands of the comm thread.
-/
namespace Acached.Dispatch
open CString

/-- A worker ends the dispatched command: it is a set, or the line of a get with a key. -/
def Effect.Ends : Effect → Prop
  | .put aM => aM.ctype = .set
  | .split msgs => msgs ≠ []
  | .closeConnection => False

instance : DecidablePred Effect.Ends
  | .put aM => inferInstanceAs (Decidable (aM.ctype = .set))
  | .split msgs => inferInstanceAs (Decidable (msgs ≠ []))
  | .closeConnection => isFalse id

theorem dispatch_split_gets {hash : Bytes → UInt32} {ctype : ACmdType} {aM : AMsg}
    {msgs : List AMsg} (h : dispatch hash ctype aM = .split msgs) :
    ∀ m ∈ msgs, m.ctype = .gets := by
  intro m hm
  cases ctype <;> simp only [dispatch, reduceCtorEq, Effect.split.injEq] at h
  subst h
  obtain ⟨key, -, rfl⟩ := List.mem_map.mp hm
  rfl

/-- The message that the comm thread has taken from the queue or is about to dispatch. -/
@[simp] def Tsq.chosen : Tsq → Option AMsg
  | .requeue _ aM1 => some aM1
  | .branch aM => aM
  | _ => none

@[simp] def Tsq.fresh : Tsq → Option AMsg
  | .swap ptr | .take ptr | .enqueue ptr => ptr
  | .requeue aM _ => some aM
  | _ => none

/-- The comm thread is between its swap of `Busy` and the dispatch. -/
def Tsq.Owns : Tsq → Prop
  | .take _ | .requeue .. | .branch _ | .release => True
  | _ => False

def Tsq.Outside : Tsq → Prop
  | .idle | .swap _ | .enqueue _ | .posting .count [] => True
  | _ => False

/-- What `concPending` is while messages are left, and how many of them are counted already. -/
def PostAt.pending (rest : List AMsg) : PostAt → Bool
  | .put => !rest.isEmpty
  | _ => true

def PostAt.counted : PostAt → ℕ
  | .set | .count => 0
  | .reset | .put => 1

namespace ReqState

/-- The queue holds no NULL, and what has arrived has been dispatched, or is in the queue and in the
hands of the comm thread, in this order. -/
structure InOrder (s : ReqState) : Prop where
  open_ : s.closed = false
  noNull : none ∉ s.pendingCmdQ
  order : s.arrived = s.dispatched.map Prod.fst ++ s.comm.chosen.toList ++
    s.pendingCmdQ.reduceOption ++ s.comm.fresh.toList
  drained : s.comm = .branch none ∨ s.comm = .release → s.pendingCmdQ = []

theorem InOrder.init (ctype : ACmdType) : InOrder (ReqState.init ctype) where
  open_ := rfl
  noNull := List.not_mem_nil
  order := rfl
  drained _ := rfl

variable {hash : Bytes → UInt32} {s t : ReqState} {put : List AMsg}

theorem InOrder.dispatched (h : s.InOrder) : s.dispatched.map Prod.fst <+: s.arrived := by
  rw [h.order, List.append_assoc, List.append_assoc]
  exact List.prefix_append ..

theorem InOrder.run (h : s.InOrder) {aM : AMsg} (hc : s.comm = .branch (some aM))
    (hends : (dispatch hash s.ctype aM).Ends) : (s.run hash aM).1.InOrder := by
  have horder : s.arrived = s.dispatched.map Prod.fst ++ [aM] ++ s.pendingCmdQ.reduceOption := by
    simpa [hc] using h.order
  unfold ReqState.run
  cases he : dispatch hash s.ctype aM with
  | put aM' => exact ⟨h.open_, h.noNull, by simpa using horder, by simp⟩
  | split msgs => exact ⟨h.open_, h.noNull, by simpa using horder, by simp⟩
  | closeConnection =>
    rw [he] at hends
    exact hends.elim

theorem InOrder.take (h : s.InOrder) {ptr : Option AMsg} (hc : s.comm = .take ptr)
    (hstep : s.post2KVdataTSQ hash = some (t, put)) : t.InOrder := by
  have horder := h.order
  cases hq : s.pendingCmdQ with
  | nil =>
    simp only [post2KVdataTSQ, hc, hq, List.head?_nil, Option.join_none, List.tail_nil,
      Option.some.injEq, Prod.mk.injEq] at hstep
    obtain ⟨rfl, -⟩ := hstep
    exact ⟨h.open_, List.not_mem_nil, by simpa [hc, hq] using horder, fun _ => rfl⟩
  | cons front q =>
    have hnull : none ∉ front :: q := hq ▸ h.noNull
    obtain ⟨aM1, rfl⟩ : ∃ aM1, front = some aM1 :=
      Option.ne_none_iff_exists'.mp fun hf => hnull (hf ▸ List.mem_cons_self)
    have hrest : none ∉ q := fun hmem => hnull (List.mem_cons_of_mem _ hmem)
    cases ptr with
    | none =>
      simp only [post2KVdataTSQ, hc, hq, List.head?_cons, Option.join_some, List.tail_cons,
        Option.some.injEq, Prod.mk.injEq] at hstep
      obtain ⟨rfl, -⟩ := hstep
      exact ⟨h.open_, hrest, by simpa [hc, hq] using horder, by simp⟩
    | some aM =>
      simp only [post2KVdataTSQ, hc, hq, List.head?_cons, Option.join_some, List.tail_cons,
        Option.some.injEq, Prod.mk.injEq] at hstep
      obtain ⟨rfl, -⟩ := hstep
      exact ⟨h.open_, hrest, by simpa [hc, hq] using horder, by simp⟩

/-- A step of `Post2KVdataTSQ` that queues no NULL and dispatches nothing that closes the
connection. -/
theorem InOrder.post (h : s.InOrder) (hnull : s.comm ≠ .enqueue none)
    (hends : ∀ aM, s.comm = .branch (some aM) → (dispatch hash s.ctype aM).Ends)
    (hstep : s.post2KVdataTSQ hash = some (t, put)) : t.InOrder := by
  have horder := h.order
  cases hc : s.comm with
  | idle => simp [post2KVdataTSQ, hc] at hstep
  | take ptr => exact h.take hc hstep
  | swap ptr =>
    simp only [post2KVdataTSQ, hc] at hstep
    split at hstep <;> cases hstep
    all_goals exact ⟨h.open_, h.noNull, by simpa [hc] using horder, by simp⟩
  | requeue aM aM1 =>
    simp only [post2KVdataTSQ, hc, Option.some.injEq, Prod.mk.injEq] at hstep
    obtain ⟨rfl, -⟩ := hstep
    exact ⟨h.open_, by simpa using h.noNull,
      by simpa [hc, List.reduceOption_append] using horder, by simp⟩
  | enqueue ptr =>
    obtain ⟨aM, rfl⟩ : ∃ aM, ptr = some aM :=
      Option.ne_none_iff_exists'.mp fun hp => hnull (hc.trans (congrArg Tsq.enqueue hp))
    simp only [post2KVdataTSQ, hc, Option.some.injEq, Prod.mk.injEq] at hstep
    obtain ⟨rfl, -⟩ := hstep
    exact ⟨h.open_, by simpa using h.noNull,
      by simpa [hc, List.reduceOption_append] using horder, by simp⟩
  | branch aM =>
    cases aM with
    | none =>
      simp only [post2KVdataTSQ, hc, Option.some.injEq, Prod.mk.injEq] at hstep
      obtain ⟨rfl, -⟩ := hstep
      exact ⟨h.open_, h.noNull, by simpa [hc] using horder, fun _ => h.drained (.inl hc)⟩
    | some aM =>
      have hrun : (s.run hash aM).1 = t := by
        simp only [post2KVdataTSQ, hc, Option.some.injEq] at hstep
        rw [hstep]
      exact hrun ▸ h.run hc (hends aM hc)
  | release =>
    simp only [post2KVdataTSQ, hc, Option.some.injEq, Prod.mk.injEq] at hstep
    obtain ⟨rfl, -⟩ := hstep
    exact ⟨h.open_, h.noNull, by simpa [hc] using horder, by simp⟩
  | posting k msgs =>
    cases k <;> cases msgs <;>
      simp only [post2KVdataTSQ, hc, Option.some.injEq, Prod.mk.injEq] at hstep <;>
      obtain ⟨rfl, -⟩ := hstep <;>
      exact ⟨h.open_, h.noNull, by simpa [hc] using horder, by simp⟩

theorem InOrder.step (h : s.InOrder) {a : CommAct} (hnull : a = .post → s.comm ≠ .enqueue none)
    (hends : ∀ aM ∈ s.dispatching a, (dispatch hash s.ctype aM).Ends)
    (hstep : s.step hash a = some (t, put)) : t.InOrder := by
  have horder := h.order
  cases a with
  | post =>
    refine h.post (hnull rfl) (fun aM hc => hends aM ?_) hstep
    simp [dispatching, hc]
  | header ctype =>
    simp only [ReqState.step, Option.ite_none_right_eq_some, Option.some.injEq,
      Prod.mk.injEq] at hstep
    obtain ⟨-, rfl, -⟩ := hstep
    exact ⟨h.open_, h.noNull, horder, h.drained⟩
  | arrive p =>
    simp only [ReqState.step, Option.ite_none_right_eq_some, Option.map_eq_some_iff,
      Prod.mk.injEq] at hstep
    obtain ⟨⟨hc, -, -⟩, aM, -, rfl, -⟩ := hstep
    exact ⟨h.open_, h.noNull, by simpa [hc] using congrArg (· ++ [aM]) horder, by simp⟩
  | readP =>
    simp only [ReqState.step, Option.ite_none_right_eq_some, Option.some.injEq, Prod.mk.injEq] at hstep
    obtain ⟨⟨hc, -⟩, rfl, -⟩ := hstep
    have hcomm : (if s.closed = true then Tsq.idle else .swap none) = .swap none := by
      simp [h.open_]
    rw [hcomm]
    exact ⟨h.open_, h.noNull, by simpa [hc] using horder, by simp⟩

end ReqState

end Acached.Dispatch
