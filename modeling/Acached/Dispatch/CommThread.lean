import Acached.Dispatch.Message

/-! # The comm thread's side of the hand-over

The fields of a connection that the hand-over of its commands reads and writes,
and the comm thread inside `aConn::Post2KVdataTSQ`, with every compare-and-swap,
queue operation and access to a counter as one step.
-/
namespace Acached.Dispatch
open CString

/-- The steps that `Post2KVdataGets` makes for a message: `set` is `concPendingSet` in front of the
loop, then for each message `reqCount++`, `concPendingReset` when it is the last one, and the put
on a worker's queue. -/
inductive PostAt where
  | set | count | reset | put
  deriving DecidableEq, Repr

/-- Where the comm thread stands in `Post2KVdataTSQ(ptr)`; `posting` is `Post2KVdataGets` with the
messages it still has to put. -/
inductive Tsq where
  | idle
  | swap (ptr : Option AMsg)
  | take (ptr : Option AMsg)
  | requeue (aM aM1 : AMsg)
  | branch (aM : Option AMsg)
  | posting (k : PostAt) (msgs : List AMsg)
  | release
  | enqueue (ptr : Option AMsg)
  deriving DecidableEq, Repr

/-- The request side of a connection; `pipe` counts its `'P'` records. `headerRead` says that a
command line has been classified and its command not yet posted; `arrived` and `dispatched` record
the commands as they are parsed and as they are dispatched. -/
structure ReqState where
  busy : Bool
  pendingCmdQ : List (Option AMsg)
  pipe : ℕ
  ctype : ACmdType
  concPending : Bool
  reqCount : ℕ
  replyCount : ℕ
  headerRead : Bool
  closed : Bool
  comm : Tsq
  arrived : List AMsg
  dispatched : List (AMsg × Effect)

/-- A new connection; its `cmd.ctype` is not initialised. -/
def ReqState.init (ctype : ACmdType) : ReqState where
  busy := false
  pendingCmdQ := []
  pipe := 0
  ctype := ctype
  concPending := false
  reqCount := 0
  replyCount := 0
  headerRead := false
  closed := false
  comm := .idle
  arrived := []
  dispatched := []

/-- `Post2KVdataTSQ` after a message has been chosen, and what it puts on a worker's queue. -/
def ReqState.run (hash : Bytes → UInt32) (s : ReqState) (aM : AMsg) : ReqState × List AMsg :=
  let e := dispatch hash s.ctype aM
  let s := { s with dispatched := s.dispatched ++ [(aM, e)] }
  match e with
  | .put aM => ({ s with comm := .idle }, [aM])
  | .split msgs => ({ s with comm := .posting .set msgs }, [])
  | .closeConnection => ({ s with closed := true, comm := .release }, [])

def ReqState.post2KVdataTSQ (hash : Bytes → UInt32) (s : ReqState) :
    Option (ReqState × List AMsg) :=
  match s.comm with
  | .idle => none
  | .swap ptr =>
    if s.busy then some ({ s with comm := .enqueue ptr }, [])
    else some ({ s with busy := true, comm := .take ptr }, [])
  | .take ptr =>
    let s' := { s with pendingCmdQ := s.pendingCmdQ.tail }
    match s.pendingCmdQ.head?.join, ptr with
    | none, _ => some ({ s' with comm := .branch ptr }, [])
    | some aM1, none => some ({ s' with comm := .branch (some aM1) }, [])
    | some aM1, some aM => some ({ s' with comm := .requeue aM aM1 }, [])
  | .requeue aM aM1 =>
    some ({ s with pendingCmdQ := s.pendingCmdQ ++ [some aM], comm := .branch (some aM1) }, [])
  | .branch none => some ({ s with comm := .release }, [])
  | .branch (some aM) => some (s.run hash aM)
  | .posting .set msgs => some ({ s with concPending := true, comm := .posting .count msgs }, [])
  | .posting _ [] => some ({ s with comm := .idle }, [])
  | .posting .count (aM :: rest) =>
    some ({ s with reqCount := s.reqCount + 1, comm := .posting .reset (aM :: rest) }, [])
  | .posting .reset (aM :: rest) =>
    some ({ s with
      concPending := s.concPending && !rest.isEmpty, comm := .posting .put (aM :: rest) }, [])
  | .posting .put (aM :: rest) => some ({ s with comm := .posting .count rest }, [aM])
  | .release => some ({ s with busy := false, comm := .idle }, [])
  | .enqueue ptr => some ({ s with pendingCmdQ := s.pendingCmdQ ++ [ptr], comm := .idle }, [])

/-- What the comm thread does: `header` is `SetCommandType` accepting a line, `arrive` the call of
`Post2KVdata` for the parsed command, `readP` the read of a `'P'` record, `post` a step of
`Post2KVdataTSQ`. -/
inductive CommAct where
  | header (ctype : ACmdType)
  | arrive (p : Parsed)
  | readP
  | post
  deriving DecidableEq, Repr

/-- A step of the comm thread. Once the connection is closed nothing arrives any more, and the
search for the connection of a `'P'` record fails. -/
def ReqState.step (hash : Bytes → UInt32) (s : ReqState) : CommAct → Option (ReqState × List AMsg)
  | .header ctype =>
    if s.comm = .idle ∧ s.closed = false then some ({ s with ctype := ctype, headerRead := true }, [])
    else none
  | .arrive p =>
    if s.comm = .idle ∧ s.closed = false ∧ s.headerRead = true then
      (post2KVdata hash s.ctype p).map fun aM =>
        ({ s with headerRead := false, comm := .swap (some aM), arrived := s.arrived ++ [aM] }, [])
    else none
  | .readP =>
    if s.comm = .idle ∧ 0 < s.pipe then
      some ({ s with pipe := s.pipe - 1, comm := if s.closed then .idle else .swap none }, [])
    else none
  | .post => s.post2KVdataTSQ hash

def ReqState.dispatching (s : ReqState) : CommAct → Option AMsg
  | .post => match s.comm with
    | .branch aM => aM
    | _ => none
  | _ => none

theorem ReqState.run_dispatched (hash : Bytes → UInt32) (s : ReqState) (aM : AMsg) :
    (s.run hash aM).1.dispatched = s.dispatched ++ [(aM, dispatch hash s.ctype aM)] := by
  unfold ReqState.run
  cases dispatch hash s.ctype aM <;> rfl

theorem ReqState.post2KVdataTSQ_dispatched {hash : Bytes → UInt32} {s : ReqState}
    {t : ReqState × List AMsg} (h : s.post2KVdataTSQ hash = some t)
    (hne : ∀ aM, s.comm ≠ .branch (some aM)) : t.1.dispatched = s.dispatched := by
  unfold ReqState.post2KVdataTSQ at h
  cases hc : s.comm with
  | idle => simp [hc] at h
  | swap ptr =>
    simp only [hc] at h
    split at h <;> cases h <;> rfl
  | take ptr =>
    simp only [hc] at h
    split at h <;> cases h <;> rfl
  | requeue aM aM1 | release | enqueue ptr =>
    simp only [hc, Option.some.injEq] at h
    subst t; rfl
  | branch aM =>
    cases aM with
    | none =>
      simp only [hc, Option.some.injEq] at h
      subst t; rfl
    | some aM => exact absurd hc (hne aM)
  | posting k msgs =>
    cases k <;> cases msgs <;> simp only [hc, Option.some.injEq] at h <;> subst t <;> rfl

theorem ReqState.step_dispatched {hash : Bytes → UInt32} {s : ReqState}
    {t : ReqState × List AMsg} {a : CommAct} (h : s.step hash a = some t) :
    t.1.dispatched = s.dispatched ++
      (s.dispatching a).toList.map fun aM => (aM, dispatch hash s.ctype aM) := by
  cases a with
  | post =>
    by_cases hb : ∃ aM, s.comm = .branch (some aM)
    · obtain ⟨aM, hb⟩ := hb
      have ht : s.run hash aM = t := by
        simpa [step, post2KVdataTSQ, hb] using h
      subst t
      simp [run_dispatched, dispatching, hb]
    · have hnone : s.dispatching .post = none := by
        unfold dispatching
        cases hc : s.comm with
        | branch aM => cases aM with
          | none => rfl
          | some aM => exact absurd ⟨aM, hc⟩ hb
        | _ => rfl
      rw [hnone, post2KVdataTSQ_dispatched h fun aM hc => hb ⟨aM, hc⟩]
      simp
  | arrive p =>
    simp only [step, Option.ite_none_right_eq_some, Option.map_eq_some_iff] at h
    obtain ⟨-, aM, -, rfl⟩ := h
    simp [dispatching]
  | header ctype | readP =>
    simp only [step, Option.ite_none_right_eq_some, Option.some.injEq] at h
    obtain ⟨-, rfl⟩ := h
    simp [dispatching]

end Acached.Dispatch
