import Acached.Comm.Record
import Acached.Foundation.Refinement
import Mathlib.Data.List.Count

/-! # From `accept` to the comm threads

The main thread deals the connections that it accepts to the comm threads in
turn, through pipes into which the workers write as well. A pipe takes a record
as a whole or, when it is full, not at all; what a write returns is not looked
at. The queues of records that the pipes stand for are the upper system.
-/
namespace Acached.Comm
open CString Execution Refinement

abbrev threadCommMax : ℕ := 2

instance : NeZero threadCommMax := ⟨by decide⟩

abbrev Thread := Fin threadCommMax

def failed : UInt32 := 0xffffffff

/-- The connection objects, each busy one with its thread and `cSockFd`. Which were set up, and which
were found for the records that ask to look at a queue of commands, is recorded. -/
structure Conns where
  free : ℕ
  busy : List (Thread × UInt32)
  setUp : List (Thread × UInt32)
  woken : List (Option (Thread × UInt32))
  deriving DecidableEq, Repr

namespace Conns

/-- `aFBSQFindPtrBUSY` with `checkfd`. -/
def findBusy (s : Conns) (fd : UInt32) : Option (Thread × UInt32) :=
  s.busy.find? fun aC => aC.2 = fd

/-- What `ProcessNewFd` does with a record of type `I` or `P`; others are passed over. Without a free
object `Init` is called through a null pointer. -/
def handle (i : Thread) (initType : UInt8) (fd : UInt32) (s : Conns) : Option Conns :=
  if initType = 73 then
    if s.free = 0 then none
    else some { s with
      free := s.free - 1
      busy := s.busy ++ [(i, fd)]
      setUp := s.setUp ++ [(i, fd)] }
  else if initType = 80 then some { s with woken := s.woken ++ [s.findBusy fd] }
  else some s

end Conns

/-- The main thread and the pipes, whose contents are of type `P`. Which descriptors are open, and
which were accepted and whether there was room for their records, is recorded. -/
structure Comms (P : Type) where
  curr : Thread
  pipe : Thread → P
  conns : Conns
  opened : List UInt32
  accepted : List (UInt32 × Bool)

variable {P : Type}

def Comms.init (empty : P) (free : ℕ) : Comms P := ⟨0, fun _ => empty, ⟨free, [], [], []⟩, [], []⟩

def Comms.write (s : Comms P) (i : Thread) (room : Bool) (contents : P) : Comms P :=
  if room then { s with pipe := Function.update s.pipe i contents } else s

def Comms.dealt (s : Comms P) (fd : UInt32) (room : Bool) : Comms P :=
  { s with
    curr := if s.curr = threadCommMax - 1 then 0 else s.curr + 1
    opened := if fd = failed then s.opened else fd :: s.opened
    accepted := s.accepted ++ [(fd, room)] }

def Comms.closeConnection (s : Comms P) (i : Thread) (fd : UInt32) : Option (Comms P) :=
  if (i, fd) ∈ s.conns.busy then
    some { s with
      conns := { s.conns with free := s.conns.free + 1, busy := s.conns.busy.erase (i, fd) }
      opened := s.opened.erase fd }
  else none

/-- `accept` returns a descriptor that is not open, or fails; `wake` is `CheckPendingCmdQ` of a
connection of the thread `i`. -/
inductive Act where
  | accept (fd : UInt32) (pad : Padding)
  | wake (i : Thread) (fd : UInt32) (pad : Padding)
  | read (i : Thread)
  | close (i : Thread) (fd : UInt32)

/-- Pipes hold `cap` bytes. -/
def step (cap : ℕ) (s : Comms Bytes) : Act → Option (Comms Bytes)
  | .accept fd pad =>
    if fd ≠ failed ∧ fd ∈ s.opened then none
    else
      let room : Bool := (s.pipe s.curr).length + msgPipeSize ≤ cap
      some ((s.write s.curr room (s.pipe s.curr ++ (MsgPipe.mk pad 73 fd).bytes)).dealt fd room)
  | .wake i fd pad =>
    let room : Bool := (s.pipe i).length + msgPipeSize ≤ cap
    some (s.write i room (s.pipe i ++ (MsgPipe.mk pad 80 fd).bytes))
  | .read i =>
    if s.pipe i = [] then none
    else
      let buf := (s.pipe i).take 1008
      (processNewFd (Conns.handle i) buf buf.length (buf.length + 1) 0 s.conns).map fun conns =>
        { s with pipe := Function.update s.pipe i ((s.pipe i).drop 1008), conns := conns }
  | .close i fd => s.closeConnection i fd

/-! ## Queues of records -/

abbrev Rec := UInt8 × UInt32

/-- A write may find no room. -/
inductive Event where
  | accept (fd : UInt32) (room : Bool)
  | wake (i : Thread) (fd : UInt32) (room : Bool)
  | take (i : Thread)
  | close (i : Thread) (fd : UInt32)

def queueStep (s : Comms (List Rec)) : Event → Option (Comms (List Rec))
  | .accept fd room =>
    if fd ≠ failed ∧ fd ∈ s.opened then none
    else some ((s.write s.curr room (s.pipe s.curr ++ [(73, fd)])).dealt fd room)
  | .wake i fd room => some (s.write i room (s.pipe i ++ [(80, fd)]))
  | .take i => match s.pipe i with
    | [] => none
    | r :: rest => (s.conns.handle i r.1 r.2).map fun conns =>
      { s with pipe := Function.update s.pipe i rest, conns := conns }
  | .close i fd => s.closeConnection i fd

/-- The pipes hold the records of the queues, in some padding. -/
structure Holds (s : Comms Bytes) (u : Comms (List Rec)) : Prop where
  curr : u.curr = s.curr
  conns : u.conns = s.conns
  opened : u.opened = s.opened
  accepted : u.accepted = s.accepted
  pipe : ∀ i, ∃ ms : List MsgPipe, s.pipe i = ms.flatMap MsgPipe.bytes ∧
    u.pipe i = ms.map fun m => (m.initType, m.fd)

namespace Holds

variable {s t : Comms Bytes} {u : Comms (List Rec)} {i : Thread}

theorem init (free : ℕ) : Holds (.init [] free) (.init [] free) :=
  ⟨rfl, rfl, rfl, rfl, fun _ => ⟨[], rfl, rfl⟩⟩

theorem write (h : Holds s u) (i : Thread) (m : MsgPipe) (room : Bool) :
    Holds (s.write i room (s.pipe i ++ m.bytes))
      (u.write i room (u.pipe i ++ [(m.initType, m.fd)])) := by
  cases room with
  | false => exact h
  | true =>
    refine ⟨h.curr, h.conns, h.opened, h.accepted, fun j => ?_⟩
    dsimp only [Comms.write]
    rw [if_pos rfl, if_pos rfl]
    dsimp only
    by_cases hji : j = i
    · subst hji
      obtain ⟨ms, hs, hu⟩ := h.pipe j
      refine ⟨ms ++ [m], ?_, ?_⟩
      · rw [Function.update_self, hs, List.flatMap_append, List.flatMap_singleton]
      · rw [Function.update_self, hu, List.map_append, List.map_singleton]
    · rw [Function.update_of_ne hji, Function.update_of_ne hji]
      exact h.pipe j

theorem dealt (h : Holds s u) (fd : UInt32) (room : Bool) :
    Holds (s.dealt fd room) (u.dealt fd room) where
  curr := by
    dsimp only [Comms.dealt]
    rw [h.curr]
  conns := h.conns
  opened := by
    dsimp only [Comms.dealt]
    rw [h.opened]
  accepted := by
    dsimp only [Comms.dealt]
    rw [h.accepted]
  pipe := h.pipe

theorem taken (h : Holds s u) {ms : List MsgPipe} {conns : Conns} :
    Holds { s with
        pipe := Function.update s.pipe i (ms.flatMap MsgPipe.bytes)
        conns := conns }
      { u with
        pipe := Function.update u.pipe i (ms.map fun m => (m.initType, m.fd))
        conns := conns } := by
  refine ⟨h.curr, rfl, h.opened, h.accepted, fun j => ?_⟩
  dsimp only
  by_cases hji : j = i
  · subst hji
    rw [Function.update_self, Function.update_self]
    exact ⟨ms, rfl, rfl⟩
  · rw [Function.update_of_ne hji, Function.update_of_ne hji]
    exact h.pipe j

theorem closeConnection (h : Holds s u) {fd : UInt32} (hclose : s.closeConnection i fd = some t) :
    ∃ v, u.closeConnection i fd = some v ∧ Holds t v := by
  unfold Comms.closeConnection at hclose
  split_ifs at hclose with hbusy
  obtain rfl := Option.some.inj hclose
  refine ⟨{ u with
    conns := { s.conns with
      free := s.conns.free + 1
      busy := s.conns.busy.erase (i, fd) }
    opened := s.opened.erase fd }, ?_, h.curr, rfl, rfl, h.accepted, h.pipe⟩
  unfold Comms.closeConnection
  rw [h.conns, h.opened, if_pos hbusy]

end Holds

/-- The records of one read are taken one after the other. -/
theorem take_records {u : Comms (List Rec)} {i : Thread} {ms rest : List MsgPipe} {conns : Conns}
    (hpipe : u.pipe i = (ms ++ rest).map fun m => (m.initType, m.fd))
    (hrun : ms.foldlM (fun s m => Conns.handle i m.initType m.fd s) u.conns = some conns) :
    exec queueStep u (ms.map fun _ => .take i) = some { u with
      pipe := Function.update u.pipe i (rest.map fun m => (m.initType, m.fd))
      conns := conns } := by
  induction ms generalizing u with
  | nil =>
    obtain rfl := Option.some.inj hrun
    rw [List.nil_append] at hpipe
    rw [← hpipe, Function.update_eq_self]
    rfl
  | cons m ms ih =>
    rw [List.foldlM_cons] at hrun
    obtain ⟨conns', hconns, hrest⟩ := Option.bind_eq_some_iff.mp hrun
    have hstep : queueStep u (.take i) = some { u with
        pipe := Function.update u.pipe i ((ms ++ rest).map fun m => (m.initType, m.fd))
        conns := conns' } := by
      dsimp only [queueStep]
      rw [hpipe, List.cons_append, List.map_cons]
      dsimp only
      rw [hconns]
      rfl
    rw [List.map_cons, exec_cons, hstep, Option.bind_some]
    rw [ih (Function.update_self ..) hrest]
    dsimp only
    rw [Function.update_idem]

/-- A read of 1008 bytes ends between two records. -/
theorem take_read (ms : List MsgPipe) :
    (ms.flatMap MsgPipe.bytes).take 1008 = (ms.take 42).flatMap MsgPipe.bytes ∧
      (ms.flatMap MsgPipe.bytes).drop 1008 = (ms.drop 42).flatMap MsgPipe.bytes := by
  by_cases hle : ms.length ≤ 42
  · have hshort : (ms.flatMap MsgPipe.bytes).length ≤ 1008 := by
      rw [length_records]
      exact Nat.mul_le_mul_left msgPipeSize hle
    rw [List.take_of_length_le hshort, List.drop_eq_nil_of_le hshort, List.take_of_length_le hle,
      List.drop_eq_nil_of_le hle]
    exact ⟨rfl, rfl⟩
  · have hfront : ((ms.take 42).flatMap MsgPipe.bytes).length = 1008 := by
      rw [length_records, List.length_take, Nat.min_eq_left (by omega)]
      rfl
    have hsplit : ms.flatMap MsgPipe.bytes =
        (ms.take 42).flatMap MsgPipe.bytes ++ (ms.drop 42).flatMap MsgPipe.bytes := by
      rw [← List.flatMap_append, List.take_append_drop]
    rw [hsplit]
    exact ⟨List.take_left' hfront, List.drop_left' hfront⟩

/-- Bytes are read as the records that were written. -/
theorem pipes_refine (cap : ℕ) : Refines (step cap) queueStep (fun _ => True) Holds := by
  intro s u a t h _ hstep
  cases a with
  | accept fd pad =>
    dsimp only [step] at hstep
    split_ifs at hstep with hopen
    generalize decide ((s.pipe s.curr).length + msgPipeSize ≤ cap) = room at hstep
    obtain rfl := Option.some.inj hstep
    refine Refines.single (b := .accept fd room) ?_ ((h.write s.curr ⟨pad, 73, fd⟩ room).dealt fd room)
    dsimp only [queueStep]
    rw [h.opened, if_neg hopen, h.curr]
  | wake i fd pad =>
    obtain rfl := Option.some.inj hstep
    exact Refines.single (b := .wake i fd _) rfl (h.write i ⟨pad, 80, fd⟩ _)
  | read i =>
    dsimp only [step] at hstep
    split_ifs at hstep with hempty
    obtain ⟨conns, hrun, rfl⟩ := Option.map_eq_some_iff.mp hstep
    obtain ⟨ms, hs, hu⟩ := h.pipe i
    rw [hs] at hrun ⊢
    rw [(take_read ms).1] at hrun
    rw [(take_read ms).2]
    have hfuel : (ms.take 42).length < ((ms.take 42).flatMap MsgPipe.bytes).length + 1 := by
      rw [length_records]
      exact Nat.lt_succ_of_le (Nat.le_mul_of_pos_left _ (by decide))
    rw [processNewFd_records (ms.take 42) s.conns hfuel, ← h.conns] at hrun
    rw [← List.take_append_drop 42 ms] at hu
    exact ⟨_, _, take_records hu hrun, h.taken⟩
  | close i fd =>
    obtain ⟨v, hv, hholds⟩ := h.closeConnection hstep
    exact Refines.single (b := .close i fd) hv hholds

end Acached.Comm
