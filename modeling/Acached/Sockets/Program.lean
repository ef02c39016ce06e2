import Acached.Reply.FinalFlush
import Acached.Reply.FinalWrite
import Acached.Worker.Program

/-! # Clients, connection objects and sockets

The server as far as it is decided who is sent what: the kernel's descriptors,
the pool of connection objects with their reply arrays, and the workers, each at
its place in the program of `thrKVdata` for the connection of its message. A
client is the number of its `accept`; messages, entries and sent bytes are
recorded with the client whose command they answer.

An object keeps its arrays when it is closed and when it is handed out again,
and a completed command only resets their counters. The descriptor that a
`sendmsg` goes to is read from the connection in a step of its own. In which
order the commands of a connection are handed to the workers, what its request
side is when a worker reads it, which keys are found and what `sendmsg` takes is
left to the runs.
-/
namespace Acached.Sockets
open CString Dispatch Reply Worker Gather Execution

abbrev Fd := ℕ

structure Message (O : Type) where
  conn : O
  client : ℕ
  aM : AMsg
  deriving DecidableEq, Repr

/-- The final flush of a get: its loop, and the locals of the `WriteAllOnce` that it is in. -/
structure Flushing where
  loop : FinalFlush
  start : ℕ
  iovCount : ℕ
  totalcount : ℤ

namespace Flushing

/-- The call of `WriteAllOnce` that the next round of the loop makes. -/
def enter (loop : FinalFlush) : Flushing :=
  ⟨loop, loop.start, if loop.count > 1024 then 1024 else loop.count, 0⟩

/-- `WriteAllOnce` returns, and the loop makes another round or is over. -/
def returned (f : Flushing) (ret : ℤ) : Option Flushing :=
  let loop := f.loop.round ret
  if loop.running then some (.enter loop) else none

def sendmsg (f : Flushing) (reply : IovReply) (res : SendResult) :
    Option (Option Flushing × IovReply) :=
  (WriteAll.sendmsg ⟨f.start, f.iovCount, f.totalcount, reply.iovec, reply.sent⟩ res).map
    fun (t, ret) => (match ret with
      | some v => f.returned v
      | none => some { f with start := t.start, iovCount := t.iovCount, totalcount := t.totalcount },
    { reply with iovec := t.iovec, sent := t.sent })

end Flushing

/-- A worker at a message. `flush` is the final flush while it lasts, and `fd` the descriptor that was
read for the next `sendmsg`. -/
structure Job (O : Type) where
  message : Message O
  pc : Pc
  flush : Option Flushing
  fd : Option (Option Fd)

variable {O W : Type}

def Job.goTo (m : Message O) : Pc → Option (Job O)
  | .idle => none
  | .endWrite ret2 y => some ⟨m, .endWrite ret2 y, some (.enter (.init y ret2)), none⟩
  | pc => some ⟨m, pc, none, none⟩

/-- The entries that the `sendmsg` covers which the worker is at: the first one, and how many. -/
def Job.range (j : Job O) : Option (ℕ × ℕ) :=
  match j.flush with
  | some f => some (f.start, f.iovCount)
  | none => match j.pc with
    | .setSend => some (0, 1)
    | .qreply (.sendmsg start count) => some (start, count.toNat)
    | _ => none

def fills : Pc → Option ℕ
  | .setAdd index | .endAdd index | .qreply (.fillHdr index _ _)
  | .qreply (.fillVal index _ _) => some index
  | _ => none

/-- Bytes of an entry that the kernel took: whose command they answer, and whose socket they went
to. -/
structure Sent where
  client : ℕ
  receiver : ℕ
  bytes : Bytes
  deriving DecidableEq, Repr

/-- The first `r` bytes of `n` entries from `i` on, by entries. -/
def sentOf (owner : ℕ → ℕ) (iovec : ℕ → Bytes) (receiver : ℕ) : ℕ → ℕ → ℕ → List Sent
  | _, 0, _ => []
  | i, n + 1, r =>
    let rest := sentOf owner iovec receiver (i + 1) n (r - (iovec i).length)
    if (iovec i).take r = [] then rest else ⟨owner i, receiver, (iovec i).take r⟩ :: rest

theorem sentOf_bytes (owner : ℕ → ℕ) (iovec : ℕ → Bytes) (receiver i n r : ℕ) :
    (sentOf owner iovec receiver i n r).flatMap Sent.bytes = (gather iovec i n).take r := by
  induction n generalizing i r with
  | zero => simp [sentOf]
  | succ n ih =>
    rw [gather_succ, List.take_append, ← ih, sentOf]
    split
    · next hnone => rw [hnone, List.nil_append]
    · rw [List.flatMap_cons]

/-- `opened` is the kernel's view of the descriptors, `event` the events of the comm threads with
their connections, `pipe` the `'I'` records, and `inFlight` the messages that no worker has taken.
`owner` is the client whose reply an entry was filled with last; `filled` says that it was filled
since its object was handed out. -/
structure System (O W : Type) where
  accepted : ℕ
  opened : Fd → Option ℕ
  pipe : List Fd
  freeQ : List O
  event : List (Fd × O)
  cSockFd : O → Option Fd
  inFlight : List (Message O)
  reply : O → IovReply
  owner : O → ℕ → ℕ
  filled : O → ℕ → Bool
  worker : W → Option (Job O)
  sent : List Sent

/-- `recv` is what the comm thread reads for an event, as the messages that it leads to; `close` is
`closeConnection`. `readFd` is the read of `cSockFd` in front of a `sendmsg`, and `final` a `sendmsg` of
the final flush. The other steps of a worker get the request side of the connection, what was found
and the result of `sendmsg`. -/
inductive Act (O W : Type) where
  | accept (fd : Fd)
  | newFd (fd : Fd)
  | recv (fd : Fd) (o : O) (msgs : List AMsg)
  | close (fd : Fd) (o : O)
  | take (w : W) (m : Message O)
  | readFd (w : W)
  | step (w : W) (q : ReqState) (found : Option (Bytes × Bytes)) (r : ℤ)
  | final (w : W) (res : SendResult)

namespace System

def init (W : Type) (pool : List O) : System O W where
  accepted := 0
  opened _ := none
  pipe := []
  freeQ := pool
  event := []
  cSockFd _ := none
  inFlight := []
  reply _ := .init
  owner _ _ := 0
  filled _ _ := false
  worker _ := none
  sent := []

/-- What goes out when the worker is at a `sendmsg` that returns `r`. A descriptor that is not open
takes nothing. -/
def sends (s : System O W) (j : Job O) (r : ℕ) : Option (List Sent) :=
  match j.range with
  | none => some []
  | some (start, count) => j.fd.bind fun fd =>
    let iovec := (s.reply j.message.conn).iovec
    match fd.bind s.opened with
    | none => if r = 0 then some [] else none
    | some receiver =>
      if r ≤ (gather iovec start count).length then
        some (sentOf (s.owner j.message.conn) iovec receiver start count r)
      else none

variable [DecidableEq O] [DecidableEq W]

def answered (s : System O W) (w : W) (j : Job O) (next : Option (Job O)) (reply : IovReply)
    (log : List Sent) : System O W :=
  let o := j.message.conn
  let s := { s with
    reply := Function.update s.reply o reply
    worker := Function.update s.worker w next
    sent := s.sent ++ log }
  match fills j.pc with
  | none => s
  | some i => { s with
    owner := Function.update s.owner o (Function.update (s.owner o) i j.message.client)
    filled := Function.update s.filled o (Function.update (s.filled o) i true) }

theorem answered_reply (s : System O W) (w : W) (j : Job O) (next : Option (Job O))
    (reply : IovReply) (log : List Sent) : (s.answered w j next reply log).reply =
      Function.update s.reply j.message.conn reply := by
  unfold System.answered
  cases fills j.pc <;> rfl

theorem answered_worker (s : System O W) (w : W) (j : Job O) (next : Option (Job O))
    (reply : IovReply) (log : List Sent) :
    (s.answered w j next reply log).worker = Function.update s.worker w next := by
  unfold System.answered
  cases fills j.pc <;> rfl

end System

/-- The connection of a message with its request side as it is read. -/
def session (q : ReqState) (reply : IovReply) : Session Unit where
  toReqState := q
  reply := reply
  queue := []
  worker _ := .idle
  cmd _ := 0
  record := ⟨0, 0, [], 0, 0⟩

def taken : SendResult → ℕ
  | .sent writeret => writeret
  | .eintr | .eagain _ | .error => 0

variable [DecidableEq O] [DecidableEq W]

/-- A step of the server. The kernel gives an `accept` any number that is not open; a connection
object comes from the front of the pool and goes back to its end, with its `cSockFd`, its arrays and
whatever refers to it as they are. -/
def step (s : System O W) : Act O W → Option (System O W)
  | .accept fd =>
    if s.opened fd = none then some { s with
      opened := Function.update s.opened fd (some s.accepted)
      accepted := s.accepted + 1
      pipe := s.pipe ++ [fd] }
    else none
  | .newFd fd => match s.freeQ with
    | [] => none
    | o :: rest =>
      if fd ∈ s.pipe then some { s with
        pipe := s.pipe.erase fd
        freeQ := rest
        event := s.event ++ [(fd, o)]
        cSockFd := Function.update s.cSockFd o (some fd)
        filled := Function.update s.filled o fun _ => false }
      else none
  | .recv fd o msgs =>
    if (fd, o) ∈ s.event then (s.opened fd).map fun client => { s with
      inFlight := s.inFlight ++ msgs.map fun aM => ⟨o, client, aM⟩ }
    else none
  | .close fd o =>
    if (fd, o) ∈ s.event then some { s with
      event := s.event.erase (fd, o)
      opened := Function.update s.opened fd none
      freeQ := s.freeQ ++ [o] }
    else none
  | .take w m =>
    if (s.worker w).isNone ∧ m ∈ s.inFlight then some { s with
      inFlight := s.inFlight.erase m
      worker := Function.update s.worker w (Job.goTo m (start m.aM)) }
    else none
  | .readFd w => (s.worker w).bind fun j =>
    if j.range.isSome then some { s with
      worker := Function.update s.worker w (some { j with fd := some (s.cSockFd j.message.conn) }) }
    else none
  | .step w q found r => (s.worker w).bind fun j =>
    if j.flush.isNone then do
      let log ← s.sends j r.toNat
      let (pc, s') ← (session q (s.reply j.message.conn)).next found r j.pc
      return s.answered w j (Job.goTo j.message pc) s'.reply log
    else none
  | .final w res => (s.worker w).bind fun j => j.flush.bind fun f => do
    let log ← s.sends j (taken res)
    let (flush, reply) ← f.sendmsg (s.reply j.message.conn) res
    return s.answered w j (some { j with flush := flush, fd := none }) reply log

end Acached.Sockets
