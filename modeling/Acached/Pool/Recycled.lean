import Acached.Receive.BlockSizes
import Acached.Worker.LeftEntries
import Acached.Worker.Served

/-! # Connection objects used again

`closeConnection` gives a connection object back to its pool, and `Init` makes
it the connection of another client. Both call `Reset`, which sets some of the
fields that the constructor sets. The object is modelled with all that goes on
at it: the comm thread that receives and hands over, the workers, and the
change of clients.
-/
namespace Acached.Pool
open CString Dispatch Receive Execution

/-- A connection object: what the comm thread parses with, and what it shares with the workers.
`posting` says that the comm thread is in `Post2KVdata` for a command that it has just parsed. -/
structure Object (W : Type) where
  recv : Conn
  session : Worker.Session W
  posting : Bool

namespace Object

variable {W : Type}

/-- The constructor on the memory of an object, and `Init`; `cmd.ctype` is not initialised. -/
def new (W : Type) (mem : Conn) (ctype : ACmdType) (sock : Sock) : Object W :=
  ⟨Conn.new mem sock, .init W ctype, false⟩

/-- `aConn::Init`. What was recorded of the last client's input is dropped. -/
def init (s : Object W) (sock : Sock) : Object W :=
  { s with
    recv := Conn.reset { s.recv with
      sock := sock, closed := false, inLoop := false, line := [], refused := false
      posted := [], received := [], dropped := [] }
    session := { s.session with closed := false, concPending := false } }

def closed (s : Object W) : Object W :=
  { s with session := { s.session with closed := true, concPending := false } }

def setRecv (s : Object W) (t : Conn) : Object W :=
  let s := { s with recv := t, session := { s.session with ctype := t.ctype } }
  if t.closed then s.closed else s

/-- `Post2KVdata` begins with the message of the command that `t` has posted last, if it is one more
than before. -/
def post2KVdata (s : Object W) (t : Conn) : Option (Object W) :=
  match (t.posted.drop s.recv.posted.length).head? with
  | none => some (s.setRecv t)
  | some p => p.aM.map fun aM =>
    let s := s.setRecv t
    { s with
      session := { s.session with
        comm := .swap (some aM), arrived := s.session.arrived ++ [aM] }
      posting := true }

/-- The comm thread has made a step in `Post2KVdataTSQ` that leaves `t`. A quit that is dispatched
closes the connection; behind any other command `commRead_cb` calls `Reset`. -/
def handedOver (s : Object W) (t : Worker.Session W) : Object W :=
  let s' : Object W :=
    if t.closed = true ∧ s.session.closed = false then
      closed { s with recv := s.recv.closeConnection, session := t }
    else { s with session := t }
  if t.comm = .idle ∧ s.posting = true then
    { s' with
      session := { s'.session with
        concPending := s'.session.concPending && decide (t.ctype = .quit) }
      posting := false }
  else s'

end Object

/-- The comm thread starts its callback, takes a turn of its loop, makes a step of `Post2KVdataTSQ`
or reads a `'P'` record; a worker takes a message or makes a step; the object is recycled. -/
inductive Act (W : Type) where
  | callback
  | turn
  | comm
  | readP
  | take (w : W) (m : ℕ × AMsg)
  | step (w : W) (found : Option (Bytes × Bytes)) (r : ℤ)
  | recycle (sock : Sock)
  deriving DecidableEq, Repr

variable {W : Type} [DecidableEq W]

/-- A step at the object. A quit does not close the connection in the turn that parses it, but when
it is dispatched. A closed connection can be allocated by the other comm thread at any time. -/
def step (hash : Bytes → UInt32) (s : Object W) : Act W → Option (Object W)
  | .callback =>
    if s.session.comm = .idle then
      (recvStep hash s.recv (.callback s.session.reqCount s.session.replyCount)).map s.setRecv
    else none
  | .turn =>
    if s.session.comm = .idle then
      (recvStep hash s.recv (.turn true)).bind s.post2KVdata
    else none
  | .comm => (Worker.step hash s.session (.comm .post)).map s.handedOver
  | .readP =>
    if s.recv.inLoop = false then
      (Worker.step hash s.session (.comm .readP)).map fun t => { s with session := t }
    else none
  | .take w m => (Worker.step hash s.session (.take w m)).map fun t => { s with session := t }
  | .step w found r =>
    (Worker.step hash s.session (.step w found r)).map fun t => { s with session := t }
  | .recycle sock => if s.recv.closed then some (s.init sock) else none

/-! ## As good as new -/

def descs (c : IovSlot) : Bool × Bool × Bool × Bool := (c.hdr, c.hdrPart, c.body, c.bodyPart)

/-- The reply fields that are read before they are written. -/
def replyFields (s : Worker.Session W) : ℕ × ℕ × UInt32 × Bool :=
  (s.reply.iovIndex, s.reply.windexlast, s.reply.totalsize, s.reply.writingflag)

def scrubbed (mem : Conn) : Conn :=
  { mem with slot := fun i =>
      { mem.slot i with hdr := false, hdrPart := false, body := false, bodyPart := false } }

def Object.fresh (s : Object W) (sock : Sock) : Object W :=
  .new W (scrubbed s.recv) s.session.ctype sock

/-- Nothing is left of the client before: no bytes behind its last line, no offset or bit of a body
that was read in parts, no command that holds `Busy` or waits for it, no key of a get that is not
answered, and no reply that is not sent. -/
structure AtRest (s : Object W) : Prop where
  line : s.recv.dataPendingRead = false
  body : ∀ i, (s.recv.slot i).baseOffset = 0 ∧
    (iovDescCleared ≤ i → descs (s.recv.slot i) = (false, false, false, false))
  command : s.session.busy = false ∧ s.session.pendingCmdQ = []
  keys : s.session.reqCount = 0 ∧ s.session.replyCount = 0
  reply : replyFields s.session = (0, 0, 0, false)

variable {hash : Bytes → UInt32} {s : Object W}

omit [DecidableEq W] in
theorem AtRest.sameButSizes (h : AtRest s) (sock : Sock) :
    (s.init sock).recv.SameButSizes (s.fresh sock).recv := by
  refine ⟨fun _ => 0, ?_, fun hstate => by cases hstate⟩
  have hslot (i : ℕ) : ((s.fresh sock).recv.slot i) =
      { (s.init sock).recv.slot i with allocSize := 0 } := by
    obtain ⟨hoffset, hbits⟩ := h.body i
    simp only [Object.fresh, Object.new, Object.init, Conn.new, Conn.reset, scrubbed, hoffset]
    by_cases hi : iovDescCleared ≤ i
    · have hbits := hbits hi
      simp only [descs, Prod.mk.injEq] at hbits
      simp [hbits]
    · simp [hi]
  have hline : (s.init sock).recv.dataPendingRead = false := h.line
  have hslots : (s.fresh sock).recv.slot = ((s.init sock).recv.resize fun _ => 0).slot :=
    funext hslot
  have hfresh : (s.fresh sock).recv = { (s.init sock).recv with
      dataPendingRead := false, slot := (s.fresh sock).recv.slot } := rfl
  rw [hfresh, hslots]
  unfold Conn.resize
  rw [hline]

end Acached.Pool
