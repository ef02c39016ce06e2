import Acached.Receive.Line
import Acached.Foundation.Execution
import Mathlib.Logic.Function.Basic

/-! # Receiving commands

`aConn::ProcessDataRecv` with the fields of a connection that it works on, and
the loop around it in `commRead_cb`. The results that `read` will give are part
of the state. What has no defined outcome, or ends in a failed assertion, has
no result.
-/
namespace Acached.Receive
open CString Dispatch

/-! ## The socket -/

inductive Errno where
  | eagain | other
  deriving DecidableEq, Repr

/-- What `read` gives; no bytes at all are the end of the stream. -/
inductive ReadResult where
  | data (bytes : Bytes)
  | failed (errno : Errno)
  deriving DecidableEq, Repr

/-- The results to come. After them reads fail with `EAGAIN`. -/
structure Sock where
  results : List ReadResult
  deriving DecidableEq, Repr

/-- `read` of at most `n` bytes. What is left of a result is there for the next call, and the end of
the stream stays. -/
def Sock.read (sock : Sock) (n : ℕ) : ReadResult × Sock :=
  match sock.results with
  | [] => (.failed .eagain, sock)
  | .failed e :: rest => (.failed e, ⟨rest⟩)
  | .data [] :: _ => (.data [], sock)
  | .data (x :: b) :: rest =>
    if b.length < n then (.data (x :: b), ⟨rest⟩)
    else (.data ((x :: b).take n), ⟨.data ((x :: b).drop n) :: rest⟩)

def Sock.Waiting (sock : Sock) : Prop := ∃ x b rest, sock.results = .data (x :: b) :: rest

def Sock.Spent (sock : Sock) : Prop :=
  match sock.results with
  | [] | .data [] :: _ => True
  | _ => False

/-! ## Memory blocks -/

/-- A block up to the last byte that was written into it; `none` is a byte that was not. -/
abbrev Block := List (Option UInt8)

def Block.write (b : Block) (pos : ℕ) (src : Block) : Block :=
  (b ++ List.replicate (pos - b.length) none).take pos ++ src ++ b.drop (pos + src.length)

def Block.slice (b : Block) (pos n : ℕ) : Block :=
  (b.drop pos).take n ++ List.replicate (n - ((b.drop pos).take n).length) none

def Block.bytes : Block → Option Bytes
  | [] => some []
  | none :: _ => none
  | some x :: b => (Block.bytes b).map (x :: ·)

def sub32 (m n : ℕ) : ℕ := (m + (2 ^ 32 - n % 2 ^ 32)) % 2 ^ 32

def asInt (n : ℕ) : ℤ := Int.bmod n (2 ^ 32)

theorem asInt_of_lt {n : ℕ} (h : n < 2 ^ 31) : asInt n = n := by
  unfold asInt
  rw [Int.bmod_def]
  omega

theorem asInt_neg {n : ℕ} (hle : 2 ^ 31 ≤ n) (hlt : n < 2 ^ 32) : asInt n < 0 := by
  unfold asInt
  rw [Int.bmod_def]
  omega

/-! ## The connection -/

inductive AConnState where
  | cmdWait | hdrWait | bodyWait | cmdDone
  deriving DecidableEq, Repr

/-- The application errors that the parser sets. -/
inductive AErrNum where
  | cmdInvalid | cmdInvalidHdr | cmdInvalidDatalen
  deriving DecidableEq, Repr

/-- `aerrtype` with `aerrnum`. -/
inductive AErr where
  | sys (errno : Errno)
  | app (num : AErrNum)
  deriving DecidableEq, Repr

/-- An index of `iovReq`: its `iovec`, `iovec_base_offset`, `iovec_alloc_size` and the four bits of
`iovDesc`. -/
structure IovSlot where
  base : Block
  len : ℕ
  baseOffset : ℕ
  allocSize : ℕ
  hdr : Bool
  hdrPart : Bool
  body : Bool
  bodyPart : Bool
  deriving DecidableEq, Repr

/-- A command handed to `Post2KVdata`: the line it was parsed from, and the message made of it, if
all the bytes it carries were written. -/
structure Posted where
  line : Bytes
  aM : Option AMsg
  deriving DecidableEq, Repr

def iovReqSize : ℕ := 32

/-- The indices whose `iovDesc` is cleared by `Reset`, which takes `sizeof(aConnIovDesc)` for the
size of an element. -/
def iovDescCleared : ℕ := 16

def cmdWaitInit : ℕ := 32768

/-- The receiving side of `class aConn`, with its socket and the comm thread's `errno`. `line` is the
command line read last, and `refused` says that an application error was set for it; `posted`,
`received` and `dropped` record the commands handed on, the bytes that `ProcessDataRecv` read and
those that `commRead_cb` read itself. `inLoop` says that the callback is running. -/
structure Conn where
  state : AConnState
  dataPendingRead : Bool
  slot : ℕ → IovSlot
  iovIndex : ℕ
  iovIndexHdr : ℕ
  ctype : ACmdType
  header : Header
  aerr : Option AErr
  errno : Errno
  sock : Sock
  closed : Bool
  inLoop : Bool
  line : Bytes
  refused : Bool
  posted : List Posted
  received : Bytes
  dropped : Bytes

namespace Conn

def modify (s : Conn) (i : ℕ) (f : IovSlot → IovSlot) : Conn :=
  { s with slot := Function.update s.slot i (f (s.slot i)) }

def cur (s : Conn) : IovSlot := s.slot s.iovIndex

/-- `aConn::SetError()`. -/
def setErrorSys (s : Conn) : Conn := { s with aerr := some (.sys s.errno) }

/-- `aConn::SetError(aerrnum)`. -/
def setErrorApp (s : Conn) (num : AErrNum) : Conn :=
  { s with aerr := some (.app num), refused := true }

/-- The request side of `aConn::Reset`. -/
def reset (s : Conn) : Conn :=
  { s with
    state := .cmdWait
    aerr := none
    iovIndex := 0
    slot := fun i =>
      let c := s.slot i
      let keep := decide (iovDescCleared ≤ i)
      { c with
        base := [], len := 0
        hdr := c.hdr && keep, hdrPart := c.hdrPart && keep
        body := c.body && keep, bodyPart := c.bodyPart && keep } }

/-- The constructor on the memory of an object, and `Init` for a client's socket. -/
def new (mem : Conn) (sock : Sock) : Conn :=
  reset { mem with
    dataPendingRead := false
    slot := fun i => { mem.slot i with baseOffset := 0, allocSize := 0 }
    sock := sock
    closed := false
    inLoop := false
    line := []
    refused := false
    posted := []
    received := []
    dropped := [] }

def zeroed : Conn where
  state := .cmdWait
  dataPendingRead := false
  slot := fun _ => ⟨[], 0, 0, 0, false, false, false, false⟩
  iovIndex := 0
  iovIndexHdr := 0
  ctype := .get
  header := ⟨[], 0, 0, 0, 0⟩
  aerr := none
  errno := .other
  sock := ⟨[]⟩
  closed := false
  inLoop := false
  line := []
  refused := false
  posted := []
  received := []
  dropped := []

def setState (s : Conn) (state : AConnState) : Conn := { s with state := state }

def setPending (s : Conn) (b : Bool) : Conn := { s with dataPendingRead := b }

/-! ## Results of `read` -/

def readFailed (s : Conn) (sock : Sock) (e : Errno) : Conn :=
  { s with sock := sock, errno := e }.setErrorSys

def streamEnded (s : Conn) (sock : Sock) : Conn := { s with sock := sock }.setErrorSys

def took (s : Conn) (sock : Sock) (bytes : Bytes) : Conn :=
  { s with sock := sock, received := s.received ++ bytes }

/-! ## `ProcessDataRecv` in the state `cmd_wait` -/

/-- The end of `cmd_wait` for a line of `n` bytes: what is behind it stays in the block. -/
def leftOver (s : Conn) (n : ℕ) : Conn :=
  if n < s.cur.len then (s.modify s.iovIndex fun c => { c with baseOffset := n }).setPending true
  else s

/-- The line takes `n` bytes of the block, which was received as `buf`. -/
def headed (s : Conn) (ctype : ACmdType) (buf : Bytes) (n : ℕ) (block : Bytes) : Conn :=
  { s with ctype := ctype, iovIndexHdr := s.iovIndex, line := buf.take (n - 2) }.modify s.iovIndex
    fun c => { c with base := block.map some, hdr := true }

def awaitBody (s : Conn) (header : Header) : Conn :=
  { s with state := .bodyWait, header := header }

def lineComplete (s : Conn) (ctype : ACmdType) (buf : Bytes) (n : ℕ) (block : Bytes) :
    Option (Conn × ℤ) :=
  if ctype = .set then
    match processHeader s.header block with
    | none => none
    | some (false, header) =>
      some (((s.headed ctype buf n block).awaitBody header).setErrorApp .cmdInvalidHdr, -1)
    | some (true, header) =>
      some (((s.headed ctype buf n block).awaitBody header).leftOver n, n)
  else some (((s.headed ctype buf n block).setState .cmdDone).leftOver n, n)

def stored (s : Conn) (buf : Bytes) : Conn :=
  { s with refused := false }.modify s.iovIndex fun c =>
    { c with base := buf.map some, len := c.len + buf.length }

/-- What comes behind the read of a line. An incomplete line fails an assertion. -/
def lineRead (s : Conn) (buf : Bytes) : Option (Conn × ℤ) :=
  match setCommandType buf s.cur.len with
  | none => none
  | some none => some (s.setErrorApp .cmdInvalid, -1)
  | some (some ctype) =>
    match isBufferComplete buf s.cur.len with
    | none => none
    | some (0, _) => none
    | some (n + 1, block) => s.lineComplete ctype buf (n + 1) block

def newBlock (s : Conn) : Conn :=
  s.modify s.iovIndex fun c => { c with base := [], allocSize := cmdWaitInit }

def cmdWait (s : Conn) : Option (Conn × ℤ) :=
  match s.sock.read cmdWaitInit with
  | (.failed e, sock) => some (s.newBlock.readFailed sock e, -1)
  | (.data [], sock) => some (s.newBlock.streamEnded sock, 0)
  | (.data (b :: buf), sock) =>
    ((s.newBlock.took sock (b :: buf)).stored (b :: buf)).lineRead (b :: buf)

/-! ## `ProcessDataRecv` in the state `body_wait` -/

/-- The bytes that a body takes with its terminator, as a `uint32_t`. -/
def bodySize (s : Conn) : ℕ := (s.header.datalen + 2) % 2 ^ 32

def pending (s : Conn) : ℕ :=
  if s.dataPendingRead then sub32 s.cur.len s.cur.baseOffset else 0

/-- The next index with a new block for the body, and the first `n` bytes that are pending in it. -/
def newBody (s : Conn) (n : ℕ) : Conn :=
  { s with iovIndex := s.iovIndex + 1 }.modify (s.iovIndex + 1) fun c =>
    { c with base := s.cur.base.slice s.cur.baseOffset n, allocSize := s.bodySize }

def copied (s : Conn) : Conn :=
  (((s.newBody s.pending).modify (s.iovIndex + 1) fun c =>
    { c with len := c.len + s.pending }).modify s.iovIndex fun c =>
      { c with baseOffset := 0 }).setPending false

/-- What comes in front of the first read of a body: the position in the new block at which the read
starts, and the bytes it asks for. Pending bytes are taken over unless there are more than the body
has room for. -/
def bodyFirst (s : Conn) : Option (Conn × ℕ × ℕ) :=
  if iovReqSize ≤ s.iovIndex + 1 then none
  else if s.dataPendingRead = false then some (s.newBody 0, 0, s.bodySize)
  else if s.cur.allocSize < s.cur.baseOffset + min s.pending s.bodySize then none
  else if s.bodySize < s.pending then
    some ((s.newBody s.bodySize).modify s.iovIndex fun c => { c with baseOffset := s.bodySize },
      s.bodySize, 0)
  else some (s.copied, s.pending, s.bodySize - s.pending)

/-- The bytes that are asked for to complete a block that holds part of a body. -/
def bodyRest (s : Conn) : ℕ := sub32 (s.header.datalen + 2) s.cur.baseOffset

/-- What comes in front of a read of a body. In a block that holds part of the body already, the
index that left-over bytes would be taken from is not set. -/
def bodyPrepare (s : Conn) : Option (Conn × ℕ × ℕ) :=
  if s.cur.bodyPart then
    if s.dataPendingRead then none
    else some (s, s.cur.baseOffset, s.bodyRest)
  else s.bodyFirst

def bodyEnd (s : Conn) : Conn × ℤ :=
  if s.cur.len < s.cur.allocSize then
    ((s.modify s.iovIndex fun c =>
      { c with baseOffset := (c.baseOffset + c.len) % 2 ^ 32, bodyPart := true }).setState .bodyWait,
        asInt s.cur.len)
  else
    ((s.modify s.iovIndex fun c => { c with body := true }).setState .cmdDone, asInt s.cur.len)

def filled (s : Conn) (pos : ℕ) (buf : Bytes) : Conn :=
  s.modify s.iovIndex fun c =>
    { c with base := c.base.write pos (buf.map some), len := c.len + buf.length }

/-- The read of `len` bytes at `pos`. A length that is negative as an `int` makes it fail. -/
def bodyRead (s : Conn) (pos len : ℕ) : Option (Conn × ℤ) :=
  if len = 0 then some s.bodyEnd
  else if 2 ^ 31 ≤ len then some (s.readFailed s.sock .other, -1)
  else match s.sock.read len with
    | (.failed e, sock) => some (s.readFailed sock e, -1)
    | (.data [], sock) => some (s.streamEnded sock, 0)
    | (.data (b :: buf), sock) =>
      if s.cur.allocSize < pos + (b :: buf).length then none
      else some ((s.took sock (b :: buf)).filled pos (b :: buf)).bodyEnd

def bodyWait (s : Conn) : Option (Conn × ℤ) :=
  if s.header.datalen = 0 then some ((s.setErrorApp .cmdInvalidDatalen).setState .cmdDone, -1)
  else s.bodyPrepare.bind fun (s, pos, len) => s.bodyRead pos len

def processDataRecv (s : Conn) : Option (Conn × ℤ) :=
  match s.state with
  | .cmdWait => s.cmdWait
  | .bodyWait => s.bodyWait
  | .hdrWait | .cmdDone => none

/-! ## `commRead_cb` -/

def leaveLoop (s : Conn) : Conn := { s with inLoop := false }

/-- `closeConnection`; the object goes back to its pool. -/
def closeConnection (s : Conn) : Conn := { s with closed := true, inLoop := false }.reset

/-- `aConn::FreeIov` of the indices up to `iovIndexHdr`. -/
def freeHeader (s : Conn) : Conn :=
  { s with slot := fun i =>
      if i ≤ s.iovIndexHdr then
        { s.slot i with base := [], len := 0, baseOffset := 0, allocSize := 0 }
      else s.slot i }

def message (hash : Bytes → UInt32) (s : Conn) : Option AMsg :=
  s.cur.base.bytes.bind fun block => post2KVdata hash s.ctype
    ⟨s.header.key, s.header.flags, s.header.exptime, s.header.datalen, block⟩

def handOn (hash : Bytes → UInt32) (s : Conn) : Conn :=
  { s with state := .cmdWait, posted := s.posted ++ [⟨s.line, s.message hash⟩] }

/-- `aConn::Post2KVdata` with its assertions; only sets, gets and quits come here. -/
def post (hash : Bytes → UInt32) (s : Conn) : Option Conn :=
  match s.ctype with
  | .gets => if s.iovIndex = 0 then some (s.handOn hash) else none
  | .set =>
    if ∀ i ≤ s.iovIndexHdr, (s.slot i).hdr = true ∨ (s.slot i).hdrPart = true then
      some (s.handOn hash).freeHeader
    else none
  | .quit => some (s.handOn hash)
  | _ => none

/-- What `commRead_cb` does behind its loop, when `ret` is not positive. -/
def leave (s : Conn) (ret : ℤ) : Conn :=
  if ret = 0 then s.closeConnection
  else match s.aerr with
    | some (.sys _) => if s.errno = .eagain then s.leaveLoop else s.closeConnection
    | some (.app _) => s.leaveLoop.reset
    | none => s.leaveLoop

/-- What the loop does with the result of `ProcessDataRecv`. A quit closes the connection unless its
message has to wait because `Busy` is 1. -/
def dispose (hash : Bytes → UInt32) (busy : Bool) (s : Conn) (ret : ℤ) : Option Conn :=
  if 0 < ret ∧ s.state = .cmdDone then
    match s.ctype with
    | .set | .gets => (s.post hash).map reset
    | .quit => (s.post hash).map fun s => if busy then s.leaveLoop else s.closeConnection
    | _ => some s.reset
  else if 0 < ret ∨ s.dataPendingRead = true then some s
  else some (s.leave ret)

def turn (hash : Bytes → UInt32) (busy : Bool) (s : Conn) : Option Conn :=
  s.processDataRecv.bind fun (s, ret) => s.dispose hash busy ret

/-- The start of the callback. While some but not all keys of a get are answered, up to 880 bytes are
read and not used. -/
def enter (s : Conn) (reqCount replyCount : ℕ) : Conn :=
  if s.state = .cmdWait ∧ ¬ (reqCount = 0 ∨ replyCount = 0) then
    match s.sock.read 880 with
    | (.data [], sock) => { s with sock := sock }.closeConnection
    | (.data (b :: buf), sock) =>
      { s with sock := sock, dropped := s.dropped ++ b :: buf, inLoop := true }
    | (.failed e, sock) => { s with sock := sock, errno := e, inLoop := true }
  else { s with inLoop := true }

/-- The loop for as long as the callback runs, with what `Busy` is in each turn. -/
def loop (hash : Bytes → UInt32) : List Bool → Conn → Option Conn
  | [], s => some s
  | busy :: busys, s =>
    if s.inLoop then (s.turn hash busy).bind (loop hash busys) else some s

end Conn

/-- The comm thread starts the callback, with the counters as the workers left them, or takes a turn
of its loop. -/
inductive RecvAct where
  | callback (reqCount replyCount : ℕ)
  | turn (busy : Bool)
  deriving DecidableEq, Repr

def recvStep (hash : Bytes → UInt32) (s : Conn) : RecvAct → Option Conn
  | .callback reqCount replyCount =>
    if s.closed = false ∧ s.inLoop = false then some (s.enter reqCount replyCount) else none
  | .turn busy => if s.closed = false ∧ s.inLoop = true then s.turn hash busy else none

end Acached.Receive
