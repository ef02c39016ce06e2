import Acached.Foundation.CString

/-! # Command messages

What the comm thread makes of a parsed command, and what it hands to the
workers when the command's turn comes. The hash function is a parameter; which
of the worker queues takes a message is left to the runs.
-/
namespace Acached.Dispatch
open CString

inductive ACmdType where
  | get | gets | set | add | replace | append | prepend | quit | version
  deriving DecidableEq, Repr

/-- `class aMsg`: the command type, the key fields of `HdrIN`, its `cmdptr` block, and `IN`. -/
structure AMsg where
  ctype : ACmdType
  key : Bytes
  keylen : ℕ
  hashval : UInt32
  cmdptr : Bytes
  flag : ℕ
  exptime : ℕ
  vallen : ℕ
  deriving DecidableEq, Repr

/-- `aMsg::Init` clears everything but the type. -/
def AMsg.init (ctype : ACmdType) : AMsg := ⟨ctype, [], 0, 0, [], 0, 0, 0⟩

/-- `aMsg::MsgHdrIN_Init` with no hash value given. -/
def AMsg.msgHdrIN_Init (hash : Bytes → UInt32) (aM : AMsg) (key : Bytes) : AMsg :=
  { aM with key := key, keylen := key.length, hashval := hash key }

/-- What the parser leaves in the connection: the fields of `cmd`, and the block at the current
index of `iovReq`, which is the body of a set and the line of a get. -/
structure Parsed where
  key : Bytes
  flags : ℕ
  exptime : ℕ
  datalen : ℕ
  block : Bytes
  deriving DecidableEq, Repr

/-- `aConn::Post2KVdata`: the message that each of its three branches makes. -/
def post2KVdata (hash : Bytes → UInt32) (ctype : ACmdType) (p : Parsed) : Option AMsg :=
  match ctype with
  | .gets => some { AMsg.init ctype with cmdptr := p.block }
  | .set => some { (AMsg.init ctype).msgHdrIN_Init hash p.key with
      flag := p.flags, exptime := p.exptime, vallen := p.datalen, cmdptr := p.block }
  | .quit => some (AMsg.init ctype)
  | _ => none

/-- The keys of a get line: its words after the first. -/
def lineKeys (line : Bytes) : List Bytes := (strtokWords 32 line).tail

/-- `aConn::Post2KVdataGets`: one message for each key of the line. -/
def post2KVdataGets (hash : Bytes → UInt32) (ctype : ACmdType) (aMcmd : AMsg) : List AMsg :=
  (lineKeys aMcmd.cmdptr).map fun key => (AMsg.init ctype).msgHdrIN_Init hash key

/-- What a dispatched message leads to: it is put on a worker's queue as it is, it is split into
one message for each key, or the connection is closed. -/
inductive Effect where
  | put (aM : AMsg)
  | split (msgs : List AMsg)
  | closeConnection
  deriving DecidableEq, Repr

/-- The branches of `aConn::Post2KVdataTSQ` on `aM->aC->cmd.ctype`. -/
def dispatch (hash : Bytes → UInt32) (ctype : ACmdType) (aM : AMsg) : Effect :=
  match ctype with
  | .gets => .split (post2KVdataGets hash ctype aM)
  | .quit => .closeConnection
  | _ => .put aM

end Acached.Dispatch
