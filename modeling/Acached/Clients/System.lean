import Acached.Foundation.Refinement
import Acached.HashTable.WholeKeys
import Acached.Sockets.Program
import Mathlib.Data.Finset.Basic

/-! # Clients, workers and records

The server of `Sockets` together with the table, and with the addresses in the
reply entries. A value is queued without being copied: the arrays of `Sockets`
say what an entry stood for when it was filled, and a `sendmsg` reads what is at
its address then. The calls of `ahashtable::set` and `ahashtable::get` are steps
of their own.
-/
namespace Acached.Clients
open CString Dispatch HashTable Reply Worker Execution Refinement

/-- Where the bytes of an entry are: in a copy of its own, or `len` bytes of a record from `pos`
on. -/
inductive Source where
  | copied (bytes : Bytes)
  | inRecord (a : Addr) (pos len : ℕ)
  deriving DecidableEq, Repr

def Source.bytes (h : Heap) : Source → Option Bytes
  | .copied bytes => some bytes
  | .inRecord a pos len => (h.block a).map fun r => (r.data.drop pos).take len

/-- `CheckIOVTotalWritten` moves on an entry of which `n` bytes were sent. -/
def Source.drop (n : ℕ) : Source → Source
  | .copied bytes => .copied (bytes.drop n)
  | .inRecord a pos len => .inRecord a (pos + n) (len - n)

def Source.record : Source → Option Addr
  | .copied _ => none
  | .inRecord a _ _ => some a

/-- What a worker has got from the table for its message: `found` is the record, with the value that it
had then. -/
inductive Local where
  | before
  | stored
  | missed
  | found (a : Addr) (value : Bytes)
  deriving DecidableEq, Repr

/-- `source` tells where the bytes of the entries are, and `unsent` lists the entries that were filled
and of which bytes are still to be sent. `read` records what each `sendmsg` has read for such an entry,
and what it should have read. -/
structure System (O W : Type) where
  base : Sockets.System O W
  table : AHashTable
  kept : W → Local
  source : O → ℕ → Source
  unsent : O → Finset ℕ
  read : List (Option Bytes × Bytes)

/-- `set` and `get` are the calls of the table for the message of a worker. -/
inductive Act (O W : Type) where
  | set (w : W)
  | get (w : W)
  | sockets (a : Sockets.Act O W)

/-- The record that the `set` branch of `thrKVdata` builds is handed to `ahashtable::set`. -/
def storeValue (t : AHashTable) (aM : AMsg) : Option AHashTable :=
  if aM.vallen ≤ aM.cmdptr.length then
    (t.malloc (aM.key.take aM.keylen) (aM.cmdptr.take aM.vallen)).set aM.hashval t.heap.fresh
  else none

/-- What `sendmsg` takes of `n` entries from `i` on when it returns `r`: the entries of which it takes
bytes, and how many. -/
def pieces (iovec : ℕ → Bytes) : ℕ → ℕ → ℕ → List (ℕ × ℕ)
  | _, 0, _ => []
  | i, n + 1, r =>
    let rest := pieces iovec (i + 1) n (r - (iovec i).length)
    if (iovec i).take r = [] then rest else (i, min r (iovec i).length) :: rest

def text : Pc → Bytes
  | .setAdd _ => stored
  | .endAdd _ => endLine
  | .qreply (.fillHdr _ hdr _) => hdr
  | .qreply (.fillVal _ _ val) => val
  | _ => []

variable {O W : Type}

namespace System

def init (W : Type) (pool : List O) (hashmask : UInt32) : System O W where
  base := .init W pool
  table := .init hashmask
  kept _ := .before
  source _ _ := .copied []
  unsent _ := ∅
  read := []

/-- What a step of a worker takes from its record: in front of `QReply` the header that `snprintf` makes
and the value with the line end written behind it. A record that was released is not read: there is no
outcome then. -/
def prologue (s : System O W) (w : W) (pc : Pc) : Option (AHashTable × Option (Bytes × Bytes)) :=
  match pc, s.kept w with
  | .setIndex, .stored | .lookup _, .missed => some (s.table, none)
  | .setIndex, _ => none
  | .lookup aM, .found a value => do
    let kv ← s.table.heap.block a
    let heap ← s.table.heap.modify a terminate
    return ({ s.table with heap := heap }, some (valueLine aM.key kv.vallen, value ++ crlf))
  | .lookup _, _ => none
  | _, _ => some (s.table, none)

/-- The pointer that `AddIOVReply` puts into the entry that a step fills: a value is not copied. -/
def pointer (s : System O W) (w : W) : Pc → Option Source
  | .qreply (.fillVal ..) => match s.kept w with
    | .found a _ => (s.table.heap.block a).map fun kv => .inRecord a kv.keylen (kv.vallen + 2)
    | _ => none
  | pc => some (.copied (text pc))

/-- What the worker's `sendmsg` takes, if it is at one that returns `r`. -/
def takes (s : System O W) (j : Sockets.Job O) (r : ℕ) : List (ℕ × ℕ) :=
  match j.range with
  | none => []
  | some (start, count) => pieces (s.base.reply j.message.conn).iovec start count r

variable [DecidableEq O]

def fill (s : System O W) (o : O) (i : ℕ) (p : Source) : System O W :=
  { s with
    source := Function.update s.source o (Function.update (s.source o) i p)
    unsent := Function.update s.unsent o (insert i (s.unsent o)) }

def free (s : System O W) (o : O) (ret2 : ℕ) : System O W :=
  { s with
    source := Function.update s.source o fun i => if i < ret2 then .copied [] else s.source o i
    unsent := Function.update s.unsent o ((s.unsent o).filter fun i => ret2 ≤ i) }

/-- A `sendmsg`, if the worker is at one, and the move of the entry that was sent in part, if that is
the worker's step; `iovec` is what is left in the entries behind it. -/
def transmit (s : System O W) (j : Sockets.Job O) (iovec : ℕ → Bytes) (r : ℕ) : System O W :=
  let o := j.message.conn
  let before := (s.base.reply o).iovec
  { s with
    source := Function.update s.source o fun i =>
      (s.source o i).drop ((before i).length - (iovec i).length)
    unsent := Function.update s.unsent o
      ((s.unsent o).filter fun i => (i, (before i).length) ∉ s.takes j r)
    read := s.read ++ ((s.takes j r).filter fun p => p.1 ∈ s.unsent o).map fun (i, n) =>
      (((s.source o i).bytes s.table.heap).map (List.take n), (before i).take n) }

def work (s : System O W) (w : W) (j : Sockets.Job O) (iovec : ℕ → Bytes) (r : ℕ) :
    Option (System O W) :=
  match Sockets.fills j.pc with
  | some i => (s.pointer w j.pc).map (s.fill j.message.conn i)
  | none => match j.pc with
    | .endFree ret2 => some (s.free j.message.conn ret2)
    | _ => some (s.transmit j iovec r)

end System

variable [DecidableEq O] [DecidableEq W]

/-- A step of the server. The value that a worker looks up is the one that its entry is to send. -/
def step (s : System O W) : Act O W → Option (System O W)
  | .set w => (s.base.worker w).bind fun j =>
    if j.pc = .setIndex ∧ s.kept w = .before then
      (storeValue s.table j.message.aM).map fun t =>
        { s with table := t, kept := Function.update s.kept w .stored }
    else none
  | .get w => (s.base.worker w).bind fun j => match j.pc with
    | .lookup aM =>
      if s.kept w = .before then
        (s.table.get aM.key aM.keylen aM.hashval).bind fun
        | none => some { s with kept := Function.update s.kept w .missed }
        | some a => (s.table.heap.block a).map fun kv =>
          { s with kept := Function.update s.kept w (.found a (valueOf kv)) }
      else none
    | _ => none
  | .sockets (.step w q found r) => do
    let j ← s.base.worker w
    let (table, found') ← s.prologue w j.pc
    if found = found' then do
      let base ← Sockets.step s.base (.step w q found r)
      let s ← { s with table := table }.work w j (base.reply j.message.conn).iovec r.toNat
      return { s with base := base }
    else none
  | .sockets (.final w res) => do
    let j ← s.base.worker w
    let base ← Sockets.step s.base (.final w res)
    return { s.transmit j (base.reply j.message.conn).iovec (Sockets.taken res) with base := base }
  | .sockets (.take w m) => (Sockets.step s.base (.take w m)).map fun base =>
    { s with base := base, kept := Function.update s.kept w .before }
  | .sockets a => (Sockets.step s.base a).map fun base => { s with base := base }

/-- Without its table and its addresses a run is one of `Sockets`, in which what is found is what the
table has led to. -/
theorem refines_sockets :
    Refines step Sockets.step (fun _ => True) fun (s : System O W) u => s.base = u := by
  rintro s _ a t rfl - h
  cases a with
  | set w =>
    obtain ⟨j, -, h⟩ := Option.bind_eq_some_iff.mp h
    rw [Option.ite_none_right_eq_some] at h
    obtain ⟨table, -, rfl⟩ := Option.map_eq_some_iff.mp h.2
    exact Refines.stutter rfl
  | get w =>
    obtain ⟨j, -, h⟩ := Option.bind_eq_some_iff.mp h
    split at h
    · rw [Option.ite_none_right_eq_some] at h
      obtain ⟨x, -, h⟩ := Option.bind_eq_some_iff.mp h.2
      cases x with
      | none =>
        cases h
        exact Refines.stutter rfl
      | some a =>
        obtain ⟨kv, -, rfl⟩ := Option.map_eq_some_iff.mp h
        exact Refines.stutter rfl
    · cases h
  | sockets a =>
    cases a with
    | step w q found r =>
      obtain ⟨j, -, h⟩ := Option.bind_eq_some_iff.mp h
      obtain ⟨⟨table, found'⟩, -, h⟩ := Option.bind_eq_some_iff.mp h
      rw [Option.ite_none_right_eq_some] at h
      obtain ⟨base, hbase, h⟩ := Option.bind_eq_some_iff.mp h.2
      obtain ⟨s', -, h⟩ := Option.bind_eq_some_iff.mp h
      cases h
      exact Refines.single hbase rfl
    | final w res =>
      obtain ⟨j, -, h⟩ := Option.bind_eq_some_iff.mp h
      obtain ⟨base, hbase, h⟩ := Option.bind_eq_some_iff.mp h
      cases h
      exact Refines.single hbase rfl
    | accept fd | newFd fd | recv fd o msgs | close fd o | take w m | readFd w =>
      obtain ⟨base, hbase, rfl⟩ := Option.map_eq_some_iff.mp h
      exact Refines.single hbase rfl

end Acached.Clients
