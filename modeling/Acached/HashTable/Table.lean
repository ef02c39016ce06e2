import Acached.Foundation.CString
import Mathlib.Logic.Function.Basic

/-! # The hash table over a store of records

Records live in a store of blocks. A block keeps its identity for ever, so a
pointer to a released record is seen to dangle even when `malloc` hands the
same address out again. `set` and `get` are the bodies between locking and
unlocking the bucket; `none` as the overall result means that a released
record was dereferenced or that the chain does not end.
-/
namespace Acached.HashTable
open CString

abbrev Addr := ℕ

/-- `struct kvdata`; `data` is everything from the address of the field on. -/
@[ext] structure KVdata where
  next : Option Addr
  prev : Option Addr
  keylen : ℕ
  vallen : ℕ
  data : Bytes
  deriving DecidableEq, Repr

/-- The records that are allocated and not yet released, and the next unused identity. -/
structure Heap where
  block : Addr → Option KVdata
  fresh : ℕ

namespace Heap

def malloc (h : Heap) (r : KVdata) : Heap where
  block := Function.update h.block h.fresh (some r)
  fresh := h.fresh + 1

def modify (h : Heap) (a : Addr) (f : KVdata → KVdata) : Option Heap :=
  (h.block a).map fun r => { h with block := Function.update h.block a (some (f r)) }

def free (h : Heap) (a : Addr) : Option Heap :=
  (h.block a).map fun _ => { h with block := Function.update h.block a none }

/-- `if (x) x->next = kv`. -/
def modifyNext (h : Heap) (x : Option Addr) (kv : Addr) : Option Heap :=
  x.elim (some h) fun p => h.modify p fun r => { r with next := some kv }

/-- `if (x) x->prev = kv`. -/
def modifyPrev (h : Heap) (x : Option Addr) (kv : Addr) : Option Heap :=
  x.elim (some h) fun p => h.modify p fun r => { r with prev := some kv }

end Heap

inductive Walk where
  | found (tmphead : Addr)
  | ended (prevhead : Addr)
  deriving DecidableEq, Repr

/-- The `do` loop of `set` and `get`, which looks for a record whose data begins as `ptr` does. -/
def walk (h : Heap) (ptr : Bytes) (n : ℕ) : ℕ → Addr → Option Walk
  | 0, _ => none
  | fuel + 1, tmphead => (h.block tmphead).bind fun r =>
    if strncmp ptr r.data n = 0 then some (.found tmphead)
    else r.next.elim (some (.ended tmphead)) (walk h ptr n fuel)

/-- `class ahashtable`, without the locks. -/
structure AHashTable where
  hashmask : UInt32
  hashtable : UInt32 → Option Addr
  heap : Heap

namespace AHashTable

def bucket (t : AHashTable) (hashval : UInt32) : UInt32 := hashval &&& t.hashmask

def replace (t : AHashTable) (b : UInt32) (head tmphead kv : Addr) : Option AHashTable := do
  let old ← t.heap.block tmphead
  let h ← t.heap.modify kv fun r => { r with prev := old.prev, next := old.next }
  let h ← h.modifyNext old.prev kv
  let h ← h.modifyPrev old.next kv
  let h ← h.free tmphead
  return { t with
    heap := h
    hashtable := if tmphead = head then Function.update t.hashtable b (some kv) else t.hashtable }

def append (t : AHashTable) (tmphead kv : Addr) : Option AHashTable := do
  let h ← t.heap.modify tmphead fun r => { r with next := some kv }
  let h ← h.modify kv fun r => { r with prev := some tmphead, next := none }
  return { t with heap := h }

def setHead (t : AHashTable) (b : UInt32) (kv : Addr) : Option AHashTable := do
  let h ← t.heap.modify kv fun r => { r with next := none, prev := none }
  return { t with heap := h, hashtable := Function.update t.hashtable b (some kv) }

/-- `ahashtable::set`. A chain has no more records than were ever allocated. -/
def set (t : AHashTable) (hashval : UInt32) (kv : Addr) : Option AHashTable := do
  let r ← t.heap.block kv
  match t.hashtable (t.bucket hashval) with
  | none => t.setHead (t.bucket hashval) kv
  | some head =>
    match ← walk t.heap r.data r.keylen t.heap.fresh head with
    | .found tmphead => t.replace (t.bucket hashval) head tmphead kv
    | .ended prevhead => t.append prevhead kv

/-- `ahashtable::get` for the key, key length and hash value of a message: `some none` is the
return value -1, and `some (some a)` the return value 0 with the record `a` left in the message. -/
def get (t : AHashTable) (key : Bytes) (keylen : ℕ) (hashval : UInt32) : Option (Option Addr) :=
  match t.hashtable (t.bucket hashval) with
  | none => some none
  | some head => (walk t.heap key keylen t.heap.fresh head).map fun
    | .found tmphead => some tmphead
    | .ended _ => none

end AHashTable

/-- `sizeof(KVdata)` less the offset of `data`: what the block has behind the fields. -/
def dataPad : ℕ := 8

/-- The record that the worker's SET branch builds: `datasize` zero bytes, the lengths, and the
key bytes directly followed by the value bytes. -/
def setRecord (key value : Bytes) : KVdata where
  next := none
  prev := none
  keylen := key.length
  vallen := value.length
  data := key ++ value ++ List.replicate (dataPad + 2) 0

def AHashTable.init (hashmask : UInt32) : AHashTable where
  hashmask := hashmask
  hashtable := fun _ => none
  heap := ⟨fun _ => none, 0⟩

end Acached.HashTable
