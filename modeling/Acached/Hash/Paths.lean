import Acached.Hash.Mixing
import Acached.Foundation.LittleEndian
import Acached.Foundation.CString

/-! # The hash function

`hash` as it is compiled for a little-endian machine. By the alignment of the
key it reads words, half words or single bytes; the words of the last block may
reach behind the key, and what is behind it is masked off. A build for valgrind
reads the rest of the last block bytewise instead.
-/
namespace Acached.Hash
open CString LittleEndian

/-- What can be read from the key on, by position. -/
abbrev Mem := ℕ → Option UInt8

section Reads

variable (m : Mem)

def read8 (p : ℕ) : Option UInt32 := (m p).map UInt8.toUInt32

def read16 (p : ℕ) : Option UInt32 := do return le32 (← m p) (← m (p + 1)) 0 0

def read32 (p : ℕ) : Option UInt32 := do
  return le32 (← m p) (← m (p + 1)) (← m (p + 2)) (← m (p + 3))

/-- The loop: 12 bytes at `p` are added to the state and mixed in, while more than 12 are left. -/
def loop (block : ℕ → Abc → Option Abc) : ℕ → ℕ → ℕ → Abc → Option (ℕ × ℕ × Abc)
  | 0, length, p, s => some (length, p, s)
  | fuel + 1, length, p, s =>
    if 12 < length then
      (block p s).bind fun s => loop block fuel (length - 12) (p + 12) (mix s)
    else some (length, p, s)

def hashFrom (block : ℕ → Abc → Option Abc) (last : ℕ → ℕ → Abc → Option Abc) (length : ℕ)
    (initval : UInt32) : Option UInt32 := do
  let s := 0xdeadbeef + UInt32.ofNat length + initval
  let (length, p, s) ← loop block length length 0 ⟨s, s, s⟩
  if length = 0 then return s.c
  let s ← last length p s
  return (final s).c

/-! ## Words -/

def block32 (p : ℕ) (s : Abc) : Option Abc := do
  let k j := read32 m (p + 4 * j)
  return ⟨s.a + (← k 0), s.b + (← k 1), s.c + (← k 2)⟩

def last32 (length p : ℕ) (s : Abc) : Option Abc :=
  let k j := read32 m (p + 4 * j)
  match length with
  | 12 => do return ⟨s.a + (← k 0), s.b + (← k 1), s.c + (← k 2)⟩
  | 11 => do return ⟨s.a + (← k 0), s.b + (← k 1), s.c + ((← k 2) &&& 0xffffff)⟩
  | 10 => do return ⟨s.a + (← k 0), s.b + (← k 1), s.c + ((← k 2) &&& 0xffff)⟩
  | 9 => do return ⟨s.a + (← k 0), s.b + (← k 1), s.c + ((← k 2) &&& 0xff)⟩
  | 8 => do return ⟨s.a + (← k 0), s.b + (← k 1), s.c⟩
  | 7 => do return ⟨s.a + (← k 0), s.b + ((← k 1) &&& 0xffffff), s.c⟩
  | 6 => do return ⟨s.a + (← k 0), s.b + ((← k 1) &&& 0xffff), s.c⟩
  | 5 => do return ⟨s.a + (← k 0), s.b + ((← k 1) &&& 0xff), s.c⟩
  | 4 => do return ⟨s.a + (← k 0), s.b, s.c⟩
  | 3 => do return ⟨s.a + ((← k 0) &&& 0xffffff), s.b, s.c⟩
  | 2 => do return ⟨s.a + ((← k 0) &&& 0xffff), s.b, s.c⟩
  | 1 => do return ⟨s.a + ((← k 0) &&& 0xff), s.b, s.c⟩
  | _ => some s

def last32Valgrind (length p : ℕ) (s : Abc) : Option Abc :=
  let k j := read32 m (p + 4 * j)
  let k8 j := read8 m (p + j)
  match length with
  | 12 => do return ⟨s.a + (← k 0), s.b + (← k 1), s.c + (← k 2)⟩
  | 11 => do
    return ⟨s.a + (← k 0), s.b + (← k 1),
      s.c + (← k8 10) <<< 16 + (← k8 9) <<< 8 + (← k8 8)⟩
  | 10 => do return ⟨s.a + (← k 0), s.b + (← k 1), s.c + (← k8 9) <<< 8 + (← k8 8)⟩
  | 9 => do return ⟨s.a + (← k 0), s.b + (← k 1), s.c + (← k8 8)⟩
  | 8 => do return ⟨s.a + (← k 0), s.b + (← k 1), s.c⟩
  | 7 => do
    return ⟨s.a + (← k 0), s.b + (← k8 6) <<< 16 + (← k8 5) <<< 8 + (← k8 4), s.c⟩
  | 6 => do return ⟨s.a + (← k 0), s.b + (← k8 5) <<< 8 + (← k8 4), s.c⟩
  | 5 => do return ⟨s.a + (← k 0), s.b + (← k8 4), s.c⟩
  | 4 => do return ⟨s.a + (← k 0), s.b, s.c⟩
  | 3 => do return ⟨s.a + (← k8 2) <<< 16 + (← k8 1) <<< 8 + (← k8 0), s.b, s.c⟩
  | 2 => do return ⟨s.a + (← k8 1) <<< 8 + (← k8 0), s.b, s.c⟩
  | 1 => do return ⟨s.a + (← k8 0), s.b, s.c⟩
  | _ => some s

/-! ## Half words -/

def block16 (p : ℕ) (s : Abc) : Option Abc := do
  let k j := read16 m (p + 2 * j)
  return ⟨s.a + ((← k 0) + (← k 1) <<< 16), s.b + ((← k 2) + (← k 3) <<< 16),
    s.c + ((← k 4) + (← k 5) <<< 16)⟩

def last16 (length p : ℕ) (s : Abc) : Option Abc :=
  let k j := read16 m (p + 2 * j)
  let k8 j := read8 m (p + j)
  match length with
  | 12 => do
    return ⟨s.a + ((← k 0) + (← k 1) <<< 16), s.b + ((← k 2) + (← k 3) <<< 16),
      s.c + ((← k 4) + (← k 5) <<< 16)⟩
  | 11 => do
    return ⟨s.a + ((← k 0) + (← k 1) <<< 16), s.b + ((← k 2) + (← k 3) <<< 16),
      s.c + (← k8 10) <<< 16 + (← k 4)⟩
  | 10 => do
    return ⟨s.a + ((← k 0) + (← k 1) <<< 16), s.b + ((← k 2) + (← k 3) <<< 16), s.c + (← k 4)⟩
  | 9 => do
    return ⟨s.a + ((← k 0) + (← k 1) <<< 16), s.b + ((← k 2) + (← k 3) <<< 16), s.c + (← k8 8)⟩
  | 8 => do return ⟨s.a + ((← k 0) + (← k 1) <<< 16), s.b + ((← k 2) + (← k 3) <<< 16), s.c⟩
  | 7 => do
    return ⟨s.a + ((← k 0) + (← k 1) <<< 16), s.b + (← k8 6) <<< 16 + (← k 2), s.c⟩
  | 6 => do return ⟨s.a + ((← k 0) + (← k 1) <<< 16), s.b + (← k 2), s.c⟩
  | 5 => do return ⟨s.a + ((← k 0) + (← k 1) <<< 16), s.b + (← k8 4), s.c⟩
  | 4 => do return ⟨s.a + ((← k 0) + (← k 1) <<< 16), s.b, s.c⟩
  | 3 => do return ⟨s.a + (← k8 2) <<< 16 + (← k 0), s.b, s.c⟩
  | 2 => do return ⟨s.a + (← k 0), s.b, s.c⟩
  | 1 => do return ⟨s.a + (← k8 0), s.b, s.c⟩
  | _ => some s

/-! ## Bytes -/

def block8 (p : ℕ) (s : Abc) : Option Abc := do
  let k j := read8 m (p + j)
  return ⟨s.a + (← k 0) + (← k 1) <<< 8 + (← k 2) <<< 16 + (← k 3) <<< 24,
    s.b + (← k 4) + (← k 5) <<< 8 + (← k 6) <<< 16 + (← k 7) <<< 24,
    s.c + (← k 8) + (← k 9) <<< 8 + (← k 10) <<< 16 + (← k 11) <<< 24⟩

/-- Each case adds one byte and falls through to the next. -/
def last8 : ℕ → ℕ → Abc → Option Abc
  | 0, _, s => some s
  | i + 1, p, s => do
    let x := (← read8 m (p + i)) <<< UInt32.ofNat (8 * (i % 4))
    last8 i p (if i < 4 then { s with a := s.a + x } else if i < 8 then { s with b := s.b + x }
      else { s with c := s.c + x })

end Reads

def hash (addr : ℕ) (m : Mem) (length : ℕ) (initval : UInt32) : Option UInt32 :=
  if addr &&& 3 = 0 then hashFrom (block32 m) (last32 m) length initval
  else if addr &&& 1 = 0 then hashFrom (block16 m) (last16 m) length initval
  else hashFrom (block8 m) (last8 m) length initval

def hashValgrind (addr : ℕ) (m : Mem) (length : ℕ) (initval : UInt32) : Option UInt32 :=
  if addr &&& 3 = 0 then hashFrom (block32 m) (last32Valgrind m) length initval
  else if addr &&& 1 = 0 then hashFrom (block16 m) (last16 m) length initval
  else hashFrom (block8 m) (last8 m) length initval

/-! ## The hash value of a key -/

def words (k : ℕ → UInt8) : Abc :=
  ⟨le32 (k 0) (k 1) (k 2) (k 3), le32 (k 4) (k 5) (k 6) (k 7), le32 (k 8) (k 9) (k 10) (k 11)⟩

/-- The words of a block, filled up with zeros. -/
def lanes (block : Bytes) : Abc := words fun i => block.getD i 0

/-- All blocks of a key are added to the state, and it is mixed after each but the last. -/
def absorbKey : ℕ → Bytes → Abc → Abc
  | 0, key, s => s.add (lanes key)
  | fuel + 1, key, s =>
    if 12 < key.length then absorbKey fuel (key.drop 12) (mix (s.add (lanes (key.take 12))))
    else s.add (lanes key)

def keyHash (key : Bytes) (initval : UInt32) : UInt32 :=
  let s := 0xdeadbeef + UInt32.ofNat key.length + initval
  if key = [] then s else (final (absorbKey key.length key ⟨s, s, s⟩)).c

/-- The `n` bytes from `p` on, filled up with zeros. -/
structure Window (m : Mem) (p n : ℕ) (k : ℕ → UInt8) : Prop where
  bytes : ∀ i < n, m (p + i) = some (k i)
  past : ∀ i, n ≤ i → k i = 0

end Acached.Hash
