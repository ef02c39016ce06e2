import Acached.Receive.Connection

/-! # Sizes on the way of a value

The length that a set line says becomes the size of the body's block, an `int`
argument of `read`, the `int` fields of the message, the `int` size of the
record and its two `uint32_t` fields. Each conversion is made where the source
makes it.
-/
namespace Acached.Worker
open CString Dispatch Receive

/-- `sizeof(KVdata)`, and the offset of `data` in it. -/
def sizeofKVdata : ℕ := 32

def dataOffset : ℕ := 24

/-- A value of 64 bits, as `size_t` arithmetic leaves it, in an `int` variable. -/
def toInt (z : ℤ) : ℤ := Int.bmod z (2 ^ 32)

def toUint32 (z : ℤ) : ℕ := (z % 2 ^ 32).toNat

/-- What the `set` branch of `thrKVdata` makes of the `int` fields `keylen` and `vallen` of a message:
`datasize`, and the fields of the record. -/
structure SetRecord where
  datasize : ℤ
  keylen : ℕ
  vallen : ℕ
  deriving DecidableEq, Repr

def setRecord (keylen vallen : ℤ) : SetRecord where
  datasize := toInt (sizeofKVdata + keylen + vallen + 2)
  keylen := toUint32 keylen
  vallen := toUint32 vallen

/-- The bytes that `malloc` is asked for: `datasize` as a `size_t`. -/
def SetRecord.block (r : SetRecord) : ℕ := (r.datasize % 2 ^ 64).toNat

/-- The `int` fields of the message for a set with a header, `MsgHdrIN_Init` and `Post2KVdataSet`. -/
def messageLens (header : Header) : ℤ × ℤ := (asInt header.keylen, asInt header.datalen)

def recordOf (header : Header) : SetRecord := setRecord (messageLens header).1 (messageLens header).2

/-- No size derived from the header of `s` wraps, and the copies stay inside their blocks: `len` of
`body_wait`, the fields of the message, `datasize`, the key and the value in the record with the two
bytes that `QReply` writes behind them, and the value in the body's block. -/
structure SizesHold (s : Conn) : Prop where
  bodySize : s.bodySize = s.header.datalen + 2
  len : asInt s.bodySize = s.header.datalen + 2
  message : messageLens s.header = (↑s.header.keylen, ↑s.header.datalen)
  datasize : (recordOf s.header).datasize = sizeofKVdata + s.header.keylen + s.header.datalen + 2
  room : dataOffset + s.header.keylen + s.header.datalen + 2 ≤ (recordOf s.header).block
  stored : dataOffset + (recordOf s.header).keylen + (recordOf s.header).vallen + 2 ≤
    (recordOf s.header).block
  body : (recordOf s.header).vallen ≤ s.bodySize

theorem toInt_of_lt {n : ℕ} (h : n < 2 ^ 31) : toInt n = n := asInt_of_lt h

theorem toUint32_of_lt {n : ℕ} (h : n < 2 ^ 32) : toUint32 n = n := by
  unfold toUint32
  omega

/-- For every header, no size wraps exactly if that of the record is one of an `int`. -/
theorem sizesHold_iff (s : Conn) :
    SizesHold s ↔ sizeofKVdata + s.header.keylen + s.header.datalen + 2 < 2 ^ 31 := by
  constructor
  · intro h
    have hsize := h.datasize
    have hmessage := h.message
    rw [recordOf, hmessage] at hsize
    simp only [setRecord, toInt, Int.bmod_def] at hsize
    omega
  · intro hlt
    have hkey : asInt s.header.keylen = s.header.keylen := asInt_of_lt (by omega)
    have hdata : asInt s.header.datalen = s.header.datalen := asInt_of_lt (by omega)
    have hbody : s.bodySize = s.header.datalen + 2 := Nat.mod_eq_of_lt (by omega)
    have hrecord : recordOf s.header = ⟨sizeofKVdata + s.header.keylen + s.header.datalen + 2,
        s.header.keylen, s.header.datalen⟩ := by
      have hsum : (sizeofKVdata : ℤ) + s.header.keylen + s.header.datalen + 2 =
          (sizeofKVdata + s.header.keylen + s.header.datalen + 2 : ℕ) := by simp
      rw [recordOf, messageLens, hkey, hdata, setRecord, hsum, toInt_of_lt hlt,
        toUint32_of_lt (by omega), toUint32_of_lt (by omega)]
    have hblock : (recordOf s.header).block =
        sizeofKVdata + s.header.keylen + s.header.datalen + 2 := by
      rw [SetRecord.block, hrecord]
      dsimp only
      omega
    have hoffset : dataOffset ≤ sizeofKVdata := by decide
    refine ⟨hbody, ?_, by rw [messageLens, hkey, hdata], by rw [hrecord], ?_, ?_, ?_⟩
    · rw [hbody, asInt_of_lt (by omega)]
      rfl
    · rw [hblock]
      omega
    · rw [hblock, hrecord]
      dsimp only
      omega
    · rw [hbody, hrecord]
      exact Nat.le_add_right _ _

def largestSet : Bytes :=
  [115, 101, 116, 32, 107, 32, 48, 32, 48, 32, 52, 50, 57, 52, 57, 54, 55, 50, 57, 53, 0, 0]

/-- The largest length that a header can say: the block of the body has a single byte. -/
theorem sizesHold_fails : ¬ ∀ (s : Conn) (old : Header) (block : Bytes),
    processHeader old block = some (true, s.header) → s.header.datalen ≠ 0 → SizesHold s := by
  intro hall
  have h := hall { Conn.zeroed with header := ⟨[107], 1, 0, 0, 4294967295⟩ } ⟨[], 0, 0, 0, 0⟩ largestSet
    rfl (by decide)
  exact absurd h.bodySize (by decide)

end Acached.Worker
