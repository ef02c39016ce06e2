import Acached.Hash.Agreement
import Acached.Receive.SameKey

/-! # The hash value in a message

`MsgHdrIN_Init` hashes the array `key` of the message that it fills in, so the
words behind a key end in that array.
-/
namespace Acached.Hash
open CString Receive

def arrayMem (k : KeyBuf) : Mem := (k.bytes[·]?)

/-- `aMsg::MsgHdrIN_Init` for a message whose array `key` is at the address `addr`. -/
def msgHdrIN_Init (addr : ℕ) (m : AMsgHdrIN) (key : Bytes) (keylen : ℕ) (hashval : UInt32) :
    Option AMsgHdrIN :=
  if h : keylen < keySize then do
    let buf := (m.key.copy key keylen h.le).terminate keylen
    let value ← if hashval = 0 then hash addr (arrayMem buf) keylen 0 else some m.hashval
    return ⟨buf, keylen, value⟩
  else none

theorem hasKey_arrayMem (k : KeyBuf) (n : ℕ) : HasKey (arrayMem k) (k.bytes.take n) := by
  intro i hi
  rw [List.length_take] at hi
  have hin : i < k.bytes.length := by omega
  simp [arrayMem, hin, List.getElem_take, hi]

/-- The words of a key that leaves room for its terminator end with the array. -/
theorem wordsReadable_arrayMem (k : KeyBuf) {n : ℕ} (hn : n < keySize) :
    WordsReadable (arrayMem k) n := by
  intro i hi
  have hsize := k.size
  have hin : i < k.bytes.length := by
    unfold keySize at hsize hn
    omega
  simp [arrayMem, hin]

/-- Wherever the message is and whatever was in it, the value is that of the bytes of the key. -/
theorem msgHdrIN_Init_eq (addr : ℕ) (m : AMsgHdrIN) (key : Bytes) (keylen : ℕ) (hashval : UInt32) :
    msgHdrIN_Init addr m key keylen hashval =
      m.msgHdrIN_Init (keyHash · 0) key keylen hashval := by
  unfold msgHdrIN_Init AMsgHdrIN.msgHdrIN_Init
  split
  · next hlen =>
    dsimp only
    generalize hbuf : (m.key.copy key keylen hlen.le).terminate keylen = buf
    have hsize := buf.size
    have htake : (buf.bytes.take keylen).length = keylen := by
      rw [List.length_take, hsize]
      omega
    have hhash := hash_eq_keyHash (hasKey_arrayMem buf keylen)
      (fun _ : addr &&& 3 = 0 => htake.symm ▸ wordsReadable_arrayMem buf hlen) 0
    rw [htake] at hhash
    split
    · simp [hhash]
    · rfl
  · rfl

end Acached.Hash
