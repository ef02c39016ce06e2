import Acached.Foundation.CString
import Acached.Foundation.LittleEndian

/-! # Records of the pipe

What the main thread and the workers write for a comm thread, as it lies in
memory, and the loop in which the comm thread goes through what it has read.
-/
namespace Acached.Comm
open CString LittleEndian

/-- The bytes of a `MsgPipe_t` between `initType` and `val`, and those behind `val.fd`, of which only
`pad[2]` is ever set. -/
structure Padding where
  hole : Bytes
  behind : Bytes
  hole_length : hole.length = 7
  behind_length : behind.length = 12
  deriving DecidableEq, Repr

structure MsgPipe extends Padding where
  initType : UInt8
  fd : UInt32
  deriving DecidableEq, Repr

def msgPipeSize : ℕ := 24

def MsgPipe.bytes (m : MsgPipe) : Bytes :=
  m.initType :: (m.hole ++ (byteAt m.fd 0 :: byteAt m.fd 1 :: byteAt m.fd 2 :: byteAt m.fd 3 ::
    m.behind))

@[simp] theorem MsgPipe.length_bytes (m : MsgPipe) : m.bytes.length = msgPipeSize := by
  rw [MsgPipe.bytes, List.length_cons, List.length_append]
  simp only [List.length_cons, m.hole_length, m.behind_length]
  rfl

/-- `initType` and `val.fd` of the record at `ptr`. -/
def msgAt (ptr : Bytes) : Option (UInt8 × UInt32) := do
  let initType ← ptr[0]?
  let b₀ ← ptr[8]?
  let b₁ ← ptr[9]?
  let b₂ ← ptr[10]?
  let b₃ ← ptr[11]?
  return (initType, le32 b₀ b₁ b₂ b₃)

theorem msgAt_bytes (m : MsgPipe) (rest : Bytes) :
    msgAt (m.bytes ++ rest) = some (m.initType, m.fd) := by
  have hfields (i : ℕ) : (m.bytes ++ rest)[8 + i]? = ((byteAt m.fd 0 :: byteAt m.fd 1 ::
      byteAt m.fd 2 :: byteAt m.fd 3 :: m.behind) ++ rest)[i]? := by
    have hsplit : m.bytes ++ rest = (m.initType :: m.hole) ++ ((byteAt m.fd 0 :: byteAt m.fd 1 ::
        byteAt m.fd 2 :: byteAt m.fd 3 :: m.behind) ++ rest) := by
      rw [MsgPipe.bytes, List.cons_append, List.cons_append, List.append_assoc]
    have hlength : (m.initType :: m.hole).length = 8 := by
      rw [List.length_cons, m.hole_length]
    rw [hsplit, List.getElem?_append_right (by omega), hlength, Nat.add_sub_cancel_left]
  have hfirst : (m.bytes ++ rest)[0]? = some m.initType := rfl
  unfold msgAt
  rw [hfirst, hfields 0, hfields 1, hfields 2, hfields 3]
  simp [le32_byteAt]

/-- The loop of `ProcessNewFd` from `x` on; `handle` is what it does with a record. -/
def processNewFd {σ : Type} (handle : UInt8 → UInt32 → σ → Option σ) (buf : Bytes) (nbytes : ℕ) :
    ℕ → ℕ → σ → Option σ
  | 0, _, _ => none
  | fuel + 1, x, s =>
    if x < nbytes then do
      let (initType, fd) ← msgAt (buf.drop x)
      let s ← handle initType fd s
      processNewFd handle buf nbytes fuel (x + msgPipeSize) s
    else some s

variable {σ : Type} {handle : UInt8 → UInt32 → σ → Option σ}

theorem length_records (ms : List MsgPipe) :
    (ms.flatMap MsgPipe.bytes).length = msgPipeSize * ms.length := by
  induction ms with
  | nil => rfl
  | cons m ms ih =>
    rw [List.flatMap_cons, List.length_append, ih, m.length_bytes, List.length_cons, Nat.mul_succ,
      Nat.add_comm]

/-- From the end of a record on, the loop handles each of the records that are left. -/
theorem processNewFd_from (front : Bytes) (ms : List MsgPipe) (s : σ) {fuel : ℕ}
    (hfuel : ms.length < fuel) :
    processNewFd handle (front ++ ms.flatMap MsgPipe.bytes)
        (front ++ ms.flatMap MsgPipe.bytes).length fuel front.length s =
      ms.foldlM (fun s m => handle m.initType m.fd s) s := by
  induction ms generalizing front s fuel with
  | nil =>
    obtain ⟨fuel, rfl⟩ := Nat.exists_eq_succ_of_ne_zero (Nat.ne_of_gt hfuel)
    rw [processNewFd, List.flatMap_nil, List.append_nil, if_neg (Nat.lt_irrefl _)]
    rfl
  | cons m ms ih =>
    obtain ⟨fuel, rfl⟩ := Nat.exists_eq_succ_of_ne_zero (Nat.ne_of_gt (Nat.zero_lt_of_lt hfuel))
    have hmore : front.length < (front ++ (m :: ms).flatMap MsgPipe.bytes).length := by
      rw [List.length_append, length_records, List.length_cons]
      exact Nat.lt_add_of_pos_right (Nat.mul_pos (by decide) (Nat.succ_pos _))
    rw [processNewFd, if_pos hmore, List.drop_left, List.flatMap_cons, msgAt_bytes,
      List.foldlM_cons]
    simp only [Option.bind_eq_bind, Option.bind_some]
    congr 1
    funext s'
    have hnext := ih (front ++ m.bytes) s' (Nat.lt_of_succ_lt_succ hfuel)
    have hx : (front ++ m.bytes).length = front.length + msgPipeSize := by
      rw [List.length_append, m.length_bytes]
    rwa [hx, List.append_assoc] at hnext

theorem processNewFd_records (ms : List MsgPipe) (s : σ) {fuel : ℕ} (hfuel : ms.length < fuel) :
    processNewFd handle (ms.flatMap MsgPipe.bytes) (ms.flatMap MsgPipe.bytes).length fuel 0 s =
      ms.foldlM (fun s m => handle m.initType m.fd s) s := by
  exact processNewFd_from [] ms s hfuel

end Acached.Comm
