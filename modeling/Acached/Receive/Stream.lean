import Acached.Receive.Cuts
import Acached.Receive.LoopEnds

/-! # The bytes of a stream

How many bytes a block holds, where the lines of a stream are, and that what
has been received is the beginning of the stream, in the order of its bytes.
-/
namespace Acached.Receive
open CString Dispatch Execution

/-! ## Blocks -/

namespace Block

def written (b : Block) : ℕ := b.countP Option.isSome

variable {b src : Block} {pos n : ℕ}

@[simp] theorem written_nil : written [] = 0 := rfl

theorem written_append (b b' : Block) : written (b ++ b') = written b + written b' :=
  List.countP_append

@[simp] theorem written_none (n : ℕ) : written (List.replicate n none) = 0 := by
  simp [written, List.countP_replicate]

theorem written_le_length (b : Block) : written b ≤ b.length := List.countP_le_length

theorem written_map_some (b : Bytes) : written (b.map some) = b.length := by
  simp [written]

theorem written_le_of_sublist {b' : Block} (h : b.Sublist b') : written b ≤ written b' := h.countP_le

theorem written_slice_le (b : Block) (pos n : ℕ) : written (b.slice pos n) ≤ written (b.drop pos) := by
  rw [slice, written_append, written_none]
  exact written_le_of_sublist (List.take_sublist _ _)

theorem written_write_le (b : Block) (pos : ℕ) (src : Block) :
    written (b.write pos src) ≤ written b + src.length := by
  have hfront : written ((b ++ List.replicate (pos - b.length) none).take pos) ≤
      written (b.take pos) := by
    rw [List.take_append, written_append]
    have hnone := written_le_of_sublist
      (List.take_sublist (pos - b.length) (List.replicate (pos - b.length) (none : Option UInt8)))
    rw [written_none] at hnone
    omega
  have hback : written (b.drop (pos + src.length)) ≤ written (b.drop pos) := by
    apply written_le_of_sublist
    rw [← List.drop_drop]
    exact List.drop_sublist _ _
  have hsplit := written_append (b.take pos) (b.drop pos)
  rw [List.take_append_drop] at hsplit
  have hsrc := written_le_length src
  rw [write, written_append, written_append]
  omega

theorem length_slice (b : Block) (pos n : ℕ) : (b.slice pos n).length = n := by
  simp only [slice, List.length_append, List.length_take, List.length_replicate]
  omega

theorem length_write_le (hb : b.length ≤ n) (hpos : pos + src.length ≤ n) :
    (b.write pos src).length ≤ n := by
  simp only [write, List.length_append, List.length_take, List.length_drop, List.length_replicate]
  omega

/-- A copy leaves what is missing in front of it missing. -/
theorem missing_write {i : ℕ} (hi : i < pos) (h : ∀ x, b[i]? ≠ some (some x)) (x : UInt8) :
    (b.write pos src)[i]? ≠ some (some x) := by
  have hlen : i < ((b ++ List.replicate (pos - b.length) none).take pos).length := by
    simp only [List.length_take, List.length_append, List.length_replicate]
    omega
  rw [write, List.append_assoc, List.getElem?_append_left hlen, List.getElem?_take_of_lt hi]
  by_cases hb : i < b.length
  · rw [List.getElem?_append_left hb]
    exact h x
  · rw [List.getElem?_append_right (Nat.le_of_not_lt hb), List.getElem?_replicate]
    split
    · simp
    · simp

theorem eq_of_bytes {x : Bytes} (h : Block.bytes b = some x) : b = x.map some := by
  induction b generalizing x with
  | nil =>
    obtain rfl := Option.some.inj h
    rfl
  | cons y b ih =>
    cases y with
    | none => cases h
    | some y =>
      obtain ⟨z, hz, rfl⟩ := Option.map_eq_some_iff.mp h
      rw [ih hz]
      rfl

end Block

/-! ## Lines in a stream -/

theorem findLineEnd_line {buf : Bytes} {n : ℕ} (h : findLineEnd buf = some n) :
    buf.take (n - 2) ++ crlf <+: buf := by
  induction buf using findLineEnd.induct generalizing n with
  | case1 => cases h
  | case2 => cases h
  | case3 rest =>
    simp only [findLineEnd, if_true, Option.some.injEq] at h
    subst h
    exact ⟨rest, rfl⟩
  | case4 c rest hc ih =>
    simp only [findLineEnd, if_true, if_neg hc] at h
    obtain ⟨m, hm, rfl⟩ := Option.map_eq_some_iff.mp h
    obtain ⟨behind, hbehind⟩ := ih hm
    obtain ⟨k, rfl⟩ := Nat.exists_eq_add_of_le (findLineEnd_bounds hm).1
    rw [Nat.add_sub_cancel_left] at hbehind
    have hk : 2 + k + 2 - 2 = k + 2 := by omega
    rw [hk]
    refine ⟨behind, ?_⟩
    change 13 :: c :: (rest.take k ++ crlf ++ behind) = _
    rw [hbehind]
  | case5 b c rest hb ih =>
    simp only [findLineEnd, if_neg hb] at h
    obtain ⟨m, hm, rfl⟩ := Option.map_eq_some_iff.mp h
    obtain ⟨behind, hbehind⟩ := ih hm
    obtain ⟨k, rfl⟩ := Nat.exists_eq_add_of_le (findLineEnd_bounds hm).1
    rw [Nat.add_sub_cancel_left] at hbehind
    have hk : 2 + k + 1 - 2 = k + 1 := by omega
    rw [hk]
    refine ⟨behind, ?_⟩
    change b :: ((c :: rest).take k ++ crlf ++ behind) = _
    rw [hbehind]

/-- The block of a complete line has all that was received, and the line in front. -/
theorem isBufferComplete_line {buf block : Bytes} {len n : ℕ}
    (h : isBufferComplete buf len = some (n + 1, block)) :
    block.length = buf.length ∧ buf.take (n + 1 - 2) ++ crlf <+: buf := by
  unfold isBufferComplete at h
  split at h
  · cases h
  · obtain ⟨m, hm, heq⟩ := Option.map_eq_some_iff.mp h
    simp only [Prod.mk.injEq] at heq
    obtain ⟨rfl, rfl⟩ := heq
    obtain ⟨hle, hlen⟩ := findLineEnd_bounds hm
    refine ⟨?_, findLineEnd_line hm⟩
    simp only [List.length_append, List.length_take, List.length_cons, List.length_nil,
      List.length_drop]
    omega

/-- A line of a command does not begin inside itself. -/
theorem Command.WellFormed.line_apart {c : Command} (h : c.WellFormed) {stream : Bytes} {p q : ℕ}
    (hp : c.line <+: stream.drop p) (hq : c.line <+: stream.drop q) (hlt : p < q) :
    p + c.line.length ≤ q := by
  by_contra hinside
  obtain ⟨j, hj⟩ : ∃ j, q + j + 1 = p + c.line.length :=
    ⟨p + c.line.length - q - 1, by omega⟩
  have hend : c.line.length = c.text.length + 2 := by simp [Command.line, crlf]
  -- the byte that ends the first line is one of the second line, not its last one
  have hget {k n : ℕ} (hk : c.line <+: stream.drop k) (hn : n < c.line.length) :
      stream[k + n]? = c.line[n]? := by
    obtain ⟨rest, hrest⟩ := hk
    rw [← List.getElem?_drop, ← hrest, List.getElem?_append_left hn]
  have hlast : c.line[c.text.length + 1]? = some 10 := by
    rw [Command.line, List.getElem?_append_right (Nat.le_succ _)]
    simp [crlf]
  have hsame : c.line[j]? = some 10 := by
    rw [← hget hq (by omega), ← hlast, ← hget hp (by omega)]
    congr 1
    omega
  by_cases htext : j < c.text.length
  · rw [Command.line, List.getElem?_append_left htext] at hsame
    exact (h.text_bytes 10 (List.mem_of_getElem? hsame)).2.1 rfl
  · obtain rfl : j = c.text.length := by omega
    rw [Command.line, List.getElem?_append_right (Nat.le_refl _)] at hsame
    simp [crlf] at hsame

/-! ## What has been received -/

/-- What has been read is the beginning of the stream, and the rest of it is still to come. -/
def Conn.Fed (stream : Bytes) (s : Conn) : Prop :=
  ∃ pieces : List Bytes, s.sock = ⟨pieces.map .data⟩ ∧ s.received ++ pieces.flatten = stream

namespace Conn

variable {hash : Bytes → UInt32} {stream : Bytes} {s t u : Conn} {sock : Sock} {n : ℕ} {ret : ℤ}
  {busy : Bool}

/-! ## Reading the stream -/

theorem Fed.data {b : Bytes} (h : s.Fed stream) (hread : s.sock.read n = (.data b, sock)) :
    ∃ pieces : List Bytes, sock = ⟨pieces.map .data⟩ ∧
      s.received ++ b ++ pieces.flatten = stream := by
  obtain ⟨pieces, hsock, hstream⟩ := h
  rw [hsock] at hread
  match pieces with
  | [] => cases hread
  | [] :: pieces =>
    cases hread
    exact ⟨[] :: pieces, rfl, by rw [List.append_nil, hstream]⟩
  | (x :: a) :: pieces =>
    rw [List.flatten_cons] at hstream
    rw [read_cons] at hread
    split at hread
    · cases hread
      exact ⟨pieces, rfl, by rw [List.append_assoc, hstream]⟩
    · cases hread
      refine ⟨(x :: a).drop n :: pieces, rfl, ?_⟩
      rw [List.flatten_cons, List.append_assoc, ← List.append_assoc ((x :: a).take n),
        List.take_append_drop, hstream]

theorem Fed.failed {e : Errno} (h : s.Fed stream) (hread : s.sock.read n = (.failed e, sock)) :
    sock = s.sock := by
  obtain ⟨pieces, hsock, -⟩ := h
  rw [hsock] at hread ⊢
  match pieces with
  | [] =>
    cases hread
    rfl
  | [] :: pieces => cases hread
  | (x :: a) :: pieces =>
    rw [read_cons] at hread
    split at hread
    · cases hread
    · cases hread

theorem Fed.of_eq (h : s.Fed stream) (hsock : t.sock = s.sock) (hreceived : t.received = s.received) :
    t.Fed stream := by
  unfold Fed
  rw [hsock, hreceived]
  exact h

theorem leftOver_received (s : Conn) (n : ℕ) : (s.leftOver n).received = s.received := by
  unfold leftOver
  split <;> rfl

theorem leftOver_line (s : Conn) (n : ℕ) : (s.leftOver n).line = s.line := by
  unfold leftOver
  split <;> rfl

theorem bodyEnd_received (h : s.bodyEnd = (t, ret)) : t.received = s.received := by
  unfold bodyEnd at h
  split at h <;> simp only [Prod.mk.injEq] at h <;> rw [← h.1] <;> rfl

/-- What a call reads is the next part of the stream. -/
theorem Call.fed (hcall : Call s u ret) (h : s.Fed stream) : u.Fed stream := by
  have hprepared {p : Conn} {pos len : ℕ} (hprep : s.bodyPrepare = some (p, pos, len)) :
      p.Fed stream := by
    obtain ⟨-, -, -, hsock, hreceived, -⟩ := bodyPrepare_frame hprep
    exact h.of_eq hsock hreceived
  cases hcall with
  | lineFailed _ hread => exact h.of_eq (h.failed hread) rfl
  | lineEnd _ hread =>
    obtain ⟨pieces, hsock, hstream⟩ := h.data hread
    rw [List.append_nil] at hstream
    exact ⟨pieces, hsock, hstream⟩
  | unknown _ hread =>
    obtain ⟨pieces, hsock, hstream⟩ := h.data hread
    exact ⟨pieces, hsock, hstream⟩
  | headerRefused _ hread =>
    obtain ⟨pieces, hsock, hstream⟩ := h.data hread
    exact ⟨pieces, hsock, hstream⟩
  | header _ hread =>
    obtain ⟨pieces, hsock, hstream⟩ := h.data hread
    exact ⟨pieces, (leftOver_sock ..).trans hsock, by rw [leftOver_received]; exact hstream⟩
  | command _ hread =>
    obtain ⟨pieces, hsock, hstream⟩ := h.data hread
    exact ⟨pieces, (leftOver_sock ..).trans hsock, by rw [leftOver_received]; exact hstream⟩
  | noLength => exact h.of_eq rfl rfl
  | bodyNothing _ _ hprep hend =>
    exact (hprepared hprep).of_eq (bodyEnd_sock hend) (bodyEnd_received hend)
  | bodyTooLong _ _ hprep => exact (hprepared hprep).of_eq rfl rfl
  | bodyFailed _ _ hprep _ _ hread =>
    have hp := hprepared hprep
    exact hp.of_eq (hp.failed hread) rfl
  | bodyStreamEnd _ _ hprep _ _ hread =>
    obtain ⟨pieces, hsock, hstream⟩ := (hprepared hprep).data hread
    rw [List.append_nil] at hstream
    exact ⟨pieces, hsock, hstream⟩
  | bodyBytes _ _ hprep _ _ hread _ hend =>
    obtain ⟨pieces, hsock, hstream⟩ := (hprepared hprep).data hread
    refine ⟨pieces, (bodyEnd_sock hend).trans hsock, ?_⟩
    rw [bodyEnd_received hend]
    exact hstream

theorem leave_sock (s : Conn) (ret : ℤ) : (s.leave ret).sock = s.sock := by
  unfold leave
  repeat' split
  all_goals rfl

theorem post_sock (h : s.post hash = some t) : t.sock = s.sock := by
  unfold post at h
  repeat' split at h
  all_goals cases h
  all_goals rfl

theorem Disposed.fed (hdisposed : Disposed hash busy u ret t) (h : u.Fed stream) : t.Fed stream := by
  refine h.of_eq ?_ (congrArg Prod.fst hdisposed.stream)
  cases hdisposed with
  | posted _ _ _ hpost =>
    have hsock := post_sock hpost
    exact hsock
  | quit _ _ _ hpost =>
    have hsock := post_sock hpost
    cases busy
    · exact hsock
    · exact hsock
  | ignored => rfl
  | again => rfl
  | left => exact leave_sock ..

end Conn
end Acached.Receive
