import Acached.Receive.Outcome

/-! # Sets in pieces

A set whose line arrives whole, and its body in pieces: the first one behind the
line in the same read, each other one in a read of its own. What a turn makes of
each of these reads, as long as the bytes received are where they belong.
-/
namespace Acached.Receive
open CString Dispatch Execution

structure SetInput where
  line : Bytes
  header : Header
  first : Bytes
  pieces : List Bytes

namespace SetInput

def body (c : SetInput) : Bytes := c.first ++ c.pieces.flatten

def bytes (c : SetInput) : Bytes := c.line ++ c.body

def reads (c : SetInput) : List ReadResult := .data (c.line ++ c.first) :: c.pieces.map .data

/-- The line is that of a set with the given header, it ends where the body begins, and the body has
the length that it says. -/
structure WellFormed (c : SetInput) : Prop where
  fits : (c.line ++ c.first).length ≤ cmdWaitInit
  command : setCommandType (c.line ++ c.first) (c.line ++ c.first).length = some (some .set)
  parsed : ∃ block, isBufferComplete (c.line ++ c.first) (c.line ++ c.first).length =
    some (c.line.length, block) ∧ ∀ old, processHeader old block = some (true, c.header)
  size : c.body.length = c.header.datalen + 2
  pieces_ne : ∀ f ∈ c.pieces, f ≠ []

def posted (hash : Bytes → UInt32) (c : SetInput) : Posted :=
  ⟨c.line.take (c.line.length - 2), post2KVdata hash .set
    ⟨c.header.key, c.header.flags, c.header.exptime, c.header.datalen, c.body⟩⟩

end SetInput

theorem length_of_setCommandType {buf : Bytes} {len : ℕ} {ctype : ACmdType}
    (h : setCommandType buf len = some (some ctype)) : 5 < len := by
  unfold setCommandType at h
  dsimp only at h
  split at h
  · omega
  · cases h

/-- The line is read as that of a set with the given header, whatever is the length of the body. -/
structure SetInput.LineRead (c : SetInput) : Prop where
  command : setCommandType (c.line ++ c.first) (c.line ++ c.first).length = some (some .set)
  parsed : ∃ block, isBufferComplete (c.line ++ c.first) (c.line ++ c.first).length =
    some (c.line.length, block) ∧ ∀ old, processHeader old block = some (true, c.header)

theorem SetInput.WellFormed.lineRead {c : SetInput} (h : c.WellFormed) : c.LineRead :=
  ⟨h.command, h.parsed⟩

theorem SetInput.LineRead.line_pos {c : SetInput} (h : c.LineRead) : ∃ n, c.line.length = n + 1 := by
  obtain ⟨block, hline, -⟩ := h.parsed
  have hlen := length_of_setCommandType h.command
  unfold isBufferComplete at hline
  rw [if_neg (by omega)] at hline
  obtain ⟨m, hm, heq⟩ := Option.map_eq_some_iff.mp hline
  simp only [Prod.mk.injEq] at heq
  have hbounds := findLineEnd_bounds hm
  exact ⟨c.line.length - 1, by omega⟩

theorem read_of_data {b : Bytes} {rest : List ReadResult} {n : ℕ} (hb : b ≠ []) (hn : b.length ≤ n) :
    (⟨.data b :: rest⟩ : Sock).read n = (.data b, ⟨rest⟩) := by
  cases b with
  | nil => exact absurd rfl hb
  | cons x b =>
    unfold Sock.read
    dsimp only
    rw [if_pos (Nat.lt_of_succ_le hn)]

namespace Conn

/-- Between two commands: the next line is read into the first index, and the others hold nothing, but
the offset of the second one is left from the command before. -/
structure Ready (posted : List Posted) (received : Bytes) (offset : ℕ) (sock : Sock)
    (s : Conn) : Prop where
  inLoop : s.inLoop = true
  state : s.state = .cmdWait
  flag : s.dataPendingRead = false
  index : s.iovIndex = 0
  len : ∀ i, (s.slot i).len = 0
  part : (s.slot 0).bodyPart = false
  offset : (s.slot 1).baseOffset = offset
  posted : s.posted = posted
  received : s.received = received
  sock : s.sock = sock

/-- The line of `c` has been read, and what was behind it is left in its block. -/
structure AtHeader (c : SetInput) (posted : List Posted) (received : Bytes) (offset : ℕ)
    (sock : Sock) (s : Conn) : Prop where
  inLoop : s.inLoop = true
  state : s.state = .bodyWait
  header : s.header = c.header
  head : s.head = (.set, 0, true)
  index : s.iovIndex = 0
  part : (s.slot 0).bodyPart = false
  next : ∀ i, 0 < i → (s.slot i).len = 0
  offset : (s.slot 1).baseOffset = offset
  line : s.line = c.line.take (c.line.length - 2)
  posted : s.posted = posted
  received : s.received = received ++ c.first
  sock : s.sock = sock
  flag : s.dataPendingRead = decide (c.first ≠ [])
  left : c.first ≠ [] → (s.slot 0).len = c.line.length + c.first.length ∧
    (s.slot 0).baseOffset = c.line.length ∧ (s.slot 0).allocSize = cmdWaitInit ∧
    (s.slot 0).base.drop c.line.length = c.first.map some

structure Filling (c : SetInput) (posted : List Posted) (received : Bytes) (offset : ℕ)
    (m : ℕ) (sock : Sock) (s : Conn) : Prop where
  inLoop : s.inLoop = true
  state : s.state = .bodyWait
  header : s.header = c.header
  head : s.head = (.set, 0, true)
  index : s.iovIndex = 1
  flag : s.dataPendingRead = false
  len : s.cur.len = m
  size : s.cur.allocSize = c.body.length
  base : s.cur.base = (c.body.take m).map some
  offset : s.cur.baseOffset = offset
  line : s.line = c.line.take (c.line.length - 2)
  posted : s.posted = posted
  received : s.received = received ++ c.body.take m
  sock : s.sock = sock

variable {hash : Bytes → UInt32} {busy : Bool} {c : SetInput} {posted : List Posted}
  {received : Bytes} {offset m : ℕ} {sock sock' : Sock} {s t : Conn}

theorem cmdWait_of_line {buf block : Bytes} {n : ℕ} {ctype : ACmdType} (hbuf : buf ≠ [])
    (hread : s.sock.read cmdWaitInit = (.data buf, sock))
    (hcommand : setCommandType buf (s.cur.len + buf.length) = some (some ctype))
    (hline : isBufferComplete buf (s.cur.len + buf.length) = some (n + 1, block)) :
    s.cmdWait = (s.lineStored sock buf).lineComplete ctype buf (n + 1) block := by
  cases buf with
  | nil => exact absurd rfl hbuf
  | cons b buf =>
    have hlen : (s.lineStored sock (b :: buf)).cur.len = s.cur.len + (b :: buf).length := by
      simp [lineStored, stored, took, newBlock, modify, cur]
    unfold cmdWait
    rw [hread]
    change (s.lineStored sock (b :: buf)).lineRead (b :: buf) = _
    unfold lineRead
    rw [hlen, hcommand]
    dsimp only
    rw [hline]

theorem cmdWait_of_header {buf block : Bytes} {n : ℕ} {header : Header}
    (hbuf : buf ≠ []) (hread : s.sock.read cmdWaitInit = (.data buf, sock))
    (hcommand : setCommandType buf (s.cur.len + buf.length) = some (some .set))
    (hline : isBufferComplete buf (s.cur.len + buf.length) = some (n + 1, block))
    (hheader : processHeader s.header block = some (true, header)) :
    s.cmdWait = some ((((s.lineStored sock buf).headed .set buf (n + 1) block).awaitBody
      header).leftOver (n + 1), ((n + 1 : ℕ) : ℤ)) := by
  rw [cmdWait_of_line hbuf hread hcommand hline]
  unfold lineComplete
  rw [if_pos rfl, show (s.lineStored sock buf).header = s.header from rfl, hheader]

theorem dispose_of_going {ret : ℤ} (hret : 0 < ret) (hstate : s.state ≠ .cmdDone) :
    s.dispose hash busy ret = some s := by
  unfold dispose
  rw [if_neg fun h => hstate h.2, if_pos (.inl hret)]

theorem Ready.header (hash : Bytes → UInt32) (h : Ready posted received offset sock s)
    (hc : c.LineRead) (hread : sock.read cmdWaitInit = (.data (c.line ++ c.first), sock')) :
    ∃ t, (∀ busy, s.turn hash busy = some t) ∧
      AtHeader c posted (received ++ c.line) offset sock' t := by
  obtain ⟨n, hn⟩ := hc.line_pos
  obtain ⟨block, hline, hheader⟩ := hc.parsed
  have hbuf : c.line ++ c.first ≠ [] := by
    intro hnil
    have := congrArg List.length hnil
    simp [hn] at this
  have hcur : s.cur.len = 0 := h.len _
  rw [← h.sock] at hread
  have hcall := cmdWait_of_header (s := s) hbuf hread (by rw [hcur, Nat.zero_add]; exact hc.command)
    (by rw [hcur, Nat.zero_add, hline, hn]) (hheader s.header)
  rw [← hn] at hcall
  generalize hw : ((s.lineStored sock' (c.line ++ c.first)).headed .set
    (c.line ++ c.first) c.line.length block).awaitBody c.header = w at hcall
  have hwcur : w.cur.len = c.line.length + c.first.length := by
    subst hw
    simp [awaitBody, headed, lineStored, stored, took, newBlock, modify, cur, h.index, h.len]
  have hwstate : w.state = .bodyWait := by
    subst hw
    rfl
  refine ⟨w.leftOver c.line.length, fun busy => ?_, ?_⟩
  · obtain ⟨-, hstate, -⟩ := leftOver_head w c.line.length
    unfold turn processDataRecv
    rw [h.state]
    dsimp only
    rw [hcall, Option.bind_some]
    exact dispose_of_going (by omega) (by rw [hstate, hwstate]; decide)
  · have hnext (d : IovSlot) (i : ℕ) (hi : 0 < i) : (Function.update s.slot 0 d i).len = 0 := by
      rw [Function.update_of_ne (Nat.ne_of_gt hi), h.len]
    by_cases hfirst : c.first = []
    · have hleft : w.leftOver c.line.length = w := by
        unfold leftOver
        rw [if_neg]
        simp [hwcur, hfirst]
      rw [hleft]
      subst hw
      constructor <;> simp +contextual [head, awaitBody, headed, lineStored, stored, took, newBlock,
        modify, h.inLoop, h.index, h.part, h.offset, h.posted, h.received, h.flag, hfirst, hnext]
    · have hpos := List.length_pos_of_ne_nil hfirst
      have hleft : w.leftOver c.line.length = (w.modify w.iovIndex fun d =>
          { d with baseOffset := c.line.length }).setPending true := by
        unfold leftOver
        rw [if_pos]
        omega
      have hdrop : (block.map some).drop c.line.length = c.first.map some := by
        have hblock := drop_of_isBufferComplete (hn ▸ hline)
        rw [← hn, List.drop_left] at hblock
        rw [← List.map_drop, hblock]
      rw [hleft]
      subst hw
      constructor <;> simp +contextual [head, setPending, awaitBody, headed, lineStored, stored, took,
        newBlock, modify, h.inLoop, h.index, h.part, h.offset, h.posted, h.received, h.len, hfirst,
        hdrop, hnext]

theorem sub32_add {m n : ℕ} (h : n < 2 ^ 32) : sub32 (m + n) m = n := by
  unfold sub32
  omega

theorem slice_of_drop {b src : Block} {pos : ℕ} (h : b.drop pos = src) :
    b.slice pos src.length = src := by
  unfold Block.slice
  rw [h]
  simp

theorem AtHeader.pending_eq (h : AtHeader c posted received offset sock s)
    (hlt : c.first.length < 2 ^ 32) : s.pending = c.first.length := by
  by_cases hnil : c.first = []
  · rw [pending, if_neg (by simp [h.flag, hnil]), hnil]
    rfl
  · obtain ⟨hlen, hoffset, -⟩ := h.left hnil
    rw [pending, if_pos (by simp [h.flag, hnil]), cur, h.index, hlen, hoffset]
    exact sub32_add hlt

/-- What the first call for the body prepares: the pieces behind the line are in place. -/
theorem AtHeader.prepare (h : AtHeader c posted received offset sock s) (hc : c.WellFormed)
    (hsize : c.body.length < 2 ^ 32) :
    ∃ p, s.bodyPrepare = some (p, c.first.length, c.body.length - c.first.length) ∧
      Filling c posted received offset c.first.length sock p := by
  have hbody : s.bodySize = c.body.length := by
    rw [bodySize, h.header, ← hc.size, Nat.mod_eq_of_lt hsize]
  have htake : c.body.take c.first.length = c.first := List.take_left
  have hle : c.first.length ≤ c.body.length := by simp [SetInput.body]
  have hfits := hc.fits
  rw [List.length_append] at hfits
  have hcur : s.cur = s.slot 0 := by rw [cur, h.index]
  have hfilling {p : Conn} {pos len : ℕ} (hprep : s.bodyPrepare = some (p, pos, len))
      (hindex : p.iovIndex = 1) (hflag : p.dataPendingRead = false)
      (hlen : p.cur.len = c.first.length) (halloc : p.cur.allocSize = c.body.length)
      (hbase : p.cur.base = c.first.map some) (hoffset : p.cur.baseOffset = offset) :
      Filling c posted received offset c.first.length sock p := by
    obtain ⟨hstate, -, hheader, hsock, hreceived, hline⟩ := bodyPrepare_frame hprep
    have haside := bodyPrepare_aside hprep
    simp only [aside, Prod.mk.injEq] at haside
    exact {
      inLoop := haside.2.1.trans h.inLoop
      state := hstate.trans h.state
      header := hheader.trans h.header
      head := (bodyPrepare_head hprep).trans h.head
      index := hindex
      flag := hflag
      len := hlen
      size := halloc
      base := by rw [hbase, htake]
      offset := hoffset
      line := hline.trans h.line
      posted := haside.2.2.1.trans h.posted
      received := by rw [hreceived, h.received, htake]
      sock := hsock.trans h.sock }
  have hfirst : s.bodyPrepare = s.bodyFirst := by rw [bodyPrepare, hcur, h.part, if_neg (by decide)]
  by_cases hnil : c.first = []
  · have hprep : s.bodyPrepare = some (s.newBody 0, 0, s.bodySize) := by
      rw [hfirst, bodyFirst, h.index, if_neg (by decide), h.flag, if_pos (by simp [hnil])]
    refine ⟨_, by rw [hprep, hbody, hnil]; rfl, hfilling hprep ?_ ?_ ?_ ?_ ?_ ?_⟩
    · simp [newBody, modify, h.index]
    · simp [newBody, modify, h.flag, hnil]
    · simp [newBody, modify, cur, h.index, h.next, hnil]
    · simp [newBody, modify, cur, hbody]
    · simp [newBody, modify, cur, hnil, Block.slice]
    · simp [newBody, modify, cur, h.index, h.offset]
  · obtain ⟨hlen, hoffset, halloc, hblock⟩ := h.left hnil
    have hpending := h.pending_eq (lt_of_le_of_lt hle hsize)
    have hprep : s.bodyPrepare = some (s.copied, s.pending, s.bodySize - s.pending) := by
      rw [hfirst, bodyFirst, h.index, if_neg (by decide), h.flag, if_neg (by simp [hnil]), if_neg,
        if_neg]
      · rw [hpending, hbody]
        omega
      · rw [hcur, halloc, hoffset, hpending, hbody]
        omega
    refine ⟨_, by rw [hprep, hpending, hbody], hfilling hprep ?_ ?_ ?_ ?_ ?_ ?_⟩
    · simp [copied, setPending, newBody, modify, h.index]
    · rfl
    · simp [copied, setPending, newBody, modify, cur, h.index, h.next, hpending]
    · simp [copied, setPending, newBody, modify, cur, hbody]
    · have hslice := slice_of_drop hblock
      rw [List.length_map] at hslice
      simp [copied, setPending, newBody, modify, cur, h.index, hpending, hoffset, hslice]
    · simp [copied, setPending, newBody, modify, cur, h.index, h.offset]

theorem write_at_end {b src : Block} {pos : ℕ} (h : b.length = pos) : b.write pos src = b ++ src := by
  subst h
  simp [Block.write]

theorem bytes_map_some (b : Bytes) : Block.bytes (b.map some) = some b := by
  induction b with
  | nil => rfl
  | cons x b ih => simp [Block.bytes, ih]

theorem Filling.receive {f : Bytes} (h : Filling c posted received offset m sock s)
    (sock' : Sock) (hm : m ≤ c.body.length) (hf : f <+: c.body.drop m) :
    Filling c posted received offset (m + f.length) sock' ((s.took sock' f).filled m f) := by
  have htake : c.body.take (m + f.length) = c.body.take m ++ f := by
    rw [List.take_add, ← List.prefix_iff_eq_take.mp hf]
  have hcur : ((s.took sock' f).filled m f).cur =
      { s.cur with base := s.cur.base.write m (f.map some), len := s.cur.len + f.length } := by
    simp [filled, took, modify, cur]
  exact {
    inLoop := h.inLoop
    state := h.state
    header := h.header
    head := by
      unfold filled
      rw [modify_head _ _ fun c => ?_]
      · exact h.head
      · rfl
    index := h.index
    flag := h.flag
    len := by rw [hcur, h.len]
    size := by rw [hcur, h.size]
    base := by
      have hlen : ((c.body.take m).map some).length = m := by simp [hm]
      rw [hcur, h.base, write_at_end hlen, htake, List.map_append]
    offset := by rw [hcur, h.offset]
    line := h.line
    posted := h.posted
    received := by
      change s.received ++ f = _
      rw [h.received, htake, List.append_assoc]
    sock := rfl }

theorem Filling.bodyRead {f : Bytes} (h : Filling c posted received offset m sock s)
    (hf : f ≠ []) (hm : m < c.body.length) (hlt : c.body.length - m < 2 ^ 31)
    (hread : sock.read (c.body.length - m) = (.data f, sock')) :
    s.bodyRead m (c.body.length - m) = some ((s.took sock' f).filled m f).bodyEnd := by
  have hfits : f.length ≤ c.body.length - m := read_length_le (congrArg Prod.fst hread)
  rw [← h.sock] at hread
  unfold Conn.bodyRead
  rw [if_neg (by omega), if_neg (by omega), hread]
  cases f with
  | nil => exact absurd rfl hf
  | cons b buf =>
    dsimp only
    rw [if_neg]
    rw [h.size]
    omega

/-- A body that is not complete: the mark is set, and the offset moves on by all that is there. -/
theorem Filling.bodyEnd_part (h : Filling c posted received offset m sock s)
    (hm : m < c.body.length) :
    ∃ t, s.bodyEnd = (t, asInt m) ∧ t.cur.bodyPart = true ∧
      Filling c posted received ((offset + m) % 2 ^ 32) m sock t := by
  refine ⟨(s.modify s.iovIndex fun c => { c with
      baseOffset := (c.baseOffset + c.len) % 2 ^ 32, bodyPart := true }).setState .bodyWait, ?_, ?_, ?_⟩
  · rw [bodyEnd, if_pos (by rw [h.len, h.size]; exact hm), h.len]
  · simp only [setState, modify, cur, Function.update_self]
  · have hcur : ((s.modify s.iovIndex fun c => { c with
        baseOffset := (c.baseOffset + c.len) % 2 ^ 32, bodyPart := true }).setState .bodyWait).cur =
        { s.cur with baseOffset := (s.cur.baseOffset + s.cur.len) % 2 ^ 32, bodyPart := true } := by
      simp only [setState, modify, cur, Function.update_self]
    exact {
      inLoop := h.inLoop
      state := rfl
      header := h.header
      head := by
        rw [setState_head, modify_head _ _ fun c => ?_]
        · exact h.head
        · rfl
      index := h.index
      flag := h.flag
      len := by rw [hcur, h.len]
      size := by rw [hcur, h.size]
      base := by rw [hcur, h.base]
      offset := by rw [hcur, h.offset, h.len]
      line := h.line
      posted := h.posted
      received := h.received
      sock := h.sock }

theorem Filling.bodyEnd_complete (h : Filling c posted received offset c.body.length sock s) :
    s.bodyEnd = ((s.modify s.iovIndex fun c => { c with body := true }).setState .cmdDone,
      asInt c.body.length) := by
  rw [bodyEnd, if_neg (by rw [h.len, h.size]; exact lt_irrefl _), h.len]

/-- A complete body is handed on, and the connection is ready for the next command. -/
theorem Filling.complete (hash : Bytes → UInt32)
    (h : Filling c posted received offset c.body.length sock s)
    (hpos : 0 < c.body.length) (hlt : c.body.length < 2 ^ 31) :
    ∃ t, (∀ busy, s.bodyEnd.1.dispose hash busy s.bodyEnd.2 = some t) ∧
      Ready (posted ++ [c.posted hash]) (received ++ c.body) offset sock t := by
  rw [h.bodyEnd_complete, asInt_of_lt hlt]
  generalize hu : (s.modify s.iovIndex fun c => { c with body := true }).setState .cmdDone = u
  have hhead : u.head = (.set, 0, true) := by
    rw [← hu, setState_head, modify_head _ _ fun c => ?_]
    · exact h.head
    · rfl
  simp only [Conn.head, Prod.mk.injEq] at hhead
  obtain ⟨hctype, hindexHdr, hhdr⟩ := hhead
  have hmessage : u.message hash = post2KVdata hash .set
      ⟨c.header.key, c.header.flags, c.header.exptime, c.header.datalen, c.body⟩ := by
    have hbase : u.cur.base = c.body.map some := by
      have hcur : u.cur.base = s.cur.base := by
        subst hu
        simp [setState, modify, cur]
      rw [hcur, h.base, List.take_length]
    have hheader : u.header = c.header := by
      subst hu
      exact h.header
    rw [message, hbase, bytes_map_some, Option.bind_some, hctype, hheader]
  have hpost : u.post hash = some (u.handOn hash).freeHeader := by
    rw [post, hctype, hindexHdr]
    dsimp only
    rw [if_pos]
    intro i hi
    obtain rfl := Nat.le_zero.mp hi
    exact .inl hhdr
  refine ⟨(u.handOn hash).freeHeader.reset, fun busy => ?_, ?_⟩
  · unfold dispose
    rw [if_pos, hctype]
    · dsimp only
      rw [hpost, Option.map_some]
    · subst hu
      exact ⟨by omega, rfl⟩
  · have hline : (u.handOn hash).posted = posted ++ [c.posted hash] := by
      rw [handOn, hmessage]
      subst hu
      simp [setState, modify, h.posted, h.line, SetInput.posted]
    subst hu
    constructor
    · exact h.inLoop
    · rfl
    · exact h.flag
    · rfl
    · exact fun _ => rfl
    · simp [reset, iovDescCleared]
    · have hoffset := h.offset
      simp only [cur, h.index] at hoffset
      have hzero : s.iovIndexHdr = 0 := hindexHdr
      simp [reset, freeHeader, handOn, setState, modify, h.index, hzero, hoffset]
    · exact hline
    · change s.received = _
      rw [h.received, List.take_length]
    · exact h.sock

theorem dispose_of_left {ret : ℤ} (hret : ret ≤ 0) (hflag : s.dataPendingRead = false) :
    s.dispose hash busy ret = some (s.leave ret) := by
  have hnot := Int.not_lt.mpr hret
  unfold dispose
  rw [if_neg fun h => hnot h.1, if_neg]
  rintro (hpos | hpending)
  · exact hnot hpos
  · cases hflag.symm.trans hpending

/-- A call in `body_wait` is its preparation and its read. -/
theorem processDataRecv_of_body {p : Conn} {pos len : ℕ} (hstate : s.state = .bodyWait)
    (hdata : s.header.datalen ≠ 0) (hprep : s.bodyPrepare = some (p, pos, len)) :
    s.processDataRecv = p.bodyRead pos len := by
  unfold processDataRecv bodyWait
  rw [hstate]
  dsimp only
  rw [if_neg hdata, hprep, Option.bind_some]

variable (hash) in
theorem Filling.turn_complete {q : Conn}
    (h : Filling c posted received offset c.body.length sock q)
    (hcall : s.processDataRecv = some q.bodyEnd) (hpos : 0 < c.body.length)
    (hlt : c.body.length < 2 ^ 31) :
    ∃ t, (∀ busy, s.turn hash busy = some t) ∧
      Ready (posted ++ [c.posted hash]) (received ++ c.body) offset sock t := by
  obtain ⟨t, ht, hready⟩ := h.complete hash hpos hlt
  refine ⟨t, fun busy => ?_, hready⟩
  rw [turn, hcall, Option.bind_some]
  exact ht busy

variable (hash) in
theorem Filling.turn_part {q : Conn} (h : Filling c posted received offset m sock q)
    (hcall : s.processDataRecv = some q.bodyEnd) (hm : m < c.body.length) (hpos : 0 < m)
    (hlt : m < 2 ^ 31) :
    ∃ t, (∀ busy, s.turn hash busy = some t) ∧ t.cur.bodyPart = true ∧
      Filling c posted received ((offset + m) % 2 ^ 32) m sock t := by
  obtain ⟨t, hend, hpart, ht⟩ := h.bodyEnd_part hm
  refine ⟨t, fun busy => ?_, hpart, ht⟩
  rw [turn, hcall, Option.bind_some, hend, asInt_of_lt hlt]
  exact dispose_of_going (by omega) (by rw [ht.state]; decide)

/-- A turn behind which the length received is negative as an `int` ends the callback. -/
theorem Filling.turn_over {q : Conn} (h : Filling c posted received offset m sock q)
    (hcall : s.processDataRecv = some q.bodyEnd) (hle : 2 ^ 31 ≤ m) (hlt : m < 2 ^ 32) :
    ∃ t, (∀ busy, s.turn hash busy = some t) ∧ t.inLoop = false ∧ t.posted = posted := by
  have hend : ∃ u, q.bodyEnd = (u, asInt m) ∧ u.dataPendingRead = false ∧ u.posted = posted := by
    unfold bodyEnd
    rw [h.len]
    split
    · exact ⟨_, rfl, h.flag, h.posted⟩
    · exact ⟨_, rfl, h.flag, h.posted⟩
  obtain ⟨u, hend, hflag, hposted⟩ := hend
  have hneg := asInt_neg hle hlt
  obtain ⟨hleft, hdelivered, -⟩ := u.leave_spec (asInt m)
  simp only [delivered, Prod.mk.injEq] at hdelivered
  refine ⟨u.leave (asInt m), fun busy => ?_, hleft, ?_⟩
  · rw [turn, hcall, Option.bind_some, hend]
    exact dispose_of_left (Int.le_of_lt hneg) hflag
  · exact hdelivered.2.trans hposted

theorem Filling.prepare_part (h : Filling c posted received offset m sock s)
    (hpart : s.cur.bodyPart = true) :
    s.bodyPrepare = some (s, offset, sub32 (c.header.datalen + 2) offset) := by
  rw [bodyPrepare, if_pos hpart, h.flag, if_neg (by decide), h.offset, bodyRest, h.header, h.offset]

end Conn
end Acached.Receive
