import Acached.Receive.Stream

/-! # States without a way back

As soon as the receiving side has lost a byte of the stream, or has put one in
the wrong place, it cannot come back to the commands that were sent. Every byte
handed on was read, no byte is handed on twice, but for those of a line that is
left in its block, and a line that was lost in part does not begin again before
its end. What such states are, the loop around a call, and the calls that read
a line.
-/
namespace Acached.Receive
open CString Dispatch Execution

/-! ## The states -/

/-- Where the body of `c` begins in a stream of the commands `done` and `c`. -/
def bodyStart (done : List Command) (c : Command) : ℕ :=
  (done.flatMap Command.bytes).length + c.line.length

/-- The commands `done` were handed on, `c` is the next one, and bytes of it were read and belong to
nothing that was handed on. -/
structure Behind (hash : Bytes → UInt32) (cmds done : List Command) (c : Command)
    (contents : List Posted) (received : Bytes) : Prop where
  contents : contents = done.map (Command.posted hash)
  next : done ++ [c] <+: cmds
  lost : (done.flatMap Command.bytes).length < received.length

/-- When the line of `c` has been read, too few of its bytes are at hand to complete its body with those
that are still to come, or the body is too long to be handed on with the length it should have. -/
inductive Amiss (start : ℕ) (c : Command) (block : Block) (len : ℕ) (received : Bytes) : Prop
  | less (h : block.written + start < received.length)
  | long (hlong : 2 ^ 31 ≤ c.body.length) (hlen : len + start ≤ received.length)

/-- A byte of the body of `c` is missing in front of where the next piece is to be stored. -/
structure Gap (c : Command) (datalen : ℕ) (cur : IovSlot) : Prop where
  missing : ∃ i, i < c.body.length ∧ i < cur.baseOffset ∧ ∀ x, cur.base[i]? ≠ some (some x)
  part : cur.bodyPart = true
  size : datalen + 2 = cur.allocSize
  short : cur.allocSize < 2 ^ 31
  max : cur.baseOffset < 2 ^ 32

namespace Conn

def leftIn (s : Conn) : Block :=
  if s.dataPendingRead then s.cur.base.drop s.cur.baseOffset else []

/-- A line is read into the first index or has been read into it, and the others hold nothing. -/
structure AtLine (s : Conn) : Prop where
  index : s.iovIndex = 0
  part : (s.slot 0).bodyPart = false
  next : ∀ i, 0 < i → (s.slot i).len = 0
  offset : s.dataPendingRead = true → 0 < (s.slot 0).baseOffset

/-- The body is read into a block of its own, which has too few bytes for it. -/
structure AtBody (hash : Bytes → UInt32) (cmds done : List Command) (c : Command) (s : Conn) :
    Prop where
  behind : Behind hash cmds done c s.contents s.received
  state : s.state = .bodyWait
  flag : s.dataPendingRead = false
  next : ∀ i, s.iovIndex < i → (s.slot i).len = 0
  size : s.cur.allocSize < 2 ^ 32
  base : s.cur.base.length ≤ s.cur.allocSize
  amiss : s.line = c.text → Amiss (bodyStart done c) c s.cur.base s.cur.len s.received

/-- The body is read into a block that has them in the wrong place. -/
structure AtGap (hash : Bytes → UInt32) (cmds done : List Command) (c : Command) (s : Conn) :
    Prop where
  behind : Behind hash cmds done c s.contents s.received
  state : s.state = .bodyWait
  flag : s.dataPendingRead = false
  gap : Gap c s.header.datalen s.cur

/-- The states between two turns when the stream is astray: in front of a line, behind one, and with a
block for the body. -/
inductive Stray (hash : Bytes → UInt32) (cmds : List Command) (s : Conn) : Prop
  | line {done c} (hbehind : Behind hash cmds done c s.contents s.received)
    (hstate : s.state = .cmdWait) (hline : s.AtLine)
  | header {done c} (hbehind : Behind hash cmds done c s.contents s.received)
    (hstate : s.state = .bodyWait) (hline : s.AtLine)
    (hamiss : s.line = c.text → Amiss (bodyStart done c) c s.leftIn s.pending s.received)
  | body {done c} (hbody : s.AtBody hash cmds done c)
  | gap {done c} (hgap : s.AtGap hash cmds done c)

inductive Astray (hash : Bytes → UInt32) (cmds : List Command) (s : Conn) : Prop
  | wrong (h : ¬ s.contents <+: cmds.map (Command.posted hash))
  | dead (h : ¬ s.Defined) (hne : s.contents ≠ cmds.map (Command.posted hash))
  | stray (h : s.Stray hash cmds)

/-- What a call leaves of a stray state for the loop to deal with. A command is only handed on as `c`
with bytes of `c` lost. -/
inductive Left (hash : Bytes → UInt32) (cmds : List Command) (s : Conn) (ret : ℤ) : Prop
  | stray (h : s.Stray hash cmds)
  | complete {done c} (hbehind : Behind hash cmds done c s.contents s.received)
    (hstate : s.state = .cmdDone)
    (hoffset : 0 < ret → s.dataPendingRead = true →
      s.ctype ≠ .set ∧ 0 < (s.slot 0).baseOffset)
    (hlost : 0 < ret → Posted.content ⟨s.line, s.message hash⟩ = c.posted hash →
      (done.flatMap Command.bytes).length + c.bytes.length < s.received.length)
  | stuck {done c} (hbehind : Behind hash cmds done c s.contents s.received)
    (hflag : s.dataPendingRead = true) (hret : ret = 0) (hdead : ¬ s.Defined)

end Conn

section Loop

variable {hash : Bytes → UInt32} {cmds done : List Command} {c : Command} {stream received : Bytes}
  {contents : List Posted}

theorem Behind.contents_ne (h : Behind hash cmds done c contents received) :
    contents ≠ cmds.map (Command.posted hash) := by
  intro hall
  have hlen := congrArg List.length (h.contents.symm.trans hall)
  have hle := h.next.length_le
  simp only [List.length_map, List.length_append, List.length_cons, List.length_nil] at hlen hle
  omega

theorem Behind.handed (h : Behind hash cmds done c contents received)
    (hle : received.length ≤ (cmds.flatMap Command.bytes).length)
    (hlost : (done.flatMap Command.bytes).length + c.bytes.length < received.length) :
    ∃ c', Behind hash cmds (done ++ [c]) c' (contents ++ [c.posted hash]) received := by
  obtain ⟨rest, hrest⟩ := h.next
  have hbytes : ((done ++ [c]).flatMap Command.bytes).length =
      (done.flatMap Command.bytes).length + c.bytes.length := by simp
  cases rest with
  | nil =>
    rw [← hrest, List.append_nil, hbytes] at hle
    omega
  | cons c' rest =>
    refine ⟨c', by rw [h.contents]; simp, ⟨rest, by rw [← hrest]; simp⟩, ?_⟩
    rw [hbytes]
    exact hlost

theorem Behind.wrong (h : Behind hash cmds done c contents received) {x : Posted}
    (hx : x ≠ c.posted hash) : ¬ contents ++ [x] <+: cmds.map (Command.posted hash) := by
  obtain ⟨rest, hrest⟩ := h.next
  rw [h.contents, ← hrest, List.append_assoc, List.map_append, List.prefix_append_right_inj]
  intro hfront
  exact hx (List.cons_prefix_cons.mp hfront).1

namespace Conn

variable {s t u : Conn} {ret : ℤ} {busy : Bool}

theorem Stray.behind (h : s.Stray hash cmds) :
    ∃ done c, Behind hash cmds done c s.contents s.received := by
  cases h with
  | line hbehind | header hbehind => exact ⟨_, _, hbehind⟩
  | body hbody => exact ⟨_, _, hbody.behind⟩
  | gap hgap => exact ⟨_, _, hgap.behind⟩

theorem Stray.not_done (h : s.Stray hash cmds) : s.state ≠ .cmdDone := by
  intro hdone
  cases h with
  | line _ hstate | header _ hstate => cases hstate.symm.trans hdone
  | body hbody => cases hbody.state.symm.trans hdone
  | gap hgap => cases hgap.state.symm.trans hdone

theorem Fed.length_le (h : s.Fed stream) : s.received.length ≤ stream.length := by
  obtain ⟨pieces, -, hstream⟩ := h
  rw [← hstream, List.length_append]
  exact Nat.le_add_right _ _

theorem atLine_reset (h : s.dataPendingRead = true → 0 < (s.slot 0).baseOffset) :
    s.reset.AtLine where
  index := rfl
  part := by simp [reset, iovDescCleared]
  next := fun _ _ => rfl
  offset := h

theorem Stray.reset (h : s.Stray hash cmds) (hflag : s.dataPendingRead = false) :
    s.reset.Stray hash cmds := by
  have hline : s.reset.AtLine := atLine_reset fun htrue => by cases hflag.symm.trans htrue
  obtain ⟨done, c, hbehind⟩ := h.behind
  exact .line hbehind rfl hline

/-- Whether the callback runs and the connection is open makes no difference. -/
theorem Stray.setLoop (h : s.Stray hash cmds) (closed inLoop : Bool) :
    ({ s with closed := closed, inLoop := inLoop } : Conn).Stray hash cmds := by
  cases h with
  | line hbehind hstate hline =>
    exact .line hbehind hstate ⟨hline.index, hline.part, hline.next, hline.offset⟩
  | header hbehind hstate hline hamiss =>
    exact .header hbehind hstate ⟨hline.index, hline.part, hline.next, hline.offset⟩ hamiss
  | body hbody =>
    exact .body ⟨hbody.behind, hbody.state, hbody.flag, hbody.next, hbody.size, hbody.base,
      hbody.amiss⟩
  | gap hgap => exact .gap ⟨hgap.behind, hgap.state, hgap.flag, hgap.gap⟩

theorem Stray.leave (h : s.Stray hash cmds) (hflag : s.dataPendingRead = false) (ret : ℤ) :
    (s.leave ret).Stray hash cmds := by
  unfold Conn.leave
  repeat' split
  · exact (h.setLoop true false).reset hflag
  · exact h.setLoop s.closed false
  · exact (h.setLoop true false).reset hflag
  · exact (h.setLoop s.closed false).reset hflag
  · exact h.setLoop s.closed false

/-- A complete command that is not handed on is lost, or the connection is stuck with it. -/
theorem leave_of_complete (h : Behind hash cmds done c s.contents s.received)
    (hstate : s.state = .cmdDone) (hflag : s.dataPendingRead = false) (ret : ℤ) :
    (s.leave ret).Astray hash cmds := by
  have hline (closed inLoop : Bool) :
      ({ s with closed := closed, inLoop := inLoop } : Conn).reset.AtLine :=
    atLine_reset fun htrue => by cases hflag.symm.trans htrue
  have hdead : ¬ s.leaveLoop.Defined := by
    change ¬ s.Defined
    rw [Defined, hstate]
    exact id
  unfold Conn.leave
  repeat' split
  · exact .stray (.line h rfl (hline true false))
  · exact .dead hdead h.contents_ne
  · exact .stray (.line h rfl (hline true false))
  · exact .stray (.line h rfl (hline s.closed false))
  · exact .dead hdead h.contents_ne

theorem post_contents (h : s.post hash = some t) :
    t.contents = s.contents ++ [Posted.content ⟨s.line, s.message hash⟩] := by
  rw [contents, post_posted h, List.map_append]
  rfl

theorem post_frame (h : s.post hash = some t) : t.dataPendingRead = s.dataPendingRead ∧
    t.received = s.received ∧ (s.ctype ≠ .set → t.slot = s.slot) := by
  unfold post at h
  repeat' split at h
  all_goals cases h
  all_goals simp_all [handOn, freeHeader]

theorem posted_eq (h : Posted.content ⟨s.line, s.message hash⟩ = c.posted hash) :
    s.line = c.text ∧ s.ctype = c.ctype ∧ (c.ctype = .set → s.cur.base = c.body.map some) := by
  obtain ⟨hline, haM⟩ := Posted.mk.inj h
  obtain ⟨sent, hsent⟩ := c.posted_isSome hash
  obtain ⟨aM, hmessage, hcontent⟩ := Option.map_eq_some_iff.mp (haM.trans hsent)
  obtain ⟨block, hblock, hpost⟩ := Option.bind_eq_some_iff.mp hmessage
  obtain ⟨hkind, hptr⟩ := post2KVdata_eq hpost
  obtain ⟨hkind', hptr'⟩ := post2KVdata_eq hsent
  have hctype : s.ctype = c.ctype := by
    rw [← hkind, ← hkind', ← hcontent]
    split <;> rfl
  refine ⟨hline, hctype, fun hset => ?_⟩
  have hgets : aM.ctype ≠ .gets := by
    rw [hkind, hctype, hset]
    decide
  rw [if_neg hgets] at hcontent
  subst hcontent
  have hbody : block = c.body :=
    (hptr (hctype.trans hset)).symm.trans ((hptr' hset).trans (c.block_of_set hset))
  rw [Block.eq_of_bytes hblock, hbody]

/-- What the loop makes of it does not lead back. -/
theorem Left.disposed (h : u.Left hash cmds ret) (hfed : u.Fed (cmds.flatMap Command.bytes))
    (hdisposed : Disposed hash busy u ret t) : t.Astray hash cmds := by
  have hle := hfed.length_le
  cases h with
  | stray h =>
    cases hdisposed with
    | posted _ hstate | quit _ hstate | ignored _ hstate => exact absurd hstate h.not_done
    | again => exact .stray h
    | left _ hflag => exact .stray (h.leave hflag ret)
  | @complete done c hbehind hstate hoffset hlost =>
    cases hdisposed with
    | @posted v hret _ _ hpost =>
      have hcontents := post_contents hpost
      obtain ⟨hflag, hreceived, hslot⟩ := post_frame hpost
      by_cases hx : Posted.content ⟨u.line, u.message hash⟩ = c.posted hash
      · obtain ⟨c', hnext⟩ := hbehind.handed hle (hlost hret hx)
        refine .stray (@Stray.line _ _ _ (done ++ [c]) c' ?_ rfl (atLine_reset fun htrue => ?_))
        · change Behind hash cmds (done ++ [c]) c' v.contents v.received
          rw [hcontents, hx, hreceived]
          exact hnext
        · obtain ⟨hset, hpos⟩ := hoffset hret (hflag ▸ htrue)
          rw [hslot hset]
          exact hpos
      · refine .wrong ?_
        change ¬ v.contents <+: _
        rw [hcontents]
        exact hbehind.wrong hx
    | @quit v hret _ hctype hpost =>
      have hcontents := post_contents hpost
      have hwrong : ¬ v.contents <+: cmds.map (Command.posted hash) := by
        rw [hcontents]
        apply hbehind.wrong
        intro hx
        obtain ⟨-, hkind, -⟩ := posted_eq hx
        exact c.ctype_ne_quit (hkind.symm.trans hctype)
      cases busy
      · exact .wrong hwrong
      · exact .wrong hwrong
    | ignored hret _ hctype =>
      exact .stray (.line hbehind rfl (atLine_reset fun htrue => (hoffset hret htrue).2))
    | again => exact .dead (by rw [Defined, hstate]; exact id) hbehind.contents_ne
    | left _ hflag => exact leave_of_complete hbehind hstate hflag ret
  | stuck hbehind hflag hret hdead =>
    cases hdisposed with
    | posted hpos => omega
    | quit hpos => omega
    | ignored hpos => omega
    | again => exact .dead hdead hbehind.contents_ne
    | left _ hfalse => cases hflag.symm.trans hfalse

end Conn

end Loop

/-! ## Calls in front of a line -/

section Line

variable {hash : Bytes → UInt32} {cmds done : List Command} {c : Command} {buf block : Bytes}

theorem line_drop (hnext : done ++ [c] <+: cmds) :
    c.line <+: (cmds.flatMap Command.bytes).drop (done.flatMap Command.bytes).length := by
  obtain ⟨rest, rfl⟩ := hnext
  refine ⟨c.body ++ rest.flatMap Command.bytes, ?_⟩
  simp [Command.bytes]

namespace Conn

variable {s t u : Conn} {ret : ℤ}

theorem AtLine.modify (h : s.AtLine) {f : IovSlot → IovSlot}
    (hf : ∀ d, (f d).bodyPart = d.bodyPart ∧ (f d).baseOffset = d.baseOffset) :
    (s.modify s.iovIndex f).AtLine where
  index := h.index
  part := by simp [Conn.modify, h.index, hf, h.part]
  next := fun i hi => by
    rw [Conn.modify, h.index]
    dsimp only
    rw [Function.update_of_ne (Nat.ne_of_gt hi), h.next i hi]
  offset := fun hflag => by
    rw [Conn.modify, h.index]
    dsimp only
    rw [Function.update_self, (hf _).2]
    exact h.offset hflag

theorem AtLine.newBlock (h : s.AtLine) : s.newBlock.AtLine := h.modify fun _ => ⟨rfl, rfl⟩

theorem AtLine.lineStored (h : s.AtLine) (sock : Sock) (buf : Bytes) :
    (s.lineStored sock buf).AtLine := by
  have hnew := h.newBlock
  have htook : ({ s.newBlock.took sock buf with refused := false } : Conn).AtLine :=
    ⟨hnew.index, hnew.part, hnew.next, hnew.offset⟩
  unfold Conn.lineStored stored
  exact htook.modify fun _ => ⟨rfl, rfl⟩

theorem AtLine.headed (h : s.AtLine) (ctype : ACmdType) (buf : Bytes) (n : ℕ) (block : Bytes) :
    (s.headed ctype buf n block).AtLine := by
  have hline : ({ s with
      ctype := ctype, iovIndexHdr := s.iovIndex, line := buf.take (n - 2) } : Conn).AtLine :=
    ⟨h.index, h.part, h.next, h.offset⟩
  exact hline.modify fun _ => ⟨rfl, rfl⟩

theorem AtLine.leftOver (h : s.AtLine) {n : ℕ} (hn : 0 < n) : (s.leftOver n).AtLine := by
  unfold Conn.leftOver
  split
  · exact {
      index := h.index
      part := by simp [setPending, Conn.modify, h.index, h.part]
      next := fun i hi => by simp [setPending, Conn.modify, h.index, Nat.ne_of_gt hi, h.next i hi]
      offset := fun _ => by simpa [setPending, Conn.modify, h.index] using hn }
  · exact h

theorem leftOver_cur (s : Conn) (n : ℕ) : (s.leftOver n).cur.base = s.cur.base := by
  unfold leftOver
  split
  · simp [setPending, modify, cur]
  · rfl

theorem header_stray (hbehind : Behind hash cmds done c s.contents s.received)
    (hc : c.WellFormed) (hstate : t.state = .bodyWait) (hline : t.AtLine)
    (hcontents : t.contents = s.contents) (hreceived : t.received = s.received ++ buf)
    (hbuf : buf ≠ []) (hbase : t.cur.base = block.map some) (hlen : block.length = buf.length)
    (hparsed : t.line ++ crlf <+: buf) (hfed : t.Fed (cmds.flatMap Command.bytes)) :
    t.Stray hash cmds := by
  have hlost := hbehind.lost
  have hpos := List.length_pos_of_ne_nil hbuf
  have htotal : t.received.length = s.received.length + buf.length := by
    rw [hreceived, List.length_append]
  have hnext : Behind hash cmds done c t.contents t.received :=
    ⟨hcontents.trans hbehind.contents, hbehind.next, by omega⟩
  refine .header hnext hstate hline fun htext => .less ?_
  have hagain : c.line <+: (cmds.flatMap Command.bytes).drop s.received.length := by
    obtain ⟨pieces, -, hstream⟩ := hfed
    rw [← hstream, hreceived, List.append_assoc, List.drop_left]
    rw [htext] at hparsed
    exact hparsed.trans (List.prefix_append _ _)
  have hapart := hc.line_apart (line_drop hbehind.next) hagain hlost
  unfold bodyStart leftIn
  split
  · next hflag =>
    have hoffset := hline.offset hflag
    have hwritten := Block.written_le_length (t.cur.base.drop t.cur.baseOffset)
    have hleft : (t.cur.base.drop t.cur.baseOffset).length = buf.length - t.cur.baseOffset := by
      rw [List.length_drop, hbase, List.length_map, hlen]
    have hcur : t.cur = t.slot 0 := by rw [cur, hline.index]
    rw [← hcur] at hoffset
    omega
  · rw [Block.written_nil]
    omega

theorem left_of_line (hbehind : Behind hash cmds done c s.contents s.received)
    (hwf : ∀ c ∈ cmds, c.WellFormed) (hstate : s.state = .cmdWait) (hline : s.AtLine)
    (hcall : Call s u ret) (hfed : u.Fed (cmds.flatMap Command.bytes)) : u.Left hash cmds ret := by
  have hc : c.WellFormed := hwf c (hbehind.next.subset (by simp))
  have hlost := hbehind.lost
  have hcontents := hcall.contents
  cases hcall with
  | lineFailed =>
    have hnew := hline.newBlock
    exact .stray (.line hbehind hstate ⟨hnew.index, hnew.part, hnew.next, hnew.offset⟩)
  | lineEnd =>
    have hnew := hline.newBlock
    exact .stray (.line hbehind hstate ⟨hnew.index, hnew.part, hnew.next, hnew.offset⟩)
  | @unknown b buf sock =>
    have hnew := hline.lineStored sock (b :: buf)
    refine .stray (.line ⟨hbehind.contents, hbehind.next, ?_⟩ hstate
      ⟨hnew.index, hnew.part, hnew.next, hnew.offset⟩)
    change _ < (s.received ++ b :: buf).length
    rw [List.length_append]
    omega
  | @headerRefused b buf sock n block header _ _ _ hparsed =>
    obtain ⟨hlen, hfound⟩ := isBufferComplete_line hparsed
    have hnew := (hline.lineStored sock (b :: buf)).headed .set (b :: buf) (n + 1) block
    refine .stray (header_stray hbehind hc rfl ⟨hnew.index, hnew.part, hnew.next, hnew.offset⟩
      rfl rfl (List.cons_ne_nil b buf) ?_ hlen hfound hfed)
    simp [cur, setErrorApp, awaitBody, headed, modify]
  | @header b buf sock n block header _ _ _ hparsed =>
    obtain ⟨hlen, hfound⟩ := isBufferComplete_line hparsed
    have hnew := (hline.lineStored sock (b :: buf)).headed .set (b :: buf) (n + 1) block
    have hawait : (((s.lineStored sock (b :: buf)).headed .set (b :: buf) (n + 1) block).awaitBody
        header).AtLine := ⟨hnew.index, hnew.part, hnew.next, hnew.offset⟩
    obtain ⟨-, hst, -⟩ := leftOver_head
      (((s.lineStored sock (b :: buf)).headed .set (b :: buf) (n + 1) block).awaitBody header) (n + 1)
    refine .stray (header_stray hbehind hc hst (hawait.leftOver (Nat.succ_pos n)) hcontents
      (leftOver_received ..) (List.cons_ne_nil b buf) ?_ hlen ?_ hfed)
    · rw [leftOver_cur]
      simp [cur, awaitBody, headed, modify]
    · rw [leftOver_line]
      exact hfound
  | @command b buf sock ctype n block _ _ _ hother hparsed =>
    obtain ⟨hlen, hfound⟩ := isBufferComplete_line hparsed
    have hnew := (hline.lineStored sock (b :: buf)).headed ctype (b :: buf) (n + 1) block
    have hdone : (((s.lineStored sock (b :: buf)).headed ctype (b :: buf) (n + 1) block).setState
        .cmdDone).AtLine := ⟨hnew.index, hnew.part, hnew.next, hnew.offset⟩
    obtain ⟨hhead, hst, -⟩ := leftOver_head
      (((s.lineStored sock (b :: buf)).headed ctype (b :: buf) (n + 1) block).setState .cmdDone) (n + 1)
    have hreceived := leftOver_received
      (((s.lineStored sock (b :: buf)).headed ctype (b :: buf) (n + 1) block).setState .cmdDone) (n + 1)
    have htext := leftOver_line
      (((s.lineStored sock (b :: buf)).headed ctype (b :: buf) (n + 1) block).setState .cmdDone) (n + 1)
    have hover := hdone.leftOver (Nat.succ_pos n)
    generalize (((s.lineStored sock (b :: buf)).headed ctype (b :: buf) (n + 1) block).setState
      .cmdDone).leftOver (n + 1) = v at *
    have hctype : v.ctype = ctype := congrArg Prod.fst hhead
    have hread : v.received = s.received ++ b :: buf := hreceived
    refine @Left.complete _ _ _ _ done c ⟨hcontents.trans hbehind.contents, hbehind.next, ?_⟩
      hst ?_ ?_
    · rw [hread, List.length_append]
      omega
    · intro _ hflag
      rw [hctype]
      exact ⟨hother, hover.offset hflag⟩
    · intro _ hx
      obtain ⟨hline', hkind, -⟩ := posted_eq hx
      have hget : c.body = [] := c.body_of_ne_set (by rw [← hkind, hctype]; exact hother)
      have hle := hfound.length_le
      have hwhole : (b :: buf).take (n + 1 - 2) = c.text := htext.symm.trans hline'
      rw [hwhole] at hle
      have hbytes : c.bytes.length = (c.text ++ crlf).length := by
        rw [Command.bytes, hget, List.append_nil, Command.line]
      rw [hread, List.length_append, hbytes]
      omega
  | noLength hbody | bodyNothing hbody | bodyTooLong hbody | bodyFailed hbody
  | bodyStreamEnd hbody | bodyBytes hbody => cases hstate.symm.trans hbody

end Conn

end Line

end Acached.Receive
