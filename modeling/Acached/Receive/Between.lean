import Acached.Receive.Astray
import Acached.Receive.BodyPlaces

/-! # Between two commands

From one command of a stream to the next the connection is ready, with the
offset that the last body left. A get in one piece leads to the next command; a
line in several pieces, or one that another command was read with, leads
astray.
-/
namespace Acached.Receive
open CString Dispatch Execution

namespace Command

theorem take_line (c : Command) : c.line.take (c.line.length - 2) = c.text := by
  rw [line, List.length_append]
  exact List.take_left

variable {c : Command} {first : Bytes}

theorem WellFormed.datalen_eq (h : c.WellFormed) (hset : c.ctype = .set) :
    c.header.datalen + 2 = c.body.length := by
  cases c with
  | get => cases hset
  | set =>
    obtain ⟨-, -, -, -, hdatalen, -⟩ := h.1
    simp [body, header, hdatalen, crlf]

theorem WellFormed.datalen_pos (h : c.WellFormed) (hset : c.ctype = .set) :
    0 < c.header.datalen := by
  cases c with
  | get => cases hset
  | set =>
    obtain ⟨-, -, -, -, hdatalen, hpos⟩ := h.1
    change 0 < decimal _
    rw [hdatalen]
    exact hpos

/-- A set whose line was read with the bytes `first` behind it, and the rest of its body. -/
def input (c : Command) (first : Bytes) : SetInput where
  line := c.line
  header := c.header
  first := first
  pieces := (c.body.drop first.length).map ([·])

theorem WellFormed.input_lineRead (h : c.WellFormed) (hset : c.ctype = .set) (first : Bytes) :
    (c.input first).LineRead where
  command := by
    have hcommand := h.setCommandType first
    rw [hset] at hcommand
    exact hcommand
  parsed := ⟨_, h.isBufferComplete first, fun old => h.processHeader hset old first⟩

theorem input_body (hfirst : first <+: c.body) : (c.input first).body = c.body := by
  have hflat (b : Bytes) : (b.map ([·])).flatten = b := by
    induction b with
    | nil => rfl
    | cons x b ih => rw [List.map_cons, List.flatten_cons, ih, List.singleton_append]
  obtain ⟨rest, hrest⟩ := hfirst
  rw [SetInput.body, input, hflat, ← hrest, List.drop_left]

theorem WellFormed.input_wellFormed (h : c.WellFormed) (hset : c.ctype = .set)
    (hfits : (c.line ++ first).length ≤ cmdWaitInit) (hfirst : first <+: c.body) :
    (c.input first).WellFormed where
  fits := hfits
  command := (h.input_lineRead hset first).command
  parsed := (h.input_lineRead hset first).parsed
  size := by
    rw [input_body hfirst]
    exact (h.datalen_eq hset).symm
  pieces_ne := by
    intro f hf
    obtain ⟨b, -, rfl⟩ := List.mem_map.mp hf
    exact List.cons_ne_nil _ _

theorem input_posted (hash : Bytes → UInt32) (hset : c.ctype = .set) (hfirst : first <+: c.body) :
    ((c.input first).posted hash).content = c.posted hash := by
  have hbody := input_body hfirst
  have htext : (c.input first).line.take ((c.input first).line.length - 2) = c.text := c.take_line
  unfold SetInput.posted
  rw [hbody, htext]
  cases c with
  | get => cases hset
  | set => rfl

end Command

namespace Conn

variable {hash : Bytes → UInt32} {cmds done rest : List Command} {c : Command} {posted : List Posted}
  {received first buf : Bytes} {offset : ℕ} {sock sock' : Sock} {pieces : List Bytes} {s t u : Conn}
  {ret : ℤ}

theorem turn_fed {stream : Bytes} {busy : Bool} (h : s.Fed stream)
    (hturn : s.turn hash busy = some t) : t.Fed stream := by
  obtain ⟨u, ret, hcall, hdisposed⟩ := turn_cases hturn
  exact hdisposed.fed (hcall.fed h)

theorem turn_closed {busy : Bool} (hturn : s.turn hash busy = some t) (hin : t.inLoop = true)
    (hopen : s.closed = false) : t.closed = false := by
  obtain ⟨u, ret, hcall, hdisposed⟩ := turn_cases hturn
  have hu : u.closed = false := (congrArg Prod.fst hcall.aside).trans hopen
  cases hdisposed with
  | posted _ _ _ hpost =>
    unfold post at hpost
    repeat' split at hpost
    all_goals cases hpost
    all_goals exact hu
  | quit =>
    cases busy
    · cases hin
    · cases hin
  | ignored => exact hu
  | again => exact hu
  | left =>
    obtain ⟨hleft, -⟩ := u.leave_spec ret
    cases hleft.symm.trans hin

theorem leave_state (hstate : s.state = .cmdWait) (ret : ℤ) : (s.leave ret).state = .cmdWait := by
  unfold leave
  repeat' split
  · rfl
  · exact hstate
  · rfl
  · rfl
  · exact hstate

/-- When every call that can be made leads astray, the commands are not delivered. -/
theorem not_delivers_of_left (hwf : ∀ c ∈ cmds, c.WellFormed) (hin : s.inLoop = true)
    (hne : s.contents ≠ cmds.map (Command.posted hash)) (hfed : s.Fed (cmds.flatMap Command.bytes))
    (hleft : ∀ u ret, Call s u ret → u.Left hash cmds ret) :
    ¬ s.Delivers hash (cmds.map (Command.posted hash)) := by
  refine @not_delivers_of_invariant hash _ s
    (fun t => t = s ∨ t.Astray hash cmds ∧ t.Fed (cmds.flatMap Command.bytes)) ?_ ?_ (.inl rfl)
  · rintro t a v (rfl | ⟨h, ht⟩) hquiet hstep
    · cases a with
      | callback reqCount replyCount =>
        obtain ⟨⟨-, hout⟩, -⟩ := recvStep_callback.mp hstep
        cases hin.symm.trans hout
      | turn busy =>
        obtain ⟨u, ret, hcall, hdisposed⟩ := turn_cases (recvStep_turn.mp hstep).2
        have hu := hcall.fed hfed
        exact .inr ⟨(hleft u ret hcall).disposed hu hdisposed, hdisposed.fed hu⟩
    · exact .inr (h.step hwf ht hquiet hstep)
  · rintro t (rfl | ⟨h, -⟩)
    · exact hne
    · exact h.contents_ne

/-- The block of a get says its line, whatever has been received behind it. -/
theorem get_content (hc : c.WellFormed) (hget : c.ctype = .gets) (hline : s.line = c.text)
    (hctype : s.ctype = .gets) {behind : Bytes}
    (hbase : s.cur.base = (c.text ++ [0, 0] ++ behind).map some) :
    Posted.content ⟨s.line, s.message hash⟩ = c.posted hash := by
  have hmessage : s.message hash =
      some { AMsg.init .gets with cmdptr := c.text ++ [0, 0] ++ behind } := by
    rw [message, hbase, bytes_map_some, Option.bind_some, hctype]
    rfl
  rw [hline, hmessage]
  cases c with
  | get keys =>
    change Posted.mk _ (some { AMsg.init .gets with
      cmdptr := cstr ((Command.get keys).text ++ [0, 0] ++ behind) }) = _
    rw [hc.cstr]
    rfl
  | set => cases hget

/-! ## The state -/

theorem Ready.atLine (h : Ready posted received offset sock s) : s.AtLine where
  index := h.index
  part := h.part
  next := fun i _ => h.len i
  offset := fun htrue => by cases h.flag.symm.trans htrue

theorem Ready.get (hash : Bytes → UInt32) (h : Ready posted received offset sock s)
    (hc : c.WellFormed) (hget : c.ctype = .gets)
    (hread : sock.read cmdWaitInit = (.data c.line, sock')) :
    ∃ x t, Posted.content x = c.posted hash ∧ (∀ busy, s.turn hash busy = some t) ∧
      Ready (posted ++ [x]) (received ++ c.line) offset sock' t := by
  have hlong := hc.line_length
  obtain ⟨n, hn⟩ : ∃ n, c.line.length = n + 1 := ⟨c.line.length - 1, by omega⟩
  have hbuf : c.line ≠ [] := List.ne_nil_of_length_eq_add_one hn
  have hcur : s.cur.len = 0 := h.len _
  have hcommand := hc.setCommandType []
  have hline := hc.isBufferComplete []
  rw [List.append_nil, hget] at hcommand
  rw [List.append_nil, List.append_nil, hn] at hline
  rw [← h.sock] at hread
  have hcall := cmdWait_of_line (s := s) hbuf hread
    (by rw [hcur, Nat.zero_add, hcommand]) (by rw [hcur, Nat.zero_add, hn, hline])
  generalize hw : ((s.lineStored sock' c.line).headed .gets c.line (n + 1)
    (c.text ++ [0, 0])).setState .cmdDone = w
  have hwcur : w.cur = { s.cur with
      base := (c.text ++ [0, 0]).map some, len := c.line.length, allocSize := cmdWaitInit,
      hdr := true } := by
    subst hw
    simp [setState, headed, lineStored, stored, took, newBlock, modify, cur, h.index, h.len]
  have hleft : w.leftOver (n + 1) = w := by
    unfold leftOver
    rw [if_neg]
    rw [hwcur, hn]
    exact lt_irrefl _
  have hctype : w.ctype = .gets := by
    subst hw
    rfl
  have htext : w.line = c.text := by
    subst hw
    change c.line.take (n + 1 - 2) = c.text
    rw [← hn, c.take_line]
  have hpost : w.post hash = some (w.handOn hash) := by
    have hindex : w.iovIndex = 0 := by
      subst hw
      exact h.index
    rw [post, hctype]
    dsimp only
    rw [if_pos hindex]
  have hstate : w.state = .cmdDone := by
    subst hw
    rfl
  refine ⟨⟨w.line, w.message hash⟩, (w.handOn hash).reset, ?_, fun busy => ?_, ?_⟩
  · apply get_content hc hget htext hctype
    rw [hwcur, List.append_nil]
  · unfold turn processDataRecv
    rw [h.state]
    dsimp only
    rw [hcall, lineComplete, if_neg (by decide), hw, hleft, Option.bind_some]
    unfold dispose
    rw [if_pos ⟨by omega, hstate⟩, hctype]
    dsimp only
    rw [hpost, Option.map_some]
  · subst hw
    constructor
    · exact h.inLoop
    · rfl
    · exact h.flag
    · rfl
    · exact fun _ => rfl
    · simp [reset, iovDescCleared]
    · have hoffset := h.offset
      simpa [reset, handOn, setState, headed, lineStored, stored, took, newBlock, modify, h.index]
        using hoffset
    · change s.posted ++ _ = _
      rw [h.posted]
    · change s.received ++ c.line = _
      rw [h.received]
    · rfl

/-- The commands `done` were handed on, and the connection is ready for `rest`, whose bytes are to come
in these pieces. -/
structure Between (hash : Bytes → UInt32) (done rest : List Command) (used : Bool)
    (pieces : List Bytes) (s : Conn) : Prop where
  stream : PiecesOf (rest.flatMap Command.bytes) pieces
  isOpen : s.closed = false
  contents : s.contents = done.map (Command.posted hash)
  ready : ∃ posted offset, Ready posted (done.flatMap Command.bytes) offset ⟨pieces.map .data⟩ s ∧
    offset < 2 ^ 31 ∧ (offset = 0 ↔ used = false)

variable {used : Bool}

theorem Between.fed (h : Between hash done rest used pieces s) :
    s.Fed ((done ++ rest).flatMap Command.bytes) := by
  obtain ⟨posted, offset, hready, -⟩ := h.ready
  refine ⟨pieces, hready.sock, ?_⟩
  rw [hready.received, h.stream.flatten, List.flatMap_append]

theorem Between.not_done (h : Between hash done (c :: rest) used pieces s) :
    s.contents ≠ (done ++ c :: rest).map (Command.posted hash) := by
  rw [h.contents]
  simp

theorem Ready.between {x : Posted}
    (h : Ready (posted ++ [x]) ((done ++ [c]).flatMap Command.bytes) offset ⟨pieces.map .data⟩ t)
    (hcontents : posted.map Posted.content = done.map (Command.posted hash))
    (hx : x.content = c.posted hash) (hpieces : PiecesOf (rest.flatMap Command.bytes) pieces)
    (hopen : t.closed = false) (hoffset : offset < 2 ^ 31) (hused : offset = 0 ↔ used = false) :
    Between hash (done ++ [c]) rest used pieces t where
  stream := hpieces
  isOpen := hopen
  contents := by
    rw [contents, h.posted, List.map_append, hcontents, List.map_append, List.map_singleton, hx]
    rfl
  ready := ⟨_, _, h, hoffset, hused⟩

/-- The bytes of a line of which the end is missing are dropped, or there is no defined outcome. -/
theorem Between.not_delivers_of_cut (h : Between hash done (c :: rest) used pieces s)
    (hwf : ∀ d ∈ done ++ c :: rest, d.WellFormed) (hbuf : buf ≠ [])
    (hread : (⟨pieces.map .data⟩ : Sock).read cmdWaitInit = (.data buf, sock'))
    (hinitial : buf <+: c.line) (hlt : buf.length < c.line.length) :
    ¬ s.Delivers hash ((done ++ c :: rest).map (Command.posted hash)) := by
  obtain ⟨posted, offset, hready, -⟩ := h.ready
  have hc : c.WellFormed := hwf c (by simp)
  have hcur : s.cur.len = 0 := hready.len _
  have hstored (sock : Sock) (b : Bytes) : (s.lineStored sock b).cur.len = b.length := by
    simp [lineStored, stored, took, newBlock, modify, cur, hready.len]
  rw [← hready.sock] at hread
  refine not_delivers_of_left hwf hready.inLoop h.not_done h.fed fun u ret hcall => ?_
  have hparse := hc.cut_line hinitial hlt
  have hpos := List.length_pos_of_ne_nil hbuf
  cases hcall with
  | lineFailed _ hgot => cases hread.symm.trans hgot
  | lineEnd _ hgot =>
    cases hread.symm.trans hgot
    exact absurd rfl hbuf
  | @unknown b buf sock _ hgot =>
    cases hread.symm.trans hgot
    have hnew := hready.atLine.lineStored sock' (b :: buf)
    refine .stray (@Stray.line _ _ _ done c ⟨h.contents, ⟨rest, by simp⟩, ?_⟩ hready.state
      ⟨hnew.index, hnew.part, hnew.next, hnew.offset⟩)
    change _ < (s.received ++ b :: buf).length
    rw [hready.received, List.length_append]
    omega
  | headerRefused _ hgot hcommand hline | header _ hgot hcommand hline
  | command _ hgot hcommand _ hline =>
    cases hread.symm.trans hgot
    rw [hstored] at hcommand hline
    rcases hparse with hnone | hnone
    · cases hcommand.symm.trans hnone
    · cases hline.symm.trans hnone
  | noLength hbody | bodyNothing hbody | bodyTooLong hbody | bodyFailed hbody
  | bodyStreamEnd hbody | bodyBytes hbody => cases hready.state.symm.trans hbody

/-- The bytes behind the line of a get are lost with its block. -/
theorem Between.not_delivers_of_behind (h : Between hash done (c :: rest) used pieces s)
    (hwf : ∀ d ∈ done ++ c :: rest, d.WellFormed) (hget : c.ctype = .gets) (hfirst : first ≠ [])
    (hread : (⟨pieces.map .data⟩ : Sock).read cmdWaitInit = (.data (c.line ++ first), sock')) :
    ¬ s.Delivers hash ((done ++ c :: rest).map (Command.posted hash)) := by
  obtain ⟨posted, offset, hready, -⟩ := h.ready
  have hc : c.WellFormed := hwf c (by simp)
  have hpos := List.length_pos_of_ne_nil hfirst
  have hstored (sock : Sock) (b : Bytes) : (s.lineStored sock b).cur.len = b.length := by
    simp [lineStored, stored, took, newBlock, modify, cur, hready.len]
  have hkind := hc.setCommandType first
  rw [hget] at hkind
  rw [← hready.sock] at hread
  refine not_delivers_of_left hwf hready.inLoop h.not_done h.fed fun u ret hcall => ?_
  have hcontents := hcall.contents
  have hreceived : u.received = done.flatMap Command.bytes ++ (c.line ++ first) := by
    cases hline : c.line ++ first with
    | nil =>
      rw [List.append_eq_nil_iff] at hline
      exact absurd hline.2 hfirst
    | cons b buf =>
      rw [hline] at hread
      rw [← hready.received]
      exact hcall.received_of_cmdWait hready.state (congrArg Prod.fst hread)
  have hbytes : c.bytes.length = c.line.length := by
    rw [Command.bytes, c.body_of_ne_set (by rw [hget]; decide), List.append_nil]
  have hlong := congrArg List.length hreceived
  rw [List.length_append, List.length_append] at hlong
  cases hcall with
  | lineFailed _ hgot => cases hread.symm.trans hgot
  | lineEnd _ hgot =>
    have hnil := (Prod.mk.inj (hread.symm.trans hgot)).1
    simp [hfirst] at hnil
  | unknown _ hgot hcommand =>
    rw [hstored, ← ReadResult.data.inj (Prod.mk.inj (hread.symm.trans hgot)).1, hkind] at hcommand
    cases hcommand
  | headerRefused _ hgot hcommand =>
    rw [hstored, ← ReadResult.data.inj (Prod.mk.inj (hread.symm.trans hgot)).1, hkind] at hcommand
    cases hcommand
  | header _ hgot hcommand =>
    rw [hstored, ← ReadResult.data.inj (Prod.mk.inj (hread.symm.trans hgot)).1, hkind] at hcommand
    cases hcommand
  | @command b buf sock ctype n block _ _ _ hother hline =>
    have hnew := (hready.atLine.lineStored sock (b :: buf)).headed ctype (b :: buf) (n + 1) block
    have hdone : (((s.lineStored sock (b :: buf)).headed ctype (b :: buf) (n + 1) block).setState
        .cmdDone).AtLine := ⟨hnew.index, hnew.part, hnew.next, hnew.offset⟩
    obtain ⟨hhead, hst, -⟩ := leftOver_head
      (((s.lineStored sock (b :: buf)).headed ctype (b :: buf) (n + 1) block).setState .cmdDone) (n + 1)
    have hover := hdone.leftOver (Nat.succ_pos n)
    refine @Left.complete _ _ _ _ done c ⟨hcontents.trans h.contents, ⟨rest, by simp⟩, by omega⟩ hst
      (fun _ hflag => ⟨?_, hover.offset hflag⟩) fun _ _ => by omega
    have hctype := congrArg Prod.fst hhead
    exact fun hset => hother (hctype.symm.trans hset)
  | noLength hbody | bodyNothing hbody | bodyTooLong hbody | bodyFailed hbody
  | bodyStreamEnd hbody | bodyBytes hbody => cases hready.state.symm.trans hbody

theorem Between.delivers_last (h : Between hash done [] used pieces s) :
    s.Delivers hash (done.map (Command.posted hash)) := by
  obtain ⟨posted, offset, hready, -⟩ := h.ready
  have hstay : ∀ t a v, (t.state = .cmdWait ∧ t.sock = ⟨[]⟩ ∧ t.contents = s.contents) →
      a.Quiet → recvStep hash t a = some v →
        (v.state = .cmdWait ∧ v.sock = ⟨[]⟩ ∧ v.contents = s.contents) := by
    rintro t a v ⟨hstate, hsock, hcontents⟩ hquiet hstep
    cases a with
    | callback reqCount replyCount =>
      obtain ⟨-, rfl⟩ := recvStep_callback.mp hstep
      rw [enter_of_idle hquiet]
      exact ⟨hstate, hsock, hcontents⟩
    | turn busy =>
      have hread : t.sock.read cmdWaitInit = (.failed .eagain, ⟨[]⟩) := by
        rw [hsock]
        rfl
      obtain ⟨u, ret, hcall, hret, hu, -, hdelivered, hus⟩ :=
        processDataRecv_of_noBytes hstate (s := t) (by simp [hread])
      have hturn := (recvStep_turn.mp hstep).2
      rw [turn, hcall, Option.bind_some] at hturn
      have hcontents' : u.contents = s.contents :=
        (congrArg (fun d => d.2.map Posted.content) hdelivered).trans hcontents
      have hempty : u.sock = ⟨[]⟩ := by rw [hus, hread]
      cases disposed_of_dispose hturn with
      | posted hpos | quit hpos | ignored hpos => omega
      | again => exact ⟨hu, hempty, hcontents'⟩
      | left =>
        obtain ⟨-, hsame, -⟩ := u.leave_spec ret
        refine ⟨leave_state hu ret, (leave_sock u ret).trans hempty, ?_⟩
        exact (congrArg (fun d => d.2.map Posted.content) hsame).trans hcontents'
  have hempty : s.sock = ⟨[]⟩ := by rw [hready.sock, h.stream.eq_nil, List.map_nil]
  rw [← h.contents]
  refine ⟨⟨[], s, by simp, rfl, rfl⟩, fun acts t hacts hrun => ?_⟩
  have hend := exec_invariant_of hstay ⟨hready.state, hempty, rfl⟩ hacts hrun
  rw [hend.2.2]

end Conn

end Acached.Receive
