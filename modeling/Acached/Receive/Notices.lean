import Acached.Foundation.Course
import Acached.Receive.AnyCut

/-! # What the comm thread answers itself

A `version` line is answered when it is complete, and a line that is refused
with the number of its error; the workers see neither. What such a line leaves
in the connection does not touch the commands behind it.
-/
namespace Acached.Receive
open CString Dispatch Execution

def AErrNum.code : AErrNum → ℕ
  | .cmdInvalid => 5003
  | .cmdInvalidHdr => 5007
  | .cmdInvalidDatalen => 5008

def clientError (num : AErrNum) : Bytes :=
  [67, 76, 73, 69, 78, 84, 95, 69, 82, 82, 79, 82, 32, 101, 114, 114, 110, 111, 58] ++
    (Nat.toDigits 10 num.code).map (fun c => UInt8.ofNat c.toNat) ++ crlf

def versionLine : Bytes :=
  [86, 69, 82, 83, 73, 79, 78, 32, 49, 46, 50, 97, 108, 112, 104, 97, 13, 10]

namespace Conn

/-- What a call of `ProcessDataRecv` that leads from `s` to `u` gives to `WriteData`. -/
def versionNotice (s u : Conn) : Bytes :=
  if s.state = .cmdWait ∧ u.state = .cmdDone ∧ u.ctype = .version then versionLine else []

/-- What `commRead_cb` gives to `WriteData` behind its loop, if the loop ends with this call. -/
def errorNotice (u : Conn) (ret : ℤ) : Bytes :=
  if ret < 0 ∧ u.dataPendingRead = false then
    match u.aerr with
    | some (.app num) => clientError num
    | _ => []
  else []

def notice (s : Conn) : Bytes :=
  match s.processDataRecv with
  | none => []
  | some (u, ret) => s.versionNotice u ++ u.errorNotice ret

end Conn

structure Talk where
  conn : Conn
  sent : Bytes

def talkStep (hash : Bytes → UInt32) (s : Talk) (a : RecvAct) : Option Talk :=
  (recvStep hash s.conn a).map fun t => match a with
    | .callback _ _ => ⟨t, s.sent⟩
    | .turn _ => ⟨t, s.sent ++ s.conn.notice⟩

/-! ## Requests -/

/-- What a client may send, or that it sends nothing for a while. -/
inductive Request where
  | set (c : SetInput)
  | get (keys : List Bytes)
  | version (line : Bytes)
  | refused (line : Bytes) (num : AErrNum)
  | pause

/-- Why a line that was read at once is refused. Behind a line with a wrong header there may be other
bytes, which are lost with it. -/
def Refuses (line : Bytes) : AErrNum → Prop
  | .cmdInvalid => setCommandType line line.length = some none
  | .cmdInvalidHdr => setCommandType line line.length = some (some .set) ∧
      ∃ n block, isBufferComplete line line.length = some (n + 1, block) ∧
        ∀ old, ∃ header, processHeader old block = some (false, header)
  | .cmdInvalidDatalen => ∃ header, SetInput.LineRead ⟨line, header, [], []⟩ ∧ header.datalen = 0

namespace Request

def reads : Request → List ReadResult
  | .set c => c.reads
  | .get keys => [.data (Command.get keys).line]
  | .version line => [.data line]
  | .refused line _ => [.data line]
  | .pause => [.failed .eagain]

def posted (hash : Bytes → UInt32) : Request → List Posted
  | .set c => [c.posted hash]
  | .get keys => [(Command.get keys).posted hash]
  | _ => []

def notice : Request → Bytes
  | .version _ => versionLine
  | .refused _ num => clientError num
  | _ => []

def WellFormed : Request → Prop
  | .set c => c.WellFormed
  | .get keys => (Command.get keys).WellFormed
  | .version line => line.length ≤ cmdWaitInit ∧
      setCommandType line line.length = some (some .version) ∧
        ∃ block, isBufferComplete line line.length = some (line.length, block)
  | .refused line num => line ≠ [] ∧ line.length ≤ cmdWaitInit ∧ Refuses line num
  | .pause => True

def set? : Request → Option SetInput
  | .set c => some c
  | _ => none

end Request

/-- The connection is open, and what has come out of it is what is to come out for the first `n`
requests. -/
def Handled (hash : Bytes → UInt32) (rs : List Request) (n : ℕ) (s : Talk) : Prop :=
  s.conn.closed = false ∧ s.conn.contents = (rs.take n).flatMap (Request.posted hash) ∧
    s.sent = (rs.take n).flatMap Request.notice

/-- As many requests as were handled are answered, and all of them can be. -/
def HandlesAll (hash : Bytes → UInt32) (rs : List Request) : Talk → Prop :=
  Attains (talkStep hash) RecvAct.Quiet (fun t => ∃ n, Handled hash rs n t)
    (Handled hash rs rs.length)

namespace Conn

variable {hash : Bytes → UInt32} {rs done rest : List Request} {s t u : Conn} {sent : Bytes}
  {posted : List Posted} {received line : Bytes} {offset m : ℕ} {sock sock' : Sock} {ret : ℤ}

/-! ## Steps -/

theorem handlesAll_of_turn (hopen : s.closed = false) (hin : s.inLoop = true)
    (hturn : ∀ busy, s.turn hash busy = some t) (hs : ∃ n, Handled hash rs n ⟨s, sent⟩)
    (h : HandlesAll hash rs ⟨t, sent ++ s.notice⟩) : HandlesAll hash rs ⟨s, sent⟩ := by
  have hstep (busy : Bool) :
      talkStep hash ⟨s, sent⟩ (.turn busy) = some ⟨t, sent ++ s.notice⟩ := by
    rw [talkStep, recvStep_turn.mpr ⟨⟨hopen, hin⟩, hturn busy⟩]
    rfl
  refine attains_of_only hs (a := .turn false) trivial (hstep false) (fun b v _ hb => ?_) h
  cases b with
  | callback reqCount replyCount =>
    obtain ⟨w, hw, -⟩ := Option.map_eq_some_iff.mp hb
    obtain ⟨⟨-, hout⟩, -⟩ := recvStep_callback.mp hw
    cases hin.symm.trans hout
  | turn busy => exact (Option.some.inj ((hstep busy).symm.trans hb)).symm

theorem handlesAll_of_callback (hopen : s.closed = false) (hout : s.inLoop = false)
    (hs : ∃ n, Handled hash rs n ⟨s, sent⟩)
    (h : HandlesAll hash rs ⟨{ s with inLoop := true }, sent⟩) : HandlesAll hash rs ⟨s, sent⟩ := by
  have hstep {reqCount replyCount : ℕ} (hidle : Idle reqCount replyCount) :
      talkStep hash ⟨s, sent⟩ (.callback reqCount replyCount) =
        some ⟨{ s with inLoop := true }, sent⟩ := by
    rw [talkStep, recvStep_callback.mpr ⟨⟨hopen, hout⟩, rfl⟩, enter_of_idle hidle]
    rfl
  have hidle : Idle 0 0 := .inl rfl
  refine attains_of_only hs (a := .callback 0 0) hidle (hstep hidle) (fun b v hquiet hb => ?_) h
  cases b with
  | callback reqCount replyCount => exact (Option.some.inj ((hstep hquiet).symm.trans hb)).symm
  | turn busy =>
    obtain ⟨w, hw, -⟩ := Option.map_eq_some_iff.mp hb
    obtain ⟨⟨-, hin⟩, -⟩ := recvStep_turn.mp hw
    cases hout.symm.trans hin

/-- A turn that hands a command on, or leaves one that is no `version`, writes nothing. -/
theorem notice_of_turn {busy : Bool} (hturn : s.turn hash busy = some t) (hin : t.inLoop = true)
    (h : t.posted ≠ s.posted ∨ t.ctype ≠ .version) : s.notice = [] := by
  obtain ⟨⟨u, ret⟩, hcall, hdispose⟩ := Option.bind_eq_some_iff.mp hturn
  have hposted : u.posted = s.posted :=
    congrArg (fun r => r.2.2.1) (call_of_processDataRecv hcall).aside
  have hversion (hctype : u.ctype ≠ .version) : s.versionNotice u = [] :=
    if_neg fun hall => hctype hall.2.2
  have herror (hgo : 0 < ret ∨ u.dataPendingRead = true) : u.errorNotice ret = [] := by
    refine if_neg fun hall => ?_
    rcases hgo with hret | hflag
    · omega
    · cases hflag.symm.trans hall.2
  rw [notice, hcall]
  dsimp only
  cases disposed_of_dispose hdispose with
  | posted hret _ hctype =>
    rw [herror (.inl hret), hversion, List.append_nil]
    rcases hctype with hctype | hctype
    · rw [hctype]
      decide
    · rw [hctype]
      decide
  | quit =>
    cases busy
    · cases hin
    · cases hin
  | ignored hret =>
    rw [herror (.inl hret), hversion, List.append_nil]
    exact h.resolve_left fun hne => hne hposted
  | again hgo =>
    rw [herror hgo, hversion, List.append_nil]
    exact h.resolve_left fun hne => hne hposted
  | left =>
    obtain ⟨hleft, -⟩ := u.leave_spec ret
    cases hleft.symm.trans hin

/-! ## Lines that do not reach the workers -/

theorem reset_ready (u : Conn) (hflag : u.dataPendingRead = false) :
    Ready u.posted u.received (u.slot 1).baseOffset u.sock { u.reset with inLoop := true } where
  inLoop := rfl
  state := rfl
  flag := hflag
  index := rfl
  len _ := rfl
  part := by simp [reset, iovDescCleared]
  offset := rfl
  posted := rfl
  received := rfl
  sock := rfl

theorem eq_of_inLoop (h : s.inLoop = true) : { s with inLoop := true } = s := by
  rw [← h]

theorem turn_of_refused (hash : Bytes → UInt32) {num : AErrNum}
    (hcall : s.processDataRecv = some (u, -1)) (hflag : u.dataPendingRead = false) (haerr : u.aerr = some (.app num))
    (hstate : u.state = .cmdWait ∨ u.ctype ≠ .version) :
    (∀ busy, s.turn hash busy = some u.leaveLoop.reset) ∧ s.notice = clientError num := by
  constructor
  · intro busy
    rw [turn, hcall, Option.bind_some]
    change u.dispose hash busy (-1) = _
    rw [dispose_of_left (by decide) hflag, leave, if_neg (by decide), haerr]
  · have hversion : s.versionNotice u = [] := by
      refine if_neg fun hall => ?_
      rcases hstate with hstate | hctype
      · cases hstate.symm.trans hall.2.1
      · exact hctype hall.2.2
    rw [notice, hcall]
    dsimp only
    rw [hversion, List.nil_append, errorNotice, if_pos ⟨by decide, hflag⟩, haerr]

theorem Ready.slot_one (h : Ready posted received offset sock s) (sock' : Sock) (buf : Bytes) :
    ((s.lineStored sock' buf).slot 1).baseOffset = offset := by
  simp [lineStored, stored, took, newBlock, modify, h.index, h.offset]

theorem Ready.cur_len (h : Ready posted received offset sock s) (sock' : Sock) (buf : Bytes) :
    (s.lineStored sock' buf).cur.len = buf.length := by
  simp [lineStored, stored, took, newBlock, modify, cur, h.index, h.len]

/-- A line that is no command, or a set with a wrong header. -/
theorem Ready.refused {num : AErrNum} (hash : Bytes → UInt32)
    (h : Ready posted received offset sock s) (hnum : num ≠ .cmdInvalidDatalen) (hline : line ≠ [])
    (hrefuses : Refuses line num) (hread : sock.read cmdWaitInit = (.data line, sock')) :
    ∃ t, (∀ busy, s.turn hash busy = some t) ∧ s.notice = clientError num ∧ t.closed = s.closed ∧
      t.inLoop = false ∧ Ready posted (received ++ line) offset sock' { t with inLoop := true } := by
  have hone := h.slot_one sock' line
  have hlen := h.cur_len sock' line
  rw [← h.sock] at hread
  have hcall : s.processDataRecv = (s.lineStored sock' line).lineRead line := by
    unfold processDataRecv cmdWait
    rw [h.state, hread]
    obtain ⟨b, buf, rfl⟩ := List.exists_cons_of_ne_nil hline
    rfl
  unfold lineRead at hcall
  rw [hlen] at hcall
  cases num with
  | cmdInvalid =>
    have hunknown : setCommandType line line.length = some none := hrefuses
    rw [hunknown] at hcall
    obtain ⟨hturn, hnotice⟩ := turn_of_refused hash hcall h.flag rfl (.inl h.state)
    have hready := reset_ready ((s.lineStored sock' line).setErrorApp .cmdInvalid).leaveLoop h.flag
    refine ⟨_, hturn, hnotice, rfl, rfl, ?_⟩
    rw [← h.posted, ← h.received, ← hone]
    exact hready
  | cmdInvalidHdr =>
    obtain ⟨hcommand, n, block, hend, hheader⟩ := hrefuses
    obtain ⟨header, hheader⟩ := hheader (s.lineStored sock' line).header
    rw [hcommand] at hcall
    dsimp only at hcall
    rw [hend] at hcall
    dsimp only at hcall
    rw [lineComplete, if_pos rfl, hheader] at hcall
    obtain ⟨hturn, hnotice⟩ := turn_of_refused hash hcall h.flag rfl
      (.inr (by decide : ACmdType.set ≠ .version))
    have hready := reset_ready ((((s.lineStored sock' line).headed .set line (n + 1) block).awaitBody
      header).setErrorApp .cmdInvalidHdr).leaveLoop h.flag
    refine ⟨_, hturn, hnotice, rfl, rfl, ?_⟩
    have hslot : (((s.lineStored sock' line).headed .set line (n + 1) block).slot 1).baseOffset =
        offset := by
      have hindex : (s.lineStored sock' line).iovIndex = 0 := h.index
      simp [headed, modify, hindex, hone]
    rw [← h.posted, ← h.received, ← hslot]
    exact hready
  | cmdInvalidDatalen => exact absurd rfl hnum

/-- The line of a set that says the length zero is refused at the call for its body. -/
theorem AtHeader.refused {c : SetInput} (hash : Bytes → UInt32) (hfirst : c.first = [])
    (hdata : c.header.datalen = 0) (h : AtHeader c posted received offset sock s) :
    ∃ t, (∀ busy, s.turn hash busy = some t) ∧ s.notice = clientError .cmdInvalidDatalen ∧
      t.closed = s.closed ∧ t.inLoop = false ∧
        Ready posted received offset sock { t with inLoop := true } := by
  have hcall : s.processDataRecv =
      some ((s.setErrorApp .cmdInvalidDatalen).setState .cmdDone, -1) := by
    unfold processDataRecv bodyWait
    rw [h.state]
    dsimp only
    rw [if_pos (h.header ▸ hdata)]
  have hflag : s.dataPendingRead = false := by rw [h.flag, hfirst]; rfl
  have hctype : s.ctype = .set := congrArg Prod.fst h.head
  obtain ⟨hturn, hnotice⟩ := turn_of_refused hash hcall hflag rfl
    (.inr (hctype ▸ by decide : s.ctype ≠ .version))
  have hready := reset_ready ((s.setErrorApp .cmdInvalidDatalen).setState .cmdDone).leaveLoop hflag
  refine ⟨_, hturn, hnotice, rfl, rfl, ?_⟩
  have hreceived := h.received
  rw [hfirst, List.append_nil] at hreceived
  rw [← h.posted, ← hreceived, ← h.offset, ← h.sock]
  exact hready

theorem Ready.version {block : Bytes} (hash : Bytes → UInt32)
    (h : Ready posted received offset sock s)
    (hcommand : setCommandType line line.length = some (some .version))
    (hend : isBufferComplete line line.length = some (line.length, block))
    (hread : sock.read cmdWaitInit = (.data line, sock')) :
    ∃ t, (∀ busy, s.turn hash busy = some t) ∧ s.notice = versionLine ∧ t.closed = s.closed ∧
      Ready posted (received ++ line) offset sock' t := by
  have hlong := length_of_setCommandType hcommand
  obtain ⟨n, hn⟩ : ∃ n, line.length = n + 1 := ⟨line.length - 1, by omega⟩
  have hone := h.slot_one sock' line
  have hcur : s.cur.len = 0 := h.len _
  rw [← h.sock] at hread
  have hcall := cmdWait_of_line (s := s) (List.ne_nil_of_length_eq_add_one hn) hread
    (by rw [hcur, Nat.zero_add, hcommand]) (by rw [hcur, Nat.zero_add, hend, hn])
  rw [lineComplete, if_neg (by decide)] at hcall
  generalize hu : ((s.lineStored sock' line).headed .version line (n + 1) block).setState .cmdDone = u
    at hcall
  have hleft : u.leftOver (n + 1) = u := by
    have hlen : u.cur.len = n + 1 := by
      subst hu
      rw [← hn]
      simp [setState, headed, lineStored, stored, took, newBlock, modify, cur, h.index, h.len]
    unfold leftOver
    rw [hlen, if_neg (lt_irrefl _)]
  rw [hleft] at hcall
  have hrecv : s.processDataRecv = some (u, ((n + 1 : ℕ) : ℤ)) := by
    unfold processDataRecv
    rw [h.state]
    exact hcall
  have hstate : u.state = .cmdDone := by
    subst hu
    rfl
  have hctype : u.ctype = .version := by
    subst hu
    rfl
  refine ⟨u.reset, fun busy => ?_, ?_, ?_, ?_⟩
  · rw [turn, hrecv, Option.bind_some]
    change u.dispose hash busy _ = _
    unfold dispose
    rw [if_pos ⟨by omega, hstate⟩, hctype]
  · rw [notice, hrecv]
    dsimp only
    rw [versionNotice, if_pos ⟨h.state, hstate, hctype⟩, errorNotice, if_neg, List.append_nil]
    omega
  · subst hu
    rfl
  · have hready := reset_ready u (by subst hu; exact h.flag)
    have hslot : (u.slot 1).baseOffset = offset := by
      subst hu
      have hindex : (s.lineStored sock' line).iovIndex = 0 := h.index
      simp [setState, headed, modify, hindex, hone]
    have hin : u.reset.inLoop = true := by
      subst hu
      exact h.inLoop
    rw [hslot, eq_of_inLoop hin] at hready
    subst hu
    rw [← h.posted, ← h.received]
    exact hready

theorem Ready.pause (hash : Bytes → UInt32) (h : Ready posted received offset sock s)
    (hread : sock.read cmdWaitInit = (.failed .eagain, sock')) :
    ∃ t, (∀ busy, s.turn hash busy = some t) ∧ s.notice = [] ∧ t.closed = s.closed ∧
      t.inLoop = false ∧ Ready posted received offset sock' { t with inLoop := true } := by
  have hcall : s.processDataRecv = some (s.newBlock.readFailed sock' .eagain, -1) := by
    unfold processDataRecv cmdWait
    rw [h.state, h.sock, hread]
  have hflag : (s.newBlock.readFailed sock' .eagain).dataPendingRead = false := h.flag
  refine ⟨(s.newBlock.readFailed sock' .eagain).leaveLoop, fun busy => ?_, ?_, rfl, rfl, ?_⟩
  · rw [turn, hcall, Option.bind_some]
    change Conn.dispose hash busy _ (-1) = _
    rw [dispose_of_left (by decide) hflag]
    rfl
  · rw [notice, hcall]
    dsimp only
    rw [versionNotice, if_neg, errorNotice]
    · split
      · rfl
      · rfl
    · rintro ⟨-, hdone, -⟩
      cases h.state.symm.trans hdone
  · have hslot (i : ℕ) : ((s.newBlock.readFailed sock' .eagain).slot i).len = 0 := by
      by_cases hi : i = 0
      · simp [readFailed, setErrorSys, newBlock, modify, h.index, h.len, hi]
      · simp [readFailed, setErrorSys, newBlock, modify, h.index, h.len, hi]
    constructor
    · rfl
    · exact h.state
    · exact hflag
    · exact h.index
    · exact hslot
    · simp [leaveLoop, readFailed, setErrorSys, newBlock, modify, h.index, h.part]
    · simp [leaveLoop, readFailed, setErrorSys, newBlock, modify, h.index, h.offset]
    · exact h.posted
    · exact h.received
    · rfl

/-! ## Sets -/

section Set

variable {c : SetInput} {reads : List ReadResult} {g : Bytes} {p : Conn} {used : Bool}

theorem Filling.last_turn (hash : Bytes → UInt32)
    (h : Filling c posted received offset m ⟨.data g :: reads⟩ p)
    (hcall : s.processDataRecv = p.bodyRead m (c.body.length - m)) (hg : g ≠ [])
    (hend : c.body.drop m = g) (hshort : c.body.length < 2 ^ 31) :
    ∃ t, (∀ busy, s.turn hash busy = some t) ∧
      Ready (posted ++ [c.posted hash]) (received ++ c.body) offset ⟨reads⟩ t := by
  have hpos := List.length_pos_of_ne_nil hg
  have hlen := congrArg List.length hend
  rw [List.length_drop] at hlen
  have hread : (⟨.data g :: reads⟩ : Sock).read (c.body.length - m) = (.data g, ⟨reads⟩) :=
    read_of_data hg (by omega)
  have hfront : g <+: c.body.drop m := by rw [hend]
  have hq := h.receive ⟨reads⟩ (by omega) hfront
  rw [h.bodyRead hg (by omega) (by omega) hread] at hcall
  rw [show m + g.length = c.body.length by omega] at hq
  exact hq.turn_complete hash hcall (by omega) hshort

/-- A set is handed on, and the workers' bytes are all that it leads to. -/
theorem AtHeader.handlesAll (hc : c.WellFormed) (hdata : 0 < c.header.datalen)
    (hshort : c.body.length < 2 ^ 31) (htwo : c.pieces.length ≤ 2)
    (hunused : c.pieces.length = 2 → used = false) (hoffset : offset < 2 ^ 31)
    (hused : offset = 0 ↔ used = false)
    (h : AtHeader c posted received offset ⟨c.pieces.map .data ++ reads⟩ s)
    (hopen : s.closed = false)
    (hs : ∀ t : Conn, t.closed = false → t.posted = posted → ∃ n, Handled hash rs n ⟨t, sent⟩)
    (hnext : ∀ t received' offset', t.closed = false → offset' < 2 ^ 31 →
      (offset' = 0 ↔ (used || c.pieces.length = 2) = false) →
      Ready (posted ++ [c.posted hash]) received' offset' ⟨reads⟩ t →
        HandlesAll hash rs ⟨t, sent⟩) : HandlesAll hash rs ⟨s, sent⟩ := by
  have hle : c.first.length ≤ c.body.length := by simp [SetInput.body]
  have hsize := hc.size
  obtain ⟨p, hprep, hp⟩ := h.prepare hc (by omega)
  have hcall := processDataRecv_of_body h.state (by rw [h.header]; omega) hprep
  have hflat : c.body.drop c.first.length = c.pieces.flatten := List.drop_left
  -- the turn that completes the body, from any state in it
  have hlast {u t : Conn} {received' : Bytes} {offset' : ℕ} (hu : u.closed = false)
      (huin : u.inLoop = true) (huposted : u.posted = posted)
      (hturn : ∀ busy, u.turn hash busy = some t) (hoffset' : offset' < 2 ^ 31)
      (hused' : offset' = 0 ↔ (used || c.pieces.length = 2) = false)
      (ht : Ready (posted ++ [c.posted hash]) received' offset' ⟨reads⟩ t) :
      HandlesAll hash rs ⟨u, sent⟩ := by
    have hnotice := notice_of_turn (hturn false) ht.inLoop (.inl (by simp [ht.posted, huposted]))
    refine handlesAll_of_turn hu huin hturn (hs u hu huposted) ?_
    rw [hnotice, List.append_nil]
    exact hnext t received' offset' (turn_closed (hturn false) ht.inLoop hu) hoffset' hused' ht
  cases hpieces : c.pieces with
  | nil =>
    rw [hpieces] at hflat hp
    have hend : c.first.length = c.body.length := by
      have := List.drop_eq_nil_iff.mp hflat
      omega
    rw [hend] at hp hcall
    rw [Nat.sub_self, bodyRead, if_pos rfl] at hcall
    obtain ⟨t, hturn, hready⟩ := hp.turn_complete hash hcall (by omega) hshort
    exact hlast hopen h.inLoop h.posted hturn hoffset (by simpa [hpieces] using hused) hready
  | cons g rest =>
    cases rest with
    | nil =>
      have hg := hc.pieces_ne g (hpieces ▸ List.mem_singleton_self g)
      rw [hpieces] at hflat hp
      rw [List.flatten_singleton] at hflat
      obtain ⟨t, hturn, hready⟩ := hp.last_turn hash hcall hg hflat hshort
      exact hlast hopen h.inLoop h.posted hturn hoffset (by simpa [hpieces] using hused) hready
    | cons g' rest =>
      cases rest with
      | nil =>
        have hzero : offset = 0 := hused.mpr (hunused (by rw [hpieces]; rfl))
        have hg := hc.pieces_ne g (by simp [hpieces])
        have hg' := hc.pieces_ne g' (by simp [hpieces])
        have hgpos := List.length_pos_of_ne_nil hg
        have hgpos' := List.length_pos_of_ne_nil hg'
        rw [hpieces] at hflat hp
        have hsplit : c.body.drop c.first.length = g ++ g' := by simpa using hflat
        have hlen := congrArg List.length hsplit
        rw [List.length_drop, List.length_append] at hlen
        have hrest : c.body.drop (c.first.length + g.length) = g' := by
          rw [← List.drop_drop, hsplit, List.drop_left]
        have hread : (⟨.data g :: ([g'].map .data ++ reads)⟩ : Sock).read
            (c.body.length - c.first.length) = (.data g, ⟨[g'].map .data ++ reads⟩) :=
          read_of_data hg (by omega)
        rw [hp.bodyRead hg (by omega) (by omega) hread] at hcall
        have hq := hp.receive ⟨[g'].map .data ++ reads⟩ hle (hsplit ▸ List.prefix_append _ _)
        obtain ⟨t, hturn, hpart, ht⟩ := hq.turn_part hash hcall (by omega) (by omega) (by omega)
        have htopen := turn_closed (hturn false) ht.inLoop hopen
        have htctype : t.ctype = .set := congrArg Prod.fst ht.head
        have hnotice := notice_of_turn (hturn false) ht.inLoop (.inr (by rw [htctype]; decide))
        -- the offset is right for the second piece, as no body before has moved it
        rw [hzero, Nat.zero_add, Nat.mod_eq_of_lt (by omega)] at ht
        have hprep' := ht.prepare_part hpart
        rw [← hsize, sub32_of_le (by omega) (by omega)] at hprep'
        have hcall' := processDataRecv_of_body ht.state (by rw [ht.header]; omega) hprep'
        obtain ⟨v, hturn', hready⟩ := ht.last_turn hash hcall' hg' hrest hshort
        refine handlesAll_of_turn hopen h.inLoop hturn (hs s hopen h.posted) ?_
        rw [hnotice, List.append_nil]
        exact hlast htopen ht.inLoop ht.posted hturn' (by omega)
          (iff_of_false (by omega) (by simp [hpieces])) hready
      | cons _ _ =>
        rw [hpieces] at htwo
        simp at htwo

end Set

end Conn

/-! ## All requests -/

/-- The requests `done` were handled, and the connection is ready for `rest`. -/
structure Resting (hash : Bytes → UInt32) (done rest : List Request) (used : Bool) (s : Talk) :
    Prop where
  isOpen : s.conn.closed = false
  contents : s.conn.contents = done.flatMap (Request.posted hash)
  sent : s.sent = done.flatMap Request.notice
  ready : ∃ posted received offset,
    Conn.Ready posted received offset ⟨rest.flatMap Request.reads⟩ { s.conn with inLoop := true } ∧
      offset < 2 ^ 31 ∧ (offset = 0 ↔ used = false)

namespace Resting

variable {hash : Bytes → UInt32} {done rest : List Request} {r : Request} {used used' : Bool}
  {s t : Talk} {posted : List Posted} {received : Bytes} {offset : ℕ}

theorem handled (h : Resting hash done rest used s) :
    Handled hash (done ++ rest) done.length s := by
  refine ⟨h.isOpen, ?_, ?_⟩
  · rw [h.contents, List.take_left]
  · rw [h.sent, List.take_left]

theorem next (h : Resting hash done (r :: rest) used s) (hopen : t.conn.closed = false)
    (hcontents : t.conn.contents = s.conn.contents ++ r.posted hash)
    (hsent : t.sent = s.sent ++ r.notice)
    (hready : Conn.Ready posted received offset ⟨rest.flatMap Request.reads⟩
      { t.conn with inLoop := true }) (hoffset : offset < 2 ^ 31)
    (hused : offset = 0 ↔ used' = false) : Resting hash (done ++ [r]) rest used' t where
  isOpen := hopen
  contents := by rw [hcontents, h.contents, List.flatMap_append, List.flatMap_singleton]
  sent := by rw [hsent, h.sent, List.flatMap_append, List.flatMap_singleton]
  ready := ⟨_, _, _, hready, hoffset, hused⟩

theorem step_last (h : Resting hash done [] used s) {a : RecvAct} (hquiet : a.Quiet)
    (hstep : talkStep hash s a = some t) : Resting hash done [] used t := by
  obtain ⟨posted, received, offset, hready, hoffset, hused⟩ := h.ready
  obtain ⟨u, hu, rfl⟩ := Option.map_eq_some_iff.mp hstep
  cases a with
  | callback reqCount replyCount =>
    obtain ⟨-, rfl⟩ := recvStep_callback.mp hu
    rw [Conn.enter_of_idle hquiet]
    exact ⟨h.isOpen, h.contents, h.sent, _, _, _, hready, hoffset, hused⟩
  | turn busy =>
    obtain ⟨⟨-, hin⟩, hu⟩ := recvStep_turn.mp hu
    rw [Conn.eq_of_inLoop hin] at hready
    obtain ⟨v, hturn, hnotice, hclosed, -, hv⟩ := hready.pause hash rfl
    obtain rfl := Option.some.inj (hu.symm.trans (hturn busy))
    refine ⟨hclosed.trans h.isOpen, ?_, ?_, _, _, _, hv, hoffset, hused⟩
    · rw [← h.contents, Conn.contents, Conn.contents, hready.posted]
      exact congrArg (List.map Posted.content) hv.posted
    · rw [← h.sent, hnotice, List.append_nil]

theorem handlesAll_cons {rs : List Request} {k : Conn} {sent : Bytes} (hrs : done ++ r :: rest = rs)
    (h : Resting hash done (r :: rest) used ⟨k, sent⟩) (hin : k.inLoop = true) (hr : r.WellFormed)
    (hfits : Fits used ((r :: rest).filterMap Request.set?))
    (hnext : ∀ used' t, Resting hash (done ++ [r]) rest used' t →
      Fits used' (rest.filterMap Request.set?) → HandlesAll hash rs t) :
    HandlesAll hash rs ⟨k, sent⟩ := by
  obtain ⟨posted, received, offset, hready, hoffset, hused⟩ := h.ready
  rw [Conn.eq_of_inLoop hin, List.flatMap_cons] at hready
  have hopen : k.closed = false := h.isOpen
  have hhere : ∃ n, Handled hash rs n ⟨k, sent⟩ := ⟨_, hrs ▸ h.handled⟩
  have hposted : k.contents = posted.map Posted.content := congrArg _ hready.posted
  -- a turn with which the request is handled
  have hdone {t t' : Conn} {posted' : List Posted} {received' : Bytes}
      (hturn : ∀ busy, k.turn hash busy = some t) (hnotice : k.notice = r.notice)
      (htopen : t.closed = false) (hsame : { t with inLoop := true } = t')
      (ht : Conn.Ready posted' received' offset ⟨rest.flatMap Request.reads⟩ t')
      (hcontents : posted'.map Posted.content = posted.map Posted.content ++ r.posted hash)
      (hset : r.set? = none) : HandlesAll hash rs ⟨k, sent⟩ := by
    rw [List.filterMap_cons_none hset] at hfits
    subst hsame
    refine Conn.handlesAll_of_turn hopen hin hturn hhere (hnext used _ ?_ hfits)
    refine h.next htopen ?_ (congrArg _ hnotice) ht hoffset hused
    exact (congrArg (List.map Posted.content) ht.posted).trans (hcontents.trans (hposted ▸ rfl))
  cases r with
  | set c =>
    have hc : c.WellFormed := hr
    obtain ⟨⟨hdata, hshort, htwo, hunused⟩, hfits⟩ :
        (0 < c.header.datalen ∧ c.body.length < 2 ^ 31 ∧ c.pieces.length ≤ 2 ∧
          (c.pieces.length = 2 → used = false)) ∧
        Fits (used || c.pieces.length = 2) (rest.filterMap Request.set?) := hfits
    obtain ⟨n, hn⟩ := hc.lineRead.line_pos
    have hline : c.line ++ c.first ≠ [] :=
      List.append_ne_nil_of_left_ne_nil (List.ne_nil_of_length_eq_add_one hn) _
    obtain ⟨t, hturn, ht⟩ := hready.header hash hc.lineRead (read_of_data hline hc.fits)
    have htctype : t.ctype = .set := congrArg Prod.fst ht.head
    have hnotice := Conn.notice_of_turn (hturn false) ht.inLoop (.inr (by rw [htctype]; decide))
    have htopen := Conn.turn_closed (hturn false) ht.inLoop hopen
    refine Conn.handlesAll_of_turn hopen hin hturn hhere ?_
    rw [hnotice, List.append_nil]
    refine ht.handlesAll hc hdata hshort htwo hunused hoffset hused htopen ?_ ?_
    · intro u hu huposted
      obtain ⟨n, -, hcontents, hsent⟩ := hhere
      refine ⟨n, hu, ?_, hsent⟩
      rw [← hcontents]
      exact (congrArg (List.map Posted.content) huposted).trans hposted.symm
    · intro u received' offset' hu hoffset' hused' hready'
      have hagain : Conn.Ready (posted ++ [c.posted hash]) received' offset'
          ⟨rest.flatMap Request.reads⟩ { u with inLoop := true } := by
        rwa [Conn.eq_of_inLoop hready'.inLoop]
      refine hnext _ _ (h.next hu ?_ (List.append_nil _).symm hagain hoffset' hused') hfits
      refine (congrArg (List.map Posted.content) hready'.posted).trans ?_
      rw [List.map_append]
      exact congrArg₂ _ hposted.symm rfl
  | get keys =>
    have hline : (Command.get keys).line ≠ [] :=
      List.ne_nil_of_length_pos (Nat.zero_lt_of_lt hr.line_length)
    obtain ⟨x, t, hx, hturn, ht⟩ := hready.get hash hr rfl (read_of_data hline hr.2.le)
    have hnotice := Conn.notice_of_turn (hturn false) ht.inLoop
      (.inl (by simp [ht.posted, hready.posted]))
    refine hdone hturn hnotice (Conn.turn_closed (hturn false) ht.inLoop hopen)
      (Conn.eq_of_inLoop ht.inLoop) ht ?_ rfl
    rw [List.map_append, List.map_singleton, hx]
    rfl
  | version line =>
    obtain ⟨hlen, hcommand, block, hend⟩ := hr
    have hlong := length_of_setCommandType hcommand
    have hline : line ≠ [] := List.ne_nil_of_length_pos (Nat.zero_lt_of_lt hlong)
    obtain ⟨t, hturn, hnotice, hclosed, ht⟩ :=
      hready.version hash hcommand hend (read_of_data hline hlen)
    exact hdone hturn hnotice (hclosed.trans hopen) (Conn.eq_of_inLoop ht.inLoop) ht
      (List.append_nil _).symm rfl
  | refused line num =>
    obtain ⟨hline, hlen, hrefuses⟩ := hr
    by_cases hnum : num = .cmdInvalidDatalen
    · subst hnum
      obtain ⟨header, hread, hzero⟩ := hrefuses
      have hgot : (⟨.data line :: rest.flatMap Request.reads⟩ : Sock).read cmdWaitInit =
          (.data (line ++ []), ⟨rest.flatMap Request.reads⟩) := by
        rw [List.append_nil]
        exact read_of_data hline hlen
      obtain ⟨t, hturn, ht⟩ := hready.header hash hread hgot
      have htctype : t.ctype = .set := congrArg Prod.fst ht.head
      have hnotice := Conn.notice_of_turn (hturn false) ht.inLoop (.inr (by rw [htctype]; decide))
      have htopen := Conn.turn_closed (hturn false) ht.inLoop hopen
      obtain ⟨u, hturn', hnotice', hclosed, -, hu⟩ := ht.refused hash rfl hzero
      have hthere : ∃ n, Handled hash rs n ⟨t, sent⟩ := by
        obtain ⟨n, -, hcontents, hsent⟩ := hhere
        refine ⟨n, htopen, ?_, hsent⟩
        rw [← hcontents]
        exact (congrArg (List.map Posted.content) ht.posted).trans hposted.symm
      refine Conn.handlesAll_of_turn hopen hin hturn hhere ?_
      rw [hnotice, List.append_nil]
      refine Conn.handlesAll_of_turn htopen ht.inLoop hturn' hthere ?_
      rw [hnotice']
      refine hnext used _ (h.next (hclosed.trans htopen) ?_ rfl hu hoffset hused) hfits
      refine (congrArg (List.map Posted.content) hu.posted).trans (hposted.symm.trans ?_)
      exact (List.append_nil _).symm
    · obtain ⟨t, hturn, hnotice, hclosed, -, ht⟩ :=
        hready.refused hash hnum hline hrefuses (read_of_data hline hlen)
      exact hdone hturn hnotice (hclosed.trans hopen) rfl ht (List.append_nil _).symm rfl
  | pause =>
    obtain ⟨t, hturn, hnotice, hclosed, -, ht⟩ := hready.pause hash rfl
    exact hdone hturn hnotice (hclosed.trans hopen) rfl ht (List.append_nil _).symm rfl

theorem handlesAll (h : Resting hash done rest used s) (hwf : ∀ r ∈ rest, r.WellFormed)
    (hfits : Fits used (rest.filterMap Request.set?)) : HandlesAll hash (done ++ rest) s := by
  induction rest generalizing done used s with
  | nil =>
    refine attains_of_invariant (fun s a t (hs : Resting hash done [] used s) hquiet hstep =>
      hs.step_last hquiet hstep) (fun s hs => ⟨⟨_, hs.handled⟩, ?_⟩) h
    have hall := hs.handled
    rwa [List.append_nil] at hall ⊢
  | cons r rest ih =>
    obtain ⟨hr, hrest⟩ := List.forall_mem_cons.mp hwf
    have hnext : ∀ used' t, Resting hash (done ++ [r]) rest used' t →
        Fits used' (rest.filterMap Request.set?) → HandlesAll hash (done ++ r :: rest) t := by
      intro used' t ht hfits'
      have hall := ih ht hrest hfits'
      rwa [List.append_assoc, List.singleton_append] at hall
    obtain ⟨k, sent⟩ := s
    cases hin : k.inLoop with
    | true => exact handlesAll_cons rfl h hin hr hfits hnext
    | false =>
      refine Conn.handlesAll_of_callback h.isOpen hin ⟨_, h.handled⟩ ?_
      have hentered : Resting hash done (r :: rest) used ⟨{ k with inLoop := true }, sent⟩ :=
        ⟨h.isOpen, h.contents, h.sent, h.ready⟩
      exact handlesAll_cons rfl hentered rfl hr hfits hnext

end Resting

end Acached.Receive
