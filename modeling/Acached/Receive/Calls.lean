import Acached.Receive.Connection

/-! # What a call does

One constructor for every way through `ProcessDataRecv`, and one for every way
in which the loop of `commRead_cb` deals with its result. The facts about
single calls are read off these.
-/
namespace Acached.Receive
open CString Dispatch

/-! ## Reads -/

theorem read_of_spent {sock : Sock} (h : sock.Spent) (n : ℕ) :
    (∀ x b, (sock.read n).1 ≠ .data (x :: b)) ∧ (sock.read n).2 = sock := by
  obtain ⟨results⟩ := sock
  unfold Sock.Spent at h
  split at h
  · next heq =>
    subst heq
    exact ⟨by simp [Sock.read], rfl⟩
  · next heq =>
    subst heq
    exact ⟨by simp [Sock.read], rfl⟩
  · exact absurd h id

theorem noBytes_of_not_waiting {sock : Sock} (h : ¬ sock.Waiting) (n : ℕ) (x : UInt8) (b : Bytes) :
    (sock.read n).1 ≠ .data (x :: b) := by
  unfold Sock.read
  split
  · simp
  · simp
  · simp
  · next y c rest heq => exact absurd ⟨y, c, rest, heq⟩ h

theorem read_of_waiting {sock : Sock} {x : UInt8} {b : Bytes} {rest : List ReadResult}
    (hsock : sock.results = .data (x :: b) :: rest) {n : ℕ} (hn : 0 < n) :
    ∃ y c sock', sock.read n = (.data (y :: c), sock') := by
  obtain ⟨m, rfl⟩ := Nat.exists_eq_add_of_lt hn
  unfold Sock.read
  rw [hsock]
  dsimp only
  split
  · exact ⟨_, _, _, rfl⟩
  · exact ⟨x, b.take (0 + m), _, rfl⟩

theorem read_length_le {sock : Sock} {n : ℕ} {b : Bytes} (h : (sock.read n).1 = .data b) :
    b.length ≤ n := by
  unfold Sock.read at h
  split at h
  · cases h
  · cases h
  · cases h
    exact Nat.zero_le n
  · split at h
    · cases h
      simpa using ‹_›
    · cases h
      rw [List.length_take]
      exact Nat.min_le_left _ _

namespace Conn

/-- The bytes that the socket gives for a body, if the read of `len` bytes succeeds. -/
def bodyGot (s : Conn) (len : ℕ) : Option ℕ :=
  if len = 0 then some 0
  else if 2 ^ 31 ≤ len then none
  else match (s.sock.read len).1 with
    | .data (b :: buf) => some (b :: buf).length
    | _ => none

def lineStored (s : Conn) (sock : Sock) (buf : Bytes) : Conn :=
  (s.newBlock.took sock buf).stored buf

inductive Call (s : Conn) : Conn → ℤ → Prop
  | lineFailed {e sock} (hstate : s.state = .cmdWait)
    (hread : s.sock.read cmdWaitInit = (.failed e, sock)) : Call s (s.newBlock.readFailed sock e) (-1)
  | lineEnd {sock} (hstate : s.state = .cmdWait)
    (hread : s.sock.read cmdWaitInit = (.data [], sock)) : Call s (s.newBlock.streamEnded sock) 0
  | unknown {b buf sock} (hstate : s.state = .cmdWait)
    (hread : s.sock.read cmdWaitInit = (.data (b :: buf), sock))
    (hcommand : setCommandType (b :: buf) (s.lineStored sock (b :: buf)).cur.len = some none) :
    Call s ((s.lineStored sock (b :: buf)).setErrorApp .cmdInvalid) (-1)
  | headerRefused {b buf sock n block header} (hstate : s.state = .cmdWait)
    (hread : s.sock.read cmdWaitInit = (.data (b :: buf), sock))
    (hcommand : setCommandType (b :: buf) (s.lineStored sock (b :: buf)).cur.len = some (some .set))
    (hline : isBufferComplete (b :: buf) (s.lineStored sock (b :: buf)).cur.len = some (n + 1, block))
    (hheader : processHeader s.header block = some (false, header)) :
    Call s ((((s.lineStored sock (b :: buf)).headed .set (b :: buf) (n + 1) block).awaitBody
      header).setErrorApp .cmdInvalidHdr) (-1)
  | header {b buf sock n block header} (hstate : s.state = .cmdWait)
    (hread : s.sock.read cmdWaitInit = (.data (b :: buf), sock))
    (hcommand : setCommandType (b :: buf) (s.lineStored sock (b :: buf)).cur.len = some (some .set))
    (hline : isBufferComplete (b :: buf) (s.lineStored sock (b :: buf)).cur.len = some (n + 1, block))
    (hheader : processHeader s.header block = some (true, header)) :
    Call s ((((s.lineStored sock (b :: buf)).headed .set (b :: buf) (n + 1) block).awaitBody
      header).leftOver (n + 1)) ((n + 1 : ℕ) : ℤ)
  | command {b buf sock ctype n block} (hstate : s.state = .cmdWait)
    (hread : s.sock.read cmdWaitInit = (.data (b :: buf), sock))
    (hcommand : setCommandType (b :: buf) (s.lineStored sock (b :: buf)).cur.len = some (some ctype))
    (hother : ctype ≠ .set)
    (hline : isBufferComplete (b :: buf) (s.lineStored sock (b :: buf)).cur.len = some (n + 1, block)) :
    Call s ((((s.lineStored sock (b :: buf)).headed ctype (b :: buf) (n + 1) block).setState
      .cmdDone).leftOver (n + 1)) ((n + 1 : ℕ) : ℤ)
  | noLength (hstate : s.state = .bodyWait) (hdata : s.header.datalen = 0) :
    Call s ((s.setErrorApp .cmdInvalidDatalen).setState .cmdDone) (-1)
  | bodyNothing {p pos t ret} (hstate : s.state = .bodyWait) (hdata : s.header.datalen ≠ 0)
    (hprep : s.bodyPrepare = some (p, pos, 0)) (hend : p.bodyEnd = (t, ret)) : Call s t ret
  | bodyTooLong {p pos len} (hstate : s.state = .bodyWait) (hdata : s.header.datalen ≠ 0)
    (hprep : s.bodyPrepare = some (p, pos, len)) (hlen : 2 ^ 31 ≤ len) :
    Call s (p.readFailed p.sock .other) (-1)
  | bodyFailed {p pos len e sock} (hstate : s.state = .bodyWait) (hdata : s.header.datalen ≠ 0)
    (hprep : s.bodyPrepare = some (p, pos, len)) (hpos : 0 < len) (hlen : len < 2 ^ 31)
    (hread : p.sock.read len = (.failed e, sock)) : Call s (p.readFailed sock e) (-1)
  | bodyStreamEnd {p pos len sock} (hstate : s.state = .bodyWait) (hdata : s.header.datalen ≠ 0)
    (hprep : s.bodyPrepare = some (p, pos, len)) (hpos : 0 < len) (hlen : len < 2 ^ 31)
    (hread : p.sock.read len = (.data [], sock)) : Call s (p.streamEnded sock) 0
  | bodyBytes {p pos len b buf sock t ret} (hstate : s.state = .bodyWait) (hdata : s.header.datalen ≠ 0)
    (hprep : s.bodyPrepare = some (p, pos, len)) (hpos : 0 < len) (hlen : len < 2 ^ 31)
    (hread : p.sock.read len = (.data (b :: buf), sock))
    (hroom : pos + (b :: buf).length ≤ p.cur.allocSize)
    (hend : ((p.took sock (b :: buf)).filled pos (b :: buf)).bodyEnd = (t, ret)) : Call s t ret

theorem call_of_cmdWait {s t : Conn} {ret : ℤ} (hstate : s.state = .cmdWait)
    (h : s.cmdWait = some (t, ret)) : Call s t ret := by
  unfold cmdWait at h
  split at h
  · next e sock hread =>
    cases h
    exact .lineFailed hstate hread
  · next sock hread =>
    cases h
    exact .lineEnd hstate hread
  · next b buf sock hread =>
    change (s.lineStored sock (b :: buf)).lineRead (b :: buf) = _ at h
    unfold lineRead at h
    split at h
    · cases h
    · next hcommand =>
      cases h
      exact .unknown hstate hread hcommand
    · next ctype hcommand =>
      split at h
      · cases h
      · cases h
      · next n block hline =>
        unfold lineComplete at h
        split at h
        · next hset =>
          subst hset
          split at h
          · cases h
          · next header hheader =>
            cases h
            exact .headerRefused hstate hread hcommand hline hheader
          · next header hheader =>
            cases h
            exact .header hstate hread hcommand hline hheader
        · next hother =>
          cases h
          exact .command hstate hread hcommand hother hline

theorem call_of_bodyWait {s t : Conn} {ret : ℤ} (hstate : s.state = .bodyWait)
    (h : s.bodyWait = some (t, ret)) : Call s t ret := by
  unfold bodyWait at h
  split at h
  · next hdata =>
    cases h
    exact .noLength hstate hdata
  · next hdata =>
    obtain ⟨⟨p, pos, len⟩, hprep, hread⟩ := Option.bind_eq_some_iff.mp h
    change p.bodyRead pos len = _ at hread
    unfold bodyRead at hread
    split at hread
    · next hzero =>
      subst hzero
      exact .bodyNothing hstate hdata hprep (Option.some.inj hread)
    split at hread
    · next hlen =>
      cases hread
      exact .bodyTooLong hstate hdata hprep hlen
    next hpos hlen =>
    have hpos := Nat.pos_of_ne_zero hpos
    have hlen := Nat.lt_of_not_le hlen
    split at hread
    · next hgot =>
      cases hread
      exact .bodyFailed hstate hdata hprep hpos hlen hgot
    · next hgot =>
      cases hread
      exact .bodyStreamEnd hstate hdata hprep hpos hlen hgot
    · next hgot =>
      split at hread
      · cases hread
      · next hroom =>
        exact .bodyBytes hstate hdata hprep hpos hlen hgot (Nat.le_of_not_lt hroom)
          (Option.some.inj hread)

theorem call_of_processDataRecv {s t : Conn} {ret : ℤ} (h : s.processDataRecv = some (t, ret)) :
    Call s t ret := by
  unfold processDataRecv at h
  split at h
  · next hstate => exact call_of_cmdWait hstate h
  · next hstate => exact call_of_bodyWait hstate h
  · cases h
  · cases h

/-- What the loop makes of the connection `s` that a call has left with the result `ret`. -/
inductive Disposed (hash : Bytes → UInt32) (busy : Bool) (s : Conn) (ret : ℤ) : Conn → Prop
  | posted {t} (hret : 0 < ret) (hstate : s.state = .cmdDone)
    (hctype : s.ctype = .set ∨ s.ctype = .gets) (hpost : s.post hash = some t) :
    Disposed hash busy s ret t.reset
  | quit {t} (hret : 0 < ret) (hstate : s.state = .cmdDone) (hctype : s.ctype = .quit)
    (hpost : s.post hash = some t) :
    Disposed hash busy s ret (if busy then t.leaveLoop else t.closeConnection)
  | ignored (hret : 0 < ret) (hstate : s.state = .cmdDone)
    (hctype : s.ctype ≠ .set ∧ s.ctype ≠ .gets ∧ s.ctype ≠ .quit) : Disposed hash busy s ret s.reset
  | again (hgo : 0 < ret ∨ s.dataPendingRead = true) (hnot : ¬ (0 < ret ∧ s.state = .cmdDone)) :
    Disposed hash busy s ret s
  | left (hret : ret ≤ 0) (hflag : s.dataPendingRead = false) :
    Disposed hash busy s ret (s.leave ret)

theorem disposed_of_dispose {hash : Bytes → UInt32} {busy : Bool} {s t : Conn} {ret : ℤ}
    (h : s.dispose hash busy ret = some t) : Disposed hash busy s ret t := by
  unfold dispose at h
  split at h
  · next hdone =>
    split at h
    · next hctype =>
      obtain ⟨u, hu, rfl⟩ := Option.map_eq_some_iff.mp h
      exact .posted hdone.1 hdone.2 (.inl hctype) hu
    · next hctype =>
      obtain ⟨u, hu, rfl⟩ := Option.map_eq_some_iff.mp h
      exact .posted hdone.1 hdone.2 (.inr hctype) hu
    · next hctype =>
      obtain ⟨u, hu, rfl⟩ := Option.map_eq_some_iff.mp h
      exact .quit hdone.1 hdone.2 hctype hu
    · next hset hgets hquit =>
      cases h
      exact .ignored hdone.1 hdone.2 ⟨hset, hgets, hquit⟩
  next hnot =>
  split at h
  · next hgo =>
    cases h
    exact .again hgo hnot
  · next hleave =>
    cases h
    simp only [not_or, Int.not_lt, Bool.not_eq_true] at hleave
    exact .left hleave.1 hleave.2

theorem turn_cases {hash : Bytes → UInt32} {busy : Bool} {s t : Conn}
    (h : s.turn hash busy = some t) :
    ∃ u ret, Call s u ret ∧ Disposed hash busy u ret t := by
  obtain ⟨⟨u, ret⟩, hcall, hdispose⟩ := Option.bind_eq_some_iff.mp h
  exact ⟨u, ret, call_of_processDataRecv hcall, disposed_of_dispose hdispose⟩

/-! ## What calls and turns leave alone -/

def delivered (s : Conn) : Bytes × List Posted := (s.received, s.posted)

/-- The fields that no call of `ProcessDataRecv` changes. -/
def aside (s : Conn) : Bool × Bool × List Posted × Bytes := (s.closed, s.inLoop, s.posted, s.dropped)

/-- Where the first call for a body has a defined outcome. -/
theorem bodyFirst_isSome (s : Conn) : s.bodyFirst.isSome = true ↔
    s.iovIndex + 1 < iovReqSize ∧ (s.dataPendingRead = true →
      s.cur.baseOffset + min s.pending s.bodySize ≤ s.cur.allocSize) := by
  unfold bodyFirst
  split_ifs <;> simp_all

theorem bodyPrepare_aside {s p : Conn} {pos len : ℕ} (h : s.bodyPrepare = some (p, pos, len)) :
    p.aside = s.aside := by
  unfold bodyPrepare bodyFirst at h
  repeat' split at h
  all_goals cases h
  all_goals rfl

/-- A call at a block that holds part of a body is only defined without left-over bytes. -/
theorem of_bodyPrepare_part {s p : Conn} {pos len : ℕ} (hpart : s.cur.bodyPart = true)
    (h : s.bodyPrepare = some (p, pos, len)) :
    s.dataPendingRead = false ∧ p = s ∧ pos = s.cur.baseOffset ∧ len = s.bodyRest := by
  rw [bodyPrepare, if_pos hpart] at h
  split at h
  · cases h
  next hflag =>
  simp only [Option.some.injEq, Prod.mk.injEq] at h
  exact ⟨by simpa using hflag, h.1.symm, h.2.1.symm, h.2.2.symm⟩

/-- Preparing the read of a body changes nothing but the slots, `iovIndex` and `dataPendingRead`. -/
theorem bodyPrepare_frame {s p : Conn} {pos len : ℕ} (h : s.bodyPrepare = some (p, pos, len)) :
    p.state = s.state ∧ p.refused = s.refused ∧ p.header = s.header ∧ p.sock = s.sock ∧
      p.received = s.received ∧ p.line = s.line := by
  unfold bodyPrepare bodyFirst at h
  repeat' split at h
  all_goals cases h
  all_goals exact ⟨rfl, rfl, rfl, rfl, rfl, rfl⟩

theorem leftOver_aside (s : Conn) (n : ℕ) : (s.leftOver n).aside = s.aside := by
  unfold leftOver
  split <;> rfl

theorem bodyEnd_aside {s t : Conn} {ret : ℤ} (h : s.bodyEnd = (t, ret)) : t.aside = s.aside := by
  unfold bodyEnd at h
  split at h <;> simp only [Prod.mk.injEq] at h <;> rw [← h.1] <;> rfl

theorem Call.aside {s t : Conn} {ret : ℤ} (h : Call s t ret) : t.aside = s.aside := by
  cases h with
  | lineFailed | lineEnd | unknown | headerRefused | noLength => rfl
  | header => exact leftOver_aside ..
  | command => exact leftOver_aside ..
  | bodyNothing _ _ hprep hend => exact (bodyEnd_aside hend).trans (bodyPrepare_aside hprep)
  | bodyTooLong _ _ hprep =>
    have hp := bodyPrepare_aside hprep
    exact hp
  | bodyFailed _ _ hprep =>
    have hp := bodyPrepare_aside hprep
    exact hp
  | bodyStreamEnd _ _ hprep =>
    have hp := bodyPrepare_aside hprep
    exact hp
  | bodyBytes _ _ hprep _ _ _ _ hend =>
    have hp := bodyPrepare_aside hprep
    exact (bodyEnd_aside hend).trans hp

def stream (s : Conn) : Bytes × Bytes := (s.received, s.dropped)

theorem post_stream {hash : Bytes → UInt32} {s t : Conn} (h : s.post hash = some t) :
    t.stream = s.stream := by
  unfold post at h
  repeat' split at h
  all_goals cases h
  all_goals rfl

theorem leave_stream (s : Conn) (ret : ℤ) : (s.leave ret).stream = s.stream := by
  unfold leave
  repeat' split
  all_goals rfl

theorem Disposed.stream {hash : Bytes → UInt32} {busy : Bool} {s t : Conn} {ret : ℤ}
    (h : Disposed hash busy s ret t) : t.stream = s.stream := by
  cases h with
  | posted _ _ _ hpost =>
    have ht := post_stream hpost
    exact ht
  | quit _ _ _ hpost =>
    have ht := post_stream hpost
    cases busy
    · exact ht
    · exact ht
  | ignored => rfl
  | again => rfl
  | left => exact leave_stream ..

theorem turn_dropped {hash : Bytes → UInt32} {busy : Bool} {s t : Conn}
    (h : s.turn hash busy = some t) : t.dropped = s.dropped := by
  obtain ⟨u, ret, hcall, hdisposed⟩ := turn_cases h
  have hu : u.dropped = s.dropped := congrArg (fun r => r.2.2.2) hcall.aside
  have ht : t.dropped = u.dropped := congrArg Prod.snd hdisposed.stream
  exact ht.trans hu

theorem Call.received_of_cmdWait {s t : Conn} {ret : ℤ} (h : Call s t ret)
    (hstate : s.state = .cmdWait) {b : UInt8} {buf : Bytes}
    (hread : (s.sock.read cmdWaitInit).1 = .data (b :: buf)) :
    t.received = s.received ++ b :: buf := by
  have hleft (u : Conn) (n : ℕ) : (u.leftOver n).received = u.received := by
    unfold leftOver
    split <;> rfl
  cases h with
  | lineFailed _ hgot | lineEnd _ hgot =>
    rw [hgot] at hread
    cases hread
  | unknown _ hgot | headerRefused _ hgot =>
    rw [hgot] at hread
    cases hread
    rfl
  | header _ hgot | command _ hgot =>
    rw [hgot] at hread
    cases hread
    exact hleft ..
  | noLength hbody | bodyNothing hbody | bodyTooLong hbody | bodyFailed hbody
  | bodyStreamEnd hbody | bodyBytes hbody =>
    rw [hstate] at hbody
    cases hbody

theorem leave_spec (s : Conn) (ret : ℤ) : (s.leave ret).inLoop = false ∧
    (s.leave ret).delivered = s.delivered ∧ (s.leave ret).dropped = s.dropped := by
  unfold leave
  split
  · exact ⟨rfl, rfl, rfl⟩
  split
  · split
    · exact ⟨rfl, rfl, rfl⟩
    · exact ⟨rfl, rfl, rfl⟩
  · exact ⟨rfl, rfl, rfl⟩
  · exact ⟨rfl, rfl, rfl⟩

theorem processDataRecv_of_noBytes {s : Conn} (hstate : s.state = .cmdWait)
    (hread : ∀ x b, (s.sock.read cmdWaitInit).1 ≠ .data (x :: b)) :
    ∃ u ret, s.processDataRecv = some (u, ret) ∧ ret ≤ 0 ∧ u.state = .cmdWait ∧
      u.dataPendingRead = s.dataPendingRead ∧ u.delivered = s.delivered ∧
      u.sock = (s.sock.read cmdWaitInit).2 := by
  unfold processDataRecv cmdWait
  rw [hstate]
  generalize s.sock.read cmdWaitInit = r at hread ⊢
  obtain ⟨result, sock⟩ := r
  cases result with
  | failed e => exact ⟨_, _, rfl, by decide, hstate, rfl, rfl, rfl⟩
  | data bytes =>
    cases bytes with
    | nil => exact ⟨_, _, rfl, by decide, hstate, rfl, rfl, rfl⟩
    | cons x b => exact absurd rfl (hread x b)

theorem loop_of_left (hash : Bytes → UInt32) {s : Conn} (h : s.inLoop = false)
    (busys : List Bool) : s.loop hash busys = some s := by
  cases busys with
  | nil => rfl
  | cons busy busys => simp [loop, h]

theorem loop_append (hash : Bytes → UInt32) (busys busys' : List Bool) (s : Conn) :
    s.loop hash (busys ++ busys') = (s.loop hash busys).bind fun t => t.loop hash busys' := by
  induction busys generalizing s with
  | nil => rfl
  | cons busy busys ih =>
    rw [List.cons_append, loop, loop]
    split
    · rw [Option.bind_assoc]
      exact congrArg _ (funext ih)
    · next hleft =>
      rw [Option.bind_some, loop_of_left hash (by simpa using hleft)]

theorem loop_cons {hash : Bytes → UInt32} {busy : Bool} {s : Conn} (hin : s.inLoop = true)
    (busys : List Bool) :
    s.loop hash (busy :: busys) = (s.turn hash busy).bind fun t => t.loop hash busys := by
  rw [loop, if_pos hin]

end Conn

theorem recvStep_callback {hash : Bytes → UInt32} {s t : Conn} {reqCount replyCount : ℕ} :
    recvStep hash s (.callback reqCount replyCount) = some t ↔
      (s.closed = false ∧ s.inLoop = false) ∧ s.enter reqCount replyCount = t := by
  change (if s.closed = false ∧ s.inLoop = false then _ else none) = _ ↔ _
  rw [Option.ite_none_right_eq_some, Option.some.injEq]

theorem recvStep_turn {hash : Bytes → UInt32} {s t : Conn} {busy : Bool} :
    recvStep hash s (.turn busy) = some t ↔
      (s.closed = false ∧ s.inLoop = true) ∧ s.turn hash busy = some t := by
  change (if s.closed = false ∧ s.inLoop = true then _ else none) = _ ↔ _
  rw [Option.ite_none_right_eq_some]

end Acached.Receive
