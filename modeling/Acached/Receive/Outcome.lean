import Acached.Receive.Calls

/-! # Turns with a defined outcome

When a call of `ProcessDataRecv` fails no assertion and stays within its blocks,
in terms of the connection and of what the socket gives. The assertions of
`Post2KVdata` are never the reason why a turn has no outcome.
-/
namespace Acached.Receive
open CString Dispatch Execution

namespace Conn

/-- In `cmd_wait`: the words and the end of the line are found within the bytes received, and so
are the fields of a set. -/
def LineDefined (s : Conn) : Prop :=
  match (s.sock.read cmdWaitInit).1 with
  | .data (b :: buf) =>
    match setCommandType (b :: buf) (s.cur.len + (b :: buf).length) with
    | none => False
    | some none => True
    | some (some ctype) =>
      match isBufferComplete (b :: buf) (s.cur.len + (b :: buf).length) with
      | some (_ + 1, block) => ctype = .set → (processHeader s.header block).isSome
      | _ => False
  | _ => True

/-- In `body_wait`: bytes go into a block that holds part of the body only where it has room, and
left-over bytes only into a new one, at an index that exists and from within their block. -/
def BodyDefined (s : Conn) : Prop :=
  if s.cur.bodyPart then
    s.dataPendingRead = false ∧
      ∀ n ∈ s.bodyGot s.bodyRest, n ≠ 0 → s.cur.baseOffset + n ≤ s.cur.allocSize
  else
    s.iovIndex + 1 < iovReqSize ∧
      (s.dataPendingRead = true → s.cur.baseOffset + min s.pending s.bodySize ≤ s.cur.allocSize)

/-- A call has a defined outcome: it fails no assertion, and reads and writes within its blocks. -/
def Defined (s : Conn) : Prop :=
  match s.state with
  | .cmdWait => s.LineDefined
  | .bodyWait => s.header.datalen = 0 ∨ s.BodyDefined
  | _ => False

theorem cmdWait_isSome (s : Conn) : s.cmdWait.isSome ↔ s.LineDefined := by
  unfold cmdWait LineDefined
  generalize s.sock.read cmdWaitInit = r
  obtain ⟨result, sock⟩ := r
  cases result with
  | failed e => simp
  | data bytes =>
    cases bytes with
    | nil => simp
    | cons b buf =>
      change ((s.lineStored sock (b :: buf)).lineRead (b :: buf)).isSome ↔ _
      have hlen : (s.lineStored sock (b :: buf)).cur.len = s.cur.len + (b :: buf).length := by
        simp [lineStored, stored, took, newBlock, modify, cur]
      have hheader : (s.lineStored sock (b :: buf)).header = s.header := rfl
      unfold lineRead
      rw [hlen]
      dsimp only
      cases setCommandType (b :: buf) (s.cur.len + (b :: buf).length) with
      | none => simp
      | some command =>
        cases command with
        | none => simp
        | some ctype =>
          dsimp only
          cases isBufferComplete (b :: buf) (s.cur.len + (b :: buf).length) with
          | none => simp
          | some r =>
            obtain ⟨n, block⟩ := r
            cases n with
            | zero => simp
            | succ n =>
              dsimp only
              unfold lineComplete
              rw [hheader]
              by_cases hset : ctype = .set
              · rw [if_pos hset]
                cases processHeader s.header block with
                | none => simp [hset]
                | some r =>
                  obtain ⟨ok, header⟩ := r
                  cases ok <;> simp
              · simp [hset]

theorem bodyGot_le {s : Conn} {len n : ℕ} (h : n ∈ s.bodyGot len) : n ≤ len := by
  unfold bodyGot at h
  split at h
  · cases h
    exact Nat.zero_le len
  split at h
  · cases h
  split at h
  · next b buf hread =>
    cases h
    exact read_length_le hread
  · cases h

theorem bodyRead_isSome (s : Conn) (pos len : ℕ) :
    (s.bodyRead pos len).isSome ↔ ∀ n ∈ s.bodyGot len, n ≠ 0 → pos + n ≤ s.cur.allocSize := by
  unfold bodyRead bodyGot
  split
  · simp
  split
  · simp
  generalize s.sock.read len = r
  obtain ⟨result, sock⟩ := r
  cases result with
  | failed e => simp
  | data bytes =>
    cases bytes with
    | nil => simp
    | cons b buf =>
      dsimp only
      by_cases hroom : s.cur.allocSize < pos + (b :: buf).length
      · rw [if_pos hroom]
        simpa using hroom
      · rw [if_neg hroom]
        simpa using hroom

theorem bodyFirst_room {s p : Conn} {pos len : ℕ} (h : s.bodyFirst = some (p, pos, len)) :
    pos + len ≤ p.cur.allocSize := by
  unfold bodyFirst at h
  split at h
  · cases h
  split at h
  · cases h
    simp [newBody, modify, cur]
  split at h
  · cases h
  split at h
  · cases h
    simp [newBody, modify, cur]
  · next hle =>
    cases h
    have hsize : s.copied.cur.allocSize = s.bodySize := by
      simp [copied, setPending, newBody, modify, cur]
    rw [hsize]
    omega

theorem bodyWait_isSome (s : Conn) :
    s.bodyWait.isSome ↔ s.header.datalen = 0 ∨ s.BodyDefined := by
  unfold bodyWait BodyDefined bodyPrepare
  by_cases hdata : s.header.datalen = 0
  · simp [hdata]
  rw [if_neg hdata, or_iff_right hdata]
  by_cases hpart : s.cur.bodyPart = true
  · rw [if_pos hpart, if_pos hpart]
    cases hflag : s.dataPendingRead with
    | true => simp
    | false =>
      rw [if_neg (by decide), Option.bind_some, bodyRead_isSome]
      exact (and_iff_right rfl).symm
  · rw [if_neg hpart, if_neg hpart, ← bodyFirst_isSome]
    cases hfirst : s.bodyFirst with
    | none => simp
    | some r =>
      obtain ⟨p, pos, len⟩ := r
      rw [Option.bind_some, bodyRead_isSome]
      refine iff_of_true (fun n hn _ => ?_) rfl
      have hroom := bodyFirst_room hfirst
      have hle := bodyGot_le hn
      omega

theorem processDataRecv_isSome (s : Conn) : s.processDataRecv.isSome ↔ s.Defined := by
  unfold processDataRecv Defined
  cases s.state with
  | cmdWait => exact cmdWait_isSome s
  | bodyWait => exact bodyWait_isSome s
  | hdrWait => simp
  | cmdDone => simp

/-! ## Commands are handed on without a failed assertion -/

/-- What the assertions of `Post2KVdata` rely on: a line is read into the first index, and a body
follows the header of a set in it. -/
inductive Shape (s : Conn) : Prop
  | line (hstate : s.state = .cmdWait) (hindex : s.iovIndex = 0)
  | command (hstate : s.state = .cmdDone) (hctype : s.ctype ≠ .set) (hindex : s.iovIndex = 0)
  | body (hstate : s.state = .bodyWait ∨ s.state = .cmdDone) (hctype : s.ctype = .set)
    (hindex : s.iovIndexHdr = 0) (hhdr : (s.slot 0).hdr = true)

def head (s : Conn) : ACmdType × ℕ × Bool := (s.ctype, s.iovIndexHdr, (s.slot 0).hdr)

theorem modify_head (s : Conn) (i : ℕ) {f : IovSlot → IovSlot} (hf : ∀ c, (f c).hdr = c.hdr) :
    (s.modify i f).head = s.head := by
  unfold head modify
  by_cases h : i = 0
  · subst h
    simp [hf]
  · simp [Function.update_of_ne (Ne.symm h)]

theorem setPending_head (s : Conn) (b : Bool) : (s.setPending b).head = s.head := rfl

theorem setState_head (s : Conn) (state : AConnState) : (s.setState state).head = s.head := rfl

theorem bodyPrepare_head {s p : Conn} {pos len : ℕ} (h : s.bodyPrepare = some (p, pos, len)) :
    p.head = s.head := by
  have hnew (n : ℕ) : (s.newBody n).head = s.head := by
    apply modify_head
    intro c
    rfl
  unfold bodyPrepare bodyFirst at h
  repeat' split at h
  all_goals cases h
  · rfl
  · exact hnew 0
  · rw [modify_head _ _ fun c => ?_, hnew]
    rfl
  · unfold copied
    rw [setPending_head, modify_head _ _ fun c => ?_, modify_head _ _ fun c => ?_, hnew]
    · rfl
    · rfl

theorem bodyEnd_head {s t : Conn} {ret : ℤ} (h : s.bodyEnd = (t, ret)) :
    t.head = s.head ∧ (t.state = .bodyWait ∨ t.state = .cmdDone) := by
  unfold bodyEnd at h
  split at h
  · simp only [Prod.mk.injEq] at h
    rw [← h.1, setState_head, modify_head _ _ fun c => ?_]
    · exact ⟨rfl, .inl rfl⟩
    · rfl
  · simp only [Prod.mk.injEq] at h
    rw [← h.1, setState_head, modify_head _ _ fun c => ?_]
    · exact ⟨rfl, .inr rfl⟩
    · rfl

theorem leftOver_head (s : Conn) (n : ℕ) :
    (s.leftOver n).head = s.head ∧ (s.leftOver n).state = s.state ∧
      (s.leftOver n).iovIndex = s.iovIndex := by
  unfold leftOver
  split
  · rw [setPending_head, modify_head _ _ fun c => ?_]
    · exact ⟨rfl, rfl, rfl⟩
    · rfl
  · exact ⟨rfl, rfl, rfl⟩

theorem Shape.of_head {s t : Conn} (hs : s.head = (.set, 0, true)) (ht : t.head = s.head)
    (hstate : t.state = .bodyWait ∨ t.state = .cmdDone) : Shape t := by
  have h := ht.trans hs
  simp only [head, Prod.mk.injEq] at h
  exact .body hstate h.1 h.2.1 h.2.2

theorem Shape.head_of_bodyWait {s : Conn} (h : Shape s) (hstate : s.state = .bodyWait) :
    s.head = (.set, 0, true) := by
  cases h with
  | line hst => cases hst.symm.trans hstate
  | command hst => cases hst.symm.trans hstate
  | body _ hctype hindex hhdr => simp [head, hctype, hindex, hhdr]

theorem Shape.index_of_cmdWait {s : Conn} (h : Shape s) (hstate : s.state = .cmdWait) :
    s.iovIndex = 0 := by
  cases h with
  | line _ hindex => exact hindex
  | command hst => cases hst.symm.trans hstate
  | body hst =>
    rcases hst with hst | hst
    · cases hst.symm.trans hstate
    · cases hst.symm.trans hstate

theorem headed_head {s : Conn} (hindex : s.iovIndex = 0) (sock : Sock) (buf block : Bytes) (n : ℕ) :
    ((s.lineStored sock buf).headed .set buf n block).head = (.set, 0, true) := by
  have hline : (s.lineStored sock buf).iovIndex = 0 := hindex
  simp [head, headed, modify, hline]

theorem Shape.of_call {s u : Conn} {ret : ℤ} (h : Shape s) (hcall : Call s u ret) : Shape u := by
  cases hcall with
  | lineFailed hstate => exact .line hstate (h.index_of_cmdWait hstate)
  | lineEnd hstate => exact .line hstate (h.index_of_cmdWait hstate)
  | unknown hstate => exact .line hstate (h.index_of_cmdWait hstate)
  | @headerRefused b buf sock n block header hstate =>
    exact .of_head (headed_head (h.index_of_cmdWait hstate) ..) rfl (.inl rfl)
  | @header b buf sock n block header hstate =>
    obtain ⟨hhead, hst, -⟩ := leftOver_head
      (((s.lineStored sock (b :: buf)).headed .set (b :: buf) (n + 1) block).awaitBody header) (n + 1)
    exact .of_head (headed_head (h.index_of_cmdWait hstate) ..) hhead (.inl hst)
  | @command b buf sock ctype n block hstate _ _ hother =>
    obtain ⟨hhead, hst, hindex⟩ := leftOver_head
      (((s.lineStored sock (b :: buf)).headed ctype (b :: buf) (n + 1) block).setState .cmdDone) (n + 1)
    have hctype := congrArg Prod.fst hhead
    refine .command hst ?_ (hindex.trans (h.index_of_cmdWait hstate))
    exact fun hset => hother (hctype.symm.trans hset)
  | noLength hstate =>
    exact .of_head (h.head_of_bodyWait hstate) rfl (.inr rfl)
  | bodyNothing hstate _ hprep hend =>
    obtain ⟨hhead, hst⟩ := bodyEnd_head hend
    exact .of_head (h.head_of_bodyWait hstate) (hhead.trans (bodyPrepare_head hprep)) hst
  | bodyTooLong hstate _ hprep =>
    have hhead := bodyPrepare_head hprep
    obtain ⟨hst, -⟩ := bodyPrepare_frame hprep
    exact .of_head (h.head_of_bodyWait hstate) hhead (.inl (hst.trans hstate))
  | bodyFailed hstate _ hprep =>
    have hhead := bodyPrepare_head hprep
    obtain ⟨hst, -⟩ := bodyPrepare_frame hprep
    exact .of_head (h.head_of_bodyWait hstate) hhead (.inl (hst.trans hstate))
  | bodyStreamEnd hstate _ hprep =>
    have hhead := bodyPrepare_head hprep
    obtain ⟨hst, -⟩ := bodyPrepare_frame hprep
    exact .of_head (h.head_of_bodyWait hstate) hhead (.inl (hst.trans hstate))
  | bodyBytes hstate _ hprep _ _ _ _ hend =>
    obtain ⟨hhead, hst⟩ := bodyEnd_head hend
    have hp := bodyPrepare_head hprep
    rw [filled, modify_head _ _ fun c => ?_] at hhead
    · exact .of_head (h.head_of_bodyWait hstate) (hhead.trans hp) hst
    · rfl

variable {hash : Bytes → UInt32} {busy : Bool} {s t u : Conn} {ret : ℤ}

theorem Shape.post_isSome (h : Shape s) (hctype : s.ctype = .set ∨ s.ctype = .gets ∨ s.ctype = .quit)
    (hstate : s.state = .cmdDone) : (s.post hash).isSome := by
  unfold post
  rcases hctype with hset | hgets | hquit
  · rw [hset]
    cases h with
    | line hst => cases hst.symm.trans hstate
    | command _ hctype => exact absurd hset hctype
    | body _ _ hindex hhdr =>
      rw [hindex]
      dsimp only
      rw [if_pos]
      · rfl
      · intro i hi
        obtain rfl := Nat.le_zero.mp hi
        exact .inl hhdr
  · rw [hgets]
    cases h with
    | line hst => cases hst.symm.trans hstate
    | command _ _ hindex => simp [hindex]
    | body _ hctype => cases hctype.symm.trans hgets
  · rw [hquit]
    rfl

theorem Shape.dispose_isSome (h : Shape s) : (s.dispose hash busy ret).isSome := by
  unfold dispose
  split
  · next hdone =>
    split
    · next hset => simpa using h.post_isSome (.inl hset) hdone.2
    · next hgets => simpa using h.post_isSome (.inr (.inl hgets)) hdone.2
    · next hquit => simpa using h.post_isSome (.inr (.inr hquit)) hdone.2
    · rfl
  · split <;> rfl

theorem Shape.congr (h : Shape s) (hstate : t.state = s.state) (hindex : t.iovIndex = s.iovIndex)
    (hhead : t.head = s.head) : Shape t := by
  simp only [head, Prod.mk.injEq] at hhead
  obtain ⟨hctype, hhdr, hmark⟩ := hhead
  cases h with
  | line hst hi => exact .line (hstate.trans hst) (hindex.trans hi)
  | command hst hc hi => exact .command (hstate.trans hst) (hctype ▸ hc) (hindex.trans hi)
  | body hst hc hi hm =>
    exact .body (hstate ▸ hst) (hctype.trans hc) (hhdr.trans hi) (hmark.trans hm)

theorem shape_reset (s : Conn) : Shape s.reset := .line rfl rfl

theorem Shape.of_disposed (h : Shape u) (hdisposed : Disposed hash busy u ret t) : Shape t := by
  cases hdisposed with
  | posted => exact shape_reset _
  | @quit v _ hstate hctype hpost =>
    have hindex : v.iovIndex = 0 ∧ v.state = .cmdWait := by
      unfold post at hpost
      rw [hctype] at hpost
      obtain rfl := Option.some.inj hpost
      cases h with
      | line hst => cases hst.symm.trans hstate
      | command _ _ hindex => exact ⟨hindex, rfl⟩
      | body _ hset => cases hset.symm.trans hctype
    cases busy with
    | true => exact .line hindex.2 hindex.1
    | false => exact shape_reset _
  | ignored => exact shape_reset _
  | again => exact h
  | left =>
    unfold leave
    repeat' split
    · exact shape_reset _
    · exact h.congr rfl rfl rfl
    · exact shape_reset _
    · exact shape_reset _
    · exact h.congr rfl rfl rfl

theorem Shape.of_turn (h : Shape s) (hturn : s.turn hash busy = some t) : Shape t := by
  obtain ⟨u, ret, hcall, hdisposed⟩ := turn_cases hturn
  exact (h.of_call hcall).of_disposed hdisposed

theorem Shape.enter (h : Shape s) (reqCount replyCount : ℕ) :
    Shape (s.enter reqCount replyCount) := by
  unfold Conn.enter
  split
  · split
    · exact shape_reset _
    · exact h.congr rfl rfl rfl
    · exact h.congr rfl rfl rfl
  · exact h.congr rfl rfl rfl

theorem Shape.of_run {mem : Conn} {sock : Sock} {acts : List RecvAct}
    (hrun : exec (recvStep hash) (.new mem sock) acts = some t) : Shape t := by
  refine @exec_invariant _ _ _ Shape (fun s a t hs hstep => ?_) _ _ _ (shape_reset _) hrun
  cases a with
  | callback reqCount replyCount =>
    obtain ⟨-, rfl⟩ := recvStep_callback.mp hstep
    exact hs.enter reqCount replyCount
  | turn busy => exact hs.of_turn (recvStep_turn.mp hstep).2

theorem Shape.turn_isSome (h : Shape s) : (s.turn hash busy).isSome ↔ s.Defined := by
  rw [← processDataRecv_isSome]
  unfold turn
  cases hcall : s.processDataRecv with
  | none => simp
  | some r =>
    rw [Option.bind_some]
    exact iff_of_true (h.of_call (call_of_processDataRecv hcall)).dispose_isSome rfl

end Conn
end Acached.Receive
