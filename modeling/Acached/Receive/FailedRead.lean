import Acached.Receive.Calls

/-! # A body read that fails

When the read of a body finds nothing, `commRead_cb` returns and is called
again later. Whether the next call of `ProcessDataRecv` goes on where the failed
one stood depends on the marks that the block had before the failed call: the
call itself moves to a new index, copies left-over bytes and clears
`dataPendingRead`, and leaves no mark of that behind.
-/
namespace Acached.Receive
open CString Dispatch Execution

namespace Conn

/-- What holds of a state in which a call of `ProcessDataRecv` has prepared the read of `len` bytes
at `pos` and in which the call after it is made: that one asks for the same bytes in the same block,
at the same index, right behind those that were received. -/
def GoesOn (p : Conn) (pos len : ℕ) (u : Conn) : Prop :=
  pos = p.cur.len ∧ ∃ q, u.bodyPrepare = some (q, pos, len) ∧ q.iovIndex = p.iovIndex ∧
    q.cur.base = p.cur.base

/-- A call of `ProcessDataRecv` in the state, a turn of the loop, has a defined outcome, and the call
after it goes on where that one stood. -/
def LosesNothing (hash : Bytes → UInt32) (busy : Bool) (reqCount replyCount : ℕ) (s : Conn) : Prop :=
  ∃ p pos len t, s.bodyPrepare = some (p, pos, len) ∧ s.turn hash busy = some t ∧
    p.GoesOn pos len (t.enter reqCount replyCount)

/-- A call that is defined gets as far as `read`, with a length that is no negative `int`. -/
def Reads (s : Conn) : Prop :=
  ∀ p pos len, s.bodyPrepare = some (p, pos, len) → 0 < len ∧ len < 2 ^ 31

/-- The index that the call works at holds part of a body already, its offset counts the bytes
received, and nothing is left over behind it. At a new index, which has to exist, that can only be
the mark of an earlier command. -/
def Continued (s : Conn) : Prop :=
  if s.cur.bodyPart then s.dataPendingRead = false ∧ s.cur.baseOffset = s.cur.len
  else
    let next := s.slot (s.iovIndex + 1)
    s.iovIndex + 1 < iovReqSize ∧
      (s.dataPendingRead = true →
        s.cur.baseOffset + min s.pending s.bodySize ≤ s.cur.allocSize) ∧
      next.bodyPart = true ∧ next.len = 0 ∧ next.baseOffset = s.pending

instance (s : Conn) : Decidable s.Continued := by
  unfold Continued
  infer_instance

@[simp] theorem cur_modify_self (s : Conn) (f : IovSlot → IovSlot) :
    (s.modify s.iovIndex f).cur = f s.cur := by
  simp [modify, cur]

theorem bodyPrepare_of_part {s : Conn} (hpart : s.cur.bodyPart = true)
    (hflag : s.dataPendingRead = false) :
    s.bodyPrepare = some (s, s.cur.baseOffset, s.bodyRest) := by
  simp [bodyPrepare, hpart, hflag]

theorem bodyFirst_of_pos {s p : Conn} {pos len : ℕ} (h : s.bodyFirst = some (p, pos, len))
    (hlen : 0 < len) : p.iovIndex = s.iovIndex + 1 ∧ p.dataPendingRead = false ∧
      p.state = s.state ∧ p.header = s.header ∧ p.sock = s.sock ∧ pos = s.pending ∧
      len = s.bodySize - s.pending ∧
      p.cur.len = (s.slot (s.iovIndex + 1)).len + s.pending ∧
      p.cur.baseOffset = (s.slot (s.iovIndex + 1)).baseOffset ∧
      p.cur.bodyPart = (s.slot (s.iovIndex + 1)).bodyPart := by
  unfold bodyFirst at h
  split at h
  · cases h
  split at h
  · next hflag =>
    simp only [Option.some.injEq, Prod.mk.injEq] at h
    obtain ⟨rfl, rfl, rfl⟩ := h
    simp [newBody, modify, cur, pending, hflag]
  split at h
  · cases h
  split at h
  · simp only [Option.some.injEq, Prod.mk.injEq] at h
    omega
  · simp only [Option.some.injEq, Prod.mk.injEq] at h
    obtain ⟨rfl, rfl, rfl⟩ := h
    simp [copied, setPending, newBody, modify, cur]

def afterFailure (p : Conn) (sock : Sock) (inLoop : Bool) : Conn :=
  { p with
    sock := sock
    errno := .eagain
    aerr := some (.sys .eagain)
    inLoop := inLoop }

theorem turn_of_eagain (hash : Bytes → UInt32) (busy : Bool) {s p : Conn} {pos len : ℕ}
    (hstate : s.state = .bodyWait) (hdata : s.header.datalen ≠ 0)
    (hprep : s.bodyPrepare = some (p, pos, len)) (hlen : 0 < len) (hlt : len < 2 ^ 31)
    (hfail : (p.sock.read len).1 = .failed .eagain) (hflag : p.dataPendingRead = false) :
    s.turn hash busy =
      some (p.afterFailure (p.sock.read len).2 false) := by
  have hread : p.sock.read len = (.failed .eagain, (p.sock.read len).2) := Prod.ext hfail rfl
  have hcall : s.processDataRecv = some ({ p with
      sock := (p.sock.read len).2
      errno := .eagain
      aerr := some (.sys .eagain) }, -1) := by
    unfold processDataRecv bodyWait
    rw [hstate]
    simp only [hdata, if_false, hprep, Option.bind_some, bodyRead, hlen.ne', not_le.mpr hlt]
    rw [hread]
    rfl
  rw [turn, hcall, Option.bind_some]
  unfold dispose
  simp [hflag, leave, leaveLoop, afterFailure]

theorem enter_of_bodyWait {s : Conn} (hstate : s.state = .bodyWait) (reqCount replyCount : ℕ) :
    s.enter reqCount replyCount = { s with inLoop := true } := by
  simp [enter, hstate]

theorem goesOn_of_part {s : Conn} (hpart : s.cur.bodyPart = true)
    (hflag : s.dataPendingRead = false) (sock : Sock) :
    GoesOn s s.cur.baseOffset s.bodyRest (s.afterFailure sock true) ↔ s.Continued := by
  have hnext := bodyPrepare_of_part (s := s.afterFailure sock true) hpart hflag
  rw [Continued, if_pos hpart, GoesOn]
  constructor
  · rintro ⟨hoffset, -⟩
    exact ⟨hflag, hoffset⟩
  · rintro ⟨-, hoffset⟩
    exact ⟨hoffset, _, hnext, rfl, rfl⟩

theorem goesOn_of_first {s p : Conn} {pos len : ℕ} (hpart : s.cur.bodyPart = false)
    (h : s.bodyFirst = some (p, pos, len)) (hlen : 0 < len) (sock : Sock) :
    GoesOn p pos len (p.afterFailure sock true) ↔ s.Continued := by
  obtain ⟨hindex, hflag, -, hheader, -, hpos, hl, hcount, hoffset, hmark⟩ := bodyFirst_of_pos h hlen
  obtain ⟨hindex', hroom⟩ := (bodyFirst_isSome s).mp (by simp [h])
  rw [Continued, if_neg (by simp [hpart]), GoesOn, hpos, hcount]
  by_cases hpart' : (s.slot (s.iovIndex + 1)).bodyPart = true
  · -- the new index is marked, and the next call stays there
    have hnext := bodyPrepare_of_part (s := p.afterFailure sock true) (hmark.trans hpart') hflag
    constructor
    · rintro ⟨hzero, q, hq, -, -⟩
      rw [hnext] at hq
      have hoff : p.cur.baseOffset = s.pending :=
        congrArg (fun r => r.2.1) (Option.some.inj hq)
      exact ⟨hindex', hroom, hpart', by omega, hoffset.symm.trans hoff⟩
    · rintro ⟨-, -, -, hzero, hoff⟩
      refine ⟨by omega, p.afterFailure sock true, ?_, rfl, rfl⟩
      have hpos' : (p.afterFailure sock true).cur.baseOffset = s.pending := hoffset.trans hoff
      have hrest : (p.afterFailure sock true).bodyRest = len := by
        have hdata : (p.afterFailure sock true).header.datalen = s.header.datalen := by
          rw [← hheader]
          rfl
        rw [bodyRest, hpos', hdata, hl]
        rw [hl] at hlen
        unfold bodySize at hlen ⊢
        unfold sub32
        omega
      rw [hnext, hpos', hrest]
  · -- the next call takes one more index
    constructor
    · rintro ⟨-, q, hq, hsame, -⟩
      have hunmarked : ¬ (p.afterFailure sock true).cur.bodyPart = true := by
        change ¬ p.cur.bodyPart = true
        rwa [hmark]
      rw [bodyPrepare, if_neg hunmarked] at hq
      have hq' := (bodyFirst_of_pos hq hlen).1
      change q.iovIndex = p.iovIndex + 1 at hq'
      omega
    · rintro ⟨-, -, h, -⟩
      exact absurd h hpart'

theorem bodyPrepare_isSome_of_continued {s : Conn} (h : s.Continued) :
    s.bodyPrepare.isSome = true := by
  cases hpart : s.cur.bodyPart with
  | true =>
    rw [Continued, if_pos hpart] at h
    rw [bodyPrepare_of_part hpart h.1]
    rfl
  | false =>
    rw [Continued, if_neg (by simp [hpart])] at h
    rw [bodyPrepare, if_neg (by simp [hpart])]
    exact (bodyFirst_isSome s).mpr ⟨h.1, h.2.1⟩

/-- A defined call whose read finds nothing, and what decides about the call after it. -/
theorem turn_of_prepared (hash : Bytes → UInt32) (busy : Bool) (reqCount replyCount : ℕ)
    {s p : Conn} {pos len : ℕ} (hstate : s.state = .bodyWait) (hdata : s.header.datalen ≠ 0)
    (hprep : s.bodyPrepare = some (p, pos, len)) (hlen : 0 < len) (hlt : len < 2 ^ 31)
    (hfail : (s.sock.read len).1 = .failed .eagain) :
    ∃ t, s.turn hash busy = some t ∧
      (p.GoesOn pos len (t.enter reqCount replyCount) ↔ s.Continued) := by
  have hfacts : p.dataPendingRead = false ∧ p.state = s.state ∧ p.sock = s.sock ∧
      (p.GoesOn pos len (p.afterFailure (p.sock.read len).2 true) ↔ s.Continued) := by
    cases hpart : s.cur.bodyPart with
    | true =>
      obtain ⟨hflag, rfl, rfl, rfl⟩ := of_bodyPrepare_part hpart hprep
      exact ⟨hflag, rfl, rfl, goesOn_of_part hpart hflag _⟩
    | false =>
      have hfirst : s.bodyFirst = some (p, pos, len) := by
        rwa [bodyPrepare, if_neg (by simp [hpart])] at hprep
      obtain ⟨-, hflag, hst, -, hsock, -⟩ := bodyFirst_of_pos hfirst hlen
      exact ⟨hflag, hst, hsock, goesOn_of_first hpart hfirst hlen _⟩
  obtain ⟨hflag, hst, hsock, hiff⟩ := hfacts
  have hended := turn_of_eagain hash busy hstate hdata hprep hlen hlt (hsock ▸ hfail) hflag
  have hnext := enter_of_bodyWait (s := p.afterFailure (p.sock.read len).2 false)
    (hst.trans hstate) reqCount replyCount
  refine ⟨_, hended, ?_⟩
  rw [hnext]
  exact hiff

end Conn

/-- In every state in which a body is read, when the socket has nothing to read, the call and the one
after it lose nothing exactly if the block was marked as part of a body before, with the right offset
and nothing left over. -/
theorem goesOn_iff_continued (hash : Bytes → UInt32) (busy : Bool) (reqCount replyCount : ℕ)
    (s : Conn) (hstate : s.state = .bodyWait) (hdata : s.header.datalen ≠ 0) (hreads : s.Reads)
    (hfail : ∀ n, (s.sock.read n).1 = .failed .eagain) :
    s.LosesNothing hash busy reqCount replyCount ↔ s.Continued := by
  constructor
  · rintro ⟨p, pos, len, t, hprep, hturn, hgoes⟩
    obtain ⟨hlen, hlt⟩ := hreads p pos len hprep
    obtain ⟨t', ht', hiff⟩ := Conn.turn_of_prepared hash busy reqCount replyCount hstate hdata hprep
      hlen hlt (hfail len)
    obtain rfl := Option.some.inj (ht'.symm.trans hturn)
    exact hiff.mp hgoes
  · intro hcontinued
    obtain ⟨⟨p, pos, len⟩, hprep⟩ :=
      Option.isSome_iff_exists.mp (Conn.bodyPrepare_isSome_of_continued hcontinued)
    obtain ⟨hlen, hlt⟩ := hreads p pos len hprep
    obtain ⟨t, hturn, hiff⟩ := Conn.turn_of_prepared hash busy reqCount replyCount hstate hdata
      hprep hlen hlt (hfail len)
    exact ⟨p, pos, len, t, hprep, hturn, hiff.mpr hcontinued⟩

def setLine : Bytes := [115, 101, 116, 32, 107, 32, 48, 32, 48, 32, 53, 13, 10]

def splitBody : List ReadResult :=
  [.data (setLine ++ [97, 98]), .data [99, 100], .failed .eagain]

/-- The first read of the body has got two bytes, and the second one finds nothing. -/
theorem goesOn_splitBody : ∃ s, exec (recvStep fun _ => 0) (.new .zeroed ⟨splitBody⟩)
    [.callback 0 0, .turn false, .turn false] = some s ∧ s.LosesNothing (fun _ => 0) false 0 0 := by
  have hrun : (exec (recvStep fun _ => 0) (.new .zeroed ⟨splitBody⟩)
      [.callback 0 0, .turn false, .turn false]).map (fun s => ((s.state, s.header.datalen),
        (s.cur.bodyPart, s.dataPendingRead, s.cur.baseOffset, s.bodyRest), s.sock.results,
        decide s.Continued)) =
      some ((.bodyWait, 5), (true, false, 4, 3), [.failed .eagain], true) := by decide
  obtain ⟨s, hs, hview⟩ := Option.map_eq_some_iff.mp hrun
  simp only [Prod.mk.injEq] at hview
  obtain ⟨⟨hstate, hdata⟩, ⟨hpart, hflag, hpos, hlen⟩, hsock, hcontinued⟩ := hview
  have hreads : s.Reads := by
    intro p pos len h
    rw [Conn.bodyPrepare_of_part hpart hflag, hpos, hlen] at h
    cases h
    omega
  exact ⟨s, hs, (goesOn_iff_continued _ false 0 0 s hstate (by omega) hreads
    (by simp [Sock.read, hsock])).mpr (of_decide_eq_true hcontinued)⟩

/-- When the first read of a body finds nothing, the two bytes that came with the line are left in a
block that the next call does not go back to. -/
theorem goesOn_fails : ¬ ∀ (sock : Sock) (acts : List RecvAct) (s : Conn),
    exec (recvStep fun _ => 0) (.new .zeroed sock) acts = some s → s.state = .bodyWait →
    s.header.datalen ≠ 0 → s.Reads → (∀ n, (s.sock.read n).1 = .failed .eagain) →
      s.LosesNothing (fun _ => 0) false 0 0 := by
  intro hall
  have hrun : (exec (recvStep fun _ => 0)
      (.new .zeroed ⟨[.data (setLine ++ [97, 98]), .failed .eagain]⟩)
      [.callback 0 0, .turn false]).map (fun s =>
        (decide (s.state = .bodyWait ∧ s.header.datalen = 5 ∧ s.sock.results = [.failed .eagain]),
        s.bodyPrepare.map (fun r => (r.1.iovIndex, r.2)),
        (s.turn (fun _ => 0) false).bind fun t =>
          (t.enter 0 0).bodyPrepare.map fun r => r.1.iovIndex)) =
      some (true, some (1, 2, 5), some 2) := by decide
  obtain ⟨s, hs, hview⟩ := Option.map_eq_some_iff.mp hrun
  simp only [Prod.mk.injEq] at hview
  obtain ⟨hat, hprep, hturn⟩ := hview
  obtain ⟨hstate, hdata, hsock⟩ := of_decide_eq_true hat
  obtain ⟨⟨p, pos, len⟩, hp, hfirst⟩ := Option.map_eq_some_iff.mp hprep
  simp only [Prod.mk.injEq] at hfirst
  obtain ⟨hindex, rfl, rfl⟩ := hfirst
  have hreads : s.Reads := by
    intro p' pos' len' h
    cases hp.symm.trans h
    omega
  obtain ⟨p', pos', len', t, hp', ht, -, q, hq, hsame, -⟩ := hall _ _ s hs hstate (by omega) hreads
    (by simp [Sock.read, hsock])
  cases hp.symm.trans hp'
  obtain ⟨t', ht', hnext⟩ := Option.bind_eq_some_iff.mp hturn
  obtain rfl := Option.some.inj (ht.symm.trans ht')
  rw [hq, Option.map_some, Option.some.injEq] at hnext
  have hone : q.iovIndex = 1 := hsame.trans hindex
  exact absurd (hone.symm.trans hnext) (by decide)

end Acached.Receive
