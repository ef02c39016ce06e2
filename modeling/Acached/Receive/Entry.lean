import Acached.Receive.Calls

/-! # The states in which the parser is called

`ProcessDataRecv` ends in a failed assertion unless it is called in `cmd_wait`
or `body_wait`. An error return leaves the state alone, and `commRead_cb` resets
the connection only behind its loop, which goes on while `dataPendingRead` is
set; a result that is not positive although the body is complete keeps it from
handing the command on.
-/
namespace Acached.Receive
open CString Dispatch Execution

namespace Conn

/-- A call finds the connection in one of the two states in which there is something to do, and in
`cmd_wait` when the last command was refused. -/
def Entered (s : Conn) : Prop :=
  (s.state = .cmdWait ∨ s.state = .bodyWait) ∧ (s.refused = true → s.state = .cmdWait)

/-- As long as the connection is open, it can be called. -/
def Entry (s : Conn) : Prop := s.closed = false → s.Entered

def refusesHeader (s : Conn) : Bool :=
  match (s.sock.read cmdWaitInit).1 with
  | .data (b :: buf) =>
    match setCommandType (b :: buf) (s.cur.len + (b :: buf).length) with
    | some (some .set) =>
      match isBufferComplete (b :: buf) (s.cur.len + (b :: buf).length) with
      | some (_ + 1, block) =>
        match processHeader s.header block with
        | some (false, _) => true
        | _ => false
      | _ => false
    | _ => false
  | _ => false

/-- What is behind the loop closes or resets a connection whose call has returned `ret`. -/
def Ends (s : Conn) (ret : ℤ) : Prop :=
  s.dataPendingRead = false ∧ (ret = 0 ∨ match s.aerr with
    | some (.sys _) => s.errno ≠ .eagain
    | some (.app _) => True
    | none => False)

/-- When the body is complete with the `n` bytes that the socket gives, its length is positive as an
`int`, or the connection is closed or reset for it. -/
def Completes (s : Conn) (n : ℕ) : Prop :=
  s.cur.allocSize ≤ s.cur.len + n →
    0 < asInt (s.cur.len + n) ∨ s.Ends (asInt (s.cur.len + n))

/-- A turn does not leave the states in which the parser can be called: a header is refused, or a
zero length found, only when no left-over bytes keep the loop going, and a body is only completed
with a positive length. -/
def NoTrap (s : Conn) : RecvAct → Prop
  | .callback _ _ => True
  | .turn _ =>
    match s.state with
    | .cmdWait => s.dataPendingRead = true → s.refusesHeader = false
    | .bodyWait =>
      if s.header.datalen = 0 then s.dataPendingRead = false
      else ∀ p pos len, s.bodyPrepare = some (p, pos, len) → ∀ n ∈ p.bodyGot len, p.Completes n
    | _ => True

theorem entered_of_cmdWait {s : Conn} (h : s.state = .cmdWait) : s.Entered := ⟨.inl h, fun _ => h⟩

theorem entered_of_bodyWait {s : Conn} (h : s.state = .bodyWait) (hr : s.refused = false) :
    s.Entered := ⟨.inr h, fun h' => by rw [hr] at h'; cases h'⟩

theorem post_state {hash : Bytes → UInt32} {s t : Conn} (h : s.post hash = some t) :
    t.state = .cmdWait := by
  unfold post at h
  repeat' split at h
  all_goals cases h
  all_goals rfl

variable {hash : Bytes → UInt32} {busy : Bool} {s t : Conn} {ret : ℤ}

theorem entry_of_posted (hpost : s.post hash = some t) :
    (if busy then t.leaveLoop else t.closeConnection).Entry := by
  cases busy with
  | true =>
    have ht := post_state hpost
    exact fun _ => entered_of_cmdWait ht
  | false => exact fun hopen => by cases hopen

theorem entry_leave (h : s.Entered) : (s.leave ret).Entry := by
  unfold leave
  split
  · exact fun hopen => by cases hopen
  split
  · split
    · exact fun _ => h
    · exact fun hopen => by cases hopen
  · exact fun _ => entered_of_cmdWait rfl
  · exact fun _ => h

theorem entry_of_entered (hs : s.Entered) (h : Disposed hash busy s ret t) : t.Entry := by
  cases h with
  | posted => exact fun _ => entered_of_cmdWait rfl
  | quit _ _ _ hpost => exact entry_of_posted hpost
  | ignored => exact fun _ => entered_of_cmdWait rfl
  | again => exact fun _ => hs
  | left => exact entry_leave hs

theorem entry_of_done (hret : 0 < ret) (hstate : s.state = .cmdDone)
    (h : Disposed hash busy s ret t) : t.Entry := by
  cases h with
  | posted => exact fun _ => entered_of_cmdWait rfl
  | quit _ _ _ hpost => exact entry_of_posted hpost
  | ignored => exact fun _ => entered_of_cmdWait rfl
  | again _ hnot => exact absurd ⟨hret, hstate⟩ hnot
  | left hle => exact absurd hret (Int.not_lt.mpr hle)

theorem entry_iff_ends (h : Disposed hash busy s ret t) (hopen : s.closed = false) (hret : ret ≤ 0)
    (hbad : ¬ s.Entered) : t.Entry ↔ s.Ends ret := by
  have hstay {u : Conn} (hclosed : u.closed = s.closed) (hstate : u.state = s.state)
      (hrefused : u.refused = s.refused) : ¬ u.Entry := by
    intro hu
    have hentered := hu (hclosed.trans hopen)
    rw [Entered, hstate, hrefused] at hentered
    exact hbad hentered
  cases h with
  | posted hpos | quit hpos | ignored hpos => exact absurd hpos (Int.not_lt.mpr hret)
  | again hgo =>
    have hflag : s.dataPendingRead = true := hgo.resolve_left (Int.not_lt.mpr hret)
    exact iff_of_false (hstay rfl rfl rfl) fun hends => by rw [hends.1] at hflag; cases hflag
  | left _ hflag =>
    unfold leave Ends
    rw [hflag]
    by_cases hzero : ret = 0
    · rw [if_pos hzero]
      exact iff_of_true (fun hclosed => by cases hclosed) ⟨rfl, .inl hzero⟩
    rw [if_neg hzero]
    generalize s.aerr = aerr
    cases aerr with
    | none => exact iff_of_false (hstay rfl rfl rfl) fun hends => hends.2.resolve_left hzero
    | some err =>
      cases err with
      | sys e =>
        dsimp only
        split
        · next hagain =>
          exact iff_of_false (hstay rfl rfl rfl) fun hends => (hends.2.resolve_left hzero) hagain
        · next hother =>
          exact iff_of_true (fun hclosed => by cases hclosed) ⟨rfl, .inr hother⟩
      | app num => exact iff_of_true (fun _ => entered_of_cmdWait rfl) ⟨rfl, .inr trivial⟩

theorem lineStored_len (s : Conn) (sock : Sock) (buf : Bytes) :
    (s.lineStored sock buf).cur.len = s.cur.len + buf.length := by
  simp [lineStored, stored, took, newBlock, modify, cur]

theorem leftOver_state (s : Conn) (n : ℕ) :
    (s.leftOver n).state = s.state ∧ (s.leftOver n).refused = s.refused := by
  unfold leftOver
  split
  · exact ⟨rfl, rfl⟩
  · exact ⟨rfl, rfl⟩

/-- A call in `cmd_wait` goes wrong exactly when it refuses a header and the loop goes on. -/
theorem entry_iff_of_cmdWait (hstate : s.state = .cmdWait) (hopen : s.closed = false) {u : Conn}
    (hcall : Call s u ret) (h : Disposed hash busy u ret t) :
    t.Entry ↔ (s.dataPendingRead = true → s.refusesHeader = false) := by
  have hgood (hu : t.Entry) (hr : s.refusesHeader = false) :
      t.Entry ↔ (s.dataPendingRead = true → s.refusesHeader = false) :=
    iff_of_true hu fun _ => hr
  cases hcall with
  | lineFailed _ hread =>
    refine hgood (entry_of_entered ?_ h) (by simp [refusesHeader, hread])
    exact entered_of_cmdWait hstate
  | lineEnd _ hread =>
    refine hgood (entry_of_entered ?_ h) (by simp [refusesHeader, hread])
    exact entered_of_cmdWait hstate
  | unknown _ hread hcommand =>
    rw [lineStored_len] at hcommand
    refine hgood (entry_of_entered ?_ h) (by simp only [refusesHeader, hread, hcommand])
    exact entered_of_cmdWait hstate
  | headerRefused _ hread hcommand hline hheader =>
    rw [lineStored_len] at hcommand hline
    have hrefuses : s.refusesHeader = true := by
      simp only [refusesHeader, hread, hcommand, hline, hheader]
    rw [entry_iff_ends h hopen (by decide) ?_, hrefuses]
    · constructor
      · rintro ⟨hflag, -⟩ hpending
        exact absurd hpending (by rw [show s.dataPendingRead = false from hflag]; decide)
      · intro hnot
        refine ⟨?_, .inr trivial⟩
        exact Bool.eq_false_iff.mpr fun hpending => absurd (hnot hpending) (by decide)
    · rintro ⟨-, hwait⟩
      cases hwait rfl
  | header _ hread hcommand hline hheader =>
    rw [lineStored_len] at hcommand hline
    refine hgood (entry_of_entered ?_ h) ?_
    · obtain ⟨hst, hre⟩ := leftOver_state _ _
      exact entered_of_bodyWait (hst.trans rfl) (hre.trans rfl)
    · simp only [refusesHeader, hread, hcommand, hline, hheader]
  | @command b buf sock ctype n block _ hread hcommand hother hline =>
    rw [lineStored_len] at hcommand hline
    refine hgood (entry_of_done (by omega) ?_ h) ?_
    · exact (leftOver_state _ _).1
    · cases ctype with
      | set => exact absurd rfl hother
      | _ => simp only [refusesHeader, hread, hcommand]
  | noLength hbody | bodyNothing hbody | bodyTooLong hbody | bodyFailed hbody
  | bodyStreamEnd hbody | bodyBytes hbody =>
    rw [hstate] at hbody
    cases hbody

/-- The end of a body goes wrong exactly when the body is complete and the result is not positive,
unless the connection is closed or reset for it. -/
theorem entry_iff_of_bodyEnd {u : Conn} (hend : s.bodyEnd = (u, ret))
    (h : Disposed hash busy u ret t) (hrefused : s.refused = false) (hopen : s.closed = false) :
    t.Entry ↔ s.Completes 0 := by
  unfold Completes
  rw [Nat.add_zero]
  unfold bodyEnd at hend
  split at hend
  · next hpart =>
    cases hend
    refine iff_of_true (entry_of_entered ?_ h) fun hle => absurd hpart (Nat.not_lt.mpr hle)
    exact entered_of_bodyWait rfl hrefused
  · next hcomplete =>
    cases hend
    by_cases hret : 0 < asInt s.cur.len
    · exact iff_of_true (entry_of_done hret rfl h) fun _ => .inl hret
    · rw [entry_iff_ends h hopen (Int.not_lt.mp hret) ?_]
      · constructor
        · intro hends _
          exact .inr hends
        · intro hor
          exact (hor (Nat.not_lt.mp hcomplete)).resolve_left hret
      · rintro ⟨hst | hst, -⟩
        · cases hst
        · cases hst

/-- A call in `body_wait` goes wrong exactly when it finds the length zero and the loop goes on, or
at the end of the body. -/
theorem entry_iff_of_bodyWait (hstate : s.state = .bodyWait) (hrefused : s.refused = false)
    (hopen : s.closed = false) {u : Conn} (hcall : Call s u ret)
    (h : Disposed hash busy u ret t) :
    t.Entry ↔ if s.header.datalen = 0 then s.dataPendingRead = false
      else ∀ p pos len, s.bodyPrepare = some (p, pos, len) → ∀ n ∈ p.bodyGot len, p.Completes n := by
  have hprepared {p pos len} (hdata : s.header.datalen ≠ 0)
      (hprep : s.bodyPrepare = some (p, pos, len)) :
      (if s.header.datalen = 0 then s.dataPendingRead = false
        else ∀ p pos len, s.bodyPrepare = some (p, pos, len) →
          ∀ n ∈ p.bodyGot len, p.Completes n) ↔ ∀ n ∈ p.bodyGot len, p.Completes n := by
    rw [if_neg hdata]
    constructor
    · intro hall
      exact hall p pos len hprep
    · intro hp p' pos' len' hprep'
      rw [hprep] at hprep'
      cases hprep'
      exact hp
  have hwaits {p pos len} (hprep : s.bodyPrepare = some (p, pos, len)) :
      p.state = .bodyWait ∧ p.refused = false := by
    obtain ⟨hst, hre, -⟩ := bodyPrepare_frame hprep
    exact ⟨hst.trans hstate, hre.trans hrefused⟩
  have hclosed {p pos len} (hprep : s.bodyPrepare = some (p, pos, len)) : p.closed = false :=
    (congrArg Prod.fst (bodyPrepare_aside hprep)).trans hopen
  cases hcall with
  | lineFailed hcmd | lineEnd hcmd | unknown hcmd | headerRefused hcmd | header hcmd
  | command hcmd =>
    rw [hstate] at hcmd
    cases hcmd
  | noLength _ hdata =>
    rw [if_pos hdata, entry_iff_ends h hopen (by decide) ?_]
    · exact ⟨And.left, fun hflag => ⟨hflag, .inr trivial⟩⟩
    · rintro ⟨hst | hst, -⟩
      · cases hst
      · cases hst
  | bodyTooLong _ hdata hprep hlen =>
    rw [hprepared hdata hprep]
    obtain ⟨hst, hre⟩ := hwaits hprep
    refine iff_of_true (entry_of_entered ?_ h) fun n hn => ?_
    · exact entered_of_bodyWait hst hre
    · rw [bodyGot, if_neg (by omega), if_pos hlen] at hn
      cases hn
  | bodyFailed _ hdata hprep hpos hlen hread =>
    rw [hprepared hdata hprep]
    obtain ⟨hst, hre⟩ := hwaits hprep
    refine iff_of_true (entry_of_entered ?_ h) fun n hn => ?_
    · exact entered_of_bodyWait hst hre
    · rw [bodyGot, if_neg hpos.ne', if_neg (Nat.not_le.mpr hlen), hread] at hn
      cases hn
  | bodyStreamEnd _ hdata hprep hpos hlen hread =>
    rw [hprepared hdata hprep]
    obtain ⟨hst, hre⟩ := hwaits hprep
    refine iff_of_true (entry_of_entered ?_ h) fun n hn => ?_
    · exact entered_of_bodyWait hst hre
    · rw [bodyGot, if_neg hpos.ne', if_neg (Nat.not_le.mpr hlen), hread] at hn
      cases hn
  | bodyNothing _ hdata hprep hend =>
    rw [hprepared hdata hprep]
    obtain ⟨hst, hre⟩ := hwaits hprep
    rw [entry_iff_of_bodyEnd hend h hre (hclosed hprep)]
    simp [bodyGot]
  | @bodyBytes p pos len b buf sock _ _ _ hdata hprep hpos hlen hread hroom hend =>
    rw [hprepared hdata hprep]
    obtain ⟨hst, hre⟩ := hwaits hprep
    have hgot : p.bodyGot len = some (b :: buf).length := by
      rw [bodyGot, if_neg hpos.ne', if_neg (Nat.not_le.mpr hlen), hread]
    have hfilled : ((p.took sock (b :: buf)).filled pos (b :: buf)).Completes 0 ↔
        p.Completes (b :: buf).length := by
      simp [Completes, Ends, filled, took, modify, cur]
    have hp := hclosed hprep
    rw [entry_iff_of_bodyEnd hend h hre hp, hfilled, hgot]
    simp

theorem entry_iff_of_step {a : RecvAct} (hs : s.Entry) (hstep : recvStep hash s a = some t) :
    t.Entry ↔ s.NoTrap a := by
  cases a with
  | callback reqCount replyCount =>
    obtain ⟨hopen, rfl⟩ := recvStep_callback.mp hstep
    have hsame := hs hopen.1
    refine iff_of_true ?_ trivial
    unfold enter
    split
    · split
      · exact fun hclosed => by cases hclosed
      · exact fun _ => hsame
      · exact fun _ => hsame
    · exact fun _ => hsame
  | turn busy =>
    obtain ⟨hopen, hturn⟩ := recvStep_turn.mp hstep
    obtain ⟨hstate, hrefused⟩ := hs hopen.1
    obtain ⟨u, ret, hcall, hdisposed⟩ := turn_cases hturn
    unfold NoTrap
    rcases hstate with hstate | hstate
    · rw [hstate]
      exact entry_iff_of_cmdWait hstate hopen.1 hcall hdisposed
    · have hclear : s.refused = false := by
        rw [hstate] at hrefused
        exact Bool.eq_false_iff.mpr fun h => by cases hrefused h
      rw [hstate]
      exact entry_iff_of_bodyWait hstate hclear hopen.1 hcall hdisposed

end Conn

/-- In every run of callbacks on a new connection, whatever its socket gives, all calls of the parser
find it in `cmd_wait` or `body_wait`, and in `cmd_wait` after a refused command, exactly if all turns
meet the condition. -/
theorem entry_iff_noTrap (hash : Bytes → UInt32) (mem t : Conn) (sock : Sock)
    (acts : List RecvAct) (hrun : exec (recvStep hash) (.new mem sock) acts = some t) :
    Throughout (recvStep hash) Conn.Entry (.new mem sock) acts ↔
      Guarded (recvStep hash) Conn.NoTrap (.new mem sock) acts := by
  have hnew : (Conn.new mem sock).Entry := fun _ => Conn.entered_of_cmdWait rfl
  exact throughout_iff_guarded (fun s a t hs hstep => Conn.entry_iff_of_step hs hstep) hnew hrun

/-- A set of zero bytes, with its terminator right behind the line. -/
def zeroLengthSet : Bytes := [115, 101, 116, 32, 107, 32, 48, 32, 48, 32, 48, 13, 10, 13, 10]

/-- The first call accepts the header. -/
theorem entry_zeroLengthHeader : ∃ t, exec (recvStep fun _ => 0)
    (.new .zeroed ⟨[.data zeroLengthSet]⟩) [.callback 0 0, .turn false] = some t ∧
      (Throughout (recvStep fun _ => 0) Conn.Entry (.new .zeroed ⟨[.data zeroLengthSet]⟩)
          [.callback 0 0, .turn false] ↔
        Guarded (recvStep fun _ => 0) Conn.NoTrap (.new .zeroed ⟨[.data zeroLengthSet]⟩)
          [.callback 0 0, .turn false]) := by
  have hrun : (exec (recvStep fun _ => 0) (.new .zeroed ⟨[.data zeroLengthSet]⟩)
      [.callback 0 0, .turn false]).isSome = true := by decide
  obtain ⟨t, ht⟩ := Option.isSome_iff_exists.mp hrun
  exact ⟨t, ht, entry_iff_noTrap _ .zeroed t _ _ ht⟩

/-- The second call refuses the length zero and leaves `cmd_done`, and the terminator in the line's
block keeps the loop going. -/
theorem entry_fails : ¬ ∀ (sock : Sock) (acts : List RecvAct) (t : Conn),
    exec (recvStep fun _ => 0) (.new .zeroed sock) acts = some t → t.Entry := by
  intro hall
  have hrun : (exec (recvStep fun _ => 0) (.new .zeroed ⟨[.data zeroLengthSet]⟩)
      [.callback 0 0, .turn false, .turn false]).map
        (fun t => (t.state, t.closed, t.inLoop, (t.turn (fun _ => 0) false).isSome)) =
      some (.cmdDone, false, true, false) := by decide
  obtain ⟨t, ht, hview⟩ := Option.map_eq_some_iff.mp hrun
  simp only [Prod.mk.injEq] at hview
  obtain ⟨hstate, hopen, -⟩ := hview
  obtain ⟨hst | hst, -⟩ := hall _ _ t ht hopen
  · cases hstate.symm.trans hst
  · cases hstate.symm.trans hst

end Acached.Receive
