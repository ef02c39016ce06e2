import Acached.Receive.Outcome
import Mathlib.Algebra.GroupWithZero.Nat

/-! # The end of the receive loop

The loop of `commRead_cb` goes on while calls succeed or `dataPendingRead` is
set. Turns that read take something from the socket, and the others move on from
one kind of call to the next, so the loop comes to an end unless it stands in
`cmd_wait` with `dataPendingRead` set and nothing left to be read.
-/
namespace Acached.Receive
open CString Dispatch Execution

namespace Conn

/-- After `n` turns the callback has returned, whatever the turns find in `Busy`. -/
def ReturnsWithin (hash : Bytes → UInt32) (n : ℕ) (s : Conn) : Prop :=
  ∀ busys : List Bool, busys.length = n → ∃ t, s.loop hash busys = some t ∧ t.inLoop = false

def Returns (hash : Bytes → UInt32) (s : Conn) : Prop := ∃ n, s.ReturnsWithin hash n

/-- A turn gets on: it has a defined outcome, and it does not look for the next line with
`dataPendingRead` set when nothing is left. -/
def Proceeds (s : Conn) : Prop :=
  s.Defined ∧ ¬ (s.state = .cmdWait ∧ s.dataPendingRead = true ∧ s.sock.Spent)

variable {hash : Bytes → UInt32} {busy : Bool} {s t u : Conn} {ret : ℤ}

/-! ## What is left to do gets less -/

def left (sock : Sock) : ℕ :=
  (sock.results.map fun
    | .data b => b.length + 1
    | .failed _ => 1).sum

/-- The turns that may be taken before something is read: the first call for a body, then one that
asks for nothing, then one that asks for the rest. -/
def stage (s : Conn) : ℕ :=
  match s.state with
  | .bodyWait => if s.cur.bodyPart = false then 3 else if s.bodyRest = 0 then 2 else 1
  | _ => 0

def rank (s : Conn) : ℕ := 4 * left s.sock + s.stage

theorem one_le_stage {s : Conn} (hstate : s.state = .bodyWait) : 1 ≤ s.stage := by
  unfold stage
  rw [hstate]
  dsimp only
  repeat' split
  all_goals omega

theorem sub32_eq_zero {m n : ℕ} : sub32 m n = 0 ↔ m % 2 ^ 32 = n % 2 ^ 32 := by
  unfold sub32
  omega

theorem asInt_pos {n : ℕ} (h : 0 < asInt n) : n % 2 ^ 32 ≠ 0 := by
  unfold asInt at h
  intro hzero
  rw [Int.bmod_def] at h
  omega

theorem stage_le (s : Conn) : s.stage ≤ 3 := by
  unfold stage
  repeat' split
  all_goals omega

theorem read_data_left {sock sock' : Sock} {n : ℕ} {b : UInt8} {buf : Bytes}
    (h : sock.read n = (.data (b :: buf), sock')) : left sock' < left sock := by
  unfold Sock.read at h
  split at h
  · cases h
  · cases h
  · cases h
  · next x c rest heq =>
    split at h
    · cases h
      simp [left, heq]
    · simp only [Prod.mk.injEq, ReadResult.data.injEq] at h
      obtain ⟨hdata, rfl⟩ := h
      have hn : n ≠ 0 := by
        rintro rfl
        simp at hdata
      simp only [left, heq, List.map_cons, List.sum_cons, List.length_drop, List.length_cons]
      omega

theorem read_failed_left {sock sock' : Sock} {n : ℕ} {e : Errno}
    (h : sock.read n = (.failed e, sock')) : sock.Spent ∨ left sock' < left sock := by
  unfold Sock.read at h
  split at h
  · next heq =>
    refine .inl ?_
    unfold Sock.Spent
    rw [heq]
    trivial
  · next heq =>
    cases h
    refine .inr ?_
    simp [left, heq]
  · cases h
  · split at h
    · cases h
    · cases h

theorem spent_of_read_end {sock sock' : Sock} {n : ℕ} (hn : 0 < n)
    (h : sock.read n = (.data [], sock')) : sock.Spent := by
  unfold Sock.read at h
  split at h
  · cases h
  · cases h
  · next heq =>
    unfold Sock.Spent
    rw [heq]
    trivial
  · split at h
    · cases h
    · simp only [Prod.mk.injEq, ReadResult.data.injEq, List.take_eq_nil_iff] at h
      rcases h.1 with hzero | hnil
      · omega
      · cases hnil

theorem bodyEnd_sock (h : s.bodyEnd = (t, ret)) : t.sock = s.sock := by
  unfold bodyEnd at h
  split at h <;> simp only [Prod.mk.injEq] at h <;> rw [← h.1] <;> rfl

theorem leftOver_sock (s : Conn) (n : ℕ) : (s.leftOver n).sock = s.sock := by
  unfold leftOver
  split <;> rfl

theorem rank_lt_of_left (h : left u.sock < left s.sock) : u.rank < s.rank := by
  have := u.stage_le
  unfold rank
  omega

theorem rank_lt_of_stage (hsock : u.sock = s.sock) (h : u.stage < s.stage) : u.rank < s.rank := by
  unfold rank
  rw [hsock]
  omega

theorem flag_of_bodyPrepare {p : Conn} {pos len : ℕ} (h : s.bodyPrepare = some (p, pos, len))
    (hlen : 0 < len) : p.dataPendingRead = false := by
  unfold bodyPrepare bodyFirst at h
  repeat' split at h
  all_goals cases h
  · next hflag => simpa using hflag
  · assumption
  · omega
  · rfl

theorem bodyEnd_of_part (hlen : s.cur.len < s.cur.allocSize) (hend : s.bodyEnd = (t, ret)) :
    t.state = .bodyWait ∧ t.cur.bodyPart = true ∧
      t.cur.baseOffset = (s.cur.baseOffset + s.cur.len) % 2 ^ 32 ∧ t.header = s.header ∧
      t.dataPendingRead = s.dataPendingRead ∧ ret = asInt s.cur.len := by
  unfold bodyEnd at hend
  rw [if_pos hlen] at hend
  simp only [Prod.mk.injEq] at hend
  obtain ⟨rfl, rfl⟩ := hend
  refine ⟨rfl, ?_, ?_, rfl, rfl, rfl⟩
  · simp only [setState, modify, cur, Function.update_self]
  · simp only [setState, modify, cur, Function.update_self]

theorem stage_of_part (hstate : s.state = .bodyWait) (hpart : s.cur.bodyPart = true) :
    s.stage = if s.bodyRest = 0 then 2 else 1 := by
  unfold stage
  rw [hstate]
  simp [hpart]

/-- A call for a body that reads nothing and has the loop go on does not come again in the same
way. -/
theorem stage_lt_of_bodyNothing {p : Conn} {pos : ℕ} (hstate : s.state = .bodyWait)
    (hprep : s.bodyPrepare = some (p, pos, 0)) (hend : p.bodyEnd = (u, ret))
    (hgo : 0 < ret ∨ u.dataPendingRead = true) : u.stage < s.stage := by
  by_cases hlen : p.cur.len < p.cur.allocSize
  · obtain ⟨hustate, hupart, huoffset, huheader, huflag, hret⟩ := bodyEnd_of_part hlen hend
    rw [hret] at hgo
    cases hpart : s.cur.bodyPart with
    | false =>
      have hs : s.stage = 3 := by simp [stage, hstate, hpart]
      rw [hs, stage_of_part hustate hupart]
      split <;> omega
    | true =>
      obtain ⟨hflag, rfl, -, hrest⟩ := of_bodyPrepare_part hpart hprep
      have hmod := asInt_pos (hgo.resolve_right fun h => by
        cases (huflag.trans hflag).symm.trans h)
      have hsub := sub32_eq_zero.mp hrest.symm
      -- the offset has moved on by a length that is not zero
      have hurest : u.bodyRest ≠ 0 := by
        unfold bodyRest
        rw [huoffset, huheader, ne_eq, sub32_eq_zero, hsub]
        omega
      rw [stage_of_part hstate hpart, ← hrest, stage_of_part hustate hupart, if_neg hurest]
      decide
  · unfold bodyEnd at hend
    rw [if_neg hlen] at hend
    simp only [Prod.mk.injEq] at hend
    obtain ⟨rfl, -⟩ := hend
    exact one_le_stage hstate

theorem rank_lt_of_call (hcall : Call s u ret) (hgo : 0 < ret ∨ u.dataPendingRead = true)
    (hp : s.Proceeds) : u.rank < s.rank := by
  have hneg {n : ℤ} (hn : n ≤ 0) (hgo : 0 < n ∨ u.dataPendingRead = true) :
      u.dataPendingRead = true := hgo.resolve_left (Int.not_lt.mpr hn)
  cases hcall with
  | lineFailed hstate hread =>
    rcases read_failed_left hread with hspent | hlt
    · exact absurd ⟨hstate, hneg (by decide) hgo, hspent⟩ hp.2
    · exact rank_lt_of_left hlt
  | lineEnd hstate hread =>
    exact absurd ⟨hstate, hneg (by decide) hgo, spent_of_read_end (by decide) hread⟩ hp.2
  | unknown _ hread => exact rank_lt_of_left (read_data_left hread)
  | headerRefused _ hread => exact rank_lt_of_left (read_data_left hread)
  | header _ hread =>
    have hlt := read_data_left hread
    exact rank_lt_of_left (by rwa [leftOver_sock])
  | command _ hread =>
    have hlt := read_data_left hread
    exact rank_lt_of_left (by rwa [leftOver_sock])
  | noLength hstate =>
    exact rank_lt_of_stage rfl (one_le_stage hstate)
  | bodyNothing hstate _ hprep hend =>
    obtain ⟨-, -, -, hsock, -⟩ := bodyPrepare_frame hprep
    exact rank_lt_of_stage ((bodyEnd_sock hend).trans hsock)
      (stage_lt_of_bodyNothing hstate hprep hend hgo)
  | bodyTooLong _ _ hprep hlen =>
    have hflag := flag_of_bodyPrepare hprep (by omega)
    cases hflag.symm.trans (hneg (by decide) hgo)
  | bodyFailed _ _ hprep hpos =>
    have hflag := flag_of_bodyPrepare hprep hpos
    cases hflag.symm.trans (hneg (by decide) hgo)
  | bodyStreamEnd _ _ hprep hpos =>
    have hflag := flag_of_bodyPrepare hprep hpos
    cases hflag.symm.trans (hneg (by decide) hgo)
  | bodyBytes _ _ hprep _ _ hread _ hend =>
    obtain ⟨-, -, -, hsock, -⟩ := bodyPrepare_frame hprep
    have hlt := read_data_left hread
    have hu := bodyEnd_sock hend
    exact rank_lt_of_left (by rw [hu, ← hsock]; exact hlt)

/-- When the loop goes on, what comes behind a call leaves nothing more to do. -/
theorem rank_le_of_disposed (h : Disposed hash busy u ret t) (hin : t.inLoop = true) :
    t.rank ≤ u.rank ∧ (0 < ret ∨ u.dataPendingRead = true) := by
  cases h with
  | @posted v hret hstate _ hpost =>
    have hsock : v.sock = u.sock := by
      unfold post at hpost
      repeat' split at hpost
      all_goals cases hpost
      all_goals rfl
    refine ⟨?_, .inl hret⟩
    have hrank : v.reset.rank = 4 * left v.sock := rfl
    rw [hrank, hsock, rank]
    exact Nat.le_add_right _ _
  | quit =>
    cases busy
    · cases hin
    · cases hin
  | ignored hret =>
    refine ⟨?_, .inl hret⟩
    have hrank : u.reset.rank = 4 * left u.sock := rfl
    rw [hrank, rank]
    exact Nat.le_add_right _ _
  | again hgo => exact ⟨le_rfl, hgo⟩
  | left => cases (u.leave_spec ret).1.symm.trans hin

theorem rank_lt_of_turn (h : s.turn hash busy = some t) (hin : t.inLoop = true)
    (hp : s.Proceeds) : t.rank < s.rank := by
  obtain ⟨u, ret, hcall, hdisposed⟩ := turn_cases h
  obtain ⟨hle, hgo⟩ := rank_le_of_disposed hdisposed hin
  exact lt_of_le_of_lt hle (rank_lt_of_call hcall hgo hp)

/-! ## The loop -/

theorem ReturnsWithin.mono {n m : ℕ} (h : s.ReturnsWithin hash n) (hle : n ≤ m) :
    s.ReturnsWithin hash m := by
  intro busys hlen
  obtain ⟨t, ht, hleft⟩ := h (busys.take n) (by simp [hlen, hle])
  refine ⟨t, ?_, hleft⟩
  rw [← List.take_append_drop n busys, loop_append, ht, Option.bind_some, loop_of_left hash hleft]

/-- A turn in `cmd_wait` with `dataPendingRead` set and nothing left to read changes nothing that
matters, for ever. -/
theorem loop_of_stuck (hash : Bytes → UInt32) (hin : s.inLoop = true) (hstate : s.state = .cmdWait)
    (hflag : s.dataPendingRead = true) (hspent : s.sock.Spent) (busys : List Bool) :
    ∃ t, s.loop hash busys = some t ∧ t.inLoop = true := by
  induction busys generalizing s with
  | nil => exact ⟨s, rfl, hin⟩
  | cons busy busys ih =>
    obtain ⟨hread, hrest⟩ := read_of_spent hspent cmdWaitInit
    obtain ⟨u, ret, hcall, hret, hu, huflag, -, hsock⟩ := processDataRecv_of_noBytes hstate hread
    have huin : u.inLoop = true :=
      (congrArg (fun r => r.2.1) (call_of_processDataRecv hcall).aside).trans hin
    have hturn : s.turn hash busy = some u := by
      rw [turn, hcall, Option.bind_some]
      simp [dispose, Int.not_lt.mpr hret, huflag, hflag]
    rw [loop_cons hin, hturn, Option.bind_some]
    exact ih huin hu (huflag.trans hflag) (hsock.trans hrest ▸ hspent)

/-- A loop that gets on in every state it reaches ends. -/
theorem returns_of_proceeds (hs : Shape s)
    (h : ∀ busys t, s.loop hash busys = some t → t.inLoop = true → t.Proceeds) :
    s.Returns hash := by
  induction hrank : s.rank using Nat.strong_induction_on generalizing s with
  | _ n ih =>
    cases hin : s.inLoop with
    | false => exact ⟨0, fun busys _ => ⟨s, loop_of_left hash hin busys, hin⟩⟩
    | true =>
      have hp := h [] s rfl hin
      have hbranch (busy : Bool) : ∃ t m, s.turn hash busy = some t ∧ t.ReturnsWithin hash m := by
        have hsome : (s.turn hash busy).isSome = true := hs.turn_isSome.mpr hp.1
        obtain ⟨t, ht⟩ := Option.isSome_iff_exists.mp hsome
        cases htin : t.inLoop with
        | false => exact ⟨t, 0, ht, fun busys _ => ⟨t, loop_of_left hash htin busys, htin⟩⟩
        | true =>
          have hlt := rank_lt_of_turn ht htin hp
          have hgets (busys : List Bool) (v : Conn) (hv : t.loop hash busys = some v)
              (hvin : v.inLoop = true) : v.Proceeds := by
            apply h (busy :: busys) v _ hvin
            rw [loop_cons hin, ht, Option.bind_some, hv]
          obtain ⟨m, hm⟩ := ih t.rank (hrank ▸ hlt) (hs.of_turn ht) hgets rfl
          exact ⟨t, m, ht, hm⟩
      obtain ⟨t, m, ht, hm⟩ := hbranch false
      obtain ⟨t', m', ht', hm'⟩ := hbranch true
      refine ⟨max m m' + 1, fun busys hlen => ?_⟩
      cases busys with
      | nil => simp at hlen
      | cons busy busys =>
        rw [loop_cons hin]
        have hlen' : busys.length = max m m' := by simpa using hlen
        cases busy with
        | false =>
          rw [ht, Option.bind_some]
          exact hm.mono (le_max_left m m') busys hlen'
        | true =>
          rw [ht', Option.bind_some]
          exact hm'.mono (le_max_right m m') busys hlen'

theorem proceeds_of_returns (h : s.Returns hash) {busys : List Bool}
    (ht : s.loop hash busys = some t) (hts : Shape t) (hin : t.inLoop = true) : t.Proceeds := by
  obtain ⟨n, hn⟩ := h
  have hmore := hn.mono (Nat.le_add_left n busys.length)
  have hafter (more : List Bool) (hlen : more.length = n) :
      ∃ v, t.loop hash more = some v ∧ v.inLoop = false := by
    obtain ⟨v, hv, hleft⟩ := hmore (busys ++ more) (by simp [hlen])
    rw [loop_append, ht, Option.bind_some] at hv
    exact ⟨v, hv, hleft⟩
  obtain ⟨v, hv, hleft⟩ := hafter (List.replicate n false) (by simp)
  constructor
  · cases n with
    | zero =>
      obtain rfl := Option.some.inj hv
      cases hin.symm.trans hleft
    | succ n =>
      rw [List.replicate_succ, loop_cons hin] at hv
      obtain ⟨u, hu, -⟩ := Option.bind_eq_some_iff.mp hv
      exact hts.turn_isSome.mp (Option.isSome_iff_exists.mpr ⟨u, hu⟩)
  · rintro ⟨hstate, hflag, hspent⟩
    obtain ⟨w, hw, hstuck⟩ := loop_of_stuck hash hin hstate hflag hspent
      (List.replicate n false)
    obtain rfl := Option.some.inj (hv.symm.trans hw)
    cases hleft.symm.trans hstuck

theorem Shape.of_loop (hs : Shape s) {busys : List Bool} (h : s.loop hash busys = some t) :
    Shape t := by
  induction busys generalizing s with
  | nil =>
    obtain rfl := Option.some.inj h
    exact hs
  | cons busy busys ih =>
    rw [loop] at h
    split at h
    · obtain ⟨u, hu, hrest⟩ := Option.bind_eq_some_iff.mp h
      exact ih (hs.of_turn hu) hrest
    · obtain rfl := Option.some.inj h
      exact hs

end Conn

/-- In every state of a connection that callbacks reach, whatever its socket gives from there on, the
loop of `commRead_cb` returns after finitely many turns exactly if every state it reaches gets
on. -/
theorem returns_iff_proceeds (hash : Bytes → UInt32) (mem s : Conn) (sock sock' : Sock)
    (acts : List RecvAct) (hrun : exec (recvStep hash) (.new mem sock) acts = some s) :
    { s with sock := sock' }.Returns hash ↔
      ∀ busys t, { s with sock := sock' }.loop hash busys = some t → t.inLoop = true → t.Proceeds := by
  have hs : Conn.Shape { s with sock := sock' } := (Conn.Shape.of_run hrun).congr rfl rfl rfl
  constructor
  · intro h busys t ht hin
    exact Conn.proceeds_of_returns h ht (hs.of_loop ht) hin
  · exact Conn.returns_of_proceeds hs

def pipelinedGets : Bytes := [103, 101, 116, 32, 107, 13, 10, 103, 101, 116, 32, 107, 13, 10]

/-- A get on a connection whose callback has just been started. -/
theorem returns_singleGet : ∃ s, exec (recvStep fun _ => 0) (.new .zeroed ⟨[]⟩) [.callback 0 0] =
    some s ∧ ({ s with sock := ⟨[.data (pipelinedGets.take 7)]⟩ }.Returns (fun _ => 0) ↔
      ∀ busys t, { s with sock := ⟨[.data (pipelinedGets.take 7)]⟩ }.loop (fun _ => 0) busys =
        some t → t.inLoop = true → t.Proceeds) :=
  ⟨_, rfl, returns_iff_proceeds _ .zeroed _ ⟨[]⟩ ⟨[.data (pipelinedGets.take 7)]⟩ [.callback 0 0] rfl⟩

/-- The second get is left over behind the first one, which nothing takes up, and the loop goes on
for ever. -/
theorem returns_fails : ¬ ∀ (sock sock' : Sock) (acts : List RecvAct) (s : Conn),
    exec (recvStep fun _ => 0) (.new .zeroed sock) acts = some s →
      { s with sock := sock' }.Returns fun _ => 0 := by
  intro hall
  obtain ⟨n, hn⟩ := hall ⟨[]⟩ ⟨[.data pipelinedGets]⟩ [.callback 0 0] _ rfl
  have hrun : (Conn.turn (fun _ => 0) false
      { (Conn.new .zeroed ⟨[]⟩).enter 0 0 with sock := ⟨[.data pipelinedGets]⟩ }).map
        (fun t => (t.inLoop, t.state, t.dataPendingRead, t.sock)) =
      some (true, .cmdWait, true, ⟨[]⟩) := by decide
  obtain ⟨t, ht, hview⟩ := Option.map_eq_some_iff.mp hrun
  simp only [Prod.mk.injEq] at hview
  obtain ⟨hin, hstate, hflag, hsock⟩ := hview
  obtain ⟨u, hu, hleft⟩ := hn.mono (Nat.le_succ n) (List.replicate (n + 1) false) (by simp)
  obtain ⟨v, hv, hstuck⟩ := Conn.loop_of_stuck (fun _ => 0) hin hstate hflag
    (hsock ▸ trivial) (List.replicate n false)
  have hloop : Conn.loop (fun _ => 0) (List.replicate (n + 1) false)
      { (Conn.new .zeroed ⟨[]⟩).enter 0 0 with sock := ⟨[.data pipelinedGets]⟩ } = some v := by
    rw [List.replicate_succ, Conn.loop_cons rfl, ht, Option.bind_some, hv]
  obtain rfl := Option.some.inj (hu.symm.trans hloop)
  cases hleft.symm.trans hstuck

end Acached.Receive
