import Acached.Worker.ReplyState
import Acached.Dispatch.Arrivals
import Acached.Foundation.Tally

/-! # The phases of a connection

Who holds `Busy`, what the counters of a get are then, and how far its
completion has come. The phases follow one another as long as a command is
dispatched only when the one before is cleared away and is one that workers
end, and no worker takes the completion branch for a test that compares two
zeros.
-/
namespace Acached.Worker
open CString Dispatch Reply Execution Tally

/-- The worker has taken a key and not yet counted it as answered. -/
@[simp] def Pc.Answering : Pc → Prop
  | .lookup _ | .qreply _ | .incr => True
  | _ => False

instance : DecidablePred Pc.Answering
  | .lookup _ | .qreply _ | .incr => isTrue trivial
  | .idle | .setIndex | .setAdd _ | .setSend | .setRelease | .readPending | .readReq | .swap _
  | .compare _ | .clearReq | .endIndex | .endAdd _ | .endTotal _ | .endZero _ | .endWindow _
  | .endWait .. | .endScan .. | .endFlag .. | .endWrite .. | .reset .. | .endFree _ | .getRelease
  | .test | .write => isFalse id

/-- The worker has seen `concPending` reset and is testing for completion. -/
@[simp] def Pc.Past : Pc → Prop
  | .readReq | .swap _ | .compare _ => True
  | _ => False

@[simp] def Pc.Setting : Pc → Prop
  | .setIndex | .setAdd _ | .setSend | .setRelease => True
  | _ => False

/-- The worker is in the completion branch, behind its reset of `reqCount`. -/
@[simp] def Pc.Ending : Pc → Prop
  | .endIndex | .endAdd _ | .endTotal _ | .endZero _ | .endWindow _ | .endWait .. | .endScan ..
  | .endFlag .. | .endWrite .. | .reset _ (some _) | .endFree _ | .getRelease => True
  | _ => False

@[simp] def Pc.ends : Pc → ℕ
  | .reset .. | .endFree _ | .getRelease => 1
  | _ => 0

@[simp] def Pc.Late : Pc → Prop
  | .idle | .test | .write | .reset _ none | .readPending | .readReq | .swap _ | .compare _ => True
  | _ => False

/-- Where a worker may be while `n` keys are counted and nobody has completed the get. -/
@[simp] def Pc.Open (n : ℕ) : Pc → Prop
  | .idle | .test | .write | .lookup _ | .qreply _ | .incr | .readPending | .readReq => True
  | .swap e => e = n
  | .compare ret => ret ≠ n
  | _ => False

/-- Where a worker may be once another one has won the swap of `replyCount`. -/
def Pc.Lost (n : ℕ) (pc : Pc) : Prop := pc.Open n ∧ ¬ pc.Answering

@[simp] def Pc.Live : Pc → Prop
  | .readPending | .readReq | .swap _ => True
  | _ => False

/-- The last command, if it was a get, was completed once, with all its keys answered. -/
def Record.Once (record : Record) : Prop :=
  record.completions = [record.keys] ∧ record.ends = 1 ∧ record.releases = 1

/-- `DispatchesClear`, every dispatched command is ended by a worker or closes the connection, and
no worker compares a zero that it swapped with a `reqCount` that is zero. -/
def Orderly (hash : Bytes → UInt32) {W : Type} (s : Session W) : Act W → Prop
  | .comm a => DispatchesClear s (.comm a) ∧ ∀ aM ∈ s.dispatching a,
      (dispatch hash s.ctype aM).Ends ∨ dispatch hash s.ctype aM = .closeConnection
  | .take .. => True
  | .step w _ _ => ¬ (s.worker w = .compare 0 ∧ s.reqCount = 0)

variable {W : Type} [Fintype W]

/-- The phases, by the fields that matter. -/
inductive Phase (comm : Tsq) (busy concPending : Bool) (reqCount replyCount : ℕ)
    (queue : List (ℕ × AMsg)) (worker : W → Pc) (record : Record) : Prop
  | quiet (place : comm.Outside ∧ busy = false ∨ comm.Owns ∧ busy = true) (none : queue = [])
      (late : ∀ w, (worker w).Late) (req : reqCount = 0) (reply : replyCount = 0)
      (once : record.keys ≠ 0 → record.Once)
  | setQueued (m : ℕ × AMsg) (out : comm.Outside) (busy : busy = true) (one : queue = [m])
      (set : m.2.ctype = .set) (tail : ∀ w, (worker w).Tail) (req : reqCount = 0)
      (reply : replyCount = 0) (keys : record.keys = 0)
  | setRunning (w : W) (out : comm.Outside) (busy : busy = true) (none : queue = [])
      (setting : (worker w).Setting) (tail : ∀ v, v ≠ w → (worker v).Tail) (req : reqCount = 0)
      (reply : replyCount = 0) (keys : record.keys = 0)
  | setting (msgs : List AMsg) (post : comm = .posting .set msgs) (some : msgs ≠ [])
      (gets : ∀ m ∈ msgs, m.ctype = .gets) (busy : busy = true) (none : queue = [])
      (tail : ∀ w, (worker w).Tail) (req : reqCount = 0) (reply : replyCount = 0)
      (record : record = ⟨msgs.length, 0, [], 0, 0⟩)
  | posting (k : PostAt) (aM : AMsg) (rest : List AMsg) (post : comm = .posting k (aM :: rest))
      (loop : k ≠ .set) (busy : busy = true) (pending : concPending = k.pending rest)
      (gets : ∀ m ∈ aM :: rest, m.ctype = .gets) (queued : ∀ m ∈ queue, m.2.ctype = .gets)
      (workers : ∀ w, (worker w).Open reqCount)
      (early : concPending = true → ∀ w, ¬ (worker w).Past)
      (count : reqCount = replyCount + queue.length + tally Pc.Answering worker + k.counted)
      (keys : reqCount + (aM :: rest).length = record.keys + k.counted)
      (record : record = ⟨record.keys, replyCount, [], 0, 0⟩)
  | waiting (out : comm.Outside) (busy : busy = true) (pending : concPending = false)
      (queued : ∀ m ∈ queue, m.2.ctype = .gets) (workers : ∀ w, (worker w).Open reqCount)
      (count : reqCount = replyCount + queue.length + tally Pc.Answering worker)
      (live : replyCount = reqCount → ∃ w, (worker w).Live) (pos : 0 < reqCount)
      (record : record = ⟨reqCount, replyCount, [], 0, 0⟩)
  | won (w : W) (out : comm.Outside) (busy : busy = true) (pending : concPending = false)
      (none : queue = []) (winner : worker w = .compare reqCount)
      (lost : ∀ v, v ≠ w → (worker v).Lost reqCount)
      (reply : replyCount = 0) (pos : 0 < reqCount)
      (record : record = ⟨reqCount, reqCount, [], 0, 0⟩)
  | clearing (w : W) (out : comm.Outside) (busy : busy = true) (pending : concPending = false)
      (none : queue = []) (winner : worker w = .clearReq)
      (lost : ∀ v, v ≠ w → (worker v).Lost reqCount)
      (reply : replyCount = 0) (pos : 0 < reqCount)
      (record : record = ⟨reqCount, reqCount, [reqCount], 0, 0⟩)
  | ending (w : W) (out : comm.Outside) (busy : busy = true) (none : queue = [])
      (ending : (worker w).Ending) (late : ∀ v, v ≠ w → (worker v).Late) (req : reqCount = 0)
      (reply : replyCount = 0)
      (record : record = ⟨record.keys, record.keys, [record.keys], (worker w).ends, 0⟩)

def Session.InPhase (s : Session W) : Prop :=
  Phase s.comm s.busy s.concPending s.reqCount s.replyCount s.queue s.worker s.record

theorem Session.init_inPhase (ctype : ACmdType) : (Session.init W ctype).InPhase :=
  .quiet (.inl ⟨trivial, rfl⟩) rfl (fun _ => trivial) rfl rfl fun h => absurd rfl h

theorem Pc.Tail.late {pc : Pc} (h : pc.Tail) : pc.Late := by
  cases pc <;> first | exact h.elim | trivial

theorem Pc.Tail.open {pc : Pc} (h : pc.Tail) (n : ℕ) : pc.Open n := by
  cases pc <;> first | exact h.elim | trivial

theorem Pc.Tail.not_answering {pc : Pc} (h : pc.Tail) : ¬ pc.Answering := by
  cases pc <;> first | exact h.elim | exact id

theorem Pc.Tail.not_past {pc : Pc} (h : pc.Tail) : ¬ pc.Past := by
  cases pc <;> first | exact h.elim | exact id

theorem Pc.Tail.not_setting {pc : Pc} (h : pc.Tail) : ¬ pc.Setting := by
  cases pc <;> first | exact h.elim | exact id

theorem Pc.Tail.not_live {pc : Pc} (h : pc.Tail) : ¬ pc.Live := by
  cases pc <;> first | exact h.elim | exact id

theorem Pc.Tail.not_ending {pc : Pc} (h : pc.Tail) : ¬ pc.Ending := by
  cases pc <;> first | exact h.elim | exact id

theorem not_owns_of_outside {c : Tsq} (h : c.Outside) : ¬ c.Owns := by
  cases c <;> first | exact id | exact h.elim

theorem outside_posting_nil {k : PostAt} (h : Tsq.Outside (.posting k [])) : k = .count := by
  cases k <;> first | rfl | exact h.elim

theorem Pc.Open.of_not_past {pc : Pc} {m : ℕ} (h : pc.Open m) (hp : ¬ pc.Past) (n : ℕ) :
    pc.Open n := by
  cases pc <;> first | exact h.elim | exact trivial | exact absurd trivial hp

theorem Pc.Lost.late {pc : Pc} {n : ℕ} (h : pc.Lost n) : pc.Late := by
  cases pc <;> simp_all [Pc.Lost]

namespace Phase

variable {comm : Tsq} {busy concPending : Bool} {reqCount replyCount : ℕ}
  {queue : List (ℕ × AMsg)} {worker : W → Pc} {record : Record}
  (phase : Phase comm busy concPending reqCount replyCount queue worker record)
include phase

theorem outside (hout : comm.Outside) (comm' : Tsq) (hout' : comm'.Outside) :
    Phase comm' busy concPending reqCount replyCount queue worker record := by
  cases phase with
  | quiet place none late req reply once =>
    rcases place with ⟨-, hb⟩ | ⟨howns, -⟩
    · exact .quiet (.inl ⟨hout', hb⟩) none late req reply once
    · exact absurd howns (not_owns_of_outside hout)
  | setQueued m _ busy one set tail req reply keys =>
    exact .setQueued m hout' busy one set tail req reply keys
  | setRunning w _ busy none setting tail req reply keys =>
    exact .setRunning w hout' busy none setting tail req reply keys
  | setting msgs post => simp [post, Tsq.Outside] at hout
  | posting k aM rest post => simp [post, Tsq.Outside] at hout
  | waiting _ busy pending queued workers count live pos record =>
    exact .waiting hout' busy pending queued workers count live pos record
  | won w _ busy pending none winner lost reply pos record =>
    exact .won w hout' busy pending none winner lost reply pos record
  | clearing w _ busy pending none winner lost reply pos record =>
    exact .clearing w hout' busy pending none winner lost reply pos record
  | ending w _ busy none ending late req reply record =>
    exact .ending w hout' busy none ending late req reply record

theorem of_not_busy (hb : busy = false) : queue = [] ∧ (∀ w, (worker w).Late) ∧ reqCount = 0 ∧
    replyCount = 0 ∧ (record.keys ≠ 0 → record.Once) := by
  cases phase with
  | quiet _ none late req reply once => exact ⟨none, late, req, reply, once⟩
  | setQueued _ _ busy | setRunning _ _ busy | setting _ _ _ _ busy | posting _ _ _ _ _ busy
  | waiting _ busy | won _ _ busy | clearing _ _ busy | ending _ _ busy => simp [hb] at busy

theorem of_owns (howns : comm.Owns) : busy = true ∧ queue = [] ∧ (∀ w, (worker w).Late) ∧
    reqCount = 0 ∧ replyCount = 0 ∧ (record.keys ≠ 0 → record.Once) := by
  cases phase with
  | quiet place none late req reply once =>
    rcases place with ⟨hout, -⟩ | ⟨-, hb⟩
    · exact absurd howns (not_owns_of_outside hout)
    · exact ⟨hb, none, late, req, reply, once⟩
  | setting msgs post => simp [post, Tsq.Owns] at howns
  | posting k aM rest post => simp [post, Tsq.Owns] at howns
  | setQueued _ out | setRunning _ out | waiting out | won _ out | clearing _ out
  | ending _ out => exact absurd howns (not_owns_of_outside out)

theorem of_setting {msgs : List AMsg} (hc : comm = .posting .set msgs) :
    msgs ≠ [] ∧ (∀ m ∈ msgs, m.ctype = .gets) ∧ busy = true ∧ queue = [] ∧
      (∀ w, (worker w).Tail) ∧ reqCount = 0 ∧ replyCount = 0 ∧
      record = ⟨msgs.length, 0, [], 0, 0⟩ := by
  cases phase with
  | setting msgs' post some gets busy none tail req reply record =>
    obtain rfl : msgs' = msgs := by simpa [hc] using post.symm
    exact ⟨some, gets, busy, none, tail, req, reply, record⟩
  | posting k aM rest post loop =>
    obtain ⟨rfl, -⟩ : k = .set ∧ _ := by simpa [hc] using post.symm
    exact absurd rfl loop
  | quiet place =>
    rcases place with ⟨hout, -⟩ | ⟨howns, -⟩
    · simp [hc, Tsq.Outside] at hout
    · simp [hc, Tsq.Owns] at howns
  | setQueued _ out | setRunning _ out | waiting out | won _ out | clearing _ out
  | ending _ out => simp [hc, Tsq.Outside] at out

theorem of_posting {k : PostAt} {aM : AMsg} {rest : List AMsg}
    (hc : comm = .posting k (aM :: rest)) (hk : k ≠ .set) :
    busy = true ∧ concPending = k.pending rest ∧ (∀ m ∈ aM :: rest, m.ctype = .gets) ∧
      (∀ m ∈ queue, m.2.ctype = .gets) ∧ (∀ w, (worker w).Open reqCount) ∧
      (concPending = true → ∀ w, ¬ (worker w).Past) ∧
      reqCount = replyCount + queue.length + tally Pc.Answering worker + k.counted ∧
      reqCount + (aM :: rest).length = record.keys + k.counted ∧
      record = ⟨record.keys, replyCount, [], 0, 0⟩ := by
  cases phase with
  | setting msgs post =>
    obtain ⟨rfl, -⟩ : k = .set ∧ _ := by simpa [hc] using post
    exact absurd rfl hk
  | posting k' aM' rest' post loop busy pending gets queued workers early count keys record =>
    obtain ⟨rfl, rfl, rfl⟩ : k = k' ∧ aM = aM' ∧ rest = rest' := by simpa [hc] using post
    exact ⟨busy, pending, gets, queued, workers, early, count, keys, record⟩
  | quiet place =>
    rcases place with ⟨hout, -⟩ | ⟨howns, -⟩
    · simp [hc, Tsq.Outside] at hout
    · simp [hc, Tsq.Owns] at howns
  | setQueued _ out | setRunning _ out | waiting out | won _ out | clearing _ out
  | ending _ out => simp [hc, Tsq.Outside] at out

theorem posting_ne_nil {k : PostAt} (hk : k ≠ .count) : comm ≠ .posting k [] := by
  rintro rfl
  cases phase with
  | setting msgs post some =>
    obtain ⟨-, rfl⟩ : k = .set ∧ msgs = [] := by simpa using post
    exact absurd rfl some
  | posting k' aM rest post => simp at post
  | quiet place =>
    rcases place with ⟨hout, -⟩ | ⟨howns, -⟩
    · exact hk (outside_posting_nil hout)
    · simp [Tsq.Owns] at howns
  | setQueued _ out | setRunning _ out | waiting out | won _ out | clearing _ out
  | ending _ out => exact hk (outside_posting_nil out)

theorem owns (howns : comm.Owns) {comm' : Tsq} (howns' : comm'.Owns) :
    Phase comm' busy concPending reqCount replyCount queue worker record := by
  obtain ⟨hb, none, late, req, reply, once⟩ := phase.of_owns howns
  exact .quiet (.inr ⟨howns', hb⟩) none late req reply once

theorem acquire (hb : busy = false) {comm' : Tsq} (howns' : comm'.Owns) :
    Phase comm' true concPending reqCount replyCount queue worker record := by
  obtain ⟨none, late, req, reply, once⟩ := phase.of_not_busy hb
  exact .quiet (.inr ⟨howns', rfl⟩) none late req reply once

theorem release (howns : comm.Owns) {comm' : Tsq} (hout' : comm'.Outside) :
    Phase comm' false concPending reqCount replyCount queue worker record := by
  obtain ⟨hb, none, late, req, reply, once⟩ := phase.of_owns howns
  exact .quiet (.inl ⟨hout', rfl⟩) none late req reply once

theorem post_set {msgs : List AMsg} (hc : comm = .posting .set msgs) :
    Phase (.posting .count msgs) busy true reqCount replyCount queue worker record := by
  obtain ⟨hne, gets, hb, hq, tail, hreq, hreply, hrec⟩ := phase.of_setting hc
  obtain ⟨aM, rest, rfl⟩ := List.exists_cons_of_ne_nil hne
  have hnone : tally Pc.Answering worker = 0 := tally_eq_zero_iff.mpr fun w => (tail w).not_answering
  refine .posting .count aM rest rfl (by simp) hb rfl gets (by simp [hq])
    (fun w => (tail w).open _) ?_ ?_ ?_ ?_
  · exact fun _ w => (tail w).not_past
  · simp [hreq, hreply, hq, hnone, PostAt.counted]
  · simp [hreq, hrec, PostAt.counted]
  · rw [hreply, hrec]

theorem post_count {aM : AMsg} {rest : List AMsg} (hc : comm = .posting .count (aM :: rest)) :
    Phase (.posting .reset (aM :: rest)) busy concPending (reqCount + 1) replyCount queue worker
      record := by
  obtain ⟨hb, hp, gets, queued, workers, early, count, keys, hrec⟩ :=
    phase.of_posting hc (by simp)
  have hpast := early (by simp [hp, PostAt.pending])
  refine .posting .reset aM rest rfl (by simp) hb hp gets queued ?_ early ?_ ?_ hrec
  · exact fun w => (workers w).of_not_past (hpast w) _
  · simp only [PostAt.counted] at count ⊢
    omega
  · simp only [PostAt.counted] at keys ⊢
    omega

theorem post_reset {aM : AMsg} {rest : List AMsg} (hc : comm = .posting .reset (aM :: rest)) :
    Phase (.posting .put (aM :: rest)) busy (concPending && !rest.isEmpty) reqCount replyCount queue
      worker record := by
  obtain ⟨hb, hp, gets, queued, workers, early, count, keys, hrec⟩ :=
    phase.of_posting hc (by simp)
  refine .posting .put aM rest rfl (by simp) hb ?_ gets queued workers ?_ count keys hrec
  · simp [hp, PostAt.pending]
  · intro h
    exact early (Bool.and_eq_true _ _ ▸ h).1

theorem post_put {aM : AMsg} {rest : List AMsg} (hc : comm = .posting .put (aM :: rest)) (n : ℕ) :
    Phase (.posting .count rest) busy concPending reqCount replyCount (queue ++ [(n, aM)]) worker
      record := by
  obtain ⟨hb, hp, gets, queued, workers, early, count, keys, hrec⟩ :=
    phase.of_posting hc (by simp)
  have queued' : ∀ m ∈ queue ++ [(n, aM)], m.2.ctype = .gets := by
    intro m hm
    rcases List.mem_append.mp hm with hm | hm
    · exact queued m hm
    · rw [List.mem_singleton.mp hm]
      exact gets aM List.mem_cons_self
  simp only [PostAt.counted, List.length_cons] at count keys
  cases rest with
  | nil =>
    have hkeys : record.keys = reqCount := by simpa using keys.symm
    refine .waiting trivial hb hp queued' workers ?_ ?_ (by omega) ?_
    · rw [List.length_append, List.length_singleton]
      omega
    · intro heq
      omega
    · rw [hrec, hkeys]
  | cons aM' rest =>
    refine .posting .count aM' rest rfl (by simp) hb hp
      (fun m hm => gets m (List.mem_cons_of_mem _ hm)) queued' workers early ?_ ?_ hrec
    · simp only [PostAt.counted, List.length_append, List.length_singleton]
      omega
    · simp only [PostAt.counted, List.length_cons] at keys ⊢
      omega

end Phase

variable {hash : Bytes → UInt32} {s : Session W}

/-- A dispatch of a cleared connection hands the command to the workers or closes the
connection. -/
theorem Session.InPhase.run (phase : s.InPhase) {aM : AMsg} (hc : s.comm = .branch (some aM))
    (hgood : Orderly hash s (.comm .post)) : Phase (s.run hash aM).1.comm (s.run hash aM).1.busy
      (s.run hash aM).1.concPending (s.run hash aM).1.reqCount (s.run hash aM).1.replyCount
      (s.queue ++ (s.run hash aM).2.map fun m => ((s.run hash aM).1.dispatched.length, m)) s.worker
      (s.record.dispatched hash s.toReqState .post) := by
  obtain ⟨hb, hq, -, hreq, hreply, -⟩ := phase.of_owns (by simp [hc, Tsq.Owns])
  have hd : s.dispatching .post = some aM := by simp [ReqState.dispatching, hc]
  obtain ⟨hclear, hends⟩ := hgood
  have htail := (hclear (by simp [hd])).2
  have hends := hends aM (by simp [hd])
  cases he : dispatch hash s.ctype aM with
  | put aM' =>
    rw [he] at hends
    simp only [Record.dispatched, hd, ReqState.run, he]
    have hset : aM'.ctype = .set := by simpa [Effect.Ends] using hends
    exact .setQueued (s.dispatched.length + 1, aM') trivial hb (by simp [hq]) hset htail hreq hreply
      rfl
  | split msgs =>
    rw [he] at hends
    simp only [Record.dispatched, hd, ReqState.run, he]
    have hne : msgs ≠ [] := by simpa [Effect.Ends] using hends
    exact .setting msgs rfl hne (dispatch_split_gets he) hb (by simp [hq]) htail hreq hreply rfl
  | closeConnection =>
    simp only [Record.dispatched, hd, ReqState.run, he]
    exact .quiet (.inr ⟨trivial, hb⟩) (by simp [hq]) (fun w => (htail w).late) hreq hreply
      fun h => absurd rfl h

/-- The comm thread's steps lead from phase to phase. -/
theorem Session.InPhase.post (phase : s.InPhase) (hgood : Orderly hash s (.comm .post))
    {q : ReqState} {put : List AMsg} (h : s.toReqState.post2KVdataTSQ hash = some (q, put)) :
    Phase q.comm q.busy q.concPending q.reqCount q.replyCount
      (s.queue ++ put.map fun aM => (q.dispatched.length, aM)) s.worker
      (s.record.dispatched hash s.toReqState .post) := by
  unfold ReqState.post2KVdataTSQ at h
  cases hc : s.comm with
  | branch aM =>
    cases aM with
    | none =>
      have hd : s.dispatching .post = none := by simp [ReqState.dispatching, hc]
      simp only [hc, Option.some.injEq, Prod.mk.injEq] at h
      obtain ⟨rfl, rfl⟩ := h
      rw [List.map_nil, List.append_nil, Record.dispatched, hd]
      exact phase.owns (by simp [hc, Tsq.Owns]) trivial
    | some aM =>
      simp only [hc, Option.some.injEq] at h
      obtain ⟨rfl, rfl⟩ : (s.run hash aM).1 = q ∧ (s.run hash aM).2 = put := by simp [h]
      exact phase.run hc hgood
  | idle => simp [hc] at h
  | swap ptr =>
    have hd : s.dispatching .post = none := by simp [ReqState.dispatching, hc]
    rw [Record.dispatched, hd]
    simp only [hc] at h
    split at h <;> rename_i hb <;> cases h <;> rw [List.map_nil, List.append_nil]
    · exact phase.outside (by simp [hc, Tsq.Outside]) _ trivial
    · exact phase.acquire (by simpa using hb) trivial
  | take ptr =>
    have hd : s.dispatching .post = none := by simp [ReqState.dispatching, hc]
    rw [Record.dispatched, hd]
    simp only [hc] at h
    split at h <;> cases h <;> rw [List.map_nil, List.append_nil]
    all_goals exact phase.owns (by simp [hc, Tsq.Owns]) trivial
  | requeue aM aM1 =>
    have hd : s.dispatching .post = none := by simp [ReqState.dispatching, hc]
    simp only [hc, Option.some.injEq, Prod.mk.injEq] at h
    obtain ⟨rfl, rfl⟩ := h
    rw [List.map_nil, List.append_nil, Record.dispatched, hd]
    exact phase.owns (by simp [hc, Tsq.Owns]) trivial
  | release =>
    have hd : s.dispatching .post = none := by simp [ReqState.dispatching, hc]
    simp only [hc, Option.some.injEq, Prod.mk.injEq] at h
    obtain ⟨rfl, rfl⟩ := h
    rw [List.map_nil, List.append_nil, Record.dispatched, hd]
    exact phase.release (by simp [hc, Tsq.Owns]) trivial
  | enqueue ptr =>
    have hd : s.dispatching .post = none := by simp [ReqState.dispatching, hc]
    simp only [hc, Option.some.injEq, Prod.mk.injEq] at h
    obtain ⟨rfl, rfl⟩ := h
    rw [List.map_nil, List.append_nil, Record.dispatched, hd]
    exact phase.outside (by simp [hc, Tsq.Outside]) _ trivial
  | posting k msgs =>
    have hd : s.dispatching .post = none := by simp [ReqState.dispatching, hc]
    rw [Record.dispatched, hd]
    cases k with
    | set =>
      simp only [hc, Option.some.injEq, Prod.mk.injEq] at h
      obtain ⟨rfl, rfl⟩ := h
      rw [List.map_nil, List.append_nil]
      exact phase.post_set hc
    | count =>
      cases msgs with
      | nil =>
        simp only [hc, Option.some.injEq, Prod.mk.injEq] at h
        obtain ⟨rfl, rfl⟩ := h
        rw [List.map_nil, List.append_nil]
        exact phase.outside (by simp [hc, Tsq.Outside]) _ trivial
      | cons aM rest =>
        simp only [hc, Option.some.injEq, Prod.mk.injEq] at h
        obtain ⟨rfl, rfl⟩ := h
        rw [List.map_nil, List.append_nil]
        exact phase.post_count hc
    | reset =>
      cases msgs with
      | nil => exact absurd hc (phase.posting_ne_nil (by simp))
      | cons aM rest =>
        simp only [hc, Option.some.injEq, Prod.mk.injEq] at h
        obtain ⟨rfl, rfl⟩ := h
        rw [List.map_nil, List.append_nil]
        exact phase.post_reset hc
    | put =>
      cases msgs with
      | nil => exact absurd hc (phase.posting_ne_nil (by simp))
      | cons aM rest =>
        simp only [hc, Option.some.injEq, Prod.mk.injEq] at h
        obtain ⟨rfl, rfl⟩ := h
        exact phase.post_put hc _

end Acached.Worker
