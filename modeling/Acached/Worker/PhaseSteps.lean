import Acached.Worker.Phase

/-! # The workers' steps between the phases

What a worker can do in each of the places that a phase allows it, and the
phase that its step leads to. Together with the steps of the comm thread this
makes the phases an invariant of every orderly run.
-/
namespace Acached.Worker
open CString Dispatch Reply Execution Tally

variable {W : Type} {s s' : Session W} {found : Option (Bytes × Bytes)} {r : ℤ} {pc pc' : Pc}

/-- A step that leaves alone what the phases look at. -/
structure Silent (s s' : Session W) : Prop where
  busy : s'.busy = s.busy
  reqCount : s'.reqCount = s.reqCount
  replyCount : s'.replyCount = s.replyCount
  record : s'.record = s.record

theorem Session.next_tail_silent (h : s.next found r pc = some (pc', s')) (hpc : pc.Tail) :
    Silent s s' := by
  cases pc <;> first | exact hpc.elim | cases h
  all_goals exact ⟨rfl, rfl, rfl, rfl⟩

/-- What is left of a finished command does nothing while both counters are zero, unless it takes
a swap of zero for the completion. -/
theorem Session.next_late (h : s.next found r pc = some (pc', s')) (hpc : pc.Late)
    (hreq : s.reqCount = 0) (hreply : s.replyCount = 0) (hne : pc ≠ .compare 0) :
    pc'.Late ∧ Silent s s' := by
  cases pc <;> first | exact hpc.elim | skip
  case idle => cases h
  case test =>
    cases h
    refine ⟨?_, rfl, rfl, rfl, rfl⟩
    split <;> trivial
  case write => cases h; exact ⟨trivial, rfl, rfl, rfl, rfl⟩
  case readPending =>
    cases h
    refine ⟨?_, rfl, rfl, rfl, rfl⟩
    split <;> trivial
  case readReq => cases h; exact ⟨trivial, rfl, rfl, rfl, rfl⟩
  case swap e =>
    cases h
    refine ⟨trivial, rfl, rfl, ?_, rfl⟩
    simp [hreply]
  case compare ret =>
    have hret : ret ≠ s.reqCount := fun heq => hne (by rw [heq, hreq])
    rw [next, if_neg hret] at h
    cases h
    exact ⟨trivial, rfl, rfl, rfl, rfl⟩
  case reset k ret2 =>
    cases ret2 with
    | some n => exact hpc.elim
    | none =>
      cases k with
      | replyCount => cases h; exact ⟨trivial, rfl, rfl, hreply.symm, rfl⟩
      | _ => cases h; exact ⟨trivial, rfl, rfl, rfl, rfl⟩

theorem Session.next_setting (h : s.next found r pc = some (pc', s')) (hpc : pc.Setting) :
    pc'.Setting ∧ Silent s s' ∨
      pc'.Late ∧ s'.busy = false ∧ s'.reqCount = s.reqCount ∧ s'.replyCount = s.replyCount ∧
        s'.record.keys = s.record.keys := by
  cases pc <;> first | exact hpc.elim | cases h
  case setRelease => exact .inr ⟨trivial, rfl, rfl, rfl, rfl⟩
  all_goals exact .inl ⟨trivial, rfl, rfl, rfl, rfl⟩

theorem Session.next_ending (h : s.next found r pc = some (pc', s')) (hpc : pc.Ending)
    (hreply : s.replyCount = 0) (hends : s.record.ends = pc.ends) :
    (pc'.Ending ∧ s'.busy = s.busy ∧ s'.reqCount = s.reqCount ∧ s'.replyCount = 0 ∧
      s'.record = { s.record with ends := pc'.ends }) ∨
    (pc'.Late ∧ s'.busy = false ∧ s'.reqCount = s.reqCount ∧ s'.replyCount = 0 ∧
      s'.record = { s.record with ends := 1, releases := s.record.releases + 1 }) := by
  have hsame {pc : Pc} (hpc : s.record.ends = pc.ends) :
      s.record = { s.record with ends := pc.ends } := by rw [← hpc]
  cases pc <;> first | exact hpc.elim | skip
  case getRelease =>
    cases h
    refine .inr ⟨trivial, rfl, rfl, hreply, ?_⟩
    have hone : s.record.ends = 1 := hends
    rw [← hone]
  case endWait ret2 y =>
    rw [next, Option.ite_none_left_eq_some] at h
    obtain ⟨-, h⟩ := h
    cases h
    exact .inl ⟨trivial, rfl, rfl, hreply, hsame hends⟩
  case endScan ret2 y =>
    rw [next, Option.ite_none_right_eq_some] at h
    obtain ⟨-, h⟩ := h
    cases h
    exact .inl ⟨trivial, rfl, rfl, hreply, hsame hends⟩
  case endWrite ret2 y =>
    cases h
    refine .inl ⟨trivial, rfl, rfl, hreply, ?_⟩
    have hzero : s.record.ends = 0 := hends
    simp [hzero]
  case reset k ret2 =>
    cases ret2 with
    | none => exact hpc.elim
    | some n =>
      cases k with
      | replyCount => cases h; exact .inl ⟨trivial, rfl, rfl, rfl, hsame hends⟩
      | _ => cases h; exact .inl ⟨trivial, rfl, rfl, hreply, hsame hends⟩
  all_goals
    cases h
    exact .inl ⟨trivial, rfl, rfl, hreply, hsame hends⟩

/-- The steps of a worker while keys are counted: the answer to a key, the swap that takes the
completion, and the others, which leave the counters alone. -/
inductive OpenStep (s s' : Session W) (pc pc' : Pc) : Prop
  | silent (same : Silent s s') (open_ : pc'.Open s.reqCount)
      (answering : pc'.Answering ↔ pc.Answering) (past : pc'.Past → pc.Past ∨ s.concPending = false)
      (live : pc.Live → s.concPending = false → s.replyCount = s.reqCount → pc'.Live)
  | answer (answering : pc = .incr) (counted : pc' = .readPending) (busy : s'.busy = s.busy)
      (reqCount : s'.reqCount = s.reqCount) (replyCount : s'.replyCount = s.replyCount + 1)
      (record : s'.record = { s.record with answered := s.record.answered + 1 })
  | win (swap : pc = .swap s.reqCount) (winner : pc' = .compare s.reqCount)
      (all : s.replyCount = s.reqCount) (busy : s'.busy = s.busy)
      (reqCount : s'.reqCount = s.reqCount) (replyCount : s'.replyCount = 0)
      (record : s'.record = s.record)

theorem Session.next_open (h : s.next found r pc = some (pc', s')) (hpc : pc.Open s.reqCount) :
    OpenStep s s' pc pc' := by
  cases pc <;> first | exact hpc.elim | skip
  case idle => cases h
  case test =>
    cases h
    refine .silent ⟨rfl, rfl, rfl, rfl⟩ ?_ ?_ ?_ ?_ <;> split <;> simp
  case write => cases h; exact .silent ⟨rfl, rfl, rfl, rfl⟩ trivial (by simp) (by simp) (by simp)
  case lookup aM =>
    cases found <;> cases h
    all_goals exact .silent ⟨rfl, rfl, rfl, rfl⟩ trivial (by simp) (by simp) (by simp)
  case qreply q =>
    rw [next] at h
    split at h
    · cases h
      exact .silent ⟨rfl, rfl, rfl, rfl⟩ trivial (by simp) (by simp) (by simp)
    · obtain ⟨⟨q', reply⟩, -, hq⟩ := Option.map_eq_some_iff.mp h
      cases hq
      exact .silent ⟨rfl, rfl, rfl, rfl⟩ trivial (by simp) (by simp) (by simp)
  case incr => cases h; exact .answer rfl rfl rfl rfl rfl rfl
  case readPending =>
    cases h
    refine .silent ⟨rfl, rfl, rfl, rfl⟩ ?_ ?_ ?_ ?_
    · split <;> trivial
    · split <;> simp
    · split <;> simp_all
    · intro _ hp _
      rw [hp]
      trivial
  case readReq => cases h; exact .silent ⟨rfl, rfl, rfl, rfl⟩ rfl (by simp) (by simp) (by simp)
  case swap e =>
    obtain rfl : e = s.reqCount := hpc
    cases h
    by_cases hall : s.replyCount = s.reqCount
    · exact .win rfl (by rw [hall]) hall rfl rfl (if_pos hall) rfl
    · exact .silent ⟨rfl, rfl, if_neg hall, rfl⟩ hall (by simp) (by simp)
        fun _ _ heq => absurd heq hall
  case compare ret =>
    rw [next, if_neg hpc] at h
    cases h
    exact .silent ⟨rfl, rfl, rfl, rfl⟩ trivial (by simp) (by simp) (by simp)

theorem Session.next_lost (h : s.next found r pc = some (pc', s')) (hpc : pc.Lost s.reqCount)
    (reply : s.replyCount = 0) (pos : 0 < s.reqCount) : pc'.Lost s.reqCount ∧ Silent s s' := by
  obtain ⟨hopen, hans⟩ := hpc
  cases next_open h hopen with
  | silent same open_ answering => exact ⟨⟨open_, fun ha => hans (answering.mp ha)⟩, same⟩
  | answer answering => simp [answering] at hans
  | win _ _ all => omega

section
variable [DecidableEq W] {f : W → Pc} {P : Pc → Prop} {w u : W}

theorem forall_update (hf : ∀ v, P (f v)) (hpc : P pc) : ∀ v, P (Function.update f w pc v) :=
  (Function.forall_update_iff f fun _ => P).mpr ⟨hpc, fun v _ => hf v⟩

theorem forall_ne_update (hf : ∀ v, v ≠ u → P (f v)) (hpc : w ≠ u → P pc) :
    ∀ v, v ≠ u → P (Function.update f w pc v) :=
  (Function.forall_update_iff f fun v pc => v ≠ u → P pc).mpr ⟨hpc, fun v _ => hf v⟩

end

variable [Fintype W] [DecidableEq W] {w : W}

/-- The phase after the step of a worker, by what the step changes. -/
def Session.Leads (s s' : Session W) (w : W) (pc : Pc) : Prop :=
  Phase s.comm s'.busy s.concPending s'.reqCount s'.replyCount s.queue
    (Function.update s.worker w pc) s'.record

theorem Silent.leads (same : Silent s s') (h : Phase s.comm s.busy s.concPending s.reqCount
    s.replyCount s.queue (Function.update s.worker w pc) s.record) : s.Leads s' w pc := by
  unfold Session.Leads
  rwa [same.busy, same.reqCount, same.replyCount, same.record]

theorem leads_quiet (place : s.comm.Outside ∧ s.busy = false ∨ s.comm.Owns ∧ s.busy = true)
    (none : s.queue = []) (late : ∀ w, (s.worker w).Late) (req : s.reqCount = 0)
    (reply : s.replyCount = 0) (once : s.record.keys ≠ 0 → s.record.Once)
    (h : s.next found r (s.worker w) = some (pc, s'))
    (hgood : ¬ (s.worker w = .compare 0 ∧ s.reqCount = 0)) : s.Leads s' w pc := by
  obtain ⟨hlate, same⟩ := Session.next_late h (late w) req reply fun hw => hgood ⟨hw, req⟩
  exact same.leads (.quiet place none (forall_update late hlate) req reply once)

theorem leads_setting (out : s.comm.Outside) (busy : s.busy = true) (none : s.queue = [])
    (setting : (s.worker w).Setting) (tail : ∀ v, v ≠ w → (s.worker v).Tail) (req : s.reqCount = 0)
    (reply : s.replyCount = 0) (keys : s.record.keys = 0)
    (h : s.next found r (s.worker w) = some (pc, s')) : s.Leads s' w pc := by
  rcases Session.next_setting h setting with ⟨hset, same⟩ | ⟨hlate, hb, hreq, hreply, hkeys⟩
  · refine same.leads (.setRunning w out busy none ?_ (forall_ne_update tail (absurd rfl ·)) req
      reply keys)
    rwa [Function.update_self]
  · refine .quiet (.inl ⟨out, hb⟩) none ?_ (hreq.trans req) (hreply.trans reply)
      fun hne => absurd (hkeys.trans keys) hne
    intro v
    by_cases hv : v = w
    · rwa [hv, Function.update_self]
    · rw [Function.update_of_ne hv]
      exact (tail v hv).late

theorem leads_ending (out : s.comm.Outside) (busy : s.busy = true) (none : s.queue = [])
    (ending : (s.worker w).Ending) (late : ∀ v, v ≠ w → (s.worker v).Late) (req : s.reqCount = 0)
    (reply : s.replyCount = 0)
    (record : s.record = ⟨s.record.keys, s.record.keys, [s.record.keys], (s.worker w).ends, 0⟩)
    (h : s.next found r (s.worker w) = some (pc, s')) : s.Leads s' w pc := by
  have hends : s.record.ends = (s.worker w).ends := by rw [record]
  rcases Session.next_ending h ending reply hends with
    ⟨hend, hb, hreq, hreply, hrec⟩ | ⟨hlate, hb, hreq, hreply, hrec⟩
  · refine .ending w out (hb.trans busy) none ?_ (forall_ne_update late (absurd rfl ·))
      (hreq.trans req) hreply ?_
    · rwa [Function.update_self]
    · rw [Function.update_self, hrec, record]
  · refine .quiet (.inl ⟨out, hb⟩) none ?_ (hreq.trans req) hreply ?_
    · intro v
      by_cases hv : v = w
      · rwa [hv, Function.update_self]
      · rw [Function.update_of_ne hv]
        exact late v hv
    · intro _
      rw [hrec, record]
      exact ⟨rfl, rfl, rfl⟩

theorem leads_posting {k : PostAt} {aM : AMsg} {rest : List AMsg}
    (post : s.comm = .posting k (aM :: rest)) (loop : k ≠ .set) (busy : s.busy = true)
    (pending : s.concPending = k.pending rest) (gets : ∀ m ∈ aM :: rest, m.ctype = .gets)
    (queued : ∀ m ∈ s.queue, m.2.ctype = .gets) (workers : ∀ w, (s.worker w).Open s.reqCount)
    (early : s.concPending = true → ∀ w, ¬ (s.worker w).Past)
    (count : s.reqCount = s.replyCount + s.queue.length + tally Pc.Answering s.worker + k.counted)
    (keys : s.reqCount + (aM :: rest).length = s.record.keys + k.counted)
    (record : s.record = ⟨s.record.keys, s.replyCount, [], 0, 0⟩)
    (h : s.next found r (s.worker w) = some (pc, s')) : s.Leads s' w pc := by
  cases Session.next_open h (workers w) with
  | silent same open_ answering past live =>
    refine same.leads (.posting k aM rest post loop busy pending gets queued
      (forall_update workers open_) ?_ ?_ keys record)
    · intro hp
      refine forall_update (P := fun pc => ¬ pc.Past) (early hp) fun hpast => ?_
      rcases past hpast with hw | hfalse
      · exact early hp w hw
      · simp [hp] at hfalse
    · rw [tally_update_of_iff answering]
      exact count
  | answer answering counted hb hreq hreply hrec =>
    have htally := tally_update_of_not (f := s.worker) (p := Pc.Answering) (i := w) (a := pc)
      (by simp [answering]) (by simp [counted])
    refine .posting k aM rest post loop (hb.trans busy) pending gets queued ?_ ?_ ?_ ?_ ?_
    · rw [hreq]
      exact forall_update workers (by simp [counted])
    · exact fun hp => forall_update (P := fun pc => ¬ pc.Past) (early hp) (by simp [counted])
    · omega
    · rw [hrec, hreq]
      exact keys
    · rw [hrec, hreply, record]
  | win swap winner all =>
    have hfalse : s.concPending = false := by
      by_contra hp
      exact early (by simpa using hp) w (by simp [swap])
    cases k with
    | set => exact absurd rfl loop
    | count | reset => simp [hfalse, PostAt.pending] at pending
    | put =>
      rw [PostAt.counted] at count
      omega

theorem leads_waiting (out : s.comm.Outside) (busy : s.busy = true)
    (pending : s.concPending = false) (queued : ∀ m ∈ s.queue, m.2.ctype = .gets)
    (workers : ∀ w, (s.worker w).Open s.reqCount)
    (count : s.reqCount = s.replyCount + s.queue.length + tally Pc.Answering s.worker)
    (live : s.replyCount = s.reqCount → ∃ w, (s.worker w).Live) (pos : 0 < s.reqCount)
    (record : s.record = ⟨s.reqCount, s.replyCount, [], 0, 0⟩)
    (h : s.next found r (s.worker w) = some (pc, s')) : s.Leads s' w pc := by
  cases Session.next_open h (workers w) with
  | silent same open_ answering past live' =>
    refine same.leads (.waiting out busy pending queued (forall_update workers open_) ?_ ?_ pos
      record)
    · rw [tally_update_of_iff answering]
      exact count
    · intro hall
      obtain ⟨v, hv⟩ := live hall
      by_cases hvw : v = w
      · refine ⟨w, ?_⟩
        rw [Function.update_self]
        exact live' (hvw ▸ hv) pending hall
      · refine ⟨v, ?_⟩
        rwa [Function.update_of_ne hvw]
  | answer answering counted hb hreq hreply hrec =>
    have htally := tally_update_of_not (f := s.worker) (p := Pc.Answering) (i := w) (a := pc)
      (by simp [answering]) (by simp [counted])
    refine .waiting out (hb.trans busy) pending queued ?_ ?_ ?_ ?_ ?_
    · rw [hreq]
      exact forall_update workers (by simp [counted])
    · omega
    · refine fun _ => ⟨w, ?_⟩
      rw [Function.update_self, counted]
      trivial
    · rwa [hreq]
    · rw [hrec, hreq, hreply, record]
  | win swap winner all hb hreq hreply hrec =>
    have hnone : s.queue = [] := List.eq_nil_of_length_eq_zero (by omega)
    have hans : ∀ v, ¬ (s.worker v).Answering := tally_eq_zero_iff.mp (by omega)
    refine .won w out (hb.trans busy) pending hnone ?_ ?_ hreply ?_ ?_
    · rw [Function.update_self, winner, hreq]
    · rw [hreq]
      exact forall_ne_update (P := Pc.Lost s.reqCount) (fun v _ => ⟨workers v, hans v⟩) (absurd rfl ·)
    · rwa [hreq]
    · rw [hrec, hreq, record, all]

/-- The worker that won the swap compares it with `reqCount` and finds it equal. -/
theorem leads_won {u : W} (out : s.comm.Outside) (busy : s.busy = true)
    (pending : s.concPending = false) (none : s.queue = []) (winner : s.worker u = .compare s.reqCount)
    (lost : ∀ v, v ≠ u → (s.worker v).Lost s.reqCount)
    (reply : s.replyCount = 0) (pos : 0 < s.reqCount)
    (record : s.record = ⟨s.reqCount, s.reqCount, [], 0, 0⟩)
    (h : s.next found r (s.worker w) = some (pc, s')) : s.Leads s' w pc := by
  by_cases hwu : w = u
  · subst u
    rw [winner, Session.next, if_pos rfl] at h
    cases h
    refine .clearing w out busy pending none (Function.update_self ..)
      (forall_ne_update lost (absurd rfl ·)) reply pos ?_
    simp [record]
  · obtain ⟨hlost, same⟩ := Session.next_lost h (lost w hwu) reply pos
    refine same.leads (.won u out busy pending none ?_ (forall_ne_update lost fun _ => hlost) reply
      pos record)
    rwa [Function.update_of_ne (Ne.symm hwu)]

theorem leads_clearing {u : W} (out : s.comm.Outside) (busy : s.busy = true)
    (pending : s.concPending = false) (none : s.queue = []) (winner : s.worker u = .clearReq)
    (lost : ∀ v, v ≠ u → (s.worker v).Lost s.reqCount)
    (reply : s.replyCount = 0) (pos : 0 < s.reqCount)
    (record : s.record = ⟨s.reqCount, s.reqCount, [s.reqCount], 0, 0⟩)
    (h : s.next found r (s.worker w) = some (pc, s')) : s.Leads s' w pc := by
  by_cases hwu : w = u
  · subst u
    rw [winner] at h
    cases h
    have late : ∀ v, v ≠ w → (s.worker v).Late := fun v hv => (lost v hv).late
    refine .ending w out busy none ?_ (forall_ne_update late (absurd rfl ·)) rfl reply ?_
    · rw [Function.update_self]
      trivial
    · rw [Function.update_self]
      simp [record]
  · obtain ⟨hlost, same⟩ := Session.next_lost h (lost w hwu) reply pos
    refine same.leads (.clearing u out busy pending none ?_ (forall_ne_update lost fun _ => hlost)
      reply pos record)
    rwa [Function.update_of_ne (Ne.symm hwu)]

theorem Session.InPhase.worker (phase : s.InPhase) (h : s.next found r (s.worker w) = some (pc, s'))
    (hgood : ¬ (s.worker w = .compare 0 ∧ s.reqCount = 0)) : s.Leads s' w pc := by
  cases phase with
  | quiet place none late req reply once =>
    exact leads_quiet place none late req reply once h hgood
  | setQueued m out busy one set tail req reply keys =>
    exact (next_tail_silent h (tail w)).leads (.setQueued m out busy one set
      (forall_update tail (next_tail h (tail w))) req reply keys)
  | setRunning u out busy none setting tail req reply keys =>
    by_cases hwu : w = u
    · subst u
      exact leads_setting out busy none setting tail req reply keys h
    · have hw := tail w hwu
      refine (next_tail_silent h hw).leads (.setRunning u out busy none ?_
        (forall_ne_update tail fun _ => next_tail h hw) req reply keys)
      rwa [Function.update_of_ne (Ne.symm hwu)]
  | setting msgs post some gets busy none tail req reply record =>
    exact (next_tail_silent h (tail w)).leads (.setting msgs post some gets busy none
      (forall_update tail (next_tail h (tail w))) req reply record)
  | posting k aM rest post loop busy pending gets queued workers early count keys record =>
    exact leads_posting post loop busy pending gets queued workers early count keys record h
  | waiting out busy pending queued workers count live pos record =>
    exact leads_waiting out busy pending queued workers count live pos record h
  | won u out busy pending none winner lost reply pos record =>
    exact leads_won out busy pending none winner lost reply pos record h
  | clearing u out busy pending none winner lost reply pos record =>
    exact leads_clearing out busy pending none winner lost reply pos record h
  | ending u out busy none ending late req reply record =>
    by_cases hwu : w = u
    · subst u
      exact leads_ending out busy none ending late req reply record h
    · obtain ⟨hlate, same⟩ := next_late h (late w hwu) req reply fun hw => hgood ⟨hw, req⟩
      refine same.leads (.ending u out busy none ?_ (forall_ne_update late fun _ => hlate) req reply
        ?_)
      · rwa [Function.update_of_ne (Ne.symm hwu)]
      · rwa [Function.update_of_ne (Ne.symm hwu)]

theorem Session.InPhase.take (phase : s.InPhase) {m : ℕ × AMsg} (idle : s.worker w = .idle)
    (hm : m ∈ s.queue) : Phase s.comm s.busy s.concPending s.reqCount s.replyCount (s.queue.erase m)
      (Function.update s.worker w (start m.2)) s.record := by
  have hlen := List.length_erase_add_one hm
  have hget (hg : m.2.ctype = .gets) : start m.2 = .lookup m.2 ∧
      tally Pc.Answering (Function.update s.worker w (start m.2)) =
        tally Pc.Answering s.worker + 1 := by
    have hstart : start m.2 = .lookup m.2 := by simp [start, hg]
    exact ⟨hstart, tally_update_of_pos (by simp [idle]) (by simp [hstart])⟩
  cases phase with
  | setQueued m' out busy one set tail req reply keys =>
    obtain rfl : m = m' := by simpa [one] using hm
    have hstart : start m.2 = .setIndex := by simp [start, set]
    refine .setRunning w out busy (by simp [one]) ?_
      (forall_ne_update (fun v _ => tail v) (absurd rfl ·)) req reply keys
    rw [Function.update_self, hstart]
    trivial
  | posting k aM rest post loop busy pending gets queued workers early count keys record =>
    obtain ⟨hstart, htally⟩ := hget (queued m hm)
    refine .posting k aM rest post loop busy pending gets
      (fun m' hm' => queued m' (List.mem_of_mem_erase hm')) ?_ ?_ (by omega) keys record
    · exact forall_update workers (by simp [hstart])
    · exact fun hp => forall_update (P := fun pc => ¬ pc.Past) (early hp) (by simp [hstart])
  | waiting out busy pending queued workers count live pos record =>
    obtain ⟨hstart, htally⟩ := hget (queued m hm)
    refine .waiting out busy pending (fun m' hm' => queued m' (List.mem_of_mem_erase hm')) ?_
      (by omega) ?_ pos record
    · exact forall_update workers (by simp [hstart])
    · omega
  | quiet _ none | setRunning _ _ _ none | setting _ _ _ _ _ none | won _ _ _ _ none
  | clearing _ _ _ _ none | ending _ _ _ none => simp [none] at hm

/-- Every orderly step leads from phase to phase. -/
theorem Session.InPhase.step {hash : Bytes → UInt32} {t : Session W} {a : Act W}
    (phase : s.InPhase) (hgood : Orderly hash s a) (h : step hash s a = some t) : t.InPhase := by
  cases a with
  | comm a =>
    obtain ⟨⟨q, put⟩, hq, rfl⟩ := Option.map_eq_some_iff.mp h
    cases a with
    | post => exact phase.post hgood hq
    | header ctype =>
      simp only [ReqState.step, Option.ite_none_right_eq_some, Option.some.injEq,
        Prod.mk.injEq] at hq
      obtain ⟨-, rfl, rfl⟩ := hq
      simpa [InPhase, Record.dispatched, ReqState.dispatching] using phase
    | arrive p =>
      simp only [ReqState.step, Option.ite_none_right_eq_some, Option.map_eq_some_iff,
        Prod.mk.injEq] at hq
      obtain ⟨⟨hc, -, -⟩, aM, -, rfl, rfl⟩ := hq
      have hphase := phase.outside (by simp [hc, Tsq.Outside]) (.swap (some aM)) trivial
      simpa [InPhase, Record.dispatched, ReqState.dispatching] using hphase
    | readP =>
      simp only [ReqState.step, Option.ite_none_right_eq_some, Option.some.injEq,
        Prod.mk.injEq] at hq
      obtain ⟨⟨hc, -⟩, rfl, rfl⟩ := hq
      have hphase := phase.outside (by simp [hc, Tsq.Outside])
        (if s.closed then .idle else .swap none) (by split <;> trivial)
      simpa [InPhase, Record.dispatched, ReqState.dispatching] using hphase
  | take w m =>
    simp only [Worker.step, Option.ite_none_right_eq_some, Option.some.injEq] at h
    obtain ⟨⟨idle, hm⟩, rfl⟩ := h
    exact phase.take idle hm
  | step w found r =>
    obtain ⟨⟨pc, s'⟩, hnext, rfl⟩ := Option.map_eq_some_iff.mp h
    have hleads := phase.worker hnext hgood
    obtain ⟨_, _, _, _, _, _, rfl⟩ := Session.next_spec hnext
    exact hleads

end Acached.Worker
