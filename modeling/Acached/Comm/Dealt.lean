import Acached.Comm.Accept

/-! # Every accepted connection is set up once

The comm threads take turns, and each sets up the connections that it is dealt
in the order in which they were accepted. As open descriptors differ, a record
that asks to look at a queue of commands never finds another connection than
the open one of its descriptor.
-/
namespace Acached.Comm
open CString Execution Refinement

def setUpBy (s : Conns) (i : Thread) : List UInt32 :=
  (s.setUp.filter fun aC => aC.1 = i).map Prod.snd

def queued (q : List Rec) : List UInt32 := (q.filter fun r => r.1 = 73).map Prod.snd

/-- What `i` is dealt of the accepted descriptors whose record found room. -/
def share (accepted : List (UInt32 × Bool)) (i : Thread) : List UInt32 :=
  (accepted.zipIdx.filter fun a => a.2 % threadCommMax = i.val && a.1.2).map fun a => a.1.1

theorem setUpBy_append (s : Conns) (i j : Thread) (fd : UInt32) :
    setUpBy { s with setUp := s.setUp ++ [(j, fd)] } i =
      setUpBy s i ++ if j = i then [fd] else [] := by
  unfold setUpBy
  by_cases hji : j = i
  · simp [hji]
  · simp [hji]

theorem queued_cons (r : Rec) (q : List Rec) :
    queued (r :: q) = (if r.1 = 73 then [r.2] else []) ++ queued q := by
  unfold queued
  by_cases hr : r.1 = 73
  · simp [hr]
  · simp [hr]

theorem queued_append (q : List Rec) (r : Rec) :
    queued (q ++ [r]) = queued q ++ if r.1 = 73 then [r.2] else [] := by
  unfold queued
  by_cases hr : r.1 = 73
  · simp [hr]
  · simp [hr]

theorem share_append (accepted : List (UInt32 × Bool)) (fd : UInt32) (room : Bool) (i : Thread) :
    share (accepted ++ [(fd, room)]) i = share accepted i ++
      if accepted.length % threadCommMax = i.val ∧ room = true then [fd] else [] := by
  unfold share
  rw [List.zipIdx_append, List.filter_append, List.map_append]
  congr 1
  by_cases hturn : accepted.length % threadCommMax = i.val ∧ room = true
  · simp [hturn]
  · rw [if_neg hturn]
    simp only [List.zipIdx_cons, List.zipIdx_nil, Nat.zero_add, List.map_eq_nil_iff]
    apply List.filter_eq_nil_iff.mpr
    intro a ha
    obtain rfl := List.mem_singleton.mp ha
    simpa using hturn

/-! ## Shares -/

theorem Conns.handle_cases {i : Thread} {k : UInt8} {fd : UInt32} {s t : Conns}
    (h : s.handle i k fd = some t) :
    (k = 73 ∧ t = { s with
      free := s.free - 1
      busy := s.busy ++ [(i, fd)]
      setUp := s.setUp ++ [(i, fd)] }) ∨
    (k ≠ 73 ∧ ∃ woken, t = { s with woken := woken }) := by
  unfold Conns.handle at h
  split_ifs at h with hset hfree hwake
  · exact .inl ⟨hset, (Option.some.inj h).symm⟩
  · exact .inr ⟨hset, _, (Option.some.inj h).symm⟩
  · exact .inr ⟨hset, s.woken, (Option.some.inj h).symm⟩

/-- A thread has set up its share, but for what is in its queue. -/
structure Shares (u : Comms (List Rec)) : Prop where
  turn : u.curr.val = u.accepted.length % threadCommMax
  share : ∀ i, setUpBy u.conns i ++ queued (u.pipe i) = share u.accepted i

theorem thread_cases : ∀ i : Thread, i = 0 ∨ i = 1 := by decide

theorem next_turn (curr : Thread) (n : ℕ) (h : curr.val = n % threadCommMax) :
    (if curr = threadCommMax - 1 then (0 : Thread) else curr + 1).val = (n + 1) % threadCommMax := by
  rcases thread_cases curr with rfl | rfl
  · change 1 = (n + 1) % 2
    change 0 = n % 2 at h
    omega
  · change 0 = (n + 1) % 2
    change 1 = n % 2 at h
    omega

theorem write_pipe (u : Comms (List Rec)) (i j : Thread) (room : Bool) (r : Rec) :
    queued ((u.write i room (u.pipe i ++ [r])).pipe j) = queued (u.pipe j) ++
      if (j = i ∧ room = true) ∧ r.1 = 73 then [r.2] else [] := by
  unfold Comms.write
  cases room with
  | false => simp
  | true =>
    by_cases hji : j = i
    · subst hji
      simp [queued_append]
    · simp [hji]

theorem Shares.step {u v : Comms (List Rec)} {e : Event} (h : Shares u)
    (hstep : queueStep u e = some v) : Shares v := by
  cases e with
  | accept fd room =>
    dsimp only [queueStep] at hstep
    split_ifs at hstep
    obtain rfl := Option.some.inj hstep
    have haccepted : (u.write u.curr room (u.pipe u.curr ++ [(73, fd)])).accepted = u.accepted := by
      cases room
      · rfl
      · rfl
    have hconns : (u.write u.curr room (u.pipe u.curr ++ [(73, fd)])).conns = u.conns := by
      cases room
      · rfl
      · rfl
    have hcurr : (u.write u.curr room (u.pipe u.curr ++ [(73, fd)])).curr = u.curr := by
      cases room
      · rfl
      · rfl
    refine ⟨?_, fun i => ?_⟩
    · dsimp only [Comms.dealt]
      rw [haccepted, hcurr, List.length_append, List.length_singleton]
      exact next_turn u.curr u.accepted.length h.turn
    · dsimp only [Comms.dealt]
      rw [haccepted, hconns, write_pipe, share_append, ← List.append_assoc, h.share i, ← h.turn]
      by_cases hi : i = u.curr
      · simp [hi]
      · have hne : u.curr.val ≠ i.val := fun hval => hi (Fin.ext hval.symm)
        simp [hi, hne]
  | wake j fd room =>
    obtain rfl := Option.some.inj hstep
    cases room with
    | false => exact h
    | true =>
      refine ⟨h.turn, fun i => ?_⟩
      rw [write_pipe, if_neg (by simp), List.append_nil]
      exact h.share i
  | take j =>
    dsimp only [queueStep] at hstep
    split at hstep
    · cases hstep
    · next r rest hpipe =>
      obtain ⟨conns, hconns, rfl⟩ := Option.map_eq_some_iff.mp hstep
      refine ⟨h.turn, fun i => ?_⟩
      dsimp only
      rw [← h.share i]
      by_cases hij : i = j
      · subst hij
        rw [Function.update_self, hpipe, queued_cons]
        rcases Conns.handle_cases hconns with ⟨hset, rfl⟩ | ⟨hset, woken, rfl⟩
        · rw [if_pos hset, ← List.append_assoc]
          congr 1
          exact (setUpBy_append ..).trans (by rw [if_pos rfl])
        · rw [if_neg hset, List.nil_append]
          rfl
      · rw [Function.update_of_ne hij]
        congr 1
        rcases Conns.handle_cases hconns with ⟨-, rfl⟩ | ⟨-, woken, rfl⟩
        · exact (setUpBy_append ..).trans (by rw [if_neg (Ne.symm hij), List.append_nil])
        · rfl
  | close j fd =>
    dsimp only [queueStep, Comms.closeConnection] at hstep
    split_ifs at hstep
    obtain rfl := Option.some.inj hstep
    exact ⟨h.turn, h.share⟩

/-- Whatever is accepted, written, read and closed in whatever order, each comm thread sets up the
connections that it is dealt in turn, each once and in order, but for those that are still in its pipe
and those whose record found no room. -/
theorem accepted_setUp {cap free : ℕ} {acts : List Act} {t : Comms Bytes}
    (hrun : exec (step cap) (.init [] free) acts = some t) (i : Thread) :
    ∃ ms : List MsgPipe, t.pipe i = ms.flatMap MsgPipe.bytes ∧
      setUpBy t.conns i ++ queued (ms.map fun m => (m.initType, m.fd)) = share t.accepted i := by
  obtain ⟨events, u, hevents, hholds⟩ :=
    (pipes_refine cap).run (Holds.init free) (fun _ _ => trivial) hrun
  have hshares : Shares u := exec_invariant (fun _ _ _ h hstep => h.step hstep)
    ⟨rfl, fun _ => rfl⟩ hevents
  obtain ⟨ms, hpipe, hqueue⟩ := hholds.pipe i
  refine ⟨ms, hpipe, ?_⟩
  rw [← hqueue, ← hholds.conns, ← hholds.accepted]
  exact hshares.share i

def noPadding : Padding := ⟨List.replicate 7 0, List.replicate 12 0, rfl, rfl⟩

/-- Three connections are accepted, and the threads have looked into their pipes when a command of the
first one is waiting. The second connection is closed, and its descriptor is accepted again. -/
def threeConnections : List Act :=
  [.accept 7 noPadding, .accept 8 noPadding, .read 0, .accept 9 noPadding, .wake 0 7 noPadding,
    .read 0, .read 1, .close 1 8, .accept 8 noPadding]

theorem accepted_setUp_threeConnections : ∃ t ms, exec (step 65536) (.init [] 500) threeConnections = some t ∧
    t.pipe 1 = List.flatMap MsgPipe.bytes ms ∧
      setUpBy t.conns 1 ++ queued (ms.map fun m => (m.initType, m.fd)) = share t.accepted 1 ∧
      share t.accepted 1 = [8, 8] := by
  have hrun : (exec (step 65536) (.init [] 500) threeConnections).map (fun t => share t.accepted 1) =
      some [8, 8] := by
    decide +kernel
  obtain ⟨t, ht, hshare⟩ := Option.map_eq_some_iff.mp hrun
  obtain ⟨ms, hpipe, hsame⟩ := accepted_setUp ht 1
  exact ⟨t, ms, ht, hpipe, hsame, hshare⟩

/-! ## Open descriptors -/

/-- How often a descriptor is that of a connection, or of a record for one. -/
def holders (u : Comms (List Rec)) (fd : UInt32) : ℕ :=
  (u.conns.busy.map Prod.snd).count fd + (queued (u.pipe 0)).count fd + (queued (u.pipe 1)).count fd

/-- A descriptor is held once at most, and only while it is open. -/
structure Distinct (u : Comms (List Rec)) (fd : UInt32) : Prop where
  once : u.opened.count fd ≤ 1
  holders : holders u fd ≤ u.opened.count fd

variable {u v : Comms (List Rec)} {fd : UInt32}

theorem holders_write (u : Comms (List Rec)) (i : Thread) (room : Bool) (r : Rec) (fd : UInt32) :
    holders (u.write i room (u.pipe i ++ [r])) fd ≤
      holders u fd + if r.1 = 73 ∧ r.2 = fd then 1 else 0 := by
  have hconns : (u.write i room (u.pipe i ++ [r])).conns = u.conns := by
    cases room
    · rfl
    · rfl
  have hcount (j : Thread) : (queued ((u.write i room (u.pipe i ++ [r])).pipe j)).count fd ≤
      (queued (u.pipe j)).count fd + if j = i ∧ r.1 = 73 ∧ r.2 = fd then 1 else 0 := by
    rw [write_pipe, List.count_append]
    apply Nat.add_le_add_left
    split_ifs with hwrite hfd
    · rw [hfd.2.2, List.count_singleton_self]
    · have hne : r.2 ≠ fd := fun heq => hfd ⟨hwrite.1.1, hwrite.2, heq⟩
      rw [List.count_singleton, if_neg (by simpa using hne)]
    · exact Nat.zero_le _
    · exact Nat.le_refl _
  have h0 := hcount 0
  have h1 := hcount 1
  unfold holders
  rw [hconns]
  rcases thread_cases i with rfl | rfl
  · simp only [true_and, Fin.one_eq_zero_iff, OfNat.ofNat_ne_one, false_and, if_false] at h0 h1
    omega
  · simp only [true_and, Fin.zero_eq_one_iff, OfNat.ofNat_ne_one, false_and, if_false] at h0 h1
    omega

theorem holders_take {i : Thread} (hstep : queueStep u (.take i) = some v) (fd : UInt32) :
    holders v fd ≤ holders u fd := by
  dsimp only [queueStep] at hstep
  split at hstep
  · cases hstep
  · next r rest hpipe =>
    obtain ⟨conns, hconns, rfl⟩ := Option.map_eq_some_iff.mp hstep
    have hqueue : (queued (u.pipe i)).count fd =
        (if r.1 = 73 then [r.2] else []).count fd + (queued rest).count fd := by
      rw [hpipe, queued_cons, List.count_append]
    have hbusy : (conns.busy.map Prod.snd).count fd = (u.conns.busy.map Prod.snd).count fd +
        (if r.1 = 73 then [r.2] else []).count fd := by
      rcases Conns.handle_cases hconns with ⟨hset, rfl⟩ | ⟨hset, woken, rfl⟩
      · rw [if_pos hset, List.map_append, List.count_append]
        rfl
      · rw [if_neg hset]
        rfl
    unfold holders
    dsimp only
    rcases thread_cases i with rfl | rfl
    · rw [Function.update_self, Function.update_of_ne (by decide)]
      omega
    · rw [Function.update_self, Function.update_of_ne (by decide)]
      omega

theorem Distinct.close {i : Thread} {fd' : UInt32} (h : Distinct u fd)
    (hclose : u.closeConnection i fd' = some v) : Distinct v fd := by
  unfold Comms.closeConnection at hclose
  split_ifs at hclose with hbusy
  obtain rfl := Option.some.inj hclose
  have hcount := ((List.perm_cons_erase hbusy).map Prod.snd).count_eq fd
  rw [List.map_cons] at hcount
  have honce := h.once
  have hheld := h.holders
  unfold Comm.holders at hheld
  by_cases hfd : fd' = fd
  · subst hfd
    rw [List.count_cons_self] at hcount
    refine ⟨?_, ?_⟩
    · dsimp only
      rw [List.count_erase_self]
      omega
    · unfold Comm.holders
      dsimp only
      rw [List.count_erase_self]
      omega
  · rw [List.count_cons_of_ne hfd] at hcount
    refine ⟨?_, ?_⟩
    · dsimp only
      rwa [List.count_erase_of_ne (Ne.symm hfd)]
    · unfold Comm.holders
      dsimp only
      rw [List.count_erase_of_ne (Ne.symm hfd)]
      omega

theorem Distinct.step {e : Event} (h : Distinct u fd) (hfd : fd ≠ failed)
    (hstep : queueStep u e = some v) : Distinct v fd := by
  cases e with
  | accept fd' room =>
    dsimp only [queueStep] at hstep
    split_ifs at hstep with hopen
    obtain rfl := Option.some.inj hstep
    have hopened : (u.write u.curr room (u.pipe u.curr ++ [(73, fd')])).opened = u.opened := by
      cases room
      · rfl
      · rfl
    have hwrite := holders_write u u.curr room (73, fd') fd
    have honce := h.once
    have hheld := h.holders
    have hcount : ((u.write u.curr room (u.pipe u.curr ++ [(73, fd')])).dealt fd' room).opened.count fd =
        u.opened.count fd + if fd' = fd then 1 else 0 := by
      dsimp only [Comms.dealt]
      rw [hopened]
      by_cases hsame : fd' = fd
      · rw [if_neg (hsame ▸ hfd), hsame, List.count_cons_self, if_pos rfl]
      · rw [if_neg hsame]
        split_ifs
        · rfl
        · rw [List.count_cons_of_ne hsame]
          rfl
    have hfresh : fd' = fd → u.opened.count fd = 0 := by
      rintro rfl
      apply List.count_eq_zero_of_not_mem
      exact fun hmem => hopen ⟨hfd, hmem⟩
    refine ⟨?_, ?_⟩
    · rw [hcount]
      split_ifs with hsame
      · rw [hfresh hsame]
      · exact honce
    · rw [hcount]
      refine hwrite.trans (Nat.add_le_add hheld ?_)
      simp
  | wake i fd' room =>
    obtain rfl := Option.some.inj hstep
    have hwrite := holders_write u i room (80, fd') fd
    rw [if_neg (by simp)] at hwrite
    cases room with
    | false => exact h
    | true => exact ⟨h.once, hwrite.trans h.holders⟩
  | take i =>
    have htake := holders_take hstep fd
    have hopened : v.opened = u.opened := by
      dsimp only [queueStep] at hstep
      split at hstep
      · cases hstep
      · obtain ⟨conns, -, rfl⟩ := Option.map_eq_some_iff.mp hstep
        rfl
    exact ⟨hopened ▸ h.once, hopened ▸ htake.trans h.holders⟩
  | close i fd' => exact h.close hstep

end Acached.Comm
