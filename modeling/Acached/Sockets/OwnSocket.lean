import Acached.Sockets.Program
import Mathlib.Data.Fintype.Basic

/-! # Replies stay with their client

A connection object keeps its descriptor number and its reply arrays when it is
closed, and messages and workers go on referring to it. Every reply is sent on
the socket of the client whose command it answers as long as a number is opened
again, and an object handed out again, only when no message of an earlier
connection is left on it, and no `sendmsg` covers an entry that an earlier
connection has left bytes in.
-/
namespace Acached.Sockets
open CString Dispatch Reply Worker Gather Execution

variable {O W : Type}

def OwnSocket (s : System O W) : Prop := ∀ p ∈ s.sent, p.client = p.receiver

namespace System

/-- A message on the object `o`, waiting or with a worker, is for the client `c`. -/
def Holds (s : System O W) (o : O) (c : ℕ) : Prop :=
  (∃ m ∈ s.inFlight, m.conn = o ∧ m.client = c) ∨
  ∃ w, ∃ j ∈ s.worker w, j.message.conn = o ∧ j.message.client = c

def Settled (s : System O W) (o : O) : Prop :=
  (∀ m ∈ s.inFlight, m.conn ≠ o) ∧ ∀ w, ∀ j ∈ s.worker w, j.message.conn ≠ o

/-- The entries are empty or were filled since the object was handed out. -/
def Covered (s : System O W) (o : O) (range : ℕ × ℕ) : Prop :=
  ∀ i < range.2, (s.reply o).iovec (range.1 + i) = [] ∨ s.filled o (range.1 + i) = true

/-- If the descriptor of the object `o` is open, it is the socket of the client `c`. -/
def Owned (s : System O W) (o : O) (c : ℕ) : Prop :=
  ∃ fd, s.cSockFd o = some fd ∧ ∀ c' ∈ s.opened fd, c' = c

end System

/-- The kernel reuses a descriptor number, and the server a connection object, only when no message
is left on the object that has the number or that comes out of the pool; and a `sendmsg` covers no
entry that was filled before its object was handed out. -/
def Undisturbed (s : System O W) : Act O W → Prop
  | .accept fd => ∀ o, s.cSockFd o = some fd → s.Settled o
  | .newFd _ => ∀ o ∈ s.freeQ.head?, s.Settled o
  | .step w _ _ _ | .final w _ => ∀ j ∈ s.worker w, ∀ range ∈ j.range, s.Covered j.message.conn range
  | .recv .. | .close .. | .take .. | .readFd _ => True

instance [DecidableEq O] [Fintype W] (s : System O W) (o : O) : Decidable (s.Settled o) :=
  inferInstanceAs (Decidable ((∀ m ∈ s.inFlight, m.conn ≠ o) ∧
    ∀ w, ∀ j ∈ s.worker w, j.message.conn ≠ o))

instance (s : System O W) (o : O) (range : ℕ × ℕ) : Decidable (s.Covered o range) :=
  inferInstanceAs (Decidable (∀ i < range.2, _ ∨ _))

instance [DecidableEq O] [Fintype O] [Fintype W] (s : System O W) :
    ∀ a, Decidable (Undisturbed s a)
  | .accept fd => inferInstanceAs (Decidable (∀ o, s.cSockFd o = some fd → s.Settled o))
  | .newFd _ => inferInstanceAs (Decidable (∀ o ∈ s.freeQ.head?, s.Settled o))
  | .step w _ _ _ | .final w _ => inferInstanceAs (Decidable (∀ j ∈ s.worker w, ∀ range ∈ j.range,
      s.Covered j.message.conn range))
  | .recv .. | .close .. | .take .. | .readFd _ => isTrue trivial

/-- Descriptors, objects and what is on them. What an earlier connection has filled stays on an object
that nothing refers to. -/
structure Inv (s : System O W) : Prop where
  pool : (s.freeQ ++ s.event.map Prod.snd).Nodup
  fds : (s.pipe ++ s.event.map Prod.fst).Nodup
  open_ : ∀ fd ∈ s.pipe ++ s.event.map Prod.fst, s.opened fd ≠ none
  registered : ∀ p ∈ s.event, s.cSockFd p.2 = some p.1
  own : ∀ o c, s.Holds o c → s.Owned o c
  entries : ∀ o i, s.filled o i = true →
    (o ∉ s.event.map Prod.snd ∧ s.Settled o) ∨ s.Owned o (s.owner o i)
  reading : ∀ w, ∀ j ∈ s.worker w, ∀ fd ∈ j.fd, s.cSockFd j.message.conn = fd
  sent : OwnSocket s

theorem Inv.init {pool : List O} (hpool : pool.Nodup) : Inv (.init W pool) where
  pool := by simpa [System.init] using hpool
  fds := List.nodup_nil
  open_ := by simp [System.init]
  registered := by simp [System.init]
  own o c h := by simp [System.Holds, System.init] at h
  entries o i h := by simp [System.init] at h
  reading := by simp [System.init]
  sent := by simp [OwnSocket, System.init]

theorem System.Settled.not_holds {s : System O W} {o : O} (h : s.Settled o) (c : ℕ) :
    ¬ s.Holds o c := by
  rintro (⟨m, hm, ho, -⟩ | ⟨w, j, hj, ho, -⟩)
  · exact h.1 m hm ho
  · exact h.2 w j hj ho

theorem mem_sentOf {owner : ℕ → ℕ} {iovec : ℕ → Bytes} {receiver i n r : ℕ} {p : Sent}
    (h : p ∈ sentOf owner iovec receiver i n r) :
    p.receiver = receiver ∧ ∃ k < n, iovec (i + k) ≠ [] ∧ p.client = owner (i + k) := by
  induction n generalizing i r with
  | zero => cases h
  | succ n ih =>
    have hrest (h : p ∈ sentOf owner iovec receiver (i + 1) n (r - (iovec i).length)) :
        p.receiver = receiver ∧ ∃ k < n + 1, iovec (i + k) ≠ [] ∧ p.client = owner (i + k) := by
      obtain ⟨hrec, k, hk, hne, hc⟩ := ih h
      rw [Nat.add_assoc, Nat.add_comm 1 k] at hne hc
      exact ⟨hrec, k + 1, Nat.succ_lt_succ hk, hne, hc⟩
    rw [sentOf] at h
    split at h
    · exact hrest h
    · next hsome =>
      rcases List.mem_cons.mp h with rfl | h
      · refine ⟨rfl, 0, Nat.succ_pos n, ?_, rfl⟩
        rintro hnil
        exact hsome (by rw [← Nat.add_zero i, hnil, List.take_nil])
      · exact hrest h

variable {s : System O W} {j : Job O} {log : List Sent} {w : W} {r : ℕ}

theorem Inv.sends (inv : Inv s) (hj : j ∈ s.worker w)
    (hgood : ∀ range ∈ j.range, s.Covered j.message.conn range) (h : s.sends j r = some log) :
    ∀ p ∈ log, p.client = p.receiver := by
  intro p hp
  unfold System.sends at h
  cases hrange : j.range with
  | none =>
    rw [hrange] at h
    cases h
    cases hp
  | some range =>
    rw [hrange] at h
    obtain ⟨fd, hfd, hlog⟩ := Option.bind_eq_some_iff.mp h
    have hread := inv.reading w j hj fd hfd
    cases hopen : fd.bind s.opened with
    | none =>
      simp only [hopen, Option.ite_none_right_eq_some, Option.some.injEq] at hlog
      obtain ⟨-, rfl⟩ := hlog
      cases hp
    | some receiver =>
      simp only [hopen, Option.ite_none_right_eq_some, Option.some.injEq] at hlog
      obtain ⟨-, rfl⟩ := hlog
      obtain ⟨hrec, k, hk, hne, hc⟩ := mem_sentOf hp
      have hfilled := (hgood range hrange k hk).resolve_left hne
      have howned := (inv.entries _ _ hfilled).resolve_left fun hleft => hleft.2.2 w j hj rfl
      obtain ⟨fd', hfd', hclient⟩ := howned
      obtain ⟨fd'', rfl, hopened⟩ := Option.bind_eq_some_iff.mp hopen
      obtain rfl : fd' = fd'' := Option.some.inj (hfd'.symm.trans hread)
      rw [hc, hrec]
      exact (hclient receiver hopened).symm

/-! ## The comm threads -/

theorem Inv.accept {fd : Fd} (inv : Inv s) (hgood : Undisturbed s (.accept fd : Act O W))
    (hfree : s.opened fd = none) : Inv { s with
      opened := Function.update s.opened fd (some s.accepted)
      accepted := s.accepted + 1
      pipe := s.pipe ++ [fd] } := by
  have hnew : fd ∉ s.pipe ++ s.event.map Prod.fst := fun hmem => inv.open_ fd hmem hfree
  have hperm : (s.pipe ++ [fd] ++ s.event.map Prod.fst).Perm
      (fd :: (s.pipe ++ s.event.map Prod.fst)) := by
    rw [List.append_assoc, List.singleton_append]
    exact List.perm_middle
  have howned {o : O} {c : ℕ} (hset : ¬ s.Settled o) (h : s.Owned o c) :
      ∃ fd', s.cSockFd o = some fd' ∧
        ∀ c' ∈ Function.update s.opened fd (some s.accepted) fd', c' = c := by
    obtain ⟨fd', hfd', hc⟩ := h
    have hne : fd' ≠ fd := fun heq => hset (hgood o (heq ▸ hfd'))
    exact ⟨fd', hfd', by rwa [Function.update_of_ne hne]⟩
  refine ⟨inv.pool, hperm.nodup_iff.mpr (List.nodup_cons.mpr ⟨hnew, inv.fds⟩), ?_, inv.registered, ?_,
    ?_, inv.reading, inv.sent⟩
  · intro fd' hmem
    rcases List.mem_cons.mp (hperm.mem_iff.mp hmem) with rfl | hmem
    · simp
    · have hne : fd' ≠ fd := ne_of_mem_of_not_mem hmem hnew
      simpa [hne] using inv.open_ fd' hmem
  · intro o c h
    exact howned (fun hset => hset.not_holds c h) (inv.own o c h)
  · intro o i h
    by_cases hset : s.Settled o
    · rcases inv.entries o i h with hleft | ⟨fd', hfd', hc⟩
      · exact .inl hleft
      · by_cases hevent : o ∈ s.event.map Prod.snd
        · -- a registered object has a descriptor that is open already
          obtain ⟨p, hp, rfl⟩ := List.mem_map.mp hevent
          have hp1 : p.1 ∈ s.pipe ++ s.event.map Prod.fst :=
            List.mem_append_right _ (List.mem_map_of_mem hp)
          obtain rfl : fd' = p.1 := Option.some.inj (hfd'.symm.trans (inv.registered p hp))
          have hne : p.1 ≠ fd := ne_of_mem_of_not_mem hp1 hnew
          exact .inr ⟨p.1, hfd', by dsimp only; rwa [Function.update_of_ne hne]⟩
        · exact .inl ⟨hevent, hset⟩
    · exact (inv.entries o i h).imp (fun hleft => absurd hleft.2 hset) (howned hset)

variable [DecidableEq O]

theorem Inv.newFd {fd : Fd} {o : O} {rest : List O} (inv : Inv s) (hfree : s.freeQ = o :: rest)
    (hfd : fd ∈ s.pipe) (hgood : Undisturbed s (.newFd fd : Act O W)) : Inv { s with
      pipe := s.pipe.erase fd
      freeQ := rest
      event := s.event ++ [(fd, o)]
      cSockFd := Function.update s.cSockFd o (some fd)
      filled := Function.update s.filled o fun _ => false } := by
  have hset : s.Settled o := hgood o (by simp [hfree])
  have hpool := inv.pool
  rw [hfree, List.cons_append, List.nodup_cons] at hpool
  obtain ⟨hnew, hpool⟩ := hpool
  have hperm : (s.pipe.erase fd ++ (s.event ++ [(fd, o)]).map Prod.fst).Perm
      (s.pipe ++ s.event.map Prod.fst) := by
    rw [List.map_append, List.map_singleton, ← List.append_assoc]
    refine List.perm_append_comm.trans ?_
    exact (List.perm_cons_erase hfd).symm.append_right (s.event.map Prod.fst)
  have howned {o' : O} {c : ℕ} (hne : o' ≠ o) (h : s.Owned o' c) : ∃ fd',
      Function.update s.cSockFd o (some fd) o' = some fd' ∧ ∀ c' ∈ s.opened fd', c' = c := by
    rwa [Function.update_of_ne hne]
  refine ⟨?_, hperm.nodup_iff.mpr inv.fds, fun fd' hmem => inv.open_ fd' (hperm.mem_iff.mp hmem), ?_, ?_,
    ?_, ?_, inv.sent⟩
  · have hmiddle : (rest ++ (s.event ++ [(fd, o)]).map Prod.snd).Perm
        (o :: (rest ++ s.event.map Prod.snd)) := by
      rw [List.map_append, List.map_singleton, ← List.append_assoc]
      exact List.perm_append_singleton o _
    exact hmiddle.nodup_iff.mpr (List.nodup_cons.mpr ⟨hnew, hpool⟩)
  · intro p hp
    rcases List.mem_append.mp hp with hold | hone
    · have hne : p.2 ≠ o := by
        rintro rfl
        exact hnew (List.mem_append_right _ (List.mem_map_of_mem hold))
      simpa [hne] using inv.registered p hold
    · rw [List.mem_singleton.mp hone]
      simp
  · intro o' c h
    have hne : o' ≠ o := by
      rintro rfl
      exact hset.not_holds c h
    exact howned hne (inv.own o' c h)
  · intro o' i h
    have hne : o' ≠ o := by
      rintro rfl
      simp at h
    simp only [Function.update_of_ne hne] at h
    refine (inv.entries o' i h).imp ?_ (howned hne)
    rintro ⟨hevent, hsettled⟩
    exact ⟨by simpa [hne] using hevent, hsettled⟩
  · intro v j hj fd' hread
    have hne : j.message.conn ≠ o := hset.2 v j hj
    dsimp only
    rw [Function.update_of_ne hne]
    exact inv.reading v j hj fd' hread

omit [DecidableEq O] in
theorem Inv.recv {fd : Fd} {o : O} {client : ℕ} (inv : Inv s) (hev : (fd, o) ∈ s.event)
    (hopen : s.opened fd = some client) (msgs : List AMsg) : Inv { s with
      inFlight := s.inFlight ++ msgs.map fun aM => ⟨o, client, aM⟩ } where
  pool := inv.pool
  fds := inv.fds
  open_ := inv.open_
  registered := inv.registered
  own o' c h := by
    rcases h with ⟨m, hm, ho, hc⟩ | h
    · rcases List.mem_append.mp hm with hm | hm
      · exact inv.own o' c (.inl ⟨m, hm, ho, hc⟩)
      · obtain ⟨aM, -, rfl⟩ := List.mem_map.mp hm
        dsimp only at ho hc
        subst o' c
        exact ⟨fd, inv.registered (fd, o) hev, by simp [hopen]⟩
    · exact inv.own o' c (.inr h)
  entries o' i h := by
    refine (inv.entries o' i h).imp_left ?_
    rintro ⟨hevent, hflight, hworker⟩
    refine ⟨hevent, ?_, hworker⟩
    intro m hm
    rcases List.mem_append.mp hm with hm | hm
    · exact hflight m hm
    · obtain ⟨aM, -, rfl⟩ := List.mem_map.mp hm
      rintro rfl
      exact hevent (List.mem_map_of_mem hev)
  reading := inv.reading
  sent := inv.sent

theorem Inv.close {fd : Fd} {o : O} (inv : Inv s) (hev : (fd, o) ∈ s.event) : Inv { s with
    event := s.event.erase (fd, o)
    opened := Function.update s.opened fd none
    freeQ := s.freeQ ++ [o] } := by
  have herase := List.perm_cons_erase hev
  have hfd : (s.pipe ++ s.event.map Prod.fst).Perm
      (fd :: (s.pipe ++ (s.event.erase (fd, o)).map Prod.fst)) :=
    ((herase.map Prod.fst).append_left s.pipe).trans List.perm_middle
  have hnodup := List.nodup_cons.mp (hfd.nodup_iff.mp inv.fds)
  have howned {o' : O} {c : ℕ} (h : s.Owned o' c) : ∃ fd', s.cSockFd o' = some fd' ∧
      ∀ c' ∈ Function.update s.opened fd none fd', c' = c := by
    obtain ⟨fd', hfd', hc⟩ := h
    refine ⟨fd', hfd', ?_⟩
    intro c' hc'
    by_cases hne : fd' = fd
    · simp [hne] at hc'
    · exact hc c' (by simpa [hne] using hc')
  refine ⟨?_, hnodup.2, ?_, fun p hp => inv.registered p (List.mem_of_mem_erase hp),
    fun o' c h => howned (inv.own o' c h), ?_, inv.reading, inv.sent⟩
  · have hperm : (s.freeQ ++ [o] ++ (s.event.erase (fd, o)).map Prod.snd).Perm
        (s.freeQ ++ s.event.map Prod.snd) := by
      rw [List.append_assoc, List.singleton_append]
      exact (herase.map Prod.snd).symm.append_left s.freeQ
    exact hperm.nodup_iff.mpr inv.pool
  · intro fd' hmem
    have hne : fd' ≠ fd := ne_of_mem_of_not_mem hmem hnodup.1
    have hold := inv.open_ fd' (hfd.mem_iff.mpr (List.mem_cons_of_mem fd hmem))
    simpa [hne] using hold
  · intro o' i h
    refine (inv.entries o' i h).imp ?_ howned
    rintro ⟨hevent, hsettled⟩
    refine ⟨fun hmem => hevent ?_, hsettled⟩
    exact ((List.erase_sublist).map Prod.snd).subset hmem

/-! ## The workers -/

section
variable [DecidableEq W]

omit [DecidableEq O] in
/-- A worker goes on with a message that is on an object already, fills entries of that object and
sends to the right clients. -/
theorem Inv.work (inv : Inv s) {next : Option (Job O)} {inFlight : List (Message O)}
    {reply : O → IovReply} {owner : O → ℕ → ℕ} {filled : O → ℕ → Bool} {sent : List Sent}
    (hflight : inFlight ⊆ s.inFlight)
    (hnext : ∀ j ∈ next, s.Holds j.message.conn j.message.client)
    (hread : ∀ j ∈ next, ∀ fd ∈ j.fd, s.cSockFd j.message.conn = fd)
    (hfilled : ∀ o i, filled o i = true →
      s.filled o i = true ∧ owner o i = s.owner o i ∨ s.Holds o (owner o i))
    (hsent : ∀ p ∈ sent, p.client = p.receiver) : Inv { s with
      inFlight := inFlight
      reply := reply
      owner := owner
      filled := filled
      worker := Function.update s.worker w next
      sent := sent } := by
  have hworker {v : W} {j : Job O} (hj : j ∈ Function.update s.worker w next v) :
      j ∈ next ∨ j ∈ s.worker v := by
    by_cases hv : v = w
    · rw [hv, Function.update_self] at hj
      exact .inl hj
    · rw [Function.update_of_ne hv] at hj
      exact .inr hj
  refine ⟨inv.pool, inv.fds, inv.open_, inv.registered, ?_, ?_, ?_, hsent⟩
  · rintro o c (⟨m, hm, ho, hc⟩ | ⟨v, j, hj, ho, hc⟩)
    · exact inv.own o c (.inl ⟨m, hflight hm, ho, hc⟩)
    · rcases hworker hj with hj | hj
      · exact inv.own o c (ho ▸ hc ▸ hnext j hj)
      · exact inv.own o c (.inr ⟨v, j, hj, ho, hc⟩)
  · intro o i h
    rcases hfilled o i h with ⟨hold, heq⟩ | hholds
    · rcases inv.entries o i hold with ⟨hevent, hsettled⟩ | howned
      · refine .inl ⟨hevent, fun m hm => hsettled.1 m (hflight hm), ?_⟩
        intro v j hj ho
        rcases hworker hj with hj | hj
        · exact hsettled.not_holds _ (ho ▸ hnext j hj)
        · exact hsettled.2 v j hj ho
      · right
        dsimp only
        rw [heq]
        exact howned
    · exact .inr (inv.own o _ hholds)
  · intro v j hj
    exact (hworker hj).elim (hread j) (inv.reading v j)

omit [DecidableEq O] [DecidableEq W] in
theorem mem_goTo {m : Message O} {pc : Pc} (h : j ∈ Job.goTo m pc) :
    j.message = m ∧ j.fd = none := by
  cases pc <;> cases h <;> exact ⟨rfl, rfl⟩

theorem Inv.answered (inv : Inv s) (hj : j ∈ s.worker w) {next : Option (Job O)} {reply : IovReply}
    (hnext : ∀ j' ∈ next, j'.message = j.message ∧ j'.fd = none)
    (hlog : ∀ p ∈ log, p.client = p.receiver) : Inv (s.answered w j next reply log) := by
  have hholds : s.Holds j.message.conn j.message.client := .inr ⟨w, j, hj, rfl, rfl⟩
  have hjob : ∀ j' ∈ next, s.Holds j'.message.conn j'.message.client := by
    intro j' hj'
    rw [(hnext j' hj').1]
    exact hholds
  have hread : ∀ j' ∈ next, ∀ fd ∈ j'.fd, s.cSockFd j'.message.conn = fd := by
    intro j' hj' fd hfd
    rw [(hnext j' hj').2] at hfd
    cases hfd
  have hsent : ∀ p ∈ s.sent ++ log, p.client = p.receiver :=
    List.forall_mem_append.mpr ⟨inv.sent, hlog⟩
  unfold System.answered
  cases fills j.pc with
  | none => exact inv.work (List.Subset.refl _) hjob hread (fun o i h => .inl ⟨h, rfl⟩) hsent
  | some index =>
    refine inv.work (List.Subset.refl _) hjob hread ?_ hsent
    intro o i h
    by_cases ho : o = j.message.conn
    · subst ho
      simp only [Function.update_self] at h ⊢
      by_cases hi : i = index
      · rw [hi, Function.update_self]
        exact .inr hholds
      · rw [Function.update_of_ne hi] at h ⊢
        exact .inl ⟨h, rfl⟩
    · rw [Function.update_of_ne ho] at h ⊢
      exact .inl ⟨h, rfl⟩

theorem Inv.step {t : System O W} {a : Act O W} (inv : Inv s) (hgood : Undisturbed s a)
    (h : step s a = some t) : Inv t := by
  cases a with
  | accept fd =>
    simp only [Sockets.step, Option.ite_none_right_eq_some, Option.some.injEq] at h
    obtain ⟨hfree, rfl⟩ := h
    exact inv.accept hgood hfree
  | newFd fd =>
    simp only [Sockets.step] at h
    split at h
    · cases h
    · simp only [Option.ite_none_right_eq_some, Option.some.injEq] at h
      obtain ⟨hfd, rfl⟩ := h
      exact inv.newFd ‹_› hfd hgood
  | recv fd o msgs =>
    simp only [Sockets.step, Option.ite_none_right_eq_some, Option.map_eq_some_iff] at h
    obtain ⟨hev, client, hopen, rfl⟩ := h
    exact inv.recv hev hopen msgs
  | close fd o =>
    simp only [Sockets.step, Option.ite_none_right_eq_some, Option.some.injEq] at h
    obtain ⟨hev, rfl⟩ := h
    exact inv.close hev
  | take w m =>
    simp only [Sockets.step, Option.ite_none_right_eq_some, Option.some.injEq] at h
    obtain ⟨⟨-, hm⟩, rfl⟩ := h
    refine inv.work List.erase_subset ?_ ?_ (fun o i h => .inl ⟨h, rfl⟩) inv.sent
    · intro j hj
      rw [(mem_goTo hj).1]
      exact .inl ⟨m, hm, rfl, rfl⟩
    · intro j hj fd hfd
      rw [(mem_goTo hj).2] at hfd
      cases hfd
  | readFd w =>
    obtain ⟨j, hj, hstep⟩ := Option.bind_eq_some_iff.mp h
    simp only [Option.ite_none_right_eq_some, Option.some.injEq] at hstep
    obtain ⟨-, rfl⟩ := hstep
    refine inv.work (List.Subset.refl _) ?_ ?_ (fun o i h => .inl ⟨h, rfl⟩) inv.sent
    · rintro _ ⟨⟩
      exact .inr ⟨w, j, hj, rfl, rfl⟩
    · rintro _ ⟨⟩ fd ⟨⟩
      rfl
  | step w q found r =>
    obtain ⟨j, hj, hstep⟩ := Option.bind_eq_some_iff.mp h
    rw [Option.ite_none_right_eq_some] at hstep
    obtain ⟨-, hstep⟩ := hstep
    obtain ⟨log, hlog, hstep⟩ := Option.bind_eq_some_iff.mp hstep
    obtain ⟨⟨pc, s'⟩, -, hstep⟩ := Option.bind_eq_some_iff.mp hstep
    cases hstep
    exact inv.answered hj (fun _ => mem_goTo) (inv.sends hj (hgood j hj) hlog)
  | final w res =>
    obtain ⟨j, hj, hstep⟩ := Option.bind_eq_some_iff.mp h
    obtain ⟨f, -, hstep⟩ := Option.bind_eq_some_iff.mp hstep
    obtain ⟨log, hlog, hstep⟩ := Option.bind_eq_some_iff.mp hstep
    obtain ⟨⟨flush, reply⟩, -, hstep⟩ := Option.bind_eq_some_iff.mp hstep
    cases hstep
    refine inv.answered hj ?_ (inv.sends hj (hgood j hj) hlog)
    rintro _ ⟨⟩
    exact ⟨rfl, rfl⟩

/-- In every undisturbed run every reply that was sent went to the client whose command it
answers. -/
theorem ownSocket_of_undisturbed (pool : List O) (hpool : pool.Nodup) (as : List (Act O W))
    (t : System O W) (h : exec step (.init W pool) as = some t)
    (hgood : Guarded step Undisturbed (.init W pool) as) : OwnSocket t :=
  (hgood.invariant (fun _ _ _ inv hg hs => Inv.step inv hg hs) (Inv.init hpool) h).sent

end

/-! ## Runs -/

def quiet (w : W) (n : ℕ) : List (Act O W) := List.replicate n (.step w (.init .get) none 0)

def oneKey : ReqState := { ReqState.init .gets with busy := true, reqCount := 1, replyCount := 1 }

/-- A client is served and leaves. Its descriptor number and its connection object go to the next one,
while its `STORED` is still in the first entry, and that one's get is answered. -/
def servedInTurn : List (Act Unit Unit) :=
  [.accept 5, .newFd 5, .recv 5 () [⟨.set, [97], 1, 0, [120], 0, 0, 1⟩],
    .take () ⟨(), 0, .set, [97], 1, 0, [120], 0, 0, 1⟩] ++ quiet () 2 ++
  [.readFd (), .step () (.init .get) none 8] ++ quiet () 7 ++
  [.close 5 (), .accept 5, .newFd 5, .recv 5 () [⟨.gets, [97], 1, 0, [], 0, 0, 0⟩],
    .take () ⟨(), 1, .gets, [97], 1, 0, [], 0, 0, 0⟩,
    .step () (.init .gets) (some (Reply.valueLine [97] 1, [120, 13, 10])) 0] ++
  List.replicate 21 (.step () oneKey none 0) ++ [.readFd (), .final () (.sent 23)] ++ quiet () 9

theorem ownSocket_servedInTurn :
    ∃ t, exec step (.init Unit [()]) servedInTurn = some t ∧ OwnSocket t := by
  obtain ⟨t, ht⟩ : ∃ t, exec step (.init Unit [()]) servedInTurn = some t := ⟨_, rfl⟩
  exact ⟨t, ht, ownSocket_of_undisturbed [()] (by decide) _ t ht (by decide)⟩

/-- A client leaves while a worker is at its set, and its descriptor number goes to the next one
before the worker sends. -/
def leftInFlight : List (Act Unit Unit) :=
  [.accept 5, .newFd 5, .recv 5 () [⟨.set, [97], 1, 0, [120], 0, 0, 1⟩],
    .take () ⟨(), 0, .set, [97], 1, 0, [120], 0, 0, 1⟩] ++ quiet () 2 ++
  [.close 5 (), .accept 5, .readFd (), .step () (.init .get) none 8]

/-- The second client gets the first one's reply. -/
theorem ownSocket_fails : ¬ ∀ (as : List (Act Unit Unit)) (t : System Unit Unit),
    exec step (.init Unit [()]) as = some t → OwnSocket t := by
  intro h
  have hrun : (exec step (.init Unit [()]) leftInFlight).map System.sent =
      some [⟨0, 1, stored⟩] := by decide
  obtain ⟨t, ht, hsent⟩ := Option.map_eq_some_iff.mp hrun
  have hown := h _ t ht ⟨0, 1, stored⟩ (by simp [hsent])
  exact absurd hown (by decide)

end Acached.Sockets
