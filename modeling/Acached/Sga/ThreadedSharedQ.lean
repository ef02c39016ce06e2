import Acached.Foundation.Execution
import Acached.Foundation.Tally

/-! # The queue of the workers

`adaptThreadedSharedQ` with any number of threads that put and get messages.
What a thread does while it holds the mutex is one step; a wait releases the
mutex in that step, and a signal is part of the step of the put.
-/
namespace Acached.Sga
open Execution Tally

/-- Where a thread stands in `aTSQgetMsg`: not in it, about to lock the mutex, blocked in
`pthread_cond_wait`, or past it and about to take the mutex back. -/
inductive Getter where
  | outside | lock | waiting | signalled
  deriving DecidableEq, Repr

@[simp] def Getter.Awake : Getter → Prop
  | .lock | .signalled => True
  | _ => False

instance : DecidablePred Getter.Awake := fun g => by
  cases g <;> simp only [Getter.Awake] <;> infer_instance

/-- The queue and its getters; `puts` and `gets` record what was put and what was returned to
whom. Messages are never `NULL`. -/
structure ThreadedSharedQ (W M : Type) where
  q : List M
  getter : W → Getter
  puts : List M
  gets : List (W × M)

def ThreadedSharedQ.init (W M : Type) : ThreadedSharedQ W M := ⟨[], fun _ => .outside, [], []⟩

inductive QAct (W M : Type) where
  | aTSQputMsg (ptr : M) (woken : Finset W)
  | aTSQgetMsg (w : W)
  | locked (w : W)
  | spurious (w : W)
  | retake (w : W)

def QAct.put? {W M : Type} : QAct W M → Option M
  | .aTSQputMsg ptr _ => some ptr
  | _ => none

variable {W M : Type} [Fintype W] [DecidableEq W]

/-- One step. A put wakes some of the threads that wait, and at least one if there is one. -/
def qstep (s : ThreadedSharedQ W M) : QAct W M → Option (ThreadedSharedQ W M)
  | .aTSQputMsg ptr woken =>
    if (∀ w ∈ woken, s.getter w = .waiting) ∧ ((∃ w, s.getter w = .waiting) → woken.Nonempty) then
      some { s with
        q := s.q ++ [ptr]
        getter := fun w => if w ∈ woken then .signalled else s.getter w
        puts := s.puts ++ [ptr] }
    else none
  | .aTSQgetMsg w =>
    if s.getter w = .outside then some { s with getter := Function.update s.getter w .lock }
    else none
  | .locked w =>
    if s.getter w = .lock then
      match s.q with
      | [] => some { s with getter := Function.update s.getter w .waiting }
      | ptr :: rest => some { s with
          q := rest
          getter := Function.update s.getter w .outside
          gets := s.gets ++ [(w, ptr)] }
    else none
  | .spurious w =>
    if s.getter w = .waiting then some { s with getter := Function.update s.getter w .signalled }
    else none
  | .retake w =>
    if s.getter w = .signalled then some { s with getter := Function.update s.getter w .lock }
    else none

theorem qstep_puts {s t : ThreadedSharedQ W M} {a : QAct W M} (h : qstep s a = some t) :
    t.puts = s.puts ++ a.put?.toList := by
  cases a with
  | aTSQputMsg ptr woken =>
    obtain ⟨-, h⟩ := Option.ite_none_right_eq_some.mp h
    obtain rfl := Option.some.inj h
    rfl
  | locked w =>
    obtain ⟨-, h⟩ := Option.ite_none_right_eq_some.mp h
    cases hq : s.q with
    | nil | cons ptr rest =>
      rw [hq] at h
      obtain rfl := Option.some.inj h
      simp [QAct.put?]
  | aTSQgetMsg w | spurious w | retake w =>
    obtain ⟨-, h⟩ := Option.ite_none_right_eq_some.mp h
    obtain rfl := Option.some.inj h
    simp [QAct.put?]

/-- What a run has put are the messages of its calls of `aTSQputMsg`, in their order. -/
theorem exec_puts {s t : ThreadedSharedQ W M} {as : List (QAct W M)}
    (h : exec qstep s as = some t) : t.puts = s.puts ++ as.filterMap QAct.put? := by
  induction as generalizing s with
  | nil =>
    obtain rfl := Option.some.inj h
    simp
  | cons a as ih =>
    rw [exec_cons] at h
    obtain ⟨u, hu, h⟩ := Option.bind_eq_some_iff.mp h
    rw [ih h, qstep_puts hu, List.append_assoc]
    cases ha : a.put? <;> simp [ha]

/-- A message is queued while some thread is blocked unsignalled and none is awake to take it. -/
def Stuck (s : ThreadedSharedQ W M) : Prop :=
  s.q ≠ [] ∧ (∃ w, s.getter w = .waiting) ∧ ∀ w, ¬ (s.getter w).Awake

/-- What was returned and what is queued are the messages put, in their order, and for every
message in front of a blocked thread there is a thread awake. -/
structure QInv (s : ThreadedSharedQ W M) : Prop where
  fifo : s.gets.map Prod.snd ++ s.q = s.puts
  covered : (∃ w, s.getter w = .waiting) → s.q.length ≤ tally Getter.Awake s.getter

omit [DecidableEq W] in
theorem QInv.not_stuck {s : ThreadedSharedQ W M} (inv : QInv s) : ¬ Stuck s := by
  rintro ⟨hq, hwait, hnone⟩
  have hlen := inv.covered hwait
  rw [tally_eq_zero_iff.mpr hnone] at hlen
  exact hq (List.eq_nil_of_length_eq_zero (Nat.le_zero.mp hlen))

omit [Fintype W] in
theorem waiting_of_update {g : W → Getter} {w v : W} {a : Getter} (ha : a ≠ .waiting)
    (h : Function.update g w a v = .waiting) : g v = .waiting := by
  by_cases hv : v = w
  · subst v
    exact absurd (by simpa using h) ha
  · simpa [hv] using h

theorem QInv.put {s : ThreadedSharedQ W M} (inv : QInv s) (ptr : M) {woken : Finset W}
    (hall : ∀ w ∈ woken, s.getter w = .waiting)
    (hone : (∃ w, s.getter w = .waiting) → woken.Nonempty) :
    QInv { s with
      q := s.q ++ [ptr]
      getter := fun w => if w ∈ woken then .signalled else s.getter w
      puts := s.puts ++ [ptr] } where
  fifo := by rw [← List.append_assoc, inv.fifo]
  covered := by
    rintro ⟨v, hv⟩
    have hwait : s.getter v = .waiting := by
      by_cases hmem : v ∈ woken
      · exact hall v hmem
      · simpa [hmem] using hv
    obtain ⟨w, hw⟩ := hone ⟨v, hwait⟩
    have hlen := inv.covered ⟨v, hwait⟩
    have hlt : tally Getter.Awake s.getter <
        tally Getter.Awake fun w => if w ∈ woken then .signalled else s.getter w := by
      refine tally_lt (i := w) ?_ (by simp [hall w hw]) (by simp [hw])
      intro u hu
      by_cases hmem : u ∈ woken
      · simp [hmem]
      · simpa [hmem] using hu
    simp only [List.length_append, List.length_singleton]
    omega

theorem QInv.step {s t : ThreadedSharedQ W M} {a : QAct W M} (inv : QInv s)
    (h : qstep s a = some t) : QInv t := by
  cases a with
  | aTSQputMsg ptr woken =>
    obtain ⟨⟨hall, hone⟩, h⟩ := Option.ite_none_right_eq_some.mp h
    obtain rfl := Option.some.inj h
    exact inv.put ptr hall hone
  | aTSQgetMsg w =>
    obtain ⟨hw, h⟩ := Option.ite_none_right_eq_some.mp h
    obtain rfl := Option.some.inj h
    refine ⟨inv.fifo, ?_⟩
    rintro ⟨v, hv⟩
    have hlen := inv.covered ⟨v, waiting_of_update (by simp) hv⟩
    have hcount := tally_update_of_pos (p := Getter.Awake) (f := s.getter) (i := w) (a := .lock)
      (by simp [hw]) trivial
    simp only [hcount]
    omega
  | locked w =>
    obtain ⟨hw, h⟩ := Option.ite_none_right_eq_some.mp h
    cases hq : s.q with
    | nil =>
      -- it goes to sleep, and there is nothing in the queue
      rw [hq] at h
      obtain rfl := Option.some.inj h
      exact ⟨by simpa [hq] using inv.fifo, fun _ => Nat.zero_le _⟩
    | cons ptr rest =>
      -- one message and one thread that was awake are gone
      rw [hq] at h
      obtain rfl := Option.some.inj h
      refine ⟨by simpa [hq] using inv.fifo, ?_⟩
      rintro ⟨v, hv⟩
      have hlen := inv.covered ⟨v, waiting_of_update (by simp) hv⟩
      have hcount := tally_update_of_not (p := Getter.Awake) (f := s.getter) (i := w)
        (a := .outside) (by simp [hw]) (by simp)
      rw [hq, List.length_cons] at hlen
      simp only
      omega
  | spurious w =>
    obtain ⟨hw, h⟩ := Option.ite_none_right_eq_some.mp h
    obtain rfl := Option.some.inj h
    refine ⟨inv.fifo, ?_⟩
    rintro ⟨v, hv⟩
    have hlen := inv.covered ⟨v, waiting_of_update (by simp) hv⟩
    have hcount := tally_update_of_pos (p := Getter.Awake) (f := s.getter) (i := w)
      (a := .signalled) (by simp [hw]) trivial
    simp only [hcount]
    omega
  | retake w =>
    obtain ⟨hw, h⟩ := Option.ite_none_right_eq_some.mp h
    obtain rfl := Option.some.inj h
    refine ⟨inv.fifo, ?_⟩
    rintro ⟨v, hv⟩
    have hlen := inv.covered ⟨v, waiting_of_update (by simp) hv⟩
    have hcount := tally_update_of_iff (p := Getter.Awake) (f := s.getter) (i := w) (a := .lock)
      (by simp [hw])
    simp only [hcount]
    exact hlen

/-- A thread that is awake takes the front message in at most two steps of its own. -/
theorem takes_of_awake {s : ThreadedSharedQ W M} {w : W} {ptr : M} {rest : List M}
    (hq : s.q = ptr :: rest) (hw : (s.getter w).Awake) :
    ∃ as u, (as = [.locked w] ∨ as = [.retake w, .locked w]) ∧ exec qstep s as = some u ∧
      u.gets = s.gets ++ [(w, ptr)] ∧ u.q = rest := by
  cases hg : s.getter w with
  | lock =>
    refine ⟨[.locked w], { s with
      q := rest
      getter := Function.update s.getter w .outside
      gets := s.gets ++ [(w, ptr)] }, .inl rfl, ?_, rfl, rfl⟩
    simp [qstep, hg, hq]
  | signalled =>
    refine ⟨[.retake w, .locked w], { s with
      q := rest
      getter := Function.update s.getter w .outside
      gets := s.gets ++ [(w, ptr)] }, .inr rfl, ?_, rfl, rfl⟩
    simp [qstep, hg, hq]
  | outside | waiting => simp [hg] at hw

/-- In every state of every run the messages returned and the messages queued are those that the
calls of `aTSQputMsg` put, in their order, no thread is stuck, and a queued message is taken in two steps of a thread that is
awake as soon as any thread is in `aTSQgetMsg`. -/
theorem queue_served (as : List (QAct W M)) (t : ThreadedSharedQ W M)
    (h : exec qstep (.init W M) as = some t) :
    t.gets.map Prod.snd ++ t.q = t.puts ∧ t.puts = as.filterMap QAct.put? ∧ ¬ Stuck t ∧
      ∀ ptr rest, t.q = ptr :: rest → (∃ w, t.getter w ≠ .outside) →
        ∃ w bs u, (bs = [.locked w] ∨ bs = [.retake w, .locked w]) ∧ exec qstep t bs = some u ∧
          u.gets = t.gets ++ [(w, ptr)] ∧ u.q = rest := by
  have inv : QInv t := by
    refine exec_invariant (fun _ _ _ inv hs => inv.step hs) ⟨rfl, ?_⟩ h
    rintro ⟨w, hw⟩
    simp [ThreadedSharedQ.init] at hw
  refine ⟨inv.fifo, by simpa [ThreadedSharedQ.init] using exec_puts h, inv.not_stuck, ?_⟩
  rintro ptr rest hq ⟨v, hv⟩
  obtain ⟨w, hw⟩ : ∃ w, (t.getter w).Awake := by
    by_contra hnone
    cases hg : t.getter v with
    | outside => exact hv hg
    | waiting => exact inv.not_stuck ⟨by simp [hq], ⟨v, hg⟩, not_exists.mp hnone⟩
    | lock | signalled => exact hnone ⟨v, by simp [hg]⟩
  obtain ⟨bs, u, hbs, hu, hrest⟩ := takes_of_awake hq hw
  exact ⟨w, bs, u, hbs, hu, hrest⟩

/-- Two getters wait, two messages arrive with one signal each, and a third getter that was not
waiting takes the first of them. -/
def overtaken : List (QAct (Fin 3) ℕ) :=
  [.aTSQgetMsg 0, .locked 0, .aTSQgetMsg 1, .locked 1, .aTSQgetMsg 2, .aTSQputMsg 7 {0},
    .aTSQputMsg 8 {1}, .locked 2, .retake 0]

theorem queue_served_overtaken : ∃ t, exec qstep (.init (Fin 3) ℕ) overtaken = some t ∧
    t.gets.map Prod.snd ++ t.q = t.puts ∧ t.puts = overtaken.filterMap QAct.put? ∧ ¬ Stuck t ∧
      ∀ ptr rest, t.q = ptr :: rest → (∃ w, t.getter w ≠ .outside) →
        ∃ w bs u, (bs = [.locked w] ∨ bs = [.retake w, .locked w]) ∧ exec qstep t bs = some u ∧
          u.gets = t.gets ++ [(w, ptr)] ∧ u.q = rest := by
  obtain ⟨t, ht⟩ : ∃ t, exec qstep (.init (Fin 3) ℕ) overtaken = some t := ⟨_, rfl⟩
  exact ⟨t, ht, queue_served overtaken t ht⟩

end Acached.Sga
