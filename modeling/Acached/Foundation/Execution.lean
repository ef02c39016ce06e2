import Mathlib.Data.List.Basic
import Mathlib.Data.Option.Basic

/-! # Executions of a partial step function

A schedule is a list of actions and running it folds the step function; an
action that is not enabled leaves no result. A schedule is guarded when every
action is taken in a state that meets a side condition. The rules below carry
an invariant along a guarded schedule, and turn equivalences about one step
into equivalences over whole schedules.
-/
namespace Acached.Execution

variable {σ α : Type*} (step : σ → α → Option σ)

def exec : σ → List α → Option σ
  | s, [] => some s
  | s, a :: as => (step s a).bind fun t => exec t as

/-- Every action of the schedule meets `good` in the state in which it is taken. -/
def Guarded (good : σ → α → Prop) : σ → List α → Prop
  | _, [] => True
  | s, a :: as => good s a ∧ ∀ t ∈ step s a, Guarded good t as

def Throughout (P : σ → Prop) : σ → List α → Prop
  | s, [] => P s
  | s, a :: as => P s ∧ ∀ t ∈ step s a, Throughout P t as

@[simp] theorem exec_nil (s : σ) : exec step s [] = some s := rfl

@[simp] theorem exec_cons (s : σ) (a : α) (as : List α) :
    exec step s (a :: as) = (step s a).bind fun t => exec step t as := rfl

theorem exec_append (s : σ) (as bs : List α) :
    exec step s (as ++ bs) = (exec step s as).bind fun t => exec step t bs := by
  induction as generalizing s with
  | nil => rfl
  | cons a as ih => simp only [List.cons_append, exec_cons, ih, Option.bind_assoc]

@[simp] theorem guarded_nil (good : σ → α → Prop) (s : σ) : Guarded step good s [] := trivial

@[simp] theorem guarded_cons (good : σ → α → Prop) (s : σ) (a : α) (as : List α) :
    Guarded step good s (a :: as) ↔ good s a ∧ ∀ t ∈ step s a, Guarded step good t as := Iff.rfl

instance decidableGuarded (good : σ → α → Prop) [∀ s a, Decidable (good s a)] :
    ∀ s as, Decidable (Guarded step good s as)
  | _, [] => isTrue trivial
  | s, a :: as =>
    have : ∀ t, Decidable (Guarded step good t as) := fun t => decidableGuarded good t as
    inferInstanceAs (Decidable (good s a ∧ ∀ t ∈ step s a, Guarded step good t as))

variable {step}

theorem exec_cons_of {P : σ → Prop} {s t : σ} {a : α} {as : List α} (hstep : step s a = some t)
    (h : ∃ u, exec step t as = some u ∧ P u) : ∃ u, exec step s (a :: as) = some u ∧ P u := by
  rw [exec_cons, hstep]
  exact h

theorem guarded_cons_of {good : σ → α → Prop} {s t : σ} {a : α} {as : List α}
    (hstep : step s a = some t) (hgood : good s a) (h : Guarded step good t as) :
    Guarded step good s (a :: as) := by
  refine ⟨hgood, fun u hu => ?_⟩
  rw [Option.mem_def, hstep, Option.some.injEq] at hu
  exact hu ▸ h

/-- A property preserved by every guarded step holds at the end of a guarded schedule. -/
theorem Guarded.invariant {good : σ → α → Prop} {inv : σ → Prop}
    (hstep : ∀ s a t, inv s → good s a → step s a = some t → inv t) {s t : σ} {as : List α}
    (hg : Guarded step good s as) (hs : inv s) (hrun : exec step s as = some t) : inv t := by
  induction as generalizing s with
  | nil =>
    obtain rfl := Option.some.inj hrun
    exact hs
  | cons a as ih =>
    obtain ⟨u, hu, hrest⟩ := Option.bind_eq_some_iff.mp hrun
    exact ih (hg.2 u hu) (hstep s a u hs hg.1 hu) hrest

/-- What an action of a guarded schedule meets in the state that those before it lead to. -/
theorem Guarded.reached {good : σ → α → Prop} {s t : σ} {as bs : List α} {b : α}
    (hg : Guarded step good s (as ++ b :: bs)) (hrun : exec step s as = some t) : good t b := by
  induction as generalizing s with
  | nil =>
    obtain rfl := Option.some.inj hrun
    exact hg.1
  | cons a as ih =>
    obtain ⟨u, hu, hrest⟩ := Option.bind_eq_some_iff.mp hrun
    exact ih (hg.2 u hu) hrest

theorem exec_invariant_of {inv : σ → Prop} {ok : α → Prop}
    (hstep : ∀ s a t, inv s → ok a → step s a = some t → inv t) {s t : σ} {as : List α}
    (hs : inv s) (hok : ∀ a ∈ as, ok a) (hrun : exec step s as = some t) : inv t := by
  induction as generalizing s with
  | nil =>
    obtain rfl := Option.some.inj hrun
    exact hs
  | cons a as ih =>
    obtain ⟨u, hu, hrest⟩ := Option.bind_eq_some_iff.mp hrun
    have hnext := hstep s a u hs (hok a List.mem_cons_self) hu
    exact ih hnext (fun b hb => hok b (List.mem_cons_of_mem a hb)) hrest

theorem exec_invariant {inv : σ → Prop} (hstep : ∀ s a t, inv s → step s a = some t → inv t)
    {s t : σ} {as : List α} (hs : inv s) (hrun : exec step s as = some t) : inv t :=
  @exec_invariant_of _ _ _ inv (fun _ => True) (fun s a t h _ => hstep s a t h) _ _ _ hs
    (fun _ _ => trivial) hrun

/-- Under an invariant that guarded steps keep, one side condition implies another over whole
schedules. -/
theorem Guarded.imp {good good' : σ → α → Prop} {inv : σ → Prop}
    (himp : ∀ s a, inv s → good s a → good' s a)
    (hstep : ∀ s a t, inv s → good s a → step s a = some t → inv t) {s : σ} {as : List α}
    (hg : Guarded step good s as) (hs : inv s) : Guarded step good' s as := by
  induction as generalizing s with
  | nil => trivial
  | cons a as ih =>
    exact ⟨himp s a hs hg.1, fun t ht => ih (hg.2 t ht) (hstep s a t hs hg.1 ht)⟩

theorem Guarded.and_forall {good : σ → α → Prop} {ok : α → Prop} {s : σ} {as : List α}
    (hg : Guarded step good s as) (hok : ∀ a ∈ as, ok a) :
    Guarded step (fun s a => ok a ∧ good s a) s as := by
  induction as generalizing s with
  | nil => trivial
  | cons a as ih =>
    exact ⟨⟨hok a List.mem_cons_self, hg.1⟩,
      fun t ht => ih (hg.2 t ht) fun b hb => hok b (List.mem_cons_of_mem a hb)⟩

/-- A property that a step keeps exactly when the step meets `good` holds at the end of a schedule
exactly when the schedule is guarded. -/
theorem guarded_iff_of_step {good : σ → α → Prop} {P : σ → Prop}
    (hstep : ∀ s a t, step s a = some t → (P t ↔ P s ∧ good s a)) {s t : σ} {as : List α}
    (hrun : exec step s as = some t) : P t ↔ P s ∧ Guarded step good s as := by
  induction as generalizing s with
  | nil =>
    obtain rfl := Option.some.inj hrun
    simp
  | cons a as ih =>
    obtain ⟨u, hu, hrest⟩ := Option.bind_eq_some_iff.mp hrun
    have hguard : (∀ v ∈ step s a, Guarded step good v as) ↔ Guarded step good u as := by
      simp [hu]
    rw [ih hrest, hstep s a u hu, guarded_cons, hguard, and_assoc]

/-- When a step that starts well ends well exactly if it meets `good`, all states of a run are good
exactly if its schedule is guarded. -/
theorem throughout_iff_guarded {good : σ → α → Prop} {P : σ → Prop}
    (hstep : ∀ s a t, P s → step s a = some t → (P t ↔ good s a)) {s t : σ} {as : List α}
    (hs : P s) (hrun : exec step s as = some t) :
    Throughout step P s as ↔ Guarded step good s as := by
  induction as generalizing s with
  | nil => exact ⟨fun _ => trivial, fun _ => hs⟩
  | cons a as ih =>
    obtain ⟨u, hu, hrest⟩ := Option.bind_eq_some_iff.mp hrun
    have hiff := hstep s a u hs hu
    constructor
    · rintro ⟨-, hall⟩
      have hthrough := hall u hu
      have hP : P u := by
        cases as with
        | nil => exact hthrough
        | cons b bs => exact hthrough.1
      refine ⟨hiff.mp hP, fun v hv => ?_⟩
      obtain rfl : u = v := Option.some.inj (hu.symm.trans hv)
      exact (ih hP hrest).mp hthrough
    · rintro ⟨hgood, hall⟩
      have hP := hiff.mpr hgood
      refine ⟨hs, fun v hv => ?_⟩
      obtain rfl : u = v := Option.some.inj (hu.symm.trans hv)
      exact (ih hP hrest).mpr (hall u hu)

/-- Runs of one schedule from states that a simulation relates end in related states, or neither has
a result, if the schedule is guarded in one of them by what the simulation needs. -/
theorem Guarded.exec_rel {R : σ → σ → Prop} {good : σ → α → Prop}
    (hstep : ∀ s t a, R s t → good t a → Option.Rel R (step s a) (step t a)) {s t : σ}
    {as : List α} (hg : Guarded step good t as) (h : R s t) :
    Option.Rel R (exec step s as) (exec step t as) := by
  induction as generalizing s t with
  | nil => exact .some h
  | cons a as ih =>
    have hrel := hstep s t a h hg.1
    have hrest := hg.2
    rw [exec_cons, exec_cons]
    generalize step s a = o at hrel ⊢
    generalize step t a = o' at hrel hrest ⊢
    cases hrel with
    | none => exact .none
    | some hnext => exact ih (hrest _ rfl) hnext

theorem guarded_of_forall {good : σ → α → Prop} (h : ∀ s a, good s a) (s : σ) (as : List α) :
    Guarded step good s as := by
  induction as generalizing s with
  | nil => trivial
  | cons a as ih => exact ⟨h s a, fun t _ => ih t⟩

theorem exec_rel {R : σ → σ → Prop}
    (hstep : ∀ s t a, R s t → Option.Rel R (step s a) (step t a)) {s t : σ} (h : R s t)
    (as : List α) : Option.Rel R (exec step s as) (exec step t as) :=
  (@guarded_of_forall _ _ _ (fun _ _ => True) (fun _ _ => trivial) t as).exec_rel
    (fun s t a h _ => hstep s t a h) h

/-- Two side conditions that agree in every state of an invariant guard the same schedules. -/
theorem guarded_congr {good good' : σ → α → Prop} (inv : σ → Prop) {ok : α → Prop}
    (hiff : ∀ s a, inv s → ok a → (good s a ↔ good' s a))
    (hstep : ∀ s a t, inv s → ok a → good' s a → step s a = some t → inv t)
    {s : σ} {as : List α} (hs : inv s) (hok : ∀ a ∈ as, ok a) :
    Guarded step good s as ↔ Guarded step good' s as := by
  induction as generalizing s with
  | nil => exact Iff.rfl
  | cons a as ih =>
    have ha := hok a List.mem_cons_self
    have has := fun b hb => hok b (List.mem_cons_of_mem a hb)
    rw [guarded_cons, guarded_cons, hiff s a hs ha]
    refine and_congr_right fun hgood => forall₂_congr fun t ht => ?_
    exact ih (hstep s a t hs ha hgood ht) has

/-- A schedule is guarded or its run ends badly, when the first step that does not meet the side
condition leads to a bad state and bad states lead to bad states. -/
theorem guarded_or_bad {good : σ → α → Prop} (inv bad : σ → Prop) {ok : α → Prop}
    (hstep : ∀ s a t, inv s → ok a → good s a → step s a = some t → inv t)
    (hbad : ∀ s a t, inv s → ok a → ¬ good s a → step s a = some t → bad t)
    (hkeep : ∀ s a t, bad s → ok a → step s a = some t → bad t)
    {s t : σ} {as : List α} (hs : inv s) (hok : ∀ a ∈ as, ok a) (hrun : exec step s as = some t) :
    Guarded step good s as ∨ bad t := by
  induction as generalizing s with
  | nil => exact .inl trivial
  | cons a as ih =>
    obtain ⟨u, hu, hrest⟩ := Option.bind_eq_some_iff.mp hrun
    have ha := hok a List.mem_cons_self
    have has := fun b hb => hok b (List.mem_cons_of_mem a hb)
    by_cases hgood : good s a
    · rcases ih (hstep s a u hs ha hgood hu) has hrest with hg | hb
      · refine .inl ⟨hgood, fun v hv => ?_⟩
        obtain rfl : u = v := Option.some.inj (hu.symm.trans hv)
        exact hg
      · exact .inr hb
    · exact .inr (exec_invariant_of hkeep (hbad s a u hs ha hgood hu) has hrest)

end Acached.Execution
