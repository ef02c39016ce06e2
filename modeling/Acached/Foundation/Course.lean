import Acached.Foundation.Execution

/-! # Systems with one way on

In a state that only one other can follow, the runs are those of that other
with one step in front. So what all runs keep, and what all of them can still
come to, is found by going along the states.
-/
namespace Acached.Execution

variable {σ α : Type*}

/-- Every run of actions with `ok` stays in `P`, and from wherever it has come, one can go on to
`goal`. -/
def Attains (step : σ → α → Option σ) (ok : α → Prop) (P goal : σ → Prop) (s : σ) : Prop :=
  ∀ as t, (∀ a ∈ as, ok a) → exec step s as = some t →
    P t ∧ ∃ bs v, (∀ b ∈ bs, ok b) ∧ exec step t bs = some v ∧ goal v

variable {step : σ → α → Option σ} {ok : α → Prop} {P goal inv : σ → Prop} {s u : σ} {a : α}

theorem Attains.can (h : Attains step ok P goal s) :
    ∃ bs v, (∀ b ∈ bs, ok b) ∧ exec step s bs = some v ∧ goal v :=
  (h [] s (List.forall_mem_nil _) rfl).2

/-- A state with one way on. -/
theorem attains_of_only (hs : P s) (ha : ok a) (hstep : step s a = some u)
    (honly : ∀ b t, ok b → step s b = some t → t = u) (h : Attains step ok P goal u) :
    Attains step ok P goal s := by
  intro as t has hrun
  cases as with
  | nil =>
    obtain rfl := Option.some.inj hrun
    obtain ⟨bs, v, hbs, hv, hgoal⟩ := h.can
    refine ⟨hs, a :: bs, v, List.forall_mem_cons.mpr ⟨ha, hbs⟩, ?_, hgoal⟩
    rw [exec_cons, hstep, Option.bind_some, hv]
  | cons b as =>
    obtain ⟨hb, has⟩ := List.forall_mem_cons.mp has
    obtain ⟨w, hw, hrest⟩ := Option.bind_eq_some_iff.mp hrun
    obtain rfl := honly b w hb hw
    exact h as t has hrest

/-- A state that has come to `goal`, which the invariant keeps. -/
theorem attains_of_invariant (hkeep : ∀ s a t, inv s → ok a → step s a = some t → inv t)
    (hgoal : ∀ s, inv s → P s ∧ goal s) (hs : inv s) : Attains step ok P goal s := by
  intro as t has hrun
  obtain ⟨hP, ht⟩ := hgoal t (exec_invariant_of hkeep hs has hrun)
  exact ⟨hP, [], t, List.forall_mem_nil _, rfl, ht⟩

end Acached.Execution
