import Acached.Foundation.Execution

/-! # Refinement of one partial step function by another

Related states are left by an action of the lower system in related states,
when the upper system may take any number of steps meanwhile. What holds of one
action holds of a run, and a run of the lower system shows nothing that a run of
the upper system does not show.
-/
namespace Acached.Refinement
open Execution

variable {σ τ α β : Type*}

/-- Every action with `ok` that is taken in a related state is matched by a run of the upper system. -/
def Refines (step : σ → α → Option σ) (upper : τ → β → Option τ) (ok : α → Prop)
    (R : σ → τ → Prop) : Prop :=
  ∀ s u a t, R s u → ok a → step s a = some t → ∃ bs v, exec upper u bs = some v ∧ R t v

variable {step : σ → α → Option σ} {upper : τ → β → Option τ} {ok : α → Prop} {R : σ → τ → Prop}

theorem Refines.run (h : Refines step upper ok R) {s t : σ} {u : τ} {as : List α} (hR : R s u)
    (hok : ∀ a ∈ as, ok a) (hrun : exec step s as = some t) :
    ∃ bs v, exec upper u bs = some v ∧ R t v := by
  induction as generalizing s u with
  | nil =>
    obtain rfl := Option.some.inj hrun
    exact ⟨[], u, rfl, hR⟩
  | cons a as ih =>
    obtain ⟨s', hs', hrest⟩ := Option.bind_eq_some_iff.mp hrun
    obtain ⟨bs, u', hu', hR'⟩ := h s u a s' hR (hok a List.mem_cons_self) hs'
    obtain ⟨bs', v, hv, hRv⟩ := ih hR' (fun b hb => hok b (List.mem_cons_of_mem a hb)) hrest
    refine ⟨bs ++ bs', v, ?_, hRv⟩
    rw [exec_append, hu', Option.bind_some, hv]

/-- An action that the upper system does not see. -/
theorem Refines.stutter {s : σ} {u : τ} (hR : R s u) : ∃ bs v, exec upper u bs = some v ∧ R s v :=
  ⟨[], u, rfl, hR⟩

theorem Refines.single {t : σ} {u v : τ} {b : β} (hstep : upper u b = some v) (hR : R t v) :
    ∃ bs v, exec upper u bs = some v ∧ R t v :=
  ⟨[b], v, by rw [exec_cons, hstep]; rfl, hR⟩

/-! ## Systems without choices -/

/-- Of two runs from one state, one goes on where the other ends. -/
theorem exec_comparable {next : σ → Option σ} {s t u : σ} {as bs : List Unit}
    (h : exec (fun s (_ : Unit) => next s) s as = some t)
    (h' : exec (fun s (_ : Unit) => next s) s bs = some u) :
    (∃ cs, exec (fun s (_ : Unit) => next s) t cs = some u) ∨
      ∃ cs, exec (fun s (_ : Unit) => next s) u cs = some t := by
  induction as generalizing s bs with
  | nil =>
    obtain rfl := Option.some.inj h
    exact .inl ⟨bs, h'⟩
  | cons a as ih =>
    cases bs with
    | nil =>
      obtain rfl := Option.some.inj h'
      exact .inr ⟨a :: as, h⟩
    | cons b bs =>
      obtain ⟨s', hs', hrest⟩ := Option.bind_eq_some_iff.mp h
      obtain ⟨s'', hs'', hrest'⟩ := Option.bind_eq_some_iff.mp h'
      obtain rfl := Option.some.inj (hs'.symm.trans hs'')
      exact ih hrest hrest'

end Acached.Refinement
