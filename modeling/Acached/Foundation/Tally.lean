import Mathlib.Algebra.BigOperators.Group.Finset.Piecewise
import Mathlib.Data.Fintype.Basic

/-! # Counting threads

The number of members of a finite family that have a property, and how it
changes when one of them does.
-/
namespace Acached.Tally

variable {ι α : Type*} [Fintype ι] (p : α → Prop) [DecidablePred p]

def tally (f : ι → α) : ℕ := (Finset.univ.filter fun i => p (f i)).card

variable {p} {f : ι → α}

theorem tally_eq_zero_iff : tally p f = 0 ↔ ∀ i, ¬ p (f i) := by
  simp [tally, Finset.filter_eq_empty_iff]

theorem tally_lt {g : ι → α} (hkeep : ∀ i, p (f i) → p (g i)) {i : ι} (hf : ¬ p (f i))
    (hg : p (g i)) : tally p f < tally p g := by
  refine Finset.card_lt_card (Finset.ssubset_iff_of_subset ?_ |>.mpr ⟨i, by simpa, by simpa⟩)
  exact Finset.monotone_filter_right _ fun j _ => hkeep j

variable [DecidableEq ι]

theorem tally_update (i : ι) (a : α) : tally p (Function.update f i a) +
    (if p (f i) then 1 else 0) = tally p f + (if p a then 1 else 0) := by
  have hrest : ∑ j ∈ Finset.univ.erase i, (if p (Function.update f i a j) then 1 else 0) =
      ∑ j ∈ Finset.univ.erase i, (if p (f j) then 1 else 0) :=
    Finset.sum_congr rfl fun j hj => by rw [Function.update_of_ne (Finset.ne_of_mem_erase hj)]
  rw [tally, tally, Finset.card_filter, Finset.card_filter,
    ← Finset.sum_erase_add _ _ (Finset.mem_univ i),
    ← Finset.sum_erase_add Finset.univ (fun j => if p (f j) then 1 else 0) (Finset.mem_univ i),
    hrest, Function.update_self]
  omega

theorem tally_update_of_iff {i : ι} {a : α} (h : p a ↔ p (f i)) :
    tally p (Function.update f i a) = tally p f := by
  have := tally_update (p := p) (f := f) i a
  simp only [h] at this
  omega

theorem tally_update_of_not {i : ι} {a : α} (h : p (f i)) (ha : ¬ p a) :
    tally p (Function.update f i a) + 1 = tally p f := by
  have := tally_update (p := p) (f := f) i a
  rwa [if_pos h, if_neg ha] at this

theorem tally_update_of_pos {i : ι} {a : α} (h : ¬ p (f i)) (ha : p a) :
    tally p (Function.update f i a) = tally p f + 1 := by
  have := tally_update (p := p) (f := f) i a
  rwa [if_neg h, if_pos ha] at this

end Acached.Tally
