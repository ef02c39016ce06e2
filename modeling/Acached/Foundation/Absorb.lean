import Mathlib.Logic.Equiv.Basic
import Mathlib.Data.List.Basic

/-! # Absorbing blocks

A state takes in one block after another: each is added to the state, and the
state is mixed. Where mixing and adding are reversible, every single block
determines the state at the end, and does so evenly.
-/
namespace Acached.Absorb
open Function

variable {S B H : Type*} (add : S → B → S) (mix : S → S)

def absorb (s : S) (blocks : List B) : S := blocks.foldl (fun s b => mix (add s b)) s

theorem absorb_cons (s : S) (b : B) (blocks : List B) :
    absorb add mix s (b :: blocks) = absorb add mix (mix (add s b)) blocks := rfl

theorem absorb_append (s : S) (front back : List B) :
    absorb add mix s (front ++ back) = absorb add mix (absorb add mix s front) back :=
  List.foldl_append

variable {add mix}

/-- Nothing of the state is lost. -/
theorem absorb_bijective (hmix : Bijective mix) (hadd : ∀ b, Bijective fun s => add s b)
    (blocks : List B) : Bijective fun s => absorb add mix s blocks := by
  induction blocks with
  | nil => exact bijective_id
  | cons b blocks ih => exact (ih.comp hmix).comp (hadd b)

/-- One block among others determines the state. -/
theorem absorb_block_bijective (hmix : Bijective mix) (hadd : ∀ b, Bijective fun s => add s b)
    (hblock : ∀ s, Bijective (add s)) (s : S) (front back : List B) :
    Bijective fun b => absorb add mix s (front ++ b :: back) := by
  have hrest := ((absorb_bijective hmix hadd back).comp hmix).comp (hblock (absorb add mix s front))
  have heq : (fun b => absorb add mix s (front ++ b :: back)) =
      ((fun s => absorb add mix s back) ∘ mix) ∘ add (absorb add mix s front) := by
    ext b
    rw [absorb_append]
    rfl
  rw [heq]
  exact hrest

/-- All results have the same number of arguments. -/
def Balanced (f : B → H) : Prop := ∀ h h', Nonempty ({b // f b = h} ≃ {b // f b = h'})

theorem Balanced.comp {f : S → H} (hf : Balanced f) {g : B → S} (hg : Bijective g) :
    Balanced (f ∘ g) := by
  intro h h'
  obtain ⟨e⟩ := hf h h'
  have hfiber (x : H) : {b // f (g b) = x} ≃ {s // f s = x} :=
    (Equiv.ofBijective g hg).subtypeEquiv fun b => Iff.rfl
  exact ⟨(hfiber h).trans (e.trans (hfiber h').symm)⟩

end Acached.Absorb
