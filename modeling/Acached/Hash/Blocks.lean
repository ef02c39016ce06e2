import Acached.Hash.Paths
import Mathlib.Data.Vector.Basic
import Mathlib.Tactic.IntervalCases

/-! # The blocks of a key

No block of 12 bytes gets lost: whatever the rest of the key is, the three words
at the end are determined by the block and determine it, and all hash values
come from equally many blocks.
-/
namespace Acached.Hash
open CString LittleEndian Absorb Function

abbrev Block := List.Vector UInt8 12

theorem lanes_bijective : Bijective fun b : Block => lanes b.1 := by
  constructor
  · rintro ⟨b, hb⟩ ⟨c, hc⟩ heq
    have hwords := Abc.ext_iff.mp heq
    obtain ⟨h₀, h₁, h₂, h₃⟩ := le32_injective hwords.1
    obtain ⟨h₄, h₅, h₆, h₇⟩ := le32_injective hwords.2.1
    obtain ⟨h₈, h₉, h₁₀, h₁₁⟩ := le32_injective hwords.2.2
    apply Subtype.ext
    apply List.ext_getElem (hb.trans hc.symm)
    intro i hib hic
    have hlt : i < 12 := hb ▸ hib
    rw [← List.getD_eq_getElem b 0 hib, ← List.getD_eq_getElem c 0 hic]
    interval_cases i <;> assumption
  · intro s
    refine ⟨⟨[byteAt s.a 0, byteAt s.a 1, byteAt s.a 2, byteAt s.a 3, byteAt s.b 0, byteAt s.b 1,
      byteAt s.b 2, byteAt s.b 3, byteAt s.c 0, byteAt s.c 1, byteAt s.c 2, byteAt s.c 3], rfl⟩, ?_⟩
    exact Abc.ext (le32_byteAt _) (le32_byteAt _) (le32_byteAt _)

def blocks : ℕ → Bytes → List Abc
  | 0, key => [lanes key]
  | fuel + 1, key =>
    if 12 < key.length then lanes (key.take 12) :: blocks fuel (key.drop 12) else [lanes key]

/-- `hash` mixes after each block but the last, where it uses `final`. -/
theorem mix_absorbKey (fuel : ℕ) (key : Bytes) (s : Abc) :
    mix (absorbKey fuel key s) = absorb Abc.add mix s (blocks fuel key) := by
  induction fuel generalizing key s with
  | zero => rfl
  | succ fuel ih =>
    unfold absorbKey blocks
    split
    · rw [ih, absorb_cons]
    · rfl

theorem blocks_append (back : Bytes) (n fuel : ℕ) (front : Bytes) (hfront : front.length = 12 * n)
    (hfuel : n < fuel) : ∃ fs bs, ∀ b : Block,
      blocks fuel (front ++ (b.1 ++ back)) = fs ++ lanes b.1 :: bs := by
  induction n generalizing fuel front with
  | zero =>
    obtain ⟨fuel, rfl⟩ := Nat.exists_eq_succ_of_ne_zero (by omega : fuel ≠ 0)
    rw [List.length_eq_zero_iff.mp hfront]
    refine ⟨[], if back = [] then [] else blocks fuel back, fun b => ?_⟩
    have hb : b.1.length = 12 := b.2
    by_cases hnil : back = []
    · simp [blocks, hnil, hb]
    · have hpos := List.length_pos_iff.mpr hnil
      simp [blocks, hnil, hb, hpos]
  | succ n ih =>
    obtain ⟨fuel, rfl⟩ := Nat.exists_eq_succ_of_ne_zero (by omega : fuel ≠ 0)
    obtain ⟨fs, bs, heq⟩ := ih fuel (front.drop 12)
      (by rw [List.length_drop]; omega) (by omega)
    refine ⟨lanes (front.take 12) :: fs, bs, fun b => ?_⟩
    have hb : b.1.length = 12 := b.2
    have hlong : 12 < (front ++ (b.1 ++ back)).length := by
      rw [List.length_append, List.length_append]
      omega
    rw [blocks, if_pos hlong, List.take_append_of_le_length (by omega),
      List.drop_append_of_le_length (by omega), heq b]
    rfl

theorem length_block (front back : Bytes) (b : Block) :
    (front ++ b.1 ++ back).length = front.length + 12 + back.length := by
  rw [List.length_append, List.length_append, b.2]

/-- The state before `final`, as a function of one block of the key. -/
theorem absorbKey_bijective {front : Bytes} (hfront : 12 ∣ front.length) (back : Bytes) (s : Abc) :
    Bijective fun b : Block =>
      absorbKey (front.length + 12 + back.length) (front ++ b.1 ++ back) s := by
  obtain ⟨n, hn⟩ := hfront
  obtain ⟨fs, bs, hblocks⟩ :=
    blocks_append back n (front.length + 12 + back.length) front hn (by omega)
  have hmixed : mix ∘ (fun b : Block =>
      absorbKey (front.length + 12 + back.length) (front ++ b.1 ++ back) s) =
        (fun w => absorb Abc.add mix s (fs ++ w :: bs)) ∘ fun b : Block => lanes b.1 := by
    funext b
    rw [comp_apply, mix_absorbKey, List.append_assoc, hblocks b]
    rfl
  apply (mix_bijective.of_comp_iff' _).mp
  rw [hmixed]
  exact (absorb_block_bijective mix_bijective Abc.add_right_bijective Abc.add_bijective s fs bs).comp
    lanes_bijective

/-- All hash values come from equally many values of a block. -/
theorem keyHash_balanced {front : Bytes} (hfront : 12 ∣ front.length) (back : Bytes)
    (initval : UInt32) : Balanced fun b : Block => keyHash (front ++ b.1 ++ back) initval := by
  generalize hs : 0xdeadbeef + UInt32.ofNat (front.length + 12 + back.length) + initval = s
  have heq : (fun b : Block => keyHash (front ++ b.1 ++ back) initval) = (Abc.c ∘ final) ∘
      fun b : Block =>
        absorbKey (front.length + 12 + back.length) (front ++ b.1 ++ back) ⟨s, s, s⟩ := by
    funext b
    have hne : front ++ b.1 ++ back ≠ [] := by
      apply List.ne_nil_of_length_pos
      rw [length_block]
      omega
    simp only [keyHash, if_neg hne, length_block, hs, comp_apply]
  rw [heq]
  exact (balanced_c.comp final_bijective).comp (absorbKey_bijective hfront back _)

theorem keyHash_balanced_first : Balanced fun b : Block => keyHash ([] ++ b.1 ++ [255]) 0 :=
  keyHash_balanced (dvd_zero 12) [255] 0

end Acached.Hash
