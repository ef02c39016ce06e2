import Acached.Foundation.Absorb

/-! # Mixing three words

The macros `mix` and `final` of the hash function. Both are reversible: each of
their lines changes one word by the others, and the words change their parts
from line to line.
-/
namespace Acached.Hash
open Absorb Function

@[ext] structure Abc where
  a : UInt32
  b : UInt32
  c : UInt32
  deriving DecidableEq, Repr

def rot (x k : UInt32) : UInt32 := (x <<< k) ^^^ (x >>> (32 - k))

def mix (s : Abc) : Abc :=
  let a := s.a
  let b := s.b
  let c := s.c
  let a := a - c; let a := a ^^^ rot c 4; let c := c + b
  let b := b - a; let b := b ^^^ rot a 6; let a := a + c
  let c := c - b; let c := c ^^^ rot b 8; let b := b + a
  let a := a - c; let a := a ^^^ rot c 16; let c := c + b
  let b := b - a; let b := b ^^^ rot a 19; let a := a + c
  let c := c - b; let c := c ^^^ rot b 4; let b := b + a
  ⟨a, b, c⟩

def final (s : Abc) : Abc :=
  let a := s.a
  let b := s.b
  let c := s.c
  let c := c ^^^ b; let c := c - rot b 14
  let a := a ^^^ c; let a := a - rot c 11
  let b := b ^^^ a; let b := b - rot a 25
  let c := c ^^^ b; let c := c - rot b 16
  let a := a ^^^ c; let a := a - rot c 4
  let b := b ^^^ a; let b := b - rot a 14
  let c := c ^^^ b; let c := c - rot b 24
  ⟨a, b, c⟩

def turn (s : Abc) : Abc := ⟨s.b, s.c, s.a⟩

def stir (k : UInt32) (s : Abc) : Abc := ⟨(s.a - s.c) ^^^ rot s.c k, s.b, s.c + s.b⟩

def blend (k : UInt32) (s : Abc) : Abc := ⟨s.a, s.b, (s.c ^^^ s.b) - rot s.b k⟩

theorem turn_bijective : Bijective turn :=
  bijective_iff_has_inverse.mpr ⟨fun s => ⟨s.c, s.a, s.b⟩, fun _ => rfl, fun _ => rfl⟩

theorem xor_xor_cancel (x y : UInt32) : (x ^^^ y) ^^^ y = x := by
  rw [UInt32.xor_assoc, UInt32.xor_self, UInt32.xor_zero]

theorem stir_bijective (k : UInt32) : Bijective (stir k) := by
  refine bijective_iff_has_inverse.mpr
    ⟨fun s => ⟨(s.a ^^^ rot (s.c - s.b) k) + (s.c - s.b), s.b, s.c - s.b⟩, fun s => ?_, fun s => ?_⟩
  · ext
    · simp only [stir, UInt32.add_sub_cancel, xor_xor_cancel, UInt32.sub_add_cancel]
    · rfl
    · simp only [stir, UInt32.add_sub_cancel]
  · ext
    · simp only [stir, UInt32.sub_add_cancel, UInt32.add_sub_cancel, xor_xor_cancel]
    · rfl
    · simp only [stir, UInt32.sub_add_cancel]

theorem blend_bijective (k : UInt32) : Bijective (blend k) := by
  refine bijective_iff_has_inverse.mpr
    ⟨fun s => ⟨s.a, s.b, (s.c + rot s.b k) ^^^ s.b⟩, fun s => ?_, fun s => ?_⟩
  · ext
    · rfl
    · rfl
    · simp only [blend, UInt32.sub_add_cancel, xor_xor_cancel]
  · ext
    · rfl
    · rfl
    · simp only [blend, xor_xor_cancel, UInt32.add_sub_cancel]

theorem mix_eq : mix = turn ∘ stir 4 ∘ turn ∘ stir 19 ∘ turn ∘ stir 16 ∘ turn ∘ stir 8 ∘ turn ∘
    stir 6 ∘ turn ∘ stir 4 := rfl

theorem final_eq : final = blend 24 ∘ turn ∘ blend 14 ∘ turn ∘ blend 4 ∘ turn ∘ blend 16 ∘ turn ∘
    blend 25 ∘ turn ∘ blend 11 ∘ turn ∘ blend 14 := rfl

/-- Any information in the three words before `mix` is still there after it. -/
theorem mix_bijective : Bijective mix := by
  rw [mix_eq]
  have hline (k : UInt32) : Bijective (turn ∘ stir k) := turn_bijective.comp (stir_bijective k)
  exact (hline 4).comp ((hline 19).comp ((hline 16).comp ((hline 8).comp ((hline 6).comp (hline 4)))))

theorem final_bijective : Bijective final := by
  rw [final_eq]
  have hline (k : UInt32) : Bijective (turn ∘ blend k) := turn_bijective.comp (blend_bijective k)
  exact (blend_bijective 24).comp ((hline 14).comp ((hline 4).comp ((hline 16).comp ((hline 25).comp
    ((hline 11).comp (hline 14))))))

def Abc.add (s t : Abc) : Abc := ⟨s.a + t.a, s.b + t.b, s.c + t.c⟩

theorem Abc.add_comm (s t : Abc) : s.add t = t.add s :=
  Abc.ext (UInt32.add_comm ..) (UInt32.add_comm ..) (UInt32.add_comm ..)

theorem Abc.add_bijective (s : Abc) : Bijective s.add := by
  refine bijective_iff_has_inverse.mpr
    ⟨fun t => ⟨t.a - s.a, t.b - s.b, t.c - s.c⟩, fun t => ?_, fun t => ?_⟩
  · ext
    · simp [Abc.add, UInt32.add_comm s.a]
    · simp [Abc.add, UInt32.add_comm s.b]
    · simp [Abc.add, UInt32.add_comm s.c]
  · ext
    · simp [Abc.add, UInt32.add_comm s.a]
    · simp [Abc.add, UInt32.add_comm s.b]
    · simp [Abc.add, UInt32.add_comm s.c]

theorem Abc.add_right_bijective (t : Abc) : Bijective fun s : Abc => s.add t := by
  have heq : (fun s : Abc => s.add t) = t.add := funext fun s => s.add_comm t
  rw [heq]
  exact t.add_bijective

/-- A word of the state that is as often one value as another. -/
theorem balanced_c : Balanced Abc.c := by
  intro h h'
  refine ⟨⟨fun s => ⟨⟨s.1.a, s.1.b, h'⟩, rfl⟩, fun s => ⟨⟨s.1.a, s.1.b, h⟩, rfl⟩, ?_, ?_⟩⟩
  · rintro ⟨s, rfl⟩
    rfl
  · rintro ⟨s, rfl⟩
    rfl

end Acached.Hash
