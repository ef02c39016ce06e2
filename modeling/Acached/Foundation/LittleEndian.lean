import Mathlib.Logic.Function.Basic
import Mathlib.Data.Nat.Bitwise

/-! # Words of bytes, least significant first -/
namespace Acached.LittleEndian

/-- The word that four bytes in memory are. -/
def le32 (b₀ b₁ b₂ b₃ : UInt8) : UInt32 :=
  b₀.toUInt32 + b₁.toUInt32 <<< 8 + b₂.toUInt32 <<< 16 + b₃.toUInt32 <<< 24

theorem toNat_le32 (b₀ b₁ b₂ b₃ : UInt8) : (le32 b₀ b₁ b₂ b₃).toNat =
    b₀.toNat + 2 ^ 8 * b₁.toNat + 2 ^ 16 * b₂.toNat + 2 ^ 24 * b₃.toNat := by
  have h₀ := b₀.toNat_lt
  have h₁ := b₁.toNat_lt
  have h₂ := b₂.toNat_lt
  have h₃ := b₃.toNat_lt
  simp only [le32, UInt32.toNat_add, UInt32.toNat_shiftLeft, UInt8.toNat_toUInt32, Nat.shiftLeft_eq]
  simp only [UInt32.reduceToNat, Nat.reduceMod]
  omega

theorem le32_zero : le32 0 0 0 0 = 0 := rfl

theorem le32_byte (b₀ : UInt8) : le32 b₀ 0 0 0 = b₀.toUInt32 := by simp [le32]

theorem le32_half (b₀ b₁ : UInt8) : le32 b₀ b₁ 0 0 = b₀.toUInt32 + b₁.toUInt32 <<< 8 := by
  simp [le32]

theorem le32_three (b₀ b₁ b₂ : UInt8) :
    le32 b₀ b₁ b₂ 0 = b₀.toUInt32 + b₁.toUInt32 <<< 8 + b₂.toUInt32 <<< 16 := by
  simp [le32]

theorem le32_halves (b₀ b₁ b₂ b₃ : UInt8) :
    le32 b₀ b₁ 0 0 + le32 b₂ b₃ 0 0 <<< 16 = le32 b₀ b₁ b₂ b₃ := by
  apply UInt32.toNat.inj
  have h₀ := b₀.toNat_lt
  have h₁ := b₁.toNat_lt
  have h₂ := b₂.toNat_lt
  have h₃ := b₃.toNat_lt
  simp only [UInt32.toNat_add, UInt32.toNat_shiftLeft, toNat_le32, Nat.shiftLeft_eq]
  simp only [UInt32.reduceToNat, Nat.reduceMod, UInt8.toNat_zero]
  omega

section Add

variable (s : UInt32) (b₀ b₁ b₂ b₃ : UInt8)

theorem add_le32_byte : s + b₁.toUInt32 <<< 8 + le32 b₀ 0 0 0 = s + le32 b₀ b₁ 0 0 := by
  rw [le32_byte, le32_half, UInt32.add_assoc, UInt32.add_comm (b₁.toUInt32 <<< 8)]

theorem add_le32_half : s + b₂.toUInt32 <<< 16 + le32 b₀ b₁ 0 0 = s + le32 b₀ b₁ b₂ 0 := by
  rw [le32_half, le32_three, UInt32.add_assoc, UInt32.add_comm (b₂.toUInt32 <<< 16)]

theorem add_le32_three : s + b₃.toUInt32 <<< 24 + le32 b₀ b₁ b₂ 0 = s + le32 b₀ b₁ b₂ b₃ := by
  rw [le32_three, le32, UInt32.add_assoc, UInt32.add_comm (b₃.toUInt32 <<< 24)]

theorem add_bytes : s + b₁.toUInt32 <<< 8 + b₀.toUInt32 = s + le32 b₀ b₁ 0 0 := by
  rw [← add_le32_byte, le32_byte]

end Add

theorem le32_and_mask {b₀ b₁ b₂ b₃ c₀ c₁ c₂ c₃ : UInt8} {mask : UInt32} (n : ℕ)
    (hmask : mask.toNat = 2 ^ n - 1)
    (hkept : (le32 b₀ b₁ b₂ b₃).toNat % 2 ^ n = (le32 c₀ c₁ c₂ c₃).toNat) :
    le32 b₀ b₁ b₂ b₃ &&& mask = le32 c₀ c₁ c₂ c₃ := by
  apply UInt32.toNat.inj
  rw [UInt32.toNat_and, hmask, Nat.and_two_pow_sub_one_eq_mod, hkept]

theorem le32_and_ffffff (b₀ b₁ b₂ b₃ : UInt8) :
    le32 b₀ b₁ b₂ b₃ &&& 0xffffff = le32 b₀ b₁ b₂ 0 := by
  refine le32_and_mask 24 rfl ?_
  have h₀ := b₀.toNat_lt
  have h₁ := b₁.toNat_lt
  have h₂ := b₂.toNat_lt
  simp only [toNat_le32, UInt8.toNat_zero]
  omega

theorem le32_and_ffff (b₀ b₁ b₂ b₃ : UInt8) : le32 b₀ b₁ b₂ b₃ &&& 0xffff = le32 b₀ b₁ 0 0 := by
  refine le32_and_mask 16 rfl ?_
  have h₀ := b₀.toNat_lt
  have h₁ := b₁.toNat_lt
  simp only [toNat_le32, UInt8.toNat_zero]
  omega

theorem le32_and_ff (b₀ b₁ b₂ b₃ : UInt8) : le32 b₀ b₁ b₂ b₃ &&& 0xff = le32 b₀ 0 0 0 := by
  refine le32_and_mask 8 rfl ?_
  have h₀ := b₀.toNat_lt
  simp only [toNat_le32, UInt8.toNat_zero]
  omega

theorem le32_injective {b₀ b₁ b₂ b₃ c₀ c₁ c₂ c₃ : UInt8}
    (h : le32 b₀ b₁ b₂ b₃ = le32 c₀ c₁ c₂ c₃) : b₀ = c₀ ∧ b₁ = c₁ ∧ b₂ = c₂ ∧ b₃ = c₃ := by
  have hnat := congrArg UInt32.toNat h
  have hb₀ := b₀.toNat_lt
  have hb₁ := b₁.toNat_lt
  have hb₂ := b₂.toNat_lt
  have hc₀ := c₀.toNat_lt
  have hc₁ := c₁.toNat_lt
  have hc₂ := c₂.toNat_lt
  rw [toNat_le32, toNat_le32] at hnat
  refine ⟨UInt8.toNat.inj ?_, UInt8.toNat.inj ?_, UInt8.toNat.inj ?_, UInt8.toNat.inj ?_⟩
  · omega
  · omega
  · omega
  · omega

def byteAt (w : UInt32) (i : ℕ) : UInt8 := UInt8.ofNat (w.toNat / 2 ^ (8 * i))

theorem le32_byteAt (w : UInt32) :
    le32 (byteAt w 0) (byteAt w 1) (byteAt w 2) (byteAt w 3) = w := by
  have hw := w.toNat_lt
  apply UInt32.toNat.inj
  simp only [toNat_le32, byteAt, UInt8.toNat_ofNat']
  omega

end Acached.LittleEndian
