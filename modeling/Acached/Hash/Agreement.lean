import Acached.Hash.Paths
import Mathlib.Tactic.IntervalCases

/-! # All reads give the same hash value

Whichever way the key is read, a block adds the words of its bytes to the
state, and the last block those of its bytes filled up with zeros. So the value
depends on the bytes of the key only, not on its alignment or on what is behind
it.
-/
namespace Acached.Hash
open CString LittleEndian

variable {m : Mem} {p n : ℕ} {k : ℕ → UInt8}

section Reads

variable (h : ∀ i < n, m (p + i) = some (k i))
include h

theorem read8_of {i : ℕ} (hi : i < n) : read8 m (p + i) = some (k i).toUInt32 := by
  simp [read8, h i hi]

theorem read16_of {i : ℕ} (hi : i + 2 ≤ n) :
    read16 m (p + i) = some (le32 (k i) (k (i + 1)) 0 0) := by
  have h₁ := h (i + 1) (by omega)
  rw [← Nat.add_assoc] at h₁
  simp [read16, h i (by omega), h₁]

theorem read32_of {i : ℕ} (hi : i + 4 ≤ n) :
    read32 m (p + i) = some (le32 (k i) (k (i + 1)) (k (i + 2)) (k (i + 3))) := by
  have h₁ := h (i + 1) (by omega)
  have h₂ := h (i + 2) (by omega)
  have h₃ := h (i + 3) (by omega)
  rw [← Nat.add_assoc] at h₁ h₂ h₃
  simp [read32, h i (by omega), h₁, h₂, h₃]

end Reads

/-! ## One block -/

theorem block32_eq (h : Window m p 12 k) (s : Abc) : block32 m p s = some (s.add (words k)) := by
  have h₀ := read32_of (i := 0) h.bytes (by decide)
  have h₁ := read32_of (i := 4) h.bytes (by decide)
  have h₂ := read32_of (i := 8) h.bytes (by decide)
  rw [Nat.add_zero] at h₀
  simp [block32, h₀, h₁, h₂, words, Abc.add]

theorem block16_eq (h : Window m p 12 k) (s : Abc) : block16 m p s = some (s.add (words k)) := by
  have h₀ := read16_of (i := 0) h.bytes (by decide)
  have h₁ (i) (hi : i + 2 ≤ 12) := read16_of h.bytes hi
  rw [Nat.add_zero] at h₀
  simp [block16, h₀, h₁, le32_halves, words, Abc.add]

theorem block8_eq (h : Window m p 12 k) (s : Abc) : block8 m p s = some (s.add (words k)) := by
  have h₀ := read8_of (i := 0) h.bytes (by decide)
  have h₁ (i) (hi : i < 12) := read8_of h.bytes hi
  rw [Nat.add_zero] at h₀
  simp [block8, h₀, h₁, le32, words, Abc.add, UInt32.add_assoc]

/-! ## The last block -/

theorem last32_eq (h : Window m p n k) (hle : n ≤ 12)
    (hread : ∀ i < (n + 3) / 4 * 4, (m (p + i)).isSome) (s : Abc) :
    last32 m n p s = some (s.add (words k)) := by
  -- the bytes of the words that are read, those of the block among them
  obtain ⟨x, hx⟩ : ∃ x : ℕ → UInt8, ∀ i < (n + 3) / 4 * 4, m (p + i) = some (x i) := by
    refine ⟨fun i => (m (p + i)).getD 0, fun i hi => ?_⟩
    obtain ⟨y, hy⟩ := Option.isSome_iff_exists.mp (hread i hi)
    simp [hy]
  have hkey : ∀ i < n, x i = k i := fun i hi =>
    Option.some.inj ((hx i (by omega)).symm.trans (h.bytes i hi))
  have hpast := h.past
  have h32 (i) (hi : i + 4 ≤ (n + 3) / 4 * 4) := read32_of hx hi
  have h32₀ : 4 ≤ (n + 3) / 4 * 4 → read32 m p = some (le32 (x 0) (x 1) (x 2) (x 3)) :=
    read32_of (i := 0) hx
  interval_cases n
  all_goals simp [last32, h32, h32₀, hkey, hpast, Abc.add, words, le32_and_ffffff, le32_and_ffff,
    le32_and_ff, le32_zero]

theorem last32Valgrind_eq (h : Window m p n k) (hle : n ≤ 12) (s : Abc) :
    last32Valgrind m n p s = some (s.add (words k)) := by
  have hpast := h.past
  have h8 (i) (hi : i < n) := read8_of h.bytes hi
  have h32 (i) (hi : i + 4 ≤ n) := read32_of h.bytes hi
  have h8₀ : 0 < n → read8 m p = some (k 0).toUInt32 := read8_of (i := 0) h.bytes
  have h32₀ : 4 ≤ n → read32 m p = some (le32 (k 0) (k 1) (k 2) (k 3)) :=
    read32_of (i := 0) h.bytes
  interval_cases n
  all_goals simp [last32Valgrind, h8, h32, h8₀, h32₀, hpast, Abc.add, words, add_bytes,
    add_le32_half, le32_byte]

theorem last16_eq (h : Window m p n k) (hle : n ≤ 12) (s : Abc) :
    last16 m n p s = some (s.add (words k)) := by
  have hpast := h.past
  have h8 (i) (hi : i < n) := read8_of h.bytes hi
  have h16 (i) (hi : i + 2 ≤ n) := read16_of h.bytes hi
  have h8₀ : 0 < n → read8 m p = some (k 0).toUInt32 := read8_of (i := 0) h.bytes
  have h16₀ : 2 ≤ n → read16 m p = some (le32 (k 0) (k 1) 0 0) := read16_of (i := 0) h.bytes
  interval_cases n
  all_goals simp [last16, h8, h16, h8₀, h16₀, hpast, Abc.add, words, le32_halves, add_le32_half,
    le32_byte]

def cut (k : ℕ → UInt8) (n i : ℕ) : UInt8 := if i < n then k i else 0

theorem last8_cut (h : Window m p n k) (hle : n ≤ 12) {i : ℕ} (hi : i ≤ n) (s : Abc) :
    last8 m i p s = some (s.add (words (cut k i))) := by
  induction i generalizing s with
  | zero => simp [last8, Abc.add, words, cut, le32_zero]
  | succ i ih =>
    rw [last8, read8_of h.bytes hi]
    simp only [Option.bind_eq_bind, Option.bind_some]
    rw [ih (by omega)]
    refine congrArg some ?_
    have hlt : i < 12 := by omega
    interval_cases i
    all_goals simp [Abc.add, words, cut, le32_byte, add_bytes, add_le32_half,
      add_le32_three]

theorem last8_eq (h : Window m p n k) (hle : n ≤ 12) (s : Abc) :
    last8 m n p s = some (s.add (words k)) := by
  have hcut : cut k n = k := by
    ext i
    unfold cut
    split
    · rfl
    · rw [h.past i (by omega)]
  rw [last8_cut h hle (Nat.le_refl n), hcut]

/-! ## The whole key -/

def HasKey (m : Mem) (key : Bytes) : Prop := ∀ i < key.length, m i = some (key.getD i 0)

/-- The words that the key reaches into can be read. -/
def WordsReadable (m : Mem) (length : ℕ) : Prop := ∀ i < (length + 3) / 4 * 4, (m i).isSome

instance (m : Mem) (key : Bytes) : Decidable (HasKey m key) :=
  inferInstanceAs (Decidable (∀ i < key.length, m i = some (key.getD i 0)))

instance (m : Mem) (length : ℕ) : Decidable (WordsReadable m length) :=
  inferInstanceAs (Decidable (∀ i < (length + 3) / 4 * 4, (m i).isSome))

theorem HasKey.window {key : Bytes} (h : HasKey m key) {p n : ℕ} (hn : p + n ≤ key.length) :
    Window m p n fun i => ((key.drop p).take n).getD i 0 where
  bytes i hi := by
    rw [h (p + i) (by omega)]
    simp [hi]
  past i hi := List.getD_eq_default _ _ (by rw [List.length_take]; omega)

variable {block : ℕ → Abc → Option Abc} {last : ℕ → ℕ → Abc → Option Abc}

/-- The loop stops in front of the last block, with the blocks before it mixed in. -/
theorem loop_eq {key : Bytes}
    (hblock : ∀ p s, p + 12 ≤ key.length →
      block p s = some (s.add (lanes ((key.drop p).take 12)))) (fuel : ℕ) {p : ℕ}
    (hfuel : key.length - p ≤ fuel) (hp : p < key.length) (s : Abc) :
    ∃ q t, loop block fuel (key.length - p) p s = some (key.length - q, q, t) ∧ q < key.length ∧
      key.length ≤ q + 12 ∧ q % 12 = p % 12 ∧
      absorbKey fuel (key.drop p) s = t.add (lanes (key.drop q)) := by
  induction fuel generalizing p s with
  | zero => omega
  | succ fuel ih =>
    by_cases hlong : 12 < key.length - p
    · obtain ⟨q, t, hloop, hq, hlast, hmod, habsorb⟩ :=
        ih (p := p + 12) (by omega) (by omega) (mix (s.add (lanes ((key.drop p).take 12))))
      refine ⟨q, t, ?_, hq, hlast, by omega, ?_⟩
      · rw [loop, if_pos hlong, hblock p s (by omega), Option.bind_some, Nat.sub_sub, hloop]
      · rw [absorbKey, if_pos (by rw [List.length_drop]; exact hlong), List.drop_drop, habsorb]
    · refine ⟨p, s, ?_, hp, by omega, rfl, ?_⟩
      · rw [loop, if_neg hlong]
      · rw [absorbKey, if_neg (by rw [List.length_drop]; exact hlong)]

theorem hashFrom_eq {key : Bytes}
    (hblock : ∀ p s, p + 12 ≤ key.length →
      block p s = some (s.add (lanes ((key.drop p).take 12))))
    (hlast : ∀ p s, p ≤ key.length → key.length - p ≤ 12 → p % 12 = 0 →
      last (key.length - p) p s = some (s.add (lanes (key.drop p)))) (initval : UInt32) :
    hashFrom block last key.length initval = some (keyHash key initval) := by
  unfold hashFrom keyHash
  dsimp only
  by_cases hne : key = []
  · subst hne
    rfl
  · have hpos := List.length_pos_iff.mpr hne
    obtain ⟨q, t, hloop, hq, hend, hmod, habsorb⟩ :=
      loop_eq hblock key.length (p := 0) (Nat.sub_le _ _) hpos ⟨0xdeadbeef +
        UInt32.ofNat key.length + initval, 0xdeadbeef + UInt32.ofNat key.length + initval,
          0xdeadbeef + UInt32.ofNat key.length + initval⟩
    rw [Nat.sub_zero] at hloop
    rw [List.drop_zero] at habsorb
    have hrest : key.length - q ≠ 0 := by omega
    simp only [hloop, Option.bind_eq_bind, Option.bind_some, if_neg hrest, hlast q t hq.le (by omega) hmod,
      Option.pure_def, if_neg hne, habsorb]

theorem HasKey.rest {key : Bytes} (h : HasKey m key) {p : ℕ} (hp : p ≤ key.length) :
    Window m p (key.length - p) fun i => (key.drop p).getD i 0 := by
  have hrest := h.window (p := p) (n := key.length - p) (by omega)
  rwa [List.take_of_length_le (by rw [List.length_drop])] at hrest

section Paths

variable {key : Bytes} (h : HasKey m key) (initval : UInt32)
include h

theorem hashFrom_bytes :
    hashFrom (block8 m) (last8 m) key.length initval = some (keyHash key initval) := by
  apply hashFrom_eq
  · intro p s hp
    exact block8_eq (h.window hp) s
  · intro p s hp hle _
    exact last8_eq (h.rest hp) hle s

theorem hashFrom_halves :
    hashFrom (block16 m) (last16 m) key.length initval = some (keyHash key initval) := by
  apply hashFrom_eq
  · intro p s hp
    exact block16_eq (h.window hp) s
  · intro p s hp hle _
    exact last16_eq (h.rest hp) hle s

theorem hashFrom_valgrind :
    hashFrom (block32 m) (last32Valgrind m) key.length initval = some (keyHash key initval) := by
  apply hashFrom_eq
  · intro p s hp
    exact block32_eq (h.window hp) s
  · intro p s hp hle _
    exact last32Valgrind_eq (h.rest hp) hle s

/-- Words read at an offset that is a multiple of 4 end with a word of the key. -/
theorem hashFrom_words (hread : WordsReadable m key.length) :
    hashFrom (block32 m) (last32 m) key.length initval = some (keyHash key initval) := by
  apply hashFrom_eq
  · intro p s hp
    exact block32_eq (h.window hp) s
  · intro p s hp hle hmod
    exact last32_eq (h.rest hp) hle (fun i hi => hread (p + i) (by omega)) s

end Paths

variable {key : Bytes} {addr : ℕ}

/-- The hash value is one of the bytes of the key. Only a key that is read by words needs what is
behind it to be in memory, up to the end of its last word. -/
theorem hash_eq_keyHash (h : HasKey m key) (hread : addr &&& 3 = 0 → WordsReadable m key.length)
    (initval : UInt32) : hash addr m key.length initval = some (keyHash key initval) := by
  unfold hash
  split_ifs with hword hhalf
  · exact hashFrom_words h initval (hread hword)
  · exact hashFrom_halves h initval
  · exact hashFrom_bytes h initval

/-- A key at the end of the memory that can be read, with the byte that its last word ends with. -/
theorem hash_eq_keyHash_foo :
    hash 8 ([102, 111, 111, 7][·]?) 3 0 = some (keyHash [102, 111, 111] 0) :=
  hash_eq_keyHash (m := ([102, 111, 111, 7][·]?)) (by decide : HasKey _ [102, 111, 111])
    (fun _ => by decide) 0

/-- Built for valgrind, it is the same value, and nothing behind the key is read. -/
theorem hashValgrind_eq_keyHash (h : HasKey m key) (initval : UInt32) :
    hashValgrind addr m key.length initval = some (keyHash key initval) := by
  unfold hashValgrind
  split_ifs
  · exact hashFrom_valgrind h initval
  · exact hashFrom_halves h initval
  · exact hashFrom_bytes h initval

theorem hashValgrind_eq_keyHash_foo :
    hashValgrind 8 ([102, 111, 111][·]?) 3 0 = some (keyHash [102, 111, 111] 0) :=
  hashValgrind_eq_keyHash (m := ([102, 111, 111][·]?)) (by decide : HasKey _ [102, 111, 111]) 0

end Acached.Hash
