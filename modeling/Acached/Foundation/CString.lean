import Acached.Foundation.Words
import Mathlib.Algebra.Group.Int.Defs
import Mathlib.Algebra.Group.Nat.Defs
import Mathlib.Data.List.Infix
import Mathlib.Data.List.Basic

/-! # C strings as zero-extended byte lists

A list stands for the bytes of an object from some address on; reading past
its end yields the byte zero, as it does in an object that ends in zeros.
-/
namespace Acached.CString

abbrev Bytes := List UInt8

def NulFree (s : Bytes) : Prop := ∀ b ∈ s, b ≠ 0

instance (s : Bytes) : Decidable (NulFree s) := inferInstanceAs (Decidable (∀ b ∈ s, b ≠ 0))

theorem forall_mem_of_all {p : UInt8 → Prop} [DecidablePred p] {s : Bytes}
    (h : s.all (fun b => p b) = true) : ∀ b ∈ s, p b :=
  fun b hb => of_decide_eq_true (List.all_eq_true.mp h b hb)

/-- `strncmp`: the sign of the first difference among the first `n` bytes, none after a NUL. -/
def strncmp : Bytes → Bytes → ℕ → ℤ
  | _, _, 0 => 0
  | s, t, n + 1 =>
    if s.headD 0 ≠ t.headD 0 then (s.headD 0).toNat - (t.headD 0).toNat
    else if s.headD 0 = 0 then 0
    else strncmp s.tail t.tail n

/-- The string that starts at an address: the bytes in front of the first NUL. -/
def cstr (s : Bytes) : Bytes := s.takeWhile (· ≠ 0)

/-- `strncpy` to the beginning of an array: at most `n` bytes of the string, and zeros up to `n`. -/
def strncpy (dst src : Bytes) (n : ℕ) : Bytes :=
  (cstr src).take n ++ List.replicate (n - ((cstr src).take n).length) 0 ++ dst.drop n

/-- One call of `strtok` on what is left of a string: the next word, and what is left then. -/
def strtok (delim : UInt8) (s : Bytes) : Option (Bytes × Bytes) :=
  match s.dropWhile (· = delim) with
  | [] => none
  | b :: t => some ((b :: t).takeWhile (· ≠ delim), ((b :: t).dropWhile (· ≠ delim)).tail)

/-- The words that at most `n` calls of `strtok` return. -/
def strtokLoop (delim : UInt8) : ℕ → Bytes → List Bytes
  | 0, _ => []
  | n + 1, s => match strtok delim s with
    | none => []
    | some (word, rest) => word :: strtokLoop delim n rest

/-- The words of the string at an address; there are no more than it has bytes. -/
def strtokWords (delim : UInt8) (s : Bytes) : List Bytes :=
  strtokLoop delim (cstr s).length (cstr s)

theorem length_strncpy {dst : Bytes} (src : Bytes) {n : ℕ} (h : n ≤ dst.length) :
    (strncpy dst src n).length = dst.length := by
  have hle : ((cstr src).take n).length ≤ n := List.length_take_le n _
  unfold strncpy
  rw [List.length_append, List.length_append, List.length_replicate, List.length_drop]
  omega

theorem nulFree_cstr (s : Bytes) : NulFree (cstr s) := by
  intro b hb
  simpa using List.mem_takeWhile_imp hb

theorem cstr_of_nulFree {s : Bytes} (h : NulFree s) : cstr s = s :=
  List.takeWhile_eq_self_iff.mpr fun b hb => decide_eq_true (h b hb)

theorem take_cstr {s src : Bytes} (hs : NulFree s) (h : s <+: src) : (cstr src).take s.length = s := by
  obtain ⟨rest, rfl⟩ := h
  unfold cstr
  rw [List.takeWhile_append_of_pos fun b hb => decide_eq_true (hs b hb), List.take_left]

theorem strncpy_eq (dst : Bytes) {s src : Bytes} (hs : NulFree s) (h : s <+: src) :
    strncpy dst src s.length = s ++ dst.drop s.length := by
  unfold strncpy
  rw [take_cstr hs h, Nat.sub_self, List.replicate_zero, List.append_nil]

theorem strtok_length_lt {delim : UInt8} {s word rest : Bytes}
    (h : strtok delim s = some (word, rest)) : rest.length < s.length := by
  have hdrop : (s.dropWhile (· = delim)).length ≤ s.length :=
    (List.dropWhile_suffix _).length_le
  unfold strtok at h
  split at h
  · cases h
  · next b t he =>
    obtain ⟨-, rfl⟩ := Prod.mk.inj (Option.some.inj h)
    have hlater : ((b :: t).dropWhile (· ≠ delim)).length ≤ (b :: t).length :=
      (List.dropWhile_suffix _).length_le
    rw [he, List.length_cons] at hdrop
    rw [List.length_cons] at hlater
    rw [List.length_tail]
    omega

theorem strtokLoop_of_le {delim : UInt8} {s : Bytes} {n : ℕ} (h : s.length ≤ n) :
    strtokLoop delim n s = strtokLoop delim s.length s := by
  induction n using Nat.strong_induction_on generalizing s with
  | _ n ih =>
    cases n with
    | zero => rw [Nat.le_zero.mp h]
    | succ n =>
      cases hs : s.length with
      | zero =>
        rw [List.eq_nil_of_length_eq_zero hs]
        rfl
      | succ m =>
        rw [strtokLoop, strtokLoop]
        cases hcall : strtok delim s with
        | none => rfl
        | some r =>
          have hlt := strtok_length_lt hcall
          simp only
          rw [ih n (by omega) (by omega : r.2.length ≤ n)]
          rw [ih m (by omega) (by omega : r.2.length ≤ m)]

theorem strtokLoop_length (delim : UInt8) (s : Bytes) : strtokLoop delim s.length s =
    ((strtok delim s).map fun r => r.1 :: strtokLoop delim r.2.length r.2).getD [] := by
  cases hs : s.length with
  | zero =>
    rw [List.eq_nil_of_length_eq_zero hs]
    rfl
  | succ m =>
    rw [strtokLoop]
    cases hcall : strtok delim s with
    | none => rfl
    | some r =>
      have hlt := strtok_length_lt hcall
      simp only [Option.map_some, Option.getD_some]
      rw [strtokLoop_of_le (by omega : r.2.length ≤ m)]

/-- The words that `strtok` finds are those between the delimiters. -/
theorem strtokLoop_eq_words {delim : UInt8} {s : Bytes} {n : ℕ} (h : s.length ≤ n) :
    strtokLoop delim n s = Words.words delim s := by
  induction n generalizing s with
  | zero =>
    rw [List.eq_nil_of_length_eq_zero (Nat.le_zero.mp h), Words.words_nil]
    rfl
  | succ n ih =>
    rw [strtokLoop, ← Words.words_dropWhile]
    cases hcall : strtok delim s with
    | none =>
      have hnil : s.dropWhile (· = delim) = [] := by
        unfold strtok at hcall
        split at hcall
        · assumption
        · cases hcall
      rw [hnil, Words.words_nil]
    | some r =>
      have hlt := strtok_length_lt hcall
      unfold strtok at hcall
      split at hcall
      · cases hcall
      · next b t heq =>
        obtain rfl := Option.some.inj hcall
        have hhead := List.head?_dropWhile_not (· = delim) s
        rw [heq] at hhead ⊢
        have hb : b ≠ delim := by simpa using hhead
        rw [Words.words_cons hb]
        dsimp only at hlt ⊢
        rw [ih (by omega)]

theorem strtokWords_eq_words (delim : UInt8) (s : Bytes) :
    strtokWords delim s = Words.words delim (cstr s) := strtokLoop_eq_words (Nat.le_refl _)

theorem strncmp_cons_self (b : UInt8) (s t : Bytes) (n : ℕ) (hb : b ≠ 0) :
    strncmp (b :: s) (b :: t) (n + 1) = strncmp s t n := by
  simp [strncmp, hb]

theorem strncmp_head_ne (s t : Bytes) (n : ℕ) (h : s.headD 0 ≠ t.headD 0) :
    strncmp s t (n + 1) ≠ 0 := by
  have hne : (s.headD 0).toNat ≠ (t.headD 0).toNat := fun he => h (UInt8.toNat_inj.mp he)
  rw [strncmp, if_pos h]
  omega

theorem strncmp_eq_zero_comm (s t : Bytes) (n : ℕ) : strncmp s t n = 0 ↔ strncmp t s n = 0 := by
  induction n generalizing s t with
  | zero => rfl
  | succ n ih =>
    by_cases hne : s.headD 0 = t.headD 0
    · rw [strncmp, strncmp, if_neg (not_not.mpr hne), if_neg (not_not.mpr hne.symm), hne]
      split
      · rfl
      · exact ih ..
    · exact iff_of_false (strncmp_head_ne s t n hne) (strncmp_head_ne t s n (Ne.symm hne))

/-- Comparing as many bytes as a terminator-free string has is a prefix test: what follows
the string on its own side does not matter, and on the other side nothing ends the match early. -/
theorem strncmp_eq_zero_iff (k rest d : Bytes) (hk : NulFree k) :
    strncmp (k ++ rest) d k.length = 0 ↔ k <+: d := by
  induction k generalizing d with
  | nil => simp [strncmp]
  | cons b k ih =>
    have hb : b ≠ 0 := hk b List.mem_cons_self
    have hk' : NulFree k := fun c hc => hk c (List.mem_cons_of_mem b hc)
    cases d with
    | nil => simpa using strncmp_head_ne (b :: (k ++ rest)) [] k.length (by simpa using hb)
    | cons c d =>
      rw [List.cons_append, List.length_cons, List.cons_prefix_cons]
      by_cases hbc : b = c
      · subst c
        rw [strncmp_cons_self b _ _ _ hb, ih d hk']
        simp
      · have hne := strncmp_head_ne (b :: (k ++ rest)) (c :: d) k.length (by simpa using hbc)
        simp [hne, hbc]

end Acached.CString
