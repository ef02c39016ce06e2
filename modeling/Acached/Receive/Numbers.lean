import Acached.Receive.Line
import Mathlib.Data.List.TakeWhile

/-! # Numbers in a header

What `safe_strtoul` makes of a string, against the integer that the numeral at
its beginning denotes. `strtoul` works modulo 2^64, the signs are looked for in
large results only, and the result is stored in 32 bits.
-/
namespace Acached.Receive
open CString

/-- The string begins with a decimal numeral, behind white space and perhaps a sign. -/
structure Begins (s blanks sign digits rest : Bytes) : Prop where
  eq : s = blanks ++ sign ++ digits ++ rest
  space : ∀ b ∈ blanks, isSpace b = true
  sign : sign = [] ∨ sign = [43] ∨ sign = [45]
  ne : digits ≠ []
  digit : ∀ b ∈ digits, isDigit b = true
  stop : ∀ b ∈ rest.head?, isDigit b = false

def denoted (sign digits : Bytes) : ℤ :=
  if sign = [45] then -(decimal digits : ℤ) else decimal digits

def Terminated (rest : Bytes) : Prop := isSpace (rest.headD 0) = true ∨ rest.headD 0 = 0

instance (rest : Bytes) : Decidable (Terminated rest) := inferInstanceAs (Decidable (_ ∨ _))

/-- What is stored is what the numeral denotes, small unsigned numerals are accepted, and a refused
string leaves 0. -/
structure Exact (s : Bytes) : Prop where
  value : (safeStrtoul s).1 = true → ∃ blanks sign digits rest,
    Begins s blanks sign digits rest ∧ ((safeStrtoul s).2 : ℤ) = denoted sign digits
  accepts : ∀ blanks digits rest, Begins s blanks [] digits rest → decimal digits < 2 ^ 32 →
    Terminated rest → (safeStrtoul s).1 = true
  refused : (safeStrtoul s).1 = false → (safeStrtoul s).2 = 0

theorem not_space_of_digit {b : UInt8} (h : isDigit b = true) : isSpace b = false := by
  simp only [isDigit, Bool.and_eq_true, decide_eq_true_eq] at h
  have h48 : (48 : UInt8).toNat ≤ b.toNat := UInt8.le_iff_toNat_le.mp h.1
  simp only [isSpace, Bool.or_eq_false_iff, Bool.and_eq_false_iff, decide_eq_false_iff_not]
  constructor
  · rintro rfl
    exact absurd h48 (by decide)
  · right
    intro h13
    exact absurd (h48.trans (UInt8.le_iff_toNat_le.mp h13)) (by decide)

theorem not_sign_of_digit {b : UInt8} (h : isDigit b = true) : b ≠ 45 ∧ b ≠ 43 := by
  simp only [isDigit, Bool.and_eq_true, decide_eq_true_eq] at h
  constructor
  · rintro rfl
    exact absurd h.1 (by decide)
  · rintro rfl
    exact absurd h.1 (by decide)

theorem takeWhile_stop {p : UInt8 → Bool} {front rest : Bytes} (hfront : ∀ b ∈ front, p b = true)
    (hrest : ∀ b ∈ rest.head?, p b = false) :
    (front ++ rest).takeWhile p = front ∧ (front ++ rest).dropWhile p = rest := by
  rw [List.takeWhile_append_of_pos hfront, List.dropWhile_append_of_pos hfront]
  cases rest with
  | nil => simp
  | cons b rest =>
    have hb := hrest b rfl
    simp [hb]

theorem Begins.strtoul {s blanks sign digits rest : Bytes} (h : Begins s blanks sign digits rest) :
    strtoul s = some (decide (sign = [45]), decimal digits, rest) := by
  obtain ⟨d, ds, hcons⟩ := List.exists_cons_of_ne_nil h.ne
  have hd : isDigit d = true := h.digit d (by simp [hcons])
  obtain ⟨hminus, hplus⟩ := not_sign_of_digit hd
  have hskip : s.dropWhile isSpace = sign ++ (digits ++ rest) := by
    have hhead : ∀ b ∈ (sign ++ (digits ++ rest)).head?, isSpace b = false := by
      intro b hb
      rw [hcons] at hb
      rcases h.sign with rfl | rfl | rfl
      · obtain rfl := Option.some.inj hb
        exact not_space_of_digit hd
      · obtain rfl := Option.some.inj hb
        rfl
      · obtain rfl := Option.some.inj hb
        rfl
    rw [h.eq, List.append_assoc, List.append_assoc]
    exact (takeWhile_stop h.space hhead).2
  obtain ⟨htake, hdrop⟩ := takeWhile_stop h.digit h.stop
  unfold Receive.strtoul
  rw [hskip]
  rcases h.sign with rfl | rfl | rfl
  · have hhead : (digits ++ rest).head? = some d := by rw [hcons]; rfl
    simp [hhead, hminus, hplus, htake, hdrop, h.ne]
  · simp [htake, hdrop, h.ne]
  · simp [htake, hdrop, h.ne]

theorem begins_of_strtoul {s : Bytes} {neg : Bool} {m : ℕ} {rest : Bytes}
    (h : strtoul s = some (neg, m, rest)) : ∃ blanks sign digits, Begins s blanks sign digits rest := by
  unfold strtoul at h
  dsimp only at h
  have hfront := List.takeWhile_append_dropWhile (p := isSpace) (l := s)
  generalize ht : s.dropWhile isSpace = t at h hfront
  have hstop (u : Bytes) : ∀ b ∈ (u.dropWhile isDigit).head?, isDigit b = false := by
    intro b hb
    have hhead := List.head?_dropWhile_not isDigit u
    cases hu : u.dropWhile isDigit with
    | nil =>
      rw [hu] at hb
      cases hb
    | cons c v =>
      rw [hu] at hb hhead
      obtain rfl := Option.some.inj hb
      simpa using hhead
  have hbegins {sign u : Bytes} (hsign : sign = [] ∨ sign = [43] ∨ sign = [45]) (htu : t = sign ++ u)
      (hne : u.takeWhile isDigit ≠ []) :
      Begins s (s.takeWhile isSpace) sign (u.takeWhile isDigit) (u.dropWhile isDigit) := by
    refine ⟨?_, fun b hb => List.mem_takeWhile_imp hb, hsign, hne, fun b hb =>
      List.mem_takeWhile_imp hb, hstop u⟩
    rw [List.append_assoc, List.takeWhile_append_dropWhile, List.append_assoc, ← htu, hfront]
  have hread {u : Bytes} (hu : (if u.takeWhile isDigit = [] then none else
      some (decide (t.head? = some 45), decimal (u.takeWhile isDigit), u.dropWhile isDigit)) =
        some (neg, m, rest)) : u.takeWhile isDigit ≠ [] ∧ u.dropWhile isDigit = rest := by
    split at hu
    · cases hu
    · next hne =>
      simp only [Option.some.injEq, Prod.mk.injEq] at hu
      exact ⟨hne, hu.2.2⟩
  by_cases hsign : t.head? = some 45 ∨ t.head? = some 43
  · rw [if_pos hsign] at h
    obtain ⟨hne, rfl⟩ := hread h
    cases t with
    | nil => simp at hsign
    | cons b t =>
      simp only [List.head?_cons, Option.some.injEq] at hsign
      rcases hsign with rfl | rfl
      · exact ⟨_, [45], _, hbegins (.inr (.inr rfl)) rfl hne⟩
      · exact ⟨_, [43], _, hbegins (.inr (.inl rfl)) rfl hne⟩
  · rw [if_neg hsign] at h
    obtain ⟨hne, rfl⟩ := hread h
    exact ⟨_, [], _, hbegins (.inl rfl) rfl hne⟩

theorem Begins.safeStrtoul {s blanks sign digits rest : Bytes} (h : Begins s blanks sign digits rest) :
    safeStrtoul s =
      if 2 ^ 64 ≤ decimal digits then (false, 0)
      else if Terminated rest then
        if 2 ^ 63 ≤ ((denoted sign digits) % 2 ^ 64).toNat ∧ 45 ∈ s then (false, 0)
        else (true, ((denoted sign digits) % 2 ^ 32).toNat)
      else (false, 0) := by
  unfold Receive.safeStrtoul
  rw [h.strtoul]
  dsimp only
  by_cases hrange : 2 ^ 64 ≤ decimal digits
  · rw [if_pos hrange, if_pos hrange]
  rw [if_neg hrange, if_neg hrange]
  have hl : (if decide (sign = [45]) = true then (2 ^ 64 - decimal digits) % 2 ^ 64
      else decimal digits) = ((denoted sign digits) % 2 ^ 64).toNat := by
    unfold denoted
    by_cases hsign : sign = [45]
    · rw [if_pos hsign, if_pos (decide_eq_true hsign)]
      omega
    · rw [if_neg hsign, if_neg (by simp [hsign])]
      omega
  rw [hl]
  have hlow : ((denoted sign digits) % 2 ^ 64).toNat % 2 ^ 32 =
      ((denoted sign digits) % 2 ^ 32).toNat := by
    generalize denoted sign digits = z
    omega
  rw [hlow]
  by_cases hend : Terminated rest
  · rw [if_pos hend, if_pos]
    simpa [Terminated] using hend
  · rw [if_neg hend, if_neg]
    simpa [Terminated] using hend

theorem begins_or_refused (s : Bytes) :
    (∃ blanks sign digits rest, Begins s blanks sign digits rest) ∨ safeStrtoul s = (false, 0) := by
  cases h : strtoul s with
  | none =>
    right
    unfold safeStrtoul
    rw [h]
  | some r =>
    left
    obtain ⟨neg, m, rest⟩ := r
    obtain ⟨blanks, sign, digits, hbegins⟩ := begins_of_strtoul h
    exact ⟨blanks, sign, digits, rest, hbegins⟩

/-- All readings of a string denote the same integer. -/
theorem Begins.denoted_eq {s blanks sign digits rest blanks' sign' digits' rest' : Bytes}
    (h : Begins s blanks sign digits rest) (h' : Begins s blanks' sign' digits' rest') :
    denoted sign digits = denoted sign' digits' := by
  have heq := h.strtoul.symm.trans h'.strtoul
  simp only [Option.some.injEq, Prod.mk.injEq, decide_eq_decide] at heq
  obtain ⟨hsign, hdigits, -⟩ := heq
  simp only [denoted, hsign, hdigits]

theorem Begins.denoted_bounds {s blanks sign digits rest : Bytes}
    (h : Begins s blanks sign digits rest) (hlt : decimal digits < 2 ^ 64) :
    -2 ^ 64 < denoted sign digits ∧ denoted sign digits < 2 ^ 64 ∧
      (denoted sign digits < 0 → 45 ∈ s) := by
  unfold denoted
  split
  · next hsign =>
    refine ⟨by omega, by omega, fun _ => ?_⟩
    rw [h.eq, hsign]
    simp
  · exact ⟨by omega, by omega, fun hneg => by omega⟩

/-- The integers for which the result of `safe_strtoul` is right: those that 32 bits hold, and those
that it refuses for their sign or for a `-` elsewhere in the string. -/
def Held (s : Bytes) (z : ℤ) : Prop := -2 ^ 63 ≤ z ∧ (z < 2 ^ 32 ∨ 2 ^ 63 ≤ z ∧ 45 ∈ s)

/-- For every string, `safe_strtoul` is exact exactly if a numeral at its beginning that has a
magnitude of 64 bits, and ends at white space or with the string, denotes an integer that is right. -/
theorem exact_iff (s : Bytes) : Exact s ↔ ∀ blanks sign digits rest,
    Begins s blanks sign digits rest → decimal digits < 2 ^ 64 → Terminated rest →
      Held s (denoted sign digits) := by
  constructor
  · intro hexact blanks sign digits rest h hlt hend
    obtain ⟨hlow, hhigh, hneg⟩ := h.denoted_bounds hlt
    have hcall := h.safeStrtoul
    rw [if_neg (Nat.not_le.mpr hlt), if_pos hend] at hcall
    unfold Held
    split at hcall
    · next hminus =>
      obtain ⟨hbig, hmem⟩ := hminus
      generalize denoted sign digits = z at *
      refine ⟨by omega, ?_⟩
      by_cases hz : z < 2 ^ 32
      · exact .inl hz
      · exact .inr ⟨by omega, hmem⟩
    · obtain ⟨blanks', sign', digits', rest', h', hvalue⟩ := hexact.value (by rw [hcall])
      rw [← h.denoted_eq h', hcall] at hvalue
      generalize denoted sign digits = z at *
      dsimp only at hvalue
      exact ⟨by omega, .inl (by omega)⟩
  · intro hheld
    refine ⟨fun htrue => ?_, fun blanks digits rest h hlt hend => ?_, fun hfalse => ?_⟩
    · rcases begins_or_refused s with ⟨blanks, sign, digits, rest, h⟩ | hrefused
      · refine ⟨blanks, sign, digits, rest, h, ?_⟩
        have hcall := h.safeStrtoul
        split at hcall
        · rw [hcall] at htrue
          cases htrue
        next hrange =>
        have hlt := Nat.lt_of_not_le hrange
        split at hcall
        · next hend =>
          obtain ⟨hlow, hhigh, hneg⟩ := h.denoted_bounds hlt
          obtain ⟨hge, hheld⟩ := hheld _ _ _ _ h hlt hend
          split at hcall
          · rw [hcall] at htrue
            cases htrue
          · next hnot =>
            rw [hcall]
            generalize denoted sign digits = z at *
            have hpos : 0 ≤ z := by
              by_contra hz
              exact hnot ⟨by omega, hneg (by omega)⟩
            have hsmall : z < 2 ^ 32 := by
              rcases hheld with hz | ⟨hz, hmem⟩
              · exact hz
              · exact absurd ⟨by omega, hmem⟩ hnot
            dsimp only
            omega
        · rw [hcall] at htrue
          cases htrue
      · rw [hrefused] at htrue
        cases htrue
    · have hcall := h.safeStrtoul
      have hdenoted : denoted [] digits = decimal digits := if_neg (by decide)
      rw [if_neg (by omega), if_pos hend, hdenoted, if_neg fun hbig => by omega] at hcall
      rw [hcall]
    · rcases begins_or_refused s with ⟨blanks, sign, digits, rest, h⟩ | hrefused
      · have hcall := h.safeStrtoul
        split at hcall
        · rw [hcall]
        split at hcall
        · split at hcall
          · rw [hcall]
          · rw [hcall] at hfalse
            cases hfalse
        · rw [hcall]
      · rw [hrefused]

/-- The numeral 4294967296 is accepted, and 0 is stored. -/
theorem exact_fails : ¬ ∀ s, NulFree s → Exact s := by
  intro hall
  have hexact := hall [52, 50, 57, 52, 57, 54, 55, 50, 57, 54] (forall_mem_of_all rfl)
  have hbegins : Begins [52, 50, 57, 52, 57, 54, 55, 50, 57, 54] [] []
      [52, 50, 57, 52, 57, 54, 55, 50, 57, 54] [] :=
    ⟨rfl, forall_mem_of_all rfl, .inl rfl, List.cons_ne_nil _ _, forall_mem_of_all rfl,
      fun b hb => nomatch hb⟩
  obtain ⟨blanks, sign, digits, rest, h, hvalue⟩ := hexact.value (by decide)
  rw [h.denoted_eq hbegins] at hvalue
  exact absurd hvalue (by decide)

end Acached.Receive
