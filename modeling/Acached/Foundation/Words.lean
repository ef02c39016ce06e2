import Mathlib.Data.List.TakeWhile

/-! # Words between delimiters

The words of a text are the pieces between its delimiters that are not empty.
A text with a delimiter in it has the words in front of it and those behind it.
-/
namespace Acached.Words

variable {α : Type*} [DecidableEq α] {delim : α}

def words (delim : α) (text : List α) : List (List α) := (text.splitOn delim).filter (· ≠ [])

@[simp] theorem words_nil (delim : α) : words delim [] = [] := by
  simp [words, List.splitOn_nil]

theorem words_of_not_mem {w : List α} (h : delim ∉ w) (hne : w ≠ []) : words delim w = [w] := by
  simp [words, List.splitOn_eq_singleton h, hne]

theorem words_append_cons (delim : α) (front rest : List α) :
    words delim (front ++ delim :: rest) = words delim front ++ words delim rest := by
  unfold words
  rw [List.splitOn_append_cons_self, List.filter_append]

@[simp] theorem words_cons_self (delim : α) (text : List α) :
    words delim (delim :: text) = words delim text := by
  rw [← List.nil_append (delim :: text), words_append_cons, words_nil, List.nil_append]

theorem words_word_cons {w : List α} (h : delim ∉ w) (hne : w ≠ []) (rest : List α) :
    words delim (w ++ delim :: rest) = w :: words delim rest := by
  rw [words_append_cons, words_of_not_mem h hne]
  rfl

theorem mem_of_mem_words {text w : List α} (hw : w ∈ words delim text) : ∀ b ∈ w, b ∈ text := by
  induction hn : text.length using Nat.strong_induction_on generalizing text with
  | _ n ih =>
    subst hn
    intro b hb
    by_cases hmem : delim ∈ text
    · obtain ⟨front, rest, rfl⟩ := List.append_of_mem hmem
      have hlen : (front ++ delim :: rest).length = front.length + (rest.length + 1) :=
        List.length_append
      rw [words_append_cons, List.mem_append] at hw
      rcases hw with hw | hw
      · exact List.mem_append_left _ (ih _ (by omega) hw rfl b hb)
      · exact List.mem_append_right front (List.mem_cons_of_mem delim (ih _ (by omega) hw rfl b hb))
    · cases text with
      | nil =>
        rw [words_nil] at hw
        exact absurd hw List.not_mem_nil
      | cons c text =>
        rw [words_of_not_mem hmem (List.cons_ne_nil c text), List.mem_singleton] at hw
        exact hw ▸ hb

theorem words_dropWhile (delim : α) (text : List α) :
    words delim (text.dropWhile (· = delim)) = words delim text := by
  induction text with
  | nil => rfl
  | cons b text ih =>
    by_cases hb : b = delim
    · subst hb
      rw [List.dropWhile_cons_of_pos (by simp), ih, words_cons_self]
    · rw [List.dropWhile_cons_of_neg (by simp [hb])]

theorem words_cons {b : α} (hb : b ≠ delim) (text : List α) :
    words delim (b :: text) = (b :: text).takeWhile (· ≠ delim) ::
      words delim ((b :: text).dropWhile (· ≠ delim)).tail := by
  have hmem : delim ∉ (b :: text).takeWhile (· ≠ delim) := by
    intro h
    simpa using List.mem_takeWhile_imp h
  have hne : (b :: text).takeWhile (· ≠ delim) ≠ [] := by
    rw [List.takeWhile_cons_of_pos (by simp [hb])]
    exact List.cons_ne_nil _ _
  have hsplit : words delim (b :: text) = words delim ((b :: text).takeWhile (· ≠ delim) ++
      (b :: text).dropWhile (· ≠ delim)) := by rw [List.takeWhile_append_dropWhile]
  rw [hsplit]
  cases hrest : (b :: text).dropWhile (· ≠ delim) with
  | nil =>
    rw [List.append_nil, words_of_not_mem hmem hne]
    rfl
  | cons c rest =>
    have hhead := List.head?_dropWhile_not (· ≠ delim) (b :: text)
    rw [hrest] at hhead
    obtain rfl : c = delim := by simpa using hhead
    rw [words_word_cons hmem hne]
    rfl

omit [DecidableEq α] in
/-- A list without the delimiter is in front of a text if it is in front of a delimiter in it. -/
theorem prefix_of_prefix_append {c w : List α} (t : List α) (hc : delim ∉ c) :
    c <+: w ++ delim :: t ↔ c <+: w := by
  constructor
  · intro h
    rcases List.prefix_or_prefix_of_prefix h (List.prefix_append w (delim :: t)) with hc | hw
    · exact hc
    · obtain ⟨x, rfl⟩ := hw
      rw [List.prefix_append_right_inj] at h
      cases x with
      | nil => simp
      | cons y x =>
        obtain ⟨rfl, -⟩ := List.cons_prefix_cons.mp h
        exact absurd (List.mem_append_right w List.mem_cons_self) hc
  · exact fun h => h.trans (List.prefix_append w _)

/-- Words with a delimiter in front of each. -/
def spaced (delim : α) (ws : List (List α)) : List α := ws.flatMap (delim :: ·)

omit [DecidableEq α] in
theorem spaced_cons (delim : α) (w : List α) (ws : List (List α)) :
    spaced delim (w :: ws) = delim :: (w ++ spaced delim ws) := rfl

theorem words_spaced {ws : List (List α)} (h : ∀ w ∈ ws, delim ∉ w ∧ w ≠ []) :
    words delim (spaced delim ws) = ws := by
  induction ws with
  | nil => exact words_nil delim
  | cons w ws ih =>
    obtain ⟨hmem, hne⟩ := h w List.mem_cons_self
    have hrest := ih fun v hv => h v (List.mem_cons_of_mem w hv)
    rw [spaced_cons, words_cons_self]
    cases ws with
    | nil => rw [spaced, List.flatMap_nil, List.append_nil, words_of_not_mem hmem hne]
    | cons v ws =>
      rw [spaced_cons, words_cons_self] at hrest
      rw [spaced_cons, words_word_cons hmem hne, hrest]

theorem words_append_spaced {w : List α} {ws : List (List α)} (hw : delim ∉ w) (hne : w ≠ [])
    (h : ∀ v ∈ ws, delim ∉ v ∧ v ≠ []) : words delim (w ++ spaced delim ws) = w :: ws := by
  have hall : ∀ v ∈ w :: ws, delim ∉ v ∧ v ≠ [] := List.forall_mem_cons.mpr ⟨⟨hw, hne⟩, h⟩
  have hwords := words_spaced hall
  rwa [spaced_cons, words_cons_self] at hwords

end Acached.Words
