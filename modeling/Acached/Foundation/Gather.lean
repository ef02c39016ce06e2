import Mathlib.Data.List.Basic
import Mathlib.Logic.Function.Basic

/-! # Vectors of buffers written in pieces

A vector of buffers is sent in index order by writes that may stop anywhere. A
cut is a position up to which the contents have gone out: the buffers behind it
are whole, and what went out together with what is left in the buffer at the
cut is everything up to and including that buffer.
-/
namespace Acached.Gather

variable {β : Type*}

def gather (e : ℕ → List β) : ℕ → ℕ → List β
  | _, 0 => []
  | i, n + 1 => e i ++ gather e (i + 1) n

@[simp] theorem gather_zero (e : ℕ → List β) (i : ℕ) : gather e i 0 = [] := rfl

theorem gather_succ (e : ℕ → List β) (i n : ℕ) :
    gather e i (n + 1) = e i ++ gather e (i + 1) n := rfl

theorem gather_add (e : ℕ → List β) (i m n : ℕ) :
    gather e i (m + n) = gather e i m ++ gather e (i + m) n := by
  induction m generalizing i with
  | zero => simp
  | succ m ih =>
    have hshift : i + 1 + m = i + (m + 1) := by omega
    rw [Nat.succ_add, gather_succ, gather_succ, ih, hshift, List.append_assoc]

theorem gather_last (e : ℕ → List β) {i j : ℕ} (h : i ≤ j) :
    gather e i (j + 1 - i) = gather e i (j - i) ++ e j := by
  obtain ⟨n, rfl⟩ := Nat.exists_eq_add_of_le h
  have hsub : i + n + 1 - i = n + 1 := by omega
  rw [hsub, Nat.add_sub_cancel_left, gather_add, gather_succ, gather_zero, List.append_nil]

theorem gather_initial (e : ℕ → List β) (i : ℕ) {m n : ℕ} (h : m ≤ n) :
    gather e i m <+: gather e i n := by
  obtain ⟨k, rfl⟩ := Nat.exists_eq_add_of_le h
  rw [gather_add]
  exact List.prefix_append _ _

theorem gather_length_le (e : ℕ → List β) (i : ℕ) {m n : ℕ} (h : m ≤ n) :
    (gather e i m).length ≤ (gather e i n).length :=
  (gather_initial e i h).length_le

theorem gather_congr {e f : ℕ → List β} {i n : ℕ} (h : ∀ j, i ≤ j → j < i + n → e j = f j) :
    gather e i n = gather f i n := by
  induction n generalizing i with
  | zero => rfl
  | succ n ih =>
    rw [gather_succ, gather_succ, h i (Nat.le_refl i) (by omega), ih fun j hj hlt => h j (by omega) (by omega)]

theorem gather_eq_nil {e : ℕ → List β} {i n : ℕ} (h : ∀ j, i ≤ j → j < i + n → e j = []) :
    gather e i n = [] := by
  induction n generalizing i with
  | zero => rfl
  | succ n ih =>
    rw [gather_succ, h i (Nat.le_refl i) (by omega), ih fun j hj hlt => h j (by omega) (by omega)]
    rfl

theorem gather_update_last (e : ℕ → List β) {i n : ℕ} (h : i ≤ n) (b : List β) :
    gather (Function.update e n b) i (n + 1 - i) = gather e i (n - i) ++ b := by
  rw [gather_last _ h, Function.update_self]
  congr 1
  exact gather_congr fun j _ hj => Function.update_of_ne (by omega) ..

theorem drop_gather (e : ℕ → List β) {i j n : ℕ} (hij : i ≤ j) (hjn : j ≤ n) :
    (gather e i (n - i)).drop (gather e i (j - i)).length = gather e j (n - j) := by
  have hsplit : n - i = (j - i) + (n - j) := by omega
  have hij' : i + (j - i) = j := by omega
  rw [hsplit, gather_add, hij', List.drop_left]

/-- The buffers up to `n` without `r` elements, where these end in the buffer `j`. -/
theorem drop_gather_part (e : ℕ → List β) {i j n r : ℕ} (hij : i ≤ j) (hjn : j < n)
    (hlow : (gather e i (j - i)).length ≤ r)
    (hhigh : r ≤ (gather e i (j - i)).length + (e j).length) :
    gather (Function.update e j ((e j).drop (r - (gather e i (j - i)).length))) j (n - j) =
      (gather e i (n - i)).drop r := by
  obtain ⟨m, rfl⟩ := Nat.exists_eq_add_of_le hlow
  have hm : m ≤ (e j).length := Nat.le_of_add_le_add_left hhigh
  have hsplit : n - j = (n - (j + 1)) + 1 := by omega
  have hbehind : gather (Function.update e j ((e j).drop m)) (j + 1) (n - (j + 1)) =
      gather e (j + 1) (n - (j + 1)) := gather_congr fun k hk _ => Function.update_of_ne (by omega) ..
  rw [Nat.add_sub_cancel_left, ← List.drop_drop, drop_gather e hij (Nat.le_of_lt hjn), hsplit,
    gather_succ, gather_succ, hbehind, Function.update_self, List.drop_append_of_le_length hm]

/-- `sent` is what went out of `original` when `rest` is left and the cut is at index `k`. -/
structure Cut (original rest : ℕ → List β) (sent : List β) (k : ℕ) : Prop where
  upTo : sent ++ rest k = gather original 0 (k + 1)
  behind : ∀ i, k < i → rest i = original i

namespace Cut

variable {original rest : ℕ → List β} {sent : List β} {k : ℕ}

/-- What went out, followed by the buffers from the cut on, is everything. -/
theorem sent_append (h : Cut original rest sent k) {n : ℕ} (hn : k < n) :
    sent ++ gather rest k (n - k) = gather original 0 n := by
  obtain ⟨m, rfl⟩ : ∃ m, n = k + 1 + m := ⟨n - (k + 1), by omega⟩
  have hsub : k + 1 + m - k = m + 1 := by omega
  rw [hsub, gather_succ, ← List.append_assoc, h.upTo, gather_add original 0 (k + 1) m, Nat.zero_add]
  congr 1
  exact gather_congr fun j hj _ => h.behind j (by omega)

/-- Everything in front of a buffer of which nothing went out has gone out. -/
theorem sent_eq (h : Cut original rest sent k) (hk : rest k = original k) :
    sent = gather original 0 k := by
  have hup := h.upTo
  rw [gather_add original 0 k 1, hk, Nat.zero_add, gather_succ, gather_zero, List.append_nil] at hup
  exact List.append_cancel_right hup

theorem fill (h : Cut original rest sent k) {i : ℕ} (hi : k ≤ i) (hr : rest i = original i)
    (b : List β) :
    Cut (Function.update original i b) (Function.update rest i b) sent k where
  upTo := by
    have hold : gather (Function.update original i b) 0 k = gather original 0 k :=
      gather_congr fun j _ hj => Function.update_of_ne (by omega) ..
    rw [gather_add _ 0 k 1, hold, Nat.zero_add, gather_succ, gather_zero, List.append_nil]
    by_cases hik : i = k
    · subst i
      rw [Function.update_self, Function.update_self, h.sent_eq hr]
    · have hup := h.upTo
      rw [gather_add _ 0 k 1, Nat.zero_add, gather_succ, gather_zero, List.append_nil] at hup
      rw [Function.update_of_ne (Ne.symm hik), Function.update_of_ne (Ne.symm hik), hup]
  behind j hj := by
    by_cases hji : j = i
    · subst j; simp
    · rw [Function.update_of_ne hji, Function.update_of_ne hji, h.behind j hj]

/-- A write that ends inside the buffer `i`, or at its end, moves the cut there when what it wrote
of that buffer is taken out. -/
theorem write (h : Cut original rest sent k) {i n r : ℕ} (hi : k ≤ i) (hn : i < k + n)
    (hlow : (gather rest k (i - k)).length ≤ r)
    (hhigh : r ≤ (gather rest k (i - k)).length + (rest i).length) :
    Cut original (Function.update rest i ((rest i).drop (r - (gather rest k (i - k)).length)))
      (sent ++ (gather rest k n).take r) i where
  upTo := by
    obtain ⟨m, rfl⟩ : ∃ m, n = i - k + 1 + m := ⟨n - (i - k + 1), by omega⟩
    have hik : k + (i - k) = i := by omega
    have hsplit : gather rest k (i - k + 1 + m) =
        gather rest k (i - k) ++ (rest i ++ gather rest (i + 1) m) := by
      rw [Nat.add_assoc, gather_add, hik, Nat.add_comm 1 m, gather_succ]
    have hall := h.sent_append (n := i + 1) (by omega)
    have hsub : i + 1 - k = i - k + 1 := by omega
    rw [hsub, gather_add, hik, gather_succ, gather_zero, List.append_nil] at hall
    rw [hsplit, List.take_append, List.take_of_length_le hlow,
      List.take_append_of_le_length (by omega), Function.update_self]
    simp only [List.append_assoc, List.take_append_drop]
    exact hall
  behind j hj := by
    rw [Function.update_of_ne (by omega), h.behind j (by omega)]

theorem next (h : Cut original rest sent k) (hk : rest k = []) : Cut original rest sent (k + 1) where
  upTo := by
    have hup := h.upTo
    rw [hk, List.append_nil] at hup
    rw [hup, gather_add original 0 (k + 1) 1, Nat.zero_add, gather_succ original (k + 1),
      gather_zero, List.append_nil, h.behind (k + 1) (by omega)]
  behind j hj := h.behind j (by omega)

theorem congr (h : Cut original rest sent k) {rest' : ℕ → List β}
    (hr : ∀ j, k ≤ j → rest' j = rest j) : Cut original rest' sent k where
  upTo := by rw [hr k (Nat.le_refl k), h.upTo]
  behind j hj := by rw [hr j (Nat.le_of_lt hj), h.behind j hj]

theorem write_whole (h : Cut original rest sent k) {i n r : ℕ} (hi : k ≤ i) (hn : i < k + n)
    (hr : r = (gather rest k (i - k)).length + (rest i).length) :
    Cut original rest (sent ++ (gather rest k n).take r) (i + 1) := by
  have hcut := h.write hi hn (r := r) (by omega) (by omega)
  have hnil : (rest i).drop (r - (gather rest k (i - k)).length) = [] := by
    rw [hr, Nat.add_sub_cancel_left, List.drop_length]
  rw [hnil] at hcut
  exact (hcut.next (Function.update_self ..)).congr fun j hj =>
    (Function.update_of_ne (by omega) ..).symm

end Cut

end Acached.Gather
