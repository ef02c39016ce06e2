import Acached.Reply.QReply
import Mathlib.Data.List.Basic

/-! # The final flush of a get

The loop of a worker that passes the entries from `windexlast` on to
`WriteAllOnce`, `IOV_MAX` of them at a time. A range of `IOV_MAX` entries is
always followed by another one, and the last range is not taken out of `count`.
-/
namespace Acached.Reply

/-- The locals of the loop, the ranges passed to `WriteAllOnce` so far, and whether it goes on. -/
structure FinalFlush where
  start : ℕ
  count : ℕ
  passed : List (ℕ × ℕ)
  running : Bool
  deriving DecidableEq, Repr

/-- In front of the loop, with `y` the first entry and `ret2` the end. -/
def FinalFlush.init (y ret2 : ℕ) : FinalFlush := ⟨y, ret2 - y, [], true⟩

/-- One round; `ret` is what `WriteAllOnce` returns. -/
def FinalFlush.round (s : FinalFlush) (ret : ℤ) : FinalFlush :=
  if s.running then
    let newcount := if s.count > 1024 then 1024 else s.count
    let count := if s.count > 1024 then s.count - 1024 else s.count
    { start := s.start + newcount
      count := count
      passed := s.passed ++ [(s.start, newcount)]
      running := 0 < ret && 1024 ≤ newcount }
  else s

def finalFlush (y ret2 : ℕ) (rets : List ℤ) : FinalFlush :=
  rets.foldl FinalFlush.round (.init y ret2)

/-- The ranges follow one another from `y` to `ret2`, each of 1 to `IOV_MAX` entries. -/
def Tiles : ℕ → ℕ → List (ℕ × ℕ) → Prop
  | y, ret2, [] => y = ret2
  | y, ret2, (start, newcount) :: ranges =>
    start = y ∧ 1 ≤ newcount ∧ (newcount : ℤ) ≤ iovMax ∧ Tiles (y + newcount) ret2 ranges

instance Tiles.decidable : ∀ y ret2 ranges, Decidable (Tiles y ret2 ranges)
  | y, ret2, [] => inferInstanceAs (Decidable (y = ret2))
  | y, ret2, (_, newcount) :: ranges =>
    have := Tiles.decidable (y + newcount) ret2 ranges
    inferInstanceAs (Decidable (_ ∧ _ ∧ _ ∧ _))

/-- When every call returns a positive value, the loop ends, and its ranges are those from `y` to
`ret2`. -/
def CoversPending (y ret2 : ℕ) : Prop :=
  ∃ n, ∀ rets : List ℤ, rets.length = n → (∀ ret ∈ rets, 0 < ret) →
    (finalFlush y ret2 rets).running = false ∧ Tiles y ret2 (finalFlush y ret2 rets).passed

theorem Tiles.snoc {y ret2 newcount : ℕ} {ranges : List (ℕ × ℕ)} (h : Tiles y ret2 ranges)
    (hpos : 1 ≤ newcount) (hmax : (newcount : ℤ) ≤ iovMax) :
    Tiles y (ret2 + newcount) (ranges ++ [(ret2, newcount)]) := by
  induction ranges generalizing y with
  | nil =>
    obtain rfl : y = ret2 := h
    exact ⟨rfl, hpos, hmax, rfl⟩
  | cons range ranges ih =>
    obtain ⟨hstart, hpos', hmax', hrest⟩ := h
    exact ⟨hstart, hpos', hmax', ih hrest⟩

variable {s : FinalFlush} {y ret2 : ℕ}

theorem FinalFlush.round_last (hrun : s.running = true) (hlt : s.count < 1024) (ret : ℤ) :
    s.round ret = ⟨s.start + s.count, s.count, s.passed ++ [(s.start, s.count)], false⟩ := by
  have hle : ¬ s.count > 1024 := by omega
  have hno : decide (1024 ≤ s.count) = false := decide_eq_false (Nat.not_le_of_lt hlt)
  rw [round, if_pos hrun]
  simp only [if_neg hle, hno, Bool.and_false]

theorem FinalFlush.round_full (hrun : s.running = true) (hgt : 1024 < s.count) {ret : ℤ}
    (hret : 0 < ret) :
    s.round ret = ⟨s.start + 1024, s.count - 1024, s.passed ++ [(s.start, 1024)], true⟩ := by
  rw [round, if_pos hrun]
  simp only [if_pos hgt, decide_eq_true hret]
  rfl

/-- With exactly `IOV_MAX` entries to go, the loop goes on as if there were as many behind them. -/
theorem FinalFlush.round_again (hrun : s.running = true) (heq : s.count = 1024) {ret : ℤ}
    (hret : 0 < ret) :
    s.round ret = ⟨s.start + 1024, 1024, s.passed ++ [(s.start, 1024)], true⟩ := by
  rw [round, if_pos hrun]
  simp only [heq, decide_eq_true hret]
  rfl

/-- From a place in the loop at which `k` whole ranges and a shorter one are left. -/
theorem FinalFlush.ends {k m : ℕ} (hrun : s.running = true) (htiles : Tiles y s.start s.passed)
    (hcount : s.count = 1024 * k + m) (hpos : 0 < m) (hlt : m < 1024) {rets : List ℤ}
    (hlen : rets.length = k + 1) (hrets : ∀ ret ∈ rets, 0 < ret) :
    (rets.foldl round s).running = false ∧
      Tiles y (s.start + s.count) (rets.foldl round s).passed := by
  induction k generalizing s rets with
  | zero =>
    obtain ⟨ret, rfl⟩ := List.length_eq_one_iff.mp hlen
    rw [List.foldl_cons, List.foldl_nil, round_last hrun (by omega)]
    exact ⟨rfl, htiles.snoc (by omega) (by unfold iovMax; omega)⟩
  | succ k ih =>
    obtain ⟨ret, rets, rfl⟩ := List.exists_cons_of_length_eq_add_one hlen
    obtain ⟨hret, hrest⟩ := List.forall_mem_cons.mp hrets
    rw [List.foldl_cons, round_full hrun (by omega) hret]
    have hsum : s.start + s.count = s.start + 1024 + (s.count - 1024) := by omega
    rw [hsum]
    apply ih rfl (htiles.snoc (by decide) (by decide))
    · dsimp only
      omega
    · simpa using hlen
    · exact hrest

/-- With a multiple of `IOV_MAX` to go, the loop goes on for ever. -/
theorem FinalFlush.goes_on (hrun : s.running = true) (hpos : 0 < s.count)
    (hdvd : 1024 ∣ s.count) {rets : List ℤ} (hrets : ∀ ret ∈ rets, 0 < ret) :
    (rets.foldl round s).running = true := by
  induction rets generalizing s with
  | nil => exact hrun
  | cons ret rets ih =>
    obtain ⟨hret, hrest⟩ := List.forall_mem_cons.mp hrets
    rw [List.foldl_cons]
    by_cases hgt : 1024 < s.count
    · rw [round_full hrun hgt hret]
      apply ih rfl _ _ hrest
      · dsimp only
        omega
      · dsimp only
        omega
    · rw [round_again hrun (by omega) hret]
      exact ih rfl (Nat.succ_pos _) (Nat.dvd_refl _) hrest

theorem not_coversPending (h : y < ret2) (hdvd : 1024 ∣ ret2 - y) : ¬ CoversPending y ret2 := by
  rintro ⟨n, hcovers⟩
  have hrets : ∀ ret ∈ List.replicate n (1 : ℤ), 0 < ret := by
    intro ret hret
    rw [List.eq_of_mem_replicate hret]
    decide
  have hstop := (hcovers _ List.length_replicate hrets).1
  have hgoes : (finalFlush y ret2 (List.replicate n 1)).running = true :=
    FinalFlush.goes_on rfl (Nat.sub_pos_of_lt h) hdvd hrets
  cases hgoes.symm.trans hstop

/-- For every first pending entry and end index, the loop passes the pending entries exactly if their
number is no multiple of `IOV_MAX`. -/
theorem coversPending_iff (y ret2 : ℕ) (h : y < ret2) :
    CoversPending y ret2 ↔ (ret2 - y) % 1024 ≠ 0 := by
  constructor
  · intro hcovers hmod
    exact not_coversPending h (Nat.dvd_of_mod_eq_zero hmod) hcovers
  · intro hmod
    refine ⟨(ret2 - y) / 1024 + 1, fun rets hlen hrets => ?_⟩
    have hends := FinalFlush.ends (s := .init y ret2) (y := y) rfl rfl
      (Nat.div_add_mod (ret2 - y) 1024).symm (Nat.pos_of_ne_zero hmod)
      (Nat.mod_lt _ (by decide)) hlen hrets
    have hend : (FinalFlush.init y ret2).start + (FinalFlush.init y ret2).count = ret2 := by
      dsimp only [FinalFlush.init]
      omega
    rw [hend] at hends
    exact hends

theorem coversPending_three : 3 < 2503 ∧ CoversPending 3 2503 :=
  ⟨by decide, (coversPending_iff 3 2503 (by decide)).mpr (by decide)⟩

/-- 1024 entries are passed, and then as many behind them, again and again. -/
theorem coversPending_fails : ¬ ∀ y ret2 : ℕ, y < ret2 → CoversPending y ret2 := by
  intro hall
  exact not_coversPending (by decide) (Nat.dvd_refl 1024) (hall 0 1024 (by decide))

end Acached.Reply
