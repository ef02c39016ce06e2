import Acached.Receive.Line
import Mathlib.Logic.Function.Iterate
import Mathlib.Algebra.Group.Nat.Even

/-! # The search for the end of a line

The loop of `aConn::IsBufferComplete` on the memory around the received bytes.
Its pointer moves past the byte behind a `\r`, so it stands at every other `\r`
of a row of them, and its counter does not move at all.
-/
namespace Acached.Receive
open CString

/-- The loop with its local variables; `ptr` is an offset from the first byte. `seen` records the
positions that were read. -/
structure Search where
  mem : ℕ → UInt8
  ptr : ℕ
  found : UInt32
  running : Bool
  seen : List ℕ

namespace Search

def start (mem : ℕ → UInt8) : Search := ⟨mem, 0, 0, true, []⟩

/-- One evaluation of the loop's guard, and the body. The guard compares `i`, which stays 0, with
`IOVECLEN - 1`, a `size_t`. -/
def round (len : UInt64) (s : Search) : Search :=
  if s.running = false then s
  else if 0 < len - 1 then
    if s.mem s.ptr = 13 then
      if s.mem (s.ptr + 1) = 10 then
        { s with
          mem := Function.update (Function.update s.mem (s.ptr + 1) 0) s.ptr 0
          found := UInt32.ofNat (s.ptr + 2)
          running := false
          seen := s.seen ++ [s.ptr, s.ptr + 1] }
      else { s with ptr := s.ptr + 2, seen := s.seen ++ [s.ptr, s.ptr + 1] }
    else { s with ptr := s.ptr + 1, seen := s.seen ++ [s.ptr] }
  else { s with running := false }

/-- The loop on `mem`, of which `len` bytes were received, for `n` rounds. -/
def run (mem : ℕ → UInt8) (len : UInt64) (n : ℕ) : Search := (round len)^[n] (start mem)

end Search

def LineEnd (mem : ℕ → UInt8) (k : ℕ) : Prop := mem k = 13 ∧ mem (k + 1) = 10

instance (mem : ℕ → UInt8) (k : ℕ) : Decidable (LineEnd mem k) := inferInstanceAs (Decidable (_ ∧ _))

def returnsBefore (mem : ℕ → UInt8) : ℕ → ℕ
  | 0 => 0
  | k + 1 => if mem k = 13 then returnsBefore mem k + 1 else 0

/-- The search stops, having read received bytes only, and finds nothing where there is nothing. -/
def StopsInside (mem : ℕ → UInt8) (len : UInt64) : Prop :=
  ∃ n, (Search.run mem len n).running = false ∧
    (∀ p ∈ (Search.run mem len n).seen, p < len.toNat) ∧
    ((∀ k, k + 1 < len.toNat → ¬ LineEnd mem k) → (Search.run mem len n).found = 0)

/-- The search ends at `k`, and its two bytes are all that it overwrites. -/
def Finds (mem : ℕ → UInt8) (len : UInt64) (k : ℕ) : Prop :=
  ∃ n, (Search.run mem len n).running = false ∧ (Search.run mem len n).found.toNat = k + 2 ∧
    (Search.run mem len n).mem = Function.update (Function.update mem (k + 1) 0) k 0

namespace Search

variable {mem : ℕ → UInt8} {len : UInt64} {k n : ℕ}

/-- While the loop runs, its pointer has an even number of `\r` in front of it, and it has passed no
end of a line at which it could have stood. -/
structure Before (mem : ℕ → UInt8) (s : Search) : Prop where
  running : s.running = true
  intact : s.mem = mem
  found : s.found = 0
  even : Even (returnsBefore mem s.ptr)
  passed : ∀ j < s.ptr, LineEnd mem j → ¬ Even (returnsBefore mem j)
  seen : ∀ p ∈ s.seen, p < s.ptr

theorem Before.start (mem : ℕ → UInt8) : Before mem (.start mem) where
  running := rfl
  intact := rfl
  found := rfl
  even := ⟨0, rfl⟩
  passed := fun _ hj => absurd hj (Nat.not_lt_zero _)
  seen := fun _ hp => absurd hp List.not_mem_nil

variable {s : Search}

theorem Before.round_of_lineEnd (h : Before mem s) (hlen : 0 < len - 1) (hend : LineEnd mem s.ptr) :
    s.round len = { s with
      mem := Function.update (Function.update mem (s.ptr + 1) 0) s.ptr 0
      found := UInt32.ofNat (s.ptr + 2)
      running := false
      seen := s.seen ++ [s.ptr, s.ptr + 1] } := by
  unfold round
  rw [if_neg (by simp [h.running]), if_pos hlen, h.intact, if_pos hend.1, if_pos hend.2]

theorem Before.round (h : Before mem s) (hlen : 0 < len - 1) (hend : ¬ LineEnd mem s.ptr) :
    Before mem (s.round len) ∧ s.ptr < (s.round len).ptr := by
  have heven := h.even
  unfold Search.round
  rw [if_neg (by simp [h.running]), if_pos hlen, h.intact]
  by_cases hreturn : mem s.ptr = 13
  · have hnot : mem (s.ptr + 1) ≠ 10 := fun h10 => hend ⟨hreturn, h10⟩
    have hone : returnsBefore mem (s.ptr + 1) = returnsBefore mem s.ptr + 1 := by
      rw [returnsBefore, if_pos hreturn]
    rw [if_pos hreturn, if_neg hnot]
    refine ⟨⟨h.running, rfl, h.found, ?_, ?_, ?_⟩, by simp⟩
    · change Even (returnsBefore mem (s.ptr + 1 + 1))
      rw [returnsBefore, hone]
      split
      · simpa [Nat.even_add_one] using heven
      · exact ⟨0, rfl⟩
    · intro j hj hjend
      have hcases : j < s.ptr ∨ j = s.ptr ∨ j = s.ptr + 1 := by
        have hj' : j < s.ptr + 2 := hj
        omega
      rcases hcases with hlt | rfl | rfl
      · exact h.passed j hlt hjend
      · exact absurd hjend hend
      · rw [hone, Nat.even_add_one, not_not]
        exact heven
    · intro p hp
      change p < s.ptr + 2
      rcases List.mem_append.mp hp with hp | hp
      · exact (h.seen p hp).trans (by omega)
      · simp only [List.mem_cons, List.not_mem_nil, or_false] at hp
        omega
  · rw [if_neg hreturn]
    refine ⟨⟨h.running, rfl, h.found, ?_, ?_, ?_⟩, by simp⟩
    · change Even (returnsBefore mem (s.ptr + 1))
      rw [returnsBefore, if_neg hreturn]
      exact ⟨0, rfl⟩
    · intro j hj hjend
      have hcases : j < s.ptr ∨ j = s.ptr := by
        have hj' : j < s.ptr + 1 := hj
        omega
      rcases hcases with hlt | rfl
      · exact h.passed j hlt hjend
      · exact absurd hjend hend
    · intro p hp
      change p < s.ptr + 1
      rcases List.mem_append.mp hp with hp | hp
      · exact (h.seen p hp).trans (by omega)
      · simp only [List.mem_cons, List.not_mem_nil, or_false] at hp
        omega

structure Ended (mem : ℕ → UInt8) (k : ℕ) (s : Search) : Prop where
  running : s.running = false
  found : s.found = UInt32.ofNat (k + 2)
  written : s.mem = Function.update (Function.update mem (k + 1) 0) k 0
  lineEnd : LineEnd mem k
  even : Even (returnsBefore mem k)
  passed : ∀ j < k, LineEnd mem j → ¬ Even (returnsBefore mem j)
  seen : ∀ p ∈ s.seen, p ≤ k + 1
  last : k + 1 ∈ s.seen

theorem Ended.toNat_found (h : Ended mem k s) (hk : k + 2 < 2 ^ 32) : s.found.toNat = k + 2 := by
  rw [h.found, UInt32.toNat_ofNat_of_lt' hk]

/-- Where the loop has stopped can be read off the two bytes that it overwrote. -/
theorem Ended.eq_of_written {j : ℕ} (h : Ended mem j s) (hend : LineEnd mem k)
    (hmem : s.mem = Function.update (Function.update mem (k + 1) 0) k 0) : j = k := by
  by_contra hne
  have hafter : j ≠ k + 1 := by
    rintro rfl
    exact absurd (h.lineEnd.1.symm.trans hend.2) (by decide)
  have hbyte := congrFun (h.written.symm.trans hmem) j
  rw [Function.update_self, Function.update_of_ne hne, Function.update_of_ne hafter,
    h.lineEnd.1] at hbyte
  exact absurd hbyte (by decide)

theorem Before.ended (h : Before mem s) (hlen : 0 < len - 1) (hend : LineEnd mem s.ptr) :
    Ended mem s.ptr (s.round len) := by
  rw [h.round_of_lineEnd hlen hend]
  refine ⟨rfl, rfl, rfl, hend, h.even, h.passed, fun p hp => ?_, by simp⟩
  rcases List.mem_append.mp hp with hp | hp
  · exact (h.seen p hp).le.trans (by omega)
  · simp only [List.mem_cons, List.not_mem_nil, or_false] at hp
    omega

theorem run_succ (mem : ℕ → UInt8) (len : UInt64) (n : ℕ) :
    run mem len (n + 1) = (run mem len n).round len :=
  Function.iterate_succ_apply' ..

theorem before_or_ended (mem : ℕ → UInt8) (hlen : 0 < len - 1) (n : ℕ) :
    Before mem (run mem len n) ∧ n ≤ (run mem len n).ptr ∨ ∃ k, Ended mem k (run mem len n) := by
  induction n with
  | zero => exact .inl ⟨.start mem, Nat.le_refl 0⟩
  | succ n ih =>
    rw [run_succ]
    rcases ih with ⟨h, hle⟩ | ⟨k, h⟩
    · by_cases hend : LineEnd mem (run mem len n).ptr
      · exact .inr ⟨_, h.ended hlen hend⟩
      · obtain ⟨hnext, hlt⟩ := h.round hlen hend
        exact .inl ⟨hnext, by omega⟩
    · right
      refine ⟨k, ?_⟩
      unfold Search.round
      rw [if_pos h.running]
      exact h

theorem exists_ended (hlen : 0 < len - 1) (hend : LineEnd mem k) (heven : Even (returnsBefore mem k)) :
    ∃ n j, j ≤ k ∧ Ended mem j (run mem len n) := by
  rcases before_or_ended mem hlen (k + 1) with ⟨h, hle⟩ | ⟨j, h⟩
  · exact absurd heven (h.passed k (by omega) hend)
  · refine ⟨k + 1, j, ?_, h⟩
    by_contra hlt
    exact h.passed k (by omega) hend heven

theorem run_of_one (mem : ℕ → UInt8) : run mem 1 1 = { start mem with running := false } := rfl

theorem guard_pos (hlen : 1 ≤ len) (hone : len ≠ 1) : 0 < len - 1 := by
  have hle : 1 ≤ len.toNat := UInt64.le_iff_toNat_le.mp hlen
  have hne : len.toNat ≠ 1 := fun h => hone (UInt64.toNat_inj.mp h)
  rw [UInt64.lt_iff_toNat_lt, UInt64.toNat_sub_of_le _ _ hlen]
  change 0 < len.toNat - 1
  omega

end Search

/-! ## The search on the received bytes alone -/

def received (mem : ℕ → UInt8) (n : ℕ) : Bytes := (List.range n).map mem

theorem drop_received (mem : ℕ → UInt8) {p n : ℕ} (h : p < n) :
    (received mem n).drop p = mem p :: (received mem n).drop (p + 1) := by
  have hlt : p < (received mem n).length := by simpa [received] using h
  rw [List.drop_eq_getElem_cons hlt]
  simp [received]

/-- The recursion on the received bytes finds the end at which the loop stops, from every position at
which the loop can stand. -/
theorem findLineEnd_drop (mem : ℕ → UInt8) (n p : ℕ) (heven : Even (returnsBefore mem p)) :
    match findLineEnd ((received mem n).drop p) with
    | some m => ∃ k, p + m = k + 2 ∧ k + 1 < n ∧ LineEnd mem k ∧ Even (returnsBefore mem k) ∧
        ∀ j < k, p ≤ j → LineEnd mem j → ¬ Even (returnsBefore mem j)
    | none => ∀ k, p ≤ k → k + 1 < n → LineEnd mem k → ¬ Even (returnsBefore mem k) := by
  obtain ⟨d, hd⟩ : ∃ d, n - p = d := ⟨_, rfl⟩
  induction d using Nat.strong_induction_on generalizing p with
  | _ d ih =>
    by_cases hshort : n ≤ p + 1
    · have hlen : ((received mem n).drop p).length ≤ 1 := by simp [received]; omega
      have hnone : findLineEnd ((received mem n).drop p) = none := by
        match (received mem n).drop p, hlen with
        | [], _ => rfl
        | [_], _ => rfl
      rw [hnone]
      intro k hk hlt
      omega
    · rw [drop_received mem (show p < n by omega), drop_received mem (show p + 1 < n by omega)]
      by_cases hreturn : mem p = 13
      · have hone : returnsBefore mem (p + 1) = returnsBefore mem p + 1 := by
          rw [returnsBefore, if_pos hreturn]
        by_cases hfeed : mem (p + 1) = 10
        · rw [findLineEnd, if_pos hreturn, if_pos hfeed]
          exact ⟨p, rfl, by omega, ⟨hreturn, hfeed⟩, heven, fun j hj hle => by omega⟩
        · have heven' : Even (returnsBefore mem (p + 2)) := by
            change Even (returnsBefore mem (p + 1 + 1))
            rw [returnsBefore, hone]
            split
            · simpa [Nat.even_add_one] using heven
            · exact ⟨0, rfl⟩
          have hskip : ∀ j, p ≤ j → LineEnd mem j → Even (returnsBefore mem j) → p + 2 ≤ j := by
            intro j hle hend hj
            by_contra hlt
            obtain rfl | rfl : j = p ∨ j = p + 1 := by omega
            · exact hfeed hend.2
            · rw [hone, Nat.even_add_one] at hj
              exact hj heven
          have hrest := ih (n - (p + 2)) (by omega) (p + 2) heven' rfl
          rw [findLineEnd, if_pos hreturn, if_neg hfeed]
          cases hcall : findLineEnd ((received mem n).drop (p + 1 + 1)) with
          | none =>
            rw [hcall] at hrest
            intro k hk hlt hend hk'
            exact hrest k (hskip k hk hend hk') hlt hend hk'
          | some m =>
            rw [hcall] at hrest
            obtain ⟨k, hk, hlt, hend, hk', hfirst⟩ := hrest
            refine ⟨k, ?_, hlt, hend, hk', fun j hj hle hjend hj' => ?_⟩
            · change p + (m + 2) = k + 2
              omega
            exact hfirst j hj (hskip j hle hjend hj') hjend hj'
      · have heven' : Even (returnsBefore mem (p + 1)) := by
          rw [returnsBefore, if_neg hreturn]
          exact ⟨0, rfl⟩
        have hskip : ∀ j, p ≤ j → LineEnd mem j → p + 1 ≤ j := by
          intro j hle hend
          by_contra hlt
          obtain rfl : j = p := by omega
          exact hreturn hend.1
        have hrest := ih (n - (p + 1)) (by omega) (p + 1) heven' rfl
        rw [findLineEnd, if_neg hreturn, ← drop_received mem (show p + 1 < n by omega)]
        cases hcall : findLineEnd ((received mem n).drop (p + 1)) with
        | none =>
          rw [hcall] at hrest
          intro k hk hlt hend
          exact hrest k (hskip k hk hend) hlt hend
        | some m =>
          rw [hcall] at hrest
          obtain ⟨k, hk, hlt, hend, hk', hfirst⟩ := hrest
          refine ⟨k, ?_, hlt, hend, hk', fun j hj hle hjend => ?_⟩
          · change p + (m + 1) = k + 2
            omega
          exact hfirst j hj (hskip j hle hjend) hjend

theorem received_update (mem : ℕ → UInt8) (n k : ℕ) (v : UInt8) :
    received (Function.update mem k v) n = (received mem n).set k v := by
  apply List.ext_getElem
  · simp [received]
  · intro i hi hi'
    simp only [received, List.getElem_map, List.getElem_range, List.getElem_set, Function.update_apply]
    exact ite_cond_congr (propext eq_comm)

theorem received_written (mem : ℕ → UInt8) {n k : ℕ} (h : k + 1 < n) :
    received (Function.update (Function.update mem (k + 1) 0) k 0) n =
      (received mem n).take k ++ [0, 0] ++ (received mem n).drop (k + 2) := by
  have hlen : (received mem n).length = n := by simp [received]
  have hinner : ((received mem n).set (k + 1) 0).drop (k + 1) = 0 :: (received mem n).drop (k + 2) := by
    rw [List.drop_set, if_neg (by omega), Nat.sub_self, drop_received mem h]
    rfl
  rw [received_update, received_update, List.set_eq_take_append_cons_drop, if_pos, hinner,
    List.take_set_of_le (by omega)]
  · simp
  · rw [List.length_set, hlen]
    omega

/-- `IsBufferComplete` of the received bytes is the loop, as long as that reads no others. -/
theorem isBufferComplete_iff (mem : ℕ → UInt8) (len : UInt64) (hlen : 1 ≤ len)
    (hword : len.toNat < 2 ^ 32) (m : ℕ) (block : Bytes) :
    isBufferComplete (received mem len.toNat) len.toNat = some (m, block) ↔
      ∃ n, (Search.run mem len n).running = false ∧
        (∀ p ∈ (Search.run mem len n).seen, p < len.toNat) ∧ (Search.run mem len n).found.toNat = m ∧
        received (Search.run mem len n).mem len.toNat = block := by
  by_cases hone : len = 1
  · subst hone
    have hstart (n : ℕ) (hstop : (Search.run mem 1 n).running = false) :
        Search.run mem 1 n = { Search.start mem with running := false } := by
      cases n with
      | zero => cases hstop
      | succ n =>
        unfold Search.run
        rw [Function.iterate_succ_apply]
        exact Function.iterate_fixed rfl n
    constructor
    · intro h
      obtain ⟨rfl, rfl⟩ := Prod.mk.inj (Option.some.inj h)
      exact ⟨1, rfl, fun p hp => absurd hp List.not_mem_nil, rfl, rfl⟩
    · rintro ⟨n, hstop, -, hfound, hblock⟩
      rw [hstart n hstop] at hfound hblock
      subst hfound hblock
      rfl
  have hguard := Search.guard_pos hlen hone
  have hne : len.toNat ≠ 1 := fun h => hone (UInt64.toNat_inj.mp h)
  have hfind := findLineEnd_drop mem len.toNat 0 ⟨0, rfl⟩
  rw [List.drop_zero] at hfind
  unfold isBufferComplete
  rw [if_neg hne]
  cases hcall : findLineEnd (received mem len.toNat) with
  | none =>
    rw [hcall] at hfind
    refine iff_of_false (fun h => by cases h) ?_
    rintro ⟨n, hstop, hseen, -⟩
    rcases Search.before_or_ended mem hguard n with ⟨h, -⟩ | ⟨k, h⟩
    · cases h.running.symm.trans hstop
    · exact hfind k (Nat.zero_le k) (hseen _ h.last) h.lineEnd h.even
  | some i =>
    rw [hcall] at hfind
    obtain ⟨k, hk, hlt, hend, heven, hfirst⟩ := hfind
    obtain rfl : i = k + 2 := by omega
    have hblock := received_written mem hlt
    obtain ⟨n, j, hj, h⟩ := Search.exists_ended hguard hend heven
    have hsame (j : ℕ) (h : LineEnd mem j) (hj : Even (returnsBefore mem j)) (hle : j ≤ k) :
        j = k := by
      by_contra hne
      exact hfirst j (by omega) (Nat.zero_le j) h hj
    obtain rfl := hsame j h.lineEnd h.even hj
    rw [Option.map_some, Nat.add_sub_cancel, ← hblock]
    simp only [Option.some.injEq, Prod.mk.injEq]
    constructor
    · rintro ⟨rfl, rfl⟩
      refine ⟨n, h.running, fun p hp => ?_, h.toNat_found (by omega), by rw [h.written]⟩
      have hp := h.seen p hp
      omega
    · rintro ⟨n', hstop, -, rfl, rfl⟩
      rcases Search.before_or_ended mem hguard n' with ⟨h', -⟩ | ⟨i, h'⟩
      · cases h'.running.symm.trans hstop
      · have hle : i ≤ j := by
          by_contra hlt'
          exact h'.passed j (by omega) hend heven
        obtain rfl := hsame i h'.lineEnd h'.even hle
        exact ⟨(h'.toNat_found (by omega)).symm, by rw [h'.written]⟩

/-- For every length and every contents, the search stops within the received bytes exactly if there
is one of them, or the `\r` of an end of the line among them has an even number of `\r` directly in
front of it. -/
theorem stopsInside_iff (mem : ℕ → UInt8) (len : UInt64) (hlen : 1 ≤ len) :
    StopsInside mem len ↔ len = 1 ∨
      ∃ k, k + 1 < len.toNat ∧ LineEnd mem k ∧ Even (returnsBefore mem k) := by
  by_cases hone : len = 1
  · subst hone
    refine iff_of_true ⟨1, ?_⟩ (.inl rfl)
    rw [Search.run_of_one]
    exact ⟨rfl, fun p hp => absurd hp List.not_mem_nil, fun _ => rfl⟩
  have hguard := Search.guard_pos hlen hone
  rw [or_iff_right hone]
  constructor
  · rintro ⟨n, hstop, hseen, -⟩
    rcases Search.before_or_ended mem hguard n with ⟨h, -⟩ | ⟨k, h⟩
    · cases h.running.symm.trans hstop
    · exact ⟨k, hseen _ h.last, h.lineEnd, h.even⟩
  · rintro ⟨k, hk, hend, heven⟩
    obtain ⟨n, j, hj, h⟩ := Search.exists_ended hguard hend heven
    refine ⟨n, h.running, fun p hp => ?_, fun hnone => absurd hend (hnone k hk)⟩
    have hp := h.seen p hp
    omega

/-- For every received buffer with an end of a line, the first one of them is found, with its two bytes
overwritten and no others, exactly if it has an even number of `\r` directly in front of it and the
length of the line fits the `uint32_t` that is returned. -/
theorem finds_iff (mem : ℕ → UInt8) (len : UInt64) (k : ℕ) (hk : k + 1 < len.toNat)
    (hend : LineEnd mem k) (hfirst : ∀ j < k, ¬ LineEnd mem j) :
    Finds mem len k ↔ Even (returnsBefore mem k) ∧ k + 2 < 2 ^ 32 := by
  have hlen : 1 ≤ len := UInt64.le_iff_toNat_le.mpr (by change 1 ≤ len.toNat; omega)
  have hone : len ≠ 1 := by
    rintro rfl
    exact absurd hk (by simp)
  have hguard := Search.guard_pos hlen hone
  constructor
  · rintro ⟨n, hstop, hfound, hmem⟩
    rcases Search.before_or_ended mem hguard n with ⟨h, -⟩ | ⟨j, h⟩
    · cases h.running.symm.trans hstop
    · obtain rfl := h.eq_of_written hend hmem
      refine ⟨h.even, ?_⟩
      rw [← hfound]
      exact UInt32.toNat_lt _
  · rintro ⟨heven, hword⟩
    obtain ⟨n, j, hj, h⟩ := Search.exists_ended hguard hend heven
    obtain rfl : j = k := by
      by_contra hne
      exact hfirst j (by omega) h.lineEnd
    exact ⟨n, h.running, h.toNat_found hword, h.written⟩

def memory (bytes : Bytes) (i : ℕ) : UInt8 := bytes.getD i 0

theorem lt_of_lineEnd {bytes : Bytes} {j : ℕ} (h : LineEnd (memory bytes) j) : j < bytes.length := by
  by_contra hle
  have hzero : memory bytes j = 0 := by
    rw [memory, List.getD_eq_getElem?_getD, List.getElem?_eq_none (Nat.le_of_not_lt hle)]
    rfl
  exact absurd (h.1.symm.trans hzero) (by decide)

def endedLine : Bytes := [103, 101, 116, 32, 107, 13, 10]

theorem stopsInside_endedLine : (1 : UInt64) ≤ 7 ∧ StopsInside (memory endedLine) 7 :=
  ⟨by decide, (stopsInside_iff _ 7 (by decide)).mpr
    (.inr ⟨5, by decide, ⟨rfl, rfl⟩, ⟨0, rfl⟩⟩)⟩

/-- `get kk` without an end: the search runs on behind the six bytes. -/
theorem stopsInside_fails : ¬ ∀ (mem : ℕ → UInt8) (len : UInt64), 1 ≤ len → StopsInside mem len := by
  intro hall
  obtain ⟨n, hstop, -⟩ := hall (memory [103, 101, 116, 32, 107, 107]) 6 (by decide)
  have hguard : (0 : UInt64) < 6 - 1 := by decide
  rcases Search.before_or_ended (memory [103, 101, 116, 32, 107, 107]) hguard n with ⟨h, -⟩ | ⟨k, h⟩
  · cases h.running.symm.trans hstop
  · have hno : ∀ j < 6, ¬ LineEnd (memory [103, 101, 116, 32, 107, 107]) j := by decide
    exact hno k (lt_of_lineEnd h.lineEnd) h.lineEnd

theorem finds_endedLine : Finds (memory endedLine) 7 5 :=
  (finds_iff (memory endedLine) 7 5 (by decide) ⟨rfl, rfl⟩ (by decide)).mpr ⟨⟨0, rfl⟩, by decide⟩

/-- `get k` with two `\r` in front of the `\n`: the pointer moves past the second one. -/
theorem finds_fails : ¬ ∀ (mem : ℕ → UInt8) (len : UInt64) (k : ℕ), k + 1 < len.toNat →
    LineEnd mem k → (∀ j < k, ¬ LineEnd mem j) → Finds mem len k := by
  intro hall
  obtain ⟨n, hstop, -⟩ := hall (memory [103, 101, 116, 32, 107, 13, 13, 10]) 8 6 (by decide)
    ⟨rfl, rfl⟩ (by decide)
  have hguard : (0 : UInt64) < 8 - 1 := by decide
  rcases Search.before_or_ended (memory [103, 101, 116, 32, 107, 13, 13, 10]) hguard n with
    ⟨h, -⟩ | ⟨k, h⟩
  · cases h.running.symm.trans hstop
  · have hodd : ∀ j < 8, LineEnd (memory [103, 101, 116, 32, 107, 13, 13, 10]) j →
        ¬ Even (returnsBefore (memory [103, 101, 116, 32, 107, 13, 13, 10]) j) := by decide
    exact hodd k (lt_of_lineEnd h.lineEnd) h.lineEnd h.even

end Acached.Receive
