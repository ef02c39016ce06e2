import Acached.Reply.QReply

/-! # Accounting for a write

What `CheckIOVTotalWritten` makes of the contents of the entries: where a write
ended is where the entries are cut afterwards.
-/
namespace Acached.Reply
open CString Gather

/-- The total does not wrap before it reaches `writeret`. -/
def TotalFits (iovec : ℕ → Bytes) (start count total writeret : ℕ) : Prop :=
  ∀ n < count, total + (gather iovec start n).length < writeret →
    total + (gather iovec start (n + 1)).length < 2 ^ 32

theorem TotalFits.of_total {iovec : ℕ → Bytes} {start count : ℕ} (writeret : ℕ)
    (h : (gather iovec start count).length < 2 ^ 32) : TotalFits iovec start count 0 writeret := by
  intro n hn _
  obtain ⟨m, rfl⟩ : ∃ m, count = n + 1 + m := ⟨count - (n + 1), by omega⟩
  rw [gather_add, List.length_append] at h
  omega

/-- Entries have an `int` length, and so has what `sendmsg` takes at a time. -/
theorem TotalFits.of_entries {iovec : ℕ → Bytes} {start count writeret : ℕ} (hret : writeret < 2 ^ 31)
    (h : ∀ i, start ≤ i → i < start + count → (iovec i).length < 2 ^ 31) :
    TotalFits iovec start count 0 writeret := by
  intro n hn hlow
  have hlen := h (start + n) (Nat.le_add_right _ _) (by omega)
  rw [gather_add, gather_succ, gather_zero, List.append_nil, List.length_append]
  omega

theorem TotalFits.tail {iovec : ℕ → Bytes} {start count total writeret : ℕ}
    (h : TotalFits iovec start (count + 1) total writeret) :
    TotalFits iovec (start + 1) count (total + (iovec start).length) writeret := by
  intro n hn hlow
  have hnext := h (n + 1) (by omega)
  rw [gather_succ, gather_succ, List.length_append, List.length_append] at hnext
  omega

theorem reachWritten_spec {iovec : ℕ → Bytes} {writeret : ℕ} (i n total : ℕ)
    (hlow : total < writeret) (hhigh : writeret ≤ total + (gather iovec i n).length)
    (hfits : TotalFits iovec i n total writeret) :
    ∃ j, i ≤ j ∧ j < i + n ∧ total + (gather iovec i (j - i)).length < writeret ∧
      writeret ≤ total + (gather iovec i (j - i)).length + (iovec j).length ∧
      reachWritten iovec writeret i n total =
        some (j, total + (gather iovec i (j - i)).length + (iovec j).length) := by
  induction n generalizing i total with
  | zero =>
    rw [gather_zero, List.length_nil] at hhigh
    omega
  | succ n ih =>
    have hfirst := hfits 0 (Nat.succ_pos n)
    rw [gather_succ, gather_zero, gather_zero, List.append_nil, List.length_nil] at hfirst
    rw [gather_succ, List.length_append] at hhigh
    have hmod : (total + (iovec i).length) % 2 ^ 32 = total + (iovec i).length :=
      Nat.mod_eq_of_lt (by omega)
    rw [reachWritten, hmod]
    by_cases hhere : writeret ≤ total + (iovec i).length
    · exact ⟨i, Nat.le_refl i, by omega, by simpa using hlow, by simpa using hhere,
        by simp [hhere]⟩
    · obtain ⟨j, hij, hjn, hlow', hhigh', heq⟩ := ih (i + 1)
        (total + (iovec i).length) (by omega) (by omega) hfits.tail
      have hsub : j - i = (j - (i + 1)) + 1 := by omega
      have hlen : (gather iovec i (j - i)).length =
          (iovec i).length + (gather iovec (i + 1) (j - (i + 1))).length := by
        rw [hsub, gather_succ, List.length_append]
      refine ⟨j, by omega, by omega, by omega, by omega, ?_⟩
      rw [if_neg hhere, heq, hlen]
      congr 2
      omega

theorem checkIOVTotalWritten_eq {iovec : ℕ → Bytes} {start count writeret : ℕ} (hpos : 0 < writeret)
    (hle : writeret ≤ (gather iovec start count).length)
    (hfits : TotalFits iovec start count 0 writeret) :
    ∃ j, start ≤ j ∧ j < start + count ∧ (gather iovec start (j - start)).length < writeret ∧
      writeret ≤ (gather iovec start (j - start)).length + (iovec j).length ∧
      reachWritten iovec writeret start count 0 =
        some (j, (gather iovec start (j - start)).length + (iovec j).length) ∧
      checkIOVTotalWritten iovec start count writeret =
        some (if (gather iovec start (j - start)).length + (iovec j).length = writeret then (j + 1, iovec)
          else (j, Function.update iovec j
            ((iovec j).drop (writeret - (gather iovec start (j - start)).length)))) := by
  obtain ⟨j, hj, hjn, hlow, hhigh, heq⟩ :=
    reachWritten_spec start count 0 hpos (by rwa [Nat.zero_add]) hfits
  rw [Nat.zero_add] at hlow hhigh heq
  refine ⟨j, hj, hjn, hlow, hhigh, heq, ?_⟩
  rw [checkIOVTotalWritten, heq, Option.map_some]
  dsimp only
  rw [Nat.add_sub_cancel]

/-- After a write that reached entries which are whole behind the cut, `CheckIOVTotalWritten`
finds where the cut is now, and it changes no empty entry. -/
theorem checkIOVTotalWritten_spec {original iovec : ℕ → Bytes} {sent : Bytes}
    {start count writeret : ℕ} (cut : Cut original iovec sent start) (hpos : 0 < writeret)
    (hle : writeret ≤ (gather iovec start count).length)
    (hfits : TotalFits iovec start count 0 writeret) :
    ∃ iovEnd iovec', checkIOVTotalWritten iovec start count writeret = some (iovEnd, iovec') ∧
      Cut original iovec' (sent ++ (gather iovec start count).take writeret) iovEnd ∧
      iovEnd ≤ start + count ∧ ∀ i, iovec i = [] → iovec' i = [] := by
  obtain ⟨j, hj, hjn, hlow, hhigh, -, heq⟩ := checkIOVTotalWritten_eq hpos hle hfits
  rw [heq]
  by_cases hexact : (gather iovec start (j - start)).length + (iovec j).length = writeret
  · rw [if_pos hexact]
    exact ⟨j + 1, iovec, rfl, cut.write_whole hj hjn hexact.symm, by omega, fun _ h => h⟩
  · rw [if_neg hexact]
    refine ⟨j, _, rfl, cut.write hj hjn hlow.le hhigh, by omega, ?_⟩
    intro i hi
    by_cases hij : i = j
    · subst i; simp [hi]
    · rwa [Function.update_of_ne hij]

end Acached.Reply
