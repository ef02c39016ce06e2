import Acached.Reply.Sequential

/-! # Pending entries

The entries of one worker's replies from `windexlast` on: none of them is empty,
all are marked as written, and behind them nothing is left from earlier replies,
the first entry apart.
-/
namespace Acached.Server
open CString Gather Reply

def filledTo (s : IovReply) : QPc → ℕ
  | .fillHdr index _ _ => index
  | .fillVal index _ _ => index
  | _ => s.iovIndex

/-- What is still to be filled in is not empty, and `windexlast` is not to go back. -/
def Proper : QPc → Prop
  | .reserve hdr val | .fillHdr _ hdr val => hdr ≠ [] ∧ val ≠ []
  | .fillVal _ _ val => val ≠ []
  | .advance start iovEnd _ => start ≤ iovEnd
  | _ => True

structure Solid (s : IovReply) (n : ℕ) : Prop where
  pending : ∀ i, s.windexlast ≤ i → i < n → s.iovec i ≠ [] ∧ s.written i = true
  behind : ∀ i, n ≤ i → i ≠ 0 → s.iovec i = []

variable {s t : IovReply} {n : ℕ} {q : Bytes} {pc pc' : QPc} {r : ℤ}

theorem Solid.fill (h : Solid s n) {ptr : Bytes} (hptr : ptr ≠ []) :
    Solid (s.addIOVReply ptr n) (n + 1) where
  pending i hi hn := by
    dsimp only [IovReply.addIOVReply]
    by_cases hlast : i = n
    · rw [hlast, Function.update_self, Function.update_self]
      exact ⟨hptr, rfl⟩
    · rw [Function.update_of_ne hlast, Function.update_of_ne hlast]
      exact h.pending i hi (by omega)
  behind i hi hne := by
    dsimp only [IovReply.addIOVReply]
    rw [Function.update_of_ne (by omega)]
    exact h.behind i (by omega) hne

theorem Solid.frame (h : Solid s n) (hw : t.windexlast = s.windexlast) (hi : t.iovec = s.iovec)
    (hd : t.written = s.written) : Solid t n := by
  constructor
  · rw [hw, hi, hd]
    exact h.pending
  · rw [hi]
    exact h.behind

theorem Solid.write (h : Solid s n) {start count writeret iovEnd : ℕ} {iovec : ℕ → Bytes}
    (hpos : 0 < writeret) (hle : writeret ≤ (gather s.iovec start count).length)
    (hfits : TotalFits s.iovec start count 0 writeret) (hcount : start + count ≤ n)
    (hcheck : checkIOVTotalWritten s.iovec start count writeret = some (iovEnd, iovec)) :
    start ≤ iovEnd ∧ Solid { s with iovec := iovec } n := by
  obtain ⟨j, hj, hjn, hlow, hhigh, -, heq⟩ := checkIOVTotalWritten_eq hpos hle hfits
  rw [heq] at hcheck
  by_cases hexact : (gather s.iovec start (j - start)).length + (s.iovec j).length = writeret
  · rw [if_pos hexact] at hcheck
    obtain ⟨rfl, rfl⟩ := Prod.mk.inj (Option.some.inj hcheck)
    exact ⟨Nat.le_succ_of_le hj, h⟩
  · rw [if_neg hexact] at hcheck
    obtain ⟨rfl, rfl⟩ := Prod.mk.inj (Option.some.inj hcheck)
    refine ⟨hj, ⟨fun i hi hin => ?_, fun i hi hne => ?_⟩⟩
    · dsimp only
      by_cases hij : i = j
      · subst hij
        rw [Function.update_self]
        refine ⟨?_, (h.pending i hi hin).2⟩
        rw [Ne, List.drop_eq_nil_iff]
        omega
      · rw [Function.update_of_ne hij]
        exact h.pending i hi hin
    · dsimp only
      rw [Function.update_of_ne (by omega)]
      exact h.behind i hi hne

theorem Solid.step (h : Solid s (filledTo s pc)) (hproper : Proper pc) (hat : At q s pc)
    (hstep : pc.step r s = some (pc', t)) : Solid t (filledTo t pc') ∧ Proper pc' := by
  cases pc with
  | reserve hdr val =>
    cases hstep
    exact ⟨h.frame rfl rfl rfl, hproper⟩
  | fillHdr index hdr val =>
    cases hstep
    exact ⟨h.fill hproper.1, hproper.2⟩
  | fillVal index size val =>
    cases hstep
    have hindex : s.iovIndex = index + 1 := hat.2.2.1
    refine ⟨?_, trivial⟩
    change Solid _ s.iovIndex
    rw [hindex]
    exact h.fill hproper
  | addTotal index size =>
    cases hstep
    exact ⟨h.frame rfl rfl rfl, trivial⟩
  | readWindex index totalsize =>
    cases hstep
    exact ⟨h, trivial⟩
  | check index totalsize y =>
    simp only [QPc.step] at hstep
    split at hstep
    · cases hstep
      exact ⟨h, trivial⟩
    · cases hstep
      exact ⟨h, trivial⟩
  | takeFlag start count =>
    simp only [QPc.step] at hstep
    split at hstep
    · cases hstep
      exact ⟨h, trivial⟩
    · cases hstep
      exact ⟨h.frame rfl rfl rfl, trivial⟩
  | sendmsg start count =>
    simp only [QPc.step] at hstep
    split_ifs at hstep
    · cases hstep
      exact ⟨h, trivial⟩
    · cases hstep
      exact ⟨h.frame rfl rfl rfl, trivial⟩
  | account start count writeret =>
    obtain ⟨rfl, hcount, hpos, hlt, hle, sent, -, hfilled⟩ := hat
    obtain ⟨⟨iovEnd, iovec⟩, hcheck, heq⟩ := Option.map_eq_some_iff.mp hstep
    cases heq
    have hfits : TotalFits s.iovec s.windexlast count 0 writeret :=
      .of_entries hlt fun i hi hin => hfilled.short i hi (by omega)
    obtain ⟨hend, hsolid⟩ := h.write hpos hle hfits hcount hcheck
    exact ⟨hsolid, hend⟩
  | advance start iovEnd writeret =>
    obtain ⟨rfl, -⟩ := hat
    cases hstep
    have hend : s.windexlast ≤ iovEnd := hproper
    rw [if_pos rfl]
    exact ⟨⟨fun i hi hn => h.pending i (hend.trans hi) hn, h.behind⟩, trivial⟩
  | release ret =>
    cases hstep
    split
    · exact ⟨h.frame rfl rfl rfl, trivial⟩
    · exact ⟨h.frame rfl rfl rfl, trivial⟩
  | subTotal ret =>
    cases hstep
    exact ⟨h.frame rfl rfl rfl, trivial⟩
  | done => cases hstep

/-! ## One call -/

/-- `QReply` from a place on, with what its `sendmsg` returns if it comes to one. -/
def finish (r : ℤ) : ℕ → QPc → IovReply → Option IovReply
  | 0, pc, s => if pc = .done then some s else none
  | n + 1, pc, s =>
    if pc = .done then some s else (pc.step r s).bind fun (pc, s) => finish r n pc s

def stepsLeft : QPc → ℕ
  | .reserve .. => 12
  | .fillHdr .. => 11
  | .fillVal .. => 10
  | .addTotal .. => 9
  | .readWindex .. => 8
  | .check .. => 7
  | .takeFlag .. => 6
  | .sendmsg .. => 5
  | .account .. => 4
  | .advance .. => 3
  | .release _ => 2
  | .subTotal _ => 1
  | .done => 0

/-- `aConn::QReply`. An entry behind the end of the arrays has no defined outcome. -/
def qReply (s : IovReply) (r : ℤ) (hdr val : Bytes) : Option IovReply :=
  if s.iovIndex + 2 ≤ iovSize then finish r 12 (.reserve hdr val) s else none

def endIndex (s : IovReply) : QPc → ℕ
  | .reserve .. => s.iovIndex + 2
  | _ => s.iovIndex

theorem step_left (h : pc.step r s = some (pc', t)) :
    stepsLeft pc' < stepsLeft pc ∧ endIndex t pc' = endIndex s pc ∧ s.sent <+: t.sent := by
  cases pc with
  | check | takeFlag | sendmsg =>
    simp only [QPc.step] at h
    split_ifs at h
    all_goals cases h
    all_goals simp [stepsLeft, endIndex]
  | account start count writeret =>
    obtain ⟨p, -, heq⟩ := Option.map_eq_some_iff.mp h
    cases heq
    simp [stepsLeft, endIndex]
  | release =>
    cases h
    split
    · simp [stepsLeft, endIndex]
    · simp [stepsLeft, endIndex]
  | reserve | fillHdr | fillVal | addTotal | readWindex | advance | subTotal =>
    cases h
    simp [stepsLeft, endIndex, IovReply.addIOVReply]
  | done => cases h

/-- At the end of the call the state accounts for what was queued. -/
theorem finish_spec {n : ℕ} (hr : r < 2 ^ 31) (hat : At q s pc) (hsolid : Solid s (filledTo s pc))
    (hproper : Proper pc) (h : finish r n pc s = some t) :
    At q t .done ∧ Solid t t.iovIndex ∧ t.iovIndex = endIndex s pc ∧ s.sent <+: t.sent := by
  induction n generalizing s pc with
  | zero =>
    obtain ⟨rfl, rfl⟩ : pc = .done ∧ s = t := by simpa [finish] using h
    exact ⟨hat, hsolid, rfl, List.prefix_rfl⟩
  | succ n ih =>
    rw [finish] at h
    split at h
    · next hdone =>
      subst hdone
      obtain rfl := Option.some.inj h
      exact ⟨hat, hsolid, rfl, List.prefix_rfl⟩
    · obtain ⟨⟨pc', s'⟩, hstep, hrest⟩ := Option.bind_eq_some_iff.mp h
      obtain ⟨hsolid', hproper'⟩ := hsolid.step hproper hat hstep
      obtain ⟨-, hindex, hsent⟩ := step_left hstep
      obtain ⟨hdone, hend, hindex', hsent'⟩ := ih (hat.step hr hstep) hsolid' hproper' hrest
      exact ⟨hdone, hend, hindex'.trans hindex, hsent.trans hsent'⟩

/-- The call comes to its end when `sendmsg` takes nothing. -/
theorem finish_isSome {n : ℕ} (hr : r ≤ 0) (hat : At q s pc) (hn : stepsLeft pc ≤ n) :
    (finish r n pc s).isSome := by
  induction n generalizing s pc with
  | zero =>
    have hdone : pc = .done := by
      cases pc
      case done => rfl
      all_goals cases hn
    rw [finish, if_pos hdone]
    rfl
  | succ n ih =>
    rw [finish]
    split
    · rfl
    · next hpc =>
      have hgoes := hat.goes_on (r := r) hpc fun start count _ => Int.le_trans hr (Int.natCast_nonneg _)
      obtain ⟨⟨pc', s'⟩, hstep⟩ := Option.isSome_iff_exists.mp hgoes
      rw [hstep, Option.bind_some]
      exact ih (hat.step (by omega) hstep) (by have := (step_left hstep).1; omega)

/-- Between two keys of a get, when `q` was queued so far. -/
structure Queued (s : IovReply) (q : Bytes) : Prop where
  account : At q s .done
  solid : Solid s s.iovIndex

theorem Queued.qReply (h : Queued s q) {hdr val : Bytes} (hhdr : hdr ≠ [] ∧ hdr.length < 2 ^ 31)
    (hval : val ≠ [] ∧ val.length < 2 ^ 31) (hr : r < 2 ^ 31)
    (hcall : Server.qReply s r hdr val = some t) :
    Queued t (q ++ (hdr ++ val)) ∧ t.iovIndex = s.iovIndex + 2 ∧ s.sent <+: t.sent := by
  unfold Server.qReply at hcall
  split_ifs at hcall
  have hat : At (q ++ (hdr ++ val)) s (.reserve hdr val) :=
    ⟨h.account.1, hhdr.2, hval.2, q, (List.append_assoc ..).symm, h.account.2⟩
  obtain ⟨hdone, hsolid, hgrown⟩ := finish_spec hr hat h.solid ⟨hhdr.1, hval.1⟩ hcall
  exact ⟨⟨hdone, hsolid⟩, hgrown⟩

theorem Queued.qReply_isSome (h : Queued s q) {hdr val : Bytes} (hhdr : hdr.length < 2 ^ 31)
    (hval : val.length < 2 ^ 31) (hr : r ≤ 0) (hroom : s.iovIndex + 2 ≤ iovSize) :
    (Server.qReply s r hdr val).isSome := by
  have hat : At (q ++ hdr ++ val) s (.reserve hdr val) :=
    ⟨h.account.1, hhdr, hval, q, rfl, h.account.2⟩
  unfold Server.qReply
  rw [if_pos hroom]
  exact finish_isSome hr hat (Nat.le_refl 12)

end Acached.Server
