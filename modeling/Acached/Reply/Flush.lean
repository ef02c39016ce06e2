import Acached.Reply.Cursor
import Acached.Foundation.Execution

/-! # Early flushes of several workers

Workers answer keys of one get, each inside its own `QReply`. What went out,
followed by the entries from `windexlast` on, is all entries in index order as
long as every flush that sends something starts at the `windexlast` of that
moment and covers only entries that are filled. What an earlier command left in
the arrays, such as a `STORED` in entry 0, does not matter then.
-/
namespace Acached.Reply
open CString Gather Execution

structure Flush (W : Type) where
  reply : IovReply
  worker : W → QPc

def Flush.init (W : Type) : Flush W := ⟨.init, fun _ => .done⟩

inductive Act (W : Type) where
  | call (w : W) (hdr val : Bytes)
  | step (w : W) (r : ℤ)
  deriving DecidableEq, Repr

variable {W : Type}

def step [DecidableEq W] (s : Flush W) : Act W → Option (Flush W)
  | .call w hdr val =>
    if s.worker w = .done then some { s with worker := Function.update s.worker w (.reserve hdr val) }
    else none
  | .step w r => ((s.worker w).step r s.reply).map fun (pc, reply) =>
      ⟨reply, Function.update s.worker w pc⟩

@[simp] def QPc.Sending : QPc → Prop
  | .account .. | .advance .. => True
  | _ => False

def IovReply.entry (s : IovReply) (i : ℕ) : Bytes := (s.original i).getD []

/-- What is left to send of an entry, if this get has filled it. -/
def IovReply.unsent (s : IovReply) (i : ℕ) : Bytes :=
  if (s.original i).isSome then s.iovec i else []

/-- A get begins; the arrays are as the command before has left them. -/
structure IovReply.Fresh (s : IovReply) : Prop where
  iovIndex : s.iovIndex = 0
  windexlast : s.windexlast = 0
  writingflag : s.writingflag = false
  original : ∀ i, s.original i = none
  sent : s.sent = []

/-- The bytes handed to the socket followed by those of the entries from `windexlast` on are the
entries in index order, and no entry was passed over before it was filled. -/
structure Delivered (s : IovReply) : Prop where
  bytes : s.sent ++ gather s.unsent s.windexlast (s.iovIndex - s.windexlast) =
    gather s.entry 0 s.iovIndex
  passed : ∀ i < s.windexlast, (s.original i).isSome

/-- Indices stay inside the arrays, and bytes are handed over from `windexlast` on and from filled
entries only, less than 4 GiB of them at a time. -/
def InStep (s : Flush W) : Act W → Prop
  | .call .. => True
  | .step w r => match s.worker w with
    | .reserve .. => s.reply.iovIndex + 2 ≤ iovSize
    | .sendmsg start count => 0 < r → start = s.reply.windexlast ∧
        (∀ i < start + count.toNat, start ≤ i → (s.reply.original i).isSome) ∧
        (gather s.reply.iovec start count.toNat).length < 2 ^ 32
    | _ => True

@[simp] def QPc.HoldsFlag : QPc → Prop
  | .sendmsg .. | .account .. | .advance .. | .release _ => True
  | _ => False

@[simp] def QPc.Fills (i : ℕ) : QPc → Prop
  | .fillHdr index _ _ => i = index ∨ i = index + 1
  | .fillVal index _ _ => i = index
  | _ => False

/-- How far the socket has got: up to `windexlast`, or, while a worker has handed over bytes and
not yet moved `windexlast`, further. -/
inductive Progress (s : Flush W) : Prop
  | quiet (none : ∀ w, ¬ (s.worker w).Sending)
      (cut : Cut s.reply.entry s.reply.iovec s.reply.sent s.reply.windexlast)
  | account (w : W) (count writeret : ℕ) (sent : Bytes)
      (pc : s.worker w = .account s.reply.windexlast count writeret)
      (before : Cut s.reply.entry s.reply.iovec sent s.reply.windexlast)
      (handed : s.reply.sent = sent ++ (gather s.reply.iovec s.reply.windexlast count).take writeret)
      (pos : 0 < writeret)
      (le : writeret ≤ (gather s.reply.iovec s.reply.windexlast count).length)
      (bound : (gather s.reply.iovec s.reply.windexlast count).length < 2 ^ 32)
      (filled : ∀ i < s.reply.windexlast + count, (s.reply.original i).isSome)
  | advance (w : W) (iovEnd writeret : ℕ)
      (pc : s.worker w = .advance s.reply.windexlast iovEnd writeret)
      (cut : Cut s.reply.entry s.reply.iovec s.reply.sent iovEnd)
      (filled : ∀ i < iovEnd, (s.reply.original i).isSome)

structure Inv (s : Flush W) : Prop where
  flag : ∀ w, (s.worker w).HoldsFlag → s.reply.writingflag = true
  one : ∀ v w, (s.worker v).HoldsFlag → (s.worker w).HoldsFlag → v = w
  reserved : ∀ w i, (s.worker w).Fills i → i < s.reply.iovIndex ∧ s.reply.original i = none
  own : ∀ v w i, (s.worker v).Fills i → (s.worker w).Fills i → v = w
  inside : ∀ i, (s.reply.original i).isSome → i < s.reply.iovIndex
  empty : ∀ i, s.reply.original i = none → s.reply.iovec i = []
  passed : ∀ i < s.reply.windexlast, (s.reply.original i).isSome
  progress : Progress s

/-- The arrays without what an earlier command left in them. -/
def Flush.cleared (s : Flush W) : Flush W := ⟨{ s.reply with iovec := s.reply.unsent }, s.worker⟩

theorem IovReply.Fresh.inv {s : IovReply} (h : s.Fresh) :
    Inv (Flush.cleared ⟨s, fun _ : W => .done⟩) where
  flag _ h := h.elim
  one _ _ h := h.elim
  reserved _ _ h := h.elim
  own _ _ _ h := h.elim
  inside i hi := by simp [Flush.cleared, h.original] at hi
  empty i _ := by simp [Flush.cleared, IovReply.unsent, h.original]
  passed i hi := by simp [Flush.cleared, h.windexlast] at hi
  progress := by
    refine .quiet (fun _ => id) ⟨?_, fun i _ => ?_⟩
    · simp [Flush.cleared, h.windexlast, h.sent, gather_succ, IovReply.entry, IovReply.unsent,
        h.original]
    · simp [Flush.cleared, IovReply.entry, IovReply.unsent, h.original]

theorem Inv.unsent_eq {s : Flush W} (inv : Inv s) : s.reply.unsent = s.reply.iovec := by
  funext i
  by_cases hi : (s.reply.original i).isSome = true
  · exact if_pos hi
  · rw [IovReply.unsent, if_neg hi, inv.empty i (by simpa using hi)]

theorem Inv.delivered {s : Flush W} (inv : Inv s) (h : ∀ w, ¬ (s.worker w).Sending) :
    Delivered s.reply where
  passed := inv.passed
  bytes := by
    rw [inv.unsent_eq]
    have hle : s.reply.windexlast ≤ s.reply.iovIndex := by
      by_contra hlt
      exact absurd (inv.inside _ (inv.passed _ (Nat.lt_of_not_le hlt))) (Nat.lt_irrefl _)
    cases inv.progress with
    | quiet _ cut =>
      rcases Nat.lt_or_eq_of_le hle with hlt | heq
      · exact cut.sent_append hlt
      · have hnone : s.reply.original s.reply.iovIndex = none := by
          by_contra hsome
          exact absurd (inv.inside _ (Option.isSome_iff_ne_none.mpr hsome)) (Nat.lt_irrefl _)
        rw [heq, Nat.sub_self, gather_zero, List.append_nil]
        rw [heq] at cut
        refine cut.sent_eq ?_
        rw [inv.empty _ hnone, IovReply.entry, hnone, Option.getD_none]
    | account w _ _ _ pc => exact absurd (by simp [pc]) (h w)
    | advance w _ _ pc => exact absurd (by simp [pc]) (h w)

theorem QPc.Sending.holdsFlag {pc : QPc} (h : pc.Sending) : pc.HoldsFlag := by
  cases pc <;> first | exact h.elim | trivial

theorem entry_addIOVReply (s : IovReply) (ptr : Bytes) (index : ℕ) :
    (s.addIOVReply ptr index).entry = Function.update s.entry index ptr := by
  funext i
  by_cases hi : i = index
  · subst i; simp [IovReply.entry, IovReply.addIOVReply]
  · simp [IovReply.entry, IovReply.addIOVReply, hi]

theorem Progress.frame {s t : Flush W} (h : Progress s) (ho : t.reply.original = s.reply.original)
    (hi : t.reply.iovec = s.reply.iovec) (hs : t.reply.sent = s.reply.sent)
    (hw : t.reply.windexlast = s.reply.windexlast)
    (hkeep : ∀ v, (s.worker v).Sending → t.worker v = s.worker v)
    (hnew : ∀ v, (t.worker v).Sending → (s.worker v).Sending) : Progress t := by
  have he : t.reply.entry = s.reply.entry := by
    funext i
    rw [IovReply.entry, IovReply.entry, ho]
  cases h with
  | quiet none cut =>
    refine .quiet (fun v hv => none v (hnew v hv)) ?_
    rwa [he, hi, hs, hw]
  | account w count writeret sent pc before handed pos le bound filled =>
    refine .account w count writeret sent ?_ ?_ ?_ pos ?_ ?_ ?_
    · rw [hkeep w (by simp [pc]), pc, hw]
    · rwa [he, hi, hw]
    · rw [hs, handed, hi, hw]
    · rwa [hi, hw]
    · rwa [hi, hw]
    · rwa [hw, ho]
  | advance w iovEnd writeret pc cut filled =>
    refine .advance w iovEnd writeret ?_ ?_ ?_
    · rw [hkeep w (by simp [pc]), pc, hw]
    · rwa [he, hi, hs]
    · rwa [ho]

theorem Progress.fill {s t : Flush W} (h : Progress s)
    (hpassed : ∀ i < s.reply.windexlast, (s.reply.original i).isSome)
    {i : ℕ} (ptr : Bytes) (ho : s.reply.original i = none) (hi : s.reply.iovec i = [])
    (ht : t.reply = s.reply.addIOVReply ptr i)
    (hkeep : ∀ v, (s.worker v).Sending → t.worker v = s.worker v)
    (hnew : ∀ v, (t.worker v).Sending → (s.worker v).Sending) : Progress t := by
  have hentry : s.reply.entry i = [] := by rw [IovReply.entry, ho, Option.getD_none]
  have hle : ∀ {k : ℕ}, (∀ j < k, (s.reply.original j).isSome) → k ≤ i := by
    intro k hk
    by_contra hlt
    have hsome := hk i (by omega)
    rw [ho] at hsome
    exact absurd hsome (by simp)
  have hfilled : ∀ {k : ℕ}, (∀ j < k, (s.reply.original j).isSome) →
      ∀ j < k, (t.reply.original j).isSome := by
    intro k hk j hj
    have hji : j ≠ i := by
      have := hle hk
      omega
    rw [ht, IovReply.addIOVReply]
    dsimp only
    rw [Function.update_of_ne hji]
    exact hk j hj
  have hcut : ∀ {sent : Bytes} {k : ℕ}, (∀ j < k, (s.reply.original j).isSome) →
      Cut s.reply.entry s.reply.iovec sent k → Cut t.reply.entry t.reply.iovec sent k := by
    intro sent k hk cut
    rw [ht, entry_addIOVReply]
    exact cut.fill (hle hk) (hi.trans hentry.symm) ptr
  have hwindex : t.reply.windexlast = s.reply.windexlast := by rw [ht]; rfl
  have hsent : t.reply.sent = s.reply.sent := by rw [ht]; rfl
  cases h with
  | quiet none cut =>
    refine .quiet (fun v hv => none v (hnew v hv)) ?_
    rw [hwindex, hsent]
    exact hcut hpassed cut
  | account w count writeret sent pc before handed pos le bound filled =>
    have hgather : gather t.reply.iovec s.reply.windexlast count =
        gather s.reply.iovec s.reply.windexlast count := by
      refine gather_congr fun j _ hj => ?_
      have := hle filled
      rw [ht, IovReply.addIOVReply]
      exact Function.update_of_ne (by omega) ..
    refine .account w count writeret sent ?_ ?_ ?_ pos ?_ ?_ ?_
    · rw [hkeep w (by simp [pc]), pc, hwindex]
    · rw [hwindex]
      exact hcut hpassed before
    · rw [hsent, handed, hwindex, hgather]
    · rwa [hwindex, hgather]
    · rwa [hwindex, hgather]
    · rw [hwindex]
      exact hfilled filled
  | advance w iovEnd writeret pc cut filled =>
    refine .advance w iovEnd writeret ?_ ?_ (hfilled filled)
    · rw [hkeep w (by simp [pc]), pc, hwindex]
    · rw [hsent]
      exact hcut filled cut

/-- A property of the place a worker moves to that it had before is one that all workers had. -/
theorem update_imp [DecidableEq W] (worker : W → QPc) (w : W) (pc : QPc) (P : QPc → Prop)
    (h : P pc → P (worker w)) : ∀ v, P (Function.update worker w pc v) → P (worker v) :=
  (Function.forall_update_iff worker (p := fun v pc => P pc → P (worker v))).mpr
    ⟨h, fun _ _ => id⟩

namespace Inv

variable {s : Flush W} (inv : Inv s) {w : W}
include inv

theorem not_sending (hf : (s.worker w).HoldsFlag) (hs : ¬ (s.worker w).Sending) (v : W) :
    ¬ (s.worker v).Sending := by
  intro hv
  obtain rfl := inv.one v w hv.holdsFlag hf
  exact hs hv

theorem cut (hnone : ∀ v, ¬ (s.worker v).Sending) :
    Cut s.reply.entry s.reply.iovec s.reply.sent s.reply.windexlast := by
  cases inv.progress with
  | quiet _ cut => exact cut
  | account v _ _ _ pc => exact absurd (by simp [pc]) (hnone v)
  | advance v _ _ pc => exact absurd (by simp [pc]) (hnone v)

variable [DecidableEq W]

/-- A step that takes no flag, fills nothing and sends nothing, with a new `totalsize`. -/
theorem inert {pc : QPc} (hf : pc.HoldsFlag → (s.worker w).HoldsFlag)
    (hfill : ∀ i, pc.Fills i → (s.worker w).Fills i) (hs : ¬ (s.worker w).Sending)
    (hs' : ¬ pc.Sending) (totalsize : UInt32) :
    Inv ⟨{ s.reply with totalsize := totalsize }, Function.update s.worker w pc⟩ := by
  have hflag := update_imp s.worker w pc QPc.HoldsFlag hf
  have hfills := fun i => update_imp s.worker w pc (QPc.Fills i) (hfill i)
  refine ⟨fun v hv => inv.flag v (hflag v hv), fun u v hu hv => inv.one u v (hflag u hu) (hflag v hv),
    fun v i hv => inv.reserved v i (hfills i v hv),
    fun u v i hu hv => inv.own u v i (hfills i u hu) (hfills i v hv), inv.inside, inv.empty,
    inv.passed, inv.progress.frame rfl rfl rfl rfl ?_ ?_⟩
  · intro v hv
    refine Function.update_of_ne ?_ ..
    rintro rfl
    exact hs hv
  · exact update_imp s.worker w pc QPc.Sending fun h => absurd h hs'

theorem plain {pc : QPc} (hf : ¬ pc.HoldsFlag) (hfill : ∀ i, ¬ pc.Fills i)
    (hs : ¬ (s.worker w).Sending) (totalsize : UInt32) :
    Inv ⟨{ s.reply with totalsize := totalsize }, Function.update s.worker w pc⟩ :=
  inv.inert (fun h => absurd h hf) (fun i h => absurd h (hfill i)) hs (fun h => hf h.holdsFlag)
    totalsize

theorem reserve {hdr val : Bytes} (hpc : s.worker w = .reserve hdr val) :
    Inv ⟨{ s.reply with iovIndex := s.reply.iovIndex + 2 },
      Function.update s.worker w (.fillHdr s.reply.iovIndex hdr val)⟩ := by
  have hflag := update_imp s.worker w (.fillHdr s.reply.iovIndex hdr val) QPc.HoldsFlag fun h => h.elim
  have hfree : ∀ i, s.reply.iovIndex ≤ i → s.reply.original i = none := by
    intro i hi
    by_contra hsome
    exact absurd (inv.inside i (Option.isSome_iff_ne_none.mpr hsome)) (by omega)
  refine ⟨fun v hv => inv.flag v (hflag v hv), fun u v hu hv => inv.one u v (hflag u hu) (hflag v hv),
    ?_, ?_, fun i hi => Nat.lt_add_right 2 (inv.inside i hi), inv.empty, inv.passed,
    inv.progress.frame rfl rfl rfl rfl ?_ ?_⟩
  · intro v i hv
    dsimp only at hv
    by_cases hvw : v = w
    · subst v
      rw [Function.update_self] at hv
      have hi : i = s.reply.iovIndex ∨ i = s.reply.iovIndex + 1 := hv
      exact ⟨by dsimp only; omega, hfree i (by omega)⟩
    · rw [Function.update_of_ne hvw] at hv
      obtain ⟨hlt, hnone⟩ := inv.reserved v i hv
      exact ⟨Nat.lt_add_right 2 hlt, hnone⟩
  · have hnew : ∀ v i, v ≠ w → (s.worker v).Fills i →
        ¬ QPc.Fills i (.fillHdr s.reply.iovIndex hdr val) := by
      intro v i _ hv hi
      have hlt := (inv.reserved v i hv).1
      have hge : i = s.reply.iovIndex ∨ i = s.reply.iovIndex + 1 := hi
      omega
    intro u v i hu hv
    dsimp only at hu hv
    by_cases huw : u = w <;> by_cases hvw : v = w
    · rw [huw, hvw]
    · subst u
      rw [Function.update_self] at hu
      rw [Function.update_of_ne hvw] at hv
      exact absurd hu (hnew v i hvw hv)
    · subst v
      rw [Function.update_self] at hv
      rw [Function.update_of_ne huw] at hu
      exact absurd hv (hnew u i huw hu)
    · rw [Function.update_of_ne huw] at hu
      rw [Function.update_of_ne hvw] at hv
      exact inv.own u v i hu hv
  · intro v hv
    refine Function.update_of_ne ?_ ..
    rintro rfl
    simp [hpc] at hv
  · exact update_imp s.worker w _ QPc.Sending fun h => h.elim

theorem fill {i : ℕ} (hi : (s.worker w).Fills i) {pc : QPc} (hf : ¬ pc.HoldsFlag)
    (hfill : ∀ j, pc.Fills j → (s.worker w).Fills j ∧ j ≠ i) (ptr : Bytes) :
    Inv ⟨s.reply.addIOVReply ptr i, Function.update s.worker w pc⟩ := by
  have hflag := update_imp s.worker w pc QPc.HoldsFlag fun h => absurd h hf
  have hfills := fun j => update_imp s.worker w pc (QPc.Fills j) fun h => (hfill j h).1
  obtain ⟨hlt, hnone⟩ := inv.reserved w i hi
  have hsome : ∀ j, (s.reply.original j).isSome →
      ((s.reply.addIOVReply ptr i).original j).isSome := by
    intro j hj
    by_cases hji : j = i
    · subst j; simp [IovReply.addIOVReply]
    · simpa [IovReply.addIOVReply, hji] using hj
  have hw : ¬ (s.worker w).Sending := by
    intro h
    cases hpc : s.worker w <;> simp_all [QPc.Sending, QPc.Fills]
  refine ⟨fun v hv => inv.flag v (hflag v hv), fun u v hu hv => inv.one u v (hflag u hu) (hflag v hv),
    ?_, fun u v j hu hv => inv.own u v j (hfills j u hu) (hfills j v hv), ?_, ?_,
    fun j hj => hsome j (inv.passed j hj),
    inv.progress.fill inv.passed ptr hnone (inv.empty i hnone) rfl ?_ ?_⟩
  · intro v j hv
    obtain ⟨hjlt, hjnone⟩ := inv.reserved v j (hfills j v hv)
    have hji : j ≠ i := by
      rintro rfl
      obtain rfl := inv.own v w j (hfills j v hv) hi
      dsimp only at hv
      rw [Function.update_self] at hv
      exact (hfill j hv).2 rfl
    exact ⟨hjlt, by simpa [IovReply.addIOVReply, hji] using hjnone⟩
  · intro j hj
    by_cases hji : j = i
    · rw [hji]
      exact hlt
    · exact inv.inside j (by simpa [IovReply.addIOVReply, hji] using hj)
  · intro j hj
    by_cases hji : j = i
    · subst j; simp [IovReply.addIOVReply] at hj
    · simpa [IovReply.addIOVReply, hji] using inv.empty j (by simpa [IovReply.addIOVReply, hji] using hj)
  · intro v hv
    refine Function.update_of_ne ?_ ..
    rintro rfl
    exact hw hv
  · exact update_imp s.worker w pc QPc.Sending fun h => absurd h.holdsFlag hf

theorem hold {pc : QPc} {r : IovReply} (hone : ∀ v, (s.worker v).HoldsFlag → v = w)
    (hflag : pc.HoldsFlag → r.writingflag = true) (hfill : ∀ i, ¬ pc.Fills i)
    (ho : r.original = s.reply.original) (hx : r.iovIndex = s.reply.iovIndex)
    (hempty : ∀ i, s.reply.iovec i = [] → r.iovec i = [])
    (hpassed : ∀ i < r.windexlast, (s.reply.original i).isSome)
    (hprogress : Progress ⟨r, Function.update s.worker w pc⟩) :
    Inv ⟨r, Function.update s.worker w pc⟩ := by
  have hfills := fun i => update_imp s.worker w pc (QPc.Fills i) fun h => absurd h (hfill i)
  have hw : ∀ v, (Function.update s.worker w pc v).HoldsFlag → v = w := by
    intro v hv
    by_contra hvw
    rw [Function.update_of_ne hvw] at hv
    exact hvw (hone v hv)
  refine ⟨?_, fun u v hu hv => (hw u hu).trans (hw v hv).symm, ?_,
    fun u v i hu hv => inv.own u v i (hfills i u hu) (hfills i v hv), ?_, ?_, ?_, hprogress⟩
  · intro v hv
    obtain rfl := hw v hv
    dsimp only at hv
    rw [Function.update_self] at hv
    exact hflag hv
  · intro v i hv
    dsimp only
    rw [ho, hx]
    exact inv.reserved v i (hfills i v hv)
  · intro i hi
    dsimp only at hi ⊢
    rw [ho] at hi
    rw [hx]
    exact inv.inside i hi
  · intro i hi
    dsimp only at hi ⊢
    rw [ho] at hi
    exact hempty i (inv.empty i hi)
  · intro i hi
    dsimp only
    rw [ho]
    exact hpassed i hi

theorem takeFlag (hfree : s.reply.writingflag = false) (start : ℕ) (count : ℤ) :
    Inv ⟨{ s.reply with writingflag := true },
      Function.update s.worker w (.sendmsg start count)⟩ := by
  have hnone : ∀ v, ¬ (s.worker v).HoldsFlag := by
    intro v hv
    exact absurd (inv.flag v hv) (by simp [hfree])
  refine inv.hold (fun v hv => absurd hv (hnone v)) (fun _ => rfl) (fun _ => id) rfl rfl
    (fun _ => id) inv.passed (inv.progress.frame rfl rfl rfl rfl ?_ ?_)
  · intro v hv
    exact absurd hv.holdsFlag (hnone v)
  · exact update_imp s.worker w _ QPc.Sending fun h => h.elim

theorem sendmsg_error {start : ℕ} {count r : ℤ} (hpc : s.worker w = .sendmsg start count) :
    Inv ⟨s.reply, Function.update s.worker w (.release r)⟩ := by
  have hf : (s.worker w).HoldsFlag := by rw [hpc]; trivial
  exact inv.inert (fun _ : (QPc.release r).HoldsFlag => hf) (fun _ h => h.elim) (by simp [hpc])
    id s.reply.totalsize

theorem sendmsg {count : ℤ} {n : ℕ} (hpc : s.worker w = .sendmsg s.reply.windexlast count)
    (hpos : 0 < n) (hle : n ≤ (gather s.reply.iovec s.reply.windexlast count.toNat).length)
    (hfilled : ∀ i < s.reply.windexlast + count.toNat, s.reply.windexlast ≤ i →
      (s.reply.original i).isSome)
    (hbound : (gather s.reply.iovec s.reply.windexlast count.toNat).length < 2 ^ 32) :
    Inv ⟨{ s.reply with sent := s.reply.sent ++
        (gather s.reply.iovec s.reply.windexlast count.toNat).take n },
      Function.update s.worker w (.account s.reply.windexlast count.toNat n)⟩ := by
  have hf : (s.worker w).HoldsFlag := by rw [hpc]; trivial
  have hcut := inv.cut (inv.not_sending hf (by simp [hpc]))
  refine inv.hold (fun v hv => inv.one v w hv hf) (fun _ => inv.flag w hf) (fun _ => id) rfl rfl
    (fun _ => id) inv.passed ?_
  refine .account w count.toNat n s.reply.sent (Function.update_self ..) hcut rfl hpos hle hbound ?_
  intro i hi
  by_cases hlt : i < s.reply.windexlast
  · exact inv.passed i hlt
  · exact hfilled i hi (by omega)

omit [DecidableEq W] in
theorem account_filled {start count writeret : ℕ} (hpc : s.worker w = .account start count writeret) :
    ∀ i < start + count, (s.reply.original i).isSome := by
  have hf : (s.worker w).HoldsFlag := by rw [hpc]; trivial
  cases inv.progress with
  | quiet none => exact absurd (by simp [hpc]) (none w)
  | advance v iovEnd writeret' pc =>
    obtain rfl := inv.one v w (by simp [pc]) hf
    simp [pc] at hpc
  | account v count' writeret' sent pc _ _ _ _ _ filled =>
    obtain rfl := inv.one v w (by simp [pc]) hf
    obtain ⟨rfl, rfl, rfl⟩ : s.reply.windexlast = start ∧ count' = count ∧ writeret' = writeret := by
      simpa [pc] using hpc
    exact filled

theorem account {start count writeret : ℕ} (hpc : s.worker w = .account start count writeret) :
    ∃ iovEnd iovec, checkIOVTotalWritten s.reply.iovec start count writeret = some (iovEnd, iovec) ∧
      Inv ⟨{ s.reply with iovec := iovec },
        Function.update s.worker w (.advance start iovEnd writeret)⟩ := by
  have hf : (s.worker w).HoldsFlag := by rw [hpc]; trivial
  cases inv.progress with
  | quiet none => exact absurd (by simp [hpc]) (none w)
  | advance v iovEnd writeret' pc =>
    obtain rfl := inv.one v w (by simp [pc]) hf
    simp [pc] at hpc
  | account v count' writeret' sent pc before handed pos le bound filled =>
    obtain rfl := inv.one v w (by simp [pc]) hf
    obtain ⟨rfl, rfl, rfl⟩ : s.reply.windexlast = start ∧ count' = count ∧ writeret' = writeret := by
      simpa [pc] using hpc
    obtain ⟨iovEnd, iovec, heq, hcut, hend, hempty⟩ :=
      checkIOVTotalWritten_spec before pos le (.of_total _ bound)
    refine ⟨iovEnd, iovec, heq, inv.hold (fun u hu => inv.one u v hu hf) (fun _ => inv.flag v hf)
      (fun _ => id) rfl rfl hempty inv.passed ?_⟩
    refine .advance v iovEnd writeret' (Function.update_self ..) ?_ ?_
    · dsimp only
      rw [handed]
      exact hcut
    · intro i hi
      exact filled i (by omega)

theorem advance {start iovEnd writeret : ℕ} (hpc : s.worker w = .advance start iovEnd writeret) :
    Inv ⟨{ s.reply with
        windexlast := if s.reply.windexlast = start then iovEnd else s.reply.windexlast },
      Function.update s.worker w (.release writeret)⟩ := by
  have hf : (s.worker w).HoldsFlag := by rw [hpc]; trivial
  cases inv.progress with
  | quiet none => exact absurd (by simp [hpc]) (none w)
  | account v count' writeret' sent pc =>
    obtain rfl := inv.one v w (by simp [pc]) hf
    simp [pc] at hpc
  | advance v iovEnd' writeret' pc cut filled =>
    obtain rfl := inv.one v w (by simp [pc]) hf
    obtain ⟨rfl, rfl, rfl⟩ : s.reply.windexlast = start ∧ iovEnd' = iovEnd ∧
        writeret' = writeret := by
      simpa [pc] using hpc
    rw [if_pos rfl]
    refine inv.hold (fun u hu => inv.one u v hu hf) (fun _ => inv.flag v hf)
      (fun _ => id) rfl rfl (fun _ => id) filled (.quiet ?_ cut)
    intro u hu
    by_cases huv : u = v
    · subst u
      dsimp only at hu
      rw [Function.update_self] at hu
      exact hu
    · dsimp only at hu
      rw [Function.update_of_ne huv] at hu
      exact huv (inv.one u v hu.holdsFlag hf)

theorem release {ret : ℤ} (hpc : s.worker w = .release ret) {pc : QPc} (hf' : ¬ pc.HoldsFlag)
    (hfill : ∀ i, ¬ pc.Fills i) :
    Inv ⟨{ s.reply with writingflag := false }, Function.update s.worker w pc⟩ := by
  have hf : (s.worker w).HoldsFlag := by rw [hpc]; trivial
  refine inv.hold (fun v hv => inv.one v w hv hf) (fun h => absurd h hf') hfill rfl rfl
    (fun _ => id) inv.passed (inv.progress.frame rfl rfl rfl rfl ?_ ?_)
  · intro v hv
    exact absurd hv (inv.not_sending hf (by simp [hpc]) v)
  · exact update_imp s.worker w pc QPc.Sending fun h => absurd h.holdsFlag hf'

end Inv

variable [DecidableEq W]

theorem Inv.step {s t : Flush W} {a : Act W} (inv : Inv s) (hgood : InStep s a)
    (h : step s a = some t) : Inv t := by
  cases a with
  | call w hdr val =>
    simp only [Reply.step, Option.ite_none_right_eq_some, Option.some.injEq] at h
    obtain ⟨hpc, rfl⟩ := h
    exact inv.plain (by simp) (by simp) (by simp [hpc]) s.reply.totalsize
  | step w r =>
    simp only [Reply.step, Option.map_eq_some_iff] at h
    obtain ⟨⟨pc, reply⟩, hstep, rfl⟩ := h
    cases hpc : s.worker w with
    | reserve hdr val =>
      rw [hpc] at hstep
      cases hstep
      exact inv.reserve hpc
    | fillHdr index hdr val =>
      rw [hpc] at hstep
      cases hstep
      refine inv.fill (by rw [hpc]; exact .inl rfl) id ?_ hdr
      intro j hj
      have hj' : j = index + 1 := hj
      exact ⟨by rw [hpc]; exact .inr hj', by omega⟩
    | fillVal index size val =>
      rw [hpc] at hstep
      cases hstep
      exact inv.fill (by rw [hpc]; rfl) (by simp) (by simp) val
    | addTotal index size =>
      rw [hpc] at hstep
      cases hstep
      exact inv.plain (by simp) (by simp) (by simp [hpc]) _
    | readWindex index totalsize =>
      rw [hpc] at hstep
      cases hstep
      exact inv.plain (by simp) (by simp) (by simp [hpc]) s.reply.totalsize
    | check index totalsize y =>
      rw [hpc] at hstep
      simp only [QPc.step] at hstep
      split at hstep <;> cases hstep <;>
        exact inv.plain (by simp) (by simp) (by simp [hpc]) s.reply.totalsize
    | takeFlag start count =>
      rw [hpc] at hstep
      simp only [QPc.step] at hstep
      split at hstep <;> rename_i hfree <;> cases hstep
      · exact inv.plain (by simp) (by simp) (by simp [hpc]) s.reply.totalsize
      · exact inv.takeFlag (by simpa using hfree) start _
    | sendmsg start count =>
      rw [hpc] at hstep
      simp only [QPc.step] at hstep
      split_ifs at hstep with hr hle <;> cases hstep
      · exact inv.sendmsg_error hpc
      · have hgood' : 0 < r → start = s.reply.windexlast ∧
            (∀ i < start + count.toNat, start ≤ i → (s.reply.original i).isSome) ∧
            (gather s.reply.iovec start count.toNat).length < 2 ^ 32 := by
          simpa [InStep, hpc] using hgood
        obtain ⟨rfl, hfilled, hbound⟩ := hgood' (by omega)
        exact inv.sendmsg hpc (by omega) (by omega) hfilled hbound
    | account start count writeret =>
      obtain ⟨iovEnd, iovec, heq, hinv⟩ := inv.account hpc
      rw [hpc] at hstep
      simp only [QPc.step, heq, Option.map_some, Option.some.injEq, Prod.mk.injEq] at hstep
      obtain ⟨rfl, rfl⟩ := hstep
      exact hinv
    | advance start iovEnd writeret =>
      rw [hpc] at hstep
      cases hstep
      exact inv.advance hpc
    | release ret =>
      rw [hpc] at hstep
      cases hstep
      refine inv.release hpc ?_ ?_
      · split <;> exact id
      · intro i
        split <;> exact id
    | subTotal ret =>
      rw [hpc] at hstep
      cases hstep
      exact inv.plain (by simp) (by simp) (by simp [hpc]) _
    | done =>
      rw [hpc] at hstep
      cases hstep

/-! ## What an earlier command left -/

theorem reachWritten_congr {e f : ℕ → Bytes} {writeret : ℕ} (i n total : ℕ)
    (h : ∀ j, i ≤ j → j < i + n → e j = f j) :
    reachWritten e writeret i n total = reachWritten f writeret i n total := by
  induction n generalizing i total with
  | zero => rfl
  | succ n ih =>
    rw [reachWritten, reachWritten, h i (Nat.le_refl i) (by omega),
      ih (i + 1) _ fun j hj hlt => h j (by omega) (by omega)]

theorem reachWritten_inside {e : ℕ → Bytes} {writeret j total' : ℕ} (i n total : ℕ)
    (h : reachWritten e writeret i n total = some (j, total')) : i ≤ j ∧ j < i + n := by
  induction n generalizing i total with
  | zero => cases h
  | succ n ih =>
    rw [reachWritten] at h
    split at h
    · cases h
      omega
    · have := ih _ _ h
      omega

/-- `CheckIOVTotalWritten` looks only at the entries of its range, and moves one of them on. -/
theorem checkIOVTotalWritten_congr {e f : ℕ → Bytes} {start count writeret iovEnd : ℕ}
    {e' : ℕ → Bytes} (h : ∀ j, start ≤ j → j < start + count → e j = f j)
    (he : checkIOVTotalWritten e start count writeret = some (iovEnd, e')) :
    ∃ j b, start ≤ j ∧ j < start + count ∧ e' = Function.update e j b ∧
      checkIOVTotalWritten f start count writeret = some (iovEnd, Function.update f j b) := by
  obtain ⟨⟨j, total⟩, hreach, hend⟩ := Option.map_eq_some_iff.mp he
  obtain ⟨hj, hjn⟩ := reachWritten_inside _ _ _ hreach
  have hreach' := hreach
  rw [reachWritten_congr _ _ _ h] at hreach'
  unfold checkIOVTotalWritten
  rw [hreach', Option.map_some]
  dsimp only at hend ⊢
  rw [← h j hj hjn]
  by_cases htotal : total = writeret
  · rw [if_pos htotal] at hend ⊢
    cases hend
    refine ⟨j, e j, hj, hjn, (Function.update_eq_self ..).symm, ?_⟩
    rw [h j hj hjn, Function.update_eq_self]
  · rw [if_neg htotal] at hend ⊢
    cases hend
    exact ⟨_, _, hj, hjn, rfl, rfl⟩

theorem unsent_addIOVReply (s : IovReply) (ptr : Bytes) (index : ℕ) :
    (s.addIOVReply ptr index).unsent = Function.update s.unsent index ptr := by
  funext i
  by_cases hi : i = index
  · subst i; simp [IovReply.unsent, IovReply.addIOVReply]
  · simp [IovReply.unsent, IovReply.addIOVReply, hi]

theorem unsent_update (s : IovReply) {i : ℕ} (hi : (s.original i).isSome) (b : Bytes) :
    IovReply.unsent { s with iovec := Function.update s.iovec i b } =
      Function.update s.unsent i b := by
  funext j
  by_cases hj : j = i
  · subst j; simp [IovReply.unsent, hi]
  · simp [IovReply.unsent, hj]

theorem unsent_of_filled {s : IovReply} {i : ℕ} (hi : (s.original i).isSome) :
    s.unsent i = s.iovec i := if_pos hi

/-- The entries that a step of a worker sends or accounts for. -/
def QPc.Covers (r : ℤ) (i : ℕ) : QPc → Prop
  | .sendmsg start count => 0 < r ∧ start ≤ i ∧ i < start + count.toNat
  | .account start count _ => start ≤ i ∧ i < start + count
  | _ => False

/-- A step that covers only filled entries is one without what an earlier command left, too. -/
theorem QPc.step_unsent {pc pc' : QPc} {r : ℤ} {s s' : IovReply}
    (hfilled : ∀ i, pc.Covers r i → (s.original i).isSome) (h : pc.step r s = some (pc', s')) :
    pc.step r { s with iovec := s.unsent } = some (pc', { s' with iovec := s'.unsent }) := by
  cases pc with
  | reserve hdr val | addTotal index size | readWindex index totalsize | advance start iovEnd writeret
  | release ret | subTotal ret =>
    cases h
    rfl
  | fillHdr index hdr val =>
    cases h
    rw [unsent_addIOVReply]
    rfl
  | fillVal index size val =>
    cases h
    rw [unsent_addIOVReply]
    rfl
  | check index totalsize y =>
    simp only [QPc.step] at h ⊢
    split at h
    · cases h
      rw [if_pos ‹_›]
    · cases h
      rw [if_neg ‹_›]
  | takeFlag start count =>
    simp only [QPc.step] at h ⊢
    split at h
    · cases h
      rw [if_pos ‹_›]
    · cases h
      rw [if_neg ‹_›]
      rfl
  | sendmsg start count =>
    simp only [QPc.step] at h ⊢
    by_cases hr : r ≤ 0
    · rw [if_pos hr] at h ⊢
      cases h
      rfl
    · have hgather : gather s.unsent start count.toNat = gather s.iovec start count.toNat :=
        gather_congr fun i hi hlt => unsent_of_filled (hfilled i ⟨by omega, hi, hlt⟩)
      rw [if_neg hr] at h ⊢
      rw [hgather]
      split at h
      · cases h
        rw [if_pos ‹_›]
        rfl
      · cases h
  | account start count writeret =>
    obtain ⟨⟨iovEnd, iovec⟩, hcheck, hnext⟩ := Option.map_eq_some_iff.mp h
    cases hnext
    obtain ⟨j, b, hj, hjn, rfl, hcheck'⟩ := checkIOVTotalWritten_congr (f := s.unsent)
      (fun i hi hlt => (unsent_of_filled (hfilled i ⟨hi, hlt⟩)).symm) hcheck
    simp only [QPc.step, hcheck', Option.map_some, unsent_update s (hfilled j ⟨hj, hjn⟩) b]
  | done => cases h

/-- What an earlier command left does not take part in a run that is in step. -/
theorem Inv.step_cleared {s t : Flush W} {a : Act W} (inv : Inv s.cleared) (hgood : InStep s a)
    (h : Reply.step s a = some t) : Inv t.cleared := by
  cases a with
  | call w hdr val =>
    simp only [Reply.step, Option.ite_none_right_eq_some, Option.some.injEq] at h
    obtain ⟨hpc, rfl⟩ := h
    exact inv.plain (by simp) (by simp) (by simp [Flush.cleared, hpc]) s.reply.totalsize
  | step w r =>
    obtain ⟨⟨pc, reply⟩, hstep, rfl⟩ := Option.map_eq_some_iff.mp h
    have hfilled : ∀ i, (s.worker w).Covers r i → (s.reply.original i).isSome := by
      intro i hi
      cases hpc : s.worker w with
      | sendmsg start count =>
        rw [hpc] at hi
        obtain ⟨hr, hlow, hhigh⟩ := hi
        simp only [InStep, hpc] at hgood
        exact (hgood hr).2.1 i hhigh hlow
      | account start count writeret =>
        rw [hpc] at hi
        exact inv.account_filled (w := w) hpc i hi.2
      | _ =>
        rw [hpc] at hi
        exact hi.elim
    have hgood' : InStep s.cleared (.step w r) := by
      cases hpc : s.worker w with
      | sendmsg start count =>
        simp only [InStep, Flush.cleared, hpc] at hgood ⊢
        intro hr
        obtain ⟨hstart, hrange, hbound⟩ := hgood hr
        refine ⟨hstart, hrange, ?_⟩
        rwa [gather_congr fun i hi hlt => unsent_of_filled (hrange i hlt hi)]
      | reserve hdr val => simpa only [InStep, Flush.cleared, hpc] using hgood
      | _ => simp only [InStep, Flush.cleared, hpc]
    refine inv.step hgood' (a := .step w r) ?_
    have hnext : (s.worker w).step r s.cleared.reply = _ := QPc.step_unsent hfilled hstep
    exact congrArg (Option.map _) hnext

/-- In every run that is in step, whatever the arrays have been left with, whenever no worker is between
handing over bytes and moving `windexlast`, what went out and what is still to go out are all entries
in order, each once. -/
theorem delivered_of_inStep (start : IovReply) (hstart : start.Fresh) (as : List (Act W))
    (t : Flush W) (h : exec step ⟨start, fun _ => .done⟩ as = some t)
    (hgood : Guarded step InStep ⟨start, fun _ => .done⟩ as)
    (hquiet : ∀ w, ¬ (t.worker w).Sending) : Delivered t.reply := by
  have inv : Inv t.cleared := @Guarded.invariant _ _ _ _ (fun s => Inv s.cleared)
    (fun _ _ _ inv hg hs => inv.step_cleared hg hs) _ _ _ hgood hstart.inv h
  have hall := inv.delivered hquiet
  refine ⟨?_, hall.passed⟩
  have hsame : t.cleared.reply.unsent = t.reply.unsent := inv.unsent_eq
  rw [← hsame]
  exact hall.bytes

/-- A set was answered before the get, and its `STORED` is still in entry 0. -/
def afterSet : IovReply := { IovReply.init with
  iovec := Function.update (fun _ => []) 0 Reply.stored
  written := Function.update (fun _ => false) 0 true }

theorem afterSet_fresh : afterSet.Fresh := ⟨rfl, rfl, rfl, fun _ => rfl, rfl⟩

/-- The line that `QReply` makes of the key `c` and a value of 126 KiB. -/
theorem valueLine_long : Reply.valueLine [99] 129024 =
    [86, 65, 76, 85, 69, 32, 99, 32, 48, 32, 49, 50, 57, 48, 50, 52, 32, 49, 13, 10] := by decide

/-- One worker queues a value and flushes the header in front of it. -/
def flushed (val : Bytes) : List (Act Bool) :=
  [.call true (Reply.valueLine [99] 129024) val, .step true 0, .step true 0, .step true 0,
    .step true 0, .step true 0, .step true 0, .step true 0, .step true 20, .step true 0,
    .step true 0, .step true 0, .step true 0]

theorem step_of_pc {s : Flush W} {w : W} {r : ℤ} {pc pc' : QPc} {reply : IovReply}
    (h : pc.step r s.reply = some (pc', reply)) (hpc : s.worker w = pc) :
    step s (.step w r) = some ⟨reply, Function.update s.worker w pc'⟩ := by
  rw [step, hpc, h, Option.map_some]

theorem QPc.step_check {s : IovReply} {index y : ℕ} {totalsize : UInt32} {r : ℤ} (count : ℤ)
    (h : 126 * 1024 < totalsize)
    (hcount : (min (checkWritten s.written index y (index - y)) index : ℕ) - (y : ℤ) = count) :
    (QPc.check index totalsize y).step r s = some (.takeFlag y count, s) := by
  subst hcount
  exact if_pos (.inl h)

theorem QPc.step_takeFlag {s : IovReply} {start : ℕ} {count r : ℤ} (hfree : s.writingflag = false)
    (h : count ≤ iovMax) : (QPc.takeFlag start count).step r s =
      some (.sendmsg start count, { s with writingflag := true }) := by
  simp only [QPc.step, hfree, Bool.false_eq_true, if_false, Int.min_eq_left h]

theorem flushed_runs (val : Bytes) (h : 126 * 1024 < 0 + UInt32.ofNat (20 + val.length)) :
    (∃ t, exec step ⟨afterSet, fun _ => .done⟩ (flushed val) = some t ∧
      ∀ w, ¬ (t.worker w).Sending) ∧
      Guarded step InStep ⟨afterSet, fun _ => .done⟩ (flushed val) := by
  unfold flushed
  rw [valueLine_long]
  constructor
  · iterate 6 apply exec_cons_of rfl
    apply exec_cons_of (step_of_pc (QPc.step_check 1 h rfl) rfl)
    apply exec_cons_of (step_of_pc (QPc.step_takeFlag rfl (by decide)) rfl)
    iterate 5 apply exec_cons_of rfl
    exact ⟨_, rfl, fun w => by cases w <;> exact id⟩
  · apply guarded_cons_of rfl trivial
    apply guarded_cons_of rfl
    · exact (by decide : 0 + 2 ≤ iovSize)
    iterate 4 apply guarded_cons_of rfl trivial
    apply guarded_cons_of (step_of_pc (QPc.step_check 1 h rfl) rfl) trivial
    apply guarded_cons_of (step_of_pc (QPc.step_takeFlag rfl (by decide)) rfl) trivial
    apply guarded_cons_of rfl
    · intro _
      refine ⟨rfl, fun i hi _ => ?_, ?_⟩
      · obtain rfl : i = 0 := Nat.lt_one_iff.mp hi
        rfl
      · exact (by decide : 20 < 2 ^ 32)
    iterate 4 apply guarded_cons_of rfl trivial
    trivial

def longValue : Bytes := List.replicate 129024 0 ++ Reply.crlf

theorem longValue_length : longValue.length = 129026 := by
  rw [longValue, List.length_append, List.length_replicate]
  rfl

theorem delivered_flushed :
    ∃ t, exec step ⟨afterSet, fun _ => .done⟩ (flushed longValue) = some t ∧ Delivered t.reply := by
  obtain ⟨⟨t, ht, hquiet⟩, hgood⟩ := flushed_runs longValue (by rw [longValue_length]; decide)
  exact ⟨t, ht, delivered_of_inStep afterSet afterSet_fresh _ t ht hgood hquiet⟩

/-- The second worker flushes while the first one has reserved its two entries and filled neither. -/
def overtaken (val : Bytes) : List (Act Bool) :=
  [.call false (Reply.valueLine [97] 1) ([98] ++ Reply.crlf), .step false 0,
    .call true (Reply.valueLine [99] 129024) val, .step true 0, .step true 0, .step true 0,
    .step true 0, .step true 0, .step true 0, .step true 0, .step true 20, .step true 0,
    .step true 0, .step true 0, .step true 0]

theorem overtaken_runs (val : Bytes) (h : 126 * 1024 < 0 + UInt32.ofNat (20 + val.length)) :
    ∃ t, exec step (Flush.init Bool) (overtaken val) = some t ∧ t.reply.windexlast = 3 ∧
      t.reply.original 0 = none ∧ ∀ w, ¬ (t.worker w).Sending := by
  unfold overtaken
  rw [valueLine_long]
  iterate 8 apply exec_cons_of rfl
  apply exec_cons_of (step_of_pc (QPc.step_check 3 h rfl) rfl)
  apply exec_cons_of (step_of_pc (QPc.step_takeFlag rfl (by decide)) rfl)
  iterate 5 apply exec_cons_of rfl
  exact ⟨_, rfl, rfl, rfl, fun w => by cases w <;> exact id⟩

/-- The entries of the first worker are passed over before they are filled. -/
theorem delivered_fails :
    ¬ ∀ (as : List (Act Bool)) (t : Flush Bool), exec step (Flush.init Bool) as = some t →
      (∀ w, ¬ (t.worker w).Sending) → Delivered t.reply := by
  intro h
  obtain ⟨t, ht, hwindex, hnone, hquiet⟩ := overtaken_runs longValue
    (by rw [longValue_length]; decide)
  have hsome := (h _ t ht hquiet).passed 0 (by omega)
  rw [hnone] at hsome
  exact absurd hsome (by decide)

end Acached.Reply
