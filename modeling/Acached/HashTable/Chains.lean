import Acached.HashTable.Table
import Acached.Foundation.DoublyLinked
import Mathlib.Data.List.Perm.Subperm

/-! # Bucket chains

Every bucket holds a doubly linked chain of allocated records, and no record is
in two chains. One call of `set` on an allocated record outside all chains puts
it in the place of the first record that the traversal accepts, which is
released, or behind the last record; nothing else changes.
-/
namespace Acached.HashTable
open CString DoublyLinked

namespace Heap

def links (h : Heap) (a : Addr) : Option (Links Addr) :=
  (h.block a).map fun r => ⟨r.next, r.prev⟩

def payload (h : Heap) (a : Addr) : Option (ℕ × ℕ × Bytes) :=
  (h.block a).map fun r => (r.keylen, r.vallen, r.data)

theorem payload_of_block {h : Heap} {a : Addr} {r : KVdata} (hr : h.block a = some r) :
    h.payload a = some (r.keylen, r.vallen, r.data) := by
  rw [payload, hr, Option.map_some]

theorem eq_of_payload {h : Heap} {a : Addr} {r : KVdata} {k n : ℕ} {d : Bytes}
    (hr : h.block a = some r) (hp : h.payload a = some (k, n, d)) :
    r.keylen = k ∧ r.vallen = n ∧ r.data = d := by
  simpa [payload_of_block hr] using hp

theorem isSome_links (h : Heap) (a : Addr) : (h.links a).isSome = (h.payload a).isSome := by
  simp [links, payload]

theorem block_congr {h h' : Heap} {a : Addr} (hlinks : h'.links a = h.links a)
    (hpayload : h'.payload a = h.payload a) : h'.block a = h.block a := by
  unfold links at hlinks
  unfold payload at hpayload
  cases hr : h.block a with
  | none => simpa [hr] using hlinks
  | some r =>
    rw [hr] at hlinks hpayload
    obtain ⟨r', hr', hl⟩ := Option.map_eq_some_iff.mp hlinks
    rw [hr'] at hpayload ⊢
    simp only [Option.map_some, Option.some.injEq, Prod.mk.injEq] at hpayload
    simp only [Links.mk.injEq] at hl
    congr 1
    exact KVdata.ext hl.1 hl.2 hpayload.1 hpayload.2.1 hpayload.2.2

theorem payload_mallocRecord (h : Heap) (r : KVdata) : (h.malloc r).payload =
    Function.update h.payload h.fresh (some (r.keylen, r.vallen, r.data)) := by
  funext a
  by_cases ha : a = h.fresh
  · subst a
    simp [Heap.payload, Heap.malloc]
  · simp [Heap.payload, Heap.malloc, ha]

/-- A record with the bytes of its data area changed. -/
theorem modify_data {h : Heap} {a : Addr} {r : KVdata} (hr : h.block a = some r)
    (f : KVdata → KVdata) (hf : (f r).next = r.next ∧ (f r).prev = r.prev ∧ (f r).keylen = r.keylen ∧
      (f r).vallen = r.vallen) :
    ∃ h', h.modify a f = some h' ∧ h'.block a = some (f r) ∧ h'.links = h.links ∧
      h'.payload = Function.update h.payload a (some (r.keylen, r.vallen, (f r).data)) ∧
        h'.fresh = h.fresh := by
  refine ⟨{ h with block := Function.update h.block a (some (f r)) }, by simp [modify, hr],
    Function.update_self .., ?_, ?_, rfl⟩
  · funext x
    by_cases hx : x = a
    · subst x
      simp [links, hr, hf]
    · simp [links, hx]
  · funext x
    by_cases hx : x = a
    · subst x
      simp [payload, hf]
    · simp [payload, hx]

/-- The effect of a sequence of pointer assignments. -/
structure Relinked (h h' : Heap) (m : Addr → Option (Links Addr)) : Prop where
  links : h'.links = m
  payload : h'.payload = h.payload
  fresh : h'.fresh = h.fresh

theorem modify_spec {h : Heap} {a : Addr} {r : KVdata} (hr : h.block a = some r)
    (f : KVdata → KVdata) (hf : (f r).keylen = r.keylen ∧ (f r).vallen = r.vallen ∧
      (f r).data = r.data) :
    ∃ h', h.modify a f = some h' ∧
      h.Relinked h' (Function.update h.links a (some ⟨(f r).next, (f r).prev⟩)) := by
  refine ⟨{ h with block := Function.update h.block a (some (f r)) },
    by simp [modify, hr], ?_, ?_, rfl⟩
  · funext x
    by_cases hx : x = a
    · subst x; simp [Heap.links]
    · simp [Heap.links, hx]
  · funext x
    by_cases hx : x = a
    · subst x; simp [Heap.payload, hr, hf]
    · simp [Heap.payload, hx]

theorem modifyNext_spec {h : Heap} {x : Option Addr} (kv : Addr)
    (hx : ∀ p ∈ x, (h.links p).isSome) :
    ∃ h', h.modifyNext x kv = some h' ∧ h.Relinked h' (relinkNext h.links x (some kv)) := by
  cases x with
  | none => exact ⟨h, rfl, rfl, rfl, rfl⟩
  | some p =>
    obtain ⟨r, hr⟩ := Option.isSome_iff_exists.mp
      (show (h.block p).isSome by simpa [Heap.links] using hx p rfl)
    obtain ⟨h', hh', hrel⟩ := modify_spec hr (fun r => { r with next := some kv }) ⟨rfl, rfl, rfl⟩
    refine ⟨h', hh', ?_, hrel.payload, hrel.fresh⟩
    rw [hrel.links]
    simp [relinkNext, Heap.links, hr]

theorem modifyPrev_spec {h : Heap} {x : Option Addr} (kv : Addr)
    (hx : ∀ p ∈ x, (h.links p).isSome) :
    ∃ h', h.modifyPrev x kv = some h' ∧ h.Relinked h' (relinkPrev h.links x (some kv)) := by
  cases x with
  | none => exact ⟨h, rfl, rfl, rfl, rfl⟩
  | some p =>
    obtain ⟨r, hr⟩ := Option.isSome_iff_exists.mp
      (show (h.block p).isSome by simpa [Heap.links] using hx p rfl)
    obtain ⟨h', hh', hrel⟩ := modify_spec hr (fun r => { r with prev := some kv }) ⟨rfl, rfl, rfl⟩
    refine ⟨h', hh', ?_, hrel.payload, hrel.fresh⟩
    rw [hrel.links]
    simp [relinkPrev, Heap.links, hr]

theorem free_spec {h : Heap} {a : Addr} (ha : (h.links a).isSome) :
    ∃ h', h.free a = some h' ∧ h'.links = Function.update h.links a none ∧
      h'.payload = Function.update h.payload a none ∧ h'.fresh = h.fresh := by
  obtain ⟨r, hr⟩ := Option.isSome_iff_exists.mp
    (show (h.block a).isSome by simpa [Heap.links] using ha)
  refine ⟨{ h with block := Function.update h.block a none }, by simp [free, hr], ?_, ?_, rfl⟩
  · funext x
    by_cases hx : x = a
    · subst x; simp [Heap.links]
    · simp [Heap.links, hx]
  · funext x
    by_cases hx : x = a
    · subst x; simp [Heap.payload]
    · simp [Heap.payload, hx]

def accepts (h : Heap) (ptr : Bytes) (n : ℕ) (a : Addr) : Bool :=
  (h.block a).any fun r => strncmp ptr r.data n = 0

end Heap

/-- The traversal of a well-linked chain finds the first accepted record, or the last record. -/
theorem walk_spec (h : Heap) (ptr : Bytes) (n : ℕ) {p : Option Addr} {a : Addr} {l : List Addr}
    (hl : Segment h.links p (a :: l) none) (fuel : ℕ) (hfuel : (a :: l).length ≤ fuel) :
    walk h ptr n fuel a = some (((a :: l).find? (h.accepts ptr n)).elim
      (.ended ((a :: l).getLast (List.cons_ne_nil a l))) .found) := by
  induction l generalizing a p fuel with
  | nil =>
    obtain ⟨fuel, rfl⟩ := Nat.exists_eq_add_of_le' hfuel
    obtain ⟨r, hr, hlinks⟩ := Option.map_eq_some_iff.mp hl.1
    have hnext : r.next = none := by simpa using congrArg Links.next hlinks
    by_cases hm : strncmp ptr r.data n = 0
    · simp [walk, hr, hm, Heap.accepts]
    · simp [walk, hr, hm, hnext, Heap.accepts]
  | cons c l ih =>
    obtain ⟨fuel, rfl⟩ := Nat.exists_eq_add_of_le' (Nat.one_le_of_lt hfuel)
    obtain ⟨r, hr, hlinks⟩ := Option.map_eq_some_iff.mp hl.1
    have hnext : r.next = some c := by simpa using congrArg Links.next hlinks
    have hrest := ih hl.2 fuel (by simpa using hfuel)
    by_cases hm : strncmp ptr r.data n = 0
    · simp [walk, hr, hm, Heap.accepts]
    · have hacc : h.accepts ptr n a = false := by simp [Heap.accepts, hr, hm]
      rw [List.find?_cons_of_neg (by simp [hacc]), List.getLast_cons_cons, ← hrest]
      simp [walk, hr, hm, hnext]

/-- The chain after `kv` took the place of the first record accepted, or the last place. -/
def placed (p : Addr → Bool) (kv : Addr) : List Addr → List Addr
  | [] => [kv]
  | a :: l => if p a then kv :: l else a :: placed p kv l

theorem placed_append {p : Addr → Bool} {l : List Addr} {a : Addr} (l' : List Addr) (kv : Addr)
    (hl : ∀ x ∈ l, p x = false) (ha : p a = true) : placed p kv (l ++ a :: l') = l ++ kv :: l' := by
  induction l with
  | nil => simp [placed, ha]
  | cons b l ih =>
    rw [List.forall_mem_cons] at hl
    simp [placed, hl.1, ih hl.2]

theorem placed_of_none {p : Addr → Bool} {l : List Addr} (kv : Addr)
    (hl : ∀ x ∈ l, p x = false) : placed p kv l = l ++ [kv] := by
  induction l with
  | nil => rfl
  | cons b l ih =>
    rw [List.forall_mem_cons] at hl
    simp [placed, hl.1, ih hl.2]

theorem placed_congr {p p' : Addr → Bool} {kv : Addr} {l : List Addr}
    (h : ∀ x ∈ l, p x = p' x) : placed p kv l = placed p' kv l := by
  induction l with
  | nil => rfl
  | cons a l ih =>
    rw [List.forall_mem_cons] at h
    simp [placed, h.1, ih h.2]

theorem mem_placed {p : Addr → Bool} {kv x : Addr} {l : List Addr} (hl : l.Nodup)
    (hkv : kv ∉ l) : x ∈ placed p kv l ↔ x = kv ∨ x ∈ l ∧ l.find? p ≠ some x := by
  induction l with
  | nil => simp [placed]
  | cons a l ih =>
    obtain ⟨hal, hl⟩ := List.nodup_cons.mp hl
    simp only [List.mem_cons, not_or] at hkv
    have hih := ih hl hkv.2
    by_cases ha : p a = true
    · simp only [placed, ha, if_true, List.mem_cons, List.find?_cons_of_pos, ne_eq,
        Option.some.injEq]
      constructor
      · rintro (rfl | hx)
        · exact .inl rfl
        · exact .inr ⟨.inr hx, fun he => hal (he ▸ hx)⟩
      · rintro (rfl | ⟨rfl | hx, hne⟩)
        · exact .inl rfl
        · exact absurd rfl hne
        · exact .inr hx
    · simp only [placed, ha, if_false, List.mem_cons, hih, Bool.false_eq_true,
        List.find?_cons_of_neg (show ¬ p a = true from ha)]
      constructor
      · rintro (rfl | rfl | ⟨hx, hne⟩)
        · exact .inr ⟨.inl rfl, fun he => hal (List.mem_of_find?_eq_some he)⟩
        · exact .inl rfl
        · exact .inr ⟨.inr hx, hne⟩
      · rintro (rfl | ⟨rfl | hx, hne⟩)
        · exact .inr (.inl rfl)
        · exact .inl rfl
        · exact .inr (.inr ⟨hx, hne⟩)

/-- Bucket `b` of the table holds exactly the records of `chain b`, linked in that order. -/
structure WellFormed (t : AHashTable) (chain : UInt32 → List Addr) : Prop where
  head : ∀ b, t.hashtable b = (chain b).head?
  segment : ∀ b, Segment t.heap.links none (chain b) none
  nodup : ∀ b, (chain b).Nodup
  disjoint : ∀ b c, b ≠ c → ∀ a ∈ chain b, a ∉ chain c
  fresh : ∀ b, ∀ a ∈ chain b, a < t.heap.fresh

namespace WellFormed

variable {t t' : AHashTable} {chain : UInt32 → List Addr}

theorem init (hashmask : UInt32) : WellFormed (.init hashmask) fun _ => [] where
  head _ := rfl
  segment _ := trivial
  nodup _ := List.nodup_nil
  disjoint _ _ _ _ ha := absurd ha List.not_mem_nil
  fresh _ _ ha := absurd ha List.not_mem_nil

theorem length_le (wf : WellFormed t chain) (b : UInt32) : (chain b).length ≤ t.heap.fresh := by
  have hsub : chain b ⊆ List.range t.heap.fresh := fun a ha => List.mem_range.mpr (wf.fresh b a ha)
  simpa using (List.subperm_of_subset (wf.nodup b) hsub).length_le

theorem fresh_notMem (wf : WellFormed t chain) (b : UInt32) : t.heap.fresh ∉ chain b :=
  fun hb => (wf.fresh b _ hb).ne rfl

/-- Only links and the first record count for the chains. -/
theorem heap (wf : WellFormed t chain) {h : Heap} (hlinks : h.links = t.heap.links)
    (hfresh : h.fresh = t.heap.fresh) : WellFormed { t with heap := h } chain where
  head := wf.head
  segment b := by
    dsimp only
    rw [hlinks]
    exact wf.segment b
  nodup := wf.nodup
  disjoint := wf.disjoint
  fresh b a ha := by
    dsimp only
    rw [hfresh]
    exact wf.fresh b a ha

theorem mallocRecord (wf : WellFormed t chain) (r : KVdata) :
    WellFormed { t with heap := t.heap.malloc r } chain where
  head := wf.head
  segment b := (wf.segment b).frame fun a ha => by
    simp [Heap.links, Heap.malloc, (wf.fresh b a ha).ne]
  nodup := wf.nodup
  disjoint := wf.disjoint
  fresh b a ha := Nat.lt_succ_of_lt (wf.fresh b a ha)

theorem isSome (wf : WellFormed t chain) {b : UInt32} {a : Addr} (ha : a ∈ chain b) :
    (t.heap.links a).isSome := (wf.segment b).isSome ha

theorem update (wf : WellFormed t chain) {b : UInt32} {l : List Addr} (kv : Addr)
    (htable : t'.hashtable = Function.update t.hashtable b l.head?)
    (hseg : Segment t'.heap.links none l none) (hnodup : l.Nodup)
    (hsub : ∀ x ∈ l, x = kv ∨ x ∈ chain b) (hkv : ∀ c, kv ∉ chain c) (hlt : kv < t.heap.fresh)
    (hlinks : ∀ x ∉ chain b, x ≠ kv → t'.heap.links x = t.heap.links x)
    (hfresh : t'.heap.fresh = t.heap.fresh) : WellFormed t' (Function.update chain b l) where
  head c := by
    by_cases hc : c = b
    · subst c; simp [htable]
    · simp [htable, hc, wf.head c]
  segment c := by
    by_cases hc : c = b
    · subst c; simpa using hseg
    · rw [Function.update_of_ne hc]
      apply (wf.segment c).frame
      intro x hx
      exact hlinks x (wf.disjoint c b hc x hx) (ne_of_mem_of_not_mem hx (hkv c))
  nodup c := by
    by_cases hc : c = b
    · subst c; simpa using hnodup
    · simpa [hc] using wf.nodup c
  disjoint c d hcd x hx := by
    have hold (e : UInt32) (he : e ≠ b) (hxl : x ∈ l) : x ∉ chain e := by
      rcases hsub x hxl with rfl | hxb
      · exact hkv e
      · exact wf.disjoint b e he.symm x hxb
    by_cases hc : c = b
    · subst c
      rw [Function.update_self] at hx
      rw [Function.update_of_ne hcd.symm]
      exact hold d hcd.symm hx
    · rw [Function.update_of_ne hc] at hx
      by_cases hd : d = b
      · subst d
        rw [Function.update_self]
        exact fun hxl => hold c hc hxl hx
      · rw [Function.update_of_ne hd]
        exact wf.disjoint c d hcd x hx
  fresh c x hx := by
    rw [hfresh]
    by_cases hc : c = b
    · rw [hc, Function.update_self] at hx
      rcases hsub x hx with rfl | hxb
      · exact hlt
      · exact wf.fresh b x hxb
    · rw [Function.update_of_ne hc] at hx
      exact wf.fresh c x hx

end WellFormed

namespace AHashTable

variable {t : AHashTable} {chain : UInt32 → List Addr}

theorem replace_spec (wf : WellFormed t chain) {b : UInt32} {l l' : List Addr} {a head kv : Addr}
    (hb : chain b = l ++ a :: l') (hhead : t.hashtable b = some head)
    (hkv : ∀ c, kv ∉ chain c) (hlt : kv < t.heap.fresh) (hsome : (t.heap.block kv).isSome) :
    ∃ t', t.replace b head a kv = some t' ∧ t'.hashmask = t.hashmask ∧
      WellFormed t' (Function.update chain b (l ++ kv :: l')) ∧
      t'.heap.payload = Function.update t.heap.payload a none ∧
      t'.heap.fresh = t.heap.fresh := by
  have hseg := hb ▸ wf.segment b
  have hnodup := hb ▸ wf.nodup b
  have hkvb := hb ▸ hkv b
  have hlinka := ((segment_append _ _ _ _ _).mp hseg).2.1
  obtain ⟨old, hold, hlinks⟩ := Option.map_eq_some_iff.mp hlinka
  obtain ⟨hnext, hprev⟩ : old.next = l'.head? ∧ old.prev = l.getLast? := by simpa using hlinks
  obtain ⟨r, hr⟩ := Option.isSome_iff_exists.mp hsome
  have hmem {x : Addr} (hx : x ∈ l ++ a :: l') : (t.heap.links x).isSome := hseg.isSome hx
  obtain ⟨h1, hh1, hrel1⟩ := Heap.modify_spec hr
    (fun r => { r with prev := old.prev, next := old.next }) ⟨rfl, rfl, rfl⟩
  have hlinks1 {x : Addr} (hx : x ∈ l ++ a :: l') : (h1.links x).isSome := by
    rw [hrel1.links, Function.update_of_ne (ne_of_mem_of_not_mem hx hkvb)]
    exact hmem hx
  obtain ⟨h2, hh2, hrel2⟩ := Heap.modifyNext_spec (h := h1) (x := old.prev) kv fun p hp =>
    hlinks1 (List.mem_append_left _ (List.mem_of_getLast? (hprev ▸ hp)))
  have hlinks2 {x : Addr} (hx : x ∈ l ++ a :: l') : (h2.links x).isSome := by
    rw [Heap.isSome_links, hrel2.payload, ← Heap.isSome_links]
    exact hlinks1 hx
  obtain ⟨h3, hh3, hrel3⟩ := Heap.modifyPrev_spec (h := h2) (x := old.next) kv fun p hp =>
    hlinks2 (List.mem_append_right _ (List.mem_cons_of_mem a (List.mem_of_head? (hnext ▸ hp))))
  obtain ⟨h4, hh4, hl4, hp4, hf4⟩ := Heap.free_spec (h := h3) (a := a) (by
    rw [Heap.isSome_links, hrel3.payload, ← Heap.isSome_links]
    exact hlinks2 (by simp))
  have hrepl : h4.links = replaceLinks t.heap.links l l' a kv := by
    rw [hl4, hrel3.links, hrel2.links, hrel1.links, hprev, hnext]
    rfl
  refine ⟨{ t with
    heap := h4
    hashtable := if a = head then Function.update t.hashtable b (some kv) else t.hashtable },
    by simp [replace, hold, hh1, hh2, hh3, hh4], rfl, ?_, ?_, ?_⟩
  · refine wf.update kv ?_ (hrepl ▸ hseg.replace hnodup hkvb) ?_ ?_ hkv hlt ?_ ?_
    · rw [wf.head b, hb] at hhead
      cases l with
      | nil =>
        have hah : a = head := by simpa using hhead
        simp [hah]
      | cons x l =>
        have hxh : x = head := by simpa using hhead
        have hah : a ≠ head := by
          rintro rfl
          subst x
          simp at hnodup
        have hx : t.hashtable b = some x := by simp [wf.head b, hb]
        simp [hah, ← hx]
    · simp only [List.nodup_append, List.nodup_cons, List.mem_cons, List.mem_append, not_or]
        at hnodup hkvb ⊢
      refine ⟨hnodup.1, ⟨hkvb.2.2, hnodup.2.1.2⟩, ?_⟩
      rintro x hx y (rfl | hy)
      · exact ne_of_mem_of_not_mem hx hkvb.1
      · exact hnodup.2.2 x hx y (.inr hy)
    · intro x hx
      rw [hb]
      simp only [List.mem_append, List.mem_cons] at hx ⊢
      tauto
    · intro x hx hne
      exact hrepl ▸ replaceLinks_of_notMem (hb ▸ hx) hne
    · exact hf4.trans (hrel3.fresh.trans (hrel2.fresh.trans hrel1.fresh))
  · exact hp4.trans (by rw [hrel3.payload, hrel2.payload, hrel1.payload])
  · exact hf4.trans (hrel3.fresh.trans (hrel2.fresh.trans hrel1.fresh))

theorem append_spec (wf : WellFormed t chain) {b : UInt32} {a kv : Addr}
    (hlast : (chain b).getLast? = some a) (hkv : ∀ c, kv ∉ chain c) (hlt : kv < t.heap.fresh)
    (hsome : (t.heap.block kv).isSome) :
    ∃ t', t.append a kv = some t' ∧ t'.hashmask = t.hashmask ∧
      WellFormed t' (Function.update chain b (chain b ++ [kv])) ∧
      t'.heap.payload = t.heap.payload ∧ t'.heap.fresh = t.heap.fresh := by
  have ha : a ∈ chain b := List.mem_of_getLast? hlast
  have hakv : a ≠ kv := ne_of_mem_of_not_mem ha (hkv b)
  obtain ⟨ra, hra⟩ := Option.isSome_iff_exists.mp
    (show (t.heap.block a).isSome by simpa [Heap.links] using wf.isSome ha)
  obtain ⟨h1, hh1, hrel1⟩ := Heap.modify_spec hra
    (fun r => { r with next := some kv }) ⟨rfl, rfl, rfl⟩
  obtain ⟨r, hr⟩ : ∃ r, h1.block kv = some r := by
    have hp : (h1.payload kv).isSome := by
      rw [hrel1.payload]
      simpa [Heap.payload] using hsome
    exact Option.isSome_iff_exists.mp (by simpa [Heap.payload] using hp)
  obtain ⟨h2, hh2, hrel2⟩ := Heap.modify_spec hr
    (fun r => { r with prev := some a, next := none }) ⟨rfl, rfl, rfl⟩
  have happ : h2.links = appendLinks t.heap.links (chain b) kv := by
    rw [hrel2.links, hrel1.links, appendLinks, hlast]
    simp [relinkNext, Heap.links, hra]
  refine ⟨{ t with heap := h2 }, by simp [append, hh1, hh2], rfl, ?_,
    hrel2.payload.trans hrel1.payload, hrel2.fresh.trans hrel1.fresh⟩
  refine wf.update kv ?_ (happ ▸ (wf.segment b).concat (wf.nodup b) (hkv b)) ?_ ?_ hkv hlt
    ?_ (hrel2.fresh.trans hrel1.fresh)
  · have hne : chain b ≠ [] := List.ne_nil_of_mem ha
    rw [List.head?_append_of_ne_nil _ hne, ← wf.head b, Function.update_eq_self]
  · rw [List.nodup_append]
    refine ⟨wf.nodup b, List.nodup_singleton kv, ?_⟩
    intro x hx y hy
    rw [List.mem_singleton.mp hy]
    exact ne_of_mem_of_not_mem hx (hkv b)
  · intro x hx
    simpa [or_comm] using hx
  · intro x hx hne
    exact happ ▸ appendLinks_of_notMem hx hne

theorem setHead_spec (wf : WellFormed t chain) {b : UInt32} {kv : Addr} (hkv : ∀ c, kv ∉ chain c)
    (hlt : kv < t.heap.fresh)
    (hsome : (t.heap.block kv).isSome) :
    ∃ t', t.setHead b kv = some t' ∧ t'.hashmask = t.hashmask ∧
      WellFormed t' (Function.update chain b [kv]) ∧
      t'.heap.payload = t.heap.payload ∧ t'.heap.fresh = t.heap.fresh := by
  obtain ⟨r, hr⟩ := Option.isSome_iff_exists.mp hsome
  obtain ⟨h1, hh1, hrel1⟩ := Heap.modify_spec hr
    (fun r => { r with next := none, prev := none }) ⟨rfl, rfl, rfl⟩
  refine ⟨{ t with heap := h1, hashtable := Function.update t.hashtable b (some kv) },
    by simp [setHead, hh1], rfl, ?_, hrel1.payload, hrel1.fresh⟩
  refine wf.update kv rfl ?_ (List.nodup_singleton kv) ?_ hkv hlt ?_ hrel1.fresh
  · simp [hrel1.links]
  · intro x hx
    exact .inl (List.mem_singleton.mp hx)
  · intro x _ hne
    simp [hrel1.links, hne]

def released (l : List Addr) (p : Addr → Bool) (m : Addr → Option (ℕ × ℕ × Bytes)) :
    Addr → Option (ℕ × ℕ × Bytes) :=
  (l.find? p).elim m fun a => Function.update m a none

theorem released_of_eq {l : List Addr} {p : Addr → Bool} {m : Addr → Option (ℕ × ℕ × Bytes)}
    {a : Addr} (h : l.find? p = some a) : released l p m a = none := by
  simp [released, h]

theorem released_of_ne {l : List Addr} {p : Addr → Bool} {m : Addr → Option (ℕ × ℕ × Bytes)}
    {a : Addr} (h : l.find? p ≠ some a) : released l p m a = m a := by
  cases hfind : l.find? p with
  | none => simp [released, hfind]
  | some x =>
    have hax : a ≠ x := fun he => h (he ▸ hfind)
    simp [released, hfind, hax]

/-- One call of `set` with a record outside all chains. -/
theorem set_spec (wf : WellFormed t chain) {kv : Addr} {r : KVdata}
    (hr : t.heap.block kv = some r) (hkv : ∀ c, kv ∉ chain c) (hlt : kv < t.heap.fresh)
    (hashval : UInt32) :
    ∃ t', t.set hashval kv = some t' ∧ t'.hashmask = t.hashmask ∧
      WellFormed t' (Function.update chain (t.bucket hashval)
        (placed (t.heap.accepts r.data r.keylen) kv (chain (t.bucket hashval)))) ∧
      t'.heap.payload =
        released (chain (t.bucket hashval)) (t.heap.accepts r.data r.keylen) t.heap.payload ∧
      t'.heap.fresh = t.heap.fresh := by
  have hsome : (t.heap.block kv).isSome := by simp [hr]
  have hhead := wf.head (t.bucket hashval)
  generalize hl : chain (t.bucket hashval) = l at hhead ⊢
  cases l with
  | nil =>
    have hset := setHead_spec wf (b := t.bucket hashval) hkv hlt hsome
    simpa [set, hr, hhead, placed, released] using hset
  | cons a l =>
    have hwalk := walk_spec t.heap r.data r.keylen (hl ▸ wf.segment (t.bucket hashval))
      _ (hl ▸ wf.length_le (t.bucket hashval))
    have hhead : t.hashtable (t.bucket hashval) = some a := hhead
    cases hfind : (a :: l).find? (t.heap.accepts r.data r.keylen) with
    | none =>
      have hnone : ∀ x ∈ a :: l, t.heap.accepts r.data r.keylen x = false := by
        simpa using List.find?_eq_none.mp hfind
      have hset := append_spec wf (b := t.bucket hashval) (a := (a :: l).getLast (by simp))
        (by rw [hl, List.getLast?_eq_getLast_of_ne_nil]) hkv hlt hsome
      rw [hl] at hset
      simpa [set, hr, hhead, hwalk, hfind, released, placed_of_none kv hnone] using hset
    | some x =>
      obtain ⟨hx, l₁, l₂, hsplit, hbefore⟩ := List.find?_eq_some_iff_append.mp hfind
      have hset := replace_spec wf (hl.trans hsplit) hhead hkv hlt hsome
      have hplaced := placed_append l₂ kv (by simpa using hbefore) hx
      rw [← hsplit] at hplaced
      simpa [set, hr, hhead, hwalk, hfind, released, hplaced] using hset

/-- One call of `get` finds the first accepted record of the chain. -/
theorem get_spec (wf : WellFormed t chain) (key : Bytes) (keylen : ℕ) (hashval : UInt32) :
    t.get key keylen hashval =
      some ((chain (t.bucket hashval)).find? (t.heap.accepts key keylen)) := by
  have hhead := wf.head (t.bucket hashval)
  generalize hl : chain (t.bucket hashval) = l at hhead ⊢
  cases l with
  | nil => simp [get, hhead]
  | cons a l =>
    have hwalk := walk_spec t.heap key keylen (hl ▸ wf.segment (t.bucket hashval))
      _ (hl ▸ wf.length_le (t.bucket hashval))
    have hhead : t.hashtable (t.bucket hashval) = some a := hhead
    rw [get, hhead]
    simp only [hwalk]
    cases (a :: l).find? (t.heap.accepts key keylen) <;> rfl

end AHashTable

end Acached.HashTable
