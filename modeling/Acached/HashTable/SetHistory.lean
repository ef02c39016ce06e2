import Acached.HashTable.WholeKeys

/-! # Chains under any sequence of sets

Calls of `set` one after the other, each with a record of its own, whatever the
records hold and whatever the hash values are. Which record a call replaces
depends on their contents; that the chains stay well formed does not.
-/
namespace Acached.HashTable
open CString DoublyLinked Execution

structure SetCall where
  hashval : UInt32
  record : KVdata
  deriving DecidableEq, Repr

/-- The table, and for each record the hash value with which it was stored. -/
structure History where
  table : AHashTable
  stored : Addr → Option UInt32

namespace History

def init (hashmask : UInt32) : History := ⟨.init hashmask, fun _ => none⟩

def kv (s : History) : Addr := s.table.heap.fresh

/-- A caller allocates and fills a record, and hands it to `ahashtable::set`. -/
def set (s : History) (c : SetCall) : Option History :=
  ({ s.table with heap := s.table.heap.malloc c.record }.set c.hashval s.kv).map fun t =>
    ⟨t, Function.update s.stored s.kv (some c.hashval)⟩

end History

def AHashTable.Freed (t : AHashTable) (a : Addr) : Prop := a < t.heap.fresh ∧ t.heap.block a = none

/-- What can be reached from the buckets by the pointers of records. -/
inductive AHashTable.Reachable (t : AHashTable) : Addr → Prop
  | head {b : UInt32} {a : Addr} (h : t.hashtable b = some a) : Reachable t a
  | next {a c : Addr} {r : KVdata} (h : Reachable t a) (hr : t.heap.block a = some r)
      (hc : r.next = some c) : Reachable t c
  | prev {a c : Addr} {r : KVdata} (h : Reachable t a) (hr : t.heap.block a = some r)
      (hc : r.prev = some c) : Reachable t c

/-- The records met from `hashtable[b]` by `next` are finitely many and different, the first has no
`prev` and the last no `next`, the next one of a record points back to it, and each was stored with a
hash value of this bucket. -/
structure ChainWellFormed (s : History) (b : UInt32) : Prop where
  head : s.table.hashtable b = (s.table.records b).head?
  segment : Segment s.table.heap.links none (s.table.records b) none
  acyclic : (s.table.records b).Nodup
  prev_head : ∀ a r, s.table.hashtable b = some a → s.table.heap.block a = some r → r.prev = none
  prev_next : ∀ a ∈ s.table.records b, ∀ r, s.table.heap.block a = some r → ∀ c, r.next = some c →
    ∃ r', s.table.heap.block c = some r' ∧ r'.prev = some a
  stored : ∀ a ∈ s.table.records b, ∃ hashval, s.stored a = some hashval ∧
    s.table.bucket hashval = b

/-- One record of the chain is replaced in its place and released, or the new one is appended; the
other records of the chain keep their contents, and the other buckets and their records stay as they
are. -/
structure Stores (s : History) (c : SetCall) (s' : History) : Prop where
  chain : (∃ l old l', s.table.records (s.table.bucket c.hashval) = l ++ old :: l' ∧
      s'.table.records (s.table.bucket c.hashval) = l ++ s.kv :: l' ∧ s'.table.Freed old) ∨
    s'.table.records (s.table.bucket c.hashval) =
      s.table.records (s.table.bucket c.hashval) ++ [s.kv]
  content : ∀ a ∈ s'.table.records (s.table.bucket c.hashval), s'.table.heap.payload a =
    if a = s.kv then some (c.record.keylen, c.record.vallen, c.record.data)
    else s.table.heap.payload a
  others : ∀ b, b ≠ s.table.bucket c.hashval → s'.table.hashtable b = s.table.hashtable b ∧
    s'.table.records b = s.table.records b ∧
    ∀ a ∈ s.table.records b, s'.table.heap.block a = s.table.heap.block a

namespace WellFormed

variable {t : AHashTable} {chain : UInt32 → List Addr}

theorem mem_of_reachable (wf : WellFormed t chain) {a : Addr} (h : t.Reachable a) :
    ∃ b, a ∈ chain b := by
  have hlinks {a : Addr} {r : KVdata} (hr : t.heap.block a = some r) :
      t.heap.links a = some ⟨r.next, r.prev⟩ := by simp [Heap.links, hr]
  induction h with
  | @head b a h => exact ⟨b, List.mem_of_head? ((wf.head b).symm.trans h)⟩
  | @next a c r _ hr hc ih =>
    obtain ⟨b, hb⟩ := ih
    exact ⟨b, (Segment.next (wf.segment b) a hb _ (hlinks hr) c hc).1⟩
  | @prev a c r _ hr hc ih =>
    obtain ⟨b, hb⟩ := ih
    rcases Segment.prev (wf.segment b) a hb _ (hlinks hr) c hc with hnone | hmem
    · cases hnone
    · exact ⟨b, hmem⟩

theorem not_freed (wf : WellFormed t chain) {a : Addr} (h : t.Reachable a) : ¬ t.Freed a := by
  obtain ⟨b, hb⟩ := wf.mem_of_reachable h
  have hsome := wf.isSome hb
  intro hfreed
  simp [Heap.links, hfreed.2] at hsome

end WellFormed

/-- What a call makes of the table when `p` tells the records that it accepts. -/
structure SetStep (s : History) (chain : UInt32 → List Addr) (c : SetCall) (p : Addr → Bool)
    (t : AHashTable) : Prop where
  bucket : ∀ x, t.bucket x = s.table.bucket x
  wf : WellFormed t (Function.update chain (s.table.bucket c.hashval)
    (placed p s.kv (chain (s.table.bucket c.hashval))))
  payload : t.heap.payload = AHashTable.released (chain (s.table.bucket c.hashval)) p
    (Function.update s.table.heap.payload s.kv
      (some (c.record.keylen, c.record.vallen, c.record.data)))
  fresh : t.heap.fresh = s.table.heap.fresh + 1

section Step

variable {s : History} {chain : UInt32 → List Addr} {c : SetCall} {p : Addr → Bool} {t : AHashTable}

theorem WellFormed.setStep (wf : WellFormed s.table chain) (c : SetCall) :
    ∃ t p, s.set c = some ⟨t, Function.update s.stored s.kv (some c.hashval)⟩ ∧
      SetStep s chain c p t := by
  obtain ⟨t, hset, hmask, hwf, hpay, hfresh⟩ := AHashTable.set_spec (wf.mallocRecord c.record)
    (show (s.table.heap.malloc c.record).block s.kv = some c.record by
      simp [Heap.malloc, History.kv]) wf.fresh_notMem (Nat.lt_succ_self _) c.hashval
  rw [Heap.payload_mallocRecord] at hpay
  refine ⟨t, _, by rw [History.set, hset]; rfl, fun x => ?_, hwf, hpay, hfresh⟩
  rw [AHashTable.bucket, hmask]
  rfl

variable (wf : WellFormed s.table chain) (h : SetStep s chain c p t)
include wf h

theorem SetStep.kept {b : UInt32} {a : Addr} (ha : a ∈ chain b)
    (hfind : (chain (s.table.bucket c.hashval)).find? p ≠ some a) :
    t.heap.payload a = s.table.heap.payload a := by
  rw [h.payload, AHashTable.released_of_ne hfind]
  exact Function.update_of_ne (ne_of_mem_of_not_mem ha (wf.fresh_notMem b)) ..

theorem SetStep.chain_replaced {old : Addr}
    (hfind : (chain (s.table.bucket c.hashval)).find? p = some old) :
    (∃ l l', chain (s.table.bucket c.hashval) = l ++ old :: l' ∧
      t.records (s.table.bucket c.hashval) = l ++ s.kv :: l') ∧ t.Freed old := by
  obtain ⟨hold, l, l', hsplit, hbefore⟩ := List.find?_eq_some_iff_append.mp hfind
  have hplaced := placed_append l' s.kv (by simpa using hbefore) hold
  rw [← hsplit] at hplaced
  have hgone : t.heap.payload old = none := by rw [h.payload, AHashTable.released_of_eq hfind]
  refine ⟨⟨l, l', hsplit, ?_⟩, ?_, by simpa [Heap.payload] using hgone⟩
  · rw [h.wf.records, Function.update_self, hplaced]
  · rw [h.fresh]
    exact Nat.lt_succ_of_lt (wf.fresh _ old (List.mem_of_find?_eq_some hfind))

theorem SetStep.content {a : Addr} (ha : a ∈ t.records (s.table.bucket c.hashval)) :
    t.heap.payload a = if a = s.kv then some (c.record.keylen, c.record.vallen, c.record.data)
      else s.table.heap.payload a := by
  have hnew : s.kv ∉ chain (s.table.bucket c.hashval) := wf.fresh_notMem _
  rw [h.wf.records, Function.update_self] at ha
  rcases (mem_placed (wf.nodup _) hnew).mp ha with rfl | ⟨hin, hfind⟩
  · rw [if_pos rfl, h.payload, AHashTable.released_of_ne, Function.update_self]
    exact fun hfind => hnew (List.mem_of_find?_eq_some hfind)
  · rw [if_neg, h.kept wf hin hfind]
    exact ne_of_mem_of_not_mem hin hnew

theorem SetStep.others {b : UInt32} (hb : b ≠ s.table.bucket c.hashval) :
    t.hashtable b = s.table.hashtable b ∧ t.records b = s.table.records b ∧
      ∀ a ∈ s.table.records b, t.heap.block a = s.table.heap.block a := by
  have hhead := h.wf.head b
  have hrecords := h.wf.records b
  have hseg := h.wf.segment b
  rw [Function.update_of_ne hb] at hhead hrecords hseg
  rw [hhead, hrecords, wf.head b, wf.records b]
  refine ⟨rfl, rfl, fun a ha => ?_⟩
  refine Heap.block_congr (Segment.unique (wf.segment b) hseg a ha) (h.kept wf ha fun hfind => ?_)
  exact wf.disjoint _ _ hb a ha (List.mem_of_find?_eq_some hfind)

theorem SetStep.stores (stored : Addr → Option UInt32) : Stores s c ⟨t, stored⟩ where
  chain := by
    rw [wf.records]
    cases hfind : (chain (s.table.bucket c.hashval)).find? p with
    | some old =>
      obtain ⟨⟨l, l', hsplit, hplaced⟩, hfreed⟩ := h.chain_replaced wf hfind
      exact .inl ⟨l, old, l', hsplit, hplaced, hfreed⟩
    | none =>
      have hnone : ∀ x ∈ chain (s.table.bucket c.hashval), p x = false := by
        simpa using List.find?_eq_none.mp hfind
      refine .inr ?_
      rw [h.wf.records, Function.update_self, placed_of_none s.kv hnone]
  content _ ha := h.content wf ha
  others _ hb := h.others wf hb

end Step

structure InBuckets (s : History) (chain : UInt32 → List Addr) : Prop where
  wf : WellFormed s.table chain
  stored : ∀ b, ∀ a ∈ chain b, ∃ hashval, s.stored a = some hashval ∧ s.table.bucket hashval = b

namespace InBuckets

variable {s : History} {chain : UInt32 → List Addr}

theorem init (hashmask : UInt32) : InBuckets (.init hashmask) fun _ => [] where
  wf := .init hashmask
  stored _ _ ha := absurd ha List.not_mem_nil

theorem chainWellFormed (inv : InBuckets s chain) (b : UInt32) : ChainWellFormed s b := by
  have hrecords := inv.wf.records b
  have hlinks {a : Addr} {r : KVdata} (hr : s.table.heap.block a = some r) :
      s.table.heap.links a = some ⟨r.next, r.prev⟩ := by simp [Heap.links, hr]
  refine ⟨hrecords ▸ inv.wf.head b, hrecords ▸ inv.wf.segment b, hrecords ▸ inv.wf.nodup b, ?_, ?_,
    hrecords ▸ inv.stored b⟩
  · intro a r ha hr
    have hseg := inv.wf.segment b
    obtain ⟨l, hl⟩ := List.head?_eq_some_iff.mp ((inv.wf.head b).symm.trans ha)
    rw [hl] at hseg
    exact congrArg Links.prev (Option.some.inj ((hlinks hr).symm.trans hseg.1))
  · rw [hrecords]
    intro a ha r hr c hc
    obtain ⟨-, k, hk, hback⟩ := Segment.next (inv.wf.segment b) a ha _ (hlinks hr) c hc
    obtain ⟨r', hr', rfl⟩ := Option.map_eq_some_iff.mp hk
    exact ⟨r', hr', hback⟩

theorem of_setStep (inv : InBuckets s chain) {c : SetCall} {p : Addr → Bool} {t : AHashTable}
    (h : SetStep s chain c p t) :
    InBuckets ⟨t, Function.update s.stored s.kv (some c.hashval)⟩
      (Function.update chain (s.table.bucket c.hashval)
        (placed p s.kv (chain (s.table.bucket c.hashval)))) where
  wf := h.wf
  stored b a ha := by
    have hold (hin : a ∈ chain b) : ∃ hashval,
        Function.update s.stored s.kv (some c.hashval) a = some hashval ∧ t.bucket hashval = b := by
      obtain ⟨hashval, hstored, hb⟩ := inv.stored b a hin
      refine ⟨hashval, ?_, (h.bucket hashval).trans hb⟩
      exact (Function.update_of_ne (ne_of_mem_of_not_mem hin (inv.wf.fresh_notMem b)) ..).trans hstored
    by_cases hb : b = s.table.bucket c.hashval
    · subst b
      rw [Function.update_self] at ha
      rcases (mem_placed (inv.wf.nodup _) (inv.wf.fresh_notMem _)).mp ha with rfl | ⟨hin, -⟩
      · exact ⟨c.hashval, Function.update_self .., h.bucket _⟩
      · exact hold hin
    · rw [Function.update_of_ne hb] at ha
      exact hold ha

theorem set (inv : InBuckets s chain) (c : SetCall) :
    ∃ s' chain', s.set c = some s' ∧ Stores s c s' ∧ InBuckets s' chain' := by
  obtain ⟨t, p, hset, hstep⟩ := inv.wf.setStep c
  exact ⟨_, _, hset, hstep.stores inv.wf _, inv.of_setStep hstep⟩

/-- Calls run one after the other never get stuck. -/
theorem exec (inv : InBuckets s chain) (calls : List SetCall) :
    ∃ s' chain', Execution.exec History.set s calls = some s' ∧ InBuckets s' chain' := by
  induction calls generalizing s chain with
  | nil => exact ⟨s, chain, rfl, inv⟩
  | cons c calls ih =>
    obtain ⟨s', chain', hset, -, inv'⟩ := inv.set c
    obtain ⟨u, chain'', hrun, hlast⟩ := ih inv'
    exact ⟨u, chain'', by rw [exec_cons, hset]; exact hrun, hlast⟩

end InBuckets

/-- After every sequence of calls of `set`, whatever the records and the hash values are, the chain
of every bucket is well formed, no released record can be reached, and the next call, whatever it
is, replaces one record of its chain in place or appends its own. -/
theorem chains_wellFormed (hashmask : UInt32) (calls : List SetCall) :
    ∃ s, exec History.set (.init hashmask) calls = some s ∧ (∀ b, ChainWellFormed s b) ∧
      (∀ a, s.table.Reachable a → ¬ s.table.Freed a) ∧
      ∀ c, ∃ s', s.set c = some s' ∧ Stores s c s' := by
  obtain ⟨s, chain, hrun, inv⟩ := (InBuckets.init hashmask).exec calls
  refine ⟨s, hrun, inv.chainWellFormed, fun a ha => inv.wf.not_freed ha, fun c => ?_⟩
  obtain ⟨s', -, hset, hstores, -⟩ := inv.set c
  exact ⟨s', hset, hstores⟩

end Acached.HashTable
