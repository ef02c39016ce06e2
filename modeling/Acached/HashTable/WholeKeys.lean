import Acached.HashTable.Chains
import Acached.Foundation.Execution
import Mathlib.Data.List.Find

/-! # Whole keys in a table that compares prefixes

The traversal compares as many bytes as the key of the call has with a data
area in which key and value run together, and never looks at `keylen`. Run one
after the other on an empty table, the calls of `set` and `get` behave as a map
on whole keys exactly as long as every call meets, as the first record it
accepts, one whose key has the length of its own.
-/
namespace Acached.HashTable
open CString Execution

/-- A call from a worker: the key and value of a SET, or the key of a get. -/
inductive Call where
  | set (key value : Bytes)
  | get (key : Bytes)
  deriving DecidableEq, Repr

def Call.key : Call → Bytes
  | .set key _ => key
  | .get key => key

/-- Keys come out of a C string and are not empty. -/
def Call.Valid (c : Call) : Prop := c.key ≠ [] ∧ NulFree c.key

instance (c : Call) : Decidable c.Valid := inferInstanceAs (Decidable (_ ∧ _))

/-- The table, and for each key the record and value that its last `set` stored. -/
structure Store where
  table : AHashTable
  last : Bytes → Option (Addr × Bytes)

def Store.init (hashmask : UInt32) : Store := ⟨.init hashmask, fun _ => none⟩

def AHashTable.malloc (t : AHashTable) (key value : Bytes) : AHashTable :=
  { t with heap := t.heap.malloc (setRecord key value) }

def follow (h : Heap) : ℕ → Option Addr → List Addr
  | 0, _ => []
  | _ + 1, none => []
  | fuel + 1, some a => a :: follow h fuel ((h.block a).bind KVdata.next)

def AHashTable.records (t : AHashTable) (b : UInt32) : List Addr :=
  follow t.heap t.heap.fresh (t.hashtable b)

section Calls

variable (hash : Bytes → UInt32)

def step (s : Store) : Call → Option Store
  | .set key value => ((s.table.malloc key value).set (hash key) s.table.heap.fresh).map fun t =>
      ⟨t, Function.update s.last key (some (s.table.heap.fresh, value))⟩
  | .get key => (s.table.get key key.length (hash key)).map fun _ => s

/-- What a map on whole keys does: `get` returns the record of the last `set` of its key, which
still holds that key and value, or -1 when there was none; `set` succeeds, and the record of every
other key stays in its bucket with its lengths and its data. -/
def Answers (s : Store) : Call → Prop
  | .get key => s.table.get key key.length (hash key) = some ((s.last key).map Prod.fst) ∧
      ∀ a value, s.last key = some (a, value) → s.table.heap.payload a =
        some (key.length, value.length, key ++ value ++ List.replicate (dataPad + 2) 0)
  | .set key value => ∃ s', step hash s (.set key value) = some s' ∧
      ∀ other ≠ key, ∀ a v, s.last other = some (a, v) →
        a ∈ s'.table.records (s'.table.bucket (hash other)) ∧
          s'.table.heap.payload a = s.table.heap.payload a

/-- The first record of the bucket whose data begins with the key, if there is one, was stored
under a key of the same length. -/
def Unambiguous (s : Store) (c : Call) : Prop :=
  ∀ a ∈ (s.table.records (s.table.bucket (hash c.key))).find?
      (s.table.heap.accepts c.key c.key.length),
    (s.table.heap.block a).map KVdata.keylen = some c.key.length

instance (s : Store) (c : Call) : Decidable (Unambiguous hash s c) :=
  inferInstanceAs (Decidable (∀ a ∈ List.find? _ _, _))

end Calls

theorem follow_spec {h : Heap} {p : Option Addr} {l : List Addr}
    (hl : DoublyLinked.Segment h.links p l none) (fuel : ℕ) (hfuel : l.length ≤ fuel) :
    follow h fuel l.head? = l := by
  induction l generalizing p fuel with
  | nil => cases fuel <;> rfl
  | cons a l ih =>
    obtain ⟨fuel, rfl⟩ := Nat.exists_eq_add_of_le' (Nat.one_le_of_lt hfuel)
    obtain ⟨r, hr, hlinks⟩ := Option.map_eq_some_iff.mp hl.1
    have hnext : r.next = l.head? := by simpa using congrArg DoublyLinked.Links.next hlinks
    have hrest := ih hl.2 fuel (by simpa using hfuel)
    simp [follow, hr, hnext, hrest]

theorem WellFormed.records {t : AHashTable} {chain : UInt32 → List Addr} (wf : WellFormed t chain)
    (b : UInt32) : t.records b = chain b := by
  rw [AHashTable.records, wf.head b]
  exact follow_spec (wf.segment b) _ (wf.length_le b)

theorem WellFormed.malloc {t : AHashTable} {chain : UInt32 → List Addr} (wf : WellFormed t chain)
    (key value : Bytes) : WellFormed (t.malloc key value) chain := wf.mallocRecord _

theorem payload_malloc (t : AHashTable) (key value : Bytes) :
    (t.malloc key value).heap.payload = Function.update t.heap.payload t.heap.fresh
      (some (key.length, value.length, key ++ value ++ List.replicate (dataPad + 2) 0)) :=
  t.heap.payload_mallocRecord _

theorem Heap.accepts_iff {h : Heap} {a : Addr} {m n : ℕ} {d : Bytes}
    (ha : h.payload a = some (m, n, d)) (key rest : Bytes) (hkey : NulFree key) :
    h.accepts (key ++ rest) key.length a = true ↔ key <+: d := by
  obtain ⟨r, hr, hd⟩ := Option.map_eq_some_iff.mp ha
  obtain ⟨-, -, rfl⟩ : r.keylen = m ∧ r.vallen = n ∧ r.data = d := by simpa using hd
  simp [accepts, hr, strncmp_eq_zero_iff key rest r.data hkey]

/-- The invariant: the chains hold exactly the last records of the keys set so far. -/
structure Tracks (hash : Bytes → UInt32) (s : Store) (chain : UInt32 → List Addr) : Prop where
  wf : WellFormed s.table chain
  stored : ∀ key a value, s.last key = some (a, value) → NulFree key ∧
    a ∈ chain (s.table.bucket (hash key)) ∧ s.table.heap.payload a =
      some (key.length, value.length, key ++ value ++ List.replicate (dataPad + 2) 0)
  owner : ∀ b, ∀ a ∈ chain b, ∃ key value, s.last key = some (a, value)

namespace Tracks

variable {hash : Bytes → UInt32} {s : Store} {chain : UInt32 → List Addr}

theorem init (hash : Bytes → UInt32) (hashmask : UInt32) :
    Tracks hash (.init hashmask) fun _ => [] where
  wf := .init hashmask
  stored _ _ _ h := by cases h
  owner _ _ h := absurd h List.not_mem_nil

theorem fresh_notMem (tr : Tracks hash s chain) (b : UInt32) : s.table.heap.fresh ∉ chain b :=
  tr.wf.fresh_notMem b

theorem owner_unique (tr : Tracks hash s chain) {k k' : Bytes} {a : Addr} {v v' : Bytes}
    (h : s.last k = some (a, v)) (h' : s.last k' = some (a, v')) : k = k' := by
  have hp := (tr.stored k a v h).2.2.symm.trans (tr.stored k' a v' h').2.2
  simp only [Option.some.injEq, Prod.mk.injEq, List.append_assoc] at hp
  exact (List.append_inj hp.2.2 hp.1).1

theorem own_of_accepts (tr : Tracks hash s chain) {k k' : Bytes} {a : Addr} {v' : Bytes}
    (hk : NulFree k) (h' : s.last k' = some (a, v')) (hlen : k'.length = k.length)
    (hacc : s.table.heap.accepts k k.length a = true) : k' = k := by
  have hp := (tr.stored k' a v' h').2.2
  have hpre : k <+: k' ++ v' ++ List.replicate (dataPad + 2) 0 := by
    rw [← Heap.accepts_iff hp k [] hk]
    simpa using hacc
  have hpre' : k' <+: k' ++ v' ++ List.replicate (dataPad + 2) 0 := by simp
  exact (List.prefix_of_prefix_length_le hpre' hpre hlen.le).eq_of_length hlen

theorem own_accepted (tr : Tracks hash s chain) {k : Bytes} {a : Addr} {v : Bytes}
    (h : s.last k = some (a, v)) : s.table.heap.accepts k k.length a = true := by
  have hst := tr.stored k a v h
  have hacc := (Heap.accepts_iff hst.2.2 k [] hst.1).mpr (by simp)
  simpa using hacc

/-- In a tracked state the side condition says that the accepted record is the key's own. -/
theorem unambiguous_iff (tr : Tracks hash s chain) {c : Call} (hc : NulFree c.key) :
    Unambiguous hash s c ↔
      ∀ a ∈ (chain (s.table.bucket (hash c.key))).find? (s.table.heap.accepts c.key c.key.length),
        ∃ v, s.last c.key = some (a, v) := by
  rw [Unambiguous, tr.wf.records]
  refine forall₂_congr fun a ha => ?_
  obtain ⟨k', v', h'⟩ := tr.owner _ a (List.mem_of_find?_eq_some ha)
  have hkeylen : (s.table.heap.block a).map KVdata.keylen = some k'.length := by
    obtain ⟨r, hr, hd⟩ := Option.map_eq_some_iff.mp (tr.stored k' a v' h').2.2
    simp only [Prod.mk.injEq] at hd
    simp [hr, hd.1]
  rw [hkeylen, Option.some.injEq]
  constructor
  · intro hlen
    obtain rfl := tr.own_of_accepts hc h' hlen (List.find?_some ha)
    exact ⟨v', h'⟩
  · rintro ⟨v, h⟩
    rw [tr.owner_unique h' h]

/-- What `get` finds is the last record of the key, unless another key's record is in the way. -/
theorem find_eq_last (tr : Tracks hash s chain) {k : Bytes}
    (hown : ∀ a ∈ (chain (s.table.bucket (hash k))).find? (s.table.heap.accepts k k.length),
      ∃ v, s.last k = some (a, v)) :
    (chain (s.table.bucket (hash k))).find? (s.table.heap.accepts k k.length) =
      (s.last k).map Prod.fst := by
  cases hfind : (chain (s.table.bucket (hash k))).find? (s.table.heap.accepts k k.length) with
  | some a =>
    obtain ⟨v, hv⟩ := hown a hfind
    simp [hv]
  | none =>
    cases hlast : s.last k with
    | none => rfl
    | some av =>
      have hmem := (tr.stored k av.1 av.2 hlast).2.1
      exact absurd (tr.own_accepted hlast) (List.find?_eq_none.mp hfind av.1 hmem)

theorem get_answers_iff (tr : Tracks hash s chain) {k : Bytes} (hk : NulFree k) :
    Answers hash s (.get k) ↔ Unambiguous hash s (.get k) := by
  rw [tr.unambiguous_iff (c := .get k) hk]
  simp only [Answers, AHashTable.get_spec tr.wf, Call.key, Option.some.injEq]
  constructor
  · rintro ⟨hget, -⟩ a ha
    rw [hget] at ha
    obtain ⟨⟨a', v⟩, hv, rfl⟩ := Option.map_eq_some_iff.mp ha
    exact ⟨v, hv⟩
  · intro hown
    exact ⟨tr.find_eq_last hown, fun a value h => (tr.stored k a value h).2.2⟩

theorem set_step (tr : Tracks hash s chain) {k : Bytes} (hk : NulFree k) (v : Bytes) :
    ∃ s', step hash s (.set k v) = some s' ∧
      (∀ x, s'.table.bucket x = s.table.bucket x) ∧
      s'.last = Function.update s.last k (some (s.table.heap.fresh, v)) ∧
      WellFormed s'.table (Function.update chain (s.table.bucket (hash k))
        (placed (s.table.heap.accepts k k.length) s.table.heap.fresh
          (chain (s.table.bucket (hash k))))) ∧
      s'.table.heap.payload = AHashTable.released (chain (s.table.bucket (hash k)))
        (s.table.heap.accepts k k.length) (Function.update s.table.heap.payload s.table.heap.fresh
          (some (k.length, v.length, k ++ v ++ List.replicate (dataPad + 2) 0))) := by
  obtain ⟨t', hset, hmask, hwf, hpay, -⟩ := AHashTable.set_spec (tr.wf.malloc k v)
    (show (s.table.malloc k v).heap.block s.table.heap.fresh = some (setRecord k v) by
      simp [AHashTable.malloc, Heap.malloc]) tr.fresh_notMem
    (by simp [AHashTable.malloc, Heap.malloc]) (hash k)
  have hacc : ∀ a ∈ chain (s.table.bucket (hash k)),
      (s.table.malloc k v).heap.accepts (setRecord k v).data (setRecord k v).keylen a =
        s.table.heap.accepts k k.length a := by
    intro a ha
    obtain ⟨k', v', h'⟩ := tr.owner _ a ha
    have hp := (tr.stored k' a v' h').2.2
    have hp' : (s.table.malloc k v).heap.payload a = s.table.heap.payload a := by
      rw [payload_malloc, Function.update_of_ne (ne_of_mem_of_not_mem ha (tr.fresh_notMem _))]
    have hleft := Heap.accepts_iff (hp'.trans hp) k (v ++ List.replicate (dataPad + 2) 0) hk
    have hright := Heap.accepts_iff hp k [] hk
    rw [← List.append_assoc] at hleft
    rw [List.append_nil] at hright
    exact Bool.eq_iff_iff.mpr (hleft.trans hright.symm)
  have hbucket : (s.table.malloc k v).bucket (hash k) = s.table.bucket (hash k) := rfl
  rw [hbucket, placed_congr hacc] at hwf
  rw [hbucket, payload_malloc, AHashTable.released, List.find?_congr hacc] at hpay
  refine ⟨_, by rw [step, hset]; rfl, fun x => ?_, rfl, hwf, hpay⟩
  rw [AHashTable.bucket, AHashTable.bucket, hmask]
  rfl

theorem fresh_notFound (tr : Tracks hash s chain) (b : UInt32) (p : Addr → Bool) :
    (chain b).find? p ≠ some s.table.heap.fresh := fun hf =>
  tr.fresh_notMem b (List.mem_of_find?_eq_some hf)

theorem set_keeps (tr : Tracks hash s chain) {k other : Bytes} {a : Addr} {v v' : Bytes}
    (hk : NulFree k) {s' : Store} (hs' : step hash s (.set k v) = some s')
    (h : s.last other = some (a, v'))
    (hne : (chain (s.table.bucket (hash k))).find? (s.table.heap.accepts k k.length) ≠ some a) :
    a ∈ s'.table.records (s'.table.bucket (hash other)) ∧
      s'.table.heap.payload a = s.table.heap.payload a := by
  obtain ⟨_, hstep, hbucket, -, hwf, hpay⟩ := tr.set_step hk v
  obtain rfl := Option.some.inj (hstep.symm.trans hs')
  have ha := (tr.stored other a v' h).2.1
  have hafresh : a ≠ s.table.heap.fresh := ne_of_mem_of_not_mem ha (tr.fresh_notMem _)
  constructor
  · rw [hwf.records, hbucket]
    by_cases hb : s.table.bucket (hash other) = s.table.bucket (hash k)
    · rw [hb] at ha
      rw [hb, Function.update_self, mem_placed (tr.wf.nodup _) (tr.fresh_notMem _)]
      exact .inr ⟨ha, hne⟩
    · rw [Function.update_of_ne hb]
      exact ha
  · rw [hpay, AHashTable.released_of_ne hne, Function.update_of_ne hafresh]

theorem set_answers_iff (tr : Tracks hash s chain) {k : Bytes} (hk : NulFree k) (v : Bytes) :
    Answers hash s (.set k v) ↔ Unambiguous hash s (.set k v) := by
  rw [tr.unambiguous_iff (c := .set k v) hk]
  simp only [Call.key]
  constructor
  · rintro ⟨s', hs', hkeep⟩ a ha
    obtain ⟨k', v', h'⟩ := tr.owner _ a (List.mem_of_find?_eq_some ha)
    by_cases hkk : k' = k
    · exact ⟨v', hkk ▸ h'⟩
    · -- the record of another key would have been released
      obtain ⟨_, hstep, -, -, -, hpay⟩ := tr.set_step hk v
      obtain rfl := Option.some.inj (hstep.symm.trans hs')
      have hgone := (hkeep k' hkk a v' h').2
      rw [hpay, AHashTable.released_of_eq ha, (tr.stored k' a v' h').2.2] at hgone
      cases hgone
  · intro hown
    obtain ⟨s', hs', -⟩ := tr.set_step hk v
    refine ⟨s', hs', fun other hne a v' h' => tr.set_keeps hk hs' h' fun hfind => ?_⟩
    obtain ⟨v'', h''⟩ := hown a hfind
    exact hne (tr.owner_unique h' h'')

theorem set_tracks (tr : Tracks hash s chain) {k v : Bytes} (hk : NulFree k)
    (hun : Unambiguous hash s (.set k v)) {s' : Store} (hs' : step hash s (.set k v) = some s') :
    ∃ chain', Tracks hash s' chain' := by
  obtain ⟨_, hstep, hbucket, hlast, hwf, hpay⟩ := tr.set_step hk v
  obtain rfl := Option.some.inj (hstep.symm.trans hs')
  have hown := (tr.unambiguous_iff (c := .set k v) hk).mp hun
  refine ⟨_, hwf, ?_, ?_⟩
  · intro k' a v' h'
    rw [hlast] at h'
    by_cases hkk : k' = k
    · subst k'
      rw [Function.update_self] at h'
      obtain ⟨rfl, rfl⟩ : s.table.heap.fresh = a ∧ v = v' := by simpa using h'
      refine ⟨hk, ?_, ?_⟩
      · rw [hbucket, Function.update_self]
        exact (mem_placed (tr.wf.nodup _) (tr.fresh_notMem _)).mpr (.inl rfl)
      · rw [hpay, AHashTable.released_of_ne (tr.fresh_notFound _ _), Function.update_self]
    · rw [Function.update_of_ne hkk] at h'
      have hst := tr.stored k' a v' h'
      obtain ⟨hmem, hsame⟩ := tr.set_keeps hk hs' h' fun hfind => by
        obtain ⟨v'', h''⟩ := hown a hfind
        exact hkk (tr.owner_unique h' h'')
      exact ⟨hst.1, hwf.records _ ▸ hmem, hsame.trans hst.2.2⟩
  · intro b a ha
    rw [hlast]
    have hold {c : UInt32} (hac : a ∈ chain c) (hrel : c = s.table.bucket (hash k) →
        (chain c).find? (s.table.heap.accepts k k.length) ≠ some a) :
        ∃ key value, Function.update s.last k (some (s.table.heap.fresh, v)) key =
          some (a, value) := by
      obtain ⟨k', v', h'⟩ := tr.owner c a hac
      have hkk : k' ≠ k := by
        rintro rfl
        obtain rfl : c = s.table.bucket (hash k') := by
          by_contra hcb
          exact tr.wf.disjoint _ _ hcb a hac (tr.stored k' a v' h').2.1
        have hlast' := tr.find_eq_last hown
        rw [Call.key, h'] at hlast'
        exact hrel rfl hlast'
      exact ⟨k', v', by rw [Function.update_of_ne hkk, h']⟩
    by_cases hb : b = s.table.bucket (hash k)
    · rw [hb, Function.update_self, mem_placed (tr.wf.nodup _) (tr.fresh_notMem _)] at ha
      rcases ha with rfl | ⟨ha, hne⟩
      · exact ⟨k, v, Function.update_self ..⟩
      · exact hold ha fun _ => hne
    · rw [Function.update_of_ne hb] at ha
      exact hold ha fun he => absurd he hb

theorem answers_iff (tr : Tracks hash s chain) {c : Call} (hc : c.Valid) :
    Answers hash s c ↔ Unambiguous hash s c := by
  cases c with
  | set k v => exact tr.set_answers_iff hc.2 v
  | get k => exact tr.get_answers_iff hc.2

theorem step_tracks (tr : Tracks hash s chain) {c : Call} (hc : c.Valid)
    (hun : Unambiguous hash s c) {s' : Store} (hs' : step hash s c = some s') :
    ∃ chain', Tracks hash s' chain' := by
  cases c with
  | set k v => exact tr.set_tracks hc.2 hun hs'
  | get k =>
    obtain ⟨_, -, rfl⟩ := Option.map_eq_some_iff.mp hs'
    exact ⟨chain, tr⟩

end Tracks

/-- Over every sequence of calls on an empty table, every call is answered as by a map on whole
keys if and only if every call is made in a state where the first record it accepts was stored
under a key of the length of its own. -/
theorem answers_wholeKeys_iff (hash : Bytes → UInt32) (hashmask : UInt32) (calls : List Call)
    (hcalls : ∀ c ∈ calls, c.Valid) :
    Guarded (step hash) (Answers hash) (.init hashmask) calls ↔
      Guarded (step hash) (Unambiguous hash) (.init hashmask) calls := by
  refine guarded_congr (fun s => ∃ chain, Tracks hash s chain) ?_ ?_
    ⟨_, Tracks.init hash hashmask⟩ hcalls
  · rintro s c ⟨chain, tr⟩ hc
    exact tr.answers_iff hc
  · rintro s c t ⟨chain, tr⟩ hc hun hstep
    exact tr.step_tracks hc hun hstep

/-- Two keys in one bucket, neither beginning as the other one's record does. -/
theorem answers_wholeKeys_two :
    Guarded (step fun _ => 7) (Answers fun _ => 7) (.init 65535)
      [.set [97] [120], .set [98] [121], .set [97] [122], .get [98], .get [97]] :=
  (answers_wholeKeys_iff (fun _ => 7) 65535 _ (by simp [Call.Valid, Call.key, NulFree])).mpr
    (by decide)

/-- With the record of key `a` and value `b` in its bucket, a `get` of the key `ab`, which was
never set, returns that record. -/
theorem answers_wholeKeys_fails :
    ¬ Guarded (step fun _ => 7) (Answers fun _ => 7) (.init 65535)
      [.set [97] [98], .get [97, 98]] := by
  intro h
  obtain ⟨s, hs⟩ : ∃ s, step (fun _ => 7) (.init 65535) (.set [97] [98]) = some s := ⟨_, rfl⟩
  have hget : s.table.get [97, 98] 2 7 = some (some 0) := by
    obtain rfl := Option.some.inj hs
    decide
  have hlast : s.last [97, 98] = none := by
    obtain rfl := Option.some.inj hs
    decide
  have hans := (h.2 s hs).1.1
  rw [hlast] at hans
  exact absurd (hget.symm.trans hans) (by decide)

end Acached.HashTable
