import Acached.Server.Reference
import Acached.HashTable.WholeKeys

/-! # The table as the store of the clients

A worker stores the value of a set in a record of its own, and for a key of a
get it writes a line end into the record that it found. As long as no key goes
on as the value of another one of its bucket does, the records are the values
of the keys, whichever of them have been read before.
-/
namespace Acached.Server
open CString HashTable Receive

/-- What follows the value in a record: the zeros of a new one, or the line end of a reply. -/
inductive Tail : Bytes → Prop where
  | zeros : Tail (List.replicate (dataPad + 2) 0)
  | line : Tail (Reply.crlf ++ List.replicate dataPad 0)

theorem Tail.first {tail : Bytes} (h : Tail tail) : ∃ b rest, tail = b :: rest ∧ (b = 0 ∨ b = 13) := by
  cases h
  · exact ⟨0, _, rfl, .inl rfl⟩
  · exact ⟨13, _, rfl, .inr rfl⟩

theorem Tail.after_line {tail : Bytes} (h : Tail tail) :
    tail.drop 2 = List.replicate dataPad 0 := by
  cases h
  · rfl
  · rfl

theorem nulFree_of_key {key : Bytes} (h : Key key) : NulFree key := fun b hb => (h.1.2 b hb).1

/-- A key that a record begins with ends before the tail. -/
theorem Tail.prefix_of {key front tail : Bytes} (h : Tail tail) (hkey : Key key)
    (hfront : key <+: front ++ tail) : key <+: front := by
  by_cases hle : key.length ≤ front.length
  · exact (List.isPrefix_append_of_length hle).mp hfront
  · obtain ⟨behind, rfl⟩ := List.prefix_of_prefix_length_le (List.prefix_append front tail) hfront
      (Nat.le_of_not_le hle)
    obtain ⟨b, rest, rfl, hb⟩ := h.first
    cases behind with
    | nil => rw [List.append_nil]
    | cons c behind =>
      obtain ⟨rfl, -⟩ := List.cons_prefix_cons.mp ((List.prefix_append_right_inj front).mp hfront)
      have hword := hkey.1.2 c (by simp)
      rcases hb with rfl | rfl
      · exact absurd rfl hword.1
      · exact absurd rfl hword.2.2.1

/-- The records are those of the keys, each with what it was stored with last. -/
structure Holds (hash : Bytes → UInt32) (t : AHashTable) (last : Bytes → Option (Addr × Bytes))
    (chain : UInt32 → List Addr) : Prop where
  wf : WellFormed t chain
  stored : ∀ key a value, last key = some (a, value) → Key key ∧
    a ∈ chain (t.bucket (hash key)) ∧
      ∃ tail, Tail tail ∧ t.heap.payload a = some (key.length, value.length, key ++ value ++ tail)
  owner : ∀ b, ∀ a ∈ chain b, ∃ key value, last key = some (a, value)

/-- No other key of the bucket goes on, with its value, as `key` begins. -/
def Apart (hash : Bytes → UInt32) (hashmask : UInt32) (last : Bytes → Option (Addr × Bytes))
    (key : Bytes) : Prop :=
  ∀ other a value, last other = some (a, value) → hash other &&& hashmask = hash key &&& hashmask →
    key <+: other ++ value → other = key

namespace Holds

variable {hash : Bytes → UInt32} {t : AHashTable} {last : Bytes → Option (Addr × Bytes)}
  {chain : UInt32 → List Addr} {key value : Bytes} {a : Addr}

theorem init (hash : Bytes → UInt32) (hashmask : UInt32) :
    Holds hash (.init hashmask) (fun _ => none) fun _ => [] where
  wf := .init hashmask
  stored _ _ _ h := by cases h
  owner _ _ h := absurd h List.not_mem_nil

theorem bucket_of_mem (h : Holds hash t last chain) (hlast : last key = some (a, value))
    {b : UInt32} (ha : a ∈ chain b) : b = t.bucket (hash key) := by
  by_contra hne
  exact h.wf.disjoint _ _ hne a ha (h.stored key a value hlast).2.1

/-- Of the records of a bucket, a key that is apart is accepted by its own only. -/
theorem accepts_iff (h : Holds hash t last chain) (hkey : Key key)
    (hapart : Apart hash t.hashmask last key) (rest : Bytes) (ha : a ∈ chain (t.bucket (hash key))) :
    t.heap.accepts (key ++ rest) key.length a = true ↔ ∃ v, last key = some (a, v) := by
  obtain ⟨other, v, hlast⟩ := h.owner _ a ha
  obtain ⟨-, -, tail, htail, hpay⟩ := h.stored other a v hlast
  rw [Heap.accepts_iff hpay key rest (nulFree_of_key hkey)]
  constructor
  · intro hfront
    obtain rfl := hapart other a v hlast (h.bucket_of_mem hlast ha).symm (htail.prefix_of hkey hfront)
    exact ⟨v, hlast⟩
  · rintro ⟨v', hlast'⟩
    obtain ⟨-, -, tail', -, hpay'⟩ := h.stored key a v' hlast'
    have hdata := (Prod.mk.inj (Prod.mk.inj (Option.some.inj (hpay.symm.trans hpay'))).2).2
    rw [hdata, List.append_assoc]
    exact List.prefix_append _ _

theorem find_eq (h : Holds hash t last chain) (hkey : Key key) (hapart : Apart hash t.hashmask last key)
    (rest : Bytes) : (chain (t.bucket (hash key))).find? (t.heap.accepts (key ++ rest) key.length) =
      (last key).map Prod.fst := by
  cases hfind : (chain (t.bucket (hash key))).find? (t.heap.accepts (key ++ rest) key.length) with
  | some a =>
    obtain ⟨v, hv⟩ := (h.accepts_iff hkey hapart rest (List.mem_of_find?_eq_some hfind)).mp
      (List.find?_some hfind)
    rw [hv]
    rfl
  | none =>
    cases hlast : last key with
    | none => rfl
    | some av =>
      have hmem := (h.stored key av.1 av.2 hlast).2.1
      have hacc := (h.accepts_iff hkey hapart rest hmem).mpr ⟨av.2, hlast⟩
      exact absurd hacc (List.find?_eq_none.mp hfind av.1 hmem)

theorem owner_unique (h : Holds hash t last chain) {other v : Bytes}
    (hkey : last key = some (a, value)) (hother : last other = some (a, v)) : key = other := by
  obtain ⟨-, -, tail, -, hpay⟩ := h.stored key a value hkey
  obtain ⟨-, -, tail', -, hpay'⟩ := h.stored other a v hother
  have hsame := hpay.symm.trans hpay'
  simp only [Option.some.injEq, Prod.mk.injEq, List.append_assoc] at hsame
  exact (List.append_inj hsame.2.2 hsame.1).1

theorem fresh_ne (h : Holds hash t last chain) {b : UInt32} (ha : a ∈ chain b) :
    a ≠ t.heap.fresh := ne_of_mem_of_not_mem ha (h.wf.fresh_notMem b)

theorem malloc (h : Holds hash t last chain) (key value : Bytes) :
    Holds hash (t.malloc key value) last chain where
  wf := h.wf.malloc key value
  stored k a v hlast := by
    obtain ⟨hk, ha, tail, htail, hpay⟩ := h.stored k a v hlast
    refine ⟨hk, ha, tail, htail, ?_⟩
    rw [payload_malloc, Function.update_of_ne (h.fresh_ne ha), hpay]
  owner := h.owner

/-- The record of a key that is apart takes the place of the one that the key had. -/
theorem set (h : Holds hash t last chain) (hkey : Key key) (hapart : Apart hash t.hashmask last key)
    (value : Bytes) :
    ∃ t' chain', (t.malloc key value).set (hash key) t.heap.fresh = some t' ∧
      t'.hashmask = t.hashmask ∧
        Holds hash t' (Function.update last key (some (t.heap.fresh, value))) chain' := by
  have hmalloc := h.malloc key value
  obtain ⟨t', hset, hmask, hwf, hpay, -⟩ := AHashTable.set_spec hmalloc.wf
    (show (t.malloc key value).heap.block t.heap.fresh = some (setRecord key value) by
      simp [AHashTable.malloc, Heap.malloc]) h.wf.fresh_notMem
    (by simp [AHashTable.malloc, Heap.malloc]) (hash key)
  have hfind : (chain (t.bucket (hash key))).find?
      ((t.malloc key value).heap.accepts (setRecord key value).data key.length) =
        (last key).map Prod.fst := by
    have hdata : (setRecord key value).data =
        key ++ (value ++ List.replicate (dataPad + 2) 0) := List.append_assoc ..
    rw [hdata]
    exact hmalloc.find_eq hkey hapart _
  have hbucket : (t.malloc key value).bucket (hash key) = t.bucket (hash key) := rfl
  have hlen : (setRecord key value).keylen = key.length := rfl
  rw [hbucket, hlen] at hwf
  rw [hbucket, hlen, payload_malloc] at hpay
  have hbuckets (x : UInt32) : t'.bucket x = t.bucket x := by
    unfold AHashTable.bucket
    rw [hmask]
    rfl
  -- the new record is not the one that was released
  have hnew : (chain (t.bucket (hash key))).find?
      ((t.malloc key value).heap.accepts (setRecord key value).data key.length) ≠
        some t.heap.fresh := fun hf => h.wf.fresh_notMem _ (List.mem_of_find?_eq_some hf)
  have hold {k v : Bytes} {a : Addr} (hne : k ≠ key) (hlast : last k = some (a, v)) :
      (chain (t.bucket (hash key))).find?
        ((t.malloc key value).heap.accepts (setRecord key value).data key.length) ≠ some a := by
    rw [hfind]
    intro hmap
    obtain ⟨⟨a', v'⟩, hlast', rfl⟩ := Option.map_eq_some_iff.mp hmap
    exact hne (h.owner_unique hlast hlast')
  refine ⟨t', _, hset, hmask, hwf, ?_, ?_⟩
  · intro k a v hlast
    rw [hbuckets]
    by_cases hk : k = key
    · subst hk
      rw [Function.update_self] at hlast
      obtain ⟨rfl, rfl⟩ := Prod.mk.inj (Option.some.inj hlast)
      refine ⟨hkey, ?_, _, .zeros, ?_⟩
      · rw [Function.update_self]
        exact (mem_placed (h.wf.nodup _) (h.wf.fresh_notMem _)).mpr (.inl rfl)
      · rw [hpay, AHashTable.released_of_ne hnew, Function.update_self]
    · rw [Function.update_of_ne hk] at hlast
      obtain ⟨hkk, ha, tail, htail, hpayload⟩ := h.stored k a v hlast
      refine ⟨hkk, ?_, tail, htail, ?_⟩
      · by_cases hb : t.bucket (hash k) = t.bucket (hash key)
        · rw [hb] at ha
          rw [hb, Function.update_self]
          exact (mem_placed (h.wf.nodup _) (h.wf.fresh_notMem _)).mpr (.inr ⟨ha, hold hk hlast⟩)
        · rw [Function.update_of_ne hb]
          exact ha
      · rw [hpay, AHashTable.released_of_ne (hold hk hlast), Function.update_of_ne (h.fresh_ne ha),
          hpayload]
  · intro b a ha
    have hkept (ha : a ∈ chain b) (hrel : ∀ v, last key ≠ some (a, v)) :
        ∃ k v, Function.update last key (some (t.heap.fresh, value)) k = some (a, v) := by
      obtain ⟨k, v, hlast⟩ := h.owner b a ha
      have hk : k ≠ key := by
        rintro rfl
        exact hrel v hlast
      exact ⟨k, v, by rw [Function.update_of_ne hk, hlast]⟩
    by_cases hb : b = t.bucket (hash key)
    · subst hb
      rw [Function.update_self, mem_placed (h.wf.nodup _) (h.wf.fresh_notMem _), hfind] at ha
      rcases ha with rfl | ⟨ha, hne⟩
      · exact ⟨key, value, Function.update_self ..⟩
      · exact hkept ha fun v heq => hne (by rw [heq]; rfl)
    · rw [Function.update_of_ne hb] at ha
      exact hkept ha fun v heq => hb (h.bucket_of_mem heq ha)

end Holds

/-! ## Keys of a get -/

/-- `ahashtable::get` for a message, and what `QReply` does with the record that it finds: it makes the
`VALUE` line, writes a line end behind the value, and passes on both. -/
def lookup (t : AHashTable) (aM : Dispatch.AMsg) :
    Option (AHashTable × Option (Addr × Bytes × Bytes)) := do
  match ← t.get aM.key aM.keylen aM.hashval with
  | none => return (t, none)
  | some a =>
    let kv ← t.heap.block a
    let heap ← t.heap.modify a Reply.terminate
    let written ← heap.block a
    return ({ t with heap := heap },
      some (a, Reply.valueLine aM.key kv.vallen, (written.data.drop kv.keylen).take (kv.vallen + 2)))

def keyMessage (hash : Bytes → UInt32) (key : Bytes) : Dispatch.AMsg :=
  (Dispatch.AMsg.init .gets).msgHdrIN_Init hash key

namespace Holds

variable {hash : Bytes → UInt32} {t : AHashTable} {last : Bytes → Option (Addr × Bytes)}
  {chain : UInt32 → List Addr} {key : Bytes}

/-- A key of a get has its last value as the answer, or none, and the records hold what they held. -/
theorem lookup (h : Holds hash t last chain) (hkey : Key key)
    (hapart : Apart hash t.hashmask last key) :
    ∃ t', Server.lookup t (keyMessage hash key) = some (t', (last key).map fun r =>
        (r.1, Reply.valueLine key r.2.length, r.2 ++ Reply.crlf)) ∧
      t'.hashmask = t.hashmask ∧ Holds hash t' last chain := by
  have hget : t.get key key.length (hash key) = some ((last key).map Prod.fst) := by
    have hfind := h.find_eq hkey hapart []
    rw [List.append_nil] at hfind
    rw [AHashTable.get_spec h.wf, hfind]
  unfold Server.lookup
  change ∃ t', (t.get key key.length (hash key)).bind _ = _ ∧ _
  rw [hget, Option.bind_some]
  cases hlast : last key with
  | none => exact ⟨t, rfl, rfl, h⟩
  | some r =>
    obtain ⟨a, value⟩ := r
    obtain ⟨-, ha, tail, htail, hpay⟩ := h.stored key a value hlast
    obtain ⟨r, hr, hfields⟩ := Option.map_eq_some_iff.mp hpay
    simp only [Prod.mk.injEq] at hfields
    obtain ⟨hkeylen, hvallen, hdata⟩ := hfields
    obtain ⟨heap, hmodify, hblock, hlinks, hpayload, hfresh⟩ :=
      Heap.modify_data hr Reply.terminate ⟨rfl, rfl, rfl, rfl⟩
    have hlen : (key ++ value).length = key.length + value.length := List.length_append
    have hterminated : (Reply.terminate r).data =
        key ++ value ++ (Reply.crlf ++ List.replicate dataPad 0) := by
      simp only [Reply.terminate, hkeylen, hvallen, hdata, ← hlen]
      rw [List.take_left, List.drop_length_add_append, htail.after_line, List.append_assoc]
    refine ⟨{ t with heap := heap }, ?_, rfl, ?_⟩
    · have hmsg : (keyMessage hash key).key = key := rfl
      simp only [Option.map_some, hr, hmodify, hblock, Option.bind_eq_bind, Option.bind_some,
        Option.pure_def, hterminated, hkeylen, hvallen, hmsg, List.append_assoc]
      rw [List.drop_left, ← List.append_assoc, List.take_left' (by simp [Reply.crlf])]
    · refine ⟨h.wf.heap hlinks hfresh, ?_, h.owner⟩
      intro k x v hk
      obtain ⟨hkk, hx, tail', htail', hpay'⟩ := h.stored k x v hk
      refine ⟨hkk, hx, ?_⟩
      by_cases hxa : x = a
      · subst hxa
        obtain rfl := h.owner_unique hlast hk
        obtain ⟨-, rfl⟩ := Prod.mk.inj (Option.some.inj (hlast.symm.trans hk))
        refine ⟨_, .line, ?_⟩
        dsimp only
        rw [hpayload, Function.update_self, hkeylen, hvallen, hterminated]
      · refine ⟨tail', htail', ?_⟩
        dsimp only
        rw [hpayload, Function.update_of_ne hxa, hpay']

end Holds
end Acached.Server
