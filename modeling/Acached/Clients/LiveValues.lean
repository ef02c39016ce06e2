import Acached.Clients.System
import Acached.Sockets.OwnSocket
import Mathlib.Data.Fintype.Basic

/-! # Queued replies and the records they point into

`QReply` queues a value without copying it, and the entry outlives both the
lock of the table and the message. As long as no `set` replaces a record that
an unsent entry or a worker still refers to, every unsent entry points into a
record that is allocated and reads the value that the record had when it was
looked up, up to the moment it is sent.
-/
namespace Acached.Clients
open CString Dispatch HashTable Reply Worker Execution

/-- The value that a worker has still to queue, when it is in `QReply`. -/
def toQueue : Pc → Option Bytes
  | .qreply (.reserve _ val) | .qreply (.fillHdr _ _ val) | .qreply (.fillVal _ _ val) => some val
  | _ => none

/-- The worker is between its lookup and the entry of the value. -/
def UsesRecord : Pc → Prop
  | .lookup _ => True
  | pc => (toQueue pc).isSome

instance : DecidablePred UsesRecord
  | .lookup _ => isTrue trivial
  | .qreply q => inferInstanceAs (Decidable ((toQueue (.qreply q)).isSome = true))
  | .idle | .setIndex | .setAdd _ | .setSend | .setRelease | .incr | .readPending | .readReq | .swap _
  | .compare _ | .clearReq | .endIndex | .endAdd _ | .endTotal _ | .endZero _ | .endWindow _
  | .endWait .. | .endScan .. | .endFlag .. | .endWrite .. | .reset .. | .endFree _ | .getRelease
  | .test | .write => isFalse Bool.false_ne_true

section
variable {O W : Type}

/-- Every unsent entry reads what it was queued for, from memory that is not released, and so did
every `sendmsg` that took bytes of one. -/
structure LiveValues (s : System O W) : Prop where
  entries : ∀ o, ∀ i ∈ s.unsent o,
    (s.source o i).bytes s.table.heap = some ((s.base.reply o).iovec i)
  read : ∀ p ∈ s.read, p.1 = some p.2

namespace System

/-- The record that a worker has found and not yet queued. -/
def held (s : System O W) (w : W) : Option Addr :=
  match s.kept w with
  | .found a _ => (s.base.worker w).bind fun j => if UsesRecord j.pc then some a else none
  | _ => none

def Refers (s : System O W) (a : Addr) : Prop :=
  (∃ w, s.held w = some a) ∨ ∃ o, ∃ i ∈ s.unsent o, (s.source o i).record = some a

end System

/-- The record that `set` replaces: the first one of the bucket that its traversal accepts. -/
def replaced (t : AHashTable) (aM : AMsg) : Option Addr :=
  (t.records (t.bucket aM.hashval)).find? (t.heap.accepts
    (setRecord (aM.key.take aM.keylen) (aM.cmdptr.take aM.vallen)).data (aM.key.take aM.keylen).length)

/-- A `set` does not replace a record that something still refers to. -/
def Spares (s : System O W) : Act O W → Prop
  | .set w => ∀ j ∈ s.base.worker w, ∀ a ∈ replaced s.table j.message.aM, ¬ s.Refers a
  | _ => True

instance [Fintype O] [Fintype W] (s : System O W) (a : Addr) : Decidable (s.Refers a) :=
  inferInstanceAs (Decidable ((∃ _, _) ∨ ∃ o, ∃ i ∈ s.unsent o, _))

instance [Fintype O] [Fintype W] (s : System O W) : ∀ a, Decidable (Spares s a)
  | .set w => inferInstanceAs (Decidable (∀ j ∈ s.base.worker w,
      ∀ a ∈ replaced s.table j.message.aM, ¬ s.Refers a))
  | .get _ | .sockets _ => isTrue trivial

end

/-! ## What records show -/

/-- The record behind an entry that is to send `expected`: the entry runs to the end of the line that
`QReply` made of the value. -/
def Shown (h : Heap) (source : Source) (expected : Bytes) : Prop :=
  match source with
  | .copied bytes => expected = bytes
  | .inRecord a pos len => ∃ k n d, h.payload a = some (k, n, d) ∧ pos + len = k + n + 2 ∧
      (d.drop (k + n)).take 2 = crlf ∧ expected = (d.drop pos).take len

def Held (h : Heap) (a : Addr) (value : Bytes) : Prop :=
  ∃ k n d, h.payload a = some (k, n, d) ∧ value = (d.drop k).take n

def Ended (h : Heap) (a : Addr) : Prop :=
  ∃ k n d, h.payload a = some (k, n, d) ∧ (d.drop (k + n)).take 2 = crlf

/-- Records have room for their key, their value and the line end. -/
structure Stocked (t : AHashTable) : Prop where
  chains : ∃ chain, WellFormed t chain
  fresh : ∀ a, (t.heap.payload a).isSome → a < t.heap.fresh
  room : ∀ a k n d, t.heap.payload a = some (k, n, d) → k + n + 2 ≤ d.length

theorem Shown.bytes {h : Heap} {source : Source} {expected : Bytes} (hs : Shown h source expected) :
    source.bytes h = some expected := by
  unfold Shown at hs
  cases source with
  | copied bytes => exact congrArg some hs.symm
  | inRecord a pos len =>
    obtain ⟨k, n, d, hp, -, -, hexp⟩ := hs
    obtain ⟨r, hr, hrec⟩ := Option.map_eq_some_iff.mp hp
    obtain ⟨-, -, rfl⟩ : r.keylen = k ∧ r.vallen = n ∧ r.data = d := by simpa using hrec
    simp [Source.bytes, hr, hexp]

theorem Shown.congr {h h' : Heap} {source : Source} {expected : Bytes}
    (hs : Shown h source expected) (hp : ∀ a ∈ source.record, h'.payload a = h.payload a) :
    Shown h' source expected := by
  unfold Shown at hs ⊢
  cases source with
  | copied bytes => exact hs
  | inRecord a pos len =>
    obtain ⟨k, n, d, hpay, hrest⟩ := hs
    exact ⟨k, n, d, (hp a rfl).trans hpay, hrest⟩

/-- An entry that was moved on. -/
theorem Shown.drop {h : Heap} {source : Source} {expected : Bytes} (hs : Shown h source expected)
    (n : ℕ) : Shown h (source.drop (expected.length - (expected.drop n).length)) (expected.drop n) := by
  have hlen : expected.length - (expected.drop n).length = min n expected.length := by
    rw [List.length_drop]
    omega
  have hdrop : expected.drop n = expected.drop (min n expected.length) := by
    rcases Nat.le_total n expected.length with hle | hle
    · rw [Nat.min_eq_left hle]
    · rw [Nat.min_eq_right hle, List.drop_length, List.drop_of_length_le hle]
  rw [hlen, hdrop]
  unfold Shown at hs ⊢
  cases source with
  | copied bytes =>
    subst hs
    rfl
  | inRecord a pos len =>
    obtain ⟨k, m, d, hp, hsum, hcrlf, hexp⟩ := hs
    have hle : expected.length ≤ len := by
      rw [hexp]
      exact List.length_take_le _ _
    refine ⟨k, m, d, hp, by omega, hcrlf, ?_⟩
    rw [hexp, List.drop_take, List.drop_drop]

theorem crlf_of_take {d : Bytes} {i : ℕ} (h : (d.drop i).take 2 = crlf) :
    d.take i ++ crlf ++ d.drop (i + 2) = d := by
  rw [← h, List.append_assoc, ← List.drop_drop, List.take_append_drop, List.take_append_drop]

theorem Stocked.init (hashmask : UInt32) : Stocked (.init hashmask) where
  chains := ⟨_, WellFormed.init hashmask⟩
  fresh a h := by simp [Heap.payload, AHashTable.init] at h
  room a k n d h := by simp [Heap.payload, AHashTable.init] at h

theorem Stocked.set {t t' : AHashTable} {key value : Bytes} {hashval : UInt32}
    (stocked : Stocked t) (h : (t.malloc key value).set hashval t.heap.fresh = some t') : Stocked t' ∧
      ∀ a, (t.heap.payload a).isSome → (t.records (t.bucket hashval)).find?
          (t.heap.accepts (setRecord key value).data key.length) ≠ some a →
        t'.heap.payload a = t.heap.payload a := by
  obtain ⟨chain, wf⟩ := stocked.chains
  generalize hvictim : (t.records (t.bucket hashval)).find?
    (t.heap.accepts (setRecord key value).data key.length) = victim
  have hnew : ∀ c, t.heap.fresh ∉ chain c := fun c hc => lt_irrefl _ (wf.fresh c _ hc)
  obtain ⟨t₁, ht₁, -, hwf, hpay, hfresh⟩ := AHashTable.set_spec (wf.malloc key value)
    (show (t.malloc key value).heap.block t.heap.fresh = some (setRecord key value) by
      simp [AHashTable.malloc, Heap.malloc]) hnew (Nat.lt_succ_self _) hashval
  obtain rfl : t₁ = t' := Option.some.inj (ht₁.symm.trans h)
  have hfind : (chain (t.bucket hashval)).find?
      ((t.malloc key value).heap.accepts (setRecord key value).data key.length) =
      victim := by
    rw [← hvictim, wf.records]
    refine List.find?_congr fun a ha => ?_
    simp [Heap.accepts, AHashTable.malloc, Heap.malloc, (wf.fresh _ a ha).ne]
  have hsame (a : Addr) (ha : a ≠ t.heap.fresh) (hne : victim ≠ some a) :
      t₁.heap.payload a = t.heap.payload a := by
    rw [hpay, AHashTable.released_of_ne (hfind ▸ hne), payload_malloc, Function.update_of_ne ha]
  have hgone (a : Addr) (hne : victim = some a) :
      t₁.heap.payload a = none := by
    rw [hpay]
    exact AHashTable.released_of_eq (hfind.trans hne)
  have hfull (a : Addr) (k n : ℕ) (d : Bytes) (ha : t₁.heap.payload a = some (k, n, d)) :
      a = t.heap.fresh ∧ (k, n, d) = (key.length, value.length,
        key ++ value ++ List.replicate (dataPad + 2) 0) ∨ t.heap.payload a = some (k, n, d) := by
    have hne : victim ≠ some a := fun he => by simp [hgone a he] at ha
    by_cases hafresh : a = t.heap.fresh
    · subst a
      rw [hpay, AHashTable.released_of_ne (hfind ▸ hne), payload_malloc, Function.update_self,
        Option.some.injEq] at ha
      exact .inl ⟨rfl, ha.symm⟩
    · exact .inr (hsame a hafresh hne ▸ ha)
  refine ⟨⟨⟨_, hwf⟩, ?_, ?_⟩, ?_⟩
  · intro a ha
    obtain ⟨⟨k, n, d⟩, hd⟩ := Option.isSome_iff_exists.mp ha
    rw [hfresh]
    rcases hfull a k n d hd with ⟨rfl, -⟩ | hold
    · exact Nat.lt_succ_self _
    · exact Nat.lt_succ_of_lt (stocked.fresh a (by simp [hold]))
  · intro a k n d hd
    rcases hfull a k n d hd with ⟨-, heq⟩ | hold
    · obtain ⟨rfl, rfl, rfl⟩ : k = _ ∧ n = _ ∧ d = _ := by simpa using heq
      simp only [List.length_append, List.length_replicate, dataPad]
      omega
    · exact stocked.room a k n d hold
  · exact fun a ha hne => hsame a (stocked.fresh a ha).ne hne

theorem Stocked.terminate {t : AHashTable} {a : Addr} {h : Heap} {kv : KVdata}
    (stocked : Stocked t) (hkv : t.heap.block a = some kv)
    (hh : t.heap.modify a terminate = some h) : Stocked { t with heap := h } ∧
      h.payload = Function.update t.heap.payload a
        (some (kv.keylen, kv.vallen, (Reply.terminate kv).data)) := by
  obtain ⟨heap, hmodify, -, hlinks, hpay, hfresh⟩ :=
    Heap.modify_data hkv Reply.terminate ⟨rfl, rfl, rfl, rfl⟩
  obtain rfl : heap = h := Option.some.inj (hmodify.symm.trans hh)
  have ha := Heap.payload_of_block hkv
  refine ⟨⟨?_, ?_, ?_⟩, hpay⟩
  · obtain ⟨chain, wf⟩ := stocked.chains
    exact ⟨chain, wf.heap hlinks hfresh⟩
  · intro x hx
    dsimp only
    rw [hfresh]
    by_cases hxa : x = a
    · exact stocked.fresh x (by simp [hxa, ha])
    · rw [hpay, Function.update_of_ne hxa] at hx
      exact stocked.fresh x hx
  · intro x k n d hx
    rw [hpay] at hx
    by_cases hxa : x = a
    · subst x
      rw [Function.update_self] at hx
      obtain ⟨rfl, rfl, rfl⟩ : _ = k ∧ _ = n ∧ _ = d := by simpa using hx
      have hroom := stocked.room _ _ _ _ ha
      simp only [Reply.terminate, crlf, List.length_append, List.length_take, List.length_drop,
        List.length_cons, List.length_nil]
      omega
    · rw [Function.update_of_ne hxa] at hx
      exact stocked.room x k n d hx

/-! ## What a step does to the entries -/

theorem checkIOVTotalWritten_moves {e e' : ℕ → Bytes} {start count writeret iovEnd : ℕ}
    (h : checkIOVTotalWritten e start count writeret = some (iovEnd, e')) (i : ℕ) :
    ∃ n, e' i = (e i).drop n := by
  obtain ⟨⟨k, total⟩, -, hmove⟩ := Option.map_eq_some_iff.mp h
  dsimp only at hmove
  split at hmove
  · cases hmove
    exact ⟨0, rfl⟩
  · cases hmove
    by_cases hi : i = iovEnd
    · subst i
      exact ⟨_, Function.update_self ..⟩
    · exact ⟨0, Function.update_of_ne hi ..⟩

section
variable {s s' : Session Unit} {found : Option (Bytes × Bytes)} {r : ℤ} {pc pc' : Pc}

theorem next_fills {i : ℕ} (hfill : Sockets.fills pc = some i)
    (h : s.next found r pc = some (pc', s')) :
    s'.reply.iovec = Function.update s.reply.iovec i (text pc) := by
  cases pc with
  | setAdd index | endAdd index =>
    cases hfill
    cases h
    rfl
  | qreply q =>
    cases q with
    | fillHdr index hdr val | fillVal index size val =>
      cases hfill
      cases h
      rfl
    | _ => cases hfill
  | _ => cases hfill

theorem next_moves (hfill : Sockets.fills pc = none) (hfree : ∀ n, pc ≠ .endFree n)
    (h : s.next found r pc = some (pc', s')) (i : ℕ) :
    ∃ n, s'.reply.iovec i = (s.reply.iovec i).drop n := by
  cases pc with
  | idle => cases h
  | setAdd index | endAdd index => cases hfill
  | endFree ret2 => exact absurd rfl (hfree ret2)
  | lookup aM => cases found <;> cases h <;> exact ⟨0, rfl⟩
  | compare ret | endWait ret2 y | endScan ret2 y =>
    simp only [Session.next] at h
    split at h <;> cases h
    all_goals exact ⟨0, rfl⟩
  | reset k ret2 => cases k <;> cases h <;> exact ⟨0, rfl⟩
  | qreply q =>
    simp only [Session.next] at h
    split at h
    · cases h
      exact ⟨0, rfl⟩
    · obtain ⟨⟨q', reply⟩, hq, hnext⟩ := Option.map_eq_some_iff.mp h
      cases hnext
      cases q with
      | fillHdr | fillVal => cases hfill
      | check | takeFlag | sendmsg =>
        simp only [QPc.step] at hq
        repeat' split at hq
        all_goals cases hq
        all_goals exact ⟨0, rfl⟩
      | account start count writeret =>
        obtain ⟨⟨iovEnd, iovec⟩, hcheck, hacc⟩ := Option.map_eq_some_iff.mp hq
        cases hacc
        exact checkIOVTotalWritten_moves hcheck i
      | _ => cases hq <;> exact ⟨0, rfl⟩
  | _ =>
    cases h
    exact ⟨0, rfl⟩

/-- A worker comes to the steps that queue a value from its lookup. -/
theorem next_usesRecord (h : s.next found r pc = some (pc', s')) (huse : UsesRecord pc') :
    ∃ val, toQueue pc' = some val ∧
      (toQueue pc = some val ∨ ∃ aM hdr, pc = .lookup aM ∧ found = some (hdr, val)) := by
  cases pc with
  | idle => cases h
  | lookup aM =>
    cases found with
    | none =>
      cases h
      cases huse
    | some x =>
      obtain ⟨hdr, val⟩ := x
      cases h
      exact ⟨val, rfl, .inr ⟨aM, hdr, rfl, rfl⟩⟩
  | qreply q =>
    simp only [Session.next] at h
    split at h
    · cases h
      cases huse
    · obtain ⟨⟨q', reply⟩, hq, hnext⟩ := Option.map_eq_some_iff.mp h
      cases hnext
      cases q with
      | reserve hdr val | fillHdr index hdr val =>
        cases hq
        exact ⟨val, rfl, .inl rfl⟩
      | check | takeFlag | sendmsg =>
        simp only [QPc.step] at hq
        repeat' split at hq
        all_goals cases hq
        all_goals cases huse
      | account start count writeret =>
        obtain ⟨⟨iovEnd, iovec⟩, hcheck, hacc⟩ := Option.map_eq_some_iff.mp hq
        cases hacc
        cases huse
      | release ret =>
        cases hq
        split at huse <;> cases huse
      | done => cases hq
      | _ =>
        cases hq
        cases huse
  | compare ret | endWait ret2 y | endScan ret2 y =>
    simp only [Session.next] at h
    split at h <;> cases h
    all_goals cases huse
  | readPending | test =>
    cases h
    split at huse <;> cases huse
  | reset k ret2 => cases k <;> cases ret2 <;> cases h <;> cases huse
  | _ =>
    cases h
    cases huse

end

theorem sendmsg_moves {f : Sockets.Flushing} {reply reply' : IovReply} {res : SendResult}
    {flush : Option Sockets.Flushing} (h : f.sendmsg reply res = some (flush, reply')) (i : ℕ) :
    ∃ n, reply'.iovec i = (reply.iovec i).drop n := by
  obtain ⟨⟨t, ret⟩, hsend, hnext⟩ := Option.map_eq_some_iff.mp h
  cases hnext
  cases res with
  | eintr | eagain ret2 | error =>
    cases hsend
    exact ⟨0, rfl⟩
  | sent writeret =>
    simp only [WriteAll.sendmsg] at hsend
    split at hsend
    · cases hsend
      exact ⟨0, rfl⟩
    · split at hsend
      · cases hsend
      · obtain ⟨⟨iovEnd, iovec⟩, hcheck, hend⟩ := Option.map_eq_some_iff.mp hsend
        split at hend <;> cases hend
        all_goals exact checkIOVTotalWritten_moves hcheck i

/-! ## The entries of a connection -/

/-- Unsent entries show what they stand for. -/
def Shows (h : Heap) (source : ℕ → Source) (unsent : Finset ℕ) (iovec : ℕ → Bytes) : Prop :=
  ∀ i ∈ unsent, Shown h (source i) (iovec i)

section
variable {h : Heap} {source : ℕ → Source} {unsent : Finset ℕ} {iovec : ℕ → Bytes}
  (shows : Shows h source unsent iovec)
include shows

theorem Shows.fill {i : ℕ} {p : Source} {bytes : Bytes} (hp : Shown h p bytes) :
    Shows h (Function.update source i p) (insert i unsent) (Function.update iovec i bytes) := by
  intro k hk
  by_cases hki : k = i
  · rw [hki, Function.update_self, Function.update_self]
    exact hp
  · rw [Function.update_of_ne hki, Function.update_of_ne hki]
    exact shows k (Finset.mem_of_mem_insert_of_ne hk hki)

theorem Shows.free (ret2 : ℕ) : Shows h (fun i => if i < ret2 then .copied [] else source i)
    (unsent.filter fun i => ret2 ≤ i) (fun i => if i < ret2 then [] else iovec i) := by
  intro i hi
  obtain ⟨hmem, hle⟩ := Finset.mem_filter.mp hi
  simp only [not_lt.mpr hle, if_false]
  exact shows i hmem

theorem Shows.transmit {unsent' : Finset ℕ} {iovec' : ℕ → Bytes} (hsub : unsent' ⊆ unsent)
    (hmove : ∀ i, ∃ n, iovec' i = (iovec i).drop n) :
    Shows h (fun i => (source i).drop ((iovec i).length - (iovec' i).length)) unsent' iovec' := by
  intro i hi
  obtain ⟨n, hn⟩ := hmove i
  have hdrop := (shows i (hsub hi)).drop n
  rwa [← hn] at hdrop

end

/-! ## The invariant -/

/-- A worker between its lookup and the entry of the value holds the record and the value that it
found. -/
def Carries (h : Heap) (kept : Local) (pc : Pc) : Prop :=
  ∀ a value, kept = .found a value → UsesRecord pc →
    Held h a value ∧ ∀ val ∈ toQueue pc, val = value ++ crlf ∧ Ended h a

structure System.Live {O W : Type} (s : System O W) : Prop where
  stocked : Stocked s.table
  shows : ∀ o, Shows s.table.heap (s.source o) (s.unsent o) (s.base.reply o).iovec
  carries : ∀ w, ∀ j ∈ s.base.worker w, Carries s.table.heap (s.kept w) j.pc
  read : ∀ p ∈ s.read, p.1 = some p.2

theorem usesRecord_of_toQueue {pc : Pc} {val : Bytes} (h : val ∈ toQueue pc) : UsesRecord pc := by
  cases pc with
  | qreply q => exact Option.isSome_of_mem h
  | _ => cases h

/-- What `QReply` queues without copying is shown by the record with its line end. -/
theorem Ended.shown {h : Heap} {a : Addr} {value : Bytes} {kv : KVdata} (hended : Ended h a)
    (hheld : Held h a value) (hkv : h.block a = some kv) :
    Shown h (.inRecord a kv.keylen (kv.vallen + 2)) (value ++ crlf) := by
  obtain ⟨k, n, d, hd, hcrlf⟩ := hended
  obtain ⟨k', n', d', hd', hvalue⟩ := hheld
  obtain ⟨rfl, rfl, rfl⟩ := Heap.eq_of_payload hkv hd
  obtain ⟨rfl, rfl, rfl⟩ := Heap.eq_of_payload hkv hd'
  refine ⟨_, _, _, hd, by omega, hcrlf, ?_⟩
  rw [List.take_add, List.drop_drop, hcrlf, hvalue]

/-- What records show in one heap they show in the other. -/
structure Keeps (h h' : Heap) : Prop where
  shown : ∀ source expected, Shown h source expected → Shown h' source expected
  held : ∀ a value, Held h a value → Held h' a value
  ended : ∀ a, Ended h a → Ended h' a

theorem Keeps.refl (h : Heap) : Keeps h h := ⟨fun _ _ hs => hs, fun _ _ hs => hs, fun _ hs => hs⟩

/-- The line end that `QReply` writes behind a value is what is there already, or behind what any
entry shows. -/
theorem Stocked.keeps {t : AHashTable} {a : Addr} {h : Heap} {kv : KVdata} (stocked : Stocked t)
    (hkv : t.heap.block a = some kv) (hh : t.heap.modify a Reply.terminate = some h) :
    Keeps t.heap h ∧ Ended h a := by
  obtain ⟨-, hpay⟩ := stocked.terminate hkv hh
  have ha := Heap.payload_of_block hkv
  have hroom := stocked.room _ _ _ _ ha
  have hnew : h.payload a = some (kv.keylen, kv.vallen, (Reply.terminate kv).data) := by
    rw [hpay, Function.update_self]
  have hother (x : Addr) (hx : x ≠ a) : h.payload x = t.heap.payload x := by
    rw [hpay, Function.update_of_ne hx]
  have htake : (kv.data.take (kv.keylen + kv.vallen)).length = kv.keylen + kv.vallen := by
    rw [List.length_take]
    omega
  have hend : Ended h a := by
    refine ⟨_, _, _, hnew, ?_⟩
    rw [Reply.terminate, List.append_assoc, List.drop_left' htake]
    simp [crlf]
  refine ⟨⟨?_, ?_, ?_⟩, hend⟩
  · intro source expected hs
    refine hs.congr fun x hx => ?_
    by_cases hxa : x = a
    · subst x
      unfold Shown at hs
      cases source with
      | copied bytes => cases hx
      | inRecord a' pos len =>
        cases hx
        obtain ⟨k, n, d, hp, -, hcrlf, -⟩ := hs
        obtain ⟨rfl, rfl, rfl⟩ := Heap.eq_of_payload hkv hp
        rw [hnew, ha, Reply.terminate, crlf_of_take hcrlf]
    · exact hother x hxa
  · rintro x value ⟨k, n, d, hp, hv⟩
    by_cases hxa : x = a
    · subst x
      obtain ⟨rfl, rfl, rfl⟩ := Heap.eq_of_payload hkv hp
      refine ⟨_, _, _, hnew, ?_⟩
      rw [hv, Reply.terminate, List.append_assoc, List.drop_append_of_le_length (by omega),
        List.take_append_of_le_length (by rw [List.length_drop]; omega), List.drop_take,
        List.take_take]
      simp
    · exact ⟨k, n, d, (hother x hxa).trans hp, hv⟩
  · rintro x ⟨k, n, d, hp, hv⟩
    by_cases hxa : x = a
    · exact hxa ▸ hend
    · exact ⟨k, n, d, (hother x hxa).trans hp, hv⟩

theorem Carries.heap {h h' : Heap} {kept : Local} {pc : Pc} (hc : Carries h kept pc)
    (keeps : Keeps h h') : Carries h' kept pc := by
  intro a value hkept huse
  obtain ⟨hheld, hqueue⟩ := hc a value hkept huse
  exact ⟨keeps.held a value hheld, fun val hval =>
    ⟨(hqueue val hval).1, keeps.ended a (hqueue val hval).2⟩⟩

section
variable {O W : Type} {s s' t : System O W}

theorem System.Live.values (live : s.Live) : LiveValues s where
  entries o i hi := (live.shows o i hi).bytes
  read := live.read

theorem System.Live.init (pool : List O) (hashmask : UInt32) : (System.init W pool hashmask).Live where
  stocked := Stocked.init hashmask
  shows o i hi := absurd hi (Finset.notMem_empty i)
  carries w j hj := by cases hj
  read p hp := absurd hp List.not_mem_nil

theorem System.Live.heap (live : s.Live) {table : AHashTable} (stocked : Stocked table)
    (keeps : Keeps s.table.heap table.heap) : System.Live { s with table := table } where
  stocked := stocked
  shows o i hi := keeps.shown _ _ (live.shows o i hi)
  carries w j hj := (live.carries w j hj).heap keeps
  read := live.read

/-- Workers may go where nothing is held, or stay where they are. -/
theorem System.Live.move (live : s.Live) {base : Sockets.System O W} {kept : W → Local}
    (hreply : base.reply = s.base.reply)
    (hworker : ∀ w, ∀ j ∈ base.worker w, Carries s.table.heap (kept w) j.pc) :
    System.Live { s with base := base, kept := kept } where
  stocked := live.stocked
  shows o i hi := by
    rw [hreply]
    exact live.shows o i hi
  carries := hworker
  read := live.read

/-- A record that a worker carries or that an unsent entry shows is referred to. -/
theorem System.Live.set (live : s.Live) {aM : AMsg} {table : AHashTable}
    (hset : storeValue s.table aM = some table)
    (hspare : ∀ a ∈ replaced s.table aM, ¬ s.Refers a) :
    System.Live { s with table := table } := by
  unfold storeValue at hset
  rw [Option.ite_none_right_eq_some] at hset
  obtain ⟨hstocked, hsame⟩ := live.stocked.set hset.2
  have hsource (source : Source) (expected : Bytes) (hs : Shown s.table.heap source expected)
      (hrefers : ∀ a ∈ source.record, s.Refers a) : Shown table.heap source expected := by
    refine hs.congr fun a ha => hsame a ?_ fun hrep => hspare a hrep (hrefers a ha)
    have hbytes := hs.bytes
    cases source with
    | copied bytes => cases ha
    | inRecord a' pos len =>
      cases ha
      obtain ⟨r, hr, -⟩ := Option.map_eq_some_iff.mp hbytes
      rw [Heap.payload_of_block hr, Option.isSome_some]
  refine ⟨hstocked, ?_, ?_, live.read⟩
  · intro o i hi
    exact hsource _ _ (live.shows o i hi) fun a ha => .inr ⟨o, i, hi, ha⟩
  · intro v j' hj' a value hkept huse
    have hheld : s.held v = some a := by
      rw [System.held, hkept]
      refine Option.bind_eq_some_iff.mpr ⟨j', hj', ?_⟩
      rw [if_pos huse]
    have hpay (k n : ℕ) (d : Bytes) (hp : s.table.heap.payload a = some (k, n, d)) :
        table.heap.payload a = some (k, n, d) :=
      (hsame a (by simp [hp]) fun hrep => hspare a hrep (.inl ⟨v, hheld⟩)).trans hp
    obtain ⟨⟨k, n, d, hp, hv⟩, hqueue⟩ := live.carries v j' hj' a value hkept huse
    refine ⟨⟨k, n, d, hpay k n d hp, hv⟩, fun val hval => ?_⟩
    obtain ⟨heq, k', n', d', hp', hcrlf⟩ := hqueue val hval
    exact ⟨heq, k', n', d', hpay k' n' d' hp', hcrlf⟩

/-- What a worker has read from its record when it enters `QReply`. -/
theorem System.Live.prologue (live : s.Live) {w : W} {j : Sockets.Job O} {table : AHashTable}
    {found : Option (Bytes × Bytes)} (hj : j ∈ s.base.worker w)
    (h : s.prologue w j.pc = some (table, found)) : System.Live { s with table := table } ∧
      ∀ aM hdr val, j.pc = .lookup aM → found = some (hdr, val) → ∀ a value,
        s.kept w = .found a value →
        Held table.heap a value ∧ val = value ++ crlf ∧ Ended table.heap a := by
  generalize hpc : j.pc = pc at h ⊢
  cases pc with
  | lookup aM =>
    cases hkept : s.kept w with
    | before | stored => simp [System.prologue, hkept] at h
    | missed =>
      simp only [System.prologue, hkept, Option.some.injEq, Prod.mk.injEq] at h
      obtain ⟨rfl, rfl⟩ := h
      exact ⟨live, fun _ _ _ _ hfound => by cases hfound⟩
    | found a value =>
      simp only [System.prologue, hkept] at h
      obtain ⟨kv, hkv, h⟩ := Option.bind_eq_some_iff.mp h
      obtain ⟨heap, hheap, h⟩ := Option.bind_eq_some_iff.mp h
      cases h
      obtain ⟨keeps, hended⟩ := live.stocked.keeps hkv hheap
      refine ⟨live.heap (live.stocked.terminate hkv hheap).1 keeps, ?_⟩
      intro _ hdr val _ hfound a' value' hsome
      cases hsome
      cases hfound
      have huse : UsesRecord j.pc := by
        rw [hpc]
        trivial
      exact ⟨keeps.held a value (live.carries w j hj a value hkept huse).1, rfl, hended⟩
  | setIndex =>
    cases hkept : s.kept w with
    | stored =>
      simp only [System.prologue, hkept, Option.some.injEq, Prod.mk.injEq] at h
      obtain ⟨rfl, rfl⟩ := h
      exact ⟨live, fun _ _ _ haM => by cases haM⟩
    | _ => simp [System.prologue, hkept] at h
  | _ =>
    cases h
    exact ⟨live, fun _ _ _ haM => by cases haM⟩

/-- The pointer that a worker puts into an entry. -/
theorem System.Live.pointer (live : s.Live) {w : W} {j : Sockets.Job O} {p : Source}
    (hj : j ∈ s.base.worker w) (h : s.pointer w j.pc = some p) :
    Shown s.table.heap p (text j.pc) := by
  generalize hpc : j.pc = pc at h ⊢
  cases pc with
  | qreply q =>
    cases q with
    | fillVal index size val =>
      cases hkept : s.kept w with
      | found a value =>
        simp only [System.pointer, hkept] at h
        obtain ⟨kv, hkv, rfl⟩ := Option.map_eq_some_iff.mp h
        have hval : val ∈ toQueue j.pc := by
          rw [hpc]
          rfl
        obtain ⟨hheld, hqueue⟩ := live.carries w j hj a value hkept (usesRecord_of_toQueue hval)
        obtain ⟨rfl, hended⟩ := hqueue val hval
        exact hended.shown hheld hkv
      | _ => simp [System.pointer, hkept] at h
    | _ =>
      cases h
      rfl
  | _ =>
    cases h
    rfl

end

section
variable {O W : Type} [DecidableEq O] {s s' : System O W} {o : O} {base : Sockets.System O W}
  {reply : IovReply} (live : s.Live) (hreply : base.reply = Function.update s.base.reply o reply)
  (hworker : ∀ w, ∀ j ∈ base.worker w, Carries s.table.heap (s.kept w) j.pc)
include live hreply hworker

theorem System.Live.entries {source : ℕ → Source} {unsent : Finset ℕ}
    {read : List (Option Bytes × Bytes)} (hshows : Shows s.table.heap source unsent reply.iovec)
    (hread : ∀ p ∈ read, p.1 = some p.2) : System.Live { s with
      base := base
      source := Function.update s.source o source
      unsent := Function.update s.unsent o unsent
      read := read } := by
  refine ⟨live.stocked, ?_, hworker, hread⟩
  intro o'
  dsimp only
  rw [hreply]
  by_cases ho : o' = o
  · subst o'
    rw [Function.update_self, Function.update_self, Function.update_self]
    exact hshows
  · rw [Function.update_of_ne ho, Function.update_of_ne ho, Function.update_of_ne ho]
    exact live.shows o'

theorem System.Live.transmit {j : Sockets.Job O} (hconn : j.message.conn = o) (r : ℕ)
    (hmove : ∀ i, ∃ n, reply.iovec i = ((s.base.reply o).iovec i).drop n) :
    System.Live { s.transmit j reply.iovec r with base := base } := by
  subst hconn
  refine live.entries hreply hworker ?_ ?_
  · exact (live.shows _).transmit (Finset.filter_subset ..) hmove
  · intro p hp
    rcases List.mem_append.mp hp with hp | hp
    · exact live.read p hp
    · obtain ⟨⟨i, n⟩, hi, rfl⟩ := List.mem_map.mp hp
      have hunsent := of_decide_eq_true (List.mem_filter.mp hi).2
      dsimp only
      rw [(live.shows _ i hunsent).bytes, Option.map_some]

/-- What a step of a worker does to the entries. -/
theorem System.Live.work {w : W} {j : Sockets.Job O} {q : ReqState} {found : Option (Bytes × Bytes)}
    {r : ℤ} {pc : Pc} {u : Session Unit} (hconn : j.message.conn = o) (hu : u.reply = reply)
    (hj : j ∈ s.base.worker w)
    (hnext : (Sockets.session q (s.base.reply o)).next found r j.pc = some (pc, u))
    (h : s.work w j reply.iovec r.toNat = some s') : System.Live { s' with base := base } := by
  subst hconn hu
  unfold System.work at h
  cases hfill : Sockets.fills j.pc with
  | some i =>
    rw [hfill] at h
    obtain ⟨p, hp, rfl⟩ := Option.map_eq_some_iff.mp h
    refine live.entries hreply hworker ?_ live.read
    rw [next_fills hfill hnext]
    exact (live.shows _).fill (live.pointer hj hp)
  | none =>
    rw [hfill] at h
    dsimp only at h
    split at h
    · next ret2 hpc =>
      cases h
      rw [hpc] at hnext
      cases hnext
      exact live.entries hreply hworker ((live.shows _).free ret2) live.read
    · next hpc =>
      cases h
      exact live.transmit hreply hworker rfl _ (next_moves hfill hpc hnext)

end

theorem pc_of_mem_goTo {O : Type} {m : Sockets.Message O} {pc : Pc} {j : Sockets.Job O}
    (h : j ∈ Sockets.Job.goTo m pc) : j.pc = pc := by
  cases pc <;> cases h <;> rfl

/-- A worker comes into `QReply` with what it has just looked up, and carries it until it is
queued. -/
theorem Carries.next {h : Heap} {kept : Local} {pc pc' : Pc} {u u' : Session Unit}
    {found : Option (Bytes × Bytes)} {r : ℤ} (hc : Carries h kept pc)
    (hfound : ∀ aM hdr val, pc = .lookup aM → found = some (hdr, val) → ∀ a value,
      kept = .found a value → Held h a value ∧ val = value ++ crlf ∧ Ended h a)
    (hnext : u.next found r pc = some (pc', u')) : Carries h kept pc' := by
  intro a value hkept huse
  obtain ⟨val, hqueue, hfrom⟩ := next_usesRecord hnext huse
  rcases hfrom with hold | ⟨aM, hdr, hpc, hsome⟩
  · obtain ⟨hheld, hval⟩ := hc a value hkept (usesRecord_of_toQueue hold)
    refine ⟨hheld, fun v hv => hval v ?_⟩
    rw [hold, ← hqueue]
    exact hv
  · obtain ⟨hheld, heq, hended⟩ := hfound aM hdr val hpc hsome a value hkept
    refine ⟨hheld, fun v hv => ?_⟩
    obtain rfl : val = v := Option.some.inj (hqueue.symm.trans hv)
    exact ⟨heq, hended⟩

section
variable {O W : Type} [DecidableEq W] {s t : System O W}

theorem System.Live.keep (live : s.Live) {w : W} {l : Local}
    (hl : ∀ j ∈ s.base.worker w, Carries s.table.heap l j.pc) :
    System.Live { s with kept := Function.update s.kept w l } := by
  refine live.move rfl fun v j hj => ?_
  by_cases hv : v = w
  · subst v
    rw [Function.update_self]
    exact hl j hj
  · rw [Function.update_of_ne hv]
    exact live.carries v j hj

/-- Where the workers are after a step of one of them. -/
theorem System.Live.worker (live : s.Live) {w : W} {next : Option (Sockets.Job O)}
    (hnext : ∀ j ∈ next, Carries s.table.heap (s.kept w) j.pc) :
    ∀ v, ∀ j ∈ Function.update s.base.worker w next v, Carries s.table.heap (s.kept v) j.pc := by
  intro v j hj
  by_cases hv : v = w
  · subst v
    rw [Function.update_self] at hj
    exact hnext j hj
  · rw [Function.update_of_ne hv] at hj
    exact live.carries v j hj

variable [DecidableEq O]

theorem System.Live.sockets {a : Sockets.Act O W} (live : s.Live)
    (h : Clients.step s (.sockets a) = some t) : t.Live := by
  cases a with
  | step w q found r =>
    obtain ⟨j, hj, h⟩ := Option.bind_eq_some_iff.mp h
    obtain ⟨⟨table, found'⟩, hprologue, h⟩ := Option.bind_eq_some_iff.mp h
    rw [Option.ite_none_right_eq_some] at h
    obtain ⟨rfl, h⟩ := h
    obtain ⟨base, hbase, h⟩ := Option.bind_eq_some_iff.mp h
    obtain ⟨s', hwork, h⟩ := Option.bind_eq_some_iff.mp h
    cases h
    obtain ⟨j', hj', hbase⟩ := Option.bind_eq_some_iff.mp hbase
    obtain rfl : j = j' := Option.some.inj (hj.symm.trans hj')
    rw [Option.ite_none_right_eq_some] at hbase
    obtain ⟨log, -, hbase⟩ := Option.bind_eq_some_iff.mp hbase.2
    obtain ⟨⟨pc, u⟩, hnext, hbase⟩ := Option.bind_eq_some_iff.mp hbase
    obtain rfl : s.base.answered w j (Sockets.Job.goTo j.message pc) u.reply log = base := by
      simpa using hbase
    obtain ⟨hlive, hfound⟩ := live.prologue hj hprologue
    rw [Sockets.System.answered_reply, Function.update_self] at hwork
    refine hlive.work (Sockets.System.answered_reply ..) ?_ rfl rfl hj hnext hwork
    rw [Sockets.System.answered_worker]
    refine hlive.worker fun j' hj' => ?_
    rw [pc_of_mem_goTo hj']
    exact (hlive.carries w j hj).next hfound hnext
  | final w res =>
    obtain ⟨j, hj, h⟩ := Option.bind_eq_some_iff.mp h
    obtain ⟨base, hbase, h⟩ := Option.bind_eq_some_iff.mp h
    cases h
    obtain ⟨j', hj', hbase⟩ := Option.bind_eq_some_iff.mp hbase
    obtain rfl : j = j' := Option.some.inj (hj.symm.trans hj')
    obtain ⟨f, -, hbase⟩ := Option.bind_eq_some_iff.mp hbase
    obtain ⟨log, -, hbase⟩ := Option.bind_eq_some_iff.mp hbase
    obtain ⟨⟨flush, reply⟩, hsend, hbase⟩ := Option.bind_eq_some_iff.mp hbase
    cases hbase
    rw [Sockets.System.answered_reply, Function.update_self]
    refine live.transmit (Sockets.System.answered_reply ..) ?_ rfl _ (sendmsg_moves hsend)
    rw [Sockets.System.answered_worker]
    refine live.worker ?_
    rintro _ ⟨⟩
    exact live.carries w j hj
  | take w m =>
    obtain ⟨base, hbase, rfl⟩ := Option.map_eq_some_iff.mp h
    simp only [Sockets.step, Option.ite_none_right_eq_some, Option.some.injEq] at hbase
    obtain ⟨-, rfl⟩ := hbase
    refine live.move rfl fun v j hj => ?_
    by_cases hv : v = w
    · subst v
      rw [Function.update_self]
      intro a value hkept
      cases hkept
    · dsimp only at hj
      rw [Function.update_of_ne hv] at hj ⊢
      exact live.carries v j hj
  | accept fd =>
    obtain ⟨base, hbase, rfl⟩ := Option.map_eq_some_iff.mp h
    simp only [Sockets.step, Option.ite_none_right_eq_some, Option.some.injEq] at hbase
    obtain ⟨-, rfl⟩ := hbase
    exact live.move rfl live.carries
  | newFd fd =>
    obtain ⟨base, hbase, rfl⟩ := Option.map_eq_some_iff.mp h
    simp only [Sockets.step] at hbase
    split at hbase
    · cases hbase
    · simp only [Option.ite_none_right_eq_some, Option.some.injEq] at hbase
      obtain ⟨-, rfl⟩ := hbase
      exact live.move rfl live.carries
  | recv fd o msgs =>
    obtain ⟨base, hbase, rfl⟩ := Option.map_eq_some_iff.mp h
    simp only [Sockets.step, Option.ite_none_right_eq_some, Option.map_eq_some_iff] at hbase
    obtain ⟨-, client, -, rfl⟩ := hbase
    exact live.move rfl live.carries
  | close fd o =>
    obtain ⟨base, hbase, rfl⟩ := Option.map_eq_some_iff.mp h
    simp only [Sockets.step, Option.ite_none_right_eq_some, Option.some.injEq] at hbase
    obtain ⟨-, rfl⟩ := hbase
    exact live.move rfl live.carries
  | readFd w =>
    obtain ⟨base, hbase, rfl⟩ := Option.map_eq_some_iff.mp h
    obtain ⟨j, hj, hbase⟩ := Option.bind_eq_some_iff.mp hbase
    rw [Option.ite_none_right_eq_some, Option.some.injEq] at hbase
    obtain ⟨-, rfl⟩ := hbase
    refine live.move rfl (live.worker ?_)
    rintro _ ⟨⟩
    exact live.carries w j hj

theorem System.Live.step {a : Act O W} (live : s.Live) (hgood : Spares s a)
    (h : step s a = some t) : t.Live := by
  cases a with
  | set w =>
    obtain ⟨j, hj, h⟩ := Option.bind_eq_some_iff.mp h
    rw [Option.ite_none_right_eq_some] at h
    obtain ⟨⟨hpc, -⟩, h⟩ := h
    obtain ⟨table, hset, rfl⟩ := Option.map_eq_some_iff.mp h
    refine (live.set hset (hgood j hj)).keep fun j' _ a value hkept => ?_
    cases hkept
  | get w =>
    obtain ⟨j, hj, h⟩ := Option.bind_eq_some_iff.mp h
    split at h
    · next aM hpc =>
      rw [Option.ite_none_right_eq_some] at h
      obtain ⟨x, -, h⟩ := Option.bind_eq_some_iff.mp h.2
      cases x with
      | none =>
        cases h
        refine live.keep fun j' _ a value hkept => ?_
        cases hkept
      | some a =>
        obtain ⟨kv, hkv, rfl⟩ := Option.map_eq_some_iff.mp h
        refine live.keep fun j' hj' a' value hkept _ => ?_
        obtain rfl : j = j' := Option.some.inj (hj.symm.trans hj')
        cases hkept
        refine ⟨⟨kv.keylen, kv.vallen, kv.data, Heap.payload_of_block hkv, rfl⟩, ?_⟩
        rw [hpc]
        intro val hval
        cases hval
    · cases h
  | sockets a => exact live.sockets h

/-- In every run of any number of clients in which no `set` replaces a record that is still
referred to, every unsent entry reads the value it was queued for, and so did every `sendmsg` that
took bytes of one. -/
theorem liveValues_of_spares (pool : List O) (hashmask : UInt32) (as : List (Act O W))
    (t : System O W) (h : exec step (.init W pool hashmask) as = some t)
    (hgood : Guarded step Spares (.init W pool hashmask) as) : LiveValues t :=
  (hgood.invariant (fun _ _ _ live hg hs => System.Live.step live hg hs)
    (System.Live.init pool hashmask) h).values

end

/-! ## Runs -/

def setA (value : UInt8) : AMsg := ⟨.set, [97], 1, 0, [value], 0, 0, 1⟩

def getA : AMsg := ⟨.gets, [97], 1, 0, [], 0, 0, 0⟩

variable {O : Type}

def quiet (n : ℕ) : List (Act O Unit) := (Sockets.quiet () n).map .sockets

def storesA (fd : ℕ) (o : O) (client : ℕ) (value : UInt8) : List (Act O Unit) :=
  [.sockets (.recv fd o [setA value]), .sockets (.take () ⟨o, client, setA value⟩), .set ()] ++
  quiet 2 ++ [.sockets (.readFd ()), .sockets (.step () (.init .get) none 8)] ++ quiet 7

def queuesA (o : O) (client : ℕ) : List (Act O Unit) :=
  [.sockets (.take () ⟨o, client, getA⟩), .get (), .sockets (.step () (.init .gets)
    (some (valueLine [97] 1, [120, 13, 10])) 0)] ++ quiet 3

def setGetSet : List (Act Unit Unit) :=
  [.sockets (.accept 5), .sockets (.newFd 5)] ++ storesA 5 () 0 120 ++
  [.sockets (.recv 5 () [getA])] ++ queuesA () 0 ++
  List.replicate 18 (.sockets (.step () Sockets.oneKey none 0)) ++
  [.sockets (.readFd ()), .sockets (.final () (.sent 23))] ++ quiet 9 ++ storesA 5 () 0 121

theorem liveValues_setGetSet : ∃ t, exec step (.init Unit [()] 0) setGetSet = some t ∧
    LiveValues t := by
  obtain ⟨t, ht⟩ : ∃ t, exec step (.init Unit [()] 0) setGetSet = some t := ⟨_, rfl⟩
  exact ⟨t, ht, liveValues_of_spares [()] 0 _ t ht (by decide +kernel)⟩

/-- The value of a get of two keys is queued, and not yet sent, when a second client sets the first of
them. -/
def replacedQueued : List (Act Bool Unit) :=
  [.sockets (.accept 5), .sockets (.newFd 5), .sockets (.accept 6), .sockets (.newFd 6)] ++
  storesA 5 false 0 120 ++
  [.sockets (.recv 5 false [getA, ⟨.gets, [98], 1, 0, [], 0, 0, 0⟩])] ++ queuesA false 0 ++
  List.replicate 9 (.sockets (.step () { Sockets.oneKey with reqCount := 2 } none 0)) ++
  [.sockets (.recv 6 true [setA 121]), .sockets (.take () ⟨true, 1, setA 121⟩), .set ()]

/-- The queued entry points into the record that the second set released. -/
theorem liveValues_fails : ¬ ∀ (as : List (Act Bool Unit)) (t : System Bool Unit),
    exec step (.init Unit [false, true] 0) as = some t → LiveValues t := by
  intro h
  have hrun : (exec step (.init Unit [false, true] 0) replacedQueued).map (fun t =>
      (decide (1 ∈ t.unsent false), t.source false 1, t.table.heap.block 0)) =
      some (true, .inRecord 0 1 3, none) := by decide +kernel
  obtain ⟨t, ht, hend⟩ := Option.map_eq_some_iff.mp hrun
  obtain ⟨hunsent, hend⟩ := Prod.mk.inj hend
  obtain ⟨hsource, hblock⟩ := Prod.mk.inj hend
  have hlive := (h _ t ht).entries false 1 (of_decide_eq_true hunsent)
  simp [hsource, Source.bytes, hblock] at hlive

end Acached.Clients
