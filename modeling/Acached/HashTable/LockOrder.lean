import Acached.HashTable.WholeKeys
import Mathlib.Data.Fintype.Basic
import Mathlib.Data.List.Pairwise
import Mathlib.Tactic.FinCases

/-! # Calls on one bucket by several threads

A call of `set` or `get` fetches the head of its bucket, acquires the lock of
the bucket, works from the head it fetched, and releases the lock. Each of the
four is one step, and the steps of different calls interleave.
-/
namespace Acached.HashTable
open CString Execution

namespace AHashTable

/-- `ahashtable::set` behind the acquisition of the lock. -/
def setFrom (t : AHashTable) (hashval : UInt32) (kv : Addr) (head : Option Addr) :
    Option AHashTable := do
  let r ← t.heap.block kv
  match head with
  | none => t.setHead (t.bucket hashval) kv
  | some head =>
    match ← walk t.heap r.data r.keylen t.heap.fresh head with
    | .found tmphead => t.replace (t.bucket hashval) head tmphead kv
    | .ended prevhead => t.append prevhead kv

def getFrom (t : AHashTable) (key : Bytes) (keylen : ℕ) (head : Option Addr) :
    Option (Option Addr) :=
  match head with
  | none => some none
  | some head => (walk t.heap key keylen t.heap.fresh head).map fun
    | .found tmphead => some tmphead
    | .ended _ => none

/-- From the present head of the bucket they are the whole calls. -/
theorem setFrom_head (t : AHashTable) (hashval : UInt32) (kv : Addr) :
    t.setFrom hashval kv (t.hashtable (t.bucket hashval)) = t.set hashval kv := rfl

theorem getFrom_head (t : AHashTable) (key : Bytes) (keylen : ℕ) (hashval : UInt32) :
    t.getFrom key keylen (t.hashtable (t.bucket hashval)) = t.get key keylen hashval := rfl

end AHashTable

/-- A call with its arguments; the record of a `set` is allocated by its caller. -/
inductive TableCall where
  | set (hashval : UInt32) (kv : Addr)
  | get (key : Bytes) (keylen : ℕ) (hashval : UInt32)
  deriving DecidableEq, Repr

def TableCall.hashval : TableCall → UInt32
  | .set hashval _ => hashval
  | .get _ _ hashval => hashval

def TableCall.Writes : TableCall → Prop
  | .set .. => True
  | .get .. => False

instance : DecidablePred TableCall.Writes := fun c => by
  cases c <;> simp only [TableCall.Writes] <;> infer_instance

inductive CallAt where
  | fetch
  | acquire (head : Option Addr)
  | run (head : Option Addr)
  | release
  | done
  deriving DecidableEq, Repr

namespace CallAt

def Holds : CallAt → Prop
  | .run _ | .release => True
  | _ => False

def Ordered : CallAt → Prop
  | .fetch | .acquire _ => False
  | _ => True

def HasRun : CallAt → Prop
  | .release | .done => True
  | _ => False

instance : DecidablePred Holds := fun c => by cases c <;> simp only [Holds] <;> infer_instance

instance : DecidablePred Ordered := fun c => by cases c <;> simp only [Ordered] <;> infer_instance

instance : DecidablePred HasRun := fun c => by cases c <;> simp only [HasRun] <;> infer_instance

end CallAt

/-- The table and the calls under way; `order` lists them as they acquired the lock, and `result` is
what a `get` left in its message. -/
structure Threads (T : Type) where
  table : AHashTable
  pc : T → CallAt
  order : List T
  result : T → Option (Option Addr)

def Threads.init {T : Type} (table : AHashTable) : Threads T :=
  ⟨table, fun _ => .fetch, [], fun _ => none⟩

variable {T : Type} [Fintype T] [DecidableEq T] (call : T → TableCall)

/-- One step of a call. A read lock and a write lock exclude each other, and so do two write
locks. -/
def lockStep (s : Threads T) (t : T) : Option (Threads T) :=
  match s.pc t with
  | .fetch =>
    let head := s.table.hashtable (s.table.bucket (call t).hashval)
    some { s with pc := Function.update s.pc t (.acquire head) }
  | .acquire head =>
    if ∀ u, (s.pc u).Holds → ¬ (call u).Writes ∧ ¬ (call t).Writes then
      some { s with pc := Function.update s.pc t (.run head), order := s.order ++ [t] }
    else none
  | .run head => match call t with
    | .set hashval kv => (s.table.setFrom hashval kv head).map fun table =>
        { s with table := table, pc := Function.update s.pc t .release }
    | .get key keylen _ => (s.table.getFrom key keylen head).map fun found =>
        { s with
          result := Function.update s.result t (some found)
          pc := Function.update s.pc t .release }
  | .release => some { s with pc := Function.update s.pc t .done }
  | .done => none

omit [Fintype T] in
/-- A whole call at once, on the table and the results so far. -/
def callStep (r : AHashTable × (T → Option (Option Addr))) (t : T) :
    Option (AHashTable × (T → Option (Option Addr))) :=
  match call t with
  | .set hashval kv => (r.1.set hashval kv).map fun table => (table, r.2)
  | .get key keylen hashval => (r.1.get key keylen hashval).map fun found =>
      (r.1, Function.update r.2 t (some found))

/-- The table and the results are those of the calls that have run, one after the other in the order
in which they acquired the lock. -/
def InLockOrder (table : AHashTable) (s : Threads T) : Prop :=
  exec (callStep call) (table, fun _ => none) (s.order.filter fun t => (s.pc t).HasRun) =
    some (s.table, s.result)

/-- The call is a `get` that no record of its bucket answers. -/
def Unanswered (table : AHashTable) : TableCall → Prop
  | .set .. => False
  | .get key keylen hashval =>
    ∀ a ∈ table.records (table.bucket hashval), table.heap.accepts key keylen a = false

instance (table : AHashTable) : ∀ c, Decidable (Unanswered table c)
  | .set .. => isFalse id
  | .get .. => inferInstanceAs (Decidable (∀ a ∈ _, _))

/-- The head that a call works from is the present one, or an empty bucket for a `get` that finds
nothing anyway. -/
def HeadHolds (table : AHashTable) (c : TableCall) (head : Option Addr) : Prop :=
  head = table.hashtable (table.bucket c.hashval) ∨ head = none ∧ Unanswered table c

instance (table : AHashTable) (c : TableCall) (head : Option Addr) :
    Decidable (HeadHolds table c head) :=
  inferInstanceAs (Decidable (_ ∨ _))

/-- The head that a call fetched still holds when the call acquires the lock. -/
def CurrentHead (s : Threads T) (t : T) : Prop :=
  match s.pc t with
  | .acquire head => HeadHolds s.table (call t) head
  | _ => True

instance (s : Threads T) (t : T) : Decidable (CurrentHead call s t) := by
  unfold CurrentHead
  split <;> infer_instance

/-- The table has its chains, and every `set` comes with an allocated record of its own that is in
none of them. -/
structure Prepared (table : AHashTable) : Prop where
  wellFormed : ∃ chain, WellFormed table chain ∧ ∀ t hashval kv, call t = .set hashval kv →
    (∀ b, kv ∉ chain b) ∧ (table.heap.block kv).isSome ∧ kv < table.heap.fresh
  own : ∀ t u hashval hashval' kv, call t = .set hashval kv → call u = .set hashval' kv → t = u

/-! Running whole calls one after the other. -/

section Sequential

omit [Fintype T]
variable {call} {r r' : AHashTable × (T → Option (Option Addr))} {l : List T}

theorem exec_gets_table (hgets : ∀ t ∈ l, ¬ (call t).Writes)
    (h : exec (callStep call) r l = some r') : r'.1 = r.1 := by
  induction l generalizing r with
  | nil =>
    obtain rfl := Option.some.inj h
    rfl
  | cons t l ih =>
    obtain ⟨q, hq, hrest⟩ := Option.bind_eq_some_iff.mp h
    rw [List.forall_mem_cons] at hgets
    refine (ih hgets.2 hrest).trans ?_
    unfold callStep at hq
    cases hc : call t with
    | set hashval kv => exact absurd (by simp [hc, TableCall.Writes]) hgets.1
    | get key keylen hashval =>
      rw [hc] at hq
      obtain ⟨found, -, rfl⟩ := Option.map_eq_some_iff.mp hq
      rfl

theorem exec_update_result {t : T} (ht : t ∉ l) (x : Option (Option Addr)) :
    exec (callStep call) (r.1, Function.update r.2 t x) l =
      (exec (callStep call) r l).map fun q => (q.1, Function.update q.2 t x) := by
  induction l generalizing r with
  | nil => rfl
  | cons u l ih =>
    rw [List.mem_cons, not_or] at ht
    have hstep : callStep call (r.1, Function.update r.2 t x) u =
        (callStep call r u).map fun q => (q.1, Function.update q.2 t x) := by
      unfold callStep
      cases call u with
      | set hashval kv =>
        simp only [Option.map_map]
        rfl
      | get key keylen hashval =>
        simp only [Option.map_map]
        congr 1
        funext found
        exact Prod.ext rfl (Function.update_comm (Ne.symm ht.1) ..).symm
    rw [exec_cons, hstep, exec_cons]
    cases hq : callStep call r u with
    | none => rfl
    | some q => exact ih ht.2

/-- A `get` in front of calls of `get` that have run. -/
theorem exec_get_cons {t : T} {key : Bytes} {keylen : ℕ} {hashval : UInt32}
    {found : Option Addr} (hc : call t = .get key keylen hashval) (ht : t ∉ l)
    (hgets : ∀ u ∈ l, ¬ (call u).Writes) (h : exec (callStep call) r l = some r')
    (hfound : r'.1.get key keylen hashval = some found) :
    exec (callStep call) r (t :: l) = some (r'.1, Function.update r'.2 t (some found)) := by
  rw [exec_gets_table hgets h] at hfound
  have hstep : callStep call r t = some (r.1, Function.update r.2 t (some found)) := by
    simp [callStep, hc, hfound]
  rw [exec_cons, hstep, Option.bind_some, exec_update_result ht, h]
  rfl

end Sequential

/-! The invariant of runs in which every call acquires the lock with the present head. -/

/-- What holds of the table for the calls of `set` that have not run yet. -/
def Pending (s : Threads T) (chain : UInt32 → List Addr) : Prop :=
  ∀ t hashval kv, call t = .set hashval kv → ¬ (s.pc t).HasRun →
    (∀ b, kv ∉ chain b) ∧ (s.table.heap.block kv).isSome ∧ kv < s.table.heap.fresh

structure LockInv (table : AHashTable) (s : Threads T) : Prop where
  chains : ∃ chain, WellFormed s.table chain ∧ Pending call s chain
  head : ∀ t head, s.pc t = .run head → HeadHolds s.table (call t) head
  order_nodup : s.order.Nodup
  mem_order : ∀ t, t ∈ s.order ↔ (s.pc t).Ordered
  exclusive : s.order.Pairwise fun t u =>
    (s.pc t).Holds → ¬ (call t).Writes ∧ ¬ (call u).Writes
  lockOrder : InLockOrder call table s

variable {call} {table : AHashTable} {s s' : Threads T}

omit [Fintype T] in
theorem LockInv.init (ready : Prepared call table) : LockInv call table (.init table) where
  chains := by
    obtain ⟨chain, wf, hkv⟩ := ready.wellFormed
    exact ⟨chain, wf, fun t hashval kv hc _ => hkv t hashval kv hc⟩
  head t head h := nomatch h
  order_nodup := List.nodup_nil
  mem_order t := by simp [Threads.init, CallAt.Ordered]
  exclusive := List.Pairwise.nil
  lockOrder := rfl

omit [Fintype T] in
/-- A call that holds the lock and has not run is behind nobody who writes, and if it writes it is
the last one. -/
theorem LockInv.split (inv : LockInv call table s) {t : T} {head : Option Addr}
    (ht : s.pc t = .run head) : ∃ before after, s.order = before ++ t :: after ∧ t ∉ before ∧
      t ∉ after ∧ (∀ u ∈ after, ¬ (call u).Writes) ∧ ((call t).Writes → after = []) := by
  obtain ⟨before, after, horder⟩ :=
    List.append_of_mem ((inv.mem_order t).mpr (by simp [ht, CallAt.Ordered]))
  have hnodup := horder ▸ inv.order_nodup
  have hpair := (List.pairwise_append.mp (horder ▸ inv.exclusive)).2.1
  rw [List.pairwise_cons] at hpair
  have hafter (u : T) (hu : u ∈ after) := hpair.1 u hu (by simp [ht, CallAt.Holds])
  rw [List.nodup_append, List.nodup_cons] at hnodup
  refine ⟨before, after, horder, ?_, hnodup.2.1.1, fun u hu => (hafter u hu).2, ?_⟩
  · intro hmem
    exact hnodup.2.2 t hmem t List.mem_cons_self rfl
  · intro hw
    cases after with
    | nil => rfl
    | cons u after => exact absurd hw (hafter u List.mem_cons_self).1

omit [Fintype T] in
theorem filter_hasRun {pc : T → CallAt} {t : T} {before after : List T}
    (hbefore : t ∉ before) (hafter : t ∉ after) (ht : ¬ (pc t).HasRun) :
    (before ++ t :: after).filter (fun u => (pc u).HasRun) =
        before.filter (fun u => (pc u).HasRun) ++ after.filter (fun u => (pc u).HasRun) ∧
      (before ++ t :: after).filter (fun u => (Function.update pc t .release u).HasRun) =
        before.filter (fun u => (pc u).HasRun) ++ t :: after.filter (fun u => (pc u).HasRun) := by
  have hother {l : List T} (hl : t ∉ l) :
      l.filter (fun u => (Function.update pc t .release u).HasRun) =
        l.filter (fun u => (pc u).HasRun) :=
    List.filter_congr fun u hu => by rw [Function.update_of_ne (ne_of_mem_of_not_mem hu hl)]
  have hrelease : CallAt.release.HasRun := trivial
  constructor
  · simp [List.filter_append, ht]
  · simp [List.filter_append, hother hbefore, hother hafter, hrelease]

omit [Fintype T] in
theorem LockInv.advance (inv : LockInv call table s) {t : T} {a : CallAt}
    (hrun : a.HasRun ↔ (s.pc t).HasRun) (hordered : a.Ordered ↔ (s.pc t).Ordered)
    (hholds : a.Holds → (s.pc t).Holds) (hne : ∀ head, a ≠ .run head) :
    LockInv call table { s with pc := Function.update s.pc t a } where
  chains := by
    obtain ⟨chain, wf, hpending⟩ := inv.chains
    refine ⟨chain, wf, ?_⟩
    intro u hashval kv hc hu
    refine hpending u hashval kv hc ?_
    by_cases htu : u = t
    · subst u
      simpa [hrun] using hu
    · simpa [htu] using hu
  head u head hu := by
    by_cases htu : u = t
    · subst u
      exact absurd (by simpa using hu) (hne head)
    · exact inv.head u head (by simpa [htu] using hu)
  order_nodup := inv.order_nodup
  mem_order u := by
    by_cases htu : u = t
    · subst u
      simpa [hordered] using inv.mem_order t
    · simpa [htu] using inv.mem_order u
  exclusive := by
    refine inv.exclusive.imp ?_
    intro u v huv hu
    refine huv ?_
    by_cases htu : u = t
    · subst u
      exact hholds (by simpa using hu)
    · simpa [htu] using hu
  lockOrder := by
    have hfilter : s.order.filter (fun u => (Function.update s.pc t a u).HasRun) =
        s.order.filter fun u => (s.pc u).HasRun := by
      refine List.filter_congr fun u _ => ?_
      by_cases htu : u = t
      · subst u
        simp [hrun]
      · simp [htu]
    exact (congrArg (exec (callStep call) _) hfilter).trans inv.lockOrder

omit [Fintype T] in
theorem LockInv.acquire (inv : LockInv call table s) {t : T} {head : Option Addr}
    (ht : s.pc t = .acquire head)
    (hfree : ∀ u, (s.pc u).Holds → ¬ (call u).Writes ∧ ¬ (call t).Writes)
    (hhead : HeadHolds s.table (call t) head) : LockInv call table
      { s with pc := Function.update s.pc t (.run head), order := s.order ++ [t] } where
  chains := by
    obtain ⟨chain, wf, hpending⟩ := inv.chains
    refine ⟨chain, wf, ?_⟩
    intro u hashval kv hc hu
    refine hpending u hashval kv hc ?_
    by_cases htu : u = t
    · subst u
      simp [ht, CallAt.HasRun]
    · simpa [htu] using hu
  head u head' hu := by
    by_cases htu : u = t
    · subst u
      obtain rfl : head = head' := by simpa using hu
      exact hhead
    · exact inv.head u head' (by simpa [htu] using hu)
  order_nodup := by
    rw [List.nodup_append]
    refine ⟨inv.order_nodup, List.nodup_singleton t, ?_⟩
    intro u hu v hv
    rw [List.mem_singleton.mp hv]
    rintro rfl
    simpa [ht, CallAt.Ordered] using (inv.mem_order u).mp hu
  mem_order u := by
    by_cases htu : u = t
    · subst u
      simp [CallAt.Ordered]
    · simpa [htu] using inv.mem_order u
  exclusive := by
    have hnew : t ∉ s.order := fun hmem => by
      simpa [ht, CallAt.Ordered] using (inv.mem_order t).mp hmem
    have hother (u : T) (hu : u ∈ s.order) :
        (Function.update s.pc t (.run head) u) = s.pc u :=
      Function.update_of_ne (ne_of_mem_of_not_mem hu hnew) ..
    refine List.pairwise_append.mpr ⟨?_, List.pairwise_singleton .., ?_⟩
    · refine inv.exclusive.imp_of_mem ?_
      intro u v hu _ huv hholds
      exact huv (by simpa [hother u hu] using hholds)
    · intro u hu v hv hholds
      rw [List.mem_singleton.mp hv]
      exact hfree u (by simpa [hother u hu] using hholds)
  lockOrder := by
    have hfilter : (s.order ++ [t]).filter
        (fun u => (Function.update s.pc t (.run head) u).HasRun) =
        s.order.filter fun u => (s.pc u).HasRun := by
      rw [List.filter_append, List.filter_cons_of_neg (by simp [CallAt.HasRun]),
        List.filter_nil, List.append_nil]
      refine List.filter_congr fun u _ => ?_
      by_cases htu : u = t
      · subst u
        simp [ht, CallAt.HasRun]
      · simp [htu]
    exact (congrArg (exec (callStep call) _) hfilter).trans inv.lockOrder

omit [Fintype T] in
theorem LockInv.ran (inv : LockInv call table s) {t : T} {head : Option Addr}
    (ht : s.pc t = .run head) {table' : AHashTable} {result' : T → Option (Option Addr)}
    (hchains : ∃ chain, WellFormed table' chain ∧
      Pending call ⟨table', Function.update s.pc t .release, s.order, result'⟩ chain)
    (hheads : ∀ u head, u ≠ t → s.pc u = .run head → HeadHolds table' (call u) head)
    (horder : InLockOrder call table
      ⟨table', Function.update s.pc t .release, s.order, result'⟩) :
    LockInv call table ⟨table', Function.update s.pc t .release, s.order, result'⟩ where
  chains := hchains
  head u head' hu := by
    by_cases htu : u = t
    · subst u
      simp at hu
    · exact hheads u head' htu (by simpa [htu] using hu)
  order_nodup := inv.order_nodup
  mem_order u := by
    by_cases htu : u = t
    · subst u
      simpa [ht, CallAt.Ordered] using inv.mem_order t
    · simpa [htu] using inv.mem_order u
  exclusive := by
    refine inv.exclusive.imp ?_
    intro u v huv hu
    refine huv ?_
    by_cases htu : u = t
    · subst u
      simp [ht, CallAt.Holds]
    · simpa [htu] using hu
  lockOrder := horder

omit [Fintype T] in
theorem LockInv.runGet (inv : LockInv call table s) {t : T} {head : Option Addr} {key : Bytes}
    {keylen : ℕ} {hashval : UInt32} (ht : s.pc t = .run head)
    (hc : call t = .get key keylen hashval) : ∃ found,
      s.table.getFrom key keylen head = some found ∧ LockInv call table { s with
        result := Function.update s.result t (some found)
        pc := Function.update s.pc t .release } := by
  obtain ⟨chain, wf, hpending⟩ := inv.chains
  have hget := AHashTable.get_spec wf key keylen hashval
  have hfrom : s.table.getFrom key keylen head = s.table.get key keylen hashval := by
    rcases inv.head t head ht with rfl | ⟨rfl, hnone⟩
    · rw [hc]
      exact AHashTable.getFrom_head ..
    · rw [hc, Unanswered, wf.records] at hnone
      rw [hget, List.find?_eq_none.mpr (by simpa using hnone)]
      rfl
  refine ⟨_, hfrom.trans hget, ?_⟩
  refine inv.ran ht ⟨chain, wf, ?_⟩ (fun u head _ hu => inv.head u head hu) ?_
  · intro u hashval' kv hcu hu
    refine hpending u hashval' kv hcu ?_
    by_cases htu : u = t
    · subst u
      simp [hc] at hcu
    · simpa [htu] using hu
  · obtain ⟨before, after, horder, hbefore, hafter, hgets, -⟩ := inv.split ht
    obtain ⟨hold, hnew⟩ := filter_hasRun hbefore hafter
      (show ¬ (s.pc t).HasRun by simp [ht, CallAt.HasRun])
    have hrun := inv.lockOrder
    unfold InLockOrder at hrun ⊢
    simp only [horder, hold, hnew, exec_append] at hrun ⊢
    obtain ⟨r, hr, hrest⟩ := Option.bind_eq_some_iff.mp hrun
    rw [hr, Option.bind_some]
    exact exec_get_cons hc (fun hmem => hafter (List.mem_of_mem_filter hmem))
      (fun u hu => hgets u (List.mem_of_mem_filter hu)) hrest hget

omit [Fintype T] in
theorem LockInv.runSet (inv : LockInv call table s) (ready : Prepared call table) {t : T}
    {head : Option Addr} {hashval : UInt32} {kv : Addr} (ht : s.pc t = .run head)
    (hc : call t = .set hashval kv) : ∃ table',
      s.table.setFrom hashval kv head = some table' ∧ LockInv call table { s with
        table := table'
        pc := Function.update s.pc t .release } := by
  obtain ⟨chain, wf, hpending⟩ := inv.chains
  obtain ⟨hkv, hsome, hlt⟩ := hpending t hashval kv hc (by simp [ht, CallAt.HasRun])
  obtain ⟨r, hr⟩ := Option.isSome_iff_exists.mp hsome
  obtain ⟨table', hset, -, wf', hpayload, hfresh⟩ := AHashTable.set_spec wf hr hkv hlt hashval
  have hfrom : s.table.setFrom hashval kv head = s.table.set hashval kv := by
    rcases inv.head t head ht with rfl | ⟨-, hnone⟩
    · rw [hc]
      exact AHashTable.setFrom_head ..
    · rw [hc] at hnone
      exact hnone.elim
  obtain ⟨before, after, horder, hbefore, hafter, -, hlast⟩ := inv.split ht
  obtain rfl := hlast (by simp [hc, TableCall.Writes])
  refine ⟨table', hfrom.trans hset, ?_⟩
  refine inv.ran ht ⟨_, wf', ?_⟩ ?_ ?_
  · intro u hashval' kv' hcu hu
    have htu : u ≠ t := by
      rintro rfl
      simp [CallAt.HasRun] at hu
    obtain ⟨hkv', hsome', hlt'⟩ := hpending u hashval' kv' hcu (by simpa [htu] using hu)
    have hne : kv' ≠ kv := by
      rintro rfl
      exact htu (ready.own u t _ _ _ hcu hc)
    have hpay : table'.heap.payload kv' = s.table.heap.payload kv' := by
      rw [hpayload]
      exact AHashTable.released_of_ne fun hfind => hkv' _ (List.mem_of_find?_eq_some hfind)
    refine ⟨?_, ?_, hfresh ▸ hlt'⟩
    · intro b hb
      by_cases hbucket : b = s.table.bucket hashval
      · subst b
        rw [Function.update_self, mem_placed (wf.nodup _) (hkv _)] at hb
        rcases hb with rfl | ⟨hb, -⟩
        · exact hne rfl
        · exact hkv' _ hb
      · rw [Function.update_of_ne hbucket] at hb
        exact hkv' b hb
    · have hp := congrArg Option.isSome hpay
      simpa [Heap.payload, hsome'] using hp
  · intro u head' htu hu
    -- nobody else has the lock
    have hmem := (inv.mem_order u).mpr (by simp [hu, CallAt.Ordered])
    have hpair := inv.exclusive
    rw [horder, List.mem_append, List.mem_singleton] at hmem
    rw [horder, List.pairwise_append] at hpair
    have hpair := hpair.2.2 u (hmem.resolve_right htu) t List.mem_cons_self
      (by simp [hu, CallAt.Holds])
    exact absurd (by simp [hc, TableCall.Writes]) hpair.2
  · obtain ⟨hold, hnew⟩ := filter_hasRun hbefore hafter
      (show ¬ (s.pc t).HasRun by simp [ht, CallAt.HasRun])
    have hrun := inv.lockOrder
    unfold InLockOrder at hrun ⊢
    simp only [horder, hold, hnew, exec_append, List.filter_nil, exec_nil] at hrun ⊢
    rw [Option.bind_fun_some] at hrun
    rw [hrun]
    simp [callStep, hc, hset]

theorem LockInv.step (inv : LockInv call table s) (ready : Prepared call table) {t : T}
    (hcurrent : CurrentHead call s t) (h : lockStep call s t = some s') :
    LockInv call table s' := by
  unfold lockStep at h
  unfold CurrentHead at hcurrent
  cases hpc : s.pc t with
  | fetch =>
    rw [hpc] at h
    obtain rfl := Option.some.inj h
    exact inv.advance (by simp [hpc, CallAt.HasRun]) (by simp [hpc, CallAt.Ordered])
      (fun hholds => hholds.elim) (by simp)
  | acquire head =>
    rw [hpc] at h hcurrent
    obtain ⟨hfree, h⟩ := Option.ite_none_right_eq_some.mp h
    obtain rfl := Option.some.inj h
    exact inv.acquire hpc hfree hcurrent
  | run head =>
    rw [hpc] at h
    cases hc : call t with
    | set hashval kv =>
      obtain ⟨table', hset, inv'⟩ := inv.runSet ready hpc hc
      simp only [hc, hset, Option.map_some, Option.some.injEq] at h
      exact h ▸ inv'
    | get key keylen hashval =>
      obtain ⟨found, hget, inv'⟩ := inv.runGet hpc hc
      simp only [hc, hget, Option.map_some, Option.some.injEq] at h
      exact h ▸ inv'
  | release =>
    rw [hpc] at h
    obtain rfl := Option.some.inj h
    exact inv.advance (by simp [hpc, CallAt.HasRun]) (by simp [hpc, CallAt.Ordered])
      (fun hholds => hholds.elim) (by simp)
  | done =>
    rw [hpc] at h
    cases h

omit [Fintype T] in
/-- A call that holds the lock meets no released record. -/
theorem LockInv.defined [Fintype T] (inv : LockInv call table s) (ready : Prepared call table)
    {t : T} {head : Option Addr} (ht : s.pc t = .run head) : (lockStep call s t).isSome := by
  unfold lockStep
  rw [ht]
  cases hc : call t with
  | set hashval kv =>
    obtain ⟨table', hset, -⟩ := inv.runSet ready ht hc
    simp [hset]
  | get key keylen hashval =>
    obtain ⟨found, hget, -⟩ := inv.runGet ht hc
    simp [hget]

/-- In every run in which the head that a call fetched still holds when it acquires the lock, the table
and the results are those of the calls in the order in which they acquired the lock, and no call
that holds the lock meets a released record. -/
theorem inLockOrder_of_currentHead (call : T → TableCall) (table : AHashTable)
    (ready : Prepared call table) (acts : List T) (s : Threads T)
    (h : exec (lockStep call) (.init table) acts = some s)
    (hgood : Guarded (lockStep call) (CurrentHead call) (.init table) acts) :
    InLockOrder call table s ∧
      ∀ t head, s.pc t = .run head → (lockStep call s t).isSome := by
  have inv : LockInv call table s := hgood.invariant
    (fun _ _ _ inv hg hs => LockInv.step inv ready hg hs) (LockInv.init ready) h
  exact ⟨inv.lockOrder, fun t head ht => inv.defined ready ht⟩

def twoRecords : AHashTable :=
  let t := AHashTable.init 65535
  { t with heap := (t.heap.malloc (setRecord [97] [120])).malloc (setRecord [98] [121]) }

def storeBoth : Fin 3 → TableCall
  | 0 => .set 7 0
  | 1 => .set 7 1
  | 2 => .get [97] 1 7

theorem storeBoth_prepared : Prepared storeBoth twoRecords where
  wellFormed := by
    refine ⟨fun _ => [], ⟨fun _ => rfl, fun _ => trivial, fun _ => List.nodup_nil,
      fun _ _ _ _ ha => absurd ha List.not_mem_nil, fun _ _ ha => absurd ha List.not_mem_nil⟩, ?_⟩
    intro t hashval kv hc
    refine ⟨fun _ => List.not_mem_nil, ?_⟩
    fin_cases t <;> cases hc <;> decide
  own t u hashval hashval' kv ht hu := by
    fin_cases t <;> fin_cases u <;> cases ht <;> cases hu <;> rfl

theorem inLockOrder_storeBoth : ∃ s,
    exec (lockStep storeBoth) (.init twoRecords) [0, 0, 0, 0, 1, 2, 1, 1, 1, 2, 2] = some s ∧
      InLockOrder storeBoth twoRecords s := by
  obtain ⟨s, hs⟩ : ∃ s, exec (lockStep storeBoth) (.init twoRecords)
    [0, 0, 0, 0, 1, 2, 1, 1, 1, 2, 2] = some s := ⟨_, rfl⟩
  exact ⟨s, hs, (inLockOrder_of_currentHead storeBoth twoRecords storeBoth_prepared _ s hs
    (by decide)).1⟩

/-- When both calls of `set` fetch the head of the empty bucket before either has stored its record,
the second one takes the place of the first. -/
theorem inLockOrder_fails : ¬ ∀ (acts : List (Fin 3)) (s : Threads (Fin 3)),
    exec (lockStep storeBoth) (.init twoRecords) acts = some s →
      InLockOrder storeBoth twoRecords s := by
  intro hall
  have hrun : (exec (lockStep storeBoth) (.init twoRecords) [0, 1, 0, 0, 0, 1, 1, 1, 2, 2, 2]).map
      (fun s => (s.order.filter (fun t => (s.pc t).HasRun), s.result 2)) =
        some ([0, 1, 2], some none) := by decide
  have hseq : (exec (callStep storeBoth) (twoRecords, fun _ => none) [0, 1, 2]).map
      (fun r => r.2 2) = some (some (some 0)) := by decide
  obtain ⟨s, hs, hview⟩ := Option.map_eq_some_iff.mp hrun
  obtain ⟨hran, hfound⟩ := Prod.mk.inj hview
  have horder := hall _ s hs
  rw [InLockOrder, hran] at horder
  rw [horder] at hseq
  have hkept : s.result 2 = some (some 0) := Option.some.inj hseq
  exact absurd (hfound.symm.trans hkept) (by decide)

end Acached.HashTable
