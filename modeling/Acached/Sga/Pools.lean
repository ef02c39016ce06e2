import Acached.Foundation.Execution
import Mathlib.Data.List.Nodup
import Mathlib.Data.List.Range

/-! # The object pools

The queues of `adaptFBSharedQ` from which messages and connections are handed
out and to which they are released. An object is the number it has among those
its pool created.
-/
namespace Acached.Sga
open Execution

/-- `INIT_COUNT_GLOBAL_MSG` and `INIT_COUNT_GLOBAL_CONN`. -/
def initCountGlobalMsg : ℕ := 8000

def initCountGlobalConn : ℕ := 500

/-- An entry of a queue; `none` is `NULL`. -/
abbrev Ptr := Option ℕ

/-- `class adaptFBSharedQ`, and how many objects were created for it. -/
structure FBSharedQ where
  freeQ : List Ptr
  busyQ : List Ptr
  created : ℕ

namespace FBSharedQ

/-- `aFBSQGetFree`, which is `NULL` for an empty queue. -/
def aFBSQGetFree (q : FBSharedQ) : Ptr × FBSharedQ :=
  (q.freeQ.head?.join, { q with freeQ := q.freeQ.tail })

def aFBSQPutBusy (q : FBSharedQ) (ptr : Ptr) : FBSharedQ := { q with busyQ := q.busyQ ++ [ptr] }

/-- `std::list::remove` takes out every entry that is equal. -/
def aFBSQRemoveBusy (q : FBSharedQ) (ptr : Ptr) : FBSharedQ :=
  { q with busyQ := q.busyQ.filter (· ≠ ptr) }

def aFBSQPutFree (q : FBSharedQ) (ptr : Ptr) : FBSharedQ := { q with freeQ := q.freeQ ++ [ptr] }

def create (q : FBSharedQ) (n : ℕ) : FBSharedQ :=
  { q with freeQ := q.freeQ ++ (List.range' q.created n).map some, created := q.created + n }

def aSGAAllocate (q : FBSharedQ) : Ptr × FBSharedQ :=
  (q.aFBSQGetFree.1, q.aFBSQGetFree.2.aFBSQPutBusy q.aFBSQGetFree.1)

def aSGARelease (q : FBSharedQ) (ptr : Ptr) : FBSharedQ :=
  (q.aFBSQRemoveBusy ptr).aFBSQPutFree ptr

/-- The loop of `aMsgAllocate`, with a bound on its rounds. -/
def aMsgAllocateLoop : ℕ → FBSharedQ → Option (ℕ × FBSharedQ)
  | 0, _ => none
  | rounds + 1, q => match q.aSGAAllocate with
    | (some ptr, q) => some (ptr, q)
    | (none, q) => aMsgAllocateLoop rounds (q.create initCountGlobalMsg)

/-- `acacheSGA::aMsgAllocate`. Every round takes the first entry of the free queue, and the objects
created in the first round are behind those that are there. -/
def aMsgAllocate (q : FBSharedQ) : Option (ℕ × FBSharedQ) :=
  aMsgAllocateLoop (q.freeQ.length + 2) q

end FBSharedQ

/-- A pool with what its users have: the objects that were handed out and not yet released, and for
each allocation what it handed out and whether that was in use. -/
structure Pool extends FBSharedQ where
  out : List ℕ
  handed : List (Ptr × Bool)

def Pool.init (n : ℕ) : Pool := ⟨FBSharedQ.create ⟨[], [], 0⟩ n, [], []⟩

def Pool.handOut (p : Pool) (ptr : Ptr) (q : FBSharedQ) : Pool where
  toFBSharedQ := q
  out := p.out ++ ptr.toList
  handed := p.handed ++ [(ptr, ptr.any (· ∈ p.out))]

def Pool.takeBack (p : Pool) (x : ℕ) : Pool where
  toFBSharedQ := p.aSGARelease (some x)
  out := p.out.erase x
  handed := p.handed

structure AcacheSGA where
  aFBSQGaMsg : Pool
  aFBSQGaConn : Pool

def AcacheSGA.init : AcacheSGA := ⟨.init initCountGlobalMsg, .init initCountGlobalConn⟩

inductive Call where
  | aMsgAllocate
  | aMsgRelease (aM : ℕ)
  | aConnAllocate
  | aConnRelease (aC : ℕ)
  deriving DecidableEq, Repr

/-- One call. Only objects that are out are released. -/
def step (s : AcacheSGA) : Call → Option AcacheSGA
  | .aMsgAllocate => s.aFBSQGaMsg.aMsgAllocate.map fun (aM, q) =>
      { s with aFBSQGaMsg := s.aFBSQGaMsg.handOut (some aM) q }
  | .aMsgRelease aM =>
    if aM ∈ s.aFBSQGaMsg.out then some { s with aFBSQGaMsg := s.aFBSQGaMsg.takeBack aM } else none
  | .aConnAllocate =>
    let r := s.aFBSQGaConn.aSGAAllocate
    some { s with aFBSQGaConn := s.aFBSQGaConn.handOut r.1 r.2 }
  | .aConnRelease aC =>
    if aC ∈ s.aFBSQGaConn.out then some { s with aFBSQGaConn := s.aFBSQGaConn.takeBack aC }
    else none

/-- The two queues are a partition of the objects created, the busy one holds those that are out,
and every allocation handed out an object that was not in use. -/
structure Pool.Partitioned (p : Pool) : Prop where
  freeQ_nodup : p.freeQ.Nodup
  busyQ_nodup : p.busyQ.Nodup
  disjoint : p.freeQ.Disjoint p.busyQ
  whole : ∀ x, some x ∈ p.freeQ ∨ some x ∈ p.busyQ ↔ x < p.created
  busyQ_out : ∀ x, some x ∈ p.busyQ ↔ x ∈ p.out
  out_nodup : p.out.Nodup
  freeQ_object : none ∉ p.freeQ
  busyQ_object : none ∉ p.busyQ
  handed_object : ∀ h ∈ p.handed, h.1 ≠ none ∧ h.2 = false

/-- A call that allocates finds an object on the free queue. -/
def Available (s : AcacheSGA) : Call → Prop
  | .aMsgAllocate => s.aFBSQGaMsg.freeQ ≠ []
  | .aConnAllocate => s.aFBSQGaConn.freeQ ≠ []
  | _ => True

instance (s : AcacheSGA) : ∀ c, Decidable (Available s c)
  | .aMsgAllocate => inferInstanceAs (Decidable (_ ≠ _))
  | .aConnAllocate => inferInstanceAs (Decidable (_ ≠ _))
  | .aMsgRelease _ => isTrue trivial
  | .aConnRelease _ => isTrue trivial

theorem Pool.init_partitioned (n : ℕ) : (Pool.init n).Partitioned where
  freeQ_nodup := by
    simpa [Pool.init, FBSharedQ.create] using
      (List.nodup_range' : (List.range' _ _ 1).Nodup).map (Option.some_injective ℕ)
  busyQ_nodup := List.nodup_nil
  disjoint := by simp [Pool.init, FBSharedQ.create, List.disjoint_nil_right]
  whole x := by simp [Pool.init, FBSharedQ.create]
  busyQ_out x := by simp [Pool.init, FBSharedQ.create]
  out_nodup := List.nodup_nil
  freeQ_object := by simp [Pool.init, FBSharedQ.create]
  busyQ_object := by simp [Pool.init, FBSharedQ.create]
  handed_object h hh := absurd hh List.not_mem_nil

namespace Pool

variable {p : Pool}

theorem Partitioned.head_object (hp : p.Partitioned) (hne : p.freeQ ≠ []) :
    ∃ x rest, p.freeQ = some x :: rest := by
  obtain ⟨ptr, rest, hfree⟩ := List.exists_cons_of_ne_nil hne
  cases ptr with
  | none => exact absurd (by simp [hfree]) hp.freeQ_object
  | some x => exact ⟨x, rest, hfree⟩

theorem Partitioned.allocate (hp : p.Partitioned) {x : ℕ} {rest : List Ptr}
    (hfree : p.freeQ = some x :: rest) :
    (p.handOut (some x) p.aSGAAllocate.2).Partitioned := by
  have hnodup := hfree ▸ hp.freeQ_nodup
  have hdisj := hfree ▸ hp.disjoint
  rw [List.nodup_cons] at hnodup
  rw [List.disjoint_cons_left] at hdisj
  have hx : x ∉ p.out := fun h => hdisj.1 ((hp.busyQ_out x).mpr h)
  have hq : p.aSGAAllocate.2 = ⟨rest, p.busyQ ++ [some x], p.created⟩ := by
    simp [FBSharedQ.aSGAAllocate, FBSharedQ.aFBSQGetFree, FBSharedQ.aFBSQPutBusy, hfree]
  have hout : p.handOut (some x) p.aSGAAllocate.2 =
      ⟨⟨rest, p.busyQ ++ [some x], p.created⟩, p.out ++ [x], p.handed ++ [(some x, false)]⟩ := by
    simp [handOut, hq, hx]
  rw [hout]
  exact {
    freeQ_nodup := hnodup.2
    busyQ_nodup := by
      rw [List.nodup_append]
      refine ⟨hp.busyQ_nodup, List.nodup_singleton _, ?_⟩
      intro a ha b hb
      rw [List.mem_singleton.mp hb]
      exact ne_of_mem_of_not_mem ha hdisj.1
    disjoint := by
      intro a ha hb
      rcases List.mem_append.mp hb with hb | hb
      · exact hdisj.2 ha hb
      · exact hnodup.1 (List.mem_singleton.mp hb ▸ ha)
    whole := fun y => by
      have hy := hp.whole y
      simp only [hfree, List.mem_cons, List.mem_append, List.not_mem_nil, or_false] at hy ⊢
      tauto
    busyQ_out := fun y => by
      have hy := hp.busyQ_out y
      simp only [List.mem_append, List.mem_singleton, Option.some.injEq, hy]
    out_nodup := by
      rw [List.nodup_append]
      refine ⟨hp.out_nodup, List.nodup_singleton _, ?_⟩
      intro a ha b hb
      rw [List.mem_singleton.mp hb]
      exact ne_of_mem_of_not_mem ha hx
    freeQ_object := fun h => hp.freeQ_object (hfree ▸ List.mem_cons_of_mem _ h)
    busyQ_object := by simpa using hp.busyQ_object
    handed_object := fun h hh => by
      rcases List.mem_append.mp hh with hh | hh
      · exact hp.handed_object h hh
      · simp [List.mem_singleton.mp hh] }

theorem Partitioned.takeBack (hp : p.Partitioned) {x : ℕ} (hx : x ∈ p.out) :
    (p.takeBack x).Partitioned := by
  have hbusy : some x ∈ p.busyQ := (hp.busyQ_out x).mpr hx
  have hfree : some x ∉ p.freeQ := fun h => hp.disjoint h hbusy
  have hmem (a : Ptr) : a ∈ p.busyQ.filter (· ≠ some x) ↔ a ∈ p.busyQ ∧ a ≠ some x := by
    simp [List.mem_filter]
  have hout : p.takeBack x = ⟨⟨p.freeQ ++ [some x], p.busyQ.filter (· ≠ some x), p.created⟩,
      p.out.erase x, p.handed⟩ := rfl
  rw [hout]
  exact {
    freeQ_nodup := by
      rw [List.nodup_append]
      refine ⟨hp.freeQ_nodup, List.nodup_singleton _, ?_⟩
      intro a ha b hb
      rw [List.mem_singleton.mp hb]
      exact ne_of_mem_of_not_mem ha hfree
    busyQ_nodup := hp.busyQ_nodup.filter _
    disjoint := by
      intro a ha hb
      rw [hmem] at hb
      rcases List.mem_append.mp ha with ha | ha
      · exact hp.disjoint ha hb.1
      · exact hb.2 (List.mem_singleton.mp ha)
    whole := fun y => by
      have hy := hp.whole y
      by_cases hyx : y = x
      · subst y
        simp only [List.mem_append, List.mem_singleton, hmem]
        tauto
      · simpa [List.mem_append, hmem, hyx] using hy
    busyQ_out := fun y => by
      have hy := hp.busyQ_out y
      rw [hmem, hp.out_nodup.mem_erase_iff, ← hy, ne_eq, Option.some.injEq]
      tauto
    out_nodup := hp.out_nodup.erase x
    freeQ_object := by simpa using hp.freeQ_object
    busyQ_object := fun h => hp.busyQ_object ((hmem none).mp h).1
    handed_object := hp.handed_object }

theorem null_mem_aSGAAllocate {q : FBSharedQ} (h : none ∈ q.busyQ) :
    none ∈ q.aSGAAllocate.2.busyQ :=
  List.mem_append_left _ h

/-- `aSGAAllocate` does not look at what it got. -/
theorem null_mem_of_empty {q : FBSharedQ} (h : q.freeQ = []) : none ∈ q.aSGAAllocate.2.busyQ := by
  simp [FBSharedQ.aSGAAllocate, FBSharedQ.aFBSQGetFree, FBSharedQ.aFBSQPutBusy, h]

theorem null_mem_aMsgAllocateLoop {q : FBSharedQ} {rounds : ℕ} {r : ℕ × FBSharedQ}
    (hq : none ∈ q.busyQ) (h : q.aMsgAllocateLoop rounds = some r) : none ∈ r.2.busyQ := by
  induction rounds generalizing q with
  | zero => cases h
  | succ rounds ih =>
    have hnext := null_mem_aSGAAllocate hq
    rw [FBSharedQ.aMsgAllocateLoop] at h
    split at h
    · next ptr q' he =>
      obtain rfl := Option.some.inj h
      simpa [he] using hnext
    · next q' he => exact ih (by simpa [he, FBSharedQ.create] using hnext) h

theorem null_mem_takeBack (x : ℕ) (h : none ∈ p.busyQ) : none ∈ (p.takeBack x).busyQ := by
  simpa [takeBack, FBSharedQ.aSGARelease, FBSharedQ.aFBSQRemoveBusy, FBSharedQ.aFBSQPutFree] using h

/-- The loop of `aMsgAllocate` ends in the round that finds an object. -/
theorem aMsgAllocateLoop_isSome {q : FBSharedQ} {rounds k x : ℕ} (hk : k < rounds)
    (hx : q.freeQ[k]? = some (some x)) : (q.aMsgAllocateLoop rounds).isSome := by
  induction rounds generalizing q k with
  | zero => omega
  | succ rounds ih =>
    rw [FBSharedQ.aMsgAllocateLoop]
    split
    · rfl
    · next q' he =>
      obtain ⟨hnull, rfl⟩ := Prod.mk.inj he
      cases k with
      | zero => simp [FBSharedQ.aFBSQGetFree, List.head?_eq_getElem?, hx] at hnull
      | succ k =>
        refine ih (k := k) (by omega) ?_
        have hlt : k < q.freeQ.tail.length := by
          have := (List.getElem?_eq_some_iff.mp hx).1
          rw [List.length_tail]
          omega
        change (q.freeQ.tail ++ _)[k]? = _
        rw [List.getElem?_append_left hlt, List.getElem?_tail, hx]

/-- The bound on the rounds is never met. -/
theorem aMsgAllocate_isSome (q : FBSharedQ) : q.aMsgAllocate.isSome := by
  rw [FBSharedQ.aMsgAllocate, FBSharedQ.aMsgAllocateLoop]
  split
  · rfl
  · next q' he =>
    obtain ⟨-, rfl⟩ := Prod.mk.inj he
    refine aMsgAllocateLoop_isSome (k := q.freeQ.tail.length) (x := q.created) ?_ ?_
    · rw [List.length_tail]
      omega
    · change (q.freeQ.tail ++ _)[_]? = _
      rw [List.getElem?_append_right le_rfl, Nat.sub_self]
      rfl

theorem aMsgAllocate_of_cons {q : FBSharedQ} {x : ℕ} {rest : List Ptr}
    (h : q.freeQ = some x :: rest) : q.aMsgAllocate = some (x, q.aSGAAllocate.2) := by
  simp [FBSharedQ.aMsgAllocate, FBSharedQ.aMsgAllocateLoop, FBSharedQ.aSGAAllocate,
    FBSharedQ.aFBSQGetFree, h]

/-- With an empty free queue it goes on, and what it put on the busy queue stays there. -/
theorem null_mem_aMsgAllocate {q : FBSharedQ} {r : ℕ × FBSharedQ} (hq : q.freeQ = [])
    (h : q.aMsgAllocate = some r) : none ∈ r.2.busyQ := by
  have hnull := null_mem_of_empty hq
  have hfirst : q.aSGAAllocate.1 = none := by
    simp [FBSharedQ.aSGAAllocate, FBSharedQ.aFBSQGetFree, hq]
  rw [FBSharedQ.aMsgAllocate, FBSharedQ.aMsgAllocateLoop] at h
  split at h
  · next ptr q' he => simp [he] at hfirst
  · next q' he =>
    exact null_mem_aMsgAllocateLoop (by simpa [he, FBSharedQ.create] using hnull) h

end Pool

/-- A `NULL` stands on one of the busy queues. -/
def NullBusy (s : AcacheSGA) : Prop := none ∈ s.aFBSQGaMsg.busyQ ∨ none ∈ s.aFBSQGaConn.busyQ

theorem step_partitioned {s t : AcacheSGA} {c : Call}
    (hs : s.aFBSQGaMsg.Partitioned ∧ s.aFBSQGaConn.Partitioned) (havail : Available s c)
    (h : step s c = some t) : t.aFBSQGaMsg.Partitioned ∧ t.aFBSQGaConn.Partitioned := by
  cases c with
  | aMsgAllocate =>
    obtain ⟨x, rest, hfree⟩ := hs.1.head_object havail
    rw [step, Pool.aMsgAllocate_of_cons hfree] at h
    obtain rfl := Option.some.inj h
    exact ⟨hs.1.allocate hfree, hs.2⟩
  | aMsgRelease aM =>
    obtain ⟨hout, h⟩ := Option.ite_none_right_eq_some.mp h
    obtain rfl := Option.some.inj h
    exact ⟨hs.1.takeBack hout, hs.2⟩
  | aConnAllocate =>
    obtain ⟨x, rest, hfree⟩ := hs.2.head_object havail
    have hfirst : s.aFBSQGaConn.aSGAAllocate.1 = some x := by
      simp [FBSharedQ.aSGAAllocate, FBSharedQ.aFBSQGetFree, hfree]
    obtain rfl := Option.some.inj h
    refine ⟨hs.1, ?_⟩
    change (s.aFBSQGaConn.handOut s.aFBSQGaConn.aSGAAllocate.1 _).Partitioned
    rw [hfirst]
    exact hs.2.allocate hfree
  | aConnRelease aC =>
    obtain ⟨hout, h⟩ := Option.ite_none_right_eq_some.mp h
    obtain rfl := Option.some.inj h
    exact ⟨hs.1, hs.2.takeBack hout⟩

theorem step_nullBusy_of_unavailable {s t : AcacheSGA} {c : Call} (havail : ¬ Available s c)
    (h : step s c = some t) : NullBusy t := by
  cases c with
  | aMsgAllocate =>
    obtain ⟨r, hr, rfl⟩ := Option.map_eq_some_iff.mp h
    exact .inl (Pool.null_mem_aMsgAllocate (not_not.mp havail) hr)
  | aConnAllocate =>
    obtain rfl := Option.some.inj h
    exact .inr (Pool.null_mem_of_empty (not_not.mp havail))
  | aMsgRelease aM | aConnRelease aC => exact absurd trivial havail

theorem step_nullBusy {s t : AcacheSGA} {c : Call} (hs : NullBusy s) (h : step s c = some t) :
    NullBusy t := by
  cases c with
  | aMsgAllocate =>
    obtain ⟨r, hr, rfl⟩ := Option.map_eq_some_iff.mp h
    exact hs.imp_left fun hs => Pool.null_mem_aMsgAllocateLoop hs hr
  | aMsgRelease aM =>
    obtain ⟨-, h⟩ := Option.ite_none_right_eq_some.mp h
    obtain rfl := Option.some.inj h
    exact hs.imp_left (Pool.null_mem_takeBack aM)
  | aConnAllocate =>
    obtain rfl := Option.some.inj h
    exact hs.imp_right Pool.null_mem_aSGAAllocate
  | aConnRelease aC =>
    obtain ⟨-, h⟩ := Option.ite_none_right_eq_some.mp h
    obtain rfl := Option.some.inj h
    exact hs.imp_right (Pool.null_mem_takeBack aC)

/-- The pools are partitions after a run exactly when no call of it allocated from an empty free
queue. -/
theorem partitioned_iff (calls : List Call) (t : AcacheSGA) (h : exec step .init calls = some t) :
    (t.aFBSQGaMsg.Partitioned ∧ t.aFBSQGaConn.Partitioned) ↔
      Guarded step Available .init calls := by
  have hinit : AcacheSGA.init.aFBSQGaMsg.Partitioned ∧ AcacheSGA.init.aFBSQGaConn.Partitioned :=
    ⟨Pool.init_partitioned _, Pool.init_partitioned _⟩
  constructor
  · intro ht
    have hrun := @guarded_or_bad _ _ _ Available
      (fun s => s.aFBSQGaMsg.Partitioned ∧ s.aFBSQGaConn.Partitioned) NullBusy (fun _ => True)
      (fun _ _ _ hs _ hgood hstep => step_partitioned hs hgood hstep)
      (fun _ _ _ _ _ hbad hstep => step_nullBusy_of_unavailable hbad hstep)
      (fun _ _ _ hs _ hstep => step_nullBusy hs hstep) _ _ _ hinit (fun _ _ => trivial) h
    rcases hrun with hg | hmsg | hconn
    · exact hg
    · exact absurd hmsg ht.1.busyQ_object
    · exact absurd hconn ht.2.busyQ_object
  · intro hg
    exact hg.invariant (fun _ _ _ hs hgood hstep => step_partitioned hs hgood hstep) hinit h

/-- Two messages out, the first one back, and a connection out. -/
def fewCalls : List Call := [.aMsgAllocate, .aMsgAllocate, .aMsgRelease 0, .aConnAllocate]

theorem partitioned_fewCalls : ∃ t, exec step .init fewCalls = some t ∧
    t.aFBSQGaMsg.Partitioned ∧ t.aFBSQGaConn.Partitioned := by
  obtain ⟨t, ht⟩ := Option.isSome_iff_exists.mp
    (show (exec step .init fewCalls).isSome by decide +kernel)
  exact ⟨t, ht, (partitioned_iff fewCalls t ht).mpr (by decide +kernel)⟩

theorem exec_aConnAllocate (s : AcacheSGA) (n : ℕ) : ∃ t,
    exec step s (List.replicate n .aConnAllocate) = some t ∧
      t.aFBSQGaConn.freeQ = s.aFBSQGaConn.freeQ.drop n := by
  induction n generalizing s with
  | zero => exact ⟨s, rfl, rfl⟩
  | succ n ih =>
    let r := s.aFBSQGaConn.aSGAAllocate
    obtain ⟨t, ht, hfree⟩ := ih { s with aFBSQGaConn := s.aFBSQGaConn.handOut r.1 r.2 }
    refine ⟨t, ht, hfree.trans ?_⟩
    exact List.drop_tail

/-- One connection more than the constructor made, with none of them released. -/
theorem partitioned_fails : ¬ ∀ (calls : List Call) (t : AcacheSGA),
    exec step .init calls = some t → t.aFBSQGaMsg.Partitioned ∧ t.aFBSQGaConn.Partitioned := by
  intro hall
  obtain ⟨s, hs, hfree⟩ := exec_aConnAllocate .init initCountGlobalConn
  have hempty : s.aFBSQGaConn.freeQ = [] := by
    rw [hfree]
    simp [AcacheSGA.init, Pool.init, FBSharedQ.create]
  have hrun : exec step .init (List.replicate initCountGlobalConn .aConnAllocate ++
      [.aConnAllocate]) = step s .aConnAllocate := by
    rw [exec_append, hs]
    rfl
  exact (hall _ _ hrun).2.busyQ_object (Pool.null_mem_of_empty hempty)

end Acached.Sga
