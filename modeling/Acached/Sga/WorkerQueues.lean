import Acached.Sga.ThreadedSharedQ
import Mathlib.Logic.Function.Basic

/-! # The array of worker queues

The constructor of `acacheSGA` allocates as many slots as there are cores and
creates queues for them; a message is put on the queue at an index that depends
on its hash value. How many queues there are, how many threads each has, and
which indices are used are three expressions in the number of cores.
-/
namespace Acached.Sga
open Execution

def initCountThreadKVdata : ℕ := 2

def acachedHashSize : ℕ := 64 * 1024

/-- A queue of `class adaptThreadedSharedQ`, with the indices of the threads that serve it. -/
structure WorkerQ where
  threads : List ℕ
  deriving DecidableEq, Repr

def WorkerQ.create : ℕ → WorkerQ
  | 0 => ⟨[]⟩
  | i + 1 => ⟨(create i).threads ++ [i]⟩

/-- The array `aTSQGKVdata`: how many slots were allocated, and what was stored at which index,
inside it or not. -/
structure KVdataQueues where
  slots : ℕ
  aTSQGKVdata : ℕ → Option WorkerQ

namespace KVdataQueues

def malloc (slots : ℕ) : KVdataQueues := ⟨slots, fun _ => none⟩

def store (q : KVdataQueues) (i : ℕ) (w : WorkerQ) : KVdataQueues :=
  { q with aTSQGKVdata := Function.update q.aTSQGKVdata i (some w) }

def createLoop (numthreads : ℕ) (q : KVdataQueues) : ℕ → KVdataQueues
  | 0 => q
  | i + 1 => (createLoop numthreads q i).store i (.create numthreads)

def create (numCores : ℕ) : KVdataQueues :=
  let numTSQGKVdata := numCores
  createLoop (initCountThreadKVdata / numTSQGKVdata) (malloc numTSQGKVdata)
    (initCountThreadKVdata / numTSQGKVdata + 1)

/-- The loop that creates the queues stays inside the array. -/
def Inside (q : KVdataQueues) : Prop := ∀ i, (q.aTSQGKVdata i).isSome → i < q.slots

/-- The slot is one of the array, and in it is a queue that was created and that a thread serves. -/
def Live (q : KVdataQueues) (i : ℕ) : Prop :=
  i < q.slots ∧ ∃ w, q.aTSQGKVdata i = some w ∧ w.threads ≠ []

end KVdataQueues

/-- `KVdatathrindex` for a hash value, as it is computed at every place where a message is put. -/
def kvdatathrindex (numCores : ℕ) (hashval : UInt32) : ℕ :=
  let bucket := (hashval &&& UInt32.ofNat (acachedHashSize - 1)).toNat
  if bucket ≤ acachedHashSize / numCores then 0 else 1

def post2KVdataGetsIndex (numCores : ℕ) (hashval : UInt32) : ℕ := kvdatathrindex numCores hashval

def post2KVdataTSQIndex (numCores : ℕ) (hashval : UInt32) : ℕ := kvdatathrindex numCores hashval

/-- The queues are created inside their array, and those that messages with the hash value are put
on are live. -/
def ReachesWorker (numCores : ℕ) (hashval : UInt32) : Prop :=
  (KVdataQueues.create numCores).Inside ∧
    (KVdataQueues.create numCores).Live (post2KVdataTSQIndex numCores hashval) ∧
    (KVdataQueues.create numCores).Live (post2KVdataGetsIndex numCores hashval)

theorem WorkerQ.threads_create (n : ℕ) : (WorkerQ.create n).threads = List.range n := by
  induction n with
  | zero => rfl
  | succ n ih => rw [WorkerQ.create, ih, List.range_succ]

namespace KVdataQueues

theorem createLoop_slots (numthreads : ℕ) (q : KVdataQueues) (k : ℕ) :
    (createLoop numthreads q k).slots = q.slots := by
  induction k with
  | zero => rfl
  | succ k ih => exact ih

/-- The loop stores a queue at each index below the number of its rounds. -/
theorem createLoop_apply (numthreads : ℕ) (q : KVdataQueues) (k i : ℕ) :
    (createLoop numthreads q k).aTSQGKVdata i =
      if i < k then some (.create numthreads) else q.aTSQGKVdata i := by
  induction k with
  | zero => rfl
  | succ k ih =>
    rw [createLoop, store]
    dsimp only
    by_cases hi : i = k
    · subst i
      rw [Function.update_self, if_pos (Nat.lt_succ_self k)]
    · rw [Function.update_of_ne hi, ih]
      have hlt : i < k + 1 ↔ i < k := by omega
      simp only [hlt]

theorem create_apply (numCores i : ℕ) : (create numCores).aTSQGKVdata i =
    if i ≤ initCountThreadKVdata / numCores then
      some (.create (initCountThreadKVdata / numCores)) else none := by
  rw [create, createLoop_apply]
  simp only [Nat.lt_succ_iff]
  rfl

@[simp] theorem create_slots (numCores : ℕ) : (create numCores).slots = numCores :=
  createLoop_slots ..

/-- One more queue is created than each of them has threads. -/
theorem inside_create_iff (numCores : ℕ) :
    (create numCores).Inside ↔ initCountThreadKVdata / numCores < numCores := by
  unfold Inside
  simp only [create_apply, create_slots]
  constructor
  · intro h
    exact h _ (by rw [if_pos (Nat.le_refl _)]; rfl)
  · intro hlt i hi
    by_contra hle
    rw [if_neg (by omega)] at hi
    cases hi

theorem live_create_iff (numCores i : ℕ) :
    (create numCores).Live i ↔ i < numCores ∧ i ≤ initCountThreadKVdata / numCores ∧
      0 < initCountThreadKVdata / numCores := by
  unfold Live
  rw [create_apply, create_slots]
  refine and_congr_right fun _ => ?_
  by_cases hi : i ≤ initCountThreadKVdata / numCores
  · rw [if_pos hi]
    simp [WorkerQ.threads_create, hi, Nat.pos_iff_ne_zero]
  · simp [hi]

end KVdataQueues

theorem kvdatathrindex_le (numCores : ℕ) (hashval : UInt32) : kvdatathrindex numCores hashval ≤ 1 := by
  unfold kvdatathrindex
  dsimp only
  split <;> omega

/-- For every number of cores and every hash value, the queues are created inside their array and a
message with that hash value reaches a live one exactly if there are two cores. -/
theorem reachesWorker_iff (numCores : ℕ) (hcores : 1 ≤ numCores) (hashval : UInt32) :
    ReachesWorker numCores hashval ↔ numCores = 2 := by
  unfold ReachesWorker post2KVdataTSQIndex post2KVdataGetsIndex
  rw [KVdataQueues.inside_create_iff, KVdataQueues.live_create_iff, and_self]
  constructor
  · rintro ⟨hinside, -, -, hthreads⟩
    -- one core has no room for three queues, and more than two leave none with a thread
    have hle : numCores ≤ initCountThreadKVdata := by
      by_contra hlt
      rw [Nat.div_eq_of_lt (by omega)] at hthreads
      exact absurd hthreads (Nat.lt_irrefl 0)
    have hne : numCores ≠ 1 := by
      rintro rfl
      exact absurd hinside (by decide)
    have hcount : initCountThreadKVdata = 2 := rfl
    omega
  · rintro rfl
    have hindex := kvdatathrindex_le 2 hashval
    have hone : initCountThreadKVdata / 2 = 1 := rfl
    omega

theorem reachesWorker_twoCores : 1 ≤ 2 ∧ ReachesWorker 2 40000 :=
  ⟨by decide, (reachesWorker_iff 2 (by decide) 40000).mpr rfl⟩

/-- On four cores the one queue that is created has no threads. -/
theorem reachesWorker_fails : ¬ ∀ numCores, 1 ≤ numCores → ∀ hashval, ReachesWorker numCores hashval := by
  intro h
  obtain ⟨-, ⟨-, w, hw, hthreads⟩, -⟩ := h 4 (by decide) 0
  obtain rfl := Option.some.inj hw
  exact hthreads rfl

/-- What is put on a queue without threads stays there. -/
theorem gets_eq_nil_of_isEmpty {W M : Type} [Fintype W] [DecidableEq W] [IsEmpty W]
    {as : List (QAct W M)} {t : ThreadedSharedQ W M} (h : exec qstep (.init W M) as = some t) :
    t.gets = [] ∧ t.q = t.puts := by
  have inv : QInv t := by
    refine exec_invariant (fun _ _ _ inv hs => inv.step hs) ⟨rfl, ?_⟩ h
    exact fun ⟨w, _⟩ => isEmptyElim w
  have hgets : t.gets = [] := List.eq_nil_iff_forall_not_mem.mpr fun g _ => isEmptyElim g.1
  have hfifo := inv.fifo
  rw [hgets] at hfifo
  exact ⟨hgets, hfifo⟩

end Acached.Sga
