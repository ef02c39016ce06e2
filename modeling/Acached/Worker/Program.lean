import Acached.Dispatch.CommThread
import Acached.Reply.QReply
import Acached.Foundation.Execution

/-! # A connection with its comm thread and its workers

The worker thread `thrKVdata` as a program over the fields of a connection,
with every access to a field that another thread uses as one step. What a
worker stores in or finds in the hash table is an input of its step, and so is
the result of `sendmsg`; what the final `WriteAllOnce` of a get hands over is
left out. Which thread takes which message is left to the runs.
-/
namespace Acached.Worker
open CString Dispatch Reply Execution

/-- The five writes that end the reply of a command, in the order of the source. -/
inductive ResetAt where
  | windexlast | totalsize | iovIndex | replyCount | writingflag
  deriving DecidableEq, Repr

def ResetAt.next : ResetAt → Option ResetAt
  | .windexlast => some .totalsize
  | .totalsize => some .iovIndex
  | .iovIndex => some .replyCount
  | .replyCount => some .writingflag
  | .writingflag => none

/-- Where a worker stands. The `set` branch runs from `setIndex` to `setRelease`, its resets carry
no index. The `get` branch runs from `lookup` to `compare` for each key, and on to `getRelease` for
the worker that completes the command; `ret2` is the index behind the `END` entry. -/
inductive Pc where
  | idle
  | setIndex
  | setAdd (index : ℕ)
  | setSend
  | setRelease
  | lookup (aM : AMsg)
  | qreply (q : QPc)
  | incr
  | readPending
  | readReq
  | swap (e : ℕ)
  | compare (ret : ℕ)
  | clearReq
  | endIndex
  | endAdd (index : ℕ)
  | endTotal (ret2 : ℕ)
  | endZero (ret2 : ℕ)
  | endWindow (ret2 : ℕ)
  | endWait (ret2 y : ℕ)
  | endScan (ret2 y : ℕ)
  | endFlag (ret2 y : ℕ)
  | endWrite (ret2 y : ℕ)
  | reset (k : ResetAt) (ret2 : Option ℕ)
  | endFree (ret2 : ℕ)
  | getRelease
  | test
  | write
  deriving DecidableEq, Repr

/-- What is recorded of the command dispatched last: the keys of its line, how many of them were
answered, how many had been at each completion, its `END` lines, and its releases of `Busy`. -/
structure Record where
  keys : ℕ
  answered : ℕ
  completions : List ℕ
  ends : ℕ
  releases : ℕ
  deriving DecidableEq, Repr

/-- The connection. Messages that wait for a worker, and the message that a worker took last, are
recorded with the number of their command. -/
structure Session (W : Type) extends ReqState where
  reply : IovReply
  queue : List (ℕ × AMsg)
  worker : W → Pc
  cmd : W → ℕ
  record : Record

def Session.init (W : Type) (ctype : ACmdType) : Session W where
  toReqState := .init ctype
  reply := .init
  queue := []
  worker _ := .idle
  cmd _ := 0
  record := ⟨0, 0, [], 0, 0⟩

/-- A step of a worker gets what `ahashtable::get` led to, the header and value to queue or
nothing, and what `sendmsg` returns. -/
inductive Act (W : Type) where
  | comm (a : CommAct)
  | take (w : W) (m : ℕ × AMsg)
  | step (w : W) (found : Option (Bytes × Bytes)) (r : ℤ)
  deriving DecidableEq, Repr

variable {W : Type}

def Session.reset (s : Session W) : ResetAt → Session W
  | .windexlast => { s with reply := { s.reply with windexlast := 0 } }
  | .totalsize => { s with reply := { s.reply with totalsize := 0 } }
  | .iovIndex => { s with reply := { s.reply with iovIndex := 0 } }
  | .replyCount => { s with replyCount := 0 }
  | .writingflag => { s with reply := { s.reply with writingflag := false } }

def freeEntries (s : IovReply) (ret2 : ℕ) : IovReply :=
  { s with
    iovec := fun i => if i < ret2 then [] else s.iovec i
    written := fun i => if i < ret2 then false else s.written i
    original := fun i => if i < ret2 then none else s.original i }

/-- The branch of `thrKVdata` on `aM->ctype`; the default branch does nothing. -/
def start (aM : AMsg) : Pc :=
  match aM.ctype with
  | .set => .setIndex
  | .gets => .lookup aM
  | _ => .idle

/-- A step of `thrKVdata`: where the worker goes, and the connection after it. The two loops that
wait for the flag and for the `WRITTEN` bits are steps that are not enabled before. -/
def Session.next (s : Session W) (found : Option (Bytes × Bytes)) (r : ℤ) :
    Pc → Option (Pc × Session W)
  | .idle => none
  | .setIndex => some (.setAdd s.reply.iovIndex,
      { s with reply := { s.reply with iovIndex := s.reply.iovIndex + 1 } })
  | .setAdd index => some (.setSend, { s with reply := s.reply.addIOVReply stored index })
  | .setSend => some (.setRelease, { s with
      reply := { s.reply with sent := s.reply.sent ++ (s.reply.iovec 0).take r.toNat } })
  | .setRelease => some (.reset .windexlast none, { s with
      busy := false, record := { s.record with releases := s.record.releases + 1 } })
  | .lookup _ => match found with
    | none => some (.incr, s)
    | some (hdr, val) => some (.qreply (.reserve hdr val), s)
  | .qreply q =>
    if q = .done then some (.incr, s)
    else (q.step r s.reply).map fun (q, reply) => (.qreply q, { s with reply := reply })
  | .incr => some (.readPending, { s with
      replyCount := s.replyCount + 1
      record := { s.record with answered := s.record.answered + 1 } })
  | .readPending => some (if s.concPending then .idle else .readReq, s)
  | .readReq => some (.swap s.reqCount, s)
  | .swap e => some (.compare s.replyCount,
      { s with replyCount := if s.replyCount = e then 0 else s.replyCount })
  | .compare ret =>
    if ret = s.reqCount then some (.clearReq, { s with
      record := { s.record with completions := s.record.completions ++ [s.record.answered] } })
    else some (.idle, s)
  | .clearReq => some (.endIndex, { s with reqCount := 0 })
  | .endIndex => some (.endAdd s.reply.iovIndex,
      { s with reply := { s.reply with iovIndex := s.reply.iovIndex + 1 } })
  | .endAdd index => some (.endTotal (index + 1),
      { s with reply := s.reply.addIOVReply endLine index })
  | .endTotal ret2 => some (.endZero ret2,
      { s with reply := { s.reply with totalsize := s.reply.totalsize + 5 } })
  | .endZero ret2 => some (.endWindow ret2, { s with reply := { s.reply with iovIndex := 0 } })
  | .endWindow ret2 => some (.endWait ret2 s.reply.windexlast, s)
  | .endWait ret2 y => if s.reply.writingflag then none else some (.endScan ret2 y, s)
  | .endScan ret2 y =>
    if ∀ i < ret2, y ≤ i → s.reply.written i = true then some (.endFlag ret2 y, s) else none
  | .endFlag ret2 y => some (.endWrite ret2 y,
      { s with reply := { s.reply with writingflag := false } })
  | .endWrite ret2 _ => some (.reset .windexlast (some ret2),
      { s with record := { s.record with ends := s.record.ends + 1 } })
  | .reset k ret2 => some (match k.next, ret2 with
      | some k', _ => .reset k' ret2
      | none, some n => .endFree n
      | none, none => .test, s.reset k)
  | .endFree ret2 => some (.getRelease, { s with reply := freeEntries s.reply ret2 })
  | .getRelease => some (.test, { s with
      busy := false, record := { s.record with releases := s.record.releases + 1 } })
  | .test => some (if s.pendingCmdQ.isEmpty then .idle else .write, s)
  | .write => some (.idle, { s with pipe := s.pipe + 1 })

def Record.dispatched (hash : Bytes → UInt32) (s : ReqState) (a : CommAct) (record : Record) :
    Record :=
  match s.dispatching a with
  | none => record
  | some aM => match dispatch hash s.ctype aM with
    | .split msgs => ⟨msgs.length, 0, [], 0, 0⟩
    | _ => ⟨0, 0, [], 0, 0⟩

def step [DecidableEq W] (hash : Bytes → UInt32) (s : Session W) : Act W → Option (Session W)
  | .comm a => (s.toReqState.step hash a).map fun (q, put) => { s with
      toReqState := q
      queue := s.queue ++ put.map fun aM => (q.dispatched.length, aM)
      record := s.record.dispatched hash s.toReqState a }
  | .take w m =>
    if s.worker w = .idle ∧ m ∈ s.queue then some { s with
      queue := s.queue.erase m
      worker := Function.update s.worker w (start m.2)
      cmd := Function.update s.cmd w m.1 }
    else none
  | .step w found r => (s.next found r (s.worker w)).map fun (pc, s') =>
      { s' with worker := Function.update s.worker w pc }

/-- The worker has released `Busy` and done its resets, or has nothing to do. -/
@[simp] def Pc.Tail : Pc → Prop
  | .idle | .test | .write => True
  | _ => False

instance : DecidablePred Pc.Tail := fun pc => by
  cases pc <;> simp only [Pc.Tail] <;> infer_instance

/-- All that a step of a worker can change of the connection. -/
theorem Session.next_spec {s s' : Session W} {found : Option (Bytes × Bytes)} {r : ℤ} {pc pc' : Pc}
    (h : s.next found r pc = some (pc', s')) : ∃ busy reqCount replyCount pipe reply record,
      s' = { s with
        busy := busy, reqCount := reqCount, replyCount := replyCount, pipe := pipe
        reply := reply, record := record } := by
  cases pc with
  | idle => cases h
  | lookup aM => cases found <;> cases h <;> exact ⟨_, _, _, _, _, _, rfl⟩
  | qreply q =>
    simp only [Session.next] at h
    split at h
    · cases h; exact ⟨_, _, _, _, _, _, rfl⟩
    · obtain ⟨⟨q, reply⟩, -, hq⟩ := Option.map_eq_some_iff.mp h
      cases hq
      exact ⟨_, _, _, _, _, _, rfl⟩
  | compare ret | endWait ret2 y | endScan ret2 y =>
    simp only [Session.next] at h
    split at h <;> cases h
    all_goals exact ⟨_, _, _, _, _, _, rfl⟩
  | reset k ret2 => cases k <;> cases h <;> exact ⟨_, _, _, _, _, _, rfl⟩
  | _ => cases h; exact ⟨_, _, _, _, _, _, rfl⟩

theorem Session.next_tail {s s' : Session W} {found : Option (Bytes × Bytes)} {r : ℤ} {pc pc' : Pc}
    (h : s.next found r pc = some (pc', s')) (hpc : pc.Tail) : pc'.Tail := by
  cases pc <;> first | exact hpc.elim | skip
  case idle => cases h
  case test =>
    simp only [next, Option.some.injEq, Prod.mk.injEq] at h
    rw [← h.1]
    split <;> trivial
  case write => cases h; trivial

end Acached.Worker
