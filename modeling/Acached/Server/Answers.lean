import Acached.Server.Entries
import Acached.Server.Records
import Acached.Reply.FinalFlush
import Acached.Reply.FinalWrite
import Acached.Clients.System

/-! # Answers of a worker

The reply state of a connection from one command to the next, when a worker
carries out one command after the other. Early flushes send what the socket
takes; each `sendmsg` of a final flush takes all that it is offered, after any
number of calls that are interrupted or would block.
-/
namespace Acached.Server
open CString Gather Reply Dispatch HashTable

def resetReply (s : IovReply) : IovReply :=
  { s with windexlast := 0, totalsize := 0, iovIndex := 0, writingflag := false }

/-- The reply of a set. `WriteAllOnceIMM` offers the first entry, and `r` bytes are taken. -/
def answerSet (s : IovReply) (r : ℤ) : Option IovReply :=
  let s := { s.addIOVReply Reply.stored s.iovIndex with iovIndex := s.iovIndex + 1 }
  let offered := gather s.iovec 0 1
  if r ≤ offered.length then
    some (resetReply { s with sent := s.sent ++ offered.take r.toNat })
  else none

/-- The loop that passes the pending entries to `WriteAllOnce`, with the calls of `sendmsg` that fail
before the one that takes what a round offers. -/
def writeRounds (iovec : ℕ → Bytes) : ℕ → List (List SendResult) → FinalFlush → Option Bytes
  | 0, _, _ => none
  | fuel + 1, waits, f =>
    let newcount := if f.count > 1024 then 1024 else f.count
    if iovSize < f.start + newcount then none
    else do
      let offered := gather iovec f.start newcount
      let (ret, out, _) ← writeAllOnce (.init iovec f.start newcount)
        (waits.headD [] ++ [.sent offered.length])
      if (f.round ret).running then
        return out ++ (← writeRounds iovec fuel waits.tail (f.round ret))
      else return out

def queueEnd (s : IovReply) : IovReply :=
  { s.addIOVReply Reply.endLine s.iovIndex with totalsize := s.totalsize + 5, iovIndex := 0 }

/-- The end of a get: the `END` entry, the wait for the flag and for the entries to be filled, the
final flush, and the resets. -/
def finishGet (s : IovReply) (waits : List (List SendResult)) : Option IovReply :=
  let ret2 := s.iovIndex + 1
  let y := s.windexlast
  let u := queueEnd s
  if s.iovIndex < iovSize ∧ u.writingflag = false ∧ ∀ i < ret2, y ≤ i → u.written i = true then do
    let out ← writeRounds u.iovec (ret2 - y + 1) waits (.init y ret2)
    return resetReply (Worker.freeEntries { u with sent := u.sent ++ out } ret2)
  else none

/-- One key of a get, with what the `sendmsg` of an early flush returns; and the record that the entry
of the value points into. -/
def answerKey (t : AHashTable) (s : IovReply) (aM : AMsg) (r : ℤ) :
    Option (AHashTable × IovReply × Option Addr) := do
  let (table, found) ← lookup t aM
  match found with
  | none => return (table, s, none)
  | some (a, hdr, val) => return (table, ← qReply s r hdr val, some a)

/-! ## The final flush -/

def Waits (w : SendResult) : Prop := w = .eintr ∨ ∃ ret2 : ℤ, 0 ≤ ret2 ∧ w = .eagain ret2

variable {iovec : ℕ → Bytes} {start count : ℕ} {waits : List SendResult}

theorem writeAllOnce_waits (hwaits : ∀ w ∈ waits, Waits w) (s : WriteAll) (results : List SendResult) :
    writeAllOnce s (waits ++ results) = writeAllOnce s results := by
  induction waits with
  | nil => rfl
  | cons w waits ih =>
    obtain ⟨hw, hrest⟩ := List.forall_mem_cons.mp hwaits
    rw [List.cons_append]
    rcases hw with rfl | ⟨ret2, hret2, rfl⟩
    · rw [writeAllOnce, ih hrest]
    · rw [writeAllOnce, if_neg (by omega), ih hrest]

/-- A write of all entries ends with an entry. -/
theorem checkIOVTotalWritten_all (hpos : 0 < (gather iovec start count).length)
    (hlt : (gather iovec start count).length < 2 ^ 31) :
    (∃ iovEnd, checkIOVTotalWritten iovec start count (gather iovec start count).length =
      some (iovEnd, iovec)) ∧
      endsWithEntry iovec start count (gather iovec start count).length = true := by
  obtain ⟨j, hj, hjn, -, hhigh, hreach, hcheck⟩ := checkIOVTotalWritten_eq hpos (Nat.le_refl _)
    (TotalFits.of_total _ (by omega))
  have hwhole := gather_length_le iovec start (m := j + 1 - start) (n := count) (by omega)
  rw [gather_last _ hj, List.length_append] at hwhole
  have hexact : (gather iovec start (j - start)).length + (iovec j).length =
      (gather iovec start count).length := by omega
  rw [if_pos hexact] at hcheck
  refine ⟨⟨_, hcheck⟩, ?_⟩
  rw [endsWithEntry, hreach, Option.any_some, hexact]
  exact decide_eq_true rfl

theorem writeAllOnce_all (hwaits : ∀ w ∈ waits, Waits w)
    (hlt : (gather iovec start count).length < 2 ^ 31) :
    writeAllOnce (.init iovec start count) (waits ++ [.sent (gather iovec start count).length]) =
      some (((gather iovec start count).length : ℤ), gather iovec start count, []) := by
  rw [writeAllOnce_waits hwaits]
  simp only [WriteAll.init, writeAllOnce]
  by_cases hzero : (gather iovec start count).length = 0
  · rw [if_pos hzero, hzero, List.eq_nil_of_length_eq_zero hzero]
    rfl
  · obtain ⟨⟨iovEnd, hcheck⟩, hends⟩ := checkIOVTotalWritten_all (Nat.pos_of_ne_zero hzero) hlt
    simpa [hzero, hcheck, hends] using And.intro hlt (bmod_of_lt hlt)

theorem writeAllOnce_tooMany (hwaits : ∀ w ∈ waits, Waits w)
    (hmany : 2 ^ 31 ≤ (gather iovec start count).length) :
    writeAllOnce (.init iovec start count) (waits ++ [.sent (gather iovec start count).length]) =
      none := by
  have hpos : (gather iovec start count).length ≠ 0 := by omega
  rw [writeAllOnce_waits hwaits]
  simp only [WriteAll.init, writeAllOnce]
  rw [if_neg hpos]
  exact if_pos (.inr hmany)

theorem waits_headD {ws : List (List SendResult)} (hws : ∀ waits ∈ ws, ∀ w ∈ waits, Waits w) :
    (∀ w ∈ ws.headD [], Waits w) ∧ ∀ waits ∈ ws.tail, ∀ w ∈ waits, Waits w := by
  cases ws with
  | nil => exact ⟨List.forall_mem_nil _, List.forall_mem_nil _⟩
  | cons waits ws => exact List.forall_mem_cons.mp hws

variable {ws : List (List SendResult)} {f : FinalFlush} {fuel : ℕ} {out : Bytes}

theorem writeRounds_succ (hws : ∀ waits ∈ ws, ∀ w ∈ waits, Waits w) {n : ℕ}
    (hn : n = if f.count > 1024 then 1024 else f.count) (hroom : f.start + n ≤ iovSize)
    (hlt : (gather iovec f.start n).length < 2 ^ 31) :
    writeRounds iovec (fuel + 1) ws f =
      if (f.round (gather iovec f.start n).length).running then
        (writeRounds iovec fuel ws.tail (f.round (gather iovec f.start n).length)).map
          (gather iovec f.start n ++ ·)
      else some (gather iovec f.start n) := by
  rw [writeRounds]
  dsimp only
  rw [← hn, if_neg (Nat.not_lt.mpr hroom), writeAllOnce_all (waits_headD hws).1 hlt]
  simp only [Option.bind_eq_bind, Option.bind_some]
  split
  · rw [Option.map_eq_bind]
    rfl
  · rfl

/-- A round past the end of the arrays, or with more bytes than an `int32_t` holds. -/
theorem writeRounds_none (hws : ∀ waits ∈ ws, ∀ w ∈ waits, Waits w) {n : ℕ}
    (hn : n = if f.count > 1024 then 1024 else f.count)
    (h : ¬ (f.start + n ≤ iovSize ∧ (gather iovec f.start n).length < 2 ^ 31)) :
    writeRounds iovec (fuel + 1) ws f = none := by
  rw [writeRounds]
  dsimp only
  rw [← hn]
  by_cases hroom : iovSize < f.start + n
  · rw [if_pos hroom]
  · have hmany : 2 ^ 31 ≤ (gather iovec f.start n).length := by
      by_contra hlt
      exact h ⟨by omega, by omega⟩
    rw [if_neg hroom, writeAllOnce_tooMany (waits_headD hws).1 hmany]
    rfl

/-- Entries that are filled and not sent yet, with nothing behind them. -/
structure Pending (iovec : ℕ → Bytes) (f : FinalFlush) : Prop where
  running : f.running = true
  pos : 0 < f.count
  filled : ∀ i, f.start ≤ i → i < f.start + f.count → iovec i ≠ []
  behind : ∀ i, f.start + f.count ≤ i → iovec i = []

theorem Pending.length_pos (h : Pending iovec f) {n : ℕ} (hn : 0 < n) :
    0 < (gather iovec f.start n).length := by
  obtain ⟨n, rfl⟩ := Nat.exists_eq_succ_of_ne_zero (Nat.ne_of_gt hn)
  have hfirst := List.length_pos_of_ne_nil
    (h.filled f.start (Nat.le_refl _) (Nat.lt_add_of_pos_right h.pos))
  rw [gather_succ, List.length_append]
  omega

/-- With exactly `IOV_MAX` entries to go there is one more round, in which nothing is left. -/
theorem Pending.again (h : Pending iovec f) (hws : ∀ waits ∈ ws, ∀ w ∈ waits, Waits w)
    (hcount : f.count = 1024) (fuel : ℕ) {passed : List (ℕ × ℕ)} :
    (∀ out, writeRounds iovec (fuel + 1) ws ⟨f.start + 1024, 1024, passed, true⟩ = some out →
      out = []) ∧
    (f.start + 2048 ≤ iovSize →
      (writeRounds iovec (fuel + 1) ws ⟨f.start + 1024, 1024, passed, true⟩).isSome) := by
  have hnothing : gather iovec (f.start + 1024) 1024 = [] :=
    gather_eq_nil fun j hj _ => h.behind j (by omega)
  by_cases hroom : f.start + 2048 ≤ iovSize
  · have hround := @writeRounds_succ iovec ws ⟨f.start + 1024, 1024, passed, true⟩ fuel hws 1024 rfl
      (by dsimp only; omega) (by dsimp only; rw [hnothing]; decide)
    dsimp only at hround
    rw [hnothing, List.length_nil, if_neg (by simp [FinalFlush.round])] at hround
    rw [hround]
    exact ⟨fun out hout => (Option.some.inj hout).symm, fun _ => rfl⟩
  · rw [writeRounds_none hws (n := 1024) rfl (by dsimp only; omega)]
    exact ⟨fun out hout => (by cases hout), fun hle => absurd hle hroom⟩

/-- The loop sends the pending entries, and comes to its end where there is room for its ranges. -/
theorem Pending.writeRounds (h : Pending iovec f) (hws : ∀ waits ∈ ws, ∀ w ∈ waits, Waits w)
    (hfuel : f.count < fuel) :
    (∀ out, Server.writeRounds iovec fuel ws f = some out → out = gather iovec f.start f.count) ∧
    (f.start + f.count + 1024 ≤ iovSize → (gather iovec f.start f.count).length < 2 ^ 31 →
      (Server.writeRounds iovec fuel ws f).isSome) := by
  induction fuel generalizing f ws with
  | zero => cases hfuel
  | succ fuel ih =>
    generalize hn : (if f.count > 1024 then 1024 else f.count) = n
    have hnc : n ≤ f.count ∧ 0 < n := by
      have := h.pos
      split at hn <;> omega
    by_cases hok : f.start + n ≤ iovSize ∧ (gather iovec f.start n).length < 2 ^ 31
    swap
    · rw [writeRounds_none hws hn.symm hok]
      refine ⟨fun out hout => (by cases hout), fun hroom hlt => absurd ?_ hok⟩
      have := gather_length_le iovec f.start hnc.1
      omega
    have hret : (0 : ℤ) < ((gather iovec f.start n).length : ℤ) := by
      have := h.length_pos hnc.2
      omega
    rw [writeRounds_succ hws hn.symm hok.1 hok.2]
    rcases Nat.lt_trichotomy f.count 1024 with hcount | hcount | hcount
    · obtain rfl : f.count = n := by rw [← hn, if_neg (by omega)]
      rw [FinalFlush.round_last h.running hcount]
      exact ⟨fun out hout => (Option.some.inj hout).symm, fun _ _ => rfl⟩
    · obtain rfl : f.count = n := by rw [← hn, if_neg (by omega)]
      obtain ⟨fuel, rfl⟩ := Nat.exists_eq_succ_of_ne_zero (by omega : fuel ≠ 0)
      obtain ⟨hnothing, hends⟩ := h.again (waits_headD hws).2 hcount fuel
      rw [FinalFlush.round_again h.running hcount hret, if_pos rfl]
      refine ⟨fun out hout => ?_, fun hroom _ => ?_⟩
      · obtain ⟨rest, hrest, rfl⟩ := Option.map_eq_some_iff.mp hout
        rw [hnothing rest hrest, List.append_nil]
      · rw [Option.isSome_map]
        exact hends (by omega)
    · obtain rfl : 1024 = n := by rw [← hn, if_pos hcount]
      have hsplit : gather iovec f.start f.count =
          gather iovec f.start 1024 ++ gather iovec (f.start + 1024) (f.count - 1024) := by
        rw [← gather_add, Nat.add_sub_cancel' hcount.le]
      have hrest : Pending iovec
          ⟨f.start + 1024, f.count - 1024, f.passed ++ [(f.start, 1024)], true⟩ := by
        refine ⟨rfl, Nat.sub_pos_of_lt hcount, fun i hi hin => ?_, fun i hi => ?_⟩
        · dsimp only at hi hin
          exact h.filled i (by omega) (by omega)
        · dsimp only at hi
          exact h.behind i (by omega)
      obtain ⟨hbytes, hends⟩ := ih hrest (waits_headD hws).2 (by dsimp only; omega)
      rw [FinalFlush.round_full h.running hcount hret, if_pos rfl, hsplit]
      refine ⟨fun out hout => ?_, fun hroom hlt => ?_⟩
      · obtain ⟨rest, hrest, rfl⟩ := Option.map_eq_some_iff.mp hout
        rw [hbytes rest hrest]
      · rw [List.length_append] at hlt
        rw [Option.isSome_map]
        exact hends (by dsimp only; omega) (by dsimp only; omega)

/-! ## One command -/

/-- The reply state between two commands of a connection. The first entry may be that of a set. -/
structure Rest (s : IovReply) : Prop where
  iovIndex : s.iovIndex = 0
  windexlast : s.windexlast = 0
  totalsize : s.totalsize = 0
  writingflag : s.writingflag = false
  behind : ∀ i, i ≠ 0 → s.iovec i = []

theorem rest_init : Rest .init := ⟨rfl, rfl, rfl, rfl, fun _ _ => rfl⟩

variable {s t : IovReply} {q : Bytes}

theorem Rest.queued (h : Rest s) : Queued s s.sent where
  account := by
    refine ⟨h.writingflag, ?_, ?_, ?_, ?_⟩
    · rw [h.windexlast, h.iovIndex]
    · rw [h.iovIndex, Nat.zero_sub, gather_zero, List.append_nil]
    · rw [h.totalsize, h.iovIndex, Nat.zero_sub]
      rfl
    · intro i _ hin
      rw [h.iovIndex] at hin
      exact absurd hin (Nat.not_lt_zero i)
  solid := by
    refine ⟨fun i _ hin => ?_, fun i _ hne => h.behind i hne⟩
    rw [h.iovIndex] at hin
    exact absurd hin (Nat.not_lt_zero i)

theorem Rest.answerSet (h : Rest s) :
    ∃ t, Server.answerSet s 8 = some t ∧ Rest t ∧ t.sent = s.sent ++ Reply.stored := by
  have hoffered : gather (s.addIOVReply Reply.stored s.iovIndex).iovec 0 1 = Reply.stored := by
    rw [gather_succ, gather_zero, List.append_nil, h.iovIndex, IovReply.addIOVReply]
    dsimp only
    rw [Function.update_self]
  refine ⟨resetReply { s.addIOVReply Reply.stored s.iovIndex with
    iovIndex := s.iovIndex + 1, sent := s.sent ++ Reply.stored }, ?_,
    ⟨rfl, rfl, rfl, rfl, fun i hi => ?_⟩, rfl⟩
  · unfold Server.answerSet
    dsimp only
    rw [hoffered, if_pos (by decide)]
    rfl
  · dsimp only [resetReply, IovReply.addIOVReply]
    rw [h.iovIndex, Function.update_of_ne hi]
    exact h.behind i hi

theorem Queued.pending (h : Queued s q) : Pending (queueEnd s).iovec
    (.init s.windexlast (s.iovIndex + 1)) ∧
      s.sent ++ gather (queueEnd s).iovec s.windexlast (s.iovIndex + 1 - s.windexlast) =
        q ++ Reply.endLine ∧
      ∀ i < s.iovIndex + 1, s.windexlast ≤ i → (queueEnd s).written i = true := by
  obtain ⟨-, hfilled⟩ := h.account
  have hwindow := hfilled.window
  have hsolid := h.solid.fill (show Reply.endLine ≠ [] by decide)
  refine ⟨⟨rfl, Nat.sub_pos_of_lt (Nat.lt_succ_of_le hwindow), fun i hi hin => ?_, fun i hi => ?_⟩,
    ?_, fun i hin hi => (hsolid.pending i hi hin).2⟩
  · dsimp only [FinalFlush.init] at hi hin
    exact (hsolid.pending i hi (by omega)).1
  · dsimp only [FinalFlush.init] at hi
    exact hsolid.behind i (by omega) (by omega)
  · dsimp only [queueEnd, IovReply.addIOVReply]
    rw [gather_update_last _ hwindow, ← List.append_assoc, hfilled.bytes]

theorem Queued.rest (h : Queued s q) (out : Bytes) : Rest (resetReply (Worker.freeEntries
    { queueEnd s with sent := out } (s.iovIndex + 1))) where
  iovIndex := rfl
  windexlast := rfl
  totalsize := rfl
  writingflag := rfl
  behind i hi := by
    dsimp only [resetReply, Worker.freeEntries, queueEnd, IovReply.addIOVReply]
    split
    · rfl
    · rw [Function.update_of_ne (by omega)]
      exact h.solid.behind i (by omega) hi

/-- The rest of a get sends what is pending and `END`. -/
theorem Queued.finishGet (h : Queued s q) (hws : ∀ waits ∈ ws, ∀ w ∈ waits, Waits w) :
    (∀ t, Server.finishGet s ws = some t → Rest t ∧ t.sent = q ++ Reply.endLine) ∧
    (s.iovIndex + 1025 ≤ iovSize → (q ++ Reply.endLine).length < s.sent.length + 2 ^ 31 →
      (Server.finishGet s ws).isSome) := by
  obtain ⟨hpending, hbytes, hwritten⟩ := h.pending
  have hwindow := h.account.2.window
  obtain ⟨hflush, hends⟩ := hpending.writeRounds hws
    (Nat.lt_add_one (s.iovIndex + 1 - s.windexlast))
  constructor
  · intro t ht
    unfold Server.finishGet at ht
    dsimp only at ht
    split_ifs at ht
    obtain ⟨out, hout, heq⟩ := Option.bind_eq_some_iff.mp ht
    obtain rfl := Option.some.inj heq
    refine ⟨h.rest _, ?_⟩
    rw [hflush out hout]
    exact hbytes
  · intro hroom hlt
    rw [← hbytes, List.length_append] at hlt
    have hready : s.iovIndex < iovSize ∧ (queueEnd s).writingflag = false ∧
        ∀ i < s.iovIndex + 1, s.windexlast ≤ i → (queueEnd s).written i = true :=
      ⟨by omega, h.account.1, hwritten⟩
    obtain ⟨out, hout⟩ := Option.isSome_iff_exists.mp
      (hends (by dsimp only [FinalFlush.init]; omega) (Nat.lt_of_add_lt_add_left hlt))
    unfold Server.finishGet
    dsimp only
    rw [if_pos hready, hout]
    rfl

/-! ## The keys of a get -/

def values (last : Bytes → Option (Addr × Bytes)) : Contents := fun key => (last key).map Prod.snd

/-- A value that a record can hold and a reply can announce. -/
def Fits (value : Bytes) : Prop := value ≠ [] ∧ value.length + 2 < 2 ^ 31

instance (value : Bytes) : Decidable (Fits value) := inferInstanceAs (Decidable (_ ∧ _))

structure Clear (hash : Bytes → UInt32) (last : Bytes → Option (Addr × Bytes)) (hashmask : UInt32)
    (key : Bytes) : Prop where
  isKey : Receive.Key key
  apart : Apart hash hashmask last key
  fits : ∀ a value, last key = some (a, value) → Fits value

variable {hash : Bytes → UInt32} {last : Bytes → Option (Addr × Bytes)} {chain : UInt32 → List Addr}
  {table table' : AHashTable} {key : Bytes} {r : ℤ} {found : Option Addr}

theorem Holds.answerKey_cases (h : Holds hash table last chain)
    (hclear : Clear hash last table.hashmask key) (s : IovReply) :
    ∃ t', t'.hashmask = table.hashmask ∧ Holds hash t' last chain ∧
      (last key = none ∧ answerKey table s (keyMessage hash key) r = some (t', s, none) ∨
      ∃ (x : Addr) (a : Answer), a.header ++ a.line = keyAnswer (values last) key ∧
        answerKey table s (keyMessage hash key) r =
          (Server.qReply s r a.header a.line).map fun s => (t', s, some x)) := by
  obtain ⟨t', hlookup, hmask, hholds⟩ := h.lookup hclear.isKey hclear.apart
  refine ⟨t', hmask, hholds, ?_⟩
  unfold answerKey
  rw [hlookup]
  cases hlast : last key with
  | none => exact .inl ⟨rfl, rfl⟩
  | some av =>
    obtain ⟨hne, hlt⟩ := hclear.fits av.1 av.2 hlast
    refine .inr ⟨av.1, ⟨key, av.2, hclear.isKey.2, hne, hlt⟩, ?_, ?_⟩
    · rw [keyAnswer, values, hlast]
      rfl
    · exact (Option.map_eq_bind ..).symm

theorem Holds.answerKey (h : Holds hash table last chain)
    (hclear : Clear hash last table.hashmask key) (hs : Queued s q) (hr : r < 2 ^ 31)
    (hcall : Server.answerKey table s (keyMessage hash key) r = some (table', t, found)) :
    Holds hash table' last chain ∧ table'.hashmask = table.hashmask ∧
      Queued t (q ++ keyAnswer (values last) key) ∧ t.iovIndex ≤ s.iovIndex + 2 ∧
      s.sent <+: t.sent := by
  obtain ⟨t', hmask, hholds, ⟨hlast, hsame⟩ | ⟨x, a, ha, hreply⟩⟩ := h.answerKey_cases hclear s (r := r)
  · cases hsame.symm.trans hcall
    rw [keyAnswer, values, hlast, Option.map_none, Option.elim_none, List.append_nil]
    exact ⟨hholds, hmask, hs, Nat.le_add_right _ _, List.prefix_rfl⟩
  · obtain ⟨s', hs', heq⟩ := Option.map_eq_some_iff.mp (hreply.symm.trans hcall)
    cases heq
    have hline : a.line ≠ [] := by
      rw [Answer.line, Ne, List.append_eq_nil_iff]
      exact fun hnil => a.value_ne hnil.1
    have hheader : a.header ≠ [] := List.cons_ne_nil _ _
    obtain ⟨hqueued, hindex, hsent⟩ := hs.qReply ⟨hheader, a.header_length⟩
      ⟨hline, a.line_length⟩ hr hs'
    rw [ha] at hqueued
    exact ⟨hholds, hmask, hqueued, hindex.le, hsent⟩

/-- Nothing is in the way of a key whose early flush sends nothing. -/
theorem Holds.answerKey_isSome (h : Holds hash table last chain)
    (hclear : Clear hash last table.hashmask key) (hs : Queued s q) (hr : r ≤ 0)
    (hroom : s.iovIndex + 2 ≤ iovSize) :
    (Server.answerKey table s (keyMessage hash key) r).isSome := by
  obtain ⟨t', -, -, ⟨-, hsame⟩ | ⟨x, a, -, hreply⟩⟩ := h.answerKey_cases hclear s (r := r)
  · rw [hsame]
    rfl
  · rw [hreply, Option.isSome_map]
    exact hs.qReply_isSome a.header_length a.line_length hr hroom

end Acached.Server
