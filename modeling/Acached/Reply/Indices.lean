import Acached.Reply.Flush
import Acached.Dispatch.Message
import Acached.Foundation.Tally

/-! # Indices reserved for a get

The messages of one get, taken by workers that look their keys up and queue the
values found, and the entry with `END` behind them. Early flushes give no index
back, so the indices reserved are two for every value and one more.
-/
namespace Acached.Reply
open CString Gather Execution Dispatch Tally

/-- A get that is being answered: the workers with the reply state of the connection, the messages that
wait, and whether the `END` entry was reserved. The indices that were handed out are recorded. -/
structure Get (W : Type) where
  flush : Flush W
  todo : List AMsg
  ended : Bool
  reserved : List ℕ

def Get.init (W : Type) (msgs : List AMsg) : Get W := ⟨.init W, msgs, false, []⟩

/-- A worker takes a message, or takes a step in `QReply`, or the `END` entry is reserved. -/
inductive GetAct (W : Type) where
  | answer (w : W) (aM : AMsg)
  | step (w : W) (r : ℤ)
  | finish
  deriving DecidableEq, Repr

def QPc.reserves (s : IovReply) : QPc → List ℕ
  | .reserve .. => [s.iovIndex, s.iovIndex + 1]
  | _ => []

variable {W : Type} [Fintype W] [DecidableEq W]

/-- `table` is what the lookup of a key leads to: the `VALUE` line and the value with its line end.
`END` is queued when every message is answered. -/
def Get.step (table : Bytes → Option (Bytes × Bytes)) (s : Get W) : GetAct W → Option (Get W)
  | .answer w aM =>
    if s.flush.worker w = .done ∧ aM ∈ s.todo then match table aM.key with
      | none => some { s with todo := s.todo.erase aM }
      | some (hdr, val) => some { s with
          flush := { s.flush with worker := Function.update s.flush.worker w (.reserve hdr val) }
          todo := s.todo.erase aM }
    else none
  | .step w r => (Reply.step s.flush (.step w r)).map fun flush => { s with
      flush := flush
      reserved := s.reserved ++ (s.flush.worker w).reserves s.flush.reply }
  | .finish =>
    if s.ended = false ∧ s.todo = [] ∧ ∀ w, s.flush.worker w = .done then
      let index := s.flush.reply.iovIndex
      some { s with
        flush := { s.flush with reply := { s.flush.reply with iovIndex := index + 1 } }
        ended := true
        reserved := s.reserved ++ [index] }
    else none

def hits (table : Bytes → Option (Bytes × Bytes)) (msgs : List AMsg) : ℕ :=
  msgs.countP fun aM => (table aM.key).isSome

def IndicesInside (W : Type) [Fintype W] [DecidableEq W] (hash : Bytes → UInt32)
    (table : Bytes → Option (Bytes × Bytes)) (line : Bytes) : Prop :=
  ∀ (acts : List (GetAct W)) (t : Get W),
    exec (Get.step table) (.init W (post2KVdataGets hash .gets
      { AMsg.init .gets with cmdptr := line })) acts = some t → ∀ i ∈ t.reserved, i < iovSize

def QPc.Reserving : QPc → Prop
  | .reserve .. => True
  | _ => False

instance : DecidablePred QPc.Reserving
  | .reserve .. => isTrue trivial
  | .fillHdr .. | .fillVal .. | .addTotal .. | .readWindex .. | .check .. | .takeFlag .. | .sendmsg ..
  | .account .. | .advance .. | .release _ | .subTotal _ | .done => isFalse id

variable {table : Bytes → Option (Bytes × Bytes)} {s t : Get W}

theorem QPc.step_iovIndex {r : ℤ} {pc pc' : QPc} {reply reply' : IovReply}
    (h : pc.step r reply = some (pc', reply')) :
    reply'.iovIndex = reply.iovIndex + (if pc.Reserving then 2 else 0) ∧ ¬ pc'.Reserving := by
  cases pc with
  | reserve | fillHdr | fillVal | addTotal | readWindex | advance | subTotal =>
    cases h
    exact ⟨rfl, id⟩
  | release ret =>
    cases h
    refine ⟨rfl, ?_⟩
    split
    · exact id
    · exact id
  | check | takeFlag | sendmsg =>
    simp only [QPc.step] at h
    repeat' split at h
    all_goals cases h
    all_goals exact ⟨rfl, id⟩
  | account =>
    obtain ⟨⟨iovEnd, iovec⟩, -, hpc⟩ := Option.map_eq_some_iff.mp h
    cases hpc
    exact ⟨rfl, id⟩
  | done => cases h

/-- Every index handed out is accounted for: two for each value still to be queued are left of the two
for each hit. -/
structure Budget (F : ℕ) (table : Bytes → Option (Bytes × Bytes)) (s : Get W) : Prop where
  left : s.ended = false →
    s.flush.reply.iovIndex + 2 * hits table s.todo + 2 * tally QPc.Reserving s.flush.worker = 2 * F
  ended : s.ended = true → s.flush.reply.iovIndex = 2 * F + 1 ∧ s.todo = [] ∧
    ∀ w, s.flush.worker w = .done
  below : ∀ i ∈ s.reserved, i < s.flush.reply.iovIndex

theorem hits_erase (table : Bytes → Option (Bytes × Bytes)) {msgs : List AMsg} {aM : AMsg}
    (h : aM ∈ msgs) :
    hits table msgs = hits table (msgs.erase aM) + if (table aM.key).isSome then 1 else 0 := by
  unfold hits
  rw [(List.perm_cons_erase h).countP_eq, List.countP_cons]

theorem Budget.step {F : ℕ} {a : GetAct W} (h : Budget F table s) (hstep : s.step table a = some t) :
    Budget F table t := by
  cases a with
  | answer w aM =>
    simp only [Get.step] at hstep
    split at hstep
    · next hpc =>
      obtain ⟨hdone, hmem⟩ := hpc
      have hopen : s.ended = false := by
        by_contra hended
        have hnil := (h.ended (by simpa using hended)).2.1
        rw [hnil] at hmem
        exact List.not_mem_nil hmem
      have hleft := h.left hopen
      rw [hits_erase table hmem] at hleft
      have hclosed : s.ended = true → False := fun hend => by cases hopen.symm.trans hend
      split at hstep
      · next hkey =>
        cases hstep
        refine ⟨fun _ => ?_, fun hend => (hclosed hend).elim, h.below⟩
        simp only [hkey, Option.isSome_none] at hleft
        exact hleft
      · next hdr val hkey =>
        cases hstep
        refine ⟨fun _ => ?_, fun hend => (hclosed hend).elim, h.below⟩
        simp only [hkey, Option.isSome_some, if_true] at hleft
        have hnot : ¬ (s.flush.worker w).Reserving := by
          rw [hdone]
          exact id
        have hup : (QPc.reserve hdr val).Reserving := trivial
        dsimp only
        rw [tally_update_of_pos hnot hup]
        omega
    · cases hstep
  | step w r =>
    obtain ⟨flush, hflush, rfl⟩ := Option.map_eq_some_iff.mp hstep
    obtain ⟨⟨pc, reply⟩, hpc, rfl⟩ := Option.map_eq_some_iff.mp hflush
    obtain ⟨hindex, hnext⟩ := QPc.step_iovIndex hpc
    have hopen : s.ended = false := by
      by_contra hended
      have hdone := (h.ended (by simpa using hended)).2.2 w
      rw [hdone] at hpc
      cases hpc
    have hclosed : s.ended = true → False := fun hend => by cases hopen.symm.trans hend
    refine ⟨fun _ => ?_, fun hend => (hclosed hend).elim, fun i hi => ?_⟩
    · have hleft := h.left hopen
      have hcount := tally_update (p := QPc.Reserving) (f := s.flush.worker) w pc
      rw [if_neg hnext] at hcount
      dsimp only
      rw [hindex]
      split at hcount
      · next hres =>
        rw [if_pos hres]
        omega
      · next hres =>
        rw [if_neg hres]
        omega
    · dsimp only at hi ⊢
      rw [hindex]
      rcases List.mem_append.mp hi with hi | hi
      · exact (h.below i hi).trans_le (Nat.le_add_right _ _)
      · cases hw : s.flush.worker w with
        | reserve hdr val =>
          rw [hw] at hi
          simp only [QPc.reserves, List.mem_cons, List.not_mem_nil, or_false] at hi
          rw [if_pos (show (QPc.reserve hdr val).Reserving from trivial)]
          omega
        | _ =>
          rw [hw] at hi
          exact absurd hi List.not_mem_nil
  | finish =>
    simp only [Get.step] at hstep
    split at hstep
    · next hend =>
      obtain ⟨hopen, htodo, hdone⟩ := hend
      have hleft := h.left hopen
      have hnone : tally QPc.Reserving s.flush.worker = 0 := by
        rw [tally_eq_zero_iff]
        intro w
        rw [hdone w]
        exact id
      rw [hnone, htodo] at hleft
      cases hstep
      refine ⟨fun hend => Bool.noConfusion hend, fun _ => ⟨?_, htodo, hdone⟩, fun i hi => ?_⟩
      · simp only [hits, List.countP_nil] at hleft
        dsimp only
        omega
      · dsimp only at hi ⊢
        rcases List.mem_append.mp hi with hi | hi
        · exact (h.below i hi).trans (Nat.lt_succ_self _)
        · rw [List.mem_singleton.mp hi]
          exact Nat.lt_succ_self _
    · cases hstep

omit [DecidableEq W] in
theorem Budget.init (table : Bytes → Option (Bytes × Bytes)) (msgs : List AMsg) :
    Budget (hits table msgs) table (Get.init W msgs) where
  left _ := by
    have hnone : tally QPc.Reserving (Get.init W msgs).flush.worker = 0 :=
      tally_eq_zero_iff.mpr fun _ => id
    rw [hnone]
    exact Nat.zero_add _
  ended hend := by cases hend
  below i hi := absurd hi List.not_mem_nil

omit [DecidableEq W] in
theorem Budget.le {F : ℕ} (h : Budget F table s) {i : ℕ} (hi : i ∈ s.reserved) : i ≤ 2 * F := by
  have hlt := h.below i hi
  cases hended : s.ended with
  | false =>
    have hleft := h.left hended
    omega
  | true =>
    have hend := (h.ended hended).1
    omega

/-! ## A run in which every key is answered -/

def QPc.runs : ℕ → QPc × IovReply → Option (QPc × IovReply)
  | 0, x => some x
  | n + 1, (pc, s) => (pc.step 0 s).bind (QPc.runs n)

/-- With the flag free, a call returns, and has taken two indices. -/
theorem QPc.runs_of_reserve (hdr val : Bytes) (reply : IovReply) (hflag : reply.writingflag = false) :
    ∃ n reply', QPc.runs n (.reserve hdr val, reply) = some (.done, reply') ∧
      reply'.writingflag = false ∧ reply'.iovIndex = reply.iovIndex + 2 := by
  obtain ⟨index, total, y, reply', hcheck, hflag', hindex⟩ : ∃ index total y reply',
      (∀ n, QPc.runs (n + 5) (.reserve hdr val, reply) =
        QPc.runs n (.check index total y, reply')) ∧
      reply'.writingflag = false ∧ reply'.iovIndex = reply.iovIndex + 2 :=
    ⟨_, _, _, _, fun _ => rfl, hflag, rfl⟩
  by_cases hflush : 126 * 1024 < total ∨
      1024 < ((min (checkWritten reply'.written index y (index - y)) index : ℕ) - (y : ℤ)) % 2 ^ 32
  · refine ⟨9, reply', ?_, hflag', hindex⟩
    rw [hcheck 4, QPc.runs, QPc.step]
    rw [if_pos hflush, Option.bind_some, QPc.runs, QPc.step, if_neg (by simp [hflag']),
      Option.bind_some]
    simp only [QPc.runs, QPc.step, le_refl, if_true, Option.bind_some, lt_irrefl, if_false]
    rw [← hflag']
  · refine ⟨6, reply', ?_, hflag', hindex⟩
    rw [hcheck 1, QPc.runs, QPc.step]
    rw [if_neg hflush]
    rfl

theorem exec_runs (table : Bytes → Option (Bytes × Bytes)) {n : ℕ} {w : W} {pc' : QPc}
    {reply' : IovReply}
    (h : QPc.runs n (s.flush.worker w, s.flush.reply) = some (pc', reply')) :
    ∃ t, exec (Get.step table) s (List.replicate n (.step w 0)) = some t ∧
      t.flush = ⟨reply', Function.update s.flush.worker w pc'⟩ ∧ t.todo = s.todo ∧
      t.ended = s.ended := by
  induction n generalizing s with
  | zero =>
    simp only [QPc.runs, Option.some.injEq, Prod.mk.injEq] at h
    obtain ⟨rfl, rfl⟩ := h
    exact ⟨s, rfl, by rw [Function.update_eq_self], rfl, rfl⟩
  | succ n ih =>
    obtain ⟨⟨pc, reply⟩, hpc, hrest⟩ := Option.bind_eq_some_iff.mp h
    have hstep : s.step table (.step w 0) = some { s with
        flush := ⟨reply, Function.update s.flush.worker w pc⟩
        reserved := s.reserved ++ (s.flush.worker w).reserves s.flush.reply } := by
      simp only [Get.step, Reply.step, hpc, Option.map_some]
    obtain ⟨t, ht, hflush, htodo, hended⟩ := ih (s := { s with
        flush := ⟨reply, Function.update s.flush.worker w pc⟩
        reserved := s.reserved ++ (s.flush.worker w).reserves s.flush.reply })
      (by simpa using hrest)
    refine ⟨t, ?_, ?_, htodo, hended⟩
    · rw [List.replicate_succ, exec_cons, hstep, Option.bind_some, ht]
    · rw [hflush]
      simp

/-- No worker is in `QReply`, the flag is free, and `k` indices were taken. -/
structure Get.Resting (s : Get W) (k : ℕ) : Prop where
  opened : s.ended = false
  done : ∀ w, s.flush.worker w = .done
  free : s.flush.reply.writingflag = false
  index : s.flush.reply.iovIndex = k

theorem Get.Resting.answer (table : Bytes → Option (Bytes × Bytes)) {k : ℕ} (h : s.Resting k) (w : W)
    {aM : AMsg} (hmem : aM ∈ s.todo) :
    ∃ acts t, exec (Get.step table) s acts = some t ∧ t.todo = s.todo.erase aM ∧
      t.Resting (k + if (table aM.key).isSome then 2 else 0) := by
  cases hkey : table aM.key with
  | none =>
    refine ⟨[.answer w aM], { s with todo := s.todo.erase aM }, ?_, rfl,
      ⟨h.opened, h.done, h.free, h.index⟩⟩
    rw [exec_cons, Get.step, if_pos ⟨h.done w, hmem⟩, hkey]
    rfl
  | some r =>
    obtain ⟨hdr, val⟩ := r
    obtain ⟨n, reply', hruns, hfree, hindex⟩ := QPc.runs_of_reserve hdr val s.flush.reply h.free
    obtain ⟨t, ht, hflush, htodo, hended⟩ := exec_runs table (n := n) (w := w) (s := { s with
        flush := { s.flush with worker := Function.update s.flush.worker w (.reserve hdr val) }
        todo := s.todo.erase aM }) (by simpa using hruns)
    refine ⟨.answer w aM :: List.replicate n (.step w 0), t, ?_, htodo, hended.trans h.opened, ?_, ?_, ?_⟩
    · rw [exec_cons, Get.step, if_pos ⟨h.done w, hmem⟩, hkey]
      exact ht
    · intro v
      rw [hflush]
      dsimp only
      rw [Function.update_idem]
      by_cases hv : v = w
      · rw [hv, Function.update_self]
      · rw [Function.update_of_ne hv]
        exact h.done v
    · rw [hflush]
      exact hfree
    · rw [hflush]
      dsimp only
      rw [hindex, h.index]
      rfl

/-- All messages can be answered, and the `END` entry comes behind two indices for each hit. -/
theorem Get.Resting.finish (table : Bytes → Option (Bytes × Bytes)) {k : ℕ} (h : s.Resting k) (w : W) :
    ∃ acts t, exec (Get.step table) s acts = some t ∧ k + 2 * hits table s.todo ∈ t.reserved := by
  obtain ⟨n, hn⟩ : ∃ n, s.todo.length = n := ⟨_, rfl⟩
  induction n generalizing s k with
  | zero =>
    have hnil := List.eq_nil_of_length_eq_zero hn
    have hstep : s.step table .finish = some { s with
        flush := { s.flush with reply := { s.flush.reply with iovIndex := s.flush.reply.iovIndex + 1 } }
        ended := true
        reserved := s.reserved ++ [s.flush.reply.iovIndex] } := by
      rw [Get.step, if_pos ⟨h.opened, hnil, h.done⟩]
    refine ⟨[.finish], _, by rw [exec_cons, hstep]; rfl, ?_⟩
    rw [hnil, h.index]
    exact List.mem_append_right _ (List.mem_singleton_self _)
  | succ n ih =>
    obtain ⟨aM, rest, hcons⟩ := List.exists_cons_of_length_eq_add_one hn
    have hmem : aM ∈ s.todo := by rw [hcons]; exact List.mem_cons_self
    obtain ⟨acts, u, hu, htodo, hrest⟩ := h.answer table w hmem
    have hlen : u.todo.length = n := by
      rw [htodo, List.length_erase_of_mem hmem, hn, Nat.add_sub_cancel]
    obtain ⟨acts', t, ht, hreserved⟩ := ih hrest hlen
    refine ⟨acts ++ acts', t, ?_, ?_⟩
    · rw [exec_append, hu, Option.bind_some, ht]
    · have hcount := hits_erase table hmem
      rw [← htodo] at hcount
      have hsum : k + 2 * hits table s.todo =
          k + (if (table aM.key).isSome then 2 else 0) + 2 * hits table u.todo := by
        rw [hcount]
        split <;> omega
      rw [hsum]
      exact hreserved

omit [Fintype W] [DecidableEq W] in
theorem Get.resting_init (msgs : List AMsg) : (Get.init W msgs).Resting 0 :=
  ⟨rfl, fun _ => rfl, rfl, rfl⟩

theorem hits_of_line (hash : Bytes → UInt32) (table : Bytes → Option (Bytes × Bytes)) (line : Bytes) :
    hits table (post2KVdataGets hash .gets { AMsg.init .gets with cmdptr := line }) =
      (lineKeys line).countP fun key => (table key).isSome := by
  unfold hits post2KVdataGets
  rw [List.countP_map]
  rfl

/-- For every line, every table and every run with its flushes, the indices reserved lie inside the
arrays exactly if two for each key of the line that is found, and one more, do. -/
theorem indicesInside_iff [Inhabited W] (hash : Bytes → UInt32)
    (table : Bytes → Option (Bytes × Bytes)) (line : Bytes) :
    IndicesInside W hash table line ↔
      2 * ((lineKeys line).countP fun key => (table key).isSome) + 1 ≤ iovSize := by
  rw [← hits_of_line hash]
  constructor
  · intro h
    obtain ⟨acts, t, ht, hmem⟩ := (Get.resting_init _).finish table (default : W)
    have hlt := h acts t ht _ hmem
    rw [Nat.zero_add] at hlt
    exact hlt
  · intro hle acts t ht i hi
    have hbudget := exec_invariant (fun _ _ _ hs hstep => Budget.step hs hstep)
      (Budget.init table _) ht
    have := hbudget.le hi
    omega

def repeatedGet (n : ℕ) : Bytes :=
  [103, 101, 116] ++ Words.spaced 32 (List.replicate n [107]) ++ [0, 0]

theorem lineKeys_repeatedGet (n : ℕ) : lineKeys (repeatedGet n) = List.replicate n [107] := by
  have hkey : ∀ w ∈ List.replicate n [(107 : UInt8)], 32 ∉ w ∧ w ≠ [] := by
    intro w hw
    rw [List.eq_of_mem_replicate hw]
    decide
  have hbytes : ∀ b ∈ [103, 101, 116] ++ Words.spaced 32 (List.replicate n [107]),
      decide (b ≠ (0 : UInt8)) = true := by
    intro b hb
    rcases List.mem_append.mp hb with hb | hb
    · simp only [List.mem_cons, List.not_mem_nil, or_false] at hb
      rcases hb with rfl | rfl | rfl <;> rfl
    · obtain ⟨w, hw, hb⟩ := List.mem_flatMap.mp hb
      rw [List.eq_of_mem_replicate hw] at hb
      simp only [List.mem_cons, List.not_mem_nil, or_false] at hb
      rcases hb with rfl | rfl <;> rfl
  have hline : cstr (repeatedGet n) = [103, 101, 116] ++ Words.spaced 32 (List.replicate n [107]) := by
    unfold cstr repeatedGet
    rw [List.takeWhile_append_of_pos hbytes]
    exact List.append_nil _
  rw [lineKeys, strtokWords_eq_words, hline,
    Words.words_append_spaced (by decide) (by decide) hkey, List.tail_cons]

theorem repeatedGet_length (n : ℕ) : (repeatedGet n).length = 2 * n + 5 := by
  have hsum : (Words.spaced 32 (List.replicate n [(107 : UInt8)])).length = 2 * n := by
    induction n with
    | zero => rfl
    | succ n ih =>
      rw [List.replicate_succ, Words.spaced_cons, List.length_cons, List.length_append, ih]
      simp only [List.length_cons, List.length_nil]
      omega
  rw [repeatedGet, List.length_append, List.length_append, hsum]
  simp only [List.length_cons, List.length_nil]
  omega

/-- When the one key of the line is found each time, `END` gets the index behind the values. -/
theorem repeatedGet_reserved (n : ℕ) (r : Bytes × Bytes) :
    ∃ acts t, exec (Get.step fun _ => some r) (Get.init Bool (post2KVdataGets (fun _ => 0) .gets
      { AMsg.init .gets with cmdptr := repeatedGet n })) acts = some t ∧ 2 * n ∈ t.reserved := by
  obtain ⟨acts, t, ht, hmem⟩ := (Get.resting_init (W := Bool) (post2KVdataGets (fun _ => 0) .gets
    { AMsg.init .gets with cmdptr := repeatedGet n })).finish (fun _ => some r) true
  refine ⟨acts, t, ht, ?_⟩
  have hcount := hits_of_line (fun _ => 0) (fun _ => some r) (repeatedGet n)
  rw [lineKeys_repeatedGet, List.countP_replicate, if_pos Option.isSome_some] at hcount
  rw [Get.init, hcount, Nat.zero_add] at hmem
  exact hmem

/-- A line of 12293 bytes: the key is found 6144 times, and the index of `END` is the first one behind
the arrays. -/
theorem indicesInside_fails : ¬ ∀ (line : Bytes) (table : Bytes → Option (Bytes × Bytes)),
    line.length ≤ 32768 → IndicesInside Bool (fun _ => 0) table line := by
  intro hall
  have hlen : (repeatedGet 6144).length ≤ 32768 := by
    rw [repeatedGet_length]
    omega
  obtain ⟨acts, t, ht, hmem⟩ := repeatedGet_reserved 6144
    (Reply.valueLine [107] 1, [118] ++ Reply.crlf)
  have hlt := hall (repeatedGet 6144) _ hlen acts t ht _ hmem
  rw [iovSize] at hlt
  omega

end Acached.Reply
