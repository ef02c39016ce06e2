import Acached.Foundation.Refinement
import Acached.Server.Requests

/-! # The server and what its clients see

All clients with their connections, and the table that they share. The comm
thread receives a client's commands in the pieces that its socket gives, and
dispatches a command when it is complete; nothing more of that client is
received before it is answered. The steps of the clients come in any order, and
so do the keys of a get, between which other clients are served. A worker's
work on one message is one step.
-/
namespace Acached.Server
open CString Dispatch Receive Reply HashTable Execution Refinement

/-- A connection has at most one command that was dispatched and not answered; of a get the messages
that are to be answered remain. `held` are the records that entries of a get in progress point
into. -/
structure Sessions (C : Type) where
  conn : C → Conn
  running : C → Option Effect
  reply : C → IovReply
  table : AHashTable
  held : List (C × Addr)

/-- `callback` and `turn` are those of `commRead_cb`. A step for a set has what `sendmsg` returns, one
for a key what the `sendmsg` of an early flush would return, and the end of a get the calls of
`sendmsg` that fail in the final flush. -/
inductive Act (C : Type) where
  | callback (c : C)
  | turn (c : C)
  | set (c : C) (r : ℤ)
  | key (c : C) (aM : AMsg) (r : ℤ)
  | finish (c : C) (waits : List (List SendResult))

variable {C : Type} [DecidableEq C]

namespace Sessions

def init (mem : C → Conn) (pieces : C → List Bytes) (hashmask : UInt32) : Sessions C where
  conn c := .new (mem c) ⟨(pieces c).map .data⟩
  running _ := none
  reply _ := .init
  table := .init hashmask
  held := []

/-- The connection of `c` was received on; a command that was handed on is dispatched. -/
def received (hash : Bytes → UInt32) (s : Sessions C) (c : C) (k : Conn) : Option (Sessions C) :=
  let s' := { s with conn := Function.update s.conn c k }
  match k.posted.drop (s.conn c).posted.length with
  | [] => some s'
  | p :: _ => p.aM.map fun aM =>
    { s' with running := Function.update s.running c (some (dispatch hash k.ctype aM)) }

/-- A message of `c` is answered, and `running` is left to do. -/
def answered (s : Sessions C) (c : C) (running : Option Effect) (table : AHashTable)
    (reply : IovReply) (held : List (C × Addr)) : Sessions C :=
  { s with
    running := Function.update s.running c running
    reply := Function.update s.reply c reply
    table := table
    held := held }

/-- A set that frees a record while an entry points into it has no outcome. -/
def step (hash : Bytes → UInt32) (s : Sessions C) : Act C → Option (Sessions C)
  | .callback c =>
    if s.running c = none then (recvStep hash (s.conn c) (.callback 0 0)).bind (s.received hash c)
    else none
  | .turn c =>
    if s.running c = none then (recvStep hash (s.conn c) (.turn false)).bind (s.received hash c)
    else none
  | .set c r => match s.running c with
    | some (.put aM) => do
      let table ← Clients.storeValue s.table aM
      let reply ← answerSet (s.reply c) r
      if ∀ h ∈ s.held, (table.heap.block h.2).isSome then
        return s.answered c none table reply s.held
      else none
    | _ => none
  | .key c aM r => match s.running c with
    | some (.split msgs) =>
      if aM ∈ msgs then do
        let (table, reply, found) ← answerKey s.table (s.reply c) aM r
        return s.answered c (some (.split (msgs.erase aM))) table reply
          (found.toList.map (fun a => (c, a)) ++ s.held)
      else none
    | _ => none
  | .finish c waits => match s.running c with
    | some (.split []) => do
      let reply ← finishGet (s.reply c) waits
      return s.answered c none s.table reply (s.held.filter fun h => h.1 ≠ c)
    | _ => none

variable {hash : Bytes → UInt32} {s t : Sessions C} {c : C} {r : ℤ} {aM : AMsg}
  {waits : List (List SendResult)}

theorem step_callback (h : s.step hash (.callback c) = some t) : s.running c = none ∧
    ∃ k, recvStep hash (s.conn c) (.callback 0 0) = some k ∧ s.received hash c k = some t := by
  dsimp only [step] at h
  split_ifs at h with hidle
  exact ⟨hidle, Option.bind_eq_some_iff.mp h⟩

theorem step_turn (h : s.step hash (.turn c) = some t) : s.running c = none ∧
    ∃ k, recvStep hash (s.conn c) (.turn false) = some k ∧ s.received hash c k = some t := by
  dsimp only [step] at h
  split_ifs at h with hidle
  exact ⟨hidle, Option.bind_eq_some_iff.mp h⟩

theorem step_set : s.step hash (.set c r) = some t ↔
    ∃ aM table reply, s.running c = some (.put aM) ∧ Clients.storeValue s.table aM = some table ∧
      answerSet (s.reply c) r = some reply ∧ (∀ h ∈ s.held, (table.heap.block h.2).isSome) ∧
      s.answered c none table reply s.held = t := by
  dsimp only [step]
  split
  · next aM hrunning =>
    simp [hrunning, Option.bind_eq_some_iff]
  · next hrunning =>
    refine iff_of_false (fun h => by cases h) ?_
    rintro ⟨aM, -, -, hput, -⟩
    exact hrunning aM hput

theorem step_key : s.step hash (.key c aM r) = some t ↔
    ∃ msgs table reply found, s.running c = some (.split msgs) ∧ aM ∈ msgs ∧
      answerKey s.table (s.reply c) aM r = some (table, reply, found) ∧
      s.answered c (some (.split (msgs.erase aM))) table reply
        (found.toList.map (fun a => (c, a)) ++ s.held) = t := by
  dsimp only [step]
  split
  · next msgs hrunning =>
    by_cases hmem : aM ∈ msgs
    · simp [hrunning, hmem, Option.bind_eq_some_iff]
    · simp [hrunning, hmem]
  · next hrunning =>
    refine iff_of_false (fun h => by cases h) ?_
    rintro ⟨msgs, -, -, -, hsplit, -⟩
    exact hrunning msgs hsplit

theorem step_finish : s.step hash (.finish c waits) = some t ↔
    ∃ reply, s.running c = some (.split []) ∧ finishGet (s.reply c) waits = some reply ∧
      s.answered c none s.table reply (s.held.filter fun h => h.1 ≠ c) = t := by
  dsimp only [step]
  split
  · next hrunning => simp [hrunning, Option.bind_eq_some_iff]
  · next hrunning =>
    refine iff_of_false (fun h => by cases h) ?_
    rintro ⟨-, hsplit, -⟩
    exact hrunning hsplit

end Sessions

/-- What the sockets do: `STORED` goes out in one piece, `sendmsg` returns an `int32_t`, and in a final
flush it fails only to be called again. -/
def Act.Ok : Act C → Prop
  | .callback _ | .turn _ => True
  | .set _ r => r = 8
  | .key _ _ r => r < 2 ^ 31
  | .finish _ waits => ∀ ws ∈ waits, ∀ w ∈ ws, Waits w

def keysOf : Command → List Bytes
  | .get keys => keys
  | .set key _ _ _ _ => [key]

/-- What the clients send, and in which pieces it arrives. No key goes on as another key of its bucket
does with a value of that one. -/
structure Workload (hash : Bytes → UInt32) (hashmask : UInt32) (cmds : C → List Command)
    (pieces : C → List Bytes) : Prop where
  wellFormed : ∀ c, ∀ d ∈ cmds c, d.WellFormed
  isPieces : ∀ c, PiecesOf ((cmds c).flatMap Command.bytes) (pieces c)
  wellCut : ∀ c, WellCut false (cmds c) (pieces c)
  apart : ∀ c c', ∀ d ∈ cmds c, ∀ key ∈ keysOf d, ∀ other flags exptime datalen data,
    Command.set other flags exptime datalen data ∈ cmds c' →
      hash other &&& hashmask = hash key &&& hashmask → key <+: other ++ data → other = key

/-! ## One client -/

theorem quiet_callback : RecvAct.Quiet (.callback 0 0) := Or.inl rfl

theorem quiet_turn (busy : Bool) : RecvAct.Quiet (.turn busy) := trivial

theorem posted_cases {hash : Bytes → UInt32} {k k' : Conn} {a : RecvAct} (hquiet : a.Quiet)
    (hstep : recvStep hash k a = some k') : k'.posted = k.posted ∨
      ∃ p, k'.posted = k.posted ++ [p] ∧ ∀ aM, p.aM = some aM → aM.ctype = k'.ctype := by
  cases a with
  | callback reqCount replyCount =>
    obtain ⟨-, rfl⟩ := recvStep_callback.mp hstep
    rw [Conn.enter_of_idle hquiet]
    exact .inl rfl
  | turn busy => exact Handed.turn_posted (recvStep_turn.mp hstep).2

/-- A client of which `n` commands were answered, and one more was dispatched or not. -/
structure Stands (hash : Bytes → UInt32) (start k : Conn) (busy : Bool) (n : ℕ) : Prop where
  received : ∃ acts, (∀ a ∈ acts, a.Quiet) ∧ exec (recvStep hash) start acts = some k
  posted : k.posted.length = n + busy.toNat

namespace Stands

variable {hash : Bytes → UInt32} {start k k' : Conn} {busy : Bool} {n : ℕ} {p : Posted}
  {cmds : List Command}

theorem new (hash : Bytes → UInt32) (k : Conn) (hk : k.posted = []) : Stands hash k k false 0 where
  received := ⟨[], List.forall_mem_nil _, rfl⟩
  posted := by rw [hk]; rfl

theorem command (h : Stands hash start k busy n) (hp : k.posted[n]? = some p)
    (hstart : start.Delivers hash (cmds.map (Command.posted hash))) :
    ∃ d, cmds.drop n = d :: cmds.drop (n + 1) ∧ p.content = d.posted hash := by
  obtain ⟨acts, hacts, hrun⟩ := h.received
  obtain ⟨rest, hrest⟩ := hstart.2 acts k hacts hrun
  have hcontent : k.contents[n]? = some p.content := by
    rw [Conn.contents, List.getElem?_map, hp]
    rfl
  have hnext : (cmds.map (Command.posted hash))[n]? = some p.content := by
    rw [← hrest, List.getElem?_append_left (List.getElem?_eq_some_iff.mp hcontent).1, hcontent]
  rw [List.getElem?_map] at hnext
  obtain ⟨d, hd, hposted⟩ := Option.map_eq_some_iff.mp hnext
  obtain ⟨hlt, rfl⟩ := List.getElem?_eq_some_iff.mp hd
  exact ⟨_, List.drop_eq_getElem_cons hlt, hposted.symm⟩

theorem done (h : Stands hash start k true n) : Stands hash start k false (n + 1) :=
  ⟨h.received, h.posted⟩

theorem recv (h : Stands hash start k false n) {a : RecvAct} (hquiet : a.Quiet)
    (hstep : recvStep hash k a = some k') :
    (k'.posted.drop k.posted.length = [] ∧ Stands hash start k' false n) ∨
    ∃ p, k'.posted.drop k.posted.length = [p] ∧ k'.posted[n]? = some p ∧
      Stands hash start k' true n ∧ ∀ aM, p.aM = some aM → aM.ctype = k'.ctype := by
  obtain ⟨acts, hacts, hrun⟩ := h.received
  have hreceived : ∃ acts, (∀ a ∈ acts, a.Quiet) ∧ exec (recvStep hash) start acts = some k' := by
    refine ⟨acts ++ [a], List.forall_mem_append.mpr ⟨hacts, List.forall_mem_singleton.mpr hquiet⟩, ?_⟩
    rw [exec_append, hrun, Option.bind_some, exec_cons, hstep]
    rfl
  have hlen : k.posted.length = n := h.posted
  rcases posted_cases hquiet hstep with hsame | ⟨p, hp, hctype⟩
  · rw [hsame, List.drop_length]
    exact .inl ⟨rfl, hreceived, by rw [hsame, hlen]; rfl⟩
  · rw [hp, List.drop_left]
    refine .inr ⟨p, rfl, ?_, ⟨hreceived, ?_⟩, hctype⟩
    · rw [← hlen, List.getElem?_concat_length]
    · rw [hp, List.length_append, hlen]
      rfl

end Stands

/-- What is left of the command that was dispatched, when `left` are the commands that are not
answered; `limit` bounds the answer for a key. -/
inductive Underway (hash : Bytes → UInt32) (limit : ℕ) (left : List Command) (reply : IovReply)
    (answered : Bytes) (todo : List Command) : Option Effect → Prop
  | idle (htodo : todo = left) (hrest : Rest reply) (hsent : reply.sent = answered) :
    Underway hash limit left reply answered todo none
  | set {key flags exptime datalen data : Bytes} {aM : AMsg} {rest : List Command}
    (hleft : left = .set key flags exptime datalen data :: rest) (htodo : todo = left)
    (hstore : ∀ t, Clients.storeValue t aM = (t.malloc key data).set (hash key) t.heap.fresh)
    (hrest : Rest reply) (hsent : reply.sent = answered) :
    Underway hash limit left reply answered todo (some (.put aM))
  | get {keys all : List Bytes} {msgs : List AMsg} {rest : List Command}
    (hleft : left = .get all :: rest) (htodo : todo = .get keys :: rest) (hkeys : keys ⊆ all)
    (hmsgs : msgs = keys.map (keyMessage hash)) (hqueued : Queued reply answered)
    (hentries : reply.iovIndex + 2 * keys.length ≤ 2 * all.length)
    (hbytes : answered.length + keys.length * limit ≤ reply.sent.length + all.length * limit) :
    Underway hash limit left reply answered todo (some (.split msgs))

theorem Underway.dispatched {hash : Bytes → UInt32} {limit : ℕ} {d : Command} {rest todo : List Command}
    {reply : IovReply} {answered : Bytes} {p : Posted} {aM : AMsg}
    (h : Underway hash limit (d :: rest) reply answered todo none) (hwf : d.WellFormed)
    (hp : p.content = d.posted hash) (haM : p.aM = some aM) :
    Underway hash limit (d :: rest) reply answered todo (some (dispatch hash aM.ctype aM)) := by
  cases h with
  | idle htodo hrest hsent =>
    cases d with
    | set =>
      obtain ⟨heffect, -, hstore⟩ := effect_set hwf hp haM
      rw [heffect]
      exact .set rfl htodo hstore hrest hsent
    | get keys =>
      rw [effect_get hwf hp haM]
      refine .get rfl htodo (List.Subset.refl _) rfl ?_ ?_ ?_
      · rw [← hsent]
        exact hrest.queued
      · rw [hrest.iovIndex, Nat.zero_add]
      · rw [hsent]

/-! ## All clients -/

def Sourced (cmds : C → List Command) (last : Bytes → Option (Addr × Bytes)) : Prop :=
  ∀ key a value, last key = some (a, value) → ∃ c flags exptime datalen,
    Command.set key flags exptime datalen value ∈ cmds c

/-- What the clients see is what the reference shows, and the table holds the values of the reference. -/
structure Shows (hash : Bytes → UInt32) (hashmask : UInt32) (cmds : C → List Command) (limit : ℕ)
    (start : C → Conn) (s : Sessions C) (u : Reference C) : Prop where
  clients : ∀ c, ∃ n, Stands hash (start c) (s.conn c) (s.running c).isSome n ∧
    Underway hash limit ((cmds c).drop n) (s.reply c) (u.answered c) (u.todo c) (s.running c)
  hashmask : s.table.hashmask = hashmask
  holds : ∃ last chain, Holds hash s.table last chain ∧ values last = u.contents ∧ Sourced cmds last

theorem wellCut_body {used : Bool} {cmds : List Command} {pieces : List Bytes}
    (h : WellCut used cmds pieces) : ∀ d ∈ cmds, d.body.length < 2 ^ 31 := by
  induction cmds generalizing used pieces with
  | nil => exact List.forall_mem_nil _
  | cons d cmds ih => exact List.forall_mem_cons.mpr ⟨h.1.2.2.1, ih h.2⟩

def Limit (cmds : C → List Command) (limit : ℕ) : Prop :=
  ∀ c key flags exptime datalen value, Command.set key flags exptime datalen value ∈ cmds c →
    (valueAnswer key value).length ≤ limit

variable {hash : Bytes → UInt32} {hashmask : UInt32} {cmds : C → List Command}
  {pieces : C → List Bytes} {limit : ℕ} {start : C → Conn} {s t : Sessions C} {u v : Reference C}
  {c : C}

theorem key_of_keysOf {d : Command} (hd : d.WellFormed) {key : Bytes} (hkey : key ∈ keysOf d) :
    Receive.Key key := by
  cases d with
  | get keys => exact hd.1.2 key hkey
  | set =>
    rw [List.mem_singleton.mp hkey]
    exact hd.1.1

omit [DecidableEq C] in
theorem Workload.clear (h : Workload hash hashmask cmds pieces) {last : Bytes → Option (Addr × Bytes)}
    (hlast : Sourced cmds last)
    {d : Command} (hd : d ∈ cmds c) {key : Bytes} (hkey : key ∈ keysOf d) :
    Clear hash last hashmask key where
  isKey := key_of_keysOf (h.wellFormed c d hd) hkey
  apart other a value hother hbucket hfront := by
    obtain ⟨c', flags, exptime, datalen, hset⟩ := hlast other a value hother
    exact h.apart c c' d hd key hkey other flags exptime datalen value hset hbucket hfront
  fits a value hlast' := by
    obtain ⟨c', flags, exptime, datalen, hset⟩ := hlast key a value hlast'
    obtain ⟨-, -, -, -, -, hpos⟩ := (h.wellFormed c' _ hset).1
    have hlen := wellCut_body (h.wellCut c') _ hset
    rw [Command.body, List.length_append] at hlen
    exact ⟨List.ne_nil_of_length_pos hpos, hlen⟩

theorem values_update (last : Bytes → Option (Addr × Bytes)) (key value : Bytes) (a : Addr) :
    values (Function.update last key (some (a, value))) =
      Function.update (values last) key (some value) := by
  funext other
  by_cases hkey : other = key
  · subst hkey
    simp [values]
  · simp [values, hkey]

omit [DecidableEq C] in
theorem keyAnswer_length {last : Bytes → Option (Addr × Bytes)} (hlimit : Limit cmds limit)
    (hsource : Sourced cmds last) (key : Bytes) :
    (keyAnswer (values last) key).length ≤ limit := by
  rw [keyAnswer, values]
  cases hlast : last key with
  | none => exact Nat.zero_le _
  | some r =>
    obtain ⟨c, flags, exptime, datalen, hset⟩ := hsource key r.1 r.2 hlast
    exact hlimit c key flags exptime datalen r.2 hset

omit [DecidableEq C] in
theorem Sourced.update {last : Bytes → Option (Addr × Bytes)} (h : Sourced cmds last)
    {key flags exptime datalen data : Bytes}
    (hset : Command.set key flags exptime datalen data ∈ cmds c) (a : Addr) :
    Sourced cmds (Function.update last key (some (a, data))) := by
  intro other x value hlast
  by_cases hkey : other = key
  · subst hkey
    rw [Function.update_self] at hlast
    obtain ⟨-, rfl⟩ := Prod.mk.inj (Option.some.inj hlast)
    exact ⟨c, flags, exptime, datalen, hset⟩
  · rw [Function.update_of_ne hkey] at hlast
    exact h other x value hlast

omit [DecidableEq C] in
theorem of_left {d : Command} {rest : List Command} {n : ℕ} (h : (cmds c).drop n = d :: rest) :
    d ∈ cmds c ∧ rest = (cmds c).drop (n + 1) := by
  refine ⟨List.mem_of_mem_drop (h ▸ List.mem_cons_self), ?_⟩
  rw [← List.tail_drop, h, List.tail_cons]

namespace Shows

omit [DecidableEq C] in
theorem init (hash : Bytes → UInt32) (hashmask : UInt32) (mem : C → Conn) (cmds : C → List Command)
    (limit : ℕ) (pieces : C → List Bytes) : Shows hash hashmask cmds limit
      (fun c => .new (mem c) ⟨(pieces c).map .data⟩) (.init mem pieces hashmask) (.init cmds) where
  clients _ := ⟨0, Stands.new hash _ rfl, .idle rfl rest_init rfl⟩
  hashmask := rfl
  holds := ⟨_, _, Holds.init hash hashmask, rfl, fun _ _ _ h => by cases h⟩

/-- A step of the comm thread shows nothing. -/
theorem received (h : Shows hash hashmask cmds limit start s u)
    (work : Workload hash hashmask cmds pieces)
    (hstart : (start c).Delivers hash ((cmds c).map (Command.posted hash)))
    (hidle : s.running c = none) {a : RecvAct} (hquiet : a.Quiet) {k : Conn}
    (hstep : recvStep hash (s.conn c) a = some k) (hreceived : s.received hash c k = some t) :
    Shows hash hashmask cmds limit start t u := by
  obtain ⟨n, hstands, hunderway⟩ := h.clients c
  rw [hidle] at hstands hunderway
  -- the other clients are where they were
  have hframe {running : C → Option Effect} (hc : ∃ n, Stands hash (start c) k (running c).isSome n ∧
      Underway hash limit ((cmds c).drop n) (s.reply c) (u.answered c) (u.todo c) (running c))
      (hother : ∀ c' ≠ c, running c' = s.running c') :
      Shows hash hashmask cmds limit start
        { s with conn := Function.update s.conn c k, running := running } u := by
    refine ⟨fun c' => ?_, h.hashmask, h.holds⟩
    dsimp only
    by_cases hcc : c' = c
    · subst hcc
      rw [Function.update_self]
      exact hc
    · rw [Function.update_of_ne hcc, hother c' hcc]
      exact h.clients c'
  rcases hstands.recv hquiet hstep with ⟨hnone, hk⟩ | ⟨p, hp, hnext, hk, hctype⟩
  · unfold Sessions.received at hreceived
    rw [hnone] at hreceived
    obtain rfl := Option.some.inj hreceived
    refine hframe ⟨n, ?_⟩ fun _ _ => rfl
    rw [hidle]
    exact ⟨hk, hunderway⟩
  · unfold Sessions.received at hreceived
    rw [hp] at hreceived
    obtain ⟨aM, haM, rfl⟩ := Option.map_eq_some_iff.mp hreceived
    refine hframe ⟨n, ?_⟩ fun c' hcc => Function.update_of_ne hcc ..
    obtain ⟨d, hleft, hposted⟩ := hk.command hnext hstart
    have hwf := work.wellFormed c d (of_left hleft).1
    rw [Function.update_self, ← hctype aM haM]
    rw [hleft] at hunderway ⊢
    exact ⟨hk, hunderway.dispatched hwf hposted haM⟩

/-- A message of one client is answered as the reference answers it. -/
theorem answered (h : Shows hash hashmask cmds limit start s u) {n : ℕ} {todo : List Command}
    {running : Option Effect} {table : AHashTable} {reply : IovReply} {held : List (C × Addr)}
    {contents : Contents} {bytes : Bytes}
    (hclient : Stands hash (start c) (s.conn c) running.isSome n ∧
      Underway hash limit ((cmds c).drop n) reply (u.answered c ++ bytes) todo running)
    (hmask : table.hashmask = s.table.hashmask)
    (hholds : ∃ last chain, Holds hash table last chain ∧ values last = contents ∧
      Sourced cmds last) :
    Shows hash hashmask cmds limit start (s.answered c running table reply held)
      (Reference.answer { u with contents := contents } c todo bytes) where
  clients c' := by
    dsimp only [Sessions.answered, Reference.answer]
    by_cases hcc : c' = c
    · subst hcc
      rw [Function.update_self, Function.update_self, Function.update_self, Function.update_self]
      exact ⟨n, hclient⟩
    · rw [Function.update_of_ne hcc, Function.update_of_ne hcc, Function.update_of_ne hcc,
        Function.update_of_ne hcc]
      exact h.clients c'
  hashmask := hmask.trans h.hashmask
  holds := hholds

theorem set (h : Shows hash hashmask cmds limit start s u)
    (work : Workload hash hashmask cmds pieces) {aM : AMsg} (hrunning : s.running c = some (.put aM)) :
    ∃ table reply v, Clients.storeValue s.table aM = some table ∧ answerSet (s.reply c) 8 = some reply ∧
      u.step (.set c) = some v ∧ ∀ held,
        Shows hash hashmask cmds limit start (s.answered c none table reply held) v := by
  obtain ⟨n, hstands, hunderway⟩ := h.clients c
  rw [hrunning] at hstands hunderway
  cases hunderway with
  | @set key flags exptime datalen data aM rest hleft htodo hstore hrest hsent =>
    obtain ⟨hd, rfl⟩ := of_left hleft
    obtain ⟨last, chain, hholds, hvalues, hsource⟩ := h.holds
    have hclear := work.clear hsource hd (List.mem_singleton_self key)
    rw [← h.hashmask] at hclear
    obtain ⟨table, chain', hset, hmask, hholds'⟩ := hholds.set hclear.isKey hclear.apart data
    obtain ⟨reply, hreply, hrest', hsent'⟩ := hrest.answerSet
    rw [hsent] at hsent'
    have hstep : u.step (.set c) = some (Reference.answer
        { u with contents := Function.update u.contents key (some data) } c
        ((cmds c).drop (n + 1)) Reply.stored) :=
      Reference.step_set.mpr ⟨key, flags, exptime, datalen, data, _, htodo.trans hleft, rfl⟩
    refine ⟨table, reply, _, (hstore s.table).trans hset, hreply, hstep, fun held => ?_⟩
    refine h.answered ⟨hstands.done, .idle rfl hrest' hsent'⟩ hmask
      ⟨_, chain', hholds', ?_, hsource.update hd _⟩
    rw [values_update, hvalues]

theorem key (h : Shows hash hashmask cmds limit start s u) (work : Workload hash hashmask cmds pieces)
    (hlimit : Limit cmds limit) {msgs : List AMsg} {aM : AMsg}
    (hrunning : s.running c = some (.split msgs)) (hmem : aM ∈ msgs) {r : ℤ} (hr : r < 2 ^ 31)
    {table : AHashTable} {reply : IovReply} {found : Option Addr}
    (hcall : answerKey s.table (s.reply c) aM r = some (table, reply, found)) :
    ∃ key v, u.step (.key c key) = some v ∧ ∀ held,
      Shows hash hashmask cmds limit start
        (s.answered c (some (.split (msgs.erase aM))) table reply held) v := by
  obtain ⟨n, hstands, hunderway⟩ := h.clients c
  rw [hrunning] at hstands hunderway
  cases hunderway with
  | @get keys all _ rest hleft htodo hkeys hmsgs hqueued hentries hbytes =>
    subst hmsgs
    obtain ⟨key, hkey, rfl⟩ := List.mem_map.mp hmem
    obtain ⟨hd, rfl⟩ := of_left hleft
    obtain ⟨last, chain, hholds, hvalues, hsource⟩ := h.holds
    have hclear := work.clear hsource hd (hkeys hkey)
    rw [← h.hashmask] at hclear
    obtain ⟨hholds', hmask, hqueued', hindex, hsent⟩ :=
      hholds.answerKey hclear hqueued hr hcall
    have hlength := keyAnswer_length hlimit hsource key
    rw [hvalues] at hqueued' hlength
    have hstep : u.step (.key c key) = some (Reference.answer u c
        (.get (keys.erase key) :: (cmds c).drop (n + 1)) (keyAnswer u.contents key)) :=
      Reference.step_key.mpr ⟨keys, _, htodo, hkey, rfl⟩
    have hinjective : Function.Injective (keyMessage hash) := fun a b hab => congrArg AMsg.key hab
    have herase : (keys.erase key).length + 1 = keys.length := List.length_erase_add_one hkey
    refine ⟨key, _, hstep, fun held => h.answered ⟨hstands, .get hleft rfl ?_ ?_ hqueued' ?_ ?_⟩
      hmask ⟨last, chain, hholds', hvalues, hsource⟩⟩
    · exact fun k hk => hkeys (List.erase_subset hk)
    · rw [List.map_erase hinjective]
    · omega
    · have hsum : keys.length * limit = (keys.erase key).length * limit + limit := by
        rw [← herase, Nat.succ_mul]
      have := hsent.length_le
      rw [List.length_append]
      omega

theorem finish (h : Shows hash hashmask cmds limit start s u)
    (hrunning : s.running c = some (.split [])) {waits : List (List SendResult)}
    (hwaits : ∀ ws ∈ waits, ∀ w ∈ ws, Waits w) {reply : IovReply}
    (hfinish : finishGet (s.reply c) waits = some reply) :
    ∃ v, u.step (.finish c) = some v ∧ ∀ held,
      Shows hash hashmask cmds limit start (s.answered c none s.table reply held) v := by
  obtain ⟨n, hstands, hunderway⟩ := h.clients c
  rw [hrunning] at hstands hunderway
  cases hunderway with
  | @get keys all _ rest hleft htodo hkeys hmsgs hqueued hentries hbytes =>
    obtain rfl := List.map_eq_nil_iff.mp hmsgs.symm
    obtain ⟨-, rfl⟩ := of_left hleft
    obtain ⟨hrest, hsent⟩ := (hqueued.finishGet hwaits).1 reply hfinish
    have hstep : u.step (.finish c) = some (Reference.answer u c ((cmds c).drop (n + 1))
        Reply.endLine) := Reference.step_finish.mpr ⟨_, htodo, rfl⟩
    exact ⟨_, hstep, fun held => h.answered ⟨hstands.done, .idle rfl hrest hsent⟩ rfl h.holds⟩

omit [DecidableEq C] in
/-- What a client was sent is what it is answered, as far as it has been sent. -/
theorem sent (h : Shows hash hashmask cmds limit start s u) (c : C) :
    (s.reply c).sent <+: u.answered c ∧
      (s.running c = none → (s.reply c).sent = u.answered c) := by
  obtain ⟨n, -, hunderway⟩ := h.clients c
  generalize s.running c = running at hunderway
  cases hunderway with
  | idle _ _ hsent => exact ⟨hsent ▸ List.prefix_rfl, fun _ => hsent⟩
  | set _ _ _ _ hsent => exact ⟨hsent ▸ List.prefix_rfl, fun _ => hsent⟩
  | get _ _ _ _ hqueued =>
    refine ⟨?_, fun h => by cases h⟩
    rw [← hqueued.account.2.bytes]
    exact List.prefix_append _ _

end Shows

omit [DecidableEq C] in
theorem Workload.limited (h : Workload hash hashmask cmds pieces) : Limit cmds (2 ^ 32) := by
  intro c key flags exptime datalen value hset
  obtain ⟨hkey, -, -, -, -, hpos⟩ := (h.wellFormed c _ hset).1
  have hlen := wellCut_body (h.wellCut c) _ hset
  rw [Command.body, List.length_append] at hlen
  let a : Answer := ⟨key, value, hkey.2, List.ne_nil_of_length_pos hpos, hlen⟩
  have hanswer : valueAnswer key value = a.header ++ a.line := rfl
  have hheader := a.header_length
  have hline := a.line_length
  rw [hanswer, List.length_append]
  omega

/-- The set is carried out when the get has been received. -/
def setThenGet : List (Act Bool) :=
  [.callback false, .turn false, .callback true, .turn true, .turn false, .set false 8,
    .key true (keyMessage (fun _ => 0) [107]) (-1), .finish true []]

end Acached.Server
