import Acached.Server.Run
import Mathlib.Algebra.BigOperators.Group.Finset.Basic
import Mathlib.Algebra.Order.BigOperators.Group.Finset
import Mathlib.Data.Fintype.EquivFin

/-! # No client is left without an answer

From wherever a run has come to, the server can go on until all commands are
answered. The comm thread has no choices as long as no quit is handed on, so it
goes on from any place as it does from the start. A set may have to wait for the
gets that are in progress, and these can always go on.
-/
namespace Acached.Server
open CString Dispatch Receive Reply HashTable Execution Refinement

/-! ## The comm thread -/

def commNext (hash : Bytes → UInt32) (k : Conn) : Option Conn :=
  recvStep hash k (if k.inLoop then .turn false else .callback 0 0)

def Serves (p : Posted) : Prop := ∃ aM, p.aM = some aM ∧ aM.ctype ≠ .quit

variable {hash : Bytes → UInt32} {k k' : Conn} {cmds : List Command}

theorem posted_serves (hash : Bytes → UInt32) (d : Command) : Serves (d.posted hash) := by
  cases d with
  | get =>
    refine ⟨_, rfl, ?_⟩
    change ACmdType.gets ≠ .quit
    decide
  | set =>
    refine ⟨_, rfl, ?_⟩
    change ACmdType.set ≠ .quit
    decide

theorem serves_of_front {sent : List Posted} (h : sent <+: cmds.map (Command.posted hash)) :
    ∀ p ∈ sent, Serves p := by
  intro p hp
  obtain ⟨d, -, rfl⟩ := List.mem_map.mp (h.subset hp)
  exact posted_serves hash d

theorem not_serves_quit {p : Posted} (h : ∀ aM, p.aM = some aM → aM.ctype = .quit) :
    ¬ Serves p.content := by
  rintro ⟨m, hm, hne⟩
  obtain ⟨aM, haM, hcontent⟩ := Option.map_eq_some_iff.mp hm
  have hquit := h aM haM
  rw [if_neg (by rw [hquit]; decide)] at hcontent
  exact hne (hcontent ▸ hquit)

/-- Whether the queue is busy counts for a quit only. -/
theorem turn_not_busy {busy : Bool} (h : k.turn hash busy = some k')
    (hserves : ∀ p ∈ k'.contents, Serves p) : k.turn hash false = some k' := by
  obtain ⟨⟨u, ret⟩, hcall, hdispose⟩ := Option.bind_eq_some_iff.mp h
  rw [Conn.turn, hcall, Option.bind_some]
  dsimp only at hdispose ⊢
  unfold Conn.dispose at hdispose ⊢
  split at hdispose
  · next hdone =>
    rw [if_pos hdone]
    split at hdispose
    · exact hdispose
    · exact hdispose
    · next hquit =>
      obtain ⟨t, hpost, rfl⟩ := Option.map_eq_some_iff.mp hdispose
      have hposted := (Handed.post_spec hpost).1
      refine absurd (hserves (Posted.content ⟨u.line, u.message hash⟩) ?_) (not_serves_quit ?_)
      · have hsame : (if busy then t.leaveLoop else t.closeConnection).contents = t.contents := by
          cases busy
          · rfl
          · rfl
        rw [hsame, Conn.contents, hposted, List.map_append]
        exact List.mem_append_right _ (List.mem_singleton_self _)
      · intro aM haM
        rw [Handed.message_ctype haM, hquit]
    · exact hdispose
  · next hdone =>
    rw [if_neg hdone]
    exact hdispose

theorem commNext_of_quiet {a : RecvAct} (hquiet : a.Quiet) (hstep : recvStep hash k a = some k')
    (hserves : ∀ p ∈ k'.contents, Serves p) : commNext hash k = some k' := by
  unfold commNext
  cases a with
  | callback reqCount replyCount =>
    obtain ⟨⟨hopen, hout⟩, rfl⟩ := recvStep_callback.mp hstep
    rw [hout, if_neg Bool.false_ne_true]
    refine recvStep_callback.mpr ⟨⟨hopen, hout⟩, ?_⟩
    rw [Conn.enter_of_idle hquiet, Conn.enter_of_idle quiet_callback]
  | turn busy =>
    obtain ⟨⟨hopen, hin⟩, hturn⟩ := recvStep_turn.mp hstep
    rw [hin, if_pos rfl]
    exact recvStep_turn.mpr ⟨⟨hopen, hin⟩, turn_not_busy hturn hserves⟩

theorem recvStep_of_commNext (h : commNext hash k = some k') :
    ∃ a : RecvAct, a.Quiet ∧ (a = .callback 0 0 ∨ a = .turn false) ∧ recvStep hash k a = some k' := by
  unfold commNext at h
  split at h
  · exact ⟨_, quiet_turn false, .inr rfl, h⟩
  · exact ⟨_, quiet_callback, .inl rfl, h⟩

theorem exec_contents {acts : List RecvAct} (hrun : exec (recvStep hash) k acts = some k') :
    k.contents <+: k'.contents := by
  refine @exec_invariant _ _ _ (fun t => k.contents <+: t.contents) ?_ _ _ _ List.prefix_rfl hrun
  intro t a u ht hstep
  exact ht.trans (Conn.recvStep_contents hstep)

theorem commNext_contents {as : List Unit}
    (hrun : exec (fun k (_ : Unit) => commNext hash k) k as = some k') :
    k.contents <+: k'.contents := by
  refine @exec_invariant _ _ _ (fun t => k.contents <+: t.contents) ?_ _ _ _ List.prefix_rfl hrun
  intro t a u ht hnext
  obtain ⟨b, -, -, hstep⟩ := recvStep_of_commNext hnext
  exact ht.trans (Conn.recvStep_contents hstep)

/-- A run of the comm thread that hands on no quit is the one that it has. -/
theorem comm_of_quiet {acts : List RecvAct} (hquiet : ∀ a ∈ acts, a.Quiet)
    (hrun : exec (recvStep hash) k acts = some k') (hserves : ∀ p ∈ k'.contents, Serves p) :
    ∃ as, exec (fun k (_ : Unit) => commNext hash k) k as = some k' := by
  induction acts generalizing k with
  | nil => exact ⟨[], hrun⟩
  | cons a acts ih =>
    obtain ⟨t, ht, hrest⟩ := Option.bind_eq_some_iff.mp hrun
    obtain ⟨ha, hquiet'⟩ := List.forall_mem_cons.mp hquiet
    have hnext := commNext_of_quiet ha ht fun p hp => hserves p ((exec_contents hrest).subset hp)
    obtain ⟨as, has⟩ := ih hquiet' hrest
    refine ⟨() :: as, ?_⟩
    rw [exec_cons, hnext, Option.bind_some, has]

theorem Stands.goes_on {start : Conn} {busy : Bool} {n : ℕ} (h : Stands hash start k busy n)
    (hstart : start.Delivers hash (cmds.map (Command.posted hash)))
    (hmissing : k.posted.length < cmds.length) :
    ∃ as last, exec (fun k (_ : Unit) => commNext hash k) k as = some last ∧
      last.contents = cmds.map (Command.posted hash) := by
  obtain ⟨acts, hacts, hrun⟩ := h.received
  obtain ⟨all, last, hall, hlast, hcontents⟩ := hstart.1
  obtain ⟨as, has⟩ := comm_of_quiet hacts hrun (serves_of_front (hstart.2 acts k hacts hrun))
  have hlastserves : ∀ p ∈ last.contents, Serves p := by
    rw [hcontents]
    exact serves_of_front List.prefix_rfl
  obtain ⟨bs, hbs⟩ := comm_of_quiet hall hlast hlastserves
  rcases exec_comparable has hbs with ⟨cs, hcs⟩ | ⟨cs, hcs⟩
  · exact ⟨cs, last, hcs, hcontents⟩
  · have hle := (commNext_contents hcs).length_le
    rw [hcontents, List.length_map, Conn.contents, List.length_map] at hle
    exact absurd hle (Nat.not_le.mpr hmissing)

/-! ## Commands that have been dispatched -/

variable {C : Type} [DecidableEq C] {hashmask : UInt32} {cmds : C → List Command}
  {pieces : C → List Bytes} {limit : ℕ} {start : C → Conn} {s t : Sessions C} {u v : Reference C}
  {c : C}

/-- The gets have room for their answers: two entries for each key, one for `END`, and the `IOV_MAX`
entries of a round behind the last one. -/
structure Fitting (cmds : C → List Command) (limit : ℕ) : Prop where
  limited : Limit cmds limit
  entries : ∀ c keys, Command.get keys ∈ cmds c → 2 * keys.length + 1025 ≤ iovSize
  bytes : ∀ c keys, Command.get keys ∈ cmds c → keys.length * limit + 5 < 2 ^ 31

/-- A set can be carried out when no entry points into a record. -/
theorem Shows.serve_set (h : Shows hash hashmask cmds limit start s u)
    (work : Workload hash hashmask cmds pieces) (hheld : s.held = []) {aM : AMsg}
    (hrunning : s.running c = some (.put aM)) :
    ∃ (a : Act C) (t : Sessions C) (serve : Serve C) (v : Reference C), a.Ok ∧
      s.step hash a = some t ∧ u.step serve = some v ∧
        Shows hash hashmask cmds limit start t v := by
  obtain ⟨table, reply, v, htable, hreply, hv, hshows⟩ := h.set work hrunning
  have hfree : ∀ h ∈ s.held, (table.heap.block h.2).isSome := by
    rw [hheld]
    exact List.forall_mem_nil _
  exact ⟨.set c 8, _, .set c, v, rfl,
    Sessions.step_set.mpr ⟨aM, table, reply, hrunning, htable, hreply, hfree, rfl⟩, hv, hshows _⟩

/-- A get can always go on, with no early flush that sends something. -/
theorem Shows.serve_get (h : Shows hash hashmask cmds limit start s u)
    (work : Workload hash hashmask cmds pieces) (fitting : Fitting cmds limit) {msgs : List AMsg}
    (hrunning : s.running c = some (.split msgs)) :
    ∃ (a : Act C) (t : Sessions C) (serve : Serve C) (v : Reference C), a.Ok ∧
      s.step hash a = some t ∧ u.step serve = some v ∧
        Shows hash hashmask cmds limit start t v := by
  obtain ⟨n, -, hunderway⟩ := h.clients c
  rw [hrunning] at hunderway
  cases hunderway with
  | @get keys all _ rest hleft htodo hkeys hmsgs hqueued hentries hbytes =>
    obtain ⟨hd, -⟩ := of_left hleft
    have hroom := fitting.entries c all hd
    have hshort := fitting.bytes c all hd
    cases keys with
    | nil =>
      subst hmsgs
      rw [List.length_nil] at hentries hbytes
      have hwaits : ∀ ws ∈ ([] : List (List SendResult)), ∀ w ∈ ws, Waits w := List.forall_mem_nil _
      have htotal : (u.answered c ++ Reply.endLine).length < (s.reply c).sent.length + 2 ^ 31 := by
        rw [List.length_append]
        change _ + 5 < _
        omega
      obtain ⟨reply, hreply⟩ := Option.isSome_iff_exists.mp
        ((hqueued.finishGet hwaits).2 (by omega) htotal)
      obtain ⟨v, hv, hshows⟩ := h.finish hrunning hwaits hreply
      exact ⟨.finish c [], _, .finish c, v, hwaits,
        Sessions.step_finish.mpr ⟨reply, hrunning, hreply, rfl⟩, hv, hshows _⟩
    | cons key keys =>
      obtain ⟨last, chain, hholds, -, hsource⟩ := h.holds
      have hclear := work.clear hsource hd (hkeys List.mem_cons_self)
      rw [← h.hashmask] at hclear
      rw [List.length_cons] at hentries
      obtain ⟨⟨table, reply, found⟩, hcall⟩ := Option.isSome_iff_exists.mp
        (hholds.answerKey_isSome hclear hqueued (r := -1) (by omega) (by omega))
      have hmem : keyMessage hash key ∈ msgs := by
        rw [hmsgs]
        exact List.mem_cons_self
      have hr : (-1 : ℤ) < 2 ^ 31 := by decide
      obtain ⟨key', v, hv, hshows⟩ := h.key work fitting.limited hrunning hmem hr hcall
      exact ⟨.key c (keyMessage hash key) (-1), _, .key c key', v, hr,
        Sessions.step_key.mpr ⟨msgs, table, reply, found, hrunning, hmem, hcall, rfl⟩, hv, hshows _⟩

/-! ## Records that entries point into -/

/-- Only gets in progress hold records. -/
def Sessions.Pinned (s : Sessions C) : Prop :=
  ∀ h ∈ s.held, ∃ msgs, s.running h.1 = some (.split msgs)

theorem Sessions.Pinned.received (h : s.Pinned) (hidle : s.running c = none)
    (hreceived : s.received hash c k = some t) : t.Pinned := by
  unfold Sessions.received at hreceived
  dsimp only at hreceived
  split at hreceived
  · obtain rfl := Option.some.inj hreceived
    exact h
  · obtain ⟨aM, -, rfl⟩ := Option.map_eq_some_iff.mp hreceived
    intro x hx
    obtain ⟨msgs, hmsgs⟩ := h x hx
    have hne : x.1 ≠ c := by
      intro hxc
      rw [hxc, hidle] at hmsgs
      cases hmsgs
    exact ⟨msgs, by dsimp only; rw [Function.update_of_ne hne, hmsgs]⟩

theorem Sessions.Pinned.step (h : s.Pinned) {a : Act C} (hstep : s.step hash a = some t) :
    t.Pinned := by
  cases a with
  | callback c =>
    obtain ⟨hidle, k, -, hreceived⟩ := Sessions.step_callback hstep
    exact h.received hidle hreceived
  | turn c =>
    obtain ⟨hidle, k, -, hreceived⟩ := Sessions.step_turn hstep
    exact h.received hidle hreceived
  | set c r =>
    obtain ⟨aM, table, reply, hrunning, -, -, -, rfl⟩ := Sessions.step_set.mp hstep
    intro x hx
    obtain ⟨msgs, hmsgs⟩ := h x hx
    have hne : x.1 ≠ c := by
      intro hxc
      rw [hxc, hrunning] at hmsgs
      cases hmsgs
    exact ⟨msgs, by dsimp only [Sessions.answered]; rw [Function.update_of_ne hne, hmsgs]⟩
  | key c aM r =>
    obtain ⟨msgs, table, reply, found, hrunning, -, -, rfl⟩ := Sessions.step_key.mp hstep
    intro x hx
    dsimp only [Sessions.answered] at hx ⊢
    by_cases hxc : x.1 = c
    · rw [hxc, Function.update_self]
      exact ⟨_, rfl⟩
    · rw [Function.update_of_ne hxc]
      rcases List.mem_append.mp hx with hx | hx
      · obtain ⟨a, -, rfl⟩ := List.mem_map.mp hx
        exact absurd rfl hxc
      · exact h x hx
  | finish c waits =>
    obtain ⟨reply, hrunning, -, rfl⟩ := Sessions.step_finish.mp hstep
    intro x hx
    dsimp only [Sessions.answered] at hx ⊢
    obtain ⟨hx, hne⟩ := List.mem_filter.mp hx
    rw [Function.update_of_ne (of_decide_eq_true hne)]
    exact h x hx

/-! ## Commands that have not been received -/

theorem Sessions.step_comm (hidle : s.running c = none) (hnext : commNext hash (s.conn c) = some k)
    (hreceived : s.received hash c k = some t) :
    ∃ a : Act C, a.Ok ∧ s.step hash a = some t := by
  obtain ⟨b, -, rfl | rfl, hstep⟩ := recvStep_of_commNext hnext
  · refine ⟨.callback c, trivial, ?_⟩
    dsimp only [Sessions.step]
    rw [if_pos hidle, hstep, Option.bind_some, hreceived]
  · refine ⟨.turn c, trivial, ?_⟩
    dsimp only [Sessions.step]
    rw [if_pos hidle, hstep, Option.bind_some, hreceived]

theorem Shows.dispatches (h : Shows hash hashmask cmds limit start s u)
    (work : Workload hash hashmask cmds pieces)
    (hstart : (start c).Delivers hash ((cmds c).map (Command.posted hash)))
    (hidle : s.running c = none) {as : List Unit} {last : Conn}
    (hrun : exec (fun k (_ : Unit) => commNext hash k) (s.conn c) as = some last)
    (hmore : (s.conn c).posted.length < last.posted.length)
    (hserves : ∀ p ∈ last.contents, Serves p) :
    ∃ acts t e, (∀ a ∈ acts, a.Ok) ∧ exec (Sessions.step hash) s acts = some t ∧
      Shows hash hashmask cmds limit start t u ∧ t.running c = some e ∧ t.held = s.held := by
  induction as generalizing s with
  | nil =>
    obtain rfl := Option.some.inj hrun
    exact absurd hmore (Nat.lt_irrefl _)
  | cons _ as ih =>
    obtain ⟨k, hk, hrest⟩ := Option.bind_eq_some_iff.mp hrun
    obtain ⟨b, hquiet, -, hb⟩ := recvStep_of_commNext hk
    rcases posted_cases hquiet hb with hsame | ⟨p, hp, -⟩
    · have hreceived : s.received hash c k =
          some { s with conn := Function.update s.conn c k } := by
        unfold Sessions.received
        rw [hsame, List.drop_length]
      obtain ⟨a, ha, hstep⟩ := Sessions.step_comm hidle hk hreceived
      have hshows := h.received work hstart hidle hquiet hb hreceived
      obtain ⟨acts, t, e, hacts, ht, hserving⟩ := ih hshows hidle
        (by dsimp only; rwa [Function.update_self])
        (by dsimp only; rwa [Function.update_self, hsame])
      refine ⟨a :: acts, t, e, List.forall_mem_cons.mpr ⟨ha, hacts⟩, ?_, hserving⟩
      rw [exec_cons, hstep, Option.bind_some, ht]
    · have hmem : p.content ∈ k.contents := by
        rw [Conn.contents, hp]
        exact List.mem_map_of_mem (List.mem_append_right _ (List.mem_singleton_self p))
      obtain ⟨m, hm, -⟩ := hserves _ ((commNext_contents hrest).subset hmem)
      obtain ⟨aM, haM, -⟩ := Option.map_eq_some_iff.mp hm
      have hreceived : s.received hash c k = some { s with
          conn := Function.update s.conn c k
          running := Function.update s.running c (some (dispatch hash k.ctype aM)) } := by
        unfold Sessions.received
        rw [hp, List.drop_left]
        dsimp only
        rw [haM]
        rfl
      obtain ⟨a, ha, hstep⟩ := Sessions.step_comm hidle hk hreceived
      refine ⟨[a], _, dispatch hash k.ctype aM, List.forall_mem_singleton.mpr ha, ?_,
        h.received work hstart hidle hquiet hb hreceived, Function.update_self .., rfl⟩
      rw [exec_cons, hstep]
      rfl

theorem Shows.dispatches_next (h : Shows hash hashmask cmds limit start s u)
    (work : Workload hash hashmask cmds pieces)
    (hstart : (start c).Delivers hash ((cmds c).map (Command.posted hash)))
    (hidle : s.running c = none) (hmore : u.todo c ≠ []) :
    ∃ acts t e, (∀ a ∈ acts, a.Ok) ∧ exec (Sessions.step hash) s acts = some t ∧
      Shows hash hashmask cmds limit start t u ∧ t.running c = some e ∧ t.held = s.held := by
  obtain ⟨n, hstands, hunderway⟩ := h.clients c
  rw [hidle] at hstands hunderway
  cases hunderway with
  | idle htodo =>
    have hposted : (s.conn c).posted.length = n := hstands.posted
    have hlt : (s.conn c).posted.length < (cmds c).length := by
      by_contra hle
      rw [htodo, List.drop_eq_nil_of_le (by omega)] at hmore
      exact hmore rfl
    obtain ⟨as, last, has, hlast⟩ := hstands.goes_on hstart hlt
    refine h.dispatches work hstart hidle has ?_ ?_
    · have hlength := congrArg List.length hlast
      rw [Conn.contents, List.length_map, List.length_map] at hlength
      rwa [hlength]
    · rw [hlast]
      exact serves_of_front List.prefix_rfl

/-! ## The whole server -/

/-- While something is left to do, the server can go on to answer a message. -/
theorem Shows.goes_on (h : Shows hash hashmask cmds limit start s u) (hpinned : s.Pinned)
    (work : Workload hash hashmask cmds pieces) (fitting : Fitting cmds limit)
    (hstart : ∀ c, (start c).Delivers hash ((cmds c).map (Command.posted hash)))
    (hmore : u.todo c ≠ []) :
    ∃ acts t serve v, (∀ a ∈ acts, a.Ok) ∧ exec (Sessions.step hash) s acts = some t ∧
      u.step serve = some v ∧ Shows hash hashmask cmds limit start t v := by
  by_cases hget : ∃ c msgs, s.running c = some (.split msgs)
  · obtain ⟨c, msgs, hrunning⟩ := hget
    obtain ⟨a, t, serve, v, ha, ht, hv, hshows⟩ := h.serve_get work fitting hrunning
    refine ⟨[a], t, serve, v, List.forall_mem_singleton.mpr ha, ?_, hv, hshows⟩
    rw [exec_cons, ht]
    rfl
  · have hheld : s.held = [] := by
      apply List.eq_nil_iff_forall_not_mem.mpr
      intro x hx
      exact hget ⟨x.1, hpinned x hx⟩
    have hdispatched : ∃ acts t e, (∀ a ∈ acts, a.Ok) ∧ exec (Sessions.step hash) s acts = some t ∧
        Shows hash hashmask cmds limit start t u ∧ t.running c = some e ∧ t.held = s.held := by
      cases hrunning : s.running c with
      | some e => exact ⟨[], s, e, List.forall_mem_nil _, rfl, h, hrunning, rfl⟩
      | none => exact h.dispatches_next work (hstart c) hrunning hmore
    obtain ⟨acts, t, e, hacts, ht, hshows, hrunning, hsame⟩ := hdispatched
    have hserve : ∃ (a : Act C) (t' : Sessions C) (serve : Serve C) (v : Reference C), a.Ok ∧
        t.step hash a = some t' ∧ u.step serve = some v ∧
          Shows hash hashmask cmds limit start t' v := by
      obtain ⟨n, -, hunderway⟩ := hshows.clients c
      rw [hrunning] at hunderway
      cases hunderway with
      | set => exact hshows.serve_set work (hsame.trans hheld) hrunning
      | get => exact hshows.serve_get work fitting hrunning
    obtain ⟨a, t', serve, v, ha, ht', hv, hshows'⟩ := hserve
    refine ⟨acts ++ [a], t', serve, v,
      List.forall_mem_append.mpr ⟨hacts, List.forall_mem_singleton.mpr ha⟩, ?_, hv, hshows'⟩
    rw [exec_append, ht, Option.bind_some, exec_cons, ht']
    rfl

end Acached.Server
