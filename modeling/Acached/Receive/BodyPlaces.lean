import Acached.Receive.SetInput

/-! # Every byte of a body in its place

A sequence of sets, each with a body in any number of pieces, is read in one
callback. The offset at which the next piece is stored is moved on by all the
bytes received and not by those of the last piece, and it is kept from one
command to the next. So it is right for one piece behind the first call of one
set, and for no other.
-/
namespace Acached.Receive
open CString Dispatch Execution

namespace Conn

/-- `P` holds after every number of turns, whatever they find in `Busy`, and each of them has a
defined outcome. -/
def AllTurns (hash : Bytes → UInt32) (P : Conn → Prop) (s : Conn) : Prop :=
  ∀ busys, ∃ t, s.loop hash busys = some t ∧ P t

/-- The command behind those that were handed on: its first `m` bytes are what the block that is read
into holds, and the read asks for exactly the others, right behind them. -/
def InPlace (cmds : List SetInput) (s : Conn) : Prop :=
  ∃ c ∈ cmds[s.posted.length]?, ∃ p m len, s.bodyPrepare = some (p, m, len) ∧
    s.received = (cmds.take s.posted.length).flatMap SetInput.bytes ++ c.line ++ c.body.take m ∧
    p.cur.base = (c.body.take m).map some ∧ m + len = c.body.length ∧ len < 2 ^ 31

/-- The commands handed on carry the bytes sent, all of them when the callback has returned, and
those of a body that is being read are in place. -/
structure Sound (hash : Bytes → UInt32) (cmds : List SetInput) (s : Conn) : Prop where
  posted : s.posted <+: cmds.map (SetInput.posted hash)
  all : s.inLoop = false → s.posted = cmds.map (SetInput.posted hash)
  inPlace : s.inLoop = true → s.state = .bodyWait → s.InPlace cmds

def receiving (mem : Conn) (cmds : List SetInput) : Conn :=
  (Conn.new mem ⟨cmds.flatMap SetInput.reads⟩).enter 0 0

end Conn

/-- No body is empty or of 2^31 bytes and more, no body comes in more than two pieces behind its line's
read, and at most one in two. -/
def InTwoPieces (cmds : List SetInput) : Prop :=
  (∀ c ∈ cmds, 0 < c.header.datalen ∧ c.body.length < 2 ^ 31 ∧ c.pieces.length ≤ 2) ∧
    (cmds.countP fun c => c.pieces.length = 2) ≤ 1

/-- The condition from one command on, when the offset has been moved already or not. -/
def Fits (used : Bool) : List SetInput → Prop
  | [] => True
  | c :: cmds =>
    (0 < c.header.datalen ∧ c.body.length < 2 ^ 31 ∧ c.pieces.length ≤ 2 ∧
      (c.pieces.length = 2 → used = false)) ∧
    Fits (used || c.pieces.length = 2) cmds

theorem fits_iff (used : Bool) (cmds : List SetInput) :
    Fits used cmds ↔
      (∀ c ∈ cmds, 0 < c.header.datalen ∧ c.body.length < 2 ^ 31 ∧ c.pieces.length ≤ 2) ∧
        (cmds.countP fun c => c.pieces.length = 2) ≤ if used then 0 else 1 := by
  induction cmds generalizing used with
  | nil => simp [Fits]
  | cons c cmds ih =>
    rw [Fits, ih, List.forall_mem_cons, List.countP_cons]
    cases used with
    | false =>
      by_cases htwo : c.pieces.length = 2
      · simp [htwo]
        tauto
      · simp [htwo]
        tauto
    | true =>
      by_cases htwo : c.pieces.length = 2
      · simp [htwo]
      · simp [htwo]
        tauto

namespace Conn

variable {hash : Bytes → UInt32} {P : Conn → Prop} {s t : Conn}

theorem AllTurns.here (h : s.AllTurns hash P) : P s := by
  obtain ⟨t, ht, hP⟩ := h []
  obtain rfl := Option.some.inj ht
  exact hP

theorem allTurns_of_left (hleft : s.inLoop = false) : s.AllTurns hash P ↔ P s :=
  ⟨AllTurns.here, fun hP busys => ⟨s, loop_of_left hash hleft busys, hP⟩⟩

theorem allTurns_of_turn (hin : s.inLoop = true) (hturn : ∀ busy, s.turn hash busy = some t) :
    s.AllTurns hash P ↔ P s ∧ t.AllTurns hash P := by
  constructor
  · intro h
    refine ⟨h.here, fun busys => ?_⟩
    obtain ⟨u, hu, hP⟩ := h (false :: busys)
    rw [loop_cons hin, hturn, Option.bind_some] at hu
    exact ⟨u, hu, hP⟩
  · rintro ⟨hP, h⟩ busys
    cases busys with
    | nil => exact ⟨s, rfl, hP⟩
    | cons busy busys =>
      rw [loop_cons hin, hturn, Option.bind_some]
      exact h busys

theorem not_allTurns_of_none (hin : s.inLoop = true) (hturn : s.turn hash false = none) :
    ¬ s.AllTurns hash P := by
  intro h
  obtain ⟨u, hu, -⟩ := h [false]
  rw [loop_cons hin, hturn] at hu
  cases hu

section Command

variable {cmds done rest : List SetInput} {c : SetInput} {posted : List Posted} {received : Bytes}
  {offset m : ℕ} {sock : Sock} {reads : List ReadResult} {pieces : List Bytes}

/-- The callback may not end while a command is being read. -/
theorem not_sound_of_left (hcmds : cmds = done ++ c :: rest) (hleft : t.inLoop = false)
    (hposted : t.posted = done.map (SetInput.posted hash)) : ¬ t.Sound hash cmds := by
  intro h
  have hall := h.all hleft
  rw [hposted, hcmds, List.map_append] at hall
  simp at hall

theorem prefix_of_done (hcmds : cmds = done ++ rest) :
    done.map (SetInput.posted hash) <+: cmds.map (SetInput.posted hash) := by
  rw [hcmds, List.map_append]
  exact List.prefix_append _ _

theorem Ready.sound (hcmds : cmds = done ++ rest)
    (h : Ready (done.map (SetInput.posted hash)) received offset sock s) : s.Sound hash cmds where
  posted := h.posted ▸ prefix_of_done hcmds
  all := fun hleft => by cases h.inLoop.symm.trans hleft
  inPlace := fun _ hstate => by cases h.state.symm.trans hstate

/-- While `c` is being read, its bytes are in place exactly if the next call asks for the right
ones. -/
theorem sound_iff (hcmds : cmds = done ++ c :: rest) (hin : s.inLoop = true)
    (hstate : s.state = .bodyWait) (hposted : s.posted = done.map (SetInput.posted hash))
    (hreceived : s.received = done.flatMap SetInput.bytes ++ c.line ++ c.body.take m)
    (hm : m ≤ c.body.length) :
    s.Sound hash cmds ↔ ∃ p, s.bodyPrepare = some (p, m, c.body.length - m) ∧
      p.cur.base = (c.body.take m).map some ∧ c.body.length - m < 2 ^ 31 := by
  have hlen : s.posted.length = done.length := by rw [hposted, List.length_map]
  have hget : cmds[s.posted.length]? = some c := by
    rw [hlen, hcmds]
    simp
  have htake : cmds.take s.posted.length = done := by
    rw [hlen, hcmds]
    simp
  constructor
  · intro h
    obtain ⟨d, hd, p, n, len, hprep, hrec, hbase, hsum, hlt⟩ := h.inPlace hin hstate
    rw [hget] at hd
    obtain rfl := Option.some.inj hd
    rw [hreceived, htake] at hrec
    have hsame := congrArg List.length (List.append_cancel_left hrec)
    simp only [List.length_take] at hsame
    obtain rfl : m = n := by omega
    obtain rfl : len = c.body.length - m := by omega
    exact ⟨p, hprep, hbase, hlt⟩
  · rintro ⟨p, hprep, hbase, hlt⟩
    exact {
      posted := hposted ▸ prefix_of_done hcmds
      all := fun hleft => by cases hin.symm.trans hleft
      inPlace := fun _ _ => ⟨c, hget, p, m, _, hprep, by rw [htake, hreceived], hbase, by omega, hlt⟩ }

theorem sub32_of_le {m n : ℕ} (hle : n ≤ m) (hlt : m < 2 ^ 32) : sub32 m n = m - n := by
  unfold sub32
  omega

theorem Ready.extend
    (h : Ready (done.map (SetInput.posted hash) ++ [c.posted hash])
      (done.flatMap SetInput.bytes ++ c.line ++ c.body) offset sock t) :
    Ready ((done ++ [c]).map (SetInput.posted hash)) ((done ++ [c]).flatMap SetInput.bytes) offset
      sock t := by
  have hbytes : (done ++ [c]).flatMap SetInput.bytes =
      done.flatMap SetInput.bytes ++ c.line ++ c.body := by simp [SetInput.bytes]
  rw [List.map_append, hbytes]
  exact h

theorem not_allTurns_of_over (hcmds : cmds = done ++ c :: rest) (hin : s.inLoop = true)
    (h : ∃ t, (∀ busy, s.turn hash busy = some t) ∧ t.inLoop = false ∧
      t.posted = done.map (SetInput.posted hash)) : ¬ s.AllTurns hash (Sound hash cmds) := by
  obtain ⟨t, hturn, hleft, hposted⟩ := h
  rw [allTurns_of_turn hin hturn, allTurns_of_left hleft]
  exact fun hall => not_sound_of_left hcmds hleft hposted hall.2

/-- The state behind a first call that has left a part of the body missing. -/
theorem second_iff {R : Bool → Prop} {g : Bytes} (hcmds : cmds = done ++ c :: rest)
    (hc : c.WellFormed) (hdata : 0 < c.header.datalen) (hsize : c.body.length < 2 ^ 32)
    (hoffset : offset < 2 ^ 32) (hm : 0 < m) (hlt : m < 2 ^ 31)
    (hne : ∀ f ∈ g :: pieces, f ≠ []) (hflat : (g :: pieces).flatten = c.body.drop m)
    (hnext : ∀ t, Ready ((done ++ [c]).map (SetInput.posted hash))
      ((done ++ [c]).flatMap SetInput.bytes) m ⟨reads⟩ t →
        (t.AllTurns hash (Sound hash cmds) ↔ R true))
    (h : Filling c (done.map (SetInput.posted hash)) (done.flatMap SetInput.bytes ++ c.line)
      ((offset + m) % 2 ^ 32) m ⟨(g :: pieces).map .data ++ reads⟩ s)
    (hpart : s.cur.bodyPart = true) :
    s.AllTurns hash (Sound hash cmds) ↔
      offset = 0 ∧ pieces = [] ∧ c.body.length < 2 ^ 31 ∧ R true := by
  have hg := hne g List.mem_cons_self
  have hgpos := List.length_pos_of_ne_nil hg
  have hleft := congrArg List.length hflat
  rw [List.flatten_cons, List.length_append, List.length_drop] at hleft
  have hgprefix : g <+: c.body.drop m := ⟨pieces.flatten, hflat⟩
  have hmsize : m < c.body.length := by omega
  have hsound := sound_iff hcmds h.inLoop h.state h.posted h.received hmsize.le
  have hprep := h.prepare_part hpart
  by_cases hzero : offset = 0
  · subst hzero
    rw [Nat.zero_add, Nat.mod_eq_of_lt (by omega), ← hc.size, sub32_of_le hmsize.le hsize] at hprep
    by_cases hask : c.body.length - m < 2 ^ 31
    · have hs : s.Sound hash cmds := hsound.mpr ⟨s, hprep, h.base, hask⟩
      rw [and_iff_right rfl]
      have hcall : s.processDataRecv =
          some ((s.took ⟨pieces.map .data ++ reads⟩ g).filled m g).bodyEnd := by
        rw [processDataRecv_of_body h.state (by rw [h.header]; omega) hprep]
        exact h.bodyRead hg hmsize hask (read_of_data hg (by omega))
      have hq := h.receive ⟨pieces.map .data ++ reads⟩ hmsize.le hgprefix
      rw [Nat.zero_add, Nat.mod_eq_of_lt (show m < 2 ^ 32 by omega)] at hq
      cases pieces with
      | nil =>
        have hend : m + g.length = c.body.length := by
          simp only [List.flatten_nil, List.length_nil] at hleft
          omega
        rw [hend] at hq
        by_cases hshort : c.body.length < 2 ^ 31
        · obtain ⟨t, hturn, hready⟩ := hq.turn_complete hash hcall (by omega) hshort
          rw [allTurns_of_turn h.inLoop hturn, hnext t hready.extend, and_iff_right hs,
            and_iff_right rfl, and_iff_right hshort]
        · refine iff_of_false ?_ fun hR => hshort hR.2.1
          exact not_allTurns_of_over hcmds h.inLoop (hq.turn_over hcall (by omega) hsize)
      | cons g' pieces =>
        have hg' := List.length_pos_of_ne_nil (hne g' (by simp))
        simp only [List.flatten_cons, List.length_append] at hleft
        refine iff_of_false (fun hall => ?_) fun hR => by cases hR.1
        by_cases hshort : m + g.length < 2 ^ 31
        · obtain ⟨t, hturn, htpart, ht⟩ := hq.turn_part hash hcall (by omega) (by omega) hshort
          -- the offset is ahead of what has been received
          have htsound := ((allTurns_of_turn h.inLoop hturn).mp hall).2.here
          obtain ⟨p, hprep', -⟩ := (sound_iff hcmds ht.inLoop ht.state ht.posted ht.received
            (by omega)).mp htsound
          rw [ht.prepare_part htpart] at hprep'
          simp only [Option.some.injEq, Prod.mk.injEq] at hprep'
          omega
        · exact not_allTurns_of_over hcmds h.inLoop
            (hq.turn_over hcall (by omega) (by omega)) hall
    · refine iff_of_false (fun hall => ?_) fun hR => hask (by omega)
      obtain ⟨-, -, -, hlt'⟩ := hsound.mp hall.here
      exact hask hlt'
  · refine iff_of_false (fun hall => hzero ?_) fun hR => hzero hR.1
    obtain ⟨p, hprep', -⟩ := hsound.mp hall.here
    rw [hprep] at hprep'
    simp only [Option.some.injEq, Prod.mk.injEq] at hprep'
    omega

theorem not_allTurns_of_zero (hcmds : cmds = done ++ c :: rest) (hdata : c.header.datalen = 0)
    (h : AtHeader c (done.map (SetInput.posted hash)) received offset sock s) :
    ¬ s.AllTurns hash (Sound hash cmds) := by
  have hcall : s.processDataRecv =
      some ((s.setErrorApp .cmdInvalidDatalen).setState .cmdDone, -1) := by
    unfold processDataRecv bodyWait
    rw [h.state]
    dsimp only
    rw [if_pos (h.header ▸ hdata)]
  cases hflag : s.dataPendingRead with
  | false =>
    apply not_allTurns_of_over hcmds h.inLoop
    obtain ⟨hleft, hdelivered, -⟩ :=
      ((s.setErrorApp .cmdInvalidDatalen).setState .cmdDone).leave_spec (-1)
    refine ⟨_, fun busy => ?_, hleft, (congrArg Prod.snd hdelivered).trans h.posted⟩
    rw [turn, hcall, Option.bind_some]
    exact dispose_of_left (by decide) hflag
  | true =>
    have hturn (busy : Bool) : s.turn hash busy =
        some ((s.setErrorApp .cmdInvalidDatalen).setState .cmdDone) := by
      rw [turn, hcall, Option.bind_some]
      change dispose hash busy _ (-1) = _
      unfold dispose
      rw [if_neg, if_pos (.inr hflag)]
      rintro ⟨hret, -⟩
      cases hret
    rw [allTurns_of_turn h.inLoop hturn]
    rintro ⟨-, hall⟩
    exact not_allTurns_of_none (s := (s.setErrorApp .cmdInvalidDatalen).setState .cmdDone)
      h.inLoop rfl hall

/-- The commands from `c` on are received as they should be exactly if the body of `c` is, and those
behind it are. -/
theorem AtHeader.iff {used : Bool} {R : Bool → Prop} (hcmds : cmds = done ++ c :: rest)
    (hc : c.WellFormed) (hoffset : offset < 2 ^ 32) (hused : offset = 0 ↔ used = false)
    (hnext : ∀ offset' used' t, offset' < 2 ^ 32 → (offset' = 0 ↔ used' = false) →
      Ready ((done ++ [c]).map (SetInput.posted hash)) ((done ++ [c]).flatMap SetInput.bytes) offset'
        ⟨reads⟩ t → (t.AllTurns hash (Sound hash cmds) ↔ R used'))
    (h : AtHeader c (done.map (SetInput.posted hash)) (done.flatMap SetInput.bytes ++ c.line) offset
      ⟨c.pieces.map .data ++ reads⟩ s) :
    s.AllTurns hash (Sound hash cmds) ↔
      (0 < c.header.datalen ∧ c.body.length < 2 ^ 31 ∧ c.pieces.length ≤ 2 ∧
        (c.pieces.length = 2 → used = false)) ∧ R (used || c.pieces.length = 2) := by
  have hfits := hc.fits
  rw [List.length_append] at hfits
  have hle : c.first.length ≤ c.body.length := by simp [SetInput.body]
  have htake : c.body.take c.first.length = c.first := List.take_left
  by_cases hdata : 0 < c.header.datalen
  swap
  · refine iff_of_false ?_ fun hR => hdata hR.1.1
    exact not_allTurns_of_zero hcmds (by omega) h
  have hsound := sound_iff (m := c.first.length) hcmds h.inLoop h.state h.posted
    (by rw [h.received, htake]) hle
  by_cases hask : c.body.length - c.first.length < 2 ^ 31
  swap
  · refine iff_of_false (fun hall => ?_) fun hR => hask (by omega)
    obtain ⟨-, -, -, hlt⟩ := hsound.mp hall.here
    exact hask hlt
  have hmax : cmdWaitInit = 32768 := rfl
  have hsize : c.body.length < 2 ^ 32 := by omega
  obtain ⟨p, hprep, hp⟩ := h.prepare hc hsize
  have hs : s.Sound hash cmds := hsound.mpr ⟨p, hprep, hp.base, hask⟩
  have hcall := processDataRecv_of_body h.state (by rw [h.header]; omega) hprep
  have hflat : c.pieces.flatten = c.body.drop c.first.length := List.drop_left.symm
  have hpieces := congrArg List.length hflat
  rw [List.length_drop] at hpieces
  have hnextused (t : Conn) (ht : Ready (done.map (SetInput.posted hash) ++ [c.posted hash])
      (done.flatMap SetInput.bytes ++ c.line ++ c.body) offset ⟨reads⟩ t) :
      t.AllTurns hash (Sound hash cmds) ↔ R used := hnext _ _ t hoffset hused ht.extend
  cases hlist : c.pieces with
  | nil =>
    rw [hlist] at hp hpieces
    rw [List.flatten_nil, List.length_nil] at hpieces
    have hend : c.first.length = c.body.length := by omega
    have hbody := hc.size
    rw [hend] at hp hcall
    rw [Nat.sub_self, bodyRead, if_pos rfl] at hcall
    obtain ⟨t, hturn, hready⟩ := hp.turn_complete hash hcall (by omega) (by omega)
    rw [allTurns_of_turn h.inLoop hturn, hnextused t hready, and_iff_right hs]
    simp [hdata]
    omega
  | cons g pieces =>
    have hne : ∀ f ∈ g :: pieces, f ≠ [] := hlist ▸ hc.pieces_ne
    have hg := hne g List.mem_cons_self
    have hgpos := List.length_pos_of_ne_nil hg
    rw [hlist] at hp hpieces hflat
    rw [List.flatten_cons, List.length_append] at hpieces
    have hgprefix : g <+: c.body.drop c.first.length := ⟨pieces.flatten, hflat⟩
    have hlt : c.first.length < c.body.length := by omega
    have hsock : (⟨.data g :: (pieces.map .data ++ reads)⟩ : Sock).read
        (c.body.length - c.first.length) = (.data g, ⟨pieces.map .data ++ reads⟩) :=
      read_of_data hg (by omega)
    rw [hp.bodyRead hg hlt hask hsock] at hcall
    have hq := hp.receive ⟨pieces.map .data ++ reads⟩ hle hgprefix
    cases pieces with
    | nil =>
      have hend : c.first.length + g.length = c.body.length := by
        simp only [List.flatten_nil, List.length_nil] at hpieces
        omega
      rw [hend] at hq
      by_cases hshort : c.body.length < 2 ^ 31
      · obtain ⟨t, hturn, hready⟩ := hq.turn_complete hash hcall (by omega) hshort
        rw [allTurns_of_turn h.inLoop hturn, hnextused t hready, and_iff_right hs]
        have htwo : decide ([g].length = 2) = false := rfl
        rw [htwo, Bool.or_false, and_iff_right ⟨hdata, hshort, by simp, by simp⟩]
      · refine iff_of_false ?_ fun hR => hshort hR.1.2.1
        exact not_allTurns_of_over hcmds h.inLoop (hq.turn_over hcall (by omega) hsize)
    | cons g' pieces =>
      have hg' := List.length_pos_of_ne_nil (hne g' (by simp))
      simp only [List.flatten_cons, List.length_append] at hpieces
      by_cases hshort : c.first.length + g.length < 2 ^ 31
      · obtain ⟨t, hturn, htpart, ht⟩ := hq.turn_part hash hcall (by omega) (by omega) hshort
        have hflat' : (g' :: pieces).flatten = c.body.drop (c.first.length + g.length) := by
          rw [← List.drop_drop, ← hflat]
          exact List.drop_left.symm
        have hsecond := second_iff (R := R) hcmds hc hdata hsize hoffset (by omega) hshort
          (fun f hf => hne f (List.mem_cons_of_mem _ hf)) hflat'
          (fun t => hnext _ true t (by omega) (iff_of_false (by omega) (by decide))) ht htpart
        rw [allTurns_of_turn h.inLoop hturn, hsecond, and_iff_right hs]
        cases pieces with
        | nil =>
          rw [hused]
          cases used <;> simp [hdata]
        | cons g'' pieces => simp
      · refine iff_of_false ?_ fun hR => hshort (by omega)
        exact not_allTurns_of_over hcmds h.inLoop (hq.turn_over hcall (by omega) (by omega))

theorem Ready.last (hash : Bytes → UInt32) (h : Ready posted received offset ⟨[]⟩ s) :
    ∃ t, (∀ busy, s.turn hash busy = some t) ∧ t.inLoop = false ∧ t.posted = posted := by
  have hcall : s.processDataRecv = some (s.newBlock.readFailed ⟨[]⟩ .eagain, -1) := by
    unfold processDataRecv cmdWait
    rw [h.state, h.sock]
    rfl
  obtain ⟨hleft, hdelivered, -⟩ := (s.newBlock.readFailed ⟨[]⟩ .eagain).leave_spec (-1)
  refine ⟨_, fun busy => ?_, hleft, (congrArg Prod.snd hdelivered).trans h.posted⟩
  rw [turn, hcall, Option.bind_some]
  exact dispose_of_left (by decide) h.flag

/-- The commands that are still to come decide, with the offset that those before them left. -/
theorem Ready.iff {used : Bool} (hrest : ∀ c ∈ rest, c.WellFormed) (hcmds : cmds = done ++ rest)
    (hoffset : offset < 2 ^ 32) (hused : offset = 0 ↔ used = false)
    (h : Ready (done.map (SetInput.posted hash)) (done.flatMap SetInput.bytes) offset
      ⟨rest.flatMap SetInput.reads⟩ s) :
    s.AllTurns hash (Sound hash cmds) ↔ Fits used rest := by
  induction rest generalizing done offset used s with
  | nil =>
    refine iff_of_true ?_ trivial
    obtain ⟨t, hturn, hleft, hposted⟩ := h.last hash
    rw [allTurns_of_turn h.inLoop hturn, allTurns_of_left hleft]
    rw [List.append_nil] at hcmds
    have hall : cmds = done ++ [] := by rw [hcmds, List.append_nil]
    exact ⟨h.sound hall, {
      posted := by rw [hposted, hcmds]
      all := fun _ => by rw [hposted, hcmds]
      inPlace := fun hin => by cases hleft.symm.trans hin }⟩
  | cons c rest ih =>
    have hc := hrest c List.mem_cons_self
    rw [List.flatMap_cons] at h
    have hline : c.line ++ c.first ≠ [] := by
      obtain ⟨n, hn⟩ := hc.lineRead.line_pos
      apply List.append_ne_nil_of_left_ne_nil
      exact List.ne_nil_of_length_eq_add_one hn
    obtain ⟨t, hturn, ht⟩ := h.header hash hc.lineRead (read_of_data hline hc.fits)
    rw [allTurns_of_turn h.inLoop hturn, and_iff_right (h.sound hcmds), Fits]
    apply ht.iff (R := fun used => Fits used rest) hcmds hc hoffset hused
    intro offset' used' u hoffset' hused' hu
    exact ih (fun d hd => hrest d (List.mem_cons_of_mem _ hd))
      (by rw [hcmds, List.append_assoc]; rfl) hoffset' hused' hu

theorem receiving_ready (mem : Conn) (cmds : List SetInput) :
    Ready [] [] 0 ⟨cmds.flatMap SetInput.reads⟩ (receiving mem cmds) where
  inLoop := rfl
  state := rfl
  flag := rfl
  index := rfl
  len := fun _ => rfl
  part := by simp [receiving, Conn.new, enter, reset, iovDescCleared]
  offset := rfl
  posted := rfl
  received := rfl
  sock := rfl

end Command

/-- For every sequence of sets, each with its body in any pieces, every byte is in its place
throughout, and the commands are handed on with the bytes that were sent, exactly if no length is
zero, no body has 2^31 bytes, none has more than two pieces behind the first call, and at most one has
two. -/
theorem sound_iff_inTwoPieces (hash : Bytes → UInt32) (mem : Conn) (cmds : List SetInput)
    (hcmds : ∀ c ∈ cmds, c.WellFormed) :
    (receiving mem cmds).AllTurns hash (Sound hash cmds) ↔ InTwoPieces cmds := by
  have hready : Ready (List.map (SetInput.posted hash) []) (List.flatMap SetInput.bytes []) 0
      ⟨cmds.flatMap SetInput.reads⟩ (receiving mem cmds) := receiving_ready mem cmds
  have hfits : (receiving mem cmds).AllTurns hash (Sound hash cmds) ↔ Fits false cmds :=
    hready.iff hcmds rfl (by decide) (by decide)
  rw [hfits, fits_iff, InTwoPieces, if_neg (by decide)]

end Conn

def fiveBytes (first : Bytes) (pieces : List Bytes) : SetInput where
  line := [115, 101, 116, 32, 107, 32, 48, 32, 48, 32, 53, 13, 10]
  header := ⟨[107], 1, 0, 0, 5⟩
  first := first
  pieces := pieces

/-- Two sets, of which the second one has two pieces behind those that came with its line. -/
def twoSets : List SetInput :=
  [fiveBytes [97, 98, 99] [[100, 101, 13, 10]], fiveBytes [97] [[98, 99], [100, 101, 13, 10]]]

theorem sound_twoSets :
    (∀ c ∈ twoSets, c.WellFormed) ∧ InTwoPieces twoSets ∧
      (Conn.receiving .zeroed twoSets).AllTurns (fun _ => 0) (Conn.Sound (fun _ => 0) twoSets) := by
  have hcmds : ∀ c ∈ twoSets, c.WellFormed := by
    simp only [twoSets, List.forall_mem_cons]
    refine ⟨?_, ?_, List.forall_mem_nil _⟩
    · exact ⟨by decide, by decide, ⟨_, rfl, fun _ => rfl⟩, rfl, by decide⟩
    · exact ⟨by decide, by decide, ⟨_, rfl, fun _ => rfl⟩, rfl, by decide⟩
  have hfits : InTwoPieces twoSets := ⟨by decide, by decide⟩
  exact ⟨hcmds, hfits, (Conn.sound_iff_inTwoPieces _ _ _ hcmds).mpr hfits⟩

/-- A body in three pieces: of the last one a single byte is read, behind its place, and the next length
is negative. The connection is closed with nothing handed on. -/
theorem sound_fails : ¬ ∀ (mem : Conn) (cmds : List SetInput), (∀ c ∈ cmds, c.WellFormed) →
    (Conn.receiving mem cmds).AllTurns (fun _ => 0) (Conn.Sound (fun _ => 0) cmds) := by
  intro hall
  have hcmds : ∀ c ∈ [fiveBytes [] [[97, 98], [99, 100], [101, 13, 10]]], c.WellFormed := by
    simp only [List.forall_mem_cons]
    refine ⟨?_, List.forall_mem_nil _⟩
    exact ⟨by decide, by decide, ⟨_, rfl, fun _ => rfl⟩, rfl, by decide⟩
  obtain ⟨s, hs, hsound⟩ := hall .zeroed _ hcmds (List.replicate 5 false)
  have hend : ((Conn.receiving .zeroed [fiveBytes [] [[97, 98], [99, 100], [101, 13, 10]]]).loop
      (fun _ => 0) (List.replicate 5 false)).map (fun s => (s.inLoop, s.posted)) =
        some (false, []) := by decide
  rw [hs, Option.map_some] at hend
  simp only [Option.some.injEq, Prod.mk.injEq] at hend
  have hposted := hsound.all hend.1
  rw [hend.2] at hposted
  cases hposted

end Acached.Receive
