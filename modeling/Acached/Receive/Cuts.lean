import Acached.Receive.Commands
import Acached.Receive.HalfAnswered

/-! # Streams that arrive in pieces

The bytes of a sequence of commands, cut in any way, as `read` gives them; the
runs of the receiving side on them, and what it means that they deliver the
commands. A read takes no more than it asks for, and what is left of a piece is
there for the next one.
-/
namespace Acached.Receive
open CString Dispatch Execution

/-! ## Pieces -/

/-- What a read of at most `n` bytes gives, and the pieces that are left. -/
def firstRead (n : ℕ) : List Bytes → Bytes × List Bytes
  | [] => ([], [])
  | a :: pieces => if a.length ≤ n then (a, pieces) else (a.take n, a.drop n :: pieces)

/-- How many reads it takes to get `n` bytes when each asks for all that are missing, and the pieces
that are left. -/
def readsFor : ℕ → List Bytes → ℕ × List Bytes
  | _, [] => (0, [])
  | n, a :: pieces =>
    if n = 0 then (0, a :: pieces)
    else if n < a.length then (1, a.drop n :: pieces)
    else
      let (k, rest) := readsFor (n - a.length) pieces
      (k + 1, rest)

/-- Every command line comes complete in one read, with nothing behind it but bytes of its own body,
which take at most two further reads, and two for one command at most; `used` says that there was
one already. No body with its terminator has 2^31 bytes. -/
def WellCut : Bool → List Command → List Bytes → Prop
  | _, [], _ => True
  | used, c :: cmds, pieces =>
    let first := firstRead cmdWaitInit pieces
    let others := readsFor (c.bytes.length - first.1.length) first.2
    (c.line.length ≤ first.1.length ∧ first.1.length ≤ c.bytes.length ∧ c.body.length < 2 ^ 31 ∧
      others.1 ≤ 2 ∧ (others.1 = 2 → used = false)) ∧
    WellCut (used || others.1 = 2) cmds others.2

instance decidableWellCut : ∀ used cmds pieces, Decidable (WellCut used cmds pieces)
  | _, [], _ => isTrue trivial
  | _, _ :: cmds, _ =>
    have := fun used => decidableWellCut used cmds
    inferInstanceAs (Decidable (_ ∧ WellCut _ cmds _))

@[simp] theorem readsFor_zero (pieces : List Bytes) : readsFor 0 pieces = (0, pieces) := by
  cases pieces with
  | nil => rfl
  | cons a pieces => rfl

structure PiecesOf (stream : Bytes) (pieces : List Bytes) : Prop where
  flatten : pieces.flatten = stream
  pieces_ne : ∀ a ∈ pieces, a ≠ []

variable {stream : Bytes} {pieces : List Bytes} {n : ℕ}

theorem PiecesOf.ne_nil (h : PiecesOf stream pieces) (hne : stream ≠ []) : pieces ≠ [] := by
  rintro rfl
  exact hne h.flatten.symm

theorem PiecesOf.eq_nil (h : PiecesOf [] pieces) : pieces = [] := by
  cases pieces with
  | nil => rfl
  | cons a pieces =>
    have hflat := h.flatten
    rw [List.flatten_cons, List.append_eq_nil_iff] at hflat
    exact absurd hflat.1 (h.pieces_ne a List.mem_cons_self)

theorem read_cons (x : UInt8) (a : Bytes) (pieces : List Bytes) (n : ℕ) :
    (⟨((x :: a) :: pieces).map .data⟩ : Sock).read n =
      if a.length < n then (.data (x :: a), ⟨pieces.map .data⟩)
      else (.data ((x :: a).take n), ⟨((x :: a).drop n :: pieces).map .data⟩) := rfl

theorem PiecesOf.read (h : PiecesOf stream pieces) (hne : stream ≠ []) (hn : 0 < n) :
    ∃ b rest, firstRead n pieces = (b, rest) ∧
      (⟨pieces.map .data⟩ : Sock).read n = (.data b, ⟨rest.map .data⟩) ∧
      b ≠ [] ∧ b.length ≤ n ∧ ∃ behind, stream = b ++ behind ∧ PiecesOf behind rest := by
  obtain ⟨a, pieces, rfl⟩ := List.exists_cons_of_ne_nil (h.ne_nil hne)
  have ha := h.pieces_ne a List.mem_cons_self
  have hrest : ∀ b ∈ pieces, b ≠ [] := fun b hb => h.pieces_ne b (List.mem_cons_of_mem a hb)
  have hflat := h.flatten
  rw [List.flatten_cons] at hflat
  obtain ⟨x, b, rfl⟩ := List.exists_cons_of_ne_nil ha
  have hread := read_cons x b pieces n
  by_cases hle : (x :: b).length ≤ n
  · rw [if_pos (Nat.lt_of_succ_le hle)] at hread
    exact ⟨_, _, if_pos hle, hread, ha, hle, _, hflat.symm, rfl, hrest⟩
  · rw [if_neg fun hlt => hle (Nat.succ_le_of_lt hlt)] at hread
    have htake : (x :: b).take n ≠ [] := by
      rw [Ne, List.take_eq_nil_iff]
      simpa using Nat.ne_of_gt hn
    have hdrop : (x :: b).drop n ≠ [] := by
      rw [Ne, List.drop_eq_nil_iff]
      exact hle
    refine ⟨_, _, if_neg hle, hread, htake, List.length_take_le n _,
      (x :: b).drop n ++ pieces.flatten, ?_, List.flatten_cons, ?_⟩
    · rw [← List.append_assoc, List.take_append_drop, hflat]
    · exact List.forall_mem_cons.mpr ⟨hdrop, hrest⟩

theorem readsFor_of_read {b : Bytes} {rest : List Bytes} (hn : 0 < n) (hne : pieces ≠ [])
    (h : firstRead n pieces = (b, rest)) :
    readsFor n pieces =
      ((readsFor (n - b.length) rest).1 + 1, (readsFor (n - b.length) rest).2) := by
  obtain ⟨a, pieces, rfl⟩ := List.exists_cons_of_ne_nil hne
  rw [readsFor, if_neg (Nat.ne_of_gt hn)]
  by_cases hle : a.length ≤ n
  · rw [firstRead, if_pos hle] at h
    obtain ⟨rfl, rfl⟩ := Prod.mk.inj h
    rw [if_neg (Nat.not_lt.mpr hle)]
  · rw [firstRead, if_neg hle] at h
    obtain ⟨rfl, rfl⟩ := Prod.mk.inj h
    have hlt := Nat.lt_of_not_le hle
    rw [if_pos hlt, List.length_take_of_le hlt.le, Nat.sub_self, readsFor_zero]

theorem readsFor_pos (hn : 0 < n) (hne : pieces ≠ []) : 0 < (readsFor n pieces).1 := by
  rw [readsFor_of_read hn hne rfl]
  exact Nat.succ_pos _

/-! ## Runs -/

/-- A turn, or a callback at a time when no get is half answered. -/
def RecvAct.Quiet : RecvAct → Prop
  | .callback reqCount replyCount => Conn.Idle reqCount replyCount
  | .turn _ => True

namespace Conn

def contents (s : Conn) : List Posted := s.posted.map Posted.content

/-- Some run hands on exactly these commands, and no run hands on others. -/
def Delivers (hash : Bytes → UInt32) (cmds : List Posted) (s : Conn) : Prop :=
  (∃ acts t, (∀ a ∈ acts, a.Quiet) ∧ exec (recvStep hash) s acts = some t ∧ t.contents = cmds) ∧
  ∀ acts t, (∀ a ∈ acts, a.Quiet) → exec (recvStep hash) s acts = some t → t.contents <+: cmds

variable {hash : Bytes → UInt32} {cmds : List Posted} {s t : Conn}

theorem post_posted (h : s.post hash = some t) :
    t.posted = s.posted ++ [⟨s.line, s.message hash⟩] := by
  unfold post at h
  repeat' split at h
  all_goals cases h
  all_goals rfl

theorem Disposed.posted_prefix {busy : Bool} {ret : ℤ} (h : Disposed hash busy s ret t) :
    s.posted <+: t.posted := by
  cases h with
  | @posted u _ _ _ hpost =>
    have hu := post_posted hpost
    exact ⟨_, hu.symm⟩
  | @quit u _ _ _ hpost =>
    have hu := post_posted hpost
    cases busy
    · exact ⟨_, hu.symm⟩
    · exact ⟨_, hu.symm⟩
  | ignored => exact List.prefix_refl _
  | again => exact List.prefix_refl _
  | left =>
    obtain ⟨-, hdelivered, -⟩ := s.leave_spec ret
    have hposted : (s.leave ret).posted = s.posted := congrArg Prod.snd hdelivered
    rw [hposted]

theorem enter_contents (s : Conn) (reqCount replyCount : ℕ) :
    (s.enter reqCount replyCount).contents = s.contents := by
  unfold enter
  repeat' split
  all_goals rfl

theorem Call.contents {ret : ℤ} (h : Call s t ret) : t.contents = s.contents :=
  congrArg (fun r => r.2.2.1.map Posted.content) h.aside

theorem recvStep_contents {a : RecvAct} (h : recvStep hash s a = some t) :
    s.contents <+: t.contents := by
  cases a with
  | callback reqCount replyCount =>
    obtain ⟨-, rfl⟩ := recvStep_callback.mp h
    rw [enter_contents]
  | turn busy =>
    obtain ⟨u, ret, hcall, hdisposed⟩ := turn_cases (recvStep_turn.mp h).2
    rw [← hcall.contents]
    exact hdisposed.posted_prefix.map _

/-- A connection that can only go on to one other delivers what that one does. -/
theorem delivers_of_step (a : RecvAct) (hquiet : a.Quiet) (hstep : recvStep hash s a = some t)
    (honly : ∀ b u, b.Quiet → recvStep hash s b = some u → u = t) :
    s.Delivers hash cmds ↔ t.Delivers hash cmds := by
  have hgrows := recvStep_contents hstep
  have hfirst {acts : List RecvAct} (h : ∀ b ∈ acts, b.Quiet) : ∀ b ∈ a :: acts, b.Quiet :=
    List.forall_mem_cons.mpr ⟨hquiet, h⟩
  have hrun (acts : List RecvAct) :
      exec (recvStep hash) s (a :: acts) = exec (recvStep hash) t acts := by
    rw [exec_cons, hstep, Option.bind_some]
  -- a run from `s` is empty or one from `t` with a step in front of it
  have hfrom {acts : List RecvAct} {u : Conn} (hacts : ∀ b ∈ acts, b.Quiet)
      (hu : exec (recvStep hash) s acts = some u) :
      u = s ∨ ∃ acts', (∀ b ∈ acts', b.Quiet) ∧ exec (recvStep hash) t acts' = some u := by
    cases acts with
    | nil => exact .inl (Option.some.inj hu).symm
    | cons b acts =>
      obtain ⟨v, hv, hrest⟩ := Option.bind_eq_some_iff.mp hu
      rw [List.forall_mem_cons] at hacts
      obtain rfl := honly b v hacts.1 hv
      exact .inr ⟨acts, hacts.2, hrest⟩
  constructor
  · rintro ⟨⟨acts, u, hacts, hu, hcontents⟩, hall⟩
    have hfront (acts : List RecvAct) (u : Conn) (hacts : ∀ b ∈ acts, b.Quiet)
        (hu : exec (recvStep hash) t acts = some u) : u.contents <+: cmds :=
      hall (a :: acts) u (hfirst hacts) (by rw [hrun, hu])
    refine ⟨?_, hfront⟩
    rcases hfrom hacts hu with rfl | ⟨acts', hacts', hu'⟩
    · rw [hcontents] at hgrows
      refine ⟨[], t, by simp, rfl, ?_⟩
      exact ((hfront [] t (by simp) rfl).eq_of_length_le hgrows.length_le)
    · exact ⟨acts', u, hacts', hu', hcontents⟩
  · rintro ⟨⟨acts, u, hacts, hu, hcontents⟩, hall⟩
    refine ⟨⟨a :: acts, u, hfirst hacts, by rw [hrun, hu], hcontents⟩, ?_⟩
    intro acts u hacts hu
    rcases hfrom hacts hu with rfl | ⟨acts', hacts', hu'⟩
    · exact hgrows.trans (hall [] t (by simp) rfl)
    · exact hall acts' u hacts' hu'

theorem delivers_of_turn (hopen : s.closed = false) (hin : s.inLoop = true)
    (hturn : ∀ busy, s.turn hash busy = some t) :
    s.Delivers hash cmds ↔ t.Delivers hash cmds := by
  have hstep : recvStep hash s (.turn false) = some t :=
    recvStep_turn.mpr ⟨⟨hopen, hin⟩, hturn false⟩
  refine delivers_of_step (.turn false) trivial hstep fun b u _ hu => ?_
  cases b with
  | callback reqCount replyCount =>
    obtain ⟨⟨-, hleft⟩, -⟩ := recvStep_callback.mp hu
    cases hin.symm.trans hleft
  | turn busy =>
    have hnext := (recvStep_turn.mp hu).2
    rw [hturn] at hnext
    exact (Option.some.inj hnext).symm

theorem delivers_of_callback (hopen : s.closed = false) (hleft : s.inLoop = false) :
    s.Delivers hash cmds ↔ (s.enter 0 0).Delivers hash cmds := by
  have hstep : recvStep hash s (.callback 0 0) = some (s.enter 0 0) :=
    recvStep_callback.mpr ⟨⟨hopen, hleft⟩, rfl⟩
  have hidle : Idle 0 0 := .inl rfl
  refine delivers_of_step (.callback 0 0) hidle hstep fun b u hquiet hu => ?_
  cases b with
  | callback reqCount replyCount =>
    obtain ⟨-, rfl⟩ := recvStep_callback.mp hu
    rw [enter_of_idle hquiet, enter_of_idle hidle]
  | turn busy =>
    obtain ⟨⟨-, hin⟩, -⟩ := recvStep_turn.mp hu
    cases hleft.symm.trans hin

/-- A connection from which every quiet run leads to others that have not delivered the commands. -/
theorem not_delivers_of_invariant {P : Conn → Prop}
    (hstep : ∀ s a t, P s → a.Quiet → recvStep hash s a = some t → P t)
    (hne : ∀ s, P s → s.contents ≠ cmds) (hs : P s) : ¬ s.Delivers hash cmds := by
  rintro ⟨⟨acts, t, hacts, ht, hcontents⟩, -⟩
  exact hne t (exec_invariant_of hstep hs hacts ht) hcontents

end Conn
end Acached.Receive
