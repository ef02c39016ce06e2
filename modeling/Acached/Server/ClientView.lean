import Acached.Server.Responses
import Acached.Server.Run

/-! # What a client reads back

A client reads its answers from the stream that it is sent. Each set was
answered with `STORED`, and each key of a get read as what the client itself
stored last under it, or as a value that another client sends to be stored
there.
-/
namespace Acached.Server
open CString Receive Reply Execution Refinement

def Contents.after (m : Contents) : Command → Contents
  | .set key _ _ _ data => Function.update m key (some data)
  | .get _ => m

/-- What the commands of one client leave if no one else stores anything. -/
def written (ds : List Command) : Contents := ds.foldl Contents.after fun _ => none

@[simp] theorem written_append (ds : List Command) (d : Command) :
    written (ds ++ [d]) = (written ds).after d := by
  rw [written, List.foldl_append]
  rfl

variable {C : Type}

def FromOther (cmds : C → List Command) (c : C) (key value : Bytes) : Prop :=
  ∃ c' ≠ c, ∃ flags exptime datalen, Command.set key flags exptime datalen value ∈ cmds c'

/-- What a client may find under a key, when `ds` are its commands so far. -/
def MayRead (cmds : C → List Command) (c : C) (ds : List Command) (key : Bytes)
    (found : Option Bytes) : Prop :=
  found = written ds key ∨ ∃ value, found = some value ∧ FromOther cmds c key value

def items (found : List (Bytes × Option Bytes)) : List (Bytes × Bytes) :=
  found.filterMap fun x => x.2.map (Prod.mk x.1)

inductive Answered (cmds : C → List Command) (c : C) : List Command → List Response → Prop
  | nil : Answered cmds c [] []
  | set {ds : List Command} {rs : List Response} (h : Answered cmds c ds rs)
    (key flags exptime datalen data : Bytes) :
    Answered cmds c (ds ++ [.set key flags exptime datalen data]) (rs ++ [.stored])
  | get {ds : List Command} {rs : List Response} (h : Answered cmds c ds rs) {keys : List Bytes}
    {found : List (Bytes × Option Bytes)} (hkeys : (found.map Prod.fst).Perm keys)
    (hread : ∀ x ∈ found, MayRead cmds c ds x.1 x.2) :
    Answered cmds c (ds ++ [.get keys]) (rs ++ [.values (items found)])

/-- A client stands between two commands, or within a get of which the keys `left` are not answered. -/
inductive Reading (cmds : C → List Command) (c : C) (ds todo : List Command) (bytes : Bytes) : Prop
  | between {rs : List Response} (hall : ds ++ todo = cmds c) (h : Answered cmds c ds rs)
    (hbytes : bytes = rs.flatMap Response.bytes)
  | within {rs : List Response} {keys left : List Bytes} {rest : List Command}
    {found : List (Bytes × Option Bytes)} (hall : ds ++ .get keys :: rest = cmds c)
    (htodo : todo = .get left :: rest) (h : Answered cmds c ds rs)
    (hread : ∀ x ∈ found, MayRead cmds c ds x.1 x.2)
    (hkeys : (found.map Prod.fst ++ left).Perm keys)
    (hbytes : bytes = rs.flatMap Response.bytes ++
      (items found).flatMap fun x => valueAnswer x.1 x.2)

variable {cmds : C → List Command} {c c' : C} {ds todo rest : List Command} {rs : List Response}
  {bytes : Bytes}

/-- All answers can be read back. -/
theorem Answered.plain (h : Answered cmds c ds rs) (hwf : ∀ d ∈ ds, d.WellFormed) :
    ∀ r ∈ rs, r.Plain := by
  induction h with
  | nil => exact List.forall_mem_nil _
  | set _ key flags exptime datalen data ih =>
    have hbefore := ih fun d hd => hwf d (List.mem_append_left _ hd)
    exact List.forall_mem_append.mpr ⟨hbefore, List.forall_mem_singleton.mpr trivial⟩
  | @get ds rs _ keys found hkeys _ ih =>
    have hbefore := ih fun d hd => hwf d (List.mem_append_left _ hd)
    refine List.forall_mem_append.mpr ⟨hbefore, List.forall_mem_singleton.mpr fun x hx => ?_⟩
    obtain ⟨y, hy, hitem⟩ := List.mem_filterMap.mp hx
    obtain ⟨value, -, rfl⟩ := Option.map_eq_some_iff.mp hitem
    have hkey : y.1 ∈ keys := hkeys.mem_iff.mp (List.mem_map_of_mem hy)
    have hget := hwf (.get keys) (List.mem_append_right _ (List.mem_singleton_self _))
    exact (hget.1.2 _ hkey).1.not_blank

namespace Reading

theorem of_get {left : List Bytes} (h : Reading cmds c ds (.get left :: rest) bytes) :
    ∃ rs keys found, ds ++ .get keys :: rest = cmds c ∧ Answered cmds c ds rs ∧
      (∀ x ∈ found, MayRead cmds c ds x.1 x.2) ∧ (found.map Prod.fst ++ left).Perm keys ∧
      bytes = rs.flatMap Response.bytes ++ (items found).flatMap fun x => valueAnswer x.1 x.2 := by
  cases h with
  | between hall h hbytes =>
    refine ⟨_, left, [], hall, h, List.forall_mem_nil _, List.Perm.refl left, ?_⟩
    rw [hbytes]
    exact (List.append_nil _).symm
  | within hall htodo h hread hkeys hbytes =>
    cases htodo
    exact ⟨_, _, _, hall, h, hread, hkeys, hbytes⟩

theorem set {key flags exptime datalen data : Bytes}
    (h : Reading cmds c ds (.set key flags exptime datalen data :: rest) bytes) :
    Reading cmds c (ds ++ [.set key flags exptime datalen data]) rest (bytes ++ Reply.stored) := by
  cases h with
  | between hall h hbytes =>
    refine .between ?_ (h.set key flags exptime datalen data) ?_
    · rw [List.append_assoc, List.singleton_append, hall]
    · rw [hbytes, List.flatMap_append, List.flatMap_singleton]
      rfl
  | within _ htodo => cases htodo

theorem key {m : Contents} {left : List Bytes} {key : Bytes}
    (h : Reading cmds c ds (.get left :: rest) bytes) (hkey : key ∈ left)
    (hread : MayRead cmds c ds key (m key)) :
    Reading cmds c ds (.get (left.erase key) :: rest) (bytes ++ keyAnswer m key) := by
  obtain ⟨rs, keys, found, hall, h, hfound, hkeys, hbytes⟩ := h.of_get
  have hfound' : ∀ x ∈ found ++ [(key, m key)], MayRead cmds c ds x.1 x.2 :=
    List.forall_mem_append.mpr ⟨hfound, List.forall_mem_singleton.mpr hread⟩
  refine .within hall rfl h hfound' ?_ ?_
  · have herase : (key :: left.erase key).Perm left := (List.perm_cons_erase hkey).symm
    rw [List.map_append, List.append_assoc]
    exact (herase.append_left _).trans hkeys
  · rw [hbytes, List.append_assoc, items, items, List.filterMap_append, List.flatMap_append,
      keyAnswer]
    cases m key with
    | none => rfl
    | some value => exact congrArg _ (congrArg _ (List.append_nil _).symm)

theorem finish (h : Reading cmds c ds (.get [] :: rest) bytes) :
    ∃ keys, Reading cmds c (ds ++ [.get keys]) rest (bytes ++ Reply.endLine) := by
  obtain ⟨rs, keys, found, hall, h, hfound, hkeys, hbytes⟩ := h.of_get
  rw [List.append_nil] at hkeys
  refine ⟨keys, .between ?_ (h.get hkeys hfound) ?_⟩
  · rw [List.append_assoc, List.singleton_append, hall]
  · rw [hbytes, List.flatMap_append, List.flatMap_singleton, Response.bytes, List.append_assoc]

theorem answered {n : ℕ} (h : Reading cmds c ds ((cmds c).drop n) bytes) :
    ∃ rs, Answered cmds c ((cmds c).take n) rs ∧ bytes = rs.flatMap Response.bytes := by
  generalize htodo : (cmds c).drop n = todo at h
  have hsplit := List.take_append_drop n (cmds c)
  rw [htodo] at hsplit
  cases h with
  | between hall h hbytes =>
    obtain rfl := List.append_cancel_right (hall.trans hsplit.symm)
    exact ⟨_, h, hbytes⟩
  | within hall hleft h hread hkeys hbytes =>
    subst hleft
    obtain ⟨rfl, hget⟩ := List.append_inj' (hall.trans hsplit.symm) (by simp)
    obtain ⟨hget, -⟩ := List.cons.inj hget
    obtain rfl := Command.get.inj hget
    have hnone := hkeys.length_eq
    rw [List.length_append, List.length_map, Nat.add_eq_right, List.length_eq_zero_iff] at hnone
    subst hnone
    exact ⟨_, h, hbytes.trans (List.append_nil _)⟩

end Reading

theorem MayRead.own {m : Contents} (h : ∀ key, MayRead cmds c ds key (m key)) (d : Command)
    (key : Bytes) : MayRead cmds c (ds ++ [d]) key (m.after d key) := by
  rw [MayRead, written_append]
  cases d with
  | get => exact h key
  | set other flags exptime datalen data =>
    by_cases hkey : key = other
    · subst hkey
      left
      rw [Contents.after, Contents.after, Function.update_self, Function.update_self]
    · rw [Contents.after, Contents.after, Function.update_of_ne hkey, Function.update_of_ne hkey]
      exact h key

theorem MayRead.other {m : Contents} (h : ∀ key, MayRead cmds c ds key (m key)) (hcc : c' ≠ c)
    {d : Command} (hd : d ∈ cmds c') (key : Bytes) : MayRead cmds c ds key (m.after d key) := by
  cases d with
  | get => exact h key
  | set other flags exptime datalen data =>
    by_cases hkey : key = other
    · subst hkey
      right
      exact ⟨data, Function.update_self .., c', hcc, flags, exptime, datalen, hd⟩
    · rw [Contents.after, Function.update_of_ne hkey]
      exact h key

/-- The sets that are left to do are sets of their clients, and the store holds what `c` may read. -/
structure Reads (cmds : C → List Command) (c : C) (u : Reference C) : Prop where
  sets : ∀ c', ∀ d ∈ u.todo c', d ∈ cmds c' ∨ ∃ keys, d = .get keys
  reading : ∃ ds, (∀ key, MayRead cmds c ds key (u.contents key)) ∧
    Reading cmds c ds (u.todo c) (u.answered c)

variable [DecidableEq C] {u v : Reference C} {m : Contents}

namespace Reads

omit [DecidableEq C] in
theorem init (cmds : C → List Command) (c : C) : Reads cmds c (.init cmds) where
  sets _ _ hd := .inl hd
  reading := ⟨[], fun _ => .inl rfl, .between rfl .nil rfl⟩

theorem own (h : Reads cmds c u) (htodo : ∀ d ∈ todo, d ∈ u.todo c ∨ ∃ keys, d = .get keys)
    (hread : ∀ key, MayRead cmds c ds key (m key))
    (hreading : Reading cmds c ds todo (u.answered c ++ bytes)) :
    Reads cmds c (Reference.answer { u with contents := m } c todo bytes) where
  sets c' d hd := by
    dsimp only [Reference.answer] at hd
    by_cases hcc : c' = c
    · subst hcc
      rw [Function.update_self] at hd
      exact (htodo d hd).elim (h.sets c' d) .inr
    · rw [Function.update_of_ne hcc] at hd
      exact h.sets c' d hd
  reading := by
    dsimp only [Reference.answer]
    rw [Function.update_self, Function.update_self]
    exact ⟨ds, hread, hreading⟩

theorem other (h : Reads cmds c u) (hcc : c' ≠ c)
    (htodo : ∀ d ∈ todo, d ∈ u.todo c' ∨ ∃ keys, d = .get keys)
    (hread : ∀ ds, (∀ key, MayRead cmds c ds key (u.contents key)) →
      ∀ key, MayRead cmds c ds key (m key)) :
    Reads cmds c (Reference.answer { u with contents := m } c' todo bytes) where
  sets x d hd := by
    dsimp only [Reference.answer] at hd
    by_cases hxc : x = c'
    · subst hxc
      rw [Function.update_self] at hd
      exact (htodo d hd).elim (h.sets x d) .inr
    · rw [Function.update_of_ne hxc] at hd
      exact h.sets x d hd
  reading := by
    obtain ⟨ds, hmay, hreading⟩ := h.reading
    dsimp only [Reference.answer]
    rw [Function.update_of_ne hcc.symm, Function.update_of_ne hcc.symm]
    exact ⟨ds, hread ds hmay, hreading⟩

theorem step (h : Reads cmds c u) {a : Serve C} (hstep : u.step a = some v) : Reads cmds c v := by
  cases a with
  | set c' =>
    obtain ⟨key, flags, exptime, datalen, data, rest, htodo, rfl⟩ := Reference.step_set.mp hstep
    have hrest : ∀ d ∈ rest, d ∈ u.todo c' ∨ ∃ keys, d = .get keys := by
      intro d hd
      exact .inl (htodo ▸ List.mem_cons_of_mem _ hd)
    by_cases hcc : c' = c
    · subst hcc
      obtain ⟨ds, hmay, hreading⟩ := h.reading
      rw [htodo] at hreading
      exact h.own hrest (MayRead.own hmay _) hreading.set
    · have hset : Command.set key flags exptime datalen data ∈ cmds c' :=
        (h.sets c' _ (htodo ▸ List.mem_cons_self)).resolve_right (by simp)
      exact h.other hcc hrest fun ds hmay => MayRead.other hmay hcc hset
  | key c' key =>
    obtain ⟨keys, rest, htodo, hkey, rfl⟩ := Reference.step_key.mp hstep
    have hrest : ∀ d ∈ Command.get (keys.erase key) :: rest,
        d ∈ u.todo c' ∨ ∃ keys, d = .get keys := by
      intro d hd
      rcases List.mem_cons.mp hd with rfl | hd
      · exact .inr ⟨_, rfl⟩
      · exact .inl (htodo ▸ List.mem_cons_of_mem _ hd)
    by_cases hcc : c' = c
    · subst hcc
      obtain ⟨ds, hmay, hreading⟩ := h.reading
      rw [htodo] at hreading
      exact h.own hrest hmay (hreading.key hkey (hmay key))
    · exact h.other hcc hrest fun ds hmay => hmay
  | finish c' =>
    obtain ⟨rest, htodo, rfl⟩ := Reference.step_finish.mp hstep
    have hrest : ∀ d ∈ rest, d ∈ u.todo c' ∨ ∃ keys, d = .get keys := by
      intro d hd
      exact .inl (htodo ▸ List.mem_cons_of_mem _ hd)
    by_cases hcc : c' = c
    · subst hcc
      obtain ⟨ds, hmay, hreading⟩ := h.reading
      rw [htodo] at hreading
      obtain ⟨keys, hreading⟩ := hreading.finish
      exact h.own hrest (MayRead.own hmay (.get keys)) hreading
    · exact h.other hcc hrest fun ds hmay => hmay

end Reads

end Acached.Server
