import Acached.Reply.QReply
import Acached.Receive.Commands
import Mathlib.Data.List.Perm.Basic

/-! # What clients are to see

One store for all clients, and for each client the commands that it has still
to send and what it has been answered. The keys of a get are answered one after
the other in any order, each with the value that it has then, and keys without
a value are left out.
-/
namespace Acached.Server
open CString Receive

abbrev Contents := Bytes → Option Bytes

def valueAnswer (key value : Bytes) : Bytes :=
  Reply.valueLine key value.length ++ (value ++ Reply.crlf)

def keyAnswer (m : Contents) (key : Bytes) : Bytes := (m key).elim [] (valueAnswer key)

/-- A get that has begun stands in front of `todo` with the keys that are to be answered. -/
structure Reference (C : Type) where
  contents : Contents
  todo : C → List Command
  answered : C → Bytes

/-- A set is carried out, a key is answered, or `END` ends a get. -/
inductive Serve (C : Type) where
  | set (c : C)
  | key (c : C) (key : Bytes)
  | finish (c : C)

variable {C : Type} [DecidableEq C]

namespace Reference

def init (todo : C → List Command) : Reference C := ⟨fun _ => none, todo, fun _ => []⟩

def answer (s : Reference C) (c : C) (rest : List Command) (bytes : Bytes) : Reference C :=
  { s with
    todo := Function.update s.todo c rest
    answered := Function.update s.answered c (s.answered c ++ bytes) }

def step (s : Reference C) : Serve C → Option (Reference C)
  | .set c => match s.todo c with
    | .set key _ _ _ data :: rest =>
      some ({ s with contents := Function.update s.contents key (some data) }.answer c rest
        Reply.stored)
    | _ => none
  | .key c key => match s.todo c with
    | .get keys :: rest =>
      if key ∈ keys then
        some (s.answer c (.get (keys.erase key) :: rest) (keyAnswer s.contents key))
      else none
    | _ => none
  | .finish c => match s.todo c with
    | .get [] :: rest => some (s.answer c rest Reply.endLine)
    | _ => none

variable {u v : Reference C} {c : C} {key : Bytes}

theorem step_set : u.step (.set c) = some v ↔ ∃ key flags exptime datalen data rest,
    u.todo c = .set key flags exptime datalen data :: rest ∧
      v = Reference.answer { u with contents := Function.update u.contents key (some data) } c rest
        Reply.stored := by
  dsimp only [step]
  split
  · next key flags exptime datalen data rest htodo =>
    constructor
    · intro h
      exact ⟨key, flags, exptime, datalen, data, rest, htodo, (Option.some.inj h).symm⟩
    · rintro ⟨_, _, _, _, _, _, htodo', rfl⟩
      cases htodo.symm.trans htodo'
      rfl
  · next hnot =>
    refine iff_of_false (fun h => by cases h) ?_
    rintro ⟨_, _, _, _, _, _, htodo, -⟩
    exact hnot _ _ _ _ _ _ htodo

theorem step_key : u.step (.key c key) = some v ↔ ∃ keys rest, u.todo c = .get keys :: rest ∧
    key ∈ keys ∧ v = u.answer c (.get (keys.erase key) :: rest) (keyAnswer u.contents key) := by
  dsimp only [step]
  split
  · next keys rest htodo =>
    constructor
    · intro h
      split_ifs at h with hkey
      exact ⟨keys, rest, htodo, hkey, (Option.some.inj h).symm⟩
    · rintro ⟨_, _, htodo', hkey, rfl⟩
      cases htodo.symm.trans htodo'
      exact if_pos hkey
  · next hnot =>
    refine iff_of_false (fun h => by cases h) ?_
    rintro ⟨_, _, htodo, -⟩
    exact hnot _ _ htodo

theorem step_finish : u.step (.finish c) = some v ↔ ∃ rest, u.todo c = .get [] :: rest ∧
    v = u.answer c rest Reply.endLine := by
  dsimp only [step]
  split
  · next rest htodo =>
    constructor
    · intro h
      exact ⟨rest, htodo, (Option.some.inj h).symm⟩
    · rintro ⟨_, htodo', rfl⟩
      cases htodo.symm.trans htodo'
      rfl
  · next hnot =>
    refine iff_of_false (fun h => by cases h) ?_
    rintro ⟨_, htodo, -⟩
    exact hnot _ htodo

end Reference
end Acached.Server
