import Acached.Server.Run

/-! # Clients with keys of their own

A client whose keys no other client sets cannot tell that there are others: what
it is answered is an answer that it could have had from a store of its own.
-/
namespace Acached.Server
open CString Receive Reply Execution Refinement

def Uses (K : Bytes → Prop) (todo : List Command) : Prop := ∀ d ∈ todo, ∀ key ∈ keysOf d, K key

def Spares (K : Bytes → Prop) (todo : List Command) : Prop :=
  ∀ key flags exptime datalen data, Command.set key flags exptime datalen data ∈ todo → ¬ K key

variable {K : Bytes → Prop} {todo rest : List Command} {d : Command} {keys : List Bytes} {key : Bytes}

theorem Uses.tail (h : Uses K (d :: rest)) : Uses K rest :=
  fun e he => h e (List.mem_cons_of_mem d he)

theorem Uses.erase (h : Uses K (.get keys :: rest)) : Uses K (.get (keys.erase key) :: rest) := by
  intro d hd k hk
  rcases List.mem_cons.mp hd with rfl | hd
  · exact h (.get keys) List.mem_cons_self k (List.erase_subset hk)
  · exact h.tail d hd k hk

theorem Spares.tail (h : Spares K (d :: rest)) : Spares K rest :=
  fun key flags exptime datalen data hset =>
    h key flags exptime datalen data (List.mem_cons_of_mem d hset)

theorem Spares.erase (h : Spares K (.get keys :: rest)) :
    Spares K (.get (keys.erase key) :: rest) := by
  intro other flags exptime datalen data hset
  rcases List.mem_cons.mp hset with heq | hset
  · cases heq
  · exact h.tail other flags exptime datalen data hset

variable {C : Type} [DecidableEq C] {c c' : C}

/-- Two stores that a client with the keys `K` cannot tell apart. -/
structure Alike (K : Bytes → Prop) (c : C) (u w : Reference C) : Prop where
  uses : Uses K (u.todo c)
  spares : ∀ c' ≠ c, Spares K (u.todo c')
  todo : w.todo c = u.todo c
  answered : w.answered c = u.answered c
  contents : ∀ key, K key → w.contents key = u.contents key

namespace Alike

variable {u v w : Reference C} {bytes : Bytes} {m m' : Contents}

theorem own (h : Alike K c u w) (huses : Uses K todo) (hsame : ∀ key, K key → m' key = m key) :
    Alike K c (Reference.answer { u with contents := m } c todo bytes)
      (Reference.answer { w with contents := m' } c todo bytes) where
  uses := by
    dsimp only [Reference.answer]
    rwa [Function.update_self]
  spares c' hcc := by
    dsimp only [Reference.answer]
    rw [Function.update_of_ne hcc]
    exact h.spares c' hcc
  todo := by
    dsimp only [Reference.answer]
    rw [Function.update_self, Function.update_self]
  answered := by
    dsimp only [Reference.answer]
    rw [Function.update_self, Function.update_self, h.answered]
  contents := hsame

theorem other (h : Alike K c u w) (hcc : c' ≠ c) (hspares : Spares K todo)
    (hsame : ∀ key, K key → m key = u.contents key) :
    Alike K c (Reference.answer { u with contents := m } c' todo bytes) w where
  uses := by
    dsimp only [Reference.answer]
    rw [Function.update_of_ne hcc.symm]
    exact h.uses
  spares x hx := by
    dsimp only [Reference.answer]
    by_cases hxc : x = c'
    · rw [hxc, Function.update_self]
      exact hspares
    · rw [Function.update_of_ne hxc]
      exact h.spares x hx
  todo := by
    dsimp only [Reference.answer]
    rw [Function.update_of_ne hcc.symm, h.todo]
  answered := by
    dsimp only [Reference.answer]
    rw [Function.update_of_ne hcc.symm, h.answered]
  contents key hkey := (h.contents key hkey).trans (hsame key hkey).symm

end Alike

end Acached.Server
