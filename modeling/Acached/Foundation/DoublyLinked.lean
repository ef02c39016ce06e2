import Mathlib.Data.List.Nodup
import Mathlib.Logic.Function.Basic

/-! # Doubly linked segments

The links of a store of cells are a partial map from addresses to pairs of
pointers. A segment lists the addresses met when following `next` from its
first cell; each cell points back to the one before it. The lemmas say what
the two ways of splicing a cell into a segment, in place of another cell and
behind the last cell, make of it.
-/
namespace Acached.DoublyLinked

@[ext] structure Links (A : Type*) where
  next : Option A
  prev : Option A
  deriving DecidableEq

variable {A : Type*}

/-- The cells of the list in order, entered from `p` and leaving to `q`. -/
def Segment (m : A → Option (Links A)) : Option A → List A → Option A → Prop
  | _, [], _ => True
  | p, a :: l, q => m a = some ⟨l.head?.or q, p⟩ ∧ Segment m (some a) l q

@[simp] theorem segment_nil (m : A → Option (Links A)) (p q : Option A) : Segment m p [] q :=
  trivial

@[simp] theorem segment_cons (m : A → Option (Links A)) (p q : Option A) (a : A) (l : List A) :
    Segment m p (a :: l) q ↔ m a = some ⟨l.head?.or q, p⟩ ∧ Segment m (some a) l q := Iff.rfl

theorem segment_append (m : A → Option (Links A)) (p q : Option A) (l l' : List A) :
    Segment m p (l ++ l') q ↔
      Segment m p l (l'.head?.or q) ∧ Segment m (l.getLast?.or p) l' q := by
  induction l generalizing p with
  | nil => simp
  | cons a l ih =>
    have hlast : (a :: l).getLast?.or p = l.getLast?.or (some a) := by
      cases l <;> simp [List.getLast?_cons]
    simp only [List.cons_append, segment_cons, ih, hlast, List.head?_append, Option.or_assoc,
      and_assoc]

theorem Segment.frame {m m' : A → Option (Links A)} {p q : Option A} {l : List A}
    (h : Segment m p l q) (hm : ∀ a ∈ l, m' a = m a) : Segment m' p l q := by
  induction l generalizing p with
  | nil => trivial
  | cons a l ih =>
    refine ⟨(hm a List.mem_cons_self).trans h.1, ih h.2 fun b hb => ?_⟩
    exact hm b (List.mem_cons_of_mem a hb)

theorem Segment.isSome {m : A → Option (Links A)} {p q : Option A} {l : List A}
    (h : Segment m p l q) {a : A} (ha : a ∈ l) : (m a).isSome := by
  induction l generalizing p with
  | nil => cases ha
  | cons b l ih =>
    rcases List.mem_cons.mp ha with rfl | ha
    · simp [h.1]
    · exact ih h.2 ha

/-- The order of a segment determines its links. -/
theorem Segment.unique {m m' : A → Option (Links A)} {p q : Option A} {l : List A}
    (h : Segment m p l q) (h' : Segment m' p l q) : ∀ a ∈ l, m' a = m a := by
  induction l generalizing p with
  | nil => exact fun a ha => absurd ha List.not_mem_nil
  | cons b l ih =>
    rw [List.forall_mem_cons]
    exact ⟨h'.1.trans h.1.symm, ih h.2 h'.2⟩

theorem Segment.next {m : A → Option (Links A)} {p : Option A} {l : List A}
    (h : Segment m p l none) : ∀ a ∈ l, ∀ k, m a = some k → ∀ c, k.next = some c →
      c ∈ l ∧ ∃ k', m c = some k' ∧ k'.prev = some a := by
  induction l generalizing p with
  | nil => exact fun a ha => absurd ha List.not_mem_nil
  | cons b l ih =>
    rw [List.forall_mem_cons]
    constructor
    · intro k hk c hc
      obtain rfl := Option.some.inj (h.1.symm.trans hk)
      cases l with
      | nil => cases hc
      | cons d l =>
        obtain rfl := Option.some.inj hc
        exact ⟨by simp, _, h.2.1, rfl⟩
    · intro a ha k hk c hc
      obtain ⟨hmem, hback⟩ := ih h.2 a ha k hk c hc
      exact ⟨List.mem_cons_of_mem b hmem, hback⟩

theorem Segment.prev {m : A → Option (Links A)} {p q : Option A} {l : List A}
    (h : Segment m p l q) : ∀ a ∈ l, ∀ k, m a = some k → ∀ c, k.prev = some c →
      p = some c ∨ c ∈ l := by
  induction l generalizing p with
  | nil => exact fun a ha => absurd ha List.not_mem_nil
  | cons b l ih =>
    rw [List.forall_mem_cons]
    constructor
    · intro k hk c hc
      obtain rfl := Option.some.inj (h.1.symm.trans hk)
      exact .inl hc
    · intro a ha k hk c hc
      rcases ih h.2 a ha k hk c hc with hb | hmem
      · obtain rfl := Option.some.inj hb
        exact .inr List.mem_cons_self
      · exact .inr (List.mem_cons_of_mem b hmem)

variable [DecidableEq A]

/-- Redirect the `next` pointer of a cell, if there is one. -/
def relinkNext (m : A → Option (Links A)) : Option A → Option A → A → Option (Links A)
  | none, _ => m
  | some x, b => Function.update m x ((m x).map fun k => { k with next := b })

def relinkPrev (m : A → Option (Links A)) : Option A → Option A → A → Option (Links A)
  | none, _ => m
  | some x, b => Function.update m x ((m x).map fun k => { k with prev := b })

theorem relinkNext_of_ne {m : A → Option (Links A)} {x b : Option A} {a : A} (h : x ≠ some a) :
    relinkNext m x b a = m a := by
  cases x with
  | none => rfl
  | some x => exact Function.update_of_ne (fun he => h (congrArg some he.symm)) _ _

theorem relinkPrev_of_ne {m : A → Option (Links A)} {x b : Option A} {a : A} (h : x ≠ some a) :
    relinkPrev m x b a = m a := by
  cases x with
  | none => rfl
  | some x => exact Function.update_of_ne (fun he => h (congrArg some he.symm)) _ _

/-- Redirecting the last cell of a segment changes where the segment leaves to. -/
theorem Segment.relinkNext {m : A → Option (Links A)} {p q : Option A} {l : List A}
    (h : Segment m p l q) (hl : l.Nodup) (b : Option A) :
    Segment (relinkNext m l.getLast? b) p l b := by
  induction l generalizing p with
  | nil => trivial
  | cons a l ih =>
    cases l with
    | nil => simp [DoublyLinked.relinkNext, h.1]
    | cons c l =>
      have ha : (c :: l).getLast? ≠ some a := fun he =>
        (List.nodup_cons.mp hl).1 (List.mem_of_getLast? he)
      rw [List.getLast?_cons_cons]
      refine ⟨?_, ih h.2 (List.nodup_cons.mp hl).2⟩
      rw [relinkNext_of_ne ha, h.1]
      rfl

/-- Redirecting the first cell of a segment changes where the segment is entered from. -/
theorem Segment.relinkPrev {m : A → Option (Links A)} {p q : Option A} {l : List A}
    (h : Segment m p l q) (hl : l.Nodup) (b : Option A) :
    Segment (relinkPrev m l.head? b) b l q := by
  cases l with
  | nil => trivial
  | cons a l =>
    refine ⟨by simp [DoublyLinked.relinkPrev, h.1], h.2.frame fun c hc => ?_⟩
    exact relinkPrev_of_ne fun he =>
      (List.nodup_cons.mp hl).1 (Option.some.inj he ▸ hc)

/-- The links after cell `b` takes the place of cell `a` and `a` is released. -/
def replaceLinks (m : A → Option (Links A)) (l l' : List A) (a b : A) : A → Option (Links A) :=
  Function.update
    (DoublyLinked.relinkPrev
      (DoublyLinked.relinkNext (Function.update m b (some ⟨l'.head?, l.getLast?⟩)) l.getLast? (some b))
      l'.head? (some b))
    a none

/-- The links after cell `b` is put behind the last cell. -/
def appendLinks (m : A → Option (Links A)) (l : List A) (b : A) : A → Option (Links A) :=
  Function.update (DoublyLinked.relinkNext m l.getLast? (some b)) b (some ⟨none, l.getLast?⟩)

theorem replaceLinks_of_notMem {m : A → Option (Links A)} {l l' : List A} {a b c : A}
    (hc : c ∉ l ++ a :: l') (hcb : c ≠ b) : replaceLinks m l l' a b c = m c := by
  simp only [List.mem_append, List.mem_cons, not_or] at hc
  rw [replaceLinks, Function.update_of_ne hc.2.1,
    relinkPrev_of_ne fun he => hc.2.2 (List.mem_of_head? he),
    relinkNext_of_ne fun he => hc.1 (List.mem_of_getLast? he), Function.update_of_ne hcb]

theorem appendLinks_of_notMem {m : A → Option (Links A)} {l : List A} {b c : A}
    (hc : c ∉ l) (hcb : c ≠ b) : appendLinks m l b c = m c := by
  rw [appendLinks, Function.update_of_ne hcb,
    relinkNext_of_ne fun he => hc (List.mem_of_getLast? he)]

theorem Segment.replace {m : A → Option (Links A)} {l l' : List A} {a b : A}
    (h : Segment m none (l ++ a :: l') none) (hl : (l ++ a :: l').Nodup) (hb : b ∉ l ++ a :: l') :
    Segment (replaceLinks m l l' a b) none (l ++ b :: l') none := by
  rw [segment_append] at h ⊢
  obtain ⟨hfront, -, hback⟩ := h
  obtain ⟨hl1, hl2, hdis⟩ := List.nodup_append.mp hl
  obtain ⟨hal', hl2'⟩ := List.nodup_cons.mp hl2
  simp only [List.mem_append, List.mem_cons, not_or] at hb
  have hal : a ∉ l := fun ha => hdis a ha a List.mem_cons_self rfl
  have hlast {c : A} (hc : c ∉ l) : l.getLast? ≠ some c := fun he => hc (List.mem_of_getLast? he)
  have hhead {c : A} (hc : c ∉ l') : l'.head? ≠ some c := fun he => hc (List.mem_of_head? he)
  have hsep {c : A} (hc : c ∈ l) : c ∉ l' := fun hc' =>
    hdis c hc c (List.mem_cons_of_mem a hc') rfl
  refine ⟨?_, ?_, ?_⟩
  · -- the cells in front: only the last one's `next` changes
    have hm : Segment (Function.update m b (some ⟨l'.head?, l.getLast?⟩)) none l (some a) :=
      hfront.frame fun c hc => Function.update_of_ne (ne_of_mem_of_not_mem hc hb.1) _ _
    refine (hm.relinkNext hl1 (some b)).frame fun c hc => ?_
    rw [replaceLinks, Function.update_of_ne (ne_of_mem_of_not_mem hc hal),
      relinkPrev_of_ne (hhead (hsep hc))]
  · rw [replaceLinks, Function.update_of_ne hb.2.1, relinkPrev_of_ne (hhead hb.2.2),
      relinkNext_of_ne (hlast hb.1), Function.update_self]
    simp
  · -- the cells behind: only the first one's `prev` changes
    have hm : Segment (DoublyLinked.relinkNext (Function.update m b (some ⟨l'.head?, l.getLast?⟩))
        l.getLast? (some b)) (some a) l' none :=
      hback.frame fun c hc => by
        rw [relinkNext_of_ne (hlast fun hc' => hsep hc' hc),
          Function.update_of_ne (ne_of_mem_of_not_mem hc hb.2.2)]
    refine (hm.relinkPrev hl2' (some b)).frame fun c hc => ?_
    rw [replaceLinks, Function.update_of_ne (ne_of_mem_of_not_mem hc hal')]

theorem Segment.concat {m : A → Option (Links A)} {l : List A} {b : A}
    (h : Segment m none l none) (hl : l.Nodup) (hb : b ∉ l) :
    Segment (appendLinks m l b) none (l ++ [b]) none := by
  rw [segment_append]
  refine ⟨(h.relinkNext hl (some b)).frame fun c hc => ?_, ?_, trivial⟩
  · exact Function.update_of_ne (ne_of_mem_of_not_mem hc hb) _ _
  · simp [appendLinks]

end Acached.DoublyLinked
