import Acached.Dispatch.Message
import Acached.Foundation.Execution
import Mathlib.Data.Fintype.Basic
import Mathlib.Logic.Function.Basic

/-! # Splitting lines on several comm threads

Each comm thread runs `Post2KVdataGets` on the line of a connection of its own.
The position at which `strtok` goes on is one variable of the process, and
every call of `strtok` is one step.
-/
namespace Acached.Dispatch
open CString Execution

/-- Where a thread stands in `Post2KVdataGets`: before `strtok(bufptr, " ")`, before a
`strtok(NULL, " ")`, or past the loop. -/
inductive Scan where
  | first | next | done
  deriving DecidableEq, Repr

/-- The threads, with the line each works on and the messages it has posted. `saved` is what is left
of the string behind the position of `strtok`, and `last` the thread that called it last. -/
structure Scanners (T : Type) where
  saved : Bytes
  last : Option T
  line : T → Bytes
  scan : T → Scan
  posted : T → List AMsg

def Scanners.init {T : Type} (line : T → Bytes) : Scanners T :=
  ⟨[], none, line, fun _ => .first, fun _ => []⟩

def keyMessage (hash : Bytes → UInt32) (key : Bytes) : AMsg :=
  (AMsg.init .gets).msgHdrIN_Init hash key

variable {T : Type} [DecidableEq T]

/-- The next call of `strtok` by a thread, with the round of the loop that its result leads to. A
call that finds no word leaves the position at the end of the string. -/
def scanStep (hash : Bytes → UInt32) (s : Scanners T) (t : T) : Option (Scanners T) :=
  match s.scan t with
  | .first =>
    let saved := ((strtok 32 (cstr (s.line t))).map Prod.snd).getD []
    some { s with saved := saved, last := some t, scan := Function.update s.scan t .next }
  | .next => match strtok 32 s.saved with
    | none => some { s with
        saved := [], last := some t, scan := Function.update s.scan t .done }
    | some (ptr, saved) => some { s with
        saved := saved
        last := some t
        posted := Function.update s.posted t (s.posted t ++ [keyMessage hash ptr]) }
  | .done => none

/-- A call that goes on with a string comes right after another call of the same thread. -/
def Undisturbed (s : Scanners T) (t : T) : Prop := s.scan t = .next → s.last = some t

instance (s : Scanners T) (t : T) : Decidable (Undisturbed s t) :=
  inferInstanceAs (Decidable (_ → _))

/-- What a thread has posted are the first of the keys of its own line, and all of them once it is
past its loop. -/
def OwnKeys (hash : Bytes → UInt32) (s : Scanners T) : Prop :=
  ∀ t, s.posted t <+: (lineKeys (s.line t)).map (keyMessage hash) ∧
    (s.scan t = .done → s.posted t = (lineKeys (s.line t)).map (keyMessage hash))

instance [Fintype T] (hash : Bytes → UInt32) (s : Scanners T) : Decidable (OwnKeys hash s) :=
  inferInstanceAs (Decidable (∀ _, _ ∧ _))

def InLine (hash : Bytes → UInt32) (s : Scanners T) (t : T) : Prop :=
  let keys := (lineKeys (s.line t)).map (keyMessage hash)
  match s.scan t with
  | .first => s.posted t = []
  | .next => ∃ rest, keys = s.posted t ++ (strtokLoop 32 rest.length rest).map (keyMessage hash) ∧
      (s.last = some t → s.saved = rest)
  | .done => s.posted t = keys

omit [DecidableEq T] in
theorem InLine.ownKeys {hash : Bytes → UInt32} {s : Scanners T} (h : ∀ t, InLine hash s t) :
    OwnKeys hash s := by
  intro t
  have ht := h t
  unfold InLine at ht
  cases hscan : s.scan t with
  | first =>
    rw [hscan] at ht
    exact ⟨ht ▸ List.nil_prefix, fun h => nomatch h⟩
  | next =>
    rw [hscan] at ht
    obtain ⟨rest, hkeys, -⟩ := ht
    exact ⟨hkeys ▸ List.prefix_append _ _, fun h => nomatch h⟩
  | done =>
    rw [hscan] at ht
    exact ⟨ht ▸ List.prefix_rfl, fun _ => ht⟩

/-- The first call leaves the position in front of the keys. -/
theorem lineKeys_eq (line : Bytes) :
    let saved := ((strtok 32 (cstr line)).map Prod.snd).getD []
    lineKeys line = strtokLoop 32 saved.length saved := by
  rw [lineKeys, strtokWords, strtokLoop_length]
  cases strtok 32 (cstr line) <;> rfl

omit [DecidableEq T] in
/-- A call by another thread does not change what was posted, only where `strtok` goes on. -/
theorem InLine.of_other {hash : Bytes → UInt32} {s s' : Scanners T} {t u : T}
    (h : InLine hash s u) (hne : u ≠ t) (hline : s'.line = s.line)
    (hscan : s'.scan u = s.scan u) (hposted : s'.posted u = s.posted u)
    (hlast : s'.last = some t) : InLine hash s' u := by
  unfold InLine at h ⊢
  rw [hscan, hposted, hline]
  cases hs : s.scan u with
  | first | done => simpa [hs] using h
  | next =>
    rw [hs] at h
    obtain ⟨rest, hkeys, -⟩ := h
    refine ⟨rest, hkeys, ?_⟩
    intro hu
    exact absurd (Option.some.inj (hlast ▸ hu)) (Ne.symm hne)

theorem scanStep_inLine {hash : Bytes → UInt32} {s s' : Scanners T} {t : T}
    (hs : ∀ u, InLine hash s u) (hgood : Undisturbed s t) (h : scanStep hash s t = some s') :
    ∀ u, InLine hash s' u := by
  intro u
  have ht := hs t
  unfold scanStep at h
  unfold InLine at ht
  cases hscan : s.scan t with
  | first =>
    rw [hscan] at h ht
    obtain rfl := Option.some.inj h
    by_cases hu : u = t
    · subst u
      simp only [InLine, Function.update_self]
      refine ⟨_, ?_, fun _ => rfl⟩
      rw [ht, List.nil_append, lineKeys_eq]
    · exact (hs u).of_other hu rfl (Function.update_of_ne hu ..) rfl rfl
  | next =>
    rw [hscan] at h ht
    obtain ⟨rest, hkeys, hsaved⟩ := ht
    obtain rfl := hsaved (hgood hscan)
    rw [strtokLoop_length] at hkeys
    cases hcall : strtok 32 s.saved with
    | none =>
      simp only [hcall] at h
      obtain rfl := Option.some.inj h
      by_cases hu : u = t
      · subst u
        simpa [InLine, hcall] using hkeys.symm
      · exact (hs u).of_other hu rfl (Function.update_of_ne hu ..) rfl rfl
    | some r =>
      simp only [hcall] at h
      obtain rfl := Option.some.inj h
      by_cases hu : u = t
      · subst u
        simp only [InLine, hscan, Function.update_self]
        refine ⟨r.2, ?_, fun _ => rfl⟩
        simpa [hcall] using hkeys
      · exact (hs u).of_other hu rfl rfl (Function.update_of_ne hu ..) rfl
  | done =>
    rw [hscan] at h
    cases h

/-- In every run in which no call that goes on with a string follows a call of another thread, every
thread posts the keys of its own line, in their order. -/
theorem ownKeys_of_undisturbed (hash : Bytes → UInt32) (line : T → Bytes) (calls : List T)
    (s : Scanners T) (h : exec (scanStep hash) (.init line) calls = some s)
    (hgood : Guarded (scanStep hash) Undisturbed (.init line) calls) : OwnKeys hash s :=
  InLine.ownKeys <| @Guarded.invariant _ _ _ _ (fun s => ∀ t, InLine hash s t)
    (fun _ _ _ hs hg hstep => scanStep_inLine hs hg hstep) _ _ _ hgood (fun _ => rfl) h

def twoLines : Bool → Bytes
  | false => [103, 101, 116, 32, 97, 32, 98, 0, 0]
  | true => [103, 101, 116, 32, 99, 32, 100, 0, 0]

theorem ownKeys_inTurn : ∃ s, exec (scanStep fun _ => 0) (.init twoLines)
    [false, false, false, false, true, true, true, true] = some s ∧ OwnKeys (fun _ => 0) s := by
  obtain ⟨s, hs⟩ : ∃ s, exec (scanStep fun _ => 0) (.init twoLines)
    [false, false, false, false, true, true, true, true] = some s := ⟨_, rfl⟩
  exact ⟨s, hs, ownKeys_of_undisturbed _ twoLines _ s hs (by decide)⟩

/-- When the second thread starts behind the first key of the first one, the next key of the first
thread is a key of the second line. -/
theorem ownKeys_fails : ¬ ∀ (line : Bool → Bytes) (calls : List Bool) (s : Scanners Bool),
    exec (scanStep fun _ => 0) (.init line) calls = some s → OwnKeys (fun _ => 0) s := by
  intro hall
  have hrun : (exec (scanStep fun _ => 0) (.init twoLines) [false, false, true, false]).map
      (fun s => decide (OwnKeys (fun _ => 0) s)) = some false := by decide
  obtain ⟨s, hs, hown⟩ := Option.map_eq_some_iff.mp hrun
  exact of_decide_eq_false hown (hall twoLines _ s hs)

end Acached.Dispatch
