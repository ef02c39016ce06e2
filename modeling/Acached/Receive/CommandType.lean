import Acached.Receive.Commands

/-! # The type of a command

`aConn::SetCommandType` compares the beginning of what was received with the
names of commands, and looks at how much was received. What it makes of a line
is compared with the first word of the line.
-/
namespace Acached.Receive
open CString Dispatch Words

def code : ACmdType → ℤ
  | .get => 1001
  | .gets => 1002
  | .set => 1003
  | .add => 1004
  | .replace => 1005
  | .append => 1006
  | .prepend => 1007
  | .quit => 1008
  | .version => 1009

/-- `aConn::SetCommandType`: what it leaves in the connection and what it returns, which is the value
of quit for a version. -/
def Conn.runSetCommandType (s : Conn) (buf : Bytes) (len : ℕ) : Option (Conn × ℤ) :=
  (Receive.setCommandType buf len).map fun
    | some ctype => ({ s with ctype := ctype }, code (if ctype = .version then .quit else ctype))
    | none => (s.setErrorApp .cmdInvalid, -1)

/-- The bytes up to the next space or `\r\n`. -/
def firstWord : Bytes → Bytes
  | [] => []
  | b :: rest => if b = 32 ∨ crlf <+: b :: rest then [] else b :: firstWord rest

def commandOf (word : Bytes) : Option ACmdType :=
  if word = setWord then some .set
  else if word = getWord ∨ word = getsWord then some .gets
  else if word = versionWord then some .version
  else if word = quitWord then some .quit
  else none

/-- A command is returned and its type is set exactly when the first word is the name of one, and
an unknown one is refused with its error. -/
def Classified (s : Conn) (buf : Bytes) (len : ℕ) : Prop :=
  match commandOf (firstWord (skipBlanks buf)) with
  | some ctype => ∃ returned,
      s.runSetCommandType buf len = some ({ s with ctype := ctype }, code returned)
  | none => s.runSetCommandType buf len = some (s.setErrorApp .cmdInvalid, -1)

/-- What `SetCommandType` takes for the length of what is behind the blanks. -/
def lengthLeft (buf : Bytes) (len : ℕ) : ℕ := len - (buf.length - (skipBlanks buf).length)

/-- The first word is the name of a command or does not begin with one, and behind `set` or `get`
there is more than the end of the line, going by `IOVECLEN`. -/
def Recognizable (buf : Bytes) (len : ℕ) : Prop :=
  (∀ name ∈ [setWord, versionWord, quitWord, getWord], name <+: firstWord (skipBlanks buf) →
    commandOf (firstWord (skipBlanks buf)) ≠ none) ∧
  (firstWord (skipBlanks buf) = setWord ∨ firstWord (skipBlanks buf) = getWord →
    5 < lengthLeft buf len)

instance (buf : Bytes) (len : ℕ) : Decidable (Recognizable buf len) :=
  inferInstanceAs (Decidable (_ ∧ _))

theorem length_le_left (earlier : ℕ) (buf : Bytes) :
    (skipBlanks buf).length ≤ lengthLeft buf (earlier + buf.length) := by
  have hle : (skipBlanks buf).length ≤ buf.length := (List.dropWhile_suffix _).length_le
  unfold lengthLeft
  omega

/-- `ProcessDataRecv` goes on with what `SetCommandType` returns. -/
theorem Conn.lineRead_eq (s : Conn) (buf : Bytes) :
    s.lineRead buf = (s.runSetCommandType buf s.cur.len).bind fun (t, ret) =>
      if ret < 0 then some (t, ret)
      else match isBufferComplete buf s.cur.len with
        | none => none
        | some (0, _) => none
        | some (n + 1, block) => s.lineComplete t.ctype buf (n + 1) block := by
  unfold lineRead runSetCommandType
  cases Receive.setCommandType buf s.cur.len with
  | none => rfl
  | some r => cases r with
    | none => rfl
    | some ctype => cases ctype <;> rfl

theorem strncmp_name (bufptr : Bytes) {name : Bytes} (hname : NulFree name) :
    strncmp bufptr name name.length = 0 ↔ name <+: bufptr := by
  have h := strncmp_eq_zero_iff name [] bufptr hname
  rw [List.append_nil] at h
  rw [strncmp_eq_zero_comm, h]

/-- Behind the first word of a text in which a line ends is a space or the end of the line. -/
theorem firstWord_append {b : Bytes} (h : crlf <:+: b) :
    ∃ d t, b = firstWord b ++ d :: t ∧ (d = 32 ∨ d = 13) ∧ t ≠ [] := by
  induction b with
  | nil => exact absurd (List.infix_nil.mp h) (List.cons_ne_nil _ _)
  | cons a b ih =>
    unfold firstWord
    by_cases hend : a = 32 ∨ crlf <+: a :: b
    · rw [if_pos hend]
      refine ⟨a, b, rfl, hend.imp_right fun hcrlf => ?_, ?_⟩
      · exact (List.cons_prefix_cons.mp hcrlf).1.symm
      · rintro rfl
        exact absurd h.length_le (by simp [crlf])
    · rw [if_neg hend]
      have hrest : crlf <:+: b := by
        rcases List.infix_cons_iff.mp h with hfront | hrest
        · exact absurd (.inr hfront) hend
        · exact hrest
      obtain ⟨d, t, hb, hd, ht⟩ := ih hrest
      exact ⟨d, t, congrArg (a :: ·) hb, hd, ht⟩

def comparedWith (word : Bytes) : Option ACmdType :=
  if setWord <+: word then some .set
  else if versionWord <+: word then some .version
  else if quitWord <+: word then some .quit
  else if getWord <+: word then some .gets
  else none

/-- For a line that has ended, the comparisons are with its first word, and no comparison runs past
what was received. -/
theorem setCommandType_firstWord {buf : Bytes} (h : crlf <:+: skipBlanks buf) (len : ℕ) :
    Receive.setCommandType buf len =
      some (if 5 < lengthLeft buf len then comparedWith (firstWord (skipBlanks buf)) else none) := by
  have hmem : 13 ∈ skipBlanks buf := h.subset List.mem_cons_self
  unfold Receive.setCommandType
  dsimp only
  obtain ⟨d, t, hb, hd, -⟩ := firstWord_append h
  have hname (name : Bytes) (hnul : NulFree name) (hword : 32 ∉ name ∧ 13 ∉ name) :
      strncmp (skipBlanks buf) name name.length = 0 ↔ name <+: firstWord (skipBlanks buf) := by
    rw [strncmp_name _ hnul]
    conv_lhs => rw [hb]
    apply prefix_of_prefix_append
    rcases hd with rfl | rfl
    · exact hword.1
    · exact hword.2
  have hcut : cutWord (skipBlanks buf) = false := by
    rw [cutWord, List.any_eq_false]
    intro name hname hcut
    obtain ⟨hfront, -⟩ := Bool.and_eq_true_iff.mp hcut
    have hin := (List.isPrefixOf_iff_prefix.mp hfront).subset hmem
    simp only [List.mem_cons, List.not_mem_nil, or_false] at hname
    rcases hname with rfl | rfl | rfl | rfl <;> exact absurd hin (by decide)
  have hset : strncmp (skipBlanks buf) setWord 3 = 0 ↔ _ := hname setWord (forall_mem_of_all rfl) (by decide)
  have hversion : strncmp (skipBlanks buf) versionWord 7 = 0 ↔ _ :=
    hname versionWord (forall_mem_of_all rfl) (by decide)
  have hquit : strncmp (skipBlanks buf) quitWord 4 = 0 ↔ _ := hname quitWord (forall_mem_of_all rfl) (by decide)
  have hget : strncmp (skipBlanks buf) getWord 3 = 0 ↔ _ := hname getWord (forall_mem_of_all rfl) (by decide)
  have hgets : strncmp (skipBlanks buf) getsWord 4 = 0 ↔ _ := hname getsWord (forall_mem_of_all rfl) (by decide)
  simp only [hcut, hset, hversion, hquit, hget, hgets, Bool.false_eq_true, if_false]
  unfold comparedWith lengthLeft
  split_ifs with _ _ _ _ hnot hlonger <;> try rfl
  -- what begins with `gets` has been found to begin with `get`
  exact absurd ((show getWord <+: getsWord by decide).trans hlonger) hnot

theorem code_pos (ctype : ACmdType) : 0 < code ctype := by
  cases ctype <;> decide

theorem classified_iff_eq (s : Conn) {buf : Bytes} {len : ℕ} {found : Option ACmdType}
    (h : Receive.setCommandType buf len = some found) :
    Classified s buf len ↔ found = commandOf (firstWord (skipBlanks buf)) := by
  unfold Classified Conn.runSetCommandType
  rw [h, Option.map_some]
  cases commandOf (firstWord (skipBlanks buf)) with
  | none =>
    cases found with
    | none => simp
    | some ctype =>
      have hpos := code_pos (if ctype = .version then .quit else ctype)
      simp only [Option.some.injEq, Prod.mk.injEq, reduceCtorEq, iff_false]
      omega
  | some ctype =>
    cases found with
    | none =>
      simp only [Option.some.injEq, Prod.mk.injEq, reduceCtorEq, iff_false, not_exists]
      intro returned
      have hpos := code_pos returned
      omega
    | some other =>
      simp only [Option.some.injEq, Prod.mk.injEq]
      constructor
      · rintro ⟨_, hconn, -⟩
        exact congrArg Conn.ctype hconn
      · rintro rfl
        exact ⟨_, rfl, rfl⟩

/-- The name of a command is found by the comparisons, and all but two are long enough. -/
theorem comparedWith_of_command {word : Bytes} {ctype : ACmdType} (h : commandOf word = some ctype) :
    comparedWith word = some ctype ∧ ((word = setWord ∨ word = getWord) ∨ 4 ≤ word.length) := by
  unfold commandOf at h
  split_ifs at h with hset hget hversion hquit
  · subst hset
    exact ⟨h, .inl (.inl rfl)⟩
  · rcases hget with rfl | rfl
    · exact ⟨h, .inl (.inr rfl)⟩
    · exact ⟨h, .inr (by decide)⟩
  · subst hversion
    exact ⟨h, .inr (by decide)⟩
  · subst hquit
    exact ⟨h, .inr (by decide)⟩

theorem comparedWith_eq_none_iff (word : Bytes) : comparedWith word = none ↔
    ∀ name ∈ [setWord, versionWord, quitWord, getWord], ¬ name <+: word := by
  simp only [List.forall_mem_cons, List.not_mem_nil, false_imp_iff, implies_true, and_true]
  unfold comparedWith
  split_ifs <;> simp_all

theorem length_of_prefix {word name : Bytes} (hname : name ∈ [setWord, versionWord, quitWord, getWord])
    (hfront : name <+: word) (hnone : commandOf word = none) : 4 ≤ word.length := by
  have hnames : ∀ name ∈ [setWord, versionWord, quitWord, getWord],
      commandOf name ≠ none ∧ 3 ≤ name.length := by
    simp only [List.forall_mem_cons]
    exact ⟨by decide, by decide, by decide, by decide, List.forall_mem_nil _⟩
  obtain ⟨hcommand, hlong⟩ := hnames name hname
  by_contra hshort
  have heq := hfront.eq_of_length_le (by omega)
  exact hcommand (heq ▸ hnone)

/-- A command is found where there is one and the length is enough, and nowhere else, exactly if the
line is recognizable. -/
theorem comparedWith_eq_iff {buf : Bytes} {len : ℕ} (h : crlf <:+: skipBlanks buf)
    (hle : (skipBlanks buf).length ≤ lengthLeft buf len) :
    (if 5 < lengthLeft buf len then comparedWith (firstWord (skipBlanks buf)) else none) =
      commandOf (firstWord (skipBlanks buf)) ↔ Recognizable buf len := by
  obtain ⟨d, t, hb, -, ht⟩ := firstWord_append h
  have hlen : (firstWord (skipBlanks buf)).length + 2 ≤ lengthLeft buf len := by
    have hpos := List.length_pos_iff.mpr ht
    have heq := congrArg List.length hb
    rw [List.length_append, List.length_cons] at heq
    omega
  unfold Recognizable
  generalize firstWord (skipBlanks buf) = word at hlen ⊢
  generalize lengthLeft buf len = len at hlen ⊢
  cases hcommand : commandOf word with
  | none =>
    have hnames : word ≠ setWord ∧ word ≠ getWord := by
      constructor <;> (rintro rfl; cases hcommand)
    constructor
    · intro hfound
      refine ⟨fun name hname hfront => ?_, fun hword => (hword.elim hnames.1 hnames.2).elim⟩
      have hlong := length_of_prefix hname hfront hcommand
      rw [if_pos (by omega)] at hfound
      exact ((comparedWith_eq_none_iff word).mp hfound name hname hfront).elim
    · rintro ⟨hno, -⟩
      have hcompared := (comparedWith_eq_none_iff word).mpr fun name hname hfront =>
        hno name hname hfront rfl
      rw [hcompared, ite_self]
  | some ctype =>
    obtain ⟨hcompared, hword⟩ := comparedWith_of_command hcommand
    rw [hcompared]
    by_cases henough : 5 < len
    · rw [if_pos henough]
      exact iff_of_true rfl ⟨fun _ _ _ => by simp, fun _ => henough⟩
    · rw [if_neg henough]
      refine iff_of_false (by simp) fun hrec => henough (hrec.2 (hword.resolve_right ?_))
      omega

theorem crlf_infix_skipBlanks (line rest : Bytes) : crlf <:+: skipBlanks (line ++ crlf ++ rest) := by
  unfold skipBlanks
  rw [List.append_assoc, List.dropWhile_append]
  split
  · exact (List.prefix_append crlf rest).isInfix
  · exact ⟨_, rest, List.append_assoc ..⟩

/-- For every line that has ended, whatever was received behind it and whatever `IOVECLEN` was before,
it is classified by its first word if and only if it is recognizable. -/
theorem classified_iff_recognizable (s : Conn) (line rest : Bytes) (earlier : ℕ) :
    Classified s (line ++ crlf ++ rest) (earlier + (line ++ crlf ++ rest).length) ↔
      Recognizable (line ++ crlf ++ rest) (earlier + (line ++ crlf ++ rest).length) := by
  have hcrlf := crlf_infix_skipBlanks line rest
  rw [classified_iff_eq s (setCommandType_firstWord hcrlf _),
    comparedWith_eq_iff hcrlf (length_le_left ..)]

/-- A `get` with nothing behind its line end, in a buffer that counts the six bytes of a `quit`, too. -/
example : Recognizable [103, 101, 116, 13, 10] (6 + 5) ∧ ¬ Recognizable [103, 101, 116, 13, 10] (0 + 5) := by
  decide

/-- The line `getx k` is taken for a get. -/
theorem classified_fails : ¬ ∀ (s : Conn) (line rest : Bytes) (earlier : ℕ),
    Classified s (line ++ crlf ++ rest) (earlier + (line ++ crlf ++ rest).length) := by
  intro h
  have hcrlf := crlf_infix_skipBlanks [103, 101, 116, 120, 32, 107] []
  have hfound := (classified_iff_eq .zeroed (setCommandType_firstWord hcrlf _)).mp (h _ _ _ 0)
  exact absurd hfound (by decide)

end Acached.Receive
