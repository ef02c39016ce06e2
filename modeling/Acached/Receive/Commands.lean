import Acached.Receive.Numbers
import Acached.Receive.SetHeader

/-! # Commands as clients send them

The lines of sets and gets as they are written, and what the parser makes of
them: of a complete line, whatever has been received behind it, and of a line
of which the end is missing.
-/
namespace Acached.Receive
open CString Dispatch Words

def WordByte (b : UInt8) : Prop := b ≠ 0 ∧ b ≠ 10 ∧ b ≠ 13 ∧ b ≠ 32

def IsWord (w : Bytes) : Prop := w ≠ [] ∧ ∀ b ∈ w, WordByte b

instance (b : UInt8) : Decidable (WordByte b) := inferInstanceAs (Decidable (_ ∧ _))

instance (w : Bytes) : Decidable (IsWord w) :=
  @instDecidableAnd _ _ inferInstance (List.decidableBAll WordByte w)

def crlf : Bytes := [13, 10]

/-- A get with its keys, or a set with its key, the three numerals of its line, and the data. -/
inductive Command where
  | get (keys : List Bytes)
  | set (key flags exptime datalen data : Bytes)
  deriving DecidableEq, Repr

namespace Command

def ctype : Command → ACmdType
  | .get _ => .gets
  | .set .. => .set

def word : Command → Bytes
  | .get _ => getWord
  | .set .. => setWord

def args : Command → List Bytes
  | .get keys => keys
  | .set key flags exptime datalen _ => [key, flags, exptime, datalen]

def text (c : Command) : Bytes := c.word ++ spaced 32 c.args

def line (c : Command) : Bytes := c.text ++ crlf

def body : Command → Bytes
  | .get _ => []
  | .set _ _ _ _ data => data ++ crlf

def bytes (c : Command) : Bytes := c.line ++ c.body

def header : Command → Header
  | .get _ => ⟨[], 0, 0, 0, 0⟩
  | .set key flags exptime datalen _ =>
    ⟨key, key.length, decimal flags, decimal exptime, decimal datalen⟩

/-- The block that a command is handed on with: the line of a get, and the body of a set. -/
def block (c : Command) : Bytes :=
  match c with
  | .get _ => c.text
  | .set .. => c.body

def posted (hash : Bytes → UInt32) (c : Command) : Posted :=
  ⟨c.text, post2KVdata hash c.ctype
    ⟨c.header.key, c.header.flags, c.header.exptime, c.header.datalen, c.block⟩⟩

end Command

/-- What was handed on, with the block of a get as the string that it is read as. -/
def Posted.content (p : Posted) : Posted :=
  { p with aM := p.aM.map fun aM =>
      if aM.ctype = .gets then { aM with cmdptr := cstr aM.cmdptr } else aM }

def Numeral (d : Bytes) : Prop := d ≠ [] ∧ (∀ b ∈ d, isDigit b = true) ∧ decimal d < 2 ^ 32

instance (d : Bytes) : Decidable (Numeral d) :=
  @instDecidableAnd _ _ inferInstance <|
    @instDecidableAnd _ _ (List.decidableBAll (fun b => isDigit b = true) d) inferInstance

/-- A key of 1 to 255 bytes. -/
def Key (key : Bytes) : Prop := IsWord key ∧ key.length ≤ 255

instance (key : Bytes) : Decidable (Key key) := inferInstanceAs (Decidable (_ ∧ _))

namespace Command

/-- The arguments are what they should be, and data are not empty. -/
def ArgsOk : Command → Prop
  | .get keys => keys ≠ [] ∧ ∀ key ∈ keys, Key key
  | .set key flags exptime datalen data => Key key ∧ Numeral flags ∧ Numeral exptime ∧
      Numeral datalen ∧ decimal datalen = data.length ∧ 0 < data.length

instance : ∀ c, Decidable (ArgsOk c)
  | .get _ => inferInstanceAs (Decidable (_ ∧ _))
  | .set .. => inferInstanceAs (Decidable (_ ∧ _))

/-- A line that is shorter than the block it is read into. -/
def WellFormed (c : Command) : Prop := c.ArgsOk ∧ c.line.length < cmdWaitInit

instance (c : Command) : Decidable c.WellFormed := inferInstanceAs (Decidable (_ ∧ _))

end Command

/-! ## Messages -/

theorem post2KVdata_eq {hash : Bytes → UInt32} {ctype : ACmdType} {p : Parsed} {aM : AMsg}
    (h : post2KVdata hash ctype p = some aM) :
    aM.ctype = ctype ∧ (ctype = .set → aM.cmdptr = p.block) := by
  unfold post2KVdata at h
  split at h
  all_goals cases h
  · exact ⟨rfl, fun hset => by cases hset⟩
  · exact ⟨rfl, fun _ => rfl⟩
  · exact ⟨rfl, fun hset => by cases hset⟩

namespace Command

theorem posted_isSome (c : Command) (hash : Bytes → UInt32) : ∃ aM, (c.posted hash).aM = some aM := by
  cases c with
  | get => exact ⟨_, rfl⟩
  | set => exact ⟨_, rfl⟩

theorem block_of_set (c : Command) (h : c.ctype = .set) : c.block = c.body := by
  cases c with
  | get => cases h
  | set => rfl

theorem body_of_ne_set (c : Command) (h : c.ctype ≠ .set) : c.body = [] := by
  cases c with
  | get => rfl
  | set => exact absurd rfl h

theorem ctype_of_ne_set (c : Command) (h : c.ctype ≠ .set) : c.ctype = .gets := by
  cases c with
  | get => rfl
  | set => exact absurd rfl h

theorem ctype_ne_quit (c : Command) : c.ctype ≠ .quit := by
  intro h
  cases c with
  | get => cases h
  | set => cases h

end Command

/-! ## Lines -/

/-- The search for the end of a line passes what has no `\r`. -/
theorem findLineEnd_append (text rest : Bytes) (h : ∀ b ∈ text, b ≠ 13) :
    findLineEnd (text ++ 13 :: 10 :: rest) = some (text.length + 2) := by
  induction text with
  | nil => rfl
  | cons b text ih =>
    have hb : b ≠ 13 := h b List.mem_cons_self
    have hrest := ih fun c hc => h c (List.mem_cons_of_mem b hc)
    cases text with
    | nil =>
      change (if b = 13 then _ else (findLineEnd (13 :: 10 :: rest)).map (· + 1)) = _
      rw [if_neg hb]
      rfl
    | cons c text =>
      change (if b = 13 then _ else (findLineEnd (c :: text ++ 13 :: 10 :: rest)).map (· + 1)) = _
      rw [if_neg hb, hrest]
      simp

theorem findLineEnd_eq_none (text rest : Bytes) (h : ∀ b ∈ text, b ≠ 13)
    (hrest : rest = [] ∨ rest = [13]) : findLineEnd (text ++ rest) = none := by
  induction text with
  | nil => rcases hrest with rfl | rfl <;> rfl
  | cons b text ih =>
    have hb : b ≠ 13 := h b List.mem_cons_self
    have hih := ih fun c hc => h c (List.mem_cons_of_mem b hc)
    rw [List.cons_append]
    cases htail : text ++ rest with
    | nil => rfl
    | cons c tail =>
      rw [htail] at hih
      rw [findLineEnd, if_neg hb, hih]
      rfl

/-! ## Words of a line -/

theorem IsWord.not_blank {w : Bytes} (h : IsWord w) : 32 ∉ w := fun hb => (h.2 32 hb).2.2.2 rfl

theorem Numeral.isWord {d : Bytes} (h : Numeral d) : IsWord d := by
  refine ⟨h.1, fun b hb => ?_⟩
  have hdigit := h.2.1 b hb
  simp only [isDigit, Bool.and_eq_true, decide_eq_true_eq] at hdigit
  refine ⟨?_, ?_, ?_, ?_⟩
  all_goals rintro rfl
  all_goals exact absurd hdigit.1 (by decide)

theorem Numeral.safeStrtoul {d : Bytes} (h : Numeral d) : safeStrtoul d = (true, decimal d) := by
  obtain ⟨hne, hdigits, hlt⟩ := h
  have hbegins : Begins d [] [] d [] :=
    ⟨by simp, by simp, .inl rfl, hne, hdigits, fun b hb => nomatch hb⟩
  have hdenoted : denoted [] d = decimal d := if_neg (by decide)
  rw [hbegins.safeStrtoul, hdenoted, if_neg (by omega), if_pos (.inr rfl), if_neg fun h => by omega]
  congr 1
  omega

/-! ## What the parser makes of a line -/

namespace Command

variable {c : Command}

theorem WellFormed.args_words (h : c.WellFormed) : ∀ w ∈ c.args, IsWord w := by
  obtain ⟨hargs, -⟩ := h
  cases c with
  | get keys => exact fun w hw => (hargs.2 w hw).1
  | set key flags exptime datalen data =>
    obtain ⟨hkey, hflags, hexptime, hdatalen, -⟩ := hargs
    simp only [args, List.forall_mem_cons]
    exact ⟨hkey.1, hflags.isWord, hexptime.isWord, hdatalen.isWord, List.forall_mem_nil _⟩

theorem WellFormed.args_ne (h : c.WellFormed) : c.args ≠ [] := by
  cases c with
  | get keys => exact h.1.1
  | set => exact List.cons_ne_nil _ _

theorem WellFormed.text_bytes (h : c.WellFormed) : ∀ b ∈ c.text, b ≠ 0 ∧ b ≠ 10 ∧ b ≠ 13 := by
  have hword : ∀ b ∈ c.word, b ≠ 0 ∧ b ≠ 10 ∧ b ≠ 13 := by
    cases c with
    | get => exact forall_mem_of_all (s := getWord) rfl
    | set => exact forall_mem_of_all (s := setWord) rfl
  intro b hb
  rcases List.mem_append.mp hb with hb | hb
  · exact hword b hb
  · obtain ⟨w, hw, hb⟩ := List.mem_flatMap.mp hb
    rcases List.mem_cons.mp hb with rfl | hb
    · decide
    · obtain ⟨h0, h10, h13, -⟩ := (h.args_words w hw).2 b hb
      exact ⟨h0, h10, h13⟩

theorem WellFormed.text_eq (h : c.WellFormed) : ∃ b rest, c.text = c.word ++ 32 :: b :: rest := by
  have hargs := h.args_ne
  have hwords := h.args_words
  unfold text
  cases hc : c.args with
  | nil => exact absurd hc hargs
  | cons w words =>
    rw [hc] at hwords
    have hw := (hwords w List.mem_cons_self).1
    cases w with
    | nil => exact absurd rfl hw
    | cons b w => exact ⟨b, w ++ spaced 32 words, rfl⟩

theorem WellFormed.line_length (h : c.WellFormed) : 6 < c.line.length := by
  obtain ⟨b, rest, htext⟩ := h.text_eq
  have hword : c.word.length = 3 := by cases c <;> rfl
  rw [line, htext]
  simp only [crlf, List.length_append, List.length_cons, List.length_nil, hword]
  omega

theorem setCommandType_eq (c : Command) (rest : Bytes) {len : ℕ} (hlen : 5 < len) :
    setCommandType (c.word ++ 32 :: rest) len = some (some c.ctype) := by
  cases c with
  | get => exact setCommandType_get rest hlen
  | set => exact setCommandType_set rest hlen

theorem WellFormed.setCommandType (h : c.WellFormed) (rest : Bytes) :
    setCommandType (c.line ++ rest) (c.line ++ rest).length = some (some c.ctype) := by
  obtain ⟨b, tail, htext⟩ := h.text_eq
  have hlen := h.line_length
  have hline : c.line ++ rest = c.word ++ 32 :: (b :: tail ++ crlf ++ rest) := by
    rw [line, htext]
    simp
  have hlong : 5 < (c.line ++ rest).length := by
    rw [List.length_append]
    omega
  rw [hline] at hlong ⊢
  exact c.setCommandType_eq _ hlong

theorem WellFormed.isBufferComplete (h : c.WellFormed) (rest : Bytes) :
    isBufferComplete (c.line ++ rest) (c.line ++ rest).length =
      some (c.line.length, c.text ++ [0, 0] ++ rest) := by
  have hlen := h.line_length
  have hline : c.line ++ rest = c.text ++ 13 :: 10 :: rest := by simp [line, crlf]
  have htwo : c.line.length = c.text.length + 2 := by simp [line, crlf]
  have hend := findLineEnd_append c.text rest fun b hb => (h.text_bytes b hb).2.2
  unfold Receive.isBufferComplete
  rw [if_neg, hline, hend, htwo]
  · simp
  · rw [List.length_append]
    omega

theorem WellFormed.cstr (h : c.WellFormed) (rest : Bytes) :
    cstr (c.text ++ [0, 0] ++ rest) = c.text := by
  have htext : ∀ b ∈ c.text, decide (b ≠ 0) = true := by
    intro b hb
    exact decide_eq_true (h.text_bytes b hb).1
  unfold CString.cstr
  rw [List.append_assoc, List.takeWhile_append_of_pos htext]
  simp

theorem WellFormed.processHeader (h : c.WellFormed) (hset : c.ctype = .set) (old : Header)
    (rest : Bytes) : processHeader old (c.text ++ [0, 0] ++ rest) = some (true, c.header) := by
  cases c with
  | get => cases hset
  | set key flags exptime datalen data =>
    have hargs := h.args_words
    obtain ⟨hkey, hflags, hexptime, hdatalen, -⟩ := h.1
    have hwords : words 32 (headerLine ((Command.set key flags exptime datalen data).text ++ [0, 0] ++
        rest)) = [setWord, key, flags, exptime, datalen] := by
      have hskip : skipBlanks ((Command.set key flags exptime datalen data).text ++ [0, 0] ++ rest) =
        (Command.set key flags exptime datalen data).text ++ [0, 0] ++ rest := rfl
      rw [headerLine, hskip, h.cstr]
      have hword : 32 ∉ setWord := by decide
      have hne : setWord ≠ [] := by decide
      apply words_append_spaced hword hne
      exact fun w hw => ⟨(hargs w hw).not_blank, (hargs w hw).1⟩
    have hsize : ¬ keySize < key.length := Nat.not_lt.mpr (hkey.2.trans (by decide))
    rw [processHeader_of_words old hwords, if_neg hsize, hflags.safeStrtoul, hexptime.safeStrtoul,
      hdatalen.safeStrtoul]
    rfl

/-- Of a line whose end is missing, too little has been received for the command to be known, or no end
is found. -/
theorem WellFormed.cut_line (h : c.WellFormed) {p : Bytes} (hp : p <+: c.line)
    (hlt : p.length < c.line.length) :
    Receive.setCommandType p p.length = some none ∨ Receive.isBufferComplete p p.length = none := by
  by_cases hlen : 5 < p.length
  · right
    unfold Receive.isBufferComplete
    rw [if_neg (by omega), Option.map_eq_none_iff]
    have hreturn : ∀ b ∈ c.text, b ≠ 13 := fun b hb => (h.text_bytes b hb).2.2
    have htake := List.prefix_iff_eq_take.mp hp
    rw [line, List.take_append] at htake
    rw [htake]
    apply findLineEnd_eq_none
    · exact fun b hb => hreturn b (List.mem_of_mem_take hb)
    · have hshort : p.length - c.text.length < 2 := by
        simp only [line, crlf, List.length_append, List.length_cons, List.length_nil] at hlt
        omega
      generalize p.length - c.text.length = k at hshort
      obtain rfl | rfl : k = 0 ∨ k = 1 := by omega
      · exact .inl rfl
      · exact .inr rfl
  · left
    have hle : (skipBlanks p).length ≤ p.length := List.length_dropWhile_le _ _
    unfold Receive.setCommandType
    dsimp only
    rw [if_neg]
    omega

end Command
end Acached.Receive
