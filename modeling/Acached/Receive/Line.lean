import Acached.Dispatch.Message

/-! # Command lines

The part of the parser that looks at one received line: the search for its
end, the classification, the tokenizer, the numbers and the header of a set.
A buffer is the list of the bytes received into it.
-/
namespace Acached.Receive
open CString Dispatch

/-- The search loop of `IsBufferComplete` from one position on: how many bytes it passes up to the
`\n` it finds. Nothing in it stops at the end of the received bytes; to run past them is
undefined. -/
def findLineEnd : Bytes → Option ℕ
  | [] => none
  | [_] => none
  | b :: c :: rest =>
    if b = 13 then if c = 10 then some 2 else (findLineEnd rest).map (· + 2)
    else (findLineEnd (c :: rest)).map (· + 1)

/-- `aConn::IsBufferComplete` for `IOVECLEN` equal to `len`: 0, or the length of the line with its
`\r\n`, which is overwritten with zeros. The loop is not entered for a length of one. -/
def isBufferComplete (buf : Bytes) (len : ℕ) : Option (ℕ × Bytes) :=
  if len = 1 then some (0, buf)
  else (findLineEnd buf).map fun n => (n, buf.take (n - 2) ++ [0, 0] ++ buf.drop n)

theorem findLineEnd_bounds {buf : Bytes} {n : ℕ} (h : findLineEnd buf = some n) :
    2 ≤ n ∧ n ≤ buf.length := by
  induction buf using findLineEnd.induct generalizing n with
  | case1 => cases h
  | case2 => cases h
  | case3 rest =>
    simp only [findLineEnd, if_true, Option.some.injEq] at h
    subst h
    simp
  | case4 c rest hc ih =>
    simp only [findLineEnd, if_true, if_neg hc] at h
    obtain ⟨m, hm, rfl⟩ := Option.map_eq_some_iff.mp h
    obtain ⟨hle, hlen⟩ := ih hm
    simp only [List.length_cons]
    omega
  | case5 b c rest hb ih =>
    simp only [findLineEnd, if_neg hb] at h
    obtain ⟨m, hm, rfl⟩ := Option.map_eq_some_iff.mp h
    obtain ⟨hle, hlen⟩ := ih hm
    simp only [List.length_cons] at hlen ⊢
    omega

theorem drop_of_isBufferComplete {buf block : Bytes} {len n : ℕ}
    (h : isBufferComplete buf len = some (n + 1, block)) : block.drop (n + 1) = buf.drop (n + 1) := by
  unfold isBufferComplete at h
  split at h
  · cases h
  · obtain ⟨m, hm, heq⟩ := Option.map_eq_some_iff.mp h
    simp only [Prod.mk.injEq] at heq
    obtain ⟨rfl, rfl⟩ := heq
    obtain ⟨hle, hlen⟩ := findLineEnd_bounds hm
    apply List.drop_left'
    simp only [List.length_append, List.length_take, List.length_cons, List.length_nil]
    omega

/-- The loop in front of both `SetCommandType` and `ProcessHeader`. -/
def skipBlanks (buf : Bytes) : Bytes := buf.dropWhile fun b => b = 32 || b = 0

def setWord : Bytes := [115, 101, 116]

def versionWord : Bytes := [118, 101, 114, 115, 105, 111, 110]

def quitWord : Bytes := [113, 117, 105, 116]

def getWord : Bytes := [103, 101, 116]

def getsWord : Bytes := [103, 101, 116, 115]

def cutWord (bufptr : Bytes) : Bool :=
  [setWord, versionWord, quitWord, getWord].any fun w =>
    bufptr.isPrefixOf w && bufptr.length < w.length

/-- `aConn::SetCommandType` for `IOVECLEN` equal to `len`: the new `cmd.ctype`, or `some none` for an
unknown command. A comparison that runs past the received bytes has no outcome. -/
def setCommandType (buf : Bytes) (len : ℕ) : Option (Option ACmdType) :=
  let bufptr := skipBlanks buf
  if 5 < len - (buf.length - bufptr.length) then
    if cutWord bufptr then none
    else if strncmp bufptr setWord 3 = 0 then some (some .set)
    else if strncmp bufptr versionWord 7 = 0 then some (some .version)
    else if strncmp bufptr quitWord 4 = 0 then some (some .quit)
    else if strncmp bufptr getWord 3 = 0 then some (some .gets)
    else if strncmp bufptr getsWord 4 = 0 then some (some .gets)
    else some none
  else some none

/-- The word and the blanks behind it decide the kind of a command. -/
theorem setCommandType_set (rest : Bytes) {len : ℕ} (hlen : 5 < len) :
    setCommandType (setWord ++ 32 :: rest) len = some (some .set) := by
  have hskip : skipBlanks (setWord ++ 32 :: rest) = setWord ++ 32 :: rest := rfl
  have hcut : cutWord (setWord ++ 32 :: rest) = false := rfl
  unfold setCommandType
  rw [hskip]
  dsimp only
  rw [hcut, Nat.sub_self, Nat.sub_zero, if_pos hlen]
  rfl

theorem setCommandType_get (rest : Bytes) {len : ℕ} (hlen : 5 < len) :
    setCommandType (getWord ++ 32 :: rest) len = some (some .gets) := by
  have hskip : skipBlanks (getWord ++ 32 :: rest) = getWord ++ 32 :: rest := rfl
  have hcut : cutWord (getWord ++ 32 :: rest) = false := rfl
  unfold setCommandType
  rw [hskip]
  dsimp only
  rw [hcut, Nat.sub_self, Nat.sub_zero, if_pos hlen]
  rfl

def maxTokens : ℕ := 8

/-- The loop of `tokenize_command`: the words it fills slots with, when `slots` more fit in front
of the terminal one, and what the terminal slot points to. `word` is the string from `s` to `e`. -/
def tokenizeLoop : ℕ → Bytes → Bytes → List Bytes × Option Bytes
  | _, word, [] => (if word = [] then [] else [word], none)
  | slots, word, b :: rest =>
    if b = 32 then
      if word = [] then tokenizeLoop slots [] rest
      else if slots = 1 then ([word], if rest = [] then none else some rest)
      else
        let (words, terminal) := tokenizeLoop (slots - 1) [] rest
        (word :: words, terminal)
    else tokenizeLoop slots (word ++ [b]) rest

def tokenizeCommand (command : Bytes) : List Bytes × Option Bytes :=
  tokenizeLoop (maxTokens - 1) [] (cstr command)

/-- `tokens[i].value`: a word, the terminal slot (`NULL` when the whole string was scanned), or
a slot that was not filled. -/
def tokenValue (tokens : List Bytes × Option Bytes) (i : ℕ) : Option Bytes :=
  if i < tokens.1.length then tokens.1[i]? else if i = tokens.1.length then tokens.2 else none

def isSpace (b : UInt8) : Bool := b = 32 || (9 ≤ b && b ≤ 13)

def isDigit (b : UInt8) : Bool := 48 ≤ b && b ≤ 57

def decimal (digits : Bytes) : ℕ := digits.foldl (fun n b => 10 * n + (b.toNat - 48)) 0

/-- `strtoul` to base 10: the sign, the magnitude and what follows the numeral, or nothing when
there is no numeral. -/
def strtoul (s : Bytes) : Option (Bool × ℕ × Bytes) :=
  let t := s.dropWhile isSpace
  let neg := t.head? = some 45
  let t := if t.head? = some 45 ∨ t.head? = some 43 then t.tail else t
  if t.takeWhile isDigit = [] then none
  else some (neg, decimal (t.takeWhile isDigit), t.dropWhile isDigit)

/-- `safe_strtoul`: whether it succeeds, and `*out`. -/
def safeStrtoul (str : Bytes) : Bool × ℕ :=
  match strtoul str with
  | none => (false, 0)
  | some (neg, m, rest) =>
    if 2 ^ 64 ≤ m then (false, 0)
    else
      let l := if neg then (2 ^ 64 - m) % 2 ^ 64 else m
      if isSpace (rest.headD 0) || rest.headD 0 = 0 then
        if 2 ^ 63 ≤ l ∧ 45 ∈ str then (false, 0) else (true, l % 2 ^ 32)
      else (false, 0)

/-- The fields of `cmd` that `ProcessHeader` writes; `key` has as many bytes as `keylen` says. -/
structure Header where
  key : Bytes
  keylen : ℕ
  flags : ℕ
  exptime : ℕ
  datalen : ℕ
  deriving DecidableEq, Repr

def keySize : ℕ := 256

/-- `aConn::ProcessHeader` for a set: its verdict, and the header it leaves over the old one. The
fields are written also when the header is refused. `safe_strtoul` asserts that its argument is not
`NULL`, a slot that was not filled has no value, and `strncpy` must stay inside the key; there is
no outcome otherwise. -/
def processHeader (old : Header) (buf : Bytes) : Option (Bool × Header) :=
  let tokens := tokenizeCommand (skipBlanks buf)
  if tokens.1.length < 2 then some (false, old)
  else do
    let key ← tokenValue tokens 1
    if keySize < key.length then none
    else
      let flags := safeStrtoul (← tokenValue tokens 2)
      let exptime := safeStrtoul (← tokenValue tokens 3)
      let datalen := safeStrtoul (← tokenValue tokens 4)
      some (flags.1 && exptime.1 && datalen.1,
        ⟨key, key.length, flags.2, exptime.2, datalen.2⟩)

example (old : Header) :
    processHeader old [115, 101, 116, 32, 107, 32, 48, 32, 55, 32, 49, 50, 0, 0] =
      some (true, ⟨[107], 1, 0, 7, 12⟩) := by rfl

end Acached.Receive
