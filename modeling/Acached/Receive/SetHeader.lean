import Acached.Receive.Connection
import Acached.Foundation.Words

/-! # The header of a set

`aConn::ProcessHeader` against the grammar of a set line: five words and more,
of which the third, the fourth and the fifth are numbers. The tokens are the
first words of the line, seven at most, with a terminal slot behind them.
-/
namespace Acached.Receive
open CString Dispatch Words

/-! ## The tokens of a line -/

/-- The words found from `s` on, when `word` is the part already passed of the one that is being read. -/
theorem tokenizeLoop_fst (slots : ℕ) (word s : Bytes) (hslots : 0 < slots) (hword : 32 ∉ word) :
    (tokenizeLoop slots word s).1 = (words 32 (word ++ s)).take slots := by
  induction s generalizing slots word with
  | nil =>
    rw [tokenizeLoop, List.append_nil]
    by_cases hnil : word = []
    · simp [hnil]
    · rw [if_neg hnil, words_of_not_mem hword hnil, List.take_of_length_le]
      exact hslots
  | cons b rest ih =>
    rw [tokenizeLoop]
    by_cases hb : b = 32
    · subst hb
      rw [if_pos rfl]
      by_cases hnil : word = []
      · subst hnil
        rw [if_pos rfl, ih slots [] hslots List.not_mem_nil, List.nil_append, List.nil_append,
          words_cons_self]
      · rw [if_neg hnil, words_word_cons hword hnil]
        by_cases hone : slots = 1
        · rw [if_pos hone, hone]
          rfl
        · obtain ⟨n, rfl⟩ : ∃ n, slots = n + 1 := ⟨slots - 1, by omega⟩
          rw [if_neg hone, List.take_succ_cons, Nat.add_sub_cancel]
          dsimp only
          rw [ih n [] (by omega) List.not_mem_nil, List.nil_append]
    · have hmem : 32 ∉ word ++ [b] := by
        simp [hword, Ne.symm hb]
      rw [if_neg hb, ih slots (word ++ [b]) hslots hmem, List.append_assoc]
      rfl

/-- The line that the header is parsed from: the string behind the blanks in front. -/
def headerLine (buf : Bytes) : Bytes := cstr (skipBlanks buf)

theorem tokens_fst (buf : Bytes) :
    (tokenizeCommand (skipBlanks buf)).1 = (words 32 (headerLine buf)).take 7 :=
  tokenizeLoop_fst 7 [] _ (by decide) List.not_mem_nil

theorem length_tokens (buf : Bytes) : (tokenizeCommand (skipBlanks buf)).1.length =
    min 7 (words 32 (headerLine buf)).length := by
  rw [tokens_fst, List.length_take]

theorem tokenValue_of_word {buf w : Bytes} {i : ℕ} (hi : i < 7)
    (hw : (words 32 (headerLine buf))[i]? = some w) :
    tokenValue (tokenizeCommand (skipBlanks buf)) i = some w := by
  obtain ⟨hlt, -⟩ := List.getElem?_eq_some_iff.mp hw
  have hlen : i < (tokenizeCommand (skipBlanks buf)).1.length := by
    rw [length_tokens]
    omega
  rw [tokenValue, if_pos hlen, tokens_fst, List.getElem?_take_of_lt hi, hw]

/-- The slots that `ProcessHeader` reads behind its one test of the number of tokens. -/
def slotsRead (tokens : List Bytes × Option Bytes) : List ℕ :=
  if tokens.1.length < 2 then [] else [1, 2, 3, 4]

theorem processHeader_of_words (old : Header) {buf word key flags exptime datalen : Bytes}
    {rest : List Bytes}
    (h : words 32 (headerLine buf) = word :: key :: flags :: exptime :: datalen :: rest) :
    processHeader old buf = if keySize < key.length then none else
      some ((safeStrtoul flags).1 && (safeStrtoul exptime).1 && (safeStrtoul datalen).1,
        ⟨key, key.length, (safeStrtoul flags).2, (safeStrtoul exptime).2,
          (safeStrtoul datalen).2⟩) := by
  have hlen : 5 ≤ (tokenizeCommand (skipBlanks buf)).1.length := by
    rw [length_tokens, h]
    simp only [List.length_cons]
    omega
  have hvalue (i : ℕ) (v : Bytes) (hi : i < 7)
      (hv : (word :: key :: flags :: exptime :: datalen :: rest)[i]? = some v) :
      tokenValue (tokenizeCommand (skipBlanks buf)) i = some v :=
    tokenValue_of_word hi (h.symm ▸ hv)
  unfold processHeader
  dsimp only
  rw [if_neg (by omega), hvalue 1 key (by decide) rfl, hvalue 2 flags (by decide) rfl,
    hvalue 3 exptime (by decide) rfl, hvalue 4 datalen (by decide) rfl]
  simp only [Option.bind_eq_bind, Option.bind_some]

/-! ## The grammar -/

def headerOf : List Bytes → Option Header
  | _ :: key :: flags :: exptime :: datalen :: _ =>
    if (safeStrtoul flags).1 && (safeStrtoul exptime).1 && (safeStrtoul datalen).1 then
      some ⟨key, key.length, (safeStrtoul flags).2, (safeStrtoul exptime).2, (safeStrtoul datalen).2⟩
    else none
  | _ => none

namespace Conn

/-- `aConn::ProcessHeader` for a set, with the fields it sets and its return value. -/
def setProcessHeader (s : Conn) (buf : Bytes) : Option (Conn × Bool) :=
  (processHeader s.header buf).map fun (ok, header) =>
    if ok then ({ s with header := header }, true)
    else ({ s with header := header }.setErrorApp .cmdInvalidHdr, false)

/-- The end of `cmd_wait` for a set is this function, and what comes behind it. -/
theorem lineComplete_set (s : Conn) (buf : Bytes) (n : ℕ) (block : Bytes) :
    s.lineComplete .set buf n block =
      (((s.headed .set buf n block).setState .bodyWait).setProcessHeader block).map
        fun (t, ok) => if ok then (t.leftOver n, (n : ℤ)) else (t, -1) := by
  have hheader : ((s.headed .set buf n block).setState .bodyWait).header = s.header := rfl
  unfold lineComplete setProcessHeader
  rw [if_pos rfl, hheader]
  cases processHeader s.header block with
  | none => rfl
  | some r =>
    obtain ⟨ok, header⟩ := r
    cases ok with
    | false => rfl
    | true => rfl

/-- Only slots with a word in them are read, and the line is accepted, with the header that it says,
exactly if it says one. -/
structure ParsesGrammar (s : Conn) (buf : Bytes) : Prop where
  slots : ∀ i ∈ slotsRead (tokenizeCommand (skipBlanks buf)),
    i < (tokenizeCommand (skipBlanks buf)).1.length
  result : ∃ t ok, s.setProcessHeader buf = some (t, ok) ∧
    match headerOf (words 32 (headerLine buf)) with
    | some header => ok = true ∧ t.header = header
    | none => ok = false ∧ t.aerr = some (.app .cmdInvalidHdr)

theorem setProcessHeader_of_short (s : Conn) {buf : Bytes}
    (h : (words 32 (headerLine buf)).length < 2) :
    slotsRead (tokenizeCommand (skipBlanks buf)) = [] ∧
      s.setProcessHeader buf = some (s.setErrorApp .cmdInvalidHdr, false) := by
  have htokens : (tokenizeCommand (skipBlanks buf)).1.length < 2 := by
    rw [length_tokens]
    omega
  constructor
  · rw [slotsRead, if_pos htokens]
  · unfold setProcessHeader processHeader
    dsimp only
    rw [if_pos htokens]
    rfl

theorem setProcessHeader_of_words (s : Conn) {buf word key flags exptime datalen : Bytes}
    {rest : List Bytes}
    (h : words 32 (headerLine buf) = word :: key :: flags :: exptime :: datalen :: rest) :
    s.setProcessHeader buf = if keySize < key.length then none else
      match headerOf (words 32 (headerLine buf)) with
      | some header => some ({ s with header := header }, true)
      | none => some ({ s with header := ⟨key, key.length, (safeStrtoul flags).2,
          (safeStrtoul exptime).2, (safeStrtoul datalen).2⟩ }.setErrorApp .cmdInvalidHdr, false) := by
  unfold setProcessHeader
  rw [processHeader_of_words s.header h, h]
  by_cases hkey : keySize < key.length
  · rw [if_pos hkey, if_pos hkey, Option.map_none]
  · rw [if_neg hkey, if_neg hkey, Option.map_some, headerOf]
    cases (safeStrtoul flags).1 && (safeStrtoul exptime).1 && (safeStrtoul datalen).1 with
    | false => rfl
    | true => rfl

/-- For every line and every connection, the header is parsed as the grammar says exactly if the line
has at most one word, or at least five and a second one that fits into `cmd.key`. -/
theorem parsesGrammar_iff (s : Conn) (buf : Bytes) :
    s.ParsesGrammar buf ↔ (words 32 (headerLine buf)).length < 2 ∨
      5 ≤ (words 32 (headerLine buf)).length ∧
        ∀ key ∈ (words 32 (headerLine buf))[1]?, key.length ≤ keySize := by
  by_cases hshort : (words 32 (headerLine buf)).length < 2
  · obtain ⟨hslots, hcall⟩ := s.setProcessHeader_of_short hshort
    refine iff_of_true ⟨?_, _, false, hcall, ?_⟩ (.inl hshort)
    · rw [hslots]
      exact fun i hi => absurd hi List.not_mem_nil
    · have hnone : headerOf (words 32 (headerLine buf)) = none := by
        match words 32 (headerLine buf), hshort with
        | [], _ => rfl
        | [_], _ => rfl
      rw [hnone]
      exact ⟨rfl, rfl⟩
  rw [or_iff_right hshort]
  have htwo : ¬ (tokenizeCommand (skipBlanks buf)).1.length < 2 := by
    rw [length_tokens]
    omega
  by_cases hfive : 5 ≤ (words 32 (headerLine buf)).length
  · obtain ⟨word, key, flags, exptime, datalen, rest, hwords⟩ : ∃ word key flags exptime datalen rest,
        words 32 (headerLine buf) = word :: key :: flags :: exptime :: datalen :: rest := by
      match words 32 (headerLine buf), hfive with
      | word :: key :: flags :: exptime :: datalen :: rest, _ =>
        exact ⟨word, key, flags, exptime, datalen, rest, rfl⟩
    have hcall := s.setProcessHeader_of_words hwords
    rw [and_iff_right hfive, hwords]
    simp only [List.getElem?_cons_succ, List.getElem?_cons_zero, Option.mem_some_iff, forall_eq']
    constructor
    · rintro ⟨-, t, ok, hresult, -⟩
      by_contra hkey
      rw [hcall, if_pos (Nat.lt_of_not_le hkey)] at hresult
      cases hresult
    · intro hkey
      rw [if_neg (Nat.not_lt.mpr hkey)] at hcall
      refine ⟨fun i hi => ?_, ?_⟩
      · rw [slotsRead, if_neg htwo] at hi
        rw [tokens_fst, hwords]
        simp only [List.mem_cons, List.not_mem_nil, or_false] at hi
        simp only [List.take_succ_cons, List.length_cons]
        omega
      · rw [hcall]
        cases headerOf (words 32 (headerLine buf)) with
        | some header => exact ⟨_, true, rfl, rfl, rfl⟩
        | none => exact ⟨_, false, rfl, rfl, rfl⟩
  · refine iff_of_false (fun hparses => ?_) fun h => hfive h.1
    have hslot := hparses.slots 4 (by rw [slotsRead, if_neg htwo]; decide)
    rw [length_tokens] at hslot
    omega

/-- `set k 0`: the slots behind the three words are the `NULL` of the terminal one and unset. -/
theorem parsesGrammar_fails : ¬ ∀ (s : Conn) (buf : Bytes), setCommandType buf buf.length =
    some (some .set) → s.ParsesGrammar buf := by
  intro hall
  have hslot := (hall .zeroed [115, 101, 116, 32, 107, 32, 48, 0, 0] rfl).slots 3 (by decide)
  exact absurd hslot (by decide)

end Conn
end Acached.Receive
