import Acached.Receive.Commands

/-! # The key of a set and the keys of a get

The arrays into which keys are copied, with what was in them before. The words
of a set line and those of a get line are found by different functions and
copied on different ways, one of them through an array that every set of the
connection uses and that is not terminated; what arrives in the messages for
the same word is the same.
-/
namespace Acached.Receive
open CString Dispatch Words

structure KeyBuf where
  bytes : Bytes
  size : bytes.length = keySize

namespace KeyBuf

def zero : KeyBuf := ⟨List.replicate keySize 0, List.length_replicate⟩

def copy (k : KeyBuf) (src : Bytes) (n : ℕ) (h : n ≤ keySize) : KeyBuf where
  bytes := strncpy k.bytes src n
  size := (length_strncpy src (k.size ▸ h)).trans k.size

def terminate (k : KeyBuf) (i : ℕ) : KeyBuf := ⟨k.bytes.set i 0, List.length_set.trans k.size⟩

@[ext] theorem ext {k k' : KeyBuf} (h : k.bytes = k'.bytes) : k = k' := by
  cases k
  cases k'
  cases h
  rfl

end KeyBuf

structure Cmd where
  key : KeyBuf
  keylen : ℕ
  flags : ℕ
  exptime : ℕ
  datalen : ℕ

def Cmd.header (cmd : Cmd) : Header where
  key := cmd.key.bytes.take cmd.keylen
  keylen := cmd.keylen
  flags := cmd.flags
  exptime := cmd.exptime
  datalen := cmd.datalen

def Cmd.processHeader (cmd : Cmd) (buf : Bytes) : Option (Bool × Cmd) :=
  let tokens := tokenizeCommand (skipBlanks buf)
  if tokens.1.length < 2 then some (false, cmd)
  else do
    let value ← tokenValue tokens 1
    if h : value.length ≤ keySize then
      let flags := safeStrtoul (← tokenValue tokens 2)
      let exptime := safeStrtoul (← tokenValue tokens 3)
      let datalen := safeStrtoul (← tokenValue tokens 4)
      some (flags.1 && exptime.1 && datalen.1,
        ⟨cmd.key.copy value value.length h, value.length, flags.2, exptime.2, datalen.2⟩)
    else none

structure AMsgHdrIN where
  key : KeyBuf
  keylen : ℕ
  hashval : UInt32

namespace AMsgHdrIN

def init : AMsgHdrIN := ⟨.zero, 0, 0⟩

/-- `aMsg::MsgHdrIN_Init`. A key that does not leave room for its terminator is written past the
array. The hash is one of the bytes in the array and the length. -/
def msgHdrIN_Init (hash : Bytes → UInt32) (m : AMsgHdrIN) (key : Bytes) (keylen : ℕ)
    (hashval : UInt32) : Option AMsgHdrIN :=
  if h : keylen < keySize then
    let buf := (m.key.copy key keylen h.le).terminate keylen
    some ⟨buf, keylen, if hashval = 0 then hash (buf.bytes.take keylen) else m.hashval⟩
  else none

def word (m : AMsgHdrIN) : Bytes := m.key.bytes.take m.keylen

def post2KVdataSet (hash : Bytes → UInt32) (cmd : Cmd) : Option AMsgHdrIN :=
  init.msgHdrIN_Init hash cmd.key.bytes cmd.keylen 0

def post2KVdataGets (hash : Bytes → UInt32) (cmdptr : Bytes) : Option (List AMsgHdrIN) :=
  (lineKeys cmdptr).mapM fun ptr => init.msgHdrIN_Init hash ptr (cstr ptr).length 0

def ofWord (hash : Bytes → UInt32) (w : Bytes) (h : w.length ≤ keySize) : AMsgHdrIN where
  key := ⟨w ++ List.replicate (keySize - w.length) 0, by
    rw [List.length_append, List.length_replicate, Nat.add_sub_cancel' h]⟩
  keylen := w.length
  hashval := hash w

theorem word_ofWord (hash : Bytes → UInt32) (w : Bytes) (h : w.length ≤ keySize) :
    (ofWord hash w h).word = w := List.take_left

/-- Whatever is behind the word where it is copied from, the message has the word and zeros. -/
theorem msgHdrIN_Init_word (hash : Bytes → UInt32) {w src : Bytes} (hw : NulFree w)
    (hlen : w.length < keySize) (hsrc : w <+: src) :
    init.msgHdrIN_Init hash src w.length 0 = some (ofWord hash w hlen.le) := by
  have hbytes : ((init.key.copy src w.length hlen.le).terminate w.length).bytes =
      w ++ List.replicate (keySize - w.length) 0 := by
    change (strncpy (List.replicate keySize 0) src w.length).set w.length 0 = _
    rw [strncpy_eq _ hw hsrc, List.drop_replicate, List.set_append_right _ _ (Nat.le_refl _),
      Nat.sub_self]
    obtain ⟨m, hm⟩ := Nat.exists_eq_add_of_lt (Nat.sub_pos_of_lt hlen)
    rw [hm]
    rfl
  have hkey : (init.key.copy src w.length hlen.le).terminate w.length =
      (ofWord hash w hlen.le).key := KeyBuf.ext hbytes
  unfold msgHdrIN_Init
  rw [dif_pos hlen]
  dsimp only
  rw [hbytes, List.take_left, if_pos rfl, hkey]
  rfl

end AMsgHdrIN

/-! ## The line in its block -/

/-- The block of a line that `IsBufferComplete` has found the end of: the zeros are where its `\r\n`
was. -/
def lineBlock (text behind : Bytes) : Bytes := text ++ [0, 0] ++ behind

theorem block_of_isBufferComplete {text behind block : Bytes} {len : ℕ}
    (h : isBufferComplete (text ++ crlf ++ behind) len = some (text.length + 2, block)) :
    block = lineBlock text behind := by
  unfold isBufferComplete at h
  split at h
  · simp only [Option.some.injEq, Prod.mk.injEq] at h
    omega
  · obtain ⟨n, -, hblock⟩ := Option.map_eq_some_iff.mp h
    simp only [Prod.mk.injEq] at hblock
    obtain ⟨rfl, rfl⟩ := hblock
    have hline : (text ++ crlf).length = text.length + 2 := List.length_append
    rw [Nat.add_sub_cancel, ← hline, List.drop_left, List.append_assoc text crlf, List.take_left]
    rfl

theorem cstr_lineBlock {text : Bytes} (h : NulFree text) (behind : Bytes) :
    cstr (lineBlock text behind) = text := by
  unfold cstr lineBlock
  rw [List.append_assoc, List.takeWhile_append_of_pos fun b hb => decide_eq_true (h b hb)]
  exact List.append_nil text

/-- The loop in front of `ProcessHeader` stops at the first word, if there is one. -/
theorem words_headerLine {text : Bytes} (h : NulFree text) (behind : Bytes)
    (hwords : words 32 text ≠ []) : words 32 (headerLine (lineBlock text behind)) = words 32 text := by
  induction text with
  | nil => exact absurd (words_nil 32) hwords
  | cons b text ih =>
    by_cases hb : b = 32
    · subst hb
      rw [words_cons_self] at hwords ⊢
      exact ih (fun c hc => h c (List.mem_cons_of_mem 32 hc)) hwords
    · have hzero : b ≠ 0 := h b List.mem_cons_self
      have hskip : skipBlanks (lineBlock (b :: text) behind) = lineBlock (b :: text) behind :=
        List.dropWhile_cons_of_neg (by simp [hb, hzero])
      rw [headerLine, hskip, cstr_lineBlock h]

theorem lineKeys_lineBlock {text : Bytes} (h : NulFree text) (behind : Bytes) :
    lineKeys (lineBlock text behind) = (words 32 text).tail := by
  rw [lineKeys, strtokWords_eq_words, cstr_lineBlock h]

theorem nulFree_of_mem_words {text w : Bytes} (h : NulFree text) (hw : w ∈ words 32 text) :
    NulFree w := fun b hb => h b (mem_of_mem_words hw b hb)

/-! ## The two ways of a key -/

/-- A line whose second word fits puts that word in front in `cmd.key`, over whatever was there. -/
theorem Cmd.key_of_processHeader {cmd cmd' : Cmd} {ok : Bool} {buf w : Bytes}
    (hw : (words 32 (headerLine buf))[1]? = some w) (hnul : NulFree w)
    (h : cmd.processHeader buf = some (ok, cmd')) :
    cmd'.keylen = w.length ∧ w <+: cmd'.key.bytes := by
  obtain ⟨htwo, -⟩ := List.getElem?_eq_some_iff.mp hw
  unfold Cmd.processHeader at h
  dsimp only at h
  rw [length_tokens, if_neg (by omega), tokenValue_of_word (by decide) hw, Option.bind_eq_bind,
    Option.bind_some] at h
  split at h
  · simp only [Option.bind_eq_some_iff, Option.some.injEq, Prod.mk.injEq] at h
    obtain ⟨flags, -, exptime, -, datalen, -, -, rfl⟩ := h
    refine ⟨rfl, ?_⟩
    change w <+: strncpy cmd.key.bytes w w.length
    rw [strncpy_eq _ hnul List.prefix_rfl]
    exact List.prefix_append w _
  · cases h

theorem Cmd.processHeader_returns (cmd : Cmd) {buf w : Bytes} (hw : (words 32 (headerLine buf))[1]? = some w)
    (hlen : w.length ≤ keySize) (hfive : 5 ≤ (words 32 (headerLine buf)).length) :
    ∃ ok cmd', cmd.processHeader buf = some (ok, cmd') := by
  have hvalue (i : ℕ) (hi : i < 5) :
      ∃ value, tokenValue (tokenizeCommand (skipBlanks buf)) i = some value :=
    ⟨_, tokenValue_of_word (by omega) (List.getElem?_eq_getElem (by omega))⟩
  obtain ⟨flags, hflags⟩ := hvalue 2 (by decide)
  obtain ⟨exptime, hexptime⟩ := hvalue 3 (by decide)
  obtain ⟨datalen, hdatalen⟩ := hvalue 4 (by decide)
  unfold processHeader
  dsimp only
  rw [length_tokens, if_neg (by omega), tokenValue_of_word (by decide) hw, Option.bind_eq_bind,
    Option.bind_some, dif_pos hlen, hflags, hexptime, hdatalen]
  exact ⟨_, _, rfl⟩

/-- What `cmd` says afterwards is the header that is set. -/
theorem Cmd.processHeader_header (cmd : Cmd) (buf : Bytes) :
    (cmd.processHeader buf).map (fun r => (r.1, r.2.header)) =
      Receive.processHeader cmd.header buf := by
  unfold processHeader Receive.processHeader
  dsimp only
  by_cases htwo : (tokenizeCommand (skipBlanks buf)).1.length < 2
  · rw [if_pos htwo, if_pos htwo]
    rfl
  · rw [if_neg htwo, if_neg htwo]
    have hone : tokenValue (tokenizeCommand (skipBlanks buf)) 1 =
        ((words 32 (headerLine buf)).take 7)[1]? := by
      rw [tokenValue, if_pos (by omega), tokens_fst]
    cases hvalue : tokenValue (tokenizeCommand (skipBlanks buf)) 1 with
    | none => rfl
    | some value =>
      have hmem : value ∈ words 32 (headerLine buf) :=
        List.mem_of_mem_take (List.mem_of_getElem? (hone.symm.trans hvalue))
      have hnul := nulFree_of_mem_words (nulFree_cstr _) hmem
      have hkey : (strncpy cmd.key.bytes value value.length).take value.length = value := by
        rw [strncpy_eq _ hnul List.prefix_rfl, List.take_left]
      rw [Option.bind_eq_bind, Option.bind_some, Option.bind_eq_bind, Option.bind_some]
      by_cases hlen : value.length ≤ keySize
      · rw [dif_pos hlen, if_neg (Nat.not_lt.mpr hlen)]
        cases tokenValue (tokenizeCommand (skipBlanks buf)) 2 with
        | none => rfl
        | some flags => cases tokenValue (tokenizeCommand (skipBlanks buf)) 3 with
          | none => rfl
          | some exptime => cases tokenValue (tokenizeCommand (skipBlanks buf)) 4 with
            | none => rfl
            | some datalen =>
              simp only [Option.bind_some, Option.map_some, header, KeyBuf.copy, hkey]
      · rw [dif_neg hlen, if_pos (Nat.lt_of_not_le hlen)]
        rfl

theorem AMsgHdrIN.post2KVdataGets_words (hash : Bytes → UInt32) {keys : List Bytes}
    (h : ∀ key ∈ keys, NulFree key ∧ key.length < keySize) :
    ∃ msgs, (keys.mapM fun ptr => init.msgHdrIN_Init hash ptr (cstr ptr).length 0) = some msgs ∧
      List.Forall₂ (fun key m => ∃ hkey, m = ofWord hash key hkey) keys msgs := by
  induction keys with
  | nil => exact ⟨[], rfl, .nil⟩
  | cons key keys ih =>
    rw [List.forall_mem_cons] at h
    obtain ⟨⟨hnul, hlen⟩, hrest⟩ := h
    obtain ⟨msgs, hmsgs, hall⟩ := ih hrest
    have hfirst := msgHdrIN_Init_word hash hnul hlen List.prefix_rfl
    refine ⟨_ :: msgs, ?_, .cons ⟨hlen.le, rfl⟩ hall⟩
    rw [List.mapM_cons, cstr_of_nulFree hnul, hfirst, hmsgs]
    rfl

theorem AMsgHdrIN.map_word {hash : Bytes → UInt32} {keys : List Bytes} {msgs : List AMsgHdrIN}
    (h : List.Forall₂ (fun key m => ∃ hkey, m = ofWord hash key hkey) keys msgs) :
    msgs.map word = keys := by
  induction h with
  | nil => rfl
  | cons hfirst _ ih =>
    obtain ⟨hkey, rfl⟩ := hfirst
    rw [List.map_cons, ih, word_ofWord]

/-- What the headers say are the messages that a get is split into. -/
theorem AMsgHdrIN.map_fields {hash : Bytes → UInt32} {aM : AMsg} {msgs : List AMsgHdrIN}
    (h : List.Forall₂ (fun key m => ∃ hkey, m = ofWord hash key hkey) (lineKeys aM.cmdptr) msgs) :
    msgs.map (fun m => (m.word, m.keylen, m.hashval)) =
      (Dispatch.post2KVdataGets hash .gets aM).map fun m => (m.key, m.keylen, m.hashval) := by
  rw [Dispatch.post2KVdataGets, List.map_map]
  generalize lineKeys aM.cmdptr = keys at h
  induction h with
  | nil => rfl
  | cons hfirst _ ih =>
    obtain ⟨hkey, rfl⟩ := hfirst
    rw [List.map_cons, ih, word_ofWord]
    rfl

theorem AMsgHdrIN.message_of_key {hash : Bytes → UInt32} {keys : List Bytes} {msgs : List AMsgHdrIN}
    (h : List.Forall₂ (fun key m => ∃ hkey, m = ofWord hash key hkey) keys msgs) {w : Bytes}
    (hw : w.length ≤ keySize) {i : ℕ} (hi : keys[i]? = some w) :
    msgs[i]? = some (ofWord hash w hw) := by
  induction h generalizing i with
  | nil => cases hi
  | cons hfirst _ ih =>
    cases i with
    | zero =>
      obtain ⟨hkey, rfl⟩ := hfirst
      obtain rfl := Option.some.inj hi
      rfl
    | succ i => exact ih hi

/-- For every word and every two lines, whatever `cmd.key` holds from earlier commands, a get posts
one message for each of its words after the first, in order, and the message for the word is the one
that the set line leads to. -/
theorem sameKey (hash : Bytes → UInt32) (cmd : Cmd) (w setText setBehind getText getBehind : Bytes)
    (hw : Key w) (hset : NulFree setText) (hget : NulFree getText)
    (hlong : ∀ v ∈ words 32 getText, v.length ≤ 255)
    (hsecond : (words 32 setText)[1]? = some w) :
    ∃ msgs, AMsgHdrIN.post2KVdataGets hash (lineBlock getText getBehind) = some msgs ∧
      msgs.map AMsgHdrIN.word = (words 32 getText).tail ∧
      (5 ≤ (words 32 setText).length → ∃ ok cmd',
        cmd.processHeader (lineBlock setText setBehind) = some (ok, cmd')) ∧
      ∀ ok cmd', cmd.processHeader (lineBlock setText setBehind) = some (ok, cmd') →
        ∃ m, AMsgHdrIN.post2KVdataSet hash cmd' = some m ∧
          ∀ i : ℕ, (words 32 getText).tail[i]? = some w → msgs[i]? = some m := by
  have hsize : w.length < keySize := Nat.lt_succ_of_le hw.2
  have hnul : NulFree w := fun b hb => (hw.1.2 b hb).1
  have hkeys : ∀ key ∈ (words 32 getText).tail, NulFree key ∧ key.length < keySize := by
    intro key hkey
    have hmem := List.mem_of_mem_tail hkey
    exact ⟨nulFree_of_mem_words hget hmem, Nat.lt_succ_of_le (hlong key hmem)⟩
  have hline : words 32 (headerLine (lineBlock setText setBehind)) = words 32 setText := by
    apply words_headerLine hset
    rintro hnil
    rw [hnil] at hsecond
    cases hsecond
  rw [← hline] at hsecond
  obtain ⟨msgs, hmsgs, hall⟩ := AMsgHdrIN.post2KVdataGets_words hash hkeys
  refine ⟨msgs, ?_, ?_, fun hfive => ?_, fun ok cmd' hheader => ?_⟩
  · rw [AMsgHdrIN.post2KVdataGets, lineKeys_lineBlock hget, hmsgs]
  · exact AMsgHdrIN.map_word hall
  · exact cmd.processHeader_returns hsecond hsize.le (hline ▸ hfive)
  · obtain ⟨hkeylen, hkey⟩ := Cmd.key_of_processHeader hsecond hnul hheader
    refine ⟨AMsgHdrIN.ofWord hash w hsize.le, ?_, fun i hi => ?_⟩
    · rw [AMsgHdrIN.post2KVdataSet, hkeylen, AMsgHdrIN.msgHdrIN_Init_word hash hnul hsize hkey]
    · exact AMsgHdrIN.message_of_key hall hsize.le hi

def longKeyBefore : Cmd := ⟨⟨List.replicate keySize 120, List.length_replicate⟩, 200, 0, 0, 0⟩

def setKeyLine : Bytes := [115, 101, 116, 32, 107, 32, 48, 32, 48, 32, 53]

def getKeysLine : Bytes := [103, 101, 116, 32, 97, 32, 107]

theorem sameKey_second :
    (Key [107] ∧ NulFree setKeyLine ∧ NulFree getKeysLine ∧
      (∀ v ∈ words 32 getKeysLine, v.length ≤ 255) ∧ (words 32 setKeyLine)[1]? = some [107]) ∧
    ∃ msgs, AMsgHdrIN.post2KVdataGets (fun _ => 7) (lineBlock getKeysLine []) = some msgs ∧
      msgs.map AMsgHdrIN.word = (words 32 getKeysLine).tail ∧
      (5 ≤ (words 32 setKeyLine).length → ∃ ok cmd',
        longKeyBefore.processHeader (lineBlock setKeyLine []) = some (ok, cmd')) ∧
      ∀ ok cmd', longKeyBefore.processHeader (lineBlock setKeyLine []) = some (ok, cmd') →
        ∃ m, AMsgHdrIN.post2KVdataSet (fun _ => 7) cmd' = some m ∧
          ∀ i : ℕ, (words 32 getKeysLine).tail[i]? = some [107] → msgs[i]? = some m := by
  have hw : Key [107] := by decide
  have hset : NulFree setKeyLine := forall_mem_of_all rfl
  have hget : NulFree getKeysLine := forall_mem_of_all rfl
  have hlong : ∀ v ∈ words 32 getKeysLine, v.length ≤ 255 := by decide
  have hsecond : (words 32 setKeyLine)[1]? = some [107] := by decide
  exact ⟨⟨hw, hset, hget, hlong, hsecond⟩, sameKey _ _ _ _ _ _ _ hw hset hget hlong hsecond⟩

end Acached.Receive
