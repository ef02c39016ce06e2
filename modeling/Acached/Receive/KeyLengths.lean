import Acached.Receive.SetHeader

/-! # The lengths of keys

Every copy of a key into an array of `MAX_KEY_LEN + 1` bytes: by `ProcessHeader`
into `cmd.key`, and by `MsgHdrIN_Init` into a message, with a NUL behind it.
The length is that of the word in the line.
-/
namespace Acached.Receive
open CString Dispatch Words

def maxKeyLen : ℕ := 255

/-- `cmd.key` of a connection, or the key field of a message. -/
inductive KeyField where
  | cmd | message
  deriving DecidableEq, Repr

structure KeyCopy where
  field : KeyField
  key : Bytes
  deriving DecidableEq, Repr

/-- How many bytes of the array are written: `MsgHdrIN_Init` adds a NUL. -/
def KeyCopy.written (c : KeyCopy) : ℕ :=
  match c.field with
  | .cmd => c.key.length
  | .message => c.key.length + 1

/-- The key that `ProcessHeader` copies, as soon as there are two words. -/
def headerKey (block : Bytes) : Option Bytes :=
  let tokens := tokenizeCommand (skipBlanks block)
  if tokens.1.length < 2 then none else tokenValue tokens 1

def headerMessage (hash : Bytes → UInt32) (old : Header) (block body : Bytes) : Option AMsg :=
  match processHeader old block with
  | some (true, header) =>
    post2KVdata hash .set ⟨header.key, header.flags, header.exptime, header.datalen, body⟩
  | _ => none

def keyCopies (hash : Bytes → UInt32) (old : Header) (ctype : ACmdType) (block body : Bytes) :
    List KeyCopy :=
  match ctype with
  | .set => (headerKey block).toList.map (⟨.cmd, ·⟩) ++
      (headerMessage hash old block body).toList.map (⟨.message, ·.key⟩)
  | .gets => (post2KVdataGets hash .gets { AMsg.init .gets with cmdptr := block }).map
      (⟨.message, ·.key⟩)
  | _ => []

def keyWords (ctype : ACmdType) (block : Bytes) : List Bytes :=
  match ctype with
  | .set => (words 32 (headerLine block))[1]?.toList
  | .gets => (words 32 (cstr block)).tail
  | _ => []

/-- No key that is copied is over-long, and no copy leaves its array. -/
def KeysFit (hash : Bytes → UInt32) (old : Header) (ctype : ACmdType) (block body : Bytes) : Prop :=
  ∀ c ∈ keyCopies hash old ctype block body, c.key.length ≤ maxKeyLen ∧ c.written ≤ maxKeyLen + 1

theorem headerKey_eq (block : Bytes) : headerKey block = (words 32 (headerLine block))[1]? := by
  unfold headerKey
  dsimp only
  rw [length_tokens]
  cases hword : (words 32 (headerLine block))[1]? with
  | none =>
    have hshort := List.getElem?_eq_none_iff.mp hword
    rw [if_pos (by omega)]
  | some key =>
    obtain ⟨htwo, -⟩ := List.getElem?_eq_some_iff.mp hword
    rw [if_neg (by omega), tokenValue_of_word (by decide) hword]

theorem key_of_processHeader {old header : Header} {block : Bytes}
    (h : processHeader old block = some (true, header)) : headerKey block = some header.key := by
  unfold processHeader at h
  unfold headerKey
  dsimp only at h ⊢
  split at h
  · cases h
  · next htwo =>
    rw [if_neg htwo]
    obtain ⟨key, hkey, hrest⟩ := Option.bind_eq_some_iff.mp h
    split at hrest
    · cases hrest
    · simp only [Option.bind_eq_bind, Option.bind_eq_some_iff, Option.some.injEq, Prod.mk.injEq] at hrest
      obtain ⟨flags, -, exptime, -, datalen, -, -, rfl⟩ := hrest
      exact hkey

theorem key_of_headerMessage {hash : Bytes → UInt32} {old : Header} {block body : Bytes} {aM : AMsg}
    (h : headerMessage hash old block body = some aM) : headerKey block = some aM.key := by
  unfold headerMessage at h
  split at h
  · next header hheader =>
    obtain rfl := Option.some.inj h
    exact key_of_processHeader hheader
  · cases h

/-- For every line of a set or a get, whatever its words are, the keys copied fit exactly if the key
words of the line do. -/
theorem keysFit_iff (hash : Bytes → UInt32) (old : Header) (ctype : ACmdType) (block body : Bytes) :
    KeysFit hash old ctype block body ↔ ∀ key ∈ keyWords ctype block, key.length ≤ maxKeyLen := by
  unfold KeysFit keyCopies keyWords
  cases ctype with
  | set =>
    dsimp only
    rw [← headerKey_eq]
    simp only [List.forall_mem_append, List.forall_mem_map, Option.mem_toList]
    constructor
    · exact fun h key hkey => (h.1 key hkey).1
    · intro h
      refine ⟨fun key hkey => ?_, fun aM haM => ?_⟩
      · have hle := h key hkey
        exact ⟨hle, hle.trans (Nat.le_succ _)⟩
      · have hle := h aM.key (key_of_headerMessage haM)
        exact ⟨hle, Nat.succ_le_succ hle⟩
  | gets =>
    dsimp only
    rw [← strtokWords_eq_words]
    simp only [post2KVdataGets, lineKeys, List.forall_mem_map]
    refine forall₂_congr fun key _ => ?_
    exact ⟨fun h => h.1, fun hle => ⟨hle, Nat.succ_le_succ hle⟩⟩
  | get | add | replace | append | prepend | quit | version => simp

theorem lineKeys_single {key : Bytes} (hkey : key ≠ []) (hbytes : ∀ b ∈ key, b ≠ 0 ∧ b ≠ 32) :
    lineKeys (getWord ++ 32 :: key ++ [0, 0]) = [key] := by
  have hword : ∀ b ∈ getWord, decide (b ≠ 0) = true := forall_mem_of_all rfl
  have hline : cstr (getWord ++ 32 :: key ++ [0, 0]) = getWord ++ 32 :: key := by
    unfold cstr
    rw [List.takeWhile_append_of_pos]
    · exact List.append_nil _
    · intro b hb
      rcases List.mem_append.mp hb with hb | hb
      · exact hword b hb
      · rcases List.mem_cons.mp hb with rfl | hb
        · rfl
        · exact decide_eq_true (hbytes b hb).1
  have hblank : 32 ∉ key := fun h => (hbytes 32 h).2 rfl
  rw [lineKeys, strtokWords_eq_words, hline, words_word_cons (by decide) (by decide),
    words_of_not_mem hblank hkey]
  rfl

/-- A get of one key of 256 bytes. -/
theorem keysFit_fails : ¬ ∀ (old : Header) (ctype : ACmdType) (block body : Bytes),
    setCommandType block block.length = some (some ctype) →
      KeysFit (fun _ => 0) old ctype block body := by
  intro hall
  have hkeys (n : ℕ) : lineKeys (getWord ++ 32 :: List.replicate (n + 1) 107 ++ [0, 0]) =
      [List.replicate (n + 1) 107] := by
    have hbytes : ∀ b ∈ List.replicate (n + 1) (107 : UInt8), b ≠ 0 ∧ b ≠ 32 := by
      intro b hb
      rw [List.eq_of_mem_replicate hb]
      decide
    exact lineKeys_single (List.cons_ne_nil _ _) hbytes
  have hmem : ⟨.message, List.replicate 256 107⟩ ∈ keyCopies (fun _ => 0) ⟨[], 0, 0, 0, 0⟩ .gets
      (getWord ++ 32 :: List.replicate 256 107 ++ [0, 0]) [] := by
    unfold keyCopies post2KVdataGets
    dsimp only
    rw [hkeys 255]
    exact List.mem_singleton_self _
  have hlen : 5 < (getWord ++ 32 :: List.replicate 256 107 ++ [0, 0]).length := by
    simp only [List.length_append, List.length_cons, List.length_replicate]
    omega
  have hle := (hall _ _ _ _ (setCommandType_get _ hlen) _ hmem).1
  rw [List.length_replicate] at hle
  exact absurd hle (by decide)

end Acached.Receive
