import Acached.Receive.AnyCut
import Acached.Server.Answers

/-! # What commands lead to

A command that was handed on is dispatched as one of its own kind: a set as one
message with its key and its data, a get as one message for each of its keys.
-/
namespace Acached.Server
open CString Dispatch Receive Words HashTable

namespace Handed

variable {hash : Bytes → UInt32} {s t : Conn} {busy : Bool}

theorem message_ctype {aM : AMsg} (h : s.message hash = some aM) : aM.ctype = s.ctype := by
  obtain ⟨block, -, hmessage⟩ := Option.bind_eq_some_iff.mp h
  exact (post2KVdata_eq hmessage).1

theorem post_spec (h : s.post hash = some t) :
    t.posted = s.posted ++ [⟨s.line, s.message hash⟩] ∧ t.ctype = s.ctype := by
  refine ⟨Conn.post_posted h, ?_⟩
  unfold Conn.post at h
  repeat' split at h
  all_goals cases h
  all_goals rfl

/-- A turn hands on at most one command, and leaves its kind in the connection. -/
theorem turn_posted (h : s.turn hash busy = some t) : t.posted = s.posted ∨
    ∃ p, t.posted = s.posted ++ [p] ∧ ∀ aM, p.aM = some aM → aM.ctype = t.ctype := by
  obtain ⟨u, ret, hcall, hdisposed⟩ := Conn.turn_cases h
  have hu : u.posted = s.posted := congrArg (fun r => r.2.2.1) hcall.aside
  cases hdisposed with
  | posted _ _ _ hpost =>
    obtain ⟨hposted, hctype⟩ := post_spec hpost
    refine .inr ⟨_, hposted.trans (by rw [hu]), fun aM haM => ?_⟩
    exact (message_ctype haM).trans hctype.symm
  | quit _ _ _ hpost =>
    obtain ⟨hposted, hctype⟩ := post_spec hpost
    refine .inr ⟨⟨u.line, u.message hash⟩, ?_, fun aM haM => ?_⟩
    · rw [hu] at hposted
      cases busy
      · exact hposted
      · exact hposted
    · rw [message_ctype haM, ← hctype]
      cases busy
      · rfl
      · rfl
  | ignored => exact .inl hu
  | again => exact .inl hu
  | left =>
    obtain ⟨-, hdelivered, -⟩ := u.leave_spec ret
    have hposted : (u.leave ret).posted = u.posted := congrArg Prod.snd hdelivered
    exact .inl (hposted.trans hu)

end Handed

variable {hash : Bytes → UInt32} {p : Posted} {aM m : AMsg}

theorem content_aM (haM : p.aM = some aM) (hm : p.content.aM = some m) :
    (if aM.ctype = .gets then { aM with cmdptr := cstr aM.cmdptr } else aM) = m := by
  rw [Posted.content, haM] at hm
  exact Option.some.inj hm

/-- Only the block of a get is read as a string. -/
theorem content_set (haM : p.aM = some aM) (hm : p.content.aM = some m) (hset : m.ctype = .set) :
    aM = m := by
  have hmessage := content_aM haM hm
  split at hmessage
  · next hgets =>
    rw [← hmessage] at hset
    cases hgets.symm.trans hset
  · exact hmessage

theorem content_gets (haM : p.aM = some aM) (hm : p.content.aM = some m) (hgets : m.ctype = .gets) :
    aM.ctype = .gets ∧ cstr aM.cmdptr = m.cmdptr := by
  have hmessage := content_aM haM hm
  split at hmessage
  · next hctype => exact ⟨hctype, congrArg AMsg.cmdptr hmessage⟩
  · next hctype => exact absurd (hmessage ▸ hgets) hctype

def setMessage (hash : Bytes → UInt32) (key flags exptime datalen data : Bytes) : AMsg where
  ctype := .set
  key := key
  keylen := key.length
  hashval := hash key
  cmdptr := data ++ crlf
  flag := decimal flags
  exptime := decimal exptime
  vallen := decimal datalen

/-- The message for a set is dispatched as it is, and its value is stored under its key. -/
theorem effect_set {key flags exptime datalen data : Bytes}
    (hwf : (Command.set key flags exptime datalen data).WellFormed)
    (hp : p.content = (Command.set key flags exptime datalen data).posted hash)
    (haM : p.aM = some aM) : dispatch hash aM.ctype aM = .put aM ∧ aM.ctype = .set ∧
      ∀ t, Clients.storeValue t aM = (t.malloc key data).set (hash key) t.heap.fresh := by
  obtain ⟨-, -, -, -, hdatalen, -⟩ := hwf.1
  have hm : p.content.aM = some (setMessage hash key flags exptime datalen data) := by
    rw [hp]
    rfl
  obtain rfl := content_set haM hm rfl
  refine ⟨rfl, rfl, fun t => ?_⟩
  have hle : decimal datalen ≤ (data ++ crlf).length := by
    rw [hdatalen, List.length_append]
    exact Nat.le_add_right _ _
  have hdata : (data ++ crlf).take (decimal datalen) = data := by
    rw [hdatalen, List.take_left]
  unfold Clients.storeValue setMessage
  dsimp only
  rw [if_pos hle, hdata, List.take_length]

/-- The message for a get is split into one for each key. -/
theorem effect_get {keys : List Bytes} (hwf : (Command.get keys).WellFormed)
    (hp : p.content = (Command.get keys).posted hash) (haM : p.aM = some aM) :
    dispatch hash aM.ctype aM = .split (keys.map (keyMessage hash)) := by
  have hm : p.content.aM =
      some { AMsg.init .gets with cmdptr := (Command.get keys).text } := by
    rw [hp]
    rfl
  obtain ⟨hgets, htext⟩ := content_gets haM hm rfl
  have hword : 32 ∉ getWord ∧ getWord ≠ [] := by decide
  have hwords : words 32 (cstr aM.cmdptr) = getWord :: keys := by
    rw [htext]
    apply words_append_spaced hword.1 hword.2
    exact fun w hw => ⟨(hwf.args_words w hw).not_blank, (hwf.args_words w hw).1⟩
  have hkeys : lineKeys aM.cmdptr = keys := by
    rw [lineKeys, strtokWords_eq_words, hwords, List.tail_cons]
  rw [hgets]
  change Effect.split (post2KVdataGets hash .gets aM) = _
  rw [post2KVdataGets, hkeys]
  rfl

end Acached.Server
