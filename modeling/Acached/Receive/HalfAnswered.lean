import Acached.Receive.Calls

/-! # Parsing while a get is being answered

`commRead_cb` looks at the counters of a connection before its loop. While some
but not all keys of a get are answered it reads up to 880 bytes that the parser
never sees. Two callbacks that differ only in the counters are compared by all
that is handed to `ProcessDataRecv` and posted at some point of their loops.
-/
namespace Acached.Receive
open CString Dispatch

namespace Conn

/-- What is delivered at some point of the loop; `none` stands for a turn without a defined
outcome. -/
def Reached (hash : Bytes → UInt32) (s : Conn) (v : Option (Bytes × List Posted)) : Prop :=
  ∃ busys, (s.loop hash busys).map delivered = v

def SameDeliveries (hash : Bytes → UInt32) (s t : Conn) : Prop :=
  ∀ v, s.Reached hash v ↔ t.Reached hash v

/-- A callback with these counters drops no byte of the socket, in front of its loop or in it. -/
def DropsNothing (hash : Bytes → UInt32) (s : Conn) (reqCount replyCount : ℕ) : Prop :=
  ∀ busys t, (s.enter reqCount replyCount).loop hash busys = some t → t.dropped = s.dropped

theorem loop_dropped {hash : Bytes → UInt32} {busys : List Bool} {s t : Conn}
    (h : s.loop hash busys = some t) : t.dropped = s.dropped := by
  induction busys generalizing s with
  | nil =>
    obtain rfl := Option.some.inj h
    rfl
  | cons busy busys ih =>
    unfold loop at h
    split at h
    · obtain ⟨u, hu, hrest⟩ := Option.bind_eq_some_iff.mp h
      exact (ih hrest).trans (turn_dropped hu)
    · obtain rfl := Option.some.inj h
      rfl

theorem dropsNothing_iff (hash : Bytes → UInt32) (s : Conn) (reqCount replyCount : ℕ) :
    s.DropsNothing hash reqCount replyCount ↔
      (s.enter reqCount replyCount).dropped = s.dropped := by
  constructor
  · intro h
    exact h [] _ rfl
  · intro h busys t ht
    exact (loop_dropped ht).trans h

/-! ## The last error -/

/-- A connection without its last error, which is only looked at behind the loop. -/
def forget (s : Conn) : Conn := { s with aerr := none }

def forgetErr (r : Option (Conn × ℤ)) : Option (Conn × ℤ) := r.map fun r => (r.1.forget, r.2)

@[simp] theorem forget_cur (s : Conn) : s.forget.cur = s.cur := rfl

@[simp] theorem forget_header (s : Conn) : s.forget.header = s.header := rfl

@[simp] theorem forget_sock (s : Conn) : s.forget.sock = s.sock := rfl

@[simp] theorem forget_iovIndex (s : Conn) : s.forget.iovIndex = s.iovIndex := rfl

@[simp] theorem forget_state (s : Conn) : s.forget.state = s.state := rfl

@[simp] theorem forget_dataPendingRead (s : Conn) :
    s.forget.dataPendingRead = s.dataPendingRead := rfl

@[simp] theorem forget_forget (s : Conn) : s.forget.forget = s.forget := rfl

theorem modify_forget (s : Conn) (i : ℕ) (f : IovSlot → IovSlot) :
    s.forget.modify i f = (s.modify i f).forget := rfl

theorem setState_forget (s : Conn) (state : AConnState) :
    s.forget.setState state = (s.setState state).forget := rfl

theorem setPending_forget (s : Conn) (b : Bool) :
    s.forget.setPending b = (s.setPending b).forget := rfl

theorem leftOver_forget (s : Conn) (n : ℕ) : s.forget.leftOver n = (s.leftOver n).forget := by
  unfold leftOver
  rw [forget_cur, forget_iovIndex, modify_forget, setPending_forget]
  split <;> rfl

theorem bodyEnd_forget (s : Conn) : s.forget.bodyEnd = (s.bodyEnd.1.forget, s.bodyEnd.2) := by
  unfold bodyEnd
  rw [forget_cur, forget_iovIndex, modify_forget, modify_forget, setState_forget, setState_forget]
  split <;> dsimp only

theorem lineComplete_forget (s : Conn) (ctype : ACmdType) (buf : Bytes) (n : ℕ) (block : Bytes) :
    forgetErr (s.forget.lineComplete ctype buf n block) =
      forgetErr (s.lineComplete ctype buf n block) := by
  have hleft (t : Conn) : forgetErr (some (t.forget.leftOver n, (n : ℤ))) =
      forgetErr (some (t.leftOver n, (n : ℤ))) := by
    rw [leftOver_forget]
    rfl
  unfold lineComplete
  rw [forget_header]
  split
  · split
    · rfl
    · rfl
    · next header _ => exact hleft ((s.headed ctype buf n block).awaitBody header)
  · exact hleft ((s.headed ctype buf n block).setState .cmdDone)

theorem cmdWait_forget (s : Conn) : forgetErr s.forget.cmdWait = forgetErr s.cmdWait := by
  unfold cmdWait
  rw [forget_sock]
  split
  · rfl
  · rfl
  · next b buf sock hread =>
    change forgetErr ((s.lineStored sock (b :: buf)).forget.lineRead (b :: buf)) =
      forgetErr ((s.lineStored sock (b :: buf)).lineRead (b :: buf))
    unfold lineRead
    rw [forget_cur]
    split
    · rfl
    · rfl
    · split
      · rfl
      · rfl
      · exact lineComplete_forget ..

theorem bodyPrepare_forget (s : Conn) :
    s.forget.bodyPrepare = s.bodyPrepare.map fun r => (r.1.forget, r.2) := by
  unfold bodyPrepare bodyFirst
  rw [forget_cur, forget_dataPendingRead, forget_iovIndex]
  have hpending : s.forget.pending = s.pending := rfl
  have hsize : s.forget.bodySize = s.bodySize := rfl
  rw [hpending, hsize]
  split
  · split <;> rfl
  split
  · rfl
  split
  · rfl
  split
  · rfl
  split
  · rfl
  · rfl

theorem bodyRead_forget (s : Conn) (pos len : ℕ) :
    forgetErr (s.forget.bodyRead pos len) = forgetErr (s.bodyRead pos len) := by
  have hend (t : Conn) : forgetErr (some t.forget.bodyEnd) = forgetErr (some t.bodyEnd) := by
    rw [bodyEnd_forget]
    rfl
  unfold bodyRead
  rw [forget_sock, forget_cur]
  split
  · exact hend s
  split
  · rfl
  split
  · rfl
  · rfl
  · split
    · rfl
    · next b buf sock _ _ => exact hend ((s.took sock (b :: buf)).filled pos (b :: buf))

theorem processDataRecv_forget (s : Conn) :
    forgetErr s.forget.processDataRecv = forgetErr s.processDataRecv := by
  unfold processDataRecv
  rw [forget_state]
  split
  · exact cmdWait_forget s
  · unfold bodyWait
    rw [forget_header, bodyPrepare_forget]
    split
    · rfl
    · cases hprep : s.bodyPrepare with
      | none => rfl
      | some r => exact bodyRead_forget r.1 r.2.1 r.2.2
  · rfl
  · rfl

/-- Two connections behind a turn that cannot be told apart from then on by what is delivered. -/
def Alike (t t' : Conn) : Prop :=
  t.forget = t'.forget ∨ t.inLoop = false ∧ t'.inLoop = false ∧ t.delivered = t'.delivered

@[simp] theorem forget_ctype (s : Conn) : s.forget.ctype = s.ctype := rfl

theorem post_forget (hash : Bytes → UInt32) (s : Conn) :
    s.forget.post hash = (s.post hash).map forget := by
  unfold post
  rw [forget_ctype]
  cases s.ctype with
  | gets =>
    rw [forget_iovIndex]
    dsimp only
    split <;> rfl
  | set =>
    change (if ∀ i ≤ s.iovIndexHdr, (s.slot i).hdr = true ∨ (s.slot i).hdrPart = true then _
      else none) = _
    dsimp only
    split <;> rfl
  | _ => rfl

theorem post_alike (hash : Bytes → UInt32) {s s' : Conn} (h : s.forget = s'.forget) :
    Option.Rel (fun t t' => t.forget = t'.forget) (s.post hash) (s'.post hash) := by
  have hpost : (s.post hash).map forget = (s'.post hash).map forget := by
    rw [← post_forget, ← post_forget, h]
  cases hs : s.post hash <;> cases hs' : s'.post hash <;> rw [hs, hs'] at hpost
  · exact .none
  · cases hpost
  · cases hpost
  · exact .some (Option.some.inj hpost)

theorem reset_alike {s s' : Conn} (h : s.forget = s'.forget) : s.reset = s'.reset := by
  change s.forget.reset = s'.forget.reset
  rw [h]

theorem delivered_alike {s s' : Conn} (h : s.forget = s'.forget) : s.delivered = s'.delivered := by
  change s.forget.delivered = s'.forget.delivered
  rw [h]

theorem dispose_alike (hash : Bytes → UInt32) (busy : Bool) {s s' : Conn} (ret : ℤ)
    (h : s.forget = s'.forget) :
    Option.Rel Alike (s.dispose hash busy ret) (s'.dispose hash busy ret) := by
  have hstate : s.state = s'.state := (congrArg state h : s.forget.state = s'.forget.state)
  have hctype : s.ctype = s'.ctype := (congrArg ctype h : s.forget.ctype = s'.forget.ctype)
  have hflag : s.dataPendingRead = s'.dataPendingRead :=
    (congrArg dataPendingRead h : s.forget.dataPendingRead = s'.forget.dataPendingRead)
  have hpost := post_alike hash h
  unfold dispose
  rw [hstate, hctype, hflag]
  generalize s.post hash = o at hpost ⊢
  generalize s'.post hash = o' at hpost ⊢
  have hposted : Option.Rel Alike (o.map reset) (o'.map reset) := by
    cases hpost with
    | none => exact .none
    | some hrel => exact .some (.inl (congrArg forget (reset_alike hrel)))
  split
  · split
    · exact hposted
    · exact hposted
    · cases hpost with
      | none => exact .none
      | some hrel =>
        have hd := delivered_alike hrel
        cases busy
        · exact .some (.inr ⟨rfl, rfl, hd⟩)
        · exact .some (.inr ⟨rfl, rfl, hd⟩)
    · exact .some (.inl (congrArg forget (reset_alike h)))
  split
  · exact .some (.inl h)
  · have hl := s.leave_spec ret
    have hl' := s'.leave_spec ret
    have hd := delivered_alike h
    exact .some (.inr ⟨hl.1, hl'.1, hl.2.1.trans (hd.trans hl'.2.1.symm)⟩)

/-- The last error makes no difference to what the loop delivers. -/
theorem loop_alike (hash : Bytes → UInt32) (busys : List Bool) {s s' : Conn} (h : Alike s s') :
    (s.loop hash busys).map delivered = (s'.loop hash busys).map delivered := by
  induction busys generalizing s s' with
  | nil =>
    rcases h with h | ⟨-, -, h⟩
    · exact congrArg some (delivered_alike h)
    · exact congrArg some h
  | cons busy busys ih =>
    rcases h with h | ⟨hs, hs', h⟩
    · have hin : s.inLoop = s'.inLoop := (congrArg inLoop h : s.forget.inLoop = s'.forget.inLoop)
      unfold loop
      rw [hin]
      split
      · have hcall : forgetErr s.processDataRecv = forgetErr s'.processDataRecv := by
          rw [← processDataRecv_forget s, h, processDataRecv_forget s']
        unfold turn
        cases hc : s.processDataRecv with
        | none =>
          cases hc' : s'.processDataRecv with
          | none => rfl
          | some r' =>
            rw [hc, hc'] at hcall
            cases hcall
        | some r =>
          cases hc' : s'.processDataRecv with
          | none =>
            rw [hc, hc'] at hcall
            cases hcall
          | some r' =>
            obtain ⟨u, ret⟩ := r
            obtain ⟨u', ret'⟩ := r'
            rw [hc, hc'] at hcall
            simp only [forgetErr, Option.map_some, Option.some.injEq, Prod.mk.injEq] at hcall
            obtain ⟨hu, rfl⟩ := hcall
            have hdispose := dispose_alike hash busy ret hu
            simp only [Option.bind_some]
            generalize u.dispose hash busy ret = o at hdispose ⊢
            generalize u'.dispose hash busy ret = o' at hdispose ⊢
            cases hdispose with
            | none => rfl
            | some hrel => exact ih hrel
      · exact congrArg some (delivered_alike h)
    · rw [loop_of_left hash hs, loop_of_left hash hs']
      exact congrArg some h

/-! ## Loops that deliver nothing -/

/-- Nothing is delivered in the loop, whatever is found in `Busy`. -/
def Silent (hash : Bytes → UInt32) (s : Conn) : Prop :=
  ∀ busys, ∃ t, s.loop hash busys = some t ∧ t.delivered = s.delivered

theorem Silent.reached {hash : Bytes → UInt32} {s : Conn} (h : s.Silent hash)
    (v : Option (Bytes × List Posted)) : s.Reached hash v ↔ v = some s.delivered := by
  constructor
  · rintro ⟨busys, rfl⟩
    obtain ⟨t, ht, hd⟩ := h busys
    rw [ht, Option.map_some, hd]
  · rintro rfl
    exact ⟨[], rfl⟩

theorem silent_of_noBytes (hash : Bytes → UInt32) {s : Conn} (hstate : s.state = .cmdWait)
    (hflag : s.dataPendingRead = false)
    (hread : ∀ x b, (s.sock.read cmdWaitInit).1 ≠ .data (x :: b)) : s.Silent hash := by
  intro busys
  cases busys with
  | nil => exact ⟨s, rfl, rfl⟩
  | cons busy busys =>
    obtain ⟨u, ret, hcall, hret, -, huflag, hd, -⟩ := processDataRecv_of_noBytes hstate hread
    have hturn : s.turn hash busy = some (u.leave ret) := by
      rw [turn, hcall, Option.bind_some]
      simp [dispose, Int.not_lt.mpr hret, huflag, hflag]
    obtain ⟨hleft, hdelivered, -⟩ := u.leave_spec ret
    unfold loop
    split
    · rw [hturn, Option.bind_some, loop_of_left hash hleft]
      exact ⟨_, rfl, hdelivered.trans hd⟩
    · exact ⟨s, rfl, rfl⟩

theorem silent_of_spent (hash : Bytes → UInt32) {s : Conn} (hstate : s.state = .cmdWait)
    (hspent : s.sock.Spent) : s.Silent hash := by
  intro busys
  induction busys generalizing s with
  | nil => exact ⟨s, rfl, rfl⟩
  | cons busy busys ih =>
    obtain ⟨hread, hrest⟩ := read_of_spent hspent cmdWaitInit
    cases hflag : s.dataPendingRead with
    | false => exact silent_of_noBytes hash hstate hflag hread (busy :: busys)
    | true =>
      obtain ⟨u, ret, hcall, hret, hu, huflag, hd, hsock⟩ :=
        processDataRecv_of_noBytes hstate hread
      have hturn : s.turn hash busy = some u := by
        rw [turn, hcall, Option.bind_some]
        simp [dispose, Int.not_lt.mpr hret, huflag, hflag]
      unfold loop
      split
      · rw [hturn, Option.bind_some]
        obtain ⟨t, ht, htd⟩ := ih hu (hsock.trans hrest ▸ hspent)
        exact ⟨t, ht, htd.trans hd⟩
      · exact ⟨s, rfl, rfl⟩

theorem SameDeliveries.of_silent {hash : Bytes → UInt32} {s t : Conn} (hs : s.Silent hash)
    (ht : t.Silent hash) (hd : s.delivered = t.delivered) : s.SameDeliveries hash t := by
  intro v
  rw [hs.reached, ht.reached, hd]

theorem SameDeliveries.symm {hash : Bytes → UInt32} {s t : Conn} (h : s.SameDeliveries hash t) :
    t.SameDeliveries hash s := fun v => (h v).symm

/-! ## The branch on the counters -/

/-- No get is being answered, or none of its keys is yet. -/
def Idle (reqCount replyCount : ℕ) : Prop := reqCount = 0 ∨ replyCount = 0

/-- The callbacks with these counters do not take different bytes: when bytes are there to be read,
no get is half answered. A read that fails may have bytes right behind it if the loop goes on after
it anyway, or if it fails in both callbacks alike. -/
def Undisturbed (s : Conn) (reqCount replyCount reqCount' replyCount' : ℕ) : Prop :=
  match s.sock.results with
  | .data (_ :: _) :: _ => Idle reqCount replyCount ∧ Idle reqCount' replyCount'
  | .failed _ :: rest =>
    s.dataPendingRead = true ∨ ¬ Sock.Waiting ⟨rest⟩ ∨
      (Idle reqCount replyCount ↔ Idle reqCount' replyCount')
  | _ => True

theorem enter_of_idle {s : Conn} {reqCount replyCount : ℕ} (h : Idle reqCount replyCount) :
    s.enter reqCount replyCount = { s with inLoop := true } := by
  unfold enter
  rw [if_neg]
  exact fun hn => hn.2 h

theorem enter_of_failed {s : Conn} {reqCount replyCount : ℕ} {e : Errno} {sock : Sock}
    (hstate : s.state = .cmdWait) (h : ¬ Idle reqCount replyCount)
    (hread : s.sock.read 880 = (.failed e, sock)) :
    s.enter reqCount replyCount = { s with sock := sock, errno := e, inLoop := true } := by
  unfold enter
  rw [if_pos ⟨hstate, h⟩, hread]

/-- The branch delivers nothing by itself, and nothing comes of it when no bytes are there. -/
theorem enter_of_spent (hash : Bytes → UInt32) {s : Conn} (hstate : s.state = .cmdWait)
    (hspent : s.sock.Spent) (reqCount replyCount : ℕ) :
    (s.enter reqCount replyCount).Silent hash ∧
      (s.enter reqCount replyCount).delivered = s.delivered ∧
      (s.enter reqCount replyCount).dropped = s.dropped := by
  by_cases hidle : Idle reqCount replyCount
  · rw [enter_of_idle hidle]
    exact ⟨silent_of_spent hash hstate hspent, rfl, rfl⟩
  · obtain ⟨hread, hrest⟩ := read_of_spent hspent 880
    generalize hr : s.sock.read 880 = r at hread hrest
    obtain ⟨result, sock⟩ := r
    obtain rfl : sock = s.sock := hrest
    cases result with
    | failed e =>
      rw [enter_of_failed hstate hidle hr]
      exact ⟨silent_of_spent hash hstate hspent, rfl, rfl⟩
    | data bytes =>
      cases bytes with
      | nil =>
        unfold enter
        rw [if_pos ⟨hstate, hidle⟩, hr]
        exact ⟨fun busys => ⟨_, loop_of_left hash rfl busys, rfl⟩, rfl, rfl⟩
      | cons x b => exact absurd rfl (hread x b)

theorem dropped_of_waiting {s : Conn} {reqCount replyCount : ℕ} {x : UInt8} {b : Bytes}
    {rest : List ReadResult} (hstate : s.state = .cmdWait)
    (hsock : s.sock.results = .data (x :: b) :: rest) :
    (s.enter reqCount replyCount).dropped = s.dropped ↔ Idle reqCount replyCount := by
  constructor
  · intro hkept
    by_contra hbusy
    obtain ⟨y, c, sock, hread⟩ := read_of_waiting hsock (n := 880) (by decide)
    unfold enter at hkept
    rw [if_pos ⟨hstate, hbusy⟩, hread] at hkept
    simp at hkept
  · intro hidle
    rw [enter_of_idle hidle]

theorem delivered_of_waiting {hash : Bytes → UInt32} {busy : Bool} {s t : Conn}
    (hstate : s.state = .cmdWait) {x : UInt8} {b : Bytes} {rest : List ReadResult}
    (hsock : s.sock.results = .data (x :: b) :: rest) (h : s.turn hash busy = some t) :
    t.delivered ≠ s.delivered := by
  obtain ⟨y, c, sock, hread⟩ := read_of_waiting hsock (n := cmdWaitInit) (by decide)
  obtain ⟨u, ret, hcall, hdisposed⟩ := turn_cases h
  have hu := hcall.received_of_cmdWait hstate (congrArg Prod.fst hread)
  have ht : t.received = u.received := congrArg Prod.fst hdisposed.stream
  intro hd
  have hsame : t.received = s.received := congrArg Prod.fst hd
  rw [ht, hu] at hsame
  simp at hsame

theorem newBlock_newBlock (s : Conn) : s.newBlock.newBlock = s.newBlock := by
  unfold newBlock modify
  simp

theorem loop_newBlock (hash : Bytes → UInt32) {s : Conn} (hstate : s.state = .cmdWait)
    (busys : List Bool) :
    (s.newBlock.loop hash busys).map delivered = (s.loop hash busys).map delivered := by
  cases busys with
  | nil => rfl
  | cons busy busys =>
    have hcall : s.newBlock.processDataRecv = s.processDataRecv := by
      unfold processDataRecv cmdWait
      rw [newBlock_newBlock, hstate, show s.newBlock.state = .cmdWait from hstate]
      rfl
    unfold loop turn
    rw [hcall]
    change (if s.inLoop then _ else _ : Option Conn).map delivered = _
    split
    · rfl
    · rfl

/-- After a first read that fails the loop goes on as the callback does whose own read has
failed. -/
theorem same_of_failed (hash : Bytes → UInt32) {s : Conn} (hstate : s.state = .cmdWait)
    (hflag : s.dataPendingRead = true) {e : Errno} {rest : List ReadResult}
    (hsock : s.sock.results = .failed e :: rest) :
    { s with inLoop := true }.SameDeliveries hash
      { s with sock := ⟨rest⟩, errno := e, inLoop := true } := by
  have hread : s.sock.read cmdWaitInit = (.failed e, ⟨rest⟩) := by
    unfold Sock.read
    rw [hsock]
  have hloop (busy : Bool) (busys : List Bool) :
      ({ s with inLoop := true }.loop hash (busy :: busys)).map delivered =
        ({ s with sock := ⟨rest⟩, errno := e, inLoop := true }.loop hash busys).map delivered := by
    have hcall : { s with inLoop := true }.processDataRecv =
        some ({ s with inLoop := true }.newBlock.readFailed ⟨rest⟩ e, -1) := by
      unfold processDataRecv cmdWait
      dsimp only
      rw [hstate, hread]
    have hturn : { s with inLoop := true }.turn hash busy =
        some ({ s with inLoop := true }.newBlock.readFailed ⟨rest⟩ e) := by
      have hpending : ({ s with inLoop := true }.newBlock.readFailed ⟨rest⟩ e).dataPendingRead = true :=
        hflag
      rw [turn, hcall, Option.bind_some]
      simp [dispose, hpending]
    rw [← loop_newBlock hash (s := { s with sock := ⟨rest⟩, errno := e, inLoop := true }) hstate]
    rw [loop, if_pos rfl, hturn, Option.bind_some]
    exact loop_alike hash busys (.inl rfl)
  intro v
  constructor
  · rintro ⟨busys, rfl⟩
    cases busys with
    | nil => exact ⟨[], rfl⟩
    | cons busy busys => exact ⟨busys, (hloop busy busys).symm⟩
  · rintro ⟨busys, rfl⟩
    exact ⟨false :: busys, hloop false busys⟩

/-- A first read that fails makes a difference exactly if bytes are right behind it and the loop is
left. -/
theorem same_of_failed_iff (hash : Bytes → UInt32) {s : Conn} (hstate : s.state = .cmdWait)
    {e : Errno} {rest : List ReadResult} (hsock : s.sock.results = .failed e :: rest) :
    { s with inLoop := true }.SameDeliveries hash
      { s with sock := ⟨rest⟩, errno := e, inLoop := true } ↔
    s.dataPendingRead = true ∨ ¬ Sock.Waiting ⟨rest⟩ := by
  by_cases hflag : s.dataPendingRead = true
  · exact ⟨fun _ => .inl hflag, fun _ => same_of_failed hash hstate hflag hsock⟩
  have hclear : s.dataPendingRead = false := by simpa using hflag
  have hfirst : ¬ s.sock.Waiting := by
    rintro ⟨x, b, rest', hdata⟩
    rw [hsock] at hdata
    cases hdata
  have hsilent : { s with inLoop := true }.Silent hash :=
    silent_of_noBytes hash hstate hclear (noBytes_of_not_waiting hfirst _)
  constructor
  · rintro hsame
    refine .inr ?_
    rintro ⟨x, b, rest', hdata⟩
    -- one turn of the other loop delivers the bytes
    have hreached := (hsame _).mpr ⟨[false], rfl⟩
    rw [hsilent.reached] at hreached
    obtain ⟨t, ht, hd⟩ := Option.map_eq_some_iff.mp hreached
    rw [loop, if_pos rfl] at ht
    obtain ⟨u, hu, hend⟩ := Option.bind_eq_some_iff.mp ht
    obtain rfl := Option.some.inj hend
    exact delivered_of_waiting (s := { s with sock := ⟨rest⟩, errno := e, inLoop := true }) hstate
      hdata hu hd
  · rintro (h | h)
    · exact absurd h hflag
    · exact .of_silent hsilent (silent_of_noBytes hash hstate hclear (noBytes_of_not_waiting h _)) rfl

end Conn

/-- Two callbacks in `cmd_wait` that differ only in the counters deliver the same bytes to the
parser, post the same commands and drop no byte, exactly if no bytes are there to be read while a
get is half answered. -/
theorem sameDeliveries_iff (hash : Bytes → UInt32) (s : Conn) (hstate : s.state = .cmdWait)
    (reqCount replyCount reqCount' replyCount' : ℕ) :
    ((s.enter reqCount replyCount).SameDeliveries hash (s.enter reqCount' replyCount') ∧
      s.DropsNothing hash reqCount replyCount ∧ s.DropsNothing hash reqCount' replyCount') ↔
    s.Undisturbed reqCount replyCount reqCount' replyCount' := by
  rw [Conn.dropsNothing_iff, Conn.dropsNothing_iff]
  have hspent (h : s.sock.Spent) :
      (s.enter reqCount replyCount).SameDeliveries hash (s.enter reqCount' replyCount') ∧
        (s.enter reqCount replyCount).dropped = s.dropped ∧
        (s.enter reqCount' replyCount').dropped = s.dropped := by
    obtain ⟨hsilent, hd, hkept⟩ := Conn.enter_of_spent hash hstate h reqCount replyCount
    obtain ⟨hsilent', hd', hkept'⟩ := Conn.enter_of_spent hash hstate h reqCount' replyCount'
    exact ⟨.of_silent hsilent hsilent' (hd.trans hd'.symm), hkept, hkept'⟩
  unfold Conn.Undisturbed
  cases hsock : s.sock.results with
  | nil => simpa using hspent (by simp [Sock.Spent, hsock])
  | cons result rest =>
    cases result with
    | data bytes =>
      cases bytes with
      | nil => simpa using hspent (by simp [Sock.Spent, hsock])
      | cons x b =>
        rw [Conn.dropped_of_waiting hstate hsock, Conn.dropped_of_waiting hstate hsock]
        constructor
        · exact And.right
        · rintro ⟨hidle, hidle'⟩
          rw [Conn.enter_of_idle hidle, Conn.enter_of_idle hidle']
          exact ⟨fun v => Iff.rfl, hidle, hidle'⟩
    | failed e =>
      have hread : s.sock.read 880 = (.failed e, ⟨rest⟩) := by
        unfold Sock.read
        rw [hsock]
      have hboth := Conn.same_of_failed_iff hash hstate hsock
      by_cases hidle : Conn.Idle reqCount replyCount <;>
        by_cases hidle' : Conn.Idle reqCount' replyCount'
      · rw [Conn.enter_of_idle hidle, Conn.enter_of_idle hidle']
        simp [hidle, hidle', Conn.SameDeliveries]
      · rw [Conn.enter_of_idle hidle, Conn.enter_of_failed hstate hidle' hread]
        simpa [hidle, hidle'] using hboth
      · rw [Conn.enter_of_failed hstate hidle hread, Conn.enter_of_idle hidle']
        simpa [hidle, hidle'] using (⟨.symm, .symm⟩ : _ ↔ _).trans hboth
      · rw [Conn.enter_of_failed hstate hidle hread, Conn.enter_of_failed hstate hidle' hread]
        simp [hidle, hidle', Conn.SameDeliveries]

def getLine : Bytes := [103, 101, 116, 32, 107, 13, 10]

/-- A get is there to be read, and a get before it has not been answered at all. -/
theorem sameDeliveries_unanswered : let s := Conn.new .zeroed ⟨[.data getLine]⟩
    (s.enter 2 0).SameDeliveries (fun _ => 0) (s.enter 0 0) ∧
      s.DropsNothing (fun _ => 0) 2 0 ∧ s.DropsNothing (fun _ => 0) 0 0 :=
  (sameDeliveries_iff _ (.new .zeroed ⟨[.data getLine]⟩) rfl 2 0 0 0).mpr ⟨.inr rfl, .inr rfl⟩

/-- A get is there to be read, and one of two keys of the get before it has been answered. -/
theorem sameDeliveries_fails : let s := Conn.new .zeroed ⟨[.data getLine]⟩
    ¬ (s.enter 2 1).SameDeliveries (fun _ => 0) (s.enter 0 0) ∧
      (s.enter 2 1).dropped = s.dropped ++ getLine := by
  refine ⟨fun hsame => ?_, by decide⟩
  have hsilent : ((Conn.new .zeroed ⟨[.data getLine]⟩).enter 2 1).Silent fun _ => 0 :=
    Conn.silent_of_spent _ rfl trivial
  have hreached := (hsame _).mpr ⟨[false], rfl⟩
  rw [hsilent.reached] at hreached
  have hreceived := congrArg (Option.map Prod.fst) hreached
  revert hreceived
  decide

end Acached.Receive
