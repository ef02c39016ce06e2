import Acached.Receive.Stray

/-! # Streams that went astray

The calls that read a body lead from a state without a way back to another one,
and so does every run.
-/
namespace Acached.Receive
open CString Dispatch Execution

/-! ## Calls for a body -/

section Body

variable {hash : Bytes → UInt32} {cmds done : List Command} {c : Command} {start : ℕ}
  {block block' : Block} {len len' : ℕ} {received received' : Bytes}

theorem Amiss.more (h : Amiss start c block len received) (k : ℕ)
    (hreceived : received'.length = received.length + k)
    (hblock : block'.written ≤ block.written + k) (hlen : len' ≤ len + k) :
    Amiss start c block' len' received' := by
  cases h with
  | less h => exact .less (by omega)
  | long hlong h => exact .long hlong (by omega)

namespace Conn

variable {s t u p : Conn} {sock : Sock} {buf : Bytes} {pos n : ℕ} {ret : ℤ}

theorem AtBody.readFailed (h : s.AtBody hash cmds done c) (sock : Sock) (e : Errno) :
    (s.readFailed sock e).AtBody hash cmds done c :=
  ⟨h.behind, h.state, h.flag, h.next, h.size, h.base, h.amiss⟩

theorem AtBody.streamEnded (h : s.AtBody hash cmds done c) (sock : Sock) :
    (s.streamEnded sock).AtBody hash cmds done c :=
  ⟨h.behind, h.state, h.flag, h.next, h.size, h.base, h.amiss⟩

theorem filled_cur (s : Conn) (pos : ℕ) (buf : Bytes) : (s.filled pos buf).cur =
    { s.cur with base := s.cur.base.write pos (buf.map some), len := s.cur.len + buf.length } := by
  simp [filled, modify, cur]

theorem Behind.took (h : Behind hash cmds done c s.contents s.received) (sock : Sock) (buf : Bytes) :
    Behind hash cmds done c (s.took sock buf).contents (s.took sock buf).received where
  contents := h.contents
  next := h.next
  lost := by
    have hlost := h.lost
    change _ < (s.received ++ buf).length
    rw [List.length_append]
    omega

theorem AtBody.filled (h : s.AtBody hash cmds done c) (sock : Sock)
    (hroom : pos + buf.length ≤ s.cur.allocSize) :
    ((s.took sock buf).filled pos buf).AtBody hash cmds done c := by
  have hcur := filled_cur (s.took sock buf) pos buf
  have hsrc : (buf.map some : Block).length = buf.length := List.length_map _
  exact {
    behind := Behind.took h.behind sock buf
    state := h.state
    flag := h.flag
    next := fun i hi => by
      have hne : i ≠ s.iovIndex := Nat.ne_of_gt hi
      simp [Conn.filled, Conn.took, modify, hne, h.next i hi]
    size := by rw [hcur]; exact h.size
    base := by
      rw [hcur]
      exact Block.length_write_le h.base (by rw [hsrc]; exact hroom)
    amiss := fun htext => by
      rw [hcur]
      refine (h.amiss htext).more buf.length ?_ ?_ (Nat.le_refl _)
      · exact List.length_append
      · have hle := Block.written_write_le s.cur.base pos (buf.map some)
        rw [hsrc] at hle
        exact hle }

/-- A body with too few bytes is not complete, or is not handed on as that of `c`. -/
theorem AtBody.bodyEnd (h : s.AtBody hash cmds done c) (hend : s.bodyEnd = (t, ret)) :
    t.Left hash cmds ret := by
  unfold Conn.bodyEnd at hend
  split at hend
  · obtain ⟨rfl, rfl⟩ := Prod.mk.inj hend
    have hcur : ((s.modify s.iovIndex fun c => { c with
        baseOffset := (c.baseOffset + c.len) % 2 ^ 32, bodyPart := true }).setState .bodyWait).cur =
        { s.cur with baseOffset := (s.cur.baseOffset + s.cur.len) % 2 ^ 32, bodyPart := true } := by
      simp [setState, modify, cur]
    refine .stray (.body ⟨h.behind, rfl, h.flag, fun i hi => ?_, ?_, ?_, fun htext => ?_⟩)
    · have hne : i ≠ s.iovIndex := Nat.ne_of_gt hi
      simp [setState, modify, hne, h.next i hi]
    · rw [hcur]
      exact h.size
    · rw [hcur]
      exact h.base
    · rw [hcur]
      exact h.amiss htext
  · next hfull =>
    obtain ⟨rfl, rfl⟩ := Prod.mk.inj hend
    refine .complete h.behind rfl (fun _ hflag => ?_) fun hret hx => ?_
    · cases h.flag.symm.trans hflag
    · obtain ⟨htext, -, hbody⟩ := posted_eq hx
      have hamiss := h.amiss htext
      have hcur : ((s.modify s.iovIndex fun c => { c with body := true }).setState .cmdDone).cur.base =
          s.cur.base := by simp [setState, modify, cur]
      rw [hcur] at hbody
      have hstart : bodyStart done c + c.body.length =
          (done.flatMap Command.bytes).length + c.bytes.length := by
        simp only [bodyStart, Command.bytes, List.length_append]
        omega
      rw [← hstart]
      change _ < s.received.length
      have hsize := h.size
      have hbase := h.base
      by_cases hset : c.ctype = .set
      · rw [hbody hset] at hamiss hbase
        rw [List.length_map] at hbase
        cases hamiss with
        | less hless =>
          rw [Block.written_map_some] at hless
          omega
        | long hlong hlen =>
          have hne : s.cur.len ≠ c.body.length := by
            intro heq
            have hneg := asInt_neg (by omega : 2 ^ 31 ≤ s.cur.len) (by omega)
            omega
          omega
      · have hnil := c.body_of_ne_set hset
        cases hamiss with
        | less hless =>
          rw [hnil, List.length_nil]
          omega
        | long hlong =>
          rw [hnil] at hlong
          cases hlong

theorem AtGap.readFailed (h : s.AtGap hash cmds done c) (sock : Sock) (e : Errno) :
    (s.readFailed sock e).AtGap hash cmds done c := ⟨h.behind, h.state, h.flag, h.gap⟩

theorem AtGap.streamEnded (h : s.AtGap hash cmds done c) (sock : Sock) :
    (s.streamEnded sock).AtGap hash cmds done c := ⟨h.behind, h.state, h.flag, h.gap⟩

theorem AtGap.filled (h : s.AtGap hash cmds done c) (sock : Sock) (buf : Bytes) :
    ((s.took sock buf).filled s.cur.baseOffset buf).AtGap hash cmds done c := by
  have hcur := filled_cur (s.took sock buf) s.cur.baseOffset buf
  obtain ⟨i, hi, hoffset, hmissing⟩ := h.gap.missing
  exact {
    behind := Behind.took h.behind sock buf
    state := h.state
    flag := h.flag
    gap := by
      rw [hcur]
      exact ⟨⟨i, hi, hoffset, Block.missing_write hoffset hmissing⟩, h.gap.part, h.gap.size,
        h.gap.short, h.gap.max⟩ }

theorem AtGap.bodyEnd (h : s.AtGap hash cmds done c) (hroom : s.cur.baseOffset ≤ s.cur.allocSize)
    (hend : s.bodyEnd = (t, ret)) : t.Left hash cmds ret := by
  obtain ⟨i, hi, hoffset, hmissing⟩ := h.gap.missing
  have hshort := h.gap.short
  unfold Conn.bodyEnd at hend
  split at hend
  · next hlen =>
    obtain ⟨rfl, rfl⟩ := Prod.mk.inj hend
    have hcur : ((s.modify s.iovIndex fun c => { c with
        baseOffset := (c.baseOffset + c.len) % 2 ^ 32, bodyPart := true }).setState .bodyWait).cur =
        { s.cur with baseOffset := (s.cur.baseOffset + s.cur.len) % 2 ^ 32, bodyPart := true } := by
      simp [setState, modify, cur]
    refine .stray (.gap ⟨h.behind, rfl, h.flag, ?_⟩)
    rw [hcur]
    refine ⟨⟨i, hi, ?_, hmissing⟩, rfl, h.gap.size, hshort, ?_⟩
    · change i < (s.cur.baseOffset + s.cur.len) % 2 ^ 32
      omega
    · exact Nat.mod_lt _ (by decide)
  · obtain ⟨rfl, rfl⟩ := Prod.mk.inj hend
    refine .complete h.behind rfl (fun _ hflag => ?_) fun _ hx => ?_
    · cases h.flag.symm.trans hflag
    · obtain ⟨-, -, hbody⟩ := posted_eq hx
      have hcur : ((s.modify s.iovIndex fun c => { c with body := true }).setState .cmdDone).cur.base =
          s.cur.base := by simp [setState, modify, cur]
      rw [hcur] at hbody
      by_cases hset : c.ctype = .set
      · rw [hbody hset, List.getElem?_map, List.getElem?_eq_getElem hi] at hmissing
        exact absurd rfl (hmissing _)
      · rw [c.body_of_ne_set hset] at hi
        cases hi

structure Over (s : Conn) : Prop where
  state : s.state = .bodyWait
  datalen : s.header.datalen ≠ 0
  flag : s.dataPendingRead = true
  len : s.cur.len = 0

/-- Nothing is counted for such a body, and the next turn has no defined outcome. -/
theorem Over.bodyEnd (h : s.Over) (hbehind : Behind hash cmds done c s.contents s.received)
    (hend : s.bodyEnd = (t, ret)) : t.Left hash cmds ret := by
  have hret : asInt s.cur.len = 0 := by
    rw [h.len]
    rfl
  unfold Conn.bodyEnd at hend
  split at hend
  · obtain ⟨rfl, rfl⟩ := Prod.mk.inj hend
    refine .stuck hbehind h.flag hret ?_
    have hpart : ((s.modify s.iovIndex fun c => { c with
        baseOffset := (c.baseOffset + c.len) % 2 ^ 32, bodyPart := true }).setState
          .bodyWait).cur.bodyPart = true := by simp [setState, modify, cur]
    rintro (hdata | hbody)
    · exact h.datalen hdata
    · rw [BodyDefined, if_pos hpart] at hbody
      cases h.flag.symm.trans hbody.1
  · obtain ⟨rfl, rfl⟩ := Prod.mk.inj hend
    exact .complete hbehind rfl (fun hpos => by omega) fun hpos => by omega

inductive Prepared (hash : Bytes → UInt32) (cmds done : List Command) (c : Command) (p : Conn)
    (pos len : ℕ) : Prop
  | body (h : p.AtBody hash cmds done c)
  | gap (h : p.AtGap hash cmds done c) (hpos : pos = p.cur.baseOffset) (hlen : len = p.bodyRest)
  | past (h : p.Over) (hbehind : Behind hash cmds done c p.contents p.received) (hlen : len = 0)

theorem left_of_prepared (hbehind : Behind hash cmds done c s.contents s.received)
    (hstate : s.state = .bodyWait) (hcall : Call s u ret)
    (hprepared : ∀ p pos len, s.header.datalen ≠ 0 → s.bodyPrepare = some (p, pos, len) →
      Prepared hash cmds done c p pos len) : u.Left hash cmds ret := by
  cases hcall with
  | noLength => exact .complete hbehind rfl (fun hpos => by omega) fun hpos => by omega
  | bodyNothing _ hdata hprep hend =>
    cases hprepared _ _ _ hdata hprep with
    | body h => exact h.bodyEnd hend
    | gap h _ hlen =>
      refine h.bodyEnd ?_ hend
      have hmax := h.gap.max
      have hshort := h.gap.short
      rw [bodyRest, h.gap.size] at hlen
      unfold sub32 at hlen
      omega
    | past h hover => exact h.bodyEnd hover hend
  | bodyTooLong _ hdata hprep hlen =>
    cases hprepared _ _ _ hdata hprep with
    | body h => exact .stray (.body (h.readFailed ..))
    | gap h => exact .stray (.gap (h.readFailed ..))
    | past _ _ hzero => omega
  | bodyFailed _ hdata hprep hpos =>
    cases hprepared _ _ _ hdata hprep with
    | body h => exact .stray (.body (h.readFailed ..))
    | gap h => exact .stray (.gap (h.readFailed ..))
    | past _ _ hzero => omega
  | bodyStreamEnd _ hdata hprep hpos =>
    cases hprepared _ _ _ hdata hprep with
    | body h => exact .stray (.body (h.streamEnded _))
    | gap h => exact .stray (.gap (h.streamEnded _))
    | past _ _ hzero => omega
  | bodyBytes _ hdata hprep hpos _ _ hroom hend =>
    cases hprepared _ _ _ hdata hprep with
    | body h => exact (h.filled _ hroom).bodyEnd hend
    | gap h hat =>
      subst hat
      refine (h.filled _ _).bodyEnd ?_ hend
      rw [filled_cur]
      exact (Nat.le_add_right _ _).trans hroom
    | past _ _ hzero => omega
  | lineFailed hline | lineEnd hline | unknown hline | headerRefused hline | header hline
  | command hline => cases hline.symm.trans hstate

theorem over_prepared (hstate : s.state = .bodyWait) (hline : s.AtLine)
    (hflag : s.dataPendingRead = true) (hover : s.bodySize < s.pending)
    (hdata : s.header.datalen ≠ 0) (hprep : s.bodyPrepare = some (p, pos, n)) :
    p.Over ∧ n = 0 ∧ p.contents = s.contents ∧ p.received = s.received := by
  have hindex := hline.index
  have hcur : s.cur = s.slot 0 := by rw [cur, hindex]
  rw [bodyPrepare, hcur, hline.part, if_neg (by decide)] at hprep
  unfold bodyFirst at hprep
  rw [hflag, if_neg (by decide : ¬ true = false), if_pos hover] at hprep
  split at hprep
  · cases hprep
  split at hprep
  · cases hprep
  · cases hprep
    refine ⟨⟨hstate, hdata, hflag, ?_⟩, rfl, rfl, rfl⟩
    simp [newBody, modify, cur, hindex, hline.next 1 (by decide)]

theorem header_prepared (hbehind : Behind hash cmds done c s.contents s.received)
    (hstate : s.state = .bodyWait) (hline : s.AtLine)
    (hamiss : s.line = c.text → Amiss (bodyStart done c) c s.leftIn s.pending s.received)
    (hdata : s.header.datalen ≠ 0) (hprep : s.bodyPrepare = some (p, pos, n)) :
    Prepared hash cmds done c p pos n := by
  by_cases hover : s.dataPendingRead = true ∧ s.bodySize < s.pending
  · obtain ⟨h, hzero, hcontents, hreceived⟩ :=
      over_prepared hstate hline hover.1 hover.2 hdata hprep
    exact .past h (hcontents ▸ hreceived ▸ hbehind) hzero
  have hindex := hline.index
  have hlen := hline.next
  have hbody : s.bodySize < 2 ^ 32 := Nat.mod_lt _ (by decide)
  have hcur : s.cur = s.slot 0 := by rw [cur, hindex]
  rw [bodyPrepare, hcur, hline.part, if_neg (by decide)] at hprep
  unfold bodyFirst at hprep
  split at hprep
  · cases hprep
  split at hprep
  · next hflag =>
    cases hprep
    have hnew : (s.newBody 0).cur = { s.slot 1 with base := [], allocSize := s.bodySize } := by
      simp [newBody, modify, cur, hindex, Block.slice]
    refine .body ⟨hbehind, hstate, hflag, fun i hi => ?_, ?_, ?_, fun htext => ?_⟩
    · have hi : s.iovIndex + 1 < i := hi
      have hne : i ≠ s.iovIndex + 1 := Nat.ne_of_gt hi
      simp [newBody, modify, hne, hlen i (by omega)]
    · rw [hnew]
      exact hbody
    · rw [hnew]
      exact Nat.zero_le _
    · rw [hnew]
      refine (hamiss htext).more 0 rfl (Nat.zero_le _) ?_
      rw [show (s.slot 1).len = 0 from hlen 1 (by decide)]
      exact Nat.zero_le _
  next hflag =>
  have hflag := eq_true_of_ne_false hflag
  split at hprep
  · cases hprep
  rw [if_neg fun hlt => hover ⟨hflag, hlt⟩] at hprep
  cases hprep
  have hle := Nat.le_of_not_lt fun hlt => hover ⟨hflag, hlt⟩
  have hcopied : s.copied.cur = { s.slot 1 with
      base := s.cur.base.slice s.cur.baseOffset s.pending, len := (s.slot 1).len + s.pending,
      allocSize := s.bodySize } := by
    simp [copied, setPending, newBody, modify, cur, hindex]
  refine .body ⟨hbehind, hstate, rfl, fun i hi => ?_, ?_, ?_, fun htext => ?_⟩
  · have hi : s.iovIndex + 1 < i := hi
    have hne : i ≠ s.iovIndex + 1 := Nat.ne_of_gt hi
    have hne' : i ≠ s.iovIndex := by omega
    simp [copied, setPending, newBody, modify, hne, hne', hlen i (by omega)]
  · rw [hcopied]
    exact hbody
  · rw [hcopied]
    dsimp only
    rw [Block.length_slice]
    exact hle
  · rw [hcopied]
    refine (hamiss htext).more 0 rfl ?_ ?_
    · have hwritten := Block.written_slice_le s.cur.base s.cur.baseOffset s.pending
      rw [leftIn, if_pos hflag]
      exact hwritten
    · rw [show (s.slot 1).len = 0 from hlen 1 (by decide)]
      exact (Nat.zero_add _).le

theorem AtBody.prepared (h : s.AtBody hash cmds done c) (hprep : s.bodyPrepare = some (p, pos, n)) :
    Prepared hash cmds done c p pos n := by
  by_cases hpart : s.cur.bodyPart = true
  · obtain ⟨-, rfl, -, -⟩ := of_bodyPrepare_part hpart hprep
    exact .body h
  · rw [bodyPrepare, if_neg hpart] at hprep
    unfold bodyFirst at hprep
    split at hprep
    · cases hprep
    rw [if_pos h.flag] at hprep
    cases hprep
    have hnew : (s.newBody 0).cur =
        { s.slot (s.iovIndex + 1) with base := [], allocSize := s.bodySize } := by
      simp [newBody, modify, cur, Block.slice]
    refine .body ⟨h.behind, h.state, h.flag, fun i hi => ?_, ?_, ?_, fun htext => ?_⟩
    · have hi : s.iovIndex + 1 < i := hi
      have hne : i ≠ s.iovIndex + 1 := Nat.ne_of_gt hi
      simp [newBody, modify, hne, h.next i (by omega)]
    · rw [hnew]
      exact Nat.mod_lt _ (by decide)
    · rw [hnew]
      exact Nat.zero_le _
    · rw [hnew]
      refine (h.amiss htext).more 0 rfl (Nat.zero_le _) ?_
      rw [show (s.slot (s.iovIndex + 1)).len = 0 from h.next _ (Nat.lt_succ_self _)]
      exact Nat.zero_le _

theorem AtGap.prepared (h : s.AtGap hash cmds done c) (hprep : s.bodyPrepare = some (p, pos, n)) :
    Prepared hash cmds done c p pos n := by
  obtain ⟨-, rfl, rfl, rfl⟩ := of_bodyPrepare_part h.gap.part hprep
  exact .gap h rfl rfl

theorem Stray.call (h : s.Stray hash cmds) (hwf : ∀ c ∈ cmds, c.WellFormed) (hcall : Call s u ret)
    (hfed : u.Fed (cmds.flatMap Command.bytes)) : u.Left hash cmds ret := by
  cases h with
  | line hbehind hstate hline => exact left_of_line hbehind hwf hstate hline hcall hfed
  | header hbehind hstate hline hamiss =>
    exact left_of_prepared hbehind hstate hcall fun _ _ _ => header_prepared hbehind hstate hline hamiss
  | body hbody =>
    exact left_of_prepared hbody.behind hbody.state hcall fun _ _ _ _ => hbody.prepared
  | gap hgap => exact left_of_prepared hgap.behind hgap.state hcall fun _ _ _ _ => hgap.prepared

/-! ## Runs -/

theorem Astray.contents_ne (h : s.Astray hash cmds) :
    s.contents ≠ cmds.map (Command.posted hash) := by
  cases h with
  | wrong h => exact fun heq => h (heq ▸ List.prefix_refl _)
  | dead _ hne => exact hne
  | stray h =>
    obtain ⟨done, c, hbehind⟩ := h.behind
    exact hbehind.contents_ne

/-- A stream that is astray stays so. -/
theorem Astray.step (h : s.Astray hash cmds) (hwf : ∀ c ∈ cmds, c.WellFormed)
    (hfed : s.Fed (cmds.flatMap Command.bytes)) {a : RecvAct} (hquiet : a.Quiet)
    (hstep : recvStep hash s a = some t) :
    t.Astray hash cmds ∧ t.Fed (cmds.flatMap Command.bytes) := by
  cases a with
  | callback reqCount replyCount =>
    obtain ⟨-, rfl⟩ := recvStep_callback.mp hstep
    rw [enter_of_idle hquiet]
    refine ⟨?_, hfed.of_eq rfl rfl⟩
    cases h with
    | wrong h => exact .wrong h
    | dead h hne => exact .dead h hne
    | stray h => exact .stray (h.setLoop s.closed true)
  | turn busy =>
    have hturn := (recvStep_turn.mp hstep).2
    obtain ⟨u, ret, hcall, hdisposed⟩ := turn_cases hturn
    have hufed := hcall.fed hfed
    refine ⟨?_, hdisposed.fed hufed⟩
    cases h with
    | wrong h => exact .wrong fun hfront => h ((recvStep_contents hstep).trans hfront)
    | dead h =>
      obtain ⟨r, hr, -⟩ := Option.bind_eq_some_iff.mp hturn
      exact absurd ((processDataRecv_isSome s).mp (Option.isSome_of_eq_some hr)) h
    | stray h => exact (h.call hwf hcall hufed).disposed hufed hdisposed

theorem Astray.not_delivers (h : s.Astray hash cmds) (hwf : ∀ c ∈ cmds, c.WellFormed)
    (hfed : s.Fed (cmds.flatMap Command.bytes)) :
    ¬ s.Delivers hash (cmds.map (Command.posted hash)) :=
  @not_delivers_of_invariant hash _ s
    (fun s => s.Astray hash cmds ∧ s.Fed (cmds.flatMap Command.bytes))
    (fun _ _ _ h hquiet hstep => h.1.step hwf h.2 hquiet hstep) (fun _ h => h.1.contents_ne) ⟨h, hfed⟩

end Conn

end Body

end Acached.Receive
