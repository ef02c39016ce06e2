import Acached.Receive.Between

/-! # Commands in any pieces

A stream of commands is received as it was sent exactly if it is well cut. The
body of a set that is not complete behind its line takes one more read, or two
for one command of the stream, and a command that is cut in another way leads
astray.
-/
namespace Acached.Receive
open CString Dispatch Execution

namespace Conn

variable {hash : Bytes → UInt32} {cmds done rest : List Command} {c : Command} {posted : List Posted}
  {received first buf : Bytes} {offset : ℕ} {sock sock' : Sock} {pieces : List Bytes} {s t u : Conn}
  {ret : ℤ} {used : Bool}

/-! ## The body of a set -/

theorem AtHeader.atLine (h : AtHeader (c.input first) posted received offset sock s)
    (hc : c.WellFormed) : s.AtLine where
  index := h.index
  part := h.part
  next := h.next
  offset := fun hflag => by
    have hne : first ≠ [] := of_decide_eq_true (h.flag.symm.trans hflag)
    obtain ⟨-, hoffset, -⟩ := h.left hne
    have hlong := hc.line_length
    rw [hoffset]
    exact lt_trans (by decide) hlong

theorem AtHeader.behind
    (h : AtHeader (c.input first) posted (done.flatMap Command.bytes ++ c.line) offset sock s)
    (hc : c.WellFormed) (hnext : done ++ [c] <+: cmds)
    (hcontents : posted.map Posted.content = done.map (Command.posted hash)) :
    Behind hash cmds done c s.contents s.received where
  contents := by rw [contents, h.posted, hcontents]
  next := hnext
  lost := by
    have hlong := hc.line_length
    rw [h.received, List.length_append, List.length_append]
    omega

theorem AtHeader.stray_of_long
    (h : AtHeader (c.input first) posted (done.flatMap Command.bytes ++ c.line) offset sock s)
    (hc : c.WellFormed) (hnext : done ++ [c] <+: cmds)
    (hcontents : posted.map Posted.content = done.map (Command.posted hash))
    (hfirst : first.length < 2 ^ 32) (hlong : 2 ^ 31 ≤ c.body.length) : s.Stray hash cmds := by
  refine .header (h.behind hc hnext hcontents) h.state (h.atLine hc) fun _ => .long hlong ?_
  rw [h.pending_eq hfirst, h.received]
  change first.length + _ ≤ (_ ++ first).length
  rw [List.length_append, List.length_append, bodyStart]
  omega

theorem AtHeader.not_delivers_of_over
    (h : AtHeader (c.input first) posted (done.flatMap Command.bytes ++ c.line) offset sock s)
    (hwf : ∀ d ∈ cmds, d.WellFormed) (hset : c.ctype = .set) (hnext : done ++ [c] <+: cmds)
    (hcontents : posted.map Posted.content = done.map (Command.posted hash))
    (hfed : s.Fed (cmds.flatMap Command.bytes)) (hfirst : first.length < 2 ^ 32)
    (hover : c.body.length < first.length) :
    ¬ s.Delivers hash (cmds.map (Command.posted hash)) := by
  have hc : c.WellFormed := hwf c (hnext.subset (by simp))
  have hbehind := h.behind hc hnext hcontents
  have hsize : s.bodySize < s.pending := by
    rw [h.pending_eq hfirst, bodySize, h.header]
    change (c.header.datalen + 2) % 2 ^ 32 < first.length
    rw [hc.datalen_eq hset]
    exact lt_of_le_of_lt (Nat.mod_le _ _) hover
  have hflag : s.dataPendingRead = true := by
    have hne : first ≠ [] := List.ne_nil_of_length_pos (Nat.zero_lt_of_lt hover)
    rw [h.flag]
    exact decide_eq_true hne
  refine not_delivers_of_left hwf h.inLoop hbehind.contents_ne hfed fun u ret hcall => ?_
  refine left_of_prepared hbehind h.state hcall fun p pos len hdata hprep => ?_
  obtain ⟨hp, hzero, hsame, hreceived⟩ :=
    over_prepared h.state (h.atLine hc) hflag hsize hdata hprep
  exact .past hp (hsame ▸ hreceived ▸ hbehind) hzero

theorem Filling.atGap {m : ℕ}
    (h : Filling (c.input first) posted (done.flatMap Command.bytes ++ c.line) offset m sock s)
    (hc : c.WellFormed) (hset : c.ctype = .set) (hnext : done ++ [c] <+: cmds)
    (hcontents : posted.map Posted.content = done.map (Command.posted hash))
    (hbody : (c.input first).body = c.body) (hpart : s.cur.bodyPart = true)
    (hm : m < offset) (hmax : offset < 2 ^ 32) (hlt : m < c.body.length)
    (hshort : c.body.length < 2 ^ 31) : s.AtGap hash cmds done c where
  behind := by
    have hlong := hc.line_length
    refine ⟨by rw [contents, h.posted, hcontents], hnext, ?_⟩
    rw [h.received, List.length_append, List.length_append]
    omega
  state := h.state
  flag := h.flag
  gap := by
    refine ⟨⟨m, hlt, by rw [h.offset]; exact hm, fun x => ?_⟩, hpart, ?_, ?_, ?_⟩
    · have hlen : ((c.body.take m).map some : Block).length = m := by
        simp [Nat.le_of_lt hlt]
      rw [h.base, hbody, List.getElem?_eq_none hlen.le]
      simp
    · rw [h.size, hbody, h.header]
      exact hc.datalen_eq hset
    · rw [h.size, hbody]
      exact hshort
    · rw [h.offset]
      exact hmax

section Pieces

variable {behind : Bytes} {m : ℕ} {R : Bool → List Bytes → Prop}
  (hwf : ∀ d ∈ done ++ c :: rest, d.WellFormed) (hset : c.ctype = .set) (hfirst : first <+: c.body)
  (hshort : c.body.length < 2 ^ 31)
  (hcontents : posted.map Posted.content = done.map (Command.posted hash))
  (hnext : ∀ used pieces t, Between hash (done ++ [c]) rest used pieces t →
    (t.Delivers hash ((done ++ c :: rest).map (Command.posted hash)) ↔ R used pieces))

include hwf hset hfirst hshort hcontents hnext

theorem Filling.delivers_of_complete {q : Conn} (hin : s.inLoop = true) (hopen : s.closed = false)
    (hq : Filling (c.input first) posted (done.flatMap Command.bytes ++ c.line) offset
      (c.input first).body.length ⟨pieces.map .data⟩ q)
    (hcall : s.processDataRecv = some q.bodyEnd)
    (hpieces : PiecesOf (rest.flatMap Command.bytes) pieces) (hoffset : offset < 2 ^ 31)
    (hused : offset = 0 ↔ used = false) :
    s.Delivers hash ((done ++ c :: rest).map (Command.posted hash)) ↔ R used pieces := by
  have hc : c.WellFormed := hwf c (by simp)
  have hbody := Command.input_body hfirst
  have hlen : (c.input first).body.length = c.body.length := congrArg List.length hbody
  have hsize := hc.datalen_eq hset
  obtain ⟨t, hturn, hready⟩ := hq.turn_complete hash hcall (by omega) (by omega)
  have hbytes : done.flatMap Command.bytes ++ c.line ++ (c.input first).body =
      (done ++ [c]).flatMap Command.bytes := by
    rw [hbody]
    simp [Command.bytes]
  rw [hbytes] at hready
  have hclosed := turn_closed (hturn false) hready.inLoop hopen
  rw [delivers_of_turn hopen hin hturn]
  exact hnext _ _ _ (hready.between hcontents (Command.input_posted hash hset hfirst) hpieces hclosed
    hoffset hused)

/-- A read of all the bytes that are missing completes the body, or leaves a part of it missing. -/
theorem Filling.delivers_of_read {p : Conn} (hin : s.inLoop = true) (hopen : s.closed = false)
    (hp : Filling (c.input first) posted (done.flatMap Command.bytes ++ c.line) offset m
      ⟨pieces.map .data⟩ p)
    (hcall : s.processDataRecv = p.bodyRead m (c.body.length - m)) (hm : m < c.body.length)
    (hpieces : PiecesOf (c.body.drop m ++ rest.flatMap Command.bytes) pieces)
    (hoffset : offset < 2 ^ 31) (hused : offset = 0 ↔ used = false) :
    ∃ g pieces', firstRead (c.body.length - m) pieces = (g, pieces') ∧ 0 < g.length ∧
      PiecesOf (c.body.drop (m + g.length) ++ rest.flatMap Command.bytes) pieces' ∧
      (m + g.length = c.body.length ∧
          (s.Delivers hash ((done ++ c :: rest).map (Command.posted hash)) ↔ R used pieces') ∨
        m + g.length < c.body.length ∧ ∃ t, t.closed = false ∧ t.cur.bodyPart = true ∧
          Filling (c.input first) posted (done.flatMap Command.bytes ++ c.line)
            (offset + (m + g.length)) (m + g.length) ⟨pieces'.map .data⟩ t ∧
          (s.Delivers hash ((done ++ c :: rest).map (Command.posted hash)) ↔
            t.Delivers hash ((done ++ c :: rest).map (Command.posted hash)))) := by
  have hbody := Command.input_body hfirst
  have hne : c.body.drop m ++ rest.flatMap Command.bytes ≠ [] := by
    apply List.append_ne_nil_of_left_ne_nil
    rw [Ne, List.drop_eq_nil_iff]
    exact Nat.not_le.mpr hm
  obtain ⟨g, pieces', hgot, hread, hg, hle, behind, hsplit, hpieces'⟩ :=
    hpieces.read hne (Nat.sub_pos_of_lt hm)
  have hpos := List.length_pos_of_ne_nil hg
  have hfront : g <+: c.body.drop m := by
    have hinitial : g <+: c.body.drop m ++ rest.flatMap Command.bytes := ⟨behind, hsplit.symm⟩
    exact List.prefix_of_prefix_length_le hinitial (List.prefix_append _ _)
      (by rw [List.length_drop]; exact hle)
  have hbehind : behind = c.body.drop (m + g.length) ++ rest.flatMap Command.bytes := by
    obtain ⟨left, hleft⟩ := hfront
    rw [← hleft, List.append_assoc] at hsplit
    rw [← List.drop_drop, ← hleft, List.drop_left]
    exact (List.append_cancel_left hsplit).symm
  rw [hbehind] at hpieces'
  rw [← hbody] at hcall hread hm hfront hle
  rw [hp.bodyRead hg hm (by rw [hbody]; omega) hread] at hcall
  have hq := hp.receive ⟨pieces'.map .data⟩ hm.le hfront
  refine ⟨g, pieces', hgot, hpos, hpieces', ?_⟩
  rw [← hbody]
  by_cases hend : m + g.length = (c.input first).body.length
  · refine .inl ⟨hend, ?_⟩
    rw [hend] at hq hpieces'
    rw [hbody, List.drop_length, List.nil_append] at hpieces'
    exact hq.delivers_of_complete hwf hset hfirst hshort hcontents hnext hin hopen hcall hpieces'
      hoffset hused
  · have hlt : m + g.length < (c.input first).body.length := by omega
    rw [hbody] at hlt
    obtain ⟨t, hturn, hpart, ht⟩ := hq.turn_part hash hcall (by rw [hbody]; exact hlt)
      (by omega) (by omega)
    rw [Nat.mod_eq_of_lt (by omega)] at ht
    rw [hbody]
    exact .inr ⟨hlt, t, turn_closed (hturn false) ht.inLoop hopen, hpart, ht,
      delivers_of_turn hopen hin hturn⟩

omit hnext in
/-- With the offset moved, the next piece would leave a gap. -/
theorem Filling.not_delivers_of_moved
    (h : Filling (c.input first) posted (done.flatMap Command.bytes ++ c.line) (offset + m) m
      ⟨pieces.map .data⟩ s)
    (hpart : s.cur.bodyPart = true) (hm : m < c.body.length)
    (hpieces : PiecesOf (c.body.drop m ++ rest.flatMap Command.bytes) pieces)
    (hoffset : offset < 2 ^ 31) (hmoved : 0 < offset) :
    ¬ s.Delivers hash ((done ++ c :: rest).map (Command.posted hash)) := by
  have hc : c.WellFormed := hwf c (by simp)
  have hbody := Command.input_body hfirst
  have hgap : s.AtGap hash (done ++ c :: rest) done c :=
    h.atGap hc hset ⟨rest, by simp⟩ hcontents hbody hpart (by omega) (by omega) hm hshort
  refine (Astray.stray (.gap hgap)).not_delivers hwf ⟨pieces, h.sock, ?_⟩
  have hwhole : c.body.take m ++ c.body.drop m = c.body := List.take_append_drop m c.body
  rw [h.received, hbody, hpieces.flatten, List.flatMap_append, List.flatMap_cons, Command.bytes]
  simp only [List.append_assoc]
  rw [← List.append_assoc (c.body.take m), hwhole]

/-- The second call for the body, when no body before has moved the offset. -/
theorem Filling.delivers_iff_one
    (h : Filling (c.input first) posted (done.flatMap Command.bytes ++ c.line) m m
      ⟨pieces.map .data⟩ s)
    (hopen : s.closed = false) (hpart : s.cur.bodyPart = true) (hpos : 0 < m)
    (hm : m < c.body.length)
    (hpieces : PiecesOf (c.body.drop m ++ rest.flatMap Command.bytes) pieces) :
    s.Delivers hash ((done ++ c :: rest).map (Command.posted hash)) ↔
      (readsFor (c.body.length - m) pieces).1 = 1 ∧
        R true (readsFor (c.body.length - m) pieces).2 := by
  have hc : c.WellFormed := hwf c (by simp)
  have hsize := hc.datalen_eq hset
  have hprep := h.prepare_part hpart
  have hheader : (c.input first).header = c.header := rfl
  rw [hheader, hsize, sub32_of_le hm.le (by omega)] at hprep
  have hdata := Nat.ne_of_gt (hc.datalen_pos hset)
  have hcall := processDataRecv_of_body h.state (by rw [h.header]; exact hdata) hprep
  have hmoved : m = 0 ↔ true = false := iff_of_false (by omega) (by decide)
  obtain ⟨g, pieces', hgot, hg, hpieces', hcases⟩ :=
    h.delivers_of_read hwf hset hfirst hshort hcontents hnext h.inLoop hopen hcall hm hpieces
      (by omega) hmoved
  have hsome : pieces ≠ [] := by
    rintro rfl
    cases hgot
    exact absurd hg (by decide)
  rw [readsFor_of_read (Nat.sub_pos_of_lt hm) hsome hgot, Nat.sub_sub]
  dsimp only
  rcases hcases with ⟨hend, hiff⟩ | ⟨hlt, t, -, hpart', ht, hiff⟩
  · rw [hend, Nat.sub_self, readsFor_zero, hiff]
    simp
  · have hne : pieces' ≠ [] := by
      apply hpieces'.ne_nil
      apply List.append_ne_nil_of_left_ne_nil
      rw [Ne, List.drop_eq_nil_iff]
      exact Nat.not_le.mpr hlt
    have hmore := readsFor_pos (Nat.sub_pos_of_lt hlt) hne
    rw [hiff]
    refine iff_of_false ?_ fun hone => by omega
    exact ht.not_delivers_of_moved hwf hset hfirst hshort hcontents hpart' hlt hpieces' (by omega) hpos

theorem AtHeader.delivers_iff
    (h : AtHeader (c.input first) posted (done.flatMap Command.bytes ++ c.line) offset
      ⟨pieces.map .data⟩ s)
    (hopen : s.closed = false) (hfits : (c.line ++ first).length ≤ cmdWaitInit)
    (hpieces : PiecesOf (c.body.drop first.length ++ rest.flatMap Command.bytes) pieces)
    (hoffset : offset < 2 ^ 31) (hused : offset = 0 ↔ used = false) :
    s.Delivers hash ((done ++ c :: rest).map (Command.posted hash)) ↔
      ((readsFor (c.body.length - first.length) pieces).1 ≤ 2 ∧
        ((readsFor (c.body.length - first.length) pieces).1 = 2 → used = false)) ∧
      R (used || (readsFor (c.body.length - first.length) pieces).1 = 2)
        (readsFor (c.body.length - first.length) pieces).2 := by
  have hc : c.WellFormed := hwf c (by simp)
  have hbody := Command.input_body hfirst
  have hle := hfirst.length_le
  obtain ⟨p, hprep, hp⟩ := h.prepare (hc.input_wellFormed hset hfits hfirst)
    (by rw [hbody]; omega)
  have hlen : (c.input first).first = first := rfl
  rw [hbody, hlen] at hprep
  have hdata := Nat.ne_of_gt (hc.datalen_pos hset)
  have hcall := processDataRecv_of_body h.state (by rw [h.header]; exact hdata) hprep
  rw [hlen] at hp
  rcases Nat.eq_or_lt_of_le hle with heq | hlt
  · rw [heq, Nat.sub_self] at hcall ⊢
    rw [heq, List.drop_length, List.nil_append] at hpieces
    rw [heq, ← hbody] at hp
    rw [bodyRead, if_pos rfl] at hcall
    rw [readsFor_zero, hp.delivers_of_complete hwf hset hfirst hshort hcontents hnext h.inLoop hopen
      hcall hpieces hoffset hused]
    simp
  obtain ⟨g, pieces', hgot, hg, hpieces', hcases⟩ :=
    hp.delivers_of_read hwf hset hfirst hshort hcontents hnext h.inLoop hopen hcall hlt hpieces
      hoffset hused
  have hsome : pieces ≠ [] := by
    rintro rfl
    cases hgot
    exact absurd hg (by decide)
  rw [readsFor_of_read (Nat.sub_pos_of_lt hlt) hsome hgot, Nat.sub_sub]
  dsimp only
  rcases hcases with ⟨hend, hiff⟩ | ⟨hmore, t, htopen, hpart, ht, hiff⟩
  · rw [hend, Nat.sub_self, readsFor_zero, hiff]
    simp
  · have hne : pieces' ≠ [] := by
      apply hpieces'.ne_nil
      apply List.append_ne_nil_of_left_ne_nil
      rw [Ne, List.drop_eq_nil_iff]
      exact Nat.not_le.mpr hmore
    have hcount := readsFor_pos (Nat.sub_pos_of_lt hmore) hne
    generalize hothers : readsFor (c.body.length - (first.length + g.length)) pieces' = others at *
    rw [hiff]
    by_cases hzero : offset = 0
    · obtain rfl := hused.mp hzero
      rw [hzero, Nat.zero_add] at ht
      rw [ht.delivers_iff_one hwf hset hfirst hshort hcontents hnext htopen hpart (by omega) hmore
        hpieces', hothers]
      by_cases hone : others.1 = 1
      · simp [hone]
      · refine iff_of_false (fun h => hone h.1) fun h => ?_
        have := h.1.1
        omega
    · have htrue : used = true := eq_true_of_ne_false fun hfalse => hzero (hused.mpr hfalse)
      refine iff_of_false ?_ fun h => ?_
      · exact ht.not_delivers_of_moved hwf hset hfirst hshort hcontents hpart hmore hpieces' hoffset
          (Nat.pos_of_ne_zero hzero)
      · obtain ⟨⟨htwo, hunused⟩, -⟩ := h
        rw [htrue] at hunused
        cases hunused (by omega)

end Pieces

/-! ## The stream -/

/-- From one command to the next, the others are delivered exactly if they are well cut. -/
theorem Between.delivers_iff (h : Between hash done rest used pieces s)
    (hwf : ∀ d ∈ done ++ rest, d.WellFormed) :
    s.Delivers hash ((done ++ rest).map (Command.posted hash)) ↔ WellCut used rest pieces := by
  induction rest generalizing done used pieces s with
  | nil =>
    rw [List.append_nil]
    exact iff_of_true h.delivers_last trivial
  | cons c rest ih =>
    have hc : c.WellFormed := hwf c (by simp)
    have hnext (used : Bool) (pieces : List Bytes) (t : Conn)
        (ht : Between hash (done ++ [c]) rest used pieces t) :
        t.Delivers hash ((done ++ c :: rest).map (Command.posted hash)) ↔
          WellCut used rest pieces := by
      have hsame : done ++ c :: rest = done ++ [c] ++ rest := by simp
      rw [hsame] at hwf ⊢
      exact ih ht hwf
    obtain ⟨posted, offset, hready, hoffset, hused⟩ := h.ready
    have hcontents : posted.map Posted.content = done.map (Command.posted hash) := by
      rw [← h.contents, Conn.contents, hready.posted]
    have hlong := hc.line_length
    have hne : (c :: rest).flatMap Command.bytes ≠ [] := by
      rw [List.flatMap_cons, Command.bytes]
      intro hnil
      have := congrArg List.length hnil
      simp at this
      simp [this] at hlong
    obtain ⟨buf, pieces', hgot, hread, hbuf, hlen, behind, hsplit, hpieces⟩ :=
      h.stream.read hne (by decide : 0 < cmdWaitInit)
    rw [List.flatMap_cons, Command.bytes, List.append_assoc] at hsplit
    rw [WellCut, hgot]
    dsimp only
    by_cases hline : c.line.length ≤ buf.length
    swap
    · refine iff_of_false ?_ fun h => hline h.1.1
      have hinitial : buf <+: c.line :=
        List.prefix_of_prefix_length_le ⟨behind, hsplit.symm⟩ (List.prefix_append _ _) (by omega)
      exact h.not_delivers_of_cut hwf hbuf hread hinitial (by omega)
    obtain ⟨first, rfl⟩ : c.line <+: buf :=
      List.prefix_of_prefix_length_le (List.prefix_append _ _) ⟨behind, hsplit.symm⟩ hline
    rw [List.append_assoc] at hsplit
    have hsplit := List.append_cancel_left hsplit
    have hbytes : c.bytes.length - (c.line ++ first).length = c.body.length - first.length := by
      rw [Command.bytes, List.length_append, List.length_append]
      omega
    have hinside : (c.line ++ first).length ≤ c.bytes.length ↔ first.length ≤ c.body.length := by
      rw [Command.bytes, List.length_append, List.length_append]
      omega
    rw [hbytes, hinside, and_iff_right hline]
    by_cases hset : c.ctype = .set
    · obtain ⟨t, hturn, ht⟩ := hready.header hash (hc.input_lineRead hset first) hread
      have htopen := turn_closed (hturn false) ht.inLoop h.isOpen
      have htfed := turn_fed h.fed (hturn false)
      have hfirstlt : first.length < 2 ^ 31 := by
        rw [List.length_append] at hlen
        have hmax : cmdWaitInit = 32768 := rfl
        omega
      rw [delivers_of_turn h.isOpen hready.inLoop hturn]
      by_cases hover : c.body.length < first.length
      · refine iff_of_false ?_ fun h => by omega
        exact ht.not_delivers_of_over hwf hset ⟨rest, by simp⟩ hcontents htfed (by omega) hover
      by_cases hlong : 2 ^ 31 ≤ c.body.length
      · refine iff_of_false ?_ fun h => by omega
        exact (Astray.stray (ht.stray_of_long hc ⟨rest, by simp⟩ hcontents (by omega)
          hlong)).not_delivers hwf htfed
      have hfirst : first <+: c.body :=
        List.prefix_of_prefix_length_le ⟨behind, hsplit.symm⟩ (List.prefix_append _ _) (by omega)
      have hbehind : behind = c.body.drop first.length ++ rest.flatMap Command.bytes := by
        obtain ⟨left, hleft⟩ := hfirst
        rw [← hleft, List.append_assoc] at hsplit
        rw [← hleft, List.drop_left]
        exact (List.append_cancel_left hsplit).symm
      rw [hbehind] at hpieces
      rw [ht.delivers_iff hwf hset hfirst (by omega) hcontents hnext htopen hlen hpieces hoffset hused,
        and_iff_right (by omega : first.length ≤ c.body.length),
        and_iff_right (by omega : c.body.length < 2 ^ 31)]
    · have hbody := c.body_of_ne_set hset
      have hget := c.ctype_of_ne_set hset
      rw [hbody, List.nil_append] at hsplit
      rw [hbody, List.length_nil, Nat.zero_sub, readsFor_zero]
      by_cases hnil : first = []
      · subst hnil
        rw [List.append_nil] at hread
        rw [List.nil_append] at hsplit
        rw [← hsplit] at hpieces
        obtain ⟨x, t, hx, hturn, ht⟩ := hready.get hash hc hget hread
        have hflat : done.flatMap Command.bytes ++ c.line = (done ++ [c]).flatMap Command.bytes := by
          simp [Command.bytes, hbody]
        rw [hflat] at ht
        have htopen := turn_closed (hturn false) ht.inLoop h.isOpen
        rw [delivers_of_turn h.isOpen hready.inLoop hturn,
          hnext _ _ t (ht.between hcontents hx hpieces htopen hoffset hused)]
        simp
      · have hpos := List.length_pos_of_ne_nil hnil
        refine iff_of_false ?_ fun h => by omega
        exact h.not_delivers_of_behind hwf hget hnil hread

end Conn

theorem Conn.between_new (hash : Bytes → UInt32) (mem : Conn) {cmds : List Command}
    {pieces : List Bytes} (hpieces : PiecesOf (cmds.flatMap Command.bytes) pieces) :
    Conn.Between hash [] cmds false pieces ((Conn.new mem ⟨pieces.map .data⟩).enter 0 0) := by
  refine ⟨hpieces, rfl, rfl, [], 0, ?_, by decide, by decide⟩
  constructor
  · rfl
  · rfl
  · rfl
  · rfl
  · exact fun _ => rfl
  · simp [Conn.new, Conn.enter, Conn.reset, iovDescCleared]
  · rfl
  · rfl
  · rfl
  · rfl

/-- For every sequence of commands and every way in which their stream is cut, the commands are
delivered, and nothing else, exactly if the stream is well cut. -/
theorem delivers_iff_wellCut (hash : Bytes → UInt32) (mem : Conn) (cmds : List Command)
    (pieces : List Bytes) (hwf : ∀ c ∈ cmds, c.WellFormed)
    (hpieces : PiecesOf (cmds.flatMap Command.bytes) pieces) :
    (Conn.new mem ⟨pieces.map .data⟩).Delivers hash (cmds.map (Command.posted hash)) ↔
      WellCut false cmds pieces := by
  rw [Conn.delivers_of_callback rfl rfl]
  exact (Conn.between_new hash mem hpieces).delivers_iff hwf

def setFive : Command := .set [107] [48] [48] [53] [97, 98, 99, 100, 101]

def getKey : Command := .get [[107]]

/-- A set with its body in three pieces, a get, and a set that arrives whole. -/
def setGetSet : List Bytes :=
  [setFive.line ++ [97, 98], [99], [100, 101, 13, 10], getKey.line, setFive.bytes]

theorem delivers_setGetSet :
    ((∀ c ∈ [setFive, getKey, setFive], c.WellFormed) ∧
      PiecesOf ([setFive, getKey, setFive].flatMap Command.bytes) setGetSet) ∧
    (Conn.new .zeroed ⟨setGetSet.map .data⟩).Delivers (fun _ => 0)
      ([setFive, getKey, setFive].map (Command.posted fun _ => 0)) := by
  have hwf : ∀ c ∈ [setFive, getKey, setFive], c.WellFormed := by
    simp only [List.forall_mem_cons]
    exact ⟨by decide, by decide, by decide, List.forall_mem_nil _⟩
  have hpieces : PiecesOf ([setFive, getKey, setFive].flatMap Command.bytes) setGetSet :=
    ⟨rfl, by decide⟩
  exact ⟨⟨hwf, hpieces⟩, (delivers_iff_wellCut _ _ _ _ hwf hpieces).mpr (by decide)⟩

/-- Two gets in one read: the second one is lost. -/
theorem deliversCommands_fails : ¬ ∀ (mem : Conn) (cmds : List Command) (pieces pieces' : List Bytes),
    (∀ c ∈ cmds, c.WellFormed) → PiecesOf (cmds.flatMap Command.bytes) pieces →
    PiecesOf (cmds.flatMap Command.bytes) pieces' →
      (Conn.new mem ⟨pieces.map .data⟩).Delivers (fun _ => 0)
        (cmds.map (Command.posted fun _ => 0)) ∧
      (Conn.new mem ⟨pieces'.map .data⟩).Delivers (fun _ => 0)
        (cmds.map (Command.posted fun _ => 0)) := by
  intro hall
  have hwf : ∀ c ∈ [getKey, getKey], c.WellFormed := by
    simp only [List.forall_mem_cons]
    exact ⟨by decide, by decide, List.forall_mem_nil _⟩
  have hone : PiecesOf ([getKey, getKey].flatMap Command.bytes) [getKey.line ++ getKey.line] :=
    ⟨rfl, by decide⟩
  have htwo : PiecesOf ([getKey, getKey].flatMap Command.bytes) [getKey.line, getKey.line] :=
    ⟨rfl, by decide⟩
  have hdelivers := (hall .zeroed _ _ _ hwf htwo hone).2
  rw [Conn.delivers_of_callback rfl rfl] at hdelivers
  have hcut := ((Conn.between_new (fun _ => 0) .zeroed hone).delivers_iff hwf).mp hdelivers
  exact absurd hcut (by decide)

end Acached.Receive
