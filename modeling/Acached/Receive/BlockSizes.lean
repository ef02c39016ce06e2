import Acached.Receive.Calls

/-! # The sizes on record

`iovec_alloc_size` of an index is written before it is read: with each new block
of a line, and with each new block of a body. Two connections that differ in
nothing but these sizes receive the same commands from then on.
-/
namespace Acached.Receive
open CString Dispatch Execution

namespace Conn

def resize (a : ℕ → ℕ) (s : Conn) : Conn :=
  { s with slot := fun i => { s.slot i with allocSize := a i } }

/-- `t` is `s` with other sizes on record, though not at `iovIndex`. -/
def Resized (s t : Conn) : Prop := ∃ a, t = s.resize a ∧ a s.iovIndex = s.cur.allocSize

/-- The size at `iovIndex` may differ too while no block there is read into. -/
def SameButSizes (s t : Conn) : Prop :=
  ∃ a, t = s.resize a ∧ (s.state = .bodyWait → a s.iovIndex = s.cur.allocSize)

variable {s t : Conn} {f : IovSlot → IovSlot} {a : ℕ → ℕ}

theorem Resized.sameButSizes (h : Resized s t) : SameButSizes s t := by
  obtain ⟨a, ht, ha⟩ := h
  exact ⟨a, ht, fun _ => ha⟩

theorem Resized.cur (h : Resized s t) : t.cur = s.cur := by
  obtain ⟨a, rfl, ha⟩ := h
  change { s.cur with allocSize := a s.iovIndex } = s.cur
  rw [ha]

theorem modify_resize (hf : ∀ c x, f { c with allocSize := x } = { f c with allocSize := x })
    (i : ℕ) : (s.resize a).modify i f = (s.modify i f).resize a := by
  unfold modify resize
  congr 1
  funext j
  by_cases hj : j = i
  · subst j
    simp only [Function.update_self]
    exact hf _ _
  · simp only [Function.update_of_ne hj]

theorem modify_cur_allocSize (hf : ∀ c x, f { c with allocSize := x } = { f c with allocSize := x })
    (i : ℕ) : (s.modify i f).cur.allocSize = s.cur.allocSize := by
  have hkeep (c : IovSlot) : (f c).allocSize = c.allocSize := by
    have hsame := congrArg IovSlot.allocSize (hf c c.allocSize)
    exact hsame
  unfold Conn.cur modify
  by_cases hi : s.iovIndex = i
  · simp only [hi, Function.update_self, hkeep]
  · simp only [Function.update_of_ne hi]

theorem Resized.modify (h : Resized s t)
    (hf : ∀ c x, f { c with allocSize := x } = { f c with allocSize := x }) (i : ℕ) :
    Resized (s.modify i f) (t.modify i f) := by
  obtain ⟨a, rfl, ha⟩ := h
  exact ⟨a, modify_resize hf i, ha.trans (modify_cur_allocSize hf i).symm⟩

theorem Resized.setState (h : Resized s t) (state : AConnState) :
    Resized (s.setState state) (t.setState state) := by
  obtain ⟨a, rfl, ha⟩ := h
  exact ⟨a, rfl, ha⟩

theorem Resized.setPending (h : Resized s t) (b : Bool) :
    Resized (s.setPending b) (t.setPending b) := by
  obtain ⟨a, rfl, ha⟩ := h
  exact ⟨a, rfl, ha⟩

theorem Resized.setErrorApp (h : Resized s t) (num : AErrNum) :
    Resized (s.setErrorApp num) (t.setErrorApp num) := by
  obtain ⟨a, rfl, ha⟩ := h
  exact ⟨a, rfl, ha⟩

theorem Resized.readFailed (h : Resized s t) (sock : Sock) (e : Errno) :
    Resized (s.readFailed sock e) (t.readFailed sock e) := by
  obtain ⟨a, rfl, ha⟩ := h
  exact ⟨a, rfl, ha⟩

theorem Resized.streamEnded (h : Resized s t) (sock : Sock) :
    Resized (s.streamEnded sock) (t.streamEnded sock) := by
  obtain ⟨a, rfl, ha⟩ := h
  exact ⟨a, rfl, ha⟩

theorem Resized.took (h : Resized s t) (sock : Sock) (bytes : Bytes) :
    Resized (s.took sock bytes) (t.took sock bytes) := by
  obtain ⟨a, rfl, ha⟩ := h
  exact ⟨a, rfl, ha⟩

theorem Resized.awaitBody (h : Resized s t) (header : Header) :
    Resized (s.awaitBody header) (t.awaitBody header) := by
  obtain ⟨a, rfl, ha⟩ := h
  exact ⟨a, rfl, ha⟩

theorem Resized.iovIndex (h : Resized s t) : t.iovIndex = s.iovIndex := by
  obtain ⟨a, rfl, -⟩ := h
  rfl

/-! ## One call -/

abbrev SameCall (r r' : Conn × ℤ) : Prop := Resized r.1 r'.1 ∧ r.2 = r'.2

theorem Resized.leftOver (h : Resized s t) (n : ℕ) : Resized (s.leftOver n) (t.leftOver n) := by
  unfold Conn.leftOver
  rw [h.cur, h.iovIndex]
  split
  · exact (h.modify (fun _ _ => rfl) _).setPending true
  · exact h

theorem Resized.headed (h : Resized s t) (ctype : ACmdType) (buf : Bytes) (n : ℕ) (block : Bytes) :
    Resized (s.headed ctype buf n block) (t.headed ctype buf n block) := by
  obtain ⟨a, rfl, ha⟩ := h
  have hline : Resized { s with ctype := ctype, iovIndexHdr := s.iovIndex, line := buf.take (n - 2) }
      { s.resize a with ctype := ctype, iovIndexHdr := s.iovIndex, line := buf.take (n - 2) } :=
    ⟨a, rfl, ha⟩
  exact hline.modify (fun _ _ => rfl) _

theorem Resized.stored (h : Resized s t) (buf : Bytes) : Resized (s.stored buf) (t.stored buf) := by
  obtain ⟨a, rfl, ha⟩ := h
  have hfirst : Resized { s with refused := false } { s.resize a with refused := false } :=
    ⟨a, rfl, ha⟩
  exact hfirst.modify (fun _ _ => rfl) _

theorem Resized.lineComplete (h : Resized s t) (ctype : ACmdType) (buf : Bytes) (n : ℕ)
    (block : Bytes) :
    Option.Rel SameCall (s.lineComplete ctype buf n block) (t.lineComplete ctype buf n block) := by
  have hheader : t.header = s.header := by
    obtain ⟨a, rfl, -⟩ := h
    rfl
  have hline := h.headed ctype buf n block
  unfold Conn.lineComplete
  rw [hheader]
  split
  · split
    · exact .none
    · exact .some ⟨(hline.awaitBody _).setErrorApp _, rfl⟩
    · exact .some ⟨(hline.awaitBody _).leftOver n, rfl⟩
  · exact .some ⟨(hline.setState _).leftOver n, rfl⟩

theorem Resized.lineRead (h : Resized s t) (buf : Bytes) :
    Option.Rel SameCall (s.lineRead buf) (t.lineRead buf) := by
  unfold Conn.lineRead
  rw [h.cur]
  split
  · exact .none
  · exact .some ⟨h.setErrorApp _, rfl⟩
  · split
    · exact .none
    · exact .none
    · exact h.lineComplete ..

/-- The block of a line gets its size before anything else. -/
theorem newBlock_resized (s : Conn) (a : ℕ → ℕ) : Resized s.newBlock (s.resize a).newBlock := by
  refine ⟨Function.update a s.iovIndex cmdWaitInit, ?_, ?_⟩
  · unfold newBlock Conn.modify resize
    congr 1
    funext j
    by_cases hj : j = s.iovIndex
    · subst j
      simp only [Function.update_self]
    · simp only [Function.update_of_ne hj]
  · simp only [newBlock, Conn.modify, Conn.cur, Function.update_self]

theorem cmdWait_resize (s : Conn) (a : ℕ → ℕ) :
    Option.Rel SameCall s.cmdWait (s.resize a).cmdWait := by
  have hblock := newBlock_resized s a
  have hsock : (s.resize a).sock = s.sock := rfl
  unfold cmdWait
  rw [hsock]
  split
  · exact .some ⟨hblock.readFailed _ _, rfl⟩
  · exact .some ⟨hblock.streamEnded _, rfl⟩
  · exact ((hblock.took _ _).stored _).lineRead _

theorem Resized.bodyEnd (h : Resized s t) : SameCall s.bodyEnd t.bodyEnd := by
  unfold Conn.bodyEnd
  rw [h.cur, h.iovIndex]
  split
  · exact ⟨(h.modify (fun _ _ => rfl) _).setState _, rfl⟩
  · exact ⟨(h.modify (fun _ _ => rfl) _).setState _, rfl⟩

theorem Resized.filled (h : Resized s t) (pos : ℕ) (buf : Bytes) :
    Resized (s.filled pos buf) (t.filled pos buf) := by
  unfold Conn.filled
  rw [h.iovIndex]
  exact h.modify (fun _ _ => rfl) _

theorem Resized.bodyRead (h : Resized s t) (pos len : ℕ) :
    Option.Rel SameCall (s.bodyRead pos len) (t.bodyRead pos len) := by
  have hsock : t.sock = s.sock := by
    obtain ⟨a, rfl, -⟩ := h
    rfl
  unfold Conn.bodyRead
  rw [hsock, h.cur]
  split
  · exact .some h.bodyEnd
  split
  · exact .some ⟨h.readFailed _ _, rfl⟩
  split
  · exact .some ⟨h.readFailed _ _, rfl⟩
  · exact .some ⟨h.streamEnded _, rfl⟩
  · split
    · exact .none
    · exact .some ((h.took _ _).filled _ _).bodyEnd

theorem Resized.newBody (h : Resized s t) (n : ℕ) : Resized (s.newBody n) (t.newBody n) := by
  obtain ⟨a, rfl, -⟩ := h
  refine ⟨Function.update a (s.iovIndex + 1) s.bodySize, ?_, ?_⟩
  · unfold Conn.newBody Conn.modify resize
    congr 1
    funext j
    by_cases hj : j = s.iovIndex + 1
    · subst j
      simp only [Function.update_self]
      rfl
    · simp only [Function.update_of_ne hj]
  · simp only [Conn.newBody, Conn.modify, Conn.cur, Function.update_self]

theorem Resized.bodyPrepare (h : Resized s t) :
    Option.Rel (fun r r' => Resized r.1 r'.1 ∧ r.2 = r'.2) s.bodyPrepare t.bodyPrepare := by
  have hcur := h.cur
  have hindex := h.iovIndex
  have hfields : t.dataPendingRead = s.dataPendingRead ∧ t.bodySize = s.bodySize ∧
      t.pending = s.pending ∧ t.bodyRest = s.bodyRest := by
    obtain ⟨a, rfl, -⟩ := h
    exact ⟨rfl, rfl, rfl, rfl⟩
  obtain ⟨hflag, hsize, hpending, hrest⟩ := hfields
  have hmore := (h.newBody s.bodySize).modify (f := fun c => { c with baseOffset := s.bodySize })
    (fun _ _ => rfl) s.iovIndex
  unfold Conn.bodyPrepare bodyFirst copied
  rw [hcur, hindex, hflag, hsize, hpending, hrest]
  split
  · split
    · exact .none
    · exact .some ⟨h, rfl⟩
  split
  · exact .none
  split
  · exact .some ⟨h.newBody _, rfl⟩
  split
  · exact .none
  split
  · exact .some ⟨hmore, rfl⟩
  · exact .some ⟨(((h.newBody _).modify (fun _ _ => rfl) _).modify
      (fun _ _ => rfl) _).setPending _, rfl⟩

theorem Resized.bodyWait (h : Resized s t) : Option.Rel SameCall s.bodyWait t.bodyWait := by
  have hheader : t.header = s.header := by
    obtain ⟨a, rfl, -⟩ := h
    rfl
  have hprep := h.bodyPrepare
  unfold Conn.bodyWait
  rw [hheader]
  split
  · exact .some ⟨(h.setErrorApp _).setState _, rfl⟩
  · generalize s.bodyPrepare = o at hprep ⊢
    generalize t.bodyPrepare = o' at hprep ⊢
    cases hprep with
    | none => exact .none
    | some hrel =>
      next r r' =>
      obtain ⟨p, pos, len⟩ := r
      obtain ⟨p', pos', len'⟩ := r'
      obtain ⟨hresized, heq⟩ := hrel
      simp only [Prod.mk.injEq] at heq
      obtain ⟨rfl, rfl⟩ := heq
      exact hresized.bodyRead pos len

theorem SameButSizes.processDataRecv (h : SameButSizes s t) :
    Option.Rel SameCall s.processDataRecv t.processDataRecv := by
  obtain ⟨a, rfl, ha⟩ := h
  have hstate : (s.resize a).state = s.state := rfl
  unfold Conn.processDataRecv
  rw [hstate]
  split
  · exact cmdWait_resize s a
  · next hbody => exact Resized.bodyWait ⟨a, rfl, ha hbody⟩
  · exact .none
  · exact .none

/-! ## The loop -/

theorem SameButSizes.reset (h : SameButSizes s t) : SameButSizes s.reset t.reset := by
  obtain ⟨a, rfl, -⟩ := h
  exact ⟨a, rfl, fun hstate => by cases hstate⟩

theorem SameButSizes.leaveLoop (h : SameButSizes s t) : SameButSizes s.leaveLoop t.leaveLoop := by
  obtain ⟨a, rfl, ha⟩ := h
  exact ⟨a, rfl, ha⟩

theorem SameButSizes.closeConnection (h : SameButSizes s t) :
    SameButSizes s.closeConnection t.closeConnection := by
  obtain ⟨a, rfl, -⟩ := h
  exact ⟨a, rfl, fun hstate => by cases hstate⟩

theorem SameButSizes.post (hash : Bytes → UInt32) (h : SameButSizes s t) :
    Option.Rel SameButSizes (s.post hash) (t.post hash) := by
  obtain ⟨a, rfl, -⟩ := h
  have hon : SameButSizes (s.handOn hash) ((s.resize a).handOn hash) :=
    ⟨a, rfl, fun hstate => by cases hstate⟩
  have hfree : SameButSizes (s.handOn hash).freeHeader ((s.resize a).handOn hash).freeHeader := by
    refine ⟨fun i => if i ≤ s.iovIndexHdr then 0 else a i, ?_, fun hstate => by cases hstate⟩
    unfold freeHeader handOn resize
    congr 1
    funext i
    dsimp only
    split
    · rfl
    · rfl
  have hfields : (s.resize a).ctype = s.ctype ∧ (s.resize a).iovIndex = s.iovIndex := ⟨rfl, rfl⟩
  have hheader : (∀ i ≤ (s.resize a).iovIndexHdr,
      ((s.resize a).slot i).hdr = true ∨ ((s.resize a).slot i).hdrPart = true) =
        ∀ i ≤ s.iovIndexHdr, (s.slot i).hdr = true ∨ (s.slot i).hdrPart = true := rfl
  unfold Conn.post
  simp only [hfields.1, hfields.2, hheader]
  cases s.ctype with
  | gets =>
    dsimp only
    split
    · exact .some hon
    · exact .none
  | set =>
    dsimp only
    split
    · exact .some hfree
    · exact .none
  | quit => exact .some hon
  | _ => exact .none

theorem SameButSizes.leave (h : SameButSizes s t) (ret : ℤ) :
    SameButSizes (s.leave ret) (t.leave ret) := by
  have hfields : t.aerr = s.aerr ∧ t.errno = s.errno := by
    obtain ⟨a, rfl, -⟩ := h
    exact ⟨rfl, rfl⟩
  unfold Conn.leave
  rw [hfields.1, hfields.2]
  split
  · exact h.closeConnection
  split
  · split
    · exact h.leaveLoop
    · exact h.closeConnection
  · exact h.leaveLoop.reset
  · exact h.leaveLoop

theorem SameButSizes.dispose (hash : Bytes → UInt32) (busy : Bool) (h : SameButSizes s t)
    (ret : ℤ) : Option.Rel SameButSizes (s.dispose hash busy ret) (t.dispose hash busy ret) := by
  have hfields : t.state = s.state ∧ t.ctype = s.ctype ∧ t.dataPendingRead = s.dataPendingRead := by
    obtain ⟨a, rfl, -⟩ := h
    exact ⟨rfl, rfl, rfl⟩
  obtain ⟨hstate, hctype, hflag⟩ := hfields
  have hpost := h.post hash
  unfold Conn.dispose
  rw [hstate, hctype, hflag]
  generalize s.post hash = o at hpost ⊢
  generalize t.post hash = o' at hpost ⊢
  have hposted : Option.Rel SameButSizes (o.map Conn.reset) (o'.map Conn.reset) := by
    cases hpost with
    | none => exact .none
    | some hrel => exact .some hrel.reset
  split
  · split
    · exact hposted
    · exact hposted
    · cases hpost with
      | none => exact .none
      | some hrel =>
        cases busy
        · exact .some hrel.closeConnection
        · exact .some hrel.leaveLoop
    · exact .some h.reset
  split
  · exact .some h
  · exact .some (h.leave ret)

theorem SameButSizes.turn (hash : Bytes → UInt32) (busy : Bool) (h : SameButSizes s t) :
    Option.Rel SameButSizes (s.turn hash busy) (t.turn hash busy) := by
  have hcall := h.processDataRecv
  unfold Conn.turn
  generalize s.processDataRecv = o at hcall ⊢
  generalize t.processDataRecv = o' at hcall ⊢
  cases hcall with
  | none => exact .none
  | some hrel =>
    next r r' =>
    obtain ⟨u, ret⟩ := r
    obtain ⟨u', ret'⟩ := r'
    obtain ⟨hresized, heq⟩ := hrel
    dsimp only at heq hresized
    subst heq
    exact hresized.sameButSizes.dispose hash busy ret

theorem SameButSizes.enter (h : SameButSizes s t) (reqCount replyCount : ℕ) :
    SameButSizes (s.enter reqCount replyCount) (t.enter reqCount replyCount) := by
  obtain ⟨a, rfl, ha⟩ := h
  have hfields : (s.resize a).state = s.state ∧ (s.resize a).sock = s.sock := ⟨rfl, rfl⟩
  unfold Conn.enter
  rw [hfields.1, hfields.2]
  split
  · split
    · exact ⟨a, rfl, fun hstate => by cases hstate⟩
    · exact ⟨a, rfl, ha⟩
    · exact ⟨a, rfl, ha⟩
  · exact ⟨a, rfl, ha⟩

theorem SameButSizes.recvStep (hash : Bytes → UInt32) (act : RecvAct) (h : SameButSizes s t) :
    Option.Rel SameButSizes (recvStep hash s act) (recvStep hash t act) := by
  have hfields : t.closed = s.closed ∧ t.inLoop = s.inLoop := by
    obtain ⟨a, rfl, -⟩ := h
    exact ⟨rfl, rfl⟩
  unfold Receive.recvStep
  rw [hfields.1, hfields.2]
  split
  · split
    · exact .some (h.enter _ _)
    · exact .none
  · split
    · exact h.turn hash _
    · exact .none

theorem SameButSizes.delivered (h : SameButSizes s t) : t.delivered = s.delivered := by
  obtain ⟨a, rfl, -⟩ := h
  rfl

/-- Runs of the comm thread that differ in sizes on record deliver the same. -/
theorem SameButSizes.exec (hash : Bytes → UInt32) (h : SameButSizes s t) (acts : List RecvAct) :
    (exec (Receive.recvStep hash) t acts).map Conn.delivered =
      (exec (Receive.recvStep hash) s acts).map Conn.delivered := by
  have hrel := exec_rel (fun _ _ act h => SameButSizes.recvStep hash act h) h acts
  generalize Execution.exec (Receive.recvStep hash) s acts = o at hrel ⊢
  generalize Execution.exec (Receive.recvStep hash) t acts = o' at hrel ⊢
  cases hrel with
  | none => rfl
  | some hend => exact congrArg some hend.delivered

end Conn
end Acached.Receive
