/-
  RandVerifier.Control — what an instruction leaves alone.

  `SameFrames`: the frames of a state, without what they hold. Every successor of an
  instruction but a subprogram call has the frames of its predecessor. `SameControl` adds
  the held references: only runtime calls and NULL checks of acquired buffers change them.
-/

import RandVerifier.Runtime

namespace RandVerifier

/-- The same depth, the same return addresses, the same program type. -/
structure SameFrames (st st' : VerifierState) : Prop where
  curframe : st'.curframe = st.curframe
  retPc : st'.retPc = st.retPc
  progType : st'.progType = st.progType
  callers : ∀ k, (st'.saved k).map (·.retPc) = (st.saved k).map (·.retPc)

/-- The same frames and the same held references. -/
structure SameControl (st st' : VerifierState) : Prop extends SameFrames st st' where
  refs : st'.refs = st.refs
  refsCnt : st'.refsCnt = st.refsCnt

namespace SameFrames

theorem refl (st : VerifierState) : SameFrames st st := ⟨rfl, rfl, rfl, fun _ => rfl⟩

theorem trans {a b c : VerifierState} (h1 : SameFrames a b) (h2 : SameFrames b c) : SameFrames a c :=
  ⟨h2.curframe.trans h1.curframe, h2.retPc.trans h1.retPc, h2.progType.trans h1.progType,
    fun k => (h2.callers k).trans (h1.callers k)⟩

/-- The same callers are active. -/
theorem isSome {st st' : VerifierState} (h : SameFrames st st') (k : Nat) :
    (st'.saved k).isSome = (st.saved k).isSome := by
  rw [← Option.isSome_map (x := st'.saved k), h.callers k, Option.isSome_map]

end SameFrames

namespace SameControl

theorem refl (st : VerifierState) : SameControl st st := ⟨.refl st, rfl, rfl⟩

theorem trans {a b c : VerifierState} (h1 : SameControl a b) (h2 : SameControl b c) : SameControl a c :=
  ⟨h1.toSameFrames.trans h2.toSameFrames, h2.refs.trans h1.refs, h2.refsCnt.trans h1.refsCnt⟩

variable {st st' : VerifierState} {pc : Nat}

/-- Only registers and the current stack differ. -/
theorem current (regs : Regs) (stack : StackState) :
    SameControl st { st with regs := regs, stack := stack } := ⟨⟨rfl, rfl, rfl, fun _ => rfl⟩, rfl, rfl⟩

theorem setReg (h : SameControl st st') (r : Reg) (v : RegState) : SameControl st (st'.setReg r v) :=
  h.trans (current _ _)

theorem setFrameStack (h : SameControl st st') (k : Nat) (s : StackState) :
    SameControl st (setFrameStack st' k s) := by
  refine h.trans ?_
  unfold RandVerifier.setFrameStack
  split
  · exact current _ _
  · refine ⟨⟨rfl, rfl, rfl, fun j => ?_⟩, rfl, rfl⟩
    dsimp only
    rw [Function.update_apply]
    split
    · rename_i hj
      subst hj
      cases st'.saved j <;> rfl
    · rfl

/-! ## Straight-line instructions -/

theorem aluImm {dst : Reg} {imm : Int32} {op : AluOp} {width : AluWidth}
    (h : aluImm pc st dst imm op width = .ok st') : SameControl st st' := by
  simp only [RandVerifier.aluImm, bind_eq_ok] at h
  obtain ⟨v, -, h⟩ := h
  cases h
  exact (refl st).setReg dst v

theorem aluReg {dst src : Reg} {op : AluOp} {width : AluWidth}
    (h : aluReg pc st dst src op width = .ok st') : SameControl st st' := by
  simp only [RandVerifier.aluReg, bind_eq_ok] at h
  obtain ⟨v, -, h⟩ := h
  cases h
  exact (refl st).setReg dst v

theorem mulImm {dst : Reg} {imm : Int32} {high : MulHigh}
    (h : mulImm pc st dst imm high = .ok st') : SameControl st st' := by
  unfold RandVerifier.mulImm at h
  split at h
  · exact aluImm h
  · simp only [bind_eq_ok] at h
    obtain ⟨d, -, h⟩ := h
    cases h
    exact (refl st).setReg dst _

theorem mulReg {dst src : Reg} {high : MulHigh}
    (h : mulReg pc st dst src high = .ok st') : SameControl st st' := by
  unfold RandVerifier.mulReg at h
  split at h
  · exact aluReg h
  · simp only [bind_eq_ok] at h
    obtain ⟨d, -, s, -, h⟩ := h
    split at h
    · cases h
      exact (refl st).setReg dst _
    · exact (fail_ne_ok.mp h).elim

theorem aluNeg {dst : Reg} {width : AluWidth} (h : aluNeg pc st dst width = .ok st') :
    SameControl st st' := by
  simp only [RandVerifier.aluNeg, bind_eq_ok] at h
  obtain ⟨d, -, h⟩ := h
  cases h
  exact (refl st).setReg dst _

theorem movReg {dst src : Reg} (h : movReg pc st dst src = .ok st') : SameControl st st' := by
  simp only [RandVerifier.movReg, bind_eq_ok] at h
  obtain ⟨v, -, h⟩ := h
  split at h
  · split at h
    · cases h
      exact ((refl st).setReg src _).setReg dst _
    · cases h
      exact (refl st).setReg dst _
  · cases h
    exact (refl st).setReg dst _

theorem mov32Reg {dst src : Reg} (h : mov32Reg pc st dst src = .ok st') : SameControl st st' := by
  simp only [RandVerifier.mov32Reg, bind_eq_ok] at h
  obtain ⟨b, -, h⟩ := h
  cases h
  exact (refl st).setReg dst _

theorem ldMem {dst base : Reg} {offset : Int16} {size : MemSize} {se : Bool}
    (h : ldMem pc st dst base offset size se = .ok st') : SameControl st st' := by
  simp only [RandVerifier.ldMem, bind_eq_ok] at h
  obtain ⟨v, -, h⟩ := h
  cases h
  exact (refl st).setReg dst v

theorem packetLoad (size : MemSize) : SameControl st (packetLoad st size) :=
  SameControl.setReg (current _ _) 0 _

theorem destroySlices (stack : StackState) (d : Option Nat) :
    SameControl st (destroySlices st stack d).1 := by
  cases d with
  | none => exact refl st
  | some did => exact current _ _

theorem stackWrite {base : Reg} {offset : Int16} {size : MemSize} {src : StoreSrc}
    (h : stackWrite pc base st offset size src = .ok st') : SameControl st st' := by
  simp only [RandVerifier.stackWrite, bind_eq_ok] at h
  obtain ⟨w, -, h⟩ := h
  split at h
  · simp only [bind_eq_ok, frameStackWrite] at h
    obtain ⟨_, -, stack0, -, h⟩ := h
    split at h
    · cases h
    · split at h
      · simp only [bind_eq_ok, fixedStackWrite] at h
        obtain ⟨v, -, _, -, _, -, h⟩ := h
        cases h
        exact (destroySlices _ _).setFrameStack _ _
      · split at h
        · exact (fail_ne_ok.mp h).elim
        · simp only [bind_eq_ok] at h
          obtain ⟨v, -, h⟩ := h
          cases h
          exact (destroySlices _ _).setFrameStack _ _
  · simp only [bind_eq_ok] at h
    obtain ⟨_, -, _, -, h⟩ := h
    cases h
    exact refl st
  · simp only [bind_eq_ok] at h
    obtain ⟨_, -, _, -, h⟩ := h
    cases h
    exact refl st
  · exact (fail_ne_ok.mp h).elim

theorem storeOld {src : Reg} {op : AtomicOp} {fetch : Bool} {old : RegState}
    (h : SameControl st st') : SameControl st (storeOld st' src op fetch old) := by
  unfold RandVerifier.storeOld
  split
  · exact h.setReg 0 old
  · split
    · exact h.setReg src old
    · exact h

theorem atomic {dst src : Reg} {offset : Int16} {size : MemSize} {op : AtomicOp} {fetch : Bool}
    (h : atomic pc st dst src offset size op fetch = .ok st') : SameControl st st' := by
  simp only [RandVerifier.atomic, bind_eq_ok] at h
  obtain ⟨base, -, _, -, _, -, h⟩ := h
  split at h
  · simp only [atomicStack, bind_eq_ok] at h
    obtain ⟨_, -, _, -, old, -, _, -, h⟩ := h
    cases h
    exact storeOld (current _ _)
  · simp only [bind_eq_ok] at h
    obtain ⟨_, -, h⟩ := h
    cases h
    exact storeOld (refl st)
  · exact (fail_ne_ok.mp h).elim

/-- An instruction that is no call. -/
theorem step {insn : BpfInsn} (hcall : insn.isRuntimeCall = false) (hsub : insn.isCallSub = false)
    (h : step pc st insn = .ok st') : SameControl st st' := by
  cases insn with
  | movImm | mov32Imm | ldImm64 | ldMapFd | ldMapValue =>
    cases h
    exact (refl st).setReg _ _
  | ldImm64Second =>
    cases h
    exact refl st
  | mov32Reg => exact mov32Reg h
  | ldAbs =>
    simp only [RandVerifier.step, bind_eq_ok] at h
    obtain ⟨_, -, h⟩ := h
    cases h
    exact packetLoad _
  | ldInd =>
    simp only [RandVerifier.step, bind_eq_ok] at h
    obtain ⟨_, -, _, -, h⟩ := h
    cases h
    exact packetLoad _
  | atomic => exact atomic h
  | movReg => exact movReg h
  | callSub => cases hsub
  | call | callKfunc => cases hcall
  | exit | jmp | jeq | jne | jgt | jge | jlt | jle | jsgt | jsge | jslt | jsle | jeqImm | jneImm
  | jgtImm | jgeImm | jltImm | jleImm | jsgtImm | jsgeImm | jsltImm | jsleImm => cases h
  | jset | jsetImm | jmp32 => exact (fail_ne_ok.mp h).elim
  | addImm | subImm | andImm | orImm | xorImm | lshImm | rshImm | arshImm | add32Imm | sub32Imm
  | and32Imm | or32Imm | xor32Imm | lsh32Imm | rsh32Imm | arsh32Imm | divImm | modImm | mul32Imm
  | div32Imm | mod32Imm => exact aluImm h
  | addReg | subReg | andReg | orReg | xorReg | lshReg | rshReg | arshReg | add32Reg | sub32Reg
  | and32Reg | or32Reg | xor32Reg | lsh32Reg | rsh32Reg | arsh32Reg | divReg | modReg | mul32Reg
  | div32Reg | mod32Reg => exact aluReg h
  | mulImm => exact mulImm h
  | mulReg => exact mulReg h
  | neg | neg32 => exact aluNeg h
  | stMem | stMemImm => exact stackWrite h
  | ldMem => exact ldMem h

/-! ## Branches -/

theorem syncLinkedScalars (h : SameControl st st') (id : Nat) (kd : Int) (known : ScalarBounds) :
    SameControl st (syncLinkedScalars st' id kd known) := by
  unfold RandVerifier.syncLinkedScalars
  split
  · exact h
  · exact h.trans (current _ _)

theorem refinedSide {dst : Reg} {srcReg : Option Reg} {d s : ScalarBounds} {r : RefinedPair} :
    SameControl st (refinedSide st dst srcReg d s r) := by
  have h1 : SameControl st (st.setReg dst (.scalar r.1)) := (refl st).setReg _ _
  cases srcReg with
  | none => exact h1.syncLinkedScalars _ _ _
  | some src => exact ((h1.setReg _ _).syncLinkedScalars _ _ _).syncLinkedScalars _ _ _

theorem scalarBranch {t f : Nat} {dst : Reg} {srcReg : Option Reg} {d s : ScalarBounds}
    {op : CondOp} {x : Succ} (hx : x ∈ scalarBranch t f dst srcReg d s op st) : SameControl st x.2 := by
  simp only [RandVerifier.scalarBranch] at hx
  split at hx <;> simp only [List.mem_cons, List.not_mem_nil, or_false] at hx
  · subst hx
    exact refinedSide
  · subst hx
    exact refinedSide
  · rcases hx with rfl | rfl <;> exact refinedSide

theorem branchOrBoth {offset : Int16} {taken : Option Bool} {x : Succ}
    (hx : x ∈ branchOrBoth pc offset taken st) : SameControl st x.2 := by
  unfold RandVerifier.branchOrBoth at hx
  split at hx <;> simp only [List.mem_cons, List.not_mem_nil, or_false] at hx
  · subst hx
    exact refl st
  · subst hx
    exact refl st
  · rcases hx with rfl | rfl <;> exact refl st

theorem jsetNotTaken {dst : Reg} {imm : Int32} : SameControl st (jsetNotTaken dst imm st) := by
  unfold RandVerifier.jsetNotTaken
  split
  · exact (refl st).setReg _ _
  · exact refl st

end SameControl

/-- The NULL side of the check of an acquired buffer in `r`. -/
def memNullSide (st : VerifierState) (r : Reg) (id : Nat) : VerifierState :=
  (((st.dropRef id).getD st).mapCurrent (nullMem id)).setReg r (.scalar (.constant 0))

/-- The registers that a comparison may check for NULL. -/
def BpfInsn.compared : BpfInsn → List Reg
  | .jeq dst src _ | .jne dst src _ | .jgt dst src _ | .jge dst src _ | .jlt dst src _ | .jle dst src _
  | .jsgt dst src _ | .jsge dst src _ | .jslt dst src _ | .jsle dst src _ => [dst, src]
  | .jeqImm dst _ _ | .jneImm dst _ _ | .jgtImm dst _ _ | .jgeImm dst _ _ | .jltImm dst _ _
  | .jleImm dst _ _ | .jsgtImm dst _ _ | .jsgeImm dst _ _ | .jsltImm dst _ _ | .jsleImm dst _ _ => [dst]
  | _ => []

section Successors

variable {st : VerifierState} {pc : Nat} {l : List Succ} {x : Succ}

theorem ptrRegOf_mem {dst r : Reg} {srcReg : Option Reg} {b : Bool} (h : ptrRegOf dst srcReg b = .ok r) :
    r = dst ∨ srcReg = some r := by
  unfold ptrRegOf at h
  split at h
  · cases h
    exact .inl rfl
  · split at h
    · cases h
      exact .inr rfl
    · cases h

/-- A comparison keeps the control part of a state, but for the NULL side of a check. -/
theorem condBranchImpl_control {dst : Reg} {srcReg : Option Reg} {srcState : RegState}
    {offset : Int16} {op : CondOp} (hsrc : ∀ src, srcReg = some src → st.regs src = srcState)
    (hl : condBranchImpl pc dst srcReg srcState offset op st = .ok l) (hx : x ∈ l) :
    SameControl st x.2 ∨ ∃ r id parent size, (r = dst ∨ srcReg = some r) ∧
      st.regs r = .ptrToMemOrNull id parent size ∧ x.2 = memNullSide st r id := by
  have hboth : ∀ t f : Nat, x ∈ [(t, st), (f, st)] → SameControl st x.2 := by
    intro t f hx
    simp only [List.mem_cons, List.not_mem_nil, or_false] at hx
    rcases hx with rfl | rfl <;> exact .refl st
  simp only [condBranchImpl, bind_eq_ok, readReg_eq_ok] at hl
  obtain ⟨d, ⟨hd, -⟩, hl⟩ := hl
  split at hl
  · cases hl
    exact .inl (.scalarBranch hx)
  · simp only [bind_eq_ok] at hl
    obtain ⟨_, -, r, -, hl⟩ := hl
    cases hl
    rcases nullCheck_mem hx with hx | hx <;> rw [hx] <;>
      exact .inl ((SameControl.current _ _).setReg _ _)
  · rename_i id hk
    simp only [bind_eq_ok] at hl
    obtain ⟨_, -, r, hr, hl⟩ := hl
    cases hl
    obtain ⟨par, sz, b, -, hk⟩ := cmpKind_nullMem hk
    have hreg : st.regs r = .ptrToMemOrNull id par sz := by
      refine ptrRegOf_eq hd hsrc ?_ hr
      rcases hk with ⟨rfl, -⟩ | ⟨rfl, rfl⟩
      · exact .inl ⟨rfl, rfl⟩
      · exact .inr ⟨rfl, rfl⟩
    rcases nullCheck_mem hx with hx | hx <;> rw [hx]
    · exact .inr ⟨r, id, par, sz, ptrRegOf_mem hr, hreg, rfl⟩
    · exact .inl ((SameControl.current _ _).setReg _ _)
  · simp only [bind_eq_ok] at hl
    obtain ⟨_, -, hl⟩ := hl
    cases hl
    exact .inl (hboth _ _ hx)
  · simp only [bind_eq_ok] at hl
    obtain ⟨_, -, hl⟩ := hl
    cases hl
    exact .inl (hboth _ _ hx)
  · cases hl
    exact .inl (hboth _ _ hx)
  · cases hl
  · exact (fail_ne_ok.mp hl).elim

theorem condBranch_control {dst src : Reg} {offset : Int16} {op : CondOp}
    (hl : condBranch pc dst src offset op st = .ok l) (hx : x ∈ l) :
    SameControl st x.2 ∨ ∃ r id parent size, r ∈ [dst, src] ∧
      st.regs r = .ptrToMemOrNull id parent size ∧ x.2 = memNullSide st r id := by
  simp only [condBranch, bind_eq_ok, readReg_eq_ok] at hl
  obtain ⟨s, ⟨hs, -⟩, hl⟩ := hl
  split at hl
  · cases hl
    rw [List.mem_singleton] at hx
    subst hx
    left
    split <;> exact .refl st
  · rcases condBranchImpl_control (fun r hr => by cases hr; exact hs) hl hx with h | ⟨r, _, _, _, hr, h⟩
    · exact .inl h
    · refine .inr ⟨r, _, _, _, ?_, h⟩
      rcases hr with rfl | hr
      · exact List.mem_cons_self
      · cases hr
        exact List.mem_cons_of_mem _ List.mem_cons_self

theorem condBranchImm_control {dst : Reg} {imm : Int32} {offset : Int16} {op : CondOp}
    (hl : condBranchImm pc dst imm offset op st = .ok l) (hx : x ∈ l) :
    SameControl st x.2 ∨ ∃ r id parent size, r ∈ [dst] ∧
      st.regs r = .ptrToMemOrNull id parent size ∧ x.2 = memNullSide st r id := by
  rcases condBranchImpl_control (fun r hr => by cases hr) hl hx with h | ⟨r, _, _, _, hr, h⟩
  · exact .inl h
  · refine .inr ⟨r, _, _, _, ?_, h⟩
    rcases hr with rfl | hr
    · exact List.mem_cons_self
    · cases hr

/-- Every successor of an instruction that is no call keeps the control part of its state,
    but for the NULL side of a check. -/
theorem successors_control {insn : BpfInsn} (hcall : insn.isRuntimeCall = false)
    (hsub : insn.isCallSub = false) (hl : successors pc insn st = .ok l) (hx : x ∈ l) :
    SameControl st x.2 ∨ ∃ r id parent size, r ∈ insn.compared ∧
      st.regs r = .ptrToMemOrNull id parent size ∧ x.2 = memNullSide st r id := by
  have hstep : ∀ insn : BpfInsn, insn.isRuntimeCall = false → insn.isCallSub = false →
      (do
        let next ← step pc st insn
        Except.ok [(pc + 1, next)] : Exec (List Succ)) = .ok l → SameControl st x.2 := by
    intro insn hcall hsub hl
    simp only [bind_eq_ok] at hl
    obtain ⟨next, hs, hl⟩ := hl
    cases hl
    rw [List.mem_singleton] at hx
    subst hx
    exact .step hcall hsub hs
  cases insn with
  | exit =>
    cases hl
    cases hx
  | jmp =>
    cases hl
    rw [List.mem_singleton] at hx
    subst hx
    exact .inl (.refl st)
  | callSub => cases hsub
  | jeq | jne | jgt | jge | jlt | jle | jsgt | jsge | jslt | jsle => exact condBranch_control hl hx
  | jeqImm | jneImm | jgtImm | jgeImm | jltImm | jleImm | jsgtImm | jsgeImm | jsltImm | jsleImm =>
    exact condBranchImm_control hl hx
  | jset =>
    simp only [successors, bind_eq_ok] at hl
    obtain ⟨_, -, _, -, hl⟩ := hl
    cases hl
    exact .inl (.branchOrBoth hx)
  | jsetImm =>
    simp only [successors, bind_eq_ok] at hl
    obtain ⟨_, -, hl⟩ := hl
    left
    split at hl <;> cases hl <;> simp only [List.mem_cons, List.not_mem_nil, or_false] at hx
    · subst hx
      exact .refl st
    · subst hx
      exact .refl st
    · rcases hx with rfl | rfl
      · exact .refl st
      · exact .jsetNotTaken
  | jmp32 =>
    simp only [successors, bind_eq_ok] at hl
    obtain ⟨_, -, _, -, hl⟩ := hl
    cases hl
    exact .inl (.branchOrBoth hx)
  | _ => exact .inl (hstep _ hcall hsub hl)

/-- The successor of a subprogram call. -/
theorem successors_callSub {insn : BpfInsn} (hsub : insn.isCallSub = true)
    (hl : successors pc insn st = .ok l) :
    ∃ offset callee, insn = .callSub offset ∧ st.callSubprog (pc + 1) = .ok callee ∧
      l = [(branchTarget pc offset.toInt16, callee)] := by
  cases insn with
  | callSub offset =>
    simp only [successors, bind_eq_ok] at hl
    obtain ⟨callee, hs, hl⟩ := hl
    cases hl
    exact ⟨offset, callee, rfl, callSubprogAt_eq_ok.mp hs, rfl⟩
  | _ => cases hsub

/-- A runtime call keeps the frames. -/
theorem RuntimeEffect.sameFrames {next : VerifierState} (h : RuntimeEffect pc st next) :
    SameFrames st next.clobberArgs := by
  cases h with
  | acquire hacq =>
    obtain ⟨-, -, rfl⟩ := acquireRef_eq_ok.mp hacq
    exact ⟨rfl, rfl, rfl, fun _ => rfl⟩
  | release _ hrel =>
    obtain ⟨dropped, hd, rfl⟩ := releaseRef_eq_ok.mp hrel
    obtain ⟨i, -, -, rfl⟩ := dropRef_eq_some hd
    refine ⟨rfl, rfl, rfl, fun k => ?_⟩
    dsimp only [VerifierState.clobberArgs, VerifierState.setReg, VerifierState.invalidateReferenceAliases]
    cases st.saved k <;> rfl
  | slice | dynptr | buffer | lookup | scalar => exact ⟨rfl, rfl, rfl, fun _ => rfl⟩

theorem memNullSide_sameFrames (r : Reg) (id : Nat) : SameFrames st (memNullSide st r id) := by
  unfold memNullSide
  cases h : st.dropRef id with
  | none => exact ⟨rfl, rfl, rfl, fun _ => rfl⟩
  | some dropped =>
    obtain ⟨i, -, -, rfl⟩ := dropRef_eq_some h
    exact ⟨rfl, rfl, rfl, fun _ => rfl⟩

/-- Every successor of an instruction but a subprogram call has the same frames. -/
theorem successors_sameFrames {insn : BpfInsn} (hsub : insn.isCallSub = false)
    (hl : successors pc insn st = .ok l) (hx : x ∈ l) : SameFrames st x.2 := by
  cases hcall : insn.isRuntimeCall with
  | true =>
    obtain ⟨next, heff, rfl⟩ := successors_runtimeCall hcall hl
    rw [List.mem_singleton] at hx
    subst hx
    exact heff.sameFrames
  | false =>
    rcases successors_control hcall hsub hl hx with h | ⟨r, id, parent, size, -, -, h⟩
    · exact h.toSameFrames
    · rw [h]
      exact memNullSide_sameFrames r id

end Successors

end RandVerifier
