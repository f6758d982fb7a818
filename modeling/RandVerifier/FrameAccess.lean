/-
  RandVerifier.FrameAccess — the frames that a stack access reads and writes.

  `Untouched pc insn st g`: the outcome of an instruction does not depend on the stack of
  frame `g`, and leaves it as it was.

  - `memory_untouched`: a load, store or atomic touches no frame but the one that its base
    register points into.
  - `stackHelper_untouched`: so does a helper call whose stack arguments point into the
    current frame. The helper checks read the current frame's stack whatever frame their
    pointers name.
-/

import RandVerifier.Frames

namespace RandVerifier

/-! ## Replacing the stack of a frame -/

section Swap

variable {st : VerifierState} {g : Nat} {s : StackState}

@[simp] theorem setFrameStack_regs : (setFrameStack st g s).regs = st.regs := by
  unfold setFrameStack
  split <;> rfl

@[simp] theorem setFrameStack_curframe : (setFrameStack st g s).curframe = st.curframe := by
  unfold setFrameStack
  split <;> rfl

@[simp] theorem setFrameStack_progType : (setFrameStack st g s).progType = st.progType := by
  unfold setFrameStack
  split <;> rfl

theorem setFrameStack_stack (hg : g ≠ st.curframe) : (setFrameStack st g s).stack = st.stack := by
  unfold setFrameStack
  rw [if_neg hg]

@[simp] theorem readReg_setFrameStack (pc : Nat) (r : Reg) :
    readReg pc (setFrameStack st g s) r = readReg pc st r := by
  unfold readReg
  rw [setFrameStack_regs]

@[simp] theorem readScalar_setFrameStack (pc : Nat) (r : Reg) :
    readScalar pc (setFrameStack st g s) r = readScalar pc st r := by
  unfold readScalar
  rw [readReg_setFrameStack]

theorem setReg_setFrameStack (r : Reg) (v : RegState) :
    (setFrameStack st g s).setReg r v = setFrameStack (st.setReg r v) g s := by
  by_cases hg : g = st.curframe <;> simp only [setFrameStack, VerifierState.setReg, hg, if_true, if_false]

theorem clobberArgs_setFrameStack :
    (setFrameStack st g s).clobberArgs = setFrameStack st.clobberArgs g s := by
  by_cases hg : g = st.curframe <;>
    simp only [setFrameStack, VerifierState.clobberArgs, hg, if_true, if_false]

theorem frameStack_setFrameStack {f : Nat} (hf : f ≠ g) :
    frameStack (setFrameStack st g s) f = frameStack st f := by
  unfold frameStack setFrameStack
  by_cases hg : g = st.curframe
  · rw [if_pos hg]
    by_cases hcur : f = st.curframe
    · exact absurd (hcur.trans hg.symm) hf
    · rw [if_neg hcur, if_neg hcur]
  · rw [if_neg hg]
    dsimp only
    rw [Function.update_of_ne hf]

theorem setFrameStack_comm {f : Nat} {s' : StackState} (hf : f ≠ g) :
    setFrameStack (setFrameStack st g s) f s' = setFrameStack (setFrameStack st f s') g s := by
  by_cases hg : g = st.curframe
  · have hfc : f ≠ st.curframe := fun h => hf (h.trans hg.symm)
    simp only [setFrameStack, if_pos hg, if_neg hfc]
  · by_cases hfc : f = st.curframe
    · simp only [setFrameStack, if_neg hg, if_pos hfc]
    · simp only [setFrameStack, if_neg hg, if_neg hfc, Function.update_of_ne hf,
        Function.update_of_ne hf.symm]
      rw [Function.update_comm hf]

end Swap

/-- No stack pointer into frame `g` in a register. -/
def NotInto (st : VerifierState) (g : Nat) (r : Reg) : Prop :=
  ∀ lo hi al, st.regs r ≠ .ptrToStack lo hi al g

/-- An instruction neither reads nor writes the stack of frame `g`. -/
def Untouched (pc : Nat) (insn : BpfInsn) (st : VerifierState) (g : Nat) : Prop :=
  ∀ s, step pc (setFrameStack st g s) insn = (setFrameStack · g s) <$> step pc st insn

/-! ## Loads and stores -/

theorem map_bind_ok {α β : Type} {x : Exec α} {f : α → Exec β} {h : β → β} {f' : α → Exec β}
    (hf : ∀ a, f' a = h <$> f a) : (x >>= f') = h <$> (x >>= f) := by
  cases x with
  | error e => rfl
  | ok a => exact hf a

section Memory

variable {st : VerifierState} {g pc : Nat} {s : StackState}

theorem stackRead_setFrameStack {base : Reg} (hb : NotInto st g base) (offset : Int16)
    (size : MemSize) (se : Bool) :
    stackRead pc base (setFrameStack st g s) offset size se = stackRead pc base st offset size se := by
  unfold stackRead
  rw [readReg_setFrameStack]
  cases hr : readReg pc st base with
  | error e => rfl
  | ok v =>
    obtain ⟨hv, -⟩ := readReg_eq_ok.mp hr
    cases v with
    | ptrToStack lo hi al f =>
      have hf : f ≠ g := fun h => hb lo hi al (h ▸ hv)
      simp only [bind, Except.bind]
      rw [frameStack_setFrameStack hf]
    | _ => rfl

theorem ldMem_setFrameStack {dst base : Reg} (hb : NotInto st g base) (offset : Int16)
    (size : MemSize) (se : Bool) :
    ldMem pc (setFrameStack st g s) dst base offset size se =
      (setFrameStack · g s) <$> ldMem pc st dst base offset size se := by
  have hload : loadValue pc (setFrameStack st g s) base offset size se =
      loadValue pc st base offset size se := by
    unfold loadValue
    rw [setFrameStack_regs, setFrameStack_progType, stackRead_setFrameStack hb]
  unfold ldMem
  rw [hload]
  refine map_bind_ok fun v => ?_
  show Except.ok _ = Except.ok _
  rw [setReg_setFrameStack]

theorem storeValue_setFrameStack (src : StoreSrc) :
    storeValue pc (setFrameStack st g s) src = storeValue pc st src := by
  cases src with
  | reg src => exact readReg_setFrameStack pc src
  | imm imm => rfl

theorem destroySlices_setFrameStack (stack : StackState) (d : Option Nat) :
    destroySlices (setFrameStack st g s) stack d =
      (setFrameStack (destroySlices st stack d).1 g s, (destroySlices st stack d).2) := by
  cases d with
  | none => rfl
  | some did =>
    by_cases hg : g = st.curframe <;> simp only [destroySlices, setFrameStack, hg, if_true, if_false]

theorem fixedStackWrite_setFrameStack {f : Nat} (hf : f ≠ g) (base : Reg) (offset : Int16)
    (stack : StackState) (lo hi size : Nat) (v : RegState) :
    fixedStackWrite pc base offset (setFrameStack st g s) f stack lo hi size v =
      (setFrameStack · g s) <$> fixedStackWrite pc base offset st f stack lo hi size v := by
  unfold fixedStackWrite
  refine map_bind_ok fun _ => ?_
  rw [setFrameStack_curframe]
  refine map_bind_ok fun _ => ?_
  show Except.ok _ = Except.ok _
  rw [setFrameStack_comm hf]

theorem frameStackWrite_setFrameStack {f : Nat} (hf : f ≠ g) (base : Reg) (offset : Int16)
    (size : Nat) (src : StoreSrc) (lo hi : Int) :
    frameStackWrite pc base (setFrameStack st g s) offset size src lo hi f =
      (setFrameStack · g s) <$> frameStackWrite pc base st offset size src lo hi f := by
  unfold frameStackWrite
  dsimp only
  rw [frameStack_setFrameStack hf]
  refine map_bind_ok fun stack0 => ?_
  split
  · rfl
  · rw [destroySlices_setFrameStack]
    dsimp only
    split
    · rw [storeValue_setFrameStack]
      exact map_bind_ok fun v => fixedStackWrite_setFrameStack hf _ _ _ _ _ _ _
    · split
      · rfl
      · rw [storeValue_setFrameStack]
        refine map_bind_ok fun v => ?_
        show Except.ok _ = Except.ok _
        rw [setFrameStack_comm hf]

theorem stackWrite_setFrameStack {base : Reg} (hb : NotInto st g base) (offset : Int16)
    (size : MemSize) (src : StoreSrc) :
    stackWrite pc base (setFrameStack st g s) offset size src =
      (setFrameStack · g s) <$> stackWrite pc base st offset size src := by
  unfold stackWrite
  rw [readReg_setFrameStack]
  cases hr : readReg pc st base with
  | error e => rfl
  | ok v =>
    obtain ⟨hv, -⟩ := readReg_eq_ok.mp hr
    rw [ok_bind, ok_bind]
    cases v with
    | ptrToStack lo hi al f =>
      have hf : f ≠ g := fun h => hb lo hi al (h ▸ hv)
      exact map_bind_ok fun _ => frameStackWrite_setFrameStack hf _ _ _ _ _ _
    | ptrToMapValue | ptrToMem =>
      refine map_bind_ok fun _ => ?_
      simp only [memoryStoreScalar, storeValue_setFrameStack]
      exact map_bind_ok fun _ => rfl
    | _ => rfl

theorem storeOld_setFrameStack (src : Reg) (op : AtomicOp) (fetch : Bool) (old : RegState) :
    storeOld (setFrameStack st g s) src op fetch old =
      setFrameStack (storeOld st src op fetch old) g s := by
  unfold storeOld
  split
  · exact setReg_setFrameStack 0 old
  · split
    · exact setReg_setFrameStack src old
    · rfl

theorem atomic_setFrameStack {dst : Reg} (hb : NotInto st g dst) (src : Reg) (offset : Int16)
    (size : MemSize) (op : AtomicOp) (fetch : Bool) :
    atomic pc (setFrameStack st g s) dst src offset size op fetch =
      (setFrameStack · g s) <$> atomic pc st dst src offset size op fetch := by
  unfold atomic
  rw [readReg_setFrameStack]
  have hops : checkAtomicOperands pc (setFrameStack st g s) src op = checkAtomicOperands pc st src op := by
    simp only [checkAtomicOperands, readScalar_setFrameStack]
  rw [hops]
  cases hr : readReg pc st dst with
  | error e => rfl
  | ok v =>
    obtain ⟨hv, -⟩ := readReg_eq_ok.mp hr
    rw [ok_bind, ok_bind]
    refine map_bind_ok fun _ => map_bind_ok fun _ => ?_
    cases v with
    | ptrToStack lo hi al f =>
      have hf : f ≠ g := fun h => hb lo hi al (h ▸ hv)
      show atomicStack .. = _ <$> atomicStack ..
      unfold atomicStack
      dsimp only
      rw [stackRead_setFrameStack hb, setFrameStack_curframe]
      refine map_bind_ok fun _ => map_bind_ok fun _ => map_bind_ok fun old => ?_
      by_cases hcur : f = st.curframe
      · have hg : g ≠ st.curframe := fun h => hf (hcur.trans h.symm)
        rw [setFrameStack_stack hg]
        refine map_bind_ok fun _ => ?_
        show Except.ok _ = Except.ok (setFrameStack (storeOld _ src op fetch _) g s)
        rw [← storeOld_setFrameStack]
        simp only [setFrameStack, if_neg hg]
      · rw [failIf, if_pos hcur]
        rfl
    | ptrToMapValue =>
      refine map_bind_ok fun _ => ?_
      rw [storeOld_setFrameStack]
      rfl
    | _ => rfl

end Memory

/-! ## Helper calls -/

/-- The stack arguments of a helper call point into the current frame. -/
def LocalStackArgs (st : VerifierState) : Prop :=
  ∀ r : Reg, 1 ≤ r → r ≤ 5 → ∀ lo hi al f, st.regs r = .ptrToStack lo hi al f → f = st.curframe

/-- The helpers that read or write memory through stack arguments. -/
def isStackHelper (imm : Int32) : Bool := imm == 1 || imm == 2 || isDynptrHelper imm

section Helpers

variable {st : VerifierState} {g pc : Nat} {s : StackState}

theorem checkCallArgsFrom_setFrameStack (r : Reg) (args : List ArgType) :
    checkCallArgsFrom pc (setFrameStack st g s) r args = checkCallArgsFrom pc st r args := by
  induction args generalizing r with
  | nil => rfl
  | cons a rest ih => simp only [checkCallArgsFrom, checkCallArg, readReg_setFrameStack, ih]

/-- A frame that no argument names is not the current one, if there is a stack argument. -/
theorem ne_curframe_of_local (hl : LocalStackArgs st) (hn : ∀ r : Reg, 1 ≤ r → r ≤ 5 → NotInto st g r)
    {r : Reg} (h1 : 1 ≤ r) (h5 : r ≤ 5) {lo hi : Int} {al f : Nat}
    (hr : st.regs r = .ptrToStack lo hi al f) : g ≠ st.curframe := by
  intro hg
  have hf := hl r h1 h5 lo hi al f hr
  exact hn r h1 h5 lo hi al (by rw [hr, hf, hg])

theorem checkMapBuffer_setFrameStack {reg : Reg} (hg : ∀ lo hi al f, st.regs reg = .ptrToStack lo hi al f →
    g ≠ st.curframe) (size : Nat) (what : String) :
    checkMapBuffer pc (setFrameStack st g s) reg size what = checkMapBuffer pc st reg size what := by
  unfold checkMapBuffer
  rw [setFrameStack_regs]
  cases hr : st.regs reg with
  | ptrToStack lo hi al f => rw [setFrameStack_stack (hg lo hi al f hr)]
  | _ => rfl

theorem checkMapHelperArgs_setFrameStack (hl : LocalStackArgs st)
    (hn : ∀ r : Reg, 1 ≤ r → r ≤ 5 → NotInto st g r) (imm : Int32) :
    checkMapHelperArgs pc imm (setFrameStack st g s) = checkMapHelperArgs pc imm st := by
  unfold checkMapHelperArgs
  have h2 : ∀ lo hi al f, st.regs 2 = .ptrToStack lo hi al f → g ≠ st.curframe :=
    fun _ _ _ _ hr => ne_curframe_of_local hl hn (by decide) (by decide) hr
  have h3 : ∀ lo hi al f, st.regs 3 = .ptrToStack lo hi al f → g ≠ st.curframe :=
    fun _ _ _ _ hr => ne_curframe_of_local hl hn (by decide) (by decide) hr
  rw [setFrameStack_regs]
  cases st.regs 1 with
  | ptrToMap keySize valueSize mapType =>
    simp only [checkMapBuffer_setFrameStack h2, checkMapBuffer_setFrameStack h3]
  | _ => rfl

theorem dynptrSlotOf_setFrameStack {reg : Reg} (hg : ∀ lo hi al f, st.regs reg = .ptrToStack lo hi al f →
    g ≠ st.curframe) (argno : Nat) :
    dynptrSlotOf pc (setFrameStack st g s) reg argno = dynptrSlotOf pc st reg argno := by
  unfold dynptrSlotOf
  rw [setFrameStack_regs]
  cases hr : st.regs reg with
  | ptrToStack lo hi al f => rw [setFrameStack_stack (hg lo hi al f hr)]
  | _ => rfl

theorem initStackBuffer_setFrameStack (hg : g ≠ st.curframe) (lo hi len : Int) :
    initStackBuffer pc (setFrameStack st g s) lo hi len =
      (setFrameStack · g s) <$> initStackBuffer pc st lo hi len := by
  unfold initStackBuffer
  refine map_bind_ok fun _ => ?_
  split
  · rfl
  · refine map_bind_ok fun _ => ?_
    show Except.ok _ = Except.ok (setFrameStack _ g s)
    simp only [setFrameStack, if_neg hg]

/-- A dynptr helper with local stack arguments touches no other frame. -/
theorem dynptrHelperCall_setFrameStack (hl : LocalStackArgs st)
    (hn : ∀ r : Reg, 1 ≤ r → r ≤ 5 → NotInto st g r) (imm : Int32) :
    dynptrHelperCall pc imm (setFrameStack st g s) =
      (setFrameStack · g s) <$> dynptrHelperCall pc imm st := by
  have hcur : ∀ r : Reg, 1 ≤ r → r ≤ 5 → ∀ lo hi al f, st.regs r = .ptrToStack lo hi al f →
      g ≠ st.curframe := fun r h1 h5 _ _ _ _ hr => ne_curframe_of_local hl hn h1 h5 hr
  unfold dynptrHelperCall
  split
  · unfold dynptrFromMem
    rw [setFrameStack_regs]
    split
    · rfl
    · cases hr : st.regs 4 with
      | ptrToStack lo hi al f =>
        have hg := hcur 4 (by decide) (by decide) lo hi al f hr
        refine map_bind_ok fun _ => map_bind_ok fun _ => ?_
        show Except.ok _ = Except.ok (setFrameStack _ g s)
        simp only [setFrameStack, if_neg hg]
      | _ => rfl
  · unfold dynptrRead
    rw [dynptrSlotOf_setFrameStack (hcur 3 (by decide) (by decide)), setFrameStack_regs]
    refine map_bind_ok fun _ => ?_
    cases hr : st.regs 1 with
    | ptrToStack lo hi al f =>
      exact initStackBuffer_setFrameStack (hcur 1 (by decide) (by decide) lo hi al f hr) _ _ _
    | _ => rfl
  · unfold dynptrWrite
    rw [dynptrSlotOf_setFrameStack (hcur 1 (by decide) (by decide)), setFrameStack_regs]
    refine map_bind_ok fun _ => ?_
    cases hr : st.regs 3 with
    | ptrToStack lo hi al f =>
      unfold checkStackRangeInitialized
      rw [setFrameStack_stack (hcur 3 (by decide) (by decide) lo hi al f hr)]
      exact map_bind_ok fun _ => rfl
    | _ => rfl
  · unfold dynptrData
    rw [dynptrSlotOf_setFrameStack (hcur 1 (by decide) (by decide)), setFrameStack_regs]
    refine map_bind_ok fun _ => ?_
    show Except.ok _ = Except.ok (setFrameStack _ g s)
    rw [setReg_setFrameStack]
  · rfl

theorem helperEffect_setFrameStack (hl : LocalStackArgs st)
    (hn : ∀ r : Reg, 1 ≤ r → r ≤ 5 → NotInto st g r) {imm : Int32} (himm : isStackHelper imm = true)
    (helper : HelperPrototype) :
    helperEffect pc imm helper (setFrameStack st g s) =
      (setFrameStack · g s) <$> helperEffect pc imm helper st := by
  have hset : ∀ v : RegState, (Except.ok ((setFrameStack st g s).setReg 0 v) : Exec VerifierState) =
      (setFrameStack · g s) <$> .ok (st.setReg 0 v) := by
    intro v
    rw [setReg_setFrameStack]
    rfl
  have hcase : imm = 1 ∨ imm = 2 ∨ isDynptrHelper imm = true := by
    simpa [isStackHelper, or_assoc] using himm
  rcases hcase with rfl | rfl | hd
  · exact hset _
  · exact hset _
  · have hacq : helperAcquiresRef imm = false := by
      simp only [helperAcquiresRef, beq_eq_false_iff_ne]
      rintro rfl
      exact absurd hd (by decide)
    unfold helperEffect
    simp only [hacq, Bool.false_eq_true, if_false, hd, if_true]
    rw [dynptrHelperCall_setFrameStack hl hn]
    cases dynptrHelperCall pc imm st with
    | error e => rfl
    | ok next =>
      by_cases h203 : imm = 203
      · simp only [h203, if_true]
        rfl
      · show Except.ok _ = Except.ok (setFrameStack _ g s)
        simp only [h203, if_false]
        rw [setReg_setFrameStack]

theorem helperCall_setFrameStack (hl : LocalStackArgs st)
    (hn : ∀ r : Reg, 1 ≤ r → r ≤ 5 → NotInto st g r) {imm : Int32} (himm : isStackHelper imm = true) :
    helperCall pc imm (setFrameStack st g s) = (setFrameStack · g s) <$> helperCall pc imm st := by
  have hcheck : ∀ helper, checkHelperCall pc imm helper (setFrameStack st g s) =
      checkHelperCall pc imm helper st := by
    intro helper
    simp only [checkHelperCall, checkHelperTypes, checkHelperArgs, checkCallArgs,
      checkCallArgsFrom_setFrameStack, checkMapHelperArgs_setFrameStack hl hn, setFrameStack_regs]
  unfold helperCall
  cases helperPrototype imm with
  | none => rfl
  | some helper =>
    dsimp only
    rw [hcheck, helperEffect_setFrameStack hl hn himm]
    refine map_bind_ok fun _ => ?_
    cases helperEffect pc imm helper st with
    | error e => rfl
    | ok next =>
      show Except.ok _ = Except.ok (setFrameStack _ g s)
      rw [setFrameStack_regs, clobberArgs_setFrameStack]
      unfold lookupResult
      split
      · split
        · rw [setReg_setFrameStack]
        · rfl
      · rfl

end Helpers

/-! ## Instructions -/

/-- The registers that an instruction accesses memory through. -/
def BpfInsn.accessRegs : BpfInsn → List Reg
  | .ldMem _ base .. | .stMem _ base .. | .stMemImm _ base .. => [base]
  | .atomic dst .. => [dst]
  | .call _ => [1, 2, 3, 4, 5]
  | _ => []

/-- A load, a store or an atomic. -/
def BpfInsn.isMemory : BpfInsn → Bool
  | .ldMem .. | .stMem .. | .stMemImm .. | .atomic .. => true
  | _ => false

/-- A call of a helper that accesses the stack. -/
def BpfInsn.isStackHelperCall : BpfInsn → Bool
  | .call imm => isStackHelper imm
  | _ => false

variable {st : VerifierState} {g pc : Nat} {insn : BpfInsn}

/-- A memory access touches no frame but the one its base points into. -/
theorem memory_untouched (hm : insn.isMemory = true) (hn : ∀ r ∈ insn.accessRegs, NotInto st g r) :
    Untouched pc insn st g := by
  intro s
  cases insn with
  | ldMem dst base => exact ldMem_setFrameStack (hn base List.mem_cons_self) _ _ _
  | stMem src base => exact stackWrite_setFrameStack (hn base List.mem_cons_self) _ _ _
  | stMemImm imm base => exact stackWrite_setFrameStack (hn base List.mem_cons_self) _ _ _
  | atomic dst => exact atomic_setFrameStack (hn dst List.mem_cons_self) _ _ _ _ _
  | _ => cases hm

/-- A helper call with local stack arguments touches no other frame. -/
theorem stackHelper_untouched (hc : insn.isStackHelperCall = true) (hl : LocalStackArgs st)
    (hn : ∀ r ∈ insn.accessRegs, NotInto st g r) : Untouched pc insn st g := by
  intro s
  cases insn with
  | call imm =>
    refine helperCall_setFrameStack hl (fun r h1 h5 => hn r ?_) hc
    show r ∈ ([1, 2, 3, 4, 5] : List Reg)
    revert h1 h5
    revert r
    decide
  | _ => cases hc

/-! ## The frames of the exploration -/

/-- Where the stack pointers of a state point, come from and end. -/
structure Contained (st : VerifierState) : Prop where
  /-- Into the frame that holds them or a caller's, which is active. -/
  within : ∀ k f, st.PointsTo k f → f ≤ k ∧ (st.frame f).isSome = true
  /-- No instruction but a call makes a pointer into a frame that had none. -/
  kept : ∀ pc insn l x k f, insn.isCallSub = false → successors pc insn st = .ok l → x ∈ l →
    x.2.PointsTo k f → ∃ j, st.PointsTo j f
  /-- A call makes the R10 of its callee, and no other pointer into the new frame. -/
  entered : ∀ ret callee k f, st.callSubprog ret = .ok callee → callee.PointsTo k f →
    (∃ j, st.PointsTo j f) ∨ (f = callee.curframe ∧ k = f ∧ ∀ fr, callee.frame k = some fr →
      ∀ lo hi al, fr.Holds (.ptrToStack lo hi al f) → fr.regs 10 = .ptrToStack lo hi al f)
  /-- A return leaves no pointer into the frame that ends. -/
  returned : 0 < st.curframe → (st.regs 0).isPtrToStack = false →
    ∀ k f, st.returnFromSubprog.1.PointsTo k f → f < st.curframe

/-- The instruction touches no stack frame but those its pointer operands name. -/
def Resolved (program : List BpfInsn) (pc : Nat) (st : VerifierState) : Prop :=
  ∀ insn g, program[pc]? = some insn → (insn.isMemory || insn.isStackHelperCall) = true →
    (∀ r ∈ insn.accessRegs, NotInto st g r) → Untouched pc insn st g

theorem contained_of_framed {st : VerifierState} (hf : Framed st) : Contained st where
  within _ _ h := hf.contained h
  kept _ _ _ _ _ _ hsub hl hx h := successors_pointsTo hf hsub hl hx h
  entered _ _ _ _ hcall h := callSubprog_pointsTo hf hcall h
  returned hcur hr0 k f h := by
    have hret := framed_return hf hcur hr0
    have hle := hret.frame_isSome.mp (hret.contained h).2
    obtain ⟨d, hd⟩ : ∃ d, st.curframe = d + 1 := ⟨st.curframe - 1, by omega⟩
    obtain ⟨fr, hfr⟩ := Option.isSome_iff_exists.mp ((hf.active d).mpr (by omega))
    rw [returnFromSubprog_eq hd hfr] at hle
    dsimp only [VerifierState.clobberArgs] at hle
    omega

theorem resolved_of_local {program : List BpfInsn} {pc : Nat} {st : VerifierState}
    (hl : ∀ insn, program[pc]? = some insn → insn.isStackHelperCall = true → LocalStackArgs st) :
    Resolved program pc st := by
  intro insn g hpc hacc hn
  rcases Bool.or_eq_true_iff.mp hacc with hm | hc
  · exact memory_untouched hm hn
  · exact stackHelper_untouched hc (hl insn hpc hc) hn

/-- In every state of the exploration the stack pointers are contained, and the
    instruction resolves them in their own frames, unless it is a helper call that is given
    a stack pointer of a caller. -/
theorem frame_containment {env : MiniEnv} {s : MiniState} (h : MiniReach env s) {item : WorkItem}
    (hi : item ∈ s.worklist) :
    Contained item.state ∧
      ((∀ insn, env.program[item.pc]? = some insn → insn.isStackHelperCall = true →
        LocalStackArgs item.state) → Resolved env.program item.pc item.state) :=
  ⟨contained_of_framed (path_framed (mini_path h hi)), resolved_of_local⟩

/-- A subprogram hands a buffer of its caller to a lookup; only its own buffer is written. -/
def callerKey : List BpfInsn :=
  [.movReg 2 10, .addImm 2 (-8), .callSub 2, .movImm 0 0, .exit,
   .ldMapFd 1 0 8 8 0, .stMemImm 0 10 (-8) .dw, .call 1, .movImm 0 0, .exit]

def intoFrame (g : Nat) : RegState → Bool
  | .ptrToStack _ _ _ f => f == g
  | _ => false

theorem notInto_of_intoFrame {st : VerifierState} {g : Nat} {r : Reg}
    (h : intoFrame g (st.regs r) = false) : NotInto st g r := by
  intro lo hi al hr
  rw [hr] at h
  simp [intoFrame] at h

/-- In a callee that was given a pointer to its caller's stack. -/
theorem frame_containment_callee : ∃ env s item, miniEnv callerKey [] .default = .ok env ∧
    MiniReach env s ∧ item ∈ s.worklist ∧ item.state.PointsTo 1 0 ∧
    Contained item.state ∧ Resolved env.program item.pc item.state := by
  have hrun : (itemAfter callerKey 4).any (fun x => decide (x.1.program[x.2.2.pc]? =
      some (.stMemImm 0 10 (-8) .dw)) && x.2.2.state.curframe == 1 &&
      x.2.2.state.regs 2 == .ptrToStack (-8) (-8) 0 0) = true := by decide +kernel
  obtain ⟨⟨env, s, item⟩, hx, hcheck⟩ := (Option.any_eq_true _ _).mp hrun
  obtain ⟨henv, hreach, hitem⟩ := itemAfter_eq_some hx
  simp only [Bool.and_eq_true, decide_eq_true_eq, beq_iff_eq] at hcheck
  obtain ⟨⟨hpc, hcur⟩, hr2⟩ := hcheck
  obtain ⟨hcont, hres⟩ := frame_containment hreach hitem
  refine ⟨env, s, item, henv, hreach, hitem, ?_, hcont, hres fun insn hinsn hcall => ?_⟩
  · exact ⟨-8, -8, 0, item.state.currentFrame, by rw [VerifierState.frame, if_pos hcur.symm], .inl ⟨2, hr2⟩⟩
  · rw [hpc] at hinsn
    cases hinsn
    cases hcall

/-- The lookup of the callee is accepted with the key of the caller, and what is accepted
    is the callee's own stack. -/
theorem frame_access_counterexample : ¬ ∀ program loopHeads limits env s item,
    miniEnv program loopHeads limits = .ok env → MiniReach env s → item ∈ s.worklist →
    Contained item.state ∧ Resolved env.program item.pc item.state := by
  have hrun : (itemAfter callerKey 5).any (fun x => decide (x.1.program[x.2.2.pc]? = some (.call 1)) &&
      ([1, 2, 3, 4, 5] : List Reg).all (fun r => !intoFrame 1 (x.2.2.state.regs r)) &&
      (step x.2.2.pc x.2.2.state (.call 1)).isOk &&
      !(step x.2.2.pc (setFrameStack x.2.2.state 1 .new) (.call 1)).isOk) = true := by decide +kernel
  obtain ⟨⟨env, s, item⟩, hx, hcheck⟩ := (Option.any_eq_true _ _).mp hrun
  obtain ⟨henv, hreach, hitem⟩ := itemAfter_eq_some hx
  simp only [Bool.and_eq_true, decide_eq_true_eq, Bool.not_eq_true', List.all_eq_true] at hcheck
  obtain ⟨⟨⟨hpc, hregs⟩, hok⟩, hbad⟩ := hcheck
  intro h
  have hun := (h callerKey [] .default env s item henv hreach hitem).2 (.call 1) 1 hpc rfl
    fun r hr => notInto_of_intoFrame (hregs r hr)
  rw [hun .new] at hbad
  cases hstep : step item.pc item.state (.call 1) with
  | error e => rw [hstep] at hok; cases hok
  | ok next => rw [hstep] at hbad; cases hbad

end RandVerifier
