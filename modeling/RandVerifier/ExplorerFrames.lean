/-
  RandVerifier.ExplorerFrames — the frames of the concrete interpreter.

  Proved:
  - `Keeps.step`, `concrete_target`: an instruction other than a call or an exit keeps the
    frames and goes where the instruction leads;
  - `stacked_callSubprog`, `stacked_return`: a call and a return push and pop one return
    address;
  - `explore_callStack`: every item of every exploration keeps the call discipline of the
    validated graph.
-/

import RandVerifier.CallStack
import RandVerifier.Explore

namespace RandVerifier.Explorer

variable {insns : List BpfInsn} {subprogs : List Nat}

/-! ## What an instruction leaves alone -/

def isStackStore : BpfInsn → Bool
  | .stMem .. | .stMemImm .. | .atomic .. => true
  | _ => false

/-- Only registers differ. -/
structure SameMemory (s s' : ConcreteState) : Prop where
  stack : s'.stack = s.stack
  saved : s'.saved = s.saved
  curframe : s'.curframe = s.curframe
  retPc : s'.retPc = s.retPc

/-- The same frames: only registers and stacks differ. -/
structure Keeps (s s' : ConcreteState) : Prop where
  curframe : s'.curframe = s.curframe
  retPc : s'.retPc = s.retPc
  callers : ∀ k, (s'.saved k).map (·.retPc) = (s.saved k).map (·.retPc)

namespace SameMemory

variable {s s' t : ConcreteState} {pc : Nat}

theorem refl (s : ConcreteState) : SameMemory s s := ⟨rfl, rfl, rfl, rfl⟩

theorem setReg (h : SameMemory s s') (r : Reg) (v : ConcreteValue) : SameMemory s (s'.setReg r v) :=
  ⟨h.stack, h.saved, h.curframe, h.retPc⟩

theorem clobberArgs (s : ConcreteState) : SameMemory s s.clobberArgs := ⟨rfl, rfl, rfl, rfl⟩

theorem keeps (h : SameMemory s s') : Keeps s s' := ⟨h.curframe, h.retPc, fun k => by rw [h.saved]⟩

theorem aluImm {dst : Reg} {imm : Int32} {op : AluOp} {width : AluWidth}
    (h : concreteAluImm pc s dst imm op width = .ok s') : SameMemory s s' := by
  unfold concreteAluImm at h
  split at h
  · cases h
  · obtain ⟨value, -, h⟩ := bind_eq_ok.mp h
    cases value with
    | scalar d =>
      cases h
      exact (refl s).setReg _ _
    | stackPtr addr frameno =>
      dsimp only at h
      split at h
      · cases h
      · cases h
        exact (refl s).setReg _ _
    | mapPtr fd index offset =>
      dsimp only at h
      split at h
      · cases h
      · obtain ⟨moved, -, h⟩ := bind_eq_ok.mp h
        cases h
        exact (refl s).setReg _ _
    | ctxPtr addr =>
      obtain ⟨moved, -, h⟩ := bind_eq_ok.mp h
      cases h
      exact (refl s).setReg _ _
    | memPtr addr => cases h

theorem aluReg {dst src : Reg} {op : AluOp} {width : AluWidth}
    (h : concreteAluReg pc s dst src op width = .ok s') : SameMemory s s' := by
  simp only [concreteAluReg, bind_eq_ok] at h
  obtain ⟨d, -, v, -, result, -, h⟩ := h
  cases h
  exact (refl s).setReg _ _

theorem mulHigh {dst : Reg} {imm : Int32} {high : MulHigh}
    (h : concreteMulHigh pc s dst imm high = .ok s') : SameMemory s s' := by
  obtain ⟨a, -, h⟩ := bind_eq_ok.mp h
  cases h
  exact (refl s).setReg _ _

theorem mulHighReg {dst src : Reg} {high : MulHigh}
    (h : concreteMulHighReg pc s dst src high = .ok s') : SameMemory s s' := by
  unfold concreteMulHighReg at h
  split at h
  · exact aluReg h
  · simp only [bind_eq_ok] at h
    obtain ⟨a, -, b, -, h⟩ := h
    split at h
    · cases h
      exact (refl s).setReg _ _
    · cases h

theorem neg {dst : Reg} {width : AluWidth} (h : concreteNeg pc s dst width = .ok s') :
    SameMemory s s' := by
  obtain ⟨a, -, h⟩ := bind_eq_ok.mp h
  cases h
  exact (refl s).setReg _ _

theorem ctxRead {dst : Reg} {addr : UInt64} {offset : Int16} {size : MemSize}
    (h : concreteCtxRead pc s dst addr offset size = .ok s') : SameMemory s s' := by
  unfold concreteCtxRead at h
  dsimp only at h
  split at h
  · cases h
    exact (refl s).setReg _ _
  all_goals cases h

theorem ldMem {dst base : Reg} {offset : Int16} {size : MemSize} {signExtend : Bool}
    (h : concreteLdMem pc s dst base offset size signExtend = .ok s') : SameMemory s s' := by
  obtain ⟨value, -, h⟩ := bind_eq_ok.mp h
  split at h
  · exact ctxRead h
  · simp only [bind_eq_ok] at h
    obtain ⟨at₁, -, at₂, -, stack, -, h⟩ := h
    split at h
    · cases h
    · cases h
      exact (refl s).setReg _ _

theorem fetchOld (s : ConcreteState) (src : Reg) (op : AtomicOp) (fetch : Bool) (old : ConcreteValue) :
    SameMemory s (fetchOld s src op fetch old) := by
  unfold Explorer.fetchOld
  split
  · exact (refl s).setReg _ _
  · split
    · exact (refl s).setReg _ _
    · exact refl s

/-- An instruction that falls through and is no store leaves the memory alone. -/
theorem step {insn : BpfInsn} (hstore : isStackStore insn = false) (h : concreteStep pc s insn = .ok s') :
    SameMemory s s' := by
  cases insn with
  | stMem | stMemImm | atomic => cases hstore
  | movImm | mov32Imm | ldAbs | ldImm64 =>
    cases h
    exact (refl s).setReg _ _
  | ldImm64Second =>
    cases h
    exact refl s
  | mov32Reg | movReg | ldInd =>
    obtain ⟨v, -, h⟩ := bind_eq_ok.mp h
    cases h
    exact (refl s).setReg _ _
  | addImm | subImm | andImm | orImm | xorImm | lshImm | rshImm | arshImm | add32Imm | sub32Imm
  | and32Imm | or32Imm | xor32Imm | lsh32Imm | rsh32Imm | arsh32Imm | divImm | modImm | mul32Imm
  | div32Imm | mod32Imm => exact aluImm h
  | addReg | subReg | andReg | orReg | xorReg | lshReg | rshReg | arshReg | add32Reg | sub32Reg
  | and32Reg | or32Reg | xor32Reg | lsh32Reg | rsh32Reg | arsh32Reg | divReg | modReg | mul32Reg
  | div32Reg | mod32Reg => exact aluReg h
  | mulImm => exact mulHigh h
  | mulReg => exact mulHighReg h
  | neg | neg32 => exact neg h
  | ldMem => exact ldMem h
  | _ => cases h

end SameMemory

namespace Keeps

variable {s s' t : ConcreteState} {pc : Nat}

theorem trans (h₁ : Keeps s t) (h₂ : Keeps t s') : Keeps s s' :=
  ⟨h₂.curframe.trans h₁.curframe, h₂.retPc.trans h₁.retPc, fun k => (h₂.callers k).trans (h₁.callers k)⟩

theorem setFrameSlot {frameno : Nat} {slot : Fin stackSlots} {v : Option ConcreteValue}
    (h : setFrameSlot s frameno slot v = .ok s') : Keeps s s' := by
  unfold Explorer.setFrameSlot at h
  by_cases hcur : frameno = s.curframe
  · rw [if_pos hcur] at h
    cases h
    exact ⟨rfl, rfl, fun _ => rfl⟩
  · rw [if_neg hcur] at h
    cases hat : s.savedAt frameno with
    | none =>
      rw [hat] at h
      cases h
    | some fr =>
      rw [hat] at h
      cases h
      refine ⟨rfl, rfl, fun k => ?_⟩
      dsimp only
      by_cases hk : k.val = frameno
      · rw [if_pos hk]
        unfold ConcreteState.savedAt at hat
        split at hat
        · rename_i hlt
          have hkeq : k = ⟨frameno, hlt⟩ := Fin.ext hk
          rw [hkeq, hat]
          rfl
        · cases hat
      · rw [if_neg hk]

theorem merge {frameno inSlot size : Nat} {slot : Fin stackSlots} {v : ConcreteValue}
    (h : concreteMerge s frameno slot inSlot size v = .ok s') : Keeps s s' := by
  obtain ⟨stack, -, h⟩ := bind_eq_ok.mp h
  dsimp only at h
  split at h
  · exact setFrameSlot h
  · exact setFrameSlot h

theorem stMem {src base : Reg} {offset : Int16} {size : MemSize}
    (h : concreteStMem pc s src base offset size = .ok s') : Keeps s s' := by
  simp only [concreteStMem, bind_eq_ok] at h
  obtain ⟨value, -, at₁, -, at₂, -, h⟩ := h
  split at h
  · exact setFrameSlot h
  · exact merge h

theorem stMemImm {imm : Int32} {base : Reg} {offset : Int16} {size : MemSize}
    (h : concreteStMemImm pc s imm base offset size = .ok s') : Keeps s s' := by
  simp only [concreteStMemImm, bind_eq_ok] at h
  obtain ⟨value, -, at₁, -, at₂, -, h⟩ := h
  exact merge h

theorem atomicStore {target : Option (Nat × Fin stackSlots × Nat)} {size : MemSize}
    {old : ConcreteValue} {result : UInt64} (h : atomicStore s target size old result = .ok s') :
    Keeps s s' := by
  unfold Explorer.atomicStore at h
  split at h
  · split at h
    · exact setFrameSlot h
    · cases h
      exact (SameMemory.refl s).keeps
  · cases h
    exact (SameMemory.refl s).keeps

theorem atomic {dst src : Reg} {offset : Int16} {size : MemSize} {op : AtomicOp}
    {fetch : Bool} (h : concreteAtomic pc s dst src offset size op fetch = .ok s') : Keeps s s' := by
  simp only [concreteAtomic, bind_eq_ok] at h
  obtain ⟨base, -, value, -, h⟩ := h
  split at h
  · cases h
  · split at h
    · cases h
    · simp only [bind_eq_ok] at h
      obtain ⟨target, -, stored, hstored, h⟩ := h
      cases h
      exact (atomicStore hstored).trans (SameMemory.fetchOld _ _ _ _ _).keeps
  · cases h

/-- An instruction that falls through keeps the frames. -/
theorem step {insn : BpfInsn} (h : concreteStep pc s insn = .ok s') : Keeps s s' := by
  by_cases hstore : isStackStore insn = true
  · cases insn with
    | stMem => exact stMem h
    | stMemImm => exact stMemImm h
    | atomic => exact atomic h
    | _ => cases hstore
  · exact (SameMemory.step (Bool.not_eq_true _ ▸ hstore) h).keeps

end Keeps

/-- A successor that keeps the frames and goes where the instruction leads. -/
def Follows (pc : Nat) (insn : BpfInsn) (s : ConcreteState) (x : ConcreteSucc) : Prop :=
  Keeps s x.2 ∧ x.1 ∈ insnTargets pc insn

section Successors

variable {pc : Nat} {s : ConcreteState} {l : List ConcreteSucc} {x : ConcreteSucc}

theorem branchTo_follows {offset : Int16} {taken : Bool} (hx : x ∈ branchTo pc s offset taken) :
    SameMemory s x.2 ∧ x.1 ∈ [branchTarget pc offset, pc + 1] := by
  rw [List.mem_singleton.mp hx]
  refine ⟨.refl s, ?_⟩
  cases taken <;> simp

theorem concreteCond_follows {dst src : Reg} {offset : Int16} {op : CondOp}
    (hl : concreteCond pc dst src offset op s = .ok l) (hx : x ∈ l) :
    SameMemory s x.2 ∧ x.1 ∈ [branchTarget pc offset, pc + 1] := by
  simp only [concreteCond, bind_eq_ok] at hl
  obtain ⟨d, -, v, -, taken, -, hl⟩ := hl
  cases hl
  exact branchTo_follows hx

theorem concreteCondImm_follows {dst : Reg} {imm : Int32} {offset : Int16} {op : CondOp}
    (hl : concreteCondImm pc dst imm offset op s = .ok l) (hx : x ∈ l) :
    SameMemory s x.2 ∧ x.1 ∈ [branchTarget pc offset, pc + 1] := by
  simp only [concreteCondImm, bind_eq_ok] at hl
  obtain ⟨d, -, taken, -, hl⟩ := hl
  cases hl
  exact branchTo_follows hx

theorem returnForks_follows {seeds : List ConcreteValue} (hx : x ∈ returnForks pc s seeds) :
    SameMemory s x.2 ∧ x.1 ∈ [pc + 1] := by
  obtain ⟨seed, -, rfl⟩ := List.mem_map.mp hx
  exact ⟨(SameMemory.clobberArgs s).setReg _ _, List.mem_singleton.mpr rfl⟩

theorem concreteCall_follows {imm : Int32} (hl : concreteCall pc imm s = .ok l) (hx : x ∈ l) :
    SameMemory s x.2 ∧ x.1 ∈ [pc + 1] := by
  unfold concreteCall at hl
  split at hl
  · cases hl
  · simp only [bind_eq_ok] at hl
    obtain ⟨_, -, seeds, -, hl⟩ := hl
    cases hl
    exact returnForks_follows hx

theorem concreteMapCall_follows {imm : Int32} {maps : Maps} {mem mem' : MapMem}
    (hl : concreteMapCall pc imm s maps mem = .ok (l, mem')) (hx : x ∈ l) :
    SameMemory s x.2 ∧ x.1 ∈ [pc + 1] := by
  unfold concreteMapCall at hl
  split at hl
  · split at hl
    · cases hl
    · obtain ⟨index, -, hl⟩ := bind_eq_ok.mp hl
      split at hl
      · cases hl
        exact returnForks_follows hx
      · obtain ⟨m, -, hl⟩ := bind_eq_ok.mp hl
        cases hl
        exact returnForks_follows hx
  · cases hl

theorem concreteMapAccess_follows {access : MapAccess} {base : Reg} {off : Int16} {maps : Maps}
    {mem mem' : MapMem} (hl : concreteMapAccess pc access base off s maps mem = .ok (l, mem'))
    (hx : x ∈ l) : SameMemory s x.2 ∧ x.1 ∈ [pc + 1] := by
  obtain ⟨cell, -, hl⟩ := bind_eq_ok.mp hl
  cases access with
  | store src =>
    obtain ⟨v, -, hl⟩ := bind_eq_ok.mp hl
    cases hl
    rw [List.mem_singleton.mp hx]
    exact ⟨.refl s, List.mem_singleton.mpr rfl⟩
  | load dst =>
    cases hl
    rw [List.mem_singleton.mp hx]
    exact ⟨(SameMemory.refl s).setReg _ _, List.mem_singleton.mpr rfl⟩

theorem pureSuccessors_same {insn : BpfInsn} (hcall : insn.isCallSub = false) (hexit : insn ≠ .exit)
    (hstore : isStackStore insn = false) (hl : pureSuccessors pc insn s = .ok l) (hx : x ∈ l) :
    SameMemory s x.2 ∧ x.1 ∈ insnTargets pc insn := by
  have hstep : ∀ insn : BpfInsn, isStackStore insn = false →
      (do
        let next ← concreteStep pc s insn
        Except.ok [(pc + 1, next)] : Eval (List ConcreteSucc)) = .ok l →
      SameMemory s x.2 ∧ x.1 ∈ [pc + 1] := by
    intro insn hstore hl
    obtain ⟨next, hnext, hl⟩ := bind_eq_ok.mp hl
    cases hl
    rw [List.mem_singleton.mp hx]
    exact ⟨.step hstore hnext, List.mem_singleton.mpr rfl⟩
  cases insn with
  | stMem | stMemImm | atomic => cases hstore
  | exit => exact absurd rfl hexit
  | callSub => cases hcall
  | callKfunc => cases hl
  | jmp =>
    cases hl
    rw [List.mem_singleton.mp hx]
    exact ⟨.refl s, List.mem_singleton.mpr rfl⟩
  | jeq | jne | jgt | jge | jlt | jle | jsgt | jsge | jslt | jsle => exact concreteCond_follows hl hx
  | jeqImm | jneImm | jgtImm | jgeImm | jltImm | jleImm | jsgtImm | jsgeImm | jsltImm | jsleImm =>
    exact concreteCondImm_follows hl hx
  | jset =>
    simp only [pureSuccessors, concreteJset, bind_eq_ok] at hl
    obtain ⟨d, -, v, -, hl⟩ := hl
    split at hl
    · cases hl
      exact branchTo_follows hx
    · cases hl
  | jsetImm =>
    obtain ⟨d, -, hl⟩ := bind_eq_ok.mp hl
    cases hl
    exact branchTo_follows hx
  | jmp32 =>
    simp only [pureSuccessors, concreteJmp32, bind_eq_ok] at hl
    obtain ⟨d, -, v, -, hl⟩ := hl
    cases hl
    exact branchTo_follows hx
  | call => exact concreteCall_follows hl hx
  | ldMapFd | ldMapValue =>
    cases hl
    rw [List.mem_singleton.mp hx]
    exact ⟨(SameMemory.refl s).setReg _ _, List.mem_singleton.mpr rfl⟩
  | _ => exact hstep _ rfl hl

theorem pureSuccessors_follows {insn : BpfInsn} (hcall : insn.isCallSub = false) (hexit : insn ≠ .exit)
    (hl : pureSuccessors pc insn s = .ok l) (hx : x ∈ l) : Follows pc insn s x := by
  by_cases hstore : isStackStore insn = true
  · cases insn with
    | stMem | stMemImm | atomic =>
      obtain ⟨next, hnext, hl⟩ := bind_eq_ok.mp hl
      cases hl
      rw [List.mem_singleton.mp hx]
      exact ⟨.step hnext, List.mem_singleton.mpr rfl⟩
    | _ => cases hstore
  · obtain ⟨hsame, htarget⟩ := pureSuccessors_same hcall hexit (Bool.not_eq_true _ ▸ hstore) hl hx
    exact ⟨hsame.keeps, htarget⟩

/-- Every successor of the interpreter but a call or a return keeps the frames and goes
    where the instruction leads. -/
theorem concrete_target {insn : BpfInsn} {maps : Maps} {mem mem' : MapMem}
    (hcall : insn.isCallSub = false) (hexit : insn ≠ .exit)
    (hl : concreteSuccessors pc insn s maps mem = .ok (l, mem')) (hx : x ∈ l) :
    Follows pc insn s x := by
  have hpure : (pureSuccessors pc insn s).map (·, mem) = .ok (l, mem') → Follows pc insn s x := by
    intro h
    obtain ⟨l', hl', heq⟩ := map_eq_ok.mp h
    cases heq
    exact pureSuccessors_follows hcall hexit hl' hx
  cases insn with
  | call imm =>
    simp only [concreteSuccessors] at hl
    split at hl
    · exact (concreteMapCall_follows hl hx).imp SameMemory.keeps id
    · exact hpure hl
  | ldMem dst base offset size se =>
    simp only [concreteSuccessors] at hl
    split at hl
    · exact (concreteMapAccess_follows hl hx).imp SameMemory.keeps id
    · exact hpure hl
  | stMem src base offset size =>
    simp only [concreteSuccessors] at hl
    split at hl
    · exact (concreteMapAccess_follows hl hx).imp SameMemory.keeps id
    · exact hpure hl
  | _ => exact hpure hl

end Successors

/-! ## Its call discipline -/

namespace ConcreteState

def returns (s : ConcreteState) : List Nat :=
  returnsTo (fun k => (s.savedAt k).map (·.retPc)) s.curframe s.retPc

end ConcreteState

/-- The frames below the current one are saved. -/
structure Stacked (s : ConcreteState) : Prop where
  depth : s.curframe < maxCallFrames
  saved : ∀ k < s.curframe, (s.savedAt k).isSome = true

theorem Keeps.savedAt {s s' : ConcreteState} (h : Keeps s s') (k : Nat) :
    (s'.savedAt k).map (·.retPc) = (s.savedAt k).map (·.retPc) := by
  unfold ConcreteState.savedAt
  split
  · exact h.callers _
  · rfl

theorem Keeps.returns {s s' : ConcreteState} (h : Keeps s s') : s'.returns = s.returns := by
  have hsaved : (fun k => (s'.savedAt k).map (·.retPc)) = fun k => (s.savedAt k).map (·.retPc) :=
    funext h.savedAt
  simp only [ConcreteState.returns, hsaved, h.curframe, h.retPc]

theorem Keeps.stacked {s s' : ConcreteState} (h : Keeps s s') (hs : Stacked s) : Stacked s' := by
  refine ⟨h.curframe ▸ hs.depth, fun k hk => ?_⟩
  rw [← Option.isSome_map (x := s'.savedAt k), h.savedAt k, Option.isSome_map]
  exact hs.saved k (h.curframe ▸ hk)

theorem stacked_callSubprog {s callee : ConcreteState} {ret : Nat} (hs : Stacked s)
    (h : s.callSubprog ret = .ok callee) : Stacked callee ∧ callee.returns = ret :: s.returns := by
  unfold ConcreteState.callSubprog at h
  split at h
  · rename_i hlt
    cases h
    have hsaved : ∀ k, ConcreteState.savedAt { s with
        saved := Function.update s.saved ⟨s.curframe, hlt⟩ (some ⟨s.regs, s.stack, s.retPc⟩) } k =
        if k = s.curframe then some ⟨s.regs, s.stack, s.retPc⟩ else s.savedAt k := by
      intro k
      unfold ConcreteState.savedAt
      by_cases hk : k = s.curframe
      · subst hk
        rw [if_pos rfl, dif_pos hlt]
        exact Function.update_self _ _ _
      · rw [if_neg hk]
        split
        · exact Function.update_of_ne (fun heq => hk (congrArg Fin.val heq)) _ _
        · rfl
    constructor
    · refine ⟨by simp only [maxCallFrames] at hlt ⊢; omega, fun k hk => ?_⟩
      show (ConcreteState.savedAt { s with
        saved := Function.update s.saved ⟨s.curframe, hlt⟩ (some ⟨s.regs, s.stack, s.retPc⟩) } k).isSome = true
      rw [hsaved]
      split
      · rfl
      · exact hs.saved k (by dsimp only at hk; omega)
    · show returnsTo (fun k => (ConcreteState.savedAt { s with
        saved := Function.update s.saved ⟨s.curframe, hlt⟩ (some ⟨s.regs, s.stack, s.retPc⟩) } k).map (·.retPc))
          (s.curframe + 1) ret = _
      simp only [hsaved, returnsTo, if_true, Option.map_some, Option.getD_some]
      congr 1
      refine returnsTo_congr _ fun k hk => ?_
      rw [if_neg (by omega)]
  · cases h

theorem stacked_return {s : ConcreteState} (hs : Stacked s) (hcur : 0 < s.curframe) :
    Stacked s.returnFromSubprog ∧ s.returns = s.retPc :: s.returnFromSubprog.returns := by
  obtain ⟨d, hd⟩ : ∃ d, s.curframe = d + 1 := ⟨s.curframe - 1, by omega⟩
  obtain ⟨caller, hcaller⟩ := Option.isSome_iff_exists.mp (hs.saved d (by omega))
  have hreturn : s.returnFromSubprog = ConcreteState.clobberArgs { s with
      regs := Function.update caller.regs 0 (s.regs 0), stack := caller.stack
      saved := fun k => if k.val = d then none else s.saved k, curframe := d, retPc := caller.retPc } := by
    unfold ConcreteState.returnFromSubprog
    rw [if_neg (by omega)]
    simp only [hd, Nat.add_sub_cancel, hcaller]
  have hsaved : ∀ k < d, s.returnFromSubprog.savedAt k = s.savedAt k := by
    intro k hk
    rw [hreturn]
    unfold ConcreteState.savedAt
    split
    · exact if_neg (by dsimp only; omega)
    · rfl
  have hdepth := hs.depth
  have hcurd : s.returnFromSubprog.curframe = d := by rw [hreturn]; rfl
  have hret : s.returnFromSubprog.retPc = caller.retPc := by rw [hreturn]; rfl
  constructor
  · refine ⟨by omega, fun k hk => ?_⟩
    rw [hcurd] at hk
    rw [hsaved k hk]
    exact hs.saved k (by omega)
  · unfold ConcreteState.returns
    rw [hd, hcurd, hret]
    simp only [returnsTo, hcaller, Option.map_some, Option.getD_some]
    congr 1
    refine returnsTo_congr _ fun k hk => ?_
    rw [hsaved k hk]

/-- An item of the explorer keeps the call discipline. -/
structure InOrder (insns : List BpfInsn) (subprogs : List Nat) (item : ConcreteSucc) : Prop where
  stacked : Stacked item.2
  calls : CallStack insns subprogs item.1 item.2.returns

/-- One step of the interpreter follows an edge and keeps the discipline. -/
theorem InOrder.step {p : Program} (h : Accepted p.insns subprogs) {item x : ConcreteSucc}
    {mem mem' : MapMem} {l : List ConcreteSucc} (hi : InOrder p.insns subprogs item)
    (hl : itemSuccessors p item mem = .ok (l, mem')) (hx : x ∈ l) :
    x.1 ∈ cfgEdges p.insns subprogs item.1 ∧ InOrder p.insns subprogs x := by
  obtain ⟨pc, s⟩ := item
  unfold itemSuccessors at hl
  dsimp only at hl
  split at hl
  · cases hl
  · rename_i hget
    by_cases hcur : 0 < s.curframe
    · rw [if_pos hcur] at hl
      obtain ⟨hstacked, hreturns⟩ := stacked_return hi.stacked hcur
      have hcalls := hi.calls
      dsimp only at hcalls
      rw [hreturns] at hcalls
      obtain ⟨hedge, hstack⟩ := hcalls.leave h hget
      split at hl
      · cases hl
      · cases hl
        rw [List.mem_singleton.mp hx]
        exact ⟨hedge, hstacked, hstack⟩
    · rw [if_neg hcur] at hl
      obtain ⟨_, -, hl⟩ := bind_eq_ok.mp hl
      cases hl
      cases hx
  · rename_i insn hexit hget
    have hexit : insn ≠ .exit := hexit
    by_cases hcall : insn.isCallSub = true
    · cases insn with
      | callSub offset =>
        obtain ⟨l', hl', heq⟩ := map_eq_ok.mp hl
        cases heq
        obtain ⟨callee, hcallee, hl'⟩ := bind_eq_ok.mp hl'
        cases hl'
        obtain ⟨hstacked, hreturns⟩ := stacked_callSubprog hi.stacked hcallee
        rw [List.mem_singleton.mp hx]
        refine ⟨h.insn_edge hget (List.mem_singleton.mpr rfl), hstacked, ?_⟩
        dsimp only
        rw [hreturns]
        exact hi.calls.enter h hget
      | _ => cases hcall
    · have hcall : insn.isCallSub = false := by simpa using hcall
      obtain ⟨hkeeps, htarget⟩ := concrete_target hcall hexit hl hx
      have hedge := h.insn_edge hget htarget
      refine ⟨hedge, hkeeps.stacked hi.stacked, ?_⟩
      rw [hkeeps.returns]
      exact hi.calls.move (h.entryOf_edge hget hcall hexit hedge)

/-- Every item of every exploration, in whatever order its worklist is popped. -/
theorem explore_callStack {p : Program} (h : Accepted p.insns subprogs)
    {cond : Exploration → Visits → ConcreteSucc → List ConcreteSucc → Prop} {x : Exploration}
    {visits : Visits} (hx : ExploreRun p cond x visits) :
    ∀ item ∈ x.worklist, InOrder p.insns subprogs item := by
  induction hx with
  | start =>
    intro item hi
    rw [List.mem_singleton.mp hi]
    refine ⟨⟨Nat.zero_lt_succ _, fun k hk => absurd hk (Nat.not_lt_zero k)⟩, ?_⟩
    exact .main (h.entryOf_start h.zero_mem)
  | @pop x x' visits popped rest _ hpop _ hvisit ih =>
    have hrest : ∀ item ∈ rest, InOrder p.insns subprogs item := fun item hi =>
      ih item (hpop.mem_iff.mpr (List.mem_cons_of_mem _ hi))
    rcases visitItem_inl hvisit with ⟨-, rfl⟩ | ⟨-, succs, mem, hsucc, rfl⟩
    · exact hrest
    · intro item hi
      have hi : item ∈ succs.reverse ++ rest := hi
      rcases List.mem_append.mp hi with hs | hr
      · exact ((ih popped (hpop.mem_iff.mpr List.mem_cons_self)).step h hsucc (List.mem_reverse.mp hs)).2
      · exact hrest item hr

end RandVerifier.Explorer
