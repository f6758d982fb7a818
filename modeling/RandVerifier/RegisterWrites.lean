/-
  RandVerifier.RegisterWrites — which registers an instruction of the concrete interpreter writes.

  `defs` lists them; no register outside the list changes, and neither do the registers that the
  callers have saved. Calls of subprograms and exits are left out: they switch the frame.

  - `Writes.step`: an instruction that falls through; stores write memory only, the fetching
    atomics one register;
  - `concrete_writes`: so for every successor of every instruction.
-/

import RandVerifier.ExplorerFrames

namespace RandVerifier.Explorer

/-- Where an atomic leaves the old value. -/
def fetched (src : Reg) (op : AtomicOp) (fetch : Bool) : List Reg :=
  if op = .cmpxchg then [0] else if fetch then [src] else []

/-- The registers an instruction writes in its own frame. -/
def defs : BpfInsn → List Reg
  | .movImm dst _ | .mov32Imm dst _ | .movReg dst _ | .mov32Reg dst _
  | .addImm dst _ | .addReg dst _ | .subImm dst _ | .subReg dst _ | .andImm dst _ | .andReg dst _
  | .orImm dst _ | .orReg dst _ | .xorImm dst _ | .xorReg dst _ | .lshImm dst _ | .lshReg dst _
  | .rshImm dst _ | .rshReg dst _ | .arshImm dst _ | .arshReg dst _
  | .add32Imm dst _ | .add32Reg dst _ | .sub32Imm dst _ | .sub32Reg dst _ | .and32Imm dst _
  | .and32Reg dst _ | .or32Imm dst _ | .or32Reg dst _ | .xor32Imm dst _ | .xor32Reg dst _
  | .lsh32Imm dst _ | .lsh32Reg dst _ | .rsh32Imm dst _ | .rsh32Reg dst _ | .arsh32Imm dst _
  | .arsh32Reg dst _
  | .mulImm dst _ _ | .mulReg dst _ _ | .divImm dst _ | .divReg dst _ | .modImm dst _ | .modReg dst _
  | .neg dst | .mul32Imm dst _ | .mul32Reg dst _ | .div32Imm dst _ | .div32Reg dst _ | .mod32Imm dst _
  | .mod32Reg dst _ | .neg32 dst
  | .ldMem dst .. | .ldImm64 dst _ | .ldMapFd dst .. | .ldMapValue dst .. => [dst]
  | .atomic _ src _ _ op fetch => fetched src op fetch
  | .ldAbs .. | .ldInd .. => [0]
  | .call _ | .callSub _ | .callKfunc _ => [0, 1, 2, 3, 4, 5]
  | _ => []

/-- No other register of the frame changes, and none of the callers' saved ones. -/
structure Writes (out : List Reg) (s s' : ConcreteState) : Prop where
  regs : ∀ r ∉ out, s'.regs r = s.regs r
  saved : ∀ k, (s'.saved k).map (·.regs) = (s.saved k).map (·.regs)

namespace Writes

variable {s s' t : ConcreteState} {pc : Nat} {out : List Reg}

theorem refl (out : List Reg) (s : ConcreteState) : Writes out s s := ⟨fun _ _ => rfl, fun _ => rfl⟩

theorem trans (h₁ : Writes out s t) (h₂ : Writes out t s') : Writes out s s' :=
  ⟨fun r hr => (h₂.regs r hr).trans (h₁.regs r hr), fun k => (h₂.saved k).trans (h₁.saved k)⟩

theorem weaken (h : Writes [] s s') (out : List Reg) : Writes out s s' :=
  ⟨fun r _ => h.regs r List.not_mem_nil, h.saved⟩

theorem setReg (s : ConcreteState) (r : Reg) (v : ConcreteValue) : Writes [r] s (s.setReg r v) :=
  ⟨fun _ hr => Function.update_of_ne (fun h => hr (List.mem_singleton.mpr h)) _ _, fun _ => rfl⟩

/-! ## Steps that write one register -/

theorem aluImm {dst : Reg} {imm : Int32} {op : AluOp} {width : AluWidth}
    (h : concreteAluImm pc s dst imm op width = .ok s') : Writes [dst] s s' := by
  unfold concreteAluImm at h
  split at h
  · cases h
  · obtain ⟨value, -, h⟩ := bind_eq_ok.mp h
    cases value with
    | scalar d =>
      cases h
      exact setReg s dst _
    | stackPtr addr frameno =>
      dsimp only at h
      split at h
      · cases h
      · cases h
        exact setReg s dst _
    | mapPtr fd index offset =>
      dsimp only at h
      split at h
      · cases h
      · obtain ⟨moved, -, h⟩ := bind_eq_ok.mp h
        cases h
        exact setReg s dst _
    | ctxPtr addr =>
      obtain ⟨moved, -, h⟩ := bind_eq_ok.mp h
      cases h
      exact setReg s dst _
    | memPtr addr => cases h

theorem aluReg {dst src : Reg} {op : AluOp} {width : AluWidth}
    (h : concreteAluReg pc s dst src op width = .ok s') : Writes [dst] s s' := by
  simp only [concreteAluReg, bind_eq_ok] at h
  obtain ⟨d, -, v, -, result, -, h⟩ := h
  cases h
  exact setReg s dst result

theorem mulHigh {dst : Reg} {imm : Int32} {high : MulHigh}
    (h : concreteMulHigh pc s dst imm high = .ok s') : Writes [dst] s s' := by
  obtain ⟨a, -, h⟩ := bind_eq_ok.mp h
  cases h
  exact setReg s dst _

theorem mulHighReg {dst src : Reg} {high : MulHigh}
    (h : concreteMulHighReg pc s dst src high = .ok s') : Writes [dst] s s' := by
  unfold concreteMulHighReg at h
  split at h
  · exact aluReg h
  · simp only [bind_eq_ok] at h
    obtain ⟨a, -, b, -, h⟩ := h
    split at h
    · cases h
      exact setReg s dst _
    · cases h

theorem neg {dst : Reg} {width : AluWidth} (h : concreteNeg pc s dst width = .ok s') : Writes [dst] s s' := by
  obtain ⟨a, -, h⟩ := bind_eq_ok.mp h
  cases h
  exact setReg s dst _

theorem ldMem {dst base : Reg} {offset : Int16} {size : MemSize} {signExtend : Bool}
    (h : concreteLdMem pc s dst base offset size signExtend = .ok s') : Writes [dst] s s' := by
  obtain ⟨value, -, h⟩ := bind_eq_ok.mp h
  split at h
  · unfold concreteCtxRead at h
    dsimp only at h
    split at h
    · cases h
      exact setReg s dst _
    all_goals cases h
  · simp only [bind_eq_ok] at h
    obtain ⟨at₁, -, at₂, -, stack, -, h⟩ := h
    split at h
    · cases h
    · cases h
      exact setReg s dst _

/-! ## Stores -/

theorem setFrameSlot {frameno : Nat} {slot : Fin stackSlots} {v : Option ConcreteValue}
    (h : setFrameSlot s frameno slot v = .ok s') : Writes [] s s' := by
  unfold Explorer.setFrameSlot at h
  by_cases hcur : frameno = s.curframe
  · rw [if_pos hcur] at h
    cases h
    exact ⟨fun _ _ => rfl, fun _ => rfl⟩
  · rw [if_neg hcur] at h
    cases hat : s.savedAt frameno with
    | none =>
      rw [hat] at h
      cases h
    | some fr =>
      rw [hat] at h
      cases h
      refine ⟨fun _ _ => rfl, fun k => ?_⟩
      dsimp only
      by_cases hk : k.val = frameno
      · rw [if_pos hk]
        unfold ConcreteState.savedAt at hat
        split at hat
        · rename_i hlt
          have hkeq : k = ⟨frameno, hlt⟩ := Fin.ext hk
          rw [hkeq, hat]
          rfl
        · cases hat
      · rw [if_neg hk]

theorem merge {frameno inSlot size : Nat} {slot : Fin stackSlots} {v : ConcreteValue}
    (h : concreteMerge s frameno slot inSlot size v = .ok s') : Writes [] s s' := by
  obtain ⟨stack, -, h⟩ := bind_eq_ok.mp h
  dsimp only at h
  split at h
  · exact setFrameSlot h
  · exact setFrameSlot h

theorem stMem {src base : Reg} {offset : Int16} {size : MemSize}
    (h : concreteStMem pc s src base offset size = .ok s') : Writes [] s s' := by
  simp only [concreteStMem, bind_eq_ok] at h
  obtain ⟨value, -, at₁, -, at₂, -, h⟩ := h
  split at h
  · exact setFrameSlot h
  · exact merge h

theorem stMemImm {imm : Int32} {base : Reg} {offset : Int16} {size : MemSize}
    (h : concreteStMemImm pc s imm base offset size = .ok s') : Writes [] s s' := by
  simp only [concreteStMemImm, bind_eq_ok] at h
  obtain ⟨value, -, at₁, -, at₂, -, h⟩ := h
  exact merge h

theorem fetchOld {src : Reg} {op : AtomicOp} {fetch : Bool} {old : ConcreteValue} :
    Writes (fetched src op fetch) s (fetchOld s src op fetch old) := by
  unfold Explorer.fetchOld fetched
  split
  · exact setReg s 0 old
  · split
    · exact setReg s src old
    · exact refl [] s

theorem atomicStore {target : Option (Nat × Fin stackSlots × Nat)} {size : MemSize} {old : ConcreteValue}
    {result : UInt64} (h : atomicStore s target size old result = .ok s') : Writes [] s s' := by
  unfold Explorer.atomicStore at h
  split at h
  · split at h
    · exact setFrameSlot h
    · cases h
      exact refl [] s
  · cases h
    exact refl [] s

theorem atomic {dst src : Reg} {offset : Int16} {size : MemSize} {op : AtomicOp} {fetch : Bool}
    (h : concreteAtomic pc s dst src offset size op fetch = .ok s') : Writes (fetched src op fetch) s s' := by
  simp only [concreteAtomic, bind_eq_ok] at h
  obtain ⟨base, -, value, -, h⟩ := h
  split at h
  · cases h
  · split at h
    · cases h
    · simp only [bind_eq_ok] at h
      obtain ⟨target, -, stored, hstored, h⟩ := h
      cases h
      exact ((atomicStore hstored).weaken _).trans fetchOld
  · cases h

/-! ## Successors -/

/-- An instruction that falls through. -/
theorem step {insn : BpfInsn} (h : concreteStep pc s insn = .ok s') : Writes (defs insn) s s' := by
  cases insn with
  | stMem => exact stMem h
  | stMemImm => exact stMemImm h
  | atomic => exact atomic h
  | movImm | mov32Imm | ldAbs | ldImm64 =>
    cases h
    exact setReg s _ _
  | ldImm64Second =>
    cases h
    exact refl [] s
  | mov32Reg | movReg | ldInd =>
    obtain ⟨v, -, h⟩ := bind_eq_ok.mp h
    cases h
    exact setReg s _ _
  | addImm | subImm | andImm | orImm | xorImm | lshImm | rshImm | arshImm | add32Imm | sub32Imm
  | and32Imm | or32Imm | xor32Imm | lsh32Imm | rsh32Imm | arsh32Imm | divImm | modImm | mul32Imm
  | div32Imm | mod32Imm => exact aluImm h
  | addReg | subReg | andReg | orReg | xorReg | lshReg | rshReg | arshReg | add32Reg | sub32Reg
  | and32Reg | or32Reg | xor32Reg | lsh32Reg | rsh32Reg | arsh32Reg | divReg | modReg | mul32Reg
  | div32Reg | mod32Reg => exact aluReg h
  | mulImm => exact mulHigh h
  | mulReg => exact mulHighReg h
  | neg | neg32 => exact neg h
  | ldMem => exact ldMem h
  | _ => cases h

end Writes

section Successors

variable {pc : Nat} {s : ConcreteState} {l : List ConcreteSucc} {x : ConcreteSucc}

theorem branchTo_state {offset : Int16} {taken : Bool} (hx : x ∈ branchTo pc s offset taken) : x.2 = s := by
  rw [List.mem_singleton.mp hx]

theorem returnForks_writes {seeds : List ConcreteValue} (hx : x ∈ returnForks pc s seeds) :
    Writes [0, 1, 2, 3, 4, 5] s x.2 := by
  obtain ⟨seed, -, rfl⟩ := List.mem_map.mp hx
  refine ⟨fun r hr => ?_, fun _ => rfl⟩
  simp only [List.mem_cons, List.not_mem_nil, or_false, not_or] at hr
  have hscratch : ¬ (1 ≤ r ∧ r ≤ 5) := by
    intro h
    obtain ⟨h0, h1, h2, h3, h4, h5⟩ := hr
    have hval : ∀ r : Reg, 1 ≤ r ∧ r ≤ 5 → r = 1 ∨ r = 2 ∨ r = 3 ∨ r = 4 ∨ r = 5 := by decide
    obtain h | h | h | h | h := hval r h <;> contradiction
  simp only [ConcreteState.setReg, ConcreteState.clobberArgs, Function.update_of_ne hr.1, if_neg hscratch]

/-- A condition leaves the state alone. -/
theorem condition_state {insn : BpfInsn} (hcond : insn.isConditionalBranch = true)
    (hl : pureSuccessors pc insn s = .ok l) (hx : x ∈ l) : x.2 = s := by
  cases insn with
  | jeq | jne | jgt | jge | jlt | jle | jsgt | jsge | jslt | jsle =>
    simp only [pureSuccessors, concreteCond, bind_eq_ok] at hl
    obtain ⟨d, -, v, -, taken, -, hl⟩ := hl
    cases hl
    exact branchTo_state hx
  | jeqImm | jneImm | jgtImm | jgeImm | jltImm | jleImm | jsgtImm | jsgeImm | jsltImm | jsleImm =>
    simp only [pureSuccessors, concreteCondImm, bind_eq_ok] at hl
    obtain ⟨d, -, taken, -, hl⟩ := hl
    cases hl
    exact branchTo_state hx
  | jset =>
    simp only [pureSuccessors, concreteJset, bind_eq_ok] at hl
    obtain ⟨d, -, v, -, hl⟩ := hl
    split at hl
    · cases hl
      exact branchTo_state hx
    · cases hl
  | jsetImm =>
    obtain ⟨d, -, hl⟩ := bind_eq_ok.mp hl
    cases hl
    exact branchTo_state hx
  | jmp32 =>
    simp only [pureSuccessors, concreteJmp32, bind_eq_ok] at hl
    obtain ⟨d, -, v, -, hl⟩ := hl
    cases hl
    exact branchTo_state hx
  | _ => cases hcond

theorem pureSuccessors_writes {insn : BpfInsn} (hcall : insn.isCallSub = false) (hexit : insn ≠ .exit)
    (hl : pureSuccessors pc insn s = .ok l) (hx : x ∈ l) : Writes (defs insn) s x.2 := by
  by_cases hcond : insn.isConditionalBranch = true
  · rw [condition_state hcond hl hx]
    exact .refl _ s
  have hstep : ∀ insn : BpfInsn,
      (do
        let next ← concreteStep pc s insn
        Except.ok [(pc + 1, next)] : Eval (List ConcreteSucc)) = .ok l → Writes (defs insn) s x.2 := by
    intro insn hl
    obtain ⟨next, hnext, hl⟩ := bind_eq_ok.mp hl
    cases hl
    rw [List.mem_singleton.mp hx]
    exact .step hnext
  cases insn with
  | exit => exact absurd rfl hexit
  | callSub => cases hcall
  | callKfunc => cases hl
  | jmp =>
    cases hl
    rw [List.mem_singleton.mp hx]
    exact .refl _ s
  | call =>
    simp only [pureSuccessors, concreteCall] at hl
    split at hl
    · cases hl
    · simp only [bind_eq_ok] at hl
      obtain ⟨_, -, seeds, -, hl⟩ := hl
      cases hl
      exact returnForks_writes hx
  | ldMapFd | ldMapValue =>
    cases hl
    rw [List.mem_singleton.mp hx]
    exact .setReg s _ _
  | jeq | jne | jgt | jge | jlt | jle | jsgt | jsge | jslt | jsle | jeqImm | jneImm | jgtImm | jgeImm | jltImm
  | jleImm | jsgtImm | jsgeImm | jsltImm | jsleImm | jset | jsetImm | jmp32 => exact absurd rfl hcond
  | _ => exact hstep _ hl

theorem mapCall_writes {imm : Int32} {maps : Maps} {mem mem' : MapMem}
    (hl : concreteMapCall pc imm s maps mem = .ok (l, mem')) (hx : x ∈ l) : Writes [0, 1, 2, 3, 4, 5] s x.2 := by
  unfold concreteMapCall at hl
  split at hl
  · split at hl
    · cases hl
    · obtain ⟨index, -, hl⟩ := bind_eq_ok.mp hl
      split at hl
      · cases hl
        exact returnForks_writes hx
      · obtain ⟨m, -, hl⟩ := bind_eq_ok.mp hl
        cases hl
        exact returnForks_writes hx
  · cases hl

theorem mapAccess_writes {access : MapAccess} {base : Reg} {off : Int16} {maps : Maps} {mem mem' : MapMem}
    (hl : concreteMapAccess pc access base off s maps mem = .ok (l, mem')) (hx : x ∈ l) :
    Writes (match access with
      | .load dst => [dst]
      | .store _ => []) s x.2 := by
  obtain ⟨cell, -, hl⟩ := bind_eq_ok.mp hl
  cases access with
  | store src =>
    obtain ⟨v, -, hl⟩ := bind_eq_ok.mp hl
    cases hl
    rw [List.mem_singleton.mp hx]
    exact .refl [] s
  | load dst =>
    cases hl
    rw [List.mem_singleton.mp hx]
    exact .setReg s dst _

/-- Every successor but those of a subprogram call or an exit. -/
theorem concrete_writes {insn : BpfInsn} {maps : Maps} {mem mem' : MapMem} (hcall : insn.isCallSub = false)
    (hexit : insn ≠ .exit) (hl : concreteSuccessors pc insn s maps mem = .ok (l, mem')) (hx : x ∈ l) :
    Writes (defs insn) s x.2 := by
  have hpure : (pureSuccessors pc insn s).map (·, mem) = .ok (l, mem') → Writes (defs insn) s x.2 := by
    intro h
    obtain ⟨l', hl', heq⟩ := map_eq_ok.mp h
    cases heq
    exact pureSuccessors_writes hcall hexit hl' hx
  cases insn with
  | call imm =>
    simp only [concreteSuccessors] at hl
    split at hl
    · exact mapCall_writes hl hx
    · exact hpure hl
  | ldMem dst base offset size se =>
    simp only [concreteSuccessors] at hl
    split at hl
    · exact mapAccess_writes hl hx
    · exact hpure hl
  | stMem src base offset size =>
    simp only [concreteSuccessors] at hl
    split at hl
    · exact mapAccess_writes hl hx
    · exact hpure hl
  | _ => exact hpure hl

end Successors

end RandVerifier.Explorer
