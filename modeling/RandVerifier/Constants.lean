/-
  RandVerifier.Constants — the constants that the alu-form pass relies on, in the executions of
  the concrete interpreter (`src/fuzz/reduce/operand.rs`, `src/concrete.rs`).

  The pass reads the instructions in their order in the program. What it knows at an
  instruction holds in a run as long as the run comes to every instruction with what the text
  in front of it says, and as long as no register is overwritten behind the pass's back:
  `apply_def` ignores the moves of 32 bits, multiplications, divisions, negations, wide loads,
  packet loads and fetching atomics.

  - `Agrees.step`: one step of a run keeps the constants, also those that the callers wait for;
  - `sameStep_iff`: with its source a constant, an operation and its immediate form do the same
    unless the amount of a shift is out of range or a stack pointer leaves the 64-bit range;
  - `aluForm_decodes`: a candidate decodes to the program with one immediate form;
  - `alu_form_preserves`: which runs a candidate shares with its program;
  - `stale_constant`: a multiplication that is not seen.
-/

import RandVerifier.ConcreteMemory
import RandVerifier.Operand
import RandVerifier.Pairing
import RandVerifier.RegisterWrites
import RandVerifier.Shrink
import Mathlib.Logic.Relation

namespace RandVerifier

namespace Reduce

open Fixup Explorer

/-! ## What the pass does not see -/

/-- The registers an instruction writes although the pass keeps what it knew of them. -/
def ignored : BpfInsn → List Reg
  | .mov32Imm dst _ | .mov32Reg dst _ | .mulImm dst _ _ | .mulReg dst _ _ | .divImm dst _ | .divReg dst _
  | .modImm dst _ | .modReg dst _ | .neg dst | .mul32Imm dst _ | .mul32Reg dst _ | .div32Imm dst _
  | .div32Reg dst _ | .mod32Imm dst _ | .mod32Reg dst _ | .neg32 dst | .ldImm64 dst _ | .ldMapFd dst ..
  | .ldMapValue dst .. => [dst]
  | .atomic _ src _ _ op fetch => fetched src op fetch
  | .ldAbs .. | .ldInd .. => [0]
  | _ => []

section Tracking

variable {known : Known} {insn : BpfInsn} {r : Reg} {v : Int32}

/-- A register that the pass knows behind an instruction is not written by it, moves apart. -/
theorem applyDef_some (himm : ∀ dst imm, insn ≠ .movImm dst imm) (hreg : ∀ dst src, insn ≠ .movReg dst src)
    (hseen : ∀ r ∈ ignored insn, known r = none) (h : applyDef known insn r = some v) :
    known r = some v ∧ r ∉ defs insn := by
  have hcleared : ∀ dst : Reg, Function.update known dst none r = some v → known r = some v ∧ r ∉ [dst] := by
    intro dst h
    by_cases hr : r = dst
    · rw [hr, Function.update_self] at h
      cases h
    · rw [Function.update_of_ne hr] at h
      exact ⟨h, by simpa using hr⟩
  have hkept : ∀ out : List Reg, (∀ r ∈ out, known r = none) → known r = some v → known r = some v ∧ r ∉ out := by
    intro out hout h
    refine ⟨h, fun hr => ?_⟩
    rw [hout r hr] at h
    cases h
  have hcalled : (if r.val < 6 then none else known r) = some v → known r = some v ∧ r ∉ defs (.call 0) := by
    intro h
    split at h
    · cases h
    · rename_i hhigh
      have hall : ∀ r : Reg, ¬ r.val < 6 → r ∉ defs (.call 0) := by decide
      exact ⟨h, hall r hhigh⟩
  cases insn with
  | movImm dst imm => exact absurd rfl (himm dst imm)
  | movReg dst src => exact absurd rfl (hreg dst src)
  | call | callSub | callKfunc => exact hcalled h
  | _ =>
    first
    | exact hcleared _ h
    | exact hkept _ hseen h

end Tracking

/-! ## Executions -/

/-- An item of the interpreter and the map memory it is reached with. -/
abbrev Config := ConcreteSucc × MapMem

def Config.pc (c : Config) : Nat := c.1.1

def Config.state (c : Config) : Explorer.ConcreteState := c.1.2

/-- One step of an execution. -/
def Steps (p : Program) (a b : Config) : Prop := ∃ l, itemSuccessors p a.1 a.2 = .ok (l, b.2) ∧ b.1 ∈ l

/-- The word that `MOV64` writes for an immediate. -/
def constant (v : Int32) : ConcreteValue := .scalar v.toInt64.toUInt64

/-- What is known in one place holds in another one too. -/
def Known.Within (known other : Known) : Prop := ∀ r, known r = none ∨ known r = other r

/-- The step overwrites no constant unseen, and what the text in front of its target says holds
    behind the instruction: for a call, what the arguments hold. An exit returns to where the
    text continues. -/
def Kept (insns : List BpfInsn) (pc pc' : Nat) : Prop :=
  match insns[pc]? with
  | none | some .exit => True
  | some (.callSub _) => ∀ r, knownAt insns pc' r = none ∨ ((1 ≤ r ∧ r ≤ 5) ∧ knownAt insns pc' r = knownAt insns pc r)
  | some insn => (∀ r ∈ ignored insn, knownAt insns pc r = none) ∧ (knownAt insns pc').Within (knownAt insns (pc + 1))

/-- Where a frame's callee returns to. -/
def returnOf (s : Explorer.ConcreteState) (depth : Nat) : Nat :=
  if depth = s.curframe then s.retPc else ((s.savedAt depth).map (·.retPc)).getD 0

/-- The registers hold what the pass knows, and so do those that the callers have saved, where
    they continue. -/
structure Agrees (insns : List BpfInsn) (item : ConcreteSucc) : Prop where
  regs : ∀ r v, knownAt insns item.1 r = some v → item.2.regs r = some (constant v)
  callers : ∀ k < item.2.curframe, ∃ fr, item.2.savedAt k = some fr ∧
    ∀ r v, knownAt insns (returnOf item.2 (k + 1)) r = some v → 6 ≤ r.val ∧ fr.regs r = some (constant v)

section Invariant

variable {insns : List BpfInsn} {insn : BpfInsn} {pc pc' : Nat} {s s' : Explorer.ConcreteState} {r : Reg} {v : Int32}

theorem knownAt_succ (hget : insns[pc]? = some insn) : knownAt insns (pc + 1) = applyDef (knownAt insns pc) insn := by
  unfold knownAt
  rw [List.take_add_one, hget, Option.toList_some, List.foldl_append, List.foldl_cons, List.foldl_nil]

theorem Known.Within.some {known other : Known} (h : known.Within other) (hr : known r = .some v) : other r = .some v := by
  obtain hnone | heq := h r
  · rw [hnone] at hr
    cases hr
  · rw [← heq, hr]

theorem savedAt_regs (h : ∀ k, (s'.saved k).map (·.regs) = (s.saved k).map (·.regs)) (k : Nat) :
    (s'.savedAt k).map (·.regs) = (s.savedAt k).map (·.regs) := by
  unfold Explorer.ConcreteState.savedAt
  split
  · exact h _
  · rfl

/-- Without a call or a return, the callers keep what they wait for. -/
theorem callers_kept (h : Agrees insns (pc, s)) (hkeeps : Keeps s s') {out : List Reg} (hwrites : Writes out s s') :
    ∀ k < s'.curframe, ∃ fr, s'.savedAt k = some fr ∧
      ∀ r v, knownAt insns (returnOf s' (k + 1)) r = some v → 6 ≤ r.val ∧ fr.regs r = some (constant v) := by
  intro k hk
  rw [hkeeps.curframe] at hk
  obtain ⟨fr, hfr, hknown⟩ := h.callers k hk
  have hregs := savedAt_regs hwrites.saved k
  rw [hfr, Option.map_some] at hregs
  obtain ⟨fr', hfr', hsame⟩ := Option.map_eq_some_iff.mp hregs
  have hreturn : returnOf s' (k + 1) = returnOf s (k + 1) := by
    unfold returnOf
    rw [hkeeps.curframe, hkeeps.retPc, hkeeps.savedAt (k + 1)]
  refine ⟨fr', hfr', fun r v hr => ?_⟩
  rw [hreturn] at hr
  rw [hsame]
  exact hknown r v hr

/-- The moves that the pass follows. -/
theorem move_value (hget : insns[pc]? = some insn) (hagrees : Agrees insns (pc, s))
    (hmove : (∃ dst imm, insn = .movImm dst imm) ∨ ∃ dst src, insn = .movReg dst src) {maps : Maps} {mem mem' : MapMem}
    {l : List ConcreteSucc} (hl : concreteSuccessors pc insn s maps mem = .ok (l, mem')) {x : ConcreteSucc} (hx : x ∈ l)
    (hr : knownAt insns (pc + 1) r = some v) : x.2.regs r = some (constant v) := by
  rw [knownAt_succ hget] at hr
  obtain ⟨dst, imm, rfl⟩ | ⟨dst, src, rfl⟩ := hmove
  · cases hl
    rw [List.mem_singleton.mp hx]
    by_cases hdst : r = dst
    · subst hdst
      rw [applyDef, Function.update_self] at hr
      cases hr
      exact Function.update_self _ _ _
    · rw [applyDef, Function.update_of_ne hdst] at hr
      exact (Function.update_of_ne hdst _ _).trans (hagrees.regs r v hr)
  · obtain ⟨l', hl', heq⟩ := map_eq_ok.mp hl
    cases heq
    simp only [pureSuccessors, concreteStep, bind_eq_ok] at hl'
    obtain ⟨next, ⟨value, hvalue, hnext⟩, hl'⟩ := hl'
    cases hnext
    cases hl'
    rw [List.mem_singleton.mp hx]
    by_cases hdst : r = dst
    · subst hdst
      rw [applyDef, Function.update_self] at hr
      have hsrc := hagrees.regs src v hr
      dsimp only at hsrc
      rw [readConcreteReg, hsrc] at hvalue
      cases hvalue
      exact Function.update_self _ _ _
    · rw [applyDef, Function.update_of_ne hdst] at hr
      exact (Function.update_of_ne hdst _ _).trans (hagrees.regs r v hr)

/-- A step that neither calls a subprogram nor returns. -/
theorem agrees_straight (hget : insns[pc]? = some insn) (hagrees : Agrees insns (pc, s)) (hcall : insn.isCallSub = false)
    (hexit : insn ≠ .exit) {maps : Maps} {mem mem' : MapMem} {l : List ConcreteSucc}
    (hl : concreteSuccessors pc insn s maps mem = .ok (l, mem')) {x : ConcreteSucc} (hx : x ∈ l)
    (hseen : ∀ r ∈ ignored insn, knownAt insns pc r = none)
    (hjoin : (knownAt insns x.1).Within (knownAt insns (pc + 1))) : Agrees insns x := by
  have hwrites := concrete_writes hcall hexit hl hx
  have hkeeps := (concrete_target hcall hexit hl hx).1
  refine ⟨fun r v hr => ?_, callers_kept hagrees hkeeps hwrites⟩
  have hnext := hjoin.some hr
  by_cases hmove : (∃ dst imm, insn = .movImm dst imm) ∨ ∃ dst src, insn = .movReg dst src
  · exact move_value hget hagrees hmove hl hx hnext
  · rw [not_or] at hmove
    rw [knownAt_succ hget] at hnext
    obtain ⟨hknown, hout⟩ := applyDef_some (fun dst imm h => hmove.1 ⟨dst, imm, h⟩)
      (fun dst src h => hmove.2 ⟨dst, src, h⟩) hseen hnext
    rw [hwrites.regs r hout]
    exact hagrees.regs r v hknown

theorem savedAt_below {k : Nat} (hk : k < maxCallFrames - 1) : s.savedAt k = s.saved ⟨k, hk⟩ := dif_pos hk

/-- What a call changes. -/
theorem call_facts {callee : Explorer.ConcreteState} (h : s.callSubprog pc = .ok callee) :
    callee.curframe = s.curframe + 1 ∧ callee.retPc = pc ∧ (∀ r : Reg, 1 ≤ r ∧ r ≤ 5 → callee.regs r = s.regs r) ∧
      callee.savedAt s.curframe = some ⟨s.regs, s.stack, s.retPc⟩ ∧
      ∀ j < s.curframe, callee.savedAt j = s.savedAt j := by
  unfold Explorer.ConcreteState.callSubprog at h
  split at h
  · rename_i hdepth
    cases h
    refine ⟨rfl, rfl, fun r hr => if_pos hr, ?_, fun j hj => ?_⟩
    · rw [savedAt_below hdepth]
      exact Function.update_self _ _ _
    · rw [savedAt_below (by omega), savedAt_below (show j < maxCallFrames - 1 by omega)]
      exact Function.update_of_ne (fun h => absurd (congrArg Fin.val h) (by dsimp only; omega)) _ _
  · cases h

/-- What a return restores. -/
theorem return_facts {fr : Explorer.ConcreteFrame} (hcur : 0 < s.curframe) (hfr : s.savedAt (s.curframe - 1) = some fr) :
    s.returnFromSubprog.curframe = s.curframe - 1 ∧ s.returnFromSubprog.retPc = fr.retPc ∧
      (∀ r : Reg, 6 ≤ r.val → s.returnFromSubprog.regs r = fr.regs r) ∧
      ∀ j < s.curframe - 1, s.returnFromSubprog.savedAt j = s.savedAt j := by
  have hdepth : s.curframe - 1 < maxCallFrames - 1 := by
    unfold Explorer.ConcreteState.savedAt at hfr
    split at hfr
    · assumption
    · cases hfr
  unfold Explorer.ConcreteState.returnFromSubprog
  rw [if_neg (by omega)]
  dsimp only
  rw [hfr]
  refine ⟨rfl, rfl, fun r hr => ?_, fun j hj => ?_⟩
  · have hscratch : ∀ r : Reg, 6 ≤ r.val → ¬ (1 ≤ r ∧ r ≤ 5) ∧ r ≠ 0 := by decide
    dsimp only [Explorer.ConcreteState.clobberArgs]
    rw [if_neg (hscratch r hr).1, Function.update_of_ne (hscratch r hr).2]
  · rw [savedAt_below (by omega), savedAt_below (show j < maxCallFrames - 1 by omega)]
    exact if_neg (by dsimp only; omega)

/-- A call: the caller keeps R6..R9 for the instruction behind it. -/
theorem agrees_call {offset : Int32} (hget : insns[pc]? = some (.callSub offset)) (hagrees : Agrees insns (pc, s))
    {callee : Explorer.ConcreteState} (hcall : s.callSubprog (pc + 1) = .ok callee) {target : Nat}
    (hjoin : ∀ r, knownAt insns target r = none ∨ ((1 ≤ r ∧ r ≤ 5) ∧ knownAt insns target r = knownAt insns pc r)) :
    Agrees insns (target, callee) := by
  obtain ⟨hcur, hret, hargs, hcaller, hbelow⟩ := call_facts hcall
  refine ⟨fun r v hr => ?_, fun k hk => ?_⟩
  · obtain hnone | ⟨harg, heq⟩ := hjoin r
    · dsimp only at hr
      rw [hnone] at hr
      cases hr
    · rw [hargs r harg]
      exact hagrees.regs r v (heq ▸ hr)
  · dsimp only at hk ⊢
    by_cases hlast : k = s.curframe
    · subst hlast
      refine ⟨_, hcaller, fun r v hr => ?_⟩
      rw [returnOf, if_pos hcur.symm, hret, knownAt_succ hget] at hr
      have hcalled : (if r.val < 6 then none else knownAt insns pc r) = some v := hr
      split at hcalled
      · cases hcalled
      · rename_i hhigh
        exact ⟨by omega, hagrees.regs r v hcalled⟩
    · obtain ⟨fr, hfr, hknown⟩ := hagrees.callers k (by dsimp only; omega)
      refine ⟨fr, (hbelow k (by omega)).trans hfr, fun r v hr => hknown r v ?_⟩
      rw [← hr, returnOf, returnOf, if_neg (show ¬ k + 1 = callee.curframe by omega)]
      dsimp only
      by_cases hnext : k + 1 = s.curframe
      · rw [if_pos hnext, hnext, hcaller]
        rfl
      · rw [if_neg hnext, hbelow (k + 1) (by omega)]

/-- A return: the caller goes on with what it has saved. -/
theorem agrees_return (hagrees : Agrees insns (pc, s)) (hcur : 0 < s.curframe) :
    Agrees insns (s.retPc, s.returnFromSubprog) := by
  obtain ⟨fr, hfr, hknown⟩ := hagrees.callers (s.curframe - 1) (by dsimp only; omega)
  dsimp only at hfr hknown
  obtain ⟨hdepth, hret, hregs, hbelow⟩ := return_facts hcur hfr
  refine ⟨fun r v hr => ?_, fun k hk => ?_⟩
  · rw [show s.curframe - 1 + 1 = s.curframe by omega, returnOf, if_pos rfl] at hknown
    obtain ⟨hhigh, hvalue⟩ := hknown r v hr
    rw [hregs r hhigh]
    exact hvalue
  · dsimp only at hk ⊢
    obtain ⟨fr', hfr', hknown'⟩ := hagrees.callers k (by dsimp only; omega)
    refine ⟨fr', (hbelow k (by omega)).trans hfr', fun r v hr => hknown' r v ?_⟩
    rw [← hr, returnOf, returnOf, if_neg (show ¬ k + 1 = s.curframe by omega)]
    by_cases hlast : k + 1 = s.returnFromSubprog.curframe
    · rw [if_pos hlast, hret, hlast, hdepth, hfr]
      rfl
    · rw [if_neg hlast, hbelow (k + 1) (by omega)]

end Invariant

section Runs

variable {p : Program} {a b start : Config}

/-- One step of an execution. -/
theorem Agrees.step (h : Agrees p.insns a.1) (hstep : Steps p a b) (hkept : Kept p.insns a.pc b.pc) : Agrees p.insns b.1 := by
  obtain ⟨⟨pc, s⟩, mem⟩ := a
  obtain ⟨x, mem'⟩ := b
  obtain ⟨l, hl, hx⟩ := hstep
  dsimp only [Config.pc] at h hl hx hkept ⊢
  unfold itemSuccessors at hl
  unfold Kept at hkept
  dsimp only at hl
  cases hget : p.insns[pc]? with
  | none =>
    rw [hget] at hl
    cases hl
  | some insn =>
    rw [hget] at hl hkept
    cases insn with
    | exit =>
      dsimp only at hl
      split at hl
      · rename_i hcur
        split at hl
        · cases hl
        · cases hl
          rw [List.mem_singleton.mp hx]
          exact agrees_return h hcur
      · obtain ⟨value, -, hl⟩ := bind_eq_ok.mp hl
        cases hl
        cases hx
    | callSub offset =>
      obtain ⟨l', hl', heq⟩ := map_eq_ok.mp hl
      cases heq
      obtain ⟨callee, hcallee, hl'⟩ := bind_eq_ok.mp hl'
      cases hl'
      rw [List.mem_singleton.mp hx] at hkept ⊢
      exact agrees_call hget h hcallee hkept
    | _ => exact agrees_straight hget h rfl nofun hl hx hkept.1 hkept.2

/-- At the entry nothing is known, and no caller waits. -/
theorem agrees_entry (hpc : start.pc = 0) (hcur : start.state.curframe = 0) : Agrees p.insns start.1 := by
  obtain ⟨⟨pc, s⟩, mem⟩ := start
  dsimp only [Config.pc, Config.state] at hpc hcur
  subst hpc
  refine ⟨fun r v hr => ?_, fun k hk => ?_⟩
  · cases hr
  · dsimp only at hk
    omega

/-- In a run whose steps keep the constants, the registers hold them. -/
theorem agrees_run (hpc : start.pc = 0) (hcur : start.state.curframe = 0)
    (hrun : Relation.ReflTransGen (fun a b => Steps p a b ∧ Kept p.insns a.pc b.pc) start b) : Agrees p.insns b.1 := by
  induction hrun with
  | refl => exact agrees_entry hpc hcur
  | tail _ hstep ih => exact ih.step hstep.1 hstep.2

end Runs

/-! ## The immediate form -/

/-- The operands of a register operation other than a move. -/
def aluOperands : BpfInsn → Option (Reg × Reg × AluOp × AluWidth)
  | .addReg dst src => some (dst, src, .add, .w64)
  | .subReg dst src => some (dst, src, .sub, .w64)
  | .andReg dst src => some (dst, src, .and, .w64)
  | .orReg dst src => some (dst, src, .or, .w64)
  | .xorReg dst src => some (dst, src, .xor, .w64)
  | .lshReg dst src => some (dst, src, .lsh, .w64)
  | .rshReg dst src => some (dst, src, .rsh, .w64)
  | .arshReg dst src => some (dst, src, .arsh, .w64)
  | .add32Reg dst src => some (dst, src, .add, .w32)
  | .sub32Reg dst src => some (dst, src, .sub, .w32)
  | .and32Reg dst src => some (dst, src, .and, .w32)
  | .or32Reg dst src => some (dst, src, .or, .w32)
  | .xor32Reg dst src => some (dst, src, .xor, .w32)
  | .lsh32Reg dst src => some (dst, src, .lsh, .w32)
  | .rsh32Reg dst src => some (dst, src, .rsh, .w32)
  | .arsh32Reg dst src => some (dst, src, .arsh, .w32)
  | _ => none

/-- The instruction that an immediate form decodes to. -/
def immediateForm (insn : BpfInsn) (v : Int32) : BpfInsn :=
  match insn with
  | .movReg dst _ => .movImm dst v
  | .addReg dst _ => .addImm dst v
  | .subReg dst _ => .subImm dst v
  | .andReg dst _ => .andImm dst v
  | .orReg dst _ => .orImm dst v
  | .xorReg dst _ => .xorImm dst v
  | .lshReg dst _ => .lshImm dst v
  | .rshReg dst _ => .rshImm dst v
  | .arshReg dst _ => .arshImm dst v
  | .add32Reg dst _ => .add32Imm dst v
  | .sub32Reg dst _ => .sub32Imm dst v
  | .and32Reg dst _ => .and32Imm dst v
  | .or32Reg dst _ => .or32Imm dst v
  | .xor32Reg dst _ => .xor32Imm dst v
  | .lsh32Reg dst _ => .lsh32Imm dst v
  | .rsh32Reg dst _ => .rsh32Imm dst v
  | .arsh32Reg dst _ => .arsh32Imm dst v
  | insn => insn

/-- The offset of a stack address moved by an immediate stays in the 64-bit range. -/
def OffsetFits (addr : UInt64) (v : Int32) : Prop :=
  -2 ^ 63 ≤ (addr.toInt64 - stackBase.toInt64).toInt + v.toInt ∧
    (addr.toInt64 - stackBase.toInt64).toInt + v.toInt < 2 ^ 63

/-- An immediate shift needs an amount below the width, and moving a stack pointer by an
    immediate saturates. -/
def Replaceable (insn : BpfInsn) (v : Int32) (s : Explorer.ConcreteState) : Prop :=
  match aluOperands insn with
  | none => True
  | some (dst, _, op, width) =>
    (op.isShift = true → 0 ≤ v.toInt ∧ v.toInt < width.bitness) ∧
      (op = .add → width = .w64 → ∀ addr frameno, s.regs dst = some (.stackPtr addr frameno) → OffsetFits addr v)

section Same

variable {s : Explorer.ConcreteState} {pc : Nat} {dst src : Reg} {v : Int32} {op : AluOp} {width : AluWidth}

/-- A saturated sum is the wrapped one exactly if it fits. -/
theorem clamp_eq {x : Int} (hlo : -2 ^ 64 ≤ x) (hhi : x < 2 ^ 64) :
    Int64.ofInt (clampI64 x) = Int64.ofInt x ↔ -2 ^ 63 ≤ x ∧ x < 2 ^ 63 := by
  constructor
  · intro h
    have hint := congrArg Int64.toInt h
    rw [Int64.toInt_ofInt, Int64.toInt_ofInt, clampI64, Int.bmod_def, Int.bmod_def,
      show Int64.size = 18446744073709551616 from rfl] at hint
    split at hint <;> split at hint <;> omega
  · intro h
    rw [clampI64, show max (-2 ^ 63) (min (2 ^ 63 - 1) x) = x by omega]

theorem stackPtrAddImm_eq {addr : UInt64} :
    stackPtrAddImm addr v = addr + v.toInt64.toUInt64 ↔ OffsetFits addr v := by
  have hd := Int64.le_toInt (addr.toInt64 - stackBase.toInt64)
  have hd' := Int64.toInt_lt (addr.toInt64 - stackBase.toInt64)
  have hv := v.le_toInt
  have hv' := v.toInt_lt
  have hwrapped : addr + v.toInt64.toUInt64 = (stackBase.toInt64 +
      Int64.ofInt ((addr.toInt64 - stackBase.toInt64).toInt + v.toInt)).toUInt64 := by
    rw [Int64.ofInt_add, Int64.ofInt_toInt, ← Int64.add_assoc, Int64.add_comm stackBase.toInt64, Int64.sub_add_cancel,
      Int64.toUInt64_add]
    rfl
  rw [OffsetFits, ← clamp_eq (by omega) (by omega), hwrapped, stackPtrAddImm]
  constructor
  · intro h
    have hint := congrArg UInt64.toInt64 h
    rw [Int64.toInt64_toUInt64, Int64.toInt64_toUInt64] at hint
    exact (Int64.add_right_inj _).mp hint
  · intro h
    rw [h]

theorem setReg_inj {a b : ConcreteValue} : s.setReg dst a = s.setReg dst b ↔ a = b := by
  constructor
  · intro h
    have hdst := congrFun (congrArg Explorer.ConcreteState.regs h) dst
    simp only [Explorer.ConcreteState.setReg, Function.update_self, Option.some.injEq] at hdst
    exact hdst
  · intro h
    rw [h]

/-- A register operation on a written register with a constant source. -/
theorem aluReg_known {d : ConcreteValue} (hdst : s.regs dst = some d) (hsrc : s.regs src = some (constant v)) :
    concreteAluReg pc s dst src op width = (concreteAluValue pc dst op width d (constant v)).map (s.setReg dst) := by
  unfold concreteAluReg
  simp only [readConcreteReg, hdst, hsrc]
  rfl

/-- A legal immediate operation on a written register does what the register operation does with
    the constant, unless it saturates. -/
theorem aluImm_known {d : ConcreteValue} (hdst : s.regs dst = some d)
    (hshift : ¬ (op.isShift ∧ ¬ (0 ≤ v.toInt ∧ v.toInt < width.bitness))) :
    (concreteAluValue pc dst op width d (constant v)).map (s.setReg dst) = concreteAluImm pc s dst v op width ↔
      (op = .add → width = .w64 → ∀ addr frameno, d = .stackPtr addr frameno → OffsetFits addr v) := by
  unfold concreteAluImm
  rw [if_neg hshift]
  simp only [readConcreteReg, hdst]
  cases d with
  | scalar w => exact ⟨fun _ _ _ _ _ h => (nomatch h), fun _ => rfl⟩
  | ctxPtr addr =>
    refine ⟨fun _ _ _ _ _ h => (nomatch h), fun _ => ?_⟩
    change (ctxPtrMove pc dst addr v.toInt64.toUInt64 op width).map (s.setReg dst) =
      (ctxPtrMove pc dst addr v.toInt64.toUInt64 op width >>= fun moved => Except.ok (s.setReg dst moved))
    cases ctxPtrMove pc dst addr v.toInt64.toUInt64 op width <;> rfl
  | memPtr addr => exact ⟨fun _ _ _ _ _ h => (nomatch h), fun _ => rfl⟩
  | mapPtr fd index offset =>
    refine ⟨fun _ _ _ _ _ h => (nomatch h), fun _ => ?_⟩
    simp only [concreteAluValue, constant]
    by_cases hop : op ≠ .add ∨ width ≠ .w64
    · rw [if_pos hop]
      change _ = if _ then _ else _
      rw [if_pos hop]
      rfl
    · rw [if_neg hop]
      change _ = if _ then _ else _
      rw [if_neg hop]
      rw [Int64.toInt64_toUInt64]
      cases mapOffsetAdd pc dst offset v.toInt64 <;> rfl
  | stackPtr addr frameno =>
    simp only [concreteAluValue, constant]
    by_cases hop : op ≠ .add ∨ width ≠ .w64
    · rw [if_pos hop]
      change (_ = if _ then _ else _) ↔ _
      rw [if_pos hop]
      exact ⟨fun _ hadd hwidth => absurd hop (not_or.mpr ⟨not_not.mpr hadd, not_not.mpr hwidth⟩), fun _ => rfl⟩
    · rw [if_neg hop]
      change (_ = if _ then _ else _) ↔ _
      rw [if_neg hop]
      simp only [not_or, not_not] at hop
      change Except.ok _ = Except.ok _ ↔ _
      rw [Except.ok.injEq, setReg_inj, ConcreteValue.stackPtr.injEq, eq_comm, stackPtrAddImm_eq]
      exact ⟨fun h _ _ a f heq => by cases heq; exact h.1, fun h => ⟨h hop.1 hop.2 addr frameno rfl, rfl⟩⟩

/-- The register operation never fails as an immediate shift does. -/
theorem aluReg_no_shift {amount : UInt64} (hsrc : s.regs src = some (constant v)) (hop : op.isShift = true) :
    concreteAluReg pc s dst src op width ≠ halt (.invalidShiftAmount pc amount) := by
  intro h
  cases hdst : s.regs dst with
  | none =>
    simp only [concreteAluReg, readConcreteReg, hdst] at h
    cases h
  | some d =>
    rw [aluReg_known hdst hsrc] at h
    have hadd : op ≠ .add := by
      rintro rfl
      cases hop
    cases d with
    | scalar | memPtr => cases h
    | stackPtr | mapPtr =>
      simp only [concreteAluValue, constant] at h
      rw [if_pos (.inl hadd)] at h
      cases h
    | ctxPtr addr =>
      have hmove : ctxPtrMove pc dst addr v.toInt64.toUInt64 op width = halt (.pointerArithmetic pc dst) := by
        cases op with
        | lsh | rsh | arsh =>
          unfold ctxPtrMove
          split <;> rfl
        | _ => cases hop
      simp only [concreteAluValue, constant, hmove] at h
      cases h

/-- An ALU operation with a constant source and its immediate form. -/
theorem aluReg_eq_imm (hsrc : s.regs src = some (constant v)) :
    concreteAluReg pc s dst src op width = concreteAluImm pc s dst v op width ↔
      (op.isShift = true → 0 ≤ v.toInt ∧ v.toInt < width.bitness) ∧
        (op = .add → width = .w64 → ∀ addr frameno, s.regs dst = some (.stackPtr addr frameno) → OffsetFits addr v) := by
  by_cases hshift : op.isShift = true ∧ ¬ (0 ≤ v.toInt ∧ v.toInt < width.bitness)
  · unfold concreteAluImm
    rw [if_pos hshift]
    exact ⟨fun h => absurd h (aluReg_no_shift hsrc hshift.1), fun h => absurd (h.1 hshift.1) hshift.2⟩
  · have hlegal : op.isShift = true → 0 ≤ v.toInt ∧ v.toInt < width.bitness :=
      fun hop => not_not.mp fun hno => hshift ⟨hop, hno⟩
    cases hdst : s.regs dst with
    | none =>
      have himm : concreteAluImm pc s dst v op width = halt (.uninitializedRead pc dst) := by
        unfold concreteAluImm
        rw [if_neg hshift, readConcreteReg, hdst]
        rfl
      have hreg : concreteAluReg pc s dst src op width = halt (.uninitializedRead pc dst) := by
        rw [concreteAluReg, readConcreteReg, hdst]
        rfl
      exact ⟨fun _ => ⟨hlegal, fun _ _ _ _ h => by cases h⟩, fun _ => hreg.trans himm.symm⟩
    | some d =>
      rw [aluReg_known hdst hsrc, aluImm_known hdst hshift]
      simp only [Option.some.injEq]
      exact ⟨fun h => ⟨hlegal, h⟩, fun h => h.2⟩
/-- The one successor of an instruction that falls through. -/
def onlyNext (pc : Nat) (mem : MapMem) (next : Eval Explorer.ConcreteState) : Eval (List ConcreteSucc × MapMem) :=
  (next >>= fun next => .ok [(pc + 1, next)]).map (·, mem)

theorem onlyNext_inj {mem : MapMem} {x y : Eval Explorer.ConcreteState} : onlyNext pc mem x = onlyNext pc mem y ↔ x = y := by
  constructor
  · intro h
    cases x <;> cases y <;> cases h <;> rfl
  · intro h
    rw [h]

theorem aluOperands_source {insn : BpfInsn} (h : aluOperands insn = some (dst, src, op, width)) :
    xFormSource insn = some src := by
  cases insn <;> cases h <;> rfl

theorem alu_successors {insn : BpfInsn} (h : aluOperands insn = some (dst, src, op, width)) (maps : Maps) (mem : MapMem) :
    concreteSuccessors pc insn s maps mem = onlyNext pc mem (concreteAluReg pc s dst src op width) ∧
      concreteSuccessors pc (immediateForm insn v) s maps mem = onlyNext pc mem (concreteAluImm pc s dst v op width) := by
  cases insn <;> cases h <;> exact ⟨rfl, rfl⟩

/-- With a constant source, an instruction and its immediate form have the same successors
    exactly if it is replaceable. -/
theorem sameStep_iff {insn : BpfInsn} (hform : xFormSource insn = some src) (hsrc : s.regs src = some (constant v))
    (maps : Maps) (mem : MapMem) :
    concreteSuccessors pc insn s maps mem = concreteSuccessors pc (immediateForm insn v) s maps mem ↔
      Replaceable insn v s := by
  unfold Replaceable
  cases hops : aluOperands insn with
  | some operands =>
    obtain ⟨dst, src', op, width⟩ := operands
    have heq := aluOperands_source hops
    rw [hform, Option.some.injEq] at heq
    subst heq
    obtain ⟨hreg, himm⟩ := @alu_successors s pc dst src v op width insn hops maps mem
    rw [hreg, himm, onlyNext_inj]
    exact aluReg_eq_imm hsrc
  | none =>
    refine ⟨fun _ => trivial, fun _ => ?_⟩
    cases insn with
    | movReg dst src' =>
      cases hform
      change onlyNext pc mem (readConcreteReg pc s src >>= fun v => .ok (s.setReg dst v)) =
        onlyNext pc mem (.ok (s.setReg dst (constant v)))
      rw [readConcreteReg, hsrc]
      rfl
    | _ =>
      first
      | cases hform; done
      | cases hops

end Same

/-! ## The candidate -/

section Decoding

variable {insns : List BpfInsn} {insn new : BpfInsn} {pc : Nat} {slots : List Slot} {f : Fields} {src : Reg} {v : Int32}

/-- Replacing a slot by another single one replaces its instruction. -/
theorem decodeChunks_set {remainder : List UInt8} {idx : Nat} {slot : Slot}
    (h : decodeChunks remainder idx slots = .ok insns) (hget : insns[pc]? = some insn) (hnarrow : insn.isHalf = false)
    (hcode : slot.b0 ≠ opcode.ldImm64) (hparse : parseFields slot.fields = .ok new) :
    decodeChunks remainder idx (slots.set pc slot) = .ok (insns.set pc new) := by
  fun_induction decodeChunks remainder idx slots generalizing insns pc with
  | case1 =>
    cases h
    cases hget
  | case2 => cases h
  | case3 => cases h
  | case4 idx chunk hwide second rest ih =>
    obtain ⟨first, hfirst, h⟩ := bind_eq_ok.mp h
    obtain ⟨tail, htail, h⟩ := bind_eq_ok.mp h
    cases h
    have hhalves := halves_iff.mpr ⟨chunk, second, hwide, mapError_eq_ok.mp hfirst, rfl⟩
    cases pc with
    | zero =>
      cases hget
      rw [hhalves.first] at hnarrow
      cases hnarrow
    | succ pc =>
      cases pc with
      | zero =>
        cases hget
        cases hnarrow
      | succ pc =>
        rw [List.set_cons_succ, List.set_cons_succ, List.set_cons_succ, List.set_cons_succ]
        unfold decodeChunks
        rw [if_pos hwide]
        dsimp only
        rw [hfirst, ih htail hget]
        rfl
  | case5 idx chunk chunks hnot ih =>
    obtain ⟨first, hfirst, h⟩ := bind_eq_ok.mp h
    obtain ⟨tail, htail, h⟩ := bind_eq_ok.mp h
    cases h
    cases pc with
    | zero =>
      rw [List.set_cons_zero, List.set_cons_zero]
      unfold decodeChunks
      rw [if_neg hcode, hparse, htail]
      rfl
    | succ pc =>
      rw [List.set_cons_succ, List.set_cons_succ]
      unfold decodeChunks
      rw [if_neg hnot, hfirst, ih htail hget]
      rfl

theorem xForm_narrow (h : xFormSource insn = some src) : insn.isHalf = false ∧ insn ≠ .exit ∧ insn.isCallSub = false := by
  cases insn <;> first
    | (cases h; done)
    | exact ⟨rfl, nofun, rfl⟩

/-- The fields of an immediate form decode to it. -/
theorem immediateForm_parse (hf : encodeFields insn = some f) (hsrc : xFormSource insn = some src) :
    parseFields (kFormFields f v) = .ok (immediateForm insn v) := by
  have hboth : encodeFields (immediateForm insn v) = some (kFormFields f v) ∧ (immediateForm insn v).Legal := by
    cases insn with
    | jmp32 | ldMem => cases hsrc
    | _ =>
      first
      | (cases hsrc; done)
      | (cases hf
         refine ⟨?_, trivial⟩
         simp only [immediateForm, encodeFields, kForm, kFormFields, Option.some.injEq, Fields.mk.injEq, and_self, and_true]
         decide)
  obtain ⟨f', hf', hparse⟩ := parse_legal hboth.2
  rw [hboth.1] at hf'
  cases hf'
  exact hparse

/-- A candidate decodes to the program with one immediate form. -/
theorem aluForm_decodes {bytes : List UInt8} (hdec : decode bytes = some insns) (hget : insns[pc]? = some insn)
    (hf : encodeFields insn = some f) (hsrc : xFormSource insn = some src) :
    decode (patch bytes pc (kFormFields f v).slot.bytes) = some (insns.set pc (immediateForm insn v)) := by
  obtain ⟨hne, -, -⟩ := decode_some.mp hdec
  obtain ⟨slots, rfl, hchunks, hslots⟩ := decode_slots hdec
  have hpc : pc < slots.length := by
    rw [← hslots.length_eq]
    exact (List.getElem?_eq_some_iff.mp hget).1
  have hparse := @immediateForm_parse insn f src v hf hsrc
  have hslot : (kFormFields f v).slot.fields = kFormFields f v :=
    Fields.slot_fields (encodeFields_nibbles hf).1 (by show (0 : UInt8).toNat < 16; decide)
  have hcode : (kFormFields f v).slot.b0 ≠ opcode.ldImm64 := by
    intro h
    have hcodes : ∀ c ∈ xFormOpcodes, c &&& ~~~0x08 ≠ opcode.ldImm64 := forall_mem_of_all (by decide)
    exact hcodes f.code (xFormSource_encode hf hsrc).1 h
  have hset := decodeChunks_set hchunks hget (xForm_narrow hsrc).1 hcode (hslot ▸ hparse)
  rw [patch_slots hpc]
  refine decode_some.mpr ⟨fun hnil => ?_, ?_, ?_⟩
  · have hlength := congrArg List.length hnil
    rw [slots_length, List.length_set, List.length_nil] at hlength
    omega
  · rw [slots_length]
    omega
  · rw [decodeProgram, asChunks_flatten]
    exact hset

end Decoding

/-! ## Runs of the candidate -/

/-- The program with one instruction replaced. -/
def replaced (p : Program) (pc : Nat) (insn : BpfInsn) : Program := { p with insns := p.insns.set pc insn }

/-- The step keeps the constants of the program, and what it replaces can be replaced. -/
structure Shared (insns : List BpfInsn) (pc : Nat) (insn : BpfInsn) (v : Int32) (a b : Config) : Prop where
  kept : Kept insns a.pc b.pc
  replaceable : a.pc = pc → Replaceable insn v a.state

section Candidate

variable {p : Program} {insn : BpfInsn} {pc : Nat} {src : Reg} {v : Int32} {c start : Config}

theorem item_successors (hget : p.insns[c.pc]? = some insn) (hexit : insn ≠ .exit) :
    itemSuccessors p c.1 c.2 = concreteSuccessors c.pc insn c.state p.maps c.2 := by
  obtain ⟨⟨i, s⟩, mem⟩ := c
  dsimp only [Config.pc, Config.state] at hget ⊢
  unfold itemSuccessors
  dsimp only
  rw [hget]
  cases insn with
  | exit => exact absurd rfl hexit
  | _ => rfl

/-- Elsewhere the candidate has the same instructions. -/
theorem replaced_elsewhere {new : BpfInsn} (hpc : c.pc ≠ pc) :
    itemSuccessors (replaced p pc new) c.1 c.2 = itemSuccessors p c.1 c.2 := by
  unfold itemSuccessors
  have hget : (replaced p pc new).insns[c.1.1]? = p.insns[c.1.1]? := List.getElem?_set_ne (Ne.symm hpc)
  dsimp only
  rw [hget]
  rfl

/-- At the replaced instruction. -/
theorem replaced_here (hget : p.insns[pc]? = some insn) (hform : xFormSource insn = some src) (hpc : c.pc = pc)
    (hsrc : c.state.regs src = some (constant v)) :
    itemSuccessors p c.1 c.2 = itemSuccessors (replaced p pc (immediateForm insn v)) c.1 c.2 ↔ Replaceable insn v c.state := by
  subst hpc
  have hset : (replaced p c.pc (immediateForm insn v)).insns[c.pc]? = some (immediateForm insn v) :=
    List.getElem?_set_self (List.getElem?_eq_some_iff.mp hget).1
  have hexit : immediateForm insn v ≠ .exit := by
    cases insn <;> first
      | (cases hform; done)
      | nofun
  rw [item_successors hget (xForm_narrow hform).2.1, item_successors hset hexit]
  exact sameStep_iff hform hsrc p.maps c.2

/-- In a run whose steps are shared, original and candidate take the same steps. -/
theorem shared_step (hget : p.insns[pc]? = some insn) (hform : xFormSource insn = some src)
    (hsrc : c.pc = pc → c.state.regs src = some (constant v)) (hfits : c.pc = pc → Replaceable insn v c.state) (b : Config) :
    Steps p c b ↔ Steps (replaced p pc (immediateForm insn v)) c b := by
  unfold Steps
  by_cases hpc : c.pc = pc
  · rw [(replaced_here hget hform hpc (hsrc hpc)).mpr (hfits hpc)]
  · rw [replaced_elsewhere hpc]

/-- The runs of shared steps are the same. -/
theorem shared_runs (hget : p.insns[pc]? = some insn) (hform : xFormSource insn = some src)
    (hknown : knownAt p.insns pc src = some v) (hpc : start.pc = 0) (hcur : start.state.curframe = 0) :
    Relation.ReflTransGen (fun a b => Steps p a b ∧ Shared p.insns pc insn v a b) start c ↔
      Relation.ReflTransGen
        (fun a b => Steps (replaced p pc (immediateForm insn v)) a b ∧ Shared p.insns pc insn v a b) start c := by
  have hsource : ∀ {a}, Relation.ReflTransGen (fun a b => Steps p a b ∧ Shared p.insns pc insn v a b) start a →
      a.pc = pc → a.state.regs src = some (constant v) := by
    intro a hrun hat
    have hkept := Relation.ReflTransGen.mono (fun _ _ h => And.imp_right Shared.kept h) _ _ hrun
    exact (agrees_run hpc hcur hkept).regs src v (by rw [← hat] at hknown; exact hknown)
  constructor
  · intro hrun
    induction hrun with
    | refl => exact .refl
    | tail hrun hstep ih =>
      exact ih.tail ⟨(shared_step hget hform (hsource hrun) hstep.2.replaceable _).mp hstep.1, hstep.2⟩
  · intro hrun
    induction hrun with
    | refl => exact .refl
    | tail _ hstep ih =>
      exact ih.tail ⟨(shared_step hget hform (hsource ih) hstep.2.replaceable _).mpr hstep.1, hstep.2⟩

end Candidate

/-- A candidate of the alu-form pass decodes to the program with the immediate form of one
    instruction. In every run from the entry, on any registers and memory, whose steps keep the
    constants, the source holds the immediate whenever the run comes to that instruction, and
    there both take the same step exactly if the form is replaceable. The runs of such steps are
    runs of both. -/
theorem alu_form_preserves {bytes out : List UInt8} {insns : List BpfInsn} {cands : List (Transform × List UInt8)}
    (hdec : decode bytes = some insns) (hcands : operandCandidates bytes = .ok cands) (hmem : (.aluForm, out) ∈ cands) :
    ∃ pc insn src v, insns[pc]? = some insn ∧ xFormSource insn = some src ∧
      decode out = some (insns.set pc (immediateForm insn v)) ∧
      ∀ (p : Program) (start c : Config), p.insns = insns → start.pc = 0 → start.state.curframe = 0 →
        (Relation.ReflTransGen (fun a b => Steps p a b ∧ Kept insns a.pc b.pc) start c → c.pc = pc →
          c.state.regs src = some (constant v) ∧
          (itemSuccessors p c.1 c.2 = itemSuccessors (replaced p pc (immediateForm insn v)) c.1 c.2 ↔
            Replaceable insn v c.state)) ∧
        (Relation.ReflTransGen (fun a b => Steps p a b ∧ Shared insns pc insn v a b) start c ↔
          Relation.ReflTransGen
            (fun a b => Steps (replaced p pc (immediateForm insn v)) a b ∧ Shared insns pc insn v a b) start c) := by
  cases operandCandidates_mem hdec hcands hmem with
  | @aluForm pc insn f src v hget hf hform hknown =>
    refine ⟨pc, insn, src, v, hget, hform, aluForm_decodes hdec hget hf hform, ?_⟩
    intro p start c hinsns hpc hcur
    subst hinsns
    refine ⟨fun hrun hat => ?_, shared_runs hget hform hknown hpc hcur⟩
    have hsource : c.state.regs src = some (constant v) :=
      (agrees_run hpc hcur hrun).regs src v (by rw [← hat] at hknown; exact hknown)
    exact ⟨hsource, replaced_here hget hform hat hsource⟩

/-- `r1 = 5; r0 = r1; exit`: at the move R1 holds 5, and `r0 = 5` does the same. -/
theorem alu_form_preserves_move :
    ∃ v, (follow (withLiveness [.movImm 1 5, .movReg 0 1, .exit]) 1).2.regs 1 = some (constant v) ∧
      (itemSuccessors (withLiveness [.movImm 1 5, .movReg 0 1, .exit])
          (1, (follow (withLiveness [.movImm 1 5, .movReg 0 1, .exit]) 1).2) .empty =
        itemSuccessors (replaced (withLiveness [.movImm 1 5, .movReg 0 1, .exit]) 1 (.movImm 0 v))
          (1, (follow (withLiveness [.movImm 1 5, .movReg 0 1, .exit]) 1).2) .empty) := by
  obtain ⟨pc, insn, src, v, hget, hform, -, hall⟩ := @alu_form_preserves
    [0xb7, 1, 0, 0, 5, 0, 0, 0, 0xbf, 0x10, 0, 0, 0, 0, 0, 0, 0x95, 0, 0, 0, 0, 0, 0, 0]
    [0xb7, 1, 0, 0, 5, 0, 0, 0, 0xb7, 0, 0, 0, 5, 0, 0, 0, 0x95, 0, 0, 0, 0, 0, 0, 0]
    [.movImm 1 5, .movReg 0 1, .exit] _ (by decide) rfl (by decide)
  match pc with
  | 0 => cases hget; cases hform
  | 2 => cases hget; cases hform
  | pc + 3 => cases hget
  | 1 =>
    cases hget
    cases hform
    obtain ⟨hheld, -⟩ := hall (withLiveness [.movImm 1 5, .movReg 0 1, .exit])
      ((0, .initialWith .socketFilter), .empty)
      ((1, (follow (withLiveness [.movImm 1 5, .movReg 0 1, .exit]) 1).2), .empty) rfl rfl rfl
    obtain ⟨hsource, hsame⟩ := hheld (.single ⟨⟨_, rfl, List.mem_singleton.mpr rfl⟩, nofun, fun _ => .inr rfl⟩) rfl
    exact ⟨v, hsource, hsame.mpr trivial⟩

/-- `r1 = 5; r1 *= 2; r0 = r1; exit`: the multiplication is not seen, and the candidate ends with
    5 in R0 where the program ends with 10. -/
theorem stale_constant : ∃ bytes out insns insns' cands,
    decode bytes = some insns ∧ operandCandidates bytes = .ok cands ∧ (.aluForm, out) ∈ cands ∧
      decode out = some insns' ∧
      (follow (withLiveness insns) 3).1 = 3 ∧ (follow (withLiveness insns) 3).2.regs 0 = some (.scalar 10) ∧
      (follow (withLiveness insns') 3).1 = 3 ∧ (follow (withLiveness insns') 3).2.regs 0 = some (.scalar 5) :=
  ⟨[0xb7, 1, 0, 0, 5, 0, 0, 0, 0x27, 1, 0, 0, 2, 0, 0, 0, 0xbf, 0x10, 0, 0, 0, 0, 0, 0, 0x95, 0, 0, 0, 0, 0, 0, 0],
    [0xb7, 1, 0, 0, 5, 0, 0, 0, 0x27, 1, 0, 0, 2, 0, 0, 0, 0xb7, 0, 0, 0, 5, 0, 0, 0, 0x95, 0, 0, 0, 0, 0, 0, 0],
    [.movImm 1 5, .mulImm 1 2 .low, .movReg 0 1, .exit], [.movImm 1 5, .mulImm 1 2 .low, .movImm 0 5, .exit], _,
    by decide, rfl, by decide, by decide, by decide, by decide, by decide,
    by decide⟩

end Reduce

end RandVerifier
