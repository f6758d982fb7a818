/-
  RandVerifier.Generator — the random program generator (`src/fuzz/generator.rs`,
  `src/fuzz/prng.rs` and the pools and builders of `src/fuzz/insn_lib.rs`).

  A program is framed: `r0 = 0`, the body, an exit, and after it the two instructions of a
  subprogram if the last body instruction calls one. A branch of the body leads into the body
  or to the exit; only the last body instruction may be an unconditional jump.

  - `genBodyInsn_yields`: a body instruction is legal and stays in the frame;
  - `frame_accepts`: a framed program passes `check_cfg`;
  - `generated_valid`: every generated program is accepted and decodes from its encoding.
-/

import RandVerifier.CfgSound
import RandVerifier.Draws
import RandVerifier.Pairing

namespace RandVerifier

namespace Fuzz

open Draws

/-! ## The stream -/

structure SplitMix64 where
  state : UInt64
  deriving DecidableEq, Repr

/-- The next value and the state after it. -/
def SplitMix64.next (rng : SplitMix64) : UInt64 × SplitMix64 :=
  let state := rng.state + 0x9E3779B97F4A7C15
  let z := state
  let z := (z ^^^ (z >>> 30)) * 0xBF58476D1CE4E5B9
  let z := (z ^^^ (z >>> 27)) * 0x94D049BB133111EB
  (z ^^^ (z >>> 31), ⟨state⟩)

/-- A computation that draws; `none` is a panic. -/
abbrev Gen := StateT SplitMix64 Option

/-- A panic. -/
def stop {α : Type} : Gen α := fun _ => none

/-- A value below `n`; nothing is below 0. -/
def below (n : Nat) : Gen Nat := fun rng =>
  if n = 0 then none else some (rng.next.1.toNat % n, rng.next.2)

/-- A uniformly picked element. -/
def pick {α : Type} (pool : List α) : Gen α := do
  let i ← below pool.length
  match pool[i]? with
  | some a => pure a
  | none => stop

/-- `c && rng.below(100) < percent`: drawn only if the condition holds. -/
def chanceIf (c : Bool) (percent : Nat) : Gen Bool :=
  if c then (fun roll => decide (roll < percent)) <$> below 100 else pure false

/-! ## The pools -/

def offsets : List Int16 :=
  [0, 1, 2, 4, 6, 8, 12, 16, 24, 32, 48, 64, 80, 128, 256, -1, -2, -4, -8, -12, -16, -32, -64]

def immediates : List Int32 := [0, 1, 4, 8, 16, -1, -4, -16, -2147483648, 2147483647]

/-- The operands of ALU instructions and comparisons: R0..R9. -/
def aluRegs : List Reg := [0, 1, 2, 3, 4, 5, 6, 7, 8, 9]

/-! ## Instructions -/

/-- An immediate that is not zero. -/
def nonzeroImm : Gen Int32 := (fun imm => if imm = 0 then 1 else imm) <$> pick immediates

/-- The selector of a product in the immediate form. -/
def genHighImm : Gen MulHigh := do
  if (← below 5) = 0 then
    if (← below 2) = 0 then pure .unsignedHigh else pure .signedHigh
  else pure .low

/-- The selector of a product in the register form. -/
def genHighReg : Gen MulHigh := do
  if (← below 5) = 0 then pure .unsignedHigh else pure .low

/-- The operation of an ALU instruction; ALU32 has no operation 0. -/
def aluOp (alu32 : Bool) : Gen Nat := if alu32 then (1 + ·) <$> below 12 else below 13

def genAlu (alu32 : Bool) : Gen BpfInsn := do
  let op ← aluOp alu32
  let dst ← pick aluRegs
  let form ← below 2
  match alu32, decide (form = 0), op with
  | false, true, 0 => BpfInsn.movImm dst <$> pick immediates
  | false, false, 0 => BpfInsn.movReg dst <$> pick aluRegs
  | false, true, 1 => BpfInsn.addImm dst <$> pick immediates
  | false, false, 1 => BpfInsn.addReg dst <$> pick aluRegs
  | false, true, 2 => BpfInsn.subImm dst <$> pick immediates
  | false, false, 2 => BpfInsn.subReg dst <$> pick aluRegs
  | false, true, 3 => BpfInsn.andImm dst <$> pick immediates
  | false, false, 3 => BpfInsn.andReg dst <$> pick aluRegs
  | false, true, 4 => BpfInsn.orImm dst <$> pick immediates
  | false, false, 4 => BpfInsn.orReg dst <$> pick aluRegs
  | false, true, 5 => BpfInsn.xorImm dst <$> pick immediates
  | false, false, 5 => BpfInsn.xorReg dst <$> pick aluRegs
  | false, true, 6 => BpfInsn.lshImm dst <$> pick immediates
  | false, false, 6 => BpfInsn.lshReg dst <$> pick aluRegs
  | false, true, 7 => BpfInsn.rshImm dst <$> pick immediates
  | false, false, 7 => BpfInsn.rshReg dst <$> pick aluRegs
  | false, true, 8 => BpfInsn.arshImm dst <$> pick immediates
  | false, false, 8 => BpfInsn.arshReg dst <$> pick aluRegs
  | true, true, 1 => BpfInsn.add32Imm dst <$> pick immediates
  | true, false, 1 => BpfInsn.add32Reg dst <$> pick aluRegs
  | true, true, 2 => BpfInsn.sub32Imm dst <$> pick immediates
  | true, false, 2 => BpfInsn.sub32Reg dst <$> pick aluRegs
  | true, true, 3 => BpfInsn.and32Imm dst <$> pick immediates
  | true, false, 3 => BpfInsn.and32Reg dst <$> pick aluRegs
  | true, true, 4 => BpfInsn.or32Imm dst <$> pick immediates
  | true, false, 4 => BpfInsn.or32Reg dst <$> pick aluRegs
  | true, true, 5 => BpfInsn.xor32Imm dst <$> pick immediates
  | true, false, 5 => BpfInsn.xor32Reg dst <$> pick aluRegs
  | true, true, 6 => BpfInsn.lsh32Imm dst <$> pick immediates
  | true, false, 6 => BpfInsn.lsh32Reg dst <$> pick aluRegs
  | true, true, 7 => BpfInsn.rsh32Imm dst <$> pick immediates
  | true, false, 7 => BpfInsn.rsh32Reg dst <$> pick aluRegs
  | true, true, 8 => BpfInsn.arsh32Imm dst <$> pick immediates
  | true, false, 8 => BpfInsn.arsh32Reg dst <$> pick aluRegs
  | false, true, 9 => do
    let high ← genHighImm
    (BpfInsn.mulImm dst · high) <$> pick immediates
  | false, false, 9 => do
    let high ← genHighReg
    (BpfInsn.mulReg dst · high) <$> pick aluRegs
  | false, true, 10 => BpfInsn.divImm dst <$> nonzeroImm
  | false, false, 10 => BpfInsn.divReg dst <$> pick aluRegs
  | false, true, 11 => BpfInsn.modImm dst <$> nonzeroImm
  | false, false, 11 => BpfInsn.modReg dst <$> pick aluRegs
  | false, _, 12 => pure (.neg dst)
  | true, true, 9 => BpfInsn.mul32Imm dst <$> pick immediates
  | true, false, 9 => BpfInsn.mul32Reg dst <$> pick aluRegs
  | true, true, 10 => BpfInsn.div32Imm dst <$> nonzeroImm
  | true, false, 10 => BpfInsn.div32Reg dst <$> pick aluRegs
  | true, true, 11 => BpfInsn.mod32Imm dst <$> nonzeroImm
  | true, false, 11 => BpfInsn.mod32Reg dst <$> pick aluRegs
  | true, _, 12 => pure (.neg32 dst)
  | _, _, _ => stop

/-- A branch offset of the body instruction at `pc`: a target before it, or up to the exit. -/
def genBranchOffset (pc bodyLen : Nat) : Gen Int16 := do
  let backward ← chanceIf (decide (0 < pc)) 30
  if backward then
    let target ← below pc
    pure (Int16.ofInt ((target : Int) - pc - 1))
  else
    let ahead ← below (bodyLen - pc)
    pure (Int16.ofInt (((pc + 1 + ahead : Nat) : Int) - pc - 1))

/-- A conditional comparison. -/
def genCmp (pc bodyLen : Nat) : Gen BpfInsn := do
  let op ← below 10
  let dst ← pick aluRegs
  let form ← below 2
  let offset ← genBranchOffset pc bodyLen
  let src ← pick aluRegs
  let imm ← pick immediates
  match decide (form = 0), op with
  | false, 0 => pure (.jeq dst src offset)
  | true, 0 => pure (.jeqImm dst imm offset)
  | false, 1 => pure (.jne dst src offset)
  | true, 1 => pure (.jneImm dst imm offset)
  | false, 2 => pure (.jgt dst src offset)
  | true, 2 => pure (.jgtImm dst imm offset)
  | false, 3 => pure (.jge dst src offset)
  | true, 3 => pure (.jgeImm dst imm offset)
  | false, 4 => pure (.jlt dst src offset)
  | true, 4 => pure (.jltImm dst imm offset)
  | false, 5 => pure (.jle dst src offset)
  | true, 5 => pure (.jleImm dst imm offset)
  | false, 6 => pure (.jsgt dst src offset)
  | true, 6 => pure (.jsgtImm dst imm offset)
  | false, 7 => pure (.jsge dst src offset)
  | true, 7 => pure (.jsgeImm dst imm offset)
  | false, 8 => pure (.jslt dst src offset)
  | true, 8 => pure (.jsltImm dst imm offset)
  | false, 9 => pure (.jsle dst src offset)
  | true, 9 => pure (.jsleImm dst imm offset)
  | _, _ => stop

/-- A load or store of an 8-byte stack slot. -/
def genStack : Gen BpfInsn := do
  let reg ← pick aluRegs
  let offset ← pick offsets
  if (← below 2) = 0 then pure (.ldMem reg 10 offset .dw false) else pure (.stMem reg 10 offset .dw)

/-- `get_prandom_u32`. -/
def genHelper : Gen BpfInsn := pure (.call 7)

/-- A body instruction, never an unconditional jump. -/
def genBodyInsn (pc bodyLen : Nat) : Gen BpfInsn := do
  let roll ← below 100
  if roll < 35 then genAlu false
  else if roll < 50 then genAlu true
  else if roll < 80 then genCmp pc bodyLen
  else if roll < 95 then genStack
  else if roll < 100 then genHelper
  else stop

/-! ## Programs -/

/-- The body instruction at `pc`: the last one may call the subprogram or jump to the exit. -/
def genAt (bodyLen : Nat) (withSubprog : Bool) (pc : Nat) : Gen BpfInsn := do
  let isLast := decide (pc = bodyLen - 1)
  if isLast && withSubprog then pure (.callSub 1)
  else
    let jumps ← chanceIf isLast 20
    if jumps then pure (.jmp (Int16.ofNat (bodyLen - pc - 1)))
    else genBodyInsn pc bodyLen

/-- The body from `pc` on. -/
def genBody (bodyLen : Nat) (withSubprog : Bool) : Nat → Nat → Gen (List BpfInsn)
  | _, 0 => pure []
  | pc, n + 1 => do
    let insn ← genAt bodyLen withSubprog pc
    let rest ← genBody bodyLen withSubprog (pc + 1) n
    pure (insn :: rest)

/-- The generation parameters. -/
structure GenConfig where
  minLen : Nat
  maxLen : Nat

/-- `r0 = 0`, the body, an exit, and a subprogram if the body calls one. -/
def genProgram (cfg : GenConfig) : Gen (List BpfInsn) := do
  let extra ← below (cfg.maxLen - cfg.minLen + 1)
  let bodyLen := cfg.minLen + extra
  let withSubprog ← chanceIf (decide (3 ≤ bodyLen)) 15
  let body ← genBody bodyLen withSubprog 0 bodyLen
  if withSubprog then
    let imm ← pick immediates
    pure (.movImm 0 0 :: body ++ [.exit, .movImm 0 imm, .exit])
  else pure (.movImm 0 0 :: body ++ [.exit])

/-! ## What is drawn -/

/-- No jump, no call of a subprogram and no exit. -/
def isStraight : BpfInsn → Bool
  | .exit | .jmp _ | .callSub _ => false
  | insn => insn.branchOffset.isNone

/-- A body instruction: straight, or a comparison whose target lies in the frame. -/
def BodyInsn (pc bodyLen : Nat) (insn : BpfInsn) : Prop :=
  insn.Legal ∧ (isStraight insn = true ∨ ∃ o, insn.branchOffset = some o ∧
    (bodyLen ≤ 32766 → 0 ≤ (pc : Int) + 1 + o.toInt ∧ (pc : Int) + 1 + o.toInt ≤ bodyLen))

section Draws

variable {α : Type} {pool : List α} {n pc bodyLen : Nat}

theorem below_yields (h : 0 < n) : Yields (below n) (· < n) := by
  intro rng
  refine ⟨rng.next.1.toNat % n, rng.next.2, ?_, Nat.mod_lt _ h⟩
  simp [below, Nat.ne_of_gt h]

theorem pick_yields (h : pool ≠ []) : Yields (pick pool) (· ∈ pool) := by
  refine (below_yields (List.length_pos_iff.mpr h)).bind fun i hi => ?_
  rw [List.getElem?_eq_getElem hi]
  exact .pure (List.getElem_mem hi)

theorem pick_any (h : pool ≠ []) {β : Type} {f : α → β} {P : β → Prop} (hf : ∀ a, P (f a)) : Yields (f <$> pick pool) P :=
  (pick_yields h).map fun a _ => hf a

theorem chanceIf_yields (c : Bool) (percent : Nat) : Yields (chanceIf c percent) fun b => b = true → c = true :=
  .ite (fun hc => (below_yields (by decide)).map fun _ _ _ => hc) fun _ => .pure nofun

theorem nonzeroImm_yields : Yields nonzeroImm (· ≠ 0) := by
  refine pick_any (by decide) fun imm => ?_
  by_cases h : imm = 0
  · simp [h]
  · simp [h]

theorem genHighImm_yields : Yields genHighImm fun _ => True := by
  refine (below_yields (by decide)).bind fun roll _ => .ite (fun _ => ?_) fun _ => .pure trivial
  exact (below_yields (by decide)).bind fun side _ => .ite (fun _ => .pure trivial) fun _ => .pure trivial

theorem genHighReg_yields : Yields genHighReg fun _ => True :=
  (below_yields (by decide)).bind fun _ _ => .ite (fun _ => .pure trivial) fun _ => .pure trivial

/-- An ALU instruction is legal and straight, and every operation is covered. -/
theorem genAlu_yields (alu32 : Bool) : Yields (genAlu alu32) fun insn => insn.Legal ∧ isStraight insn = true := by
  have hop : Yields (aluOp alu32) fun op => op < 13 ∧ (alu32 = true → 0 < op) := by
    refine .ite (fun _ => (below_yields (by decide)).map fun op h => ?_) fun hno =>
      (below_yields (by decide)).imp fun op h => ⟨h, fun hyes => absurd hyes hno⟩
    exact ⟨by omega, fun _ => by omega⟩
  unfold genAlu
  refine hop.bind fun op hbounds => ?_
  obtain ⟨hlt, hpos⟩ := hbounds
  refine (pick_yields (by decide)).bind fun dst _ => ?_
  refine (below_yields (by decide)).bind fun form _ => ?_
  generalize decide (form = 0) = kForm
  have himm : ∀ f : Int32 → BpfInsn, (∀ imm, (f imm).Legal ∧ isStraight (f imm) = true) →
      Yields (f <$> pick immediates) fun insn => insn.Legal ∧ isStraight insn = true :=
    fun f hf => pick_any (by decide) hf
  have hreg : ∀ f : Reg → BpfInsn, (∀ src, (f src).Legal ∧ isStraight (f src) = true) →
      Yields (f <$> pick aluRegs) fun insn => insn.Legal ∧ isStraight insn = true :=
    fun f hf => pick_any (by decide) hf
  have hnonzero : ∀ f : Int32 → BpfInsn, (∀ imm, imm ≠ 0 → (f imm).Legal ∧ isStraight (f imm) = true) →
      Yields (f <$> nonzeroImm) fun insn => insn.Legal ∧ isStraight insn = true :=
    fun f hf => nonzeroImm_yields.map hf
  match op, hlt with
  | 0, _ =>
    cases alu32
    case true => exact absurd (hpos rfl) (Nat.lt_irrefl 0)
    cases kForm
    · exact hreg _ fun _ => ⟨trivial, rfl⟩
    · exact himm _ fun _ => ⟨trivial, rfl⟩
  | 1, _ | 2, _ | 3, _ | 4, _ | 5, _ | 6, _ | 7, _ | 8, _ =>
    cases alu32 <;> cases kForm
    all_goals first
      | exact hreg _ fun _ => ⟨trivial, rfl⟩
      | exact himm _ fun _ => ⟨trivial, rfl⟩
  | 9, _ =>
    cases alu32 <;> cases kForm
    · exact genHighReg_yields.bind fun _ _ => hreg _ fun _ => ⟨trivial, rfl⟩
    · exact genHighImm_yields.bind fun _ _ => himm _ fun _ => ⟨trivial, rfl⟩
    · exact hreg _ fun _ => ⟨trivial, rfl⟩
    · exact himm _ fun _ => ⟨trivial, rfl⟩
  | 10, _ | 11, _ =>
    cases alu32 <;> cases kForm
    all_goals first
      | exact hreg _ fun _ => ⟨trivial, rfl⟩
      | exact hnonzero _ fun _ h => ⟨h, rfl⟩
  | 12, _ =>
    cases alu32 <;> cases kForm <;> exact .pure ⟨trivial, rfl⟩

/-- The target of a branch lies in the body or is the exit. -/
theorem genBranchOffset_yields (hpc : pc < bodyLen) : Yields (genBranchOffset pc bodyLen) fun o =>
    bodyLen ≤ 32766 → 0 ≤ (pc : Int) + 1 + o.toInt ∧ (pc : Int) + 1 + o.toInt ≤ bodyLen := by
  refine (chanceIf_yields _ 30).bind fun backward hback => .ite (fun hyes => ?_) fun _ => ?_
  · have hpos : 0 < pc := of_decide_eq_true (hback hyes)
    refine (below_yields hpos).bind fun target htarget => .pure fun hlen => ?_
    rw [Int16.toInt_ofInt_of_le (by omega) (by omega)]
    omega
  · refine (below_yields (by omega)).bind fun ahead hahead => .pure fun hlen => ?_
    rw [Int16.toInt_ofInt_of_le (by omega) (by omega)]
    omega

theorem genCmp_yields (hpc : pc < bodyLen) : Yields (genCmp pc bodyLen) (BodyInsn pc bodyLen) := by
  refine (below_yields (by decide)).bind fun op hop => ?_
  refine (pick_yields (by decide)).bind fun dst _ => ?_
  refine (below_yields (by decide)).bind fun form _ => ?_
  refine (genBranchOffset_yields hpc).bind fun offset hoffset => ?_
  refine (pick_yields (by decide)).bind fun src _ => ?_
  refine (pick_yields (by decide)).bind fun imm _ => ?_
  generalize decide (form = 0) = kForm
  match op, hop with
  | 0, _ | 1, _ | 2, _ | 3, _ | 4, _ | 5, _ | 6, _ | 7, _ | 8, _ | 9, _ =>
    cases kForm <;> exact .pure ⟨trivial, .inr ⟨offset, rfl, hoffset⟩⟩

theorem genStack_yields : Yields genStack fun insn => insn.Legal ∧ isStraight insn = true := by
  refine (pick_yields (by decide)).bind fun reg _ => ?_
  refine (pick_yields (by decide)).bind fun offset _ => ?_
  refine (below_yields (by decide)).bind fun form _ => .ite (fun _ => .pure ⟨?_, rfl⟩) fun _ => .pure ⟨trivial, rfl⟩
  exact fun h => Bool.false_ne_true h.2

/-- A body instruction is legal and stays in the frame, and the weights cover every roll. -/
theorem genBodyInsn_yields (hpc : pc < bodyLen) : Yields (genBodyInsn pc bodyLen) (BodyInsn pc bodyLen) := by
  have hstraight : ∀ g : Gen BpfInsn, Yields g (fun insn => insn.Legal ∧ isStraight insn = true) →
      Yields g (BodyInsn pc bodyLen) := fun g hg => hg.imp fun insn h => ⟨h.1, .inl h.2⟩
  refine (below_yields (by decide)).bind fun roll hroll => ?_
  refine .ite (fun _ => hstraight _ (genAlu_yields false)) fun _ => ?_
  refine .ite (fun _ => hstraight _ (genAlu_yields true)) fun _ => ?_
  refine .ite (fun _ => genCmp_yields hpc) fun _ => ?_
  refine .ite (fun _ => hstraight _ genStack_yields) fun _ => ?_
  exact .ite (fun _ => hstraight _ (.pure ⟨trivial, rfl⟩)) fun hno => absurd hroll hno

end Draws

/-! ## Framed programs -/

/-- The subprogram that follows the main program. -/
def subprogram : Option Int32 → List BpfInsn
  | some imm => [.movImm 0 imm, .exit]
  | none => []

def frame (body : List BpfInsn) (sub : Option Int32) : List BpfInsn := .movImm 0 0 :: body ++ .exit :: subprogram sub

/-- The instruction at `pc` of a body: the last one may jump to the exit or call the subprogram. -/
def FrameInsn (bodyLen : Nat) (calls : Bool) (pc : Nat) (insn : BpfInsn) : Prop :=
  (BodyInsn pc bodyLen insn ∧ ¬ (calls = true ∧ pc + 1 = bodyLen)) ∨
    (calls = false ∧ pc + 1 = bodyLen ∧ insn = .jmp 0) ∨ (calls = true ∧ pc + 1 = bodyLen ∧ insn = .callSub 1)

/-- What a body is in a frame. -/
structure FrameBody (body : List BpfInsn) (calls : Bool) : Prop where
  short : body.length ≤ 32766
  insn : ∀ pc insn, body[pc]? = some insn → FrameInsn body.length calls pc insn
  nonempty : calls = true → 0 < body.length

section Frames

variable {bodyLen pc n : Nat} {calls : Bool} {cfg : GenConfig}

theorem genAt_yields (hpc : pc < bodyLen) : Yields (genAt bodyLen calls pc) (FrameInsn bodyLen calls pc) := by
  refine .ite (fun hcall => .pure ?_) fun hcall => ?_
  · rw [Bool.and_eq_true, decide_eq_true_eq] at hcall
    exact .inr (.inr ⟨hcall.2, by omega, rfl⟩)
  · rw [Bool.and_eq_true, decide_eq_true_eq, not_and] at hcall
    refine (chanceIf_yields _ 20).bind fun jumps hlast => .ite (fun hyes => .pure ?_) fun _ => ?_
    · have hpc' := of_decide_eq_true (hlast hyes)
      refine .inr (.inl ⟨eq_false_of_ne_true (hcall hpc'), by omega, ?_⟩)
      have hzero : bodyLen - pc - 1 = 0 := by omega
      rw [hzero]
      rfl
    · exact (genBodyInsn_yields hpc).imp fun insn h => .inl ⟨h, fun hbad => hcall (by omega) hbad.1⟩

theorem genBody_yields (h : pc + n = bodyLen) : Yields (genBody bodyLen calls pc n) fun l =>
    l.length = n ∧ ∀ i insn, l[i]? = some insn → FrameInsn bodyLen calls (pc + i) insn := by
  induction n generalizing pc with
  | zero => exact .pure ⟨rfl, nofun⟩
  | succ n ih =>
    refine (genAt_yields (by omega)).bind fun insn hinsn => ?_
    refine (@ih (pc + 1) (by omega)).bind fun rest hrest => .pure ⟨?_, fun i insn' hget => ?_⟩
    · rw [List.length_cons, hrest.1]
    · cases i with
      | zero =>
        cases hget
        exact hinsn
      | succ i =>
        rw [Nat.add_succ, ← Nat.succ_add]
        exact hrest.2 i insn' hget

/-- A generated program is framed. -/
theorem genProgram_yields (hle : cfg.minLen ≤ cfg.maxLen) (hmax : cfg.maxLen ≤ 32766) : Yields (genProgram cfg)
    fun insns => ∃ body sub, insns = frame body sub ∧ FrameBody body sub.isSome := by
  refine (below_yields (Nat.succ_pos _)).bind fun extra hextra => ?_
  dsimp only
  generalize hlen : cfg.minLen + extra = bodyLen
  refine (chanceIf_yields _ 15).bind fun calls hcalls => ?_
  refine (genBody_yields (Nat.zero_add bodyLen)).bind fun body hbody => ?_
  obtain ⟨hlength, hinsns⟩ := hbody
  subst hlength
  have hframe : FrameBody body calls := by
    refine ⟨by omega, fun pc insn hget => ?_, fun hyes => ?_⟩
    · have := hinsns pc insn hget
      rwa [Nat.zero_add] at this
    · have := of_decide_eq_true (hcalls hyes)
      omega
  refine .ite (fun hyes => ?_) fun hno => .pure ⟨body, none, rfl, ?_⟩
  · refine (pick_yields (by decide)).bind fun imm _ => .pure ⟨body, some imm, rfl, ?_⟩
    rw [Option.isSome_some, ← hyes]
    exact hframe
  · rw [Option.isSome_none, ← eq_false_of_ne_true hno]
    exact hframe

end Frames

/-! ## A frame passes the checks -/

section Accepts

variable {body insns rest : List BpfInsn} {sub : Option Int32} {subprogs starts : List Nat} {idx pc cnt start stop : Nat}
  {insn : BpfInsn}

theorem frame_length : (frame body sub).length = body.length + 2 + (subprogram sub).length := by
  simp [frame]
  omega

theorem frame_body (h : pc < body.length) : (frame body sub)[pc + 1]? = body[pc]? := by
  simp [frame, List.getElem?_append_left h]

theorem frame_exit : (frame body sub)[body.length + 1]? = some .exit := by
  simp [frame]

theorem frame_sub {imm : Int32} : (frame body (some imm))[body.length + 2]? = some (.movImm 0 imm) ∧
    (frame body (some imm))[body.length + 3]? = some .exit := by
  simp [frame, subprogram]

theorem addStarts_plain (h : ∀ insn ∈ insns, insn.isCallSub = false) :
    addStarts cnt pc (insns ++ rest) starts = addStarts cnt (pc + insns.length) rest starts := by
  induction insns generalizing pc with
  | nil => rfl
  | cons insn insns ih =>
    have hinsn := h insn List.mem_cons_self
    have hrest := @ih (pc + 1) fun i hi => h i (List.mem_cons_of_mem _ hi)
    rw [List.length_cons, Nat.add_comm insns.length 1, ← Nat.add_assoc, ← hrest]
    cases insn with
    | callSub => cases hinsn
    | _ => rfl

/-- Only a subprogram of the frame is called. -/
theorem FrameInsn.plain {calls : Bool} {bodyLen : Nat} (h : FrameInsn bodyLen calls pc insn)
    (hno : ¬ (calls = true ∧ pc + 1 = bodyLen)) : insn.isCallSub = false := by
  rcases h with ⟨⟨-, hstraight | ⟨o, ho, -⟩⟩, -⟩ | ⟨-, -, rfl⟩ | ⟨hcalls, hlast, -⟩
  · cases insn with
    | callSub => cases hstraight
    | _ => rfl
  · cases insn with
    | callSub => cases ho
    | _ => rfl
  · rfl
  · exact absurd ⟨hcalls, hlast⟩ hno

/-- The entries of a frame. -/
theorem frame_subprogs (h : FrameBody body sub.isSome) :
    addSubprog (frame body sub) = .ok (0 :: if sub.isSome then [body.length + 2] else []) := by
  cases sub with
  | none =>
    have hplain : ∀ insn ∈ frame body none, insn.isCallSub = false := by
      intro insn hin
      rcases List.mem_append.mp hin with hin | hin
      · rcases List.mem_cons.mp hin with rfl | hin
        · rfl
        · obtain ⟨pc, hget⟩ := List.mem_iff_getElem?.mp hin
          exact (h.insn pc insn hget).plain fun hbad => Bool.false_ne_true hbad.1
      · rw [List.mem_singleton.mp hin]
        rfl
    have hrun := @addStarts_plain (frame body none) [] [0] 0 (frame body none).length hplain
    rw [List.append_nil] at hrun
    rw [addSubprog, hrun]
    rfl
  | some imm =>
    have hpos := h.nonempty rfl
    rcases List.eq_nil_or_concat body with rfl | ⟨l, last, hbody⟩
    · exact absurd hpos (Nat.lt_irrefl 0)
    · rw [List.concat_eq_append] at hbody
      subst hbody
      have hlen : (l ++ [last]).length = l.length + 1 := by simp
      have hlast : last = .callSub 1 := by
        have hget : (l ++ [last])[l.length]? = some last := by simp
        rcases h.insn l.length last hget with ⟨-, hno⟩ | ⟨hno, -⟩ | ⟨-, -, hlast⟩
        · exact absurd ⟨rfl, hlen.symm⟩ hno
        · cases hno
        · exact hlast
      have hplain : ∀ insn ∈ BpfInsn.movImm 0 0 :: l, insn.isCallSub = false := by
        intro insn hin
        rcases List.mem_cons.mp hin with rfl | hin
        · rfl
        · obtain ⟨pc, hget⟩ := List.mem_iff_getElem?.mp hin
          obtain ⟨hlt, -⟩ := List.getElem?_eq_some_iff.mp hget
          have hget' : (l ++ [last])[pc]? = some insn := by rw [List.getElem?_append_left hlt, hget]
          exact (h.insn pc insn hget').plain fun hbad => by omega
      have hframe : frame (l ++ [last]) (some imm) =
          (.movImm 0 0 :: l) ++ .callSub 1 :: [.exit, .movImm 0 imm, .exit] := by
        rw [hlast]
        simp [frame, subprogram]
      have htotal : (frame (l ++ [last]) (some imm)).length = l.length + 5 := by
        rw [hframe]
        simp
      have htarget : callTarget (0 + (BpfInsn.movImm 0 0 :: l).length) 1 = l.length + 3 := by
        have hshort := h.short
        have hone : (1 : Int32).toInt = 1 := rfl
        rw [hlen] at hshort
        simp only [callTarget, List.length_cons, hone]
        omega
      rw [addSubprog, htotal, hframe, addStarts_plain hplain, addStarts]
      rw [htarget, if_neg (by omega), if_neg (by simp)]
      simp [addStarts, bind, Except.bind]

theorem FrameInsn.legal {calls : Bool} {bodyLen : Nat} (h : FrameInsn bodyLen calls pc insn) : insn.Legal := by
  rcases h with ⟨⟨hlegal, -⟩, -⟩ | ⟨-, -, rfl⟩ | ⟨-, -, rfl⟩
  · exact hlegal
  · trivial
  · trivial

/-- Every instruction of a frame is legal. -/
theorem frame_legal (h : FrameBody body sub.isSome) : ∀ insn ∈ frame body sub, insn.Legal := by
  intro insn hin
  rcases List.mem_append.mp hin with hin | hin
  · rcases List.mem_cons.mp hin with rfl | hin
    · trivial
    · obtain ⟨pc, hget⟩ := List.mem_iff_getElem?.mp hin
      exact (h.insn pc insn hget).legal
  · rcases List.mem_cons.mp hin with rfl | hin
    · trivial
    · cases sub with
      | none => cases hin
      | some imm =>
        rcases List.mem_cons.mp hin with rfl | hin
        · trivial
        · rw [List.mem_singleton.mp hin]
          trivial

theorem frame_slotted (h : FrameBody body sub.isSome) : Slotted BpfInsn.Legal (frame body sub) := by
  have hall : ∀ l : List BpfInsn, (∀ insn ∈ l, insn.Legal) → Slotted BpfInsn.Legal l := by
    intro l hl
    induction l with
    | nil => exact .nil
    | cons insn l ih =>
      have hlegal := hl insn List.mem_cons_self
      exact .narrow hlegal.narrow hlegal (ih fun i hi => hl i (List.mem_cons_of_mem _ hi))
  exact hall _ (frame_legal h)

/-- A target at a legal instruction of the subprogram passes. -/
theorem checkTarget_legal {target : Nat} {kind : String} (hrange : start ≤ target ∧ target < stop)
    (hget : insns[target]? = some insn) (hlegal : insn.Legal) : checkTarget idx target start stop kind insns = .ok () := by
  have hno : ¬ (target < start ∨ stop ≤ target) := by omega
  unfold checkTarget
  rw [failIf, if_neg hno]
  show checkLdimm64Target idx target insns = .ok ()
  unfold checkLdimm64Target
  rw [hget]
  cases insn with
  | ldImm64Second => exact absurd hlegal id
  | _ => rfl

variable (hrange : findSubprogRange idx subprogs insns.length = (start, stop)) (hget : insns[idx]? = some insn)

include hrange hget

theorem visit_of_nexts {nexts : List Nat} (hnexts : insnNexts idx start stop insns subprogs insn = .ok nexts)
    (hfall : idx + 1 ∈ nexts → idx + 1 < stop) : visitInsn idx insns subprogs = .ok nexts := by
  have hno : ¬ (idx + 1 ∈ nexts ∧ stop ≤ idx + 1) := by
    intro hbad
    have := hfall hbad.1
    omega
  unfold visitInsn
  rw [hrange, hget]
  dsimp only
  rw [hnexts]
  simp only [bind, Except.bind, failIf, if_neg hno]

/-- A body instruction falls through, and may branch inside the subprogram. -/
theorem visit_body (hlegal : ∀ insn ∈ insns, insn.Legal) (hstop : idx + 1 < stop) (hlen : stop ≤ insns.length)
    (hinsn : isStraight insn = true ∨
      ∃ o, insn.branchOffset = some o ∧ start ≤ branchTarget idx o ∧ branchTarget idx o < stop) :
    ∃ nexts, visitInsn idx insns subprogs = .ok nexts ∧ idx + 1 ∈ nexts := by
  rcases hinsn with hstraight | ⟨o, ho, hfirst, htarget⟩
  · refine ⟨[idx + 1], visit_of_nexts hrange hget ?_ fun _ => hstop, List.mem_singleton_self _⟩
    cases insn with
    | exit | jmp | callSub => cases hstraight
    | _ =>
      first
        | rfl
        | cases hstraight
  · have htlen : branchTarget idx o < insns.length := by omega
    have htget := List.getElem?_eq_getElem htlen
    have hcheck := @checkTarget_legal insns idx start stop _ _ "branch" ⟨hfirst, htarget⟩ htget
      (hlegal _ (List.getElem_mem htlen))
    refine ⟨[branchTarget idx o, idx + 1], visit_of_nexts hrange hget ?_ fun _ => hstop, by simp⟩
    cases insn with
    | exit | jmp | callSub => cases ho
    | _ =>
      first
        | (cases ho
           simp only [insnNexts, BpfInsn.branchOffset, hcheck, bind, Except.bind])
        | cases ho

end Accepts

section Accepts

variable {body : List BpfInsn} {sub : Option Int32} {idx : Nat}

/-- The entries of a frame. -/
def frameSubprogs (body : List BpfInsn) (sub : Option Int32) : List Nat :=
  0 :: if sub.isSome then [body.length + 2] else []

theorem frame_main (h : idx < body.length + 2) :
    findSubprogRange idx (frameSubprogs body sub) (frame body sub).length = (0, body.length + 2) := by
  rw [frame_length]
  cases sub with
  | none => simp [findSubprogRange, frameSubprogs, subprogram]
  | some imm =>
    have h1 : ¬ body.length + 2 ≤ idx := by omega
    simp [findSubprogRange, frameSubprogs, h1, h]

theorem frame_second {imm : Int32} (h : body.length + 2 ≤ idx) :
    findSubprogRange idx (frameSubprogs body (some imm)) (frame body (some imm)).length =
      (body.length + 2, body.length + 4) := by
  rw [frame_length]
  have h1 : ¬ idx < body.length + 2 := by omega
  simp [findSubprogRange, frameSubprogs, subprogram, h, h1]

/-- The main program of a frame falls through, but for the call of the subprogram. -/
theorem frame_falls (h : FrameBody body sub.isSome) (hidx : idx ≤ body.length)
    (hcall : ¬ (sub.isSome = true ∧ idx = body.length)) :
    ∃ nexts, visitInsn idx (frame body sub) (frameSubprogs body sub) = .ok nexts ∧ idx + 1 ∈ nexts := by
  have hlegal := frame_legal h
  have hlen : body.length + 2 ≤ (frame body sub).length := by
    rw [frame_length]
    omega
  have hrange := @frame_main body sub idx (by omega)
  cases idx with
  | zero => exact visit_body hrange rfl hlegal (by omega) hlen (.inl rfl)
  | succ pc =>
    have hlt : pc < body.length := by omega
    have hget := List.getElem?_eq_getElem hlt
    have hget' : (frame body sub)[pc + 1]? = some body[pc] := by rw [frame_body hlt, hget]
    have hshort := h.short
    rcases h.insn pc _ hget with ⟨⟨-, hinsn⟩, -⟩ | ⟨-, hlast, hjmp⟩ | ⟨hcalls, hlast, -⟩
    · refine visit_body hrange hget' hlegal (by omega) hlen (hinsn.imp id fun hbranch => ?_)
      obtain ⟨o, ho, hin⟩ := hbranch
      obtain ⟨hlo, hhi⟩ := hin hshort
      refine ⟨o, ho, Nat.zero_le _, ?_⟩
      unfold branchTarget
      omega
    · have hexit : (frame body sub)[pc + 2]? = some .exit := by
        rw [← @frame_exit body sub, ← hlast]
      have hcheck := @checkTarget_legal (frame body sub) (pc + 1) 0 (body.length + 2) .exit (pc + 2) "jump"
        ⟨Nat.zero_le _, by omega⟩ hexit trivial
      have htarget : branchTarget (pc + 1) 0 = pc + 2 := by
        have hzero : (0 : Int16).toInt = 0 := rfl
        simp only [branchTarget, hzero]
        omega
      rw [hjmp] at hget'
      refine ⟨[pc + 2], visit_of_nexts hrange hget' ?_ fun _ => by omega, List.mem_singleton_self _⟩
      simp only [insnNexts, htarget, hcheck, bind, Except.bind]
    · exact absurd ⟨hcalls, hlast⟩ hcall

theorem frame_ends : EndsChecked (frame body sub) (frameSubprogs body sub) := by
  have hlen := @frame_length body sub
  intro i start hstart
  cases sub with
  | none =>
    cases i with
    | zero =>
      refine ⟨.exit, ?_, rfl⟩
      have hnext : (frameSubprogs body none)[0 + 1]? = none := rfl
      rw [hnext, Option.getD_none, hlen]
      exact frame_exit
    | succ i => cases hstart
  | some imm =>
    match i, hstart with
    | 0, _ => exact ⟨.exit, frame_exit, rfl⟩
    | 1, _ =>
      refine ⟨.exit, ?_, rfl⟩
      have hnext : (frameSubprogs body (some imm))[1 + 1]? = none := rfl
      rw [hnext, Option.getD_none, hlen]
      exact frame_sub.2

/-- The main exit ends the program; a call leads to the subprogram, which returns behind it. -/
theorem frame_exits :
    visitInsn (body.length + 1) (frame body sub) (frameSubprogs body sub) = .ok [] :=
  visit_of_nexts (frame_main (by omega)) frame_exit rfl nofun

theorem frame_calls {imm : Int32} (h : FrameBody body true) :
    (visitInsn body.length (frame body (some imm)) (frameSubprogs body (some imm)) = .ok [body.length + 2] ∧
      visitInsn (body.length + 2) (frame body (some imm)) (frameSubprogs body (some imm)) = .ok [body.length + 3]) ∧
    ∃ nexts, visitInsn (body.length + 3) (frame body (some imm)) (frameSubprogs body (some imm)) = .ok nexts ∧
      body.length + 1 ∈ nexts := by
  have hpos := h.nonempty rfl
  have hshort := h.short
  obtain ⟨n, hn⟩ : ∃ n, body.length = n + 1 := ⟨body.length - 1, by omega⟩
  have hlt : n < body.length := by omega
  have hcall : (frame body (some imm))[body.length]? = some (.callSub 1) := by
    have hget := List.getElem?_eq_getElem hlt
    rw [hn, frame_body hlt, hget]
    rcases h.insn n _ hget with ⟨-, hno⟩ | ⟨hno, -⟩ | ⟨-, -, heq⟩
    · exact absurd ⟨rfl, hn.symm⟩ hno
    · cases hno
    · rw [heq]
  have htarget : callTarget body.length 1 = body.length + 2 := by
    have hone : (1 : Int32).toInt = 1 := rfl
    simp only [callTarget, hone]
    omega
  refine ⟨⟨visit_of_nexts (frame_main (by omega)) hcall ?_ fun hbad => ?_,
    visit_of_nexts (frame_second (by omega)) frame_sub.1 rfl fun _ => by omega⟩, ?_⟩
  · have hmem : body.length + 2 ∈ frameSubprogs body (some imm) := by simp [frameSubprogs]
    simp only [insnNexts, htarget, if_pos hmem]
  · have := List.mem_singleton.mp hbad
    omega
  · refine ⟨((callSites (frame body (some imm))).filter (·.2 = body.length + 2)).map (·.1 + 1),
      visit_of_nexts (frame_second (by omega)) frame_sub.2 ?_ fun hbad => ?_, ?_⟩
    · simp only [insnNexts]
      rw [if_neg (by omega)]
    · obtain ⟨site, hsite, heq⟩ := List.mem_map.mp hbad
      obtain ⟨offset, hget, -⟩ := mem_callSites.mp (List.mem_filter.mp hsite).1
      have hpc : site.1 = body.length + 3 := by omega
      rw [hpc, frame_sub.2] at hget
      cases hget
    · have hsite : (body.length, body.length + 2) ∈ callSites (frame body (some imm)) :=
        mem_callSites.mpr ⟨1, hcall, htarget.symm⟩
      exact List.mem_map.mpr ⟨_, List.mem_filter.mpr ⟨hsite, by simp⟩, rfl⟩

/-- A frame meets all that `check_cfg` asks. -/
theorem frame_accepts (h : FrameBody body sub.isSome) : CfgAccepts (frame body sub) (frameSubprogs body sub) := by
  have hlen := @frame_length body sub
  have hedge : ∀ {a b : Nat}, (∃ nexts, visitInsn a (frame body sub) (frameSubprogs body sub) = .ok nexts ∧ b ∈ nexts) →
      b ∈ cfgEdges (frame body sub) (frameSubprogs body sub) a := mem_cfgEdges.mpr
  have hreach : ∀ idx, idx ≤ body.length + (if sub.isSome then 0 else 1) →
      Relation.ReflTransGen (fun a b => b ∈ cfgEdges (frame body sub) (frameSubprogs body sub) a) 0 idx := by
    intro idx
    induction idx with
    | zero => exact fun _ => .refl
    | succ idx ih =>
      intro hidx
      refine (ih (by omega)).tail (hedge (frame_falls h ?_ fun hbad => ?_))
      · split at hidx <;> omega
      · rw [if_pos hbad.1] at hidx
        omega
  refine ⟨by simp [frame], frame_ends, fun idx hidx => ?_, fun idx hidx => ?_⟩
  · by_cases hfalls : idx ≤ body.length ∧ ¬ (sub.isSome = true ∧ idx = body.length)
    · obtain ⟨nexts, hnexts, -⟩ := frame_falls h hfalls.1 hfalls.2
      exact ⟨nexts, hnexts⟩
    · by_cases hexit : idx = body.length + 1
      · exact ⟨[], hexit ▸ frame_exits⟩
      · cases sub with
        | none =>
          rw [hlen] at hidx
          simp [subprogram] at hfalls hidx
          omega
        | some imm =>
          obtain ⟨⟨hcall, hsecond⟩, nexts, hreturn, -⟩ := @frame_calls body imm h
          rw [hlen] at hidx
          simp [subprogram] at hfalls hidx
          have hcases : idx = body.length ∨ idx = body.length + 2 ∨ idx = body.length + 3 := by omega
          rcases hcases with rfl | rfl | rfl
          · exact ⟨_, hcall⟩
          · exact ⟨_, hsecond⟩
          · exact ⟨_, hreturn⟩
  · cases sub with
    | none =>
      rw [hlen] at hidx
      exact hreach idx (by simp [subprogram] at hidx ⊢; omega)
    | some imm =>
      obtain ⟨⟨hcall, hsecond⟩, nexts, hreturn, hback⟩ := @frame_calls body imm h
      have hmain := hreach body.length (by simp)
      have hsub := (hmain.tail (hedge ⟨_, hcall, List.mem_singleton_self _⟩))
      have hend := hsub.tail (hedge ⟨_, hsecond, List.mem_singleton_self _⟩)
      have hexit := hend.tail (hedge ⟨_, hreturn, hback⟩)
      rw [hlen] at hidx
      simp [subprogram] at hidx
      have hcases : idx ≤ body.length ∨ idx = body.length + 1 ∨ idx = body.length + 2 ∨ idx = body.length + 3 := by omega
      rcases hcases with hle | rfl | rfl | rfl
      · exact hreach idx (by simpa using hle)
      · exact hexit
      · exact hsub
      · exact hend

end Accepts

/-! ## Every generated program -/

/-- For every seed and every length the generator returns a program between `r0 = 0` and an
    exit that `add_subprog` and `check_cfg` accept and that decodes from its own encoding. -/
theorem generated_valid (seed : UInt64) (cfg : GenConfig) (hle : cfg.minLen ≤ cfg.maxLen) (hmax : cfg.maxLen ≤ 32766) :
    ∃ insns rng, genProgram cfg ⟨seed⟩ = some (insns, rng) ∧
      insns.head? = some (.movImm 0 0) ∧ insns.getLast? = some .exit ∧
      (∃ subprogs, addSubprog insns = .ok subprogs ∧
        ∀ fuel, cfgFuel insns subprogs < fuel → ∃ heads, checkCfg fuel insns subprogs = some (.ok heads)) ∧
      ∃ bytes, encodeProgram insns = some bytes ∧ decodeProgram bytes = .ok insns := by
  obtain ⟨insns, rng, hgen, body, sub, rfl, hbody⟩ := genProgram_yields hle hmax ⟨seed⟩
  have hsub := frame_subprogs hbody
  have hlast : (frame body sub).getLast? = some .exit := by
    cases sub with
    | none => exact List.getLast?_append_of_ne_nil (.movImm 0 0 :: body) (List.cons_ne_nil _ _)
    | some imm => exact List.getLast?_append_of_ne_nil (.movImm 0 0 :: body) (List.cons_ne_nil _ _)
  exact ⟨_, rng, hgen, rfl, hlast, ⟨_, hsub, fun fuel hfuel => checkCfg_of_accepts hsub (frame_accepts hbody) hfuel⟩,
    decodes_iff.mp (frame_slotted hbody)⟩

theorem generated_valid_short :
    ∃ insns rng, genProgram ⟨1, 3⟩ ⟨42⟩ = some (insns, rng) ∧
      insns.head? = some (.movImm 0 0) ∧ insns.getLast? = some .exit ∧
      (∃ subprogs, addSubprog insns = .ok subprogs ∧
        ∀ fuel, cfgFuel insns subprogs < fuel → ∃ heads, checkCfg fuel insns subprogs = some (.ok heads)) ∧
      ∃ bytes, encodeProgram insns = some bytes ∧ decodeProgram bytes = .ok insns :=
  generated_valid 42 ⟨1, 3⟩ (by decide) (by decide)

end Fuzz

end RandVerifier
