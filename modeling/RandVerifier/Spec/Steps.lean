/-
  RandVerifier.Spec.Steps — what one step of the safety-spec verifier can do.

  The instructions fall into a few shapes (`shape`), and a step is the step of its shape
  (`step_shape`). For each function of the step there is one lemma that says what an
  accepted step did; the invariants below are proved from these, shape by shape.
-/

import RandVerifier.Spec.Runner

namespace RandVerifier.Spec

/-! ## Steps that succeed -/

theorem exceptMap_ok {ε α β : Type} {x : Except ε α} {f : α → β} {b : β} (h : x.map f = .ok b) :
    ∃ a, x = .ok a ∧ f a = b := by
  cases x with
  | error e => cases h
  | ok a => exact ⟨a, rfl, Except.ok.inj h⟩

theorem ok_of_toOption {ε α : Type} {x : Except ε α} {a : α} (h : x.toOption = some a) : x = .ok a := by
  cases x with
  | error e => cases h
  | ok b => exact congrArg Except.ok (Option.some.inj h)

theorem require_ok {cond : Prop} [Decidable cond] {pc : Nat} {message : String} {u : Unit}
    (h : require cond pc message = .ok u) : cond := by
  unfold require failure at h
  split at h
  · assumption
  · cases h

theorem goTo_ok {pc : Nat} {c : Check SpecState} {nodes : List Node} (h : goTo pc c = .ok nodes) :
    ∃ s, c = .ok s ∧ nodes = [(pc, s)] := by
  obtain ⟨s, hs, hn⟩ := bind_eq_ok.mp h
  exact ⟨s, hs, (Except.ok.inj hn).symm⟩

/-! ## Shapes -/

/-- An operand: a register, or a value the instruction carries. -/
inductive Operand where
  | reg (r : Reg)
  | value (v : SpecValue)

def Operand.get (s : SpecState) : Operand → SpecValue
  | reg r => s.reg r
  | value v => v

/-- The operand of an immediate. -/
def immOperand (imm : Int32) : Operand := .value (.constScalar (immWord imm))

inductive Shape where
  /-- A register is set without a read; wide loads are two slots long. -/
  | set (dst : Reg) (v : SpecValue) (width : Nat)
  | mov (dst src : Reg)
  | mov32 (dst src : Reg)
  | packet (src : Option Reg)
  | alu64 (dst : Reg) (op : AluOp) (rhs : Rhs) (high : MulHigh)
  | alu32 (dst : Reg) (op : AluOp) (rhs : Rhs)
  | load (dst base : Reg) (off : Int) (size : MemSize) (signExtend : Bool)
  | store (base : Reg) (off : Int) (size : MemSize) (src : Operand)
  | atomic (dst src : Reg) (off : Int) (size : MemSize) (op : AtomicOp) (fetch : Bool)
  | jump (offset : Int16)
  /-- A test without refinement. -/
  | test (dst : Reg) (src : Operand) (offset : Int16) (test : UInt64 → UInt64 → Bool) (message : String)
  | branch (signed : Bool) (dst : Reg) (cmp : Cmp) (src : Operand) (offset : Int16)
  | helper (imm : Int32)
  | callSub (offset : Int32)
  | exit
  | reject (message : String)

/-- The operand of a 32-bit jump. -/
def jmp32Operand : Option Reg → Option Int32 → Operand
  | some src, _ => .reg src
  | none, some imm => .value (.constScalar imm.toUInt32.toUInt64)
  | none, none => .value .uninit

def shape (env : Env) : BpfInsn → Shape
  | .movImm dst imm => .set dst (.constScalar (immWord imm)) 1
  | .movReg dst src => .mov dst src
  | .mov32Imm dst imm => .set dst (.constScalar imm.toUInt32.toUInt64) 1
  | .mov32Reg dst src => .mov32 dst src
  | .ldAbs _ _ => .packet none
  | .ldInd src _ _ => .packet (some src)
  | .addImm dst imm => .alu64 dst .add (.imm imm) .low
  | .addReg dst src => .alu64 dst .add (.reg src) .low
  | .subImm dst imm => .alu64 dst .sub (.imm imm) .low
  | .subReg dst src => .alu64 dst .sub (.reg src) .low
  | .andImm dst imm => .alu64 dst .and (.imm imm) .low
  | .andReg dst src => .alu64 dst .and (.reg src) .low
  | .orImm dst imm => .alu64 dst .or (.imm imm) .low
  | .orReg dst src => .alu64 dst .or (.reg src) .low
  | .xorImm dst imm => .alu64 dst .xor (.imm imm) .low
  | .xorReg dst src => .alu64 dst .xor (.reg src) .low
  | .lshImm dst imm => .alu64 dst .lsh (.imm imm) .low
  | .lshReg dst src => .alu64 dst .lsh (.reg src) .low
  | .rshImm dst imm => .alu64 dst .rsh (.imm imm) .low
  | .rshReg dst src => .alu64 dst .rsh (.reg src) .low
  | .arshImm dst imm => .alu64 dst .arsh (.imm imm) .low
  | .arshReg dst src => .alu64 dst .arsh (.reg src) .low
  | .add32Imm dst imm => .alu32 dst .add (.imm imm)
  | .add32Reg dst src => .alu32 dst .add (.reg src)
  | .sub32Imm dst imm => .alu32 dst .sub (.imm imm)
  | .sub32Reg dst src => .alu32 dst .sub (.reg src)
  | .and32Imm dst imm => .alu32 dst .and (.imm imm)
  | .and32Reg dst src => .alu32 dst .and (.reg src)
  | .or32Imm dst imm => .alu32 dst .or (.imm imm)
  | .or32Reg dst src => .alu32 dst .or (.reg src)
  | .xor32Imm dst imm => .alu32 dst .xor (.imm imm)
  | .xor32Reg dst src => .alu32 dst .xor (.reg src)
  | .lsh32Imm dst imm => .alu32 dst .lsh (.imm imm)
  | .lsh32Reg dst src => .alu32 dst .lsh (.reg src)
  | .rsh32Imm dst imm => .alu32 dst .rsh (.imm imm)
  | .rsh32Reg dst src => .alu32 dst .rsh (.reg src)
  | .arsh32Imm dst imm => .alu32 dst .arsh (.imm imm)
  | .arsh32Reg dst src => .alu32 dst .arsh (.reg src)
  | .mulImm dst imm high => .alu64 dst .mul (.imm imm) high
  | .mulReg dst src high => .alu64 dst .mul (.reg src) high
  | .divImm dst imm => .alu64 dst .div (.imm imm) .low
  | .divReg dst src => .alu64 dst .div (.reg src) .low
  | .modImm dst imm => .alu64 dst .mod (.imm imm) .low
  | .modReg dst src => .alu64 dst .mod (.reg src) .low
  | .neg dst => .alu64 dst .neg (.imm 0) .low
  | .mul32Imm dst imm => .alu32 dst .mul (.imm imm)
  | .mul32Reg dst src => .alu32 dst .mul (.reg src)
  | .div32Imm dst imm => .alu32 dst .div (.imm imm)
  | .div32Reg dst src => .alu32 dst .div (.reg src)
  | .mod32Imm dst imm => .alu32 dst .mod (.imm imm)
  | .mod32Reg dst src => .alu32 dst .mod (.reg src)
  | .neg32 dst => .alu32 dst .neg (.imm 0)
  | .ldMem dst base offset size signExtend => .load dst base offset.toInt size signExtend
  | .stMem src base offset size => .store base offset.toInt size (.reg src)
  | .stMemImm imm base offset size => .store base offset.toInt size (immOperand imm)
  | .ldImm64 dst imm => .set dst (.constScalar imm) 2
  | .ldMapFd dst fd _ _ _ => .set dst (mapPointer (env.maps fd)) 2
  | .ldMapValue dst fd offset _ _ =>
    .set dst (.ptrToMapValue offset offset (((env.maps fd).map (·.valueSize)).getD 0)) 2
  | .ldImm64Second _ => .reject "jump into the middle of ldimm64 insn"
  | .jmp offset => .jump offset
  | .atomic dst src offset size op fetch => .atomic dst src offset.toInt size op fetch
  | .jset dst src offset => .test dst (.reg src) offset jsetTest "uninitialized register read by jset"
  | .jsetImm dst imm offset =>
    .test dst (immOperand imm) offset jsetTest "uninitialized register read by jset"
  | .jmp32 dst src imm offset op =>
    .test dst (jmp32Operand src imm) offset (jmp32Test op) "uninitialized register read by a 32-bit jump"
  | .jeq dst src offset => .branch false dst .eq (.reg src) offset
  | .jne dst src offset => .branch false dst .ne (.reg src) offset
  | .jgt dst src offset => .branch false dst .gt (.reg src) offset
  | .jge dst src offset => .branch false dst .ge (.reg src) offset
  | .jlt dst src offset => .branch false dst .lt (.reg src) offset
  | .jle dst src offset => .branch false dst .le (.reg src) offset
  | .jsgt dst src offset => .branch true dst .gt (.reg src) offset
  | .jsge dst src offset => .branch true dst .ge (.reg src) offset
  | .jslt dst src offset => .branch true dst .lt (.reg src) offset
  | .jsle dst src offset => .branch true dst .le (.reg src) offset
  | .jeqImm dst imm offset => .branch false dst .eq (immOperand imm) offset
  | .jneImm dst imm offset => .branch false dst .ne (immOperand imm) offset
  | .jgtImm dst imm offset => .branch false dst .gt (immOperand imm) offset
  | .jgeImm dst imm offset => .branch false dst .ge (immOperand imm) offset
  | .jltImm dst imm offset => .branch false dst .lt (immOperand imm) offset
  | .jleImm dst imm offset => .branch false dst .le (immOperand imm) offset
  | .jsgtImm dst imm offset => .branch true dst .gt (immOperand imm) offset
  | .jsgeImm dst imm offset => .branch true dst .ge (immOperand imm) offset
  | .jsltImm dst imm offset => .branch true dst .lt (immOperand imm) offset
  | .jsleImm dst imm offset => .branch true dst .le (immOperand imm) offset
  | .call imm => .helper imm
  | .callSub offset => .callSub offset
  | .callKfunc btfId => .reject s!"calling kernel function (btf id {btfId}) is not allowed"
  | .exit => .exit

/-- Whether an operand is the destination itself. -/
def Operand.isReg (dst : Reg) : Operand → Bool
  | reg r => dst = r
  | value _ => false

/-- The step of a shape that leaves the id counter alone. -/
def plainShape (env : Env) (pc : Nat) (s : SpecState) : Shape → Check (List Node)
  | .set dst v width => .ok [(pc + width, s.setReg dst v)]
  | .mov dst src =>
    if s.reg src = .uninit then failure pc s!"register r{src} is uninitialized (read by mov)"
    else .ok [(pc + 1, s.setReg dst (s.reg src))]
  | .mov32 dst src => goTo (pc + 1) ((mov32Value pc src (s.reg src)).map (s.setReg dst))
  | .packet src => goTo (pc + 1) (packetLoad env.progType s pc src)
  | .alu64 dst op rhs high => goTo (pc + 1) ((Spec.alu64 s pc dst op rhs).map (mulHigh · dst high))
  | .alu32 dst op rhs => goTo (pc + 1) (Spec.alu32 s pc dst op rhs)
  | .load dst base off size signExtend =>
    goTo (pc + 1) ((Spec.load env.progType s pc base off size signExtend).map (s.setReg dst))
  | .store base off size src => goTo (pc + 1) (Spec.store s pc base off size (src.get s))
  | .atomic dst src off size op fetch => goTo (pc + 1) (Spec.atomic s pc dst src off size op fetch)
  | .jump offset => .ok [(branchTarget pc offset, s)]
  | .test dst src offset test message => testBranch s pc offset (s.reg dst) (src.get s) test message
  | .branch false dst cmp src offset => Spec.branch s pc dst cmp (src.get s) offset (src.isReg dst)
  | .branch true dst cmp src offset => branchSigned s pc dst cmp (src.get s) offset (src.isReg dst)
  | .helper _ => .ok []
  | .callSub offset => Spec.callSub s pc offset
  | .exit => exitStep s pc
  | .reject message => failure pc message

theorem mulHigh_low (c : Check SpecState) (dst : Reg) : c.map (mulHigh · dst .low) = c := by
  cases c <;> rfl

theorem jmp32Operand_get (s : SpecState) (src : Option Reg) (imm : Option Int32) :
    (jmp32Operand src imm).get s = jmp32Src s src imm := by
  cases src with
  | some r => rfl
  | none => cases imm <;> rfl

theorem stepPlain_shape (env : Env) (pc : Nat) (s : SpecState) (insn : BpfInsn) :
    stepPlain env pc s insn = plainShape env pc s (shape env insn) := by
  cases insn with
  | jmp32 dst src imm offset op =>
    show testBranch s pc offset (s.reg dst) (jmp32Src s src imm) _ _ =
      testBranch s pc offset (s.reg dst) ((jmp32Operand src imm).get s) _ _
    rw [jmp32Operand_get]
  | _ =>
    first
      | rfl
      | simp only [stepPlain, plainShape, shape, mulHigh_low]

/-! ## What a step did -/

/-- An accepted step, by its shape: where it goes, the state there, and the id counter. -/
inductive Did (env : Env) (c pc : Nat) (s : SpecState) : Shape → Nat → SpecState → Nat → Prop
  | set {dst : Reg} {v : SpecValue} {width : Nat} : Did env c pc s (.set dst v width) (pc + width) (s.setReg dst v) c
  | mov {dst src : Reg} : s.reg src ≠ .uninit →
      Did env c pc s (.mov dst src) (pc + 1) (s.setReg dst (s.reg src)) c
  | mov32 {dst src : Reg} {v : SpecValue} : mov32Value pc src (s.reg src) = .ok v →
      Did env c pc s (.mov32 dst src) (pc + 1) (s.setReg dst v) c
  | packet {src : Option Reg} : (∀ r, src = some r → s.reg r ≠ .uninit) →
      Did env c pc s (.packet src) (pc + 1) (s.setReg 0 .unknownScalar) c
  | alu64 {dst : Reg} {op : AluOp} {rhs : Rhs} {high : MulHigh} {s' : SpecState} :
      Spec.alu64 s pc dst op rhs = .ok s' → Did env c pc s (.alu64 dst op rhs high) (pc + 1) (mulHigh s' dst high) c
  | alu32 {dst : Reg} {op : AluOp} {rhs : Rhs} {s' : SpecState} :
      Spec.alu32 s pc dst op rhs = .ok s' → Did env c pc s (.alu32 dst op rhs) (pc + 1) s' c
  | load {dst base : Reg} {off : Int} {size : MemSize} {signExtend : Bool} {v : SpecValue} :
      Spec.load env.progType s pc base off size signExtend = .ok v →
      Did env c pc s (.load dst base off size signExtend) (pc + 1) (s.setReg dst v) c
  | store {base : Reg} {off : Int} {size : MemSize} {src : Operand} {s' : SpecState} :
      Spec.store s pc base off size (src.get s) = .ok s' → Did env c pc s (.store base off size src) (pc + 1) s' c
  | atomic {dst src : Reg} {off : Int} {size : MemSize} {op : AtomicOp} {fetch : Bool} {s' : SpecState} :
      Spec.atomic s pc dst src off size op fetch = .ok s' →
      Did env c pc s (.atomic dst src off size op fetch) (pc + 1) s' c
  | jump {offset : Int16} : Did env c pc s (.jump offset) (branchTarget pc offset) s c
  | test {dst : Reg} {src : Operand} {offset : Int16} {test : UInt64 → UInt64 → Bool} {message : String}
      {nodes : List Node} {pc' : Nat} {s' : SpecState} :
      testBranch s pc offset (s.reg dst) (src.get s) test message = .ok nodes → (pc', s') ∈ nodes →
      Did env c pc s (.test dst src offset test message) pc' s' c
  | branch {signed : Bool} {dst : Reg} {cmp : Cmp} {src : Operand} {offset : Int16} {nodes : List Node}
      {pc' : Nat} {s' : SpecState} :
      (if signed then branchSigned s pc dst cmp (src.get s) offset (src.isReg dst)
        else Spec.branch s pc dst cmp (src.get s) offset (src.isReg dst)) = .ok nodes → (pc', s') ∈ nodes →
      Did env c pc s (.branch signed dst cmp src offset) pc' s' c
  | helper {imm : Int32} {s' : SpecState} {c' : Nat} : helperCall s pc c imm = .ok (s', c') →
      Did env c pc s (.helper imm) (pc + 1) s' c'
  | callSub {offset : Int32} {nodes : List Node} {pc' : Nat} {s' : SpecState} :
      Spec.callSub s pc offset = .ok nodes → (pc', s') ∈ nodes → Did env c pc s (.callSub offset) pc' s' c
  | exit {nodes : List Node} {pc' : Nat} {s' : SpecState} :
      exitStep s pc = .ok nodes → (pc', s') ∈ nodes → Did env c pc s .exit pc' s' c

section Steps

variable {env : Env} {c c' pc pc' : Nat} {s s' : SpecState} {nodes : List Node}

/-- What a plain shape did. -/
theorem plainShape_did {sh : Shape} (hplain : ∀ imm, sh ≠ .helper imm) (h : plainShape env pc s sh = .ok nodes)
    (hmem : (pc', s') ∈ nodes) : Did env c pc s sh pc' s' c := by
  have single {m : Nat} {t : SpecState} (h : nodes = [(m, t)]) : m = pc' ∧ t = s' := by
    subst h
    exact Prod.mk.inj (List.mem_singleton.mp hmem).symm
  cases sh with
  | set dst v width =>
    obtain ⟨rfl, rfl⟩ := single (Except.ok.inj h).symm
    exact .set
  | mov dst src =>
    simp only [plainShape] at h
    split at h
    · cases h
    · rename_i hsrc
      obtain ⟨rfl, rfl⟩ := single (Except.ok.inj h).symm
      exact .mov hsrc
  | mov32 dst src =>
    obtain ⟨t, ht, hn⟩ := goTo_ok h
    obtain ⟨rfl, rfl⟩ := single hn
    obtain ⟨v, hv, rfl⟩ := exceptMap_ok ht
    exact .mov32 hv
  | packet src =>
    obtain ⟨t, ht, hn⟩ := goTo_ok h
    obtain ⟨rfl, rfl⟩ := single hn
    obtain ⟨u, -, hrun⟩ := bind_eq_ok.mp ht
    cases src with
    | none =>
      obtain rfl := Except.ok.inj hrun
      exact .packet nofun
    | some r =>
      simp only at hrun
      split at hrun
      · cases hrun
      · rename_i hr
        obtain rfl := Except.ok.inj hrun
        refine .packet ?_
        intro r' hr'
        cases hr'
        exact hr
  | alu64 dst op rhs high =>
    obtain ⟨t, ht, hn⟩ := goTo_ok h
    obtain ⟨rfl, rfl⟩ := single hn
    obtain ⟨t', ht', rfl⟩ := exceptMap_ok ht
    exact .alu64 ht'
  | alu32 dst op rhs =>
    obtain ⟨t, ht, hn⟩ := goTo_ok h
    obtain ⟨rfl, rfl⟩ := single hn
    exact .alu32 ht
  | load dst base off size signExtend =>
    obtain ⟨t, ht, hn⟩ := goTo_ok h
    obtain ⟨rfl, rfl⟩ := single hn
    obtain ⟨v, hv, rfl⟩ := exceptMap_ok ht
    exact .load hv
  | store base off size src =>
    obtain ⟨t, ht, hn⟩ := goTo_ok h
    obtain ⟨rfl, rfl⟩ := single hn
    exact .store ht
  | atomic dst src off size op fetch =>
    obtain ⟨t, ht, hn⟩ := goTo_ok h
    obtain ⟨rfl, rfl⟩ := single hn
    exact .atomic ht
  | jump offset =>
    obtain ⟨rfl, rfl⟩ := single (Except.ok.inj h).symm
    exact .jump
  | test dst src offset test message => exact .test h hmem
  | branch signed dst cmp src offset =>
    cases signed with
    | true => exact .branch h hmem
    | false => exact .branch h hmem
  | helper imm => exact absurd rfl (hplain imm)
  | callSub offset => exact .callSub h hmem
  | exit => exact .exit h hmem
  | reject message => cases h

theorem shape_call {insn : BpfInsn} {imm : Int32} (h : shape env insn = .helper imm) : insn = .call imm := by
  cases insn with
  | call imm' =>
    cases h
    rfl
  | _ => cases h

/-- Every accepted step is one of these. -/
theorem step_did {insn : BpfInsn} (h : step env c pc s insn = .ok (nodes, c')) (hmem : (pc', s') ∈ nodes) :
    Did env c pc s (shape env insn) pc' s' c' := by
  by_cases hcall : ∃ imm, insn = .call imm
  · obtain ⟨imm, rfl⟩ := hcall
    obtain ⟨⟨t, c''⟩, ht, hn⟩ := exceptMap_ok h
    obtain ⟨rfl, rfl⟩ := Prod.mk.inj hn
    obtain ⟨rfl, rfl⟩ := Prod.mk.inj (List.mem_singleton.mp hmem)
    exact .helper ht
  · have hstep : step env c pc s insn = (stepPlain env pc s insn).map fun nodes => (nodes, c) := by
      cases insn with
      | call imm => exact absurd ⟨imm, rfl⟩ hcall
      | _ => rfl
    rw [hstep, stepPlain_shape] at h
    obtain ⟨ns, hns, hn⟩ := exceptMap_ok h
    obtain ⟨rfl, rfl⟩ := Prod.mk.inj hn
    refine plainShape_did ?_ hns hmem
    intro imm hsh
    exact hcall ⟨imm, shape_call hsh⟩

/-! ## Memory -/

/-- Whether a value points into a stack. -/
def IsStackPtr (v : SpecValue) : Prop := ∃ lo hi, v = .ptrToStack lo hi

/-- A store goes to the stack of the current frame, or leaves the state alone. -/
theorem store_ok {base : Reg} {off : Int} {size : MemSize} {v : SpecValue}
    (h : store s pc base off size v = .ok s') :
    (∃ lo hi stack, s.reg base = .ptrToStack lo hi ∧ s.cur.stack.store pc lo hi off size v = .ok stack ∧
      s' = s.setStack stack) ∨
    ((∃ lo hi bound, s.reg base = .ptrToMapValue lo hi bound) ∧ s' = s) ∨
    ((∃ lo hi bound id, s.reg base = .ptrToMem lo hi bound id) ∧ s' = s) := by
  unfold store failure at h
  split at h
  · rename_i lo hi heq
    obtain ⟨stack, hst, hs⟩ := bind_eq_ok.mp h
    exact .inl ⟨lo, hi, stack, heq, hst, (Except.ok.inj hs).symm⟩
  · rename_i lo hi bound heq
    obtain ⟨u, -, hs⟩ := bind_eq_ok.mp h
    exact .inr (.inl ⟨⟨lo, hi, bound, heq⟩, (Except.ok.inj hs).symm⟩)
  · rename_i lo hi bound id heq
    obtain ⟨u, -, hs⟩ := bind_eq_ok.mp h
    exact .inr (.inr ⟨⟨lo, hi, bound, id, heq⟩, (Except.ok.inj hs).symm⟩)
  · cases h
  · cases h

/-- A load reads the stack of the current frame, or yields a scalar. -/
theorem load_ok {prog : ProgType} {base : Reg} {off : Int} {size : MemSize} {signExtend : Bool} {v : SpecValue}
    (h : load prog s pc base off size signExtend = .ok v) :
    (∃ lo hi, s.reg base = .ptrToStack lo hi ∧ s.cur.stack.load pc lo hi off size signExtend = .ok v) ∨
    (∃ baseOff, s.reg base = .ptrToCtx baseOff ∧ ctxLoad prog pc (clampI64 (baseOff + off)) size signExtend = .ok v) ∨
    ((∃ lo hi bound, s.reg base = .ptrToMapValue lo hi bound) ∧ v = .unknownScalar) ∨
    ((∃ lo hi bound id, s.reg base = .ptrToMem lo hi bound id) ∧ v = .unknownScalar) := by
  unfold load failure at h
  split at h
  · rename_i lo hi heq
    exact .inl ⟨lo, hi, heq, h⟩
  · rename_i baseOff heq
    exact .inr (.inl ⟨baseOff, heq, h⟩)
  · rename_i lo hi bound heq
    obtain ⟨u, -, hs⟩ := bind_eq_ok.mp h
    exact .inr (.inr (.inl ⟨⟨lo, hi, bound, heq⟩, (Except.ok.inj hs).symm⟩))
  · rename_i lo hi bound id heq
    obtain ⟨u, -, hs⟩ := bind_eq_ok.mp h
    exact .inr (.inr (.inr ⟨⟨lo, hi, bound, id, heq⟩, (Except.ok.inj hs).symm⟩))
  · cases h
  · cases h
  · cases h

/-- A context load yields a scalar. -/
theorem ctxLoad_scalar {prog : ProgType} {total : Int} {size : MemSize} {signExtend : Bool} {v : SpecValue}
    (h : ctxLoad prog pc total size signExtend = .ok v) : v.isScalar = true := by
  unfold ctxLoad failure at h
  split at h
  · cases h
  · split at h
    · cases h
      cases signExtend <;> rfl
    · cases h
    · cases h
    · cases h

/-- An atomic goes to the stack of the current frame, or to a map value. -/
theorem atomic_ok {dst src : Reg} {off : Int} {size : MemSize} {op : AtomicOp} {fetch : Bool}
    (h : atomic s pc dst src off size op fetch = .ok s') :
    s.reg src ≠ .uninit ∧
    ((∃ lo hi, s.reg dst = .ptrToStack lo hi ∧
      checkStackRange pc (accessStart lo off) (accessEnd hi off size) size.bytes = .ok () ∧
      s' = atomicResult (s.setStack (s.cur.stack.atomicMark (accessStart lo off) (accessEnd hi off size)))
        src op fetch (s.cur.stack.atomicOld lo hi (accessStart lo off) size)) ∨
    ((∃ lo hi bound, s.reg dst = .ptrToMapValue lo hi bound) ∧
      s' = atomicResult s src op fetch .unknownScalar)) := by
  unfold atomic at h
  obtain ⟨_, -, h⟩ := bind_eq_ok.mp h
  obtain ⟨_, hsrc, h⟩ := bind_eq_ok.mp h
  obtain ⟨⟨old, t⟩, hacc, h⟩ := bind_eq_ok.mp h
  obtain rfl := Except.ok.inj h
  refine ⟨require_ok hsrc, ?_⟩
  unfold atomicAccess failure at hacc
  split at hacc
  · rename_i lo hi heq
    obtain ⟨_, hrange, hs⟩ := bind_eq_ok.mp hacc
    obtain ⟨rfl, rfl⟩ := Prod.mk.inj (Except.ok.inj hs)
    exact .inl ⟨lo, hi, heq, hrange, rfl⟩
  · rename_i lo hi bound heq
    obtain ⟨_, -, hs⟩ := bind_eq_ok.mp hacc
    obtain ⟨rfl, rfl⟩ := Prod.mk.inj (Except.ok.inj hs)
    exact .inr ⟨⟨lo, hi, bound, heq⟩, rfl⟩
  · cases hacc

theorem atomicResult_stack (s : SpecState) (src : Reg) (op : AtomicOp) (fetch : Bool) (old : SpecValue) :
    (atomicResult s src op fetch old).cur.stack = s.cur.stack := by
  unfold atomicResult
  split
  · rfl
  · split <;> rfl

/-! ## Helper calls -/

theorem helperCall_ok {imm : Int32} (h : helperCall s pc c imm = .ok (s', c')) :
    ∃ proto s₁ s₂ s₃, specHelper imm = some proto ∧ checkArgs s pc imm 0 proto.args = .ok () ∧
      writeBuffers s pc imm = .ok s₁ ∧ releaseArg s₁ pc imm = .ok s₂ ∧
      setResult s₂ pc c proto.ret = .ok (s₃, c') ∧ s' = s₃.clobberArgs.forgetSpills := by
  unfold helperCall at h
  split at h
  · cases h
  · rename_i proto hproto
    obtain ⟨_, hargs, h⟩ := bind_eq_ok.mp h
    obtain ⟨s₁, hbuf, h⟩ := bind_eq_ok.mp h
    obtain ⟨s₂, hrel, h⟩ := bind_eq_ok.mp h
    obtain ⟨⟨s₃, c₃⟩, hres, h⟩ := bind_eq_ok.mp h
    obtain ⟨rfl, rfl⟩ := Prod.mk.inj (Except.ok.inj h)
    exact ⟨proto, s₁, s₂, s₃, hproto, hargs, hbuf, hrel, hres, rfl⟩

theorem releaseRef_cur {id : Nat} (h : s.releaseRef id = some s') : s'.cur = s.cur ∧ s'.saved = s.saved := by
  unfold SpecState.releaseRef at h
  split at h
  · cases h
    exact ⟨rfl, rfl⟩
  · cases h

theorem acquireRef_cur {id : Nat} (h : s.acquireRef id = .ok s') : s'.cur = s.cur ∧ s'.saved = s.saved := by
  unfold SpecState.acquireRef at h
  split at h
  · cases h
    exact ⟨rfl, rfl⟩
  · cases h

theorem releaseArg_cur {imm : Int32} (h : releaseArg s pc imm = .ok s') : s'.cur = s.cur ∧ s'.saved = s.saved := by
  unfold releaseArg at h
  split at h
  · split at h
    · split at h
      · rename_i hrel
        cases h
        exact releaseRef_cur hrel
      · cases h
    · cases h
      exact ⟨rfl, rfl⟩
  · cases h
    exact ⟨rfl, rfl⟩

/-- The result of a helper goes to R0; nothing else of the frames changes. -/
theorem setResult_cur {ret : SpecRet} (h : setResult s pc c ret = .ok (s', c')) :
    ∃ v, s'.cur = (s.setReg 0 v).cur ∧ s'.saved = s.saved := by
  cases ret with
  | memOrNull =>
    simp only [setResult] at h
    split at h
    · rename_i hacq
      obtain ⟨rfl, rfl⟩ := Prod.mk.inj (Except.ok.inj h)
      obtain ⟨hcur, hsaved⟩ := acquireRef_cur hacq
      exact ⟨_, hcur, hsaved⟩
    · cases h
  | _ =>
    obtain ⟨rfl, rfl⟩ := Prod.mk.inj (Except.ok.inj h)
    exact ⟨_, rfl, rfl⟩

/-- The bytes that a helper marks. -/
def markedBy (s : SpecState) (imm : Int32) (i : Fin specStackSize) : Prop :=
  if imm = 197 then ∃ lo, s.reg 4 = .ptrToStack lo lo ∧ inSpan lo (lo + 16) i
  else if imm = 201 then
    ∃ lo w, s.reg 1 = .ptrToStack lo lo ∧ (s.reg 2).const? = some w ∧ inSpan lo (lo + w.toInt64.toInt) i
  else False

/-- The stack buffers of a helper: only marks change. -/
theorem writeBuffers_ok {imm : Int32} (h : writeBuffers s pc imm = .ok s') :
    s'.cur.regs = s.cur.regs ∧ s'.cur.retPc = s.cur.retPc ∧ s'.saved = s.saved ∧ s'.refs = s.refs ∧
      s'.refsCnt = s.refsCnt ∧ s'.cur.stack.spill = s.cur.stack.spill ∧ s'.cur.stack.bytes = s.cur.stack.bytes ∧
      ∀ i, s'.cur.stack.init i = true ↔ markedBy s imm i ∨ s.cur.stack.init i = true := by
  have span {lo len : Int} {i : Fin specStackSize} :
      (specStackSize + lo ≤ (i.val : Int) ∧ (i.val : Int) < specStackSize + lo + len) ↔ inSpan lo (lo + len) i := by
    unfold inSpan
    omega
  have same (hs : s' = s) (hno : ∀ i, ¬ markedBy s imm i) :
      s'.cur.regs = s.cur.regs ∧ s'.cur.retPc = s.cur.retPc ∧ s'.saved = s.saved ∧ s'.refs = s.refs ∧
      s'.refsCnt = s.refsCnt ∧ s'.cur.stack.spill = s.cur.stack.spill ∧ s'.cur.stack.bytes = s.cur.stack.bytes ∧
      ∀ i, s'.cur.stack.init i = true ↔ markedBy s imm i ∨ s.cur.stack.init i = true := by
    subst hs
    exact ⟨rfl, rfl, rfl, rfl, rfl, rfl, rfl, fun i => by simp [hno i]⟩
  unfold writeBuffers at h
  by_cases h197 : imm = 197
  · rw [if_pos h197] at h
    unfold dynptrFromMem failure at h
    split at h
    · rename_i lo hi hreg
      by_cases heq : lo = hi
      · subst heq
        rw [if_pos rfl] at h
        split at h
        · cases h
        · cases h
          refine ⟨rfl, rfl, rfl, rfl, rfl, rfl, rfl, ?_⟩
          intro i
          simp only [SpecState.setStack, SpecStack.markRangeInit, Bool.or_eq_true, decide_eq_true_eq, span,
            markedBy, if_pos h197, hreg, SpecValue.ptrToStack.injEq]
          constructor
          · rintro (hi | hi)
            · exact .inl ⟨lo, ⟨rfl, rfl⟩, hi⟩
            · exact .inr hi
          · rintro (⟨lo', ⟨rfl, -⟩, hi⟩ | hi)
            · exact .inl hi
            · exact .inr hi
      · rw [if_neg heq] at h
        refine same (Except.ok.inj h).symm ?_
        intro i hm
        simp only [markedBy, if_pos h197, hreg, SpecValue.ptrToStack.injEq] at hm
        obtain ⟨lo', ⟨rfl, rfl⟩, -⟩ := hm
        exact heq rfl
    · rename_i hreg
      refine same (Except.ok.inj h).symm ?_
      intro i hm
      simp only [markedBy, if_pos h197] at hm
      obtain ⟨lo', hlo, -⟩ := hm
      exact hreg _ _ hlo
  · rw [if_neg h197] at h
    by_cases h201 : imm = 201
    · rw [if_pos h201] at h
      unfold dynptrRead failure at h
      split at h
      · rename_i lo hi hreg
        by_cases heq : lo = hi
        · subst heq
          rw [if_pos rfl] at h
          split at h
          · cases h
          · rename_i w hw
            dsimp only at h
            split at h
            · cases h
            · cases h
              refine ⟨rfl, rfl, rfl, rfl, rfl, rfl, rfl, ?_⟩
              intro i
              simp only [SpecState.setStack, SpecStack.markRangeInit, Bool.or_eq_true, decide_eq_true_eq, span,
                markedBy, if_neg h197, if_pos h201, hreg, hw, SpecValue.ptrToStack.injEq, Option.some.injEq]
              constructor
              · rintro (hi | hi)
                · exact .inl ⟨lo, w, ⟨rfl, rfl⟩, rfl, hi⟩
                · exact .inr hi
              · rintro (⟨lo', w', ⟨rfl, -⟩, rfl, hi⟩ | hi)
                · exact .inl hi
                · exact .inr hi
        · rw [if_neg heq] at h
          refine same (Except.ok.inj h).symm ?_
          intro i hm
          simp only [markedBy, if_neg h197, if_pos h201, hreg, SpecValue.ptrToStack.injEq] at hm
          obtain ⟨lo', w, ⟨rfl, rfl⟩, -⟩ := hm
          exact heq rfl
      · rename_i hreg
        refine same (Except.ok.inj h).symm ?_
        intro i hm
        simp only [markedBy, if_neg h197, if_pos h201] at hm
        obtain ⟨lo', w, hlo, -⟩ := hm
        exact hreg _ _ hlo
    · rw [if_neg h201] at h
      refine same (Except.ok.inj h).symm ?_
      intro i hm
      simp only [markedBy, if_neg h197, if_neg h201] at hm

/-! ## ALU -/

/-- A moved pointer keeps its kind. -/
inductive Moved : SpecValue → SpecValue → Prop
  | stack {lo hi lo' hi' : Int} : Moved (.ptrToStack lo hi) (.ptrToStack lo' hi')
  | mapValue {lo hi lo' hi' : Int} {size : Nat} : Moved (.ptrToMapValue lo hi size) (.ptrToMapValue lo' hi' size)
  | ctx {off off' : Int} : Moved (.ptrToCtx off) (.ptrToCtx off')

theorem ptrAdd_ok {ptr v : SpecValue} {a : Range} (h : ptrAdd pc ptr a = .ok v) : Moved ptr v := by
  unfold ptrAdd failure at h
  obtain ⟨⟨slo, shi⟩, -, h⟩ := bind_eq_ok.mp h
  cases ptr with
  | ptrToStack lo hi =>
    obtain rfl := Except.ok.inj h
    exact .stack
  | ptrToMapValue lo hi size =>
    obtain rfl := Except.ok.inj h
    exact .mapValue
  | ptrToCtx off =>
    simp only at h
    split at h
    · obtain rfl := Except.ok.inj h
      exact .ctx
    · cases h
  | _ => cases h

theorem scalarPlusPointer_ok {ptr v : SpecValue} {a : Range} (h : scalarPlusPointer pc ptr a = .ok v) :
    Moved ptr v := by
  unfold scalarPlusPointer failure at h
  obtain ⟨⟨slo, shi⟩, -, h⟩ := bind_eq_ok.mp h
  cases ptr with
  | ptrToStack lo hi =>
    obtain rfl := Except.ok.inj h
    exact .stack
  | ptrToMapValue lo hi size =>
    obtain rfl := Except.ok.inj h
    exact .mapValue
  | _ => cases h

theorem ptrAlu_ok {op : AluOp} {d r v : SpecValue} (h : ptrAlu pc op d r = .ok v) : Moved d v := by
  cases op with
  | add =>
    cases r with
    | scalar lo hi => exact ptrAdd_ok h
    | _ => cases h
  | sub =>
    cases r with
    | scalar lo hi =>
      have hsub : ite (d = .ptrToStack 0 0) (failure pc _) (ptrAdd pc d _) = .ok v := h
      by_cases hd : d = .ptrToStack 0 0
      · rw [if_pos hd] at hsub
        cases hsub
      · rw [if_neg hd] at hsub
        exact ptrAdd_ok hsub
    | _ => cases h
  | _ => cases h

theorem asScalar_eq_some {v : SpecValue} {r : Range} (h : v.asScalar = some r) : v = .scalar r.1 r.2 := by
  cases v with
  | scalar lo hi =>
    cases h
    rfl
  | _ => cases h

/-- A 64-bit operation yields a scalar, or moves the pointer of its destination, or that of
    its source onto a scalar. -/
theorem alu64Value_ok {op : AluOp} {d r v : SpecValue} (h : alu64Value pc op d r = .ok v) :
    (∃ lo hi, v = .scalar lo hi) ∨ Moved d v ∨ (d.isScalar = true ∧ Moved r v) := by
  unfold alu64Value failure at h
  split at h
  · cases h
    exact .inl ⟨_, _, rfl⟩
  · exact .inr (.inl (ptrAlu_ok h))
  · rename_i rd hd hr
    split at h
    · refine .inr (.inr ⟨?_, scalarPlusPointer_ok h⟩)
      rw [asScalar_eq_some hd]
      rfl
    · cases h

def Rhs.get (s : SpecState) : Rhs → SpecValue
  | imm v => .constScalar (immWord v)
  | reg r => s.reg r

theorem rhsValue_ok {text : String} {rhs : Rhs} {v : SpecValue} (h : rhsValue s pc text rhs = .ok v) :
    v = rhs.get s ∧ v ≠ .uninit := by
  cases rhs with
  | imm i =>
    cases h
    exact ⟨rfl, nofun⟩
  | reg r =>
    unfold rhsValue failure at h
    dsimp only at h
    split at h
    · cases h
    · rename_i hr
      obtain rfl := Except.ok.inj h
      exact ⟨rfl, hr⟩

theorem alu64_ok {dst : Reg} {op : AluOp} {rhs : Rhs} (h : alu64 s pc dst op rhs = .ok s') :
    s.reg dst ≠ .uninit ∧ rhs.get s ≠ .uninit ∧
      ∃ v, alu64Value pc op (s.reg dst) (rhs.get s) = .ok v ∧ s' = s.setReg dst v := by
  unfold alu64 at h
  obtain ⟨_, hd, hrest⟩ := bind_eq_ok.mp h
  obtain ⟨r, hr, hop⟩ := bind_eq_ok.mp hrest
  obtain ⟨v, hv, hs⟩ := bind_eq_ok.mp hop
  obtain ⟨hget, hne⟩ := rhsValue_ok hr
  rw [← hget]
  exact ⟨require_ok hd, hne, v, hv, (Except.ok.inj hs).symm⟩

theorem alu32_ok {dst : Reg} {op : AluOp} {rhs : Rhs} (h : alu32 s pc dst op rhs = .ok s') :
    s.reg dst ≠ .uninit ∧ rhs.get s ≠ .uninit ∧ ∃ lo hi, s' = s.setReg dst (.scalar lo hi) := by
  unfold alu32 at h
  obtain ⟨_, hd, hrest⟩ := bind_eq_ok.mp h
  obtain ⟨_, -, hread⟩ := bind_eq_ok.mp hrest
  obtain ⟨r, hr, hop⟩ := bind_eq_ok.mp hread
  obtain ⟨v, hv, hs⟩ := bind_eq_ok.mp hop
  obtain ⟨hget, hne⟩ := rhsValue_ok hr
  rw [← hget]
  refine ⟨require_ok hd, hne, ?_⟩
  unfold alu32Value failure at hv
  split at hv
  · cases hv
    exact ⟨_, _, (Except.ok.inj hs).symm⟩
  · cases hv

theorem mov32Value_ok {src : Reg} {v x : SpecValue} (h : mov32Value pc src x = .ok v) :
    x.isScalar = true ∧ ∃ lo hi, v = .scalar lo hi := by
  unfold mov32Value failure at h
  cases x with
  | scalar lo hi =>
    obtain rfl := Except.ok.inj h
    exact ⟨rfl, _, _, rfl⟩
  | _ => cases h

/-! ## Branches -/

/-- What a branch does to the state of one of its successors. -/
inductive Refined (s : SpecState) (dst : Reg) : SpecState → Prop
  | same : Refined s dst s
  | scalar {r : Range} : (s.reg dst).isScalar = true → Refined s dst (s.setReg dst (.ofRange r))
  | lookup {size id : Nat} {v : SpecValue} : s.reg dst = .ptrToMapValueOrNull size id →
      v = .constScalar 0 ∨ v = .ptrToMapValue 0 0 size → Refined s dst (s.mapRegs (refineLookup id v))
  | memNull {size id : Nat} : s.reg dst = .ptrToMemOrNull size id → Refined s dst (Spec.memNull s dst id)
  | memValid {size id : Nat} : s.reg dst = .ptrToMemOrNull size id →
      Refined s dst (s.setReg dst (.ptrToMem 0 0 size id))

theorem nullSides_ok {target : Nat} {cmp : Cmp} {null valid : SpecState} {message : String}
    (h : nullSides pc target cmp null valid message = .ok nodes) (hmem : (pc', s') ∈ nodes) :
    s' = null ∨ s' = valid := by
  cases cmp with
  | eq | ne =>
    obtain rfl := Except.ok.inj h
    rcases List.mem_cons.mp hmem with heq | hmem
    · exact (by first | exact .inl (Prod.mk.inj heq).2 | exact .inr (Prod.mk.inj heq).2)
    · have heq := List.mem_singleton.mp hmem
      exact (by first | exact .inr (Prod.mk.inj heq).2 | exact .inl (Prod.mk.inj heq).2)
  | _ => cases h

theorem pointerCompare_ok {target : Nat} {d src : SpecValue} {cmp : Cmp}
    (h : pointerCompare s pc target d cmp src = .ok nodes) (hmem : (pc', s') ∈ nodes) :
    s' = s ∧ d ≠ .uninit ∧ src ≠ .uninit := by
  unfold pointerCompare failure at h
  split at h
  · rename_i hboth
    have hs : s' = s := by
      cases cmp with
      | eq | ne =>
        obtain rfl := Except.ok.inj h
        exact (Prod.mk.inj (List.mem_singleton.mp hmem)).2
      | _ => cases h
    refine ⟨hs, ?_, ?_⟩
    · rintro rfl
      exact absurd hboth.1 (by decide)
    · rintro rfl
      exact absurd hboth.2 (by decide)
  · split at h
    · rename_i hone
      obtain rfl := Except.ok.inj h
      refine ⟨?_, ?_, ?_⟩
      · rcases List.mem_cons.mp hmem with heq | hmem
        · exact (Prod.mk.inj heq).2
        · exact (Prod.mk.inj (List.mem_singleton.mp hmem)).2
      · rintro rfl
        exact absurd hone (by simp [SpecValue.isPointer, SpecValue.isScalar])
      · rintro rfl
        exact absurd hone (by simp [SpecValue.isPointer, SpecValue.isScalar])
    · cases h

theorem pointerBranch_ok {target : Nat} {dst : Reg} {cmp : Cmp} {src : SpecValue}
    (h : pointerBranch s pc target dst cmp src = .ok nodes) (hmem : (pc', s') ∈ nodes) :
    Refined s dst s' ∧ s.reg dst ≠ .uninit ∧ src ≠ .uninit := by
  unfold pointerBranch at h
  split at h
  · rename_i size id hreg hzero
    have hsrc := of_decide_eq_true hzero
    subst hsrc
    refine ⟨?_, by rw [hreg]; nofun, nofun⟩
    rcases nullSides_ok h hmem with rfl | rfl
    · exact .lookup hreg (.inl rfl)
    · exact .lookup hreg (.inr rfl)
  · rename_i size id hreg hzero
    have hsrc := of_decide_eq_true hzero
    subst hsrc
    refine ⟨?_, by rw [hreg]; nofun, nofun⟩
    rcases nullSides_ok h hmem with rfl | rfl
    · exact .memNull hreg
    · exact .memValid hreg
  · obtain ⟨rfl, hd, hsrc⟩ := pointerCompare_ok h hmem
    exact ⟨.same, hd, hsrc⟩

theorem emitRefined_mem {dst : Reg} {refined : List Range × List Range} {target fall : Nat}
    (hmem : (pc', s') ∈ emitRefined s dst refined target fall) : ∃ r, s' = s.setReg dst (.ofRange r) := by
  rcases List.mem_append.mp hmem with h | h
  · obtain ⟨r, -, heq⟩ := List.mem_map.mp h
    exact ⟨r, (Prod.mk.inj heq).2.symm⟩
  · obtain ⟨r, -, heq⟩ := List.mem_map.mp h
    exact ⟨r, (Prod.mk.inj heq).2.symm⟩

/-- A scalar comparison; a register compared with itself is read only once. -/
theorem scalarBranch_ok {target : Nat} {dst : Reg} {cmp : Cmp} {src : SpecValue} {sameReg : Bool}
    {refine : Range → Range → Cmp → List Range × List Range} {text : String}
    (h : scalarBranch s pc target dst cmp src sameReg refine text = .ok nodes) (hmem : (pc', s') ∈ nodes) :
    Refined s dst s' ∧ s.reg dst ≠ .uninit ∧ (sameReg = false → src ≠ .uninit) := by
  unfold scalarBranch failure at h
  split at h
  · cases h
  · rename_i d hd
    have hscalar := asScalar_eq_some hd
    have hne : s.reg dst ≠ .uninit := by
      rw [hscalar]
      nofun
    have hkind : (s.reg dst).isScalar = true := by
      rw [hscalar]
      rfl
    split at h
    · rename_i hsame
      cases h
      obtain ⟨r, rfl⟩ := emitRefined_mem hmem
      refine ⟨.scalar hkind, hne, ?_⟩
      intro hno
      rw [hno] at hsame
      cases hsame
    · split at h
      · cases h
      · rename_i r hr
        cases h
        obtain ⟨r', rfl⟩ := emitRefined_mem hmem
        refine ⟨.scalar hkind, hne, ?_⟩
        rintro - rfl
        cases hr

theorem branch_ok {signed : Bool} {dst : Reg} {cmp : Cmp} {src : SpecValue} {offset : Int16} {sameReg : Bool}
    (h : (if signed then branchSigned s pc dst cmp src offset sameReg
      else branch s pc dst cmp src offset sameReg) = .ok nodes) (hmem : (pc', s') ∈ nodes) :
    Refined s dst s' ∧ s.reg dst ≠ .uninit ∧ (sameReg = false → src ≠ .uninit) := by
  cases signed with
  | true =>
    simp only [if_true] at h
    unfold branchSigned failure at h
    split at h
    · cases h
    · exact scalarBranch_ok h hmem
  | false =>
    simp only [Bool.false_eq_true, if_false] at h
    unfold branch at h
    split at h
    · obtain ⟨href, hd, hsrc⟩ := pointerBranch_ok h hmem
      exact ⟨href, hd, fun _ => hsrc⟩
    · exact scalarBranch_ok h hmem

theorem testBranch_ok {offset : Int16} {d r : SpecValue} {test : UInt64 → UInt64 → Bool} {message : String}
    (h : testBranch s pc offset d r test message = .ok nodes) (hmem : (pc', s') ∈ nodes) :
    s' = s ∧ d ≠ .uninit ∧ r ≠ .uninit := by
  unfold testBranch failure at h
  split at h
  · cases h
  · rename_i hinit
    have hs : s' = s := by
      split at h
      · cases h
        exact (Prod.mk.inj (List.mem_singleton.mp hmem)).2
      · cases h
        rcases List.mem_cons.mp hmem with heq | hmem
        · exact (Prod.mk.inj heq).2
        · exact (Prod.mk.inj (List.mem_singleton.mp hmem)).2
    exact ⟨hs, fun hd => hinit (.inl hd), fun hr => hinit (.inr hr)⟩

theorem memNull_cur {dst : Reg} {id : Nat} :
    (memNull s dst id).cur = (s.setReg dst (.constScalar 0)).cur ∧ (memNull s dst id).saved = s.saved := by
  unfold memNull
  dsimp only
  cases hrel : (s.setReg dst (.constScalar 0)).releaseRef id with
  | none => exact ⟨rfl, rfl⟩
  | some t =>
    obtain ⟨hcur, hsaved⟩ := releaseRef_cur hrel
    exact ⟨hcur, hsaved⟩

/-! ## Calls and exits -/

theorem callSub_ok {offset : Int32} (h : callSub s pc offset = .ok nodes) (hmem : (pc', s') ∈ nodes) :
    ∃ saved, pushFrame s.saved s.cur = some saved ∧ pc' = callTarget pc offset ∧ s'.saved = saved ∧
      s'.cur.stack = .empty ∧ s'.cur.retPc = pc + 1 ∧ s'.refs = s.refs ∧ s'.refsCnt = s.refsCnt ∧
      ∀ r, s'.reg r = if 1 ≤ r ∧ r ≤ 9 then s.reg r else if r = 10 then .ptrToStack 0 0 else .uninit := by
  unfold callSub failure at h
  split at h
  · cases h
  · rename_i saved hpush
    cases h
    obtain ⟨rfl, rfl⟩ := Prod.mk.inj (List.mem_singleton.mp hmem)
    exact ⟨saved, hpush, rfl, rfl, rfl, rfl, rfl, rfl, fun _ => rfl⟩

theorem exitStep_ok (h : exitStep s pc = .ok nodes) :
    (s.reg 0).isScalar = true ∧ s.refsCnt = 0 ∧ ((callerExists s.saved = false ∧ nodes = []) ∨
      (callerExists s.saved = true ∧ exitCallee s pc = .ok nodes)) := by
  unfold exitStep at h
  obtain ⟨_, h0, h⟩ := bind_eq_ok.mp h
  obtain ⟨_, h1, h⟩ := bind_eq_ok.mp h
  obtain ⟨_, h2, h⟩ := bind_eq_ok.mp h
  have hne := require_ok h0
  have hptr := require_ok h1
  refine ⟨?_, require_ok h2, ?_⟩
  · revert hne hptr
    cases s.reg 0 <;> simp [SpecValue.isPointer, SpecValue.isScalar]
  · split at h
    · rename_i hc
      exact .inr ⟨hc, h⟩
    · rename_i hc
      exact .inl ⟨by simpa using hc, (Except.ok.inj h).symm⟩

theorem exitCallee_ok (h : exitCallee s pc = .ok nodes) (hmem : (pc', s') ∈ nodes) :
    ∃ caller saved, popFrame s.saved = some (caller, saved) ∧ pc' = s.cur.retPc ∧
      s' = { s with cur := { caller with regs := restoredRegs caller (s.reg 0) }, saved } := by
  unfold exitCallee failure at h
  split at h
  · cases h
    cases hmem
  · rename_i caller saved hpop
    split at h
    · cases h
    · cases h
      obtain ⟨rfl, rfl⟩ := Prod.mk.inj (List.mem_singleton.mp hmem)
      exact ⟨caller, saved, hpop, rfl, rfl⟩

/-- Only calls and exits change the saved frames and the return address. -/
theorem Did.saved {sh : Shape} (h : Did env c pc s sh pc' s' c') (hcall : ∀ offset, sh ≠ .callSub offset)
    (hexit : sh ≠ .exit) : s'.saved = s.saved ∧ s'.cur.retPc = s.cur.retPc := by
  cases h with
  | set | mov _ | mov32 _ | packet _ | load _ | jump => exact ⟨rfl, rfl⟩
  | alu64 h =>
    rename_i high _
    obtain ⟨-, -, v, -, rfl⟩ := alu64_ok h
    unfold mulHigh
    split <;> exact ⟨rfl, rfl⟩
  | alu32 h =>
    obtain ⟨-, -, lo, hi, rfl⟩ := alu32_ok h
    exact ⟨rfl, rfl⟩
  | store h =>
    rcases store_ok h with ⟨lo, hi, stack, -, -, rfl⟩ | ⟨-, rfl⟩ | ⟨-, rfl⟩ <;> exact ⟨rfl, rfl⟩
  | atomic h =>
    obtain ⟨-, ⟨lo, hi, -, -, rfl⟩ | ⟨-, rfl⟩⟩ := atomic_ok h
    all_goals
      unfold atomicResult
      split
      · exact ⟨rfl, rfl⟩
      · split <;> exact ⟨rfl, rfl⟩
  | test h hmem =>
    obtain ⟨rfl, -⟩ := testBranch_ok h hmem
    exact ⟨rfl, rfl⟩
  | branch h hmem =>
    obtain ⟨href, -⟩ := branch_ok h hmem
    cases href with
    | memNull _ =>
      obtain ⟨hcur, hsaved⟩ := memNull_cur (s := s)
      exact ⟨hsaved, by rw [hcur]; rfl⟩
    | _ => exact ⟨rfl, rfl⟩
  | helper h =>
    obtain ⟨proto, s₁, s₂, s₃, -, -, hbuf, hrel, hres, rfl⟩ := helperCall_ok h
    obtain ⟨-, hret, hsaved, -⟩ := writeBuffers_ok hbuf
    obtain ⟨hcur₂, hsaved₂⟩ := releaseArg_cur hrel
    obtain ⟨v, hcur₃, hsaved₃⟩ := setResult_cur hres
    refine ⟨?_, ?_⟩
    · show s₃.saved = s.saved
      rw [hsaved₃, hsaved₂, hsaved]
    · show s₃.cur.retPc = s.cur.retPc
      rw [hcur₃]
      show s₂.cur.retPc = s.cur.retPc
      rw [hcur₂, hret]
  | callSub => exact absurd rfl (hcall _)
  | exit => exact absurd rfl hexit

end Steps

end RandVerifier.Spec
