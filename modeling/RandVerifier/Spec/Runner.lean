/-
  RandVerifier.Spec.Runner — the instruction step and the exploration of the safety-spec verifier
  (`src/spec/runner.rs`).

  A step yields the successors in the order in which they are pushed and the next value of
  the id counter, or fails with the verdict of the whole run. The run pops a last-in-first-out
  worklist: an item that was visited before is an infinite loop at a loop head and is
  dropped elsewhere.
-/

import RandVerifier.Branch
import RandVerifier.Liveness
import RandVerifier.Spec.Helper

namespace RandVerifier.Spec

inductive MapType where
  | array
  | ringbuf
  deriving DecidableEq, Repr

structure MapInfo where
  mapType : MapType
  keySize : Nat
  valueSize : Nat
  deriving DecidableEq, Repr

/-- What a run is given: the program, the maps by file descriptor, and the program type. -/
structure Env where
  program : List BpfInsn
  maps : Nat → Option MapInfo
  progType : ProgType

/-- A point of the exploration. -/
abbrev Node := Nat × SpecState

/-! ## ALU -/

/-- The right-hand side of an ALU operation. -/
inductive Rhs where
  | imm (v : Int32)
  | reg (r : Reg)
  deriving DecidableEq, Repr

/-- The arithmetic-time bound of a pointer addend. -/
def bpfMaxVarOff : Int := 2 ^ 29

/-- The signed interval of an addend, inside the bound. -/
def saneAddend (pc : Nat) (a : Range) : Check (Int × Int) :=
  match asSigned a with
  | none => failure pc "register with unbounded min value is not allowed as an addend"
  | some (slo, shi) =>
    if slo.toInt ≤ -bpfMaxVarOff ∨ bpfMaxVarOff ≤ shi.toInt then
      failure pc s!"value {slo.toInt}..{shi.toInt} makes pointer be out of bounds"
    else .ok (slo.toInt, shi.toInt)

/-- `ptr_add`: a pointer moved by a scalar interval. -/
def ptrAdd (pc : Nat) (ptr : SpecValue) (a : Range) : Check SpecValue := do
  let (slo, shi) ← saneAddend pc a
  match ptr with
  | .ptrToStack lo hi => .ok (.ptrToStack (clampI64 (lo + slo)) (clampI64 (hi + shi)))
  | .ptrToMapValue lo hi size => .ok (.ptrToMapValue (clampI64 (lo + slo)) (clampI64 (hi + shi)) size)
  | .ptrToCtx off =>
    if slo = shi then .ok (.ptrToCtx (clampI64 (off + slo)))
    else failure pc "arithmetic on a context pointer with a variable addend is not allowed"
  | other => failure pc s!"arithmetic on {other.debug} is not allowed"

/-- `scalar_plus_pointer`: the pointer of the source register, moved by the scalar. -/
def scalarPlusPointer (pc : Nat) (ptr : SpecValue) (a : Range) : Check SpecValue := do
  let (slo, shi) ← saneAddend pc a
  match ptr with
  | .ptrToStack lo hi => .ok (.ptrToStack (clampI64 (lo + slo)) (clampI64 (hi + shi)))
  | .ptrToMapValue lo hi size => .ok (.ptrToMapValue (clampI64 (lo + slo)) (clampI64 (hi + shi)) size)
  | other => failure pc s!"scalar += pointer on {other.debug} is not tracked by the spec"

/-- A pointer destination: only additions and subtractions of a scalar. -/
def ptrAlu (pc : Nat) (op : AluOp) (d r : SpecValue) : Check SpecValue :=
  match op, r.asScalar with
  | .add, some a => ptrAdd pc d a
  | .sub, some _ =>
    if d = .ptrToStack 0 0 then failure pc "subtraction from stack pointer is not allowed"
    else ptrAdd pc d ((negateScalar r).asScalar.getD full)
  | .sub, none => failure pc "math between two pointers is not allowed (SUB)"
  | _, _ => failure pc "arithmetic on a pointer with a non-ADD operation is not allowed"

/-- The operand of an ALU operation. -/
def rhsValue (s : SpecState) (pc : Nat) (text : String) : Rhs → Check SpecValue
  | .imm v => .ok (.constScalar (immWord v))
  | .reg r =>
    if s.reg r = .uninit then failure pc s!"register r{r} is uninitialized ({text})" else .ok (s.reg r)

/-- The result of `alu64` on two written operands. -/
def alu64Value (pc : Nat) (op : AluOp) (d r : SpecValue) : Check SpecValue :=
  match d.asScalar, r.asScalar with
  | some rd, some rs => .ok (.ofRange (aluRange op rd rs))
  | none, _ => ptrAlu pc op d r
  | some rd, none =>
    if op = .add then scalarPlusPointer pc r rd
    else failure pc "arithmetic between a scalar and a pointer is not allowed"

def alu64 (s : SpecState) (pc : Nat) (dst : Reg) (op : AluOp) (rhs : Rhs) : Check SpecState := do
  require (s.reg dst ≠ .uninit) pc s!"register r{dst} is uninitialized (ALU)"
  let r ← rhsValue s pc "ALU" rhs
  let out ← alu64Value pc op (s.reg dst) r
  .ok (s.setReg dst out)

/-- Fold a 64-bit interval of 32-bit operands back; only sums and differences are folded. -/
def foldRange32 (op : AluOp) (out : Range) : Range :=
  if out.2 ≤ 0xffffffff then out
  else if op = .add ∨ op = .sub then
    if out.1 = out.2 then (truncate32 out.1, truncate32 out.1) else (0, 0xffffffff)
  else out

/-- The result of `alu32` on two written operands. -/
def alu32Value (pc : Nat) (op : AluOp) (d r : SpecValue) : Check SpecValue :=
  match d.asScalar, r.asScalar with
  | some rd, some rs => .ok (.ofRange (foldRange32 op (aluRange op (range32 rd) (range32 rs))))
  | _, _ => failure pc "32-bit arithmetic on a pointer is not allowed"

def alu32 (s : SpecState) (pc : Nat) (dst : Reg) (op : AluOp) (rhs : Rhs) : Check SpecState := do
  require (s.reg dst ≠ .uninit) pc s!"register r{dst} is uninitialized (ALU32)"
  require ((s.reg dst).isPointer = false) pc "32-bit arithmetic on a pointer is not allowed"
  let r ← rhsValue s pc "ALU32" rhs
  let out ← alu32Value pc op (s.reg dst) r
  .ok (s.setReg dst out)

/-- The high half of a product is not tracked. -/
def mulHigh (s : SpecState) (dst : Reg) (high : MulHigh) : SpecState :=
  if high = .low then s else s.setReg dst .unknownScalar

/-! ## Branches -/

/-- `emit_refined`: one successor for each interval that remains. -/
def emitRefined (s : SpecState) (dst : Reg) (refined : List Range × List Range) (target fall : Nat) :
    List Node :=
  refined.1.map (fun r => (target, s.setReg dst (.ofRange r))) ++
    refined.2.map (fun r => (fall, s.setReg dst (.ofRange r)))

/-- Rewrite every register of the current frame. -/
def SpecState.mapRegs (s : SpecState) (f : SpecValue → SpecValue) : SpecState :=
  { s with cur := { s.cur with regs := fun r => f (s.cur.regs r) } }

/-- The lookups with an id, replaced. -/
def refineLookup (id : Nat) (v : SpecValue) : SpecValue → SpecValue
  | .ptrToMapValueOrNull size rid => if rid = id then v else .ptrToMapValueOrNull size rid
  | other => other

/-- The NULL side of a check of an acquired buffer; only `dst` is refined. -/
def memNull (s : SpecState) (dst : Reg) (id : Nat) : SpecState :=
  let checked := s.setReg dst (.constScalar 0)
  (checked.releaseRef id).getD checked

/-- The successors of a NULL check: the taken side first. -/
def nullSides (pc target : Nat) (cmp : Cmp) (null valid : SpecState) (message : String) :
    Check (List Node) :=
  match cmp with
  | .eq => .ok [(target, null), (pc + 1, valid)]
  | .ne => .ok [(target, valid), (pc + 1, null)]
  | _ => failure pc message

def isFrameOrCtx : SpecValue → Bool
  | .ptrToStack .. | .ptrToCtx .. => true
  | _ => false

/-- A comparison that is not a NULL check: stack and context pointers are taken for equal, a
    pointer against a scalar stays open. -/
def pointerCompare (s : SpecState) (pc target : Nat) (d : SpecValue) (cmp : Cmp) (src : SpecValue) :
    Check (List Node) :=
  if isFrameOrCtx d ∧ isFrameOrCtx src then
    match cmp with
    | .eq => .ok [(target, s)]
    | .ne => .ok [(pc + 1, s)]
    | _ => failure pc "ordering comparison of pointers is not allowed"
  else if (d.isPointer ∧ src.isScalar) ∨ (d.isScalar ∧ src.isPointer) then
    .ok [(target, s), (pc + 1, s)]
  else failure pc "comparing different pointer kinds is not allowed"

def pointerBranch (s : SpecState) (pc target : Nat) (dst : Reg) (cmp : Cmp) (src : SpecValue) :
    Check (List Node) :=
  match s.reg dst, decide (src = .constScalar 0) with
  | .ptrToMapValueOrNull size id, true =>
    nullSides pc target cmp (s.mapRegs (refineLookup id (.constScalar 0)))
      (s.mapRegs (refineLookup id (.ptrToMapValue 0 0 size)))
      "ordering comparison on a nullable pointer is not allowed"
  | .ptrToMemOrNull size id, true =>
    nullSides pc target cmp (memNull s dst id) (s.setReg dst (.ptrToMem 0 0 size id))
      "ordering comparison on a nullable mem pointer is not allowed"
  | d, _ => pointerCompare s pc target d cmp src

/-- Two scalars, or one that was never written. -/
def scalarBranch (s : SpecState) (pc target : Nat) (dst : Reg) (cmp : Cmp) (src : SpecValue)
    (sameReg : Bool) (refine : Range → Range → Cmp → List Range × List Range) (text : String) :
    Check (List Node) :=
  match (s.reg dst).asScalar with
  | none => failure pc s!"{text} on an uninitialized register"
  | some d =>
    if sameReg then .ok (emitRefined s dst (selfCompareRefine cmp) target (pc + 1))
    else match src.asScalar with
      | none => failure pc s!"{text} against an uninitialized register"
      | some r => .ok (emitRefined s dst (refine d r cmp) target (pc + 1))

def branch (s : SpecState) (pc : Nat) (dst : Reg) (cmp : Cmp) (src : SpecValue) (offset : Int16)
    (sameReg : Bool) : Check (List Node) :=
  if (s.reg dst).isPointer ∨ src.isPointer then pointerBranch s pc (branchTarget pc offset) dst cmp src
  else scalarBranch s pc (branchTarget pc offset) dst cmp src sameReg unsignedCmpRefine "comparison"

def branchSigned (s : SpecState) (pc : Nat) (dst : Reg) (cmp : Cmp) (src : SpecValue) (offset : Int16)
    (sameReg : Bool) : Check (List Node) :=
  if (s.reg dst).isPointer ∨ src.isPointer then
    failure pc "signed comparison on pointers is not allowed"
  else scalarBranch s pc (branchTarget pc offset) dst cmp src sameReg signedCmpRefine "signed comparison"

/-- Decided statically on constants, else open on both sides without refinement. -/
def testBranch (s : SpecState) (pc : Nat) (offset : Int16) (d r : SpecValue)
    (test : UInt64 → UInt64 → Bool) (message : String) : Check (List Node) :=
  if d = .uninit ∨ r = .uninit then failure pc message
  else match d.const?, r.const? with
    | some a, some b => .ok [(if test a b then branchTarget pc offset else pc + 1, s)]
    | _, _ => .ok [(branchTarget pc offset, s), (pc + 1, s)]

def jsetTest (d s : UInt64) : Bool := d &&& s != 0

/-- `Jmp32Op` on the low halves. -/
def jmp32Test (op : Jmp32Op) (d s : UInt64) : Bool :=
  let d := d.toUInt32
  let s := s.toUInt32
  match op with
  | .eq => d == s
  | .ne => d != s
  | .gt => s < d
  | .ge => s ≤ d
  | .lt => d < s
  | .le => d ≤ s
  | .sgt => s.toInt32 < d.toInt32
  | .sge => s.toInt32 ≤ d.toInt32
  | .slt => d.toInt32 < s.toInt32
  | .sle => d.toInt32 ≤ s.toInt32

/-- The operand of a 32-bit jump: a register before an immediate. -/
def jmp32Src (s : SpecState) : Option Reg → Option Int32 → SpecValue
  | some src, _ => s.reg src
  | none, some imm => .constScalar imm.toUInt32.toUInt64
  | none, none => .uninit

/-! ## Calls and exits -/

/-- A call of a subprogram: the callee receives R1..R5 and R6..R9. -/
def callSub (s : SpecState) (pc : Nat) (offset : Int32) : Check (List Node) :=
  match pushFrame s.saved s.cur with
  | none => failure pc "call depth exceeded (max call frames)"
  | some saved =>
    let callee := { SpecFrame.callee with
      regs := fun r => if 1 ≤ r ∧ r ≤ 9 then s.reg r else SpecFrame.callee.regs r
      retPc := pc + 1 }
    .ok [(callTarget pc offset, { s with cur := callee, saved })]

/-- The caller's registers after the return. -/
def restoredRegs (caller : SpecFrame) (ret : SpecValue) (r : Reg) : SpecValue :=
  if r = 0 then ret else if 1 ≤ r ∧ r ≤ 5 then .uninit else caller.regs r

/-- The exit of a callee. -/
def exitCallee (s : SpecState) (pc : Nat) : Check (List Node) :=
  match popFrame s.saved with
  | none => .ok []
  | some (caller, saved) =>
    match s.reg 0 with
    | .ptrToStack .. => failure pc "cannot return stack pointer to the caller"
    | ret => .ok [(s.cur.retPc, { s with cur := { caller with regs := restoredRegs caller ret }, saved })]

/-- An exit: R0 is a scalar and every reference was released. -/
def exitStep (s : SpecState) (pc : Nat) : Check (List Node) := do
  require (s.reg 0 ≠ .uninit) pc "R0 is uninitialized at exit"
  require ((s.reg 0).isPointer = false) pc "R0 is not a scalar value at exit"
  require (s.refsCnt = 0) pc s!"unreleased reference id={s.refs 0} at exit"
  if callerExists s.saved then exitCallee s pc else .ok []

/-! ## The step -/

/-- One successor. -/
def goTo (pc : Nat) (c : Check SpecState) : Check (List Node) := do
  let s ← c
  .ok [(pc, s)]

def mov32Value (pc : Nat) (src : Reg) : SpecValue → Check SpecValue
  | .uninit => failure pc s!"register r{src} is uninitialized (read by mov)"
  | .scalar lo hi => .ok (.scalar (truncate32 lo) (min hi 0xffffffff))
  | other => failure pc s!"32-bit mov from a non-scalar {other.debug}"

/-- The legacy packet loads. -/
def packetLoad (prog : ProgType) (s : SpecState) (pc : Nat) (src : Option Reg) : Check SpecState := do
  require (prog.ctxModel.isSome ∧ prog.packetAccessAllowed) pc
    "BPF_LD ABS/IND is not allowed for this program type"
  match src with
  | some r =>
    if s.reg r = .uninit then failure pc s!"register r{r} is uninitialized (read by ldind)"
    else .ok (s.setReg 0 .unknownScalar)
  | none => .ok (s.setReg 0 .unknownScalar)

/-- The map object of a file descriptor; an unknown map has sizes 0. -/
def mapPointer : Option MapInfo → SpecValue
  | some info => .ptrToMap info.keySize info.valueSize (if info.mapType = .ringbuf then 1 else 0)
  | none => .ptrToMap 0 0 0

/-- The instructions that do not touch the id counter. -/
def stepPlain (env : Env) (pc : Nat) (s : SpecState) : BpfInsn → Check (List Node)
  | .movImm dst imm => .ok [(pc + 1, s.setReg dst (.constScalar (immWord imm)))]
  | .movReg dst src =>
    if s.reg src = .uninit then failure pc s!"register r{src} is uninitialized (read by mov)"
    else .ok [(pc + 1, s.setReg dst (s.reg src))]
  | .mov32Imm dst imm => .ok [(pc + 1, s.setReg dst (.constScalar imm.toUInt32.toUInt64))]
  | .mov32Reg dst src => goTo (pc + 1) ((mov32Value pc src (s.reg src)).map (s.setReg dst))
  | .ldAbs _ _ => goTo (pc + 1) (packetLoad env.progType s pc none)
  | .ldInd src _ _ => goTo (pc + 1) (packetLoad env.progType s pc (some src))
  | .addImm dst imm => goTo (pc + 1) (alu64 s pc dst .add (.imm imm))
  | .addReg dst src => goTo (pc + 1) (alu64 s pc dst .add (.reg src))
  | .subImm dst imm => goTo (pc + 1) (alu64 s pc dst .sub (.imm imm))
  | .subReg dst src => goTo (pc + 1) (alu64 s pc dst .sub (.reg src))
  | .andImm dst imm => goTo (pc + 1) (alu64 s pc dst .and (.imm imm))
  | .andReg dst src => goTo (pc + 1) (alu64 s pc dst .and (.reg src))
  | .orImm dst imm => goTo (pc + 1) (alu64 s pc dst .or (.imm imm))
  | .orReg dst src => goTo (pc + 1) (alu64 s pc dst .or (.reg src))
  | .xorImm dst imm => goTo (pc + 1) (alu64 s pc dst .xor (.imm imm))
  | .xorReg dst src => goTo (pc + 1) (alu64 s pc dst .xor (.reg src))
  | .lshImm dst imm => goTo (pc + 1) (alu64 s pc dst .lsh (.imm imm))
  | .lshReg dst src => goTo (pc + 1) (alu64 s pc dst .lsh (.reg src))
  | .rshImm dst imm => goTo (pc + 1) (alu64 s pc dst .rsh (.imm imm))
  | .rshReg dst src => goTo (pc + 1) (alu64 s pc dst .rsh (.reg src))
  | .arshImm dst imm => goTo (pc + 1) (alu64 s pc dst .arsh (.imm imm))
  | .arshReg dst src => goTo (pc + 1) (alu64 s pc dst .arsh (.reg src))
  | .add32Imm dst imm => goTo (pc + 1) (alu32 s pc dst .add (.imm imm))
  | .add32Reg dst src => goTo (pc + 1) (alu32 s pc dst .add (.reg src))
  | .sub32Imm dst imm => goTo (pc + 1) (alu32 s pc dst .sub (.imm imm))
  | .sub32Reg dst src => goTo (pc + 1) (alu32 s pc dst .sub (.reg src))
  | .and32Imm dst imm => goTo (pc + 1) (alu32 s pc dst .and (.imm imm))
  | .and32Reg dst src => goTo (pc + 1) (alu32 s pc dst .and (.reg src))
  | .or32Imm dst imm => goTo (pc + 1) (alu32 s pc dst .or (.imm imm))
  | .or32Reg dst src => goTo (pc + 1) (alu32 s pc dst .or (.reg src))
  | .xor32Imm dst imm => goTo (pc + 1) (alu32 s pc dst .xor (.imm imm))
  | .xor32Reg dst src => goTo (pc + 1) (alu32 s pc dst .xor (.reg src))
  | .lsh32Imm dst imm => goTo (pc + 1) (alu32 s pc dst .lsh (.imm imm))
  | .lsh32Reg dst src => goTo (pc + 1) (alu32 s pc dst .lsh (.reg src))
  | .rsh32Imm dst imm => goTo (pc + 1) (alu32 s pc dst .rsh (.imm imm))
  | .rsh32Reg dst src => goTo (pc + 1) (alu32 s pc dst .rsh (.reg src))
  | .arsh32Imm dst imm => goTo (pc + 1) (alu32 s pc dst .arsh (.imm imm))
  | .arsh32Reg dst src => goTo (pc + 1) (alu32 s pc dst .arsh (.reg src))
  | .mulImm dst imm high => goTo (pc + 1) ((alu64 s pc dst .mul (.imm imm)).map (mulHigh · dst high))
  | .mulReg dst src high => goTo (pc + 1) ((alu64 s pc dst .mul (.reg src)).map (mulHigh · dst high))
  | .divImm dst imm => goTo (pc + 1) (alu64 s pc dst .div (.imm imm))
  | .divReg dst src => goTo (pc + 1) (alu64 s pc dst .div (.reg src))
  | .modImm dst imm => goTo (pc + 1) (alu64 s pc dst .mod (.imm imm))
  | .modReg dst src => goTo (pc + 1) (alu64 s pc dst .mod (.reg src))
  | .neg dst => goTo (pc + 1) (alu64 s pc dst .neg (.imm 0))
  | .mul32Imm dst imm => goTo (pc + 1) (alu32 s pc dst .mul (.imm imm))
  | .mul32Reg dst src => goTo (pc + 1) (alu32 s pc dst .mul (.reg src))
  | .div32Imm dst imm => goTo (pc + 1) (alu32 s pc dst .div (.imm imm))
  | .div32Reg dst src => goTo (pc + 1) (alu32 s pc dst .div (.reg src))
  | .mod32Imm dst imm => goTo (pc + 1) (alu32 s pc dst .mod (.imm imm))
  | .mod32Reg dst src => goTo (pc + 1) (alu32 s pc dst .mod (.reg src))
  | .neg32 dst => goTo (pc + 1) (alu32 s pc dst .neg (.imm 0))
  | .ldMem dst base offset size signExtend =>
    goTo (pc + 1) ((load env.progType s pc base offset.toInt size signExtend).map (s.setReg dst))
  | .stMem src base offset size => goTo (pc + 1) (store s pc base offset.toInt size (s.reg src))
  | .stMemImm imm base offset size =>
    goTo (pc + 1) (store s pc base offset.toInt size (.constScalar (immWord imm)))
  | .ldImm64 dst imm => .ok [(pc + 2, s.setReg dst (.constScalar imm))]
  | .ldMapFd dst fd _ _ _ => .ok [(pc + 2, s.setReg dst (mapPointer (env.maps fd)))]
  | .ldMapValue dst fd offset _ _ =>
    .ok [(pc + 2, s.setReg dst (.ptrToMapValue offset offset (((env.maps fd).map (·.valueSize)).getD 0)))]
  | .ldImm64Second _ => failure pc "jump into the middle of ldimm64 insn"
  | .jmp offset => .ok [(branchTarget pc offset, s)]
  | .atomic dst src offset size op fetch =>
    goTo (pc + 1) (atomic s pc dst src offset.toInt size op fetch)
  | .jset dst src offset =>
    testBranch s pc offset (s.reg dst) (s.reg src) jsetTest "uninitialized register read by jset"
  | .jsetImm dst imm offset =>
    testBranch s pc offset (s.reg dst) (.constScalar (immWord imm)) jsetTest
      "uninitialized register read by jset"
  | .jmp32 dst src imm offset op =>
    testBranch s pc offset (s.reg dst) (jmp32Src s src imm) (jmp32Test op)
      "uninitialized register read by a 32-bit jump"
  | .jeq dst src offset => branch s pc dst .eq (s.reg src) offset (dst = src)
  | .jne dst src offset => branch s pc dst .ne (s.reg src) offset (dst = src)
  | .jgt dst src offset => branch s pc dst .gt (s.reg src) offset (dst = src)
  | .jge dst src offset => branch s pc dst .ge (s.reg src) offset (dst = src)
  | .jlt dst src offset => branch s pc dst .lt (s.reg src) offset (dst = src)
  | .jle dst src offset => branch s pc dst .le (s.reg src) offset (dst = src)
  | .jsgt dst src offset => branchSigned s pc dst .gt (s.reg src) offset (dst = src)
  | .jsge dst src offset => branchSigned s pc dst .ge (s.reg src) offset (dst = src)
  | .jslt dst src offset => branchSigned s pc dst .lt (s.reg src) offset (dst = src)
  | .jsle dst src offset => branchSigned s pc dst .le (s.reg src) offset (dst = src)
  | .jeqImm dst imm offset => branch s pc dst .eq (.constScalar (immWord imm)) offset false
  | .jneImm dst imm offset => branch s pc dst .ne (.constScalar (immWord imm)) offset false
  | .jgtImm dst imm offset => branch s pc dst .gt (.constScalar (immWord imm)) offset false
  | .jgeImm dst imm offset => branch s pc dst .ge (.constScalar (immWord imm)) offset false
  | .jltImm dst imm offset => branch s pc dst .lt (.constScalar (immWord imm)) offset false
  | .jleImm dst imm offset => branch s pc dst .le (.constScalar (immWord imm)) offset false
  | .jsgtImm dst imm offset => branchSigned s pc dst .gt (.constScalar (immWord imm)) offset false
  | .jsgeImm dst imm offset => branchSigned s pc dst .ge (.constScalar (immWord imm)) offset false
  | .jsltImm dst imm offset => branchSigned s pc dst .lt (.constScalar (immWord imm)) offset false
  | .jsleImm dst imm offset => branchSigned s pc dst .le (.constScalar (immWord imm)) offset false
  | .callSub offset => callSub s pc offset
  | .callKfunc btfId => failure pc s!"calling kernel function (btf id {btfId}) is not allowed"
  | .exit => exitStep s pc
  | .call _ => .ok []

/-- One instruction: the successors as they are pushed, and the id counter. -/
def step (env : Env) (nextId pc : Nat) (s : SpecState) (insn : BpfInsn) : Check (List Node × Nat) :=
  match insn with
  | .call imm => (helperCall s pc nextId imm).map fun p => ([(pc + 1, p.1)], p.2)
  | insn => (stepPlain env pc s insn).map fun nodes => (nodes, nextId)

/-! ## The run -/

/-- The target of a jump that `compute_loop_heads` looks at. -/
def jumpTarget (pc : Nat) : BpfInsn → Option Nat
  | .jmp offset
  | .jeq _ _ offset | .jne _ _ offset | .jgt _ _ offset | .jge _ _ offset | .jlt _ _ offset
  | .jle _ _ offset | .jsgt _ _ offset | .jsge _ _ offset | .jslt _ _ offset | .jsle _ _ offset
  | .jeqImm _ _ offset | .jneImm _ _ offset | .jgtImm _ _ offset | .jgeImm _ _ offset
  | .jltImm _ _ offset | .jleImm _ _ offset | .jsgtImm _ _ offset | .jsgeImm _ _ offset
  | .jsltImm _ _ offset | .jsleImm _ _ offset => some (branchTarget pc offset)
  | _ => none

/-- `compute_loop_heads`: the targets of the backward jumps. -/
def isLoopHead (program : List BpfInsn) (pc : Nat) : Bool :=
  program.zipIdx.any fun (insn, i) => (jumpTarget i insn).any fun target => target = pc ∧ target ≤ i

structure SpecLimits where
  maxStates : Nat
  maxSteps : Nat

def SpecLimits.default : SpecLimits := ⟨8192, 200000⟩

/-- The runner between two pops: the worklist with the next item first, the visited nodes,
    and the id counter. -/
structure Runner where
  worklist : List Node
  visited : List Node
  nextId : Nat

namespace Runner

/-- One item, popped with the budgets left: a verdict, or the runner that goes on. -/
def visit (env : Env) (r : Runner) (pc : Nat) (s : SpecState) (rest : List Node) : Check Runner :=
  match env.program[pc]? with
  | none => failure pc "pc out of program range"
  | some insn =>
    if (pc, s) ∈ r.visited then
      if isLoopHead env.program pc then failure pc "infinite loop detected"
      else .ok { r with worklist := rest }
    else do
      let (nodes, nextId) ← step env r.nextId pc s insn
      .ok ⟨nodes.reverse ++ rest, (pc, s) :: r.visited, nextId⟩

/-- Pop until the worklist is empty; `steps` is what `max_steps` leaves. -/
def run (env : Env) (maxStates : Nat) : Nat → Runner → SpecVerdict
  | steps, r =>
    match r.worklist with
    | [] => .accept
    | (pc, s) :: rest =>
      match steps with
      | 0 => .reject pc "spec exploration budget exceeded (max_steps)"
      | steps + 1 =>
        if maxStates < r.visited.length then
          .reject pc "spec state budget exceeded (max_states — the program may not converge)"
        else match r.visit env pc s rest with
          | .error v => v.val
          | .ok r' => run env maxStates steps r'

end Runner

/-- The first id is one above this. -/
def firstRefId : Nat := 0x40000000

def Runner.initial : Runner := ⟨[(0, .initial)], [], firstRefId⟩

def verifySpecLimited (env : Env) (limits : SpecLimits) : SpecVerdict :=
  Runner.initial.run env limits.maxStates limits.maxSteps

/-- `verify_spec_with`. -/
def verifySpecWith (env : Env) : SpecVerdict := verifySpecLimited env .default

end RandVerifier.Spec
