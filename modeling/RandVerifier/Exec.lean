/-
  RandVerifier.Exec — symbolic execution of one instruction (`step` and `successors` of
  `src/exec.rs`).
-/

import RandVerifier.Branch

namespace RandVerifier

/-! ## Moves and loads -/

/-- A register move: a non-constant scalar without a link id gets one first, derived from
    the program counter, and both registers carry it. -/
def movReg (pc : Nat) (st : VerifierState) (dst src : Reg) : Exec VerifierState := do
  let srcState ← readReg pc st src
  match srcState with
  | .scalar b =>
    if b.id = 0 ∧ b.isConstant = false then
      let linked := RegState.scalar { b with id := pc + 1 }
      .ok ((st.setReg src linked).setReg dst linked)
    else .ok (st.setReg dst srcState)
  | _ => .ok (st.setReg dst srcState)

/-- The low 32 bits move, the upper half is cleared. -/
def mov32Reg (pc : Nat) (st : VerifierState) (dst src : Reg) : Exec VerifierState := do
  let s ← readScalar pc st src
  let bounds : ScalarBounds :=
    if s.isConstant then .fromSigned 0 (s.umax &&& 0xffffffff).toInt64 else .fromSigned 0 0xffffffff
  .ok (st.setReg dst (.scalar bounds))

/-- The preconditions of the legacy packet loads. -/
def checkLegacyPacketLoad (pc : Nat) (st : VerifierState) : Exec Unit := do
  failIf (st.progType.packetAccessAllowed = false) pc
    "BPF_LD_[ABS|IND] instructions not allowed for this program type"
  failIf ((st.regs 6).isPtrToCtx = false) pc "at the time of BPF_LD_ABS|IND R6 != pointer to skb"

/-- A packet load clobbers R1..R5 and yields a scalar of the access width. -/
def packetLoad (st : VerifierState) (size : MemSize) : VerifierState :=
  st.clobberArgs.setReg 0 (.scalar (scalarForWidth size.bytes false))

/-- The value of a load: context fields by the table, everything else from memory. -/
def loadValue (pc : Nat) (st : VerifierState) (base : Reg) (offset : Int16) (size : MemSize)
    (signExtend : Bool) : Exec RegState :=
  match st.regs base with
  | .ptrToCtx baseOff => ctxRead pc st.progType (clampI32 (baseOff + offset.toInt)) size signExtend
  | _ => stackRead pc base st offset size signExtend

def ldMem (pc : Nat) (st : VerifierState) (dst base : Reg) (offset : Int16) (size : MemSize)
    (signExtend : Bool) : Exec VerifierState := do
  let loaded ← loadValue pc st base offset size signExtend
  .ok (st.setReg dst loaded)

/-- `BPF_PSEUDO_MAP_VALUE`: a pointer into the map value at a fixed offset. -/
def mapValueAt (offset valueSize : Nat) : RegState :=
  .ptrToMapValue (wrapI32 offset) (wrapI32 offset) (offset % 8) valueSize 0

/-! ## Atomics -/

/-- The fetched old value lands in R0 (cmpxchg) or in the source register. -/
def storeOld (st : VerifierState) (src : Reg) (op : AtomicOp) (fetch : Bool) (old : RegState) :
    VerifierState :=
  if op = .cmpxchg then st.setReg 0 old else if fetch then st.setReg src old else st

def misalignedAtomic (dst : Reg) (offset : Int16) (size : MemSize) : String :=
  s!"misaligned atomic access at r{dst}{signedText offset.toInt} (size {size.bytes})"

/-- An atomic on a stack slot of the current frame: the slot becomes unknown. -/
def atomicStack (pc : Nat) (st : VerifierState) (dst src : Reg) (offset : Int16) (size : MemSize)
    (op : AtomicOp) (fetch : Bool) (minOffset maxOffset : Int) (alignOff frameno : Nat) :
    Exec VerifierState := do
  let lo := minOffset + offset.toInt
  let hi := maxOffset + offset.toInt + size.bytes
  failIf ((alignOff + offset.toInt) % size.bytes ≠ 0 ∨ lo % size.bytes ≠ 0) pc
    (misalignedAtomic dst offset size)
  failIf (lo < -512 ∨ 0 < hi) pc s!"invalid atomic access at r{dst}{signedText offset.toInt}"
  let old ← stackRead pc dst st offset size false
  failIf (frameno ≠ st.curframe) pc "atomic access to a caller frame is not modelled"
  let (first, last) := stackByteRange lo hi
  let stack := (st.stack.fill first last .misc).clearSpills first last
  -- a 32-bit atomic keeps the width of the old value only
  let oldValue : RegState :=
    if size.bytes = 8 then old else .scalar (scalarForWidth size.bytes false)
  .ok (storeOld { st with stack } src op fetch oldValue)

/-- The operand and, for cmpxchg, R0 must be scalars. -/
def checkAtomicOperands (pc : Nat) (st : VerifierState) (src : Reg) (op : AtomicOp) :
    Exec Unit := do
  let _ ← readScalar pc st src
  if op = .cmpxchg then do
    let _ ← readScalar pc st 0
    .ok ()
  else .ok ()

def atomic (pc : Nat) (st : VerifierState) (dst src : Reg) (offset : Int16) (size : MemSize)
    (op : AtomicOp) (fetch : Bool) : Exec VerifierState := do
  let baseState ← readReg pc st dst
  checkAtomicOperands pc st src op
  failIf (offset.toInt % size.bytes ≠ 0) pc (misalignedAtomic dst offset size)
  match baseState with
  | .ptrToStack minOffset maxOffset alignOff frameno =>
    atomicStack pc st dst src offset size op fetch minOffset maxOffset alignOff frameno
  | .ptrToMapValue minOffset maxOffset alignOff valueSize _ =>
    mapValueAccessCheck pc dst offset minOffset maxOffset alignOff valueSize
    .ok (storeOld st src op fetch (.scalar (scalarForWidth size.bytes false)))
  | _ => fail pc s!"BPF_ATOMIC stores into r{dst} ({baseState.debug}) is not allowed"

/-! ## One instruction -/

/-- Enter a subprogram, the failure reported at the call. -/
def callSubprogAt (pc : Nat) (st : VerifierState) : Exec VerifierState :=
  match st.callSubprog (pc + 1) with
  | .ok callee => .ok callee
  | .error msg => fail pc msg

/-- Execute an instruction with a single successor. -/
def step (pc : Nat) (st : VerifierState) : BpfInsn → Exec VerifierState
  | .movImm dst imm => .ok (st.setReg dst (.scalar (.constant imm.toInt64)))
  | .mov32Imm dst imm =>
    .ok (st.setReg dst (.scalar (.fromSigned 0 imm.toUInt32.toUInt64.toInt64)))
  | .mov32Reg dst src => mov32Reg pc st dst src
  | .ldAbs size _ => do
    checkLegacyPacketLoad pc st
    .ok (packetLoad st size)
  | .ldInd src size _ => do
    checkLegacyPacketLoad pc st
    let _ ← readScalar pc st src
    .ok (packetLoad st size)
  | .atomic dst src offset size op fetch => atomic pc st dst src offset size op fetch
  | .movReg dst src => movReg pc st dst src
  | .callSub _ => callSubprogAt pc st
  | .callKfunc btfId => kfuncCall pc btfId st
  -- exit and control flow are expanded by `successors`
  | .exit | .jmp .. | .jeq .. | .jne .. | .jgt .. | .jge .. | .jlt .. | .jle .. | .jsgt ..
  | .jsge .. | .jslt .. | .jsle .. | .jeqImm .. | .jneImm .. | .jgtImm .. | .jgeImm ..
  | .jltImm .. | .jleImm .. | .jsgtImm .. | .jsgeImm .. | .jsltImm .. | .jsleImm .. => .error .panic
  | .ldImm64 dst imm => .ok (st.setReg dst (.scalar (.constant imm.toInt64)))
  | .ldMapFd dst _ keySize valueSize mapType =>
    .ok (st.setReg dst (.ptrToMap keySize valueSize mapType))
  | .ldMapValue dst _ offset _ valueSize => .ok (st.setReg dst (mapValueAt offset valueSize))
  | .ldImm64Second _ => .ok st
  | .addImm dst imm => aluImm pc st dst imm .add .w64
  | .addReg dst src => aluReg pc st dst src .add .w64
  | .subImm dst imm => aluImm pc st dst imm .sub .w64
  | .subReg dst src => aluReg pc st dst src .sub .w64
  | .andImm dst imm => aluImm pc st dst imm .and .w64
  | .andReg dst src => aluReg pc st dst src .and .w64
  | .orImm dst imm => aluImm pc st dst imm .or .w64
  | .orReg dst src => aluReg pc st dst src .or .w64
  | .xorImm dst imm => aluImm pc st dst imm .xor .w64
  | .xorReg dst src => aluReg pc st dst src .xor .w64
  | .lshImm dst imm => aluImm pc st dst imm .lsh .w64
  | .lshReg dst src => aluReg pc st dst src .lsh .w64
  | .rshImm dst imm => aluImm pc st dst imm .rsh .w64
  | .rshReg dst src => aluReg pc st dst src .rsh .w64
  | .arshImm dst imm => aluImm pc st dst imm .arsh .w64
  | .arshReg dst src => aluReg pc st dst src .arsh .w64
  | .add32Imm dst imm => aluImm pc st dst imm .add .w32
  | .add32Reg dst src => aluReg pc st dst src .add .w32
  | .sub32Imm dst imm => aluImm pc st dst imm .sub .w32
  | .sub32Reg dst src => aluReg pc st dst src .sub .w32
  | .and32Imm dst imm => aluImm pc st dst imm .and .w32
  | .and32Reg dst src => aluReg pc st dst src .and .w32
  | .or32Imm dst imm => aluImm pc st dst imm .or .w32
  | .or32Reg dst src => aluReg pc st dst src .or .w32
  | .xor32Imm dst imm => aluImm pc st dst imm .xor .w32
  | .xor32Reg dst src => aluReg pc st dst src .xor .w32
  | .lsh32Imm dst imm => aluImm pc st dst imm .lsh .w32
  | .lsh32Reg dst src => aluReg pc st dst src .lsh .w32
  | .rsh32Imm dst imm => aluImm pc st dst imm .rsh .w32
  | .rsh32Reg dst src => aluReg pc st dst src .rsh .w32
  | .arsh32Imm dst imm => aluImm pc st dst imm .arsh .w32
  | .arsh32Reg dst src => aluReg pc st dst src .arsh .w32
  | .mulImm dst imm high => mulImm pc st dst imm high
  | .mulReg dst src high => mulReg pc st dst src high
  | .divImm dst imm => aluImm pc st dst imm .div .w64
  | .divReg dst src => aluReg pc st dst src .div .w64
  | .modImm dst imm => aluImm pc st dst imm .mod .w64
  | .modReg dst src => aluReg pc st dst src .mod .w64
  | .neg dst => aluNeg pc st dst .w64
  | .mul32Imm dst imm => aluImm pc st dst imm .mul .w32
  | .mul32Reg dst src => aluReg pc st dst src .mul .w32
  | .div32Imm dst imm => aluImm pc st dst imm .div .w32
  | .div32Reg dst src => aluReg pc st dst src .div .w32
  | .mod32Imm dst imm => aluImm pc st dst imm .mod .w32
  | .mod32Reg dst src => aluReg pc st dst src .mod .w32
  | .neg32 dst => aluNeg pc st dst .w32
  | .stMem src base offset size => stackWrite pc base st offset size (.reg src)
  | .stMemImm imm base offset size => stackWrite pc base st offset size (.imm imm)
  | .ldMem dst base offset size signExtend => ldMem pc st dst base offset size signExtend
  | .jset .. | .jsetImm .. | .jmp32 .. =>
    fail pc "internal error: branch instruction reached step()"
  | .call imm => helperCall pc imm st

/-- `BPF_JMP32`: a register or an immediate operand. -/
def jmp32Operand (pc : Nat) (st : VerifierState) (src : Option Reg) (imm : Option Int32) :
    Exec ScalarBounds :=
  match src, imm with
  | some src, _ => readScalar pc st src
  | none, some imm => .ok (.constant imm.toInt64)
  | none, none => .error .panic

/-- The successors of an instruction: control flow is expanded here, everything else falls
    through by `step`. -/
def successors (pc : Nat) (insn : BpfInsn) (st : VerifierState) : Exec (List Succ) :=
  match insn with
  | .exit => .ok []
  | .jmp offset => .ok [(branchTarget pc offset, st)]
  | .callSub offset => do
    let callee ← callSubprogAt pc st
    .ok [(branchTarget pc offset.toInt16, callee)]
  | .jeq dst src offset => condBranch pc dst src offset .eq st
  | .jne dst src offset => condBranch pc dst src offset .ne st
  | .jgt dst src offset => condBranch pc dst src offset .ugt st
  | .jge dst src offset => condBranch pc dst src offset .uge st
  | .jlt dst src offset => condBranch pc dst src offset .ult st
  | .jle dst src offset => condBranch pc dst src offset .ule st
  | .jsgt dst src offset => condBranch pc dst src offset .sgt st
  | .jsge dst src offset => condBranch pc dst src offset .sge st
  | .jslt dst src offset => condBranch pc dst src offset .slt st
  | .jsle dst src offset => condBranch pc dst src offset .sle st
  | .jeqImm dst imm offset => condBranchImm pc dst imm offset .eq st
  | .jneImm dst imm offset => condBranchImm pc dst imm offset .ne st
  | .jgtImm dst imm offset => condBranchImm pc dst imm offset .ugt st
  | .jgeImm dst imm offset => condBranchImm pc dst imm offset .uge st
  | .jltImm dst imm offset => condBranchImm pc dst imm offset .ult st
  | .jleImm dst imm offset => condBranchImm pc dst imm offset .ule st
  | .jsgtImm dst imm offset => condBranchImm pc dst imm offset .sgt st
  | .jsgeImm dst imm offset => condBranchImm pc dst imm offset .sge st
  | .jsltImm dst imm offset => condBranchImm pc dst imm offset .slt st
  | .jsleImm dst imm offset => condBranchImm pc dst imm offset .sle st
  | .jset dst src offset => do
    let d ← readScalar pc st dst
    let s ← readScalar pc st src
    .ok (branchOrBoth pc offset (jsetVerdict d s) st)
  | .jsetImm dst imm offset => do
    let d ← readScalar pc st dst
    match jsetVerdict d (.constant imm.toInt64) with
    | some true => .ok [(branchTarget pc offset, st)]
    | some false => .ok [(pc + 1, st)]
    | none => .ok [(branchTarget pc offset, st), (pc + 1, jsetNotTaken dst imm st)]
  | .jmp32 dst src imm offset op => do
    let d ← readScalar pc st dst
    let s ← jmp32Operand pc st src imm
    .ok (branchOrBoth pc offset (jmp32Verdict d s op) st)
  | insn => do
    let next ← step pc st insn
    .ok [(pc + 1, next)]

end RandVerifier
