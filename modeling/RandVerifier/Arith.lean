/-
  RandVerifier.Arith — ALU instructions (`alu_imm`, `alu_reg`, `mul_*`, `alu_neg` and the
  pointer arithmetic of `src/exec.rs`).

  An ALU instruction computes the new state of its destination register and changes
  nothing else, so the source's functions are split into the value (`aluImmValue`,
  `aluRegValue`, ..) and its assignment.
-/

import RandVerifier.Stack

namespace RandVerifier

/-! ## Arithmetic-time pointer checks -/

/-- The bound on scalar addends and pointer offsets at arithmetic time. -/
def bpfMaxVarOff : Int := 2 ^ 28

/-- A constant addend must be sane; of a variable one the minimum. -/
def checkSaneAddend (pc : Nat) (ptrKind : String) (s : ScalarBounds) : Exec Unit :=
  let v := s.smin.toInt
  if s.isConstant then
    failIf (bpfMaxVarOff ≤ v ∨ v ≤ -bpfMaxVarOff) pc
      s!"math between {ptrKind} pointer and {v} is not allowed"
  else if s.smin = Int64.minValue then
    fail pc s!"math between {ptrKind} pointer and register with unbounded min value is not allowed"
  else
    failIf (bpfMaxVarOff ≤ v ∨ v ≤ -bpfMaxVarOff) pc
      s!"value {v} makes {ptrKind} pointer be out of bounds"

def checkSaneResultOffset (pc : Nat) (ptrKind : String) (minOffset : Int) : Exec Unit :=
  failIf (bpfMaxVarOff ≤ minOffset ∨ minOffset ≤ -bpfMaxVarOff) pc
    s!"{ptrKind} pointer offset {minOffset} is not allowed"

/-- The alignment of a pointer plus a scalar: known when the low three bits are. -/
def addAlign (alignOff : Nat) (s : ScalarBounds) : Nat :=
  if s.tnum.mask &&& 7 = 0 then (alignOff + (s.tnum.value &&& 7).toNat) % 8 else alignUnknown

/-- The alignment of a pointer plus an immediate. -/
def addAlignImm (alignOff : Nat) (imm : Int32) : Nat := ((alignOff + imm.toInt % 8) % 8).toNat

/-- `PtrToStack + ScalarRange`: the offset interval is widened, the frame kept. -/
def addScalarToStackPtr (pc : Nat) (minOffset maxOffset : Int) (alignOff frameno : Nat)
    (s : ScalarBounds) : Exec RegState := do
  checkSaneAddend pc "stack" s
  let newMin64 := clampI64 (minOffset + s.smin.toInt)
  let newMax64 := clampI64 (maxOffset + s.smax.toInt)
  checkSaneResultOffset pc "stack" newMin64
  .ok (.ptrToStack (clampI32 newMin64) (clampI32 newMax64) (addAlign alignOff s) frameno)

/-- The lookup identity of a map value pointer, 0 for everything else. -/
def mapValueId : RegState → Nat
  | .ptrToMapValue _ _ _ _ id => id
  | _ => 0

/-- `PtrToMapValue + ScalarRange`; the id is the destination register's old one. -/
def addScalarToMapValuePtr (pc : Nat) (dstState : RegState) (minOffset maxOffset : Int)
    (alignOff valueSize : Nat) (s : ScalarBounds) : Exec RegState := do
  checkSaneAddend pc "map_value" s
  let newMin64 := clampI64 (minOffset + s.smin.toInt)
  let newMax64 := clampI64 (maxOffset + s.smax.toInt)
  checkSaneResultOffset pc "map_value" newMin64
  .ok (.ptrToMapValue (clampI32 newMin64) (clampI32 newMax64) (addAlign alignOff s) valueSize
    (mapValueId dstState))

/-- A context pointer moves by a constant only. -/
def addScalarToCtxPtr (pc : Nat) (off : Int) (op : AluOp) (s : ScalarBounds) : Exec RegState := do
  checkSaneAddend pc "ctx" s
  failIf (s.isConstant = false) pc
    "arithmetic on a context pointer with a variable addend is not allowed"
  let v := wrapI32 s.smin.toInt
  .ok (.ptrToCtx (clampI32 (off + if op = .add then v else -v)))

/-! ## Immediate operand -/

def aluImmValue (pc : Nat) (st : VerifierState) (dst : Reg) (imm : Int32) (op : AluOp)
    (width : AluWidth) : Exec RegState := do
  failIf (op.isShift ∧ ¬ (0 ≤ imm.toInt ∧ imm.toInt < width.bitness)) pc
    s!"invalid shift amount {imm}"
  match ← readReg pc st dst with
  | .scalar d => .ok (.scalar (applyAlu op width d (.constant imm.toInt64)))
  | .ptrToStack minOffset maxOffset alignOff frameno =>
    failIf (op ≠ .add ∨ width ≠ .w64) pc <|
      s!"arithmetic on stack pointer r{dst} is not allowed " ++
      "(only ADD supports stack pointer arithmetic)"
    checkSaneAddend pc "stack" (.constant imm.toInt64)
    checkSaneResultOffset pc "stack" (minOffset + imm.toInt)
    .ok (.ptrToStack (clampI32 (minOffset + imm.toInt)) (clampI32 (maxOffset + imm.toInt))
      (addAlignImm alignOff imm) frameno)
  | .ptrToCtx off =>
    failIf (¬ (op = .add ∨ op = .sub) ∨ width ≠ .w64) pc
      s!"arithmetic on context pointer r{dst} is not allowed"
    checkSaneAddend pc "ctx" (.constant imm.toInt64)
    .ok (.ptrToCtx (clampI32 (off + if op = .add then imm.toInt else -imm.toInt)))
  | .ptrToMap .. => fail pc s!"arithmetic on map pointer r{dst} is not allowed"
  | .ptrToMapValue minOffset maxOffset alignOff valueSize id =>
    failIf (op ≠ .add ∨ width ≠ .w64) pc <|
      s!"arithmetic on map value pointer r{dst} is not allowed " ++
      "(only ADD supports map value pointer arithmetic)"
    checkSaneAddend pc "map_value" (.constant imm.toInt64)
    checkSaneResultOffset pc "map_value" (minOffset + imm.toInt)
    .ok (.ptrToMapValue (clampI32 (minOffset + imm.toInt)) (clampI32 (maxOffset + imm.toInt))
      (addAlignImm alignOff imm) valueSize id)
  | .ptrToMapValueOrNull .. =>
    fail pc s!"arithmetic on nullable pointer r{dst} is not allowed (check for NULL first)"
  | .ptrToMem .. | .ptrToMemOrNull .. =>
    fail pc s!"arithmetic on referenced memory pointer r{dst} is not allowed"
  | .ptrToBtfId .. => fail pc s!"arithmetic on BTF object pointer r{dst} is not allowed"
  | .uninit => .error .panic

def aluImm (pc : Nat) (st : VerifierState) (dst : Reg) (imm : Int32) (op : AluOp)
    (width : AluWidth) : Exec VerifierState := do
  let v ← aluImmValue pc st dst imm op width
  .ok (st.setReg dst v)

/-! ## Register operand -/

/-- Two scalar operands. -/
def aluScalars (pc : Nat) (st : VerifierState) (src : Reg) (d : ScalarBounds)
    (op : AluOp) (width : AluWidth) : Exec RegState := do
  let s ← readScalar pc st src
  .ok (.scalar (applyAlu op width d s))

/-- `Scalar + pointer`: the destination inherits the pointer state, shifted by the scalar
    range; every other operand must be a scalar. -/
def aluScalarReg (pc : Nat) (st : VerifierState) (src : Reg) (d : ScalarBounds)
    (op : AluOp) (width : AluWidth) : Exec RegState :=
  if op = .add ∧ width = .w64 then do
    match ← readReg pc st src with
    | .ptrToStack minOffset maxOffset alignOff frameno =>
      checkSaneAddend pc "stack" d
      addScalarToStackPtr pc minOffset maxOffset alignOff frameno d
    | .ptrToMapValue minOffset maxOffset alignOff valueSize _ =>
      addScalarToMapValuePtr pc (.scalar d) minOffset maxOffset alignOff valueSize d
    | .ptrToCtx off => addScalarToCtxPtr pc off .add d
    | _ => aluScalars pc st src d op width
  else aluScalars pc st src d op width

def aluRegValue (pc : Nat) (st : VerifierState) (dst src : Reg) (op : AluOp) (width : AluWidth) :
    Exec RegState := do
  match ← readReg pc st dst with
  | .ptrToStack minOffset maxOffset alignOff frameno =>
    failIf (op ≠ .add ∨ width ≠ .w64) pc <|
      s!"arithmetic on stack pointer r{dst} is not allowed " ++
      "(only ADD supports stack pointer arithmetic)"
    let s ← readScalar pc st src
    addScalarToStackPtr pc minOffset maxOffset alignOff frameno s
  | .ptrToCtx off =>
    failIf (¬ (op = .add ∨ op = .sub) ∨ width ≠ .w64) pc
      s!"arithmetic on context pointer r{dst} is not allowed"
    let s ← readScalar pc st src
    addScalarToCtxPtr pc off op s
  | .ptrToMapValue minOffset maxOffset alignOff valueSize id =>
    failIf (op ≠ .add ∨ width ≠ .w64) pc <|
      s!"arithmetic on map value pointer r{dst} is not allowed " ++
      "(only ADD supports map value pointer arithmetic)"
    let s ← readScalar pc st src
    addScalarToMapValuePtr pc (.ptrToMapValue minOffset maxOffset alignOff valueSize id)
      minOffset maxOffset alignOff valueSize s
  | .scalar d => aluScalarReg pc st src d op width
  | _ => fail pc <|
    s!"register-offset pointer arithmetic on r{dst} is not supported yet (only immediate offsets)"

def aluReg (pc : Nat) (st : VerifierState) (dst src : Reg) (op : AluOp) (width : AluWidth) :
    Exec VerifierState := do
  let v ← aluRegValue pc st dst src op width
  .ok (st.setReg dst v)

/-! ## Multiplication and negation -/

def arithOnPointer (dst : Reg) : String := s!"arithmetic on pointer r{dst} is not allowed"

/-- A register that must be a scalar operand of a product or a negation. -/
def readArithScalar (pc : Nat) (st : VerifierState) (dst reg : Reg) : Exec ScalarBounds := do
  match ← readReg pc st reg with
  | .scalar d => .ok d
  | _ => fail pc (arithOnPointer dst)

/-- The high half of a product: exact for constants, unknown otherwise. -/
def hmulBounds (d s : ScalarBounds) (high : MulHigh) : ScalarBounds :=
  if d.isConstant ∧ s.isConstant then
    .constant (hmulConst d.smin.toUInt64 s.smin.toUInt64 high).toInt64
  else .unknown

def mulImm (pc : Nat) (st : VerifierState) (dst : Reg) (imm : Int32) (high : MulHigh) :
    Exec VerifierState :=
  if high = .low then aluImm pc st dst imm .mul .w64
  else do
    let d ← readArithScalar pc st dst dst
    .ok (st.setReg dst (.scalar (hmulBounds d (.constant imm.toInt64) high)))

def mulReg (pc : Nat) (st : VerifierState) (dst src : Reg) (high : MulHigh) :
    Exec VerifierState :=
  if high = .low then aluReg pc st dst src .mul .w64
  else do
    let dstState ← readReg pc st dst
    let srcState ← readReg pc st src
    match dstState, srcState with
    | .scalar d, .scalar s => .ok (st.setReg dst (.scalar (hmulBounds d s high)))
    | _, _ => fail pc (arithOnPointer dst)

/-- `rX = -rX`: constants fold exactly, a variable value gets the full range. -/
def aluNeg (pc : Nat) (st : VerifierState) (dst : Reg) (width : AluWidth) :
    Exec VerifierState := do
  let d ← readArithScalar pc st dst dst
  let bounds : ScalarBounds :=
    if d.isConstant then .constant (aluConst width .neg d.smin.toUInt64 0).toInt64 else .unknown
  .ok (st.setReg dst (.scalar bounds))

end RandVerifier
