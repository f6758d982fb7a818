/-
  RandVerifier.Helper — helper and kfunc prototypes (`src/helper.rs`).
-/

import RandVerifier.State

namespace RandVerifier

/-- Expected type of one helper argument (R1..R5). -/
inductive ArgType where
  | ptrToMap
  | ptrToStack
  | scalar
  | ptrToMem
  | ptrToDynptr
  | ptrToBtf
  | ptrToMapValue
  deriving DecidableEq, Repr

/-- The `Debug` text. -/
def ArgType.debug : ArgType → String
  | ptrToMap => "PtrToMap"
  | ptrToStack => "PtrToStack"
  | scalar => "Scalar"
  | ptrToMem => "PtrToMem"
  | ptrToDynptr => "PtrToDynptr"
  | ptrToBtf => "PtrToBtf"
  | ptrToMapValue => "PtrToMapValue"

structure KfuncPrototype where
  args : List ArgType
  returnType : RegState
  acquiresRef : Bool
  releasesRef : Bool

structure HelperPrototype where
  args : List ArgType
  returnType : RegState

def unknownScalar : RegState := .scalar .unknown

/-- The scalar constant 0 (`RET_VOID` returns). -/
def unknownScalarZero : RegState := .scalar (.constant 0)

/-- The kfunc table: `bpf_obj_drop`, `bpf_kptr_xchg` and `bpf_refcount_acquire`. -/
def kfuncPrototype (btfId : Int32) : Option KfuncPrototype :=
  match btfId.toInt with
  | 94599 => some ⟨[.ptrToBtf], unknownScalarZero, false, true⟩
  | 94041 => some ⟨[.ptrToMap, .ptrToBtf], .ptrToBtfId 0 0, true, false⟩
  | 94881 => some ⟨[.ptrToBtf], .ptrToBtfId 0 0, true, false⟩
  | _ => none

/-- `ringbuf_reserve`. -/
def helperAcquiresRef (id : Int32) : Bool := id == 131

/-- `ringbuf_submit` and `ringbuf_discard`. -/
def helperReleasesRef (id : Int32) : Bool := id == 132 || id == 133

/-- `dynptr_from_mem`, `dynptr_read`, `dynptr_write` and `dynptr_data`. -/
def isDynptrHelper (id : Int32) : Bool := id == 197 || id == 201 || id == 202 || id == 203

/-- The helper table: id to prototype. -/
def helperPrototype (id : Int32) : Option HelperPrototype :=
  match id.toInt with
  | 1 => some ⟨[.ptrToMap, .ptrToStack], .ptrToMapValueOrNull 0 0⟩
  | 2 => some ⟨[.ptrToMap, .ptrToStack, .ptrToStack, .scalar], unknownScalarZero⟩
  | 5 | 7 | 8 | 10 => some ⟨[], unknownScalar⟩
  | 131 => some ⟨[.ptrToMap, .scalar, .scalar], .ptrToMemOrNull 0 0 0⟩
  | 197 => some ⟨[.ptrToMapValue, .scalar, .scalar, .ptrToDynptr], unknownScalarZero⟩
  | 201 => some ⟨[.ptrToStack, .scalar, .ptrToDynptr, .scalar, .scalar], unknownScalarZero⟩
  | 202 => some ⟨[.ptrToDynptr, .scalar, .ptrToStack, .scalar, .scalar], unknownScalarZero⟩
  | 203 => some ⟨[.ptrToDynptr, .scalar, .scalar], .ptrToMemOrNull 0 0 0⟩
  | 132 | 133 => some ⟨[.ptrToMem, .scalar], unknownScalarZero⟩
  | 125 | 160 | 208 => some ⟨[], unknownScalar⟩
  | _ => none

/-- Does the actual register state satisfy the expected argument type? -/
def argMatches (expected : ArgType) (actual : RegState) : Bool :=
  match expected, actual with
  | .ptrToMap, .ptrToMap .. => true
  | .ptrToStack, .ptrToStack .. => true
  | .ptrToMem, .ptrToMem .. => true
  | .ptrToDynptr, .ptrToStack .. => true
  | .ptrToBtf, .ptrToBtfId .. => true
  | .ptrToMapValue, .ptrToMapValue .. => true
  | .scalar, .scalar _ => true
  | _, _ => false

/-- One argument: register `reg` against its expected type. -/
def checkCallArg (pc : Nat) (st : VerifierState) (reg : Reg) (expected : ArgType) : Exec Unit := do
  let actual ← readReg pc st reg
  failIf (argMatches expected actual = false) pc <|
    s!"helper arg {reg}: r{reg} has type {actual.display}, expected {expected.debug}"

/-- Validate the argument registers from `reg` on; every prototype has at most five. -/
def checkCallArgsFrom (pc : Nat) (st : VerifierState) : Reg → List ArgType → Exec Unit
  | _, [] => .ok ()
  | reg, expected :: rest => do
    checkCallArg pc st reg expected
    checkCallArgsFrom pc st (reg + 1) rest

/-- Validate R1..R5 against the argument types. -/
def checkCallArgs (pc : Nat) (args : List ArgType) (st : VerifierState) : Exec Unit :=
  checkCallArgsFrom pc st 1 args

/-- `check_helper_args`. -/
def checkHelperArgs (pc : Nat) (helper : HelperPrototype) (st : VerifierState) : Exec Unit :=
  checkCallArgs pc helper.args st

end RandVerifier
