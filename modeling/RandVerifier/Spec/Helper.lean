/-
  RandVerifier.Spec.Helper — the helper contracts of the safety-spec verifier (`src/spec/helper.rs` and
  `helper_call` of `src/spec/runner.rs`).

  A call checks its arguments against the table, writes the stack buffers of the dynptr
  helpers, releases or acquires a reference, and clobbers R1..R5. The ids it hands out
  come from a counter that all the paths of a run share.
-/

import RandVerifier.Spec.Memory

namespace RandVerifier.Spec

/-- Expected type of one helper argument. -/
inductive SpecArg where
  | ptrToMap
  | ptrToStack
  /-- A stack pointer to written bytes; a size of 0 is read from the map. -/
  | ptrToStackInit (size : Nat)
  | scalar
  | ptrToMapValue
  | ptrToMem
  /-- A stack pointer to an initialized dynptr. -/
  | ptrToDynptr
  /-- A stack pointer to the slots of a new dynptr. -/
  | ptrToDynptrW
  deriving DecidableEq, Repr

/-- The `Debug` text. -/
def SpecArg.debug : SpecArg → String
  | ptrToMap => "PtrToMap"
  | ptrToStack => "PtrToStack"
  | ptrToStackInit size => s!"PtrToStackInit \x7b size: {size} \x7d"
  | scalar => "Scalar"
  | ptrToMapValue => "PtrToMapValue"
  | ptrToMem => "PtrToMem"
  | ptrToDynptr => "PtrToDynptr"
  | ptrToDynptrW => "PtrToDynptrW"

/-- The R0 result of a helper call. -/
inductive SpecRet where
  | zero
  | unknownScalar
  | unknownU32
  | mapValueOrNull
  | memOrNull
  deriving DecidableEq, Repr

structure SpecHelper where
  args : List SpecArg
  ret : SpecRet
  deriving DecidableEq, Repr

/-- The helper table: id to contract. -/
def specHelper (id : Int32) : Option SpecHelper :=
  match id.toInt with
  | 1 => some ⟨[.ptrToMap, .ptrToStackInit 0], .mapValueOrNull⟩
  | 2 => some ⟨[.ptrToMap, .ptrToStackInit 0, .ptrToStackInit 0, .scalar], .zero⟩
  | 5 | 8 | 10 | 125 | 160 | 208 => some ⟨[], .unknownScalar⟩
  | 7 => some ⟨[], .unknownU32⟩
  | 131 => some ⟨[.ptrToMap, .scalar, .scalar], .memOrNull⟩
  | 132 | 133 => some ⟨[.ptrToMem, .scalar], .zero⟩
  | 197 => some ⟨[.ptrToMapValue, .scalar, .scalar, .ptrToDynptrW], .zero⟩
  | 201 => some ⟨[.ptrToStack, .scalar, .ptrToDynptr, .scalar, .scalar], .zero⟩
  | 202 => some ⟨[.ptrToDynptr, .scalar, .ptrToStack, .scalar, .scalar], .zero⟩
  | 203 => some ⟨[.ptrToDynptr, .scalar, .scalar], .memOrNull⟩
  | _ => none

/-- The two slots of the dynptr that starts at a stack offset. -/
def dynptrSlotsOf (off : Int) : Option (Fin specSlots × Fin specSlots) :=
  let idx := 512 + off
  if 0 ≤ idx ∧ idx + 16 ≤ 512 then
    some (Fin.ofNat specSlots (idx / 8).toNat, Fin.ofNat specSlots (idx / 8 + 1).toNat)
  else none

/-! ## Arguments -/

/-- The size of an initialized buffer: the value of an update, else the key. -/
def initBufferSize (s : SpecState) (id : Int32) (argIdx size : Nat) : Nat :=
  if size = 0 then
    match s.reg 1 with
    | .ptrToMap keySize valueSize _ =>
      if id = 2 ∧ argIdx = 2 then valueSize else if id = 1 ∨ id = 2 then keySize else 0
    | _ => 0
  else size

/-- Whether `n` bytes from a stack offset on are inside the frame and written. -/
def bufferInit (stack : SpecStack) (off : Int) (n : Nat) : Bool :=
  (List.range n).all fun i =>
    let idx : Int := specStackSize + off + i
    0 ≤ idx ∧ idx < specStackSize ∧ stack.initAt idx

/-- Whether an argument satisfies its contract. -/
def argOk (s : SpecState) (id : Int32) (argIdx : Nat) (expected : SpecArg) (actual : SpecValue) : Bool :=
  match expected, actual with
  | .ptrToMap, .ptrToMap .. => true
  | .ptrToStack, .ptrToStack .. => true
  | .ptrToStackInit size, .ptrToStack lo hi =>
    lo = hi && bufferInit s.cur.stack lo (initBufferSize s id argIdx size)
  | .scalar, .scalar .. => true
  | .ptrToMapValue, .ptrToMapValue .. => true
  | .ptrToMem, .ptrToMem .. => true
  | .ptrToDynptr, .ptrToStack lo hi =>
    lo = hi && (dynptrSlotsOf lo).any fun p => s.cur.stack.dynptr p.1 && s.cur.stack.dynptr p.2
  | .ptrToDynptrW, .ptrToStack lo hi => lo = hi && (dynptrSlotsOf lo).isSome
  | _, _ => false

/-- The register of an argument. -/
def argReg (argIdx : Nat) : Reg := Fin.ofNat 11 (argIdx + 1)

/-- Check the arguments from position `argIdx` on. -/
def checkArgs (s : SpecState) (pc : Nat) (id : Int32) : Nat → List SpecArg → Check Unit
  | _, [] => .ok ()
  | argIdx, expected :: rest =>
    if argOk s id argIdx expected (s.reg (argReg argIdx)) then checkArgs s pc id (argIdx + 1) rest
    else failure pc s!"R{argReg argIdx} type mismatch for helper argument {expected.debug}"

/-! ## Effects -/

/-- `dynptr_from_mem` marks the slots of R4. -/
def dynptrFromMem (s : SpecState) (pc : Nat) : Check SpecState :=
  match s.reg 4 with
  | .ptrToStack lo hi =>
    if lo = hi then
      match dynptrSlotsOf lo with
      | none => failure pc "dynptr slot out of frame"
      | some (s1, s2) =>
        let stack := s.cur.stack
        let marked := { stack with
          dynptr := fun slot => decide (slot = s1 ∨ slot = s2) || stack.dynptr slot }
        .ok (s.setStack (marked.markRangeInit lo 16))
    else .ok s
  | _ => .ok s

/-- `dynptr_read` marks the buffer of R1, as long as the constant in R2. -/
def dynptrRead (s : SpecState) (pc : Nat) : Check SpecState :=
  match s.reg 1 with
  | .ptrToStack lo hi =>
    if lo = hi then
      match (s.reg 2).const? with
      | none => failure pc "dynptr_read length is not a constant"
      | some w =>
        let len := w.toInt64.toInt
        if lo < -specStackSize ∨ 0 < (Int64.ofInt (lo + len)).toInt then
          failure pc "dynptr_read dst buffer out of the frame"
        else .ok (s.setStack (s.cur.stack.markRangeInit lo len))
    else .ok s
  | _ => .ok s

/-- The stack buffers a helper writes. -/
def writeBuffers (s : SpecState) (pc : Nat) (id : Int32) : Check SpecState :=
  if id = 197 then dynptrFromMem s pc else if id = 201 then dynptrRead s pc else .ok s

/-- `ringbuf_submit` and `ringbuf_discard` release the reference in R1. -/
def releaseArg (s : SpecState) (pc : Nat) (id : Int32) : Check SpecState :=
  if id = 132 ∨ id = 133 then
    match s.reg 1 with
    | .ptrToMem _ _ _ refId =>
      match s.releaseRef refId with
      | some s' => .ok s'
      | none => failure pc s!"release of unacquired reference id={refId}"
    | _ => .ok s
  else .ok s

/-- The value size of the map in R1. -/
def mapValueSize : SpecValue → Nat
  | .ptrToMap _ valueSize _ => valueSize
  | _ => 0

/-- The size of an acquired buffer: the low 32 bits of the constant in R2. -/
def memSizeOf (v : SpecValue) : Nat :=
  match v.const? with
  | some w => w.toNat % 2 ^ 32
  | none => 0

/-- The result in R0, and the id counter afterwards. -/
def setResult (s : SpecState) (pc : Nat) (nextId : Nat) : SpecRet → Check (SpecState × Nat)
  | .zero => .ok (s.setReg 0 (.constScalar 0), nextId)
  | .unknownScalar => .ok (s.setReg 0 .unknownScalar, nextId)
  | .unknownU32 => .ok (s.setReg 0 (.scalar 0 0xffffffff), nextId)
  | .mapValueOrNull =>
    .ok (s.setReg 0 (.ptrToMapValueOrNull (mapValueSize (s.reg 1)) (nextId + 1)), nextId + 1)
  | .memOrNull =>
    match (s.setReg 0 (.ptrToMemOrNull (memSizeOf (s.reg 2)) (nextId + 1))).acquireRef (nextId + 1) with
    | .ok s' => .ok (s', nextId + 1)
    | .error message => failure pc message

/-- A helper call turns the spilled pointers of the current frame into unknown scalars. -/
def forgetSpill : Option Spill → Option Spill
  | some (.ptr _) => some (.scalar 0 u64Max)
  | spill => spill

def SpecState.forgetSpills (s : SpecState) : SpecState :=
  s.setStack { s.cur.stack with spill := fun slot => forgetSpill (s.cur.stack.spill slot) }

/-- `helper_call`: the state after the call, and the id counter. -/
def helperCall (s : SpecState) (pc : Nat) (nextId : Nat) (id : Int32) : Check (SpecState × Nat) :=
  match specHelper id with
  | none => .error ⟨.inconclusive, SpecVerdict.inconclusive_ne⟩
  | some proto => do
    checkArgs s pc id 0 proto.args
    let s₁ ← writeBuffers s pc id
    let s₂ ← releaseArg s₁ pc id
    let (s₃, nextId') ← setResult s₂ pc nextId proto.ret
    .ok (s₃.clobberArgs.forgetSpills, nextId')

end RandVerifier.Spec
