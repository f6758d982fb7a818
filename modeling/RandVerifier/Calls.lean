/-
  RandVerifier.Calls — helper, dynptr and kfunc calls, and the references they acquire and
  release (`src/exec.rs`).
-/

import RandVerifier.Helper
import RandVerifier.Stack

namespace RandVerifier

/-! ## References -/

/-- The search loop of `fresh_reference_id`; one more candidate than active ids suffices. -/
def freshFrom (active : List Nat) (id : Nat) : Nat → Nat
  | 0 => id
  | fuel + 1 => if id ∈ active then freshFrom active (id + 1) fuel else id

/-- An id distinct from every currently active reference. -/
def freshReferenceId (st : VerifierState) : Nat :=
  freshFrom st.heldRefs (refIdBase + 1) st.refsCnt

/-- Whether a value is the reference `id`, or derived from it. -/
def refAlias (id : Nat) (v : RegState) : Bool :=
  memAlias id v || match v with
    | .ptrToBtfId _ refObjId => refObjId == id
    | _ => false

def killRefAlias (id : Nat) (v : RegState) : RegState :=
  if refAlias id v then .scalar .unknown else v

/-- `invalidate_reference_aliases_in_frame`. -/
def FrameState.killRef (fr : FrameState) (id : Nat) : FrameState :=
  { fr with
    regs := fun r => killRefAlias id (fr.regs r)
    stack := fr.stack.mapFullSpills (killRefAlias id) }

namespace VerifierState

/-- Invalidate the aliases of a reference in every active frame. -/
def invalidateReferenceAliases (st : VerifierState) (id : Nat) : VerifierState :=
  { st with
    regs := fun r => killRefAlias id (st.regs r)
    stack := st.stack.mapFullSpills (killRefAlias id)
    saved := fun k => (st.saved k).map (·.killRef id) }

/-- Drop a held reference: the last one moves into its place. -/
def dropRef (st : VerifierState) (id : Nat) : Option VerifierState :=
  ((List.range st.refsCnt).find? fun i => st.refs i == id).map fun i =>
    { st with
      refs := Function.update st.refs i (st.refs (st.refsCnt - 1))
      refsCnt := st.refsCnt - 1 }

end VerifierState

/-- Acquire a fresh reference. -/
def acquireRef (pc : Nat) (st : VerifierState) : Exec (Nat × VerifierState) :=
  if maxRefs ≤ st.refsCnt then fail pc s!"too many references held (max {maxRefs})"
  else
    let id := freshReferenceId st
    .ok (id, { st with refs := Function.update st.refs st.refsCnt id, refsCnt := st.refsCnt + 1 })

/-- Release a held reference and invalidate its aliases. -/
def releaseRef (pc : Nat) (st : VerifierState) (id : Nat) : Exec VerifierState :=
  match st.dropRef id with
  | some next => .ok (next.invalidateReferenceAliases id)
  | none => fail pc s!"release of unacquired reference {id}"

/-- The size argument of a helper: a known non-negative constant. -/
def constSize : RegState → Option Int
  | .scalar b => if b.isConstant ∧ 0 ≤ b.smin then some b.smin.toInt else none
  | _ => none

/-- `as u32` of a size argument, 0 when it is not a known constant. -/
def allocSize (v : RegState) : Nat :=
  match constSize v with
  | some n => (n % 2 ^ 32).toNat
  | none => 0

/-- `as i32` of a length argument, 8 when it is not a known constant. -/
def bufferLen (v : RegState) : Int :=
  match constSize v with
  | some n => wrapI32 n
  | none => 8

/-! ## Map helpers -/

/-- An argument must be an exact stack pointer to an initialized in-frame buffer. -/
def checkMapBuffer (pc : Nat) (st : VerifierState) (reg : Reg) (size : Nat) (what : String) :
    Exec Unit :=
  match st.regs reg with
  | .ptrToStack minOffset maxOffset alignOff _ => do
    failIf (minOffset ≠ maxOffset ∨ alignOff = alignUnknown) pc <|
      s!"helper arg {reg.val + 1}: r{reg} must have an exact offset to hold the map {what} buffer"
    failIf (minOffset < -512 ∨ 0 < minOffset + size) pc <|
      s!"helper arg {reg.val + 1}: r{reg}{signedText minOffset} map {what} buffer exceeds the 512 byte frame"
    if 0 < size then
      checkReadable pc st.stack (stackByteIndex (minOffset + size - 1)) (stackByteIndex minOffset)
        s!"stack slot at offset {minOffset} is uninitialized (write before read)"
        s!"invalid indirect read from stack at r{reg}: spilled register at offset {minOffset}"
    else .ok ()
  | .uninit => fail pc s!"register r{reg} is uninitialized"
  | _ => fail pc <|
    s!"helper arg {reg.val + 1}: r{reg} must be a stack pointer holding the map {what} buffer"

/-- The map-helper contract: R1 the map, R2 the key, for an update R3 the value and R4 the
    flags. The checks read the current frame's stack whatever frame the pointers name. -/
def checkMapHelperArgs (pc : Nat) (imm : Int32) (st : VerifierState) : Exec Unit :=
  match st.regs 1 with
  | .ptrToMap keySize valueSize _ => do
    checkMapBuffer pc st 2 keySize "key"
    if imm = 2 then do
      checkMapBuffer pc st 3 valueSize "value"
      failIf ((st.regs 4).isScalar = false) pc "helper arg 4: r4 must be a scalar (flags)"
    else .ok ()
  | _ => fail pc "helper arg 1: r1 must be a map pointer (load a map fd with ldimm64 first)"

/-! ## Dynptr helpers -/

/-- The live dynptr of an argument: an exact 16-byte-aligned in-frame offset. -/
def dynptrSlotOf (pc : Nat) (st : VerifierState) (reg : Reg) (argno : Nat) :
    Exec (Nat × DynptrState) :=
  let expected := s!"Expected an initialized dynptr as arg #{argno + 1}"
  match st.regs reg with
  | .ptrToStack minOffset maxOffset alignOff _ => do
    failIf (minOffset ≠ maxOffset ∨ alignOff ≠ 0 ∨ minOffset % 16 ≠ 0) pc <|
      expected ++ s!" (r{reg} must be an exact 16-byte-aligned stack offset)"
    failIf (minOffset < -512 ∨ -16 < minOffset) pc <|
      expected ++ s!" (r{reg} stack offset {minOffset} is out of frame)"
    let spi := (-minOffset - 1).toNat / 8
    failIf (¬ (st.stack.slotAll (spi - 1) .dynptr ∧ st.stack.slotAll spi .dynptr)) pc expected
    match st.stack.dynptr spi with
    | some ds => .ok (spi, ds)
    | none => fail pc expected
  | _ => fail pc (expected ++ s!" (r{reg} is not a stack pointer)")

/-- `dynptr_from_mem`: a dynptr at the 16 bytes of arg 4. -/
def dynptrFromMem (pc : Nat) (st : VerifierState) : Exec VerifierState :=
  match constSize (st.regs 2) with
  | none => fail pc "dynptr_from_mem: the size must be a known non-negative constant"
  | some size =>
    match st.regs 4 with
    | .ptrToStack minOffset maxOffset _ _ => do
      failIf (minOffset ≠ maxOffset ∨ minOffset % 16 ≠ 0) pc
        "dynptr_from_mem: arg #4 must be an exact 16-byte-aligned stack offset"
      failIf (minOffset < -512 ∨ -16 < minOffset) pc
        "dynptr_from_mem: arg #4 is outside the stack frame"
      let spi := (-minOffset - 1).toNat / 8
      let stack := st.stack.fill ((spi - 1) * 8) (spi * 8 + 7) .dynptr
      .ok { st with stack := { stack with
        dynptr := Function.update stack.dynptr spi (some ⟨(size % 2 ^ 32).toNat, pc + 1⟩) } }
    | _ => .error .panic

/-- Mark the buffer of `dynptr_read` as initialized. -/
def initStackBuffer (pc : Nat) (st : VerifierState) (minOffset maxOffset len : Int) :
    Exec VerifierState := do
  failIf (len < 0 ∨ maxOffset < minOffset) pc "invalid dynptr_read buffer range"
  if len = 0 then .ok st
  else
    failIf (minOffset < -512 ∨ 0 < maxOffset + len) pc
      "dynptr_read destination is outside the stack frame"
    let (lo, hi) := stackByteRange minOffset (maxOffset + len)
    .ok { st with stack := st.stack.fill lo hi .misc }

/-- The bytes `[minOffset, maxOffset)` must be readable. -/
def checkStackRangeInitialized (pc : Nat) (st : VerifierState) (minOffset maxOffset : Int) :
    Exec Unit :=
  checkReadable pc st.stack (stackByteIndex (maxOffset - 1)) (stackByteIndex minOffset)
    s!"invalid read from stack: uninitialized bytes at offset {minOffset}"
    s!"invalid read from stack at offset {minOffset}"

/-- `dynptr_read`: the destination buffer becomes initialized. -/
def dynptrRead (pc : Nat) (st : VerifierState) : Exec VerifierState := do
  let _ ← dynptrSlotOf pc st 3 3
  match st.regs 1 with
  | .ptrToStack minOffset maxOffset _ _ =>
    initStackBuffer pc st minOffset maxOffset (bufferLen (st.regs 2))
  | _ => .ok st

/-- `dynptr_write`: the source buffer must be readable. -/
def dynptrWrite (pc : Nat) (st : VerifierState) : Exec VerifierState := do
  let _ ← dynptrSlotOf pc st 1 1
  match st.regs 3 with
  | .ptrToStack minOffset _ _ _ =>
    checkStackRangeInitialized pc st minOffset (wrapI32 (minOffset + bufferLen (st.regs 4)))
    .ok st
  | _ => .ok st

/-- `dynptr_data`: a nullable slice that carries the dynptr's id. -/
def dynptrData (pc : Nat) (st : VerifierState) : Exec VerifierState := do
  let (_, ds) ← dynptrSlotOf pc st 1 1
  .ok (st.setReg 0 (.ptrToMemOrNull ds.id ds.id (allocSize (st.regs 3))))

def dynptrHelperCall (pc : Nat) (imm : Int32) (st : VerifierState) : Exec VerifierState :=
  match imm.toInt with
  | 197 => dynptrFromMem pc st
  | 201 => dynptrRead pc st
  | 202 => dynptrWrite pc st
  | 203 => dynptrData pc st
  | _ => .error .panic

/-! ## Helper and kfunc calls -/

def isRingbufMap : RegState → Bool
  | .ptrToMap _ _ mapType => mapType == 1
  | _ => false

/-- The reference passed to a release helper. -/
def heldMemId : RegState → Option Nat
  | .ptrToMem _ _ _ id _ => if id = 0 then none else some id
  | _ => none

/-- The reference passed to a release kfunc. -/
def heldBtfId : RegState → Option Nat
  | .ptrToBtfId _ refObjId => if refObjId = 0 then none else some refObjId
  | _ => none

/-- The argument types of a helper call: the map helpers have a contract of their own. -/
def checkHelperTypes (pc : Nat) (imm : Int32) (helper : HelperPrototype) (st : VerifierState) :
    Exec Unit :=
  if imm = 1 ∨ imm = 2 then checkMapHelperArgs pc imm st else checkHelperArgs pc helper st

/-- The argument checks of a helper call. -/
def checkHelperCall (pc : Nat) (imm : Int32) (helper : HelperPrototype) (st : VerifierState) :
    Exec Unit := do
  checkHelperTypes pc imm helper st
  failIf (imm = 131 ∧ isRingbufMap (st.regs 1) = false) pc
    "arg#0: ringbuf_reserve requires a RINGBUF map"

/-- The effect of a helper call on the references, the stack and R0. -/
def helperEffect (pc : Nat) (imm : Int32) (helper : HelperPrototype) (st : VerifierState) :
    Exec VerifierState :=
  if helperAcquiresRef imm then do
    let (id, next) ← acquireRef pc st
    .ok (next.setReg 0 (.ptrToMemOrNull id 0 (allocSize (st.regs 2))))
  else if isDynptrHelper imm then do
    let next ← dynptrHelperCall pc imm st
    .ok (if imm = 203 then next else next.setReg 0 helper.returnType)
  else if helperReleasesRef imm then
    match heldMemId (st.regs 1) with
    | none => fail pc <| "release of unacquired reference at r1 " ++
        "(arg#0 expected a referenced memory pointer)"
    | some id => do
      let next ← releaseRef pc st id
      .ok (next.setReg 0 helper.returnType)
  else .ok (st.setReg 0 helper.returnType)

/-- The result of a lookup: its identity is derived from the program counter. -/
def lookupResult (pc : Nat) (imm : Int32) (mapState : RegState) (next : VerifierState) :
    VerifierState :=
  match mapState with
  | .ptrToMap _ valueSize _ =>
    if imm = 1 then next.setReg 0 (.ptrToMapValueOrNull valueSize (pc + 1)) else next
  | _ => next

/-- A helper call: checks, effect, and R1..R5 clobbered. -/
def helperCall (pc : Nat) (imm : Int32) (st : VerifierState) : Exec VerifierState :=
  match helperPrototype imm with
  | none => fail pc s!"unknown helper {imm}"
  | some helper => do
    checkHelperCall pc imm helper st
    let next ← helperEffect pc imm helper st
    .ok (lookupResult pc imm (st.regs 1) next.clobberArgs)

/-- The object type of an acquire kfunc's argument. -/
def argBtfId : RegState → Nat
  | .ptrToBtfId btfId _ => btfId
  | _ => 0

/-- The effect of a kfunc call on the references and R0. -/
def kfuncEffect (pc : Nat) (proto : KfuncPrototype) (st : VerifierState) : Exec VerifierState :=
  if proto.acquiresRef then do
    let (id, next) ← acquireRef pc st
    .ok (next.setReg 0 (.ptrToBtfId (argBtfId (st.regs 1)) id))
  else if proto.releasesRef then
    match heldBtfId (st.regs 1) with
    | none => fail pc <| "release of unacquired reference " ++
        "(arg#0 expected a referenced BTF object)"
    | some id => do
      let next ← releaseRef pc st id
      .ok (next.setReg 0 proto.returnType)
  else .ok (st.setReg 0 proto.returnType)

def kfuncCall (pc : Nat) (btfId : Int32) (st : VerifierState) : Exec VerifierState :=
  match kfuncPrototype btfId with
  | none => fail pc s!"unknown kfunc (no BTF): btf_id {btfId}"
  | some proto => do
    checkCallArgs pc proto.args st
    let next ← kfuncEffect pc proto st
    .ok next.clobberArgs

end RandVerifier
