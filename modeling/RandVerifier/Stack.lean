/-
  RandVerifier.Stack — memory accesses: the stack of a frame, map values, referenced
  buffers and the context (`stack_read`, `stack_write` and their checks in `src/exec.rs`).

  A stack access `[min_off, max_off)` covers the frame bytes `lo..=hi`, byte 0 being the
  top of the frame. Every check of the source runs here in the source's order.
-/

import RandVerifier.Alu

namespace RandVerifier

/-! ## Byte ranges -/

/-- The frame byte index of an r10-relative offset, `(-off - 1) as usize`. -/
def stackByteIndex (off : Int) : Nat := ((-off - 1) % 2 ^ 64).toNat

/-- The covered frame bytes `(lo, hi)` of the access `[minOff, maxOff)`. -/
def stackByteRange (minOff maxOff : Int) : Nat × Nat :=
  (stackByteIndex (maxOff - 1), stackByteIndex minOff)

/-- The slots of the bytes `lo..=hi`, lowest first. -/
def slotRange (lo hi : Nat) : List Nat := List.range' (lo / 8) (hi / 8 + 1 - lo / 8)

/-- One byte of a buffer that must be readable: written, and not part of a spilled
    pointer. -/
def checkReadableByte (pc : Nat) (stack : StackState) (uninitMsg spilledMsg : String)
    (i : Nat) : Exec Unit :=
  match stack.bytes i with
  | .invalid | .dynptr => fail pc uninitMsg
  | .misc | .zero => .ok ()
  | .spill =>
    match stack.spilled (i / 8) with
    | some (.scalar _) => .ok ()
    | _ => fail pc spilledMsg

/-- The bytes `lo..=hi` must be readable; past byte 511 the source's index panics. -/
def checkReadable (pc : Nat) (stack : StackState) (lo hi : Nat) (uninitMsg spilledMsg : String) :
    Exec Unit := do
  (List.range' lo (min (hi + 1) stackSize - lo)).forM
    (checkReadableByte pc stack uninitMsg spilledMsg)
  if lo ≤ hi ∧ stackSize ≤ hi then .error .panic else .ok ()

/-! ## The accessed frame -/

/-- The stack of the frame a stack pointer belongs to; the source's `expect` panics when
    the frame is not active. -/
def frameStack (st : VerifierState) (frameno : Nat) : Exec StackState :=
  if frameno = st.curframe then .ok st.stack
  else if maxCallFrames - 1 ≤ frameno then .error .panic
  else match st.saved frameno with
    | some fr => .ok fr.stack
    | none => .error .panic

/-- `frame_stack_mut`: replace the stack of an active frame. -/
def setFrameStack (st : VerifierState) (frameno : Nat) (stack : StackState) : VerifierState :=
  if frameno = st.curframe then { st with stack }
  else { st with
    saved := Function.update st.saved frameno
      ((st.saved frameno).map fun fr => { fr with stack }) }

/-! ## Access checks -/

/-- The frame-bounds failure for a stack access. -/
def stackBoundsError (base : Reg) (offset : Int16) (minOffset maxOffset minOff : Int) : String :=
  if 0 ≤ minOff ∧ base = 10 ∧ minOffset = 0 ∧ maxOffset = 0 then
    s!"stack access at r10{signedText offset.toInt} points away from the frame (valid: r10-512..r10-8)"
  else
    s!"stack access at r{base}{signedText offset.toInt} with base offsets {minOffset}..{maxOffset} " ++
    "exceeds the 512 byte frame"

/-- The checks that loads and stores share: provable alignment, then the frame bounds. -/
def checkStackAccess (pc : Nat) (base : Reg) (offset : Int16) (minOffset maxOffset : Int)
    (alignOff : Nat) (size : Nat) : Exec Unit := do
  let minOff := minOffset + offset.toInt
  let maxOff := maxOffset + offset.toInt + size
  failIf (alignOff = alignUnknown) pc <|
    s!"stack pointer r{base} alignment is not provable (computed offsets must be {size}-byte aligned)"
  failIf ((alignOff + offset.toInt) % size ≠ 0 ∨ minOff % size ≠ 0) pc <|
    s!"stack access at r{base}{signedText offset.toInt} is not {size}-byte aligned"
  failIf (minOff < -512 ∨ 0 < maxOff) pc <|
    stackBoundsError base offset minOffset maxOffset minOff

/-- `stack_access_range`, the covered slots that the jump history records: `None` where
    the source's result is an error. -/
def stackAccessRange (minOffset maxOffset : Int) (alignOff : Nat) (off : Int16) (size : Nat) :
    Option (Nat × Nat) :=
  let minOff := minOffset + off.toInt
  let maxOff := maxOffset + off.toInt + size
  if alignOff = alignUnknown ∨ (alignOff + off.toInt) % size ≠ 0 then none
  else if 0 ≤ minOff ∨ minOff < -512 ∨ 0 < maxOff then none
  else some (((-maxOff) / 8).toNat, ((-minOff - 1) / 8).toNat)

/-- The access-time check for referenced memory buffers. -/
def memAccessCheck (pc : Nat) (base : Reg) (offset : Int16) (minOffset maxOffset : Int)
    (size : Nat) : Exec Unit := do
  let minOff := minOffset + offset.toInt
  let maxOff := maxOffset + offset.toInt + size
  failIf (minOff % size ≠ 0) pc <|
    s!"misaligned access to referenced memory at r{base}{signedText offset.toInt} (access size {size})"
  failIf (minOff < 0 ∨ maxOffset + 8 < maxOff) pc <|
    s!"invalid access to referenced memory at r{base}{signedText offset.toInt} " ++
    s!"(buffer range {minOffset}..{wrapI32 (maxOffset + 8)})"

/-- The access-time check for map values: every offset in `[0, value_size)` and 8-byte
    aligned, whatever the width of the access. -/
def mapValueAccessCheck (pc : Nat) (base : Reg) (off : Int16) (minOffset maxOffset : Int)
    (alignOff valueSize : Nat) : Exec Unit := do
  let minOff := minOffset + off.toInt
  let maxOff := maxOffset + off.toInt + 8
  failIf (alignOff = alignUnknown) pc <|
    s!"map value pointer r{base} alignment is not provable (computed offsets must be 8-byte aligned)"
  failIf ((alignOff + off.toInt % 8) % 8 ≠ 0) pc <|
    s!"stack access at r{base}{signedText off.toInt} is not 8-byte aligned"
  failIf (minOff < 0 ∨ valueSize < maxOff) pc <|
    s!"invalid access to map value r{base}{signedText off.toInt}, value_size={valueSize} " ++
    s!"(base offsets {minOffset}..{maxOffset})"

def nonStackBaseError (reg : Reg) (kind : String) : String :=
  s!"{kind} through a non-stack pointer r{reg} is not supported"

/-! ## Loaded values -/

/-- The scalar range a `size`-byte load produces. -/
def scalarForWidth (size : Nat) (signExtend : Bool) : ScalarBounds :=
  match size, signExtend with
  | 1, false => .fromSigned 0 255
  | 2, false => .fromSigned 0 65535
  | 4, false => .fromSigned 0 4294967295
  | 1, true => .fromSigned (-128) 127
  | 2, true => .fromSigned (-32768) 32767
  | 4, true => .fromSigned (-2147483648) 2147483647
  | _, _ => .unknown

/-- The bits of the low `size` bytes, `size` below 8. -/
def lowMask (size : Nat) : UInt64 := (1 <<< UInt64.ofNat (size * 8)) - 1

/-- Truncate a scalar to `size` bytes and extend it: constants stay exact, others keep the
    low-bit tnum and the width's domain. -/
def coerceScalar (b : ScalarBounds) (size : Nat) (signExtend : Bool) : ScalarBounds :=
  if 8 ≤ size then b
  else
    let low := lowMask size
    let tnum : Tnum := ⟨b.tnum.value &&& low, (b.tnum.mask &&& low) ||| ~~~low⟩
    if b.isConstant then
      let v := b.smin.toUInt64 &&& low
      let signBit : UInt64 := 1 <<< UInt64.ofNat (size * 8 - 1)
      let ext := if signExtend ∧ v &&& signBit ≠ 0 then v ||| ~~~low else v
      .constant ext.toInt64
    else if signExtend then { ScalarBounds.unknown with tnum }
    else
      { smin := 0, smax := low.toInt64, umin := 0, umax := low
        s32Min := 0, s32Max := (min low 0xffffffff).toUInt32.toInt32
        u32Min := 0, u32Max := (min low 0xffffffff).toUInt32
        tnum, precise := b.precise, id := 0, delta := 0 }

/-- A context read: scalar fields yield a scalar of the access width. -/
def ctxRead (pc : Nat) (progType : ProgType) (off : Int) (size : MemSize) (signExtend : Bool) :
    Exec RegState :=
  match Ctx.read progType off size.bytes with
  | .ok .scalar => .ok (.scalar (scalarForWidth size.bytes signExtend))
  | .ok (.pointer field) =>
    fail pc s!"ctx load of unmapped pointer field {field} (prog type {progType.display})"
  | .error (.unmodeled field) =>
    fail pc s!"ctx load of unmodeled field {field} (prog type {progType.display})"
  | .error .invalid => fail pc s!"invalid bpf_context access off={off} size={size.bytes}"

/-! ## Loads -/

/-- The slots of the bytes `lo..=hi` forget their spilled registers. -/
def StackState.clearSpills (stack : StackState) (lo hi : Nat) : StackState :=
  { stack with
    spilled := fun slot => if lo / 8 ≤ slot ∧ slot ≤ hi / 8 then none else stack.spilled slot }

/-- Whether a stored value is the constant zero. -/
def isZeroValue : RegState → Bool
  | .scalar b => b.isConstant && b.smin == 0
  | _ => false

/-- The byte walk of a fixed-position read: invalid bytes are rejected, all-zero bytes and
    a constant-zero spill read as zero, anything else as an unknown scalar. -/
def byteWalk (pc : Nat) (offset : Int16) (stack : StackState) (lo hi slot : Nat) : Exec RegState :=
  if allIn lo hi (fun i => stack.bytes i != .invalid && stack.bytes i != .dynptr) = false then
    fail pc s!"stack slot at offset {offset} is uninitialized (write before read)"
  else if allIn lo hi (fun i => stack.bytes i == .zero) ||
      (allIn lo hi (fun i => stack.bytes i == .spill) && (stack.spilled slot).any isZeroValue) then
    .ok (.scalar (.constant 0))
  else .ok (.scalar .unknown)

/-- A fixed-position stack read: a full spill is restored as it is, a narrow fill at the
    slot's low end truncates a spilled scalar, the rest walks the bytes. -/
def fixedStackRead (pc : Nat) (base : Reg) (offset : Int16) (stack : StackState) (lo hi : Nat)
    (minOff : Int) (size : Nat) (signExtend : Bool) : Exec RegState :=
  let slot := hi / 8
  let walk := byteWalk pc offset stack lo hi slot
  if allIn lo hi fun i => stack.bytes i == .spill then
    match stack.spilled slot with
    | none => walk
    | some spilled =>
      if size = 8 then .ok spilled
      else match spilled with
        | .scalar b => if minOff % 8 = 0 then .ok (.scalar (coerceScalar b size signExtend)) else walk
        | v => fail pc <|
          s!"invalid size of register fill at r{base}{signedText offset.toInt}: spilled {v.display}"
  else walk

/-- A variable-offset stack read: every covered byte must be readable. -/
def variableStackRead (pc : Nat) (base : Reg) (offset : Int16) (stack : StackState) (lo hi : Nat)
    (minOffset maxOffset : Int) : Exec RegState := do
  checkReadable pc stack lo hi
    (s!"stack access at r{base}{signedText offset.toInt} with base offsets {minOffset}..{maxOffset} " ++
      "reads uninitialized stack")
    (s!"invalid indirect read from stack at r{base}{signedText offset.toInt}: " ++
      "spilled register in the covered range")
  .ok (.scalar (if lo ≤ hi then .unknown else .constant 0))

/-- A load through a stack, map value or buffer pointer. -/
def stackRead (pc : Nat) (base : Reg) (st : VerifierState) (offset : Int16) (size : MemSize)
    (signExtend : Bool) : Exec RegState := do
  match ← readReg pc st base with
  | .ptrToStack minOffset maxOffset alignOff frameno =>
    checkStackAccess pc base offset minOffset maxOffset alignOff size.bytes
    let minOff := minOffset + offset.toInt
    let maxOff := maxOffset + offset.toInt + size.bytes
    let (lo, hi) := stackByteRange minOff maxOff
    let stack ← frameStack st frameno
    if minOffset = maxOffset then
      fixedStackRead pc base offset stack lo hi minOff size.bytes signExtend
    else variableStackRead pc base offset stack lo hi minOffset maxOffset
  | .ptrToMapValue minOffset maxOffset alignOff valueSize _ =>
    mapValueAccessCheck pc base offset minOffset maxOffset alignOff valueSize
    .ok (.scalar .unknown)
  | .ptrToMem minOffset maxOffset _ _ _ =>
    memAccessCheck pc base offset minOffset maxOffset size.bytes
    .ok (.scalar .unknown)
  | _ => fail pc (nonStackBaseError base "load")

/-! ## Stores -/

/-- The operand of a store: a register or an immediate. -/
inductive StoreSrc where
  | reg (src : Reg)
  | imm (imm : Int32)
  deriving DecidableEq, Repr

def storeValue (pc : Nat) (st : VerifierState) : StoreSrc → Exec RegState
  | .reg src => readReg pc st src
  | .imm imm => .ok (.scalar (.constant imm.toInt64))

/-- Memory outside the stack takes scalars, map values pointers as well. -/
def memoryStoreScalar (pc : Nat) (st : VerifierState) (src : StoreSrc) (memoryKind : String) :
    Exec Unit := do
  let value ← storeValue pc st src
  failIf (¬ (value.isScalar ∨ memoryKind = "map value")) pc <|
    s!"cannot store a pointer into {memoryKind}"

/-- Whether a write of the bytes `lo..=hi` reaches a slot that holds a dynptr. -/
def coversDynptr (stack : StackState) (lo hi slot : Nat) : Bool :=
  decide (lo / 8 ≤ slot ∧ slot ≤ hi / 8) && stack.bytes (slot * 8) == .dynptr

/-- A write destroys the dynptr slots it covers. -/
def destroyDynptrs (stack : StackState) (lo hi : Nat) : StackState :=
  { stack with
    bytes := fun i => if coversDynptr stack lo hi (i / 8) then .invalid else stack.bytes i
    dynptr := fun slot => if coversDynptr stack lo hi slot then none else stack.dynptr slot }

/-- The id of the last dynptr a write destroys. -/
def destroyedDynptr (stack : StackState) (lo hi : Nat) : Option Nat :=
  ((slotRange lo hi).filterMap fun slot =>
    if stack.bytes (slot * 8) = .dynptr then (stack.dynptr slot).map (·.id) else none).getLast?

/-- Whether a value is a buffer with this id, or derived from it. -/
def memAlias (id : Nat) : RegState → Bool
  | .ptrToMem _ _ _ rid pid => rid == id || pid == id
  | .ptrToMemOrNull rid pid _ => rid == id || pid == id
  | _ => false

def killMemAlias (id : Nat) (v : RegState) : RegState :=
  if memAlias id v then .scalar .unknown else v

/-- Every slice of a destroyed dynptr dies with it, in the current registers and in the
    written frame. -/
def destroySlices (st : VerifierState) (stack : StackState) (destroyed : Option Nat) :
    VerifierState × StackState :=
  match destroyed with
  | none => (st, stack)
  | some did =>
    ({ st with regs := fun r => killMemAlias did (st.regs r) }, stack.mapFullSpills (killMemAlias did))

/-- The first covered slot that records a spilled pointer. -/
def corruptedSlot (stack : StackState) (lo hi : Nat) : Option (Nat × RegState) :=
  (slotRange lo hi).findSome? fun s =>
    match stack.spilled s with
    | some v => if v.isScalar then none else some (s, v)
    | none => none

/-- An aligned store of `v`: the covered bytes become a spill, the rest of the slot below
    them unknown. -/
def StackState.spill (stack : StackState) (lo hi : Nat) (v : RegState) : StackState :=
  let slot := hi / 8
  { stack with
    bytes := fun i =>
      if lo ≤ i ∧ i ≤ hi then .spill
      else if slot * 8 ≤ i ∧ i < lo then .misc
      else stack.bytes i
    spilled := Function.update stack.spilled slot (some v) }

/-- A partial or variable-offset write: the covered bytes take `b`, the covered slots lose
    their spill and their dynptr, their other spill bytes become unknown. -/
def StackState.scrub (stack : StackState) (lo hi : Nat) (b : StackByte) : StackState :=
  let covered (slot : Nat) := lo / 8 ≤ slot ∧ slot ≤ hi / 8
  { bytes := fun i =>
      if lo ≤ i ∧ i ≤ hi then b
      else if covered (i / 8) ∧ stack.bytes i = .spill then .misc
      else stack.bytes i
    spilled := fun slot => if covered slot then none else stack.spilled slot
    dynptr := fun slot => if covered slot then none else stack.dynptr slot }

/-- An aligned store at a fixed position: pointers need all 8 bytes, and a stack pointer
    stays in its own frame's stack. -/
def fixedStackWrite (pc : Nat) (base : Reg) (offset : Int16) (st : VerifierState) (frameno : Nat)
    (stack : StackState) (lo hi size : Nat) (v : RegState) : Exec VerifierState := do
  failIf (v.isScalar = false ∧ size ≠ 8) pc <|
    s!"invalid size of register spill at r{base}{signedText offset.toInt}: " ++
    s!"cannot spill {v.display} partially"
  failIf (v.isPtrToStack ∧ frameno ≠ st.curframe) pc
    "cannot spill pointers to stack into stack frame of the caller"
  .ok (setFrameStack st frameno (stack.spill lo hi v))

/-- A store at a known frame: dynptrs and their slices die first, then the value is
    spilled or the covered bytes are scrubbed. -/
def frameStackWrite (pc : Nat) (base : Reg) (st : VerifierState) (offset : Int16) (size : Nat)
    (src : StoreSrc) (minOffset maxOffset : Int) (frameno : Nat) : Exec VerifierState := do
  let minOff := minOffset + offset.toInt
  let (lo, hi) := stackByteRange minOff (maxOffset + offset.toInt + size)
  let stack0 ← frameStack st frameno
  if stackSize ≤ hi then .error .panic
  else
    let (next, stack) :=
      destroySlices st (destroyDynptrs stack0 lo hi) (destroyedDynptr stack0 lo hi)
    if minOffset = maxOffset ∧ minOff % 8 = 0 then
      let v ← storeValue pc st src
      fixedStackWrite pc base offset next frameno stack lo hi size v
    else
      match corruptedSlot stack lo hi with
      | some (s, v) => fail pc <|
        s!"attempt to corrupt spilled pointer on stack at r{base}{signedText offset.toInt} " ++
        s!"(spilled {v.display} at slot {s})"
      | none =>
        let v ← storeValue pc st src
        .ok (setFrameStack next frameno
          (stack.scrub lo hi (if isZeroValue v then .zero else .misc)))

/-- A store through a stack, map value or buffer pointer. -/
def stackWrite (pc : Nat) (base : Reg) (st : VerifierState) (offset : Int16) (size : MemSize)
    (src : StoreSrc) : Exec VerifierState := do
  match ← readReg pc st base with
  | .ptrToStack minOffset maxOffset alignOff frameno =>
    checkStackAccess pc base offset minOffset maxOffset alignOff size.bytes
    frameStackWrite pc base st offset size.bytes src minOffset maxOffset frameno
  | .ptrToMapValue minOffset maxOffset alignOff valueSize _ =>
    mapValueAccessCheck pc base offset minOffset maxOffset alignOff valueSize
    memoryStoreScalar pc st src "map value"
    .ok st
  | .ptrToMem minOffset maxOffset _ _ _ =>
    memAccessCheck pc base offset minOffset maxOffset size.bytes
    memoryStoreScalar pc st src "referenced memory"
    .ok st
  | _ => fail pc (nonStackBaseError base "store")

end RandVerifier
