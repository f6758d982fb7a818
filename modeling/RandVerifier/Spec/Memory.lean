/-
  RandVerifier.Spec.Memory — the memory accesses of the safety-spec verifier (`store`, `load` and the
  atomic step of `src/spec/runner.rs`).

  An access through a stack pointer goes to the stack of the current frame: the interval
  of its offset must lie in the frame and on the grid of its size. A full-width access at
  a known offset writes or reads a spill; everything else goes byte by byte. Map values
  and acquired buffers are checked against their size and hold unknown scalars.

  The interval of a stack pointer is never inverted, so the indices below are divided as
  natural numbers are.
-/

import RandVerifier.Ctx
import RandVerifier.LittleEndian
import RandVerifier.Spec.State

namespace RandVerifier.Spec

/-- The verdict on one program; `inconclusive` is a surface that is not modelled. -/
inductive SpecVerdict where
  | accept
  | reject (pc : Nat) (message : String)
  | inconclusive
  deriving DecidableEq, Repr

theorem SpecVerdict.inconclusive_ne : SpecVerdict.inconclusive ≠ .accept := nofun

/-- A verdict that ends a run before its worklist is empty. -/
abbrev SpecStop := { v : SpecVerdict // v ≠ .accept }

/-- A step fails with the verdict of the whole run. -/
abbrev Check := Except SpecStop

def failure {α : Type} (pc : Nat) (message : String) : Check α := .error ⟨.reject pc message, nofun⟩

/-- Reject unless a condition holds. -/
def require (cond : Prop) [Decidable cond] (pc : Nat) (message : String) : Check Unit :=
  if cond then .ok () else failure pc message

/-- An immediate as an operand, sign-extended. -/
def immWord (imm : Int32) : UInt64 := imm.toInt64.toUInt64

/-! ## Ranges -/

/-- Whether every point of `[lo, hi]` is on the grid. -/
def alignedAcross (lo hi align : Int) : Bool :=
  if lo = hi then lo % align == 0
  else lo % align == 0 && hi % align == 0 && (hi - lo) % align == 0

/-- The interval of start points and the end of an access through an offset interval. -/
def accessStart (lo off : Int) : Int := clampI64 (lo + off)

def accessEnd (hi off : Int) (size : MemSize) : Int := clampI64 (clampI64 (hi + off) + size.bytes)

def checkStackRange (pc : Nat) (start stop size : Int) : Check Unit :=
  if start < -specStackSize ∨ 0 < stop then
    failure pc s!"invalid stack access (off {start}..{stop})"
  else if 4 ≤ size ∧ alignedAcross start (stop - size) size = false then
    failure pc s!"misaligned stack access (off {start}, size {size})"
  else .ok ()

def checkMapRange (pc : Nat) (start stop bound size : Int) : Check Unit :=
  if start < 0 ∨ bound < stop then
    failure pc s!"invalid access to map value (off {start}..{stop}, bound {bound})"
  else if 4 ≤ size ∧ alignedAcross start (stop - size) size = false then
    failure pc s!"misaligned access (off {start}, size {size})"
  else .ok ()

/-- The slots that the bytes from `base + start` to `base + stop` touch. -/
def touchesSlot (start stop : Int) (slot : Fin specSlots) : Prop :=
  (specStackSize + start) / 8 ≤ slot.val ∧ (slot.val : Int) ≤ (specStackSize + stop - 1) / 8

instance (start stop : Int) (slot : Fin specSlots) : Decidable (touchesSlot start stop slot) :=
  inferInstanceAs (Decidable (_ ∧ _))

/-- Whether a byte index is one of those from `base + start` to `base + stop`. -/
def inSpan (start stop : Int) (i : Fin specStackSize) : Prop :=
  specStackSize + start ≤ i.val ∧ (i.val : Int) < specStackSize + stop

instance (start stop : Int) (i : Fin specStackSize) : Decidable (inSpan start stop i) :=
  inferInstanceAs (Decidable (_ ∧ _))

/-! ## Stores -/

namespace SpecStack

/-- The tracked bytes of a stored value: those of a constant. -/
def valueByte (value : SpecValue) (i : Nat) : UInt8 :=
  match value.const? with
  | some w => wordByte w i
  | none => 0

/-- A full-width store at a known offset: the value is spilled; only the bytes of a
    constant are tracked. -/
def storeFull (pc : Nat) (stack : SpecStack) (start : Int) (value : SpecValue) : Check SpecStack :=
  match slotOf (specStackSize + start) with
  | none => failure pc "stack slot out of the frame"
  | some slot =>
    let spilled := { stack with spill := Function.update stack.spill slot (some (Spill.ofValue value)) }
    let marked := spilled.markRangeInit start 8
    match value.const? with
    | none => .ok marked
    | some w => .ok { marked with
        bytes := fun i =>
          if inSpan start (start + 8) i then wordByte w ((i.val : Int) - (specStackSize + start)).toNat
          else marked.bytes i }

/-- A narrow store at a known offset. The lower half of an empty slot brings its upper half
    along. -/
def storeNarrow (pc : Nat) (stack : SpecStack) (start : Int) (size : MemSize) (value : SpecValue) :
    Check SpecStack :=
  let abs := specStackSize + start
  if h : (abs / 8).toNat < specSlots then
    let slot : Fin specSlots := ⟨(abs / 8).toNat, h⟩
    if (stack.spill slot).any Spill.isPtr then
      failure pc "attempt to corrupt spilled pointer (narrow write)"
    else
      let upper (i : Fin specStackSize) : Prop :=
        size = .w ∧ start % 8 = 0 ∧ (stack.spill slot).isNone ∧ inSpan (start + 4) (start + 8) i
      .ok { stack with
        spill := Function.update stack.spill slot none
        init := fun i => inSpan start (start + size.bytes) i || upper i || stack.init i
        bytes := fun i =>
          if inSpan start (start + size.bytes) i then valueByte value ((i.val : Int) - abs).toNat
          else if upper i then 0
          else stack.bytes i }
  else failure pc "stack slot out of the frame"

/-- A store at an unknown offset: every byte it may write is marked, with the value 0. -/
def storeVariable (pc : Nat) (stack : SpecStack) (start stop : Int) : Check SpecStack :=
  if ∃ slot, touchesSlot start stop slot ∧ (stack.spill slot).isSome then
    failure pc "invalid indirect write to spilled value"
  else
    .ok { stack with
      init := fun i => inSpan start stop i || stack.init i
      bytes := fun i => if inSpan start stop i then 0 else stack.bytes i }

/-- A store through a stack pointer with the offset interval `[lo, hi]`. -/
def store (pc : Nat) (stack : SpecStack) (lo hi off : Int) (size : MemSize) (value : SpecValue) :
    Check SpecStack := do
  let start := accessStart lo off
  let stop := accessEnd hi off size
  checkStackRange pc start stop size.bytes
  if lo = hi then
    if size = .dw then storeFull pc stack start value else storeNarrow pc stack start size value
  else storeVariable pc stack start stop

/-! ## Loads -/

/-- Sign-extend a loaded value. -/
def applySign (v : UInt64) (size : MemSize) (signExtend : Bool) : UInt64 :=
  if signExtend then
    match size with
    | .b => v.toInt64.toInt8.toInt64.toUInt64
    | .h => v.toInt64.toInt16.toInt64.toUInt64
    | .w => v.toInt64.toInt32.toInt64.toUInt64
    | .dw => v
  else v

/-- A load at an unknown offset: every byte it may read is written and free of spills. -/
def loadVariable (pc : Nat) (stack : SpecStack) (start stop : Int) : Check SpecValue :=
  if ∃ i, inSpan start stop i ∧ stack.init i = false then
    failure pc "variable-offset stack read over uninitialized bytes"
  else if ∃ slot, touchesSlot start stop slot ∧ (stack.spill slot).isSome then
    failure pc "invalid indirect read from stack over a spilled value"
  else .ok .unknownScalar

/-- The spill that starts at a frame index. -/
def spillAt (stack : SpecStack) (abs : Int) : Option Spill := (slotOf abs).bind stack.spill

/-- A load at a known offset. -/
def loadKnown (pc : Nat) (stack : SpecStack) (start : Int) (size : MemSize) (signExtend : Bool) :
    Check SpecValue :=
  let abs := specStackSize + start
  let byBytes : Check SpecValue :=
    if ∃ i, inSpan start (start + size.bytes) i ∧ stack.init i = false then
      failure pc "stack read of uninitialized bytes"
    else .ok (.constScalar (applySign (compose (fun i => stack.byteAt (abs + i)) size.bytes) size signExtend))
  match stack.spillAt abs with
  | none => byBytes
  | some spill =>
    if size = .dw then .ok spill.value
    else if spill.isPtr then failure pc "narrow fill of a spilled pointer from stack (invalid read)"
    else byBytes

/-- A load through a stack pointer with the offset interval `[lo, hi]`. -/
def load (pc : Nat) (stack : SpecStack) (lo hi off : Int) (size : MemSize) (signExtend : Bool) :
    Check SpecValue := do
  let start := accessStart lo off
  let stop := accessEnd hi off size
  checkStackRange pc start stop size.bytes
  if lo = hi then loadKnown pc stack start size signExtend else loadVariable pc stack start stop

/-! ## Atomics -/

/-- The value an atomic at a known offset finds: the spill of its whole slot. -/
def atomicOld (stack : SpecStack) (lo hi start : Int) (size : MemSize) : SpecValue :=
  if size = .dw ∧ lo = hi then
    match stack.spillAt (specStackSize + start) with
    | some spill => spill.value
    | none => .unknownScalar
  else .unknownScalar

/-- What an atomic leaves: its bytes are marked and its spills dropped. -/
def atomicMark (stack : SpecStack) (start stop : Int) : SpecStack :=
  { stack with
    init := fun i => inSpan start stop i || stack.init i
    spill := fun slot => if touchesSlot start stop slot then none else stack.spill slot }

end SpecStack

/-! ## The memory instructions -/

/-- `store`: the state after a store of `value`. -/
def store (s : SpecState) (pc : Nat) (base : Reg) (off : Int) (size : MemSize) (value : SpecValue) :
    Check SpecState :=
  match s.reg base with
  | .ptrToStack lo hi => do
    let stack ← s.cur.stack.store pc lo hi off size value
    .ok (s.setStack stack)
  | .ptrToMapValue lo hi bound | .ptrToMem lo hi bound _ => do
    checkMapRange pc (accessStart lo off) (accessEnd hi off size) bound size.bytes
    .ok s
  | .ptrToMapValueOrNull .. =>
    failure pc "invalid mem access of a map value pointer (NULL not yet refined)"
  | _ => failure pc "invalid mem access (non-pointer base)"

/-- The largest unsigned value of a plain load. -/
def widthMax : MemSize → UInt64
  | .b => 0xff
  | .h => 0xffff
  | .w => 0xffffffff
  | .dw => u64Max

/-- A context read through the table of the program type. -/
def ctxLoad (prog : ProgType) (pc : Nat) (total : Int) (size : MemSize) (signExtend : Bool) :
    Check SpecValue :=
  if total < -2 ^ 31 ∨ 2 ^ 31 ≤ total then failure pc "context access with an out-of-range offset"
  else match Ctx.read prog total size.bytes with
    | .ok .scalar => .ok (if signExtend then .unknownScalar else .scalar 0 (widthMax size))
    | .ok (.pointer field) =>
      failure pc s!"ctx load of unmapped pointer field {field} (prog type {prog.display})"
    | .error (.unmodeled field) =>
      failure pc s!"ctx load of unmodeled field {field} (prog type {prog.display})"
    | .error .invalid => failure pc s!"invalid bpf_context access off={total} size={size.bytes}"

/-- `load`: the loaded value; the state does not change. -/
def load (prog : ProgType) (s : SpecState) (pc : Nat) (base : Reg) (off : Int) (size : MemSize)
    (signExtend : Bool) : Check SpecValue :=
  match s.reg base with
  | .ptrToStack lo hi => s.cur.stack.load pc lo hi off size signExtend
  | .ptrToCtx baseOff => ctxLoad prog pc (clampI64 (baseOff + off)) size signExtend
  | .ptrToMapValue lo hi bound | .ptrToMem lo hi bound _ => do
    checkMapRange pc (accessStart lo off) (accessEnd hi off size) bound size.bytes
    .ok .unknownScalar
  | .ptrToMapValueOrNull .. =>
    failure pc "invalid mem access of a map value pointer (NULL not yet refined)"
  | .uninit => failure pc "invalid mem access (uninitialized base)"
  | _ => failure pc "invalid mem access (non-pointer base)"

/-- The memory side of an atomic: the value found, and the state with the location unknown. -/
def atomicAccess (s : SpecState) (pc : Nat) (dst : Reg) (off : Int) (size : MemSize) :
    Check (SpecValue × SpecState) :=
  match s.reg dst with
  | .ptrToStack lo hi => do
    let start := accessStart lo off
    let stop := accessEnd hi off size
    checkStackRange pc start stop size.bytes
    .ok (s.cur.stack.atomicOld lo hi start size, s.setStack (s.cur.stack.atomicMark start stop))
  | .ptrToMapValue lo hi bound => do
    checkMapRange pc (accessStart lo off) (accessEnd hi off size) bound size.bytes
    .ok (.unknownScalar, s)
  | _ => failure pc "atomic access through a non-atomic-able pointer"

/-- Where an atomic leaves the value it found. -/
def atomicResult (s : SpecState) (src : Reg) (op : AtomicOp) (fetch : Bool) (old : SpecValue) : SpecState :=
  if op = .cmpxchg then s.setReg 0 old else if fetch then s.setReg src old else s

/-- `STX|ATOMIC` on a stack slot or a map value. -/
def atomic (s : SpecState) (pc : Nat) (dst src : Reg) (off : Int) (size : MemSize) (op : AtomicOp)
    (fetch : Bool) : Check SpecState := do
  require (off % size.bytes = 0) pc "misaligned atomic access"
  require (s.reg src ≠ .uninit) pc "atomic operand is uninitialized"
  let (old, s') ← atomicAccess s pc dst off size
  .ok (atomicResult s' src op fetch old)

end RandVerifier.Spec
