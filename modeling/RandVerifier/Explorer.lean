/-
  RandVerifier.Explorer — the concrete interpreter and path explorer (`src/concrete.rs`).

  Registers and stack slots hold actual values; `none` is uninitialized. A helper result
  forks the path over its seeds, everything else has one successor. The explorer pops the
  worklist in LIFO order, skips a state it has seen at the same instruction, and threads
  one map memory through all the paths.

  Fixed-width arithmetic wraps. A stack pointer whose frame is gone, a remainder by zero and
  an instruction that the dispatch never passes on are panics of the source.
-/

import RandVerifier.Alu
import RandVerifier.Branch
import RandVerifier.Helper
import RandVerifier.Liveness
import Mathlib.Data.Fintype.Pi

namespace RandVerifier.Explorer

/-! ## Values and states -/

/-- The fixed address of the frame base (R10). -/
def stackBase : UInt64 := 0x1000

/-- The fixed address of the program context (R1 at entry). -/
def ctxBase : UInt64 := 0x2000

/-- A concrete register value with its kind. A map pointer without an index is the map
    object; NULL is the scalar 0. -/
inductive ConcreteValue where
  | scalar (v : UInt64)
  | stackPtr (addr : UInt64) (frameno : Nat)
  | ctxPtr (addr : UInt64)
  | mapPtr (fd : Nat) (index : Option UInt64) (offset : Int64)
  | memPtr (addr : UInt64)
  deriving DecidableEq, Repr

def rotateLeft (v : UInt64) (k : UInt64) : UInt64 := (v <<< k) ||| (v >>> (64 - k))

/-- The raw 64-bit value; pointers carry their address. -/
def ConcreteValue.bits : ConcreteValue → UInt64
  | scalar v | stackPtr v _ | ctxPtr v | memPtr v => v
  | mapPtr fd index offset =>
    (UInt64.ofNat fd <<< 32) ^^^ rotateLeft (index.getD 0) 11 ^^^ offset.toUInt64

abbrev ConcreteRegs := Reg → Option ConcreteValue
abbrev ConcreteStack := Fin stackSlots → Option ConcreteValue

structure ConcreteFrame where
  regs : ConcreteRegs
  stack : ConcreteStack
  retPc : Nat

-- the derived instance casts along equalities of functions and does not compute
instance : DecidableEq ConcreteFrame := fun a b =>
  decidable_of_iff (a.regs = b.regs ∧ a.stack = b.stack ∧ a.retPc = b.retPc)
    ⟨fun ⟨h₁, h₂, h₃⟩ => by cases a; cases b; simp_all, fun h => by rw [h]; exact ⟨rfl, rfl, rfl⟩⟩

/-- The current frame, the saved caller frames by depth, and the program type. -/
structure ConcreteState where
  regs : ConcreteRegs
  stack : ConcreteStack
  saved : Fin (maxCallFrames - 1) → Option ConcreteFrame
  curframe : Nat
  retPc : Nat
  progType : ProgType

instance : DecidableEq ConcreteState := fun a b =>
  decidable_of_iff (a.regs = b.regs ∧ a.stack = b.stack ∧ a.saved = b.saved ∧
      a.curframe = b.curframe ∧ a.retPc = b.retPc ∧ a.progType = b.progType)
    ⟨fun ⟨h₁, h₂, h₃, h₄, h₅, h₆⟩ => by cases a; cases b; simp_all,
      fun h => by rw [h]; exact ⟨rfl, rfl, rfl, rfl, rfl, rfl⟩⟩

/-- A concrete execution failure, one for each reason of a rejection. -/
inductive ConcreteFailure where
  | uninitializedRead (pc : Nat) (reg : Reg)
  | stackOutOfFrame (pc : Nat) (offset : Int32)
  | misalignedStackAccess (pc : Nat) (offset : Int32)
  | uninitializedStackRead (pc : Nat) (offset : Int32)
  | pointerArithmetic (pc : Nat) (reg : Reg)
  | nonStackBase (pc : Nat) (reg : Reg)
  | invalidShiftAmount (pc : Nat) (amount : UInt64)
  | unknownHelper (pc : Nat) (imm : Int32)
  | unsupportedKfunc (pc : Nat)
  | helperArgMismatch (pc : Nat) (arg : Reg)
  | invalidComparison (pc : Nat) (dst src : Reg)
  | invalidComparisonImm (pc : Nat) (dst : Reg)
  | mapValueOutOfBounds (pc : Nat) (offset : Int64)
  | ctxReadUnsupported (pc : Nat) (field : String)
  | invalidCtxAccess (pc : Nat) (off : Int32) (size : Nat)
  | unsupportedHelperReturn (pc : Nat) (imm : Int32)
  | internalError (pc : Nat)
  deriving DecidableEq, Repr

inductive Halt where
  | failure (f : ConcreteFailure)
  | panic
  deriving DecidableEq, Repr

abbrev Eval := Except Halt

def halt {α : Type} (f : ConcreteFailure) : Eval α := .error (.failure f)

namespace ConcreteState

def setReg (s : ConcreteState) (r : Reg) (v : ConcreteValue) : ConcreteState :=
  { s with regs := Function.update s.regs r (some v) }

/-- R1..R5 are scratch across a call. -/
def clobberArgs (s : ConcreteState) : ConcreteState :=
  { s with regs := fun r => if 1 ≤ r ∧ r ≤ 5 then none else s.regs r }

/-- R1 is the context pointer, R10 the frame pointer of frame 0. -/
def initialWith (progType : ProgType) : ConcreteState where
  regs r :=
    if r = 1 then some (.ctxPtr ctxBase) else if r = 10 then some (.stackPtr stackBase 0) else none
  stack _ := none
  saved _ := none
  curframe := 0
  retPc := 0
  progType := progType

/-- The saved frame at a depth. -/
def savedAt (s : ConcreteState) (depth : Nat) : Option ConcreteFrame :=
  if h : depth < maxCallFrames - 1 then s.saved ⟨depth, h⟩ else none

/-- Enter a subprogram: save the current frame; the callee gets R1..R5 and its own R10. -/
def callSubprog (s : ConcreteState) (returnPc : Nat) : Eval ConcreteState :=
  if h : s.curframe < maxCallFrames - 1 then
    .ok { s with
      regs := fun r =>
        if 1 ≤ r ∧ r ≤ 5 then s.regs r
        else if r = 10 then some (.stackPtr stackBase (s.curframe + 1)) else none
      stack := fun _ => none
      saved := Function.update s.saved ⟨s.curframe, h⟩ (some ⟨s.regs, s.stack, s.retPc⟩)
      curframe := s.curframe + 1
      retPc := returnPc }
  else halt (.internalError 0)

/-- Return from a subprogram: restore the caller with the callee's R0. Without a saved
    caller only the depth changes. -/
def returnFromSubprog (s : ConcreteState) : ConcreteState :=
  if s.curframe = 0 then s
  else
    let depth := s.curframe - 1
    match s.savedAt depth with
    | none => { s with curframe := depth }
    | some caller =>
      clobberArgs { s with
        regs := Function.update caller.regs 0 (s.regs 0)
        stack := caller.stack
        saved := fun k => if k.val = depth then none else s.saved k
        curframe := depth
        retPc := caller.retPc }

end ConcreteState

/-- Drop the registers (R10 apart) and slots that are dead before `pc`. -/
def cleanConcreteState (s : ConcreteState) (pc : Nat) (liveness : Liveness) : ConcreteState :=
  { s with
    regs := fun r =>
      if r ≠ 10 ∧ liveness.liveRegsBefore pc &&& regBit r = 0 then none else s.regs r
    stack := fun i => if liveness.liveStackBefore pc &&& slotBit i = 0 then none else s.stack i }

/-! ## The map memory -/

structure Cell where
  fd : Nat
  index : UInt64
  offset : Int64
  deriving DecidableEq, Repr

/-- Cells in lexicographic order. -/
def Cell.before (a b : Cell) : Bool :=
  a.fd < b.fd || a.fd == b.fd &&
    (a.index < b.index || a.index == b.index && decide (a.offset < b.offset))

/-- The written cells, in order, so that equal maps are equal lists. -/
structure MapMem where
  cells : List (Cell × UInt64)
  deriving DecidableEq, Repr

namespace MapMem

def empty : MapMem := ⟨[]⟩

def insertCell (c : Cell) (v : UInt64) : List (Cell × UInt64) → List (Cell × UInt64)
  | [] => [(c, v)]
  | (c', v') :: rest =>
    if c = c' then (c, v) :: rest
    else if c.before c' then (c, v) :: (c', v') :: rest
    else (c', v') :: insertCell c v rest

def insert (m : MapMem) (c : Cell) (v : UInt64) : MapMem := ⟨insertCell c v m.cells⟩

/-- A cell that was never written is zero. -/
def get (m : MapMem) (c : Cell) : UInt64 := ((m.cells.find? (·.1 = c)).map (·.2)).getD 0

theorem find_insertCell (c c' : Cell) (v : UInt64) (l : List (Cell × UInt64)) :
    (insertCell c v l).find? (·.1 = c') = if c = c' then some (c, v) else l.find? (·.1 = c') := by
  induction l with
  | nil =>
    simp only [insertCell, List.find?_cons, List.find?_nil]
    split <;> simp_all
  | cons p rest ih =>
    obtain ⟨c₁, v₁⟩ := p
    unfold insertCell
    by_cases h1 : c = c₁
    · rw [if_pos h1]
      subst h1
      by_cases h : c = c' <;> simp [h]
    · rw [if_neg h1]
      by_cases hb : c.before c₁ = true
      · rw [if_pos hb]
        by_cases h : c = c' <;> simp [h]
      · rw [if_neg hb, List.find?_cons, ih, List.find?_cons]
        by_cases h : c₁ = c'
        · have hne : ¬ c = c' := fun e => h1 (e.trans h.symm)
          simp [h, hne]
        · simp [h]

/-- A write changes its own cell and no other. -/
theorem get_insert (m : MapMem) (c c' : Cell) (v : UInt64) :
    (m.insert c v).get c' = if c = c' then v else m.get c' := by
  unfold get insert
  rw [find_insertCell]
  split <;> rfl

end MapMem

structure MapInfo where
  keySize : Nat
  valueSize : Nat
  maxEntries : Nat
  deriving DecidableEq, Repr

/-- The registry of maps by file descriptor. -/
abbrev Maps := Nat → Option MapInfo

/-! ## Registers and stack -/

/-- A register must have been written before it is read. -/
def readConcreteReg (pc : Nat) (s : ConcreteState) (reg : Reg) : Eval ConcreteValue :=
  match s.regs reg with
  | none => halt (.uninitializedRead pc reg)
  | some v => .ok v

instance : NeZero stackSlots := ⟨by decide⟩

/-- The slot of an access and its byte offset in the slot: inside the frame, aligned to its
    size. A size of 0 is a remainder by zero. -/
def concreteStackRange (pc : Nat) (offset : Int32) (size : Nat) : Eval (Fin stackSlots × Nat) :=
  let off := offset.toInt
  if 0 ≤ off ∨ off < -stackSize then halt (.stackOutOfFrame pc offset)
  else if size = 0 then .error .panic
  else if off % size ≠ 0 then halt (.misalignedStackAccess pc offset)
  else if 0 < off + size then halt (.stackOutOfFrame pc offset)
  else
    let b := (-off - 1).toNat
    .ok (Fin.ofNat stackSlots (b / 8), 7 - b % 8)

/-- The stack of the frame a stack pointer belongs to. -/
def concreteFrameStack (s : ConcreteState) (frameno : Nat) : Eval ConcreteStack :=
  if frameno = s.curframe then .ok s.stack
  else match s.savedAt frameno with
    | none => .error .panic
    | some fr => .ok fr.stack

/-- Replace the contents of a slot of a frame. -/
def setFrameSlot (s : ConcreteState) (frameno : Nat) (slot : Fin stackSlots)
    (v : Option ConcreteValue) : Eval ConcreteState :=
  if frameno = s.curframe then .ok { s with stack := Function.update s.stack slot v }
  else match s.savedAt frameno with
    | none => .error .panic
    | some fr =>
      .ok { s with saved := fun k =>
        if k.val = frameno then some { fr with stack := Function.update fr.stack slot v }
        else s.saved k }

/-- The low `size` bytes. -/
def lowMask (size : Nat) : UInt64 := if size * 8 = 64 then u64Max else (1 <<< UInt64.ofNat (size * 8)) - 1

/-- Merge a store into a slot: a full store keeps the value with its kind, a partial one
    overwrites the covered bytes and keeps the others (zero in an unwritten slot). -/
def concreteMerge (s : ConcreteState) (frameno : Nat) (slot : Fin stackSlots) (inSlot size : Nat)
    (v : ConcreteValue) : Eval ConcreteState := do
  let stack ← concreteFrameStack s frameno
  if inSlot = 0 ∧ size = 8 then setFrameSlot s frameno slot (some v)
  else
    let raw := v.bits &&& lowMask size
    let existing := ((stack slot).map (·.bits)).getD 0
    let loBit := UInt64.ofNat (inSlot * 8)
    let merged := (existing &&& ~~~(lowMask size <<< loBit)) ||| (raw <<< loBit)
    setFrameSlot s frameno slot (some (.scalar merged))

/-- Extract the covered bytes of a slot value, zero- or sign-extended. -/
def concreteExtract (v : ConcreteValue) (inSlot size : Nat) (signExtend : Bool) : ConcreteValue :=
  if inSlot = 0 ∧ size = 8 then v
  else
    let raw := (v.bits >>> UInt64.ofNat (inSlot * 8)) &&& lowMask size
    if signExtend ∧ raw &&& (1 <<< UInt64.ofNat (size * 8 - 1)) ≠ 0 then
      .scalar (raw ||| ~~~lowMask size)
    else .scalar raw

/-- The frame of a stack pointer base and the r10-relative offset of an access. -/
def stackPtrAccess (pc : Nat) (reg : Reg) (base : ConcreteValue) (off : Int16) :
    Eval (Nat × Int32) :=
  match base with
  | .stackPtr addr frameno =>
    .ok (frameno, (addr.toInt64 - stackBase.toInt64 + off.toInt64).toInt32)
  | _ => halt (.nonStackBase pc reg)

/-! ## ALU -/

/-- The pointer result of `base + k` on the frame offset; the sum saturates. -/
def stackPtrAddImm (addr : UInt64) (imm : Int32) : UInt64 :=
  let offset := clampI64 ((addr.toInt64 - stackBase.toInt64).toInt + imm.toInt)
  (stackBase.toInt64 + Int64.ofInt offset).toUInt64

/-- `checked_add` on the offset of a map pointer. -/
def mapOffsetAdd (pc : Nat) (dst : Reg) (offset k : Int64) : Eval Int64 :=
  let sum := offset.toInt + k.toInt
  if -2 ^ 63 ≤ sum ∧ sum < 2 ^ 63 then .ok (Int64.ofInt sum) else halt (.pointerArithmetic pc dst)

/-- ADD and SUB move a context pointer. -/
def ctxPtrMove (pc : Nat) (dst : Reg) (addr k : UInt64) (op : AluOp) (width : AluWidth) :
    Eval ConcreteValue :=
  if width ≠ .w64 then halt (.pointerArithmetic pc dst)
  else match op with
    | .add => .ok (.ctxPtr (addr + k))
    | .sub => .ok (.ctxPtr (addr - k))
    | _ => halt (.pointerArithmetic pc dst)

def concreteAluImm (pc : Nat) (s : ConcreteState) (dst : Reg) (imm : Int32) (op : AluOp)
    (width : AluWidth) : Eval ConcreteState := do
  if op.isShift ∧ ¬ (0 ≤ imm.toInt ∧ imm.toInt < width.bitness) then
    halt (.invalidShiftAmount pc imm.toInt64.toUInt64)
  else
    let value ← readConcreteReg pc s dst
    match value with
    | .scalar d => .ok (s.setReg dst (.scalar (aluConst width op d imm.toInt64.toUInt64)))
    | .stackPtr addr frameno =>
      if op ≠ .add ∨ width ≠ .w64 then halt (.pointerArithmetic pc dst)
      else .ok (s.setReg dst (.stackPtr (stackPtrAddImm addr imm) frameno))
    | .mapPtr fd index offset =>
      if op ≠ .add ∨ width ≠ .w64 then halt (.pointerArithmetic pc dst)
      else do
        let moved ← mapOffsetAdd pc dst offset imm.toInt64
        .ok (s.setReg dst (.mapPtr fd index moved))
    | .ctxPtr addr => do
      let moved ← ctxPtrMove pc dst addr imm.toInt64.toUInt64 op width
      .ok (s.setReg dst moved)
    | .memPtr _ => halt (.pointerArithmetic pc dst)

/-- The value of a register ALU operation. A pointer operand only takes part in an ADD
    (a context pointer in a SUB too); the pointer may be on either side. -/
def concreteAluValue (pc : Nat) (dst : Reg) (op : AluOp) (width : AluWidth) :
    ConcreteValue → ConcreteValue → Eval ConcreteValue
  | .scalar d, .scalar s => .ok (.scalar (aluConst width op d s))
  | .stackPtr addr frameno, .scalar k | .scalar k, .stackPtr addr frameno =>
    if op ≠ .add ∨ width ≠ .w64 then halt (.pointerArithmetic pc dst)
    else .ok (.stackPtr (addr + k) frameno)
  | .mapPtr fd index offset, .scalar k | .scalar k, .mapPtr fd index offset =>
    if op ≠ .add ∨ width ≠ .w64 then halt (.pointerArithmetic pc dst)
    else do
      let moved ← mapOffsetAdd pc dst offset k.toInt64
      .ok (.mapPtr fd index moved)
  | .ctxPtr addr, .scalar k | .scalar k, .ctxPtr addr => ctxPtrMove pc dst addr k op width
  | _, _ => halt (.pointerArithmetic pc dst)

def concreteAluReg (pc : Nat) (s : ConcreteState) (dst src : Reg) (op : AluOp) (width : AluWidth) :
    Eval ConcreteState := do
  let d ← readConcreteReg pc s dst
  let v ← readConcreteReg pc s src
  let result ← concreteAluValue pc dst op width d v
  .ok (s.setReg dst result)

def readConcreteScalar (pc : Nat) (s : ConcreteState) (reg : Reg) (f : ConcreteFailure) :
    Eval UInt64 := do
  let value ← readConcreteReg pc s reg
  match value with
  | .scalar v => .ok v
  | _ => halt f

def concreteMulHigh (pc : Nat) (s : ConcreteState) (dst : Reg) (imm : Int32) (high : MulHigh) :
    Eval ConcreteState := do
  let a ← readConcreteScalar pc s dst (.pointerArithmetic pc dst)
  .ok (s.setReg dst (.scalar (hmulConst a imm.toInt64.toUInt64 high)))

def concreteMulHighReg (pc : Nat) (s : ConcreteState) (dst src : Reg) (high : MulHigh) :
    Eval ConcreteState :=
  if high = .low then concreteAluReg pc s dst src .mul .w64
  else do
    let a ← readConcreteReg pc s dst
    let b ← readConcreteReg pc s src
    match a, b with
    | .scalar a, .scalar b => .ok (s.setReg dst (.scalar (hmulConst a b high)))
    | _, _ => halt (.pointerArithmetic pc dst)

def concreteNeg (pc : Nat) (s : ConcreteState) (dst : Reg) (width : AluWidth) :
    Eval ConcreteState := do
  let a ← readConcreteScalar pc s dst (.pointerArithmetic pc dst)
  .ok (s.setReg dst (.scalar (aluConst width .neg a 0)))

/-! ## Memory -/

/-- A register the program may spill before it is written leaves the slot unknown. -/
def concreteStMem (pc : Nat) (s : ConcreteState) (src base : Reg) (offset : Int16) (size : MemSize) :
    Eval ConcreteState := do
  let baseValue ← readConcreteReg pc s base
  let (frameno, off) ← stackPtrAccess pc base baseValue offset
  let (slot, inSlot) ← concreteStackRange pc off size.bytes
  match s.regs src with
  | none => setFrameSlot s frameno slot none
  | some v => concreteMerge s frameno slot inSlot size.bytes v

def concreteStMemImm (pc : Nat) (s : ConcreteState) (imm : Int32) (base : Reg) (offset : Int16)
    (size : MemSize) : Eval ConcreteState := do
  let baseValue ← readConcreteReg pc s base
  let (frameno, off) ← stackPtrAccess pc base baseValue offset
  let (slot, inSlot) ← concreteStackRange pc off size.bytes
  concreteMerge s frameno slot inSlot size.bytes (.scalar imm.toInt64.toUInt64)

/-- A context field reads as 0, a representative of its unknown value. -/
def concreteCtxRead (pc : Nat) (s : ConcreteState) (dst : Reg) (addr : UInt64) (offset : Int16)
    (size : MemSize) : Eval ConcreteState :=
  let off := ((addr - ctxBase).toInt64 + offset.toInt64).toInt32
  match Ctx.read s.progType off.toInt size.bytes with
  | .ok .scalar => .ok (s.setReg dst (.scalar 0))
  | .ok (.pointer field) | .error (.unmodeled field) => halt (.ctxReadUnsupported pc field)
  | .error .invalid => halt (.invalidCtxAccess pc off size.bytes)

def concreteLdMem (pc : Nat) (s : ConcreteState) (dst base : Reg) (offset : Int16) (size : MemSize)
    (signExtend : Bool) : Eval ConcreteState := do
  let baseValue ← readConcreteReg pc s base
  match baseValue with
  | .ctxPtr addr => concreteCtxRead pc s dst addr offset size
  | _ => do
    let (frameno, off) ← stackPtrAccess pc base baseValue offset
    let (slot, inSlot) ← concreteStackRange pc off size.bytes
    let stack ← concreteFrameStack s frameno
    match stack slot with
    | none => halt (.uninitializedStackRead pc off)
    | some v => .ok (s.setReg dst (concreteExtract v inSlot size.bytes signExtend))

/-- The scalar bits of a value; a pointer counts as 0. -/
def ConcreteValue.scalarBits : ConcreteValue → UInt64
  | .scalar v => v
  | _ => 0

/-- The value an atomic leaves behind; cmpxchg compares with R0. -/
def atomicResult (op : AtomicOp) (old src r0 : UInt64) : UInt64 :=
  match op with
  | .add => old + src
  | .or => old ||| src
  | .and => old &&& src
  | .xor => old ^^^ src
  | .xchg => src
  | .cmpxchg => if old = r0 then src else old

/-- The old value of an atomic's stack slot, exact for a full slot, and the slot. -/
def atomicTarget (pc : Nat) (s : ConcreteState) (dst : Reg) (base : ConcreteValue) (offset : Int16)
    (size : MemSize) : Eval (ConcreteValue × Option (Nat × Fin stackSlots × Nat)) :=
  match base with
  | .stackPtr .. => do
    let (frameno, off) ← stackPtrAccess pc dst base offset
    let (slot, inSlot) ← concreteStackRange pc off size.bytes
    let stack ← concreteFrameStack s frameno
    match stack slot with
    | none => halt (.uninitializedStackRead pc off)
    | some v =>
      .ok (if size.bytes = 8 ∧ inSlot = 0 then v else .scalar 0, some (frameno, slot, inSlot))
  | _ => .ok (.scalar 0, none)

/-- A full slot with a scalar is updated, any other target keeps its contents. -/
def atomicStore (s : ConcreteState) (target : Option (Nat × Fin stackSlots × Nat)) (size : MemSize)
    (old : ConcreteValue) (result : UInt64) : Eval ConcreteState :=
  match target, old with
  | some (frameno, slot, inSlot), .scalar _ =>
    if size.bytes = 8 ∧ inSlot = 0 then setFrameSlot s frameno slot (some (.scalar result)) else .ok s
  | _, _ => .ok s

/-- The old value lands in R0 (cmpxchg) or, fetched, in the source register. -/
def fetchOld (s : ConcreteState) (src : Reg) (op : AtomicOp) (fetch : Bool) (old : ConcreteValue) :
    ConcreteState :=
  if op = .cmpxchg then s.setReg 0 old else if fetch then s.setReg src old else s

def concreteAtomic (pc : Nat) (s : ConcreteState) (dst src : Reg) (offset : Int16) (size : MemSize)
    (op : AtomicOp) (fetch : Bool) : Eval ConcreteState := do
  let base ← readConcreteReg pc s dst
  let srcValue ← readConcreteReg pc s src
  match base, srcValue with
  | .ctxPtr _, _ => halt (.invalidCtxAccess pc offset.toInt32 size.bytes)
  | _, .scalar srcBits =>
    if offset.toInt % size.bytes ≠ 0 then halt (.internalError pc)
    else do
      let (old, target) ← atomicTarget pc s dst base offset size
      let result := atomicResult op old.scalarBits srcBits (((s.regs 0).map (·.scalarBits)).getD 0)
      let stored ← atomicStore s target size old result
      .ok (fetchOld stored src op fetch old)
  | _, _ => halt (.internalError pc)

/-! ## One instruction -/

/-- Execute an instruction that falls through. -/
def concreteStep (pc : Nat) (s : ConcreteState) : BpfInsn → Eval ConcreteState
  | .movImm dst imm => .ok (s.setReg dst (.scalar imm.toInt64.toUInt64))
  | .mov32Imm dst imm => .ok (s.setReg dst (.scalar imm.toUInt32.toUInt64))
  | .mov32Reg dst src => do
    let v ← readConcreteScalar pc s src (.internalError pc)
    .ok (s.setReg dst (.scalar v.toUInt32.toUInt64))
  | .movReg dst src => do
    let v ← readConcreteReg pc s src
    .ok (s.setReg dst v)
  | .atomic dst src offset size op fetch => concreteAtomic pc s dst src offset size op fetch
  -- there is no packet: its bytes read as 0
  | .ldAbs _ _ => .ok (s.setReg 0 (.scalar 0))
  | .ldInd src _ _ => do
    let _ ← readConcreteReg pc s src
    .ok (s.setReg 0 (.scalar 0))
  | .addImm dst imm => concreteAluImm pc s dst imm .add .w64
  | .addReg dst src => concreteAluReg pc s dst src .add .w64
  | .subImm dst imm => concreteAluImm pc s dst imm .sub .w64
  | .subReg dst src => concreteAluReg pc s dst src .sub .w64
  | .andImm dst imm => concreteAluImm pc s dst imm .and .w64
  | .andReg dst src => concreteAluReg pc s dst src .and .w64
  | .orImm dst imm => concreteAluImm pc s dst imm .or .w64
  | .orReg dst src => concreteAluReg pc s dst src .or .w64
  | .xorImm dst imm => concreteAluImm pc s dst imm .xor .w64
  | .xorReg dst src => concreteAluReg pc s dst src .xor .w64
  | .lshImm dst imm => concreteAluImm pc s dst imm .lsh .w64
  | .lshReg dst src => concreteAluReg pc s dst src .lsh .w64
  | .rshImm dst imm => concreteAluImm pc s dst imm .rsh .w64
  | .rshReg dst src => concreteAluReg pc s dst src .rsh .w64
  | .arshImm dst imm => concreteAluImm pc s dst imm .arsh .w64
  | .arshReg dst src => concreteAluReg pc s dst src .arsh .w64
  | .add32Imm dst imm => concreteAluImm pc s dst imm .add .w32
  | .add32Reg dst src => concreteAluReg pc s dst src .add .w32
  | .sub32Imm dst imm => concreteAluImm pc s dst imm .sub .w32
  | .sub32Reg dst src => concreteAluReg pc s dst src .sub .w32
  | .and32Imm dst imm => concreteAluImm pc s dst imm .and .w32
  | .and32Reg dst src => concreteAluReg pc s dst src .and .w32
  | .or32Imm dst imm => concreteAluImm pc s dst imm .or .w32
  | .or32Reg dst src => concreteAluReg pc s dst src .or .w32
  | .xor32Imm dst imm => concreteAluImm pc s dst imm .xor .w32
  | .xor32Reg dst src => concreteAluReg pc s dst src .xor .w32
  | .lsh32Imm dst imm => concreteAluImm pc s dst imm .lsh .w32
  | .lsh32Reg dst src => concreteAluReg pc s dst src .lsh .w32
  | .rsh32Imm dst imm => concreteAluImm pc s dst imm .rsh .w32
  | .rsh32Reg dst src => concreteAluReg pc s dst src .rsh .w32
  | .arsh32Imm dst imm => concreteAluImm pc s dst imm .arsh .w32
  | .arsh32Reg dst src => concreteAluReg pc s dst src .arsh .w32
  | .mulImm dst imm high => concreteMulHigh pc s dst imm high
  | .mulReg dst src high => concreteMulHighReg pc s dst src high
  | .divImm dst imm => concreteAluImm pc s dst imm .div .w64
  | .divReg dst src => concreteAluReg pc s dst src .div .w64
  | .modImm dst imm => concreteAluImm pc s dst imm .mod .w64
  | .modReg dst src => concreteAluReg pc s dst src .mod .w64
  | .neg dst => concreteNeg pc s dst .w64
  | .mul32Imm dst imm => concreteAluImm pc s dst imm .mul .w32
  | .mul32Reg dst src => concreteAluReg pc s dst src .mul .w32
  | .div32Imm dst imm => concreteAluImm pc s dst imm .div .w32
  | .div32Reg dst src => concreteAluReg pc s dst src .div .w32
  | .mod32Imm dst imm => concreteAluImm pc s dst imm .mod .w32
  | .mod32Reg dst src => concreteAluReg pc s dst src .mod .w32
  | .neg32 dst => concreteNeg pc s dst .w32
  | .ldImm64 dst imm => .ok (s.setReg dst (.scalar imm))
  | .ldImm64Second _ => .ok s
  | .stMem src base offset size => concreteStMem pc s src base offset size
  | .stMemImm imm base offset size => concreteStMemImm pc s imm base offset size
  | .ldMem dst base offset size signExtend => concreteLdMem pc s dst base offset size signExtend
  -- expanded by the explorer
  | _ => .error .panic

/-! ## Branches -/

abbrev ConcreteSucc := Nat × ConcreteState

instance concreteSucc_lawfulBEq : LawfulBEq ConcreteSucc := inferInstance

/-- A comparison of two words. -/
def condHolds (op : CondOp) (a b : UInt64) : Bool :=
  match op with
  | .eq => a == b
  | .ne => a != b
  | .ugt => b < a
  | .uge => b ≤ a
  | .ult => a < b
  | .ule => a ≤ b
  | .sgt => b.toInt64 < a.toInt64
  | .sge => b.toInt64 ≤ a.toInt64
  | .slt => a.toInt64 < b.toInt64
  | .sle => a.toInt64 ≤ b.toInt64

/-- Pointers of one kind compare for equality only. -/
def condEqual (op : CondOp) (same : Bool) (f : ConcreteFailure) : Eval Bool :=
  match op with
  | .eq => .ok same
  | .ne => .ok (!same)
  | _ => halt f

/-- The verdict of a comparison. A pointer to a map value or a buffer differs from NULL;
    other mixed operands compare by their bits. -/
def concreteTaken (op : CondOp) (f : ConcreteFailure) : ConcreteValue → ConcreteValue → Eval Bool
  | .scalar d, .scalar s => .ok (condHolds op d s)
  | .stackPtr d _, .stackPtr s _ => condEqual op (d == s) f
  | .ctxPtr d, .ctxPtr s => condEqual op (d == s) f
  | .memPtr d, .memPtr s => condEqual op (d == s) f
  | .mapPtr fd i o, .mapPtr fd' i' o' => condEqual op (fd == fd' && i == i' && o == o') f
  | .mapPtr fd i o, .scalar s =>
    if s = 0 then condEqual op false f else .ok (condHolds op (ConcreteValue.mapPtr fd i o).bits s)
  | .scalar s, .mapPtr fd i o =>
    if s = 0 then condEqual op false f else .ok (condHolds op s (ConcreteValue.mapPtr fd i o).bits)
  | .memPtr d, .scalar s =>
    if s = 0 then condEqual op false f else .ok (condHolds op d s)
  | .scalar s, .memPtr d =>
    if s = 0 then condEqual op false f else .ok (condHolds op s d)
  | d, s => .ok (condHolds op d.bits s.bits)

/-- The one successor of a decided branch. -/
def branchTo (pc : Nat) (s : ConcreteState) (offset : Int16) (taken : Bool) : List ConcreteSucc :=
  [(if taken then branchTarget pc offset else pc + 1, s)]

def concreteCond (pc : Nat) (dst src : Reg) (offset : Int16) (op : CondOp) (s : ConcreteState) :
    Eval (List ConcreteSucc) := do
  let d ← readConcreteReg pc s dst
  let v ← readConcreteReg pc s src
  let taken ← concreteTaken op (.invalidComparison pc dst src) d v
  .ok (branchTo pc s offset taken)

/-- The verdict of a comparison with an immediate. -/
def concreteTakenImm (op : CondOp) (f : ConcreteFailure) (imm : Int32) : ConcreteValue → Eval Bool
  | .scalar d => .ok (condHolds op d imm.toInt64.toUInt64)
  | .mapPtr fd i o =>
    if imm = 0 then condEqual op false f
    else .ok (condHolds op (ConcreteValue.mapPtr fd i o).bits imm.toInt64.toUInt64)
  | .memPtr d =>
    if imm = 0 then condEqual op false f else .ok (condHolds op d imm.toInt64.toUInt64)
  | d => .ok (condHolds op d.bits imm.toInt64.toUInt64)

def concreteCondImm (pc : Nat) (dst : Reg) (imm : Int32) (offset : Int16) (op : CondOp)
    (s : ConcreteState) : Eval (List ConcreteSucc) := do
  let d ← readConcreteReg pc s dst
  let taken ← concreteTakenImm op (.invalidComparisonImm pc dst) imm d
  .ok (branchTo pc s offset taken)

def concreteJset (pc : Nat) (dst src : Reg) (offset : Int16) (s : ConcreteState) :
    Eval (List ConcreteSucc) := do
  let d ← readConcreteReg pc s dst
  let v ← readConcreteReg pc s src
  match d, v with
  | .scalar d, .scalar v => .ok (branchTo pc s offset (d &&& v != 0))
  | _, _ => halt (.invalidComparison pc dst src)

def concreteJsetImm (pc : Nat) (dst : Reg) (imm : Int32) (offset : Int16) (s : ConcreteState) :
    Eval (List ConcreteSucc) := do
  let d ← readConcreteScalar pc s dst (.invalidComparisonImm pc dst)
  .ok (branchTo pc s offset (d &&& imm.toInt64.toUInt64 != 0))

/-- The operand of a 32-bit jump: a register before an immediate. -/
def jmp32Operand (pc : Nat) (dst : Reg) (s : ConcreteState) : Option Reg → Option Int32 → Eval UInt32
  | some src, _ => do
    let v ← readConcreteScalar pc s src (.invalidComparison pc dst src)
    .ok v.toUInt32
  | none, some imm => .ok imm.toUInt32
  | none, none => .error .panic

def jmp32Holds (op : Jmp32Op) (d s : UInt32) : Bool :=
  match op with
  | .eq => d == s
  | .ne => d != s
  | .gt => s < d
  | .ge => s ≤ d
  | .lt => d < s
  | .le => d ≤ s
  | .sgt => s.toInt32 < d.toInt32
  | .sge => s.toInt32 ≤ d.toInt32
  | .slt => d.toInt32 < s.toInt32
  | .sle => d.toInt32 ≤ s.toInt32

def concreteJmp32 (pc : Nat) (dst : Reg) (src : Option Reg) (imm : Option Int32) (offset : Int16)
    (op : Jmp32Op) (s : ConcreteState) : Eval (List ConcreteSucc) := do
  let d ← readConcreteScalar pc s dst (.invalidComparisonImm pc dst)
  let v ← jmp32Operand pc dst s src imm
  .ok (branchTo pc s offset (jmp32Holds op d.toUInt32 v))

/-! ## Helper calls -/

/-- Does the value satisfy the expected argument type? -/
def concreteArgMatches (expected : ArgType) (actual : ConcreteValue) : Bool :=
  match expected, actual with
  | .ptrToStack, .stackPtr .. => true
  | .scalar, .scalar _ => true
  | .ptrToMap, .mapPtr _ none _ => true
  | .ptrToMem, .memPtr _ => true
  | .ptrToDynptr, .stackPtr .. => true
  | .ptrToMapValue, .mapPtr _ (some _) _ => true
  | _, _ => false

/-- Validate the argument registers from `reg` on. -/
def checkConcreteArgsFrom (pc : Nat) (s : ConcreteState) : Reg → List ArgType → Eval Unit
  | _, [] => .ok ()
  | reg, expected :: rest => do
    let actual ← readConcreteReg pc s reg
    if concreteArgMatches expected actual then checkConcreteArgsFrom pc s (reg + 1) rest
    else halt (.helperArgMismatch pc reg)

/-- The results a call forks over: the constant itself, the boundary seeds of an unknown
    scalar, or a buffer. -/
def helperReturnSeeds (pc : Nat) (imm : Int32) : RegState → Eval (List ConcreteValue)
  | .scalar b =>
    if b.isConstant then .ok [.scalar b.smin.toUInt64]
    else .ok [.scalar 0, .scalar 1, .scalar u64Max]
  | .ptrToMemOrNull .. | .ptrToMem .. => .ok [.memPtr 0x5000]
  | _ => halt (.unsupportedHelperReturn pc imm)

/-- One successor for each result in R0. -/
def returnForks (pc : Nat) (s : ConcreteState) (seeds : List ConcreteValue) : List ConcreteSucc :=
  seeds.map fun seed => (pc + 1, s.clobberArgs.setReg 0 seed)

def concreteCall (pc : Nat) (imm : Int32) (s : ConcreteState) : Eval (List ConcreteSucc) :=
  match helperPrototype imm with
  | none => halt (.unknownHelper pc imm)
  | some helper => do
    checkConcreteArgsFrom pc s 1 helper.args
    let seeds ← helperReturnSeeds pc imm helper.returnType
    .ok (returnForks pc s seeds)

/-- Read a stack buffer of at most 8 bytes. -/
def concreteMapBuffer (pc : Nat) (s : ConcreteState) (reg : Reg) (size : Nat) : Eval UInt64 :=
  match s.regs reg with
  | some (.stackPtr addr frameno) =>
    if 8 < size then halt (.unsupportedHelperReturn pc 0)
    else do
      let offset := (addr.toInt64 - stackBase.toInt64).toInt32
      let (slot, inSlot) ← concreteStackRange pc offset size
      let stack ← concreteFrameStack s frameno
      match stack slot with
      | none => halt (.uninitializedStackRead pc offset)
      | some v =>
        match concreteExtract v inSlot size false with
        | .scalar v => .ok v
        | _ => halt (.pointerArithmetic pc reg)
  | _ => halt (.helperArgMismatch pc reg)

/-- `map_lookup_elem`: the value of an entry and NULL, or NULL past the last entry. -/
def lookupSeeds (fd : Nat) (index : UInt64) (info : MapInfo) : List ConcreteValue :=
  if index.toNat < info.maxEntries then [.mapPtr fd (some index) 0, .scalar 0] else [.scalar 0]

/-- `map_update_elem`: the memory with the entry written. -/
def updateElem (pc : Nat) (s : ConcreteState) (fd : Nat) (index : UInt64) (info : MapInfo)
    (mem : MapMem) : Eval MapMem :=
  if index.toNat < info.maxEntries then do
    let value ← concreteMapBuffer pc s 3 info.valueSize
    match s.regs 4 with
    | some (.scalar _) => .ok (mem.insert ⟨fd, index, 0⟩ value)
    | _ => halt (.helperArgMismatch pc 4)
  else .ok mem

/-- The map helpers: R1 is a registered map object and R2 the key buffer. -/
def concreteMapCall (pc : Nat) (imm : Int32) (s : ConcreteState) (maps : Maps) (mem : MapMem) :
    Eval (List ConcreteSucc × MapMem) :=
  match s.regs 1 with
  | some (.mapPtr fd none 0) =>
    match maps fd with
    | none => halt (.helperArgMismatch pc 1)
    | some info => do
      let index ← concreteMapBuffer pc s 2 info.keySize
      if imm = 1 then .ok (returnForks pc s (lookupSeeds fd index info), mem)
      else do
        let mem' ← updateElem pc s fd index info mem
        .ok (returnForks pc s [.scalar 0], mem')
  | _ => halt (.helperArgMismatch pc 1)

/-! ## Map values -/

inductive MapAccess where
  | load (dst : Reg)
  | store (src : Reg)

/-- The cell of an access: inside the value and aligned. Every access is one 8-byte cell. -/
def mapCell (pc : Nat) (maps : Maps) (base : Reg) (off : Int16) (s : ConcreteState) : Eval Cell :=
  match s.regs base with
  | some (.mapPtr fd (some index) baseOffset) =>
    match maps fd with
    | none => halt (.helperArgMismatch pc base)
    | some info =>
      let sum := baseOffset.toInt + off.toInt
      if ¬ (-2 ^ 63 ≤ sum ∧ sum < 2 ^ 63) then halt (.mapValueOutOfBounds pc Int64.minValue)
      else if sum < 0 ∨ 2 ^ 63 ≤ sum + 8 ∨ info.valueSize < sum + 8 then
        halt (.mapValueOutOfBounds pc (Int64.ofInt sum))
      else if sum % 8 ≠ 0 then halt (.misalignedStackAccess pc (Int64.ofInt sum).toInt32)
      else .ok ⟨fd, index, Int64.ofInt sum⟩
  | _ => halt (.helperArgMismatch pc base)

def concreteMapAccess (pc : Nat) (access : MapAccess) (base : Reg) (off : Int16) (s : ConcreteState)
    (maps : Maps) (mem : MapMem) : Eval (List ConcreteSucc × MapMem) := do
  let cell ← mapCell pc maps base off s
  match access with
  | .store src => do
    let v ← readConcreteReg pc s src
    .ok ([(pc + 1, s)], mem.insert cell v.bits)
  | .load dst => .ok ([(pc + 1, s.setReg dst (.scalar (mem.get cell)))], mem)

/-! ## Successors -/

/-- Whether a register holds a map pointer. -/
def ConcreteState.isMapPtr (s : ConcreteState) (reg : Reg) : Bool :=
  match s.regs reg with
  | some (.mapPtr ..) => true
  | _ => false

/-- The successors of an instruction that leaves the map memory alone. -/
def pureSuccessors (pc : Nat) (insn : BpfInsn) (s : ConcreteState) : Eval (List ConcreteSucc) :=
  match insn with
  | .exit => .ok (if s.curframe = 0 then [] else [(pc + 1, s.returnFromSubprog)])
  | .callSub offset => do
    let callee ← s.callSubprog (pc + 1)
    .ok [(callTarget pc offset, callee)]
  | .callKfunc _ => halt (.unsupportedKfunc pc)
  | .jmp offset => .ok [(branchTarget pc offset, s)]
  | .jeq dst src offset => concreteCond pc dst src offset .eq s
  | .jne dst src offset => concreteCond pc dst src offset .ne s
  | .jgt dst src offset => concreteCond pc dst src offset .ugt s
  | .jge dst src offset => concreteCond pc dst src offset .uge s
  | .jlt dst src offset => concreteCond pc dst src offset .ult s
  | .jle dst src offset => concreteCond pc dst src offset .ule s
  | .jsgt dst src offset => concreteCond pc dst src offset .sgt s
  | .jsge dst src offset => concreteCond pc dst src offset .sge s
  | .jslt dst src offset => concreteCond pc dst src offset .slt s
  | .jsle dst src offset => concreteCond pc dst src offset .sle s
  | .jeqImm dst imm offset => concreteCondImm pc dst imm offset .eq s
  | .jneImm dst imm offset => concreteCondImm pc dst imm offset .ne s
  | .jgtImm dst imm offset => concreteCondImm pc dst imm offset .ugt s
  | .jgeImm dst imm offset => concreteCondImm pc dst imm offset .uge s
  | .jltImm dst imm offset => concreteCondImm pc dst imm offset .ult s
  | .jleImm dst imm offset => concreteCondImm pc dst imm offset .ule s
  | .jsgtImm dst imm offset => concreteCondImm pc dst imm offset .sgt s
  | .jsgeImm dst imm offset => concreteCondImm pc dst imm offset .sge s
  | .jsltImm dst imm offset => concreteCondImm pc dst imm offset .slt s
  | .jsleImm dst imm offset => concreteCondImm pc dst imm offset .sle s
  | .jset dst src offset => concreteJset pc dst src offset s
  | .jsetImm dst imm offset => concreteJsetImm pc dst imm offset s
  | .jmp32 dst src imm offset op => concreteJmp32 pc dst src imm offset op s
  | .call imm => concreteCall pc imm s
  | .ldMapFd dst fd _ _ _ => .ok [(pc + 1, s.setReg dst (.mapPtr fd none 0))]
  | .ldMapValue dst fd offset _ _ =>
    .ok [(pc + 1, s.setReg dst (.mapPtr fd (some 0) (Int64.ofNat offset)))]
  | insn => do
    let next ← concreteStep pc s insn
    .ok [(pc + 1, next)]

/-- Expand the successors of an instruction. The map helpers and the accesses through a map
    pointer read or write the map memory. -/
def concreteSuccessors (pc : Nat) (insn : BpfInsn) (s : ConcreteState) (maps : Maps) (mem : MapMem) :
    Eval (List ConcreteSucc × MapMem) :=
  match insn with
  | .call imm =>
    if imm = 1 ∨ imm = 2 then concreteMapCall pc imm s maps mem
    else (pureSuccessors pc insn s).map (·, mem)
  | .ldMem dst base offset _ _ =>
    if s.isMapPtr base then concreteMapAccess pc (.load dst) base offset s maps mem
    else (pureSuccessors pc insn s).map (·, mem)
  | .stMem src base offset _ =>
    if s.isMapPtr base then concreteMapAccess pc (.store src) base offset s maps mem
    else (pureSuccessors pc insn s).map (·, mem)
  | insn => (pureSuccessors pc insn s).map (·, mem)

/-! ## The exploration -/

structure ConcreteLimits where
  maxStates : Nat
  maxSteps : Nat
  maxLoopIterations : Nat
  progType : ProgType
  deriving DecidableEq, Repr

def ConcreteLimits.default : ConcreteLimits := ⟨1024, 100000, 256, .socketFilter⟩

/-- The state at a reached outermost exit. -/
structure ConcreteOutcome where
  pc : Nat
  state : ConcreteState

structure ConcreteRun where
  visited : List ConcreteSucc
  outcomes : List ConcreteOutcome
  inconclusive : Bool
  noExit : Bool

/-- What an exploration is about: the program, its loop heads, the limits and the maps. -/
structure Program where
  insns : List BpfInsn
  loopHeads : List Nat
  limits : ConcreteLimits
  maps : Maps
  liveness : Liveness

/-- The state of the loop: `worklist` has its top first, `visited` the latest visit first,
    `visitedOrder` the cleaned states in visit order. -/
structure Exploration where
  worklist : List ConcreteSucc
  visited : List ConcreteSucc
  visitedOrder : List ConcreteSucc
  loopIters : Nat → Nat
  explored : Nat
  outcomes : List ConcreteOutcome
  mem : MapMem

def Exploration.start (p : Program) : Exploration where
  worklist := [(0, .initialWith p.limits.progType)]
  visited := []
  visitedOrder := []
  loopIters _ := 0
  explored := 0
  outcomes := []
  mem := .empty

def Exploration.result (x : Exploration) (inconclusive : Bool) : ConcreteRun :=
  ⟨x.visitedOrder, x.outcomes, inconclusive, !inconclusive && x.outcomes.isEmpty⟩

/-- Whether an item is the outermost exit, the end of its path. -/
def isOutcome (p : Program) (item : ConcreteSucc) : Bool :=
  p.insns[item.1]? = some .exit && item.2.curframe = 0

/-- Where a path continues: an exit returns to the caller (never with a stack pointer in
    R0) or ends the path (with R0 written), everything else has its successors. -/
def itemSuccessors (p : Program) (item : ConcreteSucc) (mem : MapMem) :
    Eval (List ConcreteSucc × MapMem) :=
  let (pc, s) := item
  match p.insns[pc]? with
  | none => halt (.internalError pc)
  | some .exit =>
    if 0 < s.curframe then
      match s.regs 0 with
      | some (.stackPtr ..) => halt (.pointerArithmetic pc 0)
      | _ => .ok ([(s.retPc, s.returnFromSubprog)], mem)
    else do
      let _ ← readConcreteReg pc s 0
      .ok ([], mem)
  | some insn => concreteSuccessors pc insn s p.maps mem

/-- Record a state that is new at its instruction, cleaned for the coverage check. -/
def Exploration.record (p : Program) (x : Exploration) (item : ConcreteSucc) : Exploration :=
  { x with
    visited := item :: x.visited
    visitedOrder := x.visitedOrder ++ [(item.1, cleanConcreteState item.2 item.1 p.liveness)]
    loopIters :=
      if item.1 ∈ p.loopHeads then Function.update x.loopIters item.1 (x.loopIters item.1 + 1)
      else x.loopIters
    explored := x.explored + 1 }

/-- Whether a budget is used up. -/
def Exploration.overBudget (p : Program) (x : Exploration) (item : ConcreteSucc) : Bool :=
  (item.1 ∈ p.loopHeads && p.limits.maxLoopIterations < x.loopIters item.1) ||
    p.limits.maxStates < x.explored

/-- Add an exit state unless an equal one is recorded, and push the successors. -/
def Exploration.advance (p : Program) (x : Exploration) (item : ConcreteSucc)
    (succs : List ConcreteSucc) (mem : MapMem) : Exploration :=
  { x with
    worklist := succs.reverse ++ x.worklist
    outcomes :=
      if isOutcome p item && !x.outcomes.any (·.state = item.2) then
        x.outcomes ++ [⟨item.1, item.2⟩]
      else x.outcomes
    mem := mem }

/-- Process a popped item: skip it, stop on a budget (`inr`), or visit it. -/
def visitItem (p : Program) (x : Exploration) (item : ConcreteSucc) :
    Eval (Exploration ⊕ ConcreteRun) :=
  if item ∈ x.visited then .ok (.inl x)
  else
    let x := x.record p item
    if x.overBudget p item then .ok (.inr (x.result true))
    else do
      let (succs, mem) ← itemSuccessors p item x.mem
      .ok (.inl (x.advance p item succs mem))

/-- The loop; the fuel is what is left of the step budget. -/
def exploreLoop (p : Program) : Nat → Exploration → Eval ConcreteRun
  | fuel, x =>
    match x.worklist with
    | [] => .ok (x.result false)
    | item :: rest =>
      match fuel with
      | 0 => .ok (x.result true)
      | fuel + 1 => do
        let next ← visitItem p { x with worklist := rest } item
        match next with
        | .inl x => exploreLoop p fuel x
        | .inr run => .ok run

/-- Explore a program with its liveness at hand. -/
def explore (p : Program) : Eval ConcreteRun := exploreLoop p p.limits.maxSteps (.start p)

/-- `run_concrete_with_maps`. -/
def runConcreteWithMaps (insns : List BpfInsn) (loopHeads : List Nat) (limits : ConcreteLimits)
    (maps : Maps) : Eval ConcreteRun :=
  match analyze insns with
  | .error _ => .error .panic
  | .ok liveness => explore ⟨insns, loopHeads, limits, maps, liveness⟩

end RandVerifier.Explorer
