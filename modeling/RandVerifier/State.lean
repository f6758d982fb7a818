/-
  RandVerifier.State — registers, stacks and frames (`src/state.rs`).

  `ScalarBounds` tracks a scalar in both interpretations beside its tnum. Pointer offsets
  are the source's `i32`s, kept as `Int`s under its saturating additions and clamps; ids,
  sizes, alignments and frame numbers are `Nat`s. A program counter is a `Nat`: programs
  have fewer than 2^32 instructions, so `pc + 1` does not wrap.

  The arrays of the source are functions. `bytes` is indexed below 512, `spilled` and
  `dynptr` below 64, `saved` below 15 and `refs` below 8; an access that the source would
  take past the end stops the run with `Stop.panic`, like `unreachable!` and `expect`.
-/

import RandVerifier.Ctx
import RandVerifier.Insn
import RandVerifier.Tnum
import Mathlib.Logic.Function.Basic

namespace RandVerifier

/-! ## Failures -/

/-- A verification failure: where it happened and why. -/
structure VerificationFailure where
  insnIdx : Nat
  message : String
  deriving DecidableEq, Repr

/-- How a call of the verifier ends without a result. -/
inductive Stop where
  | failure (f : VerificationFailure)
  /-- An `unreachable!`, an `expect` on `None` or an index out of range. -/
  | panic
  deriving DecidableEq, Repr

abbrev Exec := Except Stop

/-- `Err(VerificationFailure::new(pc, message))`. -/
def fail {α : Type} (pc : Nat) (message : String) : Exec α := .error (.failure ⟨pc, message⟩)

/-- `if c { return Err(..) }`. -/
def failIf (c : Prop) [Decidable c] (pc : Nat) (message : String) : Exec Unit :=
  if c then fail pc message else .ok ()

theorem bind_eq_ok {ε α β : Type} {x : Except ε α} {f : α → Except ε β} {b : β} :
    (x >>= f) = .ok b ↔ ∃ a, x = .ok a ∧ f a = .ok b := by
  cases x with
  | error e => simp [bind, Except.bind]
  | ok a => simp [bind, Except.bind]

theorem map_eq_ok {ε α β : Type} {f : α → β} {x : Except ε α} {b : β} :
    f <$> x = .ok b ↔ ∃ a, x = .ok a ∧ f a = b := by
  cases x <;> simp [Functor.map, Except.map]

theorem ok_bind {α β : Type} (a : α) (f : α → Exec β) : ((Except.ok a : Exec α) >>= f) = f a := rfl

theorem failIf_eq_ok {c : Prop} [Decidable c] {pc : Nat} {msg : String} {u : Unit} :
    failIf c pc msg = .ok u ↔ ¬ c := by
  unfold failIf fail
  split <;> simp [*]

theorem fail_ne_ok {α : Type} {pc : Nat} {msg : String} {a : α} : fail pc msg = .ok a ↔ False := by
  simp [fail]

/-- A Boolean check over the source's inclusive range `lo..=hi`. -/
def allIn (lo hi : Nat) (p : Nat → Bool) : Bool := (List.range' lo (hi + 1 - lo)).all p

theorem allIn_iff {lo hi : Nat} {p : Nat → Bool} :
    allIn lo hi p = true ↔ ∀ i, lo ≤ i → i ≤ hi → p i = true := by
  simp only [allIn, List.all_eq_true, List.mem_range'_1]
  constructor
  · intro h i h1 h2
    exact h i ⟨h1, by omega⟩
  · intro h i hi
    exact h i hi.1 (by omega)

/-! ## Machine-integer casts on `Int` -/

/-- `as i32` of a wider integer. -/
def wrapI32 (v : Int) : Int := v.bmod (2 ^ 32)

/-- `i32::saturating_add`, and the clamp of an `i64` to `i32`. -/
def clampI32 (v : Int) : Int := max (-2 ^ 31) (min (2 ^ 31 - 1) v)

/-- `i64::saturating_add`. -/
def clampI64 (v : Int) : Int := max (-2 ^ 63) (min (2 ^ 63 - 1) v)

/-- The `{:+}` of an integer. -/
def signedText (v : Int) : String := if 0 ≤ v then s!"+{v}" else s!"{v}"

/-- The `{:#x}` of an unsigned integer. -/
def hexText (v : Nat) : String := "0x" ++ String.ofList (Nat.toDigits 16 v)

/-! ## Scalars -/

/-- The range bounds of a scalar register: both 64-bit interpretations, the 32-bit views
    and the tnum; `precise` is set by backtracking only; `id` and `delta` link copies. -/
structure ScalarBounds where
  smin : Int64
  smax : Int64
  umin : UInt64
  umax : UInt64
  s32Min : Int32
  s32Max : Int32
  u32Min : UInt32
  u32Max : UInt32
  tnum : Tnum
  precise : Bool
  id : Nat
  delta : Int
  deriving DecidableEq, Repr

namespace ScalarBounds

/-- A constant: both interpretations carry the same bits. -/
def constant (value : Int64) : ScalarBounds :=
  { smin := value, smax := value
    umin := value.toUInt64, umax := value.toUInt64
    s32Min := value.toInt32, s32Max := value.toInt32
    u32Min := value.toUInt64.toUInt32, u32Max := value.toUInt64.toUInt32
    tnum := .constant value.toUInt64
    precise := false, id := 0, delta := 0 }

/-- The full range. -/
def unknown : ScalarBounds :=
  { smin := Int64.minValue, smax := Int64.maxValue
    umin := 0, umax := u64Max
    s32Min := Int32.minValue, s32Max := Int32.maxValue
    u32Min := 0, u32Max := 0xffffffff
    tnum := .unknown
    precise := false, id := 0, delta := 0 }

/-- Bounds with the 32-bit views and the link data at their defaults. -/
def ofRanges (signed : Int64 × Int64) (unsigned : UInt64 × UInt64) (tnum : Tnum) : ScalarBounds :=
  { unknown with smin := signed.1, smax := signed.2, umin := unsigned.1, umax := unsigned.2, tnum }

def isConstant (b : ScalarBounds) : Bool :=
  b.smin == b.smax && b.umin == b.umax && b.tnum.isConstant

def signed (b : ScalarBounds) : Int64 × Int64 := (b.smin, b.smax)

def unsigned (b : ScalarBounds) : UInt64 × UInt64 := (b.umin, b.umax)

/-- Whether the scalar is provably zero. -/
def isZero (b : ScalarBounds) : Bool :=
  b.smin == 0 && b.smax == 0 && b.umin == 0 && b.umax == 0

/-- The 64-bit half of `synced`: the two interpretations bound each other. -/
def sync64 (b : ScalarBounds) : ScalarBounds :=
  if 0 ≤ b.smin ∨ b.smax < 0 then
    let lo := max b.smin.toUInt64 b.umin
    let hi := min b.smax.toUInt64 b.umax
    { b with smin := lo.toInt64, smax := hi.toInt64, umin := lo, umax := hi }
  else if b.umax < 0x8000000000000000 then
    { b with smin := b.umin.toInt64, smax := min b.smax b.umax.toInt64 }
  else if 0x8000000000000000 ≤ b.umin then
    { b with smin := max b.smin b.umin.toInt64, smax := b.umax.toInt64 }
  else b

/-- The unsigned 32-bit view: exact when the range fits in one 32-bit window. -/
def syncU32 (b : ScalarBounds) : ScalarBounds :=
  if b.umin >>> 32 = b.umax >>> 32 then
    { b with u32Min := b.umin.toUInt32, u32Max := b.umax.toUInt32 }
  else { b with u32Min := 0, u32Max := 0xffffffff }

/-- The signed 32-bit view: the window must not cross the 32-bit sign bit either. -/
def syncS32 (b : ScalarBounds) : ScalarBounds :=
  if b.smin.toUInt64 >>> 32 = b.smax.toUInt64 >>> 32 ∧ b.smin.toInt32 ≤ b.smax.toInt32 then
    { b with s32Min := b.smin.toInt32, s32Max := b.smax.toInt32 }
  else { b with s32Min := Int32.minValue, s32Max := Int32.maxValue }

def syncTnum (b : ScalarBounds) : ScalarBounds :=
  { b with tnum := b.tnum.intersect (.fromRange b.umin b.umax) }

/-- Make the interpretations consistent. An empty range marks an infeasible branch and is
    left alone. -/
def synced (b : ScalarBounds) : ScalarBounds :=
  if b.smax < b.smin ∨ b.umax < b.umin then b
  else b.sync64.syncU32.syncS32.syncTnum

/-- Bounds for a range known in the signed interpretation. -/
def fromSigned (min max : Int64) : ScalarBounds :=
  if min < 0 ∧ 0 ≤ max then (ofRanges (min, max) (0, u64Max) .unknown).synced
  else (ofRanges (min, max) (min.toUInt64, max.toUInt64) .unknown).synced

/-- The `Debug` text. -/
def debug (b : ScalarBounds) : String :=
  s!"ScalarBounds \x7b smin: {b.smin}, smax: {b.smax}, umin: {b.umin}, umax: {b.umax}, " ++
  s!"s32_min: {b.s32Min}, s32_max: {b.s32Max}, u32_min: {b.u32Min}, u32_max: {b.u32Max}, " ++
  s!"tnum: Tnum \x7b value: {b.tnum.value}, mask: {b.tnum.mask} \x7d, precise: {b.precise}, " ++
  s!"id: {b.id}, delta: {b.delta} \x7d"

end ScalarBounds

/-! ## Registers -/

/-- The marker for an unknown pointer alignment. -/
def alignUnknown : Nat := 0xff

/-- Abstract state of a single register. `frameno` is the absolute depth of the frame a
    stack pointer belongs to; `id` names a lookup or a held reference. -/
inductive RegState where
  | uninit
  | scalar (bounds : ScalarBounds)
  | ptrToStack (minOffset maxOffset : Int) (alignOff frameno : Nat)
  | ptrToCtx (off : Int)
  | ptrToMap (keySize valueSize mapType : Nat)
  | ptrToMapValue (minOffset maxOffset : Int) (alignOff valueSize id : Nat)
  | ptrToMapValueOrNull (valueSize id : Nat)
  | ptrToMem (minOffset maxOffset : Int) (alignOff id parentId : Nat)
  | ptrToMemOrNull (id parentId size : Nat)
  | ptrToBtfId (btfId refObjId : Nat)
  deriving DecidableEq, Repr

namespace RegState

def isScalar : RegState → Bool
  | scalar _ => true
  | _ => false

def isPtrToStack : RegState → Bool
  | ptrToStack .. => true
  | _ => false

def isPtrToCtx : RegState → Bool
  | ptrToCtx _ => true
  | _ => false

/-- The `Display` text. -/
def display : RegState → String
  | uninit => "UNINIT"
  | scalar s =>
    s!"SCALAR(s:{s.smin}..{s.smax},u:{hexText s.umin.toNat}..{hexText s.umax.toNat}," ++
    s!"t:{hexText s.tnum.value.toNat}/{hexText s.tnum.mask.toNat})"
  | ptrToStack lo hi _ _ => if lo = hi then s!"PTR_STACK({lo})" else s!"PTR_STACK({lo}..{hi})"
  | ptrToCtx off => if off = 0 then "PTR_CTX" else s!"PTR_CTX({off})"
  | ptrToMap k v _ => s!"PTR_MAP(k:{k},v:{v})"
  | ptrToMapValue lo hi _ sz _ =>
    if lo = hi then s!"PTR_MAP_VALUE({lo},sz:{sz})" else s!"PTR_MAP_VALUE({lo}..{hi},sz:{sz})"
  | ptrToMapValueOrNull sz _ => s!"PTR_MAP_VALUE_OR_NULL(sz:{sz})"
  | ptrToMem lo hi _ id parent => s!"PTR_TO_MEM(off:{lo}..{hi}, ref:{id}, parent:{parent})"
  | ptrToMemOrNull id parent size => s!"PTR_TO_MEM_OR_NULL(ref:{id}, parent:{parent}, size:{size})"
  | ptrToBtfId btf ref => s!"PTR_TO_BTF_ID(btf:{btf}, ref:{ref})"

/-- The `Debug` text. -/
def debug : RegState → String
  | uninit => "Uninit"
  | scalar s => s!"Scalar({s.debug})"
  | ptrToStack lo hi al fr =>
    s!"PtrToStack \x7b min_offset: {lo}, max_offset: {hi}, align_off: {al}, frameno: {fr} \x7d"
  | ptrToCtx off => s!"PtrToCtx \x7b off: {off} \x7d"
  | ptrToMap k v t => s!"PtrToMap \x7b key_size: {k}, value_size: {v}, map_type: {t} \x7d"
  | ptrToMapValue lo hi al sz id =>
    s!"PtrToMapValue \x7b min_offset: {lo}, max_offset: {hi}, align_off: {al}, " ++
    s!"value_size: {sz}, id: {id} \x7d"
  | ptrToMapValueOrNull sz id => s!"PtrToMapValueOrNull \x7b value_size: {sz}, id: {id} \x7d"
  | ptrToMem lo hi al id parent =>
    s!"PtrToMem \x7b min_offset: {lo}, max_offset: {hi}, align_off: {al}, id: {id}, " ++
    s!"parent_id: {parent} \x7d"
  | ptrToMemOrNull id parent size =>
    s!"PtrToMemOrNull \x7b id: {id}, parent_id: {parent}, size: {size} \x7d"
  | ptrToBtfId btf ref => s!"PtrToBtfId \x7b btf_id: {btf}, ref_obj_id: {ref} \x7d"

end RegState

abbrev Regs := Reg → RegState

/-- R1 is the context pointer, R10 the frame pointer of frame 0. -/
def initialRegState : Regs := fun r =>
  if r = 1 then .ptrToCtx 0 else if r = 10 then .ptrToStack 0 0 0 0 else .uninit

/-! ## Stacks -/

def stackSize : Nat := 512
def stackSlotSize : Nat := 8
def stackSlots : Nat := 64

inductive StackByte where
  | invalid
  | misc
  | zero
  | spill
  | dynptr
  deriving DecidableEq, Repr

/-- Metadata of a stack dynptr. -/
structure DynptrState where
  size : Nat
  id : Nat
  deriving DecidableEq, Repr

/-- Per-byte slot types, with the spilled register and the dynptr of each 8-byte cell. -/
structure StackState where
  bytes : Nat → StackByte
  spilled : Nat → Option RegState
  dynptr : Nat → Option DynptrState

namespace StackState

/-- A fresh stack frame: every byte invalid, no spills. -/
def new : StackState := ⟨fun _ => .invalid, fun _ => none, fun _ => none⟩

/-- Whether the eight bytes of a slot are all `b`. -/
def slotAll (s : StackState) (slot : Nat) (b : StackByte) : Bool :=
  allIn (slot * 8) (slot * 8 + 7) fun i => s.bytes i == b

theorem slotAll_iff {s : StackState} {slot : Nat} {b : StackByte} :
    s.slotAll slot b = true ↔ ∀ i, i / 8 = slot → s.bytes i = b := by
  simp only [StackState.slotAll, allIn_iff, beq_iff_eq]
  constructor
  · intro h i hi
    exact h i (by omega) (by omega)
  · intro h i h1 h2
    exact h i (by omega)

/-- Overwrite the bytes `lo..=hi`. -/
def fill (s : StackState) (lo hi : Nat) (b : StackByte) : StackState :=
  { s with bytes := fun i => if lo ≤ i ∧ i ≤ hi then b else s.bytes i }

/-- Rewrite the spilled register of every slot that holds one. -/
def mapSpilled (s : StackState) (f : Nat → RegState → RegState) : StackState :=
  { s with spilled := fun slot => (s.spilled slot).map (f slot) }

/-- Rewrite the registers of the slots that are spilled in full. -/
def mapFullSpills (s : StackState) (f : RegState → RegState) : StackState :=
  s.mapSpilled fun slot v => if s.slotAll slot .spill then f v else v

end StackState

/-! ## Frames -/

def maxRefs : Nat := 8

/-- The base of the reference ids, away from the pc-derived ones. -/
def refIdBase : Nat := 0x10000000

def maxCallFrames : Nat := 16

/-- A saved caller frame; `retPc` is where this frame returns to. -/
structure FrameState where
  regs : Regs
  stack : StackState
  retPc : Nat

/-- `regs` and `stack` are the current frame, `saved i` the active caller at depth `i`. -/
structure VerifierState where
  regs : Regs
  stack : StackState
  saved : Nat → Option FrameState
  curframe : Nat
  retPc : Nat
  refs : Nat → Nat
  refsCnt : Nat
  progType : ProgType

namespace VerifierState

def initialWith (progType : ProgType) : VerifierState :=
  { regs := initialRegState, stack := .new, saved := fun _ => none, curframe := 0, retPc := 0
    refs := fun _ => 0, refsCnt := 0, progType }

def setReg (st : VerifierState) (r : Reg) (v : RegState) : VerifierState :=
  { st with regs := Function.update st.regs r v }

/-- R1..R5 become uninitialized. -/
def clobberArgs (st : VerifierState) : VerifierState :=
  { st with regs := fun r => if 1 ≤ r ∧ r ≤ 5 then .uninit else st.regs r }

/-- The held reference ids, `refs[..refs_cnt]`. -/
def heldRefs (st : VerifierState) : List Nat := (List.range st.refsCnt).map st.refs

/-- The current frame as a saved one. -/
def currentFrame (st : VerifierState) : FrameState := ⟨st.regs, st.stack, st.retPc⟩

/-- The frame at a depth: the current one or a saved caller. -/
def frame (st : VerifierState) (k : Nat) : Option FrameState :=
  if k = st.curframe then some st.currentFrame else st.saved k

/-- The active frame at a depth: the current one, or one of the saved callers. -/
def activeFrame (st : VerifierState) (k : Nat) : Option FrameState :=
  if k = st.curframe then some st.currentFrame
  else if k < st.curframe ∧ k < maxCallFrames - 1 then st.saved k
  else none

/-- The registers of a fresh callee: the arguments, and R10 into its own frame. -/
def calleeRegs (args : Regs) (frameno : Nat) : Regs := fun r =>
  if 1 ≤ r ∧ r ≤ 5 then args r else if r = 10 then .ptrToStack 0 0 0 frameno else initialRegState r

/-- Enter a subprogram: save the current frame and set up a fresh one. -/
def callSubprog (st : VerifierState) (returnPc : Nat) : Except String VerifierState :=
  if maxCallFrames - 1 ≤ st.curframe then .error "the call stack of 16 frames is too deep"
  else
    .ok { st with
      regs := calleeRegs st.regs (st.curframe + 1)
      stack := .new
      saved := Function.update st.saved st.curframe (some st.currentFrame)
      curframe := st.curframe + 1
      retPc := returnPc }

/-- Return from a subprogram: restore the caller with the callee's R0. The flag is
    `Some(())`: without a saved caller the frame depth is already decremented. -/
def returnFromSubprog (st : VerifierState) : VerifierState × Bool :=
  if st.curframe = 0 then (st, false)
  else
    let depth := st.curframe - 1
    match st.saved depth with
    | none => ({ st with curframe := depth }, false)
    | some caller =>
      (clobberArgs { st with
        regs := Function.update caller.regs 0 (st.regs 0)
        stack := caller.stack
        saved := Function.update st.saved depth none
        curframe := depth
        retPc := caller.retPc }, true)

end VerifierState

/-! ## Register access -/

/-- A register must have been written before it is read. -/
def readReg (pc : Nat) (st : VerifierState) (reg : Reg) : Exec RegState :=
  match st.regs reg with
  | .uninit => fail pc s!"register r{reg} is uninitialized"
  | other => .ok other

def readScalar (pc : Nat) (st : VerifierState) (reg : Reg) : Exec ScalarBounds := do
  match ← readReg pc st reg with
  | .scalar bounds => .ok bounds
  | .uninit => .error .panic
  | _ => fail pc <|
    s!"register-offset pointer arithmetic on r{reg} is not supported yet (only immediate offsets)"

theorem readReg_eq_ok {pc : Nat} {st : VerifierState} {r : Reg} {v : RegState} :
    readReg pc st r = .ok v ↔ st.regs r = v ∧ v ≠ .uninit := by
  unfold readReg
  split
  · rename_i h
    simp only [fail_ne_ok, h, false_iff, not_and, not_not]
    exact fun h => h.symm
  · rename_i other h
    constructor
    · intro h'
      cases h'
      exact ⟨rfl, h⟩
    · rintro ⟨rfl, _⟩
      rfl

theorem readScalar_eq_ok {pc : Nat} {st : VerifierState} {r : Reg} {b : ScalarBounds} :
    readScalar pc st r = .ok b ↔ st.regs r = .scalar b := by
  unfold readScalar
  simp only [bind_eq_ok, readReg_eq_ok]
  constructor
  · rintro ⟨v, ⟨rfl, -⟩, h⟩
    split at h
    · rename_i hv
      cases h
      exact hv
    · cases h
    · exact absurd h (by simp [fail])
  · intro h
    exact ⟨.scalar b, ⟨h, by simp⟩, by simp⟩

end RandVerifier
