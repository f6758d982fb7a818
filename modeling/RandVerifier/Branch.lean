/-
  RandVerifier.Branch — conditional branches (`cond_branch` of `src/exec.rs`).

  A branch yields its successors `(pc, state)`, taken side first where both are possible.
  Scalars are refined on both sides and their links synced; a NULL check rewrites every
  register and full spill of the current frame that shares the pointer's id.
-/

import RandVerifier.Arith
import RandVerifier.Calls
import RandVerifier.Refine

namespace RandVerifier

/-- A successor: where the path continues, and its state. -/
abbrev Succ := Nat × VerifierState

/-- PC-relative branch target; the offset is relative to the next instruction. -/
def branchTarget (pc : Nat) (offset : Int16) : Nat := (((pc : Int) + 1 + offset.toInt) % 2 ^ 32).toNat

namespace VerifierState

/-- Rewrite every register and every full spill of the current frame. -/
def mapCurrent (st : VerifierState) (f : RegState → RegState) : VerifierState :=
  { st with regs := fun r => f (st.regs r), stack := st.stack.mapFullSpills f }

end VerifierState

/-! ## Linked scalars -/

/-- Whether two scalar bounds are identical. -/
def boundsEqual (a b : ScalarBounds) : Bool :=
  a.smin == b.smin && a.smax == b.smax && a.umin == b.umin && a.umax == b.umax && a.tnum == b.tnum

/-- The refinement `known`, shifted from `knownDelta` to the delta of `b`. -/
def shiftLinked (b : ScalarBounds) (knownDelta : Int) (known : ScalarBounds) : ScalarBounds :=
  let shift := b.delta - knownDelta
  let shifted :=
    if shift = 0 then known else applyAlu .add .w64 known (.constant (Int64.ofInt shift))
  { shifted with id := b.id, delta := b.delta }

/-- The sync of a register: skipped when it already equals the refinement. -/
def syncReg (id : Nat) (knownDelta : Int) (known : ScalarBounds) : RegState → RegState
  | .scalar b =>
    if b.id ≠ id ∨ boundsEqual b known then .scalar b else .scalar (shiftLinked b knownDelta known)
  | v => v

/-- The sync of a full spill. -/
def syncSpill (id : Nat) (knownDelta : Int) (known : ScalarBounds) : RegState → RegState
  | .scalar b => if b.id ≠ id then .scalar b else .scalar (shiftLinked b knownDelta known)
  | v => v

/-- Refine every register and full spill that shares the link id of a refined scalar. -/
def syncLinkedScalars (st : VerifierState) (id : Nat) (knownDelta : Int) (known : ScalarBounds) :
    VerifierState :=
  if id = 0 then st
  else { st with
    regs := fun r => syncReg id knownDelta known (st.regs r)
    stack := st.stack.mapFullSpills (syncSpill id knownDelta known) }

/-- One side of a scalar comparison: both operands refined, their links synced. -/
def refinedSide (st : VerifierState) (dst : Reg) (srcReg : Option Reg) (d s : ScalarBounds)
    (refined : RefinedPair) : VerifierState :=
  let st1 := st.setReg dst (.scalar refined.1)
  let st2 := match srcReg with
    | some src => st1.setReg src (.scalar refined.2)
    | none => st1
  let st3 := syncLinkedScalars st2 d.id d.delta refined.1
  match srcReg with
  | some _ => syncLinkedScalars st3 s.id s.delta refined.2
  | none => st3

/-- A comparison of two scalars; a statically impossible side is not explored. -/
def scalarBranch (takenPc fallPc : Nat) (dst : Reg) (srcReg : Option Reg) (d s : ScalarBounds)
    (op : CondOp) (st : VerifierState) : List Succ :=
  let (t, f) := refineCmp op d s
  let taken := (takenPc, refinedSide st dst srcReg d s t)
  let fall := (fallPc, refinedSide st dst srcReg d s f)
  match isBranchTaken op d s with
  | .alwaysTaken => [taken]
  | .alwaysNotTaken => [fall]
  | .unknown => [taken, fall]

/-! ## NULL checks -/

/-- Whether a value is the nullable result of the lookup `id`. -/
def isLookup (id : Nat) : RegState → Bool
  | .ptrToMapValueOrNull _ rid => rid == id
  | _ => false

/-- An alias of a lookup on the NULL side. -/
def nullLookup (id : Nat) (v : RegState) : RegState :=
  if isLookup id v then .scalar (.constant 0) else v

/-- An alias of a lookup on the valid side. -/
def validLookup (id : Nat) : RegState → RegState
  | .ptrToMapValueOrNull vs rid =>
    if rid = id then .ptrToMapValue 0 0 0 vs rid else .ptrToMapValueOrNull vs rid
  | v => v

/-- Whether a value is the acquired buffer `id` itself, not a slice of a dynptr. -/
def isAcquired (id : Nat) : RegState → Bool
  | .ptrToMem _ _ _ rid _ => rid == id
  | .ptrToMemOrNull rid parentId _ => rid == id && parentId == 0
  | _ => false

/-- An alias of an acquired buffer on the NULL side. -/
def nullMem (id : Nat) (v : RegState) : RegState :=
  if isAcquired id v then .scalar (.constant 0) else v

/-- An alias of an acquired buffer on the valid side: the byte range of its size. -/
def validMem (id : Nat) : RegState → RegState
  | .ptrToMemOrNull rid parentId size =>
    if rid = id then .ptrToMem 0 (wrapI32 (size - 8 : Nat)) 0 id parentId
    else .ptrToMemOrNull rid parentId size
  | v => v

/-- The successors of a NULL check: the NULL side first, at the taken pc for `==`. -/
def nullCheck (takenPc fallPc : Nat) (op : CondOp) (nullState valid : VerifierState) : List Succ :=
  if op = .eq then [(takenPc, nullState), (fallPc, valid)]
  else [(fallPc, nullState), (takenPc, valid)]

/-- The two sides of a NULL check of the lookup `id`. -/
def lookupNullCheck (takenPc fallPc : Nat) (op : CondOp) (st : VerifierState) (ptrReg : Reg)
    (valueSize id : Nat) : List Succ :=
  nullCheck takenPc fallPc op
    ((st.mapCurrent (nullLookup id)).setReg ptrReg (.scalar (.constant 0)))
    ((st.mapCurrent (validLookup id)).setReg ptrReg (.ptrToMapValue 0 0 0 valueSize id))

/-- The two sides of a NULL check of the acquired buffer `id`: the NULL side releases it. -/
def memNullCheck (takenPc fallPc : Nat) (op : CondOp) (st : VerifierState) (ptrReg : Reg)
    (id : Nat) : List Succ :=
  let dropped := (st.dropRef id).getD st
  nullCheck takenPc fallPc op
    ((dropped.mapCurrent (nullMem id)).setReg ptrReg (.scalar (.constant 0)))
    ((st.mapCurrent (validMem id)).setReg ptrReg (.ptrToMem 0 0 0 id 0))

/-! ## The branch -/

def CondOp.isEquality : CondOp → Bool
  | eq | ne => true
  | _ => false

/-- The pair of operands decides how a comparison is treated. -/
inductive CmpKind where
  | scalars (d s : ScalarBounds)
  | nullLookup (valueSize id : Nat)
  | nullMem (id : Nat)
  /-- A non-null map value against the constant zero. -/
  | mapValueZero
  /-- Two pointers of one type. -/
  | samePointers
  /-- A pointer against a scalar, allowed without refinement. -/
  | pointerScalar
  | unreachable
  | differentTypes
  deriving DecidableEq, Repr

/-- A pointer against a scalar, in either order. -/
def pointerScalarKind (ptr : RegState) (s : ScalarBounds) : CmpKind :=
  match ptr with
  | .ptrToMapValueOrNull vs id => if s.isZero then .nullLookup vs id else .pointerScalar
  | .ptrToMemOrNull id _ _ => if s.isZero then .nullMem id else .differentTypes
  | .ptrToMapValue .. => if s.isZero then .mapValueZero else .pointerScalar
  | .ptrToStack .. | .ptrToCtx .. | .ptrToMap .. | .ptrToMem .. => .pointerScalar
  | .uninit => .unreachable
  | .ptrToBtfId .. => .differentTypes
  | .scalar d => .scalars d s

def cmpKind (dst src : RegState) : CmpKind :=
  match dst, src with
  | .scalar d, .scalar s => .scalars d s
  | ptr, .scalar s => pointerScalarKind ptr s
  | .scalar s, ptr => pointerScalarKind ptr s
  | .ptrToStack .., .ptrToStack .. => .samePointers
  | .ptrToCtx .., .ptrToCtx .. => .samePointers
  | .ptrToMap .., .ptrToMap .. => .samePointers
  | .ptrToMapValue .., .ptrToMapValue .. => .samePointers
  | .ptrToMapValueOrNull .., .ptrToMapValueOrNull .. => .samePointers
  | .uninit, _ | _, .uninit => .unreachable
  | _, _ => .differentTypes

/-- The register of a NULL check that holds the pointer; an immediate is never one. -/
def ptrRegOf (dst : Reg) (srcReg : Option Reg) (dstIsPtr : Bool) : Exec Reg :=
  if dstIsPtr then .ok dst
  else match srcReg with
    | some src => .ok src
    | none => .error .panic

def differentTypesMsg (dst : Reg) (srcName : String) : String :=
  s!"invalid comparison of r{dst} with {srcName} (different types)"

/-- The shared refinement of both compare forms. -/
def condBranchImpl (pc : Nat) (dst : Reg) (srcReg : Option Reg) (srcState : RegState)
    (offset : Int16) (op : CondOp) (st : VerifierState) : Exec (List Succ) := do
  let dstState ← readReg pc st dst
  let takenPc := branchTarget pc offset
  let fallPc := pc + 1
  let srcName := match srcReg with
    | some r => s!"r{r}"
    | none => "imm"
  let both : List Succ := [(takenPc, st), (fallPc, st)]
  match cmpKind dstState srcState with
  | .scalars d s => .ok (scalarBranch takenPc fallPc dst srcReg d s op st)
  | .nullLookup vs id => do
    failIf (op.isEquality = false) pc (differentTypesMsg dst srcName)
    let ptrReg ← ptrRegOf dst srcReg (dstState.isScalar = false)
    .ok (lookupNullCheck takenPc fallPc op st ptrReg vs id)
  | .nullMem id => do
    failIf (op.isEquality = false) pc (differentTypesMsg dst srcName)
    let ptrReg ← ptrRegOf dst srcReg (dstState.isScalar = false)
    .ok (memNullCheck takenPc fallPc op st ptrReg id)
  | .mapValueZero => do
    failIf (op.isEquality = false) pc (differentTypesMsg dst srcName)
    .ok both
  | .samePointers => do
    failIf (op.isEquality = false) pc
      s!"comparing pointers r{dst} {op.symbol} {srcName} is not allowed"
    .ok both
  | .pointerScalar => .ok both
  | .unreachable => .error .panic
  | .differentTypes => fail pc (differentTypesMsg dst srcName)

/-- Register form: a scalar compared with itself is statically decided. -/
def condBranch (pc : Nat) (dst src : Reg) (offset : Int16) (op : CondOp) (st : VerifierState) :
    Exec (List Succ) := do
  let srcState ← readReg pc st src
  if src = dst ∧ srcState.isScalar then
    .ok [if op.isReflexive then (branchTarget pc offset, st) else (pc + 1, st)]
  else condBranchImpl pc dst (some src) srcState offset op st

/-- Immediate form: the immediate is a sign-extended constant. -/
def condBranchImm (pc : Nat) (dst : Reg) (imm : Int32) (offset : Int16) (op : CondOp)
    (st : VerifierState) : Exec (List Succ) :=
  condBranchImpl pc dst none (.scalar (.constant imm.toInt64)) offset op st

/-- The successors a static verdict leaves. -/
def branchOrBoth (pc : Nat) (offset : Int16) (taken : Option Bool) (st : VerifierState) :
    List Succ :=
  match taken with
  | some true => [(branchTarget pc offset, st)]
  | some false => [(pc + 1, st)]
  | none => [(branchTarget pc offset, st), (pc + 1, st)]

/-- The fall-through of `jset dst, imm`: every bit of the immediate is clear. -/
def jsetNotTaken (dst : Reg) (imm : Int32) (st : VerifierState) : VerifierState :=
  match st.regs dst with
  | .scalar bounds =>
    st.setReg dst (.scalar (applyAlu .and .w64 bounds (.constant (~~~imm).toInt64)))
  | _ => st

end RandVerifier
