/-
  RandVerifier.Refine — static branch verdicts and branch refinement (`src/exec.rs`).
-/

import RandVerifier.Alu

namespace RandVerifier

/-- Ordered comparison shape without signedness. -/
inductive OrdOp where
  | gt
  | ge
  | lt
  | le
  deriving DecidableEq, Repr

/-- The conditional comparisons: equality, the unsigned and the signed family. -/
inductive CondOp where
  | eq
  | ne
  | ugt
  | uge
  | ult
  | ule
  | sgt
  | sge
  | slt
  | sle
  deriving DecidableEq, Repr

namespace CondOp

/-- The operator symbol used in error messages. -/
def symbol : CondOp → String
  | eq => "=="
  | ne => "!="
  | ugt | sgt => ">"
  | uge | sge => ">="
  | ult | slt => "<"
  | ule | sle => "<="

def isSigned : CondOp → Bool
  | sgt | sge | slt | sle => true
  | _ => false

/-- Whether the comparison holds of equal operands. -/
def isReflexive : CondOp → Bool
  | eq | ule | uge | sle | sge => true
  | _ => false

end CondOp

/-- Static verdict of a comparison over two scalar ranges. -/
inductive BranchVerdict where
  | alwaysTaken
  | alwaysNotTaken
  | unknown
  deriving DecidableEq, Repr

/-! ## One interval family -/

/-- The extreme values of an interval family. -/
class WrapInt (α : Type) where
  minVal : α
  maxVal : α

instance : WrapInt Int64 := ⟨Int64.minValue, Int64.maxValue⟩
instance : WrapInt UInt64 := ⟨0, u64Max⟩

section Family

variable {α : Type} [WrapInt α] [Add α] [Sub α] [OfNat α 1] [Max α] [Min α] [LE α] [LT α]
  [DecidableLE α] [DecidableLT α]

/-- The refinement equations of one ordered comparison: (true, false) × (dst, src). -/
def refineOrdered (op : OrdOp) (dst src : α × α) :
    ((α × α) × (α × α)) × ((α × α) × (α × α)) :=
  match op with
  | .gt =>
    (((max dst.1 (src.1 + 1), dst.2), (src.1, min src.2 (dst.2 - 1))),
     ((dst.1, min dst.2 src.2), (max src.1 dst.1, src.2)))
  | .ge =>
    (((max dst.1 src.1, dst.2), (src.1, min src.2 dst.2)),
     ((dst.1, min dst.2 (src.1 - 1)), (max src.1 (dst.1 + 1), src.2)))
  | .lt =>
    (((dst.1, min dst.2 (src.2 - 1)), (max src.1 (dst.1 + 1), src.2)),
     ((max dst.1 src.1, dst.2), (src.1, min src.2 dst.2)))
  | .le =>
    (((dst.1, min dst.2 src.2), (max src.1 dst.1, src.2)),
     ((max dst.1 (src.1 + 1), dst.2), (src.1, min src.2 (dst.2 - 1))))

/-- The static verdict of one ordered comparison. -/
def orderedVerdict (op : OrdOp) (dst src : α × α) : BranchVerdict :=
  match op with
  | .gt => if src.2 < dst.1 then .alwaysTaken else if dst.2 ≤ src.1 then .alwaysNotTaken else .unknown
  | .ge => if src.2 ≤ dst.1 then .alwaysTaken else if dst.2 < src.1 then .alwaysNotTaken else .unknown
  | .lt => if dst.2 < src.1 then .alwaysTaken else if src.2 ≤ dst.1 then .alwaysNotTaken else .unknown
  | .le => if dst.2 ≤ src.1 then .alwaysTaken else if src.2 < dst.1 then .alwaysNotTaken else .unknown

def rangesDisjoint (a b : α × α) : Bool := a.2 < b.1 || b.2 < a.1

/-- Narrow `a` by excluding `b`, when the complement is a single interval; an empty range
    marks an infeasible branch. -/
def excludeInterval (a b : α × α) : Option (α × α) :=
  if b.1 ≤ a.1 ∧ a.2 ≤ b.2 then some (WrapInt.maxVal, WrapInt.minVal)
  else if b.1 ≤ a.1 then some (b.2 + 1, a.2)
  else if a.2 ≤ b.2 then some (a.1, b.1 - 1)
  else none

end Family

/-! ## Verdicts -/

/-- The ordered shape of an ordered comparison. -/
def CondOp.ord : CondOp → Option OrdOp
  | ugt | sgt => some .gt
  | uge | sge => some .ge
  | ult | slt => some .lt
  | ule | sle => some .le
  | eq | ne => none

def sameConstant (dst src : ScalarBounds) : Bool :=
  dst.isConstant && src.isConstant && dst.smin == src.smin && dst.umin == src.umin

def boundsDisjoint (dst src : ScalarBounds) : Bool :=
  rangesDisjoint dst.signed src.signed || rangesDisjoint dst.unsigned src.unsigned

/-- Decide whether a branch is statically always taken, never taken, or unknown. -/
def isBranchTaken (op : CondOp) (dst src : ScalarBounds) : BranchVerdict :=
  match op.ord with
  | none =>
    let (same, disjoint) : BranchVerdict × BranchVerdict :=
      if op = .eq then (.alwaysTaken, .alwaysNotTaken) else (.alwaysNotTaken, .alwaysTaken)
    if sameConstant dst src then same else if boundsDisjoint dst src then disjoint else .unknown
  | some ord =>
    if op.isSigned then orderedVerdict ord dst.signed src.signed
    else orderedVerdict ord dst.unsigned src.unsigned

/-- `if (dst & src) != 0`, decided from the constants and the tnums. -/
def jsetVerdict (dst src : ScalarBounds) : Option Bool :=
  if dst.isConstant ∧ src.isConstant then some ((dst.umin &&& src.umin) != 0)
  else if (dst.tnum.knownOnes &&& src.tnum.knownOnes) ≠ 0 then some true
  else if ((dst.tnum.value ||| dst.tnum.mask) &&& (src.tnum.value ||| src.tnum.mask)) = 0 then
    some false
  else none

/-- The 32-bit comparison of two constants. -/
def jmp32Verdict (dst src : ScalarBounds) (op : Jmp32Op) : Option Bool :=
  if ¬ (dst.isConstant ∧ src.isConstant) then none
  else
    let d := dst.umin.toUInt32
    let s := src.umin.toUInt32
    some (match op with
      | .eq => d == s
      | .ne => d != s
      | .gt => decide (s < d)
      | .ge => decide (s ≤ d)
      | .lt => decide (d < s)
      | .le => decide (d ≤ s)
      | .sgt => decide (s.toInt32 < d.toInt32)
      | .sge => decide (s.toInt32 ≤ d.toInt32)
      | .slt => decide (d.toInt32 < s.toInt32)
      | .sle => decide (d.toInt32 ≤ s.toInt32))

/-! ## Refinement -/

abbrev RefinedPair := ScalarBounds × ScalarBounds

abbrev RefinedBranches := RefinedPair × RefinedPair

def withSigned (b : ScalarBounds) (r : Int64 × Int64) : ScalarBounds :=
  { b with smin := r.1, smax := r.2 }

def withUnsigned (b : ScalarBounds) (r : UInt64 × UInt64) : ScalarBounds :=
  { b with umin := r.1, umax := r.2 }

/-- The intersection of two bounds, of both branches that assert equality. -/
def intersectBounds (dst src : ScalarBounds) : ScalarBounds :=
  (ScalarBounds.ofRanges (max dst.smin src.smin, min dst.smax src.smax)
    (max dst.umin src.umin, min dst.umax src.umax) (dst.tnum.intersect src.tnum)).synced

/-- Exclude the constant `b` from the interval families of `a`; sound for constants only. -/
def excludeBounds (a b : ScalarBounds) : ScalarBounds :=
  if b.isConstant then
    ScalarBounds.ofRanges ((excludeInterval a.signed (b.smin, b.smin)).getD a.signed)
      ((excludeInterval a.unsigned (b.umin, b.umin)).getD a.unsigned) a.tnum
  else a

def refineEq (dst src : ScalarBounds) : RefinedBranches :=
  let inter := intersectBounds dst src
  ((inter, inter), ((excludeBounds dst src).synced, (excludeBounds src dst).synced))

def refineNe (dst src : ScalarBounds) : RefinedBranches :=
  let inter := intersectBounds dst src
  (((excludeBounds dst src).synced, (excludeBounds src dst).synced), (inter, inter))

/-- Refine two scalar bounds for both branch sides of `dst op src`. -/
def refineCmp (op : CondOp) (dst src : ScalarBounds) : RefinedBranches :=
  match op.ord with
  | none => if op = .eq then refineEq dst src else refineNe dst src
  | some ord =>
    if op.isSigned then
      let ((td, ts), (fd, fs)) := refineOrdered ord dst.signed src.signed
      (((withSigned dst td).synced, (withSigned src ts).synced),
       ((withSigned dst fd).synced, (withSigned src fs).synced))
    else
      let ((td, ts), (fd, fs)) := refineOrdered ord dst.unsigned src.unsigned
      (((withUnsigned dst td).synced, (withUnsigned src ts).synced),
       ((withUnsigned dst fd).synced, (withUnsigned src fs).synced))

end RandVerifier
