/-
  RandVerifier.Spec.Value — the values of the safety-spec verifier (`src/spec/value.rs` and the
  free functions of `src/spec/runner.rs`).

  A scalar is one `u64` interval; a pointer carries its offset interval, its size or its
  id. Interval arithmetic wraps at 2^64 and falls back to the full range where the image is
  not one interval. An offset is an `i64` kept as an integer, `saturating_add` is
  `clampI64`.
-/

import RandVerifier.Alu
import RandVerifier.State

namespace RandVerifier.Spec

/-- The dynamic value of a register or of a spilled slot. -/
inductive SpecValue where
  | uninit
  | scalar (lo hi : UInt64)
  | ptrToStack (lo hi : Int)
  | ptrToCtx (off : Int)
  | ptrToMap (keySize valueSize mapType : Nat)
  | ptrToMapValue (lo hi : Int) (size : Nat)
  | ptrToMapValueOrNull (size id : Nat)
  | ptrToMem (lo hi : Int) (size id : Nat)
  | ptrToMemOrNull (size id : Nat)
  deriving DecidableEq, Repr

/-- A scalar interval. -/
abbrev Range := UInt64 × UInt64

/-- The unrefined interval. -/
def full : Range := (0, u64Max)

namespace SpecValue

def unknownScalar : SpecValue := .scalar 0 u64Max

def constScalar (v : UInt64) : SpecValue := .scalar v v

/-- The scalar of an interval. -/
def ofRange (r : Range) : SpecValue := .scalar r.1 r.2

def isScalar : SpecValue → Bool
  | scalar .. => true
  | _ => false

def asScalar : SpecValue → Option Range
  | scalar lo hi => some (lo, hi)
  | _ => none

def isPointer : SpecValue → Bool
  | uninit | scalar .. => false
  | _ => true

/-- The exact value of a scalar whose interval is a point (`spec_const`). -/
def const? : SpecValue → Option UInt64
  | scalar lo hi => if lo = hi then some lo else none
  | _ => none

/-- The `Debug` text. -/
def debug : SpecValue → String
  | uninit => "Uninit"
  | scalar lo hi => s!"Scalar \x7b lo: {lo}, hi: {hi} \x7d"
  | ptrToStack lo hi => s!"PtrToStack \x7b lo: {lo}, hi: {hi} \x7d"
  | ptrToCtx off => s!"PtrToCtx \x7b off: {off} \x7d"
  | ptrToMap k v t => s!"PtrToMap \x7b key_size: {k}, value_size: {v}, map_type: {t} \x7d"
  | ptrToMapValue lo hi size => s!"PtrToMapValue \x7b lo: {lo}, hi: {hi}, size: {size} \x7d"
  | ptrToMapValueOrNull size id => s!"PtrToMapValueOrNull \x7b size: {size}, id: {id} \x7d"
  | ptrToMem lo hi size id => s!"PtrToMem \x7b lo: {lo}, hi: {hi}, size: {size}, id: {id} \x7d"
  | ptrToMemOrNull size id => s!"PtrToMemOrNull \x7b size: {size}, id: {id} \x7d"

end SpecValue

/-! ## Interval arithmetic -/

def rngAdd (a b : Range) : Range :=
  let lo := a.1.toNat + b.1.toNat
  let hi := a.2.toNat + b.2.toNat
  if lo / 2 ^ 64 = hi / 2 ^ 64 then (UInt64.ofNat lo, UInt64.ofNat hi) else full

/-- `[a0 - b1, a1 - b0]`, folded into one block of 2^64. -/
def rngSub (a b : Range) : Range :=
  let lo := (a.1.toNat : Int) - b.2.toNat
  let hi := (a.2.toNat : Int) - b.1.toNat
  let span := hi - lo
  if span < 2 ^ 64 then
    let foldedLo := lo % 2 ^ 64
    let foldedHi := foldedLo + span
    if foldedHi < 2 ^ 64 then (UInt64.ofNat foldedLo.toNat, UInt64.ofNat foldedHi.toNat) else full
  else full

def rngAnd (a b : Range) : Range := (0, min a.2 b.2)

def rngOr (a b : Range) : Range := (max a.1 b.1, u64Max)

def rngXor (_a _b : Range) : Range := full

/-- Shift left by a constant. -/
def rngLsh (a : Range) (k : UInt64) : Range :=
  if k = 0 then a
  else if 64 ≤ k then (0, 0)
  -- monotone within one block of size 2^(64-k)
  else if a.1 >>> (64 - k) = a.2 >>> (64 - k) then (a.1 <<< k, a.2 <<< k)
  else full

/-- Logical shift right by a constant. -/
def rngRsh (a : Range) (k : UInt64) : Range :=
  if 64 ≤ k then (0, 0) else (a.1 >>> k, a.2 >>> k)

/-- Arithmetic shift right by a constant. -/
def rngArsh (a : Range) (k : UInt64) : Range :=
  if 64 ≤ k then
    if a.1.toInt64 < 0 then (u64Max, u64Max) else (0, 0)
  else ((a.1.toInt64 >>> k.toInt64).toUInt64, (a.2.toInt64 >>> k.toInt64).toUInt64)

def rngMul (a b : Range) : Range :=
  if a.1 = a.2 ∧ b.1 = b.2 then (a.1 * b.1, a.1 * b.1) else full

def truncate32 (x : UInt64) : UInt64 := x &&& 0xffffffff

/-- The low 32 bits of an interval, when they are one interval. -/
def range32 (a : Range) : Range :=
  if a.1 >>> 32 = a.2 >>> 32 then (truncate32 a.1, truncate32 a.2) else (0, 0xffffffff)

/-- The signed view of an interval that does not straddle the sign bit. -/
def asSigned (a : Range) : Option (Int64 × Int64) :=
  if a.2 < 0x8000000000000000 ∨ 0x8000000000000000 ≤ a.1 then some (a.1.toInt64, a.2.toInt64) else none

/-- Constant operands fold exactly; unlike the machine, a shift by 64 or more saturates. -/
def foldConst (op : AluOp) (a b : UInt64) : UInt64 :=
  match op with
  | .add => a + b
  | .sub => a - b
  | .and => a &&& b
  | .or => a ||| b
  | .xor => a ^^^ b
  | .mul => a * b
  | .div => if b = 0 then 0 else a / b
  | .mod => if b = 0 then a else a % b
  | .neg => 0 - a
  | .lsh => if 64 ≤ b then 0 else a <<< b
  | .rsh => if 64 ≤ b then 0 else a >>> b
  | .arsh => (a.toInt64 >>> (if 64 ≤ b then 63 else b.toInt64)).toUInt64

/-- A shift by an amount that is unknown or may reach the width is unbounded. -/
def shiftRange (shift : Range → UInt64 → Range) (d s : Range) : Range :=
  if s.1 ≠ s.2 ∨ 64 ≤ s.1 then full else shift d s.1

/-- The interval of an ALU operation. -/
def aluRange (op : AluOp) (d s : Range) : Range :=
  if d.1 = d.2 ∧ s.1 = s.2 then (foldConst op d.1 s.1, foldConst op d.1 s.1)
  else match op with
    | .add => rngAdd d s
    | .sub => rngSub d s
    | .and => rngAnd d s
    | .or => rngOr d s
    | .xor => rngXor d s
    | .lsh => shiftRange rngLsh d s
    | .rsh => shiftRange rngRsh d s
    | .arsh => shiftRange rngArsh d s
    | .mul => rngMul d s
    | .div => if s.1 = 0 then full else (d.1 / max s.2 1, d.2 / s.1)
    | .mod => if s.1 = 0 then full else (0, s.2 - 1)
    | .neg => full

/-- `[lo, hi]` negated in the signed view, for `ptr -= scalar`. -/
def negateScalar (v : SpecValue) : SpecValue :=
  match v.asScalar with
  | none => v
  | some r =>
    match asSigned r with
    | none => .unknownScalar
    | some (lo, hi) => .scalar (0 - hi.toUInt64) (0 - lo.toUInt64)

/-! ## Comparisons -/

/-- A comparison operator, normalized to `dst CMP src`. -/
inductive Cmp where
  | eq
  | ne
  | lt
  | le
  | gt
  | ge
  deriving DecidableEq, Repr

def Cmp.negate : Cmp → Cmp
  | eq => ne
  | ne => eq
  | lt => ge
  | ge => lt
  | gt => le
  | le => gt

/-- A register compared with itself: the outcome is known and the value is forgotten. -/
def selfCompareRefine : Cmp → List Range × List Range
  | .eq | .le | .ge => ([full], [])
  | .ne | .lt | .gt => ([], [full])

/-- What remains of `d` when `d CMP s` holds, unsigned. -/
def unsignedTake (d s : Range) : Cmp → List Range
  | .eq =>
    let lo := max d.1 s.1
    let hi := min d.2 s.2
    if lo ≤ hi then [(lo, hi)] else []
  | .ne =>
    if s.1 ≤ d.1 ∧ d.2 ≤ s.2 then []
    else
      (if d.1 < s.1 then [(d.1, min d.2 (s.1 - 1))] else []) ++
        (if s.2 < d.2 then [(s.2 + 1, d.2)] else [])
  | .lt =>
    if s.1 = 0 ∨ s.2 < d.1 then []
    else
      let hi := min d.2 (s.2 - 1)
      if d.1 ≤ hi then [(d.1, hi)] else []
  | .le => if s.2 < d.1 then [] else [(d.1, min d.2 s.2)]
  | .gt => if s.1 = u64Max ∨ d.2 ≤ s.1 then [] else [(max d.1 (s.1 + 1), d.2)]
  | .ge => if d.2 < s.1 then [] else [(max d.1 s.1, d.2)]

def unsignedCmpRefine (d s : Range) (cmp : Cmp) : List Range × List Range :=
  (unsignedTake d s cmp, unsignedTake d s cmp.negate)

/-- What remains of `d` when `d CMP s` holds, signed. -/
def signedTake (d s : Int64 × Int64) : Cmp → List Range
  | .eq =>
    let lo := max d.1 s.1
    let hi := min d.2 s.2
    if lo ≤ hi then [(lo.toUInt64, hi.toUInt64)] else []
  | .ne =>
    if s.1 ≤ d.1 ∧ d.2 ≤ s.2 then []
    else
      (if d.1 < s.1 then [(d.1.toUInt64, (min d.2 (s.1 - 1)).toUInt64)] else []) ++
        (if s.2 < d.2 then [((s.2 + 1).toUInt64, d.2.toUInt64)] else [])
  | .lt =>
    if s.2 < d.1 ∨ s.2 = Int64.minValue then []
    else
      let hi := min d.2 (s.2 - 1)
      if d.1 ≤ hi then [(d.1.toUInt64, hi.toUInt64)] else []
  | .le => if s.2 < d.1 then [] else [(d.1.toUInt64, (min d.2 s.2).toUInt64)]
  | .gt =>
    if d.2 ≤ s.1 ∨ s.1 = Int64.maxValue then [] else [((max d.1 (s.1 + 1)).toUInt64, d.2.toUInt64)]
  | .ge => if d.2 < s.1 then [] else [((max d.1 s.1).toUInt64, d.2.toUInt64)]

/-- Both outcomes stay open when an operand straddles the sign bit. -/
def signedCmpRefine (d s : Range) (cmp : Cmp) : List Range × List Range :=
  match asSigned d, asSigned s with
  | some ds, some ss => (signedTake ds ss cmp, signedTake ds ss cmp.negate)
  | _, _ => ([d], [d])

end RandVerifier.Spec
