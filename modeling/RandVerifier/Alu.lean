/-
  RandVerifier.Alu — ALU operations on scalar bounds (the `alu_*`, `apply_alu` and shift
  ranges of `src/exec.rs`).

  The range arithmetic that the source checks (`checked_add`, products in `i128`) is done
  on `Int` here and cast back when it fits. Where the source's arithmetic could overflow
  (`interval_mod`, `-src.smin`), the fixed-width operators wrap.
-/

import RandVerifier.State

namespace RandVerifier

inductive AluOp where
  | add
  | sub
  | and
  | or
  | xor
  | lsh
  | rsh
  | arsh
  | mul
  | div
  | mod
  | neg
  deriving DecidableEq, Repr

def AluOp.isShift : AluOp → Bool
  | lsh | rsh | arsh => true
  | _ => false

inductive AluWidth where
  | w64
  | w32
  deriving DecidableEq, Repr

def AluWidth.bitness : AluWidth → Int
  | w64 => 64
  | w32 => 32

/-! ## Constants -/

/-- Exact 64-bit ALU on constant bits; shift amounts are masked, division by zero yields 0
    and the remainder by zero leaves the operand. -/
def aluConst64 (op : AluOp) (a b : UInt64) : UInt64 :=
  match op with
  | .add => a + b
  | .sub => a - b
  | .and => a &&& b
  | .or => a ||| b
  | .xor => a ^^^ b
  | .mul => a * b
  | .div => if b = 0 then 0 else a / b
  | .mod => if b = 0 then a else a % b
  | .neg => 0 - a
  | .lsh => a <<< (b &&& 63)
  | .rsh => a >>> (b &&& 63)
  | .arsh => (a.toInt64 >>> (b &&& 63).toInt64).toUInt64

/-- Exact 32-bit ALU on constant bits: truncate, compute, zero-extend. -/
def aluConst32 (op : AluOp) (a b : UInt64) : UInt64 :=
  let a := a.toUInt32
  let b := b.toUInt32
  let r : UInt32 := match op with
    | .add => a + b
    | .sub => a - b
    | .and => a &&& b
    | .or => a ||| b
    | .xor => a ^^^ b
    | .mul => a * b
    | .div => if b = 0 then 0 else a / b
    | .mod => if b = 0 then a else a % b
    | .neg => 0 - a
    | .lsh => a <<< (b &&& 31)
    | .rsh => a >>> (b &&& 31)
    | .arsh => (a.toInt32 >>> (b &&& 31).toInt32).toUInt32
  r.toUInt64

/-- Exact ALU on constant bits, by width. -/
def aluConst (width : AluWidth) (op : AluOp) (a b : UInt64) : UInt64 :=
  match width with
  | .w64 => aluConst64 op a b
  | .w32 => aluConst32 op a b

/-- The high half of a 64-bit product. -/
def hmulConst (a b : UInt64) (high : MulHigh) : UInt64 :=
  match high with
  | .low => a * b
  | .unsignedHigh => UInt64.ofNat (a.toNat * b.toNat / 2 ^ 64)
  | .signedHigh => (Int64.ofInt (a.toInt64.toInt * b.toInt64.toInt / 2 ^ 64)).toUInt64

/-! ## 64-bit ranges -/

def fullSigned : Int64 × Int64 := (Int64.minValue, Int64.maxValue)

def fullUnsigned : UInt64 × UInt64 := (0, u64Max)

/-- The interval `[lo, hi]` when both ends fit an `i64`, else the full range. -/
def checkedSigned (lo hi : Int) : Int64 × Int64 :=
  if -2 ^ 63 ≤ lo ∧ lo < 2 ^ 63 ∧ -2 ^ 63 ≤ hi ∧ hi < 2 ^ 63 then (Int64.ofInt lo, Int64.ofInt hi)
  else fullSigned

/-- The interval `[lo, hi]` when both ends fit a `u64`, else the full range. -/
def checkedUnsigned (lo hi : Int) : UInt64 × UInt64 :=
  if 0 ≤ lo ∧ lo < 2 ^ 64 ∧ 0 ≤ hi ∧ hi < 2 ^ 64 then (UInt64.ofNat lo.toNat, UInt64.ofNat hi.toNat)
  else fullUnsigned

/-- The least and the greatest of four products. -/
def productRange (dmin dmax smin smax : Int) : Int × Int :=
  (min (min (dmin * smin) (dmin * smax)) (min (dmax * smin) (dmax * smax)),
   max (max (dmin * smin) (dmin * smax)) (max (dmax * smin) (dmax * smax)))

/-- Shift a signed range by a constant amount below 64. -/
def shift64ByConst (op : AluOp) (dmin dmax : Int64) (k : UInt64) : Int64 × Int64 :=
  match op with
  | .lsh =>
    if dmin < 0 then fullSigned
    else if k = 0 then (dmin, dmax)
    -- the shift is monotone within one block of size 2^(64-k) only
    else if dmin.toUInt64 >>> (64 - k) ≠ dmax.toUInt64 >>> (64 - k) then fullSigned
    else
      let lo := dmin.toUInt64 <<< k
      let hi := dmax.toUInt64 <<< k
      if 0x8000000000000000 ≤ lo ∨ hi < 0x8000000000000000 then (lo.toInt64, hi.toInt64)
      else fullSigned
  | .rsh =>
    if dmin < 0 then fullSigned
    else ((dmin.toUInt64 >>> k).toInt64, (dmax.toUInt64 >>> k).toInt64)
  | _ => (dmin >>> k.toInt64, dmax >>> k.toInt64)

/-- Shift a signed range by a range of amounts below 64. -/
def shift64Range (op : AluOp) (dmin dmax smin smax : Int64) : Int64 × Int64 :=
  if smin = smax then shift64ByConst op dmin dmax smin.toUInt64
  else match op with
    | .lsh => fullSigned
    | .rsh => if 0 ≤ dmin then (0, dmax) else fullSigned
    | _ => (dmin >>> 63, dmax)

/-- 64-bit signed-family range arithmetic. -/
def alu64Signed (op : AluOp) (d s : Int64 × Int64) : Int64 × Int64 :=
  let (dmin, dmax) := d
  let (smin, smax) := s
  if dmin = dmax ∧ smin = smax then
    let bits := aluConst64 op dmin.toUInt64 smin.toUInt64
    (bits.toInt64, bits.toInt64)
  else match op with
    | .add => checkedSigned (dmin.toInt + smin.toInt) (dmax.toInt + smax.toInt)
    | .sub => checkedSigned (dmin.toInt - smax.toInt) (dmax.toInt - smin.toInt)
    | .and => if 0 ≤ dmin ∧ 0 ≤ smin then (0, min dmax smax) else fullSigned
    | .or => if 0 ≤ dmin ∧ 0 ≤ smin then (max dmin smin, Int64.maxValue) else fullSigned
    | .xor => if 0 ≤ dmin ∧ 0 ≤ smin then (0, Int64.maxValue) else fullSigned
    | .mul =>
      let (lo, hi) := productRange dmin.toInt dmax.toInt smin.toInt smax.toInt
      checkedSigned lo hi
    | .div => fullSigned
    | .mod =>
      if smin = smax ∧ smin ≠ 0 then
        let bound := Int64.ofInt (smin.toInt.natAbs - 1 : Nat)
        (-bound, bound)
      else fullSigned
    | .neg => fullSigned
    | .lsh | .rsh | .arsh => shift64Range op dmin dmax smin smax

/-- 64-bit unsigned-family range arithmetic; for a shift `s` is the amount. -/
def alu64Unsigned (op : AluOp) (d s : UInt64 × UInt64) : UInt64 × UInt64 :=
  let (dmin, dmax) := d
  let (smin, smax) := s
  match op with
  | .add => checkedUnsigned (dmin.toNat + smin.toNat) (dmax.toNat + smax.toNat)
  | .sub => checkedUnsigned (dmin.toNat - smax.toNat) (dmax.toNat - smin.toNat)
  | .and => (0, min dmax smax)
  | .or => (max dmin smin, u64Max)
  | .xor => fullUnsigned
  | .mul =>
    let (lo, hi) := productRange dmin.toNat dmax.toNat smin.toNat smax.toNat
    checkedUnsigned lo hi
  | .div => if smin = 0 then fullUnsigned else (dmin / max smax 1, dmax / smin)
  | .mod => if smin = 0 then fullUnsigned else (0, smax - 1)
  | .neg => fullUnsigned
  | .lsh =>
    if smin = smax ∧ dmax ≤ u64Max >>> smin then (dmin <<< smin, dmax <<< smin)
    else fullUnsigned
  | .rsh => if smin = smax then (dmin >>> smin, dmax >>> smin) else (0, dmax)
  | .arsh => fullUnsigned

/-! ## 32-bit ranges -/

def fullU32 : UInt32 × UInt32 := (0, 0xffffffff)

/-- Map an integer interval into `[0, 2^32)`: a single interval iff it is narrower than
    2^32 and does not cross a multiple of 2^32. -/
def intervalMod (lo hi : Int64) : UInt32 × UInt32 :=
  if hi - lo < 0x100000000 ∧ lo.toUInt64.toUInt32 ≤ hi.toUInt64.toUInt32 then
    (lo.toUInt64.toUInt32, hi.toUInt64.toUInt32)
  else fullU32

/-- 32-bit shift ranges; the amount is below 32 by the caller. -/
def shift32Range (op : AluOp) (d s : UInt32 × UInt32) : UInt32 × UInt32 :=
  if s.1 ≠ s.2 then
    match op with
    | .rsh => (0, d.2)
    | _ => fullU32
  else
    let k := s.1
    match op with
    | .lsh =>
      if 32 ≤ k then (0, 0)
      else if k = 0 then d
      else if d.2 < 1 <<< (32 - k) then (d.1 <<< k, d.2 <<< k)
      else fullU32
    | .rsh => if 32 ≤ k then (0, 0) else (d.1 >>> k, d.2 >>> k)
    | _ =>
      if 32 ≤ k then if d.1.toInt32 < 0 then (0xffffffff, 0xffffffff) else (0, 0)
      else ((d.1.toInt32 >>> k.toInt32).toUInt32, (d.2.toInt32 >>> k.toInt32).toUInt32)

/-- ALU32 range arithmetic in 32-bit space (truncating, wrap-aware). -/
def alu32Range (op : AluOp) (d s : UInt32 × UInt32) : UInt32 × UInt32 :=
  let wide (x : UInt32) : Int64 := x.toUInt64.toInt64
  match op with
  | .add => intervalMod (wide d.1 + wide s.1) (wide d.2 + wide s.2)
  | .sub => intervalMod (wide d.1 - wide s.2) (wide d.2 - wide s.1)
  | .and => (0, min d.2 s.2)
  | .or => (max d.1 s.1, 0xffffffff)
  | .xor => fullU32
  | .mul =>
    intervalMod (d.1.toUInt64 * s.1.toUInt64).toInt64 (d.2.toUInt64 * s.2.toUInt64).toInt64
  | .div => if s.1 = 0 then fullU32 else (d.1 / max s.2 1, d.2 / s.1)
  | .mod => if s.1 = 0 then fullU32 else (0, if s.2 = 0 then 0 else s.2 - 1)
  | .neg => fullU32
  | .lsh | .rsh | .arsh => shift32Range op d s

/-! ## Bounds -/

/-- The tnum of an ALU result; a variable shift amount leaves every bit unknown. -/
def aluTnum (op : AluOp) (d s : Tnum) (amountMin amountMax : Int64) : Tnum :=
  match op with
  | .add => d.add s
  | .sub => d.sub s
  | .and => d.and s
  | .or => d.or s
  | .xor => d.xor s
  | .mul | .div | .mod | .neg => .unknown
  | .lsh => if amountMin ≠ amountMax then .unknown else d.lshift amountMin.toInt.toNat
  | .rsh => if amountMin ≠ amountMax then .unknown else d.rshift amountMin.toInt.toNat
  | .arsh => if amountMin ≠ amountMax then .unknown else d.arshift amountMin.toInt.toNat

/-- The ALU64 result with a non-constant operand. -/
def aluBounds64 (op : AluOp) (d s : ScalarBounds) : ScalarBounds :=
  let amount := if op.isShift then (s.smin.toUInt64, s.smax.toUInt64) else s.unsigned
  { ScalarBounds.ofRanges (alu64Signed op d.signed s.signed) (alu64Unsigned op d.unsigned amount)
      (aluTnum op d.tnum s.tnum s.smin s.smax) with
    id := d.id, delta := d.delta }

/-- The ALU32 result with a non-constant operand: computed in 32-bit space, zero-extended. -/
def aluBounds32 (op : AluOp) (d s : ScalarBounds) : ScalarBounds :=
  let (rmin, rmax) := alu32Range op (d.u32Min, d.u32Max) (s.u32Min, s.u32Max)
  { ScalarBounds.ofRanges (rmin.toUInt64.toInt64, rmax.toUInt64.toInt64)
      (rmin.toUInt64, rmax.toUInt64) (aluTnum op d.tnum s.tnum s.smin s.smax).subreg with
    id := d.id, delta := d.delta }

def applyAluInner (op : AluOp) (width : AluWidth) (d s : ScalarBounds) : ScalarBounds :=
  -- a register shift by an amount that may exceed the width is unbounded
  if op.isShift ∧ (s.smin < 0 ∨ width.bitness ≤ s.smax.toInt) then .unknown
  else if d.isConstant ∧ s.isConstant then
    .constant (aluConst width op d.smin.toUInt64 s.smin.toUInt64).toInt64
  else match width with
    | .w64 => (aluBounds64 op d s).synced
    | .w32 => (aluBounds32 op d s).synced

def ScalarBounds.unlinked (b : ScalarBounds) : ScalarBounds := { b with id := 0, delta := 0 }

/-- The linking rules: a 64-bit `dst ± K` on a linked register without a delta records the
    delta, everything else clears the link. -/
def applyLinking (op : AluOp) (width : AluWidth) (result dst src : ScalarBounds) : ScalarBounds :=
  if (op = .add ∨ op = .sub) ∧ src.isConstant ∧ width = .w64 ∧
      ¬ (dst.id = 0 ∨ result.id ≠ dst.id ∨ result.delta ≠ 0) then
    let off := (if op = .sub then -src.smin else src.smin).toInt
    if -2 ^ 31 ≤ off ∧ off < 2 ^ 31 then { result with delta := off } else result.unlinked
  else result.unlinked

/-- Apply an ALU operation to scalar bounds. -/
def applyAlu (op : AluOp) (width : AluWidth) (d s : ScalarBounds) : ScalarBounds :=
  applyLinking op width (applyAluInner op width d s) d s

end RandVerifier
