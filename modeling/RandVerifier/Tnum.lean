/-
  RandVerifier.Tnum — tracked numbers (`src/tnum.rs`).

  A tracked number keeps the known bits of a `u64` in `value` and the unknown ones in
  `mask`. The operators are the source's, on `UInt64`, whose arithmetic wraps like the
  source's `wrapping_*`. A shift amount is the source's `u32`, a `Nat` here; the
  `checked_shl`/`checked_shr` of the source yield `None` from 64 on.
-/

import Mathlib.Data.Nat.Bitwise

namespace RandVerifier

def u64Max : UInt64 := 0xffffffffffffffff

structure Tnum where
  value : UInt64
  mask : UInt64
  deriving DecidableEq, Repr

namespace Tnum

/-- A fully known constant. -/
def constant (value : UInt64) : Tnum := ⟨value, 0⟩

/-- A fully unknown value. -/
def unknown : Tnum := ⟨0, u64Max⟩

def isConstant (t : Tnum) : Bool := t.mask == 0

/-- The bits that are known to be 1. -/
def knownOnes (t : Tnum) : UInt64 := t.value &&& ~~~t.mask

/-- Addition: the possible carry chain is folded into the mask. -/
def add (a b : Tnum) : Tnum :=
  let sm := a.mask + b.mask
  let sv := a.value + b.value
  let sigma := sm + sv
  let chi := sigma ^^^ sv
  let mu := chi ||| a.mask ||| b.mask
  ⟨sv &&& ~~~mu, mu⟩

/-- Subtraction: the difference spans `[dv - b.mask, dv + a.mask]`. -/
def sub (a b : Tnum) : Tnum :=
  let dv := a.value - b.value
  let alpha := dv + a.mask
  let beta := dv - b.mask
  let chi := alpha ^^^ beta
  let mu := chi ||| a.mask ||| b.mask
  ⟨dv &&& ~~~mu, mu⟩

def xor (a b : Tnum) : Tnum :=
  let value := a.value ^^^ b.value
  let mask := a.mask ||| b.mask
  ⟨value &&& ~~~mask, mask⟩

/-- `checked_shl(k).unwrap_or(0)`. -/
def shlOrZero (x : UInt64) (k : Nat) : UInt64 := if k < 64 then x <<< UInt64.ofNat k else 0

/-- `checked_shr(k).unwrap_or(0)`. -/
def shrOrZero (x : UInt64) (k : Nat) : UInt64 := if k < 64 then x >>> UInt64.ofNat k else 0

/-- `(x as i64).checked_shr(k)`, the sign fill from 64 on. -/
def sarOrSign (x : UInt64) (k : Nat) : UInt64 :=
  if k < 64 then (x.toInt64 >>> Int64.ofNat k).toUInt64 else if x.toInt64 < 0 then u64Max else 0

def lshift (t : Tnum) (k : Nat) : Tnum := ⟨shlOrZero t.value k, shlOrZero t.mask k⟩

def rshift (t : Tnum) (k : Nat) : Tnum := ⟨shrOrZero t.value k, shrOrZero t.mask k⟩

/-- The mask is shifted with sign extension, like the value. -/
def arshift (t : Tnum) (k : Nat) : Tnum := ⟨sarOrSign t.value k, sarOrSign t.mask k⟩

/-- Truncate to the low 32 bits. -/
def subreg (t : Tnum) : Tnum := ⟨t.value.toUInt32.toUInt64, t.mask.toUInt32.toUInt64⟩

/-- The smallest tracked number covering `[min, max]`: `64 - leading_zeros` is one more
    than the index of the highest differing bit. -/
def fromRange (min max : UInt64) : Tnum :=
  let chi := min ^^^ max
  if chi = 0 then constant min
  else
    let bits := chi.toNat.log2 + 1
    let mask := if bits = 64 then u64Max else (1 <<< UInt64.ofNat bits) - 1
    ⟨min &&& ~~~mask, mask⟩

def and (a b : Tnum) : Tnum :=
  let alpha := a.value ||| a.mask
  let beta := b.value ||| b.mask
  let value := a.value &&& b.value
  ⟨value, (alpha &&& beta) ^^^ value⟩

def or (a b : Tnum) : Tnum :=
  let knownOne := a.knownOnes ||| b.knownOnes
  let knownZero := (~~~a.value &&& ~~~a.mask) &&& (~~~b.value &&& ~~~b.mask)
  ⟨knownOne, ~~~(knownOne ||| knownZero)⟩

/-- The values common to both. -/
def intersect (a b : Tnum) : Tnum :=
  let v := a.value ||| b.value
  let mu := a.mask &&& b.mask
  ⟨v &&& ~~~mu, mu⟩

/-- Does `a` contain every value of `b`? -/
def subsumes (a b : Tnum) : Bool :=
  (b.mask &&& ~~~a.mask) == 0 && (b.value &&& ~~~a.mask) == (a.value &&& ~~~a.mask)

end Tnum

end RandVerifier
