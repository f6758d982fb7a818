/-
  RandVerifier.WordMixing — mixing stages that lose no word.

  The stages of a mixing function on words of any width: xor with a fixed word, a product
  with a word that has an inverse, xor with the word's own shift to the right. Each is
  injective, so a composition of them is.
-/

import Mathlib.Data.Nat.Bitwise
import Mathlib.Logic.Function.Basic

namespace RandVerifier.WordMixing

variable {w : Nat}

theorem xor_injective (c : BitVec w) : Function.Injective fun x : BitVec w => c ^^^ x := by
  intro x y h
  exact (BitVec.xor_right_inj c).mp h

/-- A factor with an inverse loses nothing. -/
theorem mul_injective {c d : BitVec w} (hinv : c * d = 1#w) : Function.Injective fun x : BitVec w => x * c := by
  intro x y h
  have hback : x * c * d = y * c * d := congrArg (· * d) h
  rwa [BitVec.mul_assoc, BitVec.mul_assoc, hinv, BitVec.mul_one, BitVec.mul_one] at hback

/-- A word that is its own shift is zero. -/
theorem eq_zero_of_eq_shift {x : BitVec w} {k : Nat} (hk : 0 < k) (h : x = x >>> k) : x = 0 := by
  have hdiv : x.toNat = x.toNat / 2 ^ k := by
    rw [← Nat.shiftRight_eq_div_pow, ← BitVec.toNat_ushiftRight, ← h]
  have hpow : 1 < 2 ^ k := Nat.one_lt_two_pow (by omega)
  rw [← BitVec.toNat_inj]
  by_cases hx : x.toNat = 0
  · rw [hx]
    rfl
  · have hlt : x.toNat / 2 ^ k < x.toNat := Nat.div_lt_self (by omega) hpow
    omega

/-- The difference of two words with one image is its own shift. -/
theorem xorShift_injective {k : Nat} (hk : 0 < k) : Function.Injective fun x : BitVec w => x ^^^ (x >>> k) := by
  intro x y h
  have himage : x ^^^ (x >>> k) = y ^^^ (y >>> k) := h
  have hzero : (x ^^^ y) ^^^ ((x ^^^ y) >>> k) = 0#w :=
    calc (x ^^^ y) ^^^ ((x ^^^ y) >>> k) = (x ^^^ y) ^^^ ((x >>> k) ^^^ (y >>> k)) := by rw [BitVec.ushiftRight_xor_distrib]
      _ = (x ^^^ (x >>> k)) ^^^ (y ^^^ (y >>> k)) := by ac_rfl
      _ = 0#w := by rw [himage, BitVec.xor_self]
  exact BitVec.xor_eq_zero_iff.mp (eq_zero_of_eq_shift hk (BitVec.xor_eq_zero_iff.mp hzero))

end RandVerifier.WordMixing
