/-
  RandVerifier.Seeds — the seeds of campaigns (`mix_seed` of `src/fuzz/prng.rs`).

  Every iteration of a campaign draws from a stream of its own, seeded by the mix of the
  campaign's seed and the iteration. The iteration is rotated into the high word first, then
  a finalizer scrambles both.

  Proved:
  - `finalize_injective`: the finalizer loses nothing, stage by stage;
  - `campaigns_separate`: a campaign never meets a seed twice, campaigns that differ in the
    low word of their seeds share none, and different seeds draw different first values.
-/

import RandVerifier.Generator
import RandVerifier.WordMixing

namespace RandVerifier.Fuzz

open WordMixing

/-- The scrambling stages of `mix_seed`. -/
def finalize (z : UInt64) : UInt64 :=
  let z := z * 0xBF58476D1CE4E5B9
  let z := (z ^^^ (z >>> 30)) * 0x94D049BB133111EB
  z ^^^ (z >>> 31)

/-- `iter.rotate_left(32)`. -/
def rotate32 (iter : UInt64) : UInt64 := ⟨iter.toBitVec.rotateLeft 32⟩

def mixSeed (seed iter : UInt64) : UInt64 := finalize (seed ^^^ rotate32 iter)

/-! ## The stages -/

/-- A stage on words is injective when it is on their bits. -/
theorem injective_of_bits {f : UInt64 → UInt64} {g : BitVec 64 → BitVec 64} (hg : Function.Injective g)
    (hf : ∀ z, (f z).toBitVec = g z.toBitVec) : Function.Injective f := by
  intro x y h
  rw [← UInt64.toBitVec_inj]
  apply hg
  rw [← hf, ← hf, h]

theorem first_factor_injective : Function.Injective fun z : UInt64 => z * 0xBF58476D1CE4E5B9 :=
  injective_of_bits (mul_injective (d := 0x96de1b173f119089) (by decide)) fun _ => rfl

theorem second_factor_injective : Function.Injective fun z : UInt64 => z * 0x94D049BB133111EB :=
  injective_of_bits (mul_injective (d := 0x319642b2d24d8ec3) (by decide)) fun _ => rfl

theorem xor_shift_injective {k : UInt64} (hk : 0 < k.toNat % 64) :
    Function.Injective fun z : UInt64 => z ^^^ (z >>> k) :=
  injective_of_bits (xorShift_injective hk) fun _ => rfl

theorem finalize_injective : Function.Injective finalize :=
  (xor_shift_injective (k := 31) (by decide)).comp (second_factor_injective.comp
    ((xor_shift_injective (k := 30) (by decide)).comp first_factor_injective))

theorem rotate32_injective : Function.Injective rotate32 := by
  intro x y h
  have hbits : ∀ i, (x.toBitVec.rotateLeft 32).getLsbD i = (y.toBitVec.rotateLeft 32).getLsbD i :=
    fun i => congrArg (fun z : UInt64 => z.toBitVec.getLsbD i) h
  rw [← UInt64.toBitVec_inj]
  apply BitVec.eq_of_getLsbD_eq
  intro j hj
  by_cases hlow : j < 32
  · -- bit `j` is rotated up
    have hbit := hbits (j + 32)
    rw [BitVec.getLsbD_rotateLeft_of_le (by omega), BitVec.getLsbD_rotateLeft_of_le (by omega)] at hbit
    simpa [show ¬ j + 32 < 32 by omega, show j + 32 < 64 by omega] using hbit
  · have hbit := hbits (j - 32)
    rw [BitVec.getLsbD_rotateLeft_of_le (by omega), BitVec.getLsbD_rotateLeft_of_le (by omega)] at hbit
    have hsum : 32 + (j - 32) = j := by omega
    simpa [show j - 32 < 32 by omega, hsum] using hbit

/-- An iteration below 2^32 leaves the low word of the seed alone. -/
theorem low_word (seed : UInt64) {iter : UInt64} (h : iter.toNat < 2 ^ 32) :
    (seed ^^^ rotate32 iter).toNat % 2 ^ 32 = seed.toNat % 2 ^ 32 := by
  have hrotated : (rotate32 iter).toNat = iter.toNat * 2 ^ 32 := by
    show (iter.toBitVec.rotateLeft 32).toNat = _
    have hup : iter.toNat * 2 ^ 32 % 2 ^ 64 = iter.toNat * 2 ^ 32 := Nat.mod_eq_of_lt (by omega)
    have hdown : iter.toNat / 2 ^ 32 = 0 := Nat.div_eq_of_lt h
    rw [BitVec.rotateLeft_def, BitVec.toNat_or, BitVec.toNat_shiftLeft, BitVec.toNat_ushiftRight, Nat.shiftLeft_eq,
      Nat.shiftRight_eq_div_pow]
    show iter.toNat * 2 ^ 32 % 2 ^ 64 ||| iter.toNat / 2 ^ 32 = _
    rw [hup, hdown, Nat.or_zero]
  rw [UInt64.toNat_xor, Nat.xor_mod_two_pow, hrotated, Nat.mul_mod_left, Nat.xor_zero]

/-! ## Campaigns -/

theorem seed_xor_injective (seed : UInt64) : Function.Injective fun z : UInt64 => seed ^^^ z :=
  injective_of_bits (xor_injective seed.toBitVec) fun _ => rfl

theorem mixSeed_injective (seed : UInt64) : Function.Injective (mixSeed seed) := by
  intro i j h
  have hmixed : seed ^^^ rotate32 i = seed ^^^ rotate32 j := finalize_injective h
  exact rotate32_injective (seed_xor_injective seed hmixed)

/-- The first value of a stream tells its seed. -/
theorem first_value_injective : Function.Injective fun seed : UInt64 => (SplitMix64.next ⟨seed⟩).1 := by
  intro a b h
  have hout : Function.Injective fun z : UInt64 => _ :=
    (xor_shift_injective (k := 31) (by decide)).comp (second_factor_injective.comp
      ((xor_shift_injective (k := 27) (by decide)).comp (first_factor_injective.comp
        (xor_shift_injective (k := 30) (by decide)))))
  have hstate : a + 0x9E3779B97F4A7C15 = b + 0x9E3779B97F4A7C15 := hout h
  exact (UInt64.add_left_inj _).mp hstate

/-- Campaigns never share a seed: iterations of one campaign differ, iterations below 2^32 of
    campaigns whose seeds differ in the low word differ, and so do the streams they seed. -/
theorem campaigns_separate :
    (∀ seed, Function.Injective (mixSeed seed)) ∧
    (∀ seed₁ seed₂ iter₁ iter₂ : UInt64, seed₁.toNat % 2 ^ 32 ≠ seed₂.toNat % 2 ^ 32 → iter₁.toNat < 2 ^ 32 →
      iter₂.toNat < 2 ^ 32 → mixSeed seed₁ iter₁ ≠ mixSeed seed₂ iter₂) ∧
    ∀ a b : UInt64, a ≠ b → (SplitMix64.next ⟨a⟩).1 ≠ (SplitMix64.next ⟨b⟩).1 := by
  refine ⟨mixSeed_injective, ?_, fun a b hne h => hne (first_value_injective h)⟩
  intro seed₁ seed₂ iter₁ iter₂ hlow h₁ h₂ h
  have hmixed : seed₁ ^^^ rotate32 iter₁ = seed₂ ^^^ rotate32 iter₂ := finalize_injective h
  apply hlow
  rw [← low_word seed₁ h₁, ← low_word seed₂ h₂, hmixed]

/-- The collision of `seed + i` is gone: job 1 at iteration 0 and job 0 at iteration 1. -/
theorem neighbours_separate : mixSeed 202608263553 0 ≠ mixSeed 202608263552 1 :=
  campaigns_separate.2.1 _ _ _ _ (by decide) (by decide) (by decide)

end RandVerifier.Fuzz
