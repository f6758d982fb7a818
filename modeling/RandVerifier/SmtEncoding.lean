/-
  RandVerifier.SmtEncoding — the operators as bit-vector terms (`src/smt/range.rs`,
  `src/smt/tnum.rs`).

  The soundness harness checks the interval and tnum operators on formulas that write each of
  them a second time. An encoding is a function from terms to terms, as in the source; what
  it denotes under an assignment is compared with the operator of `src/spec/value.rs` or
  `src/tnum.rs` on what its arguments denote.

  Proved:
  - `encodings_agree`: every encoding denotes its operator, on all 64-bit inputs;
  - `tnum_query`, `range_query`: the query of the harness is unsatisfiable exactly when the
    operator of the code is sound.
-/

import RandVerifier.Sync
import RandVerifier.Terms
import RandVerifier.Spec.Value

namespace RandVerifier.Smt

open Terms Terms.Term

abbrev Word := Term (.bits 64)

structure SymTnum where
  value : Word
  mask : Word

structure SymRange where
  lo : Word
  hi : Word

/-- `BV::from_u64(v, 64)`. -/
def fromU64 (v : UInt64) : Word := .const v.toBitVec

/-! ## Ranges -/

/-- The full u64 range. -/
def fullRange : SymRange := ⟨fromU64 0, fromU64 u64Max⟩

/-- `x ∈ [lo, hi]`. -/
def inRange (x : Word) (r : SymRange) : Term .truth := (x.bvuge r.lo).and (x.bvule r.hi)

/-- The sums on 65 bits, one interval when they lie in one block of 2^64. -/
def encodeUadd (a b : SymRange) : SymRange :=
  let lo := (a.lo.zeroExt 1).bvadd (b.lo.zeroExt 1)
  let hi := (a.hi.zeroExt 1).bvadd (b.hi.zeroExt 1)
  let sameBlock := (lo.extract 64 64).eq (hi.extract 64 64)
  ⟨ite sameBlock (lo.extract 63 0) (fromU64 0), ite sameBlock (hi.extract 63 0) (fromU64 u64Max)⟩

def encodeUsub (a b : SymRange) : SymRange :=
  let dlo := a.lo.bvsub b.hi
  -- `(a1 - a0) + (b1 - b0)` on 65 bits
  let span := ((a.hi.bvsub a.lo).zeroExt 1).bvadd ((b.hi.bvsub b.lo).zeroExt 1)
  let spanOk := (span.extract 64 64).eq (.const 0)
  let foldOk := (((dlo.zeroExt 1).bvadd span).extract 64 64).eq (.const 0)
  let ok := spanOk.and foldOk
  let dhi := dlo.bvadd (span.extract 63 0)
  ⟨ite ok dlo fullRange.lo, ite ok dhi fullRange.hi⟩

def encodeUmul (a b : SymRange) : SymRange :=
  let bothConst := (a.lo.eq a.hi).and (b.lo.eq b.hi)
  let prod := a.lo.bvmul b.lo
  ⟨ite bothConst prod fullRange.lo, ite bothConst prod fullRange.hi⟩

def encodeUor (a b : SymRange) : SymRange := ⟨ite (a.lo.bvugt b.lo) a.lo b.lo, fromU64 u64Max⟩

def encodeUxor (_a _b : SymRange) : SymRange := ⟨fromU64 0, fromU64 u64Max⟩

def encodeUand (a b : SymRange) : SymRange := ⟨fromU64 0, ite (a.hi.bvult b.hi) a.hi b.hi⟩

/-- The low words of an interval, one interval of 32-bit terms when the high words agree. -/
def encodeTruncate32 (r : SymRange) : Term (.bits 32) × Term (.bits 32) :=
  let sameBlock := (r.lo.extract 63 32).eq (r.hi.extract 63 32)
  (ite sameBlock (r.lo.extract 31 0) (.const 0), ite sameBlock (r.hi.extract 31 0) (.const 0xffffffff))

/-! ## Tracked numbers -/

/-- The known bits of `x` are those of the value. -/
def concretize (t : SymTnum) (x : Word) : Term .truth :=
  let known := t.mask.bvnot
  (x.bvand known).eq (t.value.bvand known)

def encodeAdd (a b : SymTnum) : SymTnum :=
  let sm := a.mask.bvadd b.mask
  let sv := a.value.bvadd b.value
  let sigma := sm.bvadd sv
  let chi := sigma.bvxor sv
  let mu := (chi.bvor a.mask).bvor b.mask
  ⟨sv.bvand mu.bvnot, mu⟩

def encodeSub (a b : SymTnum) : SymTnum :=
  let dv := a.value.bvsub b.value
  let alpha := dv.bvadd a.mask
  let beta := dv.bvsub b.mask
  let chi := alpha.bvxor beta
  let mu := (chi.bvor a.mask).bvor b.mask
  ⟨dv.bvand mu.bvnot, mu⟩

def encodeXor (a b : SymTnum) : SymTnum :=
  let value := a.value.bvxor b.value
  let mask := a.mask.bvor b.mask
  ⟨value.bvand mask.bvnot, mask⟩

def encodeAnd (a b : SymTnum) : SymTnum :=
  let alpha := a.value.bvor a.mask
  let beta := b.value.bvor b.mask
  let value := a.value.bvand b.value
  ⟨value, (alpha.bvand beta).bvxor value⟩

def encodeOr (a b : SymTnum) : SymTnum :=
  let knownOne := (a.value.bvand a.mask.bvnot).bvor (b.value.bvand b.mask.bvnot)
  let knownZero := ((a.value.bvnot.bvand a.mask.bvnot).bvand b.value.bvnot).bvand b.mask.bvnot
  ⟨knownOne, (knownOne.bvor knownZero).bvnot⟩

def encodeLshift (a : SymTnum) (k : Word) : SymTnum := ⟨a.value.bvshl k, a.mask.bvshl k⟩

def encodeRshift (a : SymTnum) (k : Word) : SymTnum := ⟨a.value.bvlshr k, a.mask.bvlshr k⟩

def encodeArshift (a : SymTnum) (k : Word) : SymTnum := ⟨a.value.bvashr k, a.mask.bvashr k⟩

def encodeSubreg (a : SymTnum) : SymTnum :=
  ⟨(a.value.extract 31 0).zeroExt 32, (a.mask.extract 31 0).zeroExt 32⟩

/-- `(1 << n) - 1`. -/
def lowMask (n : Nat) : Word := ((fromU64 1).bvshl (fromU64 (UInt64.ofNat n))).bvsub (fromU64 1)

/-- The loop of `encode_from_range` from `n` down to 1: the mask of the least `n` that the
    differing bits lie below. -/
def maskLoop (chi : Word) : Nat → Word → Word
  | 0, mask => mask
  | n + 1, mask =>
    let below := if n + 1 = 64 then bool true
      else chi.bvult ((fromU64 1).bvshl (fromU64 (UInt64.ofNat (n + 1))))
    maskLoop chi n (ite below (lowMask (n + 1)) mask)

def encodeFromRange (lo hi : Word) : SymTnum :=
  let chi := lo.bvxor hi
  let mask := ite (chi.eq (fromU64 0)) (fromU64 0) (maskLoop chi 64 (fromU64 u64Max))
  ⟨lo.bvand mask.bvnot, mask⟩

/-! ## What an encoding denotes -/

section

variable (env : Env)

def word (x : Word) : UInt64 := ⟨x.eval env⟩

def SymRange.denote (r : SymRange) : Spec.Range := (word env r.lo, word env r.hi)

def SymTnum.denote (t : SymTnum) : Tnum := ⟨word env t.value, word env t.mask⟩

/-- A pair of 32-bit terms as a range of words. -/
def denote32 (r : Term (.bits 32) × Term (.bits 32)) : Spec.Range :=
  (⟨(r.1.eval env).setWidth 64⟩, ⟨(r.2.eval env).setWidth 64⟩)

end

section

variable {env : Env}

theorem word_ite (p : Term .truth) (x y : Word) :
    word env (ite p x y) = if p.Holds env then word env x else word env y := by
  show UInt64.ofBitVec (if p.Holds env then x.eval env else y.eval env) = _
  split
  · rfl
  · rfl

@[simp] theorem word_fromU64 (v : UInt64) : word env (fromU64 v) = v := rfl

theorem toNat_word (x : Word) : (word env x).toNat = (x.eval env).toNat := rfl

/-- The low word of a term of 65 bits. -/
theorem word_low (x : Term (.bits (64 + 1))) :
    word env (x.extract 63 0) = UInt64.ofNat (x.eval env).toNat := by
  rw [← UInt64.toNat_inj, UInt64.toNat_ofNat']
  show ((x.eval env).extractLsb 63 0).toNat = _
  rw [BitVec.extractLsb_toNat, Nat.shiftRight_zero]

theorem word_eq_iff (x y : Word) : x.eval env = y.eval env ↔ word env x = word env y := by
  rw [← UInt64.toBitVec_inj]
  rfl

/-! ## The range encodings -/

/-- Two ends that are chosen by one formula. -/
theorem denote_ite (p : Term .truth) (x x' y y' : Word) :
    SymRange.denote env ⟨ite p x y, ite p x' y'⟩ =
      if p.Holds env then SymRange.denote env ⟨x, x'⟩ else SymRange.denote env ⟨y, y'⟩ := by
  simp only [SymRange.denote, word_ite]
  split
  · rfl
  · rfl

theorem uadd_denotes (a b : SymRange) :
    (encodeUadd a b).denote env = Spec.rngAdd (a.denote env) (b.denote env) := by
  have hlo := toNat_widen_add (a.lo.eval env) (b.lo.eval env)
  have hhi := toNat_widen_add (a.hi.eval env) (b.hi.eval env)
  rw [encodeUadd, denote_ite, Spec.rngAdd]
  simp only [holds_eq, eval_extract, extract_carry, eval_bvadd, eval_zeroExt, hlo, hhi]
  refine if_congr Iff.rfl ?_ rfl
  simp only [SymRange.denote, word_low, eval_bvadd, eval_zeroExt, hlo, hhi]
  rfl

/-- The ends are in order, as those of every interval of the verifier. -/
def Ordered (r : Spec.Range) : Prop := r.1 ≤ r.2

instance (r : Spec.Range) : Decidable (Ordered r) := inferInstanceAs (Decidable (r.1 ≤ r.2))

theorem ordered_iff {r : SymRange} :
    Ordered (r.denote env) ↔ (r.lo.eval env).toNat ≤ (r.hi.eval env).toNat := UInt64.le_iff_toNat_le

theorem toNat_sub_of_le {x y : BitVec 64} (h : y.toNat ≤ x.toNat) : (x - y).toNat = x.toNat - y.toNat := by
  have hx := x.isLt
  rw [BitVec.toNat_sub]
  omega

/-- The difference of ordered intervals as its least word and the width of its image. -/
theorem rngSub_eq {a b : Spec.Range} (ha : Ordered a) (hb : Ordered b) :
    Spec.rngSub a b =
      if (a.2.toNat - a.1.toNat) + (b.2.toNat - b.1.toNat) < 2 ^ 64 ∧
          (a.1 - b.2).toNat + ((a.2.toNat - a.1.toNat) + (b.2.toNat - b.1.toNat)) < 2 ^ 64 then
        (a.1 - b.2, UInt64.ofNat ((a.1 - b.2).toNat + ((a.2.toNat - a.1.toNat) + (b.2.toNat - b.1.toNat))))
      else Spec.full := by
  have hale := UInt64.le_iff_toNat_le.mp ha
  have hble := UInt64.le_iff_toNat_le.mp hb
  have hb2 := b.2.toNat_lt
  have ha1 := a.1.toNat_lt
  have hdlo := UInt64.toNat_sub a.1 b.2
  have hspan : ((a.2.toNat : Int) - b.1.toNat) - (a.1.toNat - b.2.toNat) =
      ((a.2.toNat - a.1.toNat) + (b.2.toNat - b.1.toNat) : Nat) := by omega
  have hfold : ((a.1.toNat : Int) - b.2.toNat) % 2 ^ 64 = ((a.1 - b.2).toNat : Int) := by
    rw [hdlo]
    omega
  simp only [Spec.rngSub, hspan, hfold, Int.toNat_natCast, ← Int.natCast_add]
  generalize (a.2.toNat - a.1.toNat) + (b.2.toNat - b.1.toNat) = span
  by_cases hfit : span < 2 ^ 64
  · rw [if_pos (by omega)]
    by_cases hone : (a.1 - b.2).toNat + span < 2 ^ 64
    · rw [if_pos (by omega), if_pos ⟨hfit, hone⟩, UInt64.ofNat_toNat]
    · rw [if_neg (by omega), if_neg fun h => hone h.2]
  · rw [if_neg (by omega), if_neg fun h => hfit h.1]

theorem usub_denotes {a b : SymRange} (ha : Ordered (a.denote env)) (hb : Ordered (b.denote env)) :
    (encodeUsub a b).denote env = Spec.rngSub (a.denote env) (b.denote env) := by
  have hspan := toNat_widen_add (a.hi.eval env - a.lo.eval env) (b.hi.eval env - b.lo.eval env)
  rw [toNat_sub_of_le (ordered_iff.mp ha), toNat_sub_of_le (ordered_iff.mp hb)] at hspan
  have hdlo := (a.lo.eval env - b.hi.eval env).isLt
  rw [encodeUsub, denote_ite, rngSub_eq ha hb]
  refine if_congr ?_ ?_ rfl
  · simp only [holds_and, holds_eq, eval_extract, eval_const, extract_no_carry, eval_bvadd, eval_zeroExt, eval_bvsub,
      hspan]
    refine and_congr_right fun hfit => ?_
    rw [BitVec.toNat_add, hspan, toNat_widen, Nat.mod_eq_of_lt (by omega)]
    rfl
  · refine Prod.ext rfl ?_
    rw [← UInt64.toNat_inj, UInt64.toNat_ofNat']
    show (_ + (_ : BitVec 64)).toNat = _
    rw [BitVec.toNat_add, eval_extract, BitVec.extractLsb_toNat, Nat.shiftRight_zero, eval_bvadd, eval_zeroExt,
      eval_zeroExt, eval_bvsub, eval_bvsub, eval_bvsub, hspan]
    exact Nat.add_mod_mod ..

theorem umul_denotes (a b : SymRange) :
    (encodeUmul a b).denote env = Spec.rngMul (a.denote env) (b.denote env) := by
  rw [encodeUmul, denote_ite, Spec.rngMul]
  exact if_congr (by rw [holds_and, holds_eq, holds_eq, word_eq_iff, word_eq_iff]; rfl) rfl rfl

theorem uor_denotes (a b : SymRange) :
    (encodeUor a b).denote env = Spec.rngOr (a.denote env) (b.denote env) := by
  have hmax : word env (ite (a.lo.bvugt b.lo) a.lo b.lo) = max (word env a.lo) (word env b.lo) := by
    rw [word_ite, ← UInt64.toNat_inj, ScalarBounds.toNat_max]
    simp only [holds_bvugt, toNat_word]
    split
    · rename_i h
      exact (Nat.max_eq_left h.le).symm
    · rename_i h
      exact (Nat.max_eq_right (Nat.le_of_not_lt h)).symm
  exact Prod.ext hmax rfl

theorem uxor_denotes (a b : SymRange) :
    (encodeUxor a b).denote env = Spec.rngXor (a.denote env) (b.denote env) := rfl

theorem uand_denotes (a b : SymRange) :
    (encodeUand a b).denote env = Spec.rngAnd (a.denote env) (b.denote env) := by
  have hmin : word env (ite (a.hi.bvult b.hi) a.hi b.hi) = min (word env a.hi) (word env b.hi) := by
    rw [word_ite, ← UInt64.toNat_inj, ScalarBounds.toNat_min]
    simp only [holds_bvult, toNat_word]
    split
    · rename_i h
      exact (Nat.min_eq_left h.le).symm
    · rename_i h
      exact (Nat.min_eq_right (Nat.le_of_not_lt h)).symm
  exact Prod.ext rfl hmin

theorem toNat_extract_high (x : Word) : ((x.eval env).extractLsb 63 32).toNat = (word env x).toNat / 2 ^ 32 := by
  have hlt := (x.eval env).isLt
  rw [BitVec.extractLsb_toNat, Nat.shiftRight_eq_div_pow, toNat_word]
  omega

theorem truncate32_denotes (r : SymRange) :
    denote32 env (encodeTruncate32 r) = Spec.range32 (r.denote env) := by
  have hblock : ((r.lo.extract 63 32).eq (r.hi.extract 63 32)).Holds env ↔
      (r.denote env).1 >>> 32 = (r.denote env).2 >>> 32 := by
    rw [holds_eq, eval_extract, eval_extract, ← BitVec.toNat_inj, toNat_extract_high, toNat_extract_high,
      ← UInt64.toNat_inj, UInt64.toNat_shiftRight, UInt64.toNat_shiftRight, Nat.shiftRight_eq_div_pow,
      Nat.shiftRight_eq_div_pow]
    rfl
  have hlow : ∀ x : Word, (⟨((x.eval env).extractLsb 31 0).setWidth 64⟩ : UInt64) = Spec.truncate32 (word env x) := by
    intro x
    rw [← UInt64.toNat_inj, Spec.truncate32, UInt64.toNat_and]
    show (BitVec.setWidth 64 _).toNat = _ &&& (2 ^ 32 - 1)
    rw [Nat.and_two_pow_sub_one_eq_mod, BitVec.toNat_setWidth, BitVec.extractLsb_toNat, Nat.shiftRight_zero, toNat_word]
    omega
  rw [denote32, encodeTruncate32, Spec.range32]
  simp only [eval_ite, eval_extract, eval_const]
  by_cases h : (r.denote env).1 >>> 32 = (r.denote env).2 >>> 32
  · rw [if_pos (hblock.mpr h), if_pos (hblock.mpr h), if_pos h, hlow, hlow]
    rfl
  · rw [if_neg (mt hblock.mp h), if_neg (mt hblock.mp h), if_neg h]
    rfl

/-! ## The tnum encodings -/

theorem add_denotes (a b : SymTnum) : (encodeAdd a b).denote env = (a.denote env).add (b.denote env) := rfl

theorem sub_denotes (a b : SymTnum) : (encodeSub a b).denote env = (a.denote env).sub (b.denote env) := rfl

theorem xor_denotes (a b : SymTnum) : (encodeXor a b).denote env = (a.denote env).xor (b.denote env) := rfl

theorem and_denotes (a b : SymTnum) : (encodeAnd a b).denote env = (a.denote env).and (b.denote env) := rfl

theorem or_denotes (a b : SymTnum) : (encodeOr a b).denote env = (a.denote env).or (b.denote env) := by
  simp only [encodeOr, SymTnum.denote, Tnum.or, Tnum.knownOnes, Tnum.mk.injEq]
  refine ⟨rfl, ?_⟩
  rw [← UInt64.and_assoc]
  rfl

theorem subreg_denotes (a : SymTnum) : (encodeSubreg a).denote env = (a.denote env).subreg := by
  have hlow : ∀ x : Word, word env ((x.extract 31 0).zeroExt 32) = (word env x).toUInt32.toUInt64 := by
    intro x
    rw [← UInt64.toNat_inj]
    show (BitVec.setWidth 64 ((x.eval env).extractLsb 31 0)).toNat = (word env x).toUInt32.toNat
    rw [BitVec.toNat_setWidth, BitVec.extractLsb_toNat, Nat.shiftRight_zero, UInt64.toNat_toUInt32, toNat_word]
    omega
  simp only [encodeSubreg, SymTnum.denote, Tnum.subreg, hlow]

theorem word_bvshl (x : Word) {k : Word} (hk : (word env k).toNat < 64) :
    word env (x.bvshl k) = Tnum.shlOrZero (word env x) (word env k).toNat := by
  rw [← UInt64.toBitVec_inj, Tnum.shlOrZero_eq _ hk]
  rfl

theorem word_bvlshr (x : Word) {k : Word} (hk : (word env k).toNat < 64) :
    word env (x.bvlshr k) = Tnum.shrOrZero (word env x) (word env k).toNat := by
  rw [← UInt64.toBitVec_inj, Tnum.shrOrZero_eq _ hk]
  rfl

theorem word_bvashr (x : Word) {k : Word} (hk : (word env k).toNat < 64) :
    word env (x.bvashr k) = Tnum.sarOrSign (word env x) (word env k).toNat := by
  rw [← UInt64.toBitVec_inj, Tnum.sarOrSign_eq _ hk]
  rfl

theorem lshift_denotes (a : SymTnum) {k : Word} (hk : (word env k).toNat < 64) :
    (encodeLshift a k).denote env = (a.denote env).lshift (word env k).toNat := by
  simp only [encodeLshift, SymTnum.denote, Tnum.lshift, word_bvshl _ hk]

theorem rshift_denotes (a : SymTnum) {k : Word} (hk : (word env k).toNat < 64) :
    (encodeRshift a k).denote env = (a.denote env).rshift (word env k).toNat := by
  simp only [encodeRshift, SymTnum.denote, Tnum.rshift, word_bvlshr _ hk]

theorem arshift_denotes (a : SymTnum) {k : Word} (hk : (word env k).toNat < 64) :
    (encodeArshift a k).denote env = (a.denote env).arshift (word env k).toNat := by
  simp only [encodeArshift, SymTnum.denote, Tnum.arshift, word_bvashr _ hk]

/-! ### The mask of an interval -/

/-- The mask that `Tnum::from_range` takes for `n` differing bits. -/
def rangeMask (n : Nat) : UInt64 := if n = 64 then u64Max else (1 <<< UInt64.ofNat n) - 1

theorem word_power {n : Nat} (hn : n < 64) :
    word env ((fromU64 1).bvshl (fromU64 (UInt64.ofNat n))) = 1 <<< UInt64.ofNat n := by
  have hk : (word env (fromU64 (UInt64.ofNat n))).toNat = n := by
    rw [word_fromU64, UInt64.toNat_ofNat']
    omega
  rw [word_bvshl _ (by omega), hk, Tnum.shlOrZero, if_pos hn, word_fromU64]

theorem word_lowMask {n : Nat} (hn : n ≤ 64) : word env (lowMask n) = rangeMask n := by
  rw [rangeMask]
  by_cases h64 : n = 64
  · rw [if_pos h64, h64]
    show (⟨1#64 <<< (64#64).toNat - 1#64⟩ : UInt64) = u64Max
    decide
  · rw [if_neg h64, ← @word_power env n (by omega)]
    rfl

theorem toNat_power {n : Nat} (hn : n < 64) : (1 <<< UInt64.ofNat n : UInt64).toNat = 2 ^ n := by
  have hpow : 2 ^ n < 2 ^ 64 := Nat.pow_lt_pow_right (by omega) hn
  have hmod : (UInt64.ofNat n).toNat % 64 = n := by
    rw [UInt64.toNat_ofNat']
    omega
  rw [UInt64.toNat_shiftLeft, hmod, Nat.shiftLeft_eq]
  show 1 * 2 ^ n % 2 ^ 64 = 2 ^ n
  rw [Nat.one_mul, Nat.mod_eq_of_lt hpow]

/-- The loop finds the mask of `bits` bits in the turn of `bits` and keeps it. -/
theorem word_maskLoop {chi : Word} {bits : Nat} (hbits : ∀ m, (word env chi).toNat < 2 ^ m ↔ bits ≤ m)
    (hpos : 0 < bits) : ∀ n mask, n ≤ 64 → (bits ≤ n ∨ word env mask = rangeMask bits) →
      word env (maskLoop chi n mask) = rangeMask bits := by
  intro n
  induction n with
  | zero =>
    intro mask _ h
    rw [maskLoop]
    exact h.resolve_left (by omega)
  | succ n ih =>
    intro mask hn h
    have hbelow : (if n + 1 = 64 then bool true
        else chi.bvult ((fromU64 1).bvshl (fromU64 (UInt64.ofNat (n + 1))))).Holds env ↔ bits ≤ n + 1 := by
      rw [← hbits]
      split
      · rename_i h64
        rw [h64]
        exact iff_of_true rfl (word env chi).toNat_lt
      · rw [holds_bvult, ← toNat_word, ← toNat_word, word_power (by omega), toNat_power (by omega)]
    refine ih _ (by omega) ?_
    rw [word_ite]
    by_cases hlow : bits ≤ n
    · exact Or.inl hlow
    · right
      by_cases heq : bits = n + 1
      · rw [if_pos (hbelow.mpr (by omega)), word_lowMask hn, heq]
      · rw [if_neg (mt hbelow.mp (by omega))]
        exact h.resolve_left (by omega)

theorem fromRange_denotes (lo hi : Word) :
    (encodeFromRange lo hi).denote env = .fromRange (word env lo) (word env hi) := by
  have hchi : word env (lo.bvxor hi) = word env lo ^^^ word env hi := rfl
  have hzero : ((lo.bvxor hi).eq (fromU64 0)).Holds env ↔ word env lo ^^^ word env hi = 0 := by
    rw [holds_eq, word_eq_iff, hchi, word_fromU64]
  have hmask : word env (ite ((lo.bvxor hi).eq (fromU64 0)) (fromU64 0) (maskLoop (lo.bvxor hi) 64 (fromU64 u64Max))) =
      if word env lo ^^^ word env hi = 0 then 0 else rangeMask ((word env lo ^^^ word env hi).toNat.log2 + 1) := by
    rw [word_ite]
    refine if_ctx_congr hzero (fun _ => rfl) fun hne => ?_
    have hne' : (word env lo ^^^ word env hi).toNat ≠ 0 := fun h => hne (UInt64.toNat_inj.mp h)
    refine word_maskLoop (fun m => ?_) (Nat.succ_pos _) 64 _ (Nat.le_refl _) (Or.inl ?_)
    · rw [hchi, ← Nat.log2_lt hne', Nat.succ_le_iff]
    · exact (Nat.log2_lt hne').mpr (UInt64.toNat_lt _)
  have hvalue : (encodeFromRange lo hi).denote env =
      ⟨word env lo &&& ~~~word env (encodeFromRange lo hi).mask, word env (encodeFromRange lo hi).mask⟩ := rfl
  have hmask' : word env (encodeFromRange lo hi).mask = _ := hmask
  rw [hvalue, hmask', Tnum.fromRange]
  by_cases hconst : word env lo ^^^ word env hi = 0
  · rw [if_pos hconst, if_pos hconst]
    simp [Tnum.constant]
  · rw [if_neg hconst, if_neg hconst]
    rfl

/-! ## Membership -/

theorem holds_concretize (t : SymTnum) (x : Word) :
    (concretize t x).Holds env ↔ (t.denote env).Contains (word env x) := by
  rw [concretize, holds_eq, word_eq_iff]
  rfl

theorem holds_normalized (t : SymTnum) :
    ((t.value.bvand t.mask).eq (fromU64 0)).Holds env ↔ (t.denote env).value &&& (t.denote env).mask = 0 := by
  rw [holds_eq, word_eq_iff]
  rfl

theorem holds_inRange (x : Word) (r : SymRange) :
    (inRange x r).Holds env ↔ (r.denote env).1 ≤ word env x ∧ word env x ≤ (r.denote env).2 := by
  rw [inRange, holds_and, holds_bvuge, holds_bvule, UInt64.le_iff_toNat_le, UInt64.le_iff_toNat_le]
  rfl

end

/-! ## The queries of the harness -/

inductive TnumConcreteOp where
  | add | sub | xor | and | or

namespace TnumConcreteOp

def apply : TnumConcreteOp → UInt64 → UInt64 → UInt64
  | add, x, y => x + y
  | sub, x, y => x - y
  | xor, x, y => x ^^^ y
  | and, x, y => x &&& y
  | or, x, y => x ||| y

def applyBv : TnumConcreteOp → Word → Word → Word
  | add, x, y => x.bvadd y
  | sub, x, y => x.bvsub y
  | xor, x, y => x.bvxor y
  | and, x, y => x.bvand y
  | or, x, y => x.bvor y

/-- The operator of the code (`rust_tnum_op`). -/
def rustTnumOp : TnumConcreteOp → Tnum → Tnum → Tnum
  | add => .add
  | sub => .sub
  | xor => .xor
  | and => .and
  | or => .or

def encodeTnumOp : TnumConcreteOp → SymTnum → SymTnum → SymTnum
  | add => encodeAdd
  | sub => encodeSub
  | xor => encodeXor
  | and => encodeAnd
  | or => encodeOr

end TnumConcreteOp

/-- The assertions of `symbolic_tnum_binary`: normalized arguments, a member of each and a
    result outside. -/
def tnumQuery (op : TnumConcreteOp) : List (Term .truth) :=
  let a : SymTnum := ⟨.var 64 "a.v", .var 64 "a.m"⟩
  let b : SymTnum := ⟨.var 64 "b.v", .var 64 "b.m"⟩
  let x : Word := .var 64 "x"
  let y : Word := .var 64 "y"
  let out := op.encodeTnumOp a b
  [((a.value.bvand a.mask).eq (fromU64 0)).and ((b.value.bvand b.mask).eq (fromU64 0)),
    concretize a x, concretize b y, (concretize out (op.applyBv x y)).not]

inductive RangeOp where
  | add | sub | mul | or | xor

namespace RangeOp

def apply : RangeOp → UInt64 → UInt64 → UInt64
  | add, x, y => x + y
  | sub, x, y => x - y
  | mul, x, y => x * y
  | or, x, y => x ||| y
  | xor, x, y => x ^^^ y

def applyBv : RangeOp → Word → Word → Word
  | add, x, y => x.bvadd y
  | sub, x, y => x.bvsub y
  | mul, x, y => x.bvmul y
  | or, x, y => x.bvor y
  | xor, x, y => x.bvxor y

def rustRangeOp : RangeOp → Spec.Range → Spec.Range → Spec.Range
  | add => Spec.rngAdd
  | sub => Spec.rngSub
  | mul => Spec.rngMul
  | or => Spec.rngOr
  | xor => Spec.rngXor

def encode : RangeOp → SymRange → SymRange → SymRange
  | add => encodeUadd
  | sub => encodeUsub
  | mul => encodeUmul
  | or => encodeUor
  | xor => encodeUxor

end RangeOp

/-- The assertions of `symbolic_range_binary`. -/
def rangeQuery (op : RangeOp) : List (Term .truth) :=
  let a : SymRange := ⟨.var 64 "a.lo", .var 64 "a.hi"⟩
  let b : SymRange := ⟨.var 64 "b.lo", .var 64 "b.hi"⟩
  let x : Word := .var 64 "x"
  let y : Word := .var 64 "y"
  let out := op.encode a b
  [a.lo.bvule a.hi, b.lo.bvule b.hi, inRange x a, inRange y b, (inRange (op.applyBv x y) out).not]

/-- The operator of the code contains the results on all members of normalized arguments. -/
def TnumConcreteOp.Sound (op : TnumConcreteOp) : Prop :=
  ∀ a b : Tnum, a.value &&& a.mask = 0 → b.value &&& b.mask = 0 →
    ∀ x y, a.Contains x → b.Contains y → (op.rustTnumOp a b).Contains (op.apply x y)

def RangeOp.Sound (op : RangeOp) : Prop :=
  ∀ a b : Spec.Range, Ordered a → Ordered b → ∀ x y, a.1 ≤ x → x ≤ a.2 → b.1 ≤ y → y ≤ b.2 →
    (op.rustRangeOp a b).1 ≤ op.apply x y ∧ op.apply x y ≤ (op.rustRangeOp a b).2

/-- The assignment of words to names. -/
def assign (values : List (String × UInt64)) : Env := fun w name =>
  BitVec.ofNat w ((values.lookup name).getD 0).toNat

theorem tnum_op_denotes (env : Env) (op : TnumConcreteOp) (a b : SymTnum) :
    (op.encodeTnumOp a b).denote env = op.rustTnumOp (a.denote env) (b.denote env) := by
  cases op with
  | add => exact add_denotes a b
  | sub => exact sub_denotes a b
  | xor => exact xor_denotes a b
  | and => exact and_denotes a b
  | or => exact or_denotes a b

theorem tnum_apply_denotes (env : Env) (op : TnumConcreteOp) (x y : Word) :
    word env (op.applyBv x y) = op.apply (word env x) (word env y) := by
  cases op <;> rfl

theorem range_op_denotes (env : Env) (op : RangeOp) {a b : SymRange} (ha : Ordered (a.denote env))
    (hb : Ordered (b.denote env)) :
    (op.encode a b).denote env = op.rustRangeOp (a.denote env) (b.denote env) := by
  cases op with
  | add => exact uadd_denotes a b
  | sub => exact usub_denotes ha hb
  | mul => exact umul_denotes a b
  | or => exact uor_denotes a b
  | xor => exact uxor_denotes a b

theorem range_apply_denotes (env : Env) (op : RangeOp) (x y : Word) :
    word env (op.applyBv x y) = op.apply (word env x) (word env y) := by
  cases op <;> rfl

theorem word_assign {values : List (String × UInt64)} {name : String} {v : UInt64}
    (h : values.lookup name = some v) : word (assign values) (.var 64 name) = v := by
  show (⟨BitVec.ofNat 64 ((values.lookup name).getD 0).toNat⟩ : UInt64) = v
  rw [h, ← UInt64.toBitVec_inj]
  exact BitVec.ofNat_toNat ..

theorem tnum_query (op : TnumConcreteOp) : Unsat (tnumQuery op) ↔ op.Sound := by
  constructor
  · intro hunsat a b ha hb x y hx hy
    by_contra hout
    let env := assign [("a.v", a.value), ("a.m", a.mask), ("b.v", b.value), ("b.m", b.mask), ("x", x), ("y", y)]
    have hwa : SymTnum.denote env ⟨.var 64 "a.v", .var 64 "a.m"⟩ = a :=
      congrArg₂ Tnum.mk (word_assign rfl) (word_assign rfl)
    have hwb : SymTnum.denote env ⟨.var 64 "b.v", .var 64 "b.m"⟩ = b :=
      congrArg₂ Tnum.mk (word_assign rfl) (word_assign rfl)
    have hwx : word env (.var 64 "x") = x := word_assign rfl
    have hwy : word env (.var 64 "y") = y := word_assign rfl
    refine hunsat ⟨env, ?_⟩
    simp only [tnumQuery, List.forall_mem_cons, holds_and, holds_not, holds_concretize, tnum_op_denotes,
      tnum_apply_denotes, hwa, hwb, hwx, hwy, List.not_mem_nil]
    refine ⟨⟨?_, ?_⟩, hx, hy, hout, fun _ h => h.elim⟩
    · exact (holds_normalized ⟨_, _⟩).mpr (by rw [hwa]; exact ha)
    · exact (holds_normalized ⟨_, _⟩).mpr (by rw [hwb]; exact hb)
  · intro hsound hsat
    obtain ⟨env, hall⟩ := hsat
    simp only [tnumQuery, List.forall_mem_cons, holds_and, holds_not, holds_concretize, tnum_op_denotes,
      tnum_apply_denotes] at hall
    obtain ⟨⟨ha, hb⟩, hx, hy, hout, -⟩ := hall
    exact hout (hsound _ _ ((holds_normalized ⟨_, _⟩).mp ha) ((holds_normalized ⟨_, _⟩).mp hb) _ _ hx hy)

theorem range_query (op : RangeOp) : Unsat (rangeQuery op) ↔ op.Sound := by
  constructor
  · intro hunsat a b ha hb x y hax hxa hby hyb
    by_contra hout
    let env := assign [("a.lo", a.1), ("a.hi", a.2), ("b.lo", b.1), ("b.hi", b.2), ("x", x), ("y", y)]
    have hwa : SymRange.denote env ⟨.var 64 "a.lo", .var 64 "a.hi"⟩ = a :=
      Prod.ext (word_assign rfl) (word_assign rfl)
    have hwb : SymRange.denote env ⟨.var 64 "b.lo", .var 64 "b.hi"⟩ = b :=
      Prod.ext (word_assign rfl) (word_assign rfl)
    have hwx : word env (.var 64 "x") = x := word_assign rfl
    have hwy : word env (.var 64 "y") = y := word_assign rfl
    have hoa : Ordered (SymRange.denote env ⟨.var 64 "a.lo", .var 64 "a.hi"⟩) := hwa ▸ ha
    have hob : Ordered (SymRange.denote env ⟨.var 64 "b.lo", .var 64 "b.hi"⟩) := hwb ▸ hb
    refine hunsat ⟨env, ?_⟩
    simp only [rangeQuery, List.forall_mem_cons, holds_not, holds_inRange, range_op_denotes env op hoa hob,
      range_apply_denotes, hwa, hwb, hwx, hwy, List.not_mem_nil]
    exact ⟨holds_bvule.mpr (ordered_iff.mp hoa), holds_bvule.mpr (ordered_iff.mp hob), ⟨hax, hxa⟩, ⟨hby, hyb⟩,
      hout, fun _ h => h.elim⟩
  · intro hsound hsat
    obtain ⟨env, hall⟩ := hsat
    simp only [rangeQuery, List.forall_mem_cons, holds_not, holds_inRange] at hall
    obtain ⟨ha, hb, hx, hy, hout, -⟩ := hall
    have hoa : Ordered (SymRange.denote env ⟨.var 64 "a.lo", .var 64 "a.hi"⟩) := ordered_iff.mpr (holds_bvule.mp ha)
    have hob : Ordered (SymRange.denote env ⟨.var 64 "b.lo", .var 64 "b.hi"⟩) := ordered_iff.mpr (holds_bvule.mp hb)
    apply hout
    rw [range_op_denotes env op hoa hob, range_apply_denotes]
    exact hsound _ _ hoa hob _ _ hx.1 hx.2 hy.1 hy.2

/-! ## Agreement -/

/-- The range encodings on ordered intervals. -/
structure RangesAgree (env : Env) (a b : SymRange) : Prop where
  uadd : (encodeUadd a b).denote env = Spec.rngAdd (a.denote env) (b.denote env)
  usub : (encodeUsub a b).denote env = Spec.rngSub (a.denote env) (b.denote env)
  umul : (encodeUmul a b).denote env = Spec.rngMul (a.denote env) (b.denote env)
  uor : (encodeUor a b).denote env = Spec.rngOr (a.denote env) (b.denote env)
  uxor : (encodeUxor a b).denote env = Spec.rngXor (a.denote env) (b.denote env)
  uand : (encodeUand a b).denote env = Spec.rngAnd (a.denote env) (b.denote env)
  truncate32 : denote32 env (encodeTruncate32 a) = Spec.range32 (a.denote env)

/-- The tnum encodings, shifts by an amount below 64. -/
structure TnumsAgree (env : Env) (a b : SymTnum) : Prop where
  add : (encodeAdd a b).denote env = (a.denote env).add (b.denote env)
  sub : (encodeSub a b).denote env = (a.denote env).sub (b.denote env)
  xor : (encodeXor a b).denote env = (a.denote env).xor (b.denote env)
  and : (encodeAnd a b).denote env = (a.denote env).and (b.denote env)
  or : (encodeOr a b).denote env = (a.denote env).or (b.denote env)
  subreg : (encodeSubreg a).denote env = (a.denote env).subreg
  lshift : ∀ k, (word env k).toNat < 64 → (encodeLshift a k).denote env = (a.denote env).lshift (word env k).toNat
  rshift : ∀ k, (word env k).toNat < 64 → (encodeRshift a k).denote env = (a.denote env).rshift (word env k).toNat
  arshift : ∀ k, (word env k).toNat < 64 → (encodeArshift a k).denote env = (a.denote env).arshift (word env k).toNat

/-- Every encoding denotes its operator under every assignment, so the queries of the
    harness are about the operators of the code. -/
theorem encodings_agree :
    (∀ env a b, Ordered (a.denote env) → Ordered (b.denote env) → RangesAgree env a b) ∧
    (∀ env a b, TnumsAgree env a b) ∧
    (∀ env lo hi, (encodeFromRange lo hi).denote env = .fromRange (word env lo) (word env hi)) ∧
    (∀ op, Unsat (tnumQuery op) ↔ op.Sound) ∧ ∀ op, Unsat (rangeQuery op) ↔ op.Sound := by
  refine ⟨?_, ?_, fun _ => fromRange_denotes, tnum_query, range_query⟩
  · intro env a b ha hb
    exact ⟨uadd_denotes a b, usub_denotes ha hb, umul_denotes a b, uor_denotes a b, uxor_denotes a b,
      uand_denotes a b, truncate32_denotes a⟩
  · intro env a b
    exact ⟨add_denotes a b, sub_denotes a b, xor_denotes a b, and_denotes a b, or_denotes a b, subreg_denotes a,
      fun _ => lshift_denotes a, fun _ => rshift_denotes a, fun _ => arshift_denotes a⟩

/-- `[5, 7] - [1, 2]`. -/
theorem usub_term_agrees :
    (encodeUsub ⟨fromU64 5, fromU64 7⟩ ⟨fromU64 1, fromU64 2⟩).denote (assign []) = (3, 6) :=
  (encodings_agree.1 (assign []) ⟨fromU64 5, fromU64 7⟩ ⟨fromU64 1, fromU64 2⟩ (by decide) (by decide)).usub.trans
    (by decide)

end RandVerifier.Smt
