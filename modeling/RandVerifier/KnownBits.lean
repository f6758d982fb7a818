/-
  RandVerifier.KnownBits — words known up to a mask of unknown bits.

  `Agrees v m x` says that `x` has the bits of `v` wherever the mask `m` is clear. The rules
  say which word and mask describe the result of an operation on described words:

    * `agrees_and`, `agrees_or`, `agrees_xor` (bit by bit);
    * `agrees_shiftLeft`, `agrees_ushiftRight`, `agrees_sshiftRight` (a known amount);
    * `agrees_add`, `agrees_sub` (the unknown carries go into the mask);
    * `agrees_meet_iff` (two descriptions of one word), `agrees_join` (either of two descriptions),
      `agrees_between` (a word of an interval); `agrees_subset_iff` decides inclusion.

  Sums and differences rest on one fact, `sum_bit`: a carry of `x + y + c` lies between the
  carries of the least and of the greatest described words, so where these two sums have the
  same bit every described sum has it.
-/

import Mathlib.Data.Nat.Bitwise

namespace RandVerifier.KnownBits

variable {w : Nat}

/-- Outside the mask `m` the word `x` has the bits of `v`. -/
def Agrees (v m x : BitVec w) : Prop := ∀ i < w, m.getLsbD i = false → x.getLsbD i = v.getLsbD i

/-- A description whose value has no bit under its mask. -/
def Normal (v m : BitVec w) : Prop := ∀ i < w, v.getLsbD i = true → m.getLsbD i = false

variable {v v₁ v₂ m m₁ m₂ x y : BitVec w}

theorem agrees_iff : Agrees v m x ↔ x &&& ~~~m = v &&& ~~~m := by
  constructor
  · intro h
    apply BitVec.eq_of_getLsbD_eq
    intro i hi
    rw [BitVec.getLsbD_and, BitVec.getLsbD_and, BitVec.getLsbD_not]
    cases hm : m.getLsbD i with
    | true => rw [Bool.not_true, Bool.and_false, Bool.and_false, Bool.and_false]
    | false => rw [h i hi hm]
  · intro h i hi hm
    have hbit : (x &&& ~~~m).getLsbD i = (v &&& ~~~m).getLsbD i := by rw [h]
    simpa only [BitVec.getLsbD_and, BitVec.getLsbD_not, hm, hi, decide_true, Bool.not_false,
      Bool.and_true] using hbit

theorem agrees_self : Agrees x m x := fun _ _ _ => rfl

theorem agrees_all : Agrees v (BitVec.allOnes w) x := by
  intro i hi hm
  simp [hi] at hm

/-- Clearing the unknown bits of the value changes nothing. -/
theorem agrees_masked (h : Agrees v m x) : Agrees (v &&& ~~~m) m x := by
  intro i hi hm
  rw [BitVec.getLsbD_and, BitVec.getLsbD_not, hm, h i hi hm]
  simp [hi]

theorem normal_masked : Normal (v &&& ~~~m) m := by
  intro i hi hv
  simp only [BitVec.getLsbD_and, BitVec.getLsbD_not, hi, decide_true, Bool.true_and,
    Bool.and_eq_true, Bool.not_eq_true'] at hv
  exact hv.2

theorem Normal.value_clear (h : Normal v m) {i : Nat} (hi : i < w) (hm : m.getLsbD i = true) :
    v.getLsbD i = false := by
  cases hv : v.getLsbD i with
  | true => rw [h i hi hv] at hm; exact hm.symm
  | false => rfl

theorem Normal.and_eq_zero (h : Normal v m) : v &&& m = 0#w := by
  apply BitVec.eq_of_getLsbD_eq
  intro i hi
  rw [BitVec.getLsbD_and, BitVec.getLsbD_zero]
  cases hv : v.getLsbD i with
  | true => rw [h i hi hv]; rfl
  | false => rfl

theorem normal_iff : Normal v m ↔ v &&& m = 0#w := by
  constructor
  · exact Normal.and_eq_zero
  · intro h i hi hv
    have hbit : (v &&& m).getLsbD i = (0#w).getLsbD i := by rw [h]
    rwa [BitVec.getLsbD_and, hv, Bool.true_and, BitVec.getLsbD_zero] at hbit

theorem Normal.add_eq_or (h : Normal v m) : v + m = v ||| m :=
  BitVec.add_eq_or_of_and_eq_zero v m h.and_eq_zero

/-! ## Bitwise operations -/

theorem agrees_xor (hx : Agrees v₁ m₁ x) (hy : Agrees v₂ m₂ y) :
    Agrees (v₁ ^^^ v₂) (m₁ ||| m₂) (x ^^^ y) := by
  intro i hi hm
  rw [BitVec.getLsbD_or, Bool.or_eq_false_iff] at hm
  rw [BitVec.getLsbD_xor, BitVec.getLsbD_xor, hx i hi hm.1, hy i hi hm.2]

theorem agrees_and (hv₁ : Normal v₁ m₁) (hv₂ : Normal v₂ m₂) (hx : Agrees v₁ m₁ x)
    (hy : Agrees v₂ m₂ y) :
    Agrees (v₁ &&& v₂) (((v₁ ||| m₁) &&& (v₂ ||| m₂)) ^^^ (v₁ &&& v₂)) (x &&& y) := by
  intro i hi hm
  simp only [BitVec.getLsbD_xor, BitVec.getLsbD_and, BitVec.getLsbD_or] at hm ⊢
  cases hm₁ : m₁.getLsbD i with
  | true =>
    -- an unknown bit is hidden by a known zero only
    have hx0 := hv₁.value_clear hi hm₁
    cases hm₂ : m₂.getLsbD i with
    | true => simp [hm₁, hm₂, hx0, hv₂.value_clear hi hm₂] at hm
    | false =>
      have hy0 : v₂.getLsbD i = false := by simpa [hm₁, hm₂, hx0] using hm
      rw [hy i hi hm₂, hy0, Bool.and_false, Bool.and_false]
  | false =>
    rw [hx i hi hm₁]
    cases hm₂ : m₂.getLsbD i with
    | true =>
      have hx0 : v₁.getLsbD i = false := by simpa [hm₁, hm₂, hv₂.value_clear hi hm₂] using hm
      rw [hx0, Bool.false_and, Bool.false_and]
    | false => rw [hy i hi hm₂]

theorem agrees_or (hx : Agrees v₁ m₁ x) (hy : Agrees v₂ m₂ y) :
    Agrees ((v₁ &&& ~~~m₁) ||| (v₂ &&& ~~~m₂))
      (~~~(((v₁ &&& ~~~m₁) ||| (v₂ &&& ~~~m₂)) ||| ((~~~v₁ &&& ~~~m₁) &&& (~~~v₂ &&& ~~~m₂))))
      (x ||| y) := by
  intro i hi hm
  simp only [BitVec.getLsbD_not, BitVec.getLsbD_and, BitVec.getLsbD_or, hi, decide_true,
    Bool.true_and] at hm ⊢
  cases hm₁ : m₁.getLsbD i with
  | false =>
    rw [hx i hi hm₁]
    cases hm₂ : m₂.getLsbD i with
    | false => rw [hy i hi hm₂, Bool.not_false, Bool.and_true, Bool.and_true]
    | true =>
      -- an unknown bit is hidden by a known one only
      have hx1 : v₁.getLsbD i = true := by simpa [hm₁, hm₂] using hm
      rw [hx1, Bool.true_or, Bool.not_false, Bool.and_true, Bool.true_or]
  | true =>
    have hm₂ : m₂.getLsbD i = false := by
      cases hm₂ : m₂.getLsbD i with
      | false => rfl
      | true => simp [hm₁, hm₂] at hm
    have hy1 : v₂.getLsbD i = true := by simpa [hm₁, hm₂] using hm
    rw [hy i hi hm₂, hy1, Bool.or_true, hm₂, Bool.not_false, Bool.and_true, Bool.or_true]

/-- The meet with a description that the word fits: the word may depart from the other one
    only where that knows a zero and the first knows the bit too. -/
theorem agrees_meet_iff (hv₁ : Normal v₁ m₁) (hv₂ : Normal v₂ m₂) (h₂ : Agrees v₂ m₂ x) :
    Agrees (v₁ ||| v₂) (m₁ &&& m₂) x ↔
      ∀ i < w, m₁.getLsbD i = false → x.getLsbD i ≠ v₁.getLsbD i → v₁.getLsbD i = false ∧ m₂.getLsbD i = false := by
  constructor
  · intro h i hi hm hne
    have hbit := h i hi (by rw [BitVec.getLsbD_and, hm, Bool.false_and])
    rw [BitVec.getLsbD_or] at hbit
    cases hv : v₁.getLsbD i with
    | true =>
      rw [hv, Bool.true_or] at hbit
      exact absurd (hbit.trans hv.symm) hne
    | false =>
      refine ⟨rfl, ?_⟩
      rw [hv, Bool.false_or] at hbit
      rw [hv] at hne
      exact hv₂ i hi (by rw [← hbit]; simpa using hne)
  · intro h i hi hm
    rw [BitVec.getLsbD_or]
    cases hm₁ : m₁.getLsbD i with
    | false =>
      by_cases heq : x.getLsbD i = v₁.getLsbD i
      · cases hm₂ : m₂.getLsbD i with
        | false => rw [← heq, ← h₂ i hi hm₂, Bool.or_self]
        | true => rw [heq, hv₂.value_clear hi hm₂, Bool.or_false]
      · obtain ⟨hzero, hknown⟩ := h i hi hm₁ heq
        rw [hzero, Bool.false_or]
        exact h₂ i hi hknown
    | true =>
      have hm₂ : m₂.getLsbD i = false := by simpa [hm₁] using hm
      rw [← h₂ i hi hm₂, hv₁.value_clear hi hm₁, Bool.false_or]

/-- The join keeps the bits that both descriptions know alike. -/
theorem agrees_join (v₂ m₂ : BitVec w) (h : Agrees v₁ m₁ x) : Agrees (v₁ &&& v₂) ((v₁ ^^^ v₂) ||| m₁ ||| m₂) x := by
  intro i hi hm
  simp only [BitVec.getLsbD_or, Bool.or_eq_false_iff, BitVec.getLsbD_xor] at hm
  obtain ⟨⟨hsame, hm₁⟩, -⟩ := hm
  rw [h i hi hm₁, BitVec.getLsbD_and, ← bne_eq_false_iff_eq.mp hsame, Bool.and_self]

/-- A description admits all words of another one exactly when the other one knows its bits. -/
theorem agrees_subset_iff : (∀ x, Agrees v₂ m₂ x → Agrees v₁ m₁ x) ↔
    m₂ &&& ~~~m₁ = 0 ∧ v₂ &&& ~~~m₁ = v₁ &&& ~~~m₁ := by
  have hbits : (m₂ &&& ~~~m₁ = 0 ∧ v₂ &&& ~~~m₁ = v₁ &&& ~~~m₁) ↔
      ∀ i < w, m₁.getLsbD i = false → m₂.getLsbD i = false ∧ v₂.getLsbD i = v₁.getLsbD i := by
    rw [← agrees_iff]
    constructor
    · intro ⟨hmask, hvalue⟩ i hi hm
      have hbit : (m₂ &&& ~~~m₁).getLsbD i = (0#w).getLsbD i := by rw [hmask]; rfl
      refine ⟨?_, hvalue i hi hm⟩
      simpa only [BitVec.getLsbD_and, BitVec.getLsbD_not, hm, hi, decide_true, Bool.not_false, Bool.and_true,
        BitVec.getLsbD_zero] using hbit
    · intro h
      refine ⟨?_, fun i hi hm => (h i hi hm).2⟩
      apply BitVec.eq_of_getLsbD_eq
      intro i hi
      rw [BitVec.getLsbD_and, BitVec.getLsbD_not]
      cases hm : m₁.getLsbD i with
      | true => simp
      | false => simp [(h i hi hm).1]
  rw [hbits]
  constructor
  · intro h i hi hm
    -- the least and the greatest word of the other description
    have hleast : (v₂ &&& ~~~m₂).getLsbD i = v₁.getLsbD i := h _ (agrees_iff.mpr (by
      rw [BitVec.and_assoc, BitVec.and_self])) i hi hm
    have hgreatest : (v₂ ||| m₂).getLsbD i = v₁.getLsbD i := h _ (fun j _ hj => by
      rw [BitVec.getLsbD_or, hj, Bool.or_false]) i hi hm
    rw [BitVec.getLsbD_and, BitVec.getLsbD_not] at hleast
    rw [BitVec.getLsbD_or, ← hleast] at hgreatest
    cases hm₂ : m₂.getLsbD i with
    | true => simp [hm₂] at hgreatest
    | false => exact ⟨rfl, by simpa only [hm₂, hi, decide_true, Bool.not_false, Bool.and_true] using hleast⟩
  · intro h x hx i hi hm
    obtain ⟨hknown, hvalue⟩ := h i hi hm
    rw [hx i hi hknown, hvalue]

/-! ## Shifts -/

theorem agrees_shiftLeft (h : Agrees v m x) (k : Nat) : Agrees (v <<< k) (m <<< k) (x <<< k) := by
  intro i hi hm
  simp only [BitVec.getLsbD_shiftLeft, hi, decide_true, Bool.true_and] at hm ⊢
  by_cases hk : i < k
  · simp [hk]
  · simp only [hk, decide_false, Bool.not_false, Bool.true_and] at hm ⊢
    exact h (i - k) (by omega) hm

theorem agrees_ushiftRight (h : Agrees v m x) (k : Nat) : Agrees (v >>> k) (m >>> k) (x >>> k) := by
  intro i hi hm
  simp only [BitVec.getLsbD_ushiftRight] at hm ⊢
  by_cases hk : k + i < w
  · exact h (k + i) hk hm
  · rw [BitVec.getLsbD_of_ge _ _ (by omega), BitVec.getLsbD_of_ge _ _ (by omega)]

theorem agrees_sshiftRight (h : Agrees v m x) (k : Nat) :
    Agrees (v.sshiftRight k) (m.sshiftRight k) (x.sshiftRight k) := by
  intro i hi hm
  have hle : ¬ w ≤ i := by omega
  simp only [BitVec.getLsbD_sshiftRight, hle, decide_false, Bool.not_false, Bool.true_and] at hm ⊢
  by_cases hk : k + i < w
  · simp only [hk, if_true] at hm ⊢
    exact h (k + i) hk hm
  · -- the bits that are shifted in are the sign bit
    simp only [hk, if_false, BitVec.msb_eq_getLsbD_last] at hm ⊢
    exact h (w - 1) (by omega) hm

/-! ## Sums -/

theorem low_le_of_subset (h : ∀ i < w, x.getLsbD i = true → y.getLsbD i = true) (i : Nat) :
    x.toNat % 2 ^ i ≤ y.toNat % 2 ^ i := by
  have hand : x &&& y = x := by
    apply BitVec.eq_of_getLsbD_eq
    intro j hj
    rw [BitVec.getLsbD_and]
    cases hx : x.getLsbD j with
    | true => rw [h j hj hx]; rfl
    | false => rfl
  have hmod : x.toNat % 2 ^ i &&& y.toNat % 2 ^ i = x.toNat % 2 ^ i := by
    rw [← Nat.and_mod_two_pow, ← BitVec.toNat_and, hand]
  calc x.toNat % 2 ^ i = x.toNat % 2 ^ i &&& y.toNat % 2 ^ i := hmod.symm
    _ ≤ y.toNat % 2 ^ i := Nat.and_le_right

/-- Carries grow with the low parts of the words. -/
theorem carry_mono {x' y' : BitVec w} {c : Bool} {i : Nat} (hx : x.toNat % 2 ^ i ≤ x'.toNat % 2 ^ i)
    (hy : y.toNat % 2 ^ i ≤ y'.toNat % 2 ^ i) (h : BitVec.carry i x y c = true) :
    BitVec.carry i x' y' c = true := by
  simp only [BitVec.carry, decide_eq_true_eq] at h ⊢
  omega

/-- The least word that a description has. -/
theorem least_subset (hv : Normal v m) (h : Agrees v m x) :
    ∀ i < w, v.getLsbD i = true → x.getLsbD i = true := by
  intro i hi hbit
  rw [h i hi (hv i hi hbit)]
  exact hbit

/-- The greatest word that a description has. -/
theorem subset_greatest (h : Agrees v m x) :
    ∀ i < w, x.getLsbD i = true → (v ||| m).getLsbD i = true := by
  intro i hi hbit
  rw [BitVec.getLsbD_or]
  cases hm : m.getLsbD i with
  | true => exact Bool.or_true _
  | false => rw [← h i hi hm, hbit]; rfl

/-- Where the sums of the least and of the greatest words have one bit, every sum has it. -/
theorem sum_bit {c : Bool} (hv₁ : Normal v₁ m₁) (hv₂ : Normal v₂ m₂) (hx : Agrees v₁ m₁ x)
    (hy : Agrees v₂ m₂ y) {i : Nat} (hi : i < w) (hm₁ : m₁.getLsbD i = false)
    (hm₂ : m₂.getLsbD i = false)
    (hchi : (v₁ + v₂ + (BitVec.ofBool c).setWidth w).getLsbD i =
      ((v₁ ||| m₁) + (v₂ ||| m₂) + (BitVec.ofBool c).setWidth w).getLsbD i) :
    (x + y + (BitVec.ofBool c).setWidth w).getLsbD i =
      (v₁ + v₂ + (BitVec.ofBool c).setWidth w).getLsbD i := by
  rw [BitVec.getLsbD_add_add_bool hi, BitVec.getLsbD_add_add_bool hi] at hchi ⊢
  rw [BitVec.getLsbD_or, BitVec.getLsbD_or, hm₁, hm₂, Bool.or_false, Bool.or_false,
    Bool.xor_right_inj, Bool.xor_right_inj] at hchi
  rw [hx i hi hm₁, hy i hi hm₂, Bool.xor_right_inj, Bool.xor_right_inj]
  have hleast : BitVec.carry i v₁ v₂ c = true → BitVec.carry i x y c = true :=
    carry_mono (low_le_of_subset (least_subset hv₁ hx) i) (low_le_of_subset (least_subset hv₂ hy) i)
  have hgreatest : BitVec.carry i x y c = true →
      BitVec.carry i (v₁ ||| m₁) (v₂ ||| m₂) c = true :=
    carry_mono (low_le_of_subset (subset_greatest hx) i) (low_le_of_subset (subset_greatest hy) i)
  cases hc : BitVec.carry i v₁ v₂ c with
  | true => exact hleast hc
  | false =>
    cases hxy : BitVec.carry i x y c with
    | true => rw [← hgreatest hxy, ← hchi, hc]
    | false => rfl

/-- A sum is one without a carry in. -/
theorem add_eq_sum (x y : BitVec w) : x + y = x + y + (BitVec.ofBool false).setWidth w := by
  simp

theorem agrees_add (hv₁ : Normal v₁ m₁) (hv₂ : Normal v₂ m₂) (hx : Agrees v₁ m₁ x)
    (hy : Agrees v₂ m₂ y) :
    Agrees (v₁ + v₂) (((m₁ + m₂ + (v₁ + v₂)) ^^^ (v₁ + v₂)) ||| m₁ ||| m₂) (x + y) := by
  intro i hi hm
  simp only [BitVec.getLsbD_or, Bool.or_eq_false_iff, BitVec.getLsbD_xor] at hm
  obtain ⟨⟨hchi, hm₁⟩, hm₂⟩ := hm
  have hsigma : m₁ + m₂ + (v₁ + v₂) = (v₁ ||| m₁) + (v₂ ||| m₂) := by
    rw [← hv₁.add_eq_or, ← hv₂.add_eq_or]
    ac_rfl
  rw [hsigma] at hchi
  rw [add_eq_sum, add_eq_sum v₁]
  refine sum_bit hv₁ hv₂ hx hy hi hm₁ hm₂ ?_
  rw [← add_eq_sum, ← add_eq_sum]
  exact (bne_eq_false_iff_eq.mp hchi).symm

theorem normal_not : Normal (~~~(v ||| m)) m := by
  intro i hi hbit
  simp only [BitVec.getLsbD_not, BitVec.getLsbD_or, hi, decide_true, Bool.true_and,
    Bool.not_eq_true', Bool.or_eq_false_iff] at hbit
  exact hbit.2

theorem agrees_not_greatest (h : Agrees v m x) : Agrees (~~~(v ||| m)) m (~~~x) := by
  intro i hi hm
  simp only [BitVec.getLsbD_not, BitVec.getLsbD_or, hi, h i hi hm, hm, Bool.or_false]

/-- A difference is a sum with the complement and a carry in. -/
theorem sub_eq_add_not (x y : BitVec w) : x - y = x + ~~~y + (BitVec.ofBool true).setWidth w := by
  rw [BitVec.sub_eq_add_neg, BitVec.neg_eq_not_add, ← BitVec.add_assoc]
  congr 1
  apply BitVec.eq_of_toNat_eq
  simp

theorem agrees_sub (hv₁ : Normal v₁ m₁) (hv₂ : Normal v₂ m₂) (hx : Agrees v₁ m₁ x)
    (hy : Agrees v₂ m₂ y) :
    Agrees (v₁ - v₂) (((v₁ - v₂ + m₁) ^^^ (v₁ - v₂ - m₂)) ||| m₁ ||| m₂) (x - y) := by
  have hbeta : v₁ - v₂ - m₂ = v₁ - (v₂ ||| m₂) := by
    rw [← hv₂.add_eq_or, BitVec.sub_eq_add_neg, BitVec.sub_eq_add_neg, BitVec.sub_eq_add_neg,
      BitVec.neg_add, BitVec.sub_eq_add_neg, BitVec.add_assoc]
  have halpha : v₁ - v₂ + m₁ = (v₁ ||| m₁) - v₂ := by
    rw [← hv₁.add_eq_or, BitVec.sub_eq_add_neg, BitVec.sub_eq_add_neg]
    ac_rfl
  have hdouble : ~~~(v₂ ||| m₂) ||| m₂ = ~~~v₂ := by
    apply BitVec.eq_of_getLsbD_eq
    intro i hi
    simp only [BitVec.getLsbD_or, BitVec.getLsbD_not, hi, decide_true, Bool.true_and]
    cases hm : m₂.getLsbD i with
    | true => rw [hv₂.value_clear hi hm]; rfl
    | false => simp
  intro i hi hm
  simp only [BitVec.getLsbD_or, Bool.or_eq_false_iff, BitVec.getLsbD_xor] at hm
  obtain ⟨⟨hchi, hm₁⟩, hm₂⟩ := hm
  rw [hbeta, halpha] at hchi
  -- the bit of the least difference, which every described difference has
  have hbit : ∀ x y, Agrees v₁ m₁ x → Agrees v₂ m₂ y →
      (x - y).getLsbD i = (v₁ - (v₂ ||| m₂)).getLsbD i := by
    intro x y hx hy
    rw [sub_eq_add_not, sub_eq_add_not v₁]
    refine sum_bit hv₁ normal_not hx (agrees_not_greatest hy) hi hm₁ hm₂ ?_
    rw [hdouble, ← sub_eq_add_not, ← sub_eq_add_not]
    exact (bne_eq_false_iff_eq.mp hchi).symm
  rw [hbit x y hx hy, hbit v₁ v₂ agrees_self agrees_self]

/-! ## Intervals -/

/-- A word of an interval agrees with its low end above the highest differing bit. -/
theorem agrees_between {n : Nat} (hn : (v ^^^ y).toNat < 2 ^ n) (hlo : v.toNat ≤ x.toNat)
    (hhi : x.toNat ≤ y.toNat) (hm : ∀ i < w, m.getLsbD i = false → n ≤ i) : Agrees v m x := by
  have hxor : v.toNat / 2 ^ n ^^^ y.toNat / 2 ^ n = 0 := by
    rw [← Nat.shiftRight_eq_div_pow, ← Nat.shiftRight_eq_div_pow, ← Nat.shiftRight_xor_distrib,
      ← BitVec.toNat_xor, Nat.shiftRight_eq_div_pow, Nat.div_eq_of_lt hn]
  have hends : v.toNat / 2 ^ n = y.toNat / 2 ^ n := Nat.xor_eq_zero_iff.mp hxor
  have hmid : x.toNat / 2 ^ n = v.toNat / 2 ^ n := by
    have hle := Nat.div_le_div_right (c := 2 ^ n) hlo
    have hge := Nat.div_le_div_right (c := 2 ^ n) hhi
    omega
  intro i hi hmi
  have hni := hm i hi hmi
  have hbit : ∀ z : BitVec w, z.getLsbD i = (z.toNat / 2 ^ n).testBit (i - n) := by
    intro z
    rw [← BitVec.testBit_toNat, Nat.testBit_div_two_pow]
    congr 1
    omega
  rw [hbit x, hbit v, hmid]

end RandVerifier.KnownBits
