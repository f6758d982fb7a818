/-
  RandVerifier.TightBits — the best description of a set of words.

  A mask is tight for a set of words when each of its bits takes both values in the set. A
  description of the set with a tight mask lies inside every other description of it
  (`Tight.least`), so no operator can give a better one. For the results of an operation
  two pairs of operands that part at the bit are enough:

    * the least and the greatest ones, where a carry or a borrow is unknown;
    * two that differ in that bit only, where a bit of an operand is unknown.
-/

import RandVerifier.KnownBits

namespace RandVerifier.KnownBits

variable {w : Nat}

/-- Every bit of the mask takes both values among the words of `S`. -/
def Tight (S : BitVec w → Prop) (m : BitVec w) : Prop :=
  ∀ i < w, m.getLsbD i = true → ∃ x y, S x ∧ S y ∧ x.getLsbD i ≠ y.getLsbD i

variable {S : BitVec w → Prop} {v v' v₁ v₂ m m' m₁ m₂ x : BitVec w} {i : Nat}

/-- A description of `S` with a tight mask lies inside every description of `S`. -/
theorem Tight.least (h : Tight S m) (hx : S x) (hin : ∀ x, S x → Agrees v m x)
    (hin' : ∀ x, S x → Agrees v' m' x) : ∀ y, Agrees v m y → Agrees v' m' y := by
  intro y hy i hi hm'
  cases hm : m.getLsbD i with
  | false => rw [hy i hi hm, ← hin x hx i hi hm, hin' x hx i hi hm']
  | true =>
    obtain ⟨a, b, ha, hb, hne⟩ := h i hi hm
    exact absurd ((hin' a ha i hi hm').trans (hin' b hb i hi hm').symm) hne

/-! ## Members -/

/-- The greatest word of a description. -/
theorem agrees_greatest : Agrees v m (v ||| m) := by
  intro i _ hm
  rw [BitVec.getLsbD_or, hm, Bool.or_false]

/-- The word with one unknown bit set. -/
theorem agrees_raised (hm : m.getLsbD i = true) : Agrees v m (v ||| BitVec.twoPow w i) := by
  intro j _ hj
  have hne : i ≠ j := fun h => by
    rw [h, hj] at hm
    cases hm
  rw [BitVec.getLsbD_or, BitVec.getLsbD_twoPow, decide_eq_false hne, Bool.and_false, Bool.or_false]

theorem Normal.raised_eq (h : Normal v m) (hm : m.getLsbD i = true) :
    v ||| BitVec.twoPow w i = v + BitVec.twoPow w i := by
  refine (BitVec.add_eq_or_of_and_eq_zero _ _ ?_).symm
  apply BitVec.eq_of_getLsbD_eq
  intro j hj
  rw [BitVec.getLsbD_and, BitVec.getLsbD_twoPow, BitVec.getLsbD_zero]
  by_cases hij : i = j
  · subst hij
    rw [h.value_clear hj hm, Bool.false_and]
  · rw [decide_eq_false hij, Bool.and_false, Bool.and_false]

/-- Adding the power of a bit flips the bit. -/
theorem getLsbD_add_twoPow (s : BitVec w) (hi : i < w) :
    (s + BitVec.twoPow w i).getLsbD i = !s.getLsbD i := by
  have hpow : (BitVec.twoPow w i).toNat = 2 ^ i := by
    rw [BitVec.toNat_twoPow]
    exact Nat.mod_eq_of_lt (Nat.pow_lt_pow_right (by omega) hi)
  have hcarry : BitVec.carry i s (BitVec.twoPow w i) false = false := by
    have hlt := Nat.mod_lt s.toNat (Nat.two_pow_pos i)
    rw [BitVec.carry, hpow, Nat.mod_self, Bool.toNat_false, decide_eq_false_iff_not]
    omega
  rw [BitVec.getLsbD_add hi, hcarry, BitVec.getLsbD_twoPow]
  simp [hi]

theorem getLsbD_sub_twoPow (s : BitVec w) (hi : i < w) :
    (s - BitVec.twoPow w i).getLsbD i = !s.getLsbD i := by
  have h := getLsbD_add_twoPow (s - BitVec.twoPow w i) hi
  rw [BitVec.sub_add_cancel] at h
  rw [h, Bool.not_not]

/-! ## Sets of results -/

/-- The results of an operation on the words of a description. -/
def Image (f : BitVec w → BitVec w) (v m : BitVec w) (z : BitVec w) : Prop := ∃ x, Agrees v m x ∧ f x = z

/-- The results of an operation on the words of two descriptions. -/
def Image₂ (f : BitVec w → BitVec w → BitVec w) (v₁ m₁ v₂ m₂ : BitVec w) (z : BitVec w) : Prop :=
  ∃ x y, Agrees v₁ m₁ x ∧ Agrees v₂ m₂ y ∧ f x y = z

section Results

variable {f : BitVec w → BitVec w → BitVec w}

/-- The least operands and the greatest ones part at the bit. -/
theorem image₂_extremes (h : (f v₁ v₂).getLsbD i ≠ (f (v₁ ||| m₁) (v₂ ||| m₂)).getLsbD i) :
    ∃ x y, Image₂ f v₁ m₁ v₂ m₂ x ∧ Image₂ f v₁ m₁ v₂ m₂ y ∧ x.getLsbD i ≠ y.getLsbD i :=
  ⟨_, _, ⟨v₁, v₂, agrees_self, agrees_self, rfl⟩, ⟨_, _, agrees_greatest, agrees_greatest, rfl⟩, h⟩

/-- An unknown bit of the left operand reaches the result. -/
theorem image₂_left (hm : m₁.getLsbD i = true) (h : (f (v₁ ||| BitVec.twoPow w i) v₂).getLsbD i = !(f v₁ v₂).getLsbD i) :
    ∃ x y, Image₂ f v₁ m₁ v₂ m₂ x ∧ Image₂ f v₁ m₁ v₂ m₂ y ∧ x.getLsbD i ≠ y.getLsbD i := by
  refine ⟨_, _, ⟨v₁, v₂, agrees_self, agrees_self, rfl⟩, ⟨_, v₂, agrees_raised hm, agrees_self, rfl⟩, ?_⟩
  rw [h]
  exact (Bool.not_ne_self _).symm

theorem image₂_right (hm : m₂.getLsbD i = true) (h : (f v₁ (v₂ ||| BitVec.twoPow w i)).getLsbD i = !(f v₁ v₂).getLsbD i) :
    ∃ x y, Image₂ f v₁ m₁ v₂ m₂ x ∧ Image₂ f v₁ m₁ v₂ m₂ y ∧ x.getLsbD i ≠ y.getLsbD i := by
  refine ⟨_, _, ⟨v₁, v₂, agrees_self, agrees_self, rfl⟩, ⟨v₁, _, agrees_self, agrees_raised hm, rfl⟩, ?_⟩
  rw [h]
  exact (Bool.not_ne_self _).symm

end Results

/-! ## Operations -/

/-- The bits of a sum that are not known can be both: those where the carries of the least
    and of the greatest operands part, and the unknown bits of the operands. -/
theorem tight_add (h₁ : Normal v₁ m₁) (h₂ : Normal v₂ m₂) :
    Tight (Image₂ (· + ·) v₁ m₁ v₂ m₂) (((m₁ + m₂ + (v₁ + v₂)) ^^^ (v₁ + v₂)) ||| m₁ ||| m₂) := by
  intro i hi hm
  simp only [BitVec.getLsbD_or, Bool.or_eq_true] at hm
  rcases hm with (hchi | hm₁) | hm₂
  · apply image₂_extremes
    have hmax : (v₁ ||| m₁) + (v₂ ||| m₂) = m₁ + m₂ + (v₁ + v₂) := by
      rw [← h₁.add_eq_or, ← h₂.add_eq_or]
      ac_rfl
    rw [hmax]
    rw [BitVec.getLsbD_xor] at hchi
    exact (bne_iff_ne.mp hchi).symm
  · apply image₂_left hm₁
    rw [h₁.raised_eq hm₁, ← getLsbD_add_twoPow _ hi]
    congr 1
    ac_rfl
  · apply image₂_right hm₂
    rw [h₂.raised_eq hm₂, ← getLsbD_add_twoPow _ hi]
    congr 1
    ac_rfl

/-- The same of a difference. -/
theorem tight_sub (h₁ : Normal v₁ m₁) (h₂ : Normal v₂ m₂) :
    Tight (Image₂ (· - ·) v₁ m₁ v₂ m₂) (((v₁ - v₂ + m₁) ^^^ (v₁ - v₂ - m₂)) ||| m₁ ||| m₂) := by
  intro i hi hm
  simp only [BitVec.getLsbD_or, Bool.or_eq_true] at hm
  rcases hm with (hchi | hm₁) | hm₂
  · refine ⟨_, _, ⟨_, v₂, agrees_greatest, agrees_self, rfl⟩, ⟨v₁, _, agrees_self, agrees_greatest, rfl⟩, ?_⟩
    have hmax : (v₁ ||| m₁) - v₂ = v₁ - v₂ + m₁ := by
      rw [← h₁.add_eq_or, BitVec.sub_eq_add_neg, BitVec.sub_eq_add_neg]
      ac_rfl
    have hmin : v₁ - (v₂ ||| m₂) = v₁ - v₂ - m₂ := by
      rw [← h₂.add_eq_or]
      grind
    show ((v₁ ||| m₁) - v₂).getLsbD i ≠ (v₁ - (v₂ ||| m₂)).getLsbD i
    rw [hmax, hmin]
    rw [BitVec.getLsbD_xor] at hchi
    exact bne_iff_ne.mp hchi
  · apply image₂_left hm₁
    rw [h₁.raised_eq hm₁, ← getLsbD_add_twoPow _ hi]
    congr 1
    rw [BitVec.sub_eq_add_neg, BitVec.sub_eq_add_neg]
    ac_rfl
  · apply image₂_right hm₂
    rw [h₂.raised_eq hm₂, ← getLsbD_sub_twoPow _ hi]
    congr 1
    grind

theorem tight_and : Tight (Image₂ (· &&& ·) v₁ m₁ v₂ m₂) (((v₁ ||| m₁) &&& (v₂ ||| m₂)) ^^^ (v₁ &&& v₂)) := by
  intro i _ hm
  apply image₂_extremes
  rw [BitVec.getLsbD_xor] at hm
  exact (bne_iff_ne.mp hm).symm

theorem tight_or (h₁ : Normal v₁ m₁) (h₂ : Normal v₂ m₂) :
    Tight (Image₂ (· ||| ·) v₁ m₁ v₂ m₂)
      (~~~(((v₁ &&& ~~~m₁) ||| (v₂ &&& ~~~m₂)) ||| ((~~~v₁ &&& ~~~m₁) &&& (~~~v₂ &&& ~~~m₂)))) := by
  intro i hi hm
  apply image₂_extremes
  have hv₁ := h₁ i hi
  have hv₂ := h₂ i hi
  simp only [BitVec.getLsbD_not, BitVec.getLsbD_or, BitVec.getLsbD_and, hi, decide_true, Bool.true_and] at hm ⊢
  -- a known one of either operand would be known of the result
  cases hb₁ : v₁.getLsbD i with
  | true => simp [hb₁, hv₁ hb₁] at hm
  | false =>
    cases hb₂ : v₂.getLsbD i with
    | true => simp [hb₂, hv₂ hb₂] at hm
    | false =>
      rw [hb₁, hb₂] at hm
      cases hm₁ : m₁.getLsbD i with
      | true => simp
      | false =>
        cases hm₂ : m₂.getLsbD i with
        | true => simp
        | false => simp [hm₁, hm₂] at hm

theorem tight_xor (h₁ : Normal v₁ m₁) (h₂ : Normal v₂ m₂) : Tight (Image₂ (· ^^^ ·) v₁ m₁ v₂ m₂) (m₁ ||| m₂) := by
  intro i hi hm
  rw [BitVec.getLsbD_or, Bool.or_eq_true] at hm
  rcases hm with hm₁ | hm₂
  · apply image₂_left hm₁
    simp only [BitVec.getLsbD_xor, BitVec.getLsbD_or, BitVec.getLsbD_twoPow, h₁.value_clear hi hm₁, hi, decide_true]
    simp
  · apply image₂_right hm₂
    simp only [BitVec.getLsbD_xor, BitVec.getLsbD_or, BitVec.getLsbD_twoPow, h₂.value_clear hi hm₂, hi, decide_true]
    simp

/-- A rearrangement of the bits, the sign repeated or zeros shifted in, is as tight as its
    operand. -/
theorem tight_map {f : BitVec w → BitVec w} (h : Normal v m)
    (hbit : ∀ i < w, (∃ j < w, ∀ x, (f x).getLsbD i = x.getLsbD j) ∨ ∀ x, (f x).getLsbD i = false) :
    Tight (Image f v m) (f m) := by
  intro i hi hm
  refine ⟨_, _, ⟨v, agrees_self, rfl⟩, ⟨_, agrees_greatest, rfl⟩, ?_⟩
  rcases hbit i hi with ⟨j, hj, hfrom⟩ | hzero
  · rw [hfrom] at hm
    rw [hfrom, hfrom, BitVec.getLsbD_or, hm, h.value_clear hj hm]
    simp
  · rw [hzero] at hm
    cases hm

/-- The join of two descriptions. -/
theorem tight_join (h₁ : Normal v₁ m₁) (h₂ : Normal v₂ m₂) :
    Tight (fun x => Agrees v₁ m₁ x ∨ Agrees v₂ m₂ x) ((v₁ ^^^ v₂) ||| m₁ ||| m₂) := by
  intro i hi hm
  simp only [BitVec.getLsbD_or, Bool.or_eq_true] at hm
  rcases hm with (hne | hm₁) | hm₂
  · rw [BitVec.getLsbD_xor] at hne
    exact ⟨v₁, v₂, .inl agrees_self, .inr agrees_self, bne_iff_ne.mp hne⟩
  · refine ⟨v₁, v₁ ||| m₁, .inl agrees_self, .inl agrees_greatest, ?_⟩
    simp [hm₁, h₁.value_clear hi hm₁]
  · refine ⟨v₂, v₂ ||| m₂, .inr agrees_self, .inr agrees_greatest, ?_⟩
    simp [hm₂, h₂.value_clear hi hm₂]

/-- Two neighbours part in every bit up to the one where the greater one is a multiple. -/
theorem turn_bit {t k i : Nat} (ht : t = k * 2 ^ i) (hpos : 0 < t) : t.testBit i ≠ (t - 1).testBit i := by
  have hpow := Nat.two_pow_pos i
  have hk : 0 < k := by
    rcases Nat.eq_zero_or_pos k with rfl | hk
    · omega
    · exact hk
  have hdiv : t / 2 ^ i = k := by rw [ht, Nat.mul_div_cancel _ hpow]
  have hdiv' : (t - 1) / 2 ^ i = k - 1 := by
    apply Nat.div_eq_of_lt_le
    · rw [Nat.sub_mul]
      omega
    · rw [Nat.sub_add_cancel hk]
      omega
  rw [Nat.testBit_eq_decide_div_mod_eq, Nat.testBit_eq_decide_div_mod_eq, hdiv, hdiv']
  intro h
  have hiff := decide_eq_decide.mp h
  omega

/-- Where the ends of an interval part from a bit on, the interval goes past a point where
    that bit turns. -/
theorem tight_between {lo hi : BitVec w}
    (hm : ∀ i < w, m.getLsbD i = true → lo.toNat / 2 ^ i < hi.toNat / 2 ^ i) :
    Tight (fun x => lo.toNat ≤ x.toNat ∧ x.toNat ≤ hi.toNat) m := by
  intro i hi' hmi
  have hpow := Nat.two_pow_pos i
  -- the last multiple of `2 ^ i` up to `hi`
  obtain ⟨t, ht⟩ : ∃ t, t = hi.toNat / 2 ^ i * 2 ^ i := ⟨_, rfl⟩
  have htle : t ≤ hi.toNat := by
    rw [ht]
    exact Nat.div_mul_le_self ..
  have hlot : lo.toNat < t := by
    have hlt := Nat.lt_div_mul_add (a := lo.toNat) hpow
    have hstep := Nat.mul_le_mul_right (2 ^ i) (hm i hi' hmi)
    rw [Nat.succ_mul] at hstep
    omega
  have hwidth := hi.isLt
  have hbound : (BitVec.ofNat w t).toNat = t ∧ (BitVec.ofNat w (t - 1)).toNat = t - 1 :=
    ⟨Nat.mod_eq_of_lt (by omega), Nat.mod_eq_of_lt (by omega)⟩
  refine ⟨BitVec.ofNat w t, BitVec.ofNat w (t - 1), ?_, ?_, ?_⟩
  · show lo.toNat ≤ (BitVec.ofNat w t).toNat ∧ (BitVec.ofNat w t).toNat ≤ hi.toNat
    omega
  · show lo.toNat ≤ (BitVec.ofNat w (t - 1)).toNat ∧ (BitVec.ofNat w (t - 1)).toNat ≤ hi.toNat
    omega
  · rw [BitVec.getLsbD, BitVec.getLsbD, hbound.1, hbound.2]
    exact turn_bit ht (by omega)

end RandVerifier.KnownBits
