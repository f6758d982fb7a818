/-
  RandVerifier.Spec.Intervals — the ALU of the safety-spec verifier on intervals (`alu_range`
  and `alu32` of `src/spec/runner.rs`, `src/spec/value.rs`).

  Every operation that is done on intervals contains its results. What goes wrong is the
  folding of constants, where a shift saturates that the machine masks, and the 32-bit
  operations, which reuse the 64-bit intervals of the low words: a product, a negation or a
  left shift is not cut off at 2^32, shifts take the amount modulo 64 instead of 32, and an
  arithmetic shift looks at bit 63.

  Proved, for every two intervals:
  - `aluRange_iff`, `alu32Range_iff`, `mov32_iff`: the exact condition for the interval of
    an operation to contain all results;
  - `alu_intervals`: the same for the steps of the verifier;
  - `lost_carry`: the 32-bit left shift of 2^31.
-/

import RandVerifier.Alu32Sound
import RandVerifier.Spec.Steps

namespace RandVerifier.Spec

section Wide

variable {a b d s : Range} {x y k : UInt64} {op : AluOp}

theorem inUnsigned_point {v w : UInt64} : InUnsigned (v, v) w ↔ w = v := by
  rw [inUnsigned_iff, ← UInt64.toNat_inj]
  dsimp only
  omega

/-! ## Intervals of 64-bit words -/

theorem rngAdd_contains (hx : InUnsigned a x) (hy : InUnsigned b y) : InUnsigned (rngAdd a b) (x + y) := by
  rw [inUnsigned_iff] at hx hy
  unfold rngAdd
  dsimp only
  split
  · rw [inUnsigned_iff, UInt64.toNat_add, UInt64.toNat_ofNat', UInt64.toNat_ofNat']
    omega
  · exact inUnsigned_full _

theorem rngSub_contains (hx : InUnsigned a x) (hy : InUnsigned b y) : InUnsigned (rngSub a b) (x - y) := by
  rw [inUnsigned_iff] at hx hy
  have hx64 := x.toNat_lt
  have hy64 := y.toNat_lt
  unfold rngSub
  dsimp only
  split
  · split
    · rw [inUnsigned_iff, UInt64.toNat_sub, UInt64.toNat_ofNat', UInt64.toNat_ofNat']
      omega
    · exact inUnsigned_full _
  · exact inUnsigned_full _

theorem rngLsh_iff (hk : k.toNat < 64) : InUnsigned (rngLsh a k) x ↔
    (a.1.toNat / 2 ^ (64 - k.toNat) = a.2.toNat / 2 ^ (64 - k.toNat) →
      a.1.toNat * 2 ^ k.toNat % 2 ^ 64 ≤ x.toNat ∧ x.toNat ≤ a.2.toNat * 2 ^ k.toNat % 2 ^ 64) := by
  unfold rngLsh
  by_cases h0 : k = 0
  · have hzero : ∀ v : UInt64, v.toNat / 2 ^ 64 = 0 := fun v => Nat.div_eq_of_lt v.toNat_lt
    rw [if_pos h0, inUnsigned_iff, h0, UInt64.toNat_zero, Nat.sub_zero, hzero, hzero, Nat.pow_zero, Nat.mul_one,
      Nat.mul_one, Nat.mod_eq_of_lt a.1.toNat_lt, Nat.mod_eq_of_lt a.2.toNat_lt]
    exact ⟨fun h _ => h, fun h => h rfl⟩
  · have hpos : k.toNat ≠ 0 := fun h => h0 (UInt64.toNat_inj.mp h)
    have hsub : (64 - k).toNat = 64 - k.toNat := UInt64.toNat_sub_of_le _ _ (by
      rw [UInt64.le_iff_toNat_le]
      exact hk.le)
    rw [if_neg h0, if_neg (by rw [UInt64.le_iff_toNat_le]; exact Nat.not_le.mpr hk)]
    simp only [← UInt64.toNat_inj, toNat_shr (show (64 - k).toNat < 64 by omega), hsub]
    split
    · rename_i hblock
      rw [inUnsigned_iff, toNat_shl hk, toNat_shl hk]
      exact ⟨fun h _ => h, fun h => h hblock⟩
    · rename_i hblock
      exact ⟨fun _ h => absurd h hblock, fun _ => inUnsigned_full _⟩

theorem rngRsh_iff (hk : k.toNat < 64) : InUnsigned (rngRsh a k) x ↔
    a.1.toNat / 2 ^ k.toNat ≤ x.toNat ∧ x.toNat ≤ a.2.toNat / 2 ^ k.toNat := by
  unfold rngRsh
  rw [if_neg (by rw [UInt64.le_iff_toNat_le]; exact Nat.not_le.mpr hk), inUnsigned_iff, toNat_shr hk, toNat_shr hk]

theorem rngLsh_contains (hx : InUnsigned a x) (hk : k.toNat < 64) : InUnsigned (rngLsh a k) (x <<< k) := by
  rw [inUnsigned_iff] at hx
  rw [rngLsh_iff hk, toNat_shl hk]
  exact fun hblock => shl_block hk hblock hx.1 hx.2

theorem rngRsh_contains (hx : InUnsigned a x) (hk : k.toNat < 64) : InUnsigned (rngRsh a k) (x >>> k) := by
  rw [inUnsigned_iff] at hx
  rw [rngRsh_iff hk, toNat_shr hk]
  exact ⟨Nat.div_le_div_right hx.1, Nat.div_le_div_right hx.2⟩

/-- The arithmetic shift keeps the order of the words, and the half they are in. -/
theorem sar_mono {v w : UInt64} (h : v.toNat ≤ w.toNat) (hk : k.toNat < 64) :
    (v.toInt64 >>> k.toInt64).toUInt64.toNat ≤ (w.toInt64 >>> k.toInt64).toUInt64.toNat := by
  have hv := toInt_sar hk v.toInt64
  have hw := toInt_sar hk w.toInt64
  have hpow : (0 : Int) < 2 ^ k.toNat := by positivity
  have hsign : ∀ p : Int, (0 ≤ p → 0 ≤ p / 2 ^ k.toNat) ∧ (p < 0 → p / 2 ^ k.toNat < 0) :=
    fun p => ⟨fun hp => Int.ediv_nonneg hp hpow.le, fun hp => Int.ediv_neg_of_neg_of_pos hp hpow⟩
  have horder : v.toInt64.toInt ≤ w.toInt64.toInt ∧ (0 ≤ v.toInt64.toInt ∨ w.toInt64.toInt < 0) ∨
      0 ≤ v.toInt64.toInt ∧ w.toInt64.toInt < 0 := by
    have hwlt := w.toNat_lt
    rw [signed_eq, signed_eq]
    split <;> split <;> omega
  have hvres := signed_eq (v.toInt64 >>> k.toInt64).toUInt64
  have hwres := signed_eq (w.toInt64 >>> k.toInt64).toUInt64
  rw [Int64.toInt64_toUInt64, hv] at hvres
  rw [Int64.toInt64_toUInt64, hw] at hwres
  have hvlt := (v.toInt64 >>> k.toInt64).toUInt64.toNat_lt
  have hwlt := (w.toInt64 >>> k.toInt64).toUInt64.toNat_lt
  rcases horder with ⟨hle, hsame⟩ | ⟨hpos, hneg⟩
  · have hmono := Int.ediv_le_ediv hpow hle
    have hv0 := hsign v.toInt64.toInt
    have hw0 := hsign w.toInt64.toInt
    split at hvres <;> split at hwres <;> omega
  · have hv0 := (hsign v.toInt64.toInt).1 hpos
    have hw0 := (hsign w.toInt64.toInt).2 hneg
    split at hvres <;> split at hwres <;> omega

theorem rngArsh_contains (hx : InUnsigned a x) (hk : k.toNat < 64) :
    InUnsigned (rngArsh a k) (x.toInt64 >>> k.toInt64).toUInt64 := by
  rw [inUnsigned_iff] at hx
  unfold rngArsh
  rw [if_neg (by rw [UInt64.le_iff_toNat_le]; exact Nat.not_le.mpr hk), inUnsigned_iff]
  exact ⟨sar_mono hx.1 hk, sar_mono hx.2 hk⟩

/-- Off the constants every interval contains the results. -/
theorem aluRange_contains (hx : InUnsigned d x) (hy : InUnsigned s y) (hvar : ¬ (d.1 = d.2 ∧ s.1 = s.2)) :
    InUnsigned (aluRange op d s) (aluConst64 op x y) := by
  have hx' := inUnsigned_iff.mp hx
  have hy' := inUnsigned_iff.mp hy
  -- an amount that is known and below 64 is not masked
  have hshift : ∀ {shift : Range → UInt64 → Range} {f : UInt64 → UInt64},
      (y.toNat < 64 → InUnsigned (shift d y) (f y)) → InUnsigned (shiftRange shift d s) (f (y &&& 63)) := by
    intro shift f hin
    unfold shiftRange
    split
    · exact inUnsigned_full _
    · rename_i hk
      rw [not_or, not_not, UInt64.le_iff_toNat_le] at hk
      have hsy : s.1 = y := UInt64.toNat_inj.mp (by rw [← hk.1] at hy'; omega)
      have hlt : y.toNat < 64 := by
        rw [hsy] at hk
        exact Nat.not_le.mp hk.2
      rw [hsy, amount_masked hlt]
      exact hin hlt
  have hpos : s.1 ≠ 0 → 0 < s.1.toNat := fun h => Nat.pos_of_ne_zero fun h0 => h (UInt64.toNat_inj.mp h0)
  unfold aluRange
  rw [if_neg hvar]
  cases op with
  | add => exact rngAdd_contains hx hy
  | sub => exact rngSub_contains hx hy
  | and => exact unsigned_and hx' hy'
  | or => exact unsigned_or hx' hy'
  | xor | neg => exact inUnsigned_full _
  | lsh => exact hshift (f := (x <<< ·)) (rngLsh_contains hx)
  | rsh => exact hshift (f := (x >>> ·)) (rngRsh_contains hx)
  | arsh => exact hshift (f := fun k => (x.toInt64 >>> k.toInt64).toUInt64) (rngArsh_contains hx)
  | mul =>
    dsimp only
    unfold rngMul
    rw [if_neg hvar]
    exact inUnsigned_full _
  | div =>
    dsimp only
    split
    · exact inUnsigned_full _
    · rename_i h0
      exact unsigned_div hx' hy' (hpos h0)
  | mod =>
    dsimp only
    split
    · exact inUnsigned_full _
    · rename_i h0
      exact unsigned_mod hy' (hpos h0)

/-! ## Constants -/

/-- What a shift by 64 or more leaves of a constant. -/
def shiftedOut (op : AluOp) (a : UInt64) : UInt64 :=
  match op with
  | .arsh => (a.toInt64 >>> 63).toUInt64
  | _ => 0

/-- A constant of which the machine, that masks the amount, keeps no bits but the sign. -/
def KeepsNothing (op : AluOp) (a k : UInt64) : Prop :=
  match op with
  | .lsh => a.toNat * 2 ^ (k.toNat % 64) % 2 ^ 64 = 0
  | .rsh => a.toNat < 2 ^ (k.toNat % 64)
  | _ => -2 ^ (k.toNat % 64) ≤ a.toInt64.toInt ∧ a.toInt64.toInt < 2 ^ (k.toNat % 64)

/-- No constant with bits to keep is shifted by a constant of 64 or more. -/
def Fits64 (op : AluOp) (d s : Range) : Prop :=
  op.isShift = true → d.1 = d.2 → s.1 = s.2 → 64 ≤ s.1 → KeepsNothing op d.1 s.1

theorem amount_toNat (k : UInt64) : (k &&& 63).toNat = k.toNat % 64 :=
  Nat.and_two_pow_sub_one_eq_mod k.toNat 6

theorem keepsNothing_iff (hop : op.isShift = true) : aluConst64 op x k = shiftedOut op x ↔ KeepsNothing op x k := by
  have hj := amount_toNat k
  have hlt : (k &&& 63).toNat < 64 := by omega
  cases op with
  | lsh => simp only [aluConst64, shiftedOut, KeepsNothing, ← UInt64.toNat_inj, toNat_shl hlt, hj, UInt64.toNat_zero]
  | rsh =>
    simp only [aluConst64, shiftedOut, KeepsNothing, ← UInt64.toNat_inj, toNat_shr hlt, hj, UInt64.toNat_zero]
    exact Nat.div_eq_zero_iff_lt (by positivity)
  | arsh =>
    have hpow : (0 : Int) < 2 ^ (k.toNat % 64) := by positivity
    have hmachine : (x.toInt64 >>> (k &&& 63).toInt64).toInt = x.toInt64.toInt / 2 ^ (k.toNat % 64) := by
      rw [toInt_sar hlt, hj]
    have hfolded : (x.toInt64 >>> 63).toInt = x.toInt64.toInt / 2 ^ 63 :=
      toInt_sar (y := 63) (by decide) x.toInt64
    have hlo := x.toInt64.le_toInt
    have hhi := x.toInt64.toInt_lt
    simp only [aluConst64, shiftedOut, KeepsNothing]
    have hinj : ∀ {v w : Int64}, v.toUInt64 = w.toUInt64 ↔ v.toInt = w.toInt := fun {v w} =>
      ⟨fun h => by rw [← Int64.toInt64_toUInt64 v, h, Int64.toInt64_toUInt64], fun h => by rw [Int64.toInt.inj h]⟩
    rw [hinj, hmachine, hfolded]
    generalize x.toInt64.toInt = i at *
    generalize (2 : Int) ^ (k.toNat % 64) = p at *
    by_cases hneg : i < 0
    · rw [show i / 2 ^ 63 = -1 by omega, Int.ediv_eq_iff_of_pos hpow]
      omega
    · rw [show i / 2 ^ 63 = 0 by omega, Int.ediv_eq_iff_of_pos hpow]
      omega
  | _ => cases hop

theorem foldConst_small (hk : y.toNat < 64) : foldConst op x y = aluConst64 op x y := by
  have hle : ¬ 64 ≤ y := by
    rw [UInt64.le_iff_toNat_le]
    exact Nat.not_le.mpr hk
  cases op with
  | lsh | rsh | arsh => simp only [foldConst, aluConst64, if_neg hle, amount_masked hk]
  | _ => rfl

theorem foldConst_large (hop : op.isShift = true) (hk : 64 ≤ y) : foldConst op x y = shiftedOut op x := by
  cases op with
  | lsh | rsh | arsh => simp only [foldConst, shiftedOut, if_pos hk]
  | _ => cases hop

theorem foldConst_eq (hop : op.isShift = false) : foldConst op x y = aluConst64 op x y := by
  cases op with
  | lsh | rsh | arsh => cases hop
  | _ => rfl

/-- The interval of the 64-bit operation contains all results exactly if no constant is
    shifted too far. -/
theorem aluRange_iff (hd : d.1 ≤ d.2) (hs : s.1 ≤ s.2) :
    (∀ x y, InUnsigned d x → InUnsigned s y → InUnsigned (aluRange op d s) (aluConst64 op x y)) ↔ Fits64 op d s := by
  by_cases hconst : d.1 = d.2 ∧ s.1 = s.2
  · have hout : aluRange op d s = (foldConst op d.1 s.1, foldConst op d.1 s.1) := if_pos hconst
    have hpoint : (∀ x y, InUnsigned d x → InUnsigned s y → InUnsigned (aluRange op d s) (aluConst64 op x y)) ↔
        aluConst64 op d.1 s.1 = foldConst op d.1 s.1 := by
      rw [hout]
      constructor
      · intro h
        exact inUnsigned_point.mp (h d.1 s.1 ⟨UInt64.le_refl _, hd⟩ ⟨UInt64.le_refl _, hs⟩)
      · intro h x y hx hy
        have hxd : x = d.1 := UInt64.le_antisymm (hconst.1 ▸ hx.2) hx.1
        have hys : y = s.1 := UInt64.le_antisymm (hconst.2 ▸ hy.2) hy.1
        rw [hxd, hys]
        exact inUnsigned_point.mpr h
    rw [hpoint]
    unfold Fits64
    by_cases hop : op.isShift = true
    · by_cases hk : 64 ≤ s.1
      · rw [foldConst_large hop hk, keepsNothing_iff hop]
        exact ⟨fun h _ _ _ _ => h, fun h => h hop hconst.1 hconst.2 hk⟩
      · rw [foldConst_small (Nat.not_le.mp (by rwa [UInt64.le_iff_toNat_le] at hk))]
        exact ⟨fun _ _ _ _ hle => absurd hle hk, fun _ => rfl⟩
    · rw [foldConst_eq (by simpa using hop)]
      exact ⟨fun _ h => absurd h hop, fun _ => rfl⟩
  · exact ⟨fun _ _ h1 h2 _ => absurd ⟨h1, h2⟩ hconst, fun _ x y hx hy => aluRange_contains hx hy hconst⟩

/-- The signed view of an interval has its words, in the same order. -/
theorem asSigned_order {ds : Int64 × Int64} (h : asSigned d = some ds) (hx : InUnsigned d x) :
    ds.1.toInt ≤ x.toInt64.toInt ∧ x.toInt64.toInt ≤ ds.2.toInt := by
  rw [inUnsigned_iff] at hx
  unfold asSigned at h
  split at h
  · rename_i hside
    rw [UInt64.lt_iff_toNat_lt, UInt64.le_iff_toNat_le, show (0x8000000000000000 : UInt64).toNat = 2 ^ 63 from rfl] at hside
    cases h
    have hd64 := d.2.toNat_lt
    rw [signed_eq, signed_eq, signed_eq]
    split <;> split <;> split <;> omega
  · cases h

/-- The signed view lies on one side of 0. -/
theorem asSigned_side {ds : Int64 × Int64} (h : asSigned d = some ds) (hd : d.1 ≤ d.2) :
    0 ≤ ds.1.toInt ∨ ds.2.toInt < 0 := by
  rw [UInt64.le_iff_toNat_le] at hd
  unfold asSigned at h
  split at h
  · rename_i hside
    rw [UInt64.lt_iff_toNat_lt, UInt64.le_iff_toNat_le, show (0x8000000000000000 : UInt64).toNat = 2 ^ 63 from rfl] at hside
    cases h
    have hd64 := d.2.toNat_lt
    rw [signed_eq, signed_eq]
    split <;> split <;> omega
  · cases h

end Wide

/-! ## Low words -/

section Low

variable {d s out : Range} {x y w : UInt64} {op : AluOp}

theorem truncate32_eq (x : UInt64) : truncate32 x = x.toUInt32.toUInt64 := by
  rw [← UInt64.toNat_inj, truncate32, UInt64.toNat_and, UInt32.toNat_toUInt64, UInt64.toNat_toUInt32]
  exact Nat.and_two_pow_sub_one_eq_mod x.toNat 32

theorem truncate32_toNat (x : UInt64) : (truncate32 x).toNat = x.toNat % 2 ^ 32 := by
  rw [truncate32_eq, UInt32.toNat_toUInt64, UInt64.toNat_toUInt32]

theorem truncate32_small (h : x.toNat < 2 ^ 32) : truncate32 x = x := by
  rw [← UInt64.toNat_inj, truncate32_toNat, Nat.mod_eq_of_lt h]

/-- Two words are in one window of 2^32. -/
theorem window_eq : x >>> 32 = y >>> 32 ↔ x.toNat / 2 ^ 32 = y.toNat / 2 ^ 32 := by
  have hk : (32 : UInt64).toNat < 64 := by decide
  rw [← UInt64.toNat_inj, toNat_shr hk, toNat_shr hk]
  rfl

theorem max32_toNat : (0xffffffff : UInt64).toNat = 2 ^ 32 - 1 := rfl

theorem range32_contains (hx : InUnsigned d x) : InUnsigned (range32 d) (truncate32 x) := by
  rw [inUnsigned_iff] at hx
  unfold range32
  split
  · rename_i hwin
    rw [window_eq] at hwin
    rw [inUnsigned_iff, truncate32_toNat, truncate32_toNat, truncate32_toNat]
    omega
  · rw [inUnsigned_iff, truncate32_toNat]
    dsimp only
    rw [max32_toNat]
    exact ⟨Nat.zero_le _, by omega⟩

theorem range32_lt : (range32 d).2.toNat < 2 ^ 32 := by
  unfold range32
  split
  · rw [truncate32_toNat]
    omega
  · decide

theorem range32_le (hd : d.1 ≤ d.2) : (range32 d).1 ≤ (range32 d).2 :=
  have h := range32_contains ⟨UInt64.le_refl d.1, hd⟩
  UInt64.le_trans h.1 h.2

/-- The ends of the low interval, and all of one that does not start at 0, are low words of
    the interval. -/
theorem range32_attains (hd : d.1 ≤ d.2) {t : UInt64} (ht : InUnsigned (range32 d) t)
    (hend : t = (range32 d).1 ∨ t = (range32 d).2 ∨ (range32 d).1 ≠ 0) : ∃ x, InUnsigned d x ∧ truncate32 x = t := by
  rw [UInt64.le_iff_toNat_le] at hd
  have hlt := d.2.toNat_lt
  have hword : ∀ n : Nat, d.1.toNat ≤ n → n ≤ d.2.toNat → n % 2 ^ 32 = t.toNat →
      ∃ x, InUnsigned d x ∧ truncate32 x = t := by
    intro n hlo hhi hn
    have hof : (UInt64.ofNat n).toNat = n := toNat_ofNat_lt (by omega)
    refine ⟨UInt64.ofNat n, inUnsigned_iff.mpr ?_, UInt64.toNat_inj.mp ?_⟩
    · rw [hof]
      exact ⟨hlo, hhi⟩
    · rw [truncate32_toNat, hof, hn]
  rw [inUnsigned_iff] at ht
  unfold range32 at ht hend
  split at ht
  · rename_i hwin
    rw [window_eq] at hwin
    rw [truncate32_toNat, truncate32_toNat] at ht
    exact hword (d.1.toNat / 2 ^ 32 * 2 ^ 32 + t.toNat) (by omega) (by omega) (by omega)
  · rename_i hwin
    rw [if_neg hwin] at hend
    rw [window_eq] at hwin
    rcases hend with rfl | rfl | hzero
    · exact hword ((d.1.toNat / 2 ^ 32 + 1) * 2 ^ 32) (by omega) (by omega) (Nat.mul_mod_left _ _)
    · exact hword (d.1.toNat / 2 ^ 32 * 2 ^ 32 + (2 ^ 32 - 1)) (by omega) (by omega) (by
        dsimp only
        rw [max32_toNat]
        omega)
    · exact absurd rfl hzero

/-! ## 32-bit operations but shifts -/

/-- The operation on the low words is that on the words, cut off. -/
theorem aluConst32_low (hop : op.isShift = false) :
    aluConst32 op x y = truncate32 (aluConst64 op (truncate32 x) (truncate32 y)) := by
  rw [aluConst32_eq, truncate32_eq, truncate32_eq, truncate32_eq]
  congr 1
  generalize x.toUInt32 = a
  generalize y.toUInt32 = b
  cases op with
  | lsh | rsh | arsh => cases hop
  | add | sub | mul | and | or | xor | neg => simp [aluWord32, aluConst64]
  | div =>
    have hzero : (b.toUInt64 = 0) ↔ b = 0 := by
      rw [← UInt64.toNat_inj, ← UInt32.toNat_inj]
      rfl
    simp only [aluWord32, aluConst64]
    by_cases h0 : b = 0
    · rw [if_pos h0, if_pos (hzero.mpr h0)]
      rfl
    · rw [if_neg h0, if_neg (mt hzero.mp h0), ← UInt32.toNat_inj, UInt32.toNat_div, UInt64.toNat_toUInt32,
        UInt64.toNat_div, UInt32.toNat_toUInt64, UInt32.toNat_toUInt64, Nat.mod_eq_of_lt]
      exact (Nat.div_le_self _ _).trans_lt a.toNat_lt
  | mod =>
    have hzero : (b.toUInt64 = 0) ↔ b = 0 := by
      rw [← UInt64.toNat_inj, ← UInt32.toNat_inj]
      rfl
    simp only [aluWord32, aluConst64]
    by_cases h0 : b = 0
    · rw [if_pos h0, if_pos (hzero.mpr h0)]
      exact (UInt32.toUInt32_toUInt64 a).symm
    · rw [if_neg h0, if_neg (mt hzero.mp h0), ← UInt32.toNat_inj, UInt32.toNat_mod, UInt64.toNat_toUInt32,
        UInt64.toNat_mod, UInt32.toNat_toUInt64, UInt32.toNat_toUInt64]
      exact (Nat.mod_eq_of_lt ((Nat.mod_le _ _).trans_lt a.toNat_lt)).symm

theorem foldRange32_other (hop : ¬ (op = .add ∨ op = .sub)) : foldRange32 op out = out := by
  unfold foldRange32
  rw [if_neg hop, ite_self]

/-- Sums and differences are folded back. -/
theorem foldRange32_contains (hop : op = .add ∨ op = .sub) (hw : InUnsigned out w) :
    InUnsigned (foldRange32 op out) (truncate32 w) := by
  unfold foldRange32
  rw [if_pos hop]
  rw [inUnsigned_iff] at hw
  split
  · rename_i hfit
    rw [UInt64.le_iff_toNat_le, max32_toNat] at hfit
    rw [truncate32_small (by omega)]
    exact inUnsigned_iff.mpr hw
  · split
    · rename_i heq
      rw [← heq] at hw
      rw [show w = out.1 from UInt64.toNat_inj.mp (by omega)]
      exact inUnsigned_point.mpr rfl
    · rw [inUnsigned_iff, truncate32_toNat]
      dsimp only
      rw [max32_toNat]
      exact ⟨Nat.zero_le _, by omega⟩

/-- The result of an operation on low words that is none of sum, difference, product and
    negation is a low word. -/
theorem aluConst64_low (hx : x.toNat < 2 ^ 32) (hy : y.toNat < 2 ^ 32)
    (hop : op = .and ∨ op = .or ∨ op = .xor ∨ op = .div ∨ op = .mod) : (aluConst64 op x y).toNat < 2 ^ 32 := by
  rcases hop with rfl | rfl | rfl | rfl | rfl
  · exact Nat.and_lt_two_pow _ hy
  · exact Nat.or_lt_two_pow hx hy
  · exact Nat.xor_lt_two_pow hx hy
  · simp only [aluConst64]
    split
    · decide
    · rw [UInt64.toNat_div]
      exact (Nat.div_le_self _ _).trans_lt hx
  · simp only [aluConst64]
    split
    · exact hx
    · rw [UInt64.toNat_mod]
      exact (Nat.mod_le _ _).trans_lt hx

/-! ## 32-bit shifts -/

/-- The shift of a low word by an amount that is masked to 31. -/
def shift32 (op : AluOp) (t j : Nat) : Int :=
  match op with
  | .lsh => (t * 2 ^ j % 2 ^ 32 : Nat)
  | .rsh => (t / 2 ^ j : Nat)
  | _ => if t < 2 ^ 31 then (t / 2 ^ j : Nat) else 2 ^ 32 + ((t : Int) - 2 ^ 32) / 2 ^ j

theorem aluConst32_shift (hop : op.isShift = true) :
    ((aluConst32 op x y).toNat : Int) = shift32 op (truncate32 x).toNat ((truncate32 y).toNat % 32) := by
  have hamount : (y.toUInt32 &&& 31).toNat = (truncate32 y).toNat % 32 := by
    rw [truncate32_toNat, ← UInt64.toNat_toUInt32]
    exact Nat.and_two_pow_sub_one_eq_mod y.toUInt32.toNat 5
  have hlt : (y.toUInt32 &&& 31).toNat < 32 := by omega
  rw [aluConst32_eq, UInt32.toNat_toUInt64, truncate32_eq x, UInt32.toNat_toUInt64]
  cases op with
  | lsh => simp only [aluWord32, shift32, toNat_shl32 hlt, hamount]
  | rsh => simp only [aluWord32, shift32, toNat_shr32 hlt, hamount]
  | arsh =>
    have hsar := toNat_sar32 hlt x.toUInt32
    rw [hamount] at hsar
    simp only [aluWord32, shift32]
    split
    · rename_i hsmall
      rw [hsar.1 hsmall]
    · rename_i hbig
      exact hsar.2 (Nat.not_lt.mp hbig)
  | _ => cases hop

/-- When the interval of a shift of the low words in `[lo, hi]` by the constant `n` contains
    all results: a left shift does not leave the low word, a shift that the machine masks
    does nothing, and an arithmetic shift sees no sign. -/
def ShiftFits32 (op : AluOp) (lo hi n : Nat) : Prop :=
  match op with
  | .lsh => (n < 32 → lo = 0 ∨ hi * 2 ^ n < 2 ^ 32) ∧
      (32 ≤ n → n < 64 → lo / 2 ^ (64 - n) = hi / 2 ^ (64 - n) → lo % 2 ^ (64 - n) = 0) ∧
      (64 ≤ n → lo = hi → lo % 2 ^ (32 - n % 32) = 0)
  | .rsh => 32 ≤ n → n < 64 ∨ lo = hi → hi < 2 ^ (n % 32)
  | _ => n = 0 ∨ (n < 64 ∨ lo = hi → hi < 2 ^ 31 ∧ (32 ≤ n → hi < 2 ^ (n % 32)))

section Shift

variable {lo hi t n : Nat}

theorem shl_cut {w : Nat} (hn : n ≤ w) : t * 2 ^ n % 2 ^ w = t % 2 ^ (w - n) * 2 ^ n := by
  have hpow : 2 ^ w = 2 ^ (w - n) * 2 ^ n := by rw [← Nat.pow_add, Nat.sub_add_cancel hn]
  rw [hpow, Nat.mul_mod_mul_right]

/-- A low word does not leave the 64 bits when it is shifted by less than 32. -/
theorem shl_low (ht : t < 2 ^ 32) (hn : n < 32) : t / 2 ^ (64 - n) = 0 ∧ t * 2 ^ n % 2 ^ 64 = t * 2 ^ n := by
  have hpow : (2 : Nat) ^ 32 ≤ 2 ^ (64 - n) := Nat.pow_le_pow_right (by decide) (by omega)
  have hlt : t < 2 ^ (64 - n) := by omega
  exact ⟨Nat.div_eq_of_lt hlt, by rw [shl_cut (by omega), Nat.mod_eq_of_lt hlt]⟩

/-- The machine's left shift by `n` of 32 or more, against that of the wide word. -/
theorem shl_masked (hn : 32 ≤ n) (hn' : n < 64) : t * 2 ^ (n % 32) % 2 ^ 32 = t % 2 ^ (64 - n) * 2 ^ (n % 32) := by
  rw [shl_cut (by omega), show 32 - n % 32 = 64 - n by omega]

theorem shl_fits (hlo : lo ≤ t) (hhi : t ≤ hi) (hlt : hi < 2 ^ 32) (hn : n < 64)
    (hsmall : n < 32 → lo = 0 ∨ hi * 2 ^ n < 2 ^ 32)
    (hlarge : 32 ≤ n → lo / 2 ^ (64 - n) = hi / 2 ^ (64 - n) → lo % 2 ^ (64 - n) = 0)
    (hblock : lo / 2 ^ (64 - n) = hi / 2 ^ (64 - n)) :
    lo * 2 ^ n % 2 ^ 64 ≤ t * 2 ^ (n % 32) % 2 ^ 32 ∧ t * 2 ^ (n % 32) % 2 ^ 32 ≤ hi * 2 ^ n % 2 ^ 64 := by
  by_cases hn32 : n < 32
  · rw [Nat.mod_eq_of_lt hn32, (shl_low (by omega) hn32).2, (shl_low hlt hn32).2]
    have hmono : t * 2 ^ n ≤ hi * 2 ^ n := Nat.mul_le_mul_right _ hhi
    rcases hsmall hn32 with rfl | hfit
    · rw [Nat.zero_mul]
      exact ⟨Nat.zero_le _, (Nat.mod_le _ _).trans hmono⟩
    · rw [Nat.mod_eq_of_lt (by omega)]
      exact ⟨Nat.mul_le_mul_right _ hlo, hmono⟩
  · have hzero := hlarge (by omega) hblock
    have hwide := (shl_block hn hblock hlo hhi).2
    rw [shl_cut hn.le, hzero, Nat.zero_mul, shl_masked (by omega) hn]
    rw [shl_cut hn.le] at hwide
    have hpow : (2 : Nat) ^ (n % 32) ≤ 2 ^ n := Nat.pow_le_pow_right (by decide) (Nat.mod_le _ _)
    exact ⟨Nat.zero_le _, (Nat.mul_le_mul_left _ hpow).trans hwide⟩

theorem shl_misses (hle : lo ≤ hi) (hn : n < 32) (hlo : lo ≠ 0) (hover : 2 ^ 32 ≤ hi * 2 ^ n) :
    ∃ t, lo ≤ t ∧ t ≤ hi ∧ t * 2 ^ n % 2 ^ 32 < lo * 2 ^ n := by
  have hpos : 0 < lo * 2 ^ n := by positivity
  by_cases hcut : lo * 2 ^ n < 2 ^ 32
  · -- the first word whose shift is cut off becomes 0
    have hpow : (2 : Nat) ^ 32 = 2 ^ (32 - n) * 2 ^ n := by rw [← Nat.pow_add, Nat.sub_add_cancel hn.le]
    rw [hpow] at hcut hover
    refine ⟨2 ^ (32 - n), (Nat.lt_of_mul_lt_mul_right hcut).le, Nat.le_of_mul_le_mul_right hover (by positivity), ?_⟩
    rw [← hpow, Nat.mod_self]
    exact hpos
  · exact ⟨lo, le_refl _, hle, (Nat.mod_lt _ (by positivity)).trans_le (Nat.not_lt.mp hcut)⟩

/-- The arithmetic shift of a word with the sign keeps the upper half. -/
theorem sar_upper (ht : 2 ^ 31 ≤ t) : 2 ^ 31 ≤ shift32 .arsh t n ∧
    (0 < n → 2 ^ 31 + 2 ^ 30 ≤ shift32 .arsh t n) := by
  have hpow : (0 : Int) < 2 ^ n := by positivity
  simp only [shift32, if_neg (Nat.not_lt.mpr ht)]
  have hbase : -2 ^ 31 ≤ ((t : Int) - 2 ^ 32) / 2 ^ n := by
    rw [Int.le_ediv_iff_mul_le hpow]
    nlinarith
  refine ⟨by omega, fun hn => ?_⟩
  have htwo : (2 : Int) ≤ 2 ^ n := by
    calc (2 : Int) = 2 ^ 1 := rfl
      _ ≤ 2 ^ n := pow_le_pow_right₀ (by decide) hn
  have hhalf : -2 ^ 30 ≤ ((t : Int) - 2 ^ 32) / 2 ^ n := by
    rw [Int.le_ediv_iff_mul_le hpow]
    nlinarith
  omega

section Taken

variable {taken : Nat → Prop} (hmem : ∀ m, taken m → lo ≤ m ∧ m ≤ hi)
  (hends : ∀ m, lo ≤ m → m ≤ hi → m = lo ∨ m = hi ∨ lo ≠ 0 → taken m) (hle : lo ≤ hi) (hlt : hi < 2 ^ 32)
include hmem hends hle hlt

theorem lsh_fits_iff :
    (∀ m, taken m → if n < 64 then
        lo / 2 ^ (64 - n) = hi / 2 ^ (64 - n) →
          lo * 2 ^ n % 2 ^ 64 ≤ m * 2 ^ (n % 32) % 2 ^ 32 ∧ m * 2 ^ (n % 32) % 2 ^ 32 ≤ hi * 2 ^ n % 2 ^ 64
      else lo = hi → m * 2 ^ (n % 32) % 2 ^ 32 = 0) ↔ ShiftFits32 .lsh lo hi n := by
  have hwidth : 2 ^ 32 = 2 ^ (32 - n % 32) * 2 ^ (n % 32) := by
    rw [← Nat.pow_add, Nat.sub_add_cancel (by omega)]
  constructor
  · intro h
    refine ⟨fun hn => ?_, fun hn hn' hblock => ?_, fun hn hpoint => ?_⟩
    · by_contra hno
      rw [not_or, Nat.not_lt] at hno
      obtain ⟨m, hlo, hhi, hless⟩ := shl_misses hle hn hno.1 hno.2
      have hin := h m (hends m hlo hhi (.inr (.inr hno.1)))
      rw [if_pos (by omega), (shl_low (by omega) hn).1, (shl_low hlt hn).1, imp_iff_right rfl,
        (shl_low (by omega) hn).2, Nat.mod_eq_of_lt hn] at hin
      omega
    · have hin := h lo (hends lo (le_refl _) hle (.inl rfl))
      rw [if_pos hn', imp_iff_right hblock, shl_cut hn'.le] at hin
      -- what is left of the low end is a multiple of 2^32
      by_contra hne
      have hpow : (2 : Nat) ^ 32 ≤ 2 ^ n := Nat.pow_le_pow_right (by decide) hn
      have hge : 2 ^ n ≤ lo % 2 ^ (64 - n) * 2 ^ n := Nat.le_mul_of_pos_left _ (Nat.pos_of_ne_zero hne)
      have hcut : lo * 2 ^ (n % 32) % 2 ^ 32 < 2 ^ 32 := Nat.mod_lt _ (by positivity)
      omega
    · have hin := h lo (hends lo (le_refl _) hle (.inl rfl))
      rw [if_neg (by omega), imp_iff_right hpoint, shl_cut (by omega)] at hin
      exact (Nat.mul_eq_zero.mp hin).resolve_right (by positivity)
  · rintro ⟨hsmall, hlarge, hwide⟩ m hm
    obtain ⟨hlo, hhi⟩ := hmem m hm
    split
    · rename_i hn
      exact shl_fits hlo hhi hlt hn hsmall fun hn' => hlarge hn' hn
    · rename_i hn
      intro hpoint
      rw [show m = lo by omega, shl_cut (by omega), hwide (by omega) hpoint, Nat.zero_mul]

theorem rsh_fits_iff :
    (∀ m, taken m → if n < 64 then lo / 2 ^ n ≤ m / 2 ^ (n % 32) ∧ m / 2 ^ (n % 32) ≤ hi / 2 ^ n
      else lo = hi → m / 2 ^ (n % 32) = 0) ↔ ShiftFits32 .rsh lo hi n := by
  have hpos : 0 < 2 ^ (n % 32) := by positivity
  have hzero : ∀ m, m ≤ hi → 32 ≤ n → m / 2 ^ n = 0 := fun m hm hn =>
    Nat.div_eq_of_lt ((hm.trans_lt hlt).trans_le (Nat.pow_le_pow_right (by decide) hn))
  constructor
  · intro h hn hknown
    have hin := h hi (hends hi hle (le_refl _) (.inr (.inl rfl)))
    rw [← Nat.div_eq_zero_iff_lt hpos]
    split at hin
    · rw [hzero hi (le_refl _) hn] at hin
      exact Nat.le_zero.mp hin.2
    · exact hin (hknown.resolve_left ‹_›)
  · intro h m hm
    obtain ⟨hlo, hhi⟩ := hmem m hm
    by_cases hn : n < 32
    · rw [if_pos (by omega), Nat.mod_eq_of_lt hn]
      exact ⟨Nat.div_le_div_right hlo, Nat.div_le_div_right hhi⟩
    · have hout : (n < 64 ∨ lo = hi) → m / 2 ^ (n % 32) = 0 := fun hknown =>
        Nat.div_eq_of_lt (hhi.trans_lt (h (by omega) hknown))
      split
      · rename_i hn'
        rw [hzero lo hle (by omega), hzero hi (le_refl _) (by omega), hout (.inl hn')]
        exact ⟨le_refl _, le_refl _⟩
      · exact fun hpoint => hout (.inr hpoint)

theorem arsh_fits_iff {r : Nat → Nat} (hr : ∀ m, taken m → (r m : Int) = shift32 .arsh m (n % 32)) :
    (∀ m, taken m → if n < 64 then lo / 2 ^ n ≤ r m ∧ r m ≤ hi / 2 ^ n else lo = hi → r m = 0) ↔
      ShiftFits32 .arsh lo hi n := by
  have hpositive : ∀ m, taken m → m < 2 ^ 31 → r m = m / 2 ^ (n % 32) := by
    intro m htaken hm
    have h := hr m htaken
    simp only [shift32, if_pos hm] at h
    exact_mod_cast h
  have hsame : n = 0 → ∀ m, taken m → r m = m := by
    intro h0 m htaken
    have h := hr m htaken
    rw [h0] at h
    by_cases hsign : m < 2 ^ 31
    · rw [hpositive m htaken hsign, h0, Nat.zero_mod, Nat.pow_zero, Nat.div_one]
    · simp only [shift32, if_neg hsign, Nat.zero_mod, pow_zero, Int.ediv_one] at h
      omega
  have hlogical := rsh_fits_iff (n := n) hmem hends hle hlt
  constructor
  · intro h
    by_cases h0 : n = 0
    · exact .inl h0
    · refine .inr fun hknown => ?_
      have htop := hends hi hle (le_refl _) (.inr (.inl rfl))
      have hin := h hi htop
      have hsmall : hi < 2 ^ 31 := by
        -- the machine copies the sign, the interval does not
        by_contra hbig
        have hupper := sar_upper (n := n % 32) (Nat.not_lt.mp hbig)
        rw [← hr hi htop] at hupper
        have hhalf : n < 64 → hi / 2 ^ n < 2 ^ 31 := fun _ => by
          have htwo : (2 : Nat) ^ 1 ≤ 2 ^ n := Nat.pow_le_pow_right (by decide) (by omega)
          have hdiv : hi / 2 ^ n ≤ hi / 2 ^ 1 := Nat.div_le_div_left htwo (by decide)
          omega
        split at hin
        · have := hhalf ‹_›
          omega
        · have := hin (hknown.resolve_left ‹_›)
          omega
      refine ⟨hsmall, fun hn => hlogical.mp (fun m hm => ?_) hn hknown⟩
      have hm' := h m hm
      rwa [hpositive m hm ((hmem m hm).2.trans_lt hsmall)] at hm'
  · intro h m hm
    obtain ⟨hlo, hhi⟩ := hmem m hm
    rcases h with h0 | hfits
    · rw [if_pos (by omega), hsame h0 m hm, h0, Nat.pow_zero, Nat.div_one, Nat.div_one]
      exact ⟨hlo, hhi⟩
    · have hm' : n < 64 ∨ lo = hi → _ := fun hknown => hlogical.mpr (fun hn _ => (hfits hknown).2 hn) m hm
      have hrm : n < 64 ∨ lo = hi → r m = m / 2 ^ (n % 32) := fun hknown =>
        hpositive m hm (hhi.trans_lt (hfits hknown).1)
      split
      · rename_i hn
        have h64 := hm' (.inl hn)
        rwa [if_pos hn, ← hrm (.inl hn)] at h64
      · rename_i hn
        intro hpoint
        have h64 := hm' (.inr hpoint)
        rw [if_neg hn, ← hrm (.inr hpoint)] at h64
        exact h64 hpoint

end Taken

end Shift

section Amount

variable {k : UInt64}

theorem sar_positive (hx : x.toNat < 2 ^ 63) (hk : k.toNat < 64) : (x.toInt64 >>> k.toInt64).toUInt64 = x >>> k := by
  have hin := signed_eq x
  rw [if_pos hx] at hin
  have hshift := toInt_sar hk x.toInt64
  rw [hin] at hshift
  have hout := signed_eq (x.toInt64 >>> k.toInt64).toUInt64
  rw [Int64.toInt64_toUInt64, hshift] at hout
  have hlt := (x.toInt64 >>> k.toInt64).toUInt64.toNat_lt
  have hpos : (0 : Int) ≤ x.toNat / 2 ^ k.toNat := by positivity
  rw [← UInt64.toNat_inj, toNat_shr hk]
  have hcast : ((x.toNat / 2 ^ k.toNat : Nat) : Int) = x.toNat / 2 ^ k.toNat := by push_cast; rfl
  split at hout <;> omega

/-- On low words the arithmetic shift of the intervals is the logical one. -/
theorem rngArsh_eq (hlt : d.2.toNat < 2 ^ 32) (hle : d.1 ≤ d.2) (hk : k.toNat < 64) : rngArsh d k = rngRsh d k := by
  rw [UInt64.le_iff_toNat_le] at hle
  have hlarge : ¬ 64 ≤ k := by
    rw [UInt64.le_iff_toNat_le]
    exact Nat.not_le.mpr hk
  rw [rngArsh, rngRsh, if_neg hlarge, if_neg hlarge, sar_positive (by omega) hk, sar_positive (by omega) hk]

end Amount

theorem shiftedOut_low (hx : x.toNat < 2 ^ 32) : shiftedOut op x = 0 := by
  cases op with
  | arsh =>
    rw [← UInt64.toNat_inj]
    show (x.toInt64 >>> (63 : UInt64).toInt64).toUInt64.toNat = 0
    rw [sar_positive (by omega) (by decide), toNat_shr (by decide)]
    exact Nat.div_eq_of_lt (by rw [show (63 : UInt64).toNat = 63 from rfl]; omega)
  | _ => rfl

/-- The shift of an interval by a constant below 64. -/
def rngShift (op : AluOp) (d : Range) (k : UInt64) : Range :=
  match op with
  | .lsh => rngLsh d k
  | .rsh => rngRsh d k
  | _ => rngArsh d k

theorem rngShift_const {a k : UInt64} (hop : op.isShift = true) (hk : k.toNat < 64) :
    rngShift op (a, a) k = (foldConst op a k, foldConst op a k) := by
  have hlarge : ¬ 64 ≤ k := by
    rw [UInt64.le_iff_toNat_le]
    exact Nat.not_le.mpr hk
  cases op with
  | lsh =>
    simp only [rngShift, rngLsh, foldConst, if_neg hlarge, if_true]
    split
    · rename_i h0
      rw [h0, UInt64.shiftLeft_zero]
    · rfl
  | rsh | arsh => simp only [rngShift, rngRsh, rngArsh, foldConst, if_neg hlarge]
  | _ => cases hop

theorem aluRange_amount (hop : op.isShift = true) (hconst : s.1 = s.2) (hk : s.1.toNat < 64) :
    aluRange op d s = rngShift op d s.1 := by
  have hknown : ¬ (s.1 ≠ s.2 ∨ 64 ≤ s.1) := by
    rw [not_or, not_not, UInt64.le_iff_toNat_le]
    exact ⟨hconst, Nat.not_le.mpr hk⟩
  unfold aluRange
  split
  · rename_i hpoint
    rw [← rngShift_const hop hk]
    congr 1
    exact Prod.ext rfl hpoint.1
  · cases op with
    | lsh | rsh | arsh => simp only [shiftRange, if_neg hknown, rngShift]
    | _ => cases hop

theorem aluRange_unknown (hop : op.isShift = true) (hpoint : ¬ (d.1 = d.2 ∧ s.1 = s.2))
    (hunknown : s.1 ≠ s.2 ∨ 64 ≤ s.1) : aluRange op d s = full := by
  unfold aluRange
  rw [if_neg hpoint]
  cases op with
  | lsh | rsh | arsh => simp only [shiftRange, if_pos hunknown]
  | _ => cases hop

/-- The interval of a shift of low words: nothing is known of it if the amount is unknown, or
    is 64 or more on an unknown word. -/
theorem aluRange_shift (hop : op.isShift = true) (hlt : d.2.toNat < 2 ^ 32) (hle : d.1 ≤ d.2) :
    InUnsigned (aluRange op d s) w ↔ (s.1 = s.2 →
      if s.1.toNat < 64 then
        if op = .lsh then
          d.1.toNat / 2 ^ (64 - s.1.toNat) = d.2.toNat / 2 ^ (64 - s.1.toNat) →
            d.1.toNat * 2 ^ s.1.toNat % 2 ^ 64 ≤ w.toNat ∧ w.toNat ≤ d.2.toNat * 2 ^ s.1.toNat % 2 ^ 64
        else d.1.toNat / 2 ^ s.1.toNat ≤ w.toNat ∧ w.toNat ≤ d.2.toNat / 2 ^ s.1.toNat
      else d.1 = d.2 → w.toNat = 0) := by
  by_cases hconst : s.1 = s.2
  · rw [imp_iff_right hconst]
    split
    · rename_i hk
      rw [aluRange_amount hop hconst hk]
      cases op with
      | lsh => exact rngLsh_iff hk
      | rsh => exact rngRsh_iff hk
      | arsh =>
        show InUnsigned (rngArsh d s.1) w ↔ _
        rw [rngArsh_eq hlt hle hk]
        exact rngRsh_iff hk
      | _ => cases hop
    · rename_i hk
      have hlarge : 64 ≤ s.1 := by
        rw [UInt64.le_iff_toNat_le]
        exact Nat.not_lt.mp hk
      by_cases hpoint : d.1 = d.2
      · have hout : aluRange op d s = (0, 0) := by
          unfold aluRange
          rw [if_pos ⟨hpoint, hconst⟩, foldConst_large hop hlarge, shiftedOut_low (hpoint ▸ hlt)]
        rw [hout, inUnsigned_point, imp_iff_right hpoint, ← UInt64.toNat_inj, UInt64.toNat_zero]
      · rw [aluRange_unknown hop (fun h => hpoint h.1) (.inr hlarge)]
        exact ⟨fun _ h => absurd h hpoint, fun _ => inUnsigned_full _⟩
  · rw [aluRange_unknown hop (fun h => hconst h.2) (.inl hconst)]
    exact ⟨fun _ h => absurd h hconst, fun _ => inUnsigned_full _⟩

/-- All shifts of the low words in an interval are in the interval of the shift exactly if it
    fits. The only low words that are needed are ends, or in an interval off 0. -/
theorem shiftFits32_iff (hop : op.isShift = true) (hlt : d.2.toNat < 2 ^ 32) (hle : d.1 ≤ d.2) (hconst : s.1 = s.2)
    {taken : UInt64 → Prop} (htaken : ∀ t, taken t → InUnsigned d t)
    (hends : ∀ t, InUnsigned d t → t = d.1 ∨ t = d.2 ∨ d.1 ≠ 0 → taken t) {f : UInt64 → UInt64}
    (hf : ∀ t, taken t → ((f t).toNat : Int) = shift32 op t.toNat (s.1.toNat % 32)) :
    (∀ t, taken t → InUnsigned (aluRange op d s) (f t)) ↔ ShiftFits32 op d.1.toNat d.2.toNat s.1.toNat := by
  have hle' := UInt64.le_iff_toNat_le.mp hle
  have hmem : ∀ m, taken (UInt64.ofNat m) ∧ m < 2 ^ 64 → d.1.toNat ≤ m ∧ m ≤ d.2.toNat := by
    intro m hm
    have hin := inUnsigned_iff.mp (htaken _ hm.1)
    rwa [toNat_ofNat_lt hm.2] at hin
  have hends' : ∀ m, d.1.toNat ≤ m → m ≤ d.2.toNat → m = d.1.toNat ∨ m = d.2.toNat ∨ d.1.toNat ≠ 0 →
      taken (UInt64.ofNat m) ∧ m < 2 ^ 64 := by
    intro m hlo hhi hm
    have hof : (UInt64.ofNat m).toNat = m := toNat_ofNat_lt (by omega)
    refine ⟨hends _ (inUnsigned_iff.mpr (by rw [hof]; exact ⟨hlo, hhi⟩)) ?_, by omega⟩
    rw [← UInt64.toNat_inj, ← UInt64.toNat_inj, hof, Ne, ← UInt64.toNat_inj]
    exact hm
  have hwords : ∀ P : UInt64 → Prop,
      (∀ t, taken t → P t) ↔ ∀ m, taken (UInt64.ofNat m) ∧ m < 2 ^ 64 → P (UInt64.ofNat m) := fun P =>
    ⟨fun h m hm => h _ hm.1, fun h t ht => by
      have hof := h t.toNat
      rw [UInt64.ofNat_toNat] at hof
      exact hof ⟨ht, t.toNat_lt⟩⟩
  simp only [aluRange_shift hop hlt hle, imp_iff_right hconst, ← UInt64.toNat_inj (a := d.1)]
  rw [hwords]
  have hf' : ∀ m, taken (UInt64.ofNat m) ∧ m < 2 ^ 64 →
      ((f (UInt64.ofNat m)).toNat : Int) = shift32 op m (s.1.toNat % 32) := fun m hm => by
    rw [hf _ hm.1, toNat_ofNat_lt hm.2]
  cases op with
  | lsh =>
    rw [← lsh_fits_iff hmem hends' hle' hlt]
    refine forall₂_congr fun m hm => ?_
    have hm' := hf' m hm
    simp only [shift32, Nat.cast_inj] at hm'
    rw [hm', if_pos rfl]
  | rsh =>
    rw [← rsh_fits_iff hmem hends' hle' hlt]
    refine forall₂_congr fun m hm => ?_
    have hm' := hf' m hm
    simp only [shift32, Nat.cast_inj] at hm'
    simp only [reduceCtorEq, if_false, hm']
  | arsh =>
    rw [← arsh_fits_iff hmem hends' hle' hlt hf']
    simp only [reduceCtorEq, if_false]
  | _ => cases hop

/-! ## 32-bit operations -/

/-- When the interval of a 32-bit operation on the low words contains all results: a known
    product is not cut off, no known word but 0 is negated, and a shift fits. -/
def Fits32 (op : AluOp) (d s : Range) : Prop :=
  match op with
  | .mul => d.1 = d.2 → s.1 = s.2 → d.1.toNat * s.1.toNat < 2 ^ 32
  | .neg => d.1 = d.2 → s.1 = s.2 → d.1 = 0
  | .lsh | .rsh | .arsh => s.1 = s.2 → ShiftFits32 op d.1.toNat d.2.toNat s.1.toNat
  | _ => True

theorem truncate32_low (x : UInt64) : truncate32 (truncate32 x) = truncate32 x :=
  truncate32_small (by rw [truncate32_toNat]; omega)

/-- An operand that is known has that low word. -/
theorem range32_const (hx : InUnsigned d x) (hconst : (range32 d).1 = (range32 d).2) : truncate32 x = (range32 d).1 := by
  have hin := range32_contains hx
  exact UInt64.le_antisymm (hconst ▸ hin.2) hin.1

theorem alu32_shift_iff (hop : op.isShift = true) (hd : d.1 ≤ d.2) (hs : s.1 ≤ s.2) :
    (∀ x y, InUnsigned d x → InUnsigned s y → InUnsigned (aluRange op (range32 d) (range32 s)) (aluConst32 op x y)) ↔
      ((range32 s).1 = (range32 s).2 →
        ShiftFits32 op (range32 d).1.toNat (range32 d).2.toNat (range32 s).1.toNat) := by
  by_cases hconst : (range32 s).1 = (range32 s).2
  · rw [imp_iff_right hconst]
    have hlow : truncate32 (range32 s).1 = (range32 s).1 := by
      rw [← range32_const ⟨UInt64.le_refl _, hs⟩ hconst, truncate32_low]
    have hsame : ∀ x y, InUnsigned s y → aluConst32 op x y = aluConst32 op (truncate32 x) (range32 s).1 := by
      intro x y hy
      rw [← UInt64.toNat_inj, ← Nat.cast_inj (R := Int), aluConst32_shift hop, aluConst32_shift hop, truncate32_low,
        range32_const hy hconst, hlow]
    have htaken : ∀ t, (∃ x, InUnsigned d x ∧ truncate32 x = t) → InUnsigned (range32 d) t := by
      rintro t ⟨x, hx, rfl⟩
      exact range32_contains hx
    have hf : ∀ t, (∃ x, InUnsigned d x ∧ truncate32 x = t) →
        ((aluConst32 op t (range32 s).1).toNat : Int) = shift32 op t.toNat ((range32 s).1.toNat % 32) := by
      rintro t ⟨x, hx, rfl⟩
      rw [aluConst32_shift hop, truncate32_low, hlow]
    rw [← shiftFits32_iff hop range32_lt (range32_le hd) hconst htaken (fun t ht hend => range32_attains hd ht hend) hf]
    constructor
    · rintro h t ⟨x, hx, rfl⟩
      have hin := h x s.1 hx ⟨UInt64.le_refl _, hs⟩
      rwa [hsame x s.1 ⟨UInt64.le_refl _, hs⟩] at hin
    · intro h x y hx hy
      rw [hsame x y hy]
      exact h (truncate32 x) ⟨x, hx, rfl⟩
  · rw [aluRange_unknown hop (fun h => hconst h.2) (.inl hconst)]
    exact ⟨fun _ h => absurd h hconst, fun _ _ _ _ _ => inUnsigned_full _⟩

/-- Products and negations are those of the wide words; only constants are tracked. -/
theorem alu32_wide_iff (hop : op = .mul ∨ op = .neg) (hd : d.1 ≤ d.2) (hs : s.1 ≤ s.2) :
    (∀ x y, InUnsigned d x → InUnsigned s y → InUnsigned (aluRange op (range32 d) (range32 s)) (aluConst32 op x y)) ↔
      ((range32 d).1 = (range32 d).2 → (range32 s).1 = (range32 s).2 →
        (aluConst64 op (range32 d).1 (range32 s).1).toNat < 2 ^ 32) := by
  have hshift : op.isShift = false := by rcases hop with rfl | rfl <;> rfl
  by_cases hpoint : (range32 d).1 = (range32 d).2 ∧ (range32 s).1 = (range32 s).2
  · have hout : aluRange op (range32 d) (range32 s) =
        (aluConst64 op (range32 d).1 (range32 s).1, aluConst64 op (range32 d).1 (range32 s).1) := by
      unfold aluRange
      rw [if_pos hpoint, foldConst_eq hshift]
    have hval : ∀ x y, InUnsigned d x → InUnsigned s y →
        aluConst32 op x y = truncate32 (aluConst64 op (range32 d).1 (range32 s).1) := by
      intro x y hx hy
      rw [aluConst32_low hshift, range32_const hx hpoint.1, range32_const hy hpoint.2]
    rw [hout, imp_iff_right hpoint.1, imp_iff_right hpoint.2]
    constructor
    · intro h
      have hin := inUnsigned_point.mp (h d.1 s.1 ⟨UInt64.le_refl _, hd⟩ ⟨UInt64.le_refl _, hs⟩)
      rw [hval d.1 s.1 ⟨UInt64.le_refl _, hd⟩ ⟨UInt64.le_refl _, hs⟩] at hin
      rw [← hin, truncate32_toNat]
      exact Nat.mod_lt _ (by decide)
    · intro h x y hx hy
      rw [hval x y hx hy, truncate32_small h]
      exact inUnsigned_point.mpr rfl
  · have hout : aluRange op (range32 d) (range32 s) = full := by
      unfold aluRange
      rw [if_neg hpoint]
      rcases hop with rfl | rfl
      · dsimp only
        rw [rngMul, if_neg hpoint]
      · rfl
    rw [hout]
    exact ⟨fun _ h1 h2 => absurd ⟨h1, h2⟩ hpoint, fun _ _ _ _ _ => inUnsigned_full _⟩

/-- The interval of the 32-bit operation contains all results exactly if the low words fit. -/
theorem alu32Range_iff (hd : d.1 ≤ d.2) (hs : s.1 ≤ s.2) :
    (∀ x y, InUnsigned d x → InUnsigned s y →
      InUnsigned (foldRange32 op (aluRange op (range32 d) (range32 s))) (aluConst32 op x y)) ↔
      Fits32 op (range32 d) (range32 s) := by
  have hdlt : (range32 d).1.toNat < 2 ^ 32 :=
    (UInt64.le_iff_toNat_le.mp (range32_le hd)).trans_lt range32_lt
  have hslt : (range32 s).1.toNat < 2 ^ 32 :=
    (UInt64.le_iff_toNat_le.mp (range32_le hs)).trans_lt range32_lt
  have hwide : op.isShift = false → ∀ x y, InUnsigned d x → InUnsigned s y →
      InUnsigned (aluRange op (range32 d) (range32 s)) (aluConst64 op (truncate32 x) (truncate32 y)) :=
    fun hop x y hx hy => (aluRange_iff (range32_le hd) (range32_le hs)).mpr
      (fun h => absurd (hop.symm.trans h) (by decide)) _ _ (range32_contains hx) (range32_contains hy)
  cases op with
  | add | sub =>
    refine iff_of_true (fun x y hx hy => ?_) trivial
    rw [aluConst32_low rfl]
    exact foldRange32_contains (by decide) (hwide rfl x y hx hy)
  | and | or | xor | div | mod =>
    refine iff_of_true (fun x y hx hy => ?_) trivial
    rw [foldRange32_other (by decide), aluConst32_low rfl, truncate32_small]
    · exact hwide rfl x y hx hy
    · exact aluConst64_low (by rw [truncate32_toNat]; omega) (by rw [truncate32_toNat]; omega) (by decide)
  | lsh | rsh | arsh =>
    rw [foldRange32_other (by decide)]
    exact alu32_shift_iff rfl hd hs
  | mul =>
    rw [foldRange32_other (by decide), alu32_wide_iff (.inl rfl) hd hs]
    have hprod := Nat.mul_lt_mul'' hdlt hslt
    simp only [aluConst64, Fits32, UInt64.toNat_mul]
    rw [Nat.mod_eq_of_lt (by omega)]
  | neg =>
    rw [foldRange32_other (by decide), alu32_wide_iff (.inr rfl) hd hs]
    simp only [aluConst64, Fits32, ← UInt64.toNat_inj (a := (range32 d).1) (b := 0), UInt64.toNat_sub,
      UInt64.toNat_zero]
    refine imp_congr_right fun _ => imp_congr_right fun _ => ?_
    omega

/-! ## The 32-bit move -/

/-- The 32-bit move keeps the interval of the low words if it lies in one window of 2^32, or
    its first low word is 0. -/
theorem mov32_iff (hd : d.1 ≤ d.2) :
    (∀ x, InUnsigned d x → InUnsigned (truncate32 d.1, min d.2 0xffffffff) (truncate32 x)) ↔
      d.1.toNat / 2 ^ 32 = d.2.toNat / 2 ^ 32 ∨ d.1.toNat % 2 ^ 32 = 0 := by
  rw [UInt64.le_iff_toNat_le] at hd
  have hlt := d.2.toNat_lt
  have hmin : (min d.2 0xffffffff).toNat = min d.2.toNat (2 ^ 32 - 1) := ScalarBounds.toNat_min _ _
  constructor
  · intro h
    by_contra hno
    rw [not_or] at hno
    -- the first word of the next window
    have hof : (UInt64.ofNat ((d.1.toNat / 2 ^ 32 + 1) * 2 ^ 32)).toNat = (d.1.toNat / 2 ^ 32 + 1) * 2 ^ 32 :=
      toNat_ofNat_lt (by omega)
    have hin := h (UInt64.ofNat ((d.1.toNat / 2 ^ 32 + 1) * 2 ^ 32)) (inUnsigned_iff.mpr (by rw [hof]; omega))
    rw [inUnsigned_iff, truncate32_toNat, truncate32_toNat, hof, hmin] at hin
    omega
  · intro h x hx
    rw [inUnsigned_iff] at hx
    rw [inUnsigned_iff, truncate32_toNat, truncate32_toNat, hmin]
    omega

end Low

/-! ## The steps -/

section Step

variable {st : SpecState} {d s : Range} {dst : Reg} {rhs : Rhs}

theorem rhsValue_range (pc : Nat) (text : String) (hrhs : rhs.get st = .ofRange s) :
    rhsValue st pc text rhs = .ok (.ofRange s) := by
  cases rhs with
  | imm v => exact congrArg Except.ok hrhs
  | reg r =>
    replace hrhs : st.reg r = .ofRange s := hrhs
    simp only [rhsValue, hrhs, SpecValue.ofRange, reduceCtorEq, if_false]

theorem ofRange_written (r : Range) : SpecValue.ofRange r ≠ .uninit := nofun

theorem alu64_range (pc : Nat) (op : AluOp) (hdst : st.reg dst = .ofRange d) (hrhs : rhs.get st = .ofRange s) :
    alu64 st pc dst op rhs = .ok (st.setReg dst (.ofRange (aluRange op d s))) := by
  unfold alu64
  rw [hdst, require, if_pos (ofRange_written d), rhsValue_range pc "ALU" hrhs]
  rfl

theorem alu32_range (pc : Nat) (op : AluOp) (hdst : st.reg dst = .ofRange d) (hrhs : rhs.get st = .ofRange s) :
    alu32 st pc dst op rhs =
      .ok (st.setReg dst (.ofRange (foldRange32 op (aluRange op (range32 d) (range32 s))))) := by
  unfold alu32
  rw [hdst, require, if_pos (ofRange_written d), require, if_pos (show (SpecValue.ofRange d).isPointer = false from rfl),
    rhsValue_range pc "ALU32" hrhs]
  rfl

/-- A step leaves an interval that contains all results exactly if its operands fit. -/
theorem alu_intervals (env : Env) (pc : Nat) (op : AluOp) (dst' : Reg) (hd : d.1 ≤ d.2) (hs : s.1 ≤ s.2)
    (hdst : st.reg dst = .ofRange d) (hrhs : rhs.get st = .ofRange s) :
    (∃ out, alu64 st pc dst op rhs = .ok (st.setReg dst (.ofRange out)) ∧
      ((∀ x y, InUnsigned d x → InUnsigned s y → InUnsigned out (aluConst64 op x y)) ↔ Fits64 op d s)) ∧
    (∃ out, alu32 st pc dst op rhs = .ok (st.setReg dst (.ofRange out)) ∧
      ((∀ x y, InUnsigned d x → InUnsigned s y → InUnsigned out (aluConst32 op x y)) ↔
        Fits32 op (range32 d) (range32 s))) ∧
    ∃ out, stepPlain env pc st (.mov32Reg dst' dst) = .ok [(pc + 1, st.setReg dst' (.ofRange out))] ∧
      ((∀ x, InUnsigned d x → InUnsigned out (truncate32 x)) ↔
        d.1.toNat / 2 ^ 32 = d.2.toNat / 2 ^ 32 ∨ d.1.toNat % 2 ^ 32 = 0) := by
  refine ⟨⟨_, alu64_range pc op hdst hrhs, aluRange_iff hd hs⟩, ⟨_, alu32_range pc op hdst hrhs, alu32Range_iff hd hs⟩,
    (truncate32 d.1, min d.2 0xffffffff), ?_, mov32_iff hd⟩
  simp only [stepPlain, hdst]
  rfl

end Step

/-- The word 2^31, and a state that has it in R1. -/
def highBit : Range := (0x80000000, 0x80000000)

def highBitState : SpecState := SpecState.initial.setReg 1 (.ofRange highBit)

theorem alu_intervals_shift :
    (∃ out, alu64 highBitState 0 1 .lsh (.imm 1) = .ok (highBitState.setReg 1 (.ofRange out)) ∧
      ((∀ x y, InUnsigned highBit x → InUnsigned (1, 1) y → InUnsigned out (aluConst64 .lsh x y)) ↔
        Fits64 .lsh highBit (1, 1))) ∧
    (∃ out, alu32 highBitState 0 1 .lsh (.imm 1) = .ok (highBitState.setReg 1 (.ofRange out)) ∧
      ((∀ x y, InUnsigned highBit x → InUnsigned (1, 1) y → InUnsigned out (aluConst32 .lsh x y)) ↔
        Fits32 .lsh (range32 highBit) (range32 (1, 1)))) ∧
    ∃ out, stepPlain ⟨[], fun _ => none, .xdp⟩ 0 highBitState (.mov32Reg 2 1) =
        .ok [(0 + 1, highBitState.setReg 2 (.ofRange out))] ∧
      ((∀ x, InUnsigned highBit x → InUnsigned out (truncate32 x)) ↔
        highBit.1.toNat / 2 ^ 32 = highBit.2.toNat / 2 ^ 32 ∨ highBit.1.toNat % 2 ^ 32 = 0) :=
  @alu_intervals highBitState highBit (1, 1) 1 (.imm 1) ⟨[], fun _ => none, .xdp⟩ 0 .lsh 2 (by decide) (by decide) rfl rfl

/-- The 32-bit left shift of 2^31 by 1 is 0; the verifier has it as 2^32. -/
theorem lost_carry : ¬ ∀ (st : SpecState) (d s out : Range) (dst : Reg) (op : AluOp) (rhs : Rhs) (x y : UInt64),
    d.1 ≤ d.2 → s.1 ≤ s.2 → st.reg dst = .ofRange d → rhs.get st = .ofRange s → InUnsigned d x → InUnsigned s y →
    alu32 st 0 dst op rhs = .ok (st.setReg dst (.ofRange out)) → InUnsigned out (aluConst32 op x y) := by
  intro h
  have hstep : alu32 highBitState 0 1 .lsh (.imm 1) = .ok (highBitState.setReg 1 (.ofRange (2 ^ 32, 2 ^ 32))) :=
    @alu32_range highBitState highBit (1, 1) 1 (.imm 1) 0 .lsh rfl rfl
  have hin := h highBitState highBit (1, 1) (2 ^ 32, 2 ^ 32) 1 .lsh (.imm 1) 0x80000000 1 (by decide) (by decide) rfl rfl
    ⟨by decide, by decide⟩ ⟨by decide, by decide⟩ hstep
  exact absurd hin.1 (by decide)

end RandVerifier.Spec
