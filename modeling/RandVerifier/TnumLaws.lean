/-
  RandVerifier.TnumLaws — the laws of the tracked numbers (`src/tnum.rs`).

  A tracked number is well formed when its value has no bit under the mask. Union and
  multiplication are compiled for the solver only and stand here. The loop of `mul` is long
  multiplication over the bits of `a`: it shifts `a` right and `b` left, and where the low
  bit of `a` is unknown it joins both partial products.

  Proved:
  - `operators_sound`: every operator contains the concrete results on all members and keeps
    well-formedness, and `subsumes` decides inclusion;
  - `mul_sound`: the loop of `mul` ends after at most 64 rounds with a well-formed number
    that contains every product. The invariant is `Partial`: what the accumulator has, plus
    the product of what is left, is the product of the operands.
-/

import RandVerifier.Alu32Sound

namespace RandVerifier.Tnum

open KnownBits

/-- The value has no unknown bit. -/
def WellFormed (t : Tnum) : Prop := t.value &&& t.mask = 0

/-- The smallest tracked number containing both. -/
def union (a b : Tnum) : Tnum :=
  let v := a.value &&& b.value
  let mu := (a.value ^^^ b.value) ||| a.mask ||| b.mask
  ⟨v &&& ~~~mu, mu⟩

/-- The variables of the loop of `mul`. -/
structure MulState where
  acc : Tnum
  a : Tnum
  b : Tnum

namespace MulState

def running (s : MulState) : Bool := s.a.value != 0 || s.a.mask != 0

/-- The loop's body. -/
def round (s : MulState) : MulState where
  acc :=
    if s.a.value &&& 1 ≠ 0 then s.acc.add s.b
    else if s.a.mask &&& 1 ≠ 0 then s.acc.union (s.acc.add s.b)
    else s.acc
  a := s.a.rshift 1
  b := s.b.lshift 1

theorem toNat_half (x : UInt64) : (shrOrZero x 1).toNat = x.toNat / 2 := by
  show (shrOrZero x 1).toBitVec.toNat = _
  rw [shrOrZero_eq x (by omega), BitVec.toNat_ushiftRight, Nat.shiftRight_eq_div_pow]
  rfl

theorem running_iff (s : MulState) : s.running = true ↔ s.a.value.toNat ≠ 0 ∨ s.a.mask.toNat ≠ 0 := by
  rw [running, Bool.or_eq_true, bne_iff_ne, bne_iff_ne, ne_eq, ne_eq, ← UInt64.toNat_inj, ← UInt64.toNat_inj]
  rfl

def loop (s : MulState) : Tnum := if s.running = true then s.round.loop else s.acc
termination_by s.a.value.toNat + s.a.mask.toNat
decreasing_by
  rename_i h
  rw [running_iff] at h
  show (shrOrZero s.a.value 1).toNat + (shrOrZero s.a.mask 1).toNat < _
  rw [toNat_half, toNat_half]
  omega

end MulState

def mul (a b : Tnum) : Tnum := MulState.loop ⟨constant 0, a, b⟩

/-! ## The operators -/

theorem wellFormed_iff {t : Tnum} : t.WellFormed ↔ t.Normal := by
  rw [WellFormed, Tnum.Normal, normal_iff, ← UInt64.toBitVec_inj]
  rfl

variable {a b : Tnum} {x y : UInt64}

theorem union_contains_left (hx : a.Contains x) : (a.union b).Contains x := by
  apply contains_clear
  simpa only [UInt64.toBitVec_and, UInt64.toBitVec_or, UInt64.toBitVec_xor] using
    agrees_join b.value.toBitVec b.mask.toBitVec (contains_iff.mp hx)

theorem union_comm (a b : Tnum) : a.union b = b.union a := by
  simp only [union, UInt64.and_comm a.value, UInt64.xor_comm a.value, UInt64.or_assoc, UInt64.or_comm a.mask]

theorem union_contains_right (hx : b.Contains x) : (a.union b).Contains x := by
  rw [union_comm]
  exact union_contains_left hx

theorem normal_union : (a.union b).Normal := normal_clear _ _

theorem subsumes_iff : a.subsumes b = true ↔ ∀ x, b.Contains x → a.Contains x := by
  have hset : (∀ x, b.Contains x → a.Contains x) ↔
      ∀ x, Agrees b.value.toBitVec b.mask.toBitVec x → Agrees a.value.toBitVec a.mask.toBitVec x :=
    ⟨fun h x => by simpa only [contains_iff] using h ⟨x⟩, fun h x => by simpa only [contains_iff] using h x.toBitVec⟩
  rw [hset, agrees_subset_iff, subsumes, Bool.and_eq_true, beq_iff_eq, beq_iff_eq, ← UInt64.toBitVec_inj,
    ← UInt64.toBitVec_inj]
  rfl

/-- `r` is well formed and contains `op` of all members of `a` and `b`. -/
def Follows (a b r : Tnum) (op : UInt64 → UInt64 → UInt64) : Prop :=
  r.WellFormed ∧ ∀ x y, a.Contains x → b.Contains y → r.Contains (op x y)

/-- `r` is well formed and contains `op` of all members of `a`. -/
def Maps (a r : Tnum) (op : UInt64 → UInt64) : Prop := r.WellFormed ∧ ∀ x, a.Contains x → r.Contains (op x)

structure OperatorsSound (a b : Tnum) : Prop where
  add : Follows a b (a.add b) (· + ·)
  sub : Follows a b (a.sub b) (· - ·)
  and : Follows a b (a.and b) (· &&& ·)
  or : Follows a b (a.or b) (· ||| ·)
  xor : Follows a b (a.xor b) (· ^^^ ·)
  lshift : ∀ k < 64, Maps a (a.lshift k) (· <<< UInt64.ofNat k)
  rshift : ∀ k < 64, Maps a (a.rshift k) (· >>> UInt64.ofNat k)
  arshift : ∀ k < 64, Maps a (a.arshift k) fun x => (x.toInt64 >>> Int64.ofNat k).toUInt64
  subreg : Maps a a.subreg fun x => x.toUInt32.toUInt64
  fromRange : ∀ lo hi, (fromRange lo hi).WellFormed ∧ ∀ x, lo ≤ x → x ≤ hi → (Tnum.fromRange lo hi).Contains x
  intersect : (a.intersect b).WellFormed ∧ ∀ x, a.Contains x → b.Contains x → (a.intersect b).Contains x
  union : (a.union b).WellFormed ∧ ∀ x, a.Contains x ∨ b.Contains x → (a.union b).Contains x
  subsumes : a.subsumes b = true ↔ ∀ x, b.Contains x → a.Contains x

/-- Every operator contains the concrete results on the members of well-formed numbers. -/
theorem operators_sound (ha : a.WellFormed) (hb : b.WellFormed) : OperatorsSound a b := by
  have hna := wellFormed_iff.mp ha
  have hnb := wellFormed_iff.mp hb
  constructor
  · exact ⟨wellFormed_iff.mpr (normal_clear _ _), fun _ _ hx hy => add_contains hna hnb hx hy⟩
  · exact ⟨wellFormed_iff.mpr (normal_clear _ _), fun _ _ hx hy => sub_contains hna hnb hx hy⟩
  · exact ⟨wellFormed_iff.mpr normal_and, fun _ _ hx hy => and_contains hna hnb hx hy⟩
  · exact ⟨wellFormed_iff.mpr normal_or, fun _ _ hx hy => or_contains hx hy⟩
  · exact ⟨wellFormed_iff.mpr (normal_clear _ _), fun _ _ hx hy => xor_contains hx hy⟩
  · exact fun k hk => ⟨wellFormed_iff.mpr (normal_lshift hna hk), fun _ hx => lshift_contains hx hk⟩
  · exact fun k hk => ⟨wellFormed_iff.mpr (normal_rshift hna hk), fun _ hx => rshift_contains hx hk⟩
  · exact fun k hk => ⟨wellFormed_iff.mpr (normal_arshift hna hk), fun _ hx => arshift_contains hx hk⟩
  · exact ⟨wellFormed_iff.mpr (normal_subreg hna), fun _ hx => subreg_contains hx⟩
  · exact fun lo hi => ⟨wellFormed_iff.mpr normal_fromRange, fun _ => fromRange_contains⟩
  · exact ⟨wellFormed_iff.mpr normal_intersect, fun _ => intersect_contains hna hnb⟩
  · refine ⟨wellFormed_iff.mpr normal_union, fun _ h => ?_⟩
    rcases h with hx | hx
    · exact union_contains_left hx
    · exact union_contains_right hx
  · exact subsumes_iff

theorem operators_sound_unknown_bit : (add ⟨2, 1⟩ (constant 3)).Contains 6 :=
  (operators_sound (a := ⟨2, 1⟩) (b := constant 3) (by unfold WellFormed; decide) (by unfold WellFormed; decide)).add.2
    3 3 (by unfold Tnum.Contains; decide) (by unfold Tnum.Contains; decide)

/-! ## Multiplication -/

theorem low_bit (x : UInt64) : x &&& 1 ≠ 0 ↔ x.toBitVec.getLsbD 0 = true := by
  rw [ne_eq, ← UInt64.toNat_inj, UInt64.toNat_and]
  show ¬ x.toNat &&& 1 = 0 ↔ x.toNat.testBit 0 = true
  rw [Nat.and_one_is_mod, Nat.testBit_zero, decide_eq_true_iff]
  omega

theorem odd_iff (x : UInt64) : x.toBitVec.getLsbD 0 = true ↔ x.toNat % 2 = 1 := by
  show x.toNat.testBit 0 = true ↔ _
  rw [Nat.testBit_zero, decide_eq_true_iff]

theorem toNat_shr_one (x : UInt64) : (x >>> UInt64.ofNat 1).toNat = x.toNat / 2 := by
  rw [UInt64.toNat_shiftRight, Nat.shiftRight_eq_div_pow]
  rfl

theorem shl_one (y : UInt64) : y <<< UInt64.ofNat 1 = 2 * y := by
  rw [← UInt64.toNat_inj, UInt64.toNat_shiftLeft, UInt64.toNat_mul, Nat.shiftLeft_eq, Nat.mul_comm]
  rfl

theorem halve (x : UInt64) : x = 2 * (x >>> UInt64.ofNat 1) + if x.toNat % 2 = 1 then 1 else 0 := by
  have hx := x.toNat_lt
  rw [← UInt64.toNat_inj, UInt64.toNat_add, UInt64.toNat_mul, toNat_shr_one]
  split
  · show x.toNat = (2 * (x.toNat / 2) % 2 ^ 64 + 1) % 2 ^ 64
    omega
  · show x.toNat = (2 * (x.toNat / 2) % 2 ^ 64 + 0) % 2 ^ 64
    omega

/-- One step of long multiplication. -/
theorem mul_halve (x y : UInt64) :
    x * y = (if x.toNat % 2 = 1 then y else 0) + (x >>> UInt64.ofNat 1) * (y <<< UInt64.ofNat 1) := by
  have hhalf := halve x
  rw [shl_one]
  generalize x >>> UInt64.ofNat 1 = h at hhalf ⊢
  split at hhalf
  · rename_i hodd
    rw [if_pos hodd]
    calc x * y = (2 * h + 1) * y := by rw [← hhalf]
      _ = y + h * (2 * y) := by grind
  · rename_i heven
    rw [if_neg heven]
    calc x * y = (2 * h + 0) * y := by rw [← hhalf]
      _ = 0 + h * (2 * y) := by grind

namespace MulState

/-- The accumulator has a part of `z`, and the rest is the product of members of `a` and `b`. -/
def Partial (s : MulState) (z : UInt64) : Prop :=
  ∃ p x y, s.acc.Contains p ∧ s.a.Contains x ∧ s.b.Contains y ∧ p + x * y = z

/-- The numbers of the loop stay well formed. -/
structure Normal (s : MulState) : Prop where
  acc : s.acc.Normal
  a : s.a.Normal
  b : s.b.Normal

variable {s : MulState} {z : UInt64}

theorem normal_round (h : s.Normal) : s.round.Normal := by
  refine ⟨?_, normal_rshift h.a (by omega), normal_lshift h.b (by omega)⟩
  show (if _ then _ else _ : Tnum).Normal
  split
  · exact normal_clear _ _
  · split
    · exact normal_union
    · exact h.acc

/-- What the round adds to the accumulator for a member of `a`. -/
theorem round_acc_contains (hn : s.Normal) {p x y : UInt64} (hp : s.acc.Contains p) (hx : s.a.Contains x)
    (hy : s.b.Contains y) : s.round.acc.Contains (p + if x.toNat % 2 = 1 then y else 0) := by
  have hsum := add_contains hn.acc hn.b hp hy
  have hlow := contains_iff.mp hx 0 (by omega)
  show (if _ then _ else _ : Tnum).Contains _
  by_cases hone : s.a.value.toBitVec.getLsbD 0 = true
  · -- a known one
    rw [if_pos ((low_bit _).mpr hone)]
    have hodd : x.toNat % 2 = 1 := by
      rw [← odd_iff, hlow (hn.a 0 (by omega) hone)]
      exact hone
    rw [if_pos hodd]
    exact hsum
  · rw [if_neg (mt (low_bit _).mp hone)]
    by_cases hunknown : s.a.mask.toBitVec.getLsbD 0 = true
    · rw [if_pos ((low_bit _).mpr hunknown)]
      split
      · exact union_contains_right hsum
      · rw [UInt64.add_zero]
        exact union_contains_left hp
    · -- a known zero
      rw [if_neg (mt (low_bit _).mp hunknown)]
      have heven : ¬ x.toNat % 2 = 1 := by
        rw [← odd_iff, hlow (Bool.eq_false_iff.mpr hunknown)]
        exact hone
      rw [if_neg heven, UInt64.add_zero]
      exact hp

theorem partial_round (hn : s.Normal) (h : s.Partial z) : s.round.Partial z := by
  obtain ⟨p, x, y, hp, hx, hy, hz⟩ := h
  refine ⟨_, _, _, round_acc_contains hn hp hx hy, rshift_contains hx (by omega), lshift_contains hy (by omega), ?_⟩
  rw [UInt64.add_assoc, ← mul_halve, hz]

/-- When `a` is used up nothing is left of the product. -/
theorem partial_done (h : s.Partial z) (hend : s.running = false) : s.acc.Contains z := by
  obtain ⟨p, x, y, hp, hx, -, hz⟩ := h
  rw [running, Bool.or_eq_false_iff, bne_eq_false_iff_eq, bne_eq_false_iff_eq] at hend
  have hx0 : x = 0 := by
    rw [Tnum.Contains, hend.1, hend.2] at hx
    simpa using hx
  rw [hx0, UInt64.zero_mul, UInt64.add_zero] at hz
  exact hz ▸ hp

/-- After as many rounds as `a` has bits the loop has stopped. -/
theorem rounds {n : Nat} (s : MulState) (hv : s.a.value.toNat < 2 ^ n) (hm : s.a.mask.toNat < 2 ^ n) :
    ∃ k ≤ n, (∀ j < k, (round^[j] s).running = true) ∧ (round^[k] s).running = false ∧
      s.loop = (round^[k] s).acc := by
  induction n generalizing s with
  | zero =>
    have hend : ¬ s.running = true := by
      rw [running_iff]
      omega
    refine ⟨0, Nat.le_refl 0, fun j hj => absurd hj (Nat.not_lt_zero j), Bool.eq_false_iff.mpr hend, ?_⟩
    rw [loop, if_neg hend]
    rfl
  | succ n ih =>
    by_cases hrun : s.running = true
    · have hv' : s.round.a.value.toNat < 2 ^ n := by
        show (shrOrZero s.a.value 1).toNat < _
        rw [toNat_half]
        omega
      have hm' : s.round.a.mask.toNat < 2 ^ n := by
        show (shrOrZero s.a.mask 1).toNat < _
        rw [toNat_half]
        omega
      obtain ⟨k, hk, hbefore, hend, hloop⟩ := ih s.round hv' hm'
      refine ⟨k + 1, by omega, ?_, hend, ?_⟩
      · intro j hj
        cases j with
        | zero => exact hrun
        | succ j => exact hbefore j (by omega)
      · rw [loop, if_pos hrun]
        exact hloop
    · refine ⟨0, Nat.zero_le _, fun j hj => absurd hj (Nat.not_lt_zero j), Bool.eq_false_iff.mpr hrun, ?_⟩
      rw [loop, if_neg hrun]
      rfl

theorem normal_iterate (h : s.Normal) (k : Nat) : (round^[k] s).Normal := by
  induction k generalizing s with
  | zero => exact h
  | succ k ih => exact ih (normal_round h)

theorem partial_iterate (hn : s.Normal) (h : s.Partial z) (k : Nat) : (round^[k] s).Partial z := by
  induction k generalizing s with
  | zero => exact h
  | succ k ih => exact ih (normal_round hn) (partial_round hn h)

end MulState

/-- The loop of `mul` stops within 64 rounds, its result is well formed and contains every
    product of members. -/
theorem mul_sound (ha : a.WellFormed) (hb : b.WellFormed) :
    (∃ k ≤ 64, (∀ j < k, (MulState.round^[j] ⟨constant 0, a, b⟩).running = true) ∧
      (MulState.round^[k] ⟨constant 0, a, b⟩).running = false ∧
      mul a b = (MulState.round^[k] ⟨constant 0, a, b⟩).acc) ∧
    (mul a b).WellFormed ∧ ∀ x y, a.Contains x → b.Contains y → (mul a b).Contains (x * y) := by
  have hn : MulState.Normal ⟨constant 0, a, b⟩ :=
    ⟨normal_constant 0, wellFormed_iff.mp ha, wellFormed_iff.mp hb⟩
  have hrounds := MulState.rounds (n := 64) ⟨constant 0, a, b⟩ a.value.toNat_lt a.mask.toNat_lt
  refine ⟨hrounds, ?_⟩
  obtain ⟨k, -, -, hend, hmul⟩ := hrounds
  rw [mul, hmul]
  refine ⟨wellFormed_iff.mpr (MulState.normal_iterate hn k).acc, fun x y hx hy => ?_⟩
  have hpart : MulState.Partial ⟨constant 0, a, b⟩ (x * y) :=
    ⟨0, x, y, constant_contains 0, hx, hy, UInt64.zero_add _⟩
  exact MulState.partial_done (MulState.partial_iterate hn hpart k) hend

/-- `2 * 3` among `{2, 3} * {3}`. -/
theorem mul_sound_unknown_bit : (mul ⟨2, 1⟩ (constant 3)).Contains 6 :=
  (mul_sound (a := ⟨2, 1⟩) (b := constant 3) (by unfold WellFormed; decide) (by unfold WellFormed; decide)).2.2 2 3
    (by unfold Tnum.Contains; decide) (by unfold Tnum.Contains; decide)

end RandVerifier.Tnum
