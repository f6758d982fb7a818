/-
  RandVerifier.TnumPrecision — the tracked numbers lose nothing they could keep (`src/tnum.rs`).

  The smallest tracked number of a set of words is inside every tracked number that contains
  the set. Every operator but the multiplication computes it: what `add`, `sub`, `and`, `or`,
  `xor` and the shifts return is the smallest number of the concrete results, `from_range` that
  of its interval and `union` that of both members. `intersect` of numbers with a common member
  holds the common members and nothing else.

  Proved:
  - `operators_smallest`: all of this, for well-formed operands;
  - `mul_not_smallest`: the multiplication forgets a bit that every product has.
-/

import RandVerifier.TightBits
import RandVerifier.TnumLaws

namespace RandVerifier.Tnum

open KnownBits

instance (t : Tnum) (x : UInt64) : Decidable (t.Contains x) := inferInstanceAs (Decidable (_ = _))

/-- `r` contains the words of `S`, and lies inside every other number that does. -/
structure Smallest (S : UInt64 → Prop) (r : Tnum) : Prop where
  wellFormed : r.WellFormed
  contains : ∀ x, S x → r.Contains x
  least : ∀ t : Tnum, (∀ x, S x → t.Contains x) → t.subsumes r = true

/-- The results of an operation on members. -/
def Results (op : UInt64 → UInt64 → UInt64) (a b : Tnum) (z : UInt64) : Prop :=
  ∃ x y, a.Contains x ∧ b.Contains y ∧ op x y = z

def Mapped (op : UInt64 → UInt64) (a : Tnum) (z : UInt64) : Prop := ∃ x, a.Contains x ∧ op x = z

variable {S : UInt64 → Prop} {a b r : Tnum} {x y : UInt64}

theorem value_contains (a : Tnum) : a.Contains a.value := rfl

/-- A number with a tight mask is the smallest one. -/
theorem smallest_of_tight (hwf : r.WellFormed) (hx : S x) (hin : ∀ x, S x → r.Contains x)
    (htight : Tight (fun z => S ⟨z⟩) r.mask.toBitVec) : Smallest S r := by
  refine ⟨hwf, hin, fun t ht => subsumes_iff.mpr fun y hy => ?_⟩
  have hr : ∀ z, S ⟨z⟩ → Agrees r.value.toBitVec r.mask.toBitVec z := fun z hz => contains_iff.mp (hin ⟨z⟩ hz)
  have hsmall : ∀ z, S ⟨z⟩ → Agrees t.value.toBitVec t.mask.toBitVec z := fun z hz => contains_iff.mp (ht ⟨z⟩ hz)
  have hx' : S ⟨x.toBitVec⟩ := hx
  exact contains_iff.mpr (htight.least hx' hr hsmall _ (contains_iff.mp hy))

/-- The results on the members are those on the words of the descriptions. -/
theorem results_iff {op : UInt64 → UInt64 → UInt64} {f : BitVec 64 → BitVec 64 → BitVec 64}
    (hop : ∀ x y, (op x y).toBitVec = f x.toBitVec y.toBitVec) {z : BitVec 64} :
    Results op a b ⟨z⟩ ↔
      Image₂ f a.value.toBitVec a.mask.toBitVec b.value.toBitVec b.mask.toBitVec z := by
  constructor
  · intro ⟨x, y, hx, hy, hz⟩
    refine ⟨x.toBitVec, y.toBitVec, contains_iff.mp hx, contains_iff.mp hy, ?_⟩
    rw [← hop, hz]
  · intro ⟨x, y, hx, hy, hz⟩
    refine ⟨⟨x⟩, ⟨y⟩, contains_iff.mpr hx, contains_iff.mpr hy, ?_⟩
    rw [← UInt64.toBitVec_inj, hop]
    exact hz

/-- An operator that contains the results, with a tight mask. -/
theorem smallest_results {op : UInt64 → UInt64 → UInt64} {f : BitVec 64 → BitVec 64 → BitVec 64}
    (hop : ∀ x y, (op x y).toBitVec = f x.toBitVec y.toBitVec) (h : Follows a b r op)
    (htight : Tight (Image₂ f a.value.toBitVec a.mask.toBitVec b.value.toBitVec b.mask.toBitVec) r.mask.toBitVec) :
    Smallest (Results op a b) r := by
  refine smallest_of_tight h.1 ⟨_, _, value_contains a, value_contains b, rfl⟩ ?_ ?_
  · intro z ⟨x, y, hx, hy, hz⟩
    rw [← hz]
    exact h.2 x y hx hy
  · have hset : (fun z => Results op a b ⟨z⟩) =
        Image₂ f a.value.toBitVec a.mask.toBitVec b.value.toBitVec b.mask.toBitVec :=
      funext fun z => propext (results_iff hop)
    rw [hset]
    exact htight

/-- A rearrangement of the bits. -/
theorem smallest_mapped {op : UInt64 → UInt64} {f : BitVec 64 → BitVec 64} (hop : ∀ x, (op x).toBitVec = f x.toBitVec)
    (ha : a.Normal) (h : Maps a r op) (hmask : r.mask.toBitVec = f a.mask.toBitVec)
    (hbit : ∀ i < 64, (∃ j < 64, ∀ x, (f x).getLsbD i = x.getLsbD j) ∨ ∀ x, (f x).getLsbD i = false) :
    Smallest (Mapped op a) r := by
  refine smallest_of_tight h.1 ⟨_, value_contains a, rfl⟩ ?_ ?_
  · intro z ⟨x, hx, hz⟩
    rw [← hz]
    exact h.2 x hx
  · have hset : (fun z => Mapped op a ⟨z⟩) = Image f a.value.toBitVec a.mask.toBitVec := by
      funext z
      apply propext
      constructor
      · intro ⟨x, hx, hz⟩
        refine ⟨x.toBitVec, contains_iff.mp hx, ?_⟩
        rw [← hop, hz]
      · intro ⟨x, hx, hz⟩
        refine ⟨⟨x⟩, contains_iff.mpr hx, ?_⟩
        rw [← UInt64.toBitVec_inj, hop]
        exact hz
    rw [hset, hmask]
    exact tight_map ha hbit

theorem smallest_lshift (hna : a.Normal) {k : Nat} (hk : k < 64) :
    Smallest (Mapped (· <<< UInt64.ofNat k) a) (a.lshift k) := by
  refine smallest_mapped (f := (· <<< k)) ?_ hna
    ⟨wellFormed_iff.mpr (normal_lshift hna hk), fun x hx => lshift_contains hx hk⟩ (shlOrZero_eq a.mask hk) ?_
  · intro x
    have h := shlOrZero_eq x hk
    rwa [shlOrZero, if_pos hk] at h
  · intro i hi
    by_cases hlt : i < k
    · right
      intro x
      simp [hlt]
    · left
      refine ⟨i - k, by omega, fun x => ?_⟩
      rw [BitVec.getLsbD_shiftLeft, decide_eq_true hi, decide_eq_false hlt, Bool.not_false, Bool.true_and, Bool.true_and]

theorem smallest_rshift (hna : a.Normal) {k : Nat} (hk : k < 64) :
    Smallest (Mapped (· >>> UInt64.ofNat k) a) (a.rshift k) := by
  refine smallest_mapped (f := (· >>> k)) ?_ hna
    ⟨wellFormed_iff.mpr (normal_rshift hna hk), fun x hx => rshift_contains hx hk⟩ (shrOrZero_eq a.mask hk) ?_
  · intro x
    have h := shrOrZero_eq x hk
    rwa [shrOrZero, if_pos hk] at h
  · intro i hi
    by_cases hlt : k + i < 64
    · exact .inl ⟨k + i, hlt, fun x => BitVec.getLsbD_ushiftRight ..⟩
    · refine .inr fun x => ?_
      rw [BitVec.getLsbD_ushiftRight]
      exact BitVec.getLsbD_of_ge _ _ (by omega)

theorem smallest_arshift (hna : a.Normal) {k : Nat} (hk : k < 64) :
    Smallest (Mapped (fun x => (x.toInt64 >>> Int64.ofNat k).toUInt64) a) (a.arshift k) := by
  refine smallest_mapped (f := (·.sshiftRight k)) (fun x => sar_toBitVec x hk) hna
    ⟨wellFormed_iff.mpr (normal_arshift hna hk), fun x hx => arshift_contains hx hk⟩ (sarOrSign_eq a.mask hk) fun i hi => .inl ?_
  have hle : ¬ 64 ≤ i := by omega
  by_cases hlt : k + i < 64
  · refine ⟨k + i, hlt, fun x => ?_⟩
    simp only [BitVec.getLsbD_sshiftRight, hle, decide_false, Bool.not_false, Bool.true_and, hlt, if_true]
  · -- the sign fills the bits above
    refine ⟨63, by omega, fun x => ?_⟩
    simp only [BitVec.getLsbD_sshiftRight, hle, decide_false, Bool.not_false, Bool.true_and, hlt, if_false,
      BitVec.msb_eq_getLsbD_last]

theorem smallest_subreg (hna : a.Normal) : Smallest (Mapped (fun x => x.toUInt32.toUInt64) a) a.subreg := by
  refine smallest_mapped (f := fun x => (x.setWidth 32).setWidth 64) (fun _ => rfl) hna
    ⟨wellFormed_iff.mpr (normal_subreg hna), fun x hx => subreg_contains hx⟩ rfl ?_
  intro i hi
  by_cases hlt : i < 32
  · left
    refine ⟨i, hi, fun x => ?_⟩
    simp [hlt, hi]
  · right
    intro x
    simp [hlt]

theorem smallest_fromRange {lo hi : UInt64} (h : lo ≤ hi) : Smallest (fun x => lo ≤ x ∧ x ≤ hi) (fromRange lo hi) := by
  refine smallest_of_tight (wellFormed_iff.mpr normal_fromRange) ⟨UInt64.le_refl lo, h⟩
    (fun x hx => fromRange_contains hx.1 hx.2) (tight_between fun i hi' hm => ?_)
  refine Nat.lt_of_le_of_ne (Nat.div_le_div_right (UInt64.le_iff_toNat_le.mp h)) fun heq => ?_
  rw [(fromRange_known hi').mpr heq] at hm
  cases hm

theorem smallest_union (hna : a.Normal) (hnb : b.Normal) :
    Smallest (fun x => a.Contains x ∨ b.Contains x) (a.union b) := by
  refine smallest_of_tight (wellFormed_iff.mpr normal_union) (.inl (value_contains a)) ?_ ?_
  · intro x hx
    rcases hx with hx | hx
    · exact union_contains_left hx
    · exact union_contains_right hx
  · have htight := tight_join hna hnb
    intro i hi hm
    obtain ⟨x, y, hx, hy, hne⟩ := htight i hi hm
    exact ⟨x, y, hx.imp contains_iff.mpr contains_iff.mpr, hy.imp contains_iff.mpr contains_iff.mpr, hne⟩

/-- Numbers with a common member meet in their common members. -/
theorem intersect_members (ha : a.Normal) (hb : b.Normal) (hcommon : ∃ x, a.Contains x ∧ b.Contains x) :
    (a.intersect b).Contains x ↔ a.Contains x ∧ b.Contains x := by
  obtain ⟨z, hza, hzb⟩ := hcommon
  refine ⟨fun hx => ?_, fun ⟨hx, hy⟩ => intersect_contains ha hb hx hy⟩
  have hz := contains_iff.mp (intersect_contains ha hb hza hzb)
  have hbits := contains_iff.mp hx
  have hmask : ∀ i, (a.intersect b).mask.toBitVec.getLsbD i = (a.mask.toBitVec.getLsbD i && b.mask.toBitVec.getLsbD i) :=
    fun i => by simp only [intersect, UInt64.toBitVec_and, BitVec.getLsbD_and]
  -- a bit that one of them knows is that of `z`
  have hsame : ∀ i < 64, (a.mask.toBitVec.getLsbD i = false ∨ b.mask.toBitVec.getLsbD i = false) →
      x.toBitVec.getLsbD i = z.toBitVec.getLsbD i := by
    intro i hi hknown
    have hclear : (a.intersect b).mask.toBitVec.getLsbD i = false := by
      rw [hmask, Bool.and_eq_false_iff]
      exact hknown
    rw [hbits i hi hclear, hz i hi hclear]
  constructor
  · rw [contains_iff]
    intro i hi hm
    rw [hsame i hi (.inl hm)]
    exact contains_iff.mp hza i hi hm
  · rw [contains_iff]
    intro i hi hm
    rw [hsame i hi (.inr hm)]
    exact contains_iff.mp hzb i hi hm

structure OperatorsSmallest (a b : Tnum) : Prop where
  add : Smallest (Results (· + ·) a b) (a.add b)
  sub : Smallest (Results (· - ·) a b) (a.sub b)
  and : Smallest (Results (· &&& ·) a b) (a.and b)
  or : Smallest (Results (· ||| ·) a b) (a.or b)
  xor : Smallest (Results (· ^^^ ·) a b) (a.xor b)
  lshift : ∀ k < 64, Smallest (Mapped (· <<< UInt64.ofNat k) a) (a.lshift k)
  rshift : ∀ k < 64, Smallest (Mapped (· >>> UInt64.ofNat k) a) (a.rshift k)
  arshift : ∀ k < 64, Smallest (Mapped (fun x => (x.toInt64 >>> Int64.ofNat k).toUInt64) a) (a.arshift k)
  subreg : Smallest (Mapped (fun x => x.toUInt32.toUInt64) a) a.subreg
  fromRange : ∀ lo hi, lo ≤ hi → Smallest (fun x => lo ≤ x ∧ x ≤ hi) (fromRange lo hi)
  union : Smallest (fun x => a.Contains x ∨ b.Contains x) (a.union b)
  intersect : (∃ x, a.Contains x ∧ b.Contains x) → ∀ x, (a.intersect b).Contains x ↔ a.Contains x ∧ b.Contains x

/-- No tracked number that contains the results is smaller than what the operators return. -/
theorem operators_smallest (ha : a.WellFormed) (hb : b.WellFormed) : OperatorsSmallest a b := by
  have hna := wellFormed_iff.mp ha
  have hnb := wellFormed_iff.mp hb
  constructor
  · exact smallest_results (fun _ _ => rfl)
      ⟨wellFormed_iff.mpr (normal_clear _ _), fun _ _ hx hy => add_contains hna hnb hx hy⟩ (tight_add hna hnb)
  · exact smallest_results (fun _ _ => rfl)
      ⟨wellFormed_iff.mpr (normal_clear _ _), fun _ _ hx hy => sub_contains hna hnb hx hy⟩ (tight_sub hna hnb)
  · exact smallest_results (fun _ _ => rfl)
      ⟨wellFormed_iff.mpr normal_and, fun _ _ hx hy => and_contains hna hnb hx hy⟩ tight_and
  · exact smallest_results (fun _ _ => rfl)
      ⟨wellFormed_iff.mpr normal_or, fun _ _ hx hy => or_contains hx hy⟩ (tight_or hna hnb)
  · exact smallest_results (fun _ _ => rfl)
      ⟨wellFormed_iff.mpr (normal_clear _ _), fun _ _ hx hy => xor_contains hx hy⟩ (tight_xor hna hnb)
  · exact fun k hk => smallest_lshift hna hk
  · exact fun k hk => smallest_rshift hna hk
  · exact fun k hk => smallest_arshift hna hk
  · exact smallest_subreg hna
  · exact fun lo hi h => smallest_fromRange h
  · exact smallest_union hna hnb
  · exact fun h x => intersect_members hna hnb h

theorem operators_smallest_unknown_bit : OperatorsSmallest ⟨2, 1⟩ (constant 3) :=
  operators_smallest (by unfold WellFormed; decide) (by unfold WellFormed; decide)

theorem odd_member (hx : Tnum.Contains ⟨1, 2⟩ x) : x = 1 ∨ x = 3 := by
  have hbits : ∀ i : Fin 64, i ≠ 1 → (2#64).getLsbD i = false ∧ (1#64).getLsbD i = (3#64).getLsbD i := by decide
  have hother : ∀ i < 64, i ≠ 1 → x.toBitVec.getLsbD i = (1#64).getLsbD i := by
    intro i hi hne
    exact contains_iff.mp hx i hi (hbits ⟨i, hi⟩ (by simpa [Fin.ext_iff] using hne)).1
  cases hone : x.toBitVec.getLsbD 1 with
  | false =>
    left
    refine UInt64.toBitVec_inj.mp (BitVec.eq_of_getLsbD_eq fun i hi => ?_)
    by_cases hi1 : i = 1
    · rw [hi1, hone]
      rfl
    · exact hother i hi hi1
  | true =>
    right
    refine UInt64.toBitVec_inj.mp (BitVec.eq_of_getLsbD_eq fun i hi => ?_)
    by_cases hi1 : i = 1
    · rw [hi1, hone]
      rfl
    · rw [hother i hi hi1]
      exact (hbits ⟨i, hi⟩ (by simpa [Fin.ext_iff] using hi1)).2

/-- The products of 1 and 3 by 1 and 3 are 1, 3 and 9: none has bit 2, which `mul` forgets. -/
theorem mul_not_smallest : ¬ Smallest (Results (· * ·) ⟨1, 2⟩ ⟨1, 2⟩) (mul ⟨1, 2⟩ ⟨1, 2⟩) := by
  have hmul : mul ⟨1, 2⟩ ⟨1, 2⟩ = ⟨1, 14⟩ := by
    rw [mul, MulState.loop, if_pos (by decide), MulState.loop, if_pos (by decide), MulState.loop, if_neg (by decide)]
    decide
  intro h
  have hall : ∀ z, Results (· * ·) ⟨1, 2⟩ ⟨1, 2⟩ z → Tnum.Contains ⟨1, 10⟩ z := by
    intro z hz
    obtain ⟨x, y, hx, hy, rfl⟩ := hz
    rcases odd_member hx with rfl | rfl
    · rcases odd_member hy with rfl | rfl
      · exact (by decide : Tnum.Contains ⟨1, 10⟩ (1 * 1))
      · exact (by decide : Tnum.Contains ⟨1, 10⟩ (1 * 3))
    · rcases odd_member hy with rfl | rfl
      · exact (by decide : Tnum.Contains ⟨1, 10⟩ (3 * 1))
      · exact (by decide : Tnum.Contains ⟨1, 10⟩ (3 * 3))
  have hleast := h.least ⟨1, 10⟩ hall
  rw [hmul] at hleast
  exact absurd hleast (by decide)

end RandVerifier.Tnum
