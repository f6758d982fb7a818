/-
  RandVerifier.BranchSound — the conditional instructions against the machine.

  The successors of a conditional instruction should hold a state at the target the machine
  takes, whose bounds still contain the two words. A side is refined in two passes, signed
  and unsigned, each by the order of its family (`Reading`), and the verdict is computed apart
  from the refinement. The false side of `≥` cuts the first operand below the second one's
  least value, where only its greatest is an upper bound (the true side of `<` takes that):
  a fall-through at or above the least value is lost (`GeGap`).

  Proved:
  - `refineOrdered_true`, `refineOrdered_false`: what each side keeps of a family;
  - `isBranchTaken_sound`, `jsetVerdict_sound`, `jmp32Verdict_sound`: a verdict is the outcome;
  - `unlinked_side`, `linked_side`: what syncing the links leaves of the refined operands;
  - `conditional_step`: the machine jumps to the tested target and keeps its state;
  - `successors_follow`: the successors follow the machine exactly outside the gap;
  - `conditional_follows`: the same of the two steps; `ge_loses_word` is a word in the gap, and
    `link_loses_word` two operands that share a link they disagree with.
-/

import RandVerifier.AluSound
import RandVerifier.Exec
import RandVerifier.Explorer

namespace RandVerifier

/-! ## One interval family -/

/-- A family read as integers: its order, and the steps that stay inside. -/
structure Reading (α : Type) [Add α] [Sub α] [OfNat α 1] [Max α] [Min α] [LE α] [LT α] where
  toInt : α → Int
  le_iff : ∀ a b, a ≤ b ↔ toInt a ≤ toInt b
  lt_iff : ∀ a b, a < b ↔ toInt a < toInt b
  max_eq : ∀ a b, toInt (max a b) = max (toInt a) (toInt b)
  min_eq : ∀ a b, toInt (min a b) = min (toInt a) (toInt b)
  succ : ∀ a b, toInt a < toInt b → toInt (a + 1) = toInt a + 1
  pred : ∀ a b, toInt b < toInt a → toInt (a - 1) = toInt a - 1

def Reading.signed : Reading Int64 where
  toInt := Int64.toInt
  le_iff _ _ := Int64.le_iff_toInt_le
  lt_iff _ _ := Int64.lt_iff_toInt_lt
  max_eq := ScalarBounds.toInt_max
  min_eq := ScalarBounds.toInt_min
  succ a b h := by
    have h1 := a.le_toInt
    have h2 := b.toInt_lt
    rw [Int64.toInt_add, show (1 : Int64).toInt = 1 from rfl, Int.bmod_eq_of_le (by omega) (by omega)]
  pred a b h := by
    have h1 := b.le_toInt
    have h2 := a.toInt_lt
    rw [Int64.toInt_sub, show (1 : Int64).toInt = 1 from rfl, Int.bmod_eq_of_le (by omega) (by omega)]

def Reading.unsigned : Reading UInt64 where
  toInt a := a.toNat
  le_iff a b := by rw [UInt64.le_iff_toNat_le, Int.ofNat_le]
  lt_iff a b := by rw [UInt64.lt_iff_toNat_lt, Int.ofNat_lt]
  max_eq a b := by rw [ScalarBounds.toNat_max]; omega
  min_eq a b := by rw [ScalarBounds.toNat_min]; omega
  succ a b h := by
    have h1 := b.toNat_lt
    rw [UInt64.toNat_add, show (1 : UInt64).toNat = 1 from rfl]
    omega
  pred a b h := by
    have h1 := a.toNat_lt
    rw [UInt64.toNat_sub, show (1 : UInt64).toNat = 1 from rfl]
    omega

/-- An ordered comparison of integers. -/
def OrdOp.Holds (op : OrdOp) (x y : Int) : Prop :=
  match op with
  | .gt => y < x
  | .ge => y ≤ x
  | .lt => x < y
  | .le => x ≤ y

/-- A verdict of two tests, one for each outcome. -/
theorem verdict_of_ifs {c c' holds : Prop} [Decidable c] [Decidable c'] (h : c → holds) (h' : c' → ¬ holds) :
    ((if c then BranchVerdict.alwaysTaken else if c' then .alwaysNotTaken else .unknown) = .alwaysTaken → holds) ∧
    ((if c then BranchVerdict.alwaysTaken else if c' then .alwaysNotTaken else .unknown) = .alwaysNotTaken →
      ¬ holds) := by
  by_cases hc : c
  · simp only [if_pos hc, reduceCtorEq, false_imp_iff, and_true]
    exact fun _ => h hc
  · by_cases hc' : c'
    · simp only [if_neg hc, if_pos hc', reduceCtorEq, false_imp_iff, true_and]
      exact fun _ => h' hc'
    · simp only [if_neg hc, if_neg hc', reduceCtorEq, false_imp_iff, and_self]

section Family

variable {α : Type} [Add α] [Sub α] [OfNat α 1] [Max α] [Min α] [LE α] [LT α] (R : Reading α) {op : OrdOp}
  {dst src a : α × α} {x y : Int}

def Reading.Has (r : α × α) (x : Int) : Prop := R.toInt r.1 ≤ x ∧ x ≤ R.toInt r.2

section Refine

variable (hx : R.Has dst x) (hy : R.Has src y)
include hx hy

/-- On the true side of a comparison the refined ranges keep the operands. -/
theorem refineOrdered_true (h : op.Holds x y) :
    R.Has (refineOrdered op dst src).1.1 x ∧ R.Has (refineOrdered op dst src).1.2 y := by
  obtain ⟨hx1, hx2⟩ := hx
  obtain ⟨hy1, hy2⟩ := hy
  cases op with
  | gt =>
    have hgt : y < x := h
    have h1 := R.succ src.1 dst.2 (by omega)
    have h2 := R.pred dst.2 src.1 (by omega)
    simp only [refineOrdered, Reading.Has, R.max_eq, R.min_eq]
    omega
  | ge =>
    have hge : y ≤ x := h
    simp only [refineOrdered, Reading.Has, R.max_eq, R.min_eq]
    omega
  | lt =>
    have hlt : x < y := h
    have h1 := R.succ dst.1 src.2 (by omega)
    have h2 := R.pred src.2 dst.1 (by omega)
    simp only [refineOrdered, Reading.Has, R.max_eq, R.min_eq]
    omega
  | le =>
    have hle : x ≤ y := h
    simp only [refineOrdered, Reading.Has, R.max_eq, R.min_eq]
    omega

/-- So they do on the false side, the first operand of `≥` apart: it is cut by the second's
    least value instead of its greatest. -/
theorem refineOrdered_false (h : ¬ op.Holds x y) :
    (R.Has (refineOrdered op dst src).2.1 x ↔ (op = .ge → x ≤ R.toInt (src.1 - 1))) ∧
      R.Has (refineOrdered op dst src).2.2 y := by
  obtain ⟨hx1, hx2⟩ := hx
  obtain ⟨hy1, hy2⟩ := hy
  cases op with
  | gt =>
    have hle : ¬ y < x := h
    simp only [refineOrdered, Reading.Has, R.max_eq, R.min_eq, reduceCtorEq, false_imp_iff, iff_true]
    omega
  | ge =>
    have hlt : ¬ y ≤ x := h
    have h1 := R.succ dst.1 src.2 (by omega)
    simp only [refineOrdered, Reading.Has, R.max_eq, R.min_eq, true_imp_iff]
    omega
  | lt =>
    have hge : ¬ x < y := h
    simp only [refineOrdered, Reading.Has, R.max_eq, R.min_eq, reduceCtorEq, false_imp_iff, iff_true]
    omega
  | le =>
    have hgt : ¬ x ≤ y := h
    have h1 := R.succ src.1 dst.2 (by omega)
    have h2 := R.pred dst.2 src.1 (by omega)
    simp only [refineOrdered, Reading.Has, R.max_eq, R.min_eq, reduceCtorEq, false_imp_iff, iff_true]
    omega

theorem orderedVerdict_sound [DecidableLE α] [DecidableLT α] :
    (orderedVerdict op dst src = .alwaysTaken → op.Holds x y) ∧
      (orderedVerdict op dst src = .alwaysNotTaken → ¬ op.Holds x y) := by
  obtain ⟨hx1, hx2⟩ := hx
  obtain ⟨hy1, hy2⟩ := hy
  cases op with
  | gt =>
    simp only [orderedVerdict, OrdOp.Holds, R.le_iff, R.lt_iff]
    exact verdict_of_ifs (fun h => by omega) (fun h => by omega)
  | ge =>
    simp only [orderedVerdict, OrdOp.Holds, R.le_iff, R.lt_iff]
    exact verdict_of_ifs (fun h => by omega) (fun h => by omega)
  | lt =>
    simp only [orderedVerdict, OrdOp.Holds, R.le_iff, R.lt_iff]
    exact verdict_of_ifs (fun h => by omega) (fun h => by omega)
  | le =>
    simp only [orderedVerdict, OrdOp.Holds, R.le_iff, R.lt_iff]
    exact verdict_of_ifs (fun h => by omega) (fun h => by omega)

theorem not_disjoint [DecidableLT α] (h : rangesDisjoint dst src = true) : x ≠ y := by
  obtain ⟨hx1, hx2⟩ := hx
  obtain ⟨hy1, hy2⟩ := hy
  simp only [rangesDisjoint, Bool.or_eq_true, decide_eq_true_eq, R.lt_iff] at h
  omega

end Refine

/-- A range without one value, where the rest is a range. -/
theorem excludeInterval_has [WrapInt α] [DecidableLE α] {c : α} (hx : R.Has a x) (hne : x ≠ R.toInt c) :
    R.Has ((excludeInterval a (c, c)).getD a) x := by
  obtain ⟨hx1, hx2⟩ := hx
  unfold excludeInterval
  dsimp only
  simp only [R.le_iff]
  split
  · omega
  · split
    · have h1 := R.succ c a.2 (by omega)
      simp only [Option.getD_some, Reading.Has]
      omega
    · split
      · have h1 := R.pred c a.1 (by omega)
        simp only [Option.getD_some, Reading.Has]
        omega
      · exact ⟨hx1, hx2⟩

end Family

/-! ## Words and their bounds -/

section Bounds

open Explorer (condHolds jmp32Holds)

variable {op : CondOp} {ord : OrdOp} {d s : ScalarBounds} {x y : UInt64}

theorem signed_has {b : ScalarBounds} {w : UInt64} (h : b.Contains w) :
    Reading.signed.Has b.signed w.toInt64.toInt :=
  ⟨Int64.le_iff_toInt_le.mp h.smin, Int64.le_iff_toInt_le.mp h.smax⟩

theorem unsigned_has {b : ScalarBounds} {w : UInt64} (h : b.Contains w) :
    Reading.unsigned.Has b.unsigned w.toNat :=
  ⟨Int.ofNat_le.mpr (UInt64.le_iff_toNat_le.mp h.umin), Int.ofNat_le.mpr (UInt64.le_iff_toNat_le.mp h.umax)⟩

/-- An ordered comparison of words, read in its family. -/
theorem condHolds_ord (hord : op.ord = some ord) : condHolds op x y = true ↔
    if op.isSigned then ord.Holds x.toInt64.toInt y.toInt64.toInt else ord.Holds x.toNat y.toNat := by
  cases op with
  | eq => cases hord
  | ne => cases hord
  | ugt => cases hord; simp [condHolds, CondOp.isSigned, OrdOp.Holds, UInt64.lt_iff_toNat_lt]
  | uge => cases hord; simp [condHolds, CondOp.isSigned, OrdOp.Holds, UInt64.le_iff_toNat_le]
  | ult => cases hord; simp [condHolds, CondOp.isSigned, OrdOp.Holds, UInt64.lt_iff_toNat_lt]
  | ule => cases hord; simp [condHolds, CondOp.isSigned, OrdOp.Holds, UInt64.le_iff_toNat_le]
  | sgt => cases hord; simp [condHolds, CondOp.isSigned, OrdOp.Holds, Int64.lt_iff_toInt_lt]
  | sge => cases hord; simp [condHolds, CondOp.isSigned, OrdOp.Holds, Int64.le_iff_toInt_le]
  | slt => cases hord; simp [condHolds, CondOp.isSigned, OrdOp.Holds, Int64.lt_iff_toInt_lt]
  | sle => cases hord; simp [condHolds, CondOp.isSigned, OrdOp.Holds, Int64.le_iff_toInt_le]

theorem isBranchTaken_sound (hx : d.Contains x) (hy : s.Contains y) :
    (isBranchTaken op d s = .alwaysTaken → condHolds op x y = true) ∧
      (isBranchTaken op d s = .alwaysNotTaken → ¬ condHolds op x y = true) := by
  unfold isBranchTaken
  cases hord : op.ord with
  | none =>
    have hsame : sameConstant d s = true → x = y := by
      intro h
      simp only [sameConstant, Bool.and_eq_true, beq_iff_eq] at h
      obtain ⟨⟨⟨hd, hs⟩, -⟩, hu⟩ := h
      rw [← (eq_of_constant hd hx).2, ← (eq_of_constant hs hy).2, hu]
    have hdisjoint : boundsDisjoint d s = true → x ≠ y := by
      intro h heq
      subst heq
      simp only [boundsDisjoint, Bool.or_eq_true] at h
      rcases h with h | h
      · exact not_disjoint _ (signed_has hx) (signed_has hy) h rfl
      · exact not_disjoint _ (unsigned_has hx) (unsigned_has hy) h rfl
    cases op with
    | eq =>
      simp only [condHolds, beq_iff_eq, if_true]
      exact verdict_of_ifs hsame hdisjoint
    | ne =>
      simp only [condHolds, bne_iff_ne, ne_eq, Classical.not_not, reduceCtorEq, if_false]
      constructor
      · intro h
        split at h
        · cases h
        · split at h
          · rename_i hdis
            exact hdisjoint hdis
          · cases h
      · intro h
        split at h
        · rename_i hs
          exact hsame hs
        · split at h
          · cases h
          · cases h
    | _ => cases hord
  | some ord =>
    dsimp only
    rw [condHolds_ord hord]
    by_cases hsigned : op.isSigned = true
    · simp only [hsigned, if_true]
      exact orderedVerdict_sound _ (signed_has hx) (signed_has hy)
    · simp only [hsigned, Bool.false_eq_true, if_false]
      exact orderedVerdict_sound _ (unsigned_has hx) (unsigned_has hy)

/-! ## Refined bounds -/

theorem withSigned_contains {r : Int64 × Int64} (hd : d.Synced) (hx : d.Contains x) :
    (withSigned d r).synced.Contains x ↔ Reading.signed.Has r x.toInt64.toInt := by
  constructor
  · intro h
    have hw := ScalarBounds.synced_within h.within
    exact ⟨Int64.le_iff_toInt_le.mp hw.smin, Int64.le_iff_toInt_le.mp hw.smax⟩
  · intro h
    exact ScalarBounds.synced_contains (b := withSigned d r) (hd.normal hx)
      ⟨Int64.le_iff_toInt_le.mpr h.1, Int64.le_iff_toInt_le.mpr h.2, hx.umin, hx.umax⟩ hx.tnum

theorem withUnsigned_contains {r : UInt64 × UInt64} (hd : d.Synced) (hx : d.Contains x) :
    (withUnsigned d r).synced.Contains x ↔ Reading.unsigned.Has r x.toNat := by
  constructor
  · intro h
    have hw := ScalarBounds.synced_within h.within
    exact ⟨Int.ofNat_le.mpr (UInt64.le_iff_toNat_le.mp hw.umin), Int.ofNat_le.mpr (UInt64.le_iff_toNat_le.mp hw.umax)⟩
  · intro h
    exact ScalarBounds.synced_contains (b := withUnsigned d r) (hd.normal hx)
      ⟨hx.smin, hx.smax, UInt64.le_iff_toNat_le.mpr (Int.ofNat_le.mp h.1),
        UInt64.le_iff_toNat_le.mpr (Int.ofNat_le.mp h.2)⟩ hx.tnum

theorem intersectBounds_contains (hd : d.Synced) (hs : s.Synced) (hx : d.Contains x) (hy : s.Contains x) :
    (intersectBounds d s).Contains x := by
  refine ScalarBounds.synced_contains Tnum.normal_intersect ⟨?_, ?_, ?_, ?_⟩
    (Tnum.intersect_contains (hd.normal hx) (hs.normal hy) hx.tnum hy.tnum)
  · rw [Int64.le_iff_toInt_le]
    show (max d.smin s.smin).toInt ≤ _
    rw [ScalarBounds.toInt_max]
    exact Int.max_le.mpr ⟨Int64.le_iff_toInt_le.mp hx.smin, Int64.le_iff_toInt_le.mp hy.smin⟩
  · rw [Int64.le_iff_toInt_le]
    show _ ≤ (min d.smax s.smax).toInt
    rw [ScalarBounds.toInt_min]
    exact Int.le_min.mpr ⟨Int64.le_iff_toInt_le.mp hx.smax, Int64.le_iff_toInt_le.mp hy.smax⟩
  · rw [UInt64.le_iff_toNat_le]
    show (max d.umin s.umin).toNat ≤ _
    rw [ScalarBounds.toNat_max]
    exact Nat.max_le.mpr ⟨UInt64.le_iff_toNat_le.mp hx.umin, UInt64.le_iff_toNat_le.mp hy.umin⟩
  · rw [UInt64.le_iff_toNat_le]
    show _ ≤ (min d.umax s.umax).toNat
    rw [ScalarBounds.toNat_min]
    exact Nat.le_min.mpr ⟨UInt64.le_iff_toNat_le.mp hx.umax, UInt64.le_iff_toNat_le.mp hy.umax⟩

theorem excludeBounds_contains (hd : d.Synced) (hx : d.Contains x) (hy : s.Contains y) (hne : x ≠ y) :
    (excludeBounds d s).synced.Contains x := by
  unfold excludeBounds
  by_cases hconst : s.isConstant = true
  · obtain ⟨hsmin, humin⟩ := eq_of_constant hconst hy
    rw [if_pos hconst]
    have hsigned := excludeInterval_has Reading.signed (c := s.smin) (signed_has hx) (by
      rw [hsmin]
      exact fun h => hne (by simpa using congrArg Int64.toUInt64 (Int64.toInt_inj.mp h)))
    have hunsigned := excludeInterval_has Reading.unsigned (c := s.umin) (unsigned_has hx) (by
      rw [humin]
      exact fun h => hne (UInt64.toNat_inj.mp (Int.ofNat_inj.mp h)))
    exact ScalarBounds.synced_contains (hd.normal hx)
      ⟨Int64.le_iff_toInt_le.mpr hsigned.1, Int64.le_iff_toInt_le.mpr hsigned.2,
        UInt64.le_iff_toNat_le.mpr (Int.ofNat_le.mp hunsigned.1),
        UInt64.le_iff_toNat_le.mpr (Int.ofNat_le.mp hunsigned.2)⟩ hx.tnum
  · rw [if_neg hconst]
    exact ScalarBounds.synced_contains (hd.normal hx) hx.within hx.tnum

/-- The false side of `≥` cuts its first operand below the least value of the second. -/
def Cut (op : CondOp) (s : ScalarBounds) (x : UInt64) : Prop :=
  (op = .uge ∧ s.umin ≠ 0 ∧ s.umin ≤ x) ∨ (op = .sge ∧ s.smin ≠ Int64.minValue ∧ s.smin ≤ x.toInt64)

instance (op : CondOp) (s : ScalarBounds) (x : UInt64) : Decidable (Cut op s x) :=
  inferInstanceAs (Decidable (_ ∨ _))

theorem refineCmp_true (hd : d.Synced) (hs : s.Synced) (hx : d.Contains x) (hy : s.Contains y)
    (h : condHolds op x y = true) :
    (refineCmp op d s).1.1.Contains x ∧ (refineCmp op d s).1.2.Contains y := by
  unfold refineCmp
  cases hord : op.ord with
  | none =>
    cases op with
    | eq =>
      have heq : x = y := by simpa [condHolds] using h
      subst heq
      simp only [if_true]
      exact ⟨intersectBounds_contains hd hs hx hy, intersectBounds_contains hd hs hx hy⟩
    | ne =>
      have hne : x ≠ y := by simpa [condHolds] using h
      simp only [reduceCtorEq, if_false]
      exact ⟨excludeBounds_contains hd hx hy hne, excludeBounds_contains hs hy hx (Ne.symm hne)⟩
    | _ => cases hord
  | some ord =>
    dsimp only
    rw [condHolds_ord hord] at h
    by_cases hsigned : op.isSigned = true
    · simp only [hsigned, if_true] at h ⊢
      rw [withSigned_contains hd hx, withSigned_contains hs hy]
      exact refineOrdered_true _ (signed_has hx) (signed_has hy) h
    · simp only [hsigned, Bool.false_eq_true, if_false] at h ⊢
      rw [withUnsigned_contains hd hx, withUnsigned_contains hs hy]
      exact refineOrdered_true _ (unsigned_has hx) (unsigned_has hy) h

theorem refineCmp_false (hd : d.Synced) (hs : s.Synced) (hx : d.Contains x) (hy : s.Contains y)
    (h : ¬ condHolds op x y = true) :
    ((refineCmp op d s).2.1.Contains x ↔ ¬ Cut op s x) ∧ (refineCmp op d s).2.2.Contains y := by
  unfold refineCmp
  cases hord : op.ord with
  | none =>
    cases op with
    | eq =>
      have hne : x ≠ y := by simpa [condHolds] using h
      simp only [if_true]
      exact ⟨iff_of_true (excludeBounds_contains hd hx hy hne) (by simp [Cut]),
        excludeBounds_contains hs hy hx (Ne.symm hne)⟩
    | ne =>
      have heq : x = y := by simpa [condHolds] using h
      subst heq
      simp only [reduceCtorEq, if_false]
      exact ⟨iff_of_true (intersectBounds_contains hd hs hx hy) (by simp [Cut]),
        intersectBounds_contains hd hs hx hy⟩
    | _ => cases hord
  | some ord =>
    dsimp only
    rw [condHolds_ord hord] at h
    by_cases hsigned : op.isSigned = true
    · simp only [hsigned, if_true] at h ⊢
      rw [withSigned_contains hd hx, withSigned_contains hs hy]
      obtain ⟨h1, h2⟩ := refineOrdered_false _ (signed_has hx) (signed_has hy) h
      refine ⟨h1.trans ?_, h2⟩
      cases op with
      | sge =>
        cases hord
        have hmin := s.smin.le_toInt
        have hmax := s.smin.toInt_lt
        have hxlt := x.toInt64.toInt_lt
        have hstep : Reading.signed.toInt (s.signed.1 - 1) = (s.smin.toInt - 1).bmod (2 ^ 64) :=
          Int64.toInt_sub _ _
        have hleast : s.smin = Int64.minValue ↔ s.smin.toInt = -2 ^ 63 := by
          rw [← Int64.toInt_inj]
          rfl
        simp only [Cut, reduceCtorEq, false_and, true_and, false_or, true_imp_iff, hstep, ne_eq, hleast,
          Int64.le_iff_toInt_le]
        rw [Int.bmod_def]
        split <;> omega
      | uge => cases hsigned
      | _ => cases hord <;> simp [Cut]
    · simp only [hsigned, Bool.false_eq_true, if_false] at h ⊢
      rw [withUnsigned_contains hd hx, withUnsigned_contains hs hy]
      obtain ⟨h1, h2⟩ := refineOrdered_false _ (unsigned_has hx) (unsigned_has hy) h
      refine ⟨h1.trans ?_, h2⟩
      cases op with
      | uge =>
        cases hord
        have hmax := s.umin.toNat_lt
        have hxlt := x.toNat_lt
        have hstep : Reading.unsigned.toInt (s.unsigned.1 - 1) = (s.umin - 1).toNat := rfl
        have hleast : s.umin = 0 ↔ s.umin.toNat = 0 := by
          rw [← UInt64.toNat_inj]
          rfl
        simp only [Cut, reduceCtorEq, false_and, true_and, or_false, true_imp_iff, hstep, ne_eq, hleast,
          UInt64.le_iff_toNat_le]
        rw [UInt64.toNat_sub, show (1 : UInt64).toNat = 1 from rfl]
        omega
      | sge => exact absurd rfl hsigned
      | _ => cases hord <;> simp [Cut]

end Bounds

/-! ## Links -/

/-- Operands of one link differ by their deltas. -/
def LinkAgrees (d s : ScalarBounds) (x y : UInt64) : Prop :=
  d.id = s.id → d.id ≠ 0 → y = x + (Int64.ofInt (s.delta - d.delta)).toUInt64

theorem offset_neg (k : Int) (x : UInt64) :
    x + (Int64.ofInt k).toUInt64 + (Int64.ofInt (-k)).toUInt64 = x := by
  have hneg : (Int64.ofInt (-k)).toUInt64 = -(Int64.ofInt k).toUInt64 := by
    rw [Int64.ofInt_neg]
    rfl
  rw [hneg, UInt64.add_assoc, UInt64.add_right_neg, UInt64.add_zero]

theorem viewed_unknown : ScalarBounds.unknown.Viewed := by
  intro w _
  have h := ScalarBounds.unknown_contains w
  exact ⟨⟨h.s32Min, h.s32Max⟩, h.u32Min, h.u32Max⟩

theorem viewed_constant (v : Int64) : (ScalarBounds.constant v).Viewed := by
  intro w hw
  have heq : v = w.toInt64 := Int64.le_antisymm hw.smin hw.smax
  have h := ScalarBounds.constant_contains w
  rw [← heq] at h
  exact ⟨⟨h.s32Min, h.s32Max⟩, h.u32Min, h.u32Max⟩

theorem viewed_relink {b : ScalarBounds} {i : Nat} {e : Int} (h : b.Viewed) :
    ({ b with id := i, delta := e } : ScalarBounds).Viewed :=
  fun w hw => h w ⟨hw.smin, hw.smax, hw.umin, hw.umax⟩

theorem viewed_applyAlu (op : AluOp) (width : AluWidth) (d s : ScalarBounds) : (applyAlu op width d s).Viewed := by
  have hinner : (applyAluInner op width d s).Viewed := by
    unfold applyAluInner
    split
    · exact viewed_unknown
    · split
      · exact viewed_constant _
      · split
        · exact ScalarBounds.synced_viewed _
        · exact ScalarBounds.synced_viewed _
  unfold applyAlu applyLinking
  split
  · dsimp only
    generalize (if op = .sub then -s.smin else s.smin).toInt = off
    split
    · exact viewed_relink hinner
    · exact viewed_relink hinner
  · exact viewed_relink hinner

theorem ScalarBounds.Synced.viewed {b : ScalarBounds} (h : b.Synced) : b.Viewed := by
  rcases h with ⟨c, rfl⟩ | ⟨v, rfl⟩
  · exact ScalarBounds.synced_viewed c
  · exact viewed_constant v

/-- A refinement, shifted along a link. -/
theorem shiftLinked_contains {b known : ScalarBounds} {knownDelta : Int} {v w : UInt64} (hk : known.Synced)
    (hv : known.Contains v) (hw : w = v + (Int64.ofInt (b.delta - knownDelta)).toUInt64) :
    (shiftLinked b knownDelta known).Contains w := by
  unfold shiftLinked
  dsimp only
  rw [ScalarBounds.relink_contains]
  by_cases hzero : b.delta - knownDelta = 0
  · rw [if_pos hzero]
    rw [hzero] at hw
    rw [hw, show (Int64.ofInt 0).toUInt64 = 0 from rfl, UInt64.add_zero]
    exact hv
  · rw [if_neg hzero]
    have hconst := ScalarBounds.constant_contains (Int64.ofInt (b.delta - knownDelta)).toUInt64
    rw [Int64.toInt64_toUInt64] at hconst
    have hsum : ¬ TransferGap .add known (.constant (Int64.ofInt (b.delta - knownDelta))) v
        (Int64.ofInt (b.delta - knownDelta)).toUInt64 := id
    unfold applyAlu
    rw [applyLinking_contains, hw]
    exact (applyAluInner_contains hk (.inr ⟨_, rfl⟩) hv hconst).mpr hsum

theorem viewed_shiftLinked {b known : ScalarBounds} {knownDelta : Int} (hk : known.Viewed) :
    (shiftLinked b knownDelta known).Viewed := by
  unfold shiftLinked
  dsimp only
  split
  · exact viewed_relink hk
  · exact viewed_relink (viewed_applyAlu _ _ _ _)

theorem boundsEqual_iff {a b : ScalarBounds} : boundsEqual a b = true ↔
    a.smin = b.smin ∧ a.smax = b.smax ∧ a.umin = b.umin ∧ a.umax = b.umax ∧ a.tnum = b.tnum := by
  simp only [boundsEqual, Bool.and_eq_true, beq_iff_eq, and_assoc]

theorem contains_of_boundsEqual {a b : ScalarBounds} {w : UInt64} (ha : a.Viewed) (heq : boundsEqual a b = true)
    (hb : b.Contains w) : a.Contains w := by
  obtain ⟨h1, h2, h3, h4, h5⟩ := boundsEqual_iff.mp heq
  apply ha.contains
  · exact ⟨by rw [h1]; exact hb.smin, by rw [h2]; exact hb.smax, by rw [h3]; exact hb.umin, by rw [h4]; exact hb.umax⟩
  · rw [h5]
    exact hb.tnum

/-- A refinement keeps the link of its operand or drops it. -/
def Kept (b p : ScalarBounds) : Prop := (p.id = b.id ∧ p.delta = b.delta) ∨ p.id = 0

/-- The sync of one scalar, none for the id 0. -/
def syncedScalar (id : Nat) (knownDelta : Int) (known b : ScalarBounds) : ScalarBounds :=
  if id = 0 ∨ b.id ≠ id ∨ boundsEqual b known = true then b else shiftLinked b knownDelta known

theorem syncLinkedScalars_reg {st : VerifierState} {b : ScalarBounds} {r : Reg} (id : Nat) (knownDelta : Int)
    (known : ScalarBounds) (h : st.regs r = .scalar b) :
    (syncLinkedScalars st id knownDelta known).regs r = .scalar (syncedScalar id knownDelta known b) := by
  unfold syncLinkedScalars syncedScalar
  by_cases hid : id = 0
  · rw [if_pos hid, if_pos (.inl hid)]
    exact h
  · rw [if_neg hid]
    simp only [h, syncReg, hid, false_or]
    split
    · rfl
    · rfl

theorem syncedScalar_self (id : Nat) (knownDelta : Int) (b : ScalarBounds) : syncedScalar id knownDelta b b = b := by
  have h : boundsEqual b b = true := boundsEqual_iff.mpr ⟨rfl, rfl, rfl, rfl, rfl⟩
  rw [syncedScalar, if_pos (.inr (.inr h))]

theorem syncedScalar_other {id : Nat} {knownDelta : Int} {known b : ScalarBounds} (h : id = 0 ∨ b.id ≠ id) :
    syncedScalar id knownDelta known b = b := by
  rw [syncedScalar, if_pos]
  rcases h with h | h
  · exact .inl h
  · exact .inr (.inl h)

section Side

variable {dst src : Reg} {d s p q : ScalarBounds} {x y : UInt64}

theorem refinedSide_regs (st : VerifierState) (d s p q : ScalarBounds) (hne : src ≠ dst) :
    (refinedSide st dst (some src) d s (p, q)).regs dst = .scalar (syncedScalar s.id s.delta q p) ∧
    (refinedSide st dst (some src) d s (p, q)).regs src =
      .scalar (syncedScalar s.id s.delta q (syncedScalar d.id d.delta p q)) := by
  have hdst : ((st.setReg dst (.scalar p)).setReg src (.scalar q)).regs dst = .scalar p := by
    simp [VerifierState.setReg, Function.update, Ne.symm hne]
  have hsrc : ((st.setReg dst (.scalar p)).setReg src (.scalar q)).regs src = .scalar q := by
    simp [VerifierState.setReg]
  have h1 := syncLinkedScalars_reg d.id d.delta p hdst
  have h2 := syncLinkedScalars_reg d.id d.delta p hsrc
  rw [syncedScalar_self] at h1
  exact ⟨syncLinkedScalars_reg _ _ _ h1, syncLinkedScalars_reg _ _ _ h2⟩

theorem refinedSide_imm (st : VerifierState) (d s p q : ScalarBounds) :
    (refinedSide st dst none d s (p, q)).regs dst = .scalar p := by
  have hdst : (st.setReg dst (.scalar p)).regs dst = .scalar p := by
    simp [VerifierState.setReg]
  have h1 := syncLinkedScalars_reg d.id d.delta p hdst
  rw [syncedScalar_self] at h1
  exact h1

/-- Operands of different links keep their refinements. -/
theorem unlinked_side (hlink : ¬ (d.id = s.id ∧ d.id ≠ 0)) (hp : Kept d p) (hq : Kept s q) :
    syncedScalar s.id s.delta q p = p ∧ syncedScalar s.id s.delta q (syncedScalar d.id d.delta p q) = q := by
  have hfirst : syncedScalar d.id d.delta p q = q := by
    apply syncedScalar_other
    by_cases hid : d.id = 0
    · exact .inl hid
    · right
      intro h
      rcases hq with ⟨hq, -⟩ | hq
      · exact hlink ⟨h.symm.trans hq, hid⟩
      · exact hid (h.symm.trans hq)
  have hsecond : syncedScalar s.id s.delta q p = p := by
    apply syncedScalar_other
    by_cases hid : s.id = 0
    · exact .inl hid
    · right
      intro h
      rcases hp with ⟨hp, -⟩ | hp
      · have heq : d.id = s.id := hp.symm.trans h
        exact hlink ⟨heq, fun h0 => hid (heq.symm.trans h0)⟩
      · exact hid (h.symm.trans hp)
  rw [hfirst]
  exact ⟨hsecond, syncedScalar_self _ _ _⟩

/-- Operands of one link: the refinement of the second decides, shifted back to the first. -/
theorem linked_side (hlink : d.id = s.id ∧ d.id ≠ 0) (hagree : LinkAgrees d s x y) (hp : Kept d p) (hq : Kept s q)
    (hpviewed : p.Viewed) (hqsynced : q.Synced) (hqy : q.Contains y)
    (hpx : p.Contains x ∨ (p.id ≠ 0 ∧ ¬ boundsEqual p q = true)) :
    (syncedScalar s.id s.delta q p).Contains x ∧
      (syncedScalar s.id s.delta q (syncedScalar d.id d.delta p q)).Contains y := by
  obtain ⟨heq, hid⟩ := hlink
  have hy := hagree heq hid
  have hx : x = y + (Int64.ofInt (d.delta - s.delta)).toUInt64 := by
    have h := offset_neg (s.delta - d.delta) x
    rw [← hy, Int.neg_sub] at h
    exact h.symm
  have hsid : s.id ≠ 0 := fun h => hid (heq.trans h)
  constructor
  · by_cases hstay : p.id ≠ s.id ∨ boundsEqual p q = true
    · have hpx' : p.Contains x := by
        rcases hpx with h | ⟨hp0, hneq⟩
        · exact h
        · rcases hstay with hstay | hstay
          · rcases hp with ⟨hp, -⟩ | hp
            · exact absurd (hp.trans heq) hstay
            · exact absurd hp hp0
          · exact absurd hstay hneq
      rw [syncedScalar, if_pos (.inr hstay)]
      exact hpx'
    · have hpid : p.id = s.id := Classical.not_not.mp fun h => hstay (.inl h)
      have hpdelta : p.delta = d.delta := by
        rcases hp with ⟨-, hp⟩ | hp
        · exact hp
        · exact absurd (hpid.symm.trans hp) hsid
      rw [syncedScalar, if_neg (not_or.mpr ⟨hsid, hstay⟩)]
      apply shiftLinked_contains hqsynced hqy
      rw [hpdelta]
      exact hx
  · -- the first sync may spoil the second operand, but it keeps its link
    have hfirst : (syncedScalar d.id d.delta p q = q) ∨ ((syncedScalar d.id d.delta p q).id = s.id ∧
        (syncedScalar d.id d.delta p q).delta = s.delta ∧ (syncedScalar d.id d.delta p q).Viewed) := by
      by_cases hstay : d.id = 0 ∨ q.id ≠ d.id ∨ boundsEqual q p = true
      · left
        rw [syncedScalar, if_pos hstay]
      · right
        have hqid : q.id = d.id := Classical.not_not.mp fun h => hstay (.inr (.inl h))
        rw [syncedScalar, if_neg hstay]
        rcases hq with ⟨hq, hqdelta⟩ | hq
        · exact ⟨hq, hqdelta, viewed_shiftLinked hpviewed⟩
        · exact absurd (hqid.symm.trans hq) hid
    rcases hfirst with hfirst | ⟨hid1, hdelta1, hview1⟩
    · rw [hfirst, syncedScalar_self]
      exact hqy
    · generalize syncedScalar d.id d.delta p q = q1 at hid1 hdelta1 hview1
      by_cases hsame : boundsEqual q1 q = true
      · rw [syncedScalar, if_pos (.inr (.inr hsame))]
        exact contains_of_boundsEqual hview1 hsame hqy
      · rw [syncedScalar, if_neg (by simp [hsid, hid1, hsame])]
        apply shiftLinked_contains hqsynced hqy
        rw [hdelta1, Int.sub_self, show (Int64.ofInt 0).toUInt64 = 0 from rfl, UInt64.add_zero]

end Side

/-! ## A comparison of two scalars -/

theorem synced_link (b : ScalarBounds) : b.synced.id = b.id ∧ b.synced.delta = b.delta := by
  unfold ScalarBounds.synced
  split
  · exact ⟨rfl, rfl⟩
  · have h64 : b.sync64.id = b.id ∧ b.sync64.delta = b.delta := by
      unfold ScalarBounds.sync64
      split
      · exact ⟨rfl, rfl⟩
      · split
        · exact ⟨rfl, rfl⟩
        · split
          · exact ⟨rfl, rfl⟩
          · exact ⟨rfl, rfl⟩
    obtain ⟨ulo, uhi, hU⟩ := ScalarBounds.syncU32_eq b.sync64
    rw [hU]
    obtain ⟨slo, shi, hS⟩ := ScalarBounds.syncS32_eq { b.sync64 with u32Min := ulo, u32Max := uhi }
    rw [hS]
    exact h64

theorem kept_synced {b c : ScalarBounds} (hid : c.id = b.id) (hdelta : c.delta = b.delta) : Kept b c.synced :=
  .inl ⟨(synced_link c).1.trans hid, (synced_link c).2.trans hdelta⟩

theorem kept_exclude (a b : ScalarBounds) : Kept a (excludeBounds a b).synced := by
  unfold excludeBounds
  split
  · exact .inr (synced_link _).1
  · exact kept_synced rfl rfl

theorem kept_intersect (b d s : ScalarBounds) : Kept b (intersectBounds d s) := .inr (synced_link _).1

/-- A refined pair is synced and keeps the links of its operands. -/
structure RefinedOf (d s : ScalarBounds) (p : RefinedPair) : Prop where
  fst : p.1.Synced ∧ Kept d p.1
  snd : p.2.Synced ∧ Kept s p.2

theorem refinedOf_refineCmp (op : CondOp) (d s : ScalarBounds) :
    RefinedOf d s (refineCmp op d s).1 ∧ RefinedOf d s (refineCmp op d s).2 := by
  have hinter : ∀ b, (intersectBounds d s).Synced ∧ Kept b (intersectBounds d s) :=
    fun b => ⟨.inl ⟨_, rfl⟩, kept_intersect b d s⟩
  have hexclude : ∀ a b, ((excludeBounds a b).synced).Synced ∧ Kept a (excludeBounds a b).synced :=
    fun a b => ⟨.inl ⟨_, rfl⟩, kept_exclude a b⟩
  have hsigned : ∀ b r, ((withSigned b r).synced).Synced ∧ Kept b (withSigned b r).synced :=
    fun b r => ⟨.inl ⟨_, rfl⟩, kept_synced rfl rfl⟩
  have hunsigned : ∀ b r, ((withUnsigned b r).synced).Synced ∧ Kept b (withUnsigned b r).synced :=
    fun b r => ⟨.inl ⟨_, rfl⟩, kept_synced rfl rfl⟩
  unfold refineCmp
  cases op.ord with
  | none =>
    dsimp only
    split
    · exact ⟨⟨hinter d, hinter s⟩, ⟨hexclude d s, hexclude s d⟩⟩
    · exact ⟨⟨hexclude d s, hexclude s d⟩, ⟨hinter d, hinter s⟩⟩
  | some ord =>
    dsimp only
    split
    · exact ⟨⟨hsigned _ _, hsigned _ _⟩, ⟨hsigned _ _, hsigned _ _⟩⟩
    · exact ⟨⟨hunsigned _ _, hunsigned _ _⟩, ⟨hunsigned _ _, hunsigned _ _⟩⟩

/-- The cut range is not the second operand's refinement. -/
theorem cut_differs {op : CondOp} {d s : ScalarBounds} {x y : UInt64} (hs : s.Synced) (hx : d.Contains x)
    (hy : s.Contains y) (hd : d.Synced) (h : ¬ Explorer.condHolds op x y = true) (hcut : Cut op s x) :
    (refineCmp op d s).2.1.id = d.id ∧ ¬ boundsEqual (refineCmp op d s).2.1 (refineCmp op d s).2.2 = true := by
  have hyside := (refineCmp_false hd hs hx hy h).2
  have hviewed := (refinedOf_refineCmp op d s).2.fst.1.viewed
  rcases hcut with ⟨rfl, hleast, -⟩ | ⟨rfl, hleast, -⟩
  · refine ⟨(synced_link _).1, fun hsame => ?_⟩
    -- equal ranges would have the second operand, which is past the cut
    have hin := (ScalarBounds.synced_within (contains_of_boundsEqual hviewed hsame hyside).within).umax
    have hcut : y ≤ min d.umax (s.umin - 1) := hin
    have hmin := hy.umin
    rw [UInt64.le_iff_toNat_le, ScalarBounds.toNat_min, UInt64.toNat_sub, show (1 : UInt64).toNat = 1 from rfl] at hcut
    rw [UInt64.le_iff_toNat_le] at hmin
    have hpos : s.umin.toNat ≠ 0 := fun h => hleast (UInt64.toNat_inj.mp h)
    have hlt := s.umin.toNat_lt
    omega
  · refine ⟨(synced_link _).1, fun hsame => ?_⟩
    have hin := (ScalarBounds.synced_within (contains_of_boundsEqual hviewed hsame hyside).within).smax
    have hcut : y.toInt64 ≤ min d.smax (s.smin - 1) := hin
    have hmin := hy.smin
    rw [Int64.le_iff_toInt_le] at hmin
    have hlow := s.smin.le_toInt
    have hhigh := s.smin.toInt_lt
    have hpos : s.smin.toInt ≠ -2 ^ 63 := fun h => hleast (Int64.toInt_inj.mp (h.trans rfl))
    rw [Int64.le_iff_toInt_le, ScalarBounds.toInt_min, Int64.toInt_sub, show (1 : Int64).toInt = 1 from rfl,
      Int.bmod_eq_of_le (by omega) (by omega)] at hcut
    omega

/-! ## Conditional instructions -/

inductive Operand where
  | reg (r : Reg)
  | imm (i : Int32)
  deriving DecidableEq, Repr

inductive Test where
  | cmp (op : CondOp)
  | jset
  | jmp32 (op : Jmp32Op)
  deriving DecidableEq, Repr

/-- The parts of a conditional instruction. -/
structure Conditional where
  dst : Reg
  src : Operand
  offset : Int16
  test : Test
  deriving DecidableEq, Repr

def conditional : BpfInsn → Option Conditional
  | .jeq dst src offset => some ⟨dst, .reg src, offset, .cmp .eq⟩
  | .jne dst src offset => some ⟨dst, .reg src, offset, .cmp .ne⟩
  | .jgt dst src offset => some ⟨dst, .reg src, offset, .cmp .ugt⟩
  | .jge dst src offset => some ⟨dst, .reg src, offset, .cmp .uge⟩
  | .jlt dst src offset => some ⟨dst, .reg src, offset, .cmp .ult⟩
  | .jle dst src offset => some ⟨dst, .reg src, offset, .cmp .ule⟩
  | .jsgt dst src offset => some ⟨dst, .reg src, offset, .cmp .sgt⟩
  | .jsge dst src offset => some ⟨dst, .reg src, offset, .cmp .sge⟩
  | .jslt dst src offset => some ⟨dst, .reg src, offset, .cmp .slt⟩
  | .jsle dst src offset => some ⟨dst, .reg src, offset, .cmp .sle⟩
  | .jeqImm dst imm offset => some ⟨dst, .imm imm, offset, .cmp .eq⟩
  | .jneImm dst imm offset => some ⟨dst, .imm imm, offset, .cmp .ne⟩
  | .jgtImm dst imm offset => some ⟨dst, .imm imm, offset, .cmp .ugt⟩
  | .jgeImm dst imm offset => some ⟨dst, .imm imm, offset, .cmp .uge⟩
  | .jltImm dst imm offset => some ⟨dst, .imm imm, offset, .cmp .ult⟩
  | .jleImm dst imm offset => some ⟨dst, .imm imm, offset, .cmp .ule⟩
  | .jsgtImm dst imm offset => some ⟨dst, .imm imm, offset, .cmp .sgt⟩
  | .jsgeImm dst imm offset => some ⟨dst, .imm imm, offset, .cmp .sge⟩
  | .jsltImm dst imm offset => some ⟨dst, .imm imm, offset, .cmp .slt⟩
  | .jsleImm dst imm offset => some ⟨dst, .imm imm, offset, .cmp .sle⟩
  | .jset dst src offset => some ⟨dst, .reg src, offset, .jset⟩
  | .jsetImm dst imm offset => some ⟨dst, .imm imm, offset, .jset⟩
  | .jmp32 dst (some src) _ offset op => some ⟨dst, .reg src, offset, .jmp32 op⟩
  | .jmp32 dst none (some imm) offset op => some ⟨dst, .imm imm, offset, .jmp32 op⟩
  | _ => none

/-- Every conditional instruction has its parts, a 32-bit jump without an operand apart. -/
theorem conditional_isSome {insn : BpfInsn} (h : insn.isConditionalBranch = true)
    (hop : ∀ dst offset op, insn ≠ .jmp32 dst none none offset op) : (conditional insn).isSome = true := by
  cases insn with
  | jmp32 dst src imm offset op =>
    cases src with
    | some src => rfl
    | none =>
      cases imm with
      | some imm => rfl
      | none => exact absurd rfl (hop dst offset op)
  | _ => first | rfl | cases h

/-- The bounds of a source operand; an immediate is a constant. -/
def Operand.bounds (st : VerifierState) : Operand → Option ScalarBounds
  | reg r => match st.regs r with
    | .scalar b => some b
    | _ => none
  | imm i => some (.constant i.toInt64)

/-- The word of a source operand; an immediate is sign-extended. -/
def Operand.word (cs : Explorer.ConcreteState) : Operand → Option UInt64
  | reg r => match cs.regs r with
    | some (.scalar w) => some w
    | _ => none
  | imm i => some i.toInt64.toUInt64

def Test.holds (t : Test) (x y : UInt64) : Bool :=
  match t with
  | cmp op => Explorer.condHolds op x y
  | jset => x &&& y != 0
  | jmp32 op => Explorer.jmp32Holds op x.toUInt32 y.toUInt32

/-- Where the words lead. -/
def Conditional.target (c : Conditional) (pc : Nat) (x y : UInt64) : Nat :=
  if c.test.holds x y then branchTarget pc c.offset else pc + 1

theorem low_of_imm (i : Int32) : i.toInt64.toUInt64.toUInt32 = i.toUInt32 := by
  rw [← UInt32.toBitVec_inj]
  apply BitVec.eq_of_getLsbD_eq
  intro k hk
  have hk64 : k < 64 := by omega
  show ((i.toBitVec.signExtend 64).setWidth 32).getLsbD k = i.toBitVec.getLsbD k
  rw [BitVec.getLsbD_setWidth, BitVec.getLsbD_signExtend]
  simp [hk, hk64]

section Machine

open Explorer

variable {pc : Nat} {cs : Explorer.ConcreteState} {dst src : Reg} {imm : Int32} {offset : Int16} {x y : UInt64}

theorem concreteCond_step {op : CondOp} (hx : cs.regs dst = some (.scalar x)) (hy : cs.regs src = some (.scalar y)) :
    concreteCond pc dst src offset op cs = .ok (branchTo pc cs offset (condHolds op x y)) := by
  simp only [concreteCond, readConcreteReg, hx, hy]
  rfl

theorem concreteCondImm_step {op : CondOp} (hx : cs.regs dst = some (.scalar x)) :
    concreteCondImm pc dst imm offset op cs = .ok (branchTo pc cs offset (condHolds op x imm.toInt64.toUInt64)) := by
  simp only [concreteCondImm, readConcreteReg, hx]
  rfl

theorem concreteJset_step (hx : cs.regs dst = some (.scalar x)) (hy : cs.regs src = some (.scalar y)) :
    concreteJset pc dst src offset cs = .ok (branchTo pc cs offset (x &&& y != 0)) := by
  simp only [concreteJset, readConcreteReg, hx, hy]
  rfl

theorem concreteJsetImm_step (hx : cs.regs dst = some (.scalar x)) :
    concreteJsetImm pc dst imm offset cs = .ok (branchTo pc cs offset (x &&& imm.toInt64.toUInt64 != 0)) := by
  simp only [concreteJsetImm, readConcreteScalar, readConcreteReg, hx]
  rfl

theorem concreteJmp32_step {op : Jmp32Op} {imm : Option Int32} (hx : cs.regs dst = some (.scalar x))
    (hy : cs.regs src = some (.scalar y)) :
    concreteJmp32 pc dst (some src) imm offset op cs =
      .ok (branchTo pc cs offset (jmp32Holds op x.toUInt32 y.toUInt32)) := by
  simp only [concreteJmp32, Explorer.jmp32Operand, readConcreteScalar, readConcreteReg, hx, hy]
  rfl

theorem concreteJmp32_step_imm {op : Jmp32Op} (hx : cs.regs dst = some (.scalar x)) :
    concreteJmp32 pc dst none (some imm) offset op cs =
      .ok (branchTo pc cs offset (jmp32Holds op x.toUInt32 imm.toInt64.toUInt64.toUInt32)) := by
  rw [low_of_imm]
  simp only [concreteJmp32, Explorer.jmp32Operand, readConcreteScalar, readConcreteReg, hx]
  rfl

/-- The machine's step of a conditional instruction on words. -/
theorem conditional_step {insn : BpfInsn} {c : Conditional} (hc : conditional insn = some c)
    (hx : cs.regs c.dst = some (.scalar x)) (hy : c.src.word cs = some y) :
    pureSuccessors pc insn cs = .ok [(c.target pc x y, cs)] := by
  have hreg : ∀ r, (Operand.reg r).word cs = some y → cs.regs r = some (.scalar y) := by
    intro r h
    simp only [Operand.word] at h
    split at h
    · rename_i hr
      cases h
      exact hr
    · cases h
  have himm : ∀ i, (Operand.imm i).word cs = some y → i.toInt64.toUInt64 = y := fun i h => Option.some_inj.mp h
  cases insn with
  | jset dst src offset =>
    cases hc
    exact concreteJset_step hx (hreg _ hy)
  | jsetImm dst imm offset =>
    cases hc
    rw [← himm _ hy]
    exact concreteJsetImm_step hx
  | jmp32 dst src imm offset op =>
    cases src with
    | some src =>
      cases hc
      exact concreteJmp32_step hx (hreg _ hy)
    | none =>
      cases imm with
      | some imm =>
        cases hc
        rw [← himm _ hy]
        exact concreteJmp32_step_imm hx
      | none => cases hc
  | jeqImm | jneImm | jgtImm | jgeImm | jltImm | jleImm | jsgtImm | jsgeImm | jsltImm | jsleImm =>
    cases hc
    rw [← himm _ hy]
    exact concreteCondImm_step hx
  | jeq | jne | jgt | jge | jlt | jle | jsgt | jsge | jslt | jsle =>
    cases hc
    exact concreteCond_step hx (hreg _ hy)
  | _ => cases hc

end Machine


/-! ## Verdicts of bit tests and 32-bit jumps -/

section Verdicts

variable {d s : ScalarBounds} {x y : UInt64}

theorem known_one {t : Tnum} {w : UInt64} {i : Nat} (ht : t.Contains w) (h : t.knownOnes.toBitVec.getLsbD i = true) :
    w.toBitVec.getLsbD i = true := by
  have hi : i < 64 := by
    by_contra hge
    rw [BitVec.getLsbD_of_ge _ _ (by omega)] at h
    cases h
  simp only [Tnum.knownOnes, UInt64.toBitVec_and, UInt64.toBitVec_not, BitVec.getLsbD_and, BitVec.getLsbD_not,
    Bool.and_eq_true, decide_eq_true_eq, Bool.not_eq_true'] at h
  rw [Tnum.contains_iff.mp ht i hi h.2.2]
  exact h.1

theorem possible_one {t : Tnum} {w : UInt64} {i : Nat} (ht : t.Contains w) (h : w.toBitVec.getLsbD i = true) :
    (t.value ||| t.mask).toBitVec.getLsbD i = true := by
  have hi : i < 64 := by
    by_contra hge
    rw [BitVec.getLsbD_of_ge _ _ (by omega)] at h
    cases h
  rw [UInt64.toBitVec_or, BitVec.getLsbD_or]
  cases hm : t.mask.toBitVec.getLsbD i with
  | true => exact Bool.or_true _
  | false =>
    rw [← Tnum.contains_iff.mp ht i hi hm, h]
    rfl

/-- A word with no bit set is zero. -/
theorem eq_zero_of_bits {w : UInt64} (h : ∀ i, w.toBitVec.getLsbD i = false) : w = 0 := by
  rw [← UInt64.toBitVec_inj]
  apply BitVec.eq_of_getLsbD_eq
  intro i _
  rw [h i]
  exact (BitVec.getLsbD_zero ..).symm

theorem jsetVerdict_sound {b : Bool} (hx : d.Contains x) (hy : s.Contains y) (h : jsetVerdict d s = some b) :
    (x &&& y != 0) = b := by
  unfold jsetVerdict at h
  split at h
  · rename_i hconst
    cases h
    rw [(eq_of_constant hconst.1 hx).2, (eq_of_constant hconst.2 hy).2]
  · split at h
    · rename_i hones
      cases h
      rw [bne_iff_ne]
      intro hzero
      apply hones
      apply eq_zero_of_bits
      intro i
      rw [UInt64.toBitVec_and, BitVec.getLsbD_and]
      by_contra hbit
      rw [Bool.not_eq_false, Bool.and_eq_true] at hbit
      have hone : (x &&& y).toBitVec.getLsbD i = true := by
        rw [UInt64.toBitVec_and, BitVec.getLsbD_and, known_one hx.tnum hbit.1, known_one hy.tnum hbit.2]
        rfl
      rw [hzero] at hone
      exact absurd hone (by simp)
    · split at h
      · rename_i hnone
        cases h
        rw [bne_eq_false_iff_eq]
        apply eq_zero_of_bits
        intro i
        rw [UInt64.toBitVec_and, BitVec.getLsbD_and]
        by_contra hbit
        rw [Bool.not_eq_false, Bool.and_eq_true] at hbit
        have hone : ((d.tnum.value ||| d.tnum.mask) &&& (s.tnum.value ||| s.tnum.mask)).toBitVec.getLsbD i = true := by
          rw [UInt64.toBitVec_and, BitVec.getLsbD_and, possible_one hx.tnum hbit.1, possible_one hy.tnum hbit.2]
          rfl
        rw [hnone] at hone
        exact absurd hone (by simp)
      · cases h

theorem jmp32Verdict_sound {op : Jmp32Op} {b : Bool} (hx : d.Contains x) (hy : s.Contains y)
    (h : jmp32Verdict d s op = some b) : Explorer.jmp32Holds op x.toUInt32 y.toUInt32 = b := by
  unfold jmp32Verdict at h
  split at h
  · cases h
  · rename_i hconst
    rw [Classical.not_not] at hconst
    rw [(eq_of_constant hconst.1 hx).2, (eq_of_constant hconst.2 hy).2] at h
    dsimp only at h
    cases op <;> cases h <;> rfl

end Verdicts

/-! ## The successors -/

/-- A register still holds a word. -/
def HasWord (st : VerifierState) (r : Reg) (w : UInt64) : Prop := ∃ b, st.regs r = .scalar b ∧ b.Contains w

def Operand.HasWord (st : VerifierState) (o : Operand) (w : UInt64) : Prop :=
  match o with
  | reg r => RandVerifier.HasWord st r w
  | imm _ => True

/-- The successors include a state at the target that still holds both words. -/
def Follows (succs : List Succ) (c : Conditional) (target : Nat) (x y : UInt64) : Prop :=
  ∃ st', (target, st') ∈ succs ∧ HasWord st' c.dst x ∧ c.src.HasWord st' y

/-- The greatest value of the first operand is below the second word. -/
def Beyond (op : CondOp) (d : ScalarBounds) (y : UInt64) : Prop :=
  match op with
  | .uge => d.umax < y
  | .sge => d.smax < y.toInt64
  | _ => False

/-- The false side of `≥` between unlinked operands loses the first word; it is found again
    only at a jump to the next instruction, on the other side. -/
def GeGap (c : Conditional) (pc : Nat) (d s : ScalarBounds) (x y : UInt64) : Prop :=
  ∃ op, c.test = .cmp op ∧ ¬ (d.id = s.id ∧ d.id ≠ 0) ∧ Explorer.condHolds op x y = false ∧ Cut op s x ∧
    (branchTarget pc c.offset = pc + 1 → Beyond op d y)

section Successors

variable {pc : Nat} {st : VerifierState} {dst src : Reg} {offset : Int16} {op : CondOp} {d s : ScalarBounds}
  {x y : UInt64}

theorem scalarBranch_taken {takenPc fallPc : Nat} {srcReg : Option Reg} (hx : d.Contains x) (hy : s.Contains y)
    (h : Explorer.condHolds op x y = true) :
    (takenPc, refinedSide st dst srcReg d s (refineCmp op d s).1) ∈ scalarBranch takenPc fallPc dst srcReg d s op st := by
  have hverdict : isBranchTaken op d s = .alwaysNotTaken → ¬ Explorer.condHolds op x y = true :=
    (isBranchTaken_sound hx hy).2
  unfold scalarBranch
  dsimp only
  cases hv : isBranchTaken op d s with
  | alwaysTaken => simp
  | alwaysNotTaken => exact absurd h (hverdict hv)
  | unknown => simp

theorem scalarBranch_fall {takenPc fallPc : Nat} {srcReg : Option Reg} (hx : d.Contains x) (hy : s.Contains y)
    (h : ¬ Explorer.condHolds op x y = true) :
    (fallPc, refinedSide st dst srcReg d s (refineCmp op d s).2) ∈ scalarBranch takenPc fallPc dst srcReg d s op st := by
  have hverdict : isBranchTaken op d s = .alwaysTaken → Explorer.condHolds op x y = true :=
    (isBranchTaken_sound hx hy).1
  unfold scalarBranch
  dsimp only
  cases hv : isBranchTaken op d s with
  | alwaysTaken => exact absurd (hverdict hv) h
  | alwaysNotTaken => simp
  | unknown => simp

theorem mem_scalarBranch {takenPc fallPc : Nat} {srcReg : Option Reg} {e : Succ}
    (h : e ∈ scalarBranch takenPc fallPc dst srcReg d s op st) :
    e = (takenPc, refinedSide st dst srcReg d s (refineCmp op d s).1) ∨
      e = (fallPc, refinedSide st dst srcReg d s (refineCmp op d s).2) := by
  unfold scalarBranch at h
  dsimp only at h
  cases hv : isBranchTaken op d s with
  | alwaysTaken =>
    rw [hv] at h
    exact .inl (List.mem_singleton.mp h)
  | alwaysNotTaken =>
    rw [hv] at h
    exact .inr (List.mem_singleton.mp h)
  | unknown =>
    rw [hv] at h
    simpa using h

/-- A side with good refinements keeps the words. -/
theorem side_follows {p : RefinedPair} (hne : src ≠ dst) (hp : RefinedOf d s p) (hagree : LinkAgrees d s x y)
    (hfst : p.1.Contains x ∨ ((d.id = s.id ∧ d.id ≠ 0) ∧ p.1.id = d.id ∧ ¬ boundsEqual p.1 p.2 = true))
    (hsnd : p.2.Contains y) :
    HasWord (refinedSide st dst (some src) d s p) dst x ∧ HasWord (refinedSide st dst (some src) d s p) src y := by
  obtain ⟨hdst, hsrc⟩ := refinedSide_regs st d s p.1 p.2 hne
  by_cases hlink : d.id = s.id ∧ d.id ≠ 0
  · obtain ⟨h1, h2⟩ := linked_side hlink hagree hp.fst.2 hp.snd.2 hp.fst.1.viewed hp.snd.1 hsnd (by
      rcases hfst with h | ⟨-, hid, hdiff⟩
      · exact .inl h
      · exact .inr ⟨fun h0 => hlink.2 (hid.symm.trans h0), hdiff⟩)
    exact ⟨⟨_, hdst, h1⟩, ⟨_, hsrc, h2⟩⟩
  · obtain ⟨h1, h2⟩ := unlinked_side hlink hp.fst.2 hp.snd.2
    rw [h1] at hdst
    rw [h2] at hsrc
    rcases hfst with h | ⟨h, -⟩
    · exact ⟨⟨_, hdst, h⟩, ⟨_, hsrc, hsnd⟩⟩
    · exact absurd h hlink

/-- An unlinked side keeps the words only where its refinements do. -/
theorem unlinked_follows {p : RefinedPair} (x y : UInt64) (hne : src ≠ dst) (hp : RefinedOf d s p)
    (hlink : ¬ (d.id = s.id ∧ d.id ≠ 0)) :
    (HasWord (refinedSide st dst (some src) d s p) dst x ↔ p.1.Contains x) ∧
      (HasWord (refinedSide st dst (some src) d s p) src y ↔ p.2.Contains y) := by
  obtain ⟨hdst, hsrc⟩ := refinedSide_regs st d s p.1 p.2 hne
  obtain ⟨h1, h2⟩ := unlinked_side hlink hp.fst.2 hp.snd.2
  rw [h1] at hdst
  rw [h2] at hsrc
  constructor
  · constructor
    · rintro ⟨b, hb, hc⟩
      rw [hdst] at hb
      cases hb
      exact hc
    · intro h
      exact ⟨_, hdst, h⟩
  · constructor
    · rintro ⟨b, hb, hc⟩
      rw [hsrc] at hb
      cases hb
      exact hc
    · intro h
      exact ⟨_, hsrc, h⟩

/-- The true side of `≥` on words below it: the first operand is past the cut, the second
    within the first one's range. -/
theorem cut_other_side (hd : d.Synced) (hs : s.Synced) (hx : d.Contains x) (hy : s.Contains y) (hcut : Cut op s x) :
    (refineCmp op d s).1.1.Contains x ∧ ((refineCmp op d s).1.2.Contains y ↔ ¬ Beyond op d y) ∧
      isBranchTaken op d s ≠ .alwaysNotTaken := by
  rcases hcut with ⟨rfl, -, hin⟩ | ⟨rfl, -, hin⟩
  · have hx1 := UInt64.le_iff_toNat_le.mp hx.umin
    have hx2 := UInt64.le_iff_toNat_le.mp hx.umax
    have hy1 := UInt64.le_iff_toNat_le.mp hy.umin
    have hy2 := UInt64.le_iff_toNat_le.mp hy.umax
    have hin' := UInt64.le_iff_toNat_le.mp hin
    refine ⟨(withUnsigned_contains hd hx).mpr ⟨?_, Int.ofNat_le.mpr hx2⟩, (withUnsigned_contains hs hy).trans ?_, ?_⟩
    · show ((max d.umin s.umin).toNat : Int) ≤ _
      rw [ScalarBounds.toNat_max]
      omega
    · show (s.umin.toNat : Int) ≤ y.toNat ∧ (y.toNat : Int) ≤ ((min s.umax d.umax).toNat : Int) ↔ ¬ d.umax < y
      rw [ScalarBounds.toNat_min, UInt64.lt_iff_toNat_lt]
      omega
    · intro hv
      have hleast : Reading.unsigned.Has s.unsigned s.umin.toNat :=
        ⟨Int.le_refl _, Int.ofNat_le.mpr (Nat.le_trans hy1 hy2)⟩
      have hordered : orderedVerdict .ge d.unsigned s.unsigned = .alwaysNotTaken := hv
      exact (orderedVerdict_sound _ (unsigned_has hx) hleast).2 hordered (Int.ofNat_le.mpr hin')
  · have hx1 := Int64.le_iff_toInt_le.mp hx.smin
    have hx2 := Int64.le_iff_toInt_le.mp hx.smax
    have hy1 := Int64.le_iff_toInt_le.mp hy.smin
    have hy2 := Int64.le_iff_toInt_le.mp hy.smax
    have hin' := Int64.le_iff_toInt_le.mp hin
    refine ⟨(withSigned_contains hd hx).mpr ⟨?_, hx2⟩, (withSigned_contains hs hy).trans ?_, ?_⟩
    · show (max d.smin s.smin).toInt ≤ _
      rw [ScalarBounds.toInt_max]
      omega
    · show s.smin.toInt ≤ y.toInt64.toInt ∧ y.toInt64.toInt ≤ (min s.smax d.smax).toInt ↔ ¬ d.smax < y.toInt64
      rw [ScalarBounds.toInt_min, Int64.lt_iff_toInt_lt]
      omega
    · intro hv
      have hleast : Reading.signed.Has s.signed s.smin.toInt := ⟨Int.le_refl _, Int.le_trans hy1 hy2⟩
      have hordered : orderedVerdict .ge d.signed s.signed = .alwaysNotTaken := hv
      exact (orderedVerdict_sound _ (signed_has hx) hleast).2 hordered hin'

/-- The branch of two registers. -/
theorem scalarBranch_follows (st : VerifierState) (hne : src ≠ dst) (hd : d.Synced) (hs : s.Synced) (hx : d.Contains x)
    (hy : s.Contains y) (hagree : LinkAgrees d s x y) :
    Follows (scalarBranch (branchTarget pc offset) (pc + 1) dst (some src) d s op st)
      ⟨dst, .reg src, offset, .cmp op⟩ (Conditional.target ⟨dst, .reg src, offset, .cmp op⟩ pc x y) x y ↔
      ¬ GeGap ⟨dst, .reg src, offset, .cmp op⟩ pc d s x y := by
  obtain ⟨htrue, hfalse⟩ := refinedOf_refineCmp op d s
  by_cases h : Explorer.condHolds op x y = true
  · have htarget : Conditional.target ⟨dst, .reg src, offset, .cmp op⟩ pc x y = branchTarget pc offset := if_pos h
    rw [htarget]
    obtain ⟨h1, h2⟩ := refineCmp_true hd hs hx hy h
    refine iff_of_true ⟨_, scalarBranch_taken hx hy h, side_follows hne htrue hagree (.inl h1) h2⟩ ?_
    rintro ⟨op', hop, -, hfall, -⟩
    cases hop
    rw [h] at hfall
    cases hfall
  · have htarget : Conditional.target ⟨dst, .reg src, offset, .cmp op⟩ pc x y = pc + 1 := if_neg h
    rw [htarget]
    obtain ⟨h1, h2⟩ := refineCmp_false hd hs hx hy h
    have hmem : (pc + 1, refinedSide st dst (some src) d s (refineCmp op d s).2) ∈
        scalarBranch (branchTarget pc offset) (pc + 1) dst (some src) d s op st := scalarBranch_fall hx hy h
    by_cases hcut : Cut op s x
    · by_cases hlink : d.id = s.id ∧ d.id ≠ 0
      · obtain ⟨hid, hdiff⟩ := cut_differs hs hx hy hd h hcut
        refine iff_of_true ⟨_, hmem, side_follows hne hfalse hagree (.inr ⟨hlink, hid, hdiff⟩) h2⟩ ?_
        rintro ⟨op', hop, hunlinked, -⟩
        exact hunlinked hlink
      · -- only the other side at the same target can have both words
        have hother := cut_other_side hd hs hx hy hcut
        constructor
        · rintro ⟨st', hst', hxw, hyw⟩ ⟨op', hop, -, -, -, hbeyond⟩
          cases hop
          rcases mem_scalarBranch hst' with he | he
          · obtain ⟨hpc, rfl⟩ := Prod.mk.inj he
            have hy' := (unlinked_follows x y hne htrue hlink).2.mp hyw
            exact hother.2.1.mp hy' (hbeyond hpc.symm)
          · obtain ⟨-, rfl⟩ := Prod.mk.inj he
            exact h1.mp ((unlinked_follows x y hne hfalse hlink).1.mp hxw) hcut
        · intro hgap
          by_cases hsame : branchTarget pc offset = pc + 1
          · have hnot : ¬ Beyond op d y := fun hb =>
              hgap ⟨op, rfl, hlink, by simpa using h, hcut, fun _ => hb⟩
            have htaken : (pc + 1, refinedSide st dst (some src) d s (refineCmp op d s).1) ∈
                scalarBranch (branchTarget pc offset) (pc + 1) dst (some src) d s op st := by
              unfold scalarBranch
              dsimp only
              rw [hsame]
              cases hv : isBranchTaken op d s with
              | alwaysNotTaken => exact absurd hv hother.2.2
              | alwaysTaken => simp
              | unknown => simp
            exact ⟨_, htaken, side_follows hne htrue hagree (.inl hother.1) (hother.2.1.mpr hnot)⟩
          · exact absurd ⟨op, rfl, hlink, by simpa using h, hcut, fun hpc => absurd hpc hsame⟩ hgap
    · refine iff_of_true ⟨_, hmem, side_follows hne hfalse hagree (.inl (h1.mpr hcut)) h2⟩ ?_
      rintro ⟨op', hop, -, -, hcut', -⟩
      cases hop
      exact hcut hcut'

/-- An immediate is not cut: it is its own least value. -/
theorem imm_not_cut {imm : Int32} (h : ¬ Explorer.condHolds op x imm.toInt64.toUInt64 = true) :
    ¬ Cut op (.constant imm.toInt64) x := by
  rintro (⟨rfl, -, hcut⟩ | ⟨rfl, -, hcut⟩)
  · exact h (decide_eq_true hcut)
  · refine h (decide_eq_true ?_)
    rw [Int64.toInt64_toUInt64]
    exact hcut

theorem imm_no_gap {imm : Int32} :
    ¬ GeGap ⟨dst, .imm imm, offset, .cmp op⟩ pc d (.constant imm.toInt64) x imm.toInt64.toUInt64 := by
  rintro ⟨op', hop, -, hfall, hcut, -⟩
  cases hop
  exact imm_not_cut (by simpa using hfall) hcut

/-- The branch of a register and an immediate. -/
theorem scalarBranch_imm {imm : Int32} (hd : d.Synced) (hx : d.Contains x) :
    Follows (scalarBranch (branchTarget pc offset) (pc + 1) dst none d (.constant imm.toInt64) op st)
      ⟨dst, .imm imm, offset, .cmp op⟩
      (Conditional.target ⟨dst, .imm imm, offset, .cmp op⟩ pc x imm.toInt64.toUInt64) x imm.toInt64.toUInt64 := by
  have hconst := ScalarBounds.constant_contains imm.toInt64.toUInt64
  rw [Int64.toInt64_toUInt64] at hconst
  have hs : (ScalarBounds.constant imm.toInt64).Synced := .inr ⟨_, rfl⟩
  by_cases h : Explorer.condHolds op x imm.toInt64.toUInt64 = true
  · have htarget : Conditional.target ⟨dst, .imm imm, offset, .cmp op⟩ pc x imm.toInt64.toUInt64 =
        branchTarget pc offset := if_pos h
    rw [htarget]
    exact ⟨_, scalarBranch_taken hx hconst h,
      ⟨_, refinedSide_imm _ _ _ _ _, (refineCmp_true hd hs hx hconst h).1⟩, trivial⟩
  · have htarget : Conditional.target ⟨dst, .imm imm, offset, .cmp op⟩ pc x imm.toInt64.toUInt64 = pc + 1 :=
      if_neg h
    rw [htarget]
    exact ⟨_, scalarBranch_fall hx hconst h,
      ⟨_, refinedSide_imm _ _ _ _ _, (refineCmp_false hd hs hx hconst h).1.mpr (imm_not_cut h)⟩, trivial⟩

theorem condBranch_scalars (hne : src ≠ dst) (hdst : st.regs dst = .scalar d) (hsrc : st.regs src = .scalar s) :
    condBranch pc dst src offset op st =
      .ok (scalarBranch (branchTarget pc offset) (pc + 1) dst (some src) d s op st) := by
  simp only [condBranch, readReg, hdst, hsrc, hne, false_and, if_false, condBranchImpl]
  rfl

theorem condBranch_self (hdst : st.regs dst = .scalar d) :
    condBranch pc dst dst offset op st =
      .ok [if op.isReflexive then (branchTarget pc offset, st) else (pc + 1, st)] := by
  simp only [condBranch, readReg, hdst]
  rfl

theorem condBranchImm_scalar {imm : Int32} (hdst : st.regs dst = .scalar d) :
    condBranchImm pc dst imm offset op st =
      .ok (scalarBranch (branchTarget pc offset) (pc + 1) dst none d (.constant imm.toInt64) op st) := by
  simp only [condBranchImm, condBranchImpl, readReg, hdst]
  rfl

/-- A word compares with itself as the operator says. -/
theorem condHolds_self (op : CondOp) (x : UInt64) : Explorer.condHolds op x x = op.isReflexive := by
  cases op <;> simp [Explorer.condHolds, CondOp.isReflexive]

theorem branchOrBoth_mem {taken : Bool} {v : Option Bool} (hv : ∀ b, v = some b → taken = b) :
    (if taken then branchTarget pc offset else pc + 1, st) ∈ branchOrBoth pc offset v st := by
  cases v with
  | none =>
    cases taken with
    | true => simp [branchOrBoth]
    | false => simp [branchOrBoth]
  | some b =>
    rw [hv b rfl]
    cases b with
    | true => simp [branchOrBoth]
    | false => simp [branchOrBoth]

/-- The fall-through of a bit test: the tested bits are clear. -/
theorem jsetNotTaken_hasWord {imm : Int32} (hd : d.Synced) (hdst : st.regs dst = .scalar d) (hx : d.Contains x)
    (hclear : x &&& imm.toInt64.toUInt64 = 0) : HasWord (jsetNotTaken dst imm st) dst x := by
  have hmask : (~~~imm).toInt64.toUInt64 = ~~~imm.toInt64.toUInt64 := by
    rw [← UInt64.toBitVec_inj]
    apply BitVec.eq_of_getLsbD_eq
    intro k hk
    show ((~~~imm.toBitVec).signExtend 64).getLsbD k = (~~~(imm.toBitVec.signExtend 64)).getLsbD k
    rw [BitVec.signExtend_not (by decide)]
  have hkeep : aluConst64 .and x (~~~imm).toInt64.toUInt64 = x := by
    show x &&& (~~~imm).toInt64.toUInt64 = x
    rw [hmask, ← UInt64.toBitVec_inj]
    apply BitVec.eq_of_getLsbD_eq
    intro k hk
    have hbit : (x &&& imm.toInt64.toUInt64).toBitVec.getLsbD k = false := by
      rw [hclear]
      exact BitVec.getLsbD_zero ..
    rw [UInt64.toBitVec_and, BitVec.getLsbD_and] at hbit
    rw [UInt64.toBitVec_and, UInt64.toBitVec_not, BitVec.getLsbD_and, BitVec.getLsbD_not]
    cases hxk : x.toBitVec.getLsbD k with
    | false => rfl
    | true =>
      rw [hxk, Bool.true_and] at hbit
      rw [hbit]
      simp [hk]
  have hconst := ScalarBounds.constant_contains (~~~imm).toInt64.toUInt64
  rw [Int64.toInt64_toUInt64] at hconst
  have hand : ¬ TransferGap .and d (.constant (~~~imm).toInt64) x (~~~imm).toInt64.toUInt64 := id
  have hresult := (applyAluInner_contains hd (.inr ⟨_, rfl⟩) hx hconst).mpr hand
  rw [hkeep] at hresult
  refine ⟨applyAlu .and .w64 d (.constant (~~~imm).toInt64), ?_, ?_⟩
  · simp [jsetNotTaken, hdst, VerifierState.setReg]
  · unfold applyAlu
    rw [applyLinking_contains]
    exact hresult

end Successors

theorem operand_reg {st : VerifierState} {cs : Explorer.ConcreteState} {r : Reg} {s : ScalarBounds} {y : UInt64}
    (hs : (Operand.reg r).bounds st = some s) (hy : (Operand.reg r).word cs = some y) :
    st.regs r = .scalar s ∧ cs.regs r = some (.scalar y) := by
  simp only [Operand.bounds, Operand.word] at hs hy
  constructor
  · split at hs
    · rename_i hr
      cases hs
      exact hr
    · cases hs
  · split at hy
    · rename_i hr
      cases hy
      exact hr
    · cases hy

/-- Where the successors of an instruction lead, the failure included. -/
def StepFollows (r : Exec (List Succ)) (c : Conditional) (pc : Nat) (x y : UInt64) : Prop :=
  ∃ succs, r = .ok succs ∧ Follows succs c (c.target pc x y) x y

section Forms

variable {pc : Nat} {st : VerifierState} {cs : Explorer.ConcreteState} {dst src : Reg} {offset : Int16} {imm : Int32}
  {d s : ScalarBounds} {x y : UInt64} (hdst : st.regs dst = .scalar d) (hd : d.Synced) (hdx : d.Contains x)
include hdst hd hdx

theorem condBranch_follows {op : CondOp} (hsrc : st.regs src = .scalar s) (hs : s.Synced) (hsy : s.Contains y)
    (hsame : src = dst → x = y) (hlink : LinkAgrees d s x y) :
    StepFollows (condBranch pc dst src offset op st) ⟨dst, .reg src, offset, .cmp op⟩ pc x y ↔
      ¬ GeGap ⟨dst, .reg src, offset, .cmp op⟩ pc d s x y := by
  by_cases hne : src = dst
  · have hxy := hsame hne
    subst hne hxy
    have hself := condHolds_self op x
    refine iff_of_true ⟨_, condBranch_self hdst, st, ?_, ⟨d, hdst, hdx⟩, ⟨s, hsrc, hsy⟩⟩ ?_
    · simp only [Conditional.target, Test.holds, hself, List.mem_singleton]
      split
      · rfl
      · rfl
    · rintro ⟨op', hop, -, hfall, hcut, -⟩
      cases hop
      rcases hcut with ⟨rfl, -⟩ | ⟨rfl, -⟩
      · exact absurd (hself.symm.trans hfall) (by decide)
      · exact absurd (hself.symm.trans hfall) (by decide)
  · rw [← scalarBranch_follows st hne hd hs hdx hsy hlink, StepFollows, condBranch_scalars hne hdst hsrc]
    constructor
    · rintro ⟨succs, hok, hfollows⟩
      cases hok
      exact hfollows
    · intro hfollows
      exact ⟨_, rfl, hfollows⟩

theorem condBranchImm_follows {op : CondOp} :
    StepFollows (condBranchImm pc dst imm offset op st) ⟨dst, .imm imm, offset, .cmp op⟩ pc x imm.toInt64.toUInt64 :=
  ⟨_, condBranchImm_scalar hdst, scalarBranch_imm hd hdx⟩

omit hdst hd hdx in
/-- A jump whose verdict is sound and that keeps the state. -/
theorem branchOrBoth_follows (c : Conditional) {v : Option Bool} (hdst : st.regs c.dst = .scalar d)
    (hsrc : c.src.bounds st = some s) (hdx : d.Contains x) (hsy : s.Contains y)
    (hv : ∀ b, v = some b → c.test.holds x y = b) : Follows (branchOrBoth pc c.offset v st) c (c.target pc x y) x y := by
  refine ⟨st, branchOrBoth_mem hv, ⟨d, hdst, hdx⟩, ?_⟩
  cases hop : c.src with
  | imm i => trivial
  | reg r =>
    rw [hop] at hsrc
    simp only [Operand.bounds] at hsrc
    split at hsrc
    · rename_i b hr
      cases hsrc
      exact ⟨_, hr, hsy⟩
    · cases hsrc

theorem jsetImm_follows (hsy : (ScalarBounds.constant imm.toInt64).Contains imm.toInt64.toUInt64) :
    StepFollows (successors pc (.jsetImm dst imm offset) st) ⟨dst, .imm imm, offset, .jset⟩ pc x imm.toInt64.toUInt64 := by
  have hverdict : ∀ b, jsetVerdict d (.constant imm.toInt64) = some b → (x &&& imm.toInt64.toUInt64 != 0) = b :=
    fun b hb => jsetVerdict_sound hdx hsy hb
  have hread : readScalar pc st dst = .ok d := readScalar_eq_ok.mpr hdst
  cases hv : jsetVerdict d (.constant imm.toInt64) with
  | some b =>
    have hb : Test.jset.holds x imm.toInt64.toUInt64 = b := hverdict b hv
    cases b with
    | true =>
      have hsucc : successors pc (.jsetImm dst imm offset) st = .ok [(branchTarget pc offset, st)] := by
        simp only [successors, hread, ok_bind, hv]
      refine ⟨_, hsucc, st, ?_, ⟨d, hdst, hdx⟩, trivial⟩
      simp [Conditional.target, hb]
    | false =>
      have hsucc : successors pc (.jsetImm dst imm offset) st = .ok [(pc + 1, st)] := by
        simp only [successors, hread, ok_bind, hv]
      refine ⟨_, hsucc, st, ?_, ⟨d, hdst, hdx⟩, trivial⟩
      simp [Conditional.target, hb]
  | none =>
    have hsucc : successors pc (.jsetImm dst imm offset) st =
        .ok [(branchTarget pc offset, st), (pc + 1, jsetNotTaken dst imm st)] := by
      simp only [successors, hread, ok_bind, hv]
    by_cases hzero : x &&& imm.toInt64.toUInt64 = 0
    · have hfall : Test.jset.holds x imm.toInt64.toUInt64 = false := by simpa [Test.holds] using hzero
      refine ⟨_, hsucc, jsetNotTaken dst imm st, ?_, jsetNotTaken_hasWord hd hdst hdx hzero, trivial⟩
      simp [Conditional.target, hfall]
    · have htaken : Test.jset.holds x imm.toInt64.toUInt64 = true := by simpa [Test.holds] using hzero
      refine ⟨_, hsucc, st, ?_, ⟨d, hdst, hdx⟩, trivial⟩
      simp [Conditional.target, htaken]

end Forms

/-- The gap is one of comparisons. -/
theorem no_gap_of_test {c : Conditional} {pc : Nat} {d s : ScalarBounds} {x y : UInt64}
    (h : ∀ op, c.test ≠ .cmp op) : ¬ GeGap c pc d s x y := by
  rintro ⟨op, hop, -⟩
  exact h op hop

/-- The machine has one successor, and the verifier one at its target that holds the words. -/
def SimulatesBranch (pc : Nat) (insn : BpfInsn) (c : Conditional) (st : VerifierState) (cs : Explorer.ConcreteState)
    (x y : UInt64) : Prop :=
  ∃ target succs, Explorer.pureSuccessors pc insn cs = .ok [(target, cs)] ∧ successors pc insn st = .ok succs ∧
    Follows succs c target x y

section Inversion

variable {insn : BpfInsn} {dst src : Reg} {offset : Int16} {imm : Int32}

theorem successors_cmp {op : CondOp} (h : conditional insn = some ⟨dst, .reg src, offset, .cmp op⟩) (pc : Nat)
    (st : VerifierState) : successors pc insn st = condBranch pc dst src offset op st := by
  cases insn with
  | jmp32 dst src imm offset op =>
    cases src with
    | some src => cases h
    | none =>
      cases imm with
      | some imm => cases h
      | none => cases h
  | jeq | jne | jgt | jge | jlt | jle | jsgt | jsge | jslt | jsle =>
    cases h
    simp only [successors]
  | _ => cases h

theorem successors_cmp_imm {op : CondOp} (h : conditional insn = some ⟨dst, .imm imm, offset, .cmp op⟩) (pc : Nat)
    (st : VerifierState) : successors pc insn st = condBranchImm pc dst imm offset op st := by
  cases insn with
  | jmp32 dst src imm offset op =>
    cases src with
    | some src => cases h
    | none =>
      cases imm with
      | some imm => cases h
      | none => cases h
  | jeqImm | jneImm | jgtImm | jgeImm | jltImm | jleImm | jsgtImm | jsgeImm | jsltImm | jsleImm =>
    cases h
    simp only [successors]
  | _ => cases h

theorem conditional_jset {o : Operand} (h : conditional insn = some ⟨dst, o, offset, .jset⟩) :
    (∃ r, o = .reg r ∧ insn = .jset dst r offset) ∨ ∃ i, o = .imm i ∧ insn = .jsetImm dst i offset := by
  cases insn with
  | jmp32 dst src imm offset op =>
    cases src with
    | some src => cases h
    | none =>
      cases imm with
      | some imm => cases h
      | none => cases h
  | jset dst src offset =>
    cases h
    exact .inl ⟨_, rfl, rfl⟩
  | jsetImm dst imm offset =>
    cases h
    exact .inr ⟨_, rfl, rfl⟩
  | _ => cases h

theorem successors_jmp32 {op : Jmp32Op} {o : Operand} {st : VerifierState} {d s : ScalarBounds}
    (h : conditional insn = some ⟨dst, o, offset, .jmp32 op⟩) (pc : Nat) (hdst : st.regs dst = .scalar d)
    (hsrc : o.bounds st = some s) :
    successors pc insn st = .ok (branchOrBoth pc offset (jmp32Verdict d s op) st) := by
  have hread : readScalar pc st dst = .ok d := readScalar_eq_ok.mpr hdst
  cases insn with
  | jmp32 dst src imm offset op =>
    cases src with
    | some src =>
      cases h
      simp only [Operand.bounds] at hsrc
      split at hsrc
      · rename_i b hb
        cases hsrc
        have hreads : readScalar pc st src = .ok s := readScalar_eq_ok.mpr hb
        simp only [successors, hread, jmp32Operand, hreads]
        rfl
      · cases hsrc
    | none =>
      cases imm with
      | some imm =>
        cases h
        cases hsrc
        simp only [successors, hread, jmp32Operand]
        rfl
      | none => cases h
  | _ => cases h

end Inversion

/-- The successors of a conditional instruction follow the machine exactly outside the gap. -/
theorem successors_follow {insn : BpfInsn} {c : Conditional} {pc : Nat} {st : VerifierState}
    {cs : Explorer.ConcreteState} {d s : ScalarBounds} {x y : UInt64} (hc : conditional insn = some c)
    (hdst : st.regs c.dst = .scalar d) (hsrc : c.src.bounds st = some s) (hd : d.Synced) (hs : s.Synced)
    (hx : cs.regs c.dst = some (.scalar x)) (hy : c.src.word cs = some y) (hdx : d.Contains x) (hsy : s.Contains y)
    (hlink : LinkAgrees d s x y) : StepFollows (successors pc insn st) c pc x y ↔ ¬ GeGap c pc d s x y := by
  obtain ⟨dst, src, offset, test⟩ := c
  cases test with
  | cmp op =>
    cases src with
    | reg r =>
      rw [successors_cmp hc]
      obtain ⟨hr, hyr⟩ := operand_reg hsrc hy
      refine condBranch_follows hdst hd hdx hr hs hsy (fun hsame => ?_) hlink
      rw [hsame, hx] at hyr
      cases hyr
      rfl
    | imm i =>
      rw [successors_cmp_imm hc]
      cases hsrc
      cases hy
      exact iff_of_true (condBranchImm_follows hdst hd hdx) imm_no_gap
  | jset =>
    refine iff_of_true ?_ (no_gap_of_test fun op => by simp)
    rcases conditional_jset hc with ⟨r, rfl, rfl⟩ | ⟨i, rfl, rfl⟩
    · have hread : readScalar pc st dst = .ok d := readScalar_eq_ok.mpr hdst
      have hreads : readScalar pc st r = .ok s := readScalar_eq_ok.mpr (operand_reg hsrc hy).1
      refine ⟨branchOrBoth pc offset (jsetVerdict d s) st, ?_, ?_⟩
      · simp only [successors, hread, hreads]
        rfl
      · exact branchOrBoth_follows ⟨dst, .reg r, offset, .jset⟩ hdst hsrc hdx hsy fun b hb => jsetVerdict_sound hdx hsy hb
    · cases hsrc
      cases hy
      exact jsetImm_follows hdst hd hdx hsy
  | jmp32 op =>
    have hverdict : ∀ b, jmp32Verdict d s op = some b → (Test.jmp32 op).holds x y = b := by
      intro b hb
      show Explorer.jmp32Holds op x.toUInt32 y.toUInt32 = b
      exact jmp32Verdict_sound hdx hsy hb
    refine iff_of_true ⟨_, successors_jmp32 hc pc hdst hsrc, ?_⟩ (no_gap_of_test fun op' => by simp)
    exact branchOrBoth_follows ⟨dst, src, offset, .jmp32 op⟩ hdst hsrc hdx hsy hverdict

/-- The verifier follows the machine through a conditional instruction outside the gap, when
    operands of one link agree with it, and never in the gap. -/
theorem conditional_follows {insn : BpfInsn} {c : Conditional} {pc : Nat} {st : VerifierState}
    {cs : Explorer.ConcreteState} {d s : ScalarBounds} {x y : UInt64} (hc : conditional insn = some c)
    (hdst : st.regs c.dst = .scalar d) (hsrc : c.src.bounds st = some s) (hd : d.Synced) (hs : s.Synced)
    (hx : cs.regs c.dst = some (.scalar x)) (hy : c.src.word cs = some y) (hdx : d.Contains x) (hsy : s.Contains y) :
    (LinkAgrees d s x y ∧ ¬ GeGap c pc d s x y → SimulatesBranch pc insn c st cs x y) ∧
      (GeGap c pc d s x y → ¬ SimulatesBranch pc insn c st cs x y) := by
  have hstep : Explorer.pureSuccessors pc insn cs = .ok [(c.target pc x y, cs)] := conditional_step hc hx hy
  constructor
  · rintro ⟨hlink, hgap⟩
    obtain ⟨succs, hok, hfollows⟩ := (successors_follow hc hdst hsrc hd hs hx hy hdx hsy hlink).mpr hgap
    exact ⟨_, succs, hstep, hok, hfollows⟩
  · rintro hgap ⟨target, succs, hmachine, hok, hfollows⟩
    rw [hstep] at hmachine
    cases hmachine
    have hlink : LinkAgrees d s x y := by
      obtain ⟨-, -, hunlinked, -⟩ := hgap
      exact fun heq hid => absurd ⟨heq, hid⟩ hunlinked
    exact (successors_follow hc hdst hsrc hd hs hx hy hdx hsy hlink).mp ⟨succs, hok, hfollows⟩ hgap

/-- R1 and R2 with scalar bounds. -/
def twoScalars (d s : ScalarBounds) : VerifierState :=
  ((VerifierState.initialWith .socketFilter).setReg 1 (.scalar d)).setReg 2 (.scalar s)

def twoWords (x y : UInt64) : Explorer.ConcreteState :=
  ((Explorer.ConcreteState.initialWith .socketFilter).setReg 1 (.scalar x)).setReg 2 (.scalar y)

theorem conditional_follows_lt :
    (LinkAgrees (.fromSigned 0 10) (.fromSigned 5 10) 7 9 ∧
        ¬ GeGap ⟨1, .reg 2, 3, .cmp .ult⟩ 0 (.fromSigned 0 10) (.fromSigned 5 10) 7 9 →
      SimulatesBranch 0 (.jlt 1 2 3) ⟨1, .reg 2, 3, .cmp .ult⟩ (twoScalars (.fromSigned 0 10) (.fromSigned 5 10))
        (twoWords 7 9) 7 9) ∧
    (GeGap ⟨1, .reg 2, 3, .cmp .ult⟩ 0 (.fromSigned 0 10) (.fromSigned 5 10) 7 9 →
      ¬ SimulatesBranch 0 (.jlt 1 2 3) ⟨1, .reg 2, 3, .cmp .ult⟩ (twoScalars (.fromSigned 0 10) (.fromSigned 5 10))
        (twoWords 7 9) 7 9) :=
  conditional_follows rfl rfl rfl (ScalarBounds.synced_fromSigned 0 10) (ScalarBounds.synced_fromSigned 5 10) rfl rfl
    (by decide) (by decide)

/-- `if r1 >= r2` with R1 in [0, 10] and R2 in [5, 10] falls through on 7 and 9, but the
    fall-through has R1 in [0, 4]. -/
theorem ge_loses_word : ∃ (insn : BpfInsn) (c : Conditional) (st : VerifierState) (cs : Explorer.ConcreteState)
    (d s : ScalarBounds) (x y : UInt64), conditional insn = some c ∧ st.regs c.dst = .scalar d ∧
      c.src.bounds st = some s ∧ d.Synced ∧ s.Synced ∧ cs.regs c.dst = some (.scalar x) ∧ c.src.word cs = some y ∧
      d.Contains x ∧ s.Contains y ∧ LinkAgrees d s x y ∧ ¬ SimulatesBranch 0 insn c st cs x y := by
  have hgap : GeGap ⟨1, .reg 2, 3, .cmp .uge⟩ 0 (.fromSigned 0 10) (.fromSigned 5 10) 7 9 :=
    ⟨.uge, rfl, by decide, by decide, by decide, fun h => absurd h (by decide)⟩
  refine ⟨.jge 1 2 3, ⟨1, .reg 2, 3, .cmp .uge⟩, twoScalars (.fromSigned 0 10) (.fromSigned 5 10), twoWords 7 9,
    .fromSigned 0 10, .fromSigned 5 10, 7, 9, rfl, rfl, rfl, ScalarBounds.synced_fromSigned 0 10,
    ScalarBounds.synced_fromSigned 5 10, rfl, rfl, by decide, by decide, fun _ h => absurd rfl h, ?_⟩
  rintro ⟨target, succs, hmachine, hok, hfollows⟩
  have hstep : Explorer.pureSuccessors 0 (.jge 1 2 3) (twoWords 7 9) = .ok [(1, twoWords 7 9)] := rfl
  rw [hstep] at hmachine
  cases hmachine
  have hx : (twoWords 7 9).regs 1 = some (.scalar 7) := rfl
  have hfollow : StepFollows (successors 0 (.jge 1 2 3) (twoScalars (.fromSigned 0 10) (.fromSigned 5 10)))
      ⟨1, .reg 2, 3, .cmp .uge⟩ 0 7 9 ↔ ¬ GeGap ⟨1, .reg 2, 3, .cmp .uge⟩ 0 (.fromSigned 0 10) (.fromSigned 5 10) 7 9 :=
    successors_follow rfl rfl rfl (ScalarBounds.synced_fromSigned 0 10) (ScalarBounds.synced_fromSigned 5 10) hx rfl
      (by decide) (by decide) fun _ h => absurd rfl h
  exact hfollow.mp ⟨succs, hok, hfollows⟩ hgap

def linked : ScalarBounds := { ScalarBounds.fromSigned 0 10 with id := 7 }

/-- Two operands of one link that differ: `if r1 < r2` is taken on 0 and 5, but the sync copies
    R2's refinement [1, 10] to R1. -/
theorem link_loses_word : linked.Contains 0 ∧ linked.Contains 5 ∧ ¬ LinkAgrees linked linked 0 5 ∧
    ∃ succs, successors 0 (.jlt 1 2 3) (twoScalars linked linked) = .ok succs ∧
      ¬ Follows succs ⟨1, .reg 2, 3, .cmp .ult⟩ 4 0 5 := by
  refine ⟨by decide, by decide, fun h => absurd (h rfl (by decide)) (by decide), _, rfl, ?_⟩
  rintro ⟨st', hst', ⟨b, hb, hin⟩, -⟩
  rcases mem_scalarBranch hst' with he | he
  · have hne : (2 : Reg) ≠ 1 := by decide
    have hregs := (refinedSide_regs (twoScalars linked linked) linked linked
      (refineCmp .ult linked linked).1.1 (refineCmp .ult linked linked).1.2 hne).1
    rw [(Prod.mk.inj he).2, hregs] at hb
    cases hb
    exact absurd hin (by decide)
  · exact absurd (Prod.mk.inj he).1 (by decide)

end RandVerifier
