/-
  RandVerifier.Spec.BranchIntervals — the conditional jumps of the safety-spec verifier against
  the machine (`branch`, `branch_signed`, `unsigned_cmp_refine`, `signed_cmp_refine` of
  `src/spec/runner.rs`).

  A side of a branch is pushed with what is left of the destination's interval. What is left
  for `==`, `<=`, `>` and `>=` are the words that some word of the source's interval allows;
  the signed comparisons keep them too. Three things go wrong. `!=` takes all of the source's
  interval out of the destination's, as if every one of its words were the source, and leaves
  an interval that starts right after it, also where the destination's starts later. `<`
  takes a source that may be 0 for one that is 0. And a register compared with itself is
  forgotten.

  Proved:
  - `unsignedTake_keeps`: what is left of the interval, for every comparison;
  - `signedTake_keeps`: the same of the signed comparisons;
  - `branch_intervals`: when the side that the machine takes is pushed with intervals inside
    the old ones that contain the two words;
  - `lost_less`: a jump on `<` whose taken side is not pushed.
-/

import RandVerifier.BranchSound
import RandVerifier.Spec.Intervals

namespace RandVerifier.Spec

/-- An interval inside a bound, with a word. -/
def Narrowed (bound r : Range) (w : UInt64) : Prop := bound.1 ≤ r.1 ∧ r.2 ≤ bound.2 ∧ InUnsigned r w

theorem narrowed_iff {bound r : Range} {w : UInt64} : Narrowed bound r w ↔
    bound.1.toNat ≤ r.1.toNat ∧ r.2.toNat ≤ bound.2.toNat ∧ r.1.toNat ≤ w.toNat ∧ w.toNat ≤ r.2.toNat := by
  rw [Narrowed, inUnsigned_iff, UInt64.le_iff_toNat_le, UInt64.le_iff_toNat_le]

theorem narrowed_self {r : Range} {w : UInt64} (h : InUnsigned r w) : Narrowed r r w :=
  ⟨UInt64.le_refl _, UInt64.le_refl _, h⟩

def Cmp.Holds (cmp : Cmp) (x y : Int) : Prop :=
  match cmp with
  | eq => x = y
  | ne => x ≠ y
  | lt => x < y
  | le => x ≤ y
  | gt => y < x
  | ge => y ≤ x

theorem Cmp.negate_holds (cmp : Cmp) (x y : Int) : cmp.negate.Holds x y ↔ ¬ cmp.Holds x y := by
  cases cmp <;> simp only [negate, Holds] <;> omega

/-! ## Unsigned comparisons -/

section Unsigned

variable {d s : Range} {x : UInt64} {cmp : Cmp}

/-- The words that a comparison with an interval leaves. -/
def Left (cmp : Cmp) (d s : Range) (x : Nat) : Prop :=
  match cmp with
  | .eq => s.1.toNat ≤ x ∧ x ≤ s.2.toNat
  -- what is above the source starts right after it
  | .ne => (x < s.1.toNat ∨ s.2.toNat < x) ∧ d.1.toNat ≤ s.2.toNat + 1
  -- a source that may be 0 leaves nothing
  | .lt => s.1.toNat ≠ 0 ∧ x < s.2.toNat
  | .le => x ≤ s.2.toNat
  | .gt => s.1.toNat < x
  | .ge => s.1.toNat ≤ x

theorem toNat_pred {w : UInt64} (h : w.toNat ≠ 0) : (w - 1).toNat = w.toNat - 1 := by
  have hlt := w.toNat_lt
  rw [UInt64.toNat_sub, show (1 : UInt64).toNat = 1 from rfl]
  omega

theorem toNat_succ {w : UInt64} (h : w.toNat + 1 < 2 ^ 64) : (w + 1).toNat = w.toNat + 1 := by
  rw [UInt64.toNat_add, show (1 : UInt64).toNat = 1 from rfl]
  omega

theorem keeps_when {c : Prop} [Decidable c] {l : List Range} {P : Range → Prop} :
    (∃ r ∈ if c then l else [], P r) ↔ c ∧ ∃ r ∈ l, P r := by
  split <;> simp_all

theorem keeps_unless {c : Prop} [Decidable c] {l : List Range} {P : Range → Prop} :
    (∃ r ∈ if c then [] else l, P r) ↔ ¬ c ∧ ∃ r ∈ l, P r := by
  split <;> simp_all

theorem keeps_one {r : Range} {P : Range → Prop} : (∃ r' ∈ [r], P r') ↔ P r := by simp

theorem keeps_append {l l' : List Range} {P : Range → Prop} :
    (∃ r ∈ l ++ l', P r) ↔ (∃ r ∈ l, P r) ∨ ∃ r ∈ l', P r := by
  simp only [List.mem_append, or_and_right, exists_or]

theorem unsignedTake_keeps (hx : InUnsigned d x) (hs : s.1 ≤ s.2) :
    (∃ r ∈ unsignedTake d s cmp, Narrowed d r x) ↔ Left cmp d s x.toNat := by
  rw [inUnsigned_iff] at hx
  rw [UInt64.le_iff_toNat_le] at hs
  have hd64 := d.2.toNat_lt
  have hs64 := s.2.toNat_lt
  have hmax : u64Max.toNat = 2 ^ 64 - 1 := by decide
  cases cmp with
  | eq =>
    simp only [unsignedTake, Left, keeps_when, keeps_one, narrowed_iff, UInt64.le_iff_toNat_le,
      ScalarBounds.toNat_max, ScalarBounds.toNat_min]
    omega
  | ne =>
    simp only [unsignedTake, Left, keeps_when, keeps_unless, keeps_one, keeps_append, narrowed_iff, UInt64.le_iff_toNat_le,
      UInt64.lt_iff_toNat_lt, ScalarBounds.toNat_min]
    by_cases hlo : d.1.toNat < s.1.toNat
    · rw [toNat_pred (by omega)]
      by_cases hhi : s.2.toNat < d.2.toNat
      · rw [toNat_succ (by omega)]
        omega
      · omega
    · by_cases hhi : s.2.toNat < d.2.toNat
      · rw [toNat_succ (by omega)]
        omega
      · omega
  | lt =>
    simp only [unsignedTake, Left, keeps_when, keeps_unless, keeps_one, narrowed_iff, UInt64.le_iff_toNat_le,
      UInt64.lt_iff_toNat_lt, ScalarBounds.toNat_min, ← UInt64.toNat_inj, UInt64.toNat_zero]
    by_cases h0 : s.1.toNat = 0
    · omega
    · rw [toNat_pred (by omega)]
      omega
  | le =>
    simp only [unsignedTake, Left, keeps_unless, keeps_one, narrowed_iff, UInt64.lt_iff_toNat_lt,
      ScalarBounds.toNat_min]
    omega
  | gt =>
    simp only [unsignedTake, Left, keeps_unless, keeps_one, narrowed_iff, UInt64.le_iff_toNat_le,
      ScalarBounds.toNat_max, ← UInt64.toNat_inj, hmax]
    by_cases hlast : s.1.toNat = 2 ^ 64 - 1
    · omega
    · rw [toNat_succ (by omega)]
      omega
  | ge =>
    simp only [unsignedTake, Left, keeps_unless, keeps_one, narrowed_iff, UInt64.lt_iff_toNat_lt,
      ScalarBounds.toNat_max]
    omega

end Unsigned

/-! ## Signed comparisons -/

section Signed

variable {d s : Range} {ds ss : Int64 × Int64} {x y : UInt64} {cmp : Cmp}

/-- A signed interval inside the signed view is an interval inside the bound. -/
theorem narrowed_signed {lo hi : Int64} (h : asSigned d = some ds) (hd : d.1 ≤ d.2) (hlo : ds.1.toInt ≤ lo.toInt)
    (hhi : hi.toInt ≤ ds.2.toInt) (hx : lo.toInt ≤ x.toInt64.toInt) (hx' : x.toInt64.toInt ≤ hi.toInt) :
    Narrowed d (lo.toUInt64, hi.toUInt64) x := by
  rw [UInt64.le_iff_toNat_le] at hd
  unfold asSigned at h
  split at h
  · rename_i hside
    rw [UInt64.lt_iff_toNat_lt, UInt64.le_iff_toNat_le, show (0x8000000000000000 : UInt64).toNat = 2 ^ 63 from rfl] at hside
    cases h
    have hd64 := d.2.toNat_lt
    have hx64 := x.toNat_lt
    have hlo64 := lo.toUInt64.toNat_lt
    have hhi64 := hi.toUInt64.toNat_lt
    have h1 := signed_eq lo.toUInt64
    have h2 := signed_eq hi.toUInt64
    rw [Int64.toInt64_toUInt64] at h1 h2
    rw [signed_eq] at hlo hhi hx hx'
    rw [narrowed_iff]
    dsimp only at *
    split at h1 <;> split at h2 <;> split at hlo <;> split at hhi <;> split at hx <;> omega
  · cases h

theorem signedTake_keeps (h : asSigned d = some ds) (h' : asSigned s = some ss) (hx : InUnsigned d x)
    (hy : InUnsigned s y) (hcmp : cmp ≠ .eq) (hcmp' : cmp ≠ .ne)
    (hholds : cmp.Holds x.toInt64.toInt y.toInt64.toInt) : ∃ r ∈ signedTake ds ss cmp, Narrowed d r x := by
  have hd := UInt64.le_trans hx.1 hx.2
  obtain ⟨hx1, hx2⟩ := asSigned_order h hx
  obtain ⟨hy1, hy2⟩ := asSigned_order h' hy
  cases cmp with
  | eq => exact absurd rfl hcmp
  | ne => exact absurd rfl hcmp'
  | lt =>
    replace hholds : x.toInt64.toInt < y.toInt64.toInt := hholds
    have hpred : (ss.2 - 1).toInt = ss.2.toInt - 1 := Reading.signed.pred ss.2 x.toInt64 (by
      show x.toInt64.toInt < ss.2.toInt
      omega)
    have hmin : ss.2 ≠ Int64.minValue := by
      intro h0
      have hle := x.toInt64.le_toInt
      rw [h0] at hy2
      have hval : Int64.minValue.toInt = -2 ^ 63 := by decide
      omega
    simp only [signedTake, keeps_when, keeps_unless, keeps_one, Int64.lt_iff_toInt_lt, Int64.le_iff_toInt_le,
      ScalarBounds.toInt_min, hpred]
    refine ⟨not_or.mpr ⟨by omega, hmin⟩, by omega, narrowed_signed h hd (le_refl _) ?_ hx1 ?_⟩
    · rw [ScalarBounds.toInt_min]
      omega
    · rw [ScalarBounds.toInt_min, hpred]
      omega
  | le =>
    replace hholds : x.toInt64.toInt ≤ y.toInt64.toInt := hholds
    simp only [signedTake, keeps_unless, keeps_one, Int64.lt_iff_toInt_lt]
    refine ⟨by omega, narrowed_signed h hd (le_refl _) ?_ hx1 ?_⟩
    · rw [ScalarBounds.toInt_min]
      omega
    · rw [ScalarBounds.toInt_min]
      omega
  | gt =>
    replace hholds : y.toInt64.toInt < x.toInt64.toInt := hholds
    have hsucc : (ss.1 + 1).toInt = ss.1.toInt + 1 := Reading.signed.succ ss.1 x.toInt64 (by
      show ss.1.toInt < x.toInt64.toInt
      omega)
    have hmax : ss.1 ≠ Int64.maxValue := by
      intro h0
      have hlt := x.toInt64.toInt_lt
      rw [h0] at hy1
      have hval : Int64.maxValue.toInt = 2 ^ 63 - 1 := by decide
      omega
    simp only [signedTake, keeps_unless, keeps_one, Int64.le_iff_toInt_le]
    refine ⟨not_or.mpr ⟨by omega, hmax⟩, narrowed_signed h hd ?_ (le_refl _) ?_ hx2⟩
    · rw [ScalarBounds.toInt_max]
      omega
    · rw [ScalarBounds.toInt_max, hsucc]
      omega
  | ge =>
    replace hholds : y.toInt64.toInt ≤ x.toInt64.toInt := hholds
    simp only [signedTake, keeps_unless, keeps_one, Int64.lt_iff_toInt_lt]
    refine ⟨by omega, narrowed_signed h hd ?_ (le_refl _) ?_ hx2⟩
    · rw [ScalarBounds.toInt_max]
      omega
    · rw [ScalarBounds.toInt_max]
      omega

end Signed

/-! ## The successors -/

/-- What the verifier compares the destination with; an immediate is a constant. -/
def condOperand (st : SpecState) : RandVerifier.Operand → SpecValue
  | .reg r => st.reg r
  | .imm i => .constScalar (immWord i)

/-- A register holds a word, in an interval inside the bound. -/
def HoldsWithin (st : SpecState) (r : Reg) (bound : Range) (w : UInt64) : Prop :=
  ∃ o, st.reg r = .ofRange o ∧ Narrowed bound o w

def OperandWithin (st : SpecState) (o : RandVerifier.Operand) (bound : Range) (w : UInt64) : Prop :=
  match o with
  | .reg r => HoldsWithin st r bound w
  | .imm _ => True

/-- The side that the machine takes is pushed, with both words in what is left of their
    intervals. -/
def Pushed (nodes : List Node) (c : Conditional) (pc : Nat) (d s : Range) (x y : UInt64) : Prop :=
  ∃ st', (c.target pc x y, st') ∈ nodes ∧ HoldsWithin st' c.dst d x ∧ OperandWithin st' c.src s y

section Sides

variable {st : SpecState} {c : Conditional} {pc : Nat} {d s : Range} {x y : UInt64}

theorem ofRange_inj {a b : Range} : SpecValue.ofRange a = .ofRange b ↔ a = b := by
  constructor
  · intro h
    injection h with h1 h2
    exact Prod.ext h1 h2
  · exact congrArg _

theorem setReg_within {r : Reg} {o : Range} : HoldsWithin (st.setReg r (.ofRange o)) r d x ↔ Narrowed d o x := by
  unfold HoldsWithin
  rw [setReg_reg]
  constructor
  · rintro ⟨o', ho, h⟩
    rwa [ofRange_inj.mp ho]
  · exact fun h => ⟨o, rfl, h⟩

/-- The source's register keeps its interval, or is the destination's. -/
theorem source_within (hdst : st.reg c.dst = .ofRange d) (hsrc : condOperand st c.src = .ofRange s) (hy : InUnsigned s y)
    (hself : c.src = .reg c.dst → x = y) {o : Range} (ho : Narrowed d o x) :
    OperandWithin (st.setReg c.dst (.ofRange o)) c.src s y := by
  cases hc : c.src with
  | imm i => trivial
  | reg r =>
    rw [hc] at hsrc hself
    show HoldsWithin _ r s y
    by_cases hr : r = c.dst
    · rw [hr] at hsrc hself ⊢
      obtain rfl := hself rfl
      obtain rfl := ofRange_inj.mp (hdst.symm.trans hsrc)
      exact setReg_within.mpr ho
    · exact ⟨s, (setReg_other hr _).trans hsrc, narrowed_self hy⟩

/-- A word is on its side, or on the other one where both lead to the same place. -/
theorem emitRefined_pushed (hdst : st.reg c.dst = .ofRange d) (hsrc : condOperand st c.src = .ofRange s)
    (hy : InUnsigned s y) (hself : c.src = .reg c.dst → x = y) (kept : List Range × List Range) :
    Pushed (emitRefined st c.dst kept (branchTarget pc c.offset) (pc + 1)) c pc d s x y ↔
      (∃ r ∈ if c.test.holds x y then kept.1 else kept.2, Narrowed d r x) ∨
        branchTarget pc c.offset = pc + 1 ∧ ∃ r ∈ if c.test.holds x y then kept.2 else kept.1, Narrowed d r x := by
  have hmem : ∀ {l : List Range} {at' : Nat},
      (∃ st', (c.target pc x y, st') ∈ l.map (fun r => (at', st.setReg c.dst (.ofRange r))) ∧
        HoldsWithin st' c.dst d x ∧ OperandWithin st' c.src s y) ↔
      at' = c.target pc x y ∧ ∃ r ∈ l, Narrowed d r x := by
    intro l at'
    constructor
    · rintro ⟨st', hst', hx, -⟩
      obtain ⟨r, hr, heq⟩ := List.mem_map.mp hst'
      obtain ⟨hat, rfl⟩ := Prod.mk.inj heq
      exact ⟨hat, r, hr, setReg_within.mp hx⟩
    · rintro ⟨hat, r, hr, hx⟩
      exact ⟨_, List.mem_map.mpr ⟨r, hr, Prod.ext hat rfl⟩, setReg_within.mpr hx, source_within hdst hsrc hy hself hx⟩
  unfold Pushed emitRefined
  simp only [List.mem_append, or_and_right, exists_or, hmem]
  unfold Conditional.target
  cases c.test.holds x y with
  | true => simp only [if_true, true_and, eq_comm]
  | false => simp only [Bool.false_eq_true, if_false, true_and, or_comm]

variable (pc) in
/-- A test that refines nothing. -/
theorem testBranch_pushed (message : String) {test : UInt64 → UInt64 → Bool} {src : SpecValue} {s' : Range}
    (hdst : st.reg c.dst = .ofRange d) (hsrc : condOperand st c.src = .ofRange s) (hx : InUnsigned d x)
    (hy : InUnsigned s y) (hsrc' : src = .ofRange s')
    (htest : d.1 = d.2 → s'.1 = s'.2 → test d.1 s'.1 = c.test.holds x y) :
    ∃ nodes, testBranch st pc c.offset (st.reg c.dst) src test message = .ok nodes ∧ Pushed nodes c pc d s x y := by
  have hboth : HoldsWithin st c.dst d x ∧ OperandWithin st c.src s y := by
    refine ⟨⟨d, hdst, narrowed_self hx⟩, ?_⟩
    cases hc : c.src with
    | imm i => trivial
    | reg r =>
      rw [hc] at hsrc
      exact ⟨s, hsrc, narrowed_self hy⟩
  unfold testBranch
  rw [hdst, hsrc', if_neg (by simp [SpecValue.ofRange])]
  split
  · rename_i a b ha hb
    have hd : d.1 = d.2 ∧ d.1 = a := by
      simp only [SpecValue.const?, SpecValue.ofRange] at ha
      split at ha
      · exact ⟨‹_›, Option.some.inj ha⟩
      · cases ha
    have hs : s'.1 = s'.2 ∧ s'.1 = b := by
      simp only [SpecValue.const?, SpecValue.ofRange] at hb
      split at hb
      · exact ⟨‹_›, Option.some.inj hb⟩
      · cases hb
    refine ⟨_, rfl, st, ?_, hboth⟩
    rw [List.mem_singleton, Conditional.target, ← htest hd.1 hs.1, hd.2, hs.2]
  · refine ⟨_, rfl, st, ?_, hboth⟩
    rw [Conditional.target]
    split <;> simp

/-! ## The conditional jumps -/

/-- The verifier's comparison of an operator: whether it is signed, and which it is. -/
def condCmp : CondOp → Bool × Cmp
  | .eq => (false, .eq)
  | .ne => (false, .ne)
  | .ugt => (false, .gt)
  | .uge => (false, .ge)
  | .ult => (false, .lt)
  | .ule => (false, .le)
  | .sgt => (true, .gt)
  | .sge => (true, .ge)
  | .slt => (true, .lt)
  | .sle => (true, .le)

/-- The condition under which a comparison pushes the side of every two words: an operand
    compared with itself was unknown before; `==` and `!=` have a source that is known or apart,
    and not below the destination with a gap; and `<` and `>=` have a source that is not 0, or
    no word below it. Where both sides lead to the same place the other one makes up for what
    is lost. -/
def BranchFits (c : Conditional) (pc : Nat) (d s : Range) : Prop :=
  match c.test with
  | .jset | .jmp32 _ => True
  | .cmp op =>
    if c.src = .reg c.dst then d = full
    else match op with
      | .eq | .ne => d.1.toNat ≤ s.2.toNat + 1 ∧
          (branchTarget pc c.offset ≠ pc + 1 → s.1 = s.2 ∨ s.2 < d.1 ∨ d.2 < s.1)
      | .ult | .uge => branchTarget pc c.offset ≠ pc + 1 → s.1 = 0 → s.2 ≤ d.1
      | _ => True

theorem condHolds_unsigned {op : CondOp} (hop : (condCmp op).1 = false) :
    Explorer.condHolds op x y = true ↔ (condCmp op).2.Holds x.toNat y.toNat := by
  cases op with
  | eq | ne => simp [Explorer.condHolds, condCmp, Cmp.Holds, ← UInt64.toNat_inj]
  | ugt | ult => simp [Explorer.condHolds, condCmp, Cmp.Holds, UInt64.lt_iff_toNat_lt]
  | uge | ule => simp [Explorer.condHolds, condCmp, Cmp.Holds, UInt64.le_iff_toNat_le]
  | _ => cases hop

theorem condHolds_signed {op : CondOp} (hop : (condCmp op).1 = true) :
    Explorer.condHolds op x y = true ↔ (condCmp op).2.Holds x.toInt64.toInt y.toInt64.toInt := by
  cases op with
  | sgt | slt => simp [Explorer.condHolds, condCmp, Cmp.Holds, Int64.lt_iff_toInt_lt]
  | sge | sle => simp [Explorer.condHolds, condCmp, Cmp.Holds, Int64.le_iff_toInt_le]
  | _ => cases hop

theorem sides_iff {b : Bool} {A B P : Prop} {T F : List Range} {N : Range → Prop} (hA : (∃ r ∈ T, N r) ↔ A)
    (hB : (∃ r ∈ F, N r) ↔ B) : ((∃ r ∈ if b then T else F, N r) ∨ P ∧ ∃ r ∈ if b then F else T, N r) ↔
      (b = true → A ∨ P ∧ B) ∧ (b = false → B ∨ P ∧ A) := by
  cases b with
  | true => simp [hA, hB]
  | false => simp [hA, hB]

/-- Unsigned comparisons of two operands, on numbers. -/
theorem unsigned_pushed (hdst : st.reg c.dst = .ofRange d) (hsrc : condOperand st c.src = .ofRange s)
    (hs : s.1 ≤ s.2) (hself : c.src ≠ .reg c.dst) {op : CondOp} (hop : c.test = .cmp op)
    (hcmp : (condCmp op).1 = false) :
    (∀ x y, InUnsigned d x → InUnsigned s y →
      Pushed (emitRefined st c.dst (unsignedCmpRefine d s (condCmp op).2) (branchTarget pc c.offset) (pc + 1)) c pc d s x y) ↔
      ∀ m n : Nat, d.1.toNat ≤ m → m ≤ d.2.toNat → s.1.toNat ≤ n → n ≤ s.2.toNat →
        ((condCmp op).2.Holds m n →
          Left (condCmp op).2 d s m ∨ branchTarget pc c.offset = pc + 1 ∧ Left (condCmp op).2.negate d s m) ∧
        (¬ (condCmp op).2.Holds m n →
          Left (condCmp op).2.negate d s m ∨ branchTarget pc c.offset = pc + 1 ∧ Left (condCmp op).2 d s m) := by
  have hside : ∀ x y, InUnsigned d x → InUnsigned s y →
      (Pushed (emitRefined st c.dst (unsignedCmpRefine d s (condCmp op).2) (branchTarget pc c.offset) (pc + 1)) c pc d s x y ↔
        _) := fun x y hx hy =>
    (emitRefined_pushed hdst hsrc hy (fun h => absurd h hself) _).trans
      (sides_iff (unsignedTake_keeps hx hs) (unsignedTake_keeps hx hs))
  have hholds : ∀ x y, (c.test.holds x y = true ↔ (condCmp op).2.Holds x.toNat y.toNat) ∧
      (c.test.holds x y = false ↔ ¬ (condCmp op).2.Holds x.toNat y.toNat) := by
    intro x y
    rw [hop, ← Bool.not_eq_true]
    exact ⟨condHolds_unsigned hcmp, not_congr (condHolds_unsigned hcmp)⟩
  constructor
  · intro h m n hm hm' hn hn'
    have hmlt : (UInt64.ofNat m).toNat = m := toNat_ofNat_lt (hm'.trans_lt d.2.toNat_lt)
    have hnlt : (UInt64.ofNat n).toNat = n := toNat_ofNat_lt (hn'.trans_lt s.2.toNat_lt)
    have hx : InUnsigned d (UInt64.ofNat m) := inUnsigned_iff.mpr (by rw [hmlt]; exact ⟨hm, hm'⟩)
    have hy : InUnsigned s (UInt64.ofNat n) := inUnsigned_iff.mpr (by rw [hnlt]; exact ⟨hn, hn'⟩)
    have hpushed := (hside _ _ hx hy).mp (h _ _ hx hy)
    rwa [(hholds _ _).1, (hholds _ _).2, hmlt, hnlt] at hpushed
  · intro h x y hx hy
    have hx' := inUnsigned_iff.mp hx
    have hy' := inUnsigned_iff.mp hy
    rw [hside x y hx hy, (hholds x y).1, (hholds x y).2]
    exact h x.toNat y.toNat hx'.1 hx'.2 hy'.1 hy'.2

/-- What is left of an interval for `==` and `!=`, and the two words of a source that is not
    known. -/
theorem equal_fits (hd : d.1.toNat ≤ d.2.toNat) (hs : s.1.toNat ≤ s.2.toNat) {P : Prop} :
    (∀ m n : Nat, d.1.toNat ≤ m → m ≤ d.2.toNat → s.1.toNat ≤ n → n ≤ s.2.toNat →
      (m = n → Left .eq d s m ∨ P ∧ Left .ne d s m) ∧ (m ≠ n → Left .ne d s m ∨ P ∧ Left .eq d s m)) ↔
      d.1.toNat ≤ s.2.toNat + 1 ∧
        (¬ P → s.1.toNat = s.2.toNat ∨ s.2.toNat < d.1.toNat ∨ d.2.toNat < s.1.toNat) := by
  simp only [Left]
  constructor
  · intro h
    constructor
    · have hlow := h d.1.toNat s.1.toNat
      omega
    · intro hP
      simp only [hP, false_and, or_false] at h
      -- a word of both, against either end of the source
      have hlow := h (max d.1.toNat s.1.toNat) s.1.toNat
      have hhigh := h (max d.1.toNat s.1.toNat) s.2.toNat
      omega
  · rintro ⟨hgap, hapart⟩ m n hm hm' hn hn'
    by_cases hP : P
    · simp only [hP, true_and]
      omega
    · have hcase := hapart hP
      simp only [hP, false_and, or_false]
      omega

theorem less_fits (hd : d.1.toNat ≤ d.2.toNat) (hs : s.1.toNat ≤ s.2.toNat) {P : Prop} :
    (∀ m n : Nat, d.1.toNat ≤ m → m ≤ d.2.toNat → s.1.toNat ≤ n → n ≤ s.2.toNat →
      (m < n → Left .lt d s m ∨ P ∧ Left .ge d s m) ∧ (¬ m < n → Left .ge d s m ∨ P ∧ Left .lt d s m)) ↔
      (¬ P → s.1.toNat = 0 → s.2.toNat ≤ d.1.toNat) := by
  simp only [Left]
  constructor
  · intro h hP h0
    simp only [hP, false_and, or_false] at h
    have hends := h d.1.toNat s.2.toNat
    omega
  · intro h m n hm hm' hn hn'
    by_cases hP : P
    · simp only [hP, true_and]
      omega
    · have hcase := h hP
      simp only [hP, false_and, or_false]
      omega

theorem unsigned_fits (hdst : st.reg c.dst = .ofRange d) (hsrc : condOperand st c.src = .ofRange s) (hd : d.1 ≤ d.2)
    (hs : s.1 ≤ s.2) (hself : c.src ≠ .reg c.dst) {op : CondOp} (hop : c.test = .cmp op)
    (hcmp : (condCmp op).1 = false) :
    (∀ x y, InUnsigned d x → InUnsigned s y →
      Pushed (emitRefined st c.dst (unsignedCmpRefine d s (condCmp op).2) (branchTarget pc c.offset) (pc + 1)) c pc d s x y) ↔
      BranchFits c pc d s := by
  rw [unsigned_pushed hdst hsrc hs hself hop hcmp]
  rw [UInt64.le_iff_toNat_le] at hd hs
  unfold BranchFits
  rw [hop]
  dsimp only
  rw [if_neg hself]
  cases op with
  | eq =>
    simp only [condCmp, Cmp.negate, Cmp.Holds, Nat.cast_inj, UInt64.lt_iff_toNat_lt, ← UInt64.toNat_inj]
    exact equal_fits hd hs
  | ne =>
    simp only [condCmp, Cmp.negate, Cmp.Holds, Nat.cast_inj, UInt64.lt_iff_toNat_lt, ← UInt64.toNat_inj, not_not, ne_eq]
    rw [← equal_fits hd hs]
    simp only [and_comm, ne_eq]
  | ult =>
    simp only [condCmp, Cmp.negate, Cmp.Holds, Nat.cast_lt, UInt64.le_iff_toNat_le, ← UInt64.toNat_inj]
    exact less_fits hd hs
  | uge =>
    simp only [condCmp, Cmp.negate, Cmp.Holds, Nat.cast_le, UInt64.le_iff_toNat_le, ← UInt64.toNat_inj]
    refine Iff.trans ?_ (less_fits hd hs)
    simp only [and_comm, not_lt, not_le]
  | ule | ugt =>
    refine iff_of_true (fun m n hm hm' hn hn' => ?_) trivial
    simp only [condCmp, Cmp.negate, Cmp.Holds, Left]
    omega
  | _ => cases hcmp

/-- A register against itself is forgotten. -/
theorem self_fits (hdst : st.reg c.dst = .ofRange d) (hself : c.src = .reg c.dst) (hd : d.1 ≤ d.2) {op : CondOp}
    (hop : c.test = .cmp op) :
    (∀ x, InUnsigned d x →
      Pushed (emitRefined st c.dst (selfCompareRefine (condCmp op).2) (branchTarget pc c.offset) (pc + 1)) c pc d d x x) ↔
      d = full := by
  have hfull : ∀ x, Narrowed d full x ↔ d = full := by
    intro x
    have hmax : u64Max.toNat = 2 ^ 64 - 1 := by decide
    rw [narrowed_iff, Prod.ext_iff, ← UInt64.toNat_inj, ← UInt64.toNat_inj]
    have h1 := x.toNat_lt
    have h2 := d.2.toNat_lt
    simp only [full, UInt64.toNat_zero, hmax]
    omega
  have hsides : ∀ x, InUnsigned d x →
      (Pushed (emitRefined st c.dst (selfCompareRefine (condCmp op).2) (branchTarget pc c.offset) (pc + 1)) c pc d d x x ↔
        d = full) := by
    intro x hx
    have hsrc : condOperand st c.src = .ofRange d := by
      rw [hself]
      exact hdst
    rw [emitRefined_pushed hdst hsrc hx (fun _ => rfl), hop, show Test.holds (.cmp op) x x = op.isReflexive from
      condHolds_self op x]
    cases op <;>
      simp only [condCmp, selfCompareRefine, CondOp.isReflexive, if_true, if_false, Bool.false_eq_true, keeps_one,
        List.not_mem_nil, false_and, exists_false, and_false, or_false, hfull]
  constructor
  · intro h
    exact (hsides d.1 ⟨UInt64.le_refl _, hd⟩).mp (h d.1 ⟨UInt64.le_refl _, hd⟩)
  · exact fun h x hx => (hsides x hx).mpr h

theorem signedCmpRefine_cases (d s : Range) (cmp : Cmp) :
    (∃ ds ss, asSigned d = some ds ∧ asSigned s = some ss ∧
      signedCmpRefine d s cmp = (signedTake ds ss cmp, signedTake ds ss cmp.negate)) ∨
      signedCmpRefine d s cmp = ([d], [d]) := by
  unfold signedCmpRefine
  split
  · rename_i ds ss hds hss
    exact .inl ⟨ds, ss, hds, hss, rfl⟩
  · exact .inr rfl

theorem signed_fits (hdst : st.reg c.dst = .ofRange d) (hsrc : condOperand st c.src = .ofRange s)
    (hself : c.src ≠ .reg c.dst) {op : CondOp} (hop : c.test = .cmp op) (hcmp : (condCmp op).1 = true)
    (hx : InUnsigned d x) (hy : InUnsigned s y) :
    Pushed (emitRefined st c.dst (signedCmpRefine d s (condCmp op).2) (branchTarget pc c.offset) (pc + 1)) c pc d s x y := by
  have hholds : c.test.holds x y = true ↔ (condCmp op).2.Holds x.toInt64.toInt y.toInt64.toInt := by
    rw [hop]
    exact condHolds_signed hcmp
  have hordered : (condCmp op).2 ≠ .eq ∧ (condCmp op).2 ≠ .ne ∧ (condCmp op).2.negate ≠ .eq ∧
      (condCmp op).2.negate ≠ .ne := by
    cases op with
    | sgt | sge | slt | sle => decide
    | _ => cases hcmp
  rw [emitRefined_pushed hdst hsrc hy (fun h => absurd h hself)]
  left
  rcases signedCmpRefine_cases d s (condCmp op).2 with ⟨ds, ss, hds, hss, heq⟩ | heq
  · rw [heq]
    cases hb : c.test.holds x y with
    | true => exact signedTake_keeps hds hss hx hy hordered.1 hordered.2.1 (hholds.mp hb)
    | false =>
      refine signedTake_keeps hds hss hx hy hordered.2.2.1 hordered.2.2.2 ((Cmp.negate_holds _ _ _).mpr ?_)
      rw [← hholds, hb]
      decide
  · -- an operand that straddles the sign bit leaves both sides open
    rw [heq, ite_self, keeps_one]
    exact narrowed_self hx

section Steps

variable {dst : Reg} {cmp : Cmp} {src : SpecValue} {offset : Int16} {same : Bool} {self : Prop} [Decidable self]

theorem branch_scalars (hdst : st.reg dst = .ofRange d) (hsrc : src = .ofRange s) (hsame : same = true ↔ self) :
    branch st pc dst cmp src offset same =
      .ok (emitRefined st dst (if self then selfCompareRefine cmp else unsignedCmpRefine d s cmp)
        (branchTarget pc offset) (pc + 1)) := by
  unfold branch scalarBranch
  rw [hdst, hsrc, if_neg (by simp [SpecValue.isPointer, SpecValue.ofRange])]
  dsimp only [SpecValue.asScalar, SpecValue.ofRange]
  by_cases h : self
  · rw [if_pos (hsame.mpr h), if_pos h]
  · rw [if_neg (mt hsame.mp h), if_neg h]

theorem branchSigned_scalars (hdst : st.reg dst = .ofRange d) (hsrc : src = .ofRange s) (hsame : same = true ↔ self) :
    branchSigned st pc dst cmp src offset same =
      .ok (emitRefined st dst (if self then selfCompareRefine cmp else signedCmpRefine d s cmp)
        (branchTarget pc offset) (pc + 1)) := by
  unfold branchSigned scalarBranch
  rw [hdst, hsrc, if_neg (by simp [SpecValue.isPointer, SpecValue.ofRange])]
  dsimp only [SpecValue.asScalar, SpecValue.ofRange]
  by_cases h : self
  · rw [if_pos (hsame.mpr h), if_pos h]
  · rw [if_neg (mt hsame.mp h), if_neg h]

end Steps

theorem sameReg_iff {dst src : Reg} :
    decide (dst = src) = true ↔ RandVerifier.Operand.reg src = RandVerifier.Operand.reg dst := by
  simp [eq_comm]

theorem imm_not_self {dst : Reg} {imm : Int32} : false = true ↔ RandVerifier.Operand.imm imm = .reg dst := by simp

/-- The conditional jumps as steps: a comparison, or a test. -/
theorem stepPlain_cmp (env : Env) {insn : BpfInsn} {op : CondOp} (hc : conditional insn = some c) (hop : c.test = .cmp op)
    (hdst : st.reg c.dst = .ofRange d) (hsrc : condOperand st c.src = .ofRange s) :
    stepPlain env pc st insn = .ok (emitRefined st c.dst
      (if c.src = .reg c.dst then selfCompareRefine (condCmp op).2
        else if (condCmp op).1 then signedCmpRefine d s (condCmp op).2
        else unsignedCmpRefine d s (condCmp op).2) (branchTarget pc c.offset) (pc + 1)) := by
  cases insn with
  | jset | jsetImm =>
    cases hc
    cases hop
  | jmp32 dst src imm offset op =>
    cases src with
    | some src =>
      cases hc
      cases hop
    | none =>
      cases imm with
      | some imm =>
        cases hc
        cases hop
      | none => cases hc
  | jeq | jne | jgt | jge | jlt | jle =>
    cases hc
    cases hop
    exact branch_scalars hdst hsrc sameReg_iff
  | jsgt | jsge | jslt | jsle =>
    cases hc
    cases hop
    exact branchSigned_scalars hdst hsrc sameReg_iff
  | jeqImm | jneImm | jgtImm | jgeImm | jltImm | jleImm =>
    cases hc
    cases hop
    exact branch_scalars hdst hsrc imm_not_self
  | jsgtImm | jsgeImm | jsltImm | jsleImm =>
    cases hc
    cases hop
    exact branchSigned_scalars hdst hsrc imm_not_self
  | _ => cases hc

theorem const_word {w : UInt64} (h : SpecValue.constScalar w = .ofRange s) (hy : InUnsigned s y) : y = w := by
  obtain rfl : (w, w) = s := ofRange_inj.mp h
  exact UInt64.le_antisymm hy.2 hy.1

theorem range_word (hy : InUnsigned s y) (hconst : s.1 = s.2) : y = s.1 :=
  UInt64.le_antisymm (hconst ▸ hy.2) hy.1

theorem jmp32Test_holds (op : Jmp32Op) (a b : UInt64) : jmp32Test op a b = Explorer.jmp32Holds op a.toUInt32 b.toUInt32 := by
  cases op <;> rfl

variable (pc) in
theorem stepPlain_test (env : Env) {insn : BpfInsn} (hc : conditional insn = some c) (hop : ∀ op, c.test ≠ .cmp op)
    (hdst : st.reg c.dst = .ofRange d) (hsrc : condOperand st c.src = .ofRange s) :
    ∃ message test src s', stepPlain env pc st insn = testBranch st pc c.offset (st.reg c.dst) src test message ∧
      src = .ofRange s' ∧ ∀ x y, InUnsigned s y → s'.1 = s'.2 → test x s'.1 = c.test.holds x y := by
  cases insn with
  | jset dst src offset =>
    cases hc
    exact ⟨_, _, _, s, rfl, hsrc, fun x y hy hconst => by rw [← range_word hy hconst]; rfl⟩
  | jsetImm dst imm offset =>
    cases hc
    exact ⟨_, _, _, s, rfl, hsrc, fun x y hy hconst => by rw [← range_word hy hconst]; rfl⟩
  | jmp32 dst src imm offset op =>
    cases src with
    | some src =>
      cases hc
      refine ⟨_, _, _, s, rfl, hsrc, fun x y hy hconst => ?_⟩
      rw [← range_word hy hconst]
      exact jmp32Test_holds op x y
    | none =>
      cases imm with
      | some imm =>
        cases hc
        refine ⟨_, _, _, (imm.toUInt32.toUInt64, imm.toUInt32.toUInt64), rfl, rfl, fun x y hy _ => ?_⟩
        rw [const_word hsrc hy, jmp32Test_holds, UInt32.toUInt32_toUInt64, ← low_of_imm]
        rfl
      | none => cases hc
  | jeq | jne | jgt | jge | jlt | jle | jsgt | jsge | jslt | jsle | jeqImm | jneImm | jgtImm | jgeImm | jltImm | jleImm
  | jsgtImm | jsgeImm | jsltImm | jsleImm =>
    cases hc
    exact absurd rfl (hop _)
  | _ => cases hc

/-- The side that the machine takes is pushed, with both words inside what is left of their
    intervals, exactly if the branch fits. A register against itself has one word. -/
theorem branch_intervals (env : Env) (pc : Nat) {insn : BpfInsn} (hc : conditional insn = some c) (hd : d.1 ≤ d.2)
    (hs : s.1 ≤ s.2) (hdst : st.reg c.dst = .ofRange d) (hsrc : condOperand st c.src = .ofRange s) :
    ∃ nodes, stepPlain env pc st insn = .ok nodes ∧
      ((∀ x y, InUnsigned d x → InUnsigned s y → (c.src = .reg c.dst → x = y) → Pushed nodes c pc d s x y) ↔
        BranchFits c pc d s) := by
  cases htest : c.test with
  | cmp op =>
    refine ⟨_, stepPlain_cmp env hc htest hdst hsrc, ?_⟩
    by_cases hself : c.src = .reg c.dst
    · obtain rfl : d = s := by
        rw [hself] at hsrc
        exact ofRange_inj.mp (hdst.symm.trans hsrc)
      have hfits : BranchFits c pc d d ↔ d = full := by
        unfold BranchFits
        rw [htest]
        exact iff_of_eq (if_pos hself)
      rw [if_pos hself, hfits, ← self_fits hdst hself hd htest]
      constructor
      · exact fun h x hx => h x x hx hx fun _ => rfl
      · intro h x y hx hy heq
        obtain rfl := heq hself
        exact h x hx
    · simp only [hself, false_imp_iff, true_imp_iff]
      cases hsign : (condCmp op).1 with
      | true =>
        rw [if_pos rfl]
        refine iff_of_true (fun x y hx hy => signed_fits hdst hsrc hself htest hsign hx hy) ?_
        unfold BranchFits
        rw [htest]
        dsimp only
        rw [if_neg hself]
        cases op with
        | sgt | sge | slt | sle => trivial
        | _ => cases hsign
      | false =>
        rw [if_neg (by decide)]
        exact unsigned_fits hdst hsrc hd hs hself htest hsign
  | jset | jmp32 =>
    obtain ⟨message, test, src, s', hstep, hsrc', hval⟩ :=
      stepPlain_test pc env hc (fun op h => by rw [htest] at h; cases h) hdst hsrc
    have hword : ∀ x y, InUnsigned d x → InUnsigned s y → d.1 = d.2 → s'.1 = s'.2 → test d.1 s'.1 = c.test.holds x y := by
      intro x y hx hy hconst hconst'
      rw [← range_word hx hconst]
      exact hval x y hy hconst'
    have hlow : InUnsigned d d.1 ∧ InUnsigned s s.1 := ⟨⟨UInt64.le_refl _, hd⟩, ⟨UInt64.le_refl _, hs⟩⟩
    obtain ⟨nodes, hnodes, -⟩ := testBranch_pushed pc message hdst hsrc hlow.1 hlow.2 hsrc'
      (hword _ _ hlow.1 hlow.2)
    refine ⟨nodes, hstep.trans hnodes, iff_of_true (fun x y hx hy _ => ?_) ?_⟩
    · obtain ⟨nodes', hnodes', hpushed⟩ :=
        testBranch_pushed pc message hdst hsrc hx hy hsrc' (hword x y hx hy)
      rwa [Except.ok.inj (hnodes.symm.trans hnodes')]
    · unfold BranchFits
      rw [htest]
      trivial

end Sides

/-- R1 is a word of at most 5 and R2 one of at most 10. -/
def twoWords : SpecState := (SpecState.initial.setReg 1 (.ofRange (0, 5))).setReg 2 (.ofRange (0, 10))

theorem branch_intervals_greater : ∃ nodes, stepPlain ⟨[], fun _ => none, .xdp⟩ 0 twoWords (.jgt 1 2 4) = .ok nodes ∧
    ((∀ x y, InUnsigned (0, 5) x → InUnsigned (0, 10) y → (RandVerifier.Operand.reg 2 = .reg 1 → x = y) →
        Pushed nodes ⟨1, .reg 2, 4, .cmp .ugt⟩ 0 (0, 5) (0, 10) x y) ↔
      BranchFits ⟨1, .reg 2, 4, .cmp .ugt⟩ 0 (0, 5) (0, 10)) :=
  @branch_intervals twoWords ⟨1, .reg 2, 4, .cmp .ugt⟩ (0, 5) (0, 10) ⟨[], fun _ => none, .xdp⟩ 0 (.jgt 1 2 4) rfl
    (by decide) (by decide) rfl rfl

/-- `if R1 < R2` with R1 at most 5 and R2 at most 10: the taken side is not pushed. -/
theorem lost_less : ¬ ∀ (env : Env) (pc : Nat) (insn : BpfInsn) (c : Conditional) (st : SpecState) (d s : Range)
    (nodes : List Node) (x y : UInt64), conditional insn = some c → d.1 ≤ d.2 → s.1 ≤ s.2 → st.reg c.dst = .ofRange d →
    condOperand st c.src = .ofRange s → stepPlain env pc st insn = .ok nodes → InUnsigned d x → InUnsigned s y →
    (c.src = .reg c.dst → x = y) → Pushed nodes c pc d s x y := by
  intro h
  obtain ⟨st', hmem, -⟩ := h ⟨[], fun _ => none, .xdp⟩ 0 (.jlt 1 2 4) ⟨1, .reg 2, 4, .cmp .ult⟩ twoWords (0, 5) (0, 10)
    [(1, twoWords.setReg 1 (.ofRange (0, 5)))] 3 7 rfl (by decide) (by decide) rfl rfl rfl ⟨by decide, by decide⟩
    ⟨by decide, by decide⟩ (by decide)
  have hpc : Conditional.target ⟨1, .reg 2, 4, .cmp .ult⟩ 0 3 7 = 1 := congrArg Prod.fst (List.mem_singleton.mp hmem)
  exact absurd hpc (by decide)

end RandVerifier.Spec
