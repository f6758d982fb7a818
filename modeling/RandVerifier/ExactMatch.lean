/-
  RandVerifier.ExactMatch — a state compared with itself at `Exact`.

  The infinite-loop detection takes a revisit for a loop when the two states are exactly
  equal, so an unchanged state has to be equal to itself. `regs_exact` has no arm for
  acquired buffers, nullable buffers and BTF pointers: they are equal to nothing, not even
  to themselves. The ids are no obstacle: against itself a state only ever pairs an id with
  the same id (`Diagonal`).

  - `exact_reflexive`: a state is exactly equal to itself if and only if no register it
    compares and no spill it compares holds such a value; and the precision bits never matter.
  - `reserved_buffer_unequal`: the state after a reservation is not equal to itself.
-/

import RandVerifier.Covers
import RandVerifier.Paths

namespace RandVerifier

/-! ## Kinds -/

/-- The kinds that `regs_exact` has an arm for. -/
def RegState.hasExactArm : RegState → Bool
  | .ptrToMem .. | .ptrToMemOrNull .. | .ptrToBtfId .. => false
  | _ => true

theorem scalarBoundsExact_self (b : ScalarBounds) : scalarBoundsExact b b = true := by
  simp [scalarBoundsExact]

theorem regsExact_self (v : RegState) : regsExact v v = v.hasExactArm := by
  cases v with
  | scalar b => exact scalarBoundsExact_self b
  | _ => simp [regsExact, RegState.hasExactArm]

/-! ## Ids -/

/-- Every id is paired with itself. -/
def IdMap.Diagonal (m : IdMap) : Prop := ∀ p ∈ m.pairs, p.1 = p.2

theorem lookupIds_self {pairs : List (Nat × Nat)} (h : ∀ p ∈ pairs, p.1 = p.2) (a : Nat) :
    lookupIds pairs a a ≠ some false := by
  induction pairs with
  | nil => exact nofun
  | cons p rest ih =>
    obtain ⟨x, y⟩ := p
    have hxy : x = y := h (x, y) List.mem_cons_self
    unfold lookupIds
    split
    · rename_i hx
      simp [← hxy, hx]
    · rename_i hx
      rw [if_neg (hxy ▸ hx)]
      exact ih fun p hp => h p (List.mem_cons_of_mem _ hp)

/-- A comparison that from a diagonal map succeeds exactly when `c` holds, leaving a
    diagonal map. -/
structure Decides (f : IdMap → Option IdMap) (c : Prop) : Prop where
  pass : ∀ m : IdMap, m.Diagonal → c → ∃ m', f m = some m' ∧ m'.Diagonal
  fail : ∀ m : IdMap, m.Diagonal → ¬ c → f m = none

namespace Decides

variable {f g : IdMap → Option IdMap} {c d : Prop}

theorem skip : Decides some True := ⟨fun m hm _ => ⟨m, rfl, hm⟩, fun _ _ h => absurd trivial h⟩

theorem iff (h : Decides f c) (hcd : c ↔ d) : Decides f d :=
  ⟨fun m hm hd => h.pass m hm (hcd.mpr hd), fun m hm hd => h.fail m hm fun hc => hd (hcd.mp hc)⟩

theorem congr (h : Decides f c) (hfg : ∀ m, g m = f m) : Decides g c :=
  ⟨fun m hm hc => hfg m ▸ h.pass m hm hc, fun m hm hc => (hfg m).trans (h.fail m hm hc)⟩

theorem andThen (hf : Decides f c) (hg : Decides g d) : Decides (fun m => (f m).bind g) (c ∧ d) := by
  refine ⟨fun m hm h => ?_, fun m hm h => ?_⟩
  · obtain ⟨m', hm', hdiag⟩ := hf.pass m hm h.1
    obtain ⟨m'', hm'', hdiag'⟩ := hg.pass m' hdiag h.2
    exact ⟨m'', by rw [hm', Option.bind_some, hm''], hdiag'⟩
  · by_cases hc : c
    · obtain ⟨m', hm', hdiag⟩ := hf.pass m hm hc
      rw [hm', Option.bind_some]
      exact hg.fail m' hdiag fun hd => h ⟨hc, hd⟩
    · rw [hf.fail m hm hc, Option.bind_none]

theorem guard (hf : Decides f c) (b : Bool) : Decides (fun m => guardMap b (f m)) (b = true ∧ c) := by
  cases b with
  | false => exact ⟨fun _ _ h => absurd h.1 (by decide), fun _ _ _ => rfl⟩
  | true => exact (hf.congr fun _ => rfl).iff (by simp)

/-- A comparison of every element of a list, in order. -/
theorem foldlM {α : Type} {step : IdMap → α → Option IdMap} {holds : α → Prop} (l : List α)
    (h : ∀ a, Decides (step · a) (holds a)) : Decides (l.foldlM step) (∀ a ∈ l, holds a) := by
  induction l with
  | nil => exact skip.iff (by simp)
  | cons a rest ih =>
    have hcons := (h a).andThen ih
    refine (hcons.congr fun m => by rw [List.foldlM_cons]; rfl).iff ?_
    simp

theorem isSome_iff (h : Decides f c) {m : IdMap} (hm : m.Diagonal) : (f m).isSome = true ↔ c := by
  by_cases hc : c
  · obtain ⟨m', hm', -⟩ := h.pass m hm hc
    simp [hm', hc]
  · simp [h.fail m hm hc, hc]

end Decides

theorem checkIds_self (a : Nat) : Decides (checkIds · a a) True := by
  refine ⟨fun m hm _ => ?_, fun _ _ h => absurd trivial h⟩
  dsimp only [checkIds]
  rw [if_neg (by simp)]
  split
  · exact ⟨m, rfl, hm⟩
  · cases hl : lookupIds m.pairs a a with
    | none =>
      refine ⟨_, rfl, fun p hp => ?_⟩
      rcases List.mem_append.mp hp with hp | hp
      · exact hm p hp
      · cases List.mem_singleton.mp hp
        rfl
    | some b =>
      cases b with
      | true => exact ⟨m, rfl, hm⟩
      | false => exact absurd hl (lookupIds_self hm a)

theorem checkScalarIds_self (a : Nat) : Decides (checkScalarIds · a a) True := by
  by_cases ha : a = 0
  · exact Decides.skip.congr fun m => by simp [checkScalarIds, ha]
  · exact (checkIds_self a).congr fun m => by simp [checkScalarIds, ha]

theorem checkRegIds_self (v : RegState) : Decides (checkRegIds · v v) True := by
  cases v with
  | scalar b => exact checkScalarIds_self b.id
  | ptrToMapValue lo hi al sz id => exact checkIds_self id
  | ptrToMapValueOrNull sz id => exact checkIds_self id
  | ptrToMem lo hi al id par => exact checkIds_self id
  | ptrToMemOrNull id par sz => exact ((checkIds_self id).andThen (checkIds_self par)).iff (by simp)
  | ptrToBtfId btf id => exact checkIds_self id
  | _ => exact Decides.skip

theorem regsafe_self (v : RegState) : Decides (regsafe v v .exact) (v.hasExactArm = true) := by
  have h := (checkRegIds_self v).guard (regsExact v v)
  exact (h.congr fun m => rfl).iff (by simp [regsExact_self])

/-! ## Stacks -/

/-- The spill that the walk compares at the last byte of a slot has an arm. -/
def StackState.SlotExact (s : StackState) (slot : Nat) : Prop :=
  s.bytes (slot * 8 + 7) = .spill → ∀ v, s.spilled slot = some v → v.hasExactArm = true

/-- A slot that yields a scalar at a boundary holds no other value at its end. -/
theorem slotExact_of_fake {s : StackState} {slot im : Nat} {v : RegState} (him : im ≤ 7)
    (h : fakeScalarForStack s slot im = some v) : v.hasExactArm = true ∧ s.SlotExact slot := by
  rcases fakeScalar_cases h with ⟨-, b, hb, rfl⟩ | ⟨hmisc, rfl⟩
  · refine ⟨rfl, fun _ w hw => ?_⟩
    cases hb.symm.trans hw
    rfl
  · refine ⟨rfl, fun hspill => ?_⟩
    have hend := hmisc (slot * 8 + 7) (by omega) (by omega)
    rw [hend] at hspill
    cases hspill

theorem slotEndSafe_self (s : StackState) {i : Nat} (hi : i % 8 = 7) :
    Decides (slotEndSafe s s .exact i) (s.SlotExact (i / 8)) := by
  have hbyte : i / 8 * 8 + 7 = i := by omega
  have hend : ¬ i % 8 ≠ 7 := not_not.mpr hi
  unfold StackState.SlotExact
  rw [hbyte]
  by_cases hdyn : s.bytes i = .dynptr
  · have h := Decides.skip.guard (s.dynptr (i / 8) == s.dynptr (i / 8))
    exact (h.congr fun m => by rw [slotEndSafe, if_neg hend, if_pos hdyn]).iff (by simp [hdyn])
  · by_cases hspill : s.bytes i = .spill
    · cases hv : s.spilled (i / 8) with
      | none =>
        refine (Decides.skip.congr fun m => ?_).iff (by simp)
        rw [slotEndSafe, if_neg hend, if_neg hdyn, if_pos hspill, hv]
      | some v =>
        refine ((regsafe_self v).congr fun m => ?_).iff (by simp [hspill])
        rw [slotEndSafe, if_neg hend, if_neg hdyn, if_pos hspill, hv]
    · refine (Decides.skip.congr fun m => ?_).iff (by simp [hspill])
      rw [slotEndSafe, if_neg hend, if_neg hdyn, if_neg hspill]

theorem fakePair_self (s : StackState) (i : Nat) :
    fakePair s s i = none ∨ ∃ v, fakePair s s i = some (v, v) ∧
      fakeScalarForStack s (i / 8) (i % 8) = some v ∧ (i % 8 = 0 ∨ i % 8 = 4) := by
  unfold fakePair
  split
  · rename_i him
    cases hv : fakeScalarForStack s (i / 8) (i % 8) with
    | none => exact .inl rfl
    | some v => exact .inr ⟨v, rfl, rfl, him⟩
  · exact .inl rfl

/-- One round of the walk decides about the slots that end in the bytes it consumes. -/
theorem stackByteSafe_self (s : StackState) (i : Nat) :
    ∃ n f, 0 < n ∧ i + n ≤ i / 8 * 8 + 8 ∧ (∀ m, stackByteSafe s s .exact i m = (f m).map (·, n)) ∧
      Decides f (∀ slot, i ≤ slot * 8 + 7 → slot * 8 + 7 < i + n → s.SlotExact slot) := by
  have hsame : ¬ (ExactLevel.exact = .exact ∧ s.bytes i ≠ s.bytes i) := fun h => h.2 rfl
  by_cases hinv : s.bytes i = .invalid
  · refine ⟨1, some, by decide, by omega, fun m => ?_, Decides.skip.iff ⟨fun _ slot h1 h2 hspill => ?_, fun _ => trivial⟩⟩
    · rw [stackByteSafe, if_neg hsame, if_pos hinv, Option.map_some]
    · rw [show slot * 8 + 7 = i by omega, hinv] at hspill
      cases hspill
  · rcases fakePair_self s i with hpair | ⟨v, hpair, hfake, him⟩
    · have hmisc : ¬ (s.bytes i = .misc ∧ s.bytes i = .zero) := fun h => by
        rw [h.1] at h
        cases h.2
      refine ⟨1, slotEndSafe s s .exact i, by decide, by omega, fun m => ?_, ?_⟩
      · rw [stackByteSafe, if_neg hsame, if_neg hinv, hpair]
        simp only [if_neg hmisc, ne_eq, not_true, if_false]
      · by_cases hi : i % 8 = 7
        · refine (slotEndSafe_self s hi).iff ⟨fun h slot h1 h2 => ?_, fun h => h (i / 8) (by omega) (by omega)⟩
          rwa [show slot = i / 8 by omega]
        · refine (Decides.skip.congr fun m => by rw [slotEndSafe, if_pos hi]).iff ?_
          exact ⟨fun _ slot h1 h2 => by omega, fun _ => trivial⟩
    · obtain ⟨hv, hslot⟩ := slotExact_of_fake (by omega) hfake
      refine ⟨if i % 8 = 0 then 8 else 4, regsafe v v .exact, by split <;> decide,
        by split <;> omega, fun m => ?_, ?_⟩
      · rw [stackByteSafe, if_neg hsame, if_neg hinv, hpair]
      · refine (regsafe_self v).iff ⟨fun _ slot h1 h2 => ?_, fun _ => hv⟩
        rwa [show slot = i / 8 by split at h2 <;> omega]

theorem stacksafeFrom_self (s : StackState) (fuel i : Nat) (hfuel : stackSize ≤ i + fuel) :
    Decides (stacksafeFrom s s .exact fuel i)
      (∀ slot, i ≤ slot * 8 + 7 → slot < stackSlots → s.SlotExact slot) := by
  induction fuel generalizing i with
  | zero =>
    refine Decides.skip.iff ⟨fun _ slot h1 h2 => ?_, fun _ => trivial⟩
    have : stackSize = 512 ∧ stackSlots = 64 := ⟨rfl, rfl⟩
    omega
  | succ fuel ih =>
    have hsizes : stackSize = 512 ∧ stackSlots = 64 := ⟨rfl, rfl⟩
    by_cases hi : stackSize ≤ i
    · refine (Decides.skip.congr fun m => by rw [stacksafeFrom, if_pos hi]).iff ?_
      exact ⟨fun _ slot h1 h2 => by omega, fun _ => trivial⟩
    · obtain ⟨n, f, hn, hle, hf, hround⟩ := stackByteSafe_self s i
      refine ((hround.andThen (ih (i + n) (by omega))).congr fun m => ?_).iff ⟨fun h slot h1 h2 => ?_, fun h => ?_⟩
      · rw [stacksafeFrom, if_neg hi, hf m, Option.bind_map]
        rfl
      · by_cases hend : slot * 8 + 7 < i + n
        · exact h.1 slot h1 hend
        · exact h.2 slot (by omega) h2
      · exact ⟨fun slot h1 h2 => h slot h1 (by omega), fun slot h1 h2 => h slot (by omega) h2⟩

/-! ## States -/

theorem stacksafe_self (s : StackState) :
    Decides (stacksafe s s .exact) (∀ slot, slot < stackSlots → s.SlotExact slot) := by
  refine (stacksafeFrom_self s stackSize 0 (Nat.le_add_left ..)).iff ?_
  simp

theorem regsSafe_self (regs : Regs) (select : Reg → Bool) :
    Decides (regsSafe regs regs .exact select) (∀ r, select r = true → (regs r).hasExactArm = true) := by
  have hstep : ∀ r : Reg, Decides (fun m => if select r then regsafe (regs r) (regs r) .exact m else some m)
      (select r = true → (regs r).hasExactArm = true) := by
    intro r
    by_cases hr : select r = true
    · simpa [hr] using regsafe_self (regs r)
    · simpa [hr] using Decides.skip
  exact (Decides.foldlM (List.finRange 11) hstep).iff (by simp)

/-- The registers and the compared spills of a frame have an arm. -/
structure FrameExact (fr : FrameState) : Prop where
  regs : ∀ r, (fr.regs r).hasExactArm = true
  slots : ∀ slot, slot < stackSlots → fr.stack.SlotExact slot

theorem savedSafe_self (fr : Option FrameState) :
    Decides (savedSafe fr fr .exact) (∀ a, fr = some a → FrameExact a) := by
  cases fr with
  | none => exact (Decides.skip.congr fun m => rfl).iff (by simp)
  | some a =>
    have h := (regsSafe_self a.regs fun _ => true).andThen (stacksafe_self a.stack)
    refine (h.congr fun m => rfl).iff ⟨fun ⟨hr, hs⟩ b hb => ?_, fun hall => ?_⟩
    · cases hb
      exact ⟨fun r => hr r rfl, hs⟩
    · exact ⟨fun r _ => (hall a rfl).regs r, (hall a rfl).slots⟩

theorem refsSafe_self (st : VerifierState) : Decides (refsSafe st st) True :=
  (Decides.foldlM (List.range st.refsCnt) fun i => checkIds_self (st.refs i)).iff (by simp)

/-- Every value that an exact comparison of the state reaches has an arm. -/
structure StateExact (st : VerifierState) : Prop where
  current : FrameExact st.currentFrame
  saved : ∀ k, k < maxCallFrames - 1 → ∀ fr, st.saved k = some fr → FrameExact fr

/-- The registers outside the mask are not compared. -/
theorem statesEqual_self (st : VerifierState) (mask : RegMask) :
    statesEqual st st .exact mask = true ↔
      (∀ r : Reg, mask.getLsbD r.val = true → (st.regs r).hasExactArm = true) ∧
      (∀ slot, slot < stackSlots → st.stack.SlotExact slot) ∧
      ∀ k, k < maxCallFrames - 1 → ∀ fr, st.saved k = some fr → FrameExact fr := by
  have hsaved := Decides.foldlM (List.range (maxCallFrames - 1)) fun k => savedSafe_self (st.saved k)
  have hall := (refsSafe_self st).andThen ((regsSafe_self st.regs fun r => mask.getLsbD r.val).andThen
    ((stacksafe_self st.stack).andThen hsaved))
  have hdefault : IdMap.default.Diagonal := fun p hp => by cases hp
  rw [statesEqual, statesEqualMap, if_neg (by simp)]
  refine (hall.isSome_iff hdefault).trans ⟨fun ⟨_, hr, hs, hsv⟩ => ?_, fun ⟨hr, hs, hsv⟩ => ?_⟩
  · exact ⟨hr, hs, fun k hk => hsv k (List.mem_range.mpr hk)⟩
  · exact ⟨trivial, hr, hs, fun k hk => hsv k (List.mem_range.mp hk)⟩

theorem statesMaybeLooping_self (st : VerifierState) :
    statesMaybeLooping st st = true ↔ ∀ r, (st.regs r).hasExactArm = true := by
  simp [statesMaybeLooping, regsExact_self]

/-! ## Precision bits -/

def RegState.withPrecise (p : Bool) : RegState → RegState
  | .scalar b => .scalar { b with precise := p }
  | v => v

/-- A precision bit for every register and every slot of every frame. -/
structure PrecisionBits where
  regs : Nat → Reg → Bool
  slots : Nat → Nat → Bool

def StackState.withPrecise (s : StackState) (p : Nat → Bool) : StackState :=
  { s with spilled := fun slot => (s.spilled slot).map (RegState.withPrecise (p slot)) }

def FrameState.withPrecise (fr : FrameState) (p : PrecisionBits) (k : Nat) : FrameState :=
  { fr with
    regs := fun r => (fr.regs r).withPrecise (p.regs k r)
    stack := fr.stack.withPrecise (p.slots k) }

/-- The state with every precision bit as given. -/
def VerifierState.withPrecise (st : VerifierState) (p : PrecisionBits) : VerifierState :=
  { st with
    regs := fun r => (st.regs r).withPrecise (p.regs st.curframe r)
    stack := st.stack.withPrecise (p.slots st.curframe)
    saved := fun k => (st.saved k).map fun fr => fr.withPrecise p k }

section Precise

variable {a b : RegState} {p q : Bool} {s t : StackState} {f g : Nat → Bool}

@[simp] theorem regsExact_withPrecise : regsExact (a.withPrecise p) (b.withPrecise q) = regsExact a b := by
  cases a <;> cases b <;> rfl

theorem regsafe_withPrecise (m : IdMap) :
    regsafe (a.withPrecise p) (b.withPrecise q) .exact m = regsafe a b .exact m := by
  cases a <;> cases b <;> rfl

theorem fakeScalar_withPrecise (spi im : Nat) :
    ∃ p, fakeScalarForStack (s.withPrecise f) spi im =
      (fakeScalarForStack s spi im).map (RegState.withPrecise p) := by
  have hbytes : ∀ k, (s.withPrecise f).slotAllFrom spi im k = s.slotAllFrom spi im k := fun _ => rfl
  unfold fakeScalarForStack
  rw [hbytes, hbytes]
  by_cases hspill : s.slotAllFrom spi im .spill = true
  · simp only [if_pos hspill, StackState.withPrecise]
    refine ⟨f spi, ?_⟩
    rcases hv : s.spilled spi with _ | v
    · rfl
    · cases v with
      | scalar b =>
        simp only [Option.map_some, RegState.withPrecise]
        split <;> rfl
      | _ => rfl
  · simp only [if_neg hspill]
    by_cases hmisc : s.slotAllFrom spi im .misc = true
    · exact ⟨false, by simp only [if_pos hmisc]; rfl⟩
    · exact ⟨false, by simp only [if_neg hmisc]; rfl⟩

theorem fakePair_withPrecise (i : Nat) :
    ∃ p q, fakePair (s.withPrecise f) (t.withPrecise g) i =
      (fakePair s t i).map fun (o, c) => (o.withPrecise p, c.withPrecise q) := by
  obtain ⟨p, hp⟩ := @fakeScalar_withPrecise s f (i / 8) (i % 8)
  obtain ⟨q, hq⟩ := @fakeScalar_withPrecise t g (i / 8) (i % 8)
  refine ⟨p, q, ?_⟩
  unfold fakePair
  rw [hp, hq]
  split
  · cases fakeScalarForStack s (i / 8) (i % 8) with
    | none => rfl
    | some o => cases fakeScalarForStack t (i / 8) (i % 8) <;> rfl
  · rfl

theorem slotEndSafe_withPrecise (i : Nat) (m : IdMap) :
    slotEndSafe (s.withPrecise f) (t.withPrecise g) .exact i m = slotEndSafe s t .exact i m := by
  unfold slotEndSafe
  dsimp only [StackState.withPrecise]
  cases s.spilled (i / 8) with
  | none => rfl
  | some o =>
    cases t.spilled (i / 8) with
    | none => rfl
    | some c =>
      dsimp only [Option.map_some]
      rw [regsafe_withPrecise]
      rfl

theorem stackByteSafe_withPrecise (i : Nat) (m : IdMap) :
    stackByteSafe (s.withPrecise f) (t.withPrecise g) .exact i m = stackByteSafe s t .exact i m := by
  obtain ⟨p, q, hpair⟩ := @fakePair_withPrecise s t f g i
  unfold stackByteSafe
  rw [hpair, slotEndSafe_withPrecise]
  cases fakePair s t i with
  | none => rfl
  | some x =>
    dsimp only [Option.map_some]
    rw [regsafe_withPrecise]
    rfl

theorem stacksafe_withPrecise (m : IdMap) :
    stacksafe (s.withPrecise f) (t.withPrecise g) .exact m = stacksafe s t .exact m := by
  have hwalk : ∀ fuel i m, stacksafeFrom (s.withPrecise f) (t.withPrecise g) .exact fuel i m =
      stacksafeFrom s t .exact fuel i m := by
    intro fuel
    induction fuel with
    | zero => intro i m; rfl
    | succ fuel ih =>
      intro i m
      simp only [stacksafeFrom, stackByteSafe_withPrecise, ih]
  exact hwalk stackSize 0 m

theorem regsSafe_withPrecise {old new : Regs} {p q : Reg → Bool} (select : Reg → Bool) (m : IdMap) :
    regsSafe (fun r => (old r).withPrecise (p r)) (fun r => (new r).withPrecise (q r)) .exact select m =
      regsSafe old new .exact select m := by
  simp only [regsSafe, regsafe_withPrecise]

theorem savedSafe_withPrecise {old new : Option FrameState} {p q : PrecisionBits} (k : Nat) (m : IdMap) :
    savedSafe (old.map fun fr => fr.withPrecise p k) (new.map fun fr => fr.withPrecise q k) .exact m =
      savedSafe old new .exact m := by
  cases old with
  | none => cases new <;> rfl
  | some a =>
    cases new with
    | none => rfl
    | some b =>
      simp only [savedSafe, Option.map_some, FrameState.withPrecise, regsSafe_withPrecise, stacksafe_withPrecise]

end Precise

theorem statesMaybeLooping_withPrecise (a b : VerifierState) (p q : PrecisionBits) :
    statesMaybeLooping (a.withPrecise p) (b.withPrecise q) = statesMaybeLooping a b := by
  simp only [statesMaybeLooping, VerifierState.withPrecise, regsExact_withPrecise]

theorem statesEqual_withPrecise (a b : VerifierState) (p q : PrecisionBits) (mask : RegMask) :
    statesEqual (a.withPrecise p) (b.withPrecise q) .exact mask = statesEqual a b .exact mask := by
  simp only [statesEqual, statesEqualMap, VerifierState.withPrecise, regsSafe_withPrecise,
    stacksafe_withPrecise, savedSafe_withPrecise]
  rfl

/-! ## Reflexivity -/

/-- A state passes the prefilter and equals itself at every mask exactly if every value
    compared has an arm; the two comparisons never depend on a precision bit. -/
theorem exact_reflexive (st : VerifierState) :
    ((statesMaybeLooping st st = true ∧ ∀ mask, statesEqual st st .exact mask = true) ↔ StateExact st) ∧
    ∀ (a b : VerifierState) (p q : PrecisionBits) (mask : RegMask),
      statesMaybeLooping (a.withPrecise p) (b.withPrecise q) = statesMaybeLooping a b ∧
      statesEqual (a.withPrecise p) (b.withPrecise q) .exact mask = statesEqual a b .exact mask := by
  refine ⟨⟨fun ⟨hloop, heq⟩ => ?_, fun h => ⟨?_, fun mask => ?_⟩⟩, fun a b p q mask => ?_⟩
  · obtain ⟨-, hslots, hsaved⟩ := (statesEqual_self st 0).mp (heq 0)
    exact ⟨⟨(statesMaybeLooping_self st).mp hloop, hslots⟩, hsaved⟩
  · exact (statesMaybeLooping_self st).mpr h.current.regs
  · exact (statesEqual_self st mask).mpr ⟨fun r _ => h.current.regs r, h.current.slots, h.saved⟩
  · exact ⟨statesMaybeLooping_withPrecise a b p q, statesEqual_withPrecise a b p q mask⟩

/-- Reserve a buffer, then jump to the same place for ever. -/
def reserveLoop : List BpfInsn :=
  [.ldMapFd 1 0 0 0 1, .movImm 2 16, .movImm 3 0, .call 131, .jmp (-1)]

/-- The jump of `reserveLoop` leaves the state unchanged, which then is equal to itself
    neither in the prefilter nor exactly, R0 being compared. -/
theorem reserved_buffer_unequal :
    ∃ (env : MiniEnv) (s : MiniState) (item : WorkItem),
      miniEnv reserveLoop [] .default = .ok env ∧ MiniReach env s ∧ item ∈ s.worklist ∧
      successors item.pc (.jmp (-1)) item.state = .ok [(item.pc, item.state)] ∧
      statesMaybeLooping item.state item.state = false ∧
      statesEqual item.state item.state .exact 1 = false := by
  have hrun : (itemAfter reserveLoop 4).any (fun x => x.2.2.pc == 4 &&
      !statesMaybeLooping x.2.2.state x.2.2.state &&
      !statesEqual x.2.2.state x.2.2.state .exact 1) = true := by decide +kernel
  obtain ⟨⟨env, s, item⟩, hx, hcheck⟩ := (Option.any_eq_true _ _).mp hrun
  obtain ⟨henv, hreach, hitem⟩ := itemAfter_eq_some hx
  simp only [Bool.and_eq_true, beq_iff_eq, Bool.not_eq_true'] at hcheck
  obtain ⟨⟨hpc, hloop⟩, heq⟩ := hcheck
  refine ⟨env, s, item, henv, hreach, hitem, ?_, hloop, heq⟩
  rw [hpc]
  rfl

end RandVerifier
