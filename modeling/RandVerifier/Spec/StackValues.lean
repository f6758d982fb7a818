/-
  RandVerifier.Spec.StackValues — what the tracked stack says about the bytes of a frame.

  A tracked stack represents a frame when every written byte has its tracked value and
  every spill contains the word of its slot. A load returns a value that contains the word
  it loads (`load_contains`). A store keeps the stack right only where the values it leaves
  for its bytes are the ones written: the bytes of a value that is not a constant stay as
  they were tracked before (full width) or become 0 (narrow, variable offset), the upper
  half of an empty slot becomes 0, and an atomic or a helper leaves every tracked byte
  alone. `stack_values_kept` is the exact condition; `stale_spill_byte` loads a constant
  that no store ever wrote.
-/

import RandVerifier.Spec.Steps

namespace RandVerifier.Spec

/-! ## Concrete frames -/

/-- The bytes of a concrete frame, the lowest address first. -/
abbrev Bytes := Fin specStackSize → UInt8

namespace Bytes

def byteAt (C : Bytes) (idx : Int) : UInt8 := C (frameIndex idx)

/-- The word of `n` bytes at an offset from the end of the frame. -/
def read (C : Bytes) (off : Int) (n : Nat) : UInt64 := compose (fun i => C.byteAt (specStackSize + off + i)) n

/-- `n` bytes written at an offset from the end of the frame. -/
def write (C : Bytes) (off : Int) (bs : Nat → UInt8) (n : Nat) : Bytes := fun i =>
  if inSpan off (off + n) i then bs ((i.val : Int) - (specStackSize + off)).toNat else C i

/-- The word of a slot. -/
def slotWord (C : Bytes) (slot : Fin specSlots) : UInt64 := C.read (8 * slot.val - specStackSize) 8

variable {C C' : Bytes} {off : Int} {bs : Nat → UInt8} {n : Nat} {i : Fin specStackSize} {slot : Fin specSlots}

theorem write_inside (h : inSpan off (off + n) i) :
    C.write off bs n i = bs ((i.val : Int) - (specStackSize + off)).toNat := if_pos h

theorem write_outside (h : ¬ inSpan off (off + n) i) : C.write off bs n i = C i := if_neg h

theorem slotWord_congr (h : ∀ i : Fin specStackSize, i.val / 8 = slot.val → C i = C' i) :
    C.slotWord slot = C'.slotWord slot := by
  apply compose_congr
  intro k hk
  have hslot := slot.isLt
  apply h
  have hidx := frameIndex_val (specStackSize + (8 * slot.val - specStackSize) + k)
  unfold specStackSize specSlots at *
  omega

/-- A word written over a slot is the word of the slot. -/
theorem slotWord_write {w : UInt64} (h : specStackSize + off = 8 * (slot.val : Int)) :
    (C.write off (wordByte w) 8).slotWord slot = w := by
  refine (compose_congr ?_).trans (compose_wordByte w)
  intro k hk
  have hslot := slot.isLt
  have hidx := frameIndex_val (specStackSize + (8 * slot.val - specStackSize) + k)
  unfold byteAt
  rw [write_inside]
  · congr 1
    unfold specStackSize specSlots at *
    omega
  · unfold inSpan
    unfold specStackSize specSlots at *
    omega

end Bytes

/-! ## Tracked values -/

/-- A value contains a word; `γ` says what the pointers mean, an unwritten value says
    nothing. -/
def SpecValue.Contains (γ : SpecValue → UInt64 → Prop) (v : SpecValue) (w : UInt64) : Prop :=
  match v with
  | .uninit => True
  | .scalar lo hi => lo ≤ w ∧ w ≤ hi
  | ptr => γ ptr w

section Represents

variable {γ : SpecValue → UInt64 → Prop} {v : SpecValue} {w c : UInt64}

theorem contains_unknown : SpecValue.unknownScalar.Contains γ w :=
  ⟨UInt64.zero_le, UInt64.le_iff_toNat_le.mpr (Nat.le_of_lt_succ w.toNat_lt)⟩

theorem contains_const : (SpecValue.constScalar w).Contains γ w := ⟨UInt64.le_refl w, UInt64.le_refl w⟩

theorem eq_of_const (hc : v.const? = some c) (h : v.Contains γ w) : w = c := by
  cases v with
  | scalar lo hi =>
    simp only [SpecValue.const?] at hc
    split at hc
    · rename_i heq
      cases hc
      subst heq
      exact UInt64.le_antisymm h.2 h.1
    · cases hc
  | _ => cases hc

theorem value_ofValue : (Spill.ofValue v).value = v := by cases v <;> rfl

/-- The tracked stack represents the bytes of a frame. -/
structure Represents (γ : SpecValue → UInt64 → Prop) (stack : SpecStack) (C : Bytes) : Prop where
  bytes : ∀ i, stack.init i = true → stack.bytes i = C i
  spills : ∀ slot spill, stack.spill slot = some spill → spill.value.Contains γ (C.slotWord slot)

/-! ## Ranges and slots -/

theorem checkStackRange_ok {pc : Nat} {start stop size : Int} {u : Unit}
    (h : checkStackRange pc start stop size = .ok u) :
    -specStackSize ≤ start ∧ stop ≤ 0 ∧ (4 ≤ size → alignedAcross start (stop - size) size = true) := by
  unfold checkStackRange failure at h
  split at h
  · cases h
  · split at h
    · cases h
    · rename_i hrange halign
      refine ⟨by omega, by omega, ?_⟩
      intro hsize
      by_contra hne
      exact halign ⟨hsize, by simpa using hne⟩

/-- The span of an accepted access is exact and lies in the frame. -/
theorem access_exact {pc : Nat} {lo hi off : Int} {size : MemSize} {u : Unit} (hle : lo ≤ hi)
    (h : checkStackRange pc (accessStart lo off) (accessEnd hi off size) size.bytes = .ok u) :
    accessStart lo off = lo + off ∧ accessEnd hi off size = hi + off + size.bytes ∧
      -512 ≤ lo + off ∧ hi + off + size.bytes ≤ 0 := by
  obtain ⟨hstart, hstop, -⟩ := checkStackRange_ok h
  have hsize : 1 ≤ size.bytes ∧ size.bytes ≤ 8 := by cases size <;> decide
  unfold accessStart accessEnd clampI64 specStackSize at *
  omega

theorem slotOf_eq_some {abs : Int} {slot : Fin specSlots} :
    SpecStack.slotOf abs = some slot ↔ abs = 8 * (slot.val : Int) := by
  have hslot := slot.isLt
  have hval (h0 : 0 ≤ abs) (h1 : abs + 8 ≤ 512) : (Fin.ofNat specSlots (abs / 8).toNat).val = (abs / 8).toNat := by
    apply Nat.mod_eq_of_lt
    unfold specSlots
    omega
  unfold SpecStack.slotOf
  constructor
  · intro h
    split at h
    · rename_i hr
      obtain rfl := Option.some.inj h
      rw [hval hr.1 hr.2.2]
      omega
    · cases h
  · intro h
    have hr : 0 ≤ abs ∧ abs % 8 = 0 ∧ abs + 8 ≤ specStackSize := by
      unfold specStackSize specSlots at *
      omega
    rw [if_pos hr]
    congr 1
    apply Fin.ext
    rw [hval hr.1 hr.2.2]
    omega

/-- A byte of an untouched slot lies outside the span. -/
theorem not_inSpan_of_slot {start stop : Int} {slot : Fin specSlots} {i : Fin specStackSize}
    (hi : i.val / 8 = slot.val) (h : ¬ touchesSlot start stop slot) : ¬ inSpan start stop i := by
  unfold touchesSlot inSpan at *
  omega

/-- A write leaves the word of a slot that it does not touch. -/
theorem slotWord_untouched {C : Bytes} {start stop off : Int} {bs : Nat → UInt8} {n : Nat} {slot : Fin specSlots}
    (h0 : start ≤ off) (h1 : off + n ≤ stop) (h : ¬ touchesSlot start stop slot) :
    (C.write off bs n).slotWord slot = C.slotWord slot := by
  apply Bytes.slotWord_congr
  intro i hi
  apply Bytes.write_outside
  have hout := not_inSpan_of_slot hi h
  unfold inSpan at *
  omega

/-! ## Stores -/

variable {stack stack' : SpecStack} {C : Bytes} {pc : Nat} {lo hi off start stop o : Int} {size : MemSize}

/-- A full-width store keeps the stack right when the value is a constant, or when its bytes
    are those that were tracked before. -/
def FullKept (stack : SpecStack) (start : Int) (v : SpecValue) (C' : Bytes) : Prop :=
  v.const? = none → ∀ i, inSpan start (start + 8) i → stack.bytes i = C' i

/-- A narrow store: a value that is not a constant writes zeros; the upper half of an empty
    slot holds zeros; the spill of a second slot that is written still holds its word. -/
structure NarrowKept (γ : SpecValue → UInt64 → Prop) (stack : SpecStack) (start : Int) (size : MemSize)
    (v : SpecValue) (C' : Bytes) : Prop where
  zero : v.const? = none → ∀ i, inSpan start (start + size.bytes) i → C' i = 0
  upper : ∀ slot : Fin specSlots, size = .w → specStackSize + start = 8 * (slot.val : Int) →
    stack.spill slot = none → ∀ i, inSpan (start + 4) (start + 8) i → C' i = 0
  second : ∀ slot spill, touchesSlot start (start + size.bytes) slot →
    (slot.val : Int) ≠ (specStackSize + start) / 8 → stack.spill slot = some spill →
    spill.value.Contains γ (C'.slotWord slot)

/-- A store at an unknown offset: every byte it may have written is 0. -/
def VariableKept (start stop : Int) (C' : Bytes) : Prop := ∀ i, inSpan start stop i → C' i = 0

theorem storeFull_ok (h : SpecStack.storeFull pc stack start v = .ok stack') :
    ∃ slot : Fin specSlots, specStackSize + start = 8 * (slot.val : Int) ∧
      stack'.spill = Function.update stack.spill slot (some (Spill.ofValue v)) ∧
      (∀ i, stack'.init i = true ↔ inSpan start (start + 8) i ∨ stack.init i = true) ∧
      (∀ i, stack'.bytes i = match v.const? with
        | some c => if inSpan start (start + 8) i then
            wordByte c ((i.val : Int) - (specStackSize + start)).toNat else stack.bytes i
        | none => stack.bytes i) := by
  unfold SpecStack.storeFull failure at h
  split at h
  · cases h
  · rename_i slot hslot
    have hinit : ∀ i, ((specStackSize + start ≤ (i.val : Int) ∧ (i.val : Int) < specStackSize + start + 8) ↔
        inSpan start (start + 8) i) := by
      intro i
      unfold inSpan
      omega
    refine ⟨slot, slotOf_eq_some.mp hslot, ?_⟩
    cases hc : v.const? with
    | none =>
      simp only [hc] at h
      cases h
      refine ⟨rfl, ?_, fun _ => rfl⟩
      intro i
      simp only [SpecStack.markRangeInit, Bool.or_eq_true, decide_eq_true_eq, hinit]
    | some c =>
      simp only [hc] at h
      cases h
      refine ⟨rfl, ?_, fun _ => rfl⟩
      intro i
      simp only [SpecStack.markRangeInit, Bool.or_eq_true, decide_eq_true_eq, hinit]

theorem storeFull_kept (hrep : Represents γ stack C) (hw : v.Contains γ w)
    (hs : SpecStack.storeFull pc stack start v = .ok stack') :
    Represents γ stack' (C.write start (wordByte w) 8) ↔
      FullKept stack start v (C.write start (wordByte w) 8) := by
  obtain ⟨slot, hslot, hspill, hinit, hbytes⟩ := storeFull_ok hs
  constructor
  · intro h hc i hi
    have hb := h.bytes i ((hinit i).mpr (.inl hi))
    rw [hbytes, hc] at hb
    exact hb
  · intro hk
    refine ⟨?_, ?_⟩
    · intro i hi
      rw [hbytes]
      by_cases hin : inSpan start (start + 8) i
      · cases hc : v.const? with
        | none => exact hk hc i hin
        | some c =>
          simp only [if_pos hin]
          rw [Bytes.write_inside hin, eq_of_const hc hw]
      · have hold : stack.init i = true := ((hinit i).mp hi).resolve_left hin
        rw [Bytes.write_outside hin, ← hrep.bytes i hold]
        cases v.const? <;> simp [hin]
    · intro slot' spill hsp
      rw [hspill] at hsp
      by_cases heq : slot' = slot
      · subst heq
        rw [Function.update_self] at hsp
        cases hsp
        rw [Bytes.slotWord_write hslot, value_ofValue]
        exact hw
      · rw [Function.update_of_ne heq] at hsp
        have hout : ¬ touchesSlot start (start + 8) slot' := by
          have hne : slot'.val ≠ slot.val := fun h => heq (Fin.ext h)
          unfold touchesSlot
          omega
        rw [slotWord_untouched (le_refl start) (by omega) hout]
        exact hrep.spills slot' spill hsp

/-- The bytes of the upper half that a narrow store fills. -/
def UpperHalf (stack : SpecStack) (start : Int) (size : MemSize) (slot : Fin specSlots)
    (i : Fin specStackSize) : Prop :=
  size = .w ∧ start % 8 = 0 ∧ (stack.spill slot).isNone = true ∧ inSpan (start + 4) (start + 8) i

theorem storeNarrow_ok (h0 : -specStackSize ≤ start)
    (h : SpecStack.storeNarrow pc stack start size v = .ok stack') :
    ∃ slot : Fin specSlots, (slot.val : Int) = (specStackSize + start) / 8 ∧
      stack'.spill = Function.update stack.spill slot none ∧
      (∀ i, stack'.init i = true ↔ inSpan start (start + size.bytes) i ∨ UpperHalf stack start size slot i ∨
        stack.init i = true) ∧
      (∀ i, inSpan start (start + size.bytes) i → stack'.bytes i =
        SpecStack.valueByte v ((i.val : Int) - (specStackSize + start)).toNat) ∧
      (∀ i, ¬ inSpan start (start + size.bytes) i → UpperHalf stack start size slot i → stack'.bytes i = 0) ∧
      (∀ i, ¬ inSpan start (start + size.bytes) i → ¬ UpperHalf stack start size slot i →
        stack'.bytes i = stack.bytes i) := by
  unfold SpecStack.storeNarrow failure at h
  dsimp only at h
  split at h
  · rename_i hlt
    split at h
    · cases h
    · cases h
      refine ⟨⟨_, hlt⟩, ?_, rfl, ?_, ?_, ?_, ?_⟩
      · show (((specStackSize + start) / 8).toNat : Int) = _
        omega
      · intro i
        simp only [Bool.or_eq_true, decide_eq_true_eq, or_assoc]
        rfl
      · intro i hi
        exact if_pos hi
      · intro i hi hup
        exact (if_neg hi).trans (if_pos hup)
      · intro i hi hup
        exact (if_neg hi).trans (if_neg hup)
  · cases h

theorem valueByte_const (hc : v.const? = some c) (k : Nat) : SpecStack.valueByte v k = wordByte c k := by
  simp only [SpecStack.valueByte, hc]

theorem valueByte_unknown (hc : v.const? = none) (k : Nat) : SpecStack.valueByte v k = 0 := by
  simp only [SpecStack.valueByte, hc]

theorem storeNarrow_kept (hrep : Represents γ stack C) (hw : v.Contains γ w) (hsize : size ≠ .dw)
    (h0 : -specStackSize ≤ start) (hs : SpecStack.storeNarrow pc stack start size v = .ok stack') :
    Represents γ stack' (C.write start (wordByte w) size.bytes) ↔
      NarrowKept γ stack start size v (C.write start (wordByte w) size.bytes) := by
  obtain ⟨slot, hslot, hspill, hinit, hin, hup, hout⟩ := storeNarrow_ok h0 hs
  constructor
  · intro h
    refine ⟨?_, ?_, ?_⟩
    · intro hc i hi
      rw [← h.bytes i ((hinit i).mpr (.inl hi)), hin i hi, valueByte_unknown hc]
    · intro slot' hw' hal hsp i hi
      have heq : slot' = slot := Fin.ext (by omega)
      subst heq
      have hupper : UpperHalf stack start size slot' i := ⟨hw', by unfold specStackSize at hal; omega, by simp [hsp], hi⟩
      have hnot : ¬ inSpan start (start + size.bytes) i := by
        subst hw'
        have hi' := hi
        unfold inSpan at hi' ⊢
        simp only [MemSize.bytes]
        omega
      rw [← h.bytes i ((hinit i).mpr (.inr (.inl hupper))), hup i hnot hupper]
    · intro slot' spill _ hne hsp
      refine h.spills slot' spill ?_
      have hother : slot' ≠ slot := by
        rintro rfl
        exact hne hslot
      rw [hspill, Function.update_of_ne hother]
      exact hsp
  · intro hk
    refine ⟨?_, ?_⟩
    · intro i hi
      by_cases hspan : inSpan start (start + size.bytes) i
      · rw [hin i hspan]
        cases hc : v.const? with
        | none => rw [valueByte_unknown hc, hk.zero hc i hspan]
        | some c => rw [valueByte_const hc, Bytes.write_inside hspan, eq_of_const hc hw]
      · by_cases hupper : UpperHalf stack start size slot i
        · obtain ⟨hsize', hal, hnone, hspan'⟩ := hupper
          rw [hup i hspan ⟨hsize', hal, hnone, hspan'⟩]
          have hbase : specStackSize + start = 8 * (slot.val : Int) := by
            unfold specStackSize at *
            omega
          exact (hk.upper slot hsize' hbase (Option.isNone_iff_eq_none.mp hnone) i hspan').symm
        · have hold : stack.init i = true := (((hinit i).mp hi).resolve_left hspan).resolve_left hupper
          rw [hout i hspan hupper, Bytes.write_outside hspan]
          exact hrep.bytes i hold
    · intro slot' spill hsp
      rw [hspill] at hsp
      by_cases heq : slot' = slot
      · subst heq
        rw [Function.update_self] at hsp
        cases hsp
      · rw [Function.update_of_ne heq] at hsp
        by_cases htouch : touchesSlot start (start + size.bytes) slot'
        · refine hk.second slot' spill htouch ?_ hsp
          intro hval
          exact heq (Fin.ext (by omega))
        · rw [slotWord_untouched (le_refl start) (le_refl _) htouch]
          exact hrep.spills slot' spill hsp

theorem storeVariable_ok (h : SpecStack.storeVariable pc stack start stop = .ok stack') :
    (∀ slot, touchesSlot start stop slot → stack.spill slot = none) ∧ stack'.spill = stack.spill ∧
      (∀ i, stack'.init i = true ↔ inSpan start stop i ∨ stack.init i = true) ∧
      (∀ i, stack'.bytes i = if inSpan start stop i then 0 else stack.bytes i) := by
  unfold SpecStack.storeVariable failure at h
  split at h
  · cases h
  · rename_i hfree
    cases h
    refine ⟨?_, rfl, ?_, fun _ => rfl⟩
    · intro slot ht
      by_contra hne
      exact hfree ⟨slot, ht, Option.isSome_iff_ne_none.mpr hne⟩
    · intro i
      simp only [Bool.or_eq_true, decide_eq_true_eq]

theorem storeVariable_kept {n : Nat} {bs : Nat → UInt8} (hrep : Represents γ stack C) (h0 : start ≤ o)
    (h1 : o + n ≤ stop) (hs : SpecStack.storeVariable pc stack start stop = .ok stack') :
    Represents γ stack' (C.write o bs n) ↔ VariableKept start stop (C.write o bs n) := by
  obtain ⟨hfree, hspill, hinit, hbytes⟩ := storeVariable_ok hs
  constructor
  · intro h i hi
    rw [← h.bytes i ((hinit i).mpr (.inl hi)), hbytes, if_pos hi]
  · intro hk
    refine ⟨?_, ?_⟩
    · intro i hi
      rw [hbytes]
      by_cases hin : inSpan start stop i
      · rw [if_pos hin, hk i hin]
      · have hold : stack.init i = true := ((hinit i).mp hi).resolve_left hin
        have hout : ¬ inSpan o (o + n) i := by
          unfold inSpan at *
          omega
        rw [if_neg hin, Bytes.write_outside hout]
        exact hrep.bytes i hold
    · intro slot spill hsp
      rw [hspill] at hsp
      have hout : ¬ touchesSlot start stop slot := by
        intro ht
        rw [hfree slot ht] at hsp
        cases hsp
      rw [slotWord_untouched h0 h1 hout]
      exact hrep.spills slot spill hsp

/-- When a store of `v` through an offset interval keeps the stack right. -/
def StoreKept (γ : SpecValue → UInt64 → Prop) (stack : SpecStack) (lo hi off : Int) (size : MemSize)
    (v : SpecValue) (C' : Bytes) : Prop :=
  if lo = hi then
    if size = .dw then FullKept stack (lo + off) v C' else NarrowKept γ stack (lo + off) size v C'
  else VariableKept (lo + off) (hi + off + size.bytes) C'

theorem store_kept (hrep : Represents γ stack C) (hw : v.Contains γ w) (hlo : lo ≤ o) (hhi : o ≤ hi)
    (hs : stack.store pc lo hi off size v = .ok stack') :
    Represents γ stack' (C.write (o + off) (wordByte w) size.bytes) ↔
      StoreKept γ stack lo hi off size v (C.write (o + off) (wordByte w) size.bytes) := by
  unfold SpecStack.store at hs
  obtain ⟨u, hrange, hrun⟩ := bind_eq_ok.mp hs
  obtain ⟨hstart, hstop, h0, h1⟩ := access_exact (by omega) hrange
  rw [hstart, hstop] at hrun
  unfold StoreKept
  by_cases heq : lo = hi
  · obtain rfl : o = lo := by omega
    rw [if_pos heq] at hrun ⊢
    by_cases hsize : size = .dw
    · rw [if_pos hsize] at hrun ⊢
      cases hsize
      exact storeFull_kept hrep hw hrun
    · rw [if_neg hsize] at hrun ⊢
      exact storeNarrow_kept hrep hw hsize h0 hrun
  · rw [if_neg heq] at hrun ⊢
    exact storeVariable_kept hrep (by omega) (by omega) hrun

/-! ## Loads -/

theorem applySign_dw (x : UInt64) (signExtend : Bool) : SpecStack.applySign x .dw signExtend = x := by
  cases signExtend <;> rfl

/-- Written bytes compose to the word of the frame. -/
theorem compose_init (hrep : Represents γ stack C) (h0 : -specStackSize ≤ start) (h1 : start + size.bytes ≤ 0)
    (hinit : ¬ ∃ i, inSpan start (start + size.bytes) i ∧ stack.init i = false) :
    compose (fun i => stack.byteAt (specStackSize + start + i)) size.bytes = C.read start size.bytes := by
  apply compose_congr
  intro k hk
  have hidx := frameIndex_val (specStackSize + start + k)
  apply hrep.bytes
  by_contra hne
  refine hinit ⟨frameIndex (specStackSize + start + k), ?_, by simpa using hne⟩
  unfold inSpan
  unfold specStackSize at *
  omega

theorem loadKnown_contains {signExtend : Bool} (hrep : Represents γ stack C) (h0 : -specStackSize ≤ start)
    (h1 : start + size.bytes ≤ 0) (hs : SpecStack.loadKnown pc stack start size signExtend = .ok v) :
    v.Contains γ (SpecStack.applySign (C.read start size.bytes) size signExtend) := by
  have byBytes : (if ∃ i, inSpan start (start + size.bytes) i ∧ stack.init i = false then
        failure pc "stack read of uninitialized bytes"
      else .ok (.constScalar (SpecStack.applySign
        (compose (fun i => stack.byteAt (specStackSize + start + i)) size.bytes) size signExtend))) =
        (.ok v : Check SpecValue) → v.Contains γ (SpecStack.applySign (C.read start size.bytes) size signExtend) := by
    intro h
    unfold failure at h
    split at h
    · cases h
    · rename_i hinit
      cases h
      rw [compose_init hrep h0 h1 hinit]
      exact contains_const
  unfold SpecStack.loadKnown at hs
  dsimp only at hs
  split at hs
  · exact byBytes hs
  · rename_i spill hsp
    obtain ⟨slot, hslot, hspill⟩ := Option.bind_eq_some_iff.mp hsp
    split at hs
    · rename_i hsize
      cases hsize
      cases hs
      have hread : C.read start 8 = C.slotWord slot := by
        have hbase := slotOf_eq_some.mp hslot
        unfold Bytes.slotWord
        congr 1
        omega
      rw [applySign_dw]
      exact hread ▸ hrep.spills slot spill hspill
    · split at hs
      · cases hs
      · exact byBytes hs

theorem load_contains {signExtend : Bool} (hrep : Represents γ stack C) (hlo : lo ≤ o) (hhi : o ≤ hi)
    (hs : stack.load pc lo hi off size signExtend = .ok v) :
    v.Contains γ (SpecStack.applySign (C.read (o + off) size.bytes) size signExtend) := by
  unfold SpecStack.load at hs
  obtain ⟨u, hrange, hrun⟩ := bind_eq_ok.mp hs
  obtain ⟨hstart, hstop, h0, h1⟩ := access_exact (by omega) hrange
  rw [hstart, hstop] at hrun
  by_cases heq : lo = hi
  · obtain rfl : o = lo := by omega
    rw [if_pos heq] at hrun
    exact loadKnown_contains hrep h0 (by omega) hrun
  · rw [if_neg heq] at hrun
    unfold SpecStack.loadVariable failure at hrun
    split at hrun
    · cases hrun
    · split at hrun
      · cases hrun
      · cases hrun
        exact contains_unknown

/-- A context field, loaded by width. -/
theorem ctxLoad_contains {prog : ProgType} {total : Int} {signExtend : Bool} {x : UInt64}
    (hs : ctxLoad prog pc total size signExtend = .ok v) :
    v.Contains γ (SpecStack.applySign (compose (wordByte x) size.bytes) size signExtend) := by
  unfold ctxLoad failure at hs
  split at hs
  · cases hs
  · split at hs
    · cases hs
      cases signExtend with
      | true => exact contains_unknown
      | false =>
        refine ⟨UInt64.zero_le, ?_⟩
        have hlt := compose_lt (f := wordByte x) (n := size.bytes) (by cases size <;> decide)
        show compose (wordByte x) size.bytes ≤ widthMax size
        rw [UInt64.le_iff_toNat_le]
        cases size <;> (simp only [MemSize.bytes, widthMax] at hlt ⊢; exact Nat.le_of_lt_succ hlt)
    · cases hs
    · cases hs
    · cases hs

/-! ## Atomics and helpers -/

theorem atomicOld_contains (hrep : Represents γ stack C) (hlo : lo ≤ o) (hhi : o ≤ hi) :
    (stack.atomicOld lo hi (lo + off) size).Contains γ (C.read (o + off) size.bytes) := by
  unfold SpecStack.atomicOld
  split
  · rename_i hfull
    obtain ⟨rfl, rfl⟩ := hfull
    obtain rfl : o = lo := by omega
    split
    · rename_i spill hsp
      obtain ⟨slot, hslot, hspill⟩ := Option.bind_eq_some_iff.mp hsp
      have hread : C.read (o + off) 8 = C.slotWord slot := by
        have hbase := slotOf_eq_some.mp hslot
        unfold Bytes.slotWord
        congr 1
        omega
      exact hread ▸ hrep.spills slot spill hspill
    · exact contains_unknown
  · exact contains_unknown

/-- An atomic leaves the tracked bytes alone: they must be those it writes. -/
def AtomicKept (stack : SpecStack) (start stop : Int) (C' : Bytes) : Prop :=
  ∀ i, inSpan start stop i → stack.bytes i = C' i

theorem atomic_kept {n : Nat} {bs : Nat → UInt8} (hrep : Represents γ stack C) (h0 : start ≤ o)
    (h1 : o + n ≤ stop) :
    Represents γ (stack.atomicMark start stop) (C.write o bs n) ↔
      AtomicKept stack start stop (C.write o bs n) := by
  constructor
  · intro h i hi
    exact h.bytes i (by simp [SpecStack.atomicMark, hi])
  · intro hk
    refine ⟨?_, ?_⟩
    · intro i hi
      by_cases hin : inSpan start stop i
      · exact hk i hin
      · have hout : ¬ inSpan o (o + n) i := by
          unfold inSpan at *
          omega
        have hold : stack.init i = true := by simpa [SpecStack.atomicMark, hin] using hi
        rw [Bytes.write_outside hout]
        exact hrep.bytes i hold
    · intro slot spill hsp
      simp only [SpecStack.atomicMark] at hsp
      split at hsp
      · cases hsp
      · rename_i hout
        rw [slotWord_untouched h0 h1 hout]
        exact hrep.spills slot spill hsp

/-- A helper leaves the tracked bytes and the scalar spills alone: what it writes over them,
    and what it marks without writing, must be as tracked. -/
structure HelperKept (stack : SpecStack) (marked : Fin specStackSize → Prop) (o : Int) (n : Nat) (C' : Bytes) :
    Prop where
  bytes : ∀ i, marked i ∨ (stack.init i = true ∧ inSpan o (o + n) i) → stack.bytes i = C' i
  spills : ∀ slot lo hi, touchesSlot o (o + n) slot → stack.spill slot = some (.scalar lo hi) →
    lo ≤ C'.slotWord slot ∧ C'.slotWord slot ≤ hi

theorem forgetSpill_eq_some {spill : Option Spill} {x : Spill} (h : forgetSpill spill = some x) :
    x = .scalar 0 u64Max ∨ ∃ lo hi, spill = some (.scalar lo hi) ∧ x = .scalar lo hi := by
  match spill, h with
  | some (.ptr _), h =>
    cases h
    exact .inl rfl
  | some (.scalar lo hi), h =>
    cases h
    exact .inr ⟨lo, hi, rfl, rfl⟩

theorem helper_kept {n : Nat} {bs : Nat → UInt8} {marked : Fin specStackSize → Prop}
    (hrep : Represents γ stack C) (hspill : ∀ slot, stack'.spill slot = forgetSpill (stack.spill slot))
    (hinit : ∀ i, stack'.init i = true ↔ marked i ∨ stack.init i = true) (hbytes : stack'.bytes = stack.bytes) :
    Represents γ stack' (C.write o bs n) ↔ HelperKept stack marked o n (C.write o bs n) := by
  constructor
  · intro h
    refine ⟨?_, ?_⟩
    · intro i hi
      rw [← hbytes]
      refine h.bytes i ((hinit i).mpr ?_)
      rcases hi with hm | ⟨hold, -⟩
      · exact .inl hm
      · exact .inr hold
    · intro slot lo hi _ hsp
      have hnew : stack'.spill slot = some (.scalar lo hi) := by
        rw [hspill, hsp]
        rfl
      exact h.spills slot _ hnew
  · intro hk
    refine ⟨?_, ?_⟩
    · intro i hi
      rw [hbytes]
      by_cases hin : inSpan o (o + n) i
      · refine hk.bytes i ?_
        rcases (hinit i).mp hi with hm | hold
        · exact .inl hm
        · exact .inr ⟨hold, hin⟩
      · rcases (hinit i).mp hi with hm | hold
        · exact hk.bytes i (.inl hm)
        · rw [Bytes.write_outside hin]
          exact hrep.bytes i hold
    · intro slot spill hsp
      rw [hspill] at hsp
      rcases forgetSpill_eq_some hsp with rfl | ⟨lo, hi, hold, rfl⟩
      · exact contains_unknown
      · by_cases htouch : touchesSlot o (o + n) slot
        · exact hk.spills slot lo hi htouch hold
        · rw [slotWord_untouched (le_refl o) (le_refl _) htouch]
          exact hrep.spills slot _ hold

end Represents

/-! ## The memory instructions -/

/-- Bytes written to a frame, at an offset from its end. -/
structure FrameWrite where
  off : Int
  bytes : Nat → UInt8
  len : Nat

def FrameWrite.nothing : FrameWrite := ⟨0, fun _ => 0, 0⟩

def Bytes.apply (C : Bytes) (wr : FrameWrite) : Bytes := C.write wr.off wr.bytes wr.len

theorem apply_nothing (C : Bytes) : C.apply .nothing = C := by
  funext i
  apply Bytes.write_outside
  unfold inSpan FrameWrite.nothing
  dsimp only
  omega

/-- The word an atomic leaves in memory. -/
def atomicWord (op : AtomicOp) (size : MemSize) (old src r0 : UInt64) : UInt64 :=
  match op with
  | .add => old + src
  | .or => old ||| src
  | .and => old &&& src
  | .xor => old ^^^ src
  | .xchg => src
  | .cmpxchg => if compose (wordByte r0) size.bytes = old then src else old

/-- The register that receives the word an atomic found. -/
def fetched (op : AtomicOp) (fetch : Bool) (src : Reg) (old : UInt64) : Option (Reg × UInt64) :=
  if op = .cmpxchg then some (0, old) else if fetch then some (src, old) else none

/-- What a memory instruction does in a machine with registers `R` and frame `C`: the bytes
    it writes to the frame, and the register that receives a loaded word. A stack pointer
    is anywhere in its interval; `dynptr_read` writes its whole buffer, or fails and
    writes nothing. -/
inductive Access (s : SpecState) (R : Reg → UInt64) (C : Bytes) :
    BpfInsn → FrameWrite → Option (Reg × UInt64) → Prop
  | store {src base : Reg} {off : Int16} {size : MemSize} {lo hi o : Int} :
      s.reg base = .ptrToStack lo hi → lo ≤ o → o ≤ hi →
      Access s R C (.stMem src base off size) ⟨o + off.toInt, wordByte (R src), size.bytes⟩ none
  | storeImm {imm : Int32} {base : Reg} {off : Int16} {size : MemSize} {lo hi o : Int} :
      s.reg base = .ptrToStack lo hi → lo ≤ o → o ≤ hi →
      Access s R C (.stMemImm imm base off size) ⟨o + off.toInt, wordByte (immWord imm), size.bytes⟩ none
  | storeAway {src base : Reg} {off : Int16} {size : MemSize} : ¬ IsStackPtr (s.reg base) →
      Access s R C (.stMem src base off size) .nothing none
  | storeImmAway {imm : Int32} {base : Reg} {off : Int16} {size : MemSize} : ¬ IsStackPtr (s.reg base) →
      Access s R C (.stMemImm imm base off size) .nothing none
  | load {dst base : Reg} {off : Int16} {size : MemSize} {signExtend : Bool} {lo hi o : Int} :
      s.reg base = .ptrToStack lo hi → lo ≤ o → o ≤ hi →
      Access s R C (.ldMem dst base off size signExtend) .nothing
        (some (dst, SpecStack.applySign (C.read (o + off.toInt) size.bytes) size signExtend))
  | loadAway {dst base : Reg} {off : Int16} {size : MemSize} {signExtend : Bool} {x : UInt64} :
      ¬ IsStackPtr (s.reg base) → Access s R C (.ldMem dst base off size signExtend) .nothing
        (some (dst, SpecStack.applySign (compose (wordByte x) size.bytes) size signExtend))
  | atomic {dst src : Reg} {off : Int16} {size : MemSize} {op : AtomicOp} {fetch : Bool} {lo hi o : Int} :
      s.reg dst = .ptrToStack lo hi → lo ≤ o → o ≤ hi →
      Access s R C (.atomic dst src off size op fetch)
        ⟨o + off.toInt, wordByte (atomicWord op size (C.read (o + off.toInt) size.bytes) (R src) (R 0)),
          size.bytes⟩
        (fetched op fetch src (C.read (o + off.toInt) size.bytes))
  | atomicAway {dst src : Reg} {off : Int16} {size : MemSize} {op : AtomicOp} {fetch : Bool} {x : UInt64} :
      ¬ IsStackPtr (s.reg dst) → Access s R C (.atomic dst src off size op fetch) .nothing
        (fetched op fetch src (compose (wordByte x) size.bytes))
  | dynptrFromMem {lo hi o : Int} {bs : Nat → UInt8} : s.reg 4 = .ptrToStack lo hi → lo ≤ o → o ≤ hi →
      Access s R C (.call 197) ⟨o, bs, 16⟩ none
  | dynptrRead {lo hi o : Int} {bs : Nat → UInt8} {n : Nat} : s.reg 1 = .ptrToStack lo hi → lo ≤ o → o ≤ hi →
      n = (R 2).toNat ∨ n = 0 → Access s R C (.call 201) ⟨o, bs, n⟩ none
  | otherCall {imm : Int32} : imm ≠ 197 → imm ≠ 201 → Access s R C (.call imm) .nothing none

/-- When a store through a register keeps the stack right. -/
def BaseKept (γ : SpecValue → UInt64 → Prop) (s : SpecState) (base : Reg) (off : Int) (size : MemSize)
    (v : SpecValue) (C' : Bytes) : Prop :=
  match s.reg base with
  | .ptrToStack lo hi => StoreKept γ s.cur.stack lo hi off size v C'
  | _ => True

/-- When a memory instruction keeps the stack right. -/
def Kept (γ : SpecValue → UInt64 → Prop) (s : SpecState) (C : Bytes) (wr : FrameWrite) : BpfInsn → Prop
  | .stMem src base off size => BaseKept γ s base off.toInt size (s.reg src) (C.apply wr)
  | .stMemImm imm base off size => BaseKept γ s base off.toInt size (.constScalar (immWord imm)) (C.apply wr)
  | .atomic dst _ off size _ _ =>
    match s.reg dst with
    | .ptrToStack lo hi => AtomicKept s.cur.stack (lo + off.toInt) (hi + off.toInt + size.bytes) (C.apply wr)
    | _ => True
  | .call imm => HelperKept s.cur.stack (markedBy s imm) wr.off wr.len (C.apply wr)
  | _ => True

section Kept

variable {γ : SpecValue → UInt64 → Prop} {env : Env} {c c' pc : Nat} {s : SpecState} {nodes : List Node}
variable {R : Reg → UInt64} {C : Bytes} {base : Reg} {off o lo hi : Int} {size : MemSize} {v : SpecValue} {w : UInt64}

theorem storeInsn_kept (hrep : Represents γ s.cur.stack C) (hw : v.Contains γ w)
    (hbase : s.reg base = .ptrToStack lo hi) (hlo : lo ≤ o) (hhi : o ≤ hi)
    (h : goTo (pc + 1) (store s pc base off size v) = .ok nodes) :
    (∀ node ∈ nodes, Represents γ node.2.cur.stack (C.write (o + off) (wordByte w) size.bytes)) ↔
      BaseKept γ s base off size v (C.write (o + off) (wordByte w) size.bytes) := by
  obtain ⟨s', hs, rfl⟩ := goTo_ok h
  rw [List.forall_mem_singleton]
  unfold BaseKept
  rcases store_ok hs with ⟨lo', hi', stack, hreg, hst, rfl⟩ | ⟨⟨lo', hi', b, hreg⟩, -⟩ | ⟨⟨lo', hi', b, id, hreg⟩, -⟩
  · rw [hbase] at hreg
    obtain ⟨rfl, rfl⟩ := SpecValue.ptrToStack.inj hreg
    rw [hbase]
    exact store_kept hrep hw hlo hhi hst
  · rw [hbase] at hreg
    cases hreg
  · rw [hbase] at hreg
    cases hreg

theorem storeInsn_away (hrep : Represents γ s.cur.stack C) (hbase : ¬ IsStackPtr (s.reg base))
    (h : goTo (pc + 1) (store s pc base off size v) = .ok nodes) :
    (∀ node ∈ nodes, Represents γ node.2.cur.stack C) ∧ BaseKept γ s base off size v C := by
  obtain ⟨s', hs, rfl⟩ := goTo_ok h
  constructor
  · rw [List.forall_mem_singleton]
    rcases store_ok hs with ⟨lo', hi', stack, hreg, -, -⟩ | ⟨-, rfl⟩ | ⟨-, rfl⟩
    · exact absurd ⟨lo', hi', hreg⟩ hbase
    · exact hrep
    · exact hrep
  · unfold BaseKept
    split
    · rename_i lo' hi' hreg
      exact absurd ⟨lo', hi', hreg⟩ hbase
    · trivial

theorem atomicResult_fetched {op : AtomicOp} {fetch : Bool} {src r : Reg} {old : SpecValue} {x y : UInt64}
    (hold : old.Contains γ x) (h : fetched op fetch src x = some (r, y)) :
    ((atomicResult s src op fetch old).reg r).Contains γ y := by
  unfold fetched at h
  unfold atomicResult
  split at h
  · rename_i hop
    obtain ⟨rfl, rfl⟩ := Prod.mk.inj (Option.some.inj h)
    rw [if_pos hop, setReg_reg]
    exact hold
  · rename_i hop
    split at h
    · rename_i hfetch
      obtain ⟨rfl, rfl⟩ := Prod.mk.inj (Option.some.inj h)
      rw [if_neg hop, if_pos hfetch, setReg_reg]
      exact hold
    · cases h

/-- A helper call on the stack: what it marked, and its spills forgotten. -/
theorem helperCall_stack {imm : Int32} {s' : SpecState} (h : helperCall s pc c imm = .ok (s', c')) :
    (∀ slot, s'.cur.stack.spill slot = forgetSpill (s.cur.stack.spill slot)) ∧
      (∀ i, s'.cur.stack.init i = true ↔ markedBy s imm i ∨ s.cur.stack.init i = true) ∧
      s'.cur.stack.bytes = s.cur.stack.bytes := by
  obtain ⟨proto, s₁, s₂, s₃, -, -, hbuf, hrel, hres, rfl⟩ := helperCall_ok h
  obtain ⟨-, -, -, -, -, hspill, hbytes, hinit⟩ := writeBuffers_ok hbuf
  obtain ⟨hcur, -⟩ := releaseArg_cur hrel
  obtain ⟨v, hcur', -⟩ := setResult_cur hres
  have hstack : s₃.cur.stack = s₁.cur.stack := by
    rw [hcur', ← hcur]
    rfl
  have hforget : s₃.clobberArgs.forgetSpills.cur.stack =
      { s₁.cur.stack with spill := fun slot => forgetSpill (s.cur.stack.spill slot) } := by
    simp only [SpecState.forgetSpills, SpecState.setStack, SpecState.clobberArgs, hstack, hspill]
  rw [hforget]
  exact ⟨fun _ => rfl, hinit, hbytes⟩

theorem helperInsn_kept {imm : Int32} {n : Nat} {bs : Nat → UInt8} (hrep : Represents γ s.cur.stack C)
    (h : step env c pc s (.call imm) = .ok (nodes, c')) :
    (∀ node ∈ nodes, Represents γ node.2.cur.stack (C.write o bs n)) ↔
      HelperKept s.cur.stack (markedBy s imm) o n (C.write o bs n) := by
  obtain ⟨⟨s', c''⟩, hs, hn⟩ := exceptMap_ok h
  obtain ⟨rfl, rfl⟩ := Prod.mk.inj hn
  rw [List.forall_mem_singleton]
  obtain ⟨hspill, hinit, hbytes⟩ := helperCall_stack hs
  exact helper_kept hrep hspill hinit hbytes

/-- In every state that represents a machine, for every memory instruction that is accepted
    and everything it may do there: the next state represents the written frame, and the
    loaded register contains the loaded word, exactly when `Kept` holds. -/
theorem stack_values_kept {insn : BpfInsn} {wr : FrameWrite} {loaded : Option (Reg × UInt64)}
    (hrep : Represents γ s.cur.stack C) (hregs : ∀ r, (s.reg r).Contains γ (R r))
    (hacc : Access s R C insn wr loaded) (hstep : step env c pc s insn = .ok (nodes, c')) :
    (∀ node ∈ nodes, Represents γ node.2.cur.stack (C.apply wr) ∧
      ∀ r w, loaded = some (r, w) → (node.2.reg r).Contains γ w) ↔ Kept γ s C wr insn := by
  cases hacc with
  | store hbase hlo hhi =>
    obtain ⟨ns, hns, hn⟩ := exceptMap_ok hstep
    obtain ⟨rfl, rfl⟩ := Prod.mk.inj hn
    simp only [reduceCtorEq, false_implies, implies_true, and_true]
    exact storeInsn_kept hrep (hregs _) hbase hlo hhi hns
  | storeImm hbase hlo hhi =>
    obtain ⟨ns, hns, hn⟩ := exceptMap_ok hstep
    obtain ⟨rfl, rfl⟩ := Prod.mk.inj hn
    simp only [reduceCtorEq, false_implies, implies_true, and_true]
    exact storeInsn_kept hrep contains_const hbase hlo hhi hns
  | storeAway hbase =>
    obtain ⟨ns, hns, hn⟩ := exceptMap_ok hstep
    obtain ⟨rfl, rfl⟩ := Prod.mk.inj hn
    simp only [reduceCtorEq, false_implies, implies_true, and_true]
    obtain ⟨hrep', hkept⟩ := storeInsn_away hrep hbase hns
    simp only [Kept, apply_nothing]
    exact iff_of_true hrep' hkept
  | storeImmAway hbase =>
    obtain ⟨ns, hns, hn⟩ := exceptMap_ok hstep
    obtain ⟨rfl, rfl⟩ := Prod.mk.inj hn
    simp only [reduceCtorEq, false_implies, implies_true, and_true]
    obtain ⟨hrep', hkept⟩ := storeInsn_away hrep hbase hns
    simp only [Kept, apply_nothing]
    exact iff_of_true hrep' hkept
  | load hbase hlo hhi =>
    refine iff_of_true ?_ trivial
    obtain ⟨ns, hns, hn⟩ := exceptMap_ok hstep
    obtain ⟨rfl, rfl⟩ := Prod.mk.inj hn
    obtain ⟨s', hs, rfl⟩ := goTo_ok hns
    obtain ⟨v, hv, rfl⟩ := exceptMap_ok hs
    rw [List.forall_mem_singleton, apply_nothing]
    refine ⟨hrep, ?_⟩
    rintro r w hl
    obtain ⟨rfl, rfl⟩ := Prod.mk.inj (Option.some.inj hl)
    rw [setReg_reg]
    rcases load_ok hv with ⟨lo', hi', hreg, hst⟩ | ⟨_, hreg, -⟩ | ⟨⟨_, _, _, hreg⟩, -⟩ | ⟨⟨_, _, _, _, hreg⟩, -⟩
    · rw [hbase] at hreg
      obtain ⟨rfl, rfl⟩ := SpecValue.ptrToStack.inj hreg
      exact load_contains hrep hlo hhi hst
    all_goals
      rw [hbase] at hreg
      cases hreg
  | loadAway hbase =>
    refine iff_of_true ?_ trivial
    obtain ⟨ns, hns, hn⟩ := exceptMap_ok hstep
    obtain ⟨rfl, rfl⟩ := Prod.mk.inj hn
    obtain ⟨s', hs, rfl⟩ := goTo_ok hns
    obtain ⟨v, hv, rfl⟩ := exceptMap_ok hs
    rw [List.forall_mem_singleton, apply_nothing]
    refine ⟨hrep, ?_⟩
    rintro r w hl
    obtain ⟨rfl, rfl⟩ := Prod.mk.inj (Option.some.inj hl)
    rw [setReg_reg]
    rcases load_ok hv with ⟨lo', hi', hreg, -⟩ | ⟨_, -, hctx⟩ | ⟨-, rfl⟩ | ⟨-, rfl⟩
    · exact absurd ⟨lo', hi', hreg⟩ hbase
    · exact ctxLoad_contains hctx
    · exact contains_unknown
    · exact contains_unknown
  | atomic hbase hlo hhi =>
    rename_i dst src off' size' op fetch lo' hi' o'
    obtain ⟨ns, hns, hn⟩ := exceptMap_ok hstep
    obtain ⟨rfl, rfl⟩ := Prod.mk.inj hn
    obtain ⟨s', hs, rfl⟩ := goTo_ok hns
    rw [List.forall_mem_singleton]
    obtain ⟨-, hcase⟩ := atomic_ok hs
    rcases hcase with ⟨lo'', hi'', hreg, hrange, rfl⟩ | ⟨⟨_, _, _, hreg⟩, -⟩
    · rw [hbase] at hreg
      obtain ⟨rfl, rfl⟩ := SpecValue.ptrToStack.inj hreg
      obtain ⟨hstart, hstop, -, -⟩ := access_exact (by omega) hrange
      simp only [Kept, hbase, hstart, hstop, atomicResult_stack]
      have hstart' : lo' + off'.toInt ≤ o' + off'.toInt := by omega
      have hstop' : o' + off'.toInt + size'.bytes ≤ hi' + off'.toInt + size'.bytes := by omega
      refine Iff.trans (and_iff_left ?_) (atomic_kept hrep hstart' hstop')
      intro r w hl
      exact atomicResult_fetched (atomicOld_contains hrep hlo hhi) hl
    · rw [hbase] at hreg
      cases hreg
  | atomicAway hbase =>
    obtain ⟨ns, hns, hn⟩ := exceptMap_ok hstep
    obtain ⟨rfl, rfl⟩ := Prod.mk.inj hn
    obtain ⟨s', hs, rfl⟩ := goTo_ok hns
    rw [List.forall_mem_singleton, apply_nothing]
    obtain ⟨-, hcase⟩ := atomic_ok hs
    rcases hcase with ⟨lo', hi', hreg, -, -⟩ | ⟨⟨lo', hi', b, hreg⟩, rfl⟩
    · exact absurd ⟨lo', hi', hreg⟩ hbase
    · simp only [Kept, hreg, iff_true]
      refine ⟨?_, ?_⟩
      · rw [atomicResult_stack]
        exact hrep
      · intro r w hl
        exact atomicResult_fetched contains_unknown hl
  | dynptrFromMem _ _ _ =>
    simp only [reduceCtorEq, false_implies, implies_true, and_true]
    exact helperInsn_kept hrep hstep
  | dynptrRead _ _ _ _ =>
    simp only [reduceCtorEq, false_implies, implies_true, and_true]
    exact helperInsn_kept hrep hstep
  | otherCall _ _ =>
    simp only [reduceCtorEq, false_implies, implies_true, and_true]
    exact helperInsn_kept hrep hstep

end Kept

/-! ## Two stores -/

/-- No assumption on what the pointers mean. -/
def anyPointer : SpecValue → UInt64 → Prop := fun _ _ => True

def blankEnv : Env := ⟨[], fun _ => none, .socketFilter⟩

/-- The initial state with an unknown scalar in R3. -/
def unknownR3 : SpecState := SpecState.initial.setReg 3 .unknownScalar

/-- Nothing is tracked of an empty stack. -/
theorem represents_empty (C : Bytes) : Represents anyPointer unknownR3.cur.stack C := ⟨nofun, nofun⟩

theorem contains_unknownR3 (r : Reg) : (unknownR3.reg r).Contains anyPointer 5 := by
  by_cases h3 : r = 3
  · subst h3
    exact contains_unknown
  · have hreg : unknownR3.reg r = SpecFrame.main.regs r := Function.update_of_ne h3 ..
    rw [hreg]
    unfold SpecFrame.main
    dsimp only
    split
    · trivial
    · split <;> trivial

/-- The store of a constant keeps the stack right. -/
theorem stack_values_kept_const :
    ∃ node, step blankEnv 0 0 unknownR3 (.stMemImm 5 10 (-8) .dw) = .ok ([node], 0) ∧
      Represents anyPointer node.2.cur.stack (Bytes.write (fun _ => 0) (-8) (wordByte (immWord 5)) 8) := by
  refine ⟨_, rfl, ?_⟩
  have hacc : Access unknownR3 (fun _ => 5) (fun _ => 0) (.stMemImm 5 10 (-8) .dw)
      ⟨-8, wordByte (immWord 5), 8⟩ none :=
    Access.storeImm (s := unknownR3) (o := 0) rfl (le_refl 0) (le_refl 0)
  have hkept : Kept anyPointer unknownR3 (fun _ => 0) ⟨-8, wordByte (immWord 5), 8⟩
      (.stMemImm 5 10 (-8) .dw) := by
    intro hc
    exact absurd hc (by decide)
  have hall := (stack_values_kept (represents_empty _) contains_unknownR3 hacc
    (show step blankEnv 0 0 unknownR3 (.stMemImm 5 10 (-8) .dw) = .ok _ from rfl)).mpr hkept
  exact (hall _ (List.mem_singleton.mpr rfl)).1

/-- The store of an unknown scalar leaves the stale bytes of its slot: a byte load returns
    a constant that was never stored. -/
theorem stale_spill_byte :
    Represents anyPointer unknownR3.cur.stack (fun _ => 0) ∧
      (∀ r, (unknownR3.reg r).Contains anyPointer 5) ∧
      Access unknownR3 (fun _ => 5) (fun _ => 0) (.stMem 3 10 (-8) .dw) ⟨-8, wordByte 5, 8⟩ none ∧
      ∃ node, step blankEnv 0 0 unknownR3 (.stMem 3 10 (-8) .dw) = .ok ([node], 0) ∧
        ¬ Represents anyPointer node.2.cur.stack (Bytes.write (fun _ => 0) (-8) (wordByte 5) 8) ∧
        (load .socketFilter node.2 1 10 (-8) .b false).toOption = some (.constScalar 0) := by
  refine ⟨represents_empty _, contains_unknownR3, Access.store (s := unknownR3) (o := 0) rfl (le_refl 0) (le_refl 0), ?_⟩
  refine ⟨_, rfl, ?_, by decide +kernel⟩
  intro h
  have hb := h.bytes 504 (by decide)
  revert hb
  decide

end RandVerifier.Spec
