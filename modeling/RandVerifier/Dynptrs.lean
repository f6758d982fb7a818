/-
  RandVerifier.Dynptrs — what outlives a dynptr that is overwritten.

  A dynptr lives in two stack slots, its metadata at the lower address; the slices it yields carry
  its id. The actors are the instructions that write to the stack: a store, an atomic, the
  destination of `dynptr_read` and `dynptr_from_mem` on the same slots. A store kills the dynptrs it
  covers, and with the last of them its slices in the current registers and in the written frame;
  the helpers kill no slice, and write to the current frame whatever frame their argument names; an
  atomic on a dynptr is rejected.

  Proved:
  - `dynptrSlotOf_live`, `live_accepted`: the dynptr helpers take exactly the live dynptrs;
  - `fullSpill_spill`, `fullSpill_scrub`: the full spills after a store;
  - `store_survivors`, `call_survivors`: what is held after a store or a call, from the state before;
  - `dynptr_destroyed`: an overwritten dynptr is destroyed with its slices exactly if no slice is
    among the survivors and the write is to its own frame; `half_destroyed` overwrites the slot
    without the metadata.
-/

import RandVerifier.BufferBounds
import RandVerifier.FrameAccess
import RandVerifier.StackSound

namespace RandVerifier

/-! ## Dynptrs -/

/-- An initialised dynptr: both slots of an aligned pair, and its metadata. -/
structure LiveDynptr (s : StackState) (slot id : Nat) : Prop where
  odd : slot % 2 = 1
  high : s.slotAll (slot - 1) .dynptr = true
  low : s.slotAll slot .dynptr = true
  anchored : ∃ size, s.dynptr slot = some ⟨size, id⟩

/-- A byte of the dynptr. -/
def DynptrByte (slot i : Nat) : Prop := i / 8 = slot - 1 ∨ i / 8 = slot

theorem LiveDynptr.byte {s : StackState} {slot id i : Nat} (h : LiveDynptr s slot id) (hi : DynptrByte slot i) :
    s.bytes i = .dynptr := by
  rcases hi with hi | hi
  · exact StackState.slotAll_iff.mp h.high i hi
  · exact StackState.slotAll_iff.mp h.low i hi

section Accepted

variable {pc : Nat} {st : VerifierState} {reg : Reg} {argno : Nat}

/-- What a dynptr helper accepts is live. -/
theorem dynptrSlotOf_live {slot : Nat} {ds : DynptrState} (h : dynptrSlotOf pc st reg argno = .ok (slot, ds)) :
    LiveDynptr st.stack slot ds.id := by
  unfold dynptrSlotOf at h
  dsimp only at h
  split at h
  · simp only [bind_eq_ok, failIf_eq_ok, not_or, not_not, not_lt] at h
    obtain ⟨_, ⟨heq, -, hmod⟩, _, ⟨hmin, hmax⟩, _, hbytes, h⟩ := h
    split at h
    · rename_i ds' hds
      cases h
      exact ⟨by omega, hbytes.1, hbytes.2, ds.size, hds⟩
    · exact (fail_ne_ok.mp h).elim
  · exact (fail_ne_ok.mp h).elim

/-- A live dynptr of the current frame is accepted through a pointer to it. -/
theorem live_accepted {slot id f : Nat} (h : LiveDynptr st.stack slot id) (hslot : slot < 64)
    (hr : st.regs reg = .ptrToStack (-8 * (slot + 1)) (-8 * (slot + 1)) 0 f) :
    ∃ size, dynptrSlotOf pc st reg argno = .ok (slot, ⟨size, id⟩) := by
  obtain ⟨size, hds⟩ := h.anchored
  have hodd := h.odd
  have hspi : (8 * ((slot : Int) + 1) - 1).toNat / 8 = slot := by omega
  refine ⟨size, ?_⟩
  unfold dynptrSlotOf
  rw [hr]
  dsimp only
  have hneg : -(-8 * ((slot : Int) + 1)) - 1 = 8 * ((slot : Int) + 1) - 1 := by omega
  rw [hneg, hspi]
  simp only [failIf, h.high, h.low, hds, and_self, not_true_eq_false, if_false]
  rw [if_neg (by omega), if_neg (by omega)]
  rfl

end Accepted

/-! ## Full spills -/

/-- A slot that spills a register in full. -/
def StackState.FullSpill (s : StackState) (slot : Nat) (v : RegState) : Prop :=
  s.slotAll slot .spill = true ∧ s.spilled slot = some v

/-- The rewrite of a held value by a write that destroys a dynptr. -/
def killed (destroyed : Option Nat) (v : RegState) : RegState :=
  match destroyed with
  | none => v
  | some did => killMemAlias did v

theorem destroySlices_eq (st : VerifierState) (s : StackState) (d : Option Nat) :
    destroySlices st s d = ({ st with regs := fun r => killed d (st.regs r) }, s.mapFullSpills (killed d)) := by
  cases d with
  | some did => rfl
  | none =>
    have hmap : s.mapFullSpills (killed none) = s := by
      unfold StackState.mapFullSpills StackState.mapSpilled killed
      simp only [ite_self, Option.map_id_fun', id]
    rw [hmap]
    rfl

section Spills

variable {s : StackState} {first last slot : Nat} {v : RegState}

theorem fullSpill_map {g : RegState → RegState} :
    (s.mapFullSpills g).FullSpill slot v ↔ ∃ w, s.FullSpill slot w ∧ g w = v := by
  unfold StackState.FullSpill
  have hall : (s.mapFullSpills g).slotAll slot .spill = s.slotAll slot .spill := rfl
  rw [hall]
  constructor
  · rintro ⟨hs, hv⟩
    simp only [StackState.mapFullSpills, StackState.mapSpilled, hs, if_true, Option.map_eq_some_iff] at hv
    obtain ⟨w, hw, hg⟩ := hv
    exact ⟨w, ⟨hs, hw⟩, hg⟩
  · rintro ⟨w, ⟨hs, hw⟩, hg⟩
    refine ⟨hs, ?_⟩
    simp only [StackState.mapFullSpills, StackState.mapSpilled, hs, if_true, hw, Option.map_some, hg]

/-- The slots of dynptrs are no spills. -/
theorem fullSpill_destroy : (destroyDynptrs s first last).FullSpill slot v ↔ s.FullSpill slot v := by
  have hspilled : (destroyDynptrs s first last).spilled = s.spilled := rfl
  unfold StackState.FullSpill
  rw [hspilled, StackState.slotAll_iff, StackState.slotAll_iff]
  refine and_congr_left fun _ => ⟨fun h i hi => ?_, fun h i hi => ?_⟩
  · have hb := h i hi
    simp only [destroyDynptrs] at hb
    split at hb
    · cases hb
    · exact hb
  · have hfirst := h (slot * 8) (by omega)
    have hc : coversDynptr s first last slot = false := by
      simp [coversDynptr, hfirst]
    simp only [destroyDynptrs, hi, hc, Bool.false_eq_true, if_false]
    exact h i hi

/-- An aligned store: the slot spills the stored value if it is covered whole. -/
theorem fullSpill_spill {w : RegState} (hfirst : first ≤ last) (hlast : last % 8 = 7)
    (hslot : first / 8 = last / 8) :
    (s.spill first last w).FullSpill slot v ↔
      (slot = last / 8 ∧ first % 8 = 0 ∧ v = w) ∨ (slot ≠ last / 8 ∧ s.FullSpill slot v) := by
  unfold StackState.FullSpill
  rw [StackState.slotAll_iff, StackState.slotAll_iff]
  by_cases hs : slot = last / 8
  · subst hs
    simp only [StackState.spill, Function.update_self, Option.some.injEq, ne_eq, not_true_eq_false, false_and,
      or_false, true_and]
    constructor
    · rintro ⟨hall, rfl⟩
      refine ⟨?_, rfl⟩
      have hlow := hall (last / 8 * 8) (by omega)
      split at hlow
      · omega
      · split at hlow
        · cases hlow
        · omega
    · rintro ⟨hmod, rfl⟩
      refine ⟨fun i hi => ?_, rfl⟩
      rw [if_pos (by omega)]
  · simp only [hs, false_and, ne_eq, not_false_eq_true, true_and, false_or]
    simp only [StackState.spill, Function.update_of_ne hs]
    refine and_congr_left fun _ => forall_congr' fun i => imp_congr_right fun hi => ?_
    rw [if_neg (by omega), if_neg (by omega)]

/-- Any other store: the covered slots spill nothing. -/
theorem fullSpill_scrub {b : StackByte} :
    (s.scrub first last b).FullSpill slot v ↔
      ¬ (first / 8 ≤ slot ∧ slot ≤ last / 8) ∧ s.FullSpill slot v := by
  unfold StackState.FullSpill
  rw [StackState.slotAll_iff, StackState.slotAll_iff]
  simp only [StackState.scrub]
  by_cases hc : first / 8 ≤ slot ∧ slot ≤ last / 8
  · rw [if_pos hc]
    simp only [hc, reduceCtorEq, and_false, and_self, not_true_eq_false, false_and]
  · rw [if_neg hc]
    simp only [hc, not_false_eq_true, true_and]
    refine and_congr_left fun _ => forall_congr' fun i => imp_congr_right fun hi => ?_
    rw [if_neg (by omega), hi, if_neg (fun h => hc h.1)]

/-- The bytes `filled` become `b`; the spilled registers are kept. -/
structure Fills (s s' : StackState) (filled : Nat → Prop) (b : StackByte) : Prop where
  inside : ∀ i, filled i → s'.bytes i = b
  outside : ∀ i, ¬ filled i → s'.bytes i = s.bytes i
  spilled : s'.spilled = s.spilled

/-- Filled bytes are not part of a full spill. -/
theorem fullSpill_fill {s' : StackState} {filled : Nat → Prop} {b : StackByte} (h : Fills s s' filled b)
    (hb : b ≠ .spill) :
    s'.FullSpill slot v ↔ (∀ i, i / 8 = slot → ¬ filled i) ∧ s.FullSpill slot v := by
  unfold StackState.FullSpill
  rw [h.spilled, StackState.slotAll_iff, StackState.slotAll_iff, ← and_assoc]
  refine and_congr_left fun _ => ⟨fun hall => ⟨fun i hi hin => ?_, fun i hi => ?_⟩, fun hall i hi => ?_⟩
  · have hbi := hall i hi
    rw [h.inside i hin] at hbi
    exact hb hbi
  · by_cases hin : filled i
    · have hbi := hall i hi
      rw [h.inside i hin] at hbi
      exact absurd hbi hb
    · rw [← h.outside i hin]
      exact hall i hi
  · rw [h.outside i (hall.1 i hi)]
    exact hall.2 i hi

end Spills

/-! ## Stores -/

/-- What is left of the values a state holds, after a store to the offsets `lo..hi` of frame `f`
    that destroys a dynptr. -/
inductive StoreSurvivor (st : VerifierState) (f : Nat) (lo hi : Int) (n : Nat) (src : StoreSrc)
    (destroyed : Option Nat) : RegState → Prop
  | reg (r : Reg) : StoreSurvivor st f lo hi n src destroyed (killed destroyed (st.regs r))
  | callerReg {k : Nat} {fr : FrameState} (r : Reg) : st.saved k = some fr →
      StoreSurvivor st f lo hi n src destroyed (fr.regs r)
  | otherSpill {k slot : Nat} {fr : FrameState} {v : RegState} : k ≠ f → st.frame k = some fr →
      fr.stack.FullSpill slot v → StoreSurvivor st f lo hi n src destroyed v
  | ownSpill {slot : Nat} {fr : FrameState} {v : RegState} : st.frame f = some fr → fr.stack.FullSpill slot v →
      ¬ ((stackByteRange lo (hi + n)).1 / 8 ≤ slot ∧ slot ≤ (stackByteRange lo (hi + n)).2 / 8) →
      StoreSurvivor st f lo hi n src destroyed (killed destroyed v)
  /-- The value stored by an aligned store: it is read before the slices die. -/
  | stored {r : Reg} : lo = hi → lo % 8 = 0 → src = .reg r → StoreSurvivor st f lo hi n src destroyed (st.regs r)

section Stores

variable {pc : Nat} {st st' : VerifierState} {base : Reg} {offset : Int16} {n : Nat} {src : StoreSrc}
  {minOffset maxOffset : Int} {f : Nat}

/-- An accepted store on the stack of a frame: the slices of the destroyed dynptr are killed, then
    the value is spilled, or the bytes scrubbed. -/
theorem frameStackWrite_eq (h : frameStackWrite pc base st offset n src minOffset maxOffset f = .ok st') :
    ∃ stack v s', frameStack st f = .ok stack ∧ storeValue pc st src = .ok v ∧
      st' = setFrameStack { st with regs := fun r => killed (destroyedDynptr stack
        (stackByteRange (minOffset + offset.toInt) (maxOffset + offset.toInt + n)).1
        (stackByteRange (minOffset + offset.toInt) (maxOffset + offset.toInt + n)).2) (st.regs r) } f s' ∧
      let first := (stackByteRange (minOffset + offset.toInt) (maxOffset + offset.toInt + n)).1
      let last := (stackByteRange (minOffset + offset.toInt) (maxOffset + offset.toInt + n)).2
      let killedStack := (destroyDynptrs stack first last).mapFullSpills (killed (destroyedDynptr stack first last))
      ((minOffset = maxOffset ∧ (minOffset + offset.toInt) % 8 = 0) ∧ (v.isScalar = true ∨ n = 8) ∧
        s' = killedStack.spill first last v) ∨
      (¬ (minOffset = maxOffset ∧ (minOffset + offset.toInt) % 8 = 0) ∧
        ∃ b, b ≠ .dynptr ∧ s' = killedStack.scrub first last b) := by
  simp only [frameStackWrite, bind_eq_ok] at h
  obtain ⟨stack, hstack, h⟩ := h
  split at h
  · cases h
  · rw [destroySlices_eq] at h
    dsimp only at h
    split at h
    · rename_i hfix
      simp only [bind_eq_ok, fixedStackWrite, failIf_eq_ok] at h
      obtain ⟨v, hv, _, hsize, _, -, h⟩ := h
      cases h
      refine ⟨stack, v, _, hstack, hv, rfl, .inl ⟨hfix, ?_, rfl⟩⟩
      by_cases hscalar : v.isScalar = true
      · exact .inl hscalar
      · exact .inr (by_contra fun hn => hsize ⟨by simpa using hscalar, hn⟩)
    · rename_i hfix
      split at h
      · exact (fail_ne_ok.mp h).elim
      · simp only [bind_eq_ok] at h
        obtain ⟨v, hv, h⟩ := h
        cases h
        exact ⟨stack, v, _, hstack, hv, rfl, .inr ⟨hfix, _, by split <;> decide, rfl⟩⟩

/-! ### Frames after a store -/

theorem frame_setFrameStack (st : VerifierState) (f k : Nat) (s : StackState) :
    (setFrameStack st f s).frame k = (st.frame k).map fun fr => if k = f then { fr with stack := s } else fr := by
  unfold setFrameStack VerifierState.frame
  by_cases hf : f = st.curframe
  · rw [if_pos hf]
    dsimp only
    by_cases hk : k = st.curframe
    · rw [if_pos hk, if_pos hk, Option.map_some, if_pos (hk.trans hf.symm)]
      rfl
    · rw [if_neg hk, if_neg hk]
      have hkf : ¬ k = f := fun h => hk (h.trans hf)
      simp only [hkf, if_false, Option.map_id']
  · rw [if_neg hf]
    dsimp only
    by_cases hk : k = st.curframe
    · have hkf : ¬ k = f := fun h => hf (h.symm.trans hk)
      rw [if_pos hk, if_pos hk, Option.map_some, if_neg hkf]
      rfl
    · rw [if_neg hk, if_neg hk]
      by_cases hkf : k = f
      · subst hkf
        rw [Function.update_self]
        simp only [if_true]
      · rw [Function.update_of_ne hkf]
        simp only [hkf, if_false, Option.map_id']

theorem holds_setFrameStack {s : StackState} {k : Nat} {v : RegState} :
    (setFrameStack st f s).Holds k v ↔ ∃ fr, st.frame k = some fr ∧
      ((∃ r, fr.regs r = v) ∨ ∃ slot, (if k = f then s else fr.stack).FullSpill slot v) := by
  unfold VerifierState.Holds
  rw [frame_setFrameStack]
  constructor
  · rintro ⟨fr', hfr', hv⟩
    obtain ⟨fr, hfr, rfl⟩ := Option.map_eq_some_iff.mp hfr'
    refine ⟨fr, hfr, ?_⟩
    by_cases hk : k = f
    · simp only [hk, if_true] at hv ⊢
      exact hv
    · simp only [hk, if_false] at hv ⊢
      exact hv
  · rintro ⟨fr, hfr, hv⟩
    refine ⟨_, Option.map_eq_some_iff.mpr ⟨fr, hfr, rfl⟩, ?_⟩
    by_cases hk : k = f
    · simp only [hk, if_true] at hv ⊢
      exact hv
    · simp only [hk, if_false] at hv ⊢
      exact hv

theorem frameStack_frame {stack : StackState} (h : frameStack st f = .ok stack) :
    ∃ fr, st.frame f = some fr ∧ fr.stack = stack := by
  unfold frameStack at h
  unfold VerifierState.frame
  split at h
  · rename_i hf
    cases h
    exact ⟨st.currentFrame, if_pos hf, rfl⟩
  · rename_i hf
    split at h
    · cases h
    · split at h
      · rename_i fr hfr
        cases h
        exact ⟨fr, by rw [if_neg hf, hfr], rfl⟩
      · cases h

theorem memAlias_of_isScalar {v : RegState} {id : Nat} (h : v.isScalar = true) : memAlias id v = false := by
  cases v <;> first | rfl | cases h

/-- The values after a store, from the state before it. -/
theorem store_survivors (id : Nat) (hframed : Framed st) {fr : FrameState} (hfr : st.frame f = some fr)
    (hsize : 0 < n ∧ n ≤ 8) (hmin : -512 ≤ minOffset + offset.toInt) (hmax : maxOffset + offset.toInt + n ≤ 0)
    (hle : minOffset ≤ maxOffset) (h : frameStackWrite pc base st offset n src minOffset maxOffset f = .ok st') :
    (∀ k v, st'.Holds k v → memAlias id v = false) ↔
      ∀ v, StoreSurvivor st f (minOffset + offset.toInt) (maxOffset + offset.toInt) n src
        (destroyedDynptr fr.stack (stackByteRange (minOffset + offset.toInt) (maxOffset + offset.toInt + n)).1
          (stackByteRange (minOffset + offset.toInt) (maxOffset + offset.toInt + n)).2) v → memAlias id v = false := by
  obtain ⟨stack, value, s', hstack, hvalue, rfl, hs'⟩ := frameStackWrite_eq h
  obtain ⟨fr', hfr', rfl⟩ := frameStack_frame hstack
  cases hfr.symm.trans hfr'
  dsimp only at hs'
  set lo := minOffset + offset.toInt with hlo
  set hi := maxOffset + offset.toInt with hhi
  have hrange : stackByteRange lo (hi + n) = ((-(hi + n)).toNat, (-lo - 1).toNat) :=
    stackByteRange_eq hmin hmax (by omega)
  set first := (stackByteRange lo (hi + n)).1 with hfirst
  set last := (stackByteRange lo (hi + n)).2 with hlast
  have hfirst' : first = (-(hi + n)).toNat := by rw [hfirst, hrange]
  have hlast' : last = (-lo - 1).toNat := by rw [hlast, hrange]
  set d := destroyedDynptr fr.stack first last with hd
  -- the full spills of the written frame
  have hkept : ∀ slot v, ¬ (first / 8 ≤ slot ∧ slot ≤ last / 8) →
      (s'.FullSpill slot v ↔ ∃ w, fr.stack.FullSpill slot w ∧ killed d w = v) := by
    intro slot v hout
    rcases hs' with ⟨⟨hfix, halign⟩, -, rfl⟩ | ⟨-, b, -, rfl⟩
    · rw [fullSpill_spill (by omega) (by omega) (by omega), fullSpill_map]
      have hne : slot ≠ last / 8 := by omega
      simp only [hne, false_and, ne_eq, not_false_eq_true, true_and, false_or, fullSpill_destroy]
    · rw [fullSpill_scrub, fullSpill_map]
      simp only [hout, not_false_eq_true, true_and, fullSpill_destroy]
  have hcovered : ∀ slot v, first / 8 ≤ slot ∧ slot ≤ last / 8 → s'.FullSpill slot v →
      (lo = hi ∧ lo % 8 = 0) ∧ v = value := by
    intro slot v hin hfull
    rcases hs' with ⟨⟨hfix, halign⟩, -, rfl⟩ | ⟨-, b, -, rfl⟩
    · rw [fullSpill_spill (by omega) (by omega) (by omega)] at hfull
      rcases hfull with ⟨-, -, hv⟩ | ⟨hne, -⟩
      · exact ⟨⟨by omega, halign⟩, hv⟩
      · omega
    · rw [fullSpill_scrub] at hfull
      exact absurd hin hfull.1
  have hsaved : ∀ {k fr'}, st.saved k = some fr' → ¬ k = st.curframe := by
    intro k fr' hk heq
    have hlt := (hframed.active k).mp (by rw [hk]; rfl)
    omega
  -- the frames before the stack is replaced: the registers of the current one are killed
  have hframe : ∀ {k fr'}, st.frame k = some fr' →
      ∃ regs, VerifierState.frame { st with regs := fun r => killed d (st.regs r) } k =
        some { fr' with regs } := by
    intro k fr' hk
    unfold VerifierState.frame at hk ⊢
    dsimp only
    split at hk
    · rename_i hcur
      cases hk
      exact ⟨_, by rw [if_pos hcur]; rfl⟩
    · rename_i hcur
      exact ⟨fr'.regs, by rw [if_neg hcur, hk]⟩
  constructor
  · intro hall v hv
    cases hv with
    | reg r => exact hall st.curframe _ (holds_setFrameStack.mpr ⟨_, if_pos rfl, .inl ⟨r, rfl⟩⟩)
    | @callerReg k fr' r hk =>
      refine hall k _ (holds_setFrameStack.mpr ⟨fr', ?_, .inl ⟨r, rfl⟩⟩)
      exact (if_neg (hsaved hk)).trans hk
    | @otherSpill k slot fr' v hne hk hfull =>
      obtain ⟨regs, hfr''⟩ := hframe hk
      refine hall k v (holds_setFrameStack.mpr ⟨_, hfr'', .inr ⟨slot, ?_⟩⟩)
      rw [if_neg hne]
      exact hfull
    | @ownSpill slot fr' v hk hfull hout =>
      cases hfr.symm.trans hk
      obtain ⟨regs, hfr''⟩ := hframe hfr
      refine hall f _ (holds_setFrameStack.mpr ⟨_, hfr'', .inr ⟨slot, ?_⟩⟩)
      rw [if_pos rfl]
      exact (hkept slot _ hout).mpr ⟨v, hfull, rfl⟩
    | @stored r hfix halign hsrc =>
      subst hsrc
      obtain ⟨rfl, -⟩ := readReg_eq_ok.mp hvalue
      rcases hs' with ⟨-, hscalar | hn, rfl⟩ | ⟨hne, -⟩
      · exact memAlias_of_isScalar hscalar
      · obtain ⟨regs, hfr''⟩ := hframe hfr
        refine hall f _ (holds_setFrameStack.mpr ⟨_, hfr'', .inr ⟨last / 8, ?_⟩⟩)
        rw [if_pos rfl, fullSpill_spill (by omega) (by omega) (by omega)]
        exact .inl ⟨rfl, by omega, rfl⟩
      · exact absurd ⟨by omega, halign⟩ hne
  · intro hall k v hv
    obtain ⟨fr', hfr'', hv⟩ := holds_setFrameStack.mp hv
    unfold VerifierState.frame at hfr''
    dsimp only at hfr''
    rcases hv with ⟨r, rfl⟩ | ⟨slot, hfull⟩
    · split at hfr''
      · cases hfr''
        exact hall _ (.reg r)
      · exact hall _ (.callerReg r hfr'')
    · by_cases hk : k = f
      · rw [if_pos hk] at hfull
        by_cases hin : first / 8 ≤ slot ∧ slot ≤ last / 8
        · obtain ⟨⟨hfix, halign⟩, rfl⟩ := hcovered slot v hin hfull
          cases src with
          | imm imm =>
            cases hvalue
            rfl
          | reg r =>
            obtain ⟨rfl, -⟩ := readReg_eq_ok.mp hvalue
            exact hall _ (.stored hfix halign rfl)
        · obtain ⟨w, hw, rfl⟩ := (hkept slot v hin).mp hfull
          exact hall _ (.ownSpill hfr hw hin)
      · rw [if_neg hk] at hfull
        split at hfr''
        · rename_i hcur
          cases hfr''
          refine hall v (.otherSpill hk (?_ : st.frame k = some st.currentFrame) hfull)
          exact if_pos hcur
        · rename_i hcur
          exact hall v (.otherSpill hk ((if_neg hcur).trans hfr'') hfull)

/-- No overwritten dynptr of the frame is live after a store. -/
theorem store_gone {slot : Nat} {fr : FrameState} (hfr : st.frame f = some fr)
    (hmin : -512 ≤ minOffset + offset.toInt) (hmax : maxOffset + offset.toInt + n ≤ 0)
    (h : frameStackWrite pc base st offset n src minOffset maxOffset f = .ok st') {i : Nat} (hi : DynptrByte slot i)
    (hlo : minOffset + offset.toInt ≤ byteOff i) (hhi : byteOff i < maxOffset + offset.toInt + n)
    {fr' : FrameState} (hfr' : st'.frame f = some fr') (id' : Nat) : ¬ LiveDynptr fr'.stack slot id' := by
  obtain ⟨stack, value, s', hstack, -, rfl, hs'⟩ := frameStackWrite_eq h
  obtain ⟨fr0, hfr0, rfl⟩ := frameStack_frame hstack
  cases hfr.symm.trans hfr0
  rw [frame_setFrameStack] at hfr'
  obtain ⟨fr1, -, rfl⟩ := Option.map_eq_some_iff.mp hfr'
  rw [if_pos rfl]
  intro hlive'
  have hb : s'.bytes i = .dynptr := hlive'.byte hi
  have hrange := stackByteRange_eq hmin hmax (by omega)
  rw [hrange] at hs'
  dsimp only at hs'
  unfold byteOff at hlo hhi
  rcases hs' with ⟨-, -, rfl⟩ | ⟨-, b, hne, rfl⟩
  · simp only [StackState.spill] at hb
    rw [if_pos (by omega)] at hb
    cases hb
  · simp only [StackState.scrub] at hb
    rw [if_pos (by omega)] at hb
    exact hne hb

end Stores

/-! ## Calls -/

/-- What is left of the values a state holds after a call that fills bytes of the current frame. -/
inductive CallSurvivor (st : VerifierState) (filled : Nat → Prop) : RegState → Prop
  | reg {r : Reg} : 6 ≤ r → CallSurvivor st filled (st.regs r)
  | spill {slot : Nat} {v : RegState} : st.stack.FullSpill slot v → (∀ i, i / 8 = slot → ¬ filled i) →
      CallSurvivor st filled v
  | saved {k : Nat} {fr : FrameState} {v : RegState} : st.saved k = some fr → fr.Holds v → CallSurvivor st filled v

/-- The state after a call that leaves a stack and a scalar in R0. -/
def VerifierState.afterCall (st : VerifierState) (s' : StackState) (res : ScalarBounds) : VerifierState :=
  (VerifierState.setReg { st with stack := s' } 0 (.scalar res)).clobberArgs

/-- The bytes that `dynptr_read` marks: as many as it asks for, 8 when their number is not known. -/
def readFills (st : VerifierState) (i : Nat) : Prop :=
  ∃ lo hi al f, st.regs 1 = .ptrToStack lo hi al f ∧ 0 < bufferLen (st.regs 2) ∧
    lo ≤ byteOff i ∧ byteOff i < hi + bufferLen (st.regs 2)

/-- The bytes that `dynptr_from_mem` marks. -/
def initFills (st : VerifierState) (i : Nat) : Prop :=
  ∃ lo hi al f, st.regs 4 = .ptrToStack lo hi al f ∧ lo ≤ byteOff i ∧ byteOff i < lo + 16

section Calls

variable {pc : Nat} {st st' : VerifierState}

/-- The values after a call, from the state before it. -/
theorem call_survivors (res : ScalarBounds) (id : Nat) (hframed : Framed st) {s' : StackState}
    {filled : Nat → Prop} {b : StackByte} (hfill : Fills st.stack s' filled b) (hb : b ≠ .spill) :
    (∀ k v, (st.afterCall s' res).Holds k v → memAlias id v = false) ↔
      ∀ v, CallSurvivor st filled v → memAlias id v = false := by
  set next := st.afterCall s' res with hnext
  have hcurrent : next.frame st.curframe = some next.currentFrame := if_pos rfl
  have hsaved : ∀ {k fr}, st.saved k = some fr → next.frame k = some fr := by
    intro k fr hk
    have hlt := (hframed.active k).mp (by rw [hk]; rfl)
    have hcur : next.curframe = st.curframe := rfl
    have hne : ¬ k = next.curframe := by omega
    exact (if_neg hne).trans hk
  have hreg : ∀ r : Reg, 6 ≤ r → next.regs r = st.regs r := by
    intro r hr
    have hargs : ¬ (1 ≤ r ∧ r ≤ 5) := by
      revert r
      decide
    have h0 : r ≠ 0 := by
      revert r
      decide
    simp only [hnext, VerifierState.afterCall, VerifierState.clobberArgs, VerifierState.setReg]
    rw [if_neg hargs, Function.update_of_ne h0]
  constructor
  · intro hall v hv
    cases hv with
    | @reg r hr => exact hall st.curframe _ ⟨_, hcurrent, .inl ⟨r, hreg r hr⟩⟩
    | @spill slot v hfull hout =>
      exact hall st.curframe v ⟨_, hcurrent, .inr ⟨slot, (fullSpill_fill hfill hb).mpr ⟨hout, hfull⟩⟩⟩
    | @saved k fr v hk hv => exact hall k v ⟨fr, hsaved hk, hv⟩
  · intro hall k v hv
    obtain ⟨fr, hfr, hv⟩ := hv
    unfold VerifierState.frame at hfr
    split at hfr
    · cases hfr
      rcases hv with ⟨r, rfl⟩ | ⟨slot, hfull⟩
      · by_cases hr : 6 ≤ r
        · change memAlias id (next.regs r) = false
          rw [hreg r hr]
          exact hall _ (.reg hr)
        · change memAlias id (next.regs r) = false
          simp only [hnext, VerifierState.afterCall, VerifierState.clobberArgs, VerifierState.setReg]
          split
          · rfl
          · rename_i hargs
            have h0 : r = 0 := by
              revert r
              decide
            rw [h0, Function.update_self]
            rfl
      · obtain ⟨hout, hfull'⟩ := (fullSpill_fill hfill hb).mp hfull
        exact hall v (.spill hfull' hout)
    · exact hall v (.saved hfr hv)

/-- An accepted `dynptr_read` marks its destination in the current frame. -/
theorem dynptrRead_fills {next : VerifierState} (h : dynptrRead pc st = .ok next)
    {lo hi : Int} {al f : Nat} (hr : st.regs 1 = .ptrToStack lo hi al f) :
    ∃ s', next = { st with stack := s' } ∧ Fills st.stack s' (readFills st) .misc ∧
      s'.dynptr = st.stack.dynptr := by
  simp only [dynptrRead, bind_eq_ok, hr] at h
  obtain ⟨_, -, h⟩ := h
  have hiff : ∀ i, readFills st i ↔
      0 < bufferLen (st.regs 2) ∧ lo ≤ byteOff i ∧ byteOff i < hi + bufferLen (st.regs 2) := by
    intro i
    constructor
    · rintro ⟨_, _, _, _, hr', hin⟩
      cases hr.symm.trans hr'
      exact hin
    · exact fun hin => ⟨lo, hi, al, f, hr, hin⟩
  set len := bufferLen (st.regs 2)
  simp only [initStackBuffer, bind_eq_ok, failIf_eq_ok, not_or, not_lt] at h
  obtain ⟨_, ⟨hlen, hlohi⟩, h⟩ := h
  split at h
  · rename_i h0
    cases h
    refine ⟨st.stack, rfl, ⟨fun i hin => ?_, fun _ _ => rfl, rfl⟩, rfl⟩
    have hpos := ((hiff i).mp hin).1
    omega
  · simp only [bind_eq_ok, failIf_eq_ok, not_or, not_lt] at h
    obtain ⟨_, ⟨hmin, hmax⟩, h⟩ := h
    rw [stackByteRange_eq hmin hmax (by omega)] at h
    cases h
    have hin : ∀ i, readFills st i ↔ (-(hi + len)).toNat ≤ i ∧ i ≤ (-lo - 1).toNat := by
      intro i
      rw [hiff]
      unfold byteOff
      omega
    refine ⟨_, rfl, ⟨fun i hi => ?_, fun i hi => ?_, rfl⟩, rfl⟩
    · exact if_pos ((hin i).mp hi)
    · exact if_neg fun h => hi ((hin i).mpr h)

/-- An accepted `dynptr_from_mem` sets up a dynptr in the current frame. -/
theorem dynptrFromMem_fills {next : VerifierState} (h : dynptrFromMem pc st = .ok next)
    {lo hi : Int} {al f : Nat} (hr : st.regs 4 = .ptrToStack lo hi al f) :
    ∃ s' size, next = { st with stack := s' } ∧ Fills st.stack s' (initFills st) .dynptr ∧
      lo = hi ∧ lo % 16 = 0 ∧ lo ≤ -16 ∧
      s'.dynptr = Function.update st.stack.dynptr ((-lo - 1).toNat / 8) (some ⟨size, pc + 1⟩) := by
  unfold dynptrFromMem at h
  split at h
  · exact (fail_ne_ok.mp h).elim
  · rename_i size hsize
    simp only [hr, bind_eq_ok, failIf_eq_ok, not_or, not_not, not_lt] at h
    obtain ⟨_, ⟨hlohi, hmod⟩, _, ⟨hmin, hmax⟩, h⟩ := h
    cases h
    have hin : ∀ i, initFills st i ↔
        ((-lo - 1).toNat / 8 - 1) * 8 ≤ i ∧ i ≤ (-lo - 1).toNat / 8 * 8 + 7 := by
      intro i
      unfold initFills byteOff
      constructor
      · rintro ⟨_, _, _, _, hr', hin⟩
        cases hr.symm.trans hr'
        omega
      · exact fun hin => ⟨lo, hi, al, f, hr, by omega⟩
    refine ⟨_, _, rfl, ⟨fun i hi => ?_, fun i hi => ?_, rfl⟩, hlohi, hmod, hmax, rfl⟩
    · exact if_pos ((hin i).mp hi)
    · exact if_neg fun h => hi ((hin i).mpr h)

/-- The two helpers that write to the stack return a scalar. -/
theorem dynptrCall_eq {imm : Int32} (himm : imm = 197 ∨ imm = 201) (h : helperCall pc imm st = .ok st') :
    ∃ next b, dynptrHelperCall pc imm st = .ok next ∧ st' = (next.setReg 0 (.scalar b)).clobberArgs := by
  have hne : imm ≠ 1 ∧ imm ≠ 131 ∧ imm ≠ 203 := by rcases himm with rfl | rfl <;> decide
  have hdyn : isDynptrHelper imm = true := by rcases himm with rfl | rfl <;> rfl
  unfold helperCall at h
  split at h
  · exact (fail_ne_ok.mp h).elim
  · rename_i helper hproto
    simp only [bind_eq_ok] at h
    obtain ⟨_, -, next, heff, h⟩ := h
    cases h
    obtain ⟨b, hb⟩ : ∃ b, helper.returnType = .scalar b := by
      rcases helperPrototype_returns hproto with hb | hb | hb | hb
      · exact hb
      · exact absurd hb hne.1
      · exact absurd (beq_iff_eq.mp hb) hne.2.1
      · exact absurd hb hne.2.2
    rw [lookupResult_of_ne hne.1]
    simp only [helperEffect, helperAcquiresRef, beq_iff_eq, hne.2.1, if_false, hdyn, if_true, hne.2.2, hb,
      bind_eq_ok] at heff
    obtain ⟨mid, hcall, heff⟩ := heff
    cases heff
    exact ⟨mid, b, hcall, rfl⟩

/-- The frames after a call that writes to the current stack. -/
theorem frame_call {s' : StackState} {res : ScalarBounds} {k : Nat} :
    (st.afterCall s' res).frame k =
      if k = st.curframe then some (st.afterCall s' res).currentFrame else st.saved k := rfl

end Calls

/-! ## Destruction -/

/-- A write of `n` bytes at some offset of an interval reaches a byte of the dynptr. -/
def Reaches (slot : Nat) (lo hi : Int) (n : Nat) : Prop :=
  ∃ o i, lo ≤ o ∧ o ≤ hi ∧ DynptrByte slot i ∧ o ≤ byteOff i ∧ byteOff i < o + n

/-- The instruction may write to a byte of the dynptr at a slot of frame `f`. -/
inductive Overwrites (st : VerifierState) (f slot : Nat) : BpfInsn → Prop
  | store {src base : Reg} {offset : Int16} {size : MemSize} {lo hi : Int} {al : Nat} :
      st.regs base = .ptrToStack lo hi al f → Reaches slot (lo + offset.toInt) (hi + offset.toInt) size.bytes →
      Overwrites st f slot (.stMem src base offset size)
  | storeImm {imm : Int32} {base : Reg} {offset : Int16} {size : MemSize} {lo hi : Int} {al : Nat} :
      st.regs base = .ptrToStack lo hi al f → Reaches slot (lo + offset.toInt) (hi + offset.toInt) size.bytes →
      Overwrites st f slot (.stMemImm imm base offset size)
  | atomic {dst src : Reg} {offset : Int16} {size : MemSize} {op : AtomicOp} {fetch : Bool} {lo hi : Int} {al : Nat} :
      st.regs dst = .ptrToStack lo hi al f → Reaches slot (lo + offset.toInt) (hi + offset.toInt) size.bytes →
      Overwrites st f slot (.atomic dst src offset size op fetch)
  /-- The destination of `dynptr_read`, of any length it may be called with. -/
  | read {lo hi : Int} {al n : Nat} : st.regs 1 = .ptrToStack lo hi al f → MayRequest (st.regs 2) n →
      Reaches slot lo hi n → Overwrites st f slot (.call 201)
  | init {lo hi : Int} {al : Nat} : st.regs 4 = .ptrToStack lo hi al f → Reaches slot lo hi 16 →
      Overwrites st f slot (.call 197)

/-- The dynptr is not live any more, unless the instruction has set it up itself, and no frame
    holds a slice of it. -/
structure Destroyed (pc : Nat) (insn : BpfInsn) (f slot id : Nat) (next : VerifierState) : Prop where
  gone : ∀ fr id', next.frame f = some fr → LiveDynptr fr.stack slot id' → insn = .call 197 ∧ id' = pc + 1
  slices : ∀ k v, next.Holds k v → memAlias id v = false

/-- No slice survives the store. -/
def StoreClean (st : VerifierState) (f id : Nat) (base : Reg) (offset : Int16) (size : MemSize) (src : StoreSrc) : Prop :=
  ∀ lo hi al fr v, st.regs base = .ptrToStack lo hi al f → st.frame f = some fr →
    StoreSurvivor st f (lo + offset.toInt) (hi + offset.toInt) size.bytes src
      (destroyedDynptr fr.stack (stackByteRange (lo + offset.toInt) (hi + offset.toInt + size.bytes)).1
        (stackByteRange (lo + offset.toInt) (hi + offset.toInt + size.bytes)).2) v → memAlias id v = false

/-- When an instruction that overwrites a dynptr destroys it: no slice survives, and a helper
    writes to the frame of the dynptr. -/
def Cleans (pc : Nat) (st : VerifierState) (f slot id : Nat) : BpfInsn → Prop
  | .stMem src base offset size => StoreClean st f id base offset size (.reg src)
  | .stMemImm imm base offset size => StoreClean st f id base offset size (.imm imm)
  | .call imm =>
    if imm = 197 then
      (f = st.curframe ∨ id = pc + 1) ∧ ∀ v, CallSurvivor st (initFills st) v → memAlias id v = false
    else
      (f = st.curframe ∧ ∃ i, DynptrByte slot i ∧ readFills st i) ∧
        ∀ v, CallSurvivor st (readFills st) v → memAlias id v = false
  | _ => True

section Destruction

variable {pc f slot id : Nat} {st st' : VerifierState} {fr : FrameState}

theorem Reaches.byte {lo hi : Int} {n : Nat} (h : Reaches slot lo hi n) :
    lo ≤ hi ∧ ∃ i, DynptrByte slot i ∧ lo ≤ byteOff i ∧ byteOff i < hi + n := by
  obtain ⟨o, i, hlo, hhi, hi, hle, hlt⟩ := h
  exact ⟨by omega, i, hi, by omega, by omega⟩

/-- A store. -/
theorem stackWrite_destroys {insn : BpfInsn} {base : Reg} {offset : Int16} {size : MemSize} {src : StoreSrc}
    {lo hi : Int} {al : Nat} (hframed : Framed st) (hfr : st.frame f = some fr)
    (hb : st.regs base = .ptrToStack lo hi al f)
    (hreach : Reaches slot (lo + offset.toInt) (hi + offset.toInt) size.bytes)
    (h : stackWrite pc base st offset size src = .ok st') :
    Destroyed pc insn f slot id st' ↔ StoreClean st f id base offset size src := by
  simp only [stackWrite, bind_eq_ok, readReg_eq_ok] at h
  obtain ⟨w, ⟨hw, -⟩, h⟩ := h
  cases hb.symm.trans hw
  simp only [bind_eq_ok] at h
  obtain ⟨_, hchk, h⟩ := h
  obtain ⟨-, -, -, hmin, hmax⟩ := checkStackAccess_ok hchk
  obtain ⟨hle, i, hbyte, hlo, hhi⟩ := hreach.byte
  have hsize := And.intro size.bytes_pos size.bytes_le
  have hiff := store_survivors id hframed hfr hsize hmin hmax (by omega) h
  constructor
  · intro hdes lo' hi' al' fr' v hb' hfr' hv
    cases hb.symm.trans hb'
    cases hfr.symm.trans hfr'
    exact hiff.mp hdes.slices v hv
  · intro hclean
    refine ⟨fun fr' id' hfr' hlive' => ?_, hiff.mpr fun v hv => hclean lo hi al fr v hb hfr hv⟩
    exact absurd hlive' (store_gone hfr hmin hmax h hbyte hlo hhi hfr' id')

theorem byteWalk_no_dynptr {offset : Int16} {stack : StackState} {first last slot i : Nat} {v : RegState}
    (h : byteWalk pc offset stack first last slot = .ok v) (hi : first ≤ i ∧ i ≤ last) :
    stack.bytes i ≠ .dynptr := by
  unfold byteWalk at h
  split at h
  · exact (fail_ne_ok.mp h).elim
  · rename_i hall
    rw [Bool.not_eq_false, allIn_iff] at hall
    have hb := hall i hi.1 hi.2
    simp only [Bool.and_eq_true, bne_iff_ne, ne_eq] at hb
    exact hb.2

theorem fixedStackRead_no_dynptr {base : Reg} {offset : Int16} {stack : StackState} {first last size i : Nat}
    {minOff : Int} {signExtend : Bool} {v : RegState}
    (h : fixedStackRead pc base offset stack first last minOff size signExtend = .ok v)
    (hi : first ≤ i ∧ i ≤ last) : stack.bytes i ≠ .dynptr := by
  simp only [fixedStackRead] at h
  split at h
  · rename_i hall
    rw [allIn_iff] at hall
    rw [beq_iff_eq.mp (hall i hi.1 hi.2)]
    decide
  · exact byteWalk_no_dynptr h hi

theorem checkReadable_byte {stack : StackState} {first last i : Nat} {uninitMsg spilledMsg : String} {u : Unit}
    (h : checkReadable pc stack first last uninitMsg spilledMsg = .ok u) (hi : first ≤ i ∧ i ≤ last)
    (hlast : last < stackSize) : checkReadableByte pc stack uninitMsg spilledMsg i = .ok () := by
  have hforM : ∀ (l : List Nat) (u : Unit), l.forM (checkReadableByte pc stack uninitMsg spilledMsg) = .ok u →
      ∀ j ∈ l, checkReadableByte pc stack uninitMsg spilledMsg j = .ok () := by
    intro l
    induction l with
    | nil => exact fun _ _ _ hj => by cases hj
    | cons a l ih =>
      intro u hl j hj
      simp only [List.forM, bind_eq_ok] at hl
      obtain ⟨_, ha, hl⟩ := hl
      rcases List.mem_cons.mp hj with rfl | hj
      · exact ha
      · exact ih _ hl j hj
  simp only [checkReadable, bind_eq_ok] at h
  obtain ⟨_, hall, -⟩ := h
  refine hforM _ _ hall i (List.mem_range'_1.mpr ?_)
  omega

/-- An accepted stack read covers no byte of a dynptr. -/
theorem stackRead_no_dynptr {base : Reg} {offset : Int16} {size : MemSize} {signExtend : Bool} {v : RegState}
    {lo hi : Int} {al i : Nat} (hfr : st.frame f = some fr) (hb : st.regs base = .ptrToStack lo hi al f)
    (h : stackRead pc base st offset size signExtend = .ok v)
    (hlo : lo + offset.toInt ≤ byteOff i) (hhi : byteOff i < hi + offset.toInt + size.bytes) :
    fr.stack.bytes i ≠ .dynptr := by
  simp only [stackRead, bind_eq_ok, readReg_eq_ok] at h
  obtain ⟨w, ⟨hw, -⟩, h⟩ := h
  cases hb.symm.trans hw
  simp only [bind_eq_ok] at h
  obtain ⟨_, hchk, stack, hstack, h⟩ := h
  obtain ⟨-, -, -, hmin, hmax⟩ := checkStackAccess_ok hchk
  obtain ⟨fr', hfr', rfl⟩ := frameStack_frame hstack
  cases hfr.symm.trans hfr'
  rw [stackByteRange_eq hmin hmax (by omega)] at h
  unfold byteOff at hlo hhi
  have hin : (-(hi + offset.toInt + size.bytes)).toNat ≤ i ∧ i ≤ (-(lo + offset.toInt) - 1).toNat := by omega
  split at h
  · exact fixedStackRead_no_dynptr h hin
  · simp only [variableStackRead, bind_eq_ok] at h
    obtain ⟨_, hread, -⟩ := h
    have hbyte := checkReadable_byte hread hin (by unfold stackSize; omega)
    intro hdyn
    unfold checkReadableByte at hbyte
    rw [hdyn] at hbyte
    exact fail_ne_ok.mp hbyte

/-- An atomic on a dynptr is rejected. -/
theorem atomic_rejected {dst src : Reg} {offset : Int16} {size : MemSize} {op : AtomicOp} {fetch : Bool}
    {lo hi : Int} {al : Nat} (hfr : st.frame f = some fr) (hlive : LiveDynptr fr.stack slot id)
    (hb : st.regs dst = .ptrToStack lo hi al f)
    (hreach : Reaches slot (lo + offset.toInt) (hi + offset.toInt) size.bytes) :
    atomic pc st dst src offset size op fetch ≠ .ok st' := by
  intro h
  simp only [atomic, bind_eq_ok, readReg_eq_ok] at h
  obtain ⟨w, ⟨hw, -⟩, _, -, _, -, h⟩ := h
  cases hb.symm.trans hw
  simp only [atomicStack, bind_eq_ok] at h
  obtain ⟨_, -, _, -, old, hold, -⟩ := h
  obtain ⟨-, i, hbyte, hlo, hhi⟩ := hreach.byte
  exact stackRead_no_dynptr hfr hb hold hlo hhi (hlive.byte hbyte)

/-- `dynptr_read` over a dynptr. -/
theorem dynptrRead_destroys {res : ScalarBounds} {lo hi : Int} {al : Nat} {next : VerifierState}
    (hframed : Framed st) (hfr : st.frame f = some fr) (hlive : LiveDynptr fr.stack slot id)
    (hb : st.regs 1 = .ptrToStack lo hi al f)
    (h : dynptrRead pc st = .ok next) :
    Destroyed pc (.call 201) f slot id (next.setReg 0 (.scalar res)).clobberArgs ↔
      Cleans pc st f slot id (.call 201) := by
  obtain ⟨s', rfl, hfill, hdyn⟩ := dynptrRead_fills h hb
  change Destroyed pc (.call 201) f slot id (st.afterCall s' res) ↔ _
  have hsurv := call_survivors res id hframed hfill (by decide)
  have hgone : (∀ fr' id', (st.afterCall s' res).frame f = some fr' → ¬ LiveDynptr fr'.stack slot id') ↔
      f = st.curframe ∧ ∃ i, DynptrByte slot i ∧ readFills st i := by
    rw [frame_call]
    constructor
    · intro hall
      by_cases hf : f = st.curframe
      · refine ⟨hf, by_contra fun hnone => ?_⟩
        rw [VerifierState.frame, if_pos hf] at hfr
        cases hfr
        have hsame : ∀ i, DynptrByte slot i → s'.bytes i = .dynptr := by
          intro i hi
          rw [hfill.outside i fun hin => hnone ⟨i, hi, hin⟩]
          exact hlive.byte hi
        refine hall _ id (if_pos hf) ⟨hlive.odd, ?_, ?_, ?_⟩
        · exact StackState.slotAll_iff.mpr fun i hi => hsame i (.inl hi)
        · exact StackState.slotAll_iff.mpr fun i hi => hsame i (.inr hi)
        · change ∃ size, s'.dynptr slot = _
          rw [hdyn]
          exact hlive.anchored
      · rw [VerifierState.frame, if_neg hf] at hfr
        exact absurd hlive (hall fr id ((if_neg hf).trans hfr))
    · rintro ⟨hf, i, hi, hin⟩ fr' id' hfr' hlive'
      rw [if_pos hf] at hfr'
      cases hfr'
      have hb : s'.bytes i = .dynptr := hlive'.byte hi
      rw [hfill.inside i hin] at hb
      cases hb
  simp only [Cleans, show ¬ (201 : Int32) = 197 by decide, if_false]
  rw [← hsurv, ← hgone]
  constructor
  · intro hdes
    refine ⟨fun fr' id' hfr' hlive' => ?_, hdes.slices⟩
    have hcall := (hdes.gone fr' id' hfr' hlive').1
    cases hcall
  · intro hclean
    exact ⟨fun fr' id' hfr' hlive' => absurd hlive' (hclean.1 fr' id' hfr'), hclean.2⟩

/-- `dynptr_from_mem` on the slots of a dynptr. -/
theorem dynptrFromMem_destroys {res : ScalarBounds} {lo hi : Int} {al : Nat} {next : VerifierState}
    (hframed : Framed st) (hfr : st.frame f = some fr) (hlive : LiveDynptr fr.stack slot id)
    (hb : st.regs 4 = .ptrToStack lo hi al f)
    (hreach : Reaches slot lo hi 16) (h : dynptrFromMem pc st = .ok next) :
    Destroyed pc (.call 197) f slot id (next.setReg 0 (.scalar res)).clobberArgs ↔
      Cleans pc st f slot id (.call 197) := by
  obtain ⟨s', size, rfl, hfill, heq, hmod, hmax, hdyn⟩ := dynptrFromMem_fills h hb
  change Destroyed pc (.call 197) f slot id (st.afterCall s' res) ↔ _
  have hsurv := call_survivors res id hframed hfill (by decide)
  have hgone : (∀ fr' id', (st.afterCall s' res).frame f = some fr' → LiveDynptr fr'.stack slot id' →
      id' = pc + 1) ↔ f = st.curframe ∨ id = pc + 1 := by
    rw [frame_call]
    by_cases hf : f = st.curframe
    · refine ⟨fun _ => .inl hf, fun _ fr' id' hfr' hlive' => ?_⟩
      rw [if_pos hf] at hfr'
      cases hfr'
      -- aligned pairs that share a byte are the same
      have hslot : (-lo - 1).toNat / 8 = slot := by
        obtain ⟨-, i, hi, hlo, hhi⟩ := hreach.byte
        have hodd := hlive.odd
        unfold byteOff at hlo hhi
        rcases hi with hi | hi <;> omega
      obtain ⟨size', hanchor⟩ := hlive'.anchored
      change s'.dynptr slot = _ at hanchor
      rw [hdyn, hslot, Function.update_self] at hanchor
      cases hanchor
      rfl
    · rw [VerifierState.frame, if_neg hf] at hfr
      rw [if_neg hf]
      simp only [hf, false_or]
      refine ⟨fun hall => hall fr id hfr hlive, fun hid fr' id' hfr' hlive' => ?_⟩
      cases hfr.symm.trans hfr'
      obtain ⟨_, hanchor⟩ := hlive.anchored
      obtain ⟨_, hanchor'⟩ := hlive'.anchored
      cases hanchor.symm.trans hanchor'
      exact hid
  simp only [Cleans, if_true]
  rw [← hsurv, ← hgone]
  constructor
  · intro hdes
    exact ⟨fun fr' id' hfr' hlive' => (hdes.gone fr' id' hfr' hlive').2, hdes.slices⟩
  · intro hclean
    exact ⟨fun fr' id' hfr' hlive' => ⟨rfl, hclean.1 fr' id' hfr' hlive'⟩, hclean.2⟩

end Destruction

/-- In every state of an exploration, an instruction that overwrites a dynptr of some frame
    destroys it and its slices exactly if it `Cleans`. -/
theorem dynptr_destroyed {env : MiniEnv} {s : MiniState} (hs : MiniReach env s) {item : WorkItem}
    (hitem : item ∈ s.worklist) {insn : BpfInsn} {l : List Succ} {x : Succ}
    (hl : successors item.pc insn item.state = .ok l) (hx : x ∈ l) {f slot id : Nat} {fr : FrameState}
    (hfr : item.state.frame f = some fr) (hlive : LiveDynptr fr.stack slot id)
    (hover : Overwrites item.state f slot insn) :
    Destroyed item.pc insn f slot id x.2 ↔ Cleans item.pc item.state f slot id insn := by
  have hframed := path_framed (mini_path hs hitem)
  have hnext : ∃ next, step item.pc item.state insn = .ok next ∧ x.2 = next := by
    cases hover <;>
      · simp only [successors, bind_eq_ok] at hl
        obtain ⟨next, hstep, hl⟩ := hl
        cases hl
        exact ⟨next, hstep, by rw [List.mem_singleton.mp hx]⟩
  obtain ⟨next, hstep, hx2⟩ := hnext
  rw [hx2]
  cases hover with
  | store hb hreach => exact stackWrite_destroys hframed hfr hb hreach hstep
  | storeImm hb hreach => exact stackWrite_destroys hframed hfr hb hreach hstep
  | atomic hb hreach => exact absurd hstep (atomic_rejected hfr hlive hb hreach)
  | read hb _ _ =>
    obtain ⟨mid, res, hcall, rfl⟩ := dynptrCall_eq (.inr rfl) hstep
    exact dynptrRead_destroys hframed hfr hlive hb hcall
  | init hb hreach =>
    obtain ⟨mid, res, hcall, rfl⟩ := dynptrCall_eq (.inl rfl) hstep
    exact dynptrFromMem_destroys hframed hfr hlive hb hreach hcall

theorem memAlias_killed {id : Nat} {v : RegState} : memAlias id (killed (some id) v) = false := by
  simp only [killed, killMemAlias]
  split
  · rfl
  · rename_i h
    simpa using h

/-- Set up a dynptr, take a slice of it, and store zero at an offset of the frame. -/
def storeOverDynptr (offset : Int16) : List BpfInsn :=
  [.ldMapValue 1 0 0 0 64, .movImm 2 8, .movImm 3 0, .movReg 4 10, .addImm 4 (-16), .call 197,
   .movReg 1 10, .addImm 1 (-16), .movImm 2 0, .movImm 3 8, .call 203, .movReg 6 0, .jeqImm 0 0 1,
   .stMemImm 0 10 offset .dw, .movImm 0 0, .exit]

/-- The dynptr of `storeOverDynptr` before its store, and the slice in `r6` after it. -/
structure AtStore (offset : Int16) (s : MiniState) (item : WorkItem) (slice : RegState)
    (next : VerifierState) : Prop where
  explored : ∃ env, miniEnv (storeOverDynptr offset) [] .default = .ok env ∧ MiniReach env s
  waiting : item ∈ s.worklist
  main : item.state.curframe = 0
  frame : item.state.regs 10 = .ptrToStack 0 0 0 0
  live : LiveDynptr item.state.stack 1 6
  stored : successors item.pc (.stMemImm 0 10 offset .dw) item.state = .ok [(item.pc + 1, next)]
  slice : next.regs 6 = slice

theorem storeOverDynptr_run {offset : Int16} {slice : RegState}
    (hrun : ((itemAfter (storeOverDynptr offset) 15).any fun x =>
      x.2.2.state.curframe == 0 && x.2.2.state.regs 10 == .ptrToStack 0 0 0 0 &&
      x.2.2.state.stack.slotAll 0 .dynptr && x.2.2.state.stack.slotAll 1 .dynptr &&
      x.2.2.state.stack.dynptr 1 == some ⟨8, 6⟩ &&
      match step x.2.2.pc x.2.2.state (.stMemImm 0 10 offset .dw) with
      | .ok next => next.regs 6 == slice
      | .error _ => false) = true) :
    ∃ s item next, AtStore offset s item slice next := by
  obtain ⟨⟨env, s, item⟩, hx, hcheck⟩ := (Option.any_eq_true _ _).mp hrun
  obtain ⟨henv, hreach, hitem⟩ := itemAfter_eq_some hx
  simp only [Bool.and_eq_true, beq_iff_eq] at hcheck
  obtain ⟨⟨⟨⟨⟨hcur, hr10⟩, hhigh⟩, hlow⟩, hanchor⟩, hstore⟩ := hcheck
  split at hstore
  · rename_i next hnext
    refine ⟨s, item, next, ⟨env, henv, hreach⟩, hitem, hcur, hr10, ⟨rfl, hhigh, hlow, 8, hanchor⟩, ?_, ?_⟩
    · simp only [successors, hnext, bind, Except.bind]
    · exact beq_iff_eq.mp hstore
  · cases hstore

/-- The store over the metadata destroys the dynptr and its slices. -/
theorem dynptr_destroyed_anchor : ∃ s item next, AtStore (-16) s item (.scalar .unknown) next ∧
    Destroyed item.pc (.stMemImm 0 10 (-16) .dw) 0 1 6 next := by
  obtain ⟨s, item, next, h⟩ := @storeOverDynptr_run (-16) (.scalar .unknown) (by decide)
  obtain ⟨env, -, hreach⟩ := h.explored
  have hframe : item.state.frame 0 = some item.state.currentFrame := if_pos h.main.symm
  have hover : Overwrites item.state 0 1 (.stMemImm 0 10 (-16) .dw) :=
    .storeImm h.frame ⟨-16, 15, by decide, by decide, .inr (by decide), by decide, by decide⟩
  refine ⟨s, item, next, h, (dynptr_destroyed hreach h.waiting h.stored (List.mem_singleton.mpr rfl) hframe h.live
    hover).mpr ?_⟩
  intro lo hi al fr v hb hfr hv
  cases h.frame.symm.trans hb
  cases hframe.symm.trans hfr
  have hkilled : destroyedDynptr item.state.currentFrame.stack 8 15 = some 6 := by
    obtain ⟨size, hanchor⟩ := h.live.anchored
    have hbyte := h.live.byte (.inr (by decide : 8 / 8 = 1))
    have hslots : slotRange 8 15 = [1] := by decide
    simp only [destroyedDynptr, hslots, VerifierState.currentFrame, List.filterMap_cons, List.filterMap_nil, hbyte,
      if_true, hanchor, Option.map_some, List.getLast?_singleton]
  have hrange : stackByteRange (0 + Int16.toInt (-16)) (0 + Int16.toInt (-16) + (MemSize.bytes .dw : Nat)) =
      (8, 15) := by decide
  have hsaved : ∀ k, item.state.saved k = none := by
    intro k
    have hactive := (path_framed (mini_path hreach h.waiting)).active k
    rw [h.main] at hactive
    by_contra hne
    have hlt := hactive.mp (Option.isSome_iff_ne_none.mpr hne)
    omega
  rw [hrange, hkilled] at hv
  cases hv with
  | reg | ownSpill => exact memAlias_killed
  | callerReg r hk => rw [hsaved] at hk; cases hk
  | otherSpill hne hk =>
    rw [VerifierState.frame, h.main, if_neg hne, hsaved] at hk
    cases hk
  | stored _ _ hsrc => cases hsrc

/-- The store over the other slot leaves the slices accessible. -/
theorem half_destroyed : ∃ s item next, AtStore (-8) s item (.ptrToMem 0 0 0 6 6) next ∧
    Overwrites item.state 0 1 (.stMemImm 0 10 (-8) .dw) ∧
    ¬ Destroyed item.pc (.stMemImm 0 10 (-8) .dw) 0 1 6 next := by
  obtain ⟨s, item, next, h⟩ := @storeOverDynptr_run (-8) (.ptrToMem 0 0 0 6 6) (by decide)
  refine ⟨s, item, next, h, ?_, fun hdes => ?_⟩
  · exact .storeImm h.frame ⟨-8, 7, by decide, by decide, .inl (by decide), by decide, by decide⟩
  · have hslice := hdes.slices next.curframe _ ⟨next.currentFrame, if_pos rfl, .inl ⟨6, rfl⟩⟩
    have hr6 : next.currentFrame.regs 6 = .ptrToMem 0 0 0 6 6 := h.slice
    rw [hr6] at hslice
    cases hslice

end RandVerifier
