/-
  RandVerifier.Flow — what one instruction does to the values a state holds.

  `AllHeld P D st`: every register and every full spill of every active frame `k` satisfies
  `P k`, every dynptr on its stack `D k`. A predicate that is `Closed` (under arithmetic, and copies between frames along a
  stack pointer) survives every instruction but the calls, and `ClosedCall` adds those of
  subprograms; the proofs go through one lemma for each operation on registers and stacks.
-/

import RandVerifier.Exec

namespace RandVerifier

/-! ## Held values -/

/-- Every register satisfies `P`. -/
def RegsOk (P : RegState → Prop) (regs : Regs) : Prop := ∀ r, P (regs r)

/-- Every full spill satisfies `P`, and every dynptr `D`. -/
structure StackOk (P : RegState → Prop) (D : DynptrState → Prop) (s : StackState) : Prop where
  spills : ∀ slot v, s.slotAll slot .spill = true → s.spilled slot = some v → P v
  dynptrs : ∀ slot ds, s.dynptr slot = some ds → D ds

structure FrameOk (P : RegState → Prop) (D : DynptrState → Prop) (fr : FrameState) : Prop where
  regs : RegsOk P fr.regs
  stack : StackOk P D fr.stack

/-- Every value that an active frame `k` holds in a register or a full spill satisfies
    `P k`, and every dynptr of its stack `D k`. -/
structure AllHeld (P : Nat → RegState → Prop) (D : Nat → DynptrState → Prop) (st : VerifierState) : Prop where
  regs : RegsOk (P st.curframe) st.regs
  stack : StackOk (P st.curframe) (D st.curframe) st.stack
  saved : ∀ k fr, st.saved k = some fr → FrameOk (P k) (D k) fr

/-! ## Operations on stacks -/

section Stacks

variable {P Q : RegState → Prop} {D E : DynptrState → Prop} {s s' : StackState}

/-- A stack whose full spills were full spills before, or satisfy `P` themselves, and
    whose dynptrs were there before. -/
theorem StackOk.of_old (h : StackOk P D s)
    (hs : ∀ slot v, s'.slotAll slot .spill = true → s'.spilled slot = some v →
      P v ∨ (s.slotAll slot .spill = true ∧ s.spilled slot = some v))
    (hd : ∀ slot ds, s'.dynptr slot = some ds → s.dynptr slot = some ds) : StackOk P D s' := by
  refine ⟨fun slot v hb hv => ?_, fun slot ds hds => h.dynptrs slot ds (hd slot ds hds)⟩
  rcases hs slot v hb hv with hp | ⟨hb', hv'⟩
  · exact hp
  · exact h.spills slot v hb' hv'

theorem StackOk.new : StackOk P D .new := by
  refine ⟨fun slot v _ hv => ?_, fun slot ds hds => ?_⟩
  · cases hv
  · cases hds

theorem StackOk.fill (h : StackOk P D s) {lo hi : Nat} {b : StackByte} (hb : b ≠ .spill) :
    StackOk P D (s.fill lo hi b) := by
  refine h.of_old (fun slot v hall hv => .inr ⟨?_, hv⟩) fun slot ds hds => hds
  rw [StackState.slotAll_iff] at hall ⊢
  intro i hi
  have hi' := hall i hi
  simp only [StackState.fill] at hi'
  split at hi'
  · exact absurd hi' hb
  · exact hi'

theorem StackOk.destroyDynptrs (h : StackOk P D s) (lo hi : Nat) :
    StackOk P D (destroyDynptrs s lo hi) := by
  refine h.of_old (fun slot v hall hv => .inr ⟨?_, hv⟩) fun slot ds hds => ?_
  · rw [StackState.slotAll_iff] at hall ⊢
    intro i hi
    have hi' := hall i hi
    simp only [RandVerifier.destroyDynptrs] at hi'
    split at hi'
    · cases hi'
    · exact hi'
  · simp only [RandVerifier.destroyDynptrs] at hds
    split at hds
    · cases hds
    · exact hds

theorem StackOk.spill (h : StackOk P D s) {lo hi : Nat} {v : RegState} (hslot : lo / 8 = hi / 8)
    (hv : P v) : StackOk P D (s.spill lo hi v) := by
  refine h.of_old (fun slot w hall hw => ?_) fun slot ds hds => hds
  by_cases hs : slot = hi / 8
  · subst hs
    simp only [StackState.spill, Function.update_self, Option.some.injEq] at hw
    exact .inl (hw ▸ hv)
  · simp only [StackState.spill, Function.update_of_ne hs] at hw
    refine .inr ⟨?_, hw⟩
    rw [StackState.slotAll_iff] at hall ⊢
    intro i hi'
    have hb := hall i hi'
    simp only [StackState.spill] at hb
    rw [if_neg (by omega), if_neg (by omega)] at hb
    exact hb

theorem StackOk.scrub (h : StackOk P D s) {lo hi : Nat} {b : StackByte} (hb : b ≠ .spill) :
    StackOk P D (s.scrub lo hi b) := by
  refine h.of_old (fun slot v hall hv => .inr ?_) fun slot ds hds => ?_
  · simp only [StackState.scrub] at hv
    split at hv
    · cases hv
    · rename_i hslot
      refine ⟨?_, hv⟩
      rw [StackState.slotAll_iff] at hall ⊢
      intro i hi'
      have hbi := hall i hi'
      simp only [StackState.scrub] at hbi
      split at hbi
      · exact absurd hbi hb
      · rw [hi', if_neg (fun h => hslot h.1)] at hbi
        exact hbi
  · simp only [StackState.scrub] at hds
    split at hds
    · cases hds
    · exact hds

theorem StackOk.clearSpills (h : StackOk P D s) (lo hi : Nat) : StackOk P D (s.clearSpills lo hi) := by
  refine h.of_old (fun slot v hall hv => .inr ⟨hall, ?_⟩) fun slot ds hds => hds
  dsimp only [StackState.clearSpills] at hv
  split at hv
  · cases hv
  · exact hv

theorem StackOk.mapFullSpills (h : StackOk P D s) {f : RegState → RegState}
    (hf : ∀ v, P v → Q (f v)) (hd : ∀ ds, D ds → E ds) :
    StackOk Q E (s.mapFullSpills f) := by
  refine ⟨fun slot v hall hv => ?_, fun slot ds hds => hd _ (h.dynptrs slot ds hds)⟩
  have hall' : s.slotAll slot .spill = true := hall
  simp only [StackState.mapFullSpills, StackState.mapSpilled, hall', if_true, Option.map_eq_some_iff] at hv
  obtain ⟨w, hw, rfl⟩ := hv
  exact hf w (h.spills slot w hall' hw)

theorem StackOk.dynptrSet (h : StackOk P D s) {slot : Nat} {ds : DynptrState}
    (hds : D ds) : StackOk P D { s with dynptr := Function.update s.dynptr slot (some ds) } := by
  refine ⟨h.spills, fun slot' ds' hd => ?_⟩
  dsimp only at hd
  rw [Function.update_apply] at hd
  split at hd
  · cases hd
    exact hds
  · exact h.dynptrs slot' ds' hd

end Stacks

/-! ## Operations on states -/

namespace AllHeld

variable {P Q : Nat → RegState → Prop} {D E : Nat → DynptrState → Prop} {st st' : VerifierState}

theorem setReg (h : AllHeld P D st) {r : Reg} {v : RegState} (hv : P st.curframe v) :
    AllHeld P D (st.setReg r v) := by
  refine ⟨fun r' => ?_, h.stack, h.saved⟩
  simp only [VerifierState.setReg, Function.update_apply]
  split
  · exact hv
  · exact h.regs r'

theorem clobberArgs (h : AllHeld P D st) (hu : P st.curframe .uninit) : AllHeld P D st.clobberArgs := by
  refine ⟨fun r => ?_, h.stack, h.saved⟩
  simp only [VerifierState.clobberArgs]
  split
  · exact hu
  · exact h.regs r

theorem mapCurrent (h : AllHeld P D st) {f : RegState → RegState}
    (hf : ∀ v, P st.curframe v → P st.curframe (f v)) : AllHeld P D (st.mapCurrent f) :=
  ⟨fun r => hf _ (h.regs r), h.stack.mapFullSpills hf fun _ h => h, h.saved⟩

theorem frameStack (h : AllHeld P D st) {pc : Nat} {s : StackState}
    (hs : frameStack st pc = .ok s) : StackOk (P pc) (D pc) s := by
  unfold RandVerifier.frameStack at hs
  split at hs
  · rename_i hk
    cases hs
    exact hk ▸ h.stack
  · split at hs
    · cases hs
    · split at hs
      · rename_i fr hfr
        cases hs
        exact (h.saved _ _ hfr).stack
      · cases hs

theorem setFrameStack (h : AllHeld P D st) {k : Nat} {s : StackState} (hs : StackOk (P k) (D k) s) :
    AllHeld P D (setFrameStack st k s) := by
  unfold RandVerifier.setFrameStack
  split
  · rename_i hk
    exact ⟨h.regs, hk ▸ hs, h.saved⟩
  · refine ⟨h.regs, h.stack, fun j fr hj => ?_⟩
    dsimp only at hj
    rw [Function.update_apply] at hj
    split at hj
    · rename_i hjk
      subst hjk
      obtain ⟨fr0, hfr0, rfl⟩ := Option.map_eq_some_iff.mp hj
      exact ⟨(h.saved j fr0 hfr0).regs, hs⟩
    · exact h.saved j fr hj

/-- The references are no part of what a state holds. -/
theorem congr (h : AllHeld P D st) (hr : st'.regs = st.regs) (hs : st'.stack = st.stack)
    (hsv : st'.saved = st.saved) (hc : st'.curframe = st.curframe) : AllHeld P D st' :=
  ⟨hr ▸ hc ▸ h.regs, hs ▸ hc ▸ h.stack, hsv ▸ h.saved⟩

theorem withRefs (h : AllHeld P D st) (refs : Nat → Nat) (refsCnt : Nat) :
    AllHeld P D { st with refs := refs, refsCnt := refsCnt } := ⟨h.regs, h.stack, h.saved⟩

theorem withStack (h : AllHeld P D st) {s : StackState} (hs : StackOk (P st.curframe) (D st.curframe) s) :
    AllHeld P D { st with stack := s } := ⟨h.regs, hs, h.saved⟩

theorem imp (h : AllHeld P D st) (hpq : ∀ k v, P k v → Q k v) (hde : ∀ k ds, D k ds → E k ds) :
    AllHeld Q E st := by
  refine ⟨fun r => hpq _ _ (h.regs r), ⟨fun s v ha hv => hpq _ _ (h.stack.spills s v ha hv),
    fun s ds hd => hde _ _ (h.stack.dynptrs s ds hd)⟩, fun k fr hfr => ?_⟩
  have hk := h.saved k fr hfr
  exact ⟨fun r => hpq _ _ (hk.regs r), ⟨fun s v ha hv => hpq _ _ (hk.stack.spills s v ha hv),
    fun s ds hd => hde _ _ (hk.stack.dynptrs s ds hd)⟩⟩

end AllHeld

/-! ## Closed predicates -/

/-- A value that names no frame, no map and no reference. -/
def RegState.isPlain : RegState → Bool
  | .ptrToStack .. | .ptrToMap .. | .ptrToMapValue .. | .ptrToMapValueOrNull .. => false
  | .ptrToMem .. | .ptrToMemOrNull .. | .ptrToBtfId .. => false
  | _ => true

/-- What a predicate on the values of each frame must be closed under to survive every
    instruction but the calls. -/
structure Closed (P : Nat → RegState → Prop) : Prop where
  plain : ∀ k v, v.isPlain = true → P k v
  stackArith : ∀ k lo hi al f lo' hi' al', P k (.ptrToStack lo hi al f) → P k (.ptrToStack lo' hi' al' f)
  mapArith : ∀ k lo hi al vs id lo' hi' al' id', P k (.ptrToMapValue lo hi al vs id) →
    P k (.ptrToMapValue lo' hi' al' vs id')
  /-- The valid side of a NULL check of a lookup. -/
  validLookup : ∀ k vs id, P k (.ptrToMapValueOrNull vs id) → P k (.ptrToMapValue 0 0 0 vs id)
  /-- A load through a pointer into frame `f`. -/
  load : ∀ k lo hi al f v, P k (.ptrToStack lo hi al f) → P f v → P k v
  /-- A store into frame `f`; a stack pointer goes to the current frame only. -/
  store : ∀ k lo hi al f v, P k (.ptrToStack lo hi al f) → P k v →
    (v.isPtrToStack = true → f = k) → P f v
  /-- The valid side of a NULL check of an acquired buffer. -/
  validMem : ∀ k id par sz hi par', P k (.ptrToMemOrNull id par sz) →
    (hi = wrapI32 (sz - 8 : Nat) ∧ par' = par ∨ hi = 0 ∧ par' = 0) → P k (.ptrToMem 0 hi 0 id par')

/-- Closed under subprogram calls as well: arguments, and the callee's R10. -/
structure ClosedCall (P : Nat → RegState → Prop) : Prop extends Closed P where
  arg : ∀ k v, P k v → P (k + 1) v
  callee : ∀ k, P k (.ptrToStack 0 0 0 k)

section Values

variable {P : Nat → RegState → Prop} {st : VerifierState} {pc k : Nat}

theorem Closed.scalar (hP : Closed P) (b : ScalarBounds) : P k (.scalar b) := hP.plain k _ rfl

/-! ### ALU results -/

theorem addScalarToStackPtr_ok (hP : Closed P) {lo hi : Int} {al f : Nat} {s : ScalarBounds}
    {v : RegState} (h : P k (.ptrToStack lo hi al f))
    (hv : addScalarToStackPtr pc lo hi al f s = .ok v) : P k v := by
  simp only [addScalarToStackPtr, bind_eq_ok] at hv
  obtain ⟨_, -, _, -, hv⟩ := hv
  cases hv
  exact hP.stackArith _ _ _ _ _ _ _ _ h

theorem addScalarToMapValuePtr_ok (hP : Closed P) {d : RegState} {lo hi : Int} {al sz : Nat}
    {id : Nat} {s : ScalarBounds} {v : RegState} (h : P k (.ptrToMapValue lo hi al sz id))
    (hv : addScalarToMapValuePtr pc d lo hi al sz s = .ok v) : P k v := by
  simp only [addScalarToMapValuePtr, bind_eq_ok] at hv
  obtain ⟨_, -, _, -, hv⟩ := hv
  cases hv
  exact hP.mapArith _ _ _ _ _ _ _ _ _ _ h

theorem addScalarToCtxPtr_ok (hP : Closed P) {off : Int} {op : AluOp} {s : ScalarBounds}
    {v : RegState} (hv : addScalarToCtxPtr pc off op s = .ok v) : P k v := by
  simp only [addScalarToCtxPtr, bind_eq_ok] at hv
  obtain ⟨_, -, _, -, hv⟩ := hv
  cases hv
  exact hP.plain _ _ rfl

theorem aluImmValue_ok (hP : Closed P) (h : RegsOk (P k) st.regs) {dst : Reg} {imm : Int32}
    {op : AluOp} {width : AluWidth} {v : RegState}
    (hv : aluImmValue pc st dst imm op width = .ok v) : P k v := by
  simp only [aluImmValue, bind_eq_ok, readReg_eq_ok] at hv
  obtain ⟨_, -, w, ⟨hw, -⟩, hv⟩ := hv
  have hdst : P k w := hw ▸ h dst
  split at hv
  · cases hv
    exact hP.scalar _
  · simp only [bind_eq_ok] at hv
    obtain ⟨_, -, _, -, _, -, hv⟩ := hv
    cases hv
    exact hP.stackArith _ _ _ _ _ _ _ _ hdst
  · simp only [bind_eq_ok] at hv
    obtain ⟨_, -, _, -, hv⟩ := hv
    cases hv
    exact hP.plain _ _ rfl
  · exact (fail_ne_ok.mp hv).elim
  · simp only [bind_eq_ok] at hv
    obtain ⟨_, -, _, -, _, -, hv⟩ := hv
    cases hv
    exact hP.mapArith _ _ _ _ _ _ _ _ _ _ hdst
  · exact (fail_ne_ok.mp hv).elim
  · exact (fail_ne_ok.mp hv).elim
  · exact (fail_ne_ok.mp hv).elim
  · exact (fail_ne_ok.mp hv).elim
  · cases hv

theorem aluScalarReg_ok (hP : Closed P) (h : RegsOk (P k) st.regs) {src : Reg} {d : ScalarBounds}
    {op : AluOp} {width : AluWidth} {v : RegState}
    (hv : aluScalarReg pc st src d op width = .ok v) : P k v := by
  have hscalar : ∀ v, aluScalars pc st src d op width = .ok v → P k v := by
    intro v hv
    simp only [aluScalars, bind_eq_ok] at hv
    obtain ⟨s, -, hv⟩ := hv
    cases hv
    exact hP.scalar _
  simp only [aluScalarReg] at hv
  split at hv
  · simp only [bind_eq_ok, readReg_eq_ok] at hv
    obtain ⟨w, ⟨hw, -⟩, hv⟩ := hv
    have hsrc : P k w := hw ▸ h src
    split at hv
    · simp only [bind_eq_ok] at hv
      obtain ⟨_, -, hv⟩ := hv
      exact addScalarToStackPtr_ok hP hsrc hv
    · exact addScalarToMapValuePtr_ok hP hsrc hv
    · exact addScalarToCtxPtr_ok hP hv
    · exact hscalar v hv
  · exact hscalar v hv

theorem aluRegValue_ok (hP : Closed P) (h : RegsOk (P k) st.regs) {dst src : Reg}
    {op : AluOp} {width : AluWidth} {v : RegState}
    (hv : aluRegValue pc st dst src op width = .ok v) : P k v := by
  simp only [aluRegValue, bind_eq_ok, readReg_eq_ok] at hv
  obtain ⟨w, ⟨hw, -⟩, hv⟩ := hv
  have hdst : P k w := hw ▸ h dst
  split at hv
  · simp only [bind_eq_ok] at hv
    obtain ⟨_, -, s, -, hv⟩ := hv
    exact addScalarToStackPtr_ok hP hdst hv
  · simp only [bind_eq_ok] at hv
    obtain ⟨_, -, s, -, hv⟩ := hv
    exact addScalarToCtxPtr_ok hP hv
  · simp only [bind_eq_ok] at hv
    obtain ⟨_, -, s, -, hv⟩ := hv
    exact addScalarToMapValuePtr_ok hP hdst hv
  · exact aluScalarReg_ok hP h hv
  · exact (fail_ne_ok.mp hv).elim

end Values

/-! ### Loads and stores -/

theorem stackByteIndex_eq {off : Int} (h1 : -512 ≤ off) (h2 : off < 0) :
    stackByteIndex off = (-off - 1).toNat := by
  unfold stackByteIndex
  omega

theorem stackByteRange_eq {a b : Int} (ha : -512 ≤ a) (hb : b ≤ 0) (hab : a < b) :
    stackByteRange a b = ((-b).toNat, (-a - 1).toNat) := by
  unfold stackByteRange
  rw [stackByteIndex_eq (by omega) (by omega), stackByteIndex_eq ha (by omega)]
  congr 2
  omega

theorem MemSize.bytes_pos (size : MemSize) : 0 < size.bytes := by cases size <;> decide

theorem MemSize.bytes_le (size : MemSize) : size.bytes ≤ 8 := by cases size <;> decide

/-- What the shared access checks establish. -/
theorem checkStackAccess_ok {pc : Nat} {base : Reg} {offset : Int16} {lo hi : Int} {al size : Nat}
    {u : Unit} (h : checkStackAccess pc base offset lo hi al size = .ok u) :
    al ≠ alignUnknown ∧ (al + offset.toInt) % size = 0 ∧ (lo + offset.toInt) % size = 0 ∧
      -512 ≤ lo + offset.toInt ∧ hi + offset.toInt + size ≤ 0 := by
  simp only [checkStackAccess, bind_eq_ok, failIf_eq_ok, not_or, not_not, not_lt] at h
  obtain ⟨_, h1, _, ⟨h2, h3⟩, h4, h5⟩ := h
  exact ⟨h1, h2, h3, h4, h5⟩

/-- A value a fixed read yields: a scalar, or the register of a full spill. -/
theorem fixedStackRead_cases {pc : Nat} {base : Reg} {offset : Int16} {stack : StackState}
    {lo hi size : Nat} {minOff : Int} {se : Bool} {v : RegState}
    (h : fixedStackRead pc base offset stack lo hi minOff size se = .ok v) :
    v.isScalar = true ∨
      (size = 8 ∧ allIn lo hi (fun i => stack.bytes i == .spill) = true ∧
        stack.spilled (hi / 8) = some v) := by
  have hwalk : ∀ v, byteWalk pc offset stack lo hi (hi / 8) = .ok v → v.isScalar = true := by
    intro v hv
    unfold byteWalk at hv
    split at hv
    · exact (fail_ne_ok.mp hv).elim
    · split at hv <;> cases hv <;> rfl
  simp only [fixedStackRead] at h
  split at h
  · rename_i hall
    split at h
    · exact .inl (hwalk v h)
    · rename_i w hw
      split at h
      · rename_i hsize
        cases h
        exact .inr ⟨hsize, hall, hw⟩
      · split at h
        · split at h
          · cases h
            exact .inl rfl
          · exact .inl (hwalk v h)
        · exact (fail_ne_ok.mp h).elim
  · exact .inl (hwalk v h)

theorem isPlain_of_isScalar {v : RegState} (h : v.isScalar = true) : v.isPlain = true := by
  cases v <;> simp_all [RegState.isScalar, RegState.isPlain]

/-- The value of a load: a scalar, or a full spill of the frame the base points to. -/
theorem stackRead_cases {pc : Nat} {base : Reg} {st : VerifierState} {offset : Int16}
    {size : MemSize} {se : Bool} {v : RegState} (h : stackRead pc base st offset size se = .ok v) :
    v.isScalar = true ∨ ∃ lo al f stack slot, st.regs base = .ptrToStack lo lo al f ∧
      frameStack st f = .ok stack ∧ stack.slotAll slot .spill = true ∧
      stack.spilled slot = some v := by
  simp only [stackRead, bind_eq_ok, readReg_eq_ok] at h
  obtain ⟨w, ⟨hw, -⟩, h⟩ := h
  split at h
  · rename_i lo hi al f
    simp only [bind_eq_ok] at h
    obtain ⟨_, hchk, stack, hstack, h⟩ := h
    obtain ⟨-, -, hal, hmin, hmax⟩ := checkStackAccess_ok hchk
    split at h
    · rename_i heq
      subst heq
      rcases fixedStackRead_cases h with hs | ⟨hsize, hall, hv⟩
      · exact .inl hs
      · refine .inr ⟨lo, al, f, stack, _, hw, hstack, ?_, hv⟩
        rw [stackByteRange_eq hmin hmax (by omega)] at hall ⊢
        rw [hsize] at hal
        rw [allIn_iff] at hall
        rw [StackState.slotAll_iff]
        intro i hi
        exact beq_iff_eq.mp (hall i (by dsimp only at hi ⊢; omega) (by dsimp only at hi ⊢; omega))
    · simp only [variableStackRead, bind_eq_ok] at h
      obtain ⟨_, -, h⟩ := h
      cases h
      exact .inl rfl
  · simp only [bind_eq_ok] at h
    obtain ⟨_, -, h⟩ := h
    cases h
    exact .inl rfl
  · simp only [bind_eq_ok] at h
    obtain ⟨_, -, h⟩ := h
    cases h
    exact .inl rfl
  · exact (fail_ne_ok.mp h).elim

section Memory

variable {P : Nat → RegState → Prop} {D : Nat → DynptrState → Prop} {st st' : VerifierState} {pc k : Nat}

theorem stackRead_ok (hP : Closed P) (h : AllHeld P D st) {base : Reg} {offset : Int16}
    {size : MemSize} {se : Bool} {v : RegState}
    (hv : stackRead pc base st offset size se = .ok v) : P st.curframe v := by
  rcases stackRead_cases hv with hs | ⟨lo, al, f, stack, slot, hb, hstack, hall, hsp⟩
  · exact hP.plain _ _ (isPlain_of_isScalar hs)
  · exact hP.load _ lo lo al f v (hb ▸ h.regs base) ((h.frameStack hstack).spills slot v hall hsp)

theorem ctxRead_isScalar {progType : ProgType} {off : Int} {size : MemSize} {se : Bool}
    {v : RegState} (h : ctxRead pc progType off size se = .ok v) : v.isScalar = true := by
  unfold ctxRead at h
  split at h
  · cases h
    rfl
  all_goals exact (fail_ne_ok.mp h).elim

theorem ldMem_ok (hP : Closed P) (h : AllHeld P D st) {dst base : Reg} {offset : Int16}
    {size : MemSize} {se : Bool} (hs : ldMem pc st dst base offset size se = .ok st') :
    AllHeld P D st' := by
  simp only [ldMem, bind_eq_ok] at hs
  obtain ⟨v, hv, hs⟩ := hs
  cases hs
  refine h.setReg ?_
  unfold loadValue at hv
  split at hv
  · exact hP.plain _ _ (isPlain_of_isScalar (ctxRead_isScalar hv))
  · exact stackRead_ok hP h hv

theorem storeValue_ok (hP : Closed P) (h : RegsOk (P k) st.regs) {src : StoreSrc} {v : RegState}
    (hv : storeValue pc st src = .ok v) : P k v := by
  cases src with
  | reg src =>
    obtain ⟨rfl, -⟩ := readReg_eq_ok.mp hv
    exact h src
  | imm imm =>
    cases hv
    exact hP.scalar _

theorem killMemAlias_ok (hP : Closed P) {id : Nat} {v : RegState} (h : P k v) :
    P k (killMemAlias id v) := by
  unfold killMemAlias
  split
  · exact hP.scalar _
  · exact h

/-- The slices of a destroyed dynptr: the state and the stack keep their values otherwise. -/
theorem destroySlices_ok (hP : Closed P) (h : AllHeld P D st) {f : Nat} {stack : StackState}
    (hs : StackOk (P f) (D f) stack) (d : Option Nat) :
    AllHeld P D (destroySlices st stack d).1 ∧ StackOk (P f) (D f) (destroySlices st stack d).2 ∧
      (destroySlices st stack d).1.curframe = st.curframe := by
  cases d with
  | none => exact ⟨h, hs, rfl⟩
  | some did =>
    refine ⟨⟨fun r => killMemAlias_ok hP (h.regs r), h.stack, h.saved⟩, ?_, rfl⟩
    exact hs.mapFullSpills (fun v hv => killMemAlias_ok hP hv) fun _ h => h

theorem frameStackWrite_ok (hP : Closed P) (h : AllHeld P D st) {base : Reg} {offset : Int16}
    {size : Nat} {src : StoreSrc} {lo hi : Int} {al f : Nat} (hb : P st.curframe (.ptrToStack lo hi al f))
    (hsize : 0 < size ∧ size ≤ 8) (hmin : -512 ≤ lo + offset.toInt)
    (hmax : hi + offset.toInt + size ≤ 0)
    (hs : frameStackWrite pc base st offset size src lo hi f = .ok st') : AllHeld P D st' := by
  simp only [frameStackWrite, bind_eq_ok] at hs
  obtain ⟨stack0, hstack, hs⟩ := hs
  split at hs
  · cases hs
  · set bl := stackByteRange (lo + offset.toInt) (hi + offset.toInt + size) with hbl
    obtain ⟨hn, hst, hcur⟩ := destroySlices_ok hP h
      ((h.frameStack hstack).destroyDynptrs bl.1 bl.2)
      (destroyedDynptr stack0 bl.1 bl.2)
    split at hs
    · rename_i hfix
      simp only [bind_eq_ok, fixedStackWrite, failIf_eq_ok] at hs
      obtain ⟨v, hv, _, -, _, hframe, hs⟩ := hs
      cases hs
      have hPv := storeValue_ok hP h.regs hv
      refine hn.setFrameStack (hst.spill ?_ (hP.store _ lo hi al f v hb hPv fun hptr => ?_))
      · rw [hbl, stackByteRange_eq hmin hmax (by omega)]
        dsimp only
        omega
      · rw [hcur] at hframe
        by_contra hne
        exact hframe ⟨hptr, hne⟩
    · split at hs
      · exact (fail_ne_ok.mp hs).elim
      · simp only [bind_eq_ok] at hs
        obtain ⟨v, -, hs⟩ := hs
        cases hs
        refine hn.setFrameStack (hst.scrub ?_)
        split <;> decide

theorem stackWrite_ok (hP : Closed P) (h : AllHeld P D st) {base : Reg} {offset : Int16}
    {size : MemSize} {src : StoreSrc} (hs : stackWrite pc base st offset size src = .ok st') :
    AllHeld P D st' := by
  simp only [stackWrite, bind_eq_ok, readReg_eq_ok] at hs
  obtain ⟨w, ⟨hw, -⟩, hs⟩ := hs
  split at hs
  · simp only [bind_eq_ok] at hs
    obtain ⟨_, hchk, hs⟩ := hs
    obtain ⟨-, -, -, hmin, hmax⟩ := checkStackAccess_ok hchk
    exact frameStackWrite_ok hP h (hw ▸ h.regs base) ⟨size.bytes_pos, size.bytes_le⟩ hmin hmax hs
  · simp only [bind_eq_ok] at hs
    obtain ⟨_, -, _, -, hs⟩ := hs
    cases hs
    exact h
  · simp only [bind_eq_ok] at hs
    obtain ⟨_, -, _, -, hs⟩ := hs
    cases hs
    exact h
  · exact (fail_ne_ok.mp hs).elim

end Memory

/-! ### Moves, atomics and subprogram calls -/

section Steps

variable {P : Nat → RegState → Prop} {D : Nat → DynptrState → Prop} {st st' : VerifierState} {pc k : Nat}

theorem setScalar_ok (hP : Closed P) (h : AllHeld P D st) {dst : Reg} (b : ScalarBounds) :
    AllHeld P D (st.setReg dst (.scalar b)) := h.setReg (hP.scalar b)

theorem movReg_ok (hP : Closed P) (h : AllHeld P D st) {dst src : Reg}
    (hs : movReg pc st dst src = .ok st') : AllHeld P D st' := by
  simp only [movReg, bind_eq_ok, readReg_eq_ok] at hs
  obtain ⟨v, ⟨hv, -⟩, hs⟩ := hs
  split at hs
  · split at hs
    · cases hs
      exact (setScalar_ok hP h _).setReg (hP.scalar _)
    · cases hs
      exact h.setReg (hP.scalar _)
  · cases hs
    exact h.setReg (hv ▸ h.regs src)

theorem mov32Reg_ok (hP : Closed P) (h : AllHeld P D st) {dst src : Reg}
    (hs : mov32Reg pc st dst src = .ok st') : AllHeld P D st' := by
  simp only [mov32Reg, bind_eq_ok] at hs
  obtain ⟨b, -, hs⟩ := hs
  cases hs
  exact setScalar_ok hP h _

theorem aluImm_ok (hP : Closed P) (h : AllHeld P D st) {dst : Reg} {imm : Int32} {op : AluOp}
    {width : AluWidth} (hs : aluImm pc st dst imm op width = .ok st') : AllHeld P D st' := by
  simp only [aluImm, bind_eq_ok] at hs
  obtain ⟨v, hv, hs⟩ := hs
  cases hs
  exact h.setReg (aluImmValue_ok hP h.regs hv)

theorem aluReg_ok (hP : Closed P) (h : AllHeld P D st) {dst src : Reg} {op : AluOp}
    {width : AluWidth} (hs : aluReg pc st dst src op width = .ok st') : AllHeld P D st' := by
  simp only [aluReg, bind_eq_ok] at hs
  obtain ⟨v, hv, hs⟩ := hs
  cases hs
  exact h.setReg (aluRegValue_ok hP h.regs hv)

theorem mulImm_ok (hP : Closed P) (h : AllHeld P D st) {dst : Reg} {imm : Int32} {high : MulHigh}
    (hs : mulImm pc st dst imm high = .ok st') : AllHeld P D st' := by
  unfold mulImm at hs
  split at hs
  · exact aluImm_ok hP h hs
  · simp only [bind_eq_ok] at hs
    obtain ⟨d, -, hs⟩ := hs
    cases hs
    exact setScalar_ok hP h _

theorem mulReg_ok (hP : Closed P) (h : AllHeld P D st) {dst src : Reg} {high : MulHigh}
    (hs : mulReg pc st dst src high = .ok st') : AllHeld P D st' := by
  unfold mulReg at hs
  split at hs
  · exact aluReg_ok hP h hs
  · simp only [bind_eq_ok] at hs
    obtain ⟨d, -, s, -, hs⟩ := hs
    split at hs
    · cases hs
      exact setScalar_ok hP h _
    · exact (fail_ne_ok.mp hs).elim

theorem aluNeg_ok (hP : Closed P) (h : AllHeld P D st) {dst : Reg} {width : AluWidth}
    (hs : aluNeg pc st dst width = .ok st') : AllHeld P D st' := by
  simp only [aluNeg, bind_eq_ok] at hs
  obtain ⟨d, -, hs⟩ := hs
  cases hs
  exact setScalar_ok hP h _

theorem packetLoad_ok (hP : Closed P) (h : AllHeld P D st) (size : MemSize) :
    AllHeld P D (packetLoad st size) := setScalar_ok hP (h.clobberArgs (hP.plain _ _ rfl)) _

theorem storeOld_ok (h : AllHeld P D st) {src : Reg} {op : AtomicOp} {fetch : Bool} {old : RegState}
    (hold : P st.curframe old) : AllHeld P D (storeOld st src op fetch old) := by
  unfold storeOld
  split
  · exact h.setReg hold
  · split
    · exact h.setReg hold
    · exact h

theorem atomicStack_ok (hP : Closed P) (h : AllHeld P D st) {dst src : Reg} {offset : Int16}
    {size : MemSize} {op : AtomicOp} {fetch : Bool} {lo hi : Int} {al f : Nat}
    (hs : atomicStack pc st dst src offset size op fetch lo hi al f = .ok st') : AllHeld P D st' := by
  simp only [atomicStack, bind_eq_ok] at hs
  obtain ⟨_, -, _, -, old, hold, _, -, hs⟩ := hs
  cases hs
  set bl := stackByteRange (lo + offset.toInt) (hi + offset.toInt + size.bytes)
  have hclear : AllHeld P D { st with stack := (st.stack.fill bl.1 bl.2 .misc).clearSpills bl.1 bl.2 } :=
    ⟨h.regs, (h.stack.fill (by decide)).clearSpills _ _, h.saved⟩
  refine storeOld_ok hclear ?_
  split
  · exact stackRead_ok hP h hold
  · exact hP.scalar _

theorem atomic_ok (hP : Closed P) (h : AllHeld P D st) {dst src : Reg} {offset : Int16}
    {size : MemSize} {op : AtomicOp} {fetch : Bool}
    (hs : atomic pc st dst src offset size op fetch = .ok st') : AllHeld P D st' := by
  simp only [atomic, bind_eq_ok] at hs
  obtain ⟨base, -, _, -, _, -, hs⟩ := hs
  split at hs
  · exact atomicStack_ok hP h hs
  · simp only [bind_eq_ok] at hs
    obtain ⟨_, -, hs⟩ := hs
    cases hs
    exact storeOld_ok h (hP.scalar _)
  · exact (fail_ne_ok.mp hs).elim

theorem callSubprogAt_eq_ok {callee : VerifierState} :
    callSubprogAt pc st = .ok callee ↔ st.callSubprog (pc + 1) = .ok callee := by
  unfold callSubprogAt
  split
  · rename_i h
    simp [h]
  · rename_i h
    simp [h, fail]

theorem callSubprog_ok (hP : ClosedCall P) (h : AllHeld P D st) {ret : Nat}
    (hs : st.callSubprog ret = .ok st') : AllHeld P D st' := by
  unfold VerifierState.callSubprog at hs
  split at hs
  · cases hs
  · cases hs
    refine ⟨fun r => ?_, StackOk.new, fun k fr hk => ?_⟩
    · dsimp only [VerifierState.calleeRegs]
      split
      · exact hP.arg _ _ (h.regs r)
      · split
        · exact hP.callee _
        · rename_i h1 h2
          have hr : initialRegState r = .uninit := by
            unfold initialRegState
            rw [if_neg (by rintro rfl; exact h1 (by decide)), if_neg h2]
          rw [hr]
          exact hP.plain _ _ rfl
    · dsimp only at hk
      rw [Function.update_apply] at hk
      split at hk
      · rename_i hkc
        cases hk
        exact hkc ▸ ⟨h.regs, h.stack⟩
      · exact h.saved k fr hk

/-! ### Branches -/

theorem syncReg_ok (hP : Closed P) {id : Nat} {kd : Int} {known : ScalarBounds} {v : RegState}
    (h : P k v) : P k (syncReg id kd known v) := by
  unfold syncReg
  split
  · split <;> exact hP.scalar _
  · exact h

theorem syncSpill_ok (hP : Closed P) {id : Nat} {kd : Int} {known : ScalarBounds} {v : RegState}
    (h : P k v) : P k (syncSpill id kd known v) := by
  unfold syncSpill
  split
  · split <;> exact hP.scalar _
  · exact h

theorem syncLinkedScalars_ok (hP : Closed P) (h : AllHeld P D st) {id : Nat} {kd : Int}
    {known : ScalarBounds} : AllHeld P D (syncLinkedScalars st id kd known) := by
  unfold syncLinkedScalars
  split
  · exact h
  · exact ⟨fun r => syncReg_ok hP (h.regs r),
      h.stack.mapFullSpills (fun v hv => syncSpill_ok hP hv) fun _ h => h, h.saved⟩

theorem refinedSide_ok (hP : Closed P) (h : AllHeld P D st) {dst : Reg} {srcReg : Option Reg}
    {d s : ScalarBounds} {r : RefinedPair} : AllHeld P D (refinedSide st dst srcReg d s r) := by
  have h1 : AllHeld P D (st.setReg dst (.scalar r.1)) := setScalar_ok hP h _
  cases srcReg with
  | none => exact syncLinkedScalars_ok hP h1
  | some src => exact syncLinkedScalars_ok hP (syncLinkedScalars_ok hP (setScalar_ok hP h1 _))

theorem scalarBranch_ok (hP : Closed P) (h : AllHeld P D st) {t f : Nat} {dst : Reg}
    {srcReg : Option Reg} {d s : ScalarBounds} {op : CondOp} {x : Succ}
    (hx : x ∈ scalarBranch t f dst srcReg d s op st) : AllHeld P D x.2 := by
  simp only [scalarBranch] at hx
  split at hx <;> simp only [List.mem_cons, List.not_mem_nil, or_false] at hx
  · subst hx
    exact refinedSide_ok hP h
  · subst hx
    exact refinedSide_ok hP h
  · rcases hx with rfl | rfl <;> exact refinedSide_ok hP h

/-- A rewrite of values to plain ones keeps a closed predicate. -/
theorem mapPlain_ok (hP : Closed P) {f : RegState → RegState}
    (hf : ∀ v, f v = v ∨ (f v).isPlain = true) {v : RegState} (h : P k v) : P k (f v) := by
  rcases hf v with heq | hplain
  · exact heq.symm ▸ h
  · exact hP.plain _ _ hplain

theorem nullLookup_plain {id : Nat} (v : RegState) :
    nullLookup id v = v ∨ (nullLookup id v).isPlain = true := by
  unfold nullLookup
  split
  · exact .inr rfl
  · exact .inl rfl

theorem validLookup_ok (hP : Closed P) {id : Nat} {v : RegState} (h : P k v) : P k (validLookup id v) := by
  unfold validLookup
  split
  · split
    · exact hP.validLookup _ _ _ h
    · exact h
  · exact h

theorem nullMem_plain {id : Nat} (v : RegState) :
    nullMem id v = v ∨ (nullMem id v).isPlain = true := by
  unfold nullMem
  split
  · exact .inr rfl
  · exact .inl rfl

theorem validMem_ok (hP : Closed P) {id : Nat} {v : RegState} (h : P k v) : P k (validMem id v) := by
  unfold validMem
  split
  · split
    · rename_i hid
      subst hid
      exact hP.validMem _ _ _ _ _ _ h (.inl ⟨rfl, rfl⟩)
    · exact h
  · exact h

theorem nullCheck_mem {t f : Nat} {op : CondOp} {a b : VerifierState} {x : Succ}
    (hx : x ∈ nullCheck t f op a b) : x.2 = a ∨ x.2 = b := by
  unfold nullCheck at hx
  split at hx <;> simp only [List.mem_cons, List.not_mem_nil, or_false] at hx <;>
    rcases hx with rfl | rfl <;> simp

theorem lookupNullCheck_ok (hP : Closed P) (h : AllHeld P D st) {t f : Nat} {op : CondOp} {r : Reg}
    {vs id : Nat} (hr : st.regs r = .ptrToMapValueOrNull vs id) {x : Succ}
    (hx : x ∈ lookupNullCheck t f op st r vs id) : AllHeld P D x.2 := by
  rcases nullCheck_mem hx with hx | hx <;> rw [hx]
  · exact setScalar_ok hP (h.mapCurrent fun v => mapPlain_ok hP nullLookup_plain) _
  · refine (h.mapCurrent fun v hv => validLookup_ok hP hv).setReg ?_
    exact hP.validLookup _ vs id (hr ▸ h.regs r)

/-- Dropping a reference changes no held value. -/
theorem dropRef_getD_ok (h : AllHeld P D st) (id : Nat) : AllHeld P D ((st.dropRef id).getD st) := by
  unfold VerifierState.dropRef
  cases (List.range st.refsCnt).find? fun i => st.refs i == id with
  | none => exact h
  | some i => exact h.congr rfl rfl rfl rfl

theorem memNullCheck_ok (hP : Closed P) (h : AllHeld P D st) {t f : Nat} {op : CondOp} {r : Reg}
    {id par sz : Nat} (hr : st.regs r = .ptrToMemOrNull id par sz) {x : Succ}
    (hx : x ∈ memNullCheck t f op st r id) : AllHeld P D x.2 := by
  rcases nullCheck_mem hx with hx | hx <;> rw [hx]
  · exact setScalar_ok hP ((dropRef_getD_ok h id).mapCurrent fun v => mapPlain_ok hP nullMem_plain) _
  · refine (h.mapCurrent fun v hv => validMem_ok hP hv).setReg ?_
    exact hP.validMem _ id par sz _ _ (hr ▸ h.regs r) (.inr ⟨rfl, rfl⟩)

theorem pointerScalarKind_nullMem {ptr : RegState} {b : ScalarBounds} {id : Nat}
    (h : pointerScalarKind ptr b = .nullMem id) :
    (∃ par sz, ptr = .ptrToMemOrNull id par sz) ∧ b.isZero = true := by
  cases ptr with
  | ptrToMemOrNull rid par sz =>
    simp only [pointerScalarKind] at h
    split at h
    · rename_i hz
      cases h
      exact ⟨⟨par, sz, rfl⟩, hz⟩
    · cases h
  | ptrToMapValueOrNull | ptrToMapValue =>
    simp only [pointerScalarKind] at h
    split at h <;> cases h
  | _ => cases h

theorem pointerScalarKind_nullLookup {ptr : RegState} {b : ScalarBounds} {vs id : Nat}
    (h : pointerScalarKind ptr b = .nullLookup vs id) : ptr = .ptrToMapValueOrNull vs id := by
  cases ptr with
  | ptrToMapValueOrNull =>
    simp only [pointerScalarKind] at h
    split at h <;> cases h
    rfl
  | ptrToMemOrNull | ptrToMapValue =>
    simp only [pointerScalarKind] at h
    split at h <;> cases h
  | _ => cases h

theorem cmpKind_nullLookup {d s : RegState} {vs id : Nat} (h : cmpKind d s = .nullLookup vs id) :
    ∃ b, (d = .ptrToMapValueOrNull vs id ∧ s = .scalar b) ∨
      (s = .ptrToMapValueOrNull vs id ∧ d = .scalar b) := by
  unfold cmpKind at h
  split at h
  · cases h
  · exact ⟨_, .inl ⟨pointerScalarKind_nullLookup h, rfl⟩⟩
  · exact ⟨_, .inr ⟨pointerScalarKind_nullLookup h, rfl⟩⟩
  all_goals cases h

/-- A NULL check compares a nullable pointer with the constant zero. -/
theorem cmpKind_nullMem {d s : RegState} {id : Nat} (h : cmpKind d s = .nullMem id) :
    ∃ par sz b, b.isZero = true ∧ ((d = .ptrToMemOrNull id par sz ∧ s = .scalar b) ∨
      (s = .ptrToMemOrNull id par sz ∧ d = .scalar b)) := by
  unfold cmpKind at h
  split at h
  · cases h
  · obtain ⟨⟨par, sz, rfl⟩, hz⟩ := pointerScalarKind_nullMem h
    exact ⟨par, sz, _, hz, .inl ⟨rfl, rfl⟩⟩
  · obtain ⟨⟨par, sz, rfl⟩, hz⟩ := pointerScalarKind_nullMem h
    exact ⟨par, sz, _, hz, .inr ⟨rfl, rfl⟩⟩
  all_goals cases h

/-- The register of a NULL check holds the pointer. -/
theorem ptrRegOf_eq {st : VerifierState} {dst r : Reg} {srcReg : Option Reg} {d s p : RegState}
    (hd : st.regs dst = d) (hs : ∀ src, srcReg = some src → st.regs src = s)
    (hp : (d = p ∧ d.isScalar = false) ∨ (s = p ∧ d.isScalar = true))
    (hr : ptrRegOf dst srcReg (d.isScalar = false) = .ok r) : st.regs r = p := by
  rcases hp with ⟨rfl, hk⟩ | ⟨rfl, hk⟩
  · simp only [ptrRegOf, hk, decide_true, if_true, Except.ok.injEq] at hr
    exact hr ▸ hd
  · cases srcReg with
    | none => simp [ptrRegOf, hk] at hr
    | some src =>
      simp only [ptrRegOf, hk, Bool.true_eq_false, decide_false, Bool.false_eq_true, if_false,
        Except.ok.injEq] at hr
      exact hr ▸ hs src rfl

theorem condBranchImpl_ok (hP : Closed P) (h : AllHeld P D st) {dst : Reg} {srcReg : Option Reg}
    {srcState : RegState} {offset : Int16} {op : CondOp} {l : List Succ} {x : Succ}
    (hsrc : ∀ src, srcReg = some src → st.regs src = srcState)
    (hl : condBranchImpl pc dst srcReg srcState offset op st = .ok l) (hx : x ∈ l) :
    AllHeld P D x.2 := by
  have hboth : ∀ t f : Nat, x ∈ [(t, st), (f, st)] → AllHeld P D x.2 := by
    intro t f hx
    simp only [List.mem_cons, List.not_mem_nil, or_false] at hx
    rcases hx with rfl | rfl <;> exact h
  simp only [condBranchImpl, bind_eq_ok, readReg_eq_ok] at hl
  obtain ⟨d, ⟨hd, -⟩, hl⟩ := hl
  split at hl
  · cases hl
    exact scalarBranch_ok hP h hx
  · rename_i vs id hk
    simp only [bind_eq_ok] at hl
    obtain ⟨_, -, r, hr, hl⟩ := hl
    cases hl
    obtain ⟨b, hk⟩ := cmpKind_nullLookup hk
    have hreg : st.regs r = .ptrToMapValueOrNull vs id := by
      refine ptrRegOf_eq hd hsrc ?_ hr
      rcases hk with ⟨rfl, -⟩ | ⟨rfl, rfl⟩
      · exact .inl ⟨rfl, rfl⟩
      · exact .inr ⟨rfl, rfl⟩
    exact lookupNullCheck_ok hP h hreg hx
  · rename_i id hk
    simp only [bind_eq_ok] at hl
    obtain ⟨_, -, r, hr, hl⟩ := hl
    cases hl
    obtain ⟨par, sz, b, -, hk⟩ := cmpKind_nullMem hk
    have hreg : st.regs r = .ptrToMemOrNull id par sz := by
      refine ptrRegOf_eq hd hsrc ?_ hr
      rcases hk with ⟨rfl, -⟩ | ⟨rfl, rfl⟩
      · exact .inl ⟨rfl, rfl⟩
      · exact .inr ⟨rfl, rfl⟩
    exact memNullCheck_ok hP h hreg hx
  · simp only [bind_eq_ok] at hl
    obtain ⟨_, -, hl⟩ := hl
    cases hl
    exact hboth _ _ hx
  · simp only [bind_eq_ok] at hl
    obtain ⟨_, -, hl⟩ := hl
    cases hl
    exact hboth _ _ hx
  · cases hl
    exact hboth _ _ hx
  · cases hl
  · exact (fail_ne_ok.mp hl).elim

theorem condBranch_ok (hP : Closed P) (h : AllHeld P D st) {dst src : Reg} {offset : Int16}
    {op : CondOp} {l : List Succ} {x : Succ} (hl : condBranch pc dst src offset op st = .ok l)
    (hx : x ∈ l) : AllHeld P D x.2 := by
  simp only [condBranch, bind_eq_ok, readReg_eq_ok] at hl
  obtain ⟨s, ⟨hs, -⟩, hl⟩ := hl
  split at hl
  · cases hl
    rw [List.mem_singleton] at hx
    subst hx
    split <;> exact h
  · exact condBranchImpl_ok hP h (fun r hr => by cases hr; exact hs) hl hx

theorem condBranchImm_ok (hP : Closed P) (h : AllHeld P D st) {dst : Reg} {imm : Int32}
    {offset : Int16} {op : CondOp} {l : List Succ} {x : Succ}
    (hl : condBranchImm pc dst imm offset op st = .ok l) (hx : x ∈ l) : AllHeld P D x.2 :=
  condBranchImpl_ok hP h (fun r hr => by cases hr) hl hx

theorem branchOrBoth_ok (h : AllHeld P D st) {offset : Int16} {taken : Option Bool} {x : Succ}
    (hx : x ∈ branchOrBoth pc offset taken st) : AllHeld P D x.2 := by
  unfold branchOrBoth at hx
  split at hx <;> simp only [List.mem_cons, List.not_mem_nil, or_false] at hx
  · subst hx
    exact h
  · subst hx
    exact h
  · rcases hx with rfl | rfl <;> exact h

theorem jsetNotTaken_ok (hP : Closed P) (h : AllHeld P D st) {dst : Reg} {imm : Int32} :
    AllHeld P D (jsetNotTaken dst imm st) := by
  unfold jsetNotTaken
  split
  · exact setScalar_ok hP h _
  · exact h

/-- A helper or a kfunc call. -/
def BpfInsn.isRuntimeCall : BpfInsn → Bool
  | .call _ | .callKfunc _ => true
  | _ => false

/-- The map pointer an instruction loads. -/
def BpfInsn.mapLoaded : BpfInsn → Option RegState
  | .ldMapFd _ _ keySize valueSize mapType => some (.ptrToMap keySize valueSize mapType)
  | .ldMapValue _ _ offset _ valueSize => some (mapValueAt offset valueSize)
  | _ => none

/-- An instruction with one successor that is no call keeps a closed predicate. -/
theorem step_ok (hP : Closed P) (h : AllHeld P D st) {insn : BpfInsn}
    (hload : ∀ v, insn.mapLoaded = some v → P st.curframe v) (hcall : insn.isRuntimeCall = false)
    (hsub : insn.isCallSub = false) (hs : step pc st insn = .ok st') : AllHeld P D st' := by
  cases insn with
  | movImm | mov32Imm | ldImm64 =>
    cases hs
    exact setScalar_ok hP h _
  | ldMapFd | ldMapValue =>
    cases hs
    exact h.setReg (hload _ rfl)
  | ldImm64Second =>
    cases hs
    exact h
  | mov32Reg => exact mov32Reg_ok hP h hs
  | ldAbs =>
    simp only [step, bind_eq_ok] at hs
    obtain ⟨_, -, hs⟩ := hs
    cases hs
    exact packetLoad_ok hP h _
  | ldInd =>
    simp only [step, bind_eq_ok] at hs
    obtain ⟨_, -, _, -, hs⟩ := hs
    cases hs
    exact packetLoad_ok hP h _
  | atomic => exact atomic_ok hP h hs
  | movReg => exact movReg_ok hP h hs
  | callSub => cases hsub
  | call | callKfunc => cases hcall
  | exit | jmp | jeq | jne | jgt | jge | jlt | jle | jsgt | jsge | jslt | jsle | jeqImm | jneImm
  | jgtImm | jgeImm | jltImm | jleImm | jsgtImm | jsgeImm | jsltImm | jsleImm => cases hs
  | jset | jsetImm | jmp32 => exact (fail_ne_ok.mp hs).elim
  | addImm | subImm | andImm | orImm | xorImm | lshImm | rshImm | arshImm | add32Imm | sub32Imm
  | and32Imm | or32Imm | xor32Imm | lsh32Imm | rsh32Imm | arsh32Imm | divImm | modImm | mul32Imm
  | div32Imm | mod32Imm => exact aluImm_ok hP h hs
  | addReg | subReg | andReg | orReg | xorReg | lshReg | rshReg | arshReg | add32Reg | sub32Reg
  | and32Reg | or32Reg | xor32Reg | lsh32Reg | rsh32Reg | arsh32Reg | divReg | modReg | mul32Reg
  | div32Reg | mod32Reg => exact aluReg_ok hP h hs
  | mulImm => exact mulImm_ok hP h hs
  | mulReg => exact mulReg_ok hP h hs
  | neg | neg32 => exact aluNeg_ok hP h hs
  | stMem | stMemImm => exact stackWrite_ok hP h hs
  | ldMem => exact ldMem_ok hP h hs

/-- Every successor of an instruction that is no call keeps a closed predicate. -/
theorem successors_ok (hP : Closed P) (h : AllHeld P D st) {insn : BpfInsn}
    (hload : ∀ v, insn.mapLoaded = some v → P st.curframe v) (hcall : insn.isRuntimeCall = false)
    (hsub : insn.isCallSub = false) {l : List Succ} (hl : successors pc insn st = .ok l) {x : Succ}
    (hx : x ∈ l) : AllHeld P D x.2 := by
  have hstep : ∀ insn : BpfInsn, (∀ v, insn.mapLoaded = some v → P st.curframe v) →
      insn.isRuntimeCall = false → insn.isCallSub = false →
      (do
        let next ← step pc st insn
        Except.ok [(pc + 1, next)] : Exec (List Succ)) = .ok l → AllHeld P D x.2 := by
    intro insn hload hcall hsub hl
    simp only [bind_eq_ok] at hl
    obtain ⟨next, hs, hl⟩ := hl
    cases hl
    rw [List.mem_singleton] at hx
    subst hx
    exact step_ok hP h hload hcall hsub hs
  cases insn with
  | exit =>
    cases hl
    cases hx
  | jmp =>
    cases hl
    rw [List.mem_singleton] at hx
    subst hx
    exact h
  | callSub => cases hsub
  | jeq | jne | jgt | jge | jlt | jle | jsgt | jsge | jslt | jsle => exact condBranch_ok hP h hl hx
  | jeqImm | jneImm | jgtImm | jgeImm | jltImm | jleImm | jsgtImm | jsgeImm | jsltImm | jsleImm =>
    exact condBranchImm_ok hP h hl hx
  | jset =>
    simp only [successors, bind_eq_ok] at hl
    obtain ⟨_, -, _, -, hl⟩ := hl
    cases hl
    exact branchOrBoth_ok h hx
  | jsetImm =>
    simp only [successors, bind_eq_ok] at hl
    obtain ⟨_, -, hl⟩ := hl
    split at hl <;> cases hl <;> simp only [List.mem_cons, List.not_mem_nil, or_false] at hx
    · subst hx
      exact h
    · subst hx
      exact h
    · rcases hx with rfl | rfl
      · exact h
      · exact jsetNotTaken_ok hP h
  | jmp32 =>
    simp only [successors, bind_eq_ok] at hl
    obtain ⟨_, -, _, -, hl⟩ := hl
    cases hl
    exact branchOrBoth_ok h hx
  | _ => exact hstep _ hload hcall hsub hl

end Steps

end RandVerifier
