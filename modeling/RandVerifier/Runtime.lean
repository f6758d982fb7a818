/-
  RandVerifier.Runtime — what a helper or kfunc call does to a state.

  - `RuntimeEffect`: every way a call changes the references, the stack and R0.
  - `helperCall_effect`, `kfuncCall_effect`: a call that is accepted is one of them, with
    R1..R5 clobbered after it.
-/

import RandVerifier.Flow

namespace RandVerifier

/-! ## References -/

theorem acquireRef_eq_ok {pc : Nat} {st next : VerifierState} {id : Nat} :
    acquireRef pc st = .ok (id, next) ↔ st.refsCnt < maxRefs ∧ id = freshReferenceId st ∧
      next = { st with refs := Function.update st.refs st.refsCnt id, refsCnt := st.refsCnt + 1 } := by
  unfold acquireRef
  split
  · simp only [fail_ne_ok, false_iff, not_and]
    intro h
    omega
  · rename_i h
    simp only [Except.ok.injEq, Prod.mk.injEq]
    constructor
    · rintro ⟨rfl, rfl⟩
      exact ⟨by omega, rfl, rfl⟩
    · rintro ⟨-, rfl, rfl⟩
      exact ⟨rfl, rfl⟩

theorem releaseRef_eq_ok {pc : Nat} {st next : VerifierState} {id : Nat} :
    releaseRef pc st id = .ok next ↔
      ∃ dropped, st.dropRef id = some dropped ∧ next = dropped.invalidateReferenceAliases id := by
  unfold releaseRef
  split
  · rename_i d hd
    simp only [Except.ok.injEq, hd, Option.some.injEq, exists_eq_left']
    exact eq_comm
  · rename_i hd
    simp [hd, fail]

/-- A dropped reference was held; the last one takes its place. -/
theorem dropRef_eq_some {st next : VerifierState} {id : Nat} (h : st.dropRef id = some next) :
    ∃ i, i < st.refsCnt ∧ st.refs i = id ∧ next = { st with
      refs := Function.update st.refs i (st.refs (st.refsCnt - 1)), refsCnt := st.refsCnt - 1 } := by
  unfold VerifierState.dropRef at h
  obtain ⟨i, hi, rfl⟩ := Option.map_eq_some_iff.mp h
  refine ⟨i, List.mem_range.mp (List.mem_of_find?_eq_some hi), ?_, rfl⟩
  have hfound := List.find?_some hi
  exact beq_iff_eq.mp hfound

theorem heldMemId_eq_some {v : RegState} {id : Nat} (h : heldMemId v = some id) :
    refAlias id v = true := by
  unfold heldMemId at h
  split at h
  · split at h
    · cases h
    · cases h
      simp [refAlias, memAlias]
  · cases h

theorem heldBtfId_eq_some {v : RegState} {id : Nat} (h : heldBtfId v = some id) :
    refAlias id v = true := by
  unfold heldBtfId at h
  split at h
  · split at h
    · cases h
    · cases h
      simp [refAlias]
  · cases h

/-! ## Effects -/

/-- A runtime call before R1..R5 are clobbered. -/
inductive RuntimeEffect (pc : Nat) (st : VerifierState) : VerifierState → Prop
  /-- An acquired buffer or object in R0. -/
  | acquire {id : Nat} {next : VerifierState} {v : RegState} :
      acquireRef pc st = .ok (id, next) →
      ((∃ size, v = .ptrToMemOrNull id 0 size) ∨ ∃ btfId, v = .ptrToBtfId btfId id) →
      RuntimeEffect pc st (next.setReg 0 v)
  /-- The reference of R1 released. -/
  | release {id : Nat} {next : VerifierState} {b : ScalarBounds} :
      refAlias id (st.regs 1) = true → releaseRef pc st id = .ok next →
      RuntimeEffect pc st (next.setReg 0 (.scalar b))
  /-- A slice of a live dynptr in R0. -/
  | slice {slot size : Nat} {ds : DynptrState} : st.stack.dynptr slot = some ds →
      RuntimeEffect pc st (st.setReg 0 (.ptrToMemOrNull ds.id ds.id size))
  /-- A dynptr set up in the current frame, named after the call. -/
  | dynptr {lo hi slot size : Nat} {b : ScalarBounds} :
      RuntimeEffect pc st (VerifierState.setReg { st with stack := { st.stack.fill lo hi .dynptr with
        dynptr := Function.update st.stack.dynptr slot (some ⟨size, pc + 1⟩) } } 0 (.scalar b))
  /-- A buffer of the current frame filled. -/
  | buffer {lo hi : Nat} {b : ScalarBounds} :
      RuntimeEffect pc st (VerifierState.setReg { st with stack := st.stack.fill lo hi .misc } 0 (.scalar b))
  /-- The result of a lookup, named after the call. -/
  | lookup {keySize valueSize mapType : Nat} : st.regs 1 = .ptrToMap keySize valueSize mapType →
      RuntimeEffect pc st (st.setReg 0 (.ptrToMapValueOrNull valueSize (pc + 1)))
  | scalar {b : ScalarBounds} : RuntimeEffect pc st (st.setReg 0 (.scalar b))

namespace VerifierState

theorem setReg_setReg (st : VerifierState) (r : Reg) (v w : RegState) :
    (st.setReg r v).setReg r w = st.setReg r w := by
  simp only [setReg, Function.update_idem]

theorem clobberArgs_setReg_zero (st : VerifierState) (v : RegState) :
    st.clobberArgs.setReg 0 v = (st.setReg 0 v).clobberArgs := by
  simp only [setReg, clobberArgs, mk.injEq, and_self, and_true]
  funext r
  rw [Function.update_apply, Function.update_apply]
  split
  · rename_i h
    subst h
    rw [if_neg (by decide)]
  · rfl

end VerifierState

theorem dynptrSlotOf_eq_ok {pc : Nat} {st : VerifierState} {reg : Reg} {argno spi : Nat}
    {ds : DynptrState} (h : dynptrSlotOf pc st reg argno = .ok (spi, ds)) :
    st.stack.dynptr spi = some ds := by
  unfold dynptrSlotOf at h
  dsimp only at h
  split at h
  · simp only [bind_eq_ok] at h
    obtain ⟨_, -, _, -, _, -, h⟩ := h
    split at h
    · rename_i hds
      cases h
      exact hds
    · exact (fail_ne_ok.mp h).elim
  · exact (fail_ne_ok.mp h).elim

theorem initStackBuffer_cases {pc : Nat} {st next : VerifierState} {lo hi len : Int}
    (h : initStackBuffer pc st lo hi len = .ok next) :
    next = st ∨ ∃ a b, next = { st with stack := st.stack.fill a b .misc } := by
  simp only [initStackBuffer, bind_eq_ok] at h
  obtain ⟨_, -, h⟩ := h
  split at h
  · cases h
    exact .inl rfl
  · simp only [bind_eq_ok] at h
    obtain ⟨_, -, h⟩ := h
    cases h
    exact .inr ⟨_, _, rfl⟩

/-- The prototypes that return no scalar acquire, look up or slice. -/
theorem helperPrototype_returns {imm : Int32} {helper : HelperPrototype}
    (h : helperPrototype imm = some helper) :
    (∃ b, helper.returnType = .scalar b) ∨ imm = 1 ∨ helperAcquiresRef imm = true ∨ imm = 203 := by
  have hval : ∀ n : Int32, imm.toInt = n.toInt → imm = n := fun n h => Int32.toInt_inj.mp h
  unfold helperPrototype at h
  split at h
  case h_1 e => exact .inr (.inl (hval 1 e))
  case h_7 e => exact .inr (.inr (.inl (by rw [hval 131 e]; rfl)))
  case h_11 e => exact .inr (.inr (.inr (hval 203 e)))
  all_goals first
    | (cases h; exact .inl ⟨_, rfl⟩)
    | cases h

theorem kfuncPrototype_returns {btfId : Int32} {proto : KfuncPrototype}
    (h : kfuncPrototype btfId = some proto) :
    (∃ b, proto.returnType = .scalar b) ∨ proto.acquiresRef = true := by
  unfold kfuncPrototype at h
  split at h
  · cases h
    exact .inl ⟨_, rfl⟩
  · cases h
    exact .inr rfl
  · cases h
    exact .inr rfl
  · cases h

/-- The dynptr helpers: a slice in R0, a dynptr, a filled buffer or nothing. -/
theorem dynptrHelperCall_cases {pc : Nat} {imm : Int32} {st next : VerifierState}
    (hd : isDynptrHelper imm = true) (h : dynptrHelperCall pc imm st = .ok next) :
    (imm = 203 ∧ ∃ slot ds size, st.stack.dynptr slot = some ds ∧
      next = st.setReg 0 (.ptrToMemOrNull ds.id ds.id size)) ∨
    (imm ≠ 203 ∧ (next = st ∨ (∃ lo hi, next = { st with stack := st.stack.fill lo hi .misc }) ∨
      ∃ lo hi slot size, next = { st with stack := { st.stack.fill lo hi .dynptr with
        dynptr := Function.update st.stack.dynptr slot (some ⟨size, pc + 1⟩) } })) := by
  have himm : imm = 197 ∨ imm = 201 ∨ imm = 202 ∨ imm = 203 := by
    simpa [isDynptrHelper, or_assoc] using hd
  rcases himm with rfl | rfl | rfl | rfl
  · refine .inr ⟨by decide, .inr (.inr ?_)⟩
    change dynptrFromMem pc st = .ok next at h
    unfold dynptrFromMem at h
    split at h
    · exact (fail_ne_ok.mp h).elim
    · split at h
      · simp only [bind_eq_ok] at h
        obtain ⟨_, -, _, -, h⟩ := h
        cases h
        exact ⟨_, _, _, _, rfl⟩
      · cases h
  · refine .inr ⟨by decide, ?_⟩
    change dynptrRead pc st = .ok next at h
    simp only [dynptrRead, bind_eq_ok] at h
    obtain ⟨_, -, h⟩ := h
    split at h
    · rcases initStackBuffer_cases h with h | h
      · exact .inl h
      · exact .inr (.inl h)
    · cases h
      exact .inl rfl
  · refine .inr ⟨by decide, .inl ?_⟩
    change dynptrWrite pc st = .ok next at h
    simp only [dynptrWrite, bind_eq_ok] at h
    obtain ⟨_, -, h⟩ := h
    split at h
    · simp only [bind_eq_ok] at h
      obtain ⟨_, -, h⟩ := h
      cases h
      rfl
    · cases h
      rfl
  · refine .inl ⟨rfl, ?_⟩
    change dynptrData pc st = .ok next at h
    simp only [dynptrData, bind_eq_ok] at h
    obtain ⟨⟨spi, ds⟩, hslot, h⟩ := h
    cases h
    exact ⟨spi, ds, _, dynptrSlotOf_eq_ok hslot, rfl⟩

theorem checkMapHelperArgs_map {pc : Nat} {imm : Int32} {st : VerifierState} {u : Unit}
    (h : checkMapHelperArgs pc imm st = .ok u) :
    ∃ keySize valueSize mapType, st.regs 1 = .ptrToMap keySize valueSize mapType := by
  unfold checkMapHelperArgs at h
  split at h
  · exact ⟨_, _, _, by assumption⟩
  · exact (fail_ne_ok.mp h).elim

/-- The result of a call that is no lookup. -/
theorem lookupResult_of_ne {pc : Nat} {imm : Int32} {v : RegState} {next : VerifierState}
    (h : imm ≠ 1) : lookupResult pc imm v next = next := by
  unfold lookupResult
  split
  · rw [if_neg h]
  · rfl

/-- An accepted helper call is one of the effects, with R1..R5 clobbered. -/
theorem helperCall_effect {pc : Nat} {imm : Int32} {st st' : VerifierState}
    (h : helperCall pc imm st = .ok st') :
    ∃ next, RuntimeEffect pc st next ∧ st' = next.clobberArgs := by
  unfold helperCall at h
  split at h
  · exact (fail_ne_ok.mp h).elim
  · rename_i helper hproto
    simp only [bind_eq_ok, checkHelperCall] at h
    obtain ⟨_, ⟨_, htypes, -⟩, next, heff, h⟩ := h
    cases h
    by_cases h1 : imm = 1
    · -- a lookup: its result replaces the prototype's
      subst h1
      rw [checkHelperTypes, if_pos (.inl rfl)] at htypes
      obtain ⟨k, v, t, hmap⟩ := checkMapHelperArgs_map htypes
      cases heff
      refine ⟨_, .lookup hmap, ?_⟩
      simp only [lookupResult, hmap, if_true]
      rw [VerifierState.clobberArgs_setReg_zero, VerifierState.setReg_setReg]
    · rw [lookupResult_of_ne h1]
      refine ⟨next, ?_, rfl⟩
      simp only [helperEffect] at heff
      split at heff
      · simp only [bind_eq_ok] at heff
        obtain ⟨⟨id, next'⟩, hacq, heff⟩ := heff
        cases heff
        exact .acquire hacq (.inl ⟨_, rfl⟩)
      · rename_i hacq
        have hret : imm ≠ 203 → ∃ b, helper.returnType = .scalar b := by
          intro h203
          rcases helperPrototype_returns hproto with hb | hb | hb | hb
          · exact hb
          · exact absurd hb h1
          · exact absurd hb hacq
          · exact absurd hb h203
        split at heff
        · rename_i hdyn
          simp only [bind_eq_ok] at heff
          obtain ⟨next', hcall, heff⟩ := heff
          cases heff
          rcases dynptrHelperCall_cases hdyn hcall with ⟨rfl, slot, ds, size, hds, rfl⟩ | ⟨hne, hcase⟩
          · exact .slice hds
          · obtain ⟨b, hb⟩ := hret hne
            rw [if_neg hne, hb]
            rcases hcase with rfl | ⟨lo, hi, rfl⟩ | ⟨lo, hi, slot, size, rfl⟩
            · exact .scalar
            · exact .buffer
            · exact .dynptr
        · rename_i hdyn
          obtain ⟨b, hb⟩ := hret (by rintro rfl; exact hdyn rfl)
          rw [hb] at heff
          split at heff
          · split at heff
            · exact (fail_ne_ok.mp heff).elim
            · rename_i id hid
              simp only [bind_eq_ok] at heff
              obtain ⟨next', hrel, heff⟩ := heff
              cases heff
              exact .release (heldMemId_eq_some hid) hrel
          · cases heff
            exact .scalar

/-- An accepted kfunc call is one of the effects, with R1..R5 clobbered. -/
theorem kfuncCall_effect {pc : Nat} {btfId : Int32} {st st' : VerifierState}
    (h : kfuncCall pc btfId st = .ok st') :
    ∃ next, RuntimeEffect pc st next ∧ st' = next.clobberArgs := by
  unfold kfuncCall at h
  split at h
  · exact (fail_ne_ok.mp h).elim
  · rename_i proto hproto
    simp only [bind_eq_ok] at h
    obtain ⟨_, -, next, heff, h⟩ := h
    cases h
    refine ⟨next, ?_, rfl⟩
    simp only [kfuncEffect] at heff
    split at heff
    · simp only [bind_eq_ok] at heff
      obtain ⟨⟨id, next'⟩, hacq, heff⟩ := heff
      cases heff
      exact .acquire hacq (.inr ⟨_, rfl⟩)
    · rename_i hacq
      obtain ⟨b, hb⟩ : ∃ b, proto.returnType = .scalar b := by
        rcases kfuncPrototype_returns hproto with hb | hb
        · exact hb
        · exact absurd hb hacq
      rw [hb] at heff
      split at heff
      · split at heff
        · exact (fail_ne_ok.mp heff).elim
        · rename_i id hid
          simp only [bind_eq_ok] at heff
          obtain ⟨next', hrel, heff⟩ := heff
          cases heff
          exact .release (heldBtfId_eq_some hid) hrel
      · cases heff
        exact .scalar

/-- The successor of a runtime call. -/
theorem successors_runtimeCall {pc : Nat} {insn : BpfInsn} {st : VerifierState} {l : List Succ}
    (hcall : insn.isRuntimeCall = true) (h : successors pc insn st = .ok l) :
    ∃ next, RuntimeEffect pc st next ∧ l = [(pc + 1, next.clobberArgs)] := by
  cases insn with
  | call imm =>
    simp only [successors, step, bind_eq_ok] at h
    obtain ⟨st', hs, h⟩ := h
    cases h
    obtain ⟨next, heff, rfl⟩ := helperCall_effect hs
    exact ⟨next, heff, rfl⟩
  | callKfunc btfId =>
    simp only [successors, step, bind_eq_ok] at h
    obtain ⟨st', hs, h⟩ := h
    cases h
    obtain ⟨next, heff, rfl⟩ := kfuncCall_effect hs
    exact ⟨next, heff, rfl⟩
  | _ => cases hcall

/-! ## Held values -/

section Held

variable {P Q : Nat → RegState → Prop} {D E : Nat → DynptrState → Prop} {st next : VerifierState}
  {pc id : Nat}

/-- The aliases of a reference are gone from every frame; everything else is kept. -/
theorem invalidateReferenceAliases_ok (h : AllHeld P D st)
    (hq : ∀ k v, P k v → refAlias id v = false → Q k v) (hu : ∀ k, Q k (.scalar .unknown))
    (hd : ∀ k ds, D k ds → E k ds) : AllHeld Q E (st.invalidateReferenceAliases id) := by
  have hkill : ∀ k v, P k v → Q k (killRefAlias id v) := by
    intro k v hv
    unfold killRefAlias
    split
    · exact hu k
    · rename_i hna
      exact hq k v hv (by simpa using hna)
  refine ⟨fun r => hkill _ _ (h.regs r), h.stack.mapFullSpills (hkill _) (hd _), ?_⟩
  intro k fr hk
  obtain ⟨fr0, hfr0, rfl⟩ := Option.map_eq_some_iff.mp hk
  have h0 := h.saved k fr0 hfr0
  exact ⟨fun r => hkill _ _ (h0.regs r), h0.stack.mapFullSpills (hkill _) (hd _)⟩

/-- The value of R0 after a runtime call is no stack pointer. -/
theorem RuntimeEffect.result_ne (heff : RuntimeEffect pc st next) : (next.regs 0).isPtrToStack = false := by
  cases heff with
  | acquire _ hv => rcases hv with ⟨size, rfl⟩ | ⟨btfId, rfl⟩ <;> rfl
  | _ => rfl

/-- A runtime call keeps a closed predicate that its result satisfies. -/
theorem runtimeEffect_held (hP : Closed P) (h : AllHeld P D st) (heff : RuntimeEffect pc st next)
    (hr0 : P st.curframe (next.regs 0)) (hd : ∀ size, D st.curframe ⟨size, pc + 1⟩) :
    AllHeld P D next.clobberArgs := by
  suffices hnext : AllHeld P D next from hnext.clobberArgs (hP.plain _ _ rfl)
  cases heff with
  | acquire hacq _ =>
    obtain ⟨-, -, rfl⟩ := acquireRef_eq_ok.mp hacq
    exact (h.withRefs _ _).setReg hr0
  | release _ hrel =>
    obtain ⟨dropped, hd, rfl⟩ := releaseRef_eq_ok.mp hrel
    obtain ⟨i, -, -, rfl⟩ := dropRef_eq_some hd
    refine AllHeld.setReg ?_ hr0
    exact invalidateReferenceAliases_ok (h.withRefs _ _) (fun _ _ hv _ => hv)
      (fun _ => hP.scalar _) fun _ _ hv => hv
  | slice | lookup | scalar => exact h.setReg hr0
  | dynptr =>
    refine (h.withStack ?_).setReg hr0
    exact (h.stack.fill (by decide)).dynptrSet (hd _)
  | buffer => exact (h.withStack (h.stack.fill (by decide))).setReg hr0

end Held

end RandVerifier
