/-
  RandVerifier.Spec.Offsets — the pointer offsets of the safety-spec verifier, and what its
  accesses reach (`ptr_add`, `scalar_plus_pointer`, `check_stack_range`, `check_map_range`,
  `aligned_across`, `check_arg` and `helper_call` of `src/spec/runner.rs`).

  An addend is below 2^29 and a run pops at most `max_steps` items, so no offset comes near the
  ends of an `i64` and no sum saturates: an interval moves with its words. The bounds of an
  access hold for the whole interval, but the alignment is tested at its two ends only and
  for widths of 4 and 8, the buffer of `dynptr_write` and the memory of `dynptr_from_mem` are
  not checked at all, that of `dynptr_read` only at a known offset and with the length read as
  a signed number, and a dynptr need not start at a slot.
-/

import RandVerifier.Spec.Cells
import RandVerifier.Spec.Intervals
import RandVerifier.Spec.Paths

namespace RandVerifier.Spec

/-! ## Values of a state -/

/-- The offset interval of a pointer into a frame or a map value. -/
def SpecValue.offsets : SpecValue → Option (Int × Int)
  | ptrToStack lo hi | ptrToMapValue lo hi _ => some (lo, hi)
  | _ => none

def SpecFrame.All (Q : SpecValue → Prop) (f : SpecFrame) : Prop :=
  (∀ r, Q (f.regs r)) ∧ ∀ slot x, f.stack.spill slot = some x → Q x.value

def SpecState.All (Q : SpecValue → Prop) (s : SpecState) : Prop :=
  s.cur.All Q ∧ ∀ i f, s.saved i = some f → f.All Q

/-- What a step may put into a state, from values that have `Q` to values that have `Q'`. -/
structure Carries (Q Q' : SpecValue → Prop) : Prop where
  keep : ∀ v, Q v → Q' v
  plain : ∀ v, v.offsets = none → Q v
  base : ∀ v, v.offsets = some (0, 0) → Q v
  moved : ∀ pc op d r v, Q d → Q r → alu64Value pc op d r = .ok v → Q' v

section Values

variable {Q Q' : SpecValue → Prop} {env : Env} {c c' pc pc' : Nat} {s s' : SpecState} {v : SpecValue} {dst : Reg}

theorem SpecFrame.All.mono {f : SpecFrame} (hQ : ∀ v, Q v → Q' v) (h : f.All Q) : f.All Q' :=
  ⟨fun r => hQ _ (h.1 r), fun slot x hx => hQ _ (h.2 slot x hx)⟩

theorem SpecState.All.mono (hQ : ∀ v, Q v → Q' v) (h : s.All Q) : s.All Q' :=
  ⟨h.1.mono hQ, fun i f hf => (h.2 i f hf).mono hQ⟩

theorem SpecState.All.setReg (h : s.All Q) (hv : Q v) : (s.setReg dst v).All Q := by
  refine ⟨⟨fun r => ?_, h.1.2⟩, h.2⟩
  show Q ((s.setReg dst v).reg r)
  by_cases hr : r = dst
  · rw [hr, setReg_reg]
    exact hv
  · rw [setReg_other hr]
    exact h.1.1 r

theorem SpecState.All.setStack {stack : SpecStack} (h : s.All Q) (hs : ∀ slot x, stack.spill slot = some x → Q x.value) :
    (s.setStack stack).All Q :=
  ⟨⟨h.1.1, hs⟩, h.2⟩

theorem pushFrame_saved {saved saved' : Fin 7 → Option SpecFrame} {frame f : SpecFrame} {i : Fin 7}
    (h : pushFrame saved frame = some saved') (hf : saved' i = some f) : f = frame ∨ saved i = some f := by
  obtain ⟨j, -, rfl⟩ := Option.map_eq_some_iff.mp h
  by_cases hij : i = j
  · rw [hij, Function.update_self] at hf
    exact .inl (Option.some.inj hf).symm
  · rw [Function.update_of_ne hij] at hf
    exact .inr hf

theorem popFrame_saved {saved saved' : Fin 7 → Option SpecFrame} {caller : SpecFrame}
    (h : popFrame saved = some (caller, saved')) :
    (∃ i, saved i = some caller) ∧ ∀ i f, saved' i = some f → saved i = some f := by
  unfold popFrame at h
  obtain ⟨j, -, hmap⟩ := Option.bind_eq_some_iff.mp h
  obtain ⟨f, hf, heq⟩ := Option.map_eq_some_iff.mp hmap
  obtain ⟨rfl, rfl⟩ := Prod.mk.inj heq
  refine ⟨⟨j, hf⟩, fun i g hg => ?_⟩
  by_cases hij : i = j
  · rw [hij, Function.update_self] at hg
    cases hg
  · rwa [Function.update_of_ne hij] at hg

theorem scalar_offsets (h : v.isScalar = true) : v.offsets = none := by
  cases v with
  | scalar lo hi => rfl
  | _ => cases h

/-- The result of a helper points into no frame and no map value. -/
theorem setResult_offsets {ret : SpecRet} (h : setResult s pc c ret = .ok (s', c')) :
    ∃ v, v.offsets = none ∧ s'.cur = (s.setReg 0 v).cur ∧ s'.saved = s.saved := by
  cases ret with
  | memOrNull =>
    simp only [setResult] at h
    split at h
    · rename_i hacq
      obtain ⟨rfl, rfl⟩ := Prod.mk.inj (Except.ok.inj h)
      obtain ⟨hcur, hsaved⟩ := acquireRef_cur hacq
      exact ⟨_, rfl, hcur, hsaved⟩
    · cases h
  | _ =>
    obtain ⟨rfl, rfl⟩ := Prod.mk.inj (Except.ok.inj h)
    exact ⟨_, rfl, rfl, rfl⟩

theorem shape_store_offsets {insn : BpfInsn} {base : Reg} {off : Int} {size : MemSize}
    (h : shape env insn = .store base off size (.value v)) : v.offsets = none := by
  cases insn with
  | stMemImm _ _ _ _ =>
    cases h
    rfl
  | _ => cases h

variable (hQ : Carries Q Q')
include hQ

theorem Carries.plain' (h : v.offsets = none) : Q' v := hQ.keep v (hQ.plain v h)

theorem stackLoad_all {stack : SpecStack} {lo hi off : Int} {size : MemSize} {x : SpecValue}
    (hs : ∀ slot y, stack.spill slot = some y → Q y.value)
    (hx : x.isScalar = true ∨ (size = .dw ∧ lo = hi ∧
      ∃ slot y, SpecStack.slotOf (specStackSize + accessStart lo off) = some slot ∧ stack.spill slot = some y ∧
        x = y.value)) : Q' x := by
  rcases hx with hscalar | ⟨-, -, slot, y, -, hy, rfl⟩
  · exact hQ.plain' (scalar_offsets hscalar)
  · exact hQ.keep _ (hs slot y hy)

theorem refined_all (hs : s.All Q) (h : Refined s dst s') : s'.All Q' := by
  have hs' := hs.mono hQ.keep
  cases h with
  | same => exact hs'
  | scalar _ => exact hs'.setReg (hQ.plain' rfl)
  | @lookup size id w hreg hw =>
    refine ⟨⟨fun r => ?_, hs'.1.2⟩, hs'.2⟩
    show Q' (refineLookup id w (s.cur.regs r))
    unfold refineLookup
    split
    · split
      · rcases hw with rfl | rfl
        · exact hQ.plain' rfl
        · exact hQ.keep _ (hQ.base _ rfl)
      · exact hQ.plain' rfl
    · exact hs'.1.1 r
  | @memNull size id hreg =>
    have hnull : (memNull s dst id).cur = (s.setReg dst (.constScalar 0)).cur ∧
        (memNull s dst id).saved = s.saved := memNull_cur
    obtain ⟨hcur, hsaved⟩ := hnull
    refine ⟨?_, by rw [hsaved]; exact hs'.2⟩
    rw [hcur]
    exact (hs'.setReg (hQ.plain' rfl)).1
  | memValid _ => exact hs'.setReg (hQ.plain' rfl)

theorem store_all {base : Reg} {off : Int} {size : MemSize} (hs : s.All Q) (hv : Q v)
    (h : store s pc base off size v = .ok s') : s'.All Q' := by
  have hs' := hs.mono hQ.keep
  rcases store_ok h with ⟨lo, hi, stack, -, hst, rfl⟩ | ⟨-, rfl⟩ | ⟨-, rfl⟩
  · refine hs'.setStack fun slot x hx => ?_
    have hspill := stackStore_spill hst hx
    split at hspill
    · rw [hspill, value_ofValue]
      exact hQ.keep _ hv
    · exact hs'.1.2 slot x hspill
  · exact hs'
  · exact hs'

theorem atomic_all {dst src : Reg} {off : Int} {size : MemSize} {op : AtomicOp} {fetch : Bool} (hs : s.All Q)
    (h : atomic s pc dst src off size op fetch = .ok s') : s'.All Q' := by
  have hs' := hs.mono hQ.keep
  have hresult : ∀ {t : SpecState} {old : SpecValue}, t.All Q' → Q' old → (atomicResult t src op fetch old).All Q' := by
    intro t old ht hold
    unfold atomicResult
    split
    · exact ht.setReg hold
    · split
      · exact ht.setReg hold
      · exact ht
  obtain ⟨-, ⟨lo, hi, -, -, rfl⟩ | ⟨-, rfl⟩⟩ := atomic_ok h
  · refine hresult (hs'.setStack fun slot x hx => ?_) (stackLoad_all hQ hs.1.2 (atomicOld_value ..))
    simp only [SpecStack.atomicMark] at hx
    split at hx
    · cases hx
    · exact hs'.1.2 slot x hx
  · exact hresult hs' (hQ.plain' rfl)

theorem helperCall_all {imm : Int32} (hs : s.All Q) (h : helperCall s pc c imm = .ok (s', c')) : s'.All Q' := by
  have hs' := hs.mono hQ.keep
  have hspill := (helperCall_stack h).1
  obtain ⟨-, hregs⟩ := helperCall_regs h
  obtain ⟨proto, s₁, s₂, s₃, -, -, hbuf, hrel, hres, heq⟩ := helperCall_ok h
  obtain ⟨w, hw, hcur, hsaved⟩ := setResult_offsets hres
  have hsaved' : s'.saved = s.saved := by
    rw [heq]
    exact hsaved.trans ((releaseArg_cur hrel).2.trans (writeBuffers_ok hbuf).2.2.1)
  refine ⟨⟨fun r => ?_, fun slot x hx => ?_⟩, by rw [hsaved']; exact hs'.2⟩
  · by_cases hr : r = 0
    · have h0 : s'.cur.regs 0 = w := by
        rw [heq]
        show (if (1 : Reg) ≤ 0 ∧ (0 : Reg) ≤ 5 then SpecValue.uninit else s₃.cur.regs 0) = w
        rw [if_neg (by decide), hcur]
        exact setReg_reg s₂ 0 w
      rw [hr, h0]
      exact hQ.plain' hw
    · show Q' (s'.reg r)
      rw [hregs r hr]
      split
      · exact hQ.plain' rfl
      · exact hs'.1.1 r
  · rw [hspill slot] at hx
    rcases forgetSpill_eq_some hx with rfl | ⟨lo, hi, -, rfl⟩
    · exact hQ.plain' rfl
    · exact hQ.plain' rfl

theorem callSub_all {offset : Int32} {nodes : List Node} (hs : s.All Q) (h : callSub s pc offset = .ok nodes)
    (hmem : (pc', s') ∈ nodes) : s'.All Q' := by
  have hs' := hs.mono hQ.keep
  obtain ⟨saved, hpush, -, hsaved, hstack, -, -, -, hregs⟩ := callSub_ok h hmem
  refine ⟨⟨fun r => ?_, fun slot x hx => ?_⟩, fun i f hf => ?_⟩
  · show Q' (s'.reg r)
    rw [hregs r]
    split
    · exact hs'.1.1 r
    · split
      · exact hQ.keep _ (hQ.base _ rfl)
      · exact hQ.plain' rfl
  · rw [hstack] at hx
    cases hx
  · rw [hsaved] at hf
    rcases pushFrame_saved hpush hf with rfl | hold
    · exact hs'.1
    · exact hs'.2 i f hold

theorem exitStep_all {nodes : List Node} (hs : s.All Q) (h : exitStep s pc = .ok nodes) (hmem : (pc', s') ∈ nodes) :
    s'.All Q' := by
  have hs' := hs.mono hQ.keep
  obtain ⟨-, -, ⟨-, rfl⟩ | ⟨-, hexit⟩⟩ := exitStep_ok h
  · cases hmem
  · obtain ⟨caller, saved, hpop, -, rfl⟩ := exitCallee_ok hexit hmem
    obtain ⟨⟨i, hi⟩, hsaved⟩ := popFrame_saved hpop
    have hcaller := hs'.2 i caller hi
    refine ⟨⟨fun r => ?_, hcaller.2⟩, fun j f hf => hs'.2 j f (hsaved j f hf)⟩
    show Q' (restoredRegs caller (s.reg 0) r)
    unfold restoredRegs
    split
    · exact hs'.1.1 0
    · split
      · exact hQ.plain' rfl
      · exact hcaller.1 r

/-- What the values of a state have, those of its successors have. -/
theorem step_all {insn : BpfInsn} {nodes : List Node} (hset : ∀ dst v width, shape env insn = .set dst v width → Q v)
    (hs : s.All Q) (h : step env c pc s insn = .ok (nodes, c')) (hmem : (pc', s') ∈ nodes) : s'.All Q' := by
  have hs' := hs.mono hQ.keep
  have hdid := step_did h hmem
  revert hset
  generalize hsh : shape env insn = sh at hdid
  intro hset
  cases hdid with
  | @set dst v width => exact hs'.setReg (hQ.keep _ (hset dst v width rfl))
  | @mov dst src => exact hs'.setReg (hs'.1.1 src)
  | mov32 hval =>
    obtain ⟨-, lo, hi, rfl⟩ := mov32Value_ok hval
    exact hs'.setReg (hQ.plain' rfl)
  | packet => exact hs'.setReg (hQ.plain' rfl)
  | @alu64 dst op rhs high t halu =>
    obtain ⟨-, -, v, hval, rfl⟩ := alu64_ok halu
    have hrhs : Q (rhs.get s) := by
      cases rhs with
      | imm i => exact hQ.plain _ rfl
      | reg r => exact hs.1.1 r
    have hv : (s.setReg dst v).All Q' := hs'.setReg (hQ.moved pc op _ _ v (hs.1.1 dst) hrhs hval)
    unfold mulHigh
    split
    · exact hv
    · exact hv.setReg (hQ.plain' rfl)
  | alu32 halu =>
    obtain ⟨-, -, lo, hi, rfl⟩ := alu32_ok halu
    exact hs'.setReg (hQ.plain' rfl)
  | @load dst base off size signExtend v hload =>
    refine hs'.setReg ?_
    rcases load_ok hload with ⟨lo, hi, -, hst⟩ | ⟨baseOff, -, hctx⟩ | ⟨-, rfl⟩ | ⟨-, rfl⟩
    · exact stackLoad_all hQ hs.1.2 (stackLoad_value hst)
    · exact hQ.plain' (scalar_offsets (ctxLoad_scalar hctx))
    · exact hQ.plain' rfl
    · exact hQ.plain' rfl
  | @store base off size src t hst =>
    refine store_all hQ hs ?_ hst
    cases src with
    | reg r => exact hs.1.1 r
    | value v => exact hQ.plain v (shape_store_offsets hsh)
  | atomic hat => exact atomic_all hQ hs hat
  | jump => exact hs'
  | test htest hnode =>
    obtain ⟨rfl, -⟩ := testBranch_ok htest hnode
    exact hs'
  | branch hbr hnode => exact refined_all hQ hs (branch_ok hbr hnode).1
  | helper hrun => exact helperCall_all hQ hs hrun
  | callSub hcall hnode => exact callSub_all hQ hs hcall hnode
  | exit hexit hnode => exact exitStep_all hQ hs hexit hnode

end Values

/-! ## Bounded offsets -/

/-- The offsets stay within a bound on the side that matters. -/
def SpecValue.Bounded (b : Int) (v : SpecValue) : Prop := ∀ lo hi, v.offsets = some (lo, hi) → -b ≤ lo ∧ hi ≤ b

/-- What `n` additions can reach from the offset of a map value load, that is a `u32`. -/
def reach (n : Nat) : Int := 2 ^ 32 + n * bpfMaxVarOff

section Moves

variable {pc n : Nat} {ptr v d r : SpecValue} {op : AluOp} {a : Range} {b lo hi slo shi : Int} {x : UInt64}

theorem saneAddend_ok (h : saneAddend pc a = .ok (slo, shi)) :
    ∃ ds, asSigned a = some ds ∧ ds.1.toInt = slo ∧ ds.2.toInt = shi ∧ -bpfMaxVarOff < slo ∧ shi < bpfMaxVarOff := by
  unfold saneAddend failure at h
  split at h
  · cases h
  · rename_i ds1 ds2 hds
    split at h
    · cases h
    · rename_i hsane
      obtain ⟨rfl, rfl⟩ := Prod.mk.inj (Except.ok.inj h)
      exact ⟨_, hds, rfl, rfl, by omega, by omega⟩

/-- An operation that leaves a pointer into a frame or a map value moved both ends of one of its
    operands by an addend, each clamped to an `i64`. -/
theorem alu64Value_offsets (h : alu64Value pc op d r = .ok v) (hv : v.offsets = some (lo, hi)) :
    ∃ ptr a lo₀ hi₀ slo shi, (ptr = d ∨ ptr = r) ∧ ptr.offsets = some (lo₀, hi₀) ∧
      saneAddend pc a = .ok (slo, shi) ∧ lo = clampI64 (lo₀ + slo) ∧ hi = clampI64 (hi₀ + shi) := by
  have hadd : ∀ {ptr : SpecValue} {a : Range}, ptr = d ∨ ptr = r → ptrAdd pc ptr a = .ok v → ∃ ptr a lo₀ hi₀ slo shi,
      (ptr = d ∨ ptr = r) ∧ ptr.offsets = some (lo₀, hi₀) ∧ saneAddend pc a = .ok (slo, shi) ∧
      lo = clampI64 (lo₀ + slo) ∧ hi = clampI64 (hi₀ + shi) := by
    intro ptr a hptr h
    obtain ⟨⟨slo, shi⟩, hsane, hmove⟩ := bind_eq_ok.mp h
    cases ptr with
    | ptrToStack lo₀ hi₀ | ptrToMapValue lo₀ hi₀ size =>
      obtain rfl := Except.ok.inj hmove
      obtain ⟨rfl, rfl⟩ := Prod.mk.inj (Option.some.inj hv)
      exact ⟨_, a, lo₀, hi₀, slo, shi, hptr, rfl, hsane, rfl, rfl⟩
    | ptrToCtx off =>
      simp only at hmove
      split at hmove
      · obtain rfl := Except.ok.inj hmove
        cases hv
      · cases hmove
    | _ => cases hmove
  unfold alu64Value failure at h
  split at h
  · obtain rfl := Except.ok.inj h
    cases hv
  · cases op with
    | add =>
      cases r with
      | scalar lo₁ hi₁ => exact hadd (.inl rfl) h
      | _ => cases h
    | sub =>
      cases r with
      | scalar lo₁ hi₁ =>
        replace h : ite (d = .ptrToStack 0 0) (failure pc _) (ptrAdd pc d _) = .ok v := h
        by_cases hd : d = .ptrToStack 0 0
        · rw [if_pos hd] at h
          cases h
        · rw [if_neg hd] at h
          exact hadd (.inl rfl) h
      | _ => cases h
    | _ => cases h
  · rename_i rd _ _
    split at h
    · obtain ⟨⟨slo, shi⟩, hsane, hmove⟩ := bind_eq_ok.mp h
      cases r with
      | ptrToStack lo₀ hi₀ | ptrToMapValue lo₀ hi₀ size =>
        obtain rfl := Except.ok.inj hmove
        obtain ⟨rfl, rfl⟩ := Prod.mk.inj (Option.some.inj hv)
        exact ⟨_, rd, lo₀, hi₀, slo, shi, .inr rfl, rfl, hsane, rfl, rfl⟩
      | _ => cases hmove
    · cases h

/-- One more addition reaches further by less than 2^29. -/
theorem bounded_carries (n : Nat) : Carries (SpecValue.Bounded (reach n)) (SpecValue.Bounded (reach (n + 1))) where
  keep v h lo hi hv := by
    have := h lo hi hv
    unfold reach bpfMaxVarOff at *
    omega
  plain v h lo hi hv := by
    rw [h] at hv
    cases hv
  base v h lo hi hv := by
    obtain ⟨rfl, rfl⟩ := Prod.mk.inj (Option.some.inj (h.symm.trans hv))
    unfold reach bpfMaxVarOff
    omega
  moved pc op d r v hd hr h lo hi hv := by
    obtain ⟨ptr, a, lo₀, hi₀, slo, shi, hptr, hoff, hsane, rfl, rfl⟩ := alu64Value_offsets h hv
    obtain ⟨-, -, -, -, hslo, hshi⟩ := saneAddend_ok hsane
    have hb : -reach n ≤ lo₀ ∧ hi₀ ≤ reach n := by
      rcases hptr with rfl | rfl
      · exact hd lo₀ hi₀ hoff
      · exact hr lo₀ hi₀ hoff
    unfold reach bpfMaxVarOff clampI64 at *
    omega

/-- The signed number of a word. -/
def signedOf (x : UInt64) : Int := x.toInt64.toInt

/-- The pointer that an operation on two operands moves, and by how much: by the word of the
    other operand, read as a signed number. -/
inductive Adds : AluOp → SpecValue → SpecValue → SpecValue → Int → Prop
  | add {ptr : SpecValue} {a : Range} {x : UInt64} : InUnsigned a x → Adds .add ptr (.ofRange a) ptr (signedOf x)
  | sub {ptr : SpecValue} {a : Range} {x : UInt64} : InUnsigned a x → Adds .sub ptr (.ofRange a) ptr (-signedOf x)
  | swapped {ptr : SpecValue} {a : Range} {x : UInt64} : InUnsigned a x → Adds .add (.ofRange a) ptr ptr (signedOf x)

theorem saneAddend_contains (h : saneAddend pc a = .ok (slo, shi)) (hx : InUnsigned a x) :
    slo ≤ signedOf x ∧ signedOf x ≤ shi := by
  obtain ⟨ds, hds, rfl, rfl, -⟩ := saneAddend_ok h
  exact asSigned_order hds hx

/-- The wrapping negation of a word. -/
theorem signed_neg (i : Int64) : (0 - i.toUInt64).toInt64.toInt = -i.toInt ∨
    i.toInt = -2 ^ 63 ∧ (0 - i.toUInt64).toInt64.toInt = -2 ^ 63 := by
  have hlt := i.toUInt64.toNat_lt
  have hi := unsigned_eq i
  rw [signed_eq, UInt64.toNat_sub, UInt64.toNat_zero]
  split <;> omega

theorem negateScalar_contains (h : saneAddend pc ((negateScalar (.ofRange a)).asScalar.getD full) = .ok (slo, shi))
    (hx : InUnsigned a x) : slo ≤ -signedOf x ∧ -signedOf x ≤ shi := by
  obtain ⟨ds, hds, rfl, rfl, hlo, -⟩ := saneAddend_ok h
  have hscalar : (SpecValue.ofRange a).asScalar = some a := rfl
  cases hsigned : asSigned a with
  | none =>
    -- an interval that straddles the sign bit has no negation
    have hval : negateScalar (.ofRange a) = .unknownScalar := by
      unfold negateScalar
      rw [hscalar]
      dsimp only
      rw [hsigned]
    rw [hval] at hds
    cases hds
  | some p =>
    obtain ⟨l, u⟩ := p
    have hval : negateScalar (.ofRange a) = .scalar (0 - u.toUInt64) (0 - l.toUInt64) := by
      unfold negateScalar
      rw [hscalar]
      dsimp only
      rw [hsigned]
    rw [hval] at hds
    have hbounds := asSigned_order hsigned hx
    have hhalf := asSigned_side hsigned (UInt64.le_trans hx.1 hx.2)
    unfold asSigned at hds
    split at hds
    · rename_i hside
      obtain rfl := Option.some.inj hds
      replace hlo : -bpfMaxVarOff < (0 - u.toUInt64).toInt64.toInt := hlo
      replace hside : 0 - l.toUInt64 < 0x8000000000000000 ∨ 0x8000000000000000 ≤ 0 - u.toUInt64 := hside
      rw [UInt64.lt_iff_toNat_lt, UInt64.le_iff_toNat_le, show (0x8000000000000000 : UInt64).toNat = 2 ^ 63 from rfl]
        at hside
      show (0 - u.toUInt64).toInt64.toInt ≤ _ ∧ _ ≤ (0 - l.toUInt64).toInt64.toInt
      have hu := signed_neg u
      have hl := signed_neg l
      have hu' := signed_eq (0 - u.toUInt64)
      have hl' := signed_eq (0 - l.toUInt64)
      have hult := (0 - u.toUInt64).toNat_lt
      have hllt := (0 - l.toUInt64).toNat_lt
      have hxlo := x.toInt64.le_toInt
      unfold bpfMaxVarOff at hlo
      unfold signedOf
      dsimp only at hbounds hhalf
      split at hu' <;> split at hl' <;> omega
    · cases hds

theorem ptrAdd_offsets (h : ptrAdd pc ptr a = .ok v) (hp : ptr.offsets = some (lo, hi)) :
    ∃ slo shi, saneAddend pc a = .ok (slo, shi) ∧ v.offsets = some (clampI64 (lo + slo), clampI64 (hi + shi)) := by
  obtain ⟨⟨slo, shi⟩, hsane, hmove⟩ := bind_eq_ok.mp h
  refine ⟨slo, shi, hsane, ?_⟩
  cases ptr with
  | ptrToStack lo₀ hi₀ | ptrToMapValue lo₀ hi₀ size =>
    obtain rfl := Except.ok.inj hmove
    obtain ⟨rfl, rfl⟩ := Prod.mk.inj (Option.some.inj hp)
    rfl
  | _ => cases hp

theorem scalarPlusPointer_offsets (h : scalarPlusPointer pc ptr a = .ok v) (hp : ptr.offsets = some (lo, hi)) :
    ∃ slo shi, saneAddend pc a = .ok (slo, shi) ∧ v.offsets = some (clampI64 (lo + slo), clampI64 (hi + shi)) := by
  obtain ⟨⟨slo, shi⟩, hsane, hmove⟩ := bind_eq_ok.mp h
  refine ⟨slo, shi, hsane, ?_⟩
  cases ptr with
  | ptrToStack lo₀ hi₀ | ptrToMapValue lo₀ hi₀ size =>
    obtain rfl := Except.ok.inj hmove
    obtain ⟨rfl, rfl⟩ := Prod.mk.inj (Option.some.inj hp)
    rfl
  | _ => cases hp

theorem offsets_asScalar (hp : ptr.offsets = some (lo, hi)) : ptr.asScalar = none := by
  cases ptr with
  | ptrToStack lo₀ hi₀ | ptrToMapValue lo₀ hi₀ size => rfl
  | _ => cases hp

/-- An accepted addition moves the interval with the offset, as long as no sum leaves an `i64`. -/
theorem alu64Value_contains {o delta : Int} (hadds : Adds op d r ptr delta) (h : alu64Value pc op d r = .ok v)
    (hp : ptr.offsets = some (lo, hi)) (hb : ptr.Bounded b) (hfit : b + bpfMaxVarOff ≤ 2 ^ 63) (hlo : lo ≤ o)
    (hhi : o ≤ hi) : ∃ lo' hi', v.offsets = some (lo', hi') ∧ lo' ≤ o + delta ∧ o + delta ≤ hi' := by
  have hends : ∀ {a : Range} {slo shi : Int}, saneAddend pc a = .ok (slo, shi) → slo ≤ delta → delta ≤ shi →
      clampI64 (lo + slo) ≤ o + delta ∧ o + delta ≤ clampI64 (hi + shi) := by
    intro a slo shi hsane h1 h2
    obtain ⟨-, -, -, -, hslo, hshi⟩ := saneAddend_ok hsane
    have hbound := hb lo hi hp
    unfold bpfMaxVarOff clampI64 at *
    omega
  have hnone := offsets_asScalar hp
  unfold alu64Value at h
  cases hadds with
  | add hx =>
    rw [hnone] at h
    obtain ⟨slo, shi, hsane, hv⟩ := ptrAdd_offsets h hp
    have hin := saneAddend_contains hsane hx
    exact ⟨_, _, hv, hends hsane hin.1 hin.2⟩
  | @sub ptr a x hx =>
    rw [hnone] at h
    replace h : ite (ptr = .ptrToStack 0 0) (failure pc _) (ptrAdd pc ptr _) = .ok v := h
    by_cases hd : ptr = .ptrToStack 0 0
    · rw [if_pos hd] at h
      cases h
    · rw [if_neg hd] at h
      obtain ⟨slo, shi, hsane, hv⟩ := ptrAdd_offsets h hp
      have hin := negateScalar_contains hsane hx
      exact ⟨_, _, hv, hends hsane hin.1 hin.2⟩
  | @swapped ptr a x hx =>
    rw [hnone] at h
    obtain ⟨slo, shi, hsane, hv⟩ := scalarPlusPointer_offsets h hp
    have hin := saneAddend_contains hsane hx
    exact ⟨_, _, hv, hends hsane hin.1 hin.2⟩

end Moves

/-! ## The explored states -/

/-- The runners after a number of pops. -/
inductive ExploredIn (env : Env) : Nat → Runner → Prop
  | start : ExploredIn env 0 .initial
  | pop {n : Nat} {r r' : Runner} {pc : Nat} {s : SpecState} {rest : List Node} : ExploredIn env n r →
      r.worklist = (pc, s) :: rest → r.visit env pc s rest = .ok r' → ExploredIn env (n + 1) r'

/-- The offset of a map value load is a `u32`. -/
def OffsetsFit (program : List BpfInsn) : Prop :=
  ∀ dst fd offset keySize valueSize, .ldMapValue dst fd offset keySize valueSize ∈ program → offset < 2 ^ 32

section Run

variable {env : Env} {n : Nat} {r : Runner}

theorem set_bounded (hprog : OffsetsFit env.program) {pc : Nat} {insn : BpfInsn} (hinsn : env.program[pc]? = some insn)
    (n : Nat) {dst : Reg} {v : SpecValue} {width : Nat} (h : shape env insn = .set dst v width) : v.Bounded (reach n) := by
  intro lo hi hv
  cases insn with
  | movImm _ _ | mov32Imm _ _ | ldImm64 _ _ =>
    cases h
    cases hv
  | ldMapFd dst' fd _ _ _ =>
    cases h
    cases hfd : env.maps fd with
    | none =>
      rw [hfd] at hv
      cases hv
    | some info =>
      rw [hfd] at hv
      cases hv
  | ldMapValue dst' fd offset _ _ =>
    cases h
    have hlt := hprog _ _ _ _ _ (List.mem_of_getElem? hinsn)
    obtain ⟨rfl, rfl⟩ := Prod.mk.inj (Option.some.inj hv)
    unfold reach bpfMaxVarOff
    omega
  | _ => cases h

theorem initial_bounded : SpecState.initial.All (SpecValue.Bounded (reach 0)) := by
  refine ⟨⟨fun r lo hi h => ?_, nofun⟩, nofun⟩
  change (if r = 1 then SpecValue.ptrToCtx 0 else if r = 10 then .ptrToStack 0 0 else .uninit).offsets = some (lo, hi) at h
  split at h
  · cases h
  · split at h
    · cases h
      decide
    · cases h

/-- After `n` pops every offset is within what `n` additions reach. -/
theorem ExploredIn.bounded (hprog : OffsetsFit env.program) (h : ExploredIn env n r) :
    (∀ m ∈ r.worklist, m.2.All (SpecValue.Bounded (reach n))) ∧ ∀ m ∈ r.visited, m.2.All (SpecValue.Bounded (reach n)) := by
  induction h with
  | start =>
    refine ⟨fun m hm => ?_, nofun⟩
    rw [List.mem_singleton.mp hm]
    exact initial_bounded
  | @pop n r r' pc s rest _ hpop hvisit ih =>
    obtain ⟨hwork, hvis⟩ := ih
    rw [hpop] at hwork
    have hkeep : ∀ {s : SpecState}, s.All (SpecValue.Bounded (reach n)) → s.All (SpecValue.Bounded (reach (n + 1))) :=
      fun h => h.mono (bounded_carries n).keep
    rcases visit_ok hvisit with ⟨-, -, rfl⟩ | ⟨-, insn, nodes, nextId, hinsn, hstep, rfl⟩
    · exact ⟨fun m hm => hkeep (hwork m (List.mem_cons_of_mem _ hm)), fun m hm => hkeep (hvis m hm)⟩
    · have hhead := hwork (pc, s) List.mem_cons_self
      constructor
      · intro m hm
        rcases List.mem_append.mp hm with hnew | hrest
        · exact step_all (bounded_carries n) (fun _ _ _ => set_bounded hprog hinsn n) hhead hstep
            (List.mem_reverse.mp hnew)
        · exact hkeep (hwork m (List.mem_cons_of_mem _ hrest))
      · intro m hm
        rcases List.mem_cons.mp hm with rfl | hold
        · exact hkeep hhead
        · exact hkeep (hvis m hold)

end Run

end RandVerifier.Spec
