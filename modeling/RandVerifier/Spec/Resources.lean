/-
  RandVerifier.Spec.Resources — acquired buffers on the paths of the safety-spec verifier.

  A path keeps a ledger: a helper acquires a buffer, the NULL side of a check voids it, the
  other side and every access use it, and submit or discard release it. The references of
  the state are what the ledger holds (`Tracked`), and no register or spill denotes a
  buffer that is not held, as long as a path checks each buffer once and keeps no copy of
  a buffer that it releases (`Careful`). `resource_safety`: a path of careful steps is
  tracked, and the paths of a program are tracked exactly when all their steps are careful.
  `use_after_submit` submits a buffer and stores through a copy.
-/

import RandVerifier.Ledger
import RandVerifier.Spec.CallFrames
import Mathlib.Data.Finset.Image

namespace RandVerifier.Spec

open Ledger (Event book audit)

/-! ## Buffers and references -/

/-- The buffer that a value denotes as accessible. -/
def SpecValue.memId : SpecValue → Option Nat
  | ptrToMem _ _ _ id => some id
  | _ => none

/-- The buffer that a value denotes, or NULL. -/
def SpecValue.nullableId : SpecValue → Option Nat
  | ptrToMemOrNull _ id => some id
  | _ => none

def SpecValue.isBuffer : SpecValue → Bool
  | ptrToMem .. | ptrToMemOrNull .. => true
  | _ => false

/-- The references that a state holds. -/
def held (s : SpecState) : Finset Nat := (Finset.univ.filter fun i : Fin 8 => i.val < s.refsCnt).image s.refs

/-- No reference is held twice. -/
structure Distinct (s : SpecState) : Prop where
  inj : ∀ i j : Fin 8, i.val < s.refsCnt → j.val < s.refsCnt → s.refs i = s.refs j → i = j
  le : s.refsCnt ≤ 8

section References

variable {s s' : SpecState} {id : Nat}

theorem mem_held : id ∈ held s ↔ s.HasRef id := by
  unfold held SpecState.HasRef
  simp only [Finset.mem_image, Finset.mem_filter, Finset.mem_univ, true_and]

theorem held_congr (hr : s'.refs = s.refs) (hc : s'.refsCnt = s.refsCnt) : held s' = held s := by
  unfold held
  rw [hr, hc]

theorem Distinct.congr (h : Distinct s) (hr : s'.refs = s.refs) (hc : s'.refsCnt = s.refsCnt) : Distinct s' := by
  refine ⟨?_, by rw [hc]; exact h.le⟩
  rw [hr, hc]
  exact h.inj

theorem held_empty (h : s.refsCnt = 0) : held s = ∅ := by
  ext id
  rw [mem_held]
  constructor
  · rintro ⟨i, hi, -⟩
    omega
  · intro hid
    exact absurd hid (Finset.notMem_empty id)

theorem acquireRef_held (hd : Distinct s) (hid : id ∉ held s) (h : s.acquireRef id = .ok s') :
    held s' = insert id (held s) ∧ Distinct s' := by
  unfold SpecState.acquireRef at h
  split at h
  · rename_i hlt
    cases h
    have hold {i : Fin 8} (hi : i.val < s.refsCnt) :
        Function.update s.refs ⟨s.refsCnt, hlt⟩ id i = s.refs i := by
      apply Function.update_of_ne
      intro heq
      have := congrArg Fin.val heq
      dsimp only at this
      omega
    have hne {i : Fin 8} (hi : i.val < s.refsCnt) : s.refs i ≠ id := by
      intro heq
      exact hid (mem_held.mpr ⟨i, hi, heq⟩)
    have hnew {i : Fin 8} (hi : i.val < s.refsCnt + 1) (hge : ¬ i.val < s.refsCnt) : i = ⟨s.refsCnt, hlt⟩ := by
      apply Fin.ext
      dsimp only
      omega
    refine ⟨?_, ?_, ?_⟩
    · ext x
      rw [Finset.mem_insert, mem_held, mem_held]
      constructor
      · rintro ⟨i, hi, hx⟩
        dsimp only at hi hx
        by_cases hlow : i.val < s.refsCnt
        · rw [hold hlow] at hx
          exact .inr ⟨i, hlow, hx⟩
        · rw [hnew hi hlow, Function.update_self] at hx
          exact .inl hx.symm
      · rintro (rfl | ⟨i, hi, hx⟩)
        · exact ⟨⟨s.refsCnt, hlt⟩, Nat.lt_succ_self _, Function.update_self ..⟩
        · exact ⟨i, Nat.lt_succ_of_lt hi, (hold hi).trans hx⟩
    · intro i j hi hj heq
      dsimp only at hi hj heq
      by_cases hli : i.val < s.refsCnt
      · by_cases hlj : j.val < s.refsCnt
        · rw [hold hli, hold hlj] at heq
          exact hd.inj i j hli hlj heq
        · rw [hold hli, hnew hj hlj, Function.update_self] at heq
          exact absurd heq (hne hli)
      · by_cases hlj : j.val < s.refsCnt
        · rw [hold hlj, hnew hi hli, Function.update_self] at heq
          exact absurd heq.symm (hne hlj)
        · rw [hnew hi hli, hnew hj hlj]
    · exact hlt
  · cases h

/-- A release takes one reference out. -/
theorem releaseRef_held (hd : Distinct s) (h : s.releaseRef id = some s') :
    id ∈ held s ∧ held s' = (held s).erase id ∧ Distinct s' := by
  unfold SpecState.releaseRef at h
  split at h
  · rename_i i hfind
    cases h
    have hfound := List.find?_some hfind
    obtain ⟨hlt, hi⟩ : i.val < s.refsCnt ∧ s.refs i = id := of_decide_eq_true hfound
    have hle := hd.le
    have hpos : s.refsCnt - 1 < 8 := by omega
    have hlast : (Fin.ofNat 8 (s.refsCnt - 1)).val = s.refsCnt - 1 := Nat.mod_eq_of_lt hpos
    -- what the entry `j` of the new array was
    have hval (j : Fin 8) : Function.update s.refs i (s.refs (Fin.ofNat 8 (s.refsCnt - 1))) j =
        s.refs (if j = i then Fin.ofNat 8 (s.refsCnt - 1) else j) := by
      by_cases hj : j = i
      · subst hj
        rw [Function.update_self, if_pos rfl]
      · rw [Function.update_of_ne hj, if_neg hj]
    have hslot {j : Fin 8} (hj : j.val < s.refsCnt - 1) :
        (if j = i then Fin.ofNat 8 (s.refsCnt - 1) else j).val < s.refsCnt ∧
          (if j = i then Fin.ofNat 8 (s.refsCnt - 1) else j) ≠ i := by
      by_cases hji : j = i
      · rw [if_pos hji]
        refine ⟨by omega, ?_⟩
        intro heq
        have := congrArg Fin.val heq
        rw [hlast, ← hji] at this
        omega
      · rw [if_neg hji]
        exact ⟨by omega, hji⟩
    refine ⟨mem_held.mpr ⟨i, hlt, hi⟩, ?_, ?_, ?_⟩
    · ext x
      rw [Finset.mem_erase, mem_held, mem_held]
      constructor
      · rintro ⟨j, hj, hx⟩
        dsimp only at hj hx
        rw [hval] at hx
        obtain ⟨hlow, hne⟩ := hslot hj
        refine ⟨?_, _, hlow, hx⟩
        rintro rfl
        exact hne (hd.inj _ _ hlow hlt (hx.trans hi.symm))
      · rintro ⟨hne, j, hj, hx⟩
        have hji : j ≠ i := by
          rintro rfl
          exact hne (hx.symm.trans hi)
        by_cases hlast' : j.val = s.refsCnt - 1
        · -- the last entry has moved to the free place
          have hij : i.val < s.refsCnt - 1 := by
            have : j.val ≠ i.val := fun h => hji (Fin.ext h)
            omega
          refine ⟨i, hij, ?_⟩
          dsimp only
          rw [Function.update_self]
          have heq : Fin.ofNat 8 (s.refsCnt - 1) = j := Fin.ext (hlast.trans hlast'.symm)
          rw [heq]
          exact hx
        · refine ⟨j, ?_, ?_⟩
          · dsimp only
            omega
          · exact (Function.update_of_ne hji ..).trans hx
    · intro j k hj hk heq
      dsimp only at hj hk heq
      rw [hval, hval] at heq
      obtain ⟨hlj, hnj⟩ := hslot hj
      obtain ⟨hlk, hnk⟩ := hslot hk
      have hsame := hd.inj _ _ hlj hlk heq
      by_cases hji : j = i
      · by_cases hki : k = i
        · rw [hji, hki]
        · rw [if_pos hji, if_neg hki] at hsame
          have := congrArg Fin.val hsame
          rw [hlast] at this
          omega
      · by_cases hki : k = i
        · rw [if_neg hji, if_pos hki] at hsame
          have := congrArg Fin.val hsame
          rw [hlast] at this
          omega
        · rw [if_neg hji, if_neg hki] at hsame
          exact hsame
    · dsimp only
      omega
  · cases h

theorem releaseRef_isSome (h : id ∈ held s) : ∃ s', s.releaseRef id = some s' := by
  obtain ⟨i, hi, hid⟩ := mem_held.mp h
  unfold SpecState.releaseRef
  cases hfind : (List.finRange 8).find? fun i => i.val < s.refsCnt ∧ s.refs i = id with
  | some j => exact ⟨_, rfl⟩
  | none =>
    have hno := List.find?_eq_none.mp hfind i (List.mem_finRange i)
    exact absurd (decide_eq_true ⟨hi, hid⟩) hno

end References

/-! ## The values of all frames -/

/-- A register or spill of the current frame or of a caller holds a value. -/
def Holds (s : SpecState) (v : SpecValue) : Prop := ∃ f ∈ frameStack s, ∃ cell : Cell, cell.value f = some v

section Holds

variable {env : Env} {c c' pc pc' : Nat} {s s' : SpecState} {sh : Shape} {v : SpecValue} {insn : BpfInsn}

theorem holds_reg (s : SpecState) (r : Reg) : Holds s (s.reg r) :=
  ⟨s.cur, List.mem_cons_self, .reg r, rfl⟩

theorem holds_cur {cell : Cell} (h : cell.value s.cur = some v) : Holds s v := ⟨s.cur, List.mem_cons_self, cell, h⟩

theorem holds_caller {f : SpecFrame} {cell : Cell} (hf : f ∈ callers s.saved) (h : cell.value f = some v) :
    Holds s v := ⟨f, List.mem_cons_of_mem _ hf, cell, h⟩

theorem holds_initial (h : Holds .initial v) : v.isPlain = true ∨ IsStackPtr v := by
  obtain ⟨f, hf, cell, hv⟩ := h
  have hcur : f = SpecFrame.main := by
    have hnone : callers SpecState.initial.saved = [] := rfl
    unfold frameStack at hf
    rw [hnone] at hf
    exact List.mem_singleton.mp hf
  subst hcur
  cases cell with
  | spill slot => cases hv
  | reg r =>
    have hval : SpecFrame.main.regs r = v := Option.some.inj hv
    rw [← hval]
    simp only [SpecFrame.main]
    split
    · exact .inl rfl
    · split
      · exact .inr ⟨0, 0, rfl⟩
      · exact .inl rfl

theorem plain_of_isBuffer (h : v.isBuffer = true) : v.isPlain = false ∧ ¬ IsStackPtr v := by
  refine ⟨?_, ?_⟩
  · cases v <;> first | rfl | cases h
  · rintro ⟨lo, hi, rfl⟩
    cases h

theorem isBuffer_of_memId {id : Nat} (h : v.memId = some id) : v.isBuffer = true := by
  cases v <;> first | rfl | cases h

theorem nullableId_eq_some {id : Nat} (h : v.nullableId = some id) : ∃ size, v = .ptrToMemOrNull size id := by
  cases v with
  | ptrToMemOrNull size id' =>
    cases h
    exact ⟨size, rfl⟩
  | _ => cases h

theorem isBuffer_of_nullableId {id : Nat} (h : v.nullableId = some id) : v.isBuffer = true := by
  cases v <;> first | rfl | cases h

/-- What a buffer of the new state was: a copy, or checked or acquired in this step. -/
theorem holds_step (hdid : Did env c pc s sh pc' s' c') (hsh : shape env insn = sh) (hp : Packed s.saved)
    (hv : v.isBuffer = true) (h : Holds s' v) :
    Holds s v ∨
    (∃ signed dst cmp src offset size id, sh = .branch signed dst cmp src offset ∧
      v = .ptrToMem 0 0 size id ∧ Holds s (.ptrToMemOrNull size id)) ∨
    (∃ imm size, sh = .helper imm ∧ v = .ptrToMemOrNull size c') := by
  obtain ⟨hbuf, hstack⟩ := plain_of_isBuffer hv
  obtain ⟨f, hf, cell, hv⟩ := h
  by_cases hcall : ∃ offset, sh = .callSub offset
  · obtain ⟨offset, rfl⟩ := hcall
    cases hdid with
    | callSub hc hmem =>
      obtain ⟨saved, hpush, -, hsaved, hstk, -, -, -, hregs⟩ := callSub_ok hc hmem
      refine .inl ?_
      unfold frameStack at hf
      rw [hsaved, (pushFrame_callers hpush hp).1] at hf
      rcases List.mem_cons.mp hf with rfl | hf
      · cases cell with
        | spill slot =>
          rw [value_spill, hstk] at hv
          cases hv
        | reg r =>
          have hval : s'.reg r = v := Option.some.inj hv
          rw [hregs] at hval
          split at hval
          · rw [← hval]
            exact holds_reg s r
          · split at hval
            · exact absurd ⟨0, 0, hval.symm⟩ hstack
            · rw [← hval] at hbuf
              cases hbuf
      · exact ⟨f, hf, cell, hv⟩
  · by_cases hexit : sh = .exit
    · subst hexit
      cases hdid with
      | exit he hmem =>
        obtain ⟨hscalar, -, hend⟩ := exitStep_ok he
        rcases hend with ⟨-, rfl⟩ | ⟨-, hret⟩
        · cases hmem
        · obtain ⟨caller, saved, hpop, -, rfl⟩ := exitCallee_ok hret hmem
          refine .inl ?_
          have hcallers := (popFrame_callers hpop).1
          have hin : ∀ g ∈ caller :: callers saved, ∀ cell : Cell, cell.value g = some v → Holds s v := by
            intro g hg cell hgv
            rw [← hcallers] at hg
            exact holds_caller hg hgv
          rcases List.mem_cons.mp hf with rfl | hf
          · cases cell with
            | spill slot => exact hin caller List.mem_cons_self (.spill slot) hv
            | reg r =>
              have hval : restoredRegs caller (s.reg 0) r = v := Option.some.inj hv
              unfold restoredRegs at hval
              split at hval
              · rw [← hval, plain_of_scalar hscalar] at hbuf
                cases hbuf
              · split at hval
                · rw [← hval] at hbuf
                  cases hbuf
                · exact hin caller List.mem_cons_self (.reg r) (congrArg some hval)
          · exact hin f (List.mem_cons_of_mem _ hf) cell hv
    · have hcall' : ∀ offset, sh ≠ .callSub offset := fun offset heq => hcall ⟨offset, heq⟩
      unfold frameStack at hf
      rw [(hdid.saved hcall' hexit).1] at hf
      rcases List.mem_cons.mp hf with rfl | hf
      · have hder := hdid.origin hsh hcall' hexit hv
        generalize ho : (sh.origin s cell).value s.cur = o at hder
        cases hder with
        | plain hplain =>
          rw [hplain] at hbuf
          cases hbuf
        | copy => exact .inl (holds_cur ho)
        | moved hm =>
          cases hm with
          | stack => exact absurd ⟨_, _, rfl⟩ hstack
          | mapValue => cases hbuf
          | ctx => cases hbuf
        | checked => exact .inr (.inl ⟨_, _, _, _, _, _, _, rfl, rfl, holds_cur ho⟩)
        | acquired => exact .inr (.inr ⟨_, _, rfl, rfl⟩)
      · exact .inl (holds_caller hf hv)

theorem holds_setReg {dst : Reg} {w : SpecValue} (h : Holds (s.setReg dst w) v) : v = w ∨ Holds s v := by
  obtain ⟨f, hf, cell, hv⟩ := h
  rcases List.mem_cons.mp hf with rfl | hf
  · cases cell with
    | spill slot => exact .inr ⟨s.cur, List.mem_cons_self, .spill slot, hv⟩
    | reg r =>
      by_cases hr : r = dst
      · subst hr
        exact .inl ((Option.some.inj hv).symm.trans (setReg_reg s r w))
      · have hval : s.reg r = v := (setReg_other hr w).symm.trans (Option.some.inj hv)
        rw [← hval]
        exact .inr (holds_reg s r)
  · exact .inr (holds_caller hf hv)

end Holds

/-! ## The ledger of a path -/

/-- The NULL side of a check voids the buffer, the other side uses it. -/
def checkEvents : SpecValue → SpecValue → List (Event Nat)
  | .ptrToMemOrNull _ id, .scalar .. => [.void id]
  | .ptrToMemOrNull _ id, .ptrToMem .. => [.use id]
  | _, _ => []

/-- Submit and discard release the buffer in R1. -/
def releaseEvents (s : SpecState) (imm : Int32) : List (Event Nat) :=
  if imm = 132 ∨ imm = 133 then (s.reg 1).memId.toList.map .release else []

/-- What a step does to the buffers. -/
def memEvents (s s' : SpecState) : Shape → List (Event Nat)
  | .load _ base _ _ _ => (s.reg base).memId.toList.map .use
  | .store base _ _ _ => (s.reg base).memId.toList.map .use
  | .branch _ dst _ _ _ => checkEvents (s.reg dst) (s'.reg dst)
  | .helper imm => releaseEvents s imm ++ (s'.reg 0).nullableId.toList.map .acquire
  | _ => []

/-- A frame denotes a buffer as accessible nowhere. -/
def Frees (f : SpecFrame) (id : Nat) : Prop :=
  (∀ r, (f.regs r).memId ≠ some id) ∧ ∀ slot, (f.stack.spill slot).bind (·.value.memId) ≠ some id

instance (f : SpecFrame) (id : Nat) : Decidable (Frees f id) := inferInstanceAs (Decidable (_ ∧ _))

/-- A step checks no buffer that was checked before, and releases none of which a copy
    survives the call. -/
def Careful (es : List (Event Nat)) (s : SpecState) : Shape → Prop
  | .branch false dst _ src _ => src.get s = .constScalar 0 →
    ∀ id ∈ (s.reg dst).nullableId, .use id ∉ es ∧ .void id ∉ es
  | .helper imm => imm = 132 ∨ imm = 133 →
    ∀ id ∈ (s.reg 1).memId, (∀ r, 6 ≤ r → (s.reg r).memId ≠ some id) ∧ ∀ f ∈ callers s.saved, Frees f id
  | _ => True

instance (es : List (Event Nat)) (s : SpecState) (sh : Shape) : Decidable (Careful es s sh) :=
  match sh with
  | .branch false dst _ src _ => inferInstanceAs (Decidable (src.get s = .constScalar 0 →
      ∀ id ∈ (s.reg dst).nullableId, .use id ∉ es ∧ .void id ∉ es))
  | .helper imm => inferInstanceAs (Decidable (imm = 132 ∨ imm = 133 → ∀ id ∈ (s.reg 1).memId,
      (∀ r, 6 ≤ r → (s.reg r).memId ≠ some id) ∧ ∀ f ∈ callers s.saved, Frees f id))
  | .branch true .. | .set .. | .mov .. | .mov32 .. | .packet .. | .alu64 .. | .alu32 .. | .load .. | .store ..
  | .atomic .. | .jump .. | .test .. | .callSub .. | .exit | .reject .. => .isTrue trivial

theorem frees_iff {f : SpecFrame} {id : Nat} :
    Frees f id ↔ ∀ (cell : Cell) v, cell.value f = some v → v.memId ≠ some id := by
  constructor
  · intro h cell v hv
    cases cell with
    | reg r =>
      rw [← Option.some.inj hv]
      exact h.1 r
    | spill slot =>
      obtain ⟨x, hx, rfl⟩ := Option.map_eq_some_iff.mp hv
      intro hid
      exact h.2 slot (by rw [hx]; exact hid)
  · intro h
    refine ⟨fun r => h (.reg r) _ rfl, ?_⟩
    intro slot hid
    obtain ⟨x, hx, hid'⟩ := Option.bind_eq_some_iff.mp hid
    exact h (.spill slot) x.value (by rw [value_spill, hx]; rfl) hid'

/-- A path with its ledger, every step within a condition. -/
inductive RefRun (env : Env) (cond : List (Event Nat) → SpecState → Shape → Prop) :
    Point → List (Event Nat) → Prop
  | start : RefRun env cond .initial []
  | edge {p q : Point} {es : List (Event Nat)} {insn : BpfInsn} : RefRun env cond p es → Edge env p insn q →
      cond es p.state (shape env insn) →
      RefRun env cond q (es ++ memEvents p.state q.state (shape env insn))

/-- The ledger and the references agree, a register or spill denotes only buffers that are
    held, no id is given out twice, and what was found not to be NULL is never void. -/
structure Tracked (s : SpecState) (es : List (Event Nat)) : Prop where
  audited : audit ∅ es = some (held s)
  accessible : ∀ v id, Holds s v → v.memId = some id → id ∈ held s
  once : ∀ id, es.count (.acquire id) ≤ 1
  kept : ∀ id, .use id ∈ es → .void id ∉ es

/-- What the steps of a careful path keep; `H` holds of the values of all frames. -/
structure RefInv (s : SpecState) (H : SpecValue → Prop) (c : Nat) (es : List (Event Nat)) : Prop where
  audited : audit ∅ es = some (held s)
  distinct : Distinct s
  fresh : ∀ id, .acquire id ∈ es → id ≤ c
  once : ∀ id, es.count (.acquire id) ≤ 1
  mem : ∀ v id, H v → v.memId = some id → id ∈ held s ∧ .use id ∈ es
  nullable : ∀ v id, H v → v.nullableId = some id → .acquire id ∈ es
  unchecked : ∀ id, .acquire id ∈ es → .use id ∉ es → .void id ∉ es → id ∈ held s
  kept : ∀ id, .use id ∈ es → .void id ∉ es

section RefInv

variable {s s' : SpecState} {H H' : SpecValue → Prop} {c c' id size : Nat} {es : List (Event Nat)}

theorem RefInv.tracked (h : RefInv s (Holds s) c es) : Tracked s es :=
  ⟨h.audited, fun v id hv hid => (h.mem v id hv hid).1, h.once, h.kept⟩

theorem audit_snoc {held₀ held₁ : Finset Nat} {e : Event Nat} (h : audit ∅ es = some held₀)
    (he : book held₀ e = some held₁) : audit ∅ (es ++ [e]) = some held₁ := by
  rw [Ledger.audit_append, h]
  simp only [Option.bind_some, Ledger.audit_cons, he]
  rfl

/-- Buffers are used. -/
theorem RefInv.uses {us : List Nat} (h : RefInv s H c es) (hr : s'.refs = s.refs) (hc : s'.refsCnt = s.refsCnt)
    (hle : c ≤ c') (hus : ∀ id ∈ us, id ∈ held s ∧ .void id ∉ es)
    (hH : ∀ v, H' v → v.isBuffer = true → H v ∨ ∃ id ∈ us, v.memId = some id) :
    RefInv s' H' c' (es ++ us.map .use) := by
  have hheld := held_congr hr hc
  have hnoacq (id : Nat) : Event.acquire id ∉ us.map Event.use := by simp
  have hnovoid (id : Nat) : Event.void id ∉ us.map Event.use := by simp
  have hacq {id : Nat} (hin : Event.acquire id ∈ es ++ us.map .use) : .acquire id ∈ es :=
    (List.mem_append.mp hin).resolve_right (hnoacq id)
  refine ⟨?_, h.distinct.congr hr hc, ?_, ?_, ?_, ?_, ?_, ?_⟩
  · rw [Ledger.audit_append, h.audited, hheld]
    exact Ledger.book_uses fun id hid => (hus id hid).1
  · intro id hin
    exact le_trans (h.fresh id (hacq hin)) hle
  · intro id
    rw [List.count_append, List.count_eq_zero.mpr (hnoacq id)]
    exact h.once id
  · intro v id hv hid
    rw [hheld]
    rcases hH v hv (isBuffer_of_memId hid) with hold | ⟨id', hin, hid'⟩
    · obtain ⟨hin, huse⟩ := h.mem v id hold hid
      exact ⟨hin, List.mem_append_left _ huse⟩
    · rw [hid] at hid'
      obtain rfl := Option.some.inj hid'
      exact ⟨(hus _ hin).1, List.mem_append_right _ (List.mem_map_of_mem hin)⟩
  · intro v id hv hid
    rcases hH v hv (isBuffer_of_nullableId hid) with hold | ⟨id', -, hid'⟩
    · exact List.mem_append_left _ (h.nullable v id hold hid)
    · cases v with
      | ptrToMemOrNull _ _ => cases hid'
      | _ => cases hid
  · intro id hin huse hvoid
    rw [hheld]
    exact h.unchecked id (hacq hin) (fun hu => huse (List.mem_append_left _ hu))
      (fun hv => hvoid (List.mem_append_left _ hv))
  · intro id huse hvoid
    have hvoid' : Event.void id ∈ es := (List.mem_append.mp hvoid).resolve_right (hnovoid id)
    rcases List.mem_append.mp huse with hold | hnew
    · exact h.kept id hold hvoid'
    · obtain ⟨id', hin, heq⟩ := List.mem_map.mp hnew
      obtain rfl := Event.use.inj heq
      exact (hus _ hin).2 hvoid'

/-- Fewer values, the same references. -/
theorem RefInv.imp (h : RefInv s H c es) (hr : s'.refs = s.refs) (hc : s'.refsCnt = s.refsCnt) (hle : c ≤ c')
    (hH : ∀ v, H' v → v.isBuffer = true → H v) : RefInv s' H' c' es := by
  have huses : RefInv s' H' c' (es ++ ([] : List Nat).map .use) :=
    h.uses hr hc hle nofun fun v hv hbuf => .inl (hH v hv hbuf)
  rw [List.map_nil, List.append_nil] at huses
  exact huses

/-- A buffer that was never checked is void. -/
theorem RefInv.void (h : RefInv s H c es) (hrel : s.releaseRef id = some s') (huse : .use id ∉ es)
    (hH : ∀ v, H' v → v.isBuffer = true → H v) : RefInv s' H' c (es ++ [.void id]) := by
  obtain ⟨hin, hheld, hdist⟩ := releaseRef_held h.distinct hrel
  have hacq {id' : Nat} (hmem : Event.acquire id' ∈ es ++ [.void id]) : .acquire id' ∈ es :=
    (List.mem_append.mp hmem).resolve_right (by simp)
  have huse' {id' : Nat} (hmem : Event.use id' ∈ es ++ [.void id]) : .use id' ∈ es :=
    (List.mem_append.mp hmem).resolve_right (by simp)
  refine ⟨?_, hdist, fun id' hmem => h.fresh id' (hacq hmem), ?_, ?_, ?_, ?_, ?_⟩
  · refine audit_snoc h.audited ?_
    rw [hheld]
    exact if_pos hin
  · intro id'
    rw [List.count_append]
    exact h.once id'
  · intro v id' hv hid
    obtain ⟨hin', hu⟩ := h.mem v id' (hH v hv (isBuffer_of_memId hid)) hid
    rw [hheld]
    refine ⟨Finset.mem_erase.mpr ⟨?_, hin'⟩, List.mem_append_left _ hu⟩
    rintro rfl
    exact huse hu
  · intro v id' hv hid
    exact List.mem_append_left _ (h.nullable v id' (hH v hv (isBuffer_of_nullableId hid)) hid)
  · intro id' hmem hu hv
    rw [hheld]
    refine Finset.mem_erase.mpr ⟨?_, h.unchecked id' (hacq hmem) (fun h => hu (List.mem_append_left _ h))
      (fun h => hv (List.mem_append_left _ h))⟩
    rintro rfl
    exact hv (List.mem_append_right _ (List.mem_singleton_self _))
  · intro id' hu hv
    rcases List.mem_append.mp hv with hold | hnew
    · exact h.kept id' (huse' hu) hold
    · obtain rfl := Event.void.inj (List.mem_singleton.mp hnew)
      exact huse (huse' hu)

/-- A buffer is released, and no value denotes it any more. -/
theorem RefInv.release (h : RefInv s H c es) (hrel : s.releaseRef id = some s') (huse : .use id ∈ es)
    (hH : ∀ v, H' v → v.isBuffer = true → H v ∧ v.memId ≠ some id) : RefInv s' H' c (es ++ [.release id]) := by
  obtain ⟨hin, hheld, hdist⟩ := releaseRef_held h.distinct hrel
  have hold {e : Event Nat} (hne : e ≠ .release id) (hmem : e ∈ es ++ [.release id]) : e ∈ es :=
    (List.mem_append.mp hmem).resolve_right fun hm => hne (List.mem_singleton.mp hm)
  refine ⟨?_, hdist, fun id' hmem => h.fresh id' (hold nofun hmem), ?_, ?_, ?_, ?_, ?_⟩
  · refine audit_snoc h.audited ?_
    rw [hheld]
    exact if_pos hin
  · intro id'
    rw [List.count_append]
    exact h.once id'
  · intro v id' hv hid
    obtain ⟨hHv, hne⟩ := hH v hv (isBuffer_of_memId hid)
    obtain ⟨hin', hu⟩ := h.mem v id' hHv hid
    rw [hheld]
    refine ⟨Finset.mem_erase.mpr ⟨?_, hin'⟩, List.mem_append_left _ hu⟩
    rintro rfl
    exact hne hid
  · intro v id' hv hid
    exact List.mem_append_left _ (h.nullable v id' (hH v hv (isBuffer_of_nullableId hid)).1 hid)
  · intro id' hmem hu hv
    rw [hheld]
    refine Finset.mem_erase.mpr ⟨?_, h.unchecked id' (hold nofun hmem) (fun h => hu (List.mem_append_left _ h))
      (fun h => hv (List.mem_append_left _ h))⟩
    rintro rfl
    exact hu (List.mem_append_left _ huse)
  · intro id' hu hv
    exact h.kept id' (hold nofun hu) (hold nofun hv)

/-- A buffer with a new id is acquired. -/
theorem RefInv.acquire (h : RefInv s H c es) (hacq : s.acquireRef (c + 1) = .ok s')
    (hH : ∀ v, H' v → v.isBuffer = true → H v ∨ v = .ptrToMemOrNull size (c + 1)) :
    RefInv s' H' (c + 1) (es ++ [.acquire (c + 1)]) := by
  have hnew : Event.acquire (c + 1) ∉ es := by
    intro hmem
    have := h.fresh _ hmem
    omega
  have hnot : c + 1 ∉ held s := fun hin =>
    hnew (Ledger.acquired_of_held h.audited (Finset.notMem_empty _) hin)
  obtain ⟨hheld, hdist⟩ := acquireRef_held h.distinct hnot hacq
  have hold {e : Event Nat} (hne : e ≠ .acquire (c + 1)) (hmem : e ∈ es ++ [.acquire (c + 1)]) : e ∈ es :=
    (List.mem_append.mp hmem).resolve_right fun hm => hne (List.mem_singleton.mp hm)
  refine ⟨?_, hdist, ?_, ?_, ?_, ?_, ?_, ?_⟩
  · refine audit_snoc h.audited ?_
    rw [hheld]
    exact if_neg hnot
  · intro id' hmem
    by_cases hid : id' = c + 1
    · omega
    · have := h.fresh id' (hold (fun heq => hid (Event.acquire.inj heq)) hmem)
      omega
  · intro id'
    rw [List.count_append]
    by_cases hid : id' = c + 1
    · subst hid
      rw [List.count_eq_zero.mpr hnew, List.count_singleton_self]
    · have hzero : [Event.acquire (c + 1)].count (.acquire id') = 0 :=
        List.count_eq_zero.mpr fun hm => hid (Event.acquire.inj (List.mem_singleton.mp hm))
      rw [hzero]
      exact h.once id'
  · intro v id' hv hid
    rcases hH v hv (isBuffer_of_memId hid) with hHv | rfl
    · obtain ⟨hin', hu⟩ := h.mem v id' hHv hid
      rw [hheld]
      exact ⟨Finset.mem_insert_of_mem hin', List.mem_append_left _ hu⟩
    · cases hid
  · intro v id' hv hid
    rcases hH v hv (isBuffer_of_nullableId hid) with hHv | rfl
    · exact List.mem_append_left _ (h.nullable v id' hHv hid)
    · obtain rfl := Option.some.inj hid
      exact List.mem_append_right _ (List.mem_singleton_self _)
  · intro id' hmem hu hv
    rw [hheld]
    by_cases hid : id' = c + 1
    · rw [hid]
      exact Finset.mem_insert_self _ _
    · refine Finset.mem_insert_of_mem (h.unchecked id' (hold (fun heq => hid (Event.acquire.inj heq)) hmem) ?_ ?_)
      · exact fun h => hu (List.mem_append_left _ h)
      · exact fun h => hv (List.mem_append_left _ h)
  · intro id' hu hv
    exact h.kept id' (hold nofun hu) (hold nofun hv)

end RefInv

/-! ## The steps -/

section Steps

variable {env : Env} {c c' pc pc' : Nat} {s s' : SpecState} {sh : Shape} {v : SpecValue} {insn : BpfInsn}
  {nodes : List Node} {es : List (Event Nat)}

/-- A branch on a buffer that may be NULL: a check against 0, or nothing. -/
theorem branch_nullable {signed : Bool} {dst : Reg} {cmp : Cmp} {src : SpecValue} {offset : Int16}
    {sameReg : Bool} {size id : Nat} (hreg : s.reg dst = .ptrToMemOrNull size id)
    (h : (if signed then branchSigned s pc dst cmp src offset sameReg
      else branch s pc dst cmp src offset sameReg) = .ok nodes) :
    signed = false ∧ (src = .constScalar 0 → ∃ pc₁ pc₂,
        (nodes = [(pc₁, memNull s dst id), (pc₂, s.setReg dst (.ptrToMem 0 0 size id))] ∨
          nodes = [(pc₂, s.setReg dst (.ptrToMem 0 0 size id)), (pc₁, memNull s dst id)])) ∧
      (src ≠ .constScalar 0 → ∀ n ∈ nodes, n.2 = s) := by
  have hptr : (s.reg dst).isPointer = true ∨ src.isPointer = true := by
    rw [hreg]
    exact .inl rfl
  cases signed with
  | true =>
    simp only [if_true] at h
    unfold branchSigned failure at h
    rw [if_pos hptr] at h
    cases h
  | false =>
    refine ⟨rfl, ?_⟩
    simp only [Bool.false_eq_true, if_false] at h
    unfold branch at h
    rw [if_pos hptr] at h
    refine ⟨?_, ?_⟩
    · intro hsrc
      have hnull : nullSides pc (branchTarget pc offset) cmp (memNull s dst id)
          (s.setReg dst (.ptrToMem 0 0 size id))
          "ordering comparison on a nullable mem pointer is not allowed" = .ok nodes := by
        rw [← h]
        simp only [pointerBranch, hreg, hsrc, decide_true]
      cases cmp with
      | eq => exact ⟨_, _, .inl (Except.ok.inj hnull).symm⟩
      | ne => exact ⟨_, _, .inr (Except.ok.inj hnull).symm⟩
      | _ => cases hnull
    · intro hsrc
      have hcmp : pointerCompare s pc (branchTarget pc offset) (s.reg dst) cmp src = .ok nodes := by
        rw [← h]
        simp only [pointerBranch, hreg, hsrc, decide_false]
      rintro ⟨pc', t⟩ hn
      exact (pointerCompare_ok hcmp hn).1

/-- What a branch does to the buffers: nothing, or one of the sides of a NULL check. -/
theorem branch_buffers {signed : Bool} {dst : Reg} {cmp : Cmp} {src : SpecValue} {offset : Int16}
    {sameReg : Bool} (h : (if signed then branchSigned s pc dst cmp src offset sameReg
      else branch s pc dst cmp src offset sameReg) = .ok nodes) (hmem : (pc', s') ∈ nodes) :
    (s'.refs = s.refs ∧ s'.refsCnt = s.refsCnt ∧ checkEvents (s.reg dst) (s'.reg dst) = [] ∧
      ∀ v, Holds s' v → v.isBuffer = true → Holds s v) ∨
    (∃ size id, signed = false ∧ src = .constScalar 0 ∧ s.reg dst = .ptrToMemOrNull size id ∧
      (s' = memNull s dst id ∨ s' = s.setReg dst (.ptrToMem 0 0 size id))) := by
  by_cases hnull : ∃ size id, s.reg dst = .ptrToMemOrNull size id
  · obtain ⟨size, id, hreg⟩ := hnull
    obtain ⟨hsigned, hzero, hsame⟩ := branch_nullable hreg h
    by_cases hsrc : src = .constScalar 0
    · obtain ⟨pc₁, pc₂, hn⟩ := hzero hsrc
      refine .inr ⟨size, id, hsigned, hsrc, hreg, ?_⟩
      have hpair : (pc', s') = (pc₁, memNull s dst id) ∨ (pc', s') = (pc₂, s.setReg dst (.ptrToMem 0 0 size id)) := by
        rcases hn with rfl | rfl
        · simpa using hmem
        · exact (by simpa using hmem : _ ∨ _).symm
      rcases hpair with heq | heq
      · exact .inl (Prod.mk.inj heq).2
      · exact .inr (Prod.mk.inj heq).2
    · obtain rfl := hsame hsrc _ hmem
      refine .inl ⟨rfl, rfl, ?_, fun v hv _ => hv⟩
      dsimp only
      rw [hreg]
      rfl
  · have hcheck (x : SpecValue) : checkEvents (s.reg dst) x = [] := by
      cases hreg : s.reg dst with
      | ptrToMemOrNull size id => exact absurd ⟨size, id, hreg⟩ hnull
      | _ => rfl
    cases (branch_ok h hmem).1 with
    | same => exact .inl ⟨rfl, rfl, hcheck _, fun v hv _ => hv⟩
    | scalar _ =>
      refine .inl ⟨rfl, rfl, hcheck _, ?_⟩
      intro v hv hbuf
      rcases holds_setReg hv with rfl | hold
      · cases hbuf
      · exact hold
    | @lookup size id w hreg hw =>
      refine .inl ⟨rfl, rfl, hcheck _, ?_⟩
      rintro v ⟨f, hf, cell, hv⟩ hbuf
      rcases List.mem_cons.mp hf with rfl | hf
      · cases cell with
        | spill slot => exact ⟨s.cur, List.mem_cons_self, .spill slot, hv⟩
        | reg r =>
          have hx : refineLookup id w (s.cur.regs r) = v := Option.some.inj hv
          unfold refineLookup at hx
          split at hx
          · split at hx
            · rw [← hx] at hbuf
              rcases hw with rfl | rfl <;> cases hbuf
            · rw [← hx] at hbuf
              cases hbuf
          · rw [← hx]
            exact holds_reg s r
      · exact holds_caller hf hv
    | memNull hreg => exact absurd ⟨_, _, hreg⟩ hnull
    | memValid hreg => exact absurd ⟨_, _, hreg⟩ hnull

/-- The values that survive a helper call: in R6..R10 and in the frames of the callers. -/
def Survives (s : SpecState) (v : SpecValue) : Prop :=
  (∃ r, 6 ≤ r ∧ s.reg r = v) ∨ ∃ f ∈ callers s.saved, ∃ cell : Cell, cell.value f = some v

theorem releaseRef_congr {u : SpecState} {id : Nat} (hr : s.refs = s'.refs) (hc : s.refsCnt = s'.refsCnt)
    (h : s.releaseRef id = some u) :
    ∃ u', s'.releaseRef id = some u' ∧ u.refs = u'.refs ∧ u.refsCnt = u'.refsCnt := by
  unfold SpecState.releaseRef at h ⊢
  rw [← hr, ← hc]
  split at h
  · cases h
    exact ⟨_, rfl, rfl, rfl⟩
  · cases h

theorem acquireRef_congr {u : SpecState} {id : Nat} (hr : s.refs = s'.refs) (hc : s.refsCnt = s'.refsCnt)
    (h : s.acquireRef id = .ok u) :
    ∃ u', s'.acquireRef id = .ok u' ∧ u.refs = u'.refs ∧ u.refsCnt = u'.refsCnt := by
  obtain ⟨cur, saved, refs, cnt⟩ := s
  obtain ⟨cur', saved', refs', cnt'⟩ := s'
  dsimp only at hr hc
  subst hr hc
  unfold SpecState.acquireRef at h ⊢
  split at h
  · rename_i hlt
    cases h
    exact ⟨_, dif_pos hlt, rfl, rfl⟩
  · cases h

theorem six_le {r : Reg} (h0 : r ≠ 0) (h : ¬ (1 ≤ r ∧ r ≤ 5)) : 6 ≤ r := by
  revert r
  decide

theorem high_reg {r : Reg} (h : 6 ≤ r) : r ≠ 0 ∧ ¬ (1 ≤ r ∧ r ≤ 5) := by
  revert r
  decide

/-- Submit and discard release the buffer in R1. -/
theorem releaseArg_refs {imm : Int32} (h : releaseArg s pc imm = .ok s') :
    (releaseEvents s imm = [] ∧ s'.refs = s.refs ∧ s'.refsCnt = s.refsCnt) ∨
    (∃ id, (imm = 132 ∨ imm = 133) ∧ (s.reg 1).memId = some id ∧ s.releaseRef id = some s') := by
  unfold releaseArg failure at h
  unfold releaseEvents
  by_cases him : imm = 132 ∨ imm = 133
  · rw [if_pos him] at h ⊢
    cases hv : s.reg 1 with
    | ptrToMem lo hi size id =>
      simp only [hv] at h
      split at h
      · rename_i hrel
        cases h
        exact .inr ⟨id, him, rfl, hrel⟩
      · cases h
    | _ =>
      simp only [hv] at h
      cases h
      exact .inl ⟨rfl, rfl, rfl⟩
  · rw [if_neg him] at h ⊢
    cases h
    exact .inl ⟨rfl, rfl, rfl⟩

theorem helperCall_saved {imm : Int32} (h : helperCall s pc c imm = .ok (s', c')) : s'.saved = s.saved := by
  obtain ⟨proto, s₁, s₂, s₃, -, -, hbuf, hrel, hres, rfl⟩ := helperCall_ok h
  obtain ⟨-, -, hsaved₁, -⟩ := writeBuffers_ok hbuf
  obtain ⟨-, hsaved₂⟩ := releaseArg_cur hrel
  obtain ⟨-, -, hsaved₃⟩ := setResult_cur hres
  exact hsaved₃.trans (hsaved₂.trans hsaved₁)

/-- Submit and discard acquire nothing. -/
theorem helperCall_zero {imm : Int32} (h : helperCall s pc c imm = .ok (s', c')) (him : imm = 132 ∨ imm = 133) :
    (s'.reg 0).nullableId = none := by
  obtain ⟨proto, s₁, s₂, s₃, hproto, -, -, -, hres, rfl⟩ := helperCall_ok h
  have hret : proto.ret = .zero := by
    rcases him with rfl | rfl <;>
    · obtain rfl := Option.some.inj hproto
      rfl
  rw [hret] at hres
  obtain ⟨rfl, rfl⟩ := Prod.mk.inj (Except.ok.inj hres)
  show ((s₂.setReg 0 (.constScalar 0)).reg 0).nullableId = none
  rw [setReg_reg]
  rfl

/-- The buffers after a helper call survived it, or are its result. -/
theorem helperCall_survives {imm : Int32} (h : helperCall s pc c imm = .ok (s', c')) (hv : Holds s' v)
    (hb : v.isBuffer = true) : Survives s v ∨ v = s'.reg 0 := by
  obtain ⟨-, hregs⟩ := helperCall_regs h
  obtain ⟨hspills, -⟩ := helperCall_stack h
  have hsaved := helperCall_saved h
  obtain ⟨f, hf, cell, hcv⟩ := hv
  unfold frameStack at hf
  rcases List.mem_cons.mp hf with rfl | hf
  · cases cell with
    | spill slot =>
      obtain ⟨y, hy, rfl⟩ := Option.map_eq_some_iff.mp hcv
      have hforget := (hspills slot).symm.trans hy
      rcases forgetSpill_eq_some hforget with rfl | ⟨lo, hi, -, rfl⟩ <;> cases hb
    | reg r =>
      have hval : s'.reg r = v := Option.some.inj hcv
      by_cases h0 : r = 0
      · subst h0
        exact .inr hval.symm
      · rw [hregs r h0] at hval
        split at hval
        · rw [← hval] at hb
          cases hb
        · rename_i hlow
          exact .inl (.inl ⟨r, six_le h0 hlow, hval⟩)
  · rw [hsaved] at hf
    exact .inl (.inr ⟨f, hf, cell, hcv⟩)

/-- What a helper does to the references: it may release the one in R1, and acquire a new one. -/
theorem helperCall_refs {imm : Int32} (h : helperCall s pc c imm = .ok (s', c')) :
    ∃ t : SpecState, ((releaseEvents s imm = [] ∧ t.refs = s.refs ∧ t.refsCnt = s.refsCnt) ∨
      (∃ id, (imm = 132 ∨ imm = 133) ∧ (s.reg 1).memId = some id ∧ s.releaseRef id = some t)) ∧
    ((c ≤ c' ∧ s'.refs = t.refs ∧ s'.refsCnt = t.refsCnt ∧ (s'.reg 0).isBuffer = false) ∨
      (∃ (size : Nat) (u : SpecState), c' = c + 1 ∧ s'.reg 0 = .ptrToMemOrNull size (c + 1) ∧
        t.acquireRef (c + 1) = .ok u ∧ s'.refs = u.refs ∧ s'.refsCnt = u.refsCnt)) := by
  obtain ⟨proto, s₁, s₂, s₃, -, -, hbuf, hrel, hres, rfl⟩ := helperCall_ok h
  obtain ⟨hregs₁, -, -, hrefs₁, hcnt₁, -⟩ := writeBuffers_ok hbuf
  have hle := setResult_le hres
  have hevents : releaseEvents s₁ imm = releaseEvents s imm := by
    have hreg : s₁.reg 1 = s.reg 1 := congrFun hregs₁ 1
    unfold releaseEvents
    rw [hreg]
  -- the state whose references are those after the release
  obtain ⟨t, hrefs, hcnt, ht⟩ : ∃ t : SpecState, s₂.refs = t.refs ∧ s₂.refsCnt = t.refsCnt ∧
      ((releaseEvents s imm = [] ∧ t.refs = s.refs ∧ t.refsCnt = s.refsCnt) ∨
        (∃ id, (imm = 132 ∨ imm = 133) ∧ (s.reg 1).memId = some id ∧ s.releaseRef id = some t)) := by
    rcases releaseArg_refs hrel with ⟨hno, hr, hc⟩ | ⟨id, him, hid, hr⟩
    · exact ⟨s, hr.trans hrefs₁, hc.trans hcnt₁, .inl ⟨hevents.symm.trans hno, rfl, rfl⟩⟩
    · obtain ⟨t, ht, hr', hc'⟩ := releaseRef_congr hrefs₁ hcnt₁ hr
      exact ⟨t, hr', hc', .inr ⟨id, him, (congrArg SpecValue.memId (congrFun hregs₁ 1)).symm.trans hid, ht⟩⟩
  refine ⟨t, ht, ?_⟩
  have hout : ∀ w : SpecState, (w.clobberArgs.forgetSpills).reg 0 = w.reg 0 := fun _ => rfl
  rcases setResult_ok hres with ⟨w, hw, rfl⟩ | ⟨size, rfl, hacq⟩
  · refine .inl ⟨hle, hrefs, hcnt, ?_⟩
    rw [hout, setReg_reg]
    cases w <;> first | rfl | cases hw
  · have hcur := (acquireRef_cur hacq).1
    have hrefs' : (s₂.setReg 0 (.ptrToMemOrNull size (c + 1))).refs = t.refs := hrefs
    have hcnt' : (s₂.setReg 0 (.ptrToMemOrNull size (c + 1))).refsCnt = t.refsCnt := hcnt
    obtain ⟨u, hu, hr, hc⟩ := acquireRef_congr hrefs' hcnt' hacq
    refine .inr ⟨size, u, rfl, ?_, hu, hr, hc⟩
    show s₃.cur.regs 0 = _
    rw [hcur]
    exact setReg_reg s₂ 0 _

/-- A step that is no check and no helper leaves the references. -/
theorem Did.refs (h : Did env c pc s sh pc' s' c')
    (hbranch : ∀ signed dst cmp src offset, sh ≠ .branch signed dst cmp src offset)
    (hhelper : ∀ imm, sh ≠ .helper imm) : s'.refs = s.refs ∧ s'.refsCnt = s.refsCnt ∧ c' = c := by
  cases h with
  | set | mov _ | mov32 _ | packet _ | load _ | jump => exact ⟨rfl, rfl, rfl⟩
  | alu64 h =>
    rename_i high _
    obtain ⟨-, -, v, -, rfl⟩ := alu64_ok h
    unfold mulHigh
    split <;> exact ⟨rfl, rfl, rfl⟩
  | alu32 h =>
    obtain ⟨-, -, lo, hi, rfl⟩ := alu32_ok h
    exact ⟨rfl, rfl, rfl⟩
  | store h => rcases store_ok h with ⟨lo, hi, stack, -, -, rfl⟩ | ⟨-, rfl⟩ | ⟨-, rfl⟩ <;> exact ⟨rfl, rfl, rfl⟩
  | atomic h =>
    obtain ⟨-, ⟨lo, hi, -, -, rfl⟩ | ⟨-, rfl⟩⟩ := atomic_ok h
    all_goals
      unfold atomicResult
      split
      · exact ⟨rfl, rfl, rfl⟩
      · split <;> exact ⟨rfl, rfl, rfl⟩
  | test h hmem =>
    obtain ⟨rfl, -⟩ := testBranch_ok h hmem
    exact ⟨rfl, rfl, rfl⟩
  | branch => exact absurd rfl (hbranch _ _ _ _ _)
  | helper => exact absurd rfl (hhelper _)
  | callSub h hmem =>
    obtain ⟨saved, -, -, -, -, -, hr, hc, -⟩ := callSub_ok h hmem
    exact ⟨hr, hc, rfl⟩
  | exit h hmem =>
    rcases (exitStep_ok h).2.2 with ⟨-, rfl⟩ | ⟨-, hret⟩
    · cases hmem
    · obtain ⟨caller, saved, -, -, rfl⟩ := exitCallee_ok hret hmem
      exact ⟨rfl, rfl, rfl⟩

theorem memEvents_null {dst : Reg} {cmp : Cmp} {src : Operand} {offset : Int16} {size id : Nat}
    (hreg : s.reg dst = .ptrToMemOrNull size id) :
    memEvents s (memNull s dst id) (.branch false dst cmp src offset) = [.void id] := by
  have hval : (memNull s dst id).reg dst = .constScalar 0 := by
    show (memNull s dst id).cur.regs dst = _
    rw [memNull_cur.1]
    exact setReg_reg s dst _
  show checkEvents (s.reg dst) ((memNull s dst id).reg dst) = _
  rw [hval, hreg]
  rfl

theorem memEvents_valid {dst : Reg} {cmp : Cmp} {src : Operand} {offset : Int16} {size id : Nat}
    (hreg : s.reg dst = .ptrToMemOrNull size id) :
    memEvents s (s.setReg dst (.ptrToMem 0 0 size id)) (.branch false dst cmp src offset) =
      [id].map .use := by
  show checkEvents (s.reg dst) ((s.setReg dst (.ptrToMem 0 0 size id)).reg dst) = _
  rw [setReg_reg, hreg]
  rfl

/-- A step of a plain shape. -/
theorem step_plain (hsh : shape env insn = sh) (hplain : ∀ imm, sh ≠ .helper imm)
    (h : step env c pc s insn = .ok (nodes, c')) : plainShape env pc s sh = .ok nodes := by
  have hstep : step env c pc s insn = (stepPlain env pc s insn).map fun nodes => (nodes, c) := by
    cases insn with
    | call imm => exact absurd hsh.symm (hplain imm)
    | _ => rfl
  rw [hstep, stepPlain_shape, hsh] at h
  obtain ⟨ns, hns, hn⟩ := exceptMap_ok h
  rw [hns, (Prod.mk.inj hn).1]

/-- Outside checks and helpers, a step only uses the buffer that it accesses. -/
theorem memEvents_uses (s s' : SpecState) (hbranch : ∀ signed dst cmp src offset, sh ≠ .branch signed dst cmp src offset)
    (hhelper : ∀ imm, sh ≠ .helper imm) :
    ∃ us : List Nat, memEvents s s' sh = us.map .use ∧ ∀ id ∈ us, ∃ r, (s.reg r).memId = some id := by
  cases sh with
  | load dst base off size signExtend =>
    exact ⟨_, rfl, fun id hid => ⟨base, Option.mem_toList.mp hid⟩⟩
  | store base off size src => exact ⟨_, rfl, fun id hid => ⟨base, Option.mem_toList.mp hid⟩⟩
  | branch => exact absurd rfl (hbranch _ _ _ _ _)
  | helper => exact absurd rfl (hhelper _)
  | _ => exact ⟨[], rfl, nofun⟩

theorem RefInv.counter (h : RefInv s (Holds s) c es) {c₀ : Nat} (hle : c ≤ c₀) : RefInv s (Holds s) c₀ es :=
  { h with fresh := fun id hid => le_trans (h.fresh id hid) hle }

/-- A careful step keeps the invariant. -/
theorem RefInv.step (h : RefInv s (Holds s) c es) (hp : Packed s.saved) (hdid : Did env c pc s sh pc' s' c')
    (hsh : shape env insn = sh) (hcare : Careful es s sh) :
    RefInv s' (Holds s') c' (es ++ memEvents s s' sh) := by
  by_cases hbranch : ∃ signed dst cmp src offset, sh = .branch signed dst cmp src offset
  · obtain ⟨signed, dst, cmp, src, offset, rfl⟩ := hbranch
    cases hdid with
    | branch hb hmem =>
      rcases branch_buffers hb hmem with ⟨hr, hc, hev, hH⟩ | ⟨size, id, rfl, hsrc, hreg, hside⟩
      · have hkeep : RefInv s' (Holds s') c (es ++ ([] : List Nat).map .use) :=
          h.uses hr hc (le_refl c) nofun fun v hv hbuf => .inl (hH v hv hbuf)
        have hev' : memEvents s s' (.branch signed dst cmp src offset) = ([] : List Nat).map .use := hev
        rw [hev']
        exact hkeep
      · obtain ⟨huse, hvoid⟩ := hcare hsrc id (by rw [hreg]; rfl)
        have hacq : .acquire id ∈ es := h.nullable _ id (holds_reg s dst) (by rw [hreg]; rfl)
        have hin := h.unchecked id hacq huse hvoid
        rcases hside with rfl | rfl
        · -- the NULL side
          have hin' : id ∈ held (s.setReg dst (.constScalar 0)) := hin
          obtain ⟨t, ht⟩ := releaseRef_isSome hin'
          have hs' : memNull s dst id = t := by
            unfold memNull
            dsimp only
            rw [ht]
            rfl
          have hrefs : (s.setReg dst (.constScalar 0)).refs = s.refs := rfl
          obtain ⟨u, hu, hr, hc⟩ := releaseRef_congr hrefs rfl ht
          rw [memEvents_null hreg]
          have hinv : RefInv u (Holds (memNull s dst id)) c (es ++ [.void id]) := by
            refine h.void hu huse ?_
            intro v hv hbuf
            have hv' : Holds (s.setReg dst (.constScalar 0)) v := by
              unfold Holds frameStack at hv ⊢
              rw [memNull_cur.1, memNull_cur.2] at hv
              exact hv
            rcases holds_setReg hv' with rfl | hold
            · cases hbuf
            · exact hold
          rw [hs'] at hinv ⊢
          exact hinv.imp hr hc (le_refl c) fun v hv _ => hv
        · rw [memEvents_valid hreg]
          refine h.uses rfl rfl (le_refl c) ?_ ?_
          · intro id' hid'
            rw [List.mem_singleton.mp hid']
            exact ⟨hin, hvoid⟩
          · intro v hv _
            rcases holds_setReg hv with rfl | hold
            · exact .inr ⟨id, List.mem_singleton_self _, rfl⟩
            · exact .inl hold
  · by_cases hhelper : ∃ imm, sh = .helper imm
    · obtain ⟨imm, rfl⟩ := hhelper
      cases hdid with
      | helper hc =>
        obtain ⟨t, hrel, hres⟩ := helperCall_refs hc
        have hlive (v : SpecValue) (hv : Survives s v) : Holds s v := by
          rcases hv with ⟨r, -, rfl⟩ | ⟨f, hf, cell, hcv⟩
          · exact holds_reg s r
          · exact holds_caller hf hcv
        have hreleased : RefInv t (Survives s) c (es ++ releaseEvents s imm) := by
          rcases hrel with ⟨hno, hr, hcnt⟩ | ⟨id, him, hid, hr⟩
          · rw [hno, List.append_nil]
            exact h.imp hr hcnt (le_refl c) fun v hv _ => hlive v hv
          · have hev : releaseEvents s imm = [.release id] := by
              unfold releaseEvents
              rw [if_pos him, hid]
              rfl
            rw [hev]
            refine h.release hr (h.mem _ id (holds_reg s 1) hid).2 ?_
            intro v hv _
            obtain ⟨hregs, hcallers⟩ := hcare him id hid
            refine ⟨hlive v hv, ?_⟩
            rcases hv with ⟨r, hr6, rfl⟩ | ⟨f, hf, cell, hcv⟩
            · exact hregs r hr6
            · exact frees_iff.mp (hcallers f hf) cell v hcv
        have hev : memEvents s s' (.helper imm) =
            releaseEvents s imm ++ (s'.reg 0).nullableId.toList.map .acquire := rfl
        rw [hev, ← List.append_assoc]
        rcases hres with ⟨hle, hr, hcnt, hplain⟩ | ⟨size, u, rfl, h0, hacq, hr, hcnt⟩
        · have hno : (s'.reg 0).nullableId = none := by
            cases hreg : s'.reg 0 <;> rw [hreg] at hplain <;> first | rfl | cases hplain
          rw [hno]
          have hinv : RefInv s' (Holds s') c' (es ++ releaseEvents s imm) := by
            refine hreleased.imp hr hcnt hle ?_
            intro v hv hbuf
            rcases helperCall_survives hc hv hbuf with hs | rfl
            · exact hs
            · rw [hplain] at hbuf
              cases hbuf
          exact (List.append_nil _).symm ▸ hinv
        · rw [h0]
          have hinv : RefInv u (Holds s') (c + 1) (es ++ releaseEvents s imm ++ [.acquire (c + 1)]) := by
            have hH : ∀ v, Holds s' v → v.isBuffer = true → Survives s v ∨ v = .ptrToMemOrNull size (c + 1) := by
              intro v hv hbuf
              rcases helperCall_survives hc hv hbuf with hs | rfl
              · exact .inl hs
              · exact .inr h0
            exact hreleased.acquire hacq hH
          exact hinv.imp hr hcnt (le_refl _) fun v hv _ => hv
    · have hnb : ∀ signed dst cmp src offset, sh ≠ .branch signed dst cmp src offset :=
        fun _ _ _ _ _ heq => hbranch ⟨_, _, _, _, _, heq⟩
      have hnh : ∀ imm, sh ≠ .helper imm := fun _ heq => hhelper ⟨_, heq⟩
      obtain ⟨hr, hc, rfl⟩ := hdid.refs hnb hnh
      obtain ⟨us, hev, hus⟩ := memEvents_uses s s' hnb hnh
      rw [hev]
      refine h.uses hr hc (le_refl _) ?_ ?_
      · intro id hid
        obtain ⟨r, hmem⟩ := hus id hid
        obtain ⟨hin, huse⟩ := h.mem _ id (holds_reg s r) hmem
        exact ⟨hin, h.kept id huse⟩
      · intro v hv hbuf
        rcases holds_step hdid hsh hp hbuf hv with hold | ⟨_, _, _, _, _, _, _, heq, -⟩ | ⟨_, _, heq, -⟩
        · exact .inl hold
        · exact absurd heq (hnb _ _ _ _ _)
        · exact absurd heq (hnh _)

end Steps

/-! ## The paths -/

section Paths

variable {env : Env} {cond : List (Event Nat) → SpecState → Shape → Prop} {p q : Point} {es : List (Event Nat)}
  {insn : BpfInsn}

theorem RefRun.reached (h : RefRun env cond p es) : Reached env p := by
  induction h with
  | start => exact .start
  | edge _ hedge _ ih => exact .edge ih hedge

theorem RefRun.imp {cond' : List (Event Nat) → SpecState → Shape → Prop} (h : RefRun env cond p es)
    (himp : ∀ es s sh, cond es s sh → cond' es s sh) : RefRun env cond' p es := by
  induction h with
  | start => exact .start
  | edge _ hedge hcond ih => exact .edge ih hedge (himp _ _ _ hcond)

theorem refInv_initial : RefInv .initial (Holds .initial) firstRefId [] := by
  have hheld : held .initial = ∅ := held_empty rfl
  refine ⟨?_, ⟨?_, by decide⟩, nofun, fun _ => Nat.zero_le _, ?_, ?_, nofun, nofun⟩
  · rw [hheld]
    rfl
  · intro i j hi
    exact absurd hi (Nat.not_lt_zero _)
  · intro v id hv hid
    obtain ⟨hplain, hstack⟩ := plain_of_isBuffer (isBuffer_of_memId hid)
    rcases holds_initial hv with h | h
    · rw [hplain] at h
      cases h
    · exact absurd h hstack
  · intro v id hv hid
    obtain ⟨hplain, hstack⟩ := plain_of_isBuffer (isBuffer_of_nullableId hid)
    rcases holds_initial hv with h | h
    · rw [hplain] at h
      cases h
    · exact absurd h hstack

/-- Careful paths keep the invariant. -/
theorem RefRun.inv (h : RefRun env Careful p es) : RefInv p.state (Holds p.state) p.nextId es := by
  induction h with
  | start => exact refInv_initial
  | @edge p q es insn hrun hedge hcare ih =>
    obtain ⟨c, hle, hdid⟩ := hedge.did
    exact (ih.counter hle).step hrun.reached.packed hdid rfl hcare

/-- What an accepted exit finds: every buffer that was acquired was ended once, and released
    when it was found not to be NULL. -/
def Settled (p : Point) (es : List (Event Nat)) : Prop :=
  ∀ nodes, exitStep p.state p.pc = .ok nodes → ∀ id,
    es.count (.release id) + es.count (.void id) = es.count (.acquire id) ∧
    (.use id ∈ es → es.count (.void id) = 0)

theorem Tracked.settled (h : Tracked p.state es) : Settled p es := by
  intro nodes hexit id
  refine ⟨?_, fun huse => List.count_eq_zero.mpr (h.kept id huse)⟩
  have hempty := held_empty (exitStep_ok hexit).2.1
  have haudit := h.audited
  rw [hempty] at haudit
  have hbal := Ledger.audit_balance haudit id
  rw [if_neg (Finset.notMem_empty id)] at hbal
  omega

/-- No condition on the steps. -/
def AnyStep (_ : List (Event Nat)) (_ : SpecState) (_ : Shape) : Prop := True

theorem RefRun.of_careful (hall : ∀ p es insn q, RefRun env AnyStep p es → Edge env p insn q →
    Careful es p.state (shape env insn)) (h : RefRun env AnyStep p es) : RefRun env Careful p es := by
  induction h with
  | start => exact .start
  | edge hrun hedge _ ih => exact .edge ih hedge (hall _ _ _ _ hrun hedge)

/-- A step that is not careful leads to a state that is not tracked. -/
theorem careful_of_tracked (htracked : ∀ p es, RefRun env AnyStep p es → Tracked p.state es)
    (hrun : RefRun env AnyStep p es) (hedge : Edge env p insn q) : Careful es p.state (shape env insn) := by
  have hnow := htracked p es hrun
  have hnext {q' : Point} (hq : Edge env p insn q') :
      Tracked q'.state (es ++ memEvents p.state q'.state (shape env insn)) :=
    htracked _ _ (.edge hrun hq trivial)
  cases hedge with
  | @step c c₀ c' pc pc' s s' insn nodes hle hinsn hstep hmem =>
    generalize hsh : shape env insn = sh at hnext
    by_cases hcheck : ∃ dst cmp src offset, sh = .branch false dst cmp src offset
    · obtain ⟨dst, cmp, src, offset, rfl⟩ := hcheck
      intro hsrc id hid
      obtain ⟨size, hreg⟩ := nullableId_eq_some hid
      have hplain : (if false = true then branchSigned s pc dst cmp (src.get s) offset (src.isReg dst)
          else branch s pc dst cmp (src.get s) offset (src.isReg dst)) = .ok nodes := step_plain hsh nofun hstep
      obtain ⟨-, hzero, -⟩ := branch_nullable hreg hplain
      obtain ⟨pc₁, pc₂, hn⟩ := hzero hsrc
      have hboth : (pc₁, memNull s dst id) ∈ nodes ∧ (pc₂, s.setReg dst (.ptrToMem 0 0 size id)) ∈ nodes := by
        rcases hn with rfl | rfl <;> simp
      have hnull := hnext (.step hle hinsn hstep hboth.1)
      have hvalid := hnext (.step hle hinsn hstep hboth.2)
      rw [memEvents_null hreg] at hnull
      rw [memEvents_valid hreg] at hvalid
      refine ⟨?_, ?_⟩
      · intro huse
        exact hnull.kept id (List.mem_append_left _ huse) (List.mem_append_right _ (List.mem_singleton_self _))
      · intro hvoid
        exact hvalid.kept id (List.mem_append_right _ (List.mem_singleton_self _)) (List.mem_append_left _ hvoid)
    by_cases hhelper : ∃ imm, sh = .helper imm
    · obtain ⟨imm, rfl⟩ := hhelper
      intro him id hid
      obtain rfl := shape_call hsh
      obtain ⟨⟨t, c''⟩, hcall, hn⟩ := exceptMap_ok hstep
      obtain ⟨rfl, rfl⟩ := Prod.mk.inj hn
      obtain ⟨rfl, rfl⟩ := Prod.mk.inj (List.mem_singleton.mp hmem)
      have hafter := hnext (.step hle hinsn hstep hmem)
      have hzero : (s'.reg 0).nullableId = none := helperCall_zero hcall him
      have hev : memEvents s s' (.helper imm) = [.release id] := by
        show releaseEvents s imm ++ (s'.reg 0).nullableId.toList.map .acquire = _
        rw [hzero]
        unfold releaseEvents
        rw [if_pos him, hid]
        rfl
      rw [hev] at hafter
      have hgone : id ∉ held s' := by
        have haudit := hafter.audited
        rw [Ledger.audit_append, hnow.audited] at haudit
        rw [Option.bind_some, Ledger.audit_cons] at haudit
        obtain ⟨after, hbook, hnil⟩ := Option.bind_eq_some_iff.mp haudit
        cases hnil
        exact Ledger.not_held_of_ends hbook (.inl rfl)
      refine ⟨?_, ?_⟩
      · intro r hr hmemId
        obtain ⟨h0, hlow⟩ := high_reg hr
        have hval : s'.reg r = s.reg r := ((helperCall_regs hcall).2 r h0).trans (if_neg hlow)
        exact hgone (hafter.accessible _ id (holds_reg s' r) (by rw [hval]; exact hmemId))
      · intro f hf
        refine frees_iff.mpr fun cell v hv hmemId => ?_
        rw [← helperCall_saved hcall] at hf
        exact hgone (hafter.accessible v id (holds_caller hf hv) hmemId)
    · cases sh with
      | branch signed dst cmp src offset =>
        cases signed with
        | false => exact absurd ⟨_, _, _, _, rfl⟩ hcheck
        | true => trivial
      | helper imm => exact absurd ⟨_, rfl⟩ hhelper
      | _ => trivial

/-- Whatever a run explores is on such a path. -/
theorem refRun_of_reached (h : Reached env p) : ∃ es, RefRun env AnyStep p es := by
  induction h with
  | start => exact ⟨[], .start⟩
  | edge _ hedge ih =>
    obtain ⟨es, hrun⟩ := ih
    exact ⟨_, .edge hrun hedge trivial⟩

end Paths

/-- On a path of careful steps the references are tracked and settled at every exit; and the
    paths of a program are all tracked exactly when all their steps are careful. Every state
    that a run explores is on a path. -/
theorem resource_safety (env : Env) :
    (∀ p es, RefRun env Careful p es → Tracked p.state es ∧ Settled p es) ∧
    ((∀ p es, RefRun env AnyStep p es → Tracked p.state es ∧ Settled p es) ↔
      ∀ p es insn q, RefRun env AnyStep p es → Edge env p insn q → Careful es p.state (shape env insn)) ∧
    (∀ r, Explored env r → ∀ n, n ∈ r.worklist ∨ n ∈ r.visited →
      ∃ p es, RefRun env AnyStep p es ∧ (p.pc, p.state) = n) := by
  have hcareful (p : Point) (es : List (Event Nat)) (h : RefRun env Careful p es) :
      Tracked p.state es ∧ Settled p es := ⟨h.inv.tracked, h.inv.tracked.settled⟩
  refine ⟨hcareful, ⟨?_, ?_⟩, ?_⟩
  · intro h p es insn q hrun hedge
    exact careful_of_tracked (fun p es hp => (h p es hp).1) hrun hedge
  · intro hall p es hrun
    exact hcareful p es (hrun.of_careful hall)
  · intro r hr n hn
    obtain ⟨hwork, hvisited⟩ := hr.reached
    obtain ⟨p, hp, -, heq⟩ : OnPath env r.nextId n := hn.elim (hwork n) (hvisited n)
    obtain ⟨es, hrun⟩ := refRun_of_reached hp
    exact ⟨p, es, hrun, heq⟩

/-! ## A reservation and its submit -/

/-- Follow a path with its ledger, as long as its steps meet a condition. -/
def walkRefs (env : Env) (cond : List (Event Nat) → SpecState → Shape → Prop)
    [∀ es s sh, Decidable (cond es s sh)] :
    List Nat → Point → List (Event Nat) → Option (Point × List (Event Nat))
  | [], p, es => some (p, es)
  | k :: ks, p, es =>
    match p.next env k with
    | some (insn, q) =>
      if cond es p.state (shape env insn) then
        walkRefs env cond ks q (es ++ memEvents p.state q.state (shape env insn))
      else none
    | none => none

theorem walkRefs_run {env : Env} {cond : List (Event Nat) → SpecState → Shape → Prop}
    [∀ es s sh, Decidable (cond es s sh)] {ks : List Nat} {p q : Point} {es es' : List (Event Nat)}
    (hrun : RefRun env cond p es) (h : walkRefs env cond ks p es = some (q, es')) : RefRun env cond q es' := by
  induction ks generalizing p es with
  | nil =>
    cases h
    exact hrun
  | cons k ks ih =>
    unfold walkRefs at h
    split at h
    · rename_i insn p' hnext
      split at h
      · rename_i hcond
        exact ih (.edge hrun (next_edge hnext) hcond) h
      · cases h
    · cases h

instance (es : List (Event Nat)) (s : SpecState) (sh : Shape) : Decidable (AnyStep es s sh) := .isTrue trivial

/-- One ring buffer, and a program that reserves 8 bytes of it. -/
def reserveEnv (found : List BpfInsn) : Env where
  program := [.ldMapFd 1 0 0 0 1, .ldImm64Second 0, .movImm 2 8, .movImm 3 0, .call 131] ++ found ++
    [.movImm 0 0, .exit]
  maps fd := if fd = 0 then some ⟨.ringbuf, 0, 0⟩ else none
  progType := .socketFilter

/-- Store through the buffer, then submit it. -/
def storeThenSubmit : Env :=
  reserveEnv [.jeqImm 0 0 4, .stMemImm 0 0 0 .dw, .movReg 1 0, .movImm 2 0, .call 132]

/-- Submit the buffer, then store through a copy. -/
def submitThenStore : Env :=
  reserveEnv [.jeqImm 0 0 5, .movReg 6 0, .movReg 1 0, .movImm 2 0, .call 132, .stMemImm 0 6 0 .dw]

/-- The careful path of a store and a submit. -/
theorem resource_safety_submit :
    ∃ p es, p.pc = 11 ∧ .release (firstRefId + 1) ∈ es ∧ Tracked p.state es ∧ Settled p es := by
  have hwalk : (walkRefs storeThenSubmit Careful [0, 0, 0, 0, 1, 0, 0, 0, 0, 0] .initial []).any
      (fun x => x.1.pc = 11 ∧ .release (firstRefId + 1) ∈ x.2) = true := by decide
  obtain ⟨⟨p, es⟩, hw, hx⟩ := (Option.any_eq_true _ _).mp hwalk
  obtain ⟨hpc, hrel⟩ := of_decide_eq_true hx
  exact ⟨p, es, hpc, hrel, (resource_safety storeThenSubmit).1 p es (walkRefs_run .start hw)⟩

/-- A buffer is submitted, and a store through its copy in R6 is accepted, as is the
    program. -/
theorem use_after_submit :
    verifySpecWith submitThenStore = .accept ∧
    ∃ p es q id, RefRun submitThenStore AnyStep p es ∧ Edge submitThenStore p (.stMemImm 0 6 0 .dw) q ∧
      .release id ∈ es ∧ (p.state.reg 6).memId = some id ∧ ¬ p.state.HasRef id ∧ ¬ Tracked p.state es := by
  refine ⟨by decide, ?_⟩
  have hwalk : (walkRefs submitThenStore AnyStep [0, 0, 0, 0, 1, 0, 0, 0, 0] .initial []).any
      (fun x => .release (firstRefId + 1) ∈ x.2 ∧ (x.1.state.reg 6).memId = some (firstRefId + 1) ∧
        ¬ x.1.state.HasRef (firstRefId + 1) ∧
        ((x.1.next submitThenStore 0).any fun y => y.1 = .stMemImm 0 6 0 .dw) = true) = true := by
    decide
  obtain ⟨⟨p, es⟩, hw, hx⟩ := (Option.any_eq_true _ _).mp hwalk
  obtain ⟨hrel, hreg, hno, hnext⟩ := of_decide_eq_true hx
  obtain ⟨⟨insn, q⟩, hq, heq⟩ := (Option.any_eq_true _ _).mp hnext
  obtain rfl : insn = .stMemImm 0 6 0 .dw := of_decide_eq_true heq
  refine ⟨p, es, q, firstRefId + 1, walkRefs_run .start hw, next_edge hq, hrel, hreg, hno, ?_⟩
  intro htracked
  exact hno (mem_held.mp (htracked.accessible _ _ (holds_reg p.state 6) hreg))

end RandVerifier.Spec
