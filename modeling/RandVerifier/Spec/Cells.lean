/-
  RandVerifier.Spec.Cells — where the values of the current frame come from.

  A cell is a register or a spill of a frame. Inside a frame a step copies, moves or
  refines values, or writes plain ones: those that point to no frame and to no acquired
  buffer. `Shape.origin` names the cell that each cell takes its value from, and
  `Did.origin` says that nothing else gets in: only a helper makes a new buffer.
-/

import RandVerifier.Spec.StackValues

namespace RandVerifier.Spec

inductive Cell where
  | reg (r : Reg)
  | spill (slot : Fin specSlots)
  deriving DecidableEq

def Cell.value (f : SpecFrame) : Cell → Option SpecValue
  | reg r => some (f.regs r)
  | spill slot => (f.stack.spill slot).map Spill.value

/-- Values that point to no frame and to no acquired buffer. -/
def SpecValue.isPlain : SpecValue → Bool
  | ptrToStack .. | ptrToMem .. | ptrToMemOrNull .. => false
  | _ => true

/-- The slot that a full-width access at a known offset spills to or fills from. -/
def spillSlot (s : SpecState) (base : Reg) (off : Int) (size : MemSize) : Option (Fin specSlots) :=
  match s.reg base with
  | .ptrToStack lo hi =>
    if size = .dw ∧ lo = hi then SpecStack.slotOf (specStackSize + accessStart lo off) else none
  | _ => none

/-- A register filled from a slot. -/
def fillOrigin (slot : Option (Fin specSlots)) (r : Reg) : Cell :=
  match slot with
  | some slot => .spill slot
  | none => .reg r

/-- The register that an atomic leaves the value it found in. -/
def fetchReg (src : Reg) (op : AtomicOp) (fetch : Bool) : Option Reg :=
  if op = .cmpxchg then some 0 else if fetch then some src else none

/-- The cell that a cell of the current frame takes its value from. -/
def Shape.origin (s : SpecState) : Shape → Cell → Cell
  | .mov dst src, .reg r => if r = dst then .reg src else .reg r
  | .alu64 dst _ (.reg src) _, .reg r => if r = dst ∧ (s.reg dst).isPointer = false then .reg src else .reg r
  | .load dst base off size _, .reg r => if r = dst then fillOrigin (spillSlot s base off size) r else .reg r
  | .atomic dst src off size op fetch, .reg r =>
    if fetchReg src op fetch = some r then fillOrigin (spillSlot s dst off size) r else .reg r
  | .store base off size (.reg src), .spill slot =>
    if spillSlot s base off size = some slot then .reg src else .spill slot
  | _, cell => cell

/-- How a value follows from the value of its origin; `c` is the id counter after the step. -/
inductive Derived (c : Nat) : Shape → Option SpecValue → SpecValue → Prop
  | plain {sh : Shape} {o : Option SpecValue} {v : SpecValue} : v.isPlain = true → Derived c sh o v
  | copy {sh : Shape} {v : SpecValue} : Derived c sh (some v) v
  | moved {sh : Shape} {v v' : SpecValue} : Moved v v' → Derived c sh (some v) v'
  | checked {signed : Bool} {dst : Reg} {cmp : Cmp} {src : Operand} {offset : Int16} {size id : Nat} :
      Derived c (.branch signed dst cmp src offset) (some (.ptrToMemOrNull size id)) (.ptrToMem 0 0 size id)
  | acquired {imm : Int32} {o : Option SpecValue} {size : Nat} :
      Derived c (.helper imm) o (.ptrToMemOrNull size c)

section Cells

variable {env : Env} {c c' pc pc' : Nat} {s s' : SpecState} {sh : Shape} {f : SpecFrame} {r dst : Reg}
  {v : SpecValue} {slot : Fin specSlots} {stack stack' : SpecStack} {lo hi off : Int} {size : MemSize}

@[simp] theorem value_reg : (Cell.reg r).value f = some (f.regs r) := rfl

@[simp] theorem value_spill : (Cell.spill slot).value f = (f.stack.spill slot).map Spill.value := rfl

theorem plain_of_scalar (h : v.isScalar = true) : v.isPlain = true := by
  cases v with
  | scalar _ _ => rfl
  | _ => cases h

/-! ## The stack -/

/-- What a slot holds after a store. -/
theorem stackStore_spill (h : stack.store pc lo hi off size v = .ok stack') {x : Spill}
    (hx : stack'.spill slot = some x) :
    if size = .dw ∧ lo = hi ∧ SpecStack.slotOf (specStackSize + accessStart lo off) = some slot
    then x = Spill.ofValue v else stack.spill slot = some x := by
  unfold SpecStack.store at h
  obtain ⟨_, hrange, hrun⟩ := bind_eq_ok.mp h
  by_cases heq : lo = hi
  · subst heq
    rw [if_pos rfl] at hrun
    by_cases hdw : size = .dw
    · rw [if_pos hdw] at hrun
      obtain ⟨slot', hslot, hspill, -⟩ := storeFull_ok hrun
      rw [hspill] at hx
      by_cases hs : slot = slot'
      · subst hs
        rw [Function.update_self] at hx
        rw [if_pos ⟨hdw, rfl, slotOf_eq_some.mpr hslot⟩]
        exact (Option.some.inj hx).symm
      · rw [Function.update_of_ne hs] at hx
        rw [if_neg]
        · exact hx
        · rintro ⟨-, -, hof⟩
          have hval := slotOf_eq_some.mp hof
          exact hs (Fin.ext (by omega))
    · rw [if_neg hdw] at hrun
      obtain ⟨slot', -, hspill, -⟩ := storeNarrow_ok (checkStackRange_ok hrange).1 hrun
      rw [if_neg fun hc => hdw hc.1]
      rw [hspill] at hx
      by_cases hs : slot = slot'
      · subst hs
        rw [Function.update_self] at hx
        cases hx
      · rw [Function.update_of_ne hs] at hx
        exact hx
  · rw [if_neg heq] at hrun
    obtain ⟨-, hspill, -⟩ := storeVariable_ok hrun
    rw [if_neg fun hc => heq hc.2.1]
    rw [hspill] at hx
    exact hx

/-- A load fills a register from a spill, or yields a scalar. -/
theorem stackLoad_value {signExtend : Bool} (h : stack.load pc lo hi off size signExtend = .ok v) :
    v.isScalar = true ∨ (size = .dw ∧ lo = hi ∧
      ∃ slot x, SpecStack.slotOf (specStackSize + accessStart lo off) = some slot ∧ stack.spill slot = some x ∧
        v = x.value) := by
  unfold SpecStack.load at h
  obtain ⟨_, -, hrun⟩ := bind_eq_ok.mp h
  by_cases heq : lo = hi
  · rw [if_pos heq] at hrun
    unfold SpecStack.loadKnown failure at hrun
    dsimp only at hrun
    split at hrun
    · split at hrun
      · cases hrun
      · cases hrun
        exact .inl rfl
    · rename_i x hx
      obtain ⟨slot, hslot, hsp⟩ := Option.bind_eq_some_iff.mp hx
      split at hrun
      · rename_i hdw
        cases hrun
        exact .inr ⟨hdw, heq, slot, x, hslot, hsp, rfl⟩
      · split at hrun
        · cases hrun
        · split at hrun
          · cases hrun
          · cases hrun
            exact .inl rfl
  · rw [if_neg heq] at hrun
    unfold SpecStack.loadVariable failure at hrun
    split at hrun
    · cases hrun
    · split at hrun
      · cases hrun
      · cases hrun
        exact .inl rfl

/-- An atomic finds a spill, or yields a scalar. -/
theorem atomicOld_value (stack : SpecStack) (lo hi start : Int) (size : MemSize) :
    (stack.atomicOld lo hi start size).isScalar = true ∨ (size = .dw ∧ lo = hi ∧
      ∃ slot x, SpecStack.slotOf (specStackSize + start) = some slot ∧ stack.spill slot = some x ∧
        stack.atomicOld lo hi start size = x.value) := by
  unfold SpecStack.atomicOld
  split
  · rename_i hfull
    split
    · rename_i x hx
      obtain ⟨slot, hslot, hsp⟩ := Option.bind_eq_some_iff.mp hx
      exact .inr ⟨hfull.1, hfull.2, slot, x, hslot, hsp, rfl⟩
    · exact .inl rfl
  · exact .inl rfl

/-! ## The instructions -/

theorem shape_set {insn : BpfInsn} {width : Nat} (h : shape env insn = .set dst v width) : v.isPlain = true := by
  cases insn with
  | movImm _ _ | mov32Imm _ _ | ldImm64 _ _ | ldMapValue _ _ _ _ _ =>
    cases h
    rfl
  | ldMapFd dst' fd _ _ _ =>
    cases h
    cases env.maps fd <;> rfl
  | _ => cases h

theorem shape_store {insn : BpfInsn} {base : Reg} (h : shape env insn = .store base off size (.value v)) :
    v.isPlain = true := by
  cases insn with
  | stMemImm _ _ _ _ =>
    cases h
    rfl
  | _ => cases h

/-- The result of a helper: a plain value, or a new buffer. -/
theorem setResult_ok {ret : SpecRet} (h : setResult s pc c ret = .ok (s', c')) :
    (∃ v, v.isPlain = true ∧ s' = s.setReg 0 v) ∨
    (∃ size, c' = c + 1 ∧ (s.setReg 0 (.ptrToMemOrNull size (c + 1))).acquireRef (c + 1) = .ok s') := by
  cases ret with
  | memOrNull =>
    simp only [setResult] at h
    split at h
    · rename_i hacq
      obtain ⟨rfl, rfl⟩ := Prod.mk.inj (Except.ok.inj h)
      exact .inr ⟨_, rfl, hacq⟩
    · cases h
  | _ =>
    obtain ⟨rfl, rfl⟩ := Prod.mk.inj (Except.ok.inj h)
    exact .inl ⟨_, rfl, rfl⟩

/-- The registers after a helper: those above R5 stay, R0 is plain or a new buffer. -/
theorem helperCall_regs {imm : Int32} (h : helperCall s pc c imm = .ok (s', c')) :
    ((s'.reg 0).isPlain = true ∨ ∃ size, s'.reg 0 = .ptrToMemOrNull size c') ∧
    ∀ r, r ≠ 0 → s'.reg r = if 1 ≤ r ∧ r ≤ 5 then .uninit else s.reg r := by
  obtain ⟨proto, s₁, s₂, s₃, -, -, hbuf, hrel, hres, rfl⟩ := helperCall_ok h
  obtain ⟨hregs, -⟩ := writeBuffers_ok hbuf
  obtain ⟨hcur, -⟩ := releaseArg_cur hrel
  have hreg (r : Reg) : s₂.reg r = s.reg r := by
    show s₂.cur.regs r = s.cur.regs r
    rw [hcur, hregs]
  have hout (r : Reg) : (s₃.clobberArgs.forgetSpills).reg r = if 1 ≤ r ∧ r ≤ 5 then .uninit else s₃.reg r := rfl
  have hlow : ¬ ((1 : Reg) ≤ 0 ∧ (0 : Reg) ≤ 5) := by decide
  rw [hout, if_neg hlow]
  rcases setResult_ok hres with ⟨v, hv, rfl⟩ | ⟨size, rfl, hacq⟩
  · refine ⟨.inl (by rw [setReg_reg]; exact hv), ?_⟩
    intro r hr
    rw [hout]
    show (if _ then _ else Function.update s₂.cur.regs 0 v r) = _
    rw [Function.update_of_ne hr]
    exact congrArg _ (hreg r)
  · have hcur₃ := (acquireRef_cur hacq).1
    have hreg₃ (r : Reg) : s₃.reg r = (s₂.setReg 0 (.ptrToMemOrNull size (c + 1))).reg r := by
      show s₃.cur.regs r = _
      rw [hcur₃]
      rfl
    refine ⟨.inr ⟨size, by rw [hreg₃, setReg_reg]⟩, ?_⟩
    intro r hr
    rw [hout, hreg₃]
    show (if _ then _ else Function.update s₂.cur.regs 0 _ r) = _
    rw [Function.update_of_ne hr]
    exact congrArg _ (hreg r)

/-- A register that takes a new value; the other cells stay. -/
theorem setReg_derived {cell : Cell} {x : SpecValue} (hv : cell.value (s.setReg dst v).cur = some x)
    (hreg : cell = .reg dst → Derived c sh ((sh.origin s (.reg dst)).value s.cur) v)
    (hother : cell ≠ .reg dst → sh.origin s cell = cell) : Derived c sh ((sh.origin s cell).value s.cur) x := by
  by_cases hc : cell = .reg dst
  · subst hc
    have hx : v = x := (setReg_reg s dst v).symm.trans (Option.some.inj hv)
    rw [← hx]
    exact hreg rfl
  · rw [hother hc]
    have hsame : cell.value (s.setReg dst v).cur = cell.value s.cur := by
      cases cell with
      | reg r =>
        have hne : r ≠ dst := fun heq => hc (by rw [heq])
        exact congrArg some (Function.update_of_ne hne ..)
      | spill slot => rfl
    rw [← hsame, hv]
    exact .copy

/-- What a register is filled with. -/
theorem fill_derived {base : Reg} {x : SpecValue} (hreg : s.reg base = .ptrToStack lo hi)
    (hx : x.isScalar = true ∨ (size = .dw ∧ lo = hi ∧
      ∃ slot y, SpecStack.slotOf (specStackSize + accessStart lo off) = some slot ∧
        s.cur.stack.spill slot = some y ∧ x = y.value)) :
    Derived c sh ((fillOrigin (spillSlot s base off size) r).value s.cur) x := by
  rcases hx with hx | ⟨hdw, heq, slot, y, hslot, hsp, rfl⟩
  · exact .plain (plain_of_scalar hx)
  · have hfill : spillSlot s base off size = some slot := by
      unfold spillSlot
      rw [hreg]
      exact (if_pos ⟨hdw, heq⟩).trans hslot
    rw [hfill]
    show Derived c sh ((s.cur.stack.spill slot).map Spill.value) y.value
    rw [hsp]
    exact .copy

theorem atomicResult_derived {src : Reg} {op : AtomicOp} {fetch : Bool} {x old : SpecValue} {cell : Cell}
    {t : SpecState} (hv : cell.value (atomicResult t src op fetch old).cur = some x)
    (ht : ∀ cell y, cell.value t.cur = some y → (Cell.value s.cur cell) = some y)
    (hold : ∀ r, Derived c (.atomic dst src off size op fetch)
      ((fillOrigin (spillSlot s dst off size) r).value s.cur) old) :
    Derived c (.atomic dst src off size op fetch) (((Shape.atomic dst src off size op fetch).origin s cell).value s.cur) x := by
  have kept {cell : Cell} (hc : cell.value t.cur = some x)
      (horigin : (Shape.atomic dst src off size op fetch).origin s cell = cell) :
      Derived c (.atomic dst src off size op fetch) (((Shape.atomic dst src off size op fetch).origin s cell).value s.cur) x := by
    rw [horigin, ht _ _ hc]
    exact .copy
  have set {r₀ : Reg} (hfetch : fetchReg src op fetch = some r₀)
      (hc : cell.value (t.setReg r₀ old).cur = some x) :
      Derived c (.atomic dst src off size op fetch) (((Shape.atomic dst src off size op fetch).origin s cell).value s.cur) x := by
    cases cell with
    | reg r =>
      by_cases hr : r = r₀
      · subst hr
        have hself : old = x := (setReg_reg t r old).symm.trans (Option.some.inj hc)
        rw [← hself]
        simp only [Shape.origin, if_pos hfetch]
        exact hold r
      · have hne : fetchReg src op fetch ≠ some r := by
          rw [hfetch]
          exact fun h => hr (Option.some.inj h).symm
        refine kept ?_ (if_neg hne)
        rw [← hc]
        exact congrArg some (Function.update_of_ne hr ..).symm
    | spill slot => exact kept hc rfl
  unfold atomicResult at hv
  split at hv
  · rename_i hcmp
    exact set (if_pos hcmp) hv
  · rename_i hcmp
    split at hv
    · rename_i hfetch
      exact set ((if_neg hcmp).trans (if_pos hfetch)) hv
    · rename_i hfetch
      refine kept hv ?_
      have hnone : fetchReg src op fetch = none := (if_neg hcmp).trans (if_neg hfetch)
      cases cell with
      | reg r => exact if_neg (by rw [hnone]; nofun)
      | spill slot => rfl

/-- A branch refines registers; the spills stay. -/
theorem refined_derived {signed : Bool} {cmp : Cmp} {src : Operand} {offset : Int16} {cell : Cell} {x : SpecValue}
    (h : Refined s dst s') (hv : cell.value s'.cur = some x) :
    Derived c (.branch signed dst cmp src offset) (cell.value s.cur) x := by
  have other {v : SpecValue} (hv : cell.value (s.setReg dst v).cur = some x)
      (hreg : Derived c (.branch signed dst cmp src offset) (some (s.reg dst)) v) :
      Derived c (.branch signed dst cmp src offset) (cell.value s.cur) x := by
    cases cell with
    | reg r =>
      by_cases hr : r = dst
      · subst hr
        have hself : v = x := (setReg_reg s r v).symm.trans (Option.some.inj hv)
        rw [← hself]
        exact hreg
      · have hsame : s.cur.regs r = x := (Function.update_of_ne hr ..).symm.trans (Option.some.inj hv)
        rw [value_reg, hsame]
        exact .copy
    | spill slot =>
      have hspill : (Cell.spill slot).value s.cur = some x := hv
      rw [hspill]
      exact .copy
  cases h with
  | same =>
    rw [hv]
    exact .copy
  | scalar _ => exact other hv (.plain rfl)
  | @lookup size id w hreg hw =>
    cases cell with
    | reg r =>
      have hx : refineLookup id w (s.cur.regs r) = x := Option.some.inj hv
      unfold refineLookup at hx
      split at hx
      · rename_i heq
        split at hx
        · refine .plain ?_
          rw [← hx]
          rcases hw with rfl | rfl <;> rfl
        · refine .plain ?_
          rw [← hx]
          rfl
      · rw [value_reg, hx]
        exact .copy
    | spill slot =>
      have hspill : (Cell.spill slot).value s.cur = some x := hv
      rw [hspill]
      exact .copy
  | @memNull size id hreg =>
    rw [(memNull_cur (s := s)).1] at hv
    exact other hv (.plain rfl)
  | @memValid size id hreg =>
    refine other hv ?_
    rw [hreg]
    exact .checked

theorem store_derived {base : Reg} {src : Operand} {cell : Cell} {x : SpecValue}
    (h : store s pc base off size (src.get s) = .ok s') (hv : cell.value s'.cur = some x)
    (himm : ∀ v, src = .value v → v.isPlain = true) :
    Derived c (.store base off size src) (((Shape.store base off size src).origin s cell).value s.cur) x := by
  -- nothing but the slot that is spilled to changes
  have kept (hc : cell.value s.cur = some x)
      (hslot : ∀ slot, cell = .spill slot → spillSlot s base off size ≠ some slot) :
      Derived c (.store base off size src) (((Shape.store base off size src).origin s cell).value s.cur) x := by
    have horigin : (Shape.store base off size src).origin s cell = cell := by
      cases cell with
      | reg r => cases src <;> rfl
      | spill slot =>
        cases src with
        | reg r => exact if_neg (hslot slot rfl)
        | value v => rfl
    rw [horigin, hc]
    exact .copy
  rcases store_ok h with ⟨lo, hi, stack, hreg, hst, rfl⟩ | ⟨⟨lo, hi, bound, hreg⟩, rfl⟩ |
    ⟨⟨lo, hi, bound, id, hreg⟩, rfl⟩
  · cases cell with
    | reg r => exact kept hv nofun
    | spill slot =>
      obtain ⟨y, hy, hyx⟩ := Option.map_eq_some_iff.mp (show (stack.spill slot).map Spill.value = some x from hv)
      have hx := stackStore_spill hst hy
      have hfull : spillSlot s base off size = some slot ↔
          (size = .dw ∧ lo = hi ∧ SpecStack.slotOf (specStackSize + accessStart lo off) = some slot) := by
        unfold spillSlot
        rw [hreg]
        dsimp only
        split
        · rename_i hc
          exact ⟨fun h => ⟨hc.1, hc.2, h⟩, fun h => h.2.2⟩
        · rename_i hc
          exact ⟨nofun, fun h => absurd ⟨h.1, h.2.1⟩ hc⟩
      by_cases hsp : spillSlot s base off size = some slot
      · rw [if_pos (hfull.mp hsp)] at hx
        subst hx
        rw [value_ofValue] at hyx
        cases src with
        | reg r =>
          simp only [Shape.origin, if_pos hsp, value_reg]
          have hr : s.cur.regs r = x := hyx
          rw [hr]
          exact .copy
        | value v =>
          have hr : v = x := hyx
          rw [← hr]
          exact .plain (himm v rfl)
      · rw [if_neg (fun hc => hsp (hfull.mpr hc))] at hx
        refine kept ?_ ?_
        · show (s.cur.stack.spill slot).map Spill.value = some x
          rw [hx]
          exact congrArg some hyx
        · intro slot' heq
          cases heq
          exact hsp
  all_goals
    refine kept hv ?_
    intro slot _ hsp
    simp only [spillSlot, hreg] at hsp
    cases hsp

/-- A helper forgets the spilled pointers. -/
theorem helper_derived {imm : Int32} {cell : Cell} {x : SpecValue} (h : helperCall s pc c imm = .ok (s', c'))
    (hv : cell.value s'.cur = some x) : Derived c' (.helper imm) (cell.value s.cur) x := by
  cases cell with
  | reg r =>
    obtain ⟨h0, hother⟩ := helperCall_regs h
    have hx : s'.reg r = x := Option.some.inj hv
    by_cases hr : r = 0
    · subst hr
      rw [← hx]
      rcases h0 with hplain | ⟨size, hmem⟩
      · exact .plain hplain
      · rw [hmem]
        exact .acquired
    · rw [hother r hr] at hx
      split at hx
      · rw [← hx]
        exact .plain rfl
      · rw [value_reg, ← hx]
        exact .copy
  | spill slot =>
    obtain ⟨y, hy, hyx⟩ := Option.map_eq_some_iff.mp (show (s'.cur.stack.spill slot).map Spill.value = some x from hv)
    have hspill := (helperCall_stack h).1 slot
    rw [hy] at hspill
    rcases forgetSpill_eq_some hspill.symm with rfl | ⟨lo, hi, hold, rfl⟩
    · rw [← hyx]
      exact .plain rfl
    · rw [value_spill, hold, ← hyx]
      exact .copy

theorem Moved.isPointer {v' : SpecValue} (h : Moved v v') : v.isPointer = true := by
  cases h <;> rfl

theorem isPointer_of_scalar (h : v.isScalar = true) : v.isPointer = false := by
  cases v with
  | scalar _ _ => rfl
  | _ => cases h

/-- A 64-bit operation moves the pointer of its destination or of its source. -/
theorem alu64_derived {op : AluOp} {rhs : Rhs} {high : MulHigh} {cell : Cell} {x : SpecValue}
    (h : alu64 s pc dst op rhs = .ok s') (hv : cell.value (mulHigh s' dst high).cur = some x) :
    Derived c (.alu64 dst op rhs high) (((Shape.alu64 dst op rhs high).origin s cell).value s.cur) x := by
  obtain ⟨-, -, v, hval, rfl⟩ := alu64_ok h
  have hother {cell : Cell} (hne : cell ≠ .reg dst) : (Shape.alu64 dst op rhs high).origin s cell = cell := by
    cases cell with
    | reg r =>
      cases rhs with
      | imm i => rfl
      | reg src => exact if_neg fun heq => hne (by rw [heq.1])
    | spill slot => cases rhs <;> rfl
  have hmoved : Derived c (.alu64 dst op rhs high) (((Shape.alu64 dst op rhs high).origin s (.reg dst)).value s.cur) v := by
    rcases alu64Value_ok hval with ⟨lo, hi, rfl⟩ | hm | ⟨hd, hm⟩
    · exact .plain rfl
    · have hself : (Shape.alu64 dst op rhs high).origin s (.reg dst) = .reg dst := by
        cases rhs with
        | imm i => rfl
        | reg src =>
          refine if_neg ?_
          rw [hm.isPointer]
          exact fun hc => absurd hc.2 (by decide)
      rw [hself]
      exact .moved hm
    · cases rhs with
      | imm i => cases hm
      | reg src =>
        simp only [Shape.origin, isPointer_of_scalar hd, and_self, if_true]
        exact .moved hm
  unfold mulHigh at hv
  split at hv
  · exact setReg_derived hv (fun _ => hmoved) hother
  · have hcur : ((s.setReg dst v).setReg dst .unknownScalar).cur = (s.setReg dst .unknownScalar).cur := by
      simp only [SpecState.setReg, Function.update_idem]
    rw [hcur] at hv
    exact setReg_derived hv (fun _ => .plain rfl) hother

/-- Inside a frame, every value follows from that of its origin. -/
theorem Did.origin {insn : BpfInsn} {cell : Cell} {x : SpecValue} (h : Did env c pc s sh pc' s' c')
    (hsh : shape env insn = sh) (hcall : ∀ offset, sh ≠ .callSub offset) (hexit : sh ≠ .exit)
    (hv : cell.value s'.cur = some x) : Derived c' sh ((sh.origin s cell).value s.cur) x := by
  cases h with
  | @set dst v width => exact setReg_derived hv (fun _ => .plain (shape_set hsh)) fun _ => by cases cell <;> rfl
  | @mov dst src hsrc =>
    refine setReg_derived hv ?_ ?_
    · intro _
      simp only [Shape.origin, if_true]
      exact .copy
    · intro hne
      cases cell with
      | reg r => exact if_neg fun heq => hne (by rw [heq])
      | spill slot => rfl
  | mov32 hval =>
    obtain ⟨-, lo, hi, rfl⟩ := mov32Value_ok hval
    exact setReg_derived hv (fun _ => .plain rfl) fun _ => by cases cell <;> rfl
  | packet => exact setReg_derived hv (fun _ => .plain rfl) fun _ => by cases cell <;> rfl
  | alu64 halu => exact alu64_derived halu hv
  | @alu32 dst op rhs t halu =>
    obtain ⟨-, -, lo, hi, rfl⟩ := alu32_ok halu
    exact setReg_derived hv (fun _ => .plain rfl) fun _ => by cases cell <;> rfl
  | @load dst base off size signExtend v hload =>
    refine setReg_derived hv ?_ ?_
    · intro _
      simp only [Shape.origin, if_true]
      rcases load_ok hload with ⟨lo, hi, hreg, hst⟩ | ⟨baseOff, -, hctx⟩ | ⟨-, rfl⟩ | ⟨-, rfl⟩
      · exact fill_derived hreg (stackLoad_value hst)
      · exact .plain (plain_of_scalar (ctxLoad_scalar hctx))
      · exact .plain rfl
      · exact .plain rfl
    · intro hne
      cases cell with
      | reg r => exact if_neg fun heq => hne (by rw [heq])
      | spill slot => rfl
  | store hst =>
    refine store_derived hst hv ?_
    rintro v rfl
    exact shape_store hsh
  | @atomic dst src off size op fetch t hat =>
    obtain ⟨-, ⟨lo, hi, hreg, -, rfl⟩ | ⟨-, rfl⟩⟩ := atomic_ok hat
    · refine atomicResult_derived hv ?_ ?_
      · intro cell y hy
        cases cell with
        | reg r => exact hy
        | spill slot =>
          obtain ⟨z, hz, hzy⟩ := Option.map_eq_some_iff.mp hy
          have hkept : s.cur.stack.spill slot = some z := by
            simp only [SpecState.setStack, SpecStack.atomicMark] at hz
            split at hz
            · cases hz
            · exact hz
          rw [value_spill, hkept]
          exact congrArg some hzy
      · intro r
        exact fill_derived hreg (atomicOld_value ..)
    · exact atomicResult_derived hv (fun _ _ hy => hy) fun _ => .plain rfl
  | jump =>
    have hid {offset : Int16} : (Shape.jump offset).origin s cell = cell := by cases cell <;> rfl
    rw [hid, hv]
    exact .copy
  | @test dst src offset test message nodes pc' s' htest hmem =>
    obtain ⟨rfl, -⟩ := testBranch_ok htest hmem
    have hid : (Shape.test dst src offset test message).origin s' cell = cell := by cases cell <;> rfl
    rw [hid, hv]
    exact .copy
  | @branch signed dst cmp src offset nodes pc' s' hbr hmem =>
    have hid : (Shape.branch signed dst cmp src offset).origin s cell = cell := by cases cell <;> rfl
    rw [hid]
    exact refined_derived (branch_ok hbr hmem).1 hv
  | @helper imm s' c' hrun =>
    have hid : (Shape.helper imm).origin s cell = cell := by cases cell <;> rfl
    rw [hid]
    exact helper_derived hrun hv
  | callSub => exact absurd rfl (hcall _)
  | exit => exact absurd rfl hexit

end Cells

end RandVerifier.Spec
