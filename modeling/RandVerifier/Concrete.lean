/-
  RandVerifier.Concrete — what a verifier state says about the machine.

  A machine word is data or a pointer; a stack byte is a data byte, a byte of a pointer
  or a byte of a dynptr. `ρ` names the resources: `ρ id` is the object that the lookup,
  the reservation or the kernel object with this id got, `none` when it got NULL. Id 0
  names nothing.

  A spill is read back from the low end of its slot: a spill of the whole slot holds a
  value of the spilled register, a spill of a part of it what the 32-bit view keeps of
  one. A slot whose low end is not spilled says nothing about its other spill bytes.
-/

import RandVerifier.LittleEndian
import RandVerifier.State

namespace RandVerifier

/-! ## Values -/

/-- What a pointer points to. Map values and buffers carry their size. -/
inductive Pointer where
  | stack (frame : Nat) (off : Int)
  | ctx (off : Int)
  | map (keySize valueSize mapType : Nat)
  | mapValue (obj : Nat) (off : Int) (size : Nat)
  | mem (obj : Nat) (parent : Option Nat) (off size : Int)
  | object (btfId obj : Nat)
  deriving DecidableEq, Repr

inductive Value where
  | word (w : UInt64)
  | ptr (p : Pointer)
  deriving DecidableEq, Repr

inductive MemByte where
  | data (b : UInt8)
  | fragment (p : Pointer) (k : Nat)
  | dynptr (d : DynptrState)
  deriving DecidableEq, Repr

/-- Byte `k` of a stored value. -/
def Value.byte (v : Value) (k : Nat) : MemByte :=
  match v with
  | word w => .data (wordByte w k)
  | ptr p => .fragment p k

/-! ## Scalars -/

def Tnum.Contains (t : Tnum) (w : UInt64) : Prop := w &&& ~~~t.mask = t.value &&& ~~~t.mask

namespace ScalarBounds

/-- The 32-bit view of the scalar contains `x`. -/
structure Contains32 (b : ScalarBounds) (x : UInt32) : Prop where
  s32Min : b.s32Min ≤ x.toInt32
  s32Max : x.toInt32 ≤ b.s32Max
  u32Min : b.u32Min ≤ x
  u32Max : x ≤ b.u32Max
  tnum : b.tnum.subreg.Contains x.toUInt64

/-- The scalar contains `w`, in every interpretation. -/
structure Contains (b : ScalarBounds) (w : UInt64) : Prop where
  smin : b.smin ≤ w.toInt64
  smax : w.toInt64 ≤ b.smax
  umin : b.umin ≤ w
  umax : w ≤ b.umax
  s32Min : b.s32Min ≤ w.toUInt32.toInt32
  s32Max : w.toUInt32.toInt32 ≤ b.s32Max
  u32Min : b.u32Min ≤ w.toUInt32
  u32Max : w.toUInt32 ≤ b.u32Max
  tnum : b.tnum.Contains w

end ScalarBounds

/-! ## Registers -/

abbrev Naming := Nat → Option Nat

/-- The id names the object, if it names anything. -/
def Naming.Names (ρ : Naming) (id : Nat) (obj : Option Nat) : Prop := id = 0 ∨ ρ id = obj

/-- The offset has the alignment, the residue modulo 8 that a register tracks. -/
def Aligned (alignOff : Nat) (off : Int) : Prop :=
  alignOff = alignUnknown ∨ (off - alignOff) % 8 = 0

instance (alignOff : Nat) (off : Int) : Decidable (Aligned alignOff off) :=
  inferInstanceAs (Decidable (_ ∨ _))

/-- The values a register state represents. A buffer ends 8 bytes past the largest
    offset, the bound of its access check. -/
def RegState.Denotes (ρ : Naming) : RegState → Value → Prop
  | .uninit, _ => True
  | .scalar b, .word w => b.Contains w
  | .ptrToStack lo hi al fr, .ptr (.stack frame off) => frame = fr ∧ lo ≤ off ∧ off ≤ hi ∧ Aligned al off
  | .ptrToCtx o, .ptr (.ctx off) => off = o
  | .ptrToMap k v t, .ptr (.map k' v' t') => k' = k ∧ v' = v ∧ t' = t
  | .ptrToMapValue lo hi al sz id, .ptr (.mapValue obj off size) =>
    size = sz ∧ lo ≤ off ∧ off ≤ hi ∧ Aligned al off ∧ ρ.Names id (some obj)
  | .ptrToMapValueOrNull _ id, .word w => w = 0 ∧ ρ.Names id none
  | .ptrToMapValueOrNull sz id, .ptr (.mapValue obj off size) =>
    size = sz ∧ off = 0 ∧ ρ.Names id (some obj)
  | .ptrToMem lo hi al id pid, .ptr (.mem obj parent off size) =>
    size = hi + 8 ∧ lo ≤ off ∧ off ≤ hi ∧ Aligned al off ∧ ρ.Names id (some obj) ∧ ρ.Names pid parent
  | .ptrToMemOrNull id _ _, .word w => w = 0 ∧ ρ.Names id none
  | .ptrToMemOrNull id pid sz, .ptr (.mem obj parent off size) =>
    size = sz ∧ off = 0 ∧ ρ.Names id (some obj) ∧ ρ.Names pid parent
  | .ptrToBtfId t id, .ptr (.object t' obj) => t' = t ∧ ρ.Names id (some obj)
  | _, _ => False

/-- The values a spilled register represents: only the 32-bit view of a scalar when a
    part of the slot is spilled. -/
def RegState.SpillDenotes (ρ : Naming) (full : Bool) (r : RegState) (v : Value) : Prop :=
  match r, v with
  | .scalar b, .word w => if full then b.Contains w else b.Contains32 w.toUInt32
  | r, v => r.Denotes ρ v

/-! ## Stacks -/

/-- The contents of a slot's bytes that a stack represents. -/
structure SlotDenotes (ρ : Naming) (s : StackState) (slot : Nat) (mem : Nat → MemByte) : Prop where
  misc : ∀ i, i / 8 = slot → s.bytes i = .misc → ∃ b, mem i = .data b
  zero : ∀ i, i / 8 = slot → s.bytes i = .zero → mem i = .data 0
  spill : s.bytes (slot * 8 + 7) = .spill → ∀ r, s.spilled slot = some r →
    ∃ v, r.SpillDenotes ρ (s.slotAll slot .spill) v ∧
      ∀ i, i / 8 = slot → s.bytes i = .spill → mem i = v.byte (7 - i % 8)
  dynptr : s.bytes (slot * 8 + 7) = .dynptr → ∀ d, s.dynptr slot = some d →
    ∀ i, i / 8 = slot → s.bytes i = .dynptr → mem i = .dynptr d

/-! ## States -/

structure ConcreteFrame where
  regs : Reg → Value
  stack : Nat → MemByte
  retPc : Nat

/-- The frames of a machine by depth, and the references it holds. -/
structure ConcreteState where
  frames : Nat → ConcreteFrame
  depth : Nat
  held : List (Option Nat)

structure FrameDenotes (ρ : Naming) (fr : FrameState) (c : ConcreteFrame) : Prop where
  retPc : c.retPc = fr.retPc
  regs : ∀ r, (fr.regs r).Denotes ρ (c.regs r)
  stack : ∀ slot < stackSlots, SlotDenotes ρ fr.stack slot c.stack

structure StateDenotes (ρ : Naming) (st : VerifierState) (cs : ConcreteState) : Prop where
  depth : cs.depth = st.curframe
  held : cs.held = st.heldRefs.map ρ
  frames : ∀ k fr, st.activeFrame k = some fr → FrameDenotes ρ fr (cs.frames k)

/-- The machine state is one of those the verifier state represents. -/
def VerifierState.Represents (st : VerifierState) (cs : ConcreteState) : Prop :=
  ∃ ρ, StateDenotes ρ st cs

/-! ## Containment of scalars -/

theorem tnum_contains_of_subsumes {a b : Tnum} {w : UInt64} (h : a.subsumes b = true)
    (hw : b.Contains w) : a.Contains w := by
  simp only [Tnum.subsumes, Bool.and_eq_true, beq_iff_eq] at h
  obtain ⟨hm, hv⟩ := h
  have hmask : ~~~b.mask &&& ~~~a.mask = ~~~a.mask := by
    rw [← UInt64.toBitVec_inj] at hm ⊢
    apply BitVec.eq_of_getLsbD_eq
    intro i hi
    have hbit := congrArg (·.getLsbD i) hm
    simp only [UInt64.toBitVec_and, UInt64.toBitVec_not, BitVec.getLsbD_and, BitVec.getLsbD_not,
      UInt64.toBitVec_zero] at hbit ⊢
    simp only [hi, decide_true, Bool.true_and, BitVec.getLsbD_zero] at hbit ⊢
    revert hbit
    cases b.mask.toBitVec.getLsbD i <;> cases a.mask.toBitVec.getLsbD i <;> simp
  unfold Tnum.Contains at hw ⊢
  calc w &&& ~~~a.mask = (w &&& ~~~b.mask) &&& ~~~a.mask := by rw [UInt64.and_assoc, hmask]
    _ = (b.value &&& ~~~b.mask) &&& ~~~a.mask := by rw [hw]
    _ = b.value &&& ~~~a.mask := by rw [UInt64.and_assoc, hmask]
    _ = a.value &&& ~~~a.mask := hv

/-- A bit of a truncated word, zero-extended. -/
theorem truncated_getLsbD (w : UInt64) (i : Nat) :
    w.toUInt32.toUInt64.toBitVec.getLsbD i = (decide (i < 32) && w.toBitVec.getLsbD i) := by
  simp only [UInt32.toBitVec_toUInt64, UInt64.toBitVec_toUInt32, BitVec.getLsbD_setWidth]
  by_cases h : i < 32
  · have h64 : i < 64 := by omega
    simp [h, h64]
  · simp [h]

theorem subreg_subsumes {a b : Tnum} (h : a.subsumes b = true) :
    a.subreg.subsumes b.subreg = true := by
  simp only [Tnum.subsumes, Bool.and_eq_true, beq_iff_eq] at h ⊢
  obtain ⟨hm, hv⟩ := h
  constructor
  · rw [← UInt64.toBitVec_inj] at hm ⊢
    apply BitVec.eq_of_getLsbD_eq
    intro i hi
    have hbit := congrArg (·.getLsbD i) hm
    simp only [Tnum.subreg, UInt64.toBitVec_and, UInt64.toBitVec_not, BitVec.getLsbD_and,
      BitVec.getLsbD_not, truncated_getLsbD, UInt64.toBitVec_zero, BitVec.getLsbD_zero, hi,
      decide_true, Bool.true_and] at hbit ⊢
    by_cases h32 : i < 32 <;> simp [h32, hbit]
  · rw [← UInt64.toBitVec_inj] at hv ⊢
    apply BitVec.eq_of_getLsbD_eq
    intro i hi
    have hbit := congrArg (·.getLsbD i) hv
    simp only [Tnum.subreg, UInt64.toBitVec_and, UInt64.toBitVec_not, BitVec.getLsbD_and,
      BitVec.getLsbD_not, truncated_getLsbD, hi, decide_true, Bool.true_and] at hbit ⊢
    by_cases h32 : i < 32 <;> simp [h32, hbit]

theorem subreg_contains {t : Tnum} {w : UInt64} (h : t.Contains w) :
    t.subreg.Contains w.toUInt32.toUInt64 := by
  unfold Tnum.Contains at h ⊢
  rw [← UInt64.toBitVec_inj] at h ⊢
  apply BitVec.eq_of_getLsbD_eq
  intro i hi
  have hbit := congrArg (·.getLsbD i) h
  simp only [Tnum.subreg, UInt64.toBitVec_and, UInt64.toBitVec_not, BitVec.getLsbD_and,
    BitVec.getLsbD_not, truncated_getLsbD, hi, decide_true, Bool.true_and] at hbit ⊢
  by_cases h32 : i < 32 <;> simp [h32, hbit]

namespace ScalarBounds

/-- A scalar's 32-bit view contains the low half of each of its values. -/
theorem Contains.low {b : ScalarBounds} {w : UInt64} (h : b.Contains w) :
    b.Contains32 w.toUInt32 :=
  ⟨h.s32Min, h.s32Max, h.u32Min, h.u32Max, subreg_contains h.tnum⟩

theorem unknown_contains (w : UInt64) : unknown.Contains w where
  smin := Int64.minValue_le _
  smax := Int64.le_maxValue _
  umin := UInt64.zero_le
  umax := UInt64.le_iff_toNat_le.mpr (Nat.le_of_lt_succ w.toNat_lt)
  s32Min := Int32.minValue_le _
  s32Max := Int32.le_maxValue _
  u32Min := UInt32.zero_le
  u32Max := UInt32.le_iff_toNat_le.mpr (Nat.le_of_lt_succ w.toUInt32.toNat_lt)
  tnum := by
    have hmask : ~~~u64Max = 0 := by decide
    simp only [Tnum.Contains, unknown, Tnum.unknown, hmask, UInt64.and_zero]

end ScalarBounds

/-! ## Bytes -/

/-- Any eight bytes are the bytes of a word. -/
theorem exists_wordByte_eq (b : Nat → UInt8) : ∃ w, ∀ k < 8, wordByte w k = b k := by
  let bits := List.ofFn fun i : Fin 64 => (b (i / 8)).toBitVec.getLsbD (i % 8)
  refine ⟨⟨(BitVec.ofBoolListLE bits).setWidth 64⟩, ?_⟩
  intro k hk
  rw [← UInt8.toBitVec_inj]
  apply BitVec.eq_of_getLsbD_eq
  intro i hi
  have hlt : 8 * k + i < 64 := by omega
  have hdiv : (8 * k + i) / 8 = k := by omega
  have hmod : (8 * k + i) % 8 = i := by omega
  rw [wordByte_getLsbD _ hk hi, BitVec.getLsbD_setWidth, BitVec.getLsbD_ofBoolListLE,
    List.getD_eq_getElem?_getD, List.getElem?_ofFn]
  simp only [hlt, dif_pos, decide_true, Bool.true_and, Option.getD_some, hdiv, hmod]

/-! ## Spills -/

theorem spillDenotes_scalar {ρ : Naming} {full : Bool} {b : ScalarBounds} {v : Value}
    (h : RegState.SpillDenotes ρ full (.scalar b) v) :
    ∃ w, v = .word w ∧ b.Contains32 w.toUInt32 ∧ (full = true → b.Contains w) := by
  cases v with
  | ptr p => exact h.elim
  | word w =>
    refine ⟨w, rfl, ?_⟩
    cases full with
    | true => exact ⟨ScalarBounds.Contains.low h, fun _ => h⟩
    | false => exact ⟨h, nofun⟩

theorem spillDenotes_word {ρ : Naming} {full : Bool} {b : ScalarBounds} {w : UInt64}
    (hlow : b.Contains32 w.toUInt32) (hfull : full = true → b.Contains w) :
    RegState.SpillDenotes ρ full (.scalar b) (.word w) := by
  cases full with
  | true => exact hfull rfl
  | false => exact hlow

end RandVerifier
