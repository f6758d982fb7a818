/-
  RandVerifier.Spec.State — the states of the safety-spec verifier (`src/spec/state.rs`).

  The stack tracks each byte by itself (written or not, and with which value) and each
  8-byte slot as a possible spill. A state is the current frame, the saved frames of its
  callers, and the references acquired and not yet released.
-/

import RandVerifier.Insn
import RandVerifier.Spec.Value
import Mathlib.Data.Fintype.Pi
import Mathlib.Logic.Function.Basic

namespace RandVerifier.Spec

def specStackSize : Nat := 512

/-- The number of 8-byte spill slots. -/
def specSlots : Nat := 64

instance : NeZero specStackSize := ⟨by decide⟩

instance : NeZero specSlots := ⟨by decide⟩

instance refs_neZero : NeZero 8 := ⟨by decide⟩

/-- The array index of an index inside the frame. -/
def frameIndex (idx : Int) : Fin specStackSize := Fin.ofNat specStackSize idx.toNat

theorem frameIndex_val (idx : Int) (h0 : 0 ≤ idx) (h1 : idx < specStackSize) :
    ((frameIndex idx).val : Int) = idx := by
  have hlt : idx.toNat < specStackSize := by omega
  have hval : (frameIndex idx).val = idx.toNat := Nat.mod_eq_of_lt hlt
  omega

/-- A spilled slot. -/
inductive Spill where
  | scalar (lo hi : UInt64)
  | ptr (v : SpecValue)
  deriving DecidableEq, Repr

/-- The spill of a stored value. -/
def Spill.ofValue : SpecValue → Spill
  | .scalar lo hi => .scalar lo hi
  | other => .ptr other

/-- The value a spill is filled with. -/
def Spill.value : Spill → SpecValue
  | scalar lo hi => .scalar lo hi
  | ptr v => v

def Spill.isPtr : Spill → Bool
  | scalar .. => false
  | ptr _ => true

/-- Byte values and their initialization, the spill slots, and the dynptr markers. -/
structure SpecStack where
  bytes : Fin specStackSize → UInt8
  init : Fin specStackSize → Bool
  spill : Fin specSlots → Option Spill
  dynptr : Fin specSlots → Bool

-- the derived instance casts along equalities of functions and does not compute
instance : DecidableEq SpecStack := fun a b =>
  decidable_of_iff (a.bytes = b.bytes ∧ a.init = b.init ∧ a.spill = b.spill ∧ a.dynptr = b.dynptr)
    ⟨fun ⟨h₁, h₂, h₃, h₄⟩ => by cases a; cases b; simp_all,
      fun h => by rw [h]; exact ⟨rfl, rfl, rfl, rfl⟩⟩

namespace SpecStack

def empty : SpecStack := ⟨fun _ => 0, fun _ => false, fun _ => none, fun _ => false⟩

/-- `mark_range_init`: the bytes from offset `off` on, clipped to the frame. -/
def markRangeInit (stack : SpecStack) (off len : Int) : SpecStack :=
  let base := specStackSize + off
  { stack with init := fun i => (base ≤ i.val ∧ (i.val : Int) < base + len) || stack.init i }

/-- The slot of an aligned full-width access. -/
def slotOf (abs : Int) : Option (Fin specSlots) :=
  if 0 ≤ abs ∧ abs % 8 = 0 ∧ abs + 8 ≤ specStackSize then some (Fin.ofNat specSlots (abs / 8).toNat)
  else none

/-- The byte at an index inside the frame. -/
def byteAt (stack : SpecStack) (idx : Int) : UInt8 := stack.bytes (frameIndex idx)

/-- Whether the byte at an index inside the frame was written. -/
def initAt (stack : SpecStack) (idx : Int) : Bool := stack.init (frameIndex idx)

end SpecStack

/-- One frame: registers, stack, and the pc its call returns to. -/
structure SpecFrame where
  regs : Reg → SpecValue
  stack : SpecStack
  retPc : Nat

instance : DecidableEq SpecFrame := fun a b =>
  decidable_of_iff (a.regs = b.regs ∧ a.stack = b.stack ∧ a.retPc = b.retPc)
    ⟨fun ⟨h₁, h₂, h₃⟩ => by cases a; cases b; simp_all, fun h => by rw [h]; exact ⟨rfl, rfl, rfl⟩⟩

namespace SpecFrame

/-- The main frame: R1 is the context, R10 the stack base. -/
def main : SpecFrame where
  regs r := if r = 1 then .ptrToCtx 0 else if r = 10 then .ptrToStack 0 0 else .uninit
  stack := .empty
  retPc := 0

/-- A callee frame: R10 is the stack base. -/
def callee : SpecFrame where
  regs r := if r = 10 then .ptrToStack 0 0 else .uninit
  stack := .empty
  retPc := 0

end SpecFrame

/-- The current frame, the saved caller frames, and the active references: the first
    `refsCnt` entries of `refs`. -/
structure SpecState where
  cur : SpecFrame
  saved : Fin 7 → Option SpecFrame
  refs : Fin 8 → Nat
  refsCnt : Nat

instance : DecidableEq SpecState := fun a b =>
  decidable_of_iff (a.refsCnt = b.refsCnt ∧ a.refs = b.refs ∧ a.cur = b.cur ∧ a.saved = b.saved)
    ⟨fun ⟨h₁, h₂, h₃, h₄⟩ => by cases a; cases b; simp_all,
      fun h => by rw [h]; exact ⟨rfl, rfl, rfl, rfl⟩⟩

namespace SpecState

def initial : SpecState := ⟨.main, fun _ => none, fun _ => 0, 0⟩

def reg (s : SpecState) (r : Reg) : SpecValue := s.cur.regs r

def setReg (s : SpecState) (r : Reg) (v : SpecValue) : SpecState :=
  { s with cur := { s.cur with regs := Function.update s.cur.regs r v } }

def setStack (s : SpecState) (stack : SpecStack) : SpecState :=
  { s with cur := { s.cur with stack := stack } }

/-- R1..R5 are clobbered by a helper call. -/
def clobberArgs (s : SpecState) : SpecState :=
  { s with cur := { s.cur with regs := fun r => if 1 ≤ r ∧ r ≤ 5 then .uninit else s.cur.regs r } }

/-- `acquire_ref`. -/
def acquireRef (s : SpecState) (id : Nat) : Except String SpecState :=
  if h : s.refsCnt < 8 then
    .ok { s with refs := Function.update s.refs ⟨s.refsCnt, h⟩ id, refsCnt := s.refsCnt + 1 }
  else .error "too many active references"

/-- `release_ref`: the last active entry takes the place of the released one. -/
def releaseRef (s : SpecState) (id : Nat) : Option SpecState :=
  match (List.finRange 8).find? fun i => i.val < s.refsCnt ∧ s.refs i = id with
  | some i =>
    some { s with
      refs := Function.update s.refs i (s.refs (Fin.ofNat 8 (s.refsCnt - 1)))
      refsCnt := s.refsCnt - 1 }
  | none => none

/-- `has_ref`. -/
def HasRef (s : SpecState) (id : Nat) : Prop := ∃ i : Fin 8, i.val < s.refsCnt ∧ s.refs i = id

instance (s : SpecState) (id : Nat) : Decidable (s.HasRef id) := by
  unfold HasRef
  infer_instance

end SpecState

theorem setReg_reg (s : SpecState) (r : Reg) (v : SpecValue) : (s.setReg r v).reg r = v :=
  Function.update_self ..

theorem setReg_other {s : SpecState} {r dst : Reg} (h : r ≠ dst) (v : SpecValue) : (s.setReg dst v).reg r = s.reg r :=
  Function.update_of_ne h ..

/-! ## Saved frames -/

/-- The frames that are in use. -/
def callerExists (saved : Fin 7 → Option SpecFrame) : Bool :=
  (List.finRange 7).any fun i => (saved i).isSome

/-- `push_frame`: into the first free slot. -/
def pushFrame (saved : Fin 7 → Option SpecFrame) (frame : SpecFrame) : Option (Fin 7 → Option SpecFrame) :=
  ((List.finRange 7).find? fun i => (saved i).isNone).map fun i => Function.update saved i (some frame)

/-- `pop_frame`: out of the last slot in use. -/
def popFrame (saved : Fin 7 → Option SpecFrame) : Option (SpecFrame × (Fin 7 → Option SpecFrame)) :=
  ((List.finRange 7).reverse.find? fun i => (saved i).isSome).bind fun i =>
    (saved i).map fun frame => (frame, Function.update saved i none)

end RandVerifier.Spec
