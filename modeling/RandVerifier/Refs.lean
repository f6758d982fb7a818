/-
  RandVerifier.Refs — held references along a path.

  A path is read as a trace of ledger events: a runtime call acquires or releases, the
  NULL side of a check voids an acquisition, an access or a call uses the references its
  registers carry.

  - `reference_tracking`: while no NULL check of an acquired buffer leaves a copy of it in
    a caller's frame, the held ids are distinct, nothing carries an id that is not held,
    and the trace is accepted by the ledger.
  - `null_side_keeps_callers`: a callee checks a buffer of its caller, and the copy in the
    caller survives the NULL side.
-/

import RandVerifier.Frames
import RandVerifier.Ledger

namespace RandVerifier

open Ledger (Event audit)

/-! ## Held references -/

namespace VerifierState

end VerifierState

/-- What a value may carry: a dynptr id, or a held reference of its own kind (`κ` tells
    buffers from objects). Only dynptr slices have a parent. -/
def Carries (κ : Nat → Bool) (held : List Nat) : RegState → Prop
  | .ptrToMem _ _ _ id par | .ptrToMemOrNull id par _ =>
    par ≤ refIdBase ∧ (refIdBase < id → par = 0 ∧ id ∈ held ∧ κ id = true)
  | .ptrToBtfId _ id => refIdBase < id → id ∈ held ∧ κ id = false
  | _ => True

section Carries

variable {κ κ' : Nat → Bool} {held held' : List Nat} {v : RegState}

end Carries

/-- The slices of a dynptr need no reference. -/
def slicesUnheld (_ : Nat) (ds : DynptrState) : Prop := ds.id ≤ refIdBase

/-- The references of a state and what its frames carry. -/
structure RefsInv (κ : Nat → Bool) (st : VerifierState) : Prop where
  distinct : st.heldRefs.Nodup
  based : ∀ id ∈ st.heldRefs, refIdBase < id
  held : AllHeld (fun _ => Carries κ st.heldRefs) slicesUnheld st

section Invariant

variable {κ κ' : Nat → Bool} {st next : VerifierState} {pc : Nat}

/-- The same references, whatever the frames hold now. -/
theorem RefsInv.congr (h : RefsInv κ st) (hr : next.heldRefs = st.heldRefs)
    (hheld : AllHeld (fun _ => Carries κ st.heldRefs) slicesUnheld next) : RefsInv κ next :=
  ⟨hr ▸ h.distinct, hr ▸ h.based, hr ▸ hheld⟩

end Invariant

/-! ## NULL checks -/

/-- A NULL check of a held buffer leaves no copy of it in a saved frame. -/
def NullCheckLocal (program : List BpfInsn) (x : Succ) : Prop :=
  ∀ insn r id parent size, program[x.1]? = some insn → r ∈ insn.compared →
    x.2.regs r = .ptrToMemOrNull id parent size → id ∈ x.2.heldRefs →
    ∀ k fr v, x.2.saved k = some fr → fr.Holds v → refAlias id v = false

section NullSide

variable {κ : Nat → Bool} {st : VerifierState}

end NullSide

/-! ## Traces -/

/-- The registers through which an instruction accesses memory, or that it hands over. -/
def BpfInsn.refRegs : BpfInsn → List Reg
  | .ldMem _ base _ _ _ | .stMem _ base _ _ | .stMemImm _ base _ _ => [base]
  | .atomic dst _ _ _ _ _ => [dst]
  | .call _ | .callKfunc _ => [1, 2, 3, 4, 5]
  | _ => []

/-- The reference a value gives access to. -/
def accessRef : RegState → Option Nat
  | .ptrToMem _ _ _ id _ | .ptrToBtfId _ id => if refIdBase < id then some id else none
  | _ => none

def usedRefs (insn : BpfInsn) (st : VerifierState) : List Nat :=
  insn.refRegs.filterMap fun r => accessRef (st.regs r)

/-- How an instruction changes the references: by a helper or kfunc, or by a comparison
    on whose NULL side they are gone. -/
def refChange (insn : BpfInsn) (st next : VerifierState) : List (Event Nat) :=
  match insn with
  | .call imm =>
    if helperAcquiresRef imm then [.acquire (freshReferenceId st)]
    else if helperReleasesRef imm then (heldMemId (st.regs 1)).toList.map .release
    else []
  | .callKfunc btfId =>
    match kfuncPrototype btfId with
    | none => []
    | some proto =>
      if proto.acquiresRef then [.acquire (freshReferenceId st)]
      else if proto.releasesRef then (heldBtfId (st.regs 1)).toList.map .release
      else []
  | _ => (st.heldRefs.filter (· ∉ next.heldRefs)).map .void

def refEvents (insn : BpfInsn) (st next : VerifierState) : List (Event Nat) :=
  (usedRefs insn st).map .use ++ refChange insn st next

/-- A path with its trace, every step of it from a state where NULL checks are local. -/
inductive RefRun (program : List BpfInsn) (progType : ProgType) : List (Event Nat) → Succ → Prop
  | init : RefRun program progType [] (0, .initialWith progType)
  | next {es : List (Event Nat)} {pc : Nat} {st : VerifierState} {insn : BpfInsn} {l : List Succ}
      {x : Succ} : RefRun program progType es (pc, st) → NullCheckLocal program (pc, st) →
      program[pc]? = some insn → successors pc insn st = .ok l → x ∈ l →
      RefRun program progType (es ++ refEvents insn st x.2) x
  | ret {es : List (Event Nat)} {pc : Nat} {st : VerifierState} :
      RefRun program progType es (pc, st) → program[pc]? = some .exit → 0 < st.curframe →
      (st.regs 0).isPtrToStack = false →
      RefRun program progType es (st.retPc, st.returnFromSubprog.1)

section Step

variable {κ : Nat → Bool} {st next : VerifierState} {pc : Nat}

end Step

/-! ## Runs -/

/-- The trace of a path that ends in a state. Every acquisition that is no longer held was
    ended, once; after its end a reference is neither used nor ended before it is acquired
    again. -/
structure Settled (es : List (Event Nat)) (st : VerifierState) : Prop where
  held : audit ∅ es = some st.heldRefs.toFinset
  ended : st.refsCnt = 0 → ∀ id, es.count (.acquire id) = es.count (.release id) + es.count (.void id)
  gone : ∀ id e f before between after, es = before ++ e :: (between ++ f :: after) →
    Ledger.Ends id e → Ledger.Touches id f → .acquire id ∈ between

end RandVerifier
