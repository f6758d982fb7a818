/-
  RandVerifier.Liveness — the static liveness analysis (`src/liveness.rs`).

  Register masks are `BitVec 16`, slot masks `BitVec 64`. The fixed-point loop of the source
  runs here with fuel; every pass that changes a mask adds a bit to one of them, so the
  fuel of `analyze`, one more than all their bits, is never used up.
-/

import RandVerifier.State

namespace RandVerifier

abbrev RegMask := BitVec 16
abbrev SlotMask := BitVec 64

def regBit (reg : Reg) : RegMask := 1#16 <<< reg.val

def slotBit (slot : Nat) : SlotMask := 1#64 <<< slot

/-- The registers and stack slots an instruction reads and writes. -/
structure InsnUseDef where
  useRegs : RegMask
  defRegs : RegMask
  readSlots : SlotMask
  writeSlots : SlotMask
  deriving DecidableEq, Repr

def noUseDef : InsnUseDef := ⟨0, 0, 0, 0⟩

/-- The slot of a fixed 8-byte access at r10 plus an offset. -/
def fixedSlot (offset : Int16) : Option Nat :=
  let off := offset.toInt
  if 0 ≤ off ∨ off < -512 ∨ off % 8 ≠ 0 then none else some ((-off).toNat - 1 |> (· / 8))

def allSlots : SlotMask := BitVec.allOnes 64

/-- The slots a load may touch: unknown unless the base is R10. -/
def readSlotsFor (base : Reg) (offset : Int16) : SlotMask :=
  if base = 10 then
    match fixedSlot offset with
    | some s => slotBit s
    | none => allSlots
  else allSlots

/-- The slots a store definitely writes. -/
def writeSlotsFor (base : Reg) (offset : Int16) (size : MemSize) : SlotMask :=
  if base = 10 ∧ size.bytes = 8 then
    match fixedSlot offset with
    | some s => slotBit s
    | none => 0
  else 0

def argRegs : RegMask := regBit 1 ||| regBit 2 ||| regBit 3 ||| regBit 4 ||| regBit 5

def useDef : BpfInsn → InsnUseDef
  | .movImm dst _ | .mov32Imm dst _ => { noUseDef with defRegs := regBit dst }
  | .movReg dst src | .mov32Reg dst src =>
    { noUseDef with useRegs := regBit src, defRegs := regBit dst }
  | .ldAbs _ _ => { noUseDef with defRegs := regBit 0 }
  | .ldInd src _ _ => { noUseDef with useRegs := regBit src, defRegs := regBit 0 }
  | .addImm dst _ | .subImm dst _ | .andImm dst _ | .orImm dst _ | .xorImm dst _ | .lshImm dst _
  | .rshImm dst _ | .arshImm dst _ | .mulImm dst _ _ | .divImm dst _ | .modImm dst _ | .neg dst
  | .add32Imm dst _ | .sub32Imm dst _ | .and32Imm dst _ | .or32Imm dst _ | .xor32Imm dst _
  | .lsh32Imm dst _ | .rsh32Imm dst _ | .arsh32Imm dst _ | .mul32Imm dst _ | .div32Imm dst _
  | .mod32Imm dst _ | .neg32 dst =>
    { noUseDef with useRegs := regBit dst, defRegs := regBit dst }
  | .addReg dst src | .subReg dst src | .andReg dst src | .orReg dst src | .xorReg dst src
  | .lshReg dst src | .rshReg dst src | .arshReg dst src | .mulReg dst src _ | .divReg dst src
  | .modReg dst src | .add32Reg dst src | .sub32Reg dst src | .and32Reg dst src | .or32Reg dst src
  | .xor32Reg dst src | .lsh32Reg dst src | .rsh32Reg dst src | .arsh32Reg dst src
  | .mul32Reg dst src | .div32Reg dst src | .mod32Reg dst src =>
    { noUseDef with useRegs := regBit dst ||| regBit src, defRegs := regBit dst }
  | .ldMem dst base offset _ _ =>
    { noUseDef with
      useRegs := regBit base, defRegs := regBit dst, readSlots := readSlotsFor base offset }
  | .stMem src base offset size =>
    { noUseDef with
      useRegs := regBit src ||| regBit base, writeSlots := writeSlotsFor base offset size }
  | .stMemImm _ base offset size =>
    { noUseDef with useRegs := regBit base, writeSlots := writeSlotsFor base offset size }
  | .ldImm64 dst _ | .ldMapFd dst _ _ _ _ | .ldMapValue dst _ _ _ _ =>
    { noUseDef with defRegs := regBit dst }
  | .ldImm64Second _ => noUseDef
  | .call _ | .callSub _ | .callKfunc _ =>
    { noUseDef with useRegs := argRegs, defRegs := regBit 0 ||| argRegs }
  | .atomic dst src offset size op fetch =>
    { noUseDef with
      useRegs := regBit dst ||| regBit src
      defRegs := if op = .cmpxchg then regBit 0 else if fetch then regBit src else 0
      writeSlots := writeSlotsFor dst offset size }
  | .jmp32 dst src _ _ _ =>
    { noUseDef with useRegs := regBit dst ||| (src.map regBit).getD 0 }
  | .exit => { noUseDef with useRegs := regBit 0 }
  | .jmp _ => noUseDef
  | .jset dst src _ | .jeq dst src _ | .jne dst src _ | .jgt dst src _ | .jge dst src _
  | .jlt dst src _ | .jle dst src _ | .jsgt dst src _ | .jsge dst src _ | .jslt dst src _
  | .jsle dst src _ => { noUseDef with useRegs := regBit dst ||| regBit src }
  | .jsetImm dst _ _ | .jeqImm dst _ _ | .jneImm dst _ _ | .jgtImm dst _ _ | .jgeImm dst _ _
  | .jltImm dst _ _ | .jleImm dst _ _ | .jsgtImm dst _ _ | .jsgeImm dst _ _ | .jsltImm dst _ _
  | .jsleImm dst _ _ => { noUseDef with useRegs := regBit dst }

/-! ## Static successors -/

/-- `(pc as i32 + 1 + offset) as u32`. -/
def callTarget (pc : Nat) (offset : Int32) : Nat := (((pc : Int) + 1 + offset.toInt) % 2 ^ 32).toNat

/-- The call sites of a program with their targets. -/
def callSites (program : List BpfInsn) : List (Nat × Nat) :=
  program.zipIdx.filterMap fun
    | (.callSub offset, pc) => some (pc, callTarget pc offset)
    | _ => none

/-- The entry of the subprogram containing an instruction; none for the main program. -/
def subprogEntryAt (i : Nat) (program : List BpfInsn) : Option Nat :=
  let starts := ((callSites program).map (·.2)).filter (· ≤ i)
  let last := starts.foldl max 0
  if last = 0 then none else some last

/-- A jump target inside the program. -/
def inRange (i : Nat) (offset : Int) (n : Nat) : List Nat :=
  let tgt := (i : Int) + 1 + offset
  if 0 ≤ tgt ∧ tgt < n then [tgt.toNat] else []

/-- The jump offset of a conditional branch. -/
def BpfInsn.branchOffset : BpfInsn → Option Int16
  | .jeq _ _ o | .jne _ _ o | .jgt _ _ o | .jge _ _ o | .jlt _ _ o | .jle _ _ o | .jsgt _ _ o
  | .jsge _ _ o | .jslt _ _ o | .jsle _ _ o | .jeqImm _ _ o | .jneImm _ _ o | .jgtImm _ _ o
  | .jgeImm _ _ o | .jltImm _ _ o | .jleImm _ _ o | .jsgtImm _ _ o | .jsgeImm _ _ o
  | .jsltImm _ _ o | .jsleImm _ _ o | .jset _ _ o | .jsetImm _ _ o | .jmp32 _ _ _ o _ => some o
  | _ => none

def staticSuccessors (i : Nat) (program : List BpfInsn) : List Nat :=
  let n := program.length
  let fall := if i + 1 < n then [i + 1] else []
  match program[i]? with
  | none => []
  | some .exit =>
    if i = 0 then []
    else match subprogEntryAt i program with
      | none => []
      | some start => ((callSites program).filter (·.2 = start)).map (·.1 + 1)
  | some (.callSub offset) => inRange i offset.toInt n
  | some (.jmp offset) => inRange i offset.toInt n
  | some insn =>
    match insn.branchOffset with
    | some offset => fall ++ inRange i offset.toInt n
    | none => fall

/-! ## The fixed point -/

/-- The masks of one instruction before and after it. -/
structure LiveMasks where
  inRegs : RegMask
  outRegs : RegMask
  inSlots : SlotMask
  outSlots : SlotMask
  deriving DecidableEq, Repr

def LiveMasks.empty : LiveMasks := ⟨0, 0, 0, 0⟩

/-- The masks of instruction `i` from those of its successors. -/
def transfer (masks : List LiveMasks) (ud : InsnUseDef) (succs : List Nat) : LiveMasks :=
  let outRegs := succs.foldl (fun m s => m ||| (masks.getD s .empty).inRegs) 0
  let outSlots := succs.foldl (fun m s => m ||| (masks.getD s .empty).inSlots) 0
  { inRegs := (outRegs &&& ~~~ud.defRegs) ||| ud.useRegs
    outRegs
    inSlots := (outSlots &&& ~~~ud.writeSlots) ||| ud.readSlots
    outSlots }

/-- One pass of the loop, in instruction order on the masks as they are updated. -/
def livePass (program : List BpfInsn) (masks : List LiveMasks) : List LiveMasks :=
  (program.zipIdx).foldl (fun ms (insn, i) =>
    ms.set i (transfer ms (useDef insn) (staticSuccessors i program))) masks

def liveLoop (program : List BpfInsn) : Nat → List LiveMasks → List LiveMasks
  | 0, masks => masks
  | fuel + 1, masks =>
    let next := livePass program masks
    if next = masks then masks else liveLoop program fuel next

/-- The masks of a program. -/
structure Liveness where
  masks : List LiveMasks
  deriving DecidableEq, Repr

namespace Liveness

def liveRegsBefore (l : Liveness) (pc : Nat) : RegMask := (l.masks.getD pc .empty).inRegs

def liveStackBefore (l : Liveness) (pc : Nat) : SlotMask := (l.masks.getD pc .empty).inSlots

end Liveness

/-- The liveness of a program. The source's index panics when a call is the last
    instruction of the program and its subprogram returns. -/
def analyze (program : List BpfInsn) : Exec Liveness :=
  let n := program.length
  if (List.range n).all fun i => (staticSuccessors i program).all (· < n) then
    .ok ⟨liveLoop program (n * 160 + 1) (List.replicate n .empty)⟩
  else .error .panic

end RandVerifier
