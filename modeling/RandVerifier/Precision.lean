/-
  RandVerifier.Precision — the scalar precision backtracking (`src/mini.rs`).

  A requirement is a mask of registers and a mask of stack slots. It is walked backward
  through the segments of a path and into the stored checkpoints of its parent chain.
-/

import RandVerifier.StateEq

namespace RandVerifier

/-- One executed instruction, with the covered slots of a stack access. -/
structure HistEntry where
  pc : Nat
  slots : Option (Nat × Nat)
  deriving DecidableEq, Repr

/-- One stored state: its parent on the path, the paths pending under it, the prune
    statistics and the path segment that ends at it. -/
structure Checkpoint where
  state : VerifierState
  parent : Option Nat
  branches : Nat
  hitCnt : Nat
  missCnt : Nat
  segment : List HistEntry

/-- The checkpoints from `last` along the parents. A parent is stored before its child, so
    the number of checkpoints bounds the walk. -/
def chainFrom (cps : List Checkpoint) : Nat → Option Nat → List Nat
  | 0, _ => []
  | _ + 1, none => []
  | fuel + 1, some i =>
    match cps[i]? with
    | none => []
    | some cp => i :: chainFrom cps fuel cp.parent

def chain (cps : List Checkpoint) (last : Option Nat) : List Nat := chainFrom cps cps.length last

/-! ## The requirement -/

structure Backtrack where
  regs : RegMask
  slots : SlotMask
  deriving DecidableEq, Repr

def Backtrack.isEmpty (bt : Backtrack) : Bool := bt.regs == 0 && bt.slots == 0

namespace Backtrack

def needs (bt : Backtrack) (r : Reg) : Bool := bt.regs.getLsbD r.val

def clearReg (bt : Backtrack) (r : Reg) : Backtrack := { bt with regs := bt.regs &&& ~~~regBit r }

def addReg (bt : Backtrack) (r : Reg) : Backtrack := { bt with regs := bt.regs ||| regBit r }

/-- R10 is never required. -/
def addSrc (bt : Backtrack) (r : Reg) : Backtrack := if r = 10 then bt else bt.addReg r

end Backtrack

/-- The mask of the slots `lo..=hi`. -/
def slotMask (slots : Nat × Nat) : SlotMask :=
  (List.range' slots.1 (slots.2 + 1 - slots.1)).foldl (fun m s => m ||| slotBit s) 0

inductive BacktrackOutcome where
  | resolved
  | fallback
  | continue
  deriving DecidableEq, Repr

/-- `Resolved` once nothing is required anymore. -/
def Backtrack.outcome (bt : Backtrack) : Backtrack × BacktrackOutcome :=
  (bt, if bt.isEmpty then .resolved else .continue)

/-- A move: the requirement goes to the source. -/
def backtrackMov (bt : Backtrack) (dst src : Reg) : Backtrack :=
  if bt.needs dst then (bt.clearReg dst).addSrc src else bt

/-- `dst op= src`: both operands contribute. -/
def backtrackAluReg (bt : Backtrack) (dst src : Reg) : Backtrack :=
  if bt.needs dst then bt.addSrc src else bt

/-- A fill: the requirement goes to the covered slots, or is dropped. -/
def backtrackLoad (bt : Backtrack) (dst : Reg) (slots : Option (Nat × Nat)) : Backtrack :=
  if bt.needs dst then
    match slots with
    | some range => { bt.clearReg dst with slots := bt.slots ||| slotMask range }
    | none => bt.clearReg dst
  else bt

/-- A store that feeds a required slot: the requirement goes to the stored register. -/
def backtrackStore (bt : Backtrack) (src : Reg) (slots : Option (Nat × Nat)) : Backtrack :=
  match slots with
  | some range =>
    let bt' := { bt with slots := bt.slots &&& ~~~slotMask range }
    if bt.slots &&& slotMask range ≠ 0 then bt'.addSrc src else bt'
  | none => bt

def backtrackStoreImm (bt : Backtrack) (slots : Option (Nat × Nat)) : Backtrack :=
  match slots with
  | some range => { bt with slots := bt.slots &&& ~~~slotMask range }
  | none => bt

/-- A comparison of two registers: both contribute if either is required. -/
def backtrackCmp (bt : Backtrack) (dst src : Reg) : Backtrack :=
  if bt.needs dst || bt.needs src then (bt.addReg dst).addReg src else bt

def backtrackAtomic (bt : Backtrack) (src : Reg) (op : AtomicOp) (fetch : Bool) : Backtrack :=
  if op = .cmpxchg then bt.clearReg 0 else if fetch then bt.clearReg src else bt

/-- One instruction of the backward walk. -/
def backtrackInsn (insn : BpfInsn) (slots : Option (Nat × Nat)) (bt : Backtrack) :
    Backtrack × BacktrackOutcome :=
  match insn with
  | .atomic _ src _ _ op fetch => (backtrackAtomic bt src op fetch).outcome
  | .ldAbs .. | .ldInd .. => (bt.clearReg 0).outcome
  | .movImm dst _ | .mov32Imm dst _ => (bt.clearReg dst).outcome
  | .movReg dst src | .mov32Reg dst src => (backtrackMov bt dst src).outcome
  | .addImm .. | .subImm .. | .andImm .. | .orImm .. | .xorImm .. | .lshImm .. | .rshImm ..
  | .arshImm .. | .mulImm .. | .divImm .. | .modImm .. | .neg .. | .add32Imm .. | .sub32Imm ..
  | .and32Imm .. | .or32Imm .. | .xor32Imm .. | .lsh32Imm .. | .rsh32Imm .. | .arsh32Imm ..
  | .mul32Imm .. | .div32Imm .. | .mod32Imm .. | .neg32 .. => bt.outcome
  | .addReg dst src | .subReg dst src | .andReg dst src | .orReg dst src | .xorReg dst src
  | .lshReg dst src | .rshReg dst src | .arshReg dst src | .mulReg dst src _ | .divReg dst src
  | .modReg dst src | .add32Reg dst src | .sub32Reg dst src | .and32Reg dst src | .or32Reg dst src
  | .xor32Reg dst src | .lsh32Reg dst src | .rsh32Reg dst src | .arsh32Reg dst src
  | .mul32Reg dst src | .div32Reg dst src | .mod32Reg dst src => (backtrackAluReg bt dst src).outcome
  | .ldMem dst _ _ _ _ => (backtrackLoad bt dst slots).outcome
  | .stMem src _ _ _ => (backtrackStore bt src slots).outcome
  | .stMemImm .. => (backtrackStoreImm bt slots).outcome
  | .ldImm64 dst _ | .ldMapFd dst _ _ _ _ | .ldMapValue dst _ _ _ _ => (bt.clearReg dst).outcome
  | .ldImm64Second _ => bt.outcome
  | .callSub _ => if bt.regs &&& (regBit 0 ||| argRegs) ≠ 0 then (bt, .fallback) else bt.outcome
  | .call _ | .callKfunc _ =>
    let bt := bt.clearReg 0
    if bt.regs &&& argRegs ≠ 0 then (bt, .fallback) else bt.outcome
  | .exit => bt.outcome
  | .jmp _ => bt.outcome
  | .jeq dst src _ | .jne dst src _ | .jgt dst src _ | .jge dst src _ | .jlt dst src _
  | .jle dst src _ | .jsgt dst src _ | .jsge dst src _ | .jslt dst src _ | .jsle dst src _ =>
    (backtrackCmp bt dst src).outcome
  | .jeqImm .. | .jneImm .. | .jgtImm .. | .jgeImm .. | .jltImm .. | .jleImm .. | .jsgtImm ..
  | .jsgeImm .. | .jsltImm .. | .jsleImm .. | .jset .. | .jsetImm .. | .jmp32 .. => bt.outcome

/-- The backward walk through the entries of a segment, the last one first. An entry's pc
    was executed, so it names an instruction. -/
def backtrackEntries (program : List BpfInsn) : List HistEntry → Backtrack →
    Backtrack × BacktrackOutcome
  | [], bt => (bt, .continue)
  | entry :: rest, bt =>
    match program[entry.pc]? with
    | none => backtrackEntries program rest bt
    | some insn =>
      match backtrackInsn insn entry.slots bt with
      | (bt', .continue) => backtrackEntries program rest bt'
      | (bt', out) => (bt', out)

def backtrackSegment (program : List BpfInsn) (segment : List HistEntry) (bt : Backtrack) :
    Backtrack × BacktrackOutcome :=
  backtrackEntries program segment.reverse bt

/-! ## Marking -/

def RegState.markPrecise : RegState → RegState
  | .scalar b => .scalar { b with precise := true }
  | v => v

/-- Mark the selected registers and the selected full spills of a state. -/
def markState (st : VerifierState) (reg : Reg → Bool) (slot : Nat → Bool) : VerifierState :=
  { st with
    regs := fun r => if reg r then (st.regs r).markPrecise else st.regs r
    stack := st.stack.mapSpilled fun s v =>
      if slot s ∧ st.stack.slotAll s .spill then v.markPrecise else v }

/-- Mark the requirement in one stored checkpoint; whatever the registers and slots hold,
    nothing is required afterwards. -/
def markCheckpoint (cps : List Checkpoint) (i : Nat) (bt : Backtrack) :
    List Checkpoint × Backtrack :=
  (cps.modify i fun cp =>
    { cp with state := markState cp.state bt.needs fun s => decide (s < stackSlots) && bt.slots.getLsbD s },
   { regs := bt.regs &&& ~~~(BitVec.ofNat 16 0x7ff), slots := 0 })

/-- Every scalar of every checkpoint on the chain becomes precise. -/
def markAllScalarsPrecise (cps : List Checkpoint) (last : Option Nat) : List Checkpoint :=
  (chain cps last).foldl (fun cps i =>
    cps.modify i fun cp =>
      { cp with state := markState cp.state (fun _ => true) fun s => decide (s < stackSlots) }) cps

/-- Walk the requirement backward through the segments, deepest first. -/
def markSegments (program : List BpfInsn) :
    List (List HistEntry) → List Checkpoint → Option Nat → Backtrack → List Checkpoint
  | [], cps, last, _ => markAllScalarsPrecise cps last
  | seg :: rest, cps, last, bt =>
    match backtrackSegment program seg bt with
    | (_, .resolved) => cps
    | (_, .fallback) => markAllScalarsPrecise cps last
    | (bt, .continue) =>
      match last with
      | none => markAllScalarsPrecise cps none
      | some i =>
        let (cps', bt') := markCheckpoint cps i bt
        if bt'.isEmpty then cps'
        else markSegments program rest cps' ((cps'[i]?).bind (·.parent)) bt'

/-- The segments of a chain: the path's own history, then each checkpoint's. -/
def chainSegments (cps : List Checkpoint) (last : Option Nat) (segment : List HistEntry) :
    List (List HistEntry) :=
  segment :: (chain cps last).map fun i => ((cps[i]?).map (·.segment)).getD []

def markChainPrecision (program : List BpfInsn) (cps : List Checkpoint) (last : Option Nat)
    (segment : List HistEntry) (regs : RegMask) : List Checkpoint :=
  if regs = 0 then cps
  else markSegments program (chainSegments cps last segment) cps last ⟨regs, 0⟩

end RandVerifier
