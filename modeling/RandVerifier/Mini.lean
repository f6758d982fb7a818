/-
  RandVerifier.Mini — the path exploration (`verify_mini_core` of `src/mini.rs`).

  The worklist is a stack, its top first. One round of the source's loop is `iterate`: pop
  an item, visit the checkpoints of its pc (prune, reject or store), charge the budgets,
  and push what the instruction leads to. A run stops when the worklist is empty or a
  round fails; `max_steps` bounds the rounds.
-/

import RandVerifier.Exec
import RandVerifier.Precision

namespace RandVerifier

/-- The bounds of the exploration. -/
structure VerifierLimits where
  maxStates : Nat
  maxSteps : Nat
  maxLoopIterations : Nat
  progType : ProgType
  deriving DecidableEq, Repr

def VerifierLimits.default : VerifierLimits := ⟨1024, 100000, 256, .socketFilter⟩

/-- A path arriving at `pc`; `lastCp` is the deepest checkpoint on its parent chain. -/
structure WorkItem where
  pc : Nat
  state : VerifierState
  lastCp : Option Nat
  history : List HistEntry

/-- The locals of the loop. -/
structure MiniState where
  worklist : List WorkItem
  checkpoints : List Checkpoint
  visited : Nat → List Nat
  analyzed : Nat → List VerifierState
  loopIters : Nat → Nat
  steps : Nat
  insnProcessed : Nat
  jmpsProcessed : Nat
  prevInsnProcessed : Nat
  prevJmpsProcessed : Nat

/-- What a run reads and never changes. -/
structure MiniEnv where
  program : List BpfInsn
  loopHeads : List Nat
  limits : VerifierLimits
  liveness : Liveness

/-! ## Branch counts -/

/-- Change one branch count; a `usize` below zero panics. -/
def bumpCount (cp : Checkpoint) (up : Bool) : Exec Checkpoint :=
  if up then .ok { cp with branches := cp.branches + 1 }
  else if cp.branches = 0 then .error .panic
  else .ok { cp with branches := cp.branches - 1 }

/-- Change the branch counts of the checkpoints at the given indices, in order. -/
def bumpAll (up : Bool) : List Nat → List Checkpoint → Exec (List Checkpoint)
  | [], cps => .ok cps
  | i :: rest, cps =>
    match cps[i]? with
    | none => .error .panic
    | some cp => do
      let cp' ← bumpCount cp up
      bumpAll up rest (cps.set i cp')

/-- Adjust the branch count of every checkpoint on a parent chain. -/
def bumpBranches (cps : List Checkpoint) (last : Option Nat) (up : Bool) :
    Exec (List Checkpoint) :=
  bumpAll up (chain cps last) cps

/-! ## Prune points -/

/-- Conditional jumps, and the targets of unconditional jumps. -/
def isPrunePoint (program : List BpfInsn) (pc : Nat) : Bool :=
  (program[pc]?.any (·.isConditionalBranch)) ||
  program.zipIdx.any fun
    | (.jmp offset, i) => (i : Int) + 1 + offset.toInt == pc
    | _ => false

/-- The visit of the stored checkpoints so far. -/
structure VisitScan where
  checkpoints : List Checkpoint
  addNewState : Bool
  evict : List Nat

/-- A checkpoint that did not match: its miss is counted while a store is due, and it is
    evicted once it misses much more than it hits. -/
def missScan (scan : VisitScan) (cpIdx : Nat) (addNewState : Bool) : VisitScan :=
  let cps := if addNewState then
      scan.checkpoints.modify cpIdx fun cp => { cp with missCnt := cp.missCnt + 1 }
    else scan.checkpoints
  let evict := match cps[cpIdx]? with
    | some cp => if cp.hitCnt * 3 + 3 < cp.missCnt then scan.evict ++ [cpIdx] else scan.evict
    | none => scan.evict
  ⟨cps, addNewState, evict⟩

/-- How an arrival leaves the visit; `cpIdx` is the checkpoint it matched. -/
inductive VisitResult where
  | pruned (cpIdx : Nat) (checkpoints : List Checkpoint)
  | looping (cpIdx : Nat)
  | explored (scan : VisitScan)

/-- Compare an arrival against the checkpoints of its pc, in order. -/
def scanVisited (cleaned : VerifierState) (liveRegs : RegMask) (dInsn dJmps : Nat) :
    List Nat → VisitScan → Exec VisitResult
  | [], scan => .ok (.explored scan)
  | cpIdx :: rest, scan =>
    match scan.checkpoints[cpIdx]? with
    | none => .error .panic
    | some cp =>
      if 0 < cp.branches then
        -- an in-progress state takes part in the infinite-loop detection only
        if statesMaybeLooping cp.state cleaned && statesEqual cp.state cleaned .exact liveRegs then
          .ok (.looping cpIdx)
        else
          let add := if dInsn < 100 ∧ dJmps < 20 then false else scan.addNewState
          scanVisited cleaned liveRegs dInsn dJmps rest (missScan scan cpIdx add)
      else if statesEqual cp.state cleaned .notExact liveRegs then
        .ok (.pruned cpIdx (scan.checkpoints.modify cpIdx fun cp => { cp with hitCnt := cp.hitCnt + 1 }))
      else scanVisited cleaned liveRegs dInsn dJmps rest (missScan scan cpIdx scan.addNewState)

/-! ## One round -/

def cleanedState (env : MiniEnv) (item : WorkItem) : VerifierState :=
  cleanState item.state (env.liveness.liveRegsBefore item.pc) (env.liveness.liveStackBefore item.pc)

/-- Store the cleaned arrival as a new checkpoint of its path. -/
def storeCheckpoint (s : MiniState) (item : WorkItem) (cleaned : VerifierState) : MiniState :=
  let cpIdx := s.checkpoints.length
  { s with
    checkpoints := s.checkpoints ++ [⟨cleaned, item.lastCp, 0, 0, 0, item.history⟩]
    visited := Function.update s.visited item.pc (s.visited item.pc ++ [cpIdx])
    prevInsnProcessed := s.insnProcessed
    prevJmpsProcessed := s.jmpsProcessed }

/-- Apply the outcome of a visit that did not prune: evictions, then the store. -/
def applyScan (s : MiniState) (item : WorkItem) (cleaned : VerifierState) (scan : VisitScan) :
    MiniState × Option Nat :=
  let s := { s with
    checkpoints := scan.checkpoints
    visited := Function.update s.visited item.pc ((s.visited item.pc).filter (· ∉ scan.evict)) }
  if scan.addNewState then (storeCheckpoint s item cleaned, some s.checkpoints.length)
  else (s, item.lastCp)

/-- Scan the checkpoints of the arrival's pc. A new state is due when the history grows too
    long, or 8 instructions and 2 jumps after the last store. -/
def visitResult (env : MiniEnv) (s : MiniState) (item : WorkItem) (cleaned : VerifierState) :
    Exec VisitResult :=
  let dInsn := s.insnProcessed - s.prevInsnProcessed
  let dJmps := s.jmpsProcessed - s.prevJmpsProcessed
  let addNewState := decide (64 ≤ item.history.length) || decide (8 ≤ dInsn ∧ 2 ≤ dJmps)
  scanVisited cleaned (env.liveness.liveRegsBefore item.pc) dInsn dJmps (s.visited item.pc)
    ⟨s.checkpoints, addNewState, []⟩

/-- `is_state_visited`: the state after the visit and the deepest checkpoint of the path,
    or the checkpoints after a prune. -/
def visit (env : MiniEnv) (s : MiniState) (item : WorkItem) (cleaned : VerifierState) :
    Exec (List Checkpoint ⊕ (MiniState × Option Nat)) :=
  if isPrunePoint env.program item.pc then do
    match ← visitResult env s item cleaned with
    | .pruned _ cps => .ok (.inl cps)
    | .looping _ => fail item.pc s!"infinite loop detected at insn {item.pc}"
    | .explored scan => .ok (.inr (applyScan s item cleaned scan))
  else .ok (.inr (s, item.lastCp))

/-- The loop-head and the stored-state budget; then the arrival is recorded. -/
def charge (env : MiniEnv) (s : MiniState) (pc : Nat) (cleaned : VerifierState) :
    Exec MiniState := do
  let iters := s.loopIters pc + 1
  let isHead := env.loopHeads.contains pc
  failIf (isHead ∧ env.limits.maxLoopIterations < iters) pc <|
    s!"back-edge exceeds max loops ({env.limits.maxLoopIterations}) — the loop does not converge"
  failIf (env.limits.maxStates < s.checkpoints.length) pc
    s!"verification complexity limit exceeded (max_states {env.limits.maxStates})"
  .ok { s with
    loopIters := if isHead then Function.update s.loopIters pc iters else s.loopIters
    analyzed := Function.update s.analyzed pc (s.analyzed pc ++ [cleaned]) }

/-- The destination register of an instruction (0 for those without one). -/
def insnDst : BpfInsn → Reg
  | .movImm dst _ | .movReg dst _ | .mov32Imm dst _ | .mov32Reg dst _
  | .addImm dst _ | .addReg dst _ | .subImm dst _ | .subReg dst _ | .andImm dst _ | .andReg dst _
  | .orImm dst _ | .orReg dst _ | .xorImm dst _ | .xorReg dst _ | .lshImm dst _ | .lshReg dst _
  | .rshImm dst _ | .rshReg dst _ | .arshImm dst _ | .arshReg dst _
  | .add32Imm dst _ | .add32Reg dst _ | .sub32Imm dst _ | .sub32Reg dst _ | .and32Imm dst _
  | .and32Reg dst _ | .or32Imm dst _ | .or32Reg dst _ | .xor32Imm dst _ | .xor32Reg dst _
  | .lsh32Imm dst _ | .lsh32Reg dst _ | .rsh32Imm dst _ | .rsh32Reg dst _ | .arsh32Imm dst _
  | .arsh32Reg dst _ | .ldMem dst _ _ _ _ | .ldImm64 dst _ | .ldMapFd dst _ _ _ _
  | .ldMapValue dst _ _ _ _
  | .jeq dst _ _ | .jne dst _ _ | .jgt dst _ _ | .jge dst _ _ | .jlt dst _ _ | .jle dst _ _
  | .jsgt dst _ _ | .jsge dst _ _ | .jslt dst _ _ | .jsle dst _ _
  | .jeqImm dst _ _ | .jneImm dst _ _ | .jgtImm dst _ _ | .jgeImm dst _ _ | .jltImm dst _ _
  | .jleImm dst _ _ | .jsgtImm dst _ _ | .jsgeImm dst _ _ | .jsltImm dst _ _ | .jsleImm dst _ _
  | .jset dst _ _ | .jsetImm dst _ _ | .jmp32 dst _ _ _ _ => dst
  | _ => 0

/-- The source register of a reg-reg instruction. -/
def insnSrc : BpfInsn → Option Reg
  | .movReg _ src | .addReg _ src | .subReg _ src | .andReg _ src | .orReg _ src | .xorReg _ src
  | .lshReg _ src | .rshReg _ src | .arshReg _ src | .add32Reg _ src | .sub32Reg _ src
  | .and32Reg _ src | .or32Reg _ src | .xor32Reg _ src | .lsh32Reg _ src | .rsh32Reg _ src
  | .arsh32Reg _ src
  | .jeq _ src _ | .jne _ src _ | .jgt _ src _ | .jge _ src _ | .jlt _ src _ | .jle _ src _
  | .jsgt _ src _ | .jsge _ src _ | .jslt _ src _ | .jsle _ src _ => some src
  | _ => none

def isPointer : RegState → Bool
  | .uninit | .scalar _ => false
  | _ => true

/-- The register operations that move a pointer by a scalar source. -/
def isPtrAluReg : BpfInsn → Bool
  | .addReg .. | .subReg .. | .andReg .. | .orReg .. | .xorReg .. | .add32Reg .. | .sub32Reg .. => true
  | _ => false

/-- The registers whose values decided a branch or a pointer offset. -/
def precisionRegs (insn : BpfInsn) (st : VerifierState) (nexts : Nat) : RegMask :=
  let dst := insnDst insn
  if insn.isConditionalBranch ∧ nexts = 1 then
    regBit dst ||| ((insnSrc insn).map regBit).getD 0
  else match insnSrc insn with
    | none => 0
    | some src =>
      if isPtrAluReg insn && isPointer (st.regs dst) && (st.regs src).isScalar then regBit src
      else match insn with
        | .addReg _ _ => if (st.regs dst).isScalar && isPointer (st.regs src) then regBit dst else 0
        | _ => 0

/-- The history entry of an instruction: the covered slots of a stack access. -/
def histEntry (pc : Nat) (insn : BpfInsn) (st : VerifierState) : HistEntry :=
  let slots (base : Reg) (offset : Int16) (size : MemSize) : Option (Nat × Nat) :=
    match st.regs base with
    | .ptrToStack lo hi al _ => stackAccessRange lo hi al offset size.bytes
    | _ => none
  ⟨pc, match insn with
    | .ldMem _ base offset size _ => slots base offset size
    | .stMem _ base offset size => slots base offset size
    | .stMemImm _ base offset size => slots base offset size
    | _ => none⟩

/-- Mark the requirement of a value-dependent site: at a fresh store the new checkpoint's
    segment is the item's history. -/
def markRequired (env : MiniEnv) (cps : List Checkpoint) (item : WorkItem) (itemLastCp : Option Nat)
    (regs : RegMask) : List Checkpoint :=
  if regs = 0 then cps
  else if itemLastCp ≠ item.lastCp then markChainPrecision env.program cps itemLastCp [] regs
  else markChainPrecision env.program cps item.lastCp item.history regs

/-- Push items under a checkpoint: each one counts on its whole chain. -/
def pushItems (s : MiniState) (last : Option Nat) (items : List WorkItem) : Exec MiniState := do
  let cps ← items.foldlM (fun cps _ => bumpBranches cps last true) s.checkpoints
  .ok { s with checkpoints := cps, worklist := items ++ s.worklist }

/-- The item is consumed: the counts of its chain drop by one. -/
def consume (s : MiniState) (item : WorkItem) : Exec MiniState := do
  let cps ← bumpBranches s.checkpoints item.lastCp false
  .ok { s with checkpoints := cps }

/-- An exit inside a subprogram: the path continues at the call site under the item's old
    checkpoint, with a fresh history. -/
def nestedExit (s : MiniState) (item : WorkItem) : Exec MiniState := do
  failIf (item.state.regs 0).isPtrToStack item.pc "cannot return stack pointer to the caller"
  let returned := item.state.returnFromSubprog.1
  let s ← pushItems s item.lastCp [⟨item.state.retPc, returned, item.lastCp, []⟩]
  consume s item

/-- R0 at an exit of the main program. -/
def exitValue (pc : Nat) : RegState → Exec RegState
  | .uninit => fail pc "r0 is uninitialized at exit"
  | v => .ok v

/-- A path ends at the main exit: R0 a scalar, no reference held. -/
def mainExit (s : MiniState) (item : WorkItem) : Exec MiniState := do
  let r0 ← exitValue item.pc (item.state.regs 0)
  failIf (r0.isScalar = false) item.pc "r0 is not a scalar value at exit"
  failIf (0 < item.state.refsCnt) item.pc s!"Unreleased reference id={item.state.refs 0}"
  consume s item

/-- The successors of an item: the history restarts at a stored checkpoint. -/
def nextItems (item : WorkItem) (itemLastCp : Option Nat) (entry : HistEntry) (nexts : List Succ) :
    List WorkItem :=
  let history := if itemLastCp ≠ item.lastCp then [entry] else item.history ++ [entry]
  nexts.map fun (pc, st) => ⟨pc, st, itemLastCp, history⟩

/-- An instruction that leads on: mark what it decided, push its successors. -/
def expand (env : MiniEnv) (s : MiniState) (item : WorkItem) (itemLastCp : Option Nat)
    (insn : BpfInsn) : Exec MiniState := do
  let nexts ← successors item.pc insn item.state
  let cps := markRequired env s.checkpoints item itemLastCp
    (precisionRegs insn item.state nexts.length)
  let entry := histEntry item.pc insn item.state
  let s ← pushItems { s with checkpoints := cps } itemLastCp (nextItems item itemLastCp entry nexts)
  consume s item

def BpfInsn.isHelperCall : BpfInsn → Bool
  | .call _ => true
  | _ => false

/-- Execute a recorded item. -/
def execItem (env : MiniEnv) (s : MiniState) (item : WorkItem) (itemLastCp : Option Nat)
    (insn : BpfInsn) : Exec MiniState :=
  let s := if insn.isControlFlow || insn.isHelperCall then
      { s with jmpsProcessed := s.jmpsProcessed + 1 }
    else s
  if insn = .exit then
    if 0 < item.state.curframe then nestedExit s item else mainExit s item
  else expand env s item itemLastCp insn

/-- An item that was popped, at a pc inside the program. -/
def exploreItem (env : MiniEnv) (s : MiniState) (item : WorkItem) (insn : BpfInsn) :
    Exec MiniState := do
  let cleaned := cleanedState env item
  match ← visit env s item cleaned with
  | .inl cps => consume { s with checkpoints := cps } item
  | .inr (s, itemLastCp) => do
    let s ← charge env s item.pc cleaned
    execItem env s item itemLastCp insn

/-- One round of the loop; `none` when the worklist is empty. -/
def iterate (env : MiniEnv) (s : MiniState) : Exec (Option MiniState) :=
  match s.worklist with
  | [] => .ok none
  | item :: rest => do
    let steps := s.steps + 1
    failIf (env.limits.maxSteps < steps) item.pc
      s!"verification complexity limit exceeded (max_steps {env.limits.maxSteps})"
    match env.program[item.pc]? with
    | none => fail item.pc "internal error: pc out of program range"
    | some insn =>
      let s := { s with worklist := rest, steps := steps, insnProcessed := s.insnProcessed + 1 }
      some <$> exploreItem env s item insn

/-! ## The run -/

def initialMini (limits : VerifierLimits) : MiniState :=
  { worklist := [⟨0, .initialWith limits.progType, none, []⟩]
    checkpoints := [], visited := fun _ => [], analyzed := fun _ => [], loopIters := fun _ => 0
    steps := 0, insnProcessed := 0, jmpsProcessed := 0, prevInsnProcessed := 0, prevJmpsProcessed := 0 }

/-- Rounds until the worklist is empty; `none` when the fuel is used up. -/
def runMini (env : MiniEnv) : Nat → MiniState → Exec (Option MiniState)
  | 0, _ => .ok none
  | fuel + 1, s => do
    match ← iterate env s with
    | none => .ok (some s)
    | some s => runMini env fuel s

def miniEnv (program : List BpfInsn) (loopHeads : List Nat) (limits : VerifierLimits) :
    Exec MiniEnv := do
  let liveness ← analyze program
  .ok ⟨program, loopHeads, limits, liveness⟩

/-- The number of stored checkpoints and the analyzed states per pc. Every round counts a
    step, so `max_steps + 2` rounds are enough for any run. -/
def verifyMiniCore (program : List BpfInsn) (loopHeads : List Nat) (limits : VerifierLimits) :
    Exec (Nat × (Nat → List VerifierState)) := do
  let env ← miniEnv program loopHeads limits
  match ← runMini env (limits.maxSteps + 2) (initialMini limits) with
  | some s => .ok (s.checkpoints.length, s.analyzed)
  | none => .error .panic

end RandVerifier
