/-
  RandVerifier.Verify — loading and verifying a program (`src/env.rs`, the coverage check of
  `src/concrete.rs` and the stack budget of the recorded states in `src/cfg.rs`).

  The structural passes, the path exploration and the stack budget of its states accept or
  reject. An accepted program is run concretely and every visited state must be covered by a
  state of the exploration; a rejected one is run for a note. What does not decode is rejected
  without a run.

  - `covered_all`, `acceptReport_safe`: what a clean report on an accepted program means;
  - `verify_report`: only what does not decode is not run.
-/

import RandVerifier.CallReturn
import RandVerifier.Explorer
import RandVerifier.Mini
import RandVerifier.Spec.Runner
import RandVerifier.StackBudget

namespace RandVerifier

namespace Explorer

/-! ## Coverage -/

/-- The known bits of a tnum match. -/
def tnumContains (t : Tnum) (value : UInt64) : Bool := value &&& ~~~t.mask == t.value &&& ~~~t.mask

/-- An imprecise scalar covers every value. -/
def scalarCovers (bounds : ScalarBounds) (value : UInt64) : Bool :=
  !bounds.precise ||
    (decide (bounds.smin ≤ value.toInt64 ∧ value.toInt64 ≤ bounds.smax) &&
      decide (bounds.umin ≤ value ∧ value ≤ bounds.umax) && tnumContains bounds.tnum value)

/-- An offset in a tracked range with the tracked alignment. -/
def offsetCovers (minOffset maxOffset : Int) (alignOff : Nat) (offset : Int) : Bool :=
  decide (minOffset ≤ offset ∧ offset ≤ maxOffset) &&
    (alignOff == alignUnknown || (offset % 8).toNat == alignOff)

/-- Whether an abstract register contains a concrete value. -/
def abstractCovers (reg : RegState) (value : ConcreteValue) : Bool :=
  match reg, value with
  | .scalar bounds, .scalar v => scalarCovers bounds v
  | .ptrToStack minOffset maxOffset alignOff _, .stackPtr v _ =>
    offsetCovers minOffset maxOffset alignOff (v - stackBase).toInt64.toInt
  | .ptrToCtx off, .ctxPtr v => v == ctxBase + (Int64.ofInt off).toUInt64
  | .ptrToMap .., .mapPtr _ none _ => true
  | .ptrToMapValue minOffset maxOffset alignOff _ _, .mapPtr _ (some _) offset =>
    offsetCovers minOffset maxOffset alignOff offset.toInt
  | .ptrToMapValueOrNull valueSize _, .mapPtr _ (some _) offset =>
    decide (0 ≤ offset.toInt) && (valueSize == 0 || decide (offset.toInt < valueSize))
  | .ptrToMapValueOrNull .., .scalar v => v == 0
  | .ptrToMem .., .memPtr _ | .ptrToMemOrNull .., .memPtr _ => true
  | .ptrToMem .., .scalar v | .ptrToMemOrNull .., .scalar v => v == 0
  | _, _ => false

/-- The byte of a slot value that the frame byte `j` of the slot stands for. -/
def slotByte (v : UInt64) (j : Nat) : UInt64 := (v >>> UInt64.ofNat ((7 - j) * 8)) &&& 0xff

/-- Whether a byte of an abstract slot covers the slot's concrete value. -/
def byteCovers (spilled : Option RegState) (value : ConcreteValue) (j : Nat) : StackByte → Bool
  | .misc => true
  | .zero | .invalid => slotByte value.bits j == 0
  | .spill =>
    match spilled with
    | some (.scalar b) =>
      if b.isConstant then slotByte value.bits j == slotByte b.smin.toUInt64 j
      else abstractCovers (.scalar b) value
    | some reg => abstractCovers reg value
    | none => false
  | .dynptr => false

def regCovers (reg : RegState) : Option ConcreteValue → Bool
  | none => reg == .uninit
  | some value => abstractCovers reg value

def slotCovers (stack : StackState) (slot : Nat) : Option ConcreteValue → Bool
  | none => (List.range 8).all fun j =>
    match stack.bytes (slot * 8 + j) with
    | .invalid | .misc | .dynptr => true
    | _ => false
  | some value => (List.range 8).all fun j => byteCovers (stack.spilled slot) value j (stack.bytes (slot * 8 + j))

/-- Whether an abstract state covers every register and slot of a concrete one. -/
def stateCovers (abs : VerifierState) (s : ConcreteState) : Bool :=
  (List.finRange 11).all (fun r => regCovers (abs.regs r) (s.regs r)) &&
    (List.finRange stackSlots).all fun slot => slotCovers abs.stack slot.val (s.stack slot)

inductive CoverageKind where
  | abstractMissedPc
  | notCovered
  deriving DecidableEq, Repr

structure CoverageViolation where
  pc : Nat
  kind : CoverageKind

/-- The violation of one visited state. A pc without states was never analyzed. -/
def violationAt (states : Nat → List VerifierState) (visited : ConcreteSucc) : Option CoverageViolation :=
  if (states visited.1).isEmpty then some ⟨visited.1, .abstractMissedPc⟩
  else if (states visited.1).any (stateCovers · visited.2) then none
  else some ⟨visited.1, .notCovered⟩

/-- Every visited state must be covered at its pc. -/
def checkCoverage (states : Nat → List VerifierState) (run : ConcreteRun) : List CoverageViolation :=
  run.visited.filterMap (violationAt states)

theorem covered_all {states : Nat → List VerifierState} {run : ConcreteRun} :
    checkCoverage states run = [] ↔ ∀ x ∈ run.visited, ∃ abs ∈ states x.1, stateCovers abs x.2 = true := by
  unfold checkCoverage
  rw [List.filterMap_eq_nil_iff]
  refine forall₂_congr fun x _ => ?_
  rw [← List.any_eq_true]
  unfold violationAt
  by_cases hnil : states x.1 = []
  · simp [hnil]
  · cases hany : (states x.1).any (stateCovers · x.2)
    · simp [hnil]
    · simp [hnil]

/-! ## The texts of a failure -/

/-- The `Display` of a failure. -/
def ConcreteFailure.message : ConcreteFailure → String
  | uninitializedRead pc reg => s!"at insn {pc}: register r{reg} is uninitialized"
  | stackOutOfFrame pc offset => s!"at insn {pc}: stack access at r10{signedText offset.toInt} is out of the frame"
  | misalignedStackAccess pc offset => s!"at insn {pc}: stack access at r10{signedText offset.toInt} is not 8-byte aligned"
  | uninitializedStackRead pc offset =>
    s!"at insn {pc}: stack slot at r10{signedText offset.toInt} is uninitialized (write before read)"
  | pointerArithmetic pc reg => s!"at insn {pc}: arithmetic on pointer r{reg}"
  | nonStackBase pc reg => s!"at insn {pc}: stack access through a non-stack pointer r{reg} is not supported"
  | invalidShiftAmount pc amount => s!"at insn {pc}: invalid shift amount {amount}"
  | unknownHelper pc imm => s!"at insn {pc}: unknown helper {imm}"
  | unsupportedKfunc pc => s!"at insn {pc}: unknown kfunc (no BTF support, #101)"
  | helperArgMismatch pc arg => s!"at insn {pc}: helper argument r{arg} has the wrong type"
  | invalidComparison pc dst src => s!"at insn {pc}: invalid comparison of r{dst} and r{src}"
  | invalidComparisonImm pc dst => s!"at insn {pc}: invalid comparison of r{dst} with an immediate"
  | ctxReadUnsupported pc field => s!"at insn {pc}: ctx load of unmapped field {field}"
  | invalidCtxAccess pc off size => s!"at insn {pc}: invalid bpf_context access off={off} size={size}"
  | unsupportedHelperReturn pc imm => s!"at insn {pc}: helper {imm} return type has no concrete model"
  | mapValueOutOfBounds pc offset => s!"at insn {pc}: invalid access to map value at offset {offset}"
  | internalError pc => s!"at insn {pc}: internal error"

end Explorer

/-! ## The stack budget of the recorded states -/

/-- The base, offset and size of a load or store. -/
def stackAccess : BpfInsn → Option (Reg × Int16 × Nat)
  | .ldMem _ base offset size _ | .stMem _ base offset size | .stMemImm _ base offset size =>
    some (base, offset, size.bytes)
  | _ => none

/-- Add the use of one access through a stack pointer to the frame it points into. -/
def raiseDepth (insns : List BpfInsn) (subprogs : List Nat) (pc : Nat) (access : Reg × Int16 × Nat)
    (depth : List Nat) (state : VerifierState) : Exec (List Nat) :=
  match state.regs access.1 with
  | .ptrToStack minOffset _ _ frameno =>
    match frameSubprogEntry state frameno insns with
    | none => fail pc "unable to resolve stack pointer's owning frame"
    | some entry =>
      match subprogs.findIdx? fun start : Nat => decide (start = entry) with
      | none => fail pc "stack pointer frame is not a subprogram"
      | some idx =>
        let useBytes := (-(minOffset + access.2.1.toInt) + access.2.2).toNat
        .ok (depth.modify idx (max (roundUp8 useBytes)))
  | _ => .ok depth

/-- The use of the accesses at one pc. -/
def raiseDepths (insns : List BpfInsn) (subprogs : List Nat) (states : Nat → List VerifierState) (depth : List Nat)
    (pc : Nat) : Exec (List Nat) :=
  match insns[pc]?.bind stackAccess with
  | none => .ok depth
  | some access => (states pc).foldlM (raiseDepth insns subprogs pc access) depth

/-- The direct use and that through aliases of R10, along the call chains. -/
def checkCombinedStackDepthWithStates (insns : List BpfInsn) (subprogs : List Nat)
    (states : Nat → List VerifierState) : Exec Unit := do
  let direct ← directStackDepthsChecked insns subprogs
  let depth ← (List.range insns.length).foldlM (raiseDepths insns subprogs states) direct
  visitChainChecked insns subprogs depth maxCallFrames 0 [0]

/-- The opcode in the text of a decode error, `{:#04x}`. -/
def opcodeText (op : UInt8) : String := if op < 16 then "0x0" ++ String.ofList (Nat.toDigits 16 op.toNat) else hexText op.toNat

/-- The `Display` of a decode error. -/
def DecodeError.text : DecodeError → String
  | unknownOpcode op => s!"unknown opcode {opcodeText op}"
  | unsupported op reason => s!"unsupported instruction {opcodeText op}: {reason}"
  | invalidRegister reg => s!"R{reg} is invalid"
  | reservedFields message => message
  | invalidInstructionLength actual => s!"invalid instruction length: expected 8 bytes, got {actual}"
  | ldImm64Truncated => "invalid bpf_ldimm64 insn (missing second slot)"
  | divisionByZero => "div by zero"

namespace Pipeline

open Explorer (ConcreteFailure ConcreteRun CoverageViolation checkCoverage)

/-! ## Loading -/

structure MapInfo where
  mapType : Spec.MapType
  keySize : Nat
  valueSize : Nat
  maxEntries : Nat

abbrev Maps := Nat → Option MapInfo

/-- What a program is verified in: its instructions or why there are none, the registered maps
    and the program type. -/
structure Env where
  insns : List BpfInsn
  decodeError : Option VerificationFailure
  maps : Maps
  progType : ProgType

/-- `BpfVerifierEnv::new`: no maps, a socket filter. -/
def Env.new : Env := ⟨[], none, fun _ => none, .socketFilter⟩

/-- A map load with the sizes of its registered map. -/
def resolveMap (maps : Maps) (i : Nat) : BpfInsn → Except VerificationFailure BpfInsn
  | .ldMapFd dst fd _ _ _ =>
    match maps fd with
    | some info =>
      .ok (.ldMapFd dst fd info.keySize info.valueSize (match info.mapType with | .array => 0 | .ringbuf => 1))
    | none => .error ⟨i, s!"unknown map fd {fd}"⟩
  | .ldMapValue dst fd offset _ _ =>
    match maps fd with
    | some info => .ok (.ldMapValue dst fd offset info.keySize info.valueSize)
    | none => .error ⟨i, s!"unknown map fd {fd}"⟩
  | insn => .ok insn

/-- Resolve the map loads from `i` on; the first unknown descriptor ends it. -/
def resolveMaps (maps : Maps) : Nat → List BpfInsn → Except VerificationFailure (List BpfInsn)
  | _, [] => .ok []
  | i, insn :: insns => do
    let insn ← resolveMap maps i insn
    let rest ← resolveMaps maps (i + 1) insns
    .ok (insn :: rest)

/-- Decode and resolve. -/
def loadInsns (maps : Maps) (bytes : List UInt8) : Except VerificationFailure (List BpfInsn) :=
  match decodeProgram bytes with
  | .error (idx, e) => .error ⟨idx, e.text⟩
  | .ok insns => resolveMaps maps 0 insns

/-- `setup_prog_bytes`: only the length can fail here, what does not decode is kept as a
    failure. -/
def Env.setupProgBytes (env : Env) (bytes : List UInt8) : Except String Env :=
  if bytes.length % 8 ≠ 0 then .error s!"Invalid BPF program: size {bytes.length} is not a multiple of 8"
  else if bytes = [] then .error "BPF program is empty"
  else match loadInsns env.maps bytes with
    | .error failure => .ok { env with insns := [], decodeError := some failure }
    | .ok insns => .ok { env with insns := insns, decodeError := none }

/-! ## Verifying -/

inductive Verdict where
  | safe
  | notSafe (failure : VerificationFailure)

inductive ConcreteVerdict where
  | safe
  | notSafe
  | inconclusive
  deriving DecidableEq, Repr

/-- What the concrete run found. -/
structure ConcreteReport where
  violations : List CoverageViolation
  inconclusive : Bool
  noExit : Bool
  unexpectedFailure : Option ConcreteFailure
  rejectNote : Option String
  verdict : ConcreteVerdict

def ConcreteReport.default : ConcreteReport := ⟨[], false, false, none, none, .safe⟩

/-- The verdict and the report of one verification. -/
structure Verified where
  verdict : Verdict
  report : Option ConcreteReport

/-- The concrete run of a program; `none` is a panic. -/
def runConcrete (env : Env) (loopHeads : List Nat) : Option (Except ConcreteFailure ConcreteRun) :=
  match Explorer.runConcreteWithMaps env.insns loopHeads { Explorer.ConcreteLimits.default with progType := env.progType }
      fun fd => (env.maps fd).map fun info => ⟨info.keySize, info.valueSize, info.maxEntries⟩ with
  | .ok run => some (.ok run)
  | .error (.failure f) => some (.error f)
  | .error .panic => none

/-- The note on a rejected program. -/
def crossCheck : Except ConcreteFailure ConcreteRun → ConcreteReport
  | .error f =>
    { ConcreteReport.default with
      rejectNote := some ("concrete cross-check: also fails " ++ f.message), verdict := .notSafe }
  | .ok run =>
    if run.inconclusive then
      { ConcreteReport.default with
        inconclusive := true
        rejectNote := some "concrete cross-check: inconclusive (non-terminating loop candidate)"
        verdict := .inconclusive }
    else if run.noExit then
      { ConcreteReport.default with
        noExit := true
        rejectNote := some "concrete cross-check: never reaches exit (non-terminating loop)"
        verdict := .notSafe }
    else
      { ConcreteReport.default with
        rejectNote := some "concrete cross-check: the program executes concretely — precision candidate"
        verdict := .safe }

def rejectWithCrossCheck (env : Env) (failure : VerificationFailure) (loopHeads : List Nat) : Option Verified :=
  (runConcrete env loopHeads).map fun run => ⟨.notSafe failure, some (crossCheck run)⟩

/-- The report on an accepted program. -/
def acceptReport (states : Nat → List VerifierState) : Except ConcreteFailure ConcreteRun → ConcreteReport
  | .error f => { ConcreteReport.default with unexpectedFailure := some f, verdict := .notSafe }
  | .ok run =>
    let violations := checkCoverage states run
    { ConcreteReport.default with
      inconclusive := run.inconclusive
      noExit := run.noExit
      violations := violations
      verdict :=
        if run.inconclusive then .inconclusive
        else if !violations.isEmpty || run.noExit then .notSafe
        else .safe }

/-- A stage of the pipeline: its failure rejects the program, its panic is one of the whole. -/
def stage {α : Type} (env : Env) (result : Exec α) (loopHeads : List Nat) (next : α → Option Verified) : Option Verified :=
  match result with
  | .ok a => next a
  | .error (.failure failure) => rejectWithCrossCheck env failure loopHeads
  | .error .panic => none

/-- The search of `check_cfg` with enough fuel. -/
def loopHeadsOf (insns : List BpfInsn) (subprogs : List Nat) : Exec (List Nat) :=
  (checkCfgChecked (cfgFuel insns subprogs + 1) insns subprogs).getD (.error .panic)

/-- The whole pipeline; `none` is a panic. -/
def verify (env : Env) : Option Verified :=
  match env.decodeError with
  | some failure => some ⟨.notSafe failure, none⟩
  | none =>
    stage env (addSubprogChecked env.insns) [] fun subprogs =>
    stage env (checkCombinedStackDepthChecked env.insns subprogs) [] fun _ =>
    stage env (loopHeadsOf env.insns subprogs) [] fun loopHeads =>
    stage env (verifyMiniCore env.insns loopHeads { VerifierLimits.default with progType := env.progType }) loopHeads
      fun (_, states) =>
    stage env (checkCombinedStackDepthWithStates env.insns subprogs states) loopHeads fun _ =>
      (runConcrete env loopHeads).map fun run => ⟨.safe, some (acceptReport states run)⟩

section Reports

variable {env : Env} {v : Verified} {states : Nat → List VerifierState} {loopHeads : List Nat}
  {run : Except ConcreteFailure ConcreteRun}

/-- A clean concrete run of an accepted program ended, reached an exit and is covered. -/
theorem acceptReport_safe : (acceptReport states run).verdict = .safe ↔ ∃ r, run = .ok r ∧ r.inconclusive = false ∧
    r.noExit = false ∧ ∀ x ∈ r.visited, ∃ abs ∈ states x.1, Explorer.stateCovers abs x.2 = true := by
  cases run with
  | error f => simp [acceptReport]
  | ok r =>
    simp only [Except.ok.injEq, exists_eq_left', ← Explorer.covered_all, acceptReport]
    cases r.inconclusive <;> cases r.noExit <;> cases checkCoverage states r <;> simp

theorem reject_reports {failure : VerificationFailure} (h : rejectWithCrossCheck env failure loopHeads = some v) :
    v.report ≠ none := by
  obtain ⟨run, -, rfl⟩ := Option.map_eq_some_iff.mp h
  exact nofun

theorem stage_reports {α : Type} {result : Exec α} {next : α → Option Verified} (h : stage env result loopHeads next = some v)
    (hnext : ∀ a, result = .ok a → next a = some v → v.report ≠ none) : v.report ≠ none := by
  unfold stage at h
  split at h
  · exact hnext _ rfl h
  · exact reject_reports h
  · cases h

/-- Only a program that does not decode is not run. -/
theorem verify_report (h : verify env = some v) : v.report = none ↔ env.decodeError ≠ none := by
  unfold verify at h
  cases hdecode : env.decodeError with
  | some failure =>
    rw [hdecode] at h
    cases h
    simp
  | none =>
    rw [hdecode] at h
    refine iff_of_false ?_ (not_not.mpr rfl)
    refine stage_reports h fun subprogs _ h => stage_reports h fun _ _ h => stage_reports h fun loopHeads _ h =>
      stage_reports h fun explored _ h => stage_reports h fun _ _ h => ?_
    obtain ⟨run, -, rfl⟩ := Option.map_eq_some_iff.mp h
    exact nofun

end Reports

/-- `verify_spec_with` on the loaded program. -/
def verifySpec (env : Env) (progType : ProgType) : Spec.SpecVerdict :=
  Spec.verifySpecWith
    ⟨env.insns, fun fd => (env.maps fd).map fun info => ⟨info.mapType, info.keySize, info.valueSize⟩, progType⟩

end Pipeline

end RandVerifier
