/-
  RandVerifier.Replay — what the campaign records of a program and what the reducer computes of
  it again (`run_program` of `src/bin/fuzz.rs`, `src/fuzz/reduce/replay.rs`).

  The campaign catches a panic, calls a program that it cannot load a surface gap, and looks for
  a gap before it classifies. The reducer verifies under a socket filter without maps, as the
  campaign does, asks for a kernel verdict and classifies without a gap. So it keeps a candidate
  that the models cannot judge.

  - `replay_agrees`: exactly when both classify alike, and what follows for the finding's own
    program and for a reduced one;
  - `hidden_gap`: a program with an unknown helper, a finding for the reducer only.
-/

import RandVerifier.Oracle

namespace RandVerifier

namespace Oracle

open Pipeline

/-! ## The campaign -/

/-- How the kernel is asked: not at all, on the host, or in a guest that answers with a side. -/
inductive KernelQuery where
  | off
  | host (outcome : KernelOutcome)
  | guest (side : SideVerdict) (reason : Option String)

/-- The kernel side and its message, `kernel_side_of`. -/
def kernelSideOf : KernelOutcome → SideVerdict × Option String
  | .accept => (.accept, none)
  | .reject _ message category => (.reject category, some message)
  | .privilege => (.skipped, some "EPERM (privilege)")
  | .noErrorLine errno => (.skipped, some s!"errno {errno} (no log line)")
  | .invalidProgram => (.skipped, some "invalid program")

def askKernel : KernelQuery → SideVerdict × Option String
  | .off => (.skipped, none)
  | .host outcome => kernelSideOf outcome
  | .guest side reason => (side, reason)

/-- What the campaign knows about a processed program. -/
structure Outcome where
  name : String
  mini : SideVerdict
  miniReason : Option String
  kernel : SideVerdict
  kernelMessage : Option String
  finding : Finding
  surfaceGap : Option SurfaceGapKind

/-- `run_program` from the encoded program on, in an environment with maps and a type. -/
def runProgramIn (start : Env) (strict : Bool) (name : String) (bytes : List UInt8) (query : KernelQuery) : Outcome :=
  match start.setupProgBytes bytes with
  | .error message =>
    ⟨name, .skipped, some message, .skipped, none, .surfaceGap, some ((surfaceGapKind message).getD .other)⟩
  | .ok env =>
    let (kernel, kernelMessage) := askKernel query
    match verify env with
    | none => ⟨name, .skipped, some "mini panicked", kernel, kernelMessage, .rvPanic, none⟩
    | some verified =>
      let (mini, miniReason) := miniSide verified.verdict
      let (finding, surfaceGap) :=
        classifyEnvWithGap env verified.report name mini miniReason kernel kernelMessage strict
      ⟨name, mini, miniReason, kernel, kernelMessage, finding, surfaceGap⟩

/-- The campaign's own environment has no maps and is that of a socket filter. -/
def runProgram (strict : Bool) (name : String) (bytes : List UInt8) (query : KernelQuery) : Outcome :=
  runProgramIn .new strict name bytes query

/-! ## The reducer -/

inductive ReduceError where
  | kernelRequired (message : String)
  | replayMismatch (expected actual : String)
  | invalidFinding (message : String)
  | pipeline (message : String)
  deriving DecidableEq, Repr

structure Sides where
  mini : SideVerdict
  miniReason : Option String
  concrete : ConcreteSide
  kernel : SideVerdict
  kernelReason : Option String
  spec : SpecSide

/-- Why the host gave no verdict. -/
def kernelSkipReason : KernelOutcome → String
  | .privilege => "EPERM — need root / CAP_BPF (sudo or CI runner)"
  | .noErrorLine _ => "errno without a log line"
  | _ => "invalid program"

/-- The kernel side of a replay: a host that gives no verdict is an error. -/
def replayKernel : KernelQuery → Except ReduceError (SideVerdict × Option String)
  | .off => .ok (.skipped, none)
  | .guest side reason => .ok (side, reason)
  | .host outcome =>
    let reason := match outcome with
      | .reject _ message _ => some message
      | _ => none
    match kernelSide outcome with
    | .skipped =>
      .error (.kernelRequired s!"kernel load produced no verdict ({kernelSkipReason outcome})")
    | side => .ok (side, reason)

/-- `evaluate_bytes`; `none` is a panic. -/
def evaluateBytes (bytes : List UInt8) (query : KernelQuery) : Option (Except ReduceError Sides) :=
  match Env.new.setupProgBytes bytes with
  | .error message => some (.error (.pipeline message))
  | .ok env =>
    (verify env).map fun verified => do
      let (mini, miniReason) := miniSide verified.verdict
      let (kernel, kernelReason) ← replayKernel query
      .ok ⟨mini, miniReason, concreteSide verified.report, kernel, kernelReason, specSide (verifySpec env .socketFilter)⟩

/-- The class of re-derived sides: they carry no gap. -/
def Sides.classify (sides : Sides) (name : String) (strict : Bool) : Finding :=
  Oracle.classify ⟨name, sides.mini, sides.miniReason, sides.concrete, sides.kernel, sides.spec, sides.kernelReason, strict,
    none⟩

/-- What a candidate must preserve. -/
inductive Invariant where
  | classification (finding : Finding) (kernelCategory : Option ReasonCategory)
  | verdictFlip (after : String)
  deriving DecidableEq, Repr

/-- Whether sides still exhibit the finding. -/
def Invariant.preserves (inv : Invariant) (name : String) (sides : Sides) (strict : Bool) : Bool :=
  match inv with
  | .verdictFlip after => sides.mini.name == after
  | .classification finding kernelCategory =>
    sides.classify name strict == finding &&
      match kernelCategory with
      | some expected => sides.kernel == .reject expected
      | none => true

/-- The recorded classification of a finding. -/
structure FindingSpec where
  name : String
  label : String
  finding : Option Finding
  mini : SideVerdict
  kernel : SideVerdict
  spec : SpecSide
  specRecorded : Bool
  deriving DecidableEq, Repr

/-- Whether the class of a label depends on the kernel. -/
def isKernelDependent (label : String) : Bool :=
  ["precision-candidate", "soundness-candidate", "rv-precision-gap", "kernel-unsound-candidate",
    "kernel-overstrict-candidate", "whitelisted"].contains label

/-- The classes that a label can name. -/
def parsedFindings : List Finding :=
  [.precisionCandidate, .kernelUnsoundCandidate, .kernelOverstrictCandidate, .soundnessCandidate, .rvPrecisionGap,
    .rvSoundnessBug, .agree, .whitelisted, .inconclusive, .skipped]

def parseFinding (label : String) : Option Finding := parsedFindings.find? (·.name == label)

/-- The invariant of a loaded finding. -/
def invariantFor (spec : FindingSpec) : Except ReduceError Invariant :=
  if spec.label = "verdict-flip" then
    if spec.mini = .skipped then .error (.invalidFinding "verdict-flip without a mini verdict")
    else .ok (.verdictFlip spec.mini.name)
  else
    match parseFinding spec.label with
    | none => .error (.invalidFinding s!"unknown finding label {repr spec.label}")
    | some finding =>
      .ok (.classification finding
        (match spec.kernel with
          | .reject category => some category
          | _ => none))

/-- What is recorded of a stored outcome, with the side of the spec. -/
def recorded (outcome : Outcome) (spec : SpecSide) : FindingSpec :=
  let label := outcome.finding.name
  ⟨outcome.name, label, if isKernelDependent label || label == "rv-soundness-bug" then parseFinding label else none,
    outcome.mini, outcome.kernel, spec, true⟩

/-- The class that a replay of the bytes computes. -/
def replayClass (strict : Bool) (name : String) (bytes : List UInt8) (query : KernelQuery) : Option Finding :=
  match evaluateBytes bytes query with
  | some (.ok sides) => some (sides.classify name strict)
  | _ => none

/-! ## When both agree -/

/-- What a class is computed from, besides the kernel. -/
def judgement (env : Env) (verified : Verified) (progType : ProgType) :
    (SideVerdict × Option String) × ConcreteSide × SpecSide :=
  (miniSide verified.verdict, concreteSide verified.report, specSide (verifySpec env progType))

/-- A host that was asked gave a verdict. -/
def Answered (query : KernelQuery) : Prop := ∀ outcome, query = .host outcome → kernelSide outcome ≠ .skipped

/-- The program loads and is verified without a panic, no gap is found, and it is judged as
    under the environment of the reducer. -/
def Comparable (start : Env) (bytes : List UInt8) : Prop :=
  ∃ env verified own ownVerified,
    start.setupProgBytes bytes = .ok env ∧ verify env = some verified ∧
    Env.new.setupProgBytes bytes = .ok own ∧ verify own = some ownVerified ∧
    judgement env verified env.progType = judgement own ownVerified .socketFilter ∧
    detectGap verified.report (miniSide verified.verdict).2 (verifySpec env env.progType) = none

section Agree

variable {start env : Env} {strict : Bool} {name : String} {bytes : List UInt8} {query : KernelQuery} {sides : Sides}
  {verified : Verified}

theorem replayKernel_ok {answer : SideVerdict × Option String} :
    replayKernel query = .ok answer ↔ Answered query ∧ answer = askKernel query := by
  cases query with
  | off => simp [replayKernel, askKernel, Answered, eq_comm]
  | guest side reason => simp [replayKernel, askKernel, Answered, eq_comm]
  | host outcome =>
    cases outcome with
    | accept | reject =>
      simp [replayKernel, askKernel, Answered, kernelSide, kernelSideOf, eq_comm]
    | privilege | noErrorLine | invalidProgram =>
      simp [replayKernel, Answered, kernelSide]

/-- The sides of a replay. -/
theorem evaluate_ok : evaluateBytes bytes query = some (.ok sides) ↔
    ∃ env verified, Env.new.setupProgBytes bytes = .ok env ∧ verify env = some verified ∧ Answered query ∧
      sides = ⟨(miniSide verified.verdict).1, (miniSide verified.verdict).2, concreteSide verified.report,
        (askKernel query).1, (askKernel query).2, specSide (verifySpec env .socketFilter)⟩ := by
  unfold evaluateBytes
  cases hsetup : Env.new.setupProgBytes bytes with
  | error message => simp
  | ok env =>
    cases hverify : verify env with
    | none => simp [hverify]
    | some verified =>
      simp only [hverify, Option.map_some, Option.some.injEq]
      rw [bind_eq_ok]
      constructor
      · rintro ⟨answer, hanswer, h⟩
        obtain ⟨hanswered, rfl⟩ := replayKernel_ok.mp hanswer
        cases h
        exact ⟨env, verified, rfl, hverify, hanswered, rfl⟩
      · rintro ⟨env', verified', henv, hverify', hanswered, rfl⟩
        cases henv
        rw [hverify] at hverify'
        cases hverify'
        exact ⟨askKernel query, replayKernel_ok.mpr ⟨hanswered, rfl⟩, rfl⟩

theorem runProgramIn_verified (hsetup : start.setupProgBytes bytes = .ok env) (hverify : verify env = some verified) :
    runProgramIn start strict name bytes query =
      ⟨name, (miniSide verified.verdict).1, (miniSide verified.verdict).2, (askKernel query).1, (askKernel query).2,
        (classifyEnvWithGap env verified.report name (miniSide verified.verdict).1 (miniSide verified.verdict).2
          (askKernel query).1 (askKernel query).2 strict).1,
        (classifyEnvWithGap env verified.report name (miniSide verified.verdict).1 (miniSide verified.verdict).2
          (askKernel query).1 (askKernel query).2 strict).2⟩ := by
  unfold runProgramIn
  rw [hsetup]
  dsimp only
  rw [hverify]

theorem setup_type (h : start.setupProgBytes bytes = .ok env) : env.progType = start.progType := by
  unfold Env.setupProgBytes at h
  split_ifs at h
  split at h
  · cases h
    rfl
  · cases h
    rfl

/-- Without a gap, the campaign classifies as the reducer does. -/
theorem comparable_agrees (h : Comparable start bytes) (heval : evaluateBytes bytes query = some (.ok sides)) :
    (runProgramIn start strict name bytes query).finding = sides.classify name strict := by
  obtain ⟨env, verified, own, ownVerified, hsetup, hverify, hown, hownVerify, hjudged, hgap⟩ := h
  obtain ⟨own', ownVerified', hown', hownVerify', -, rfl⟩ := evaluate_ok.mp heval
  rw [hown] at hown'
  cases hown'
  rw [hownVerify] at hownVerify'
  cases hownVerify'
  simp only [judgement, Prod.mk.injEq] at hjudged
  obtain ⟨hmini, hconcrete, hspec⟩ := hjudged
  rw [hmini] at hgap
  rw [runProgramIn_verified hsetup hverify]
  simp only [classifyEnvWithGap, Sides.classify, hmini, hconcrete, hspec, hgap]

theorem replayClass_some {finding : Finding} : replayClass strict name bytes query = some finding ↔
    ∃ sides, evaluateBytes bytes query = some (.ok sides) ∧ sides.classify name strict = finding := by
  unfold replayClass
  split
  · rename_i sides heval
    simp [heval]
  · rename_i hno
    constructor
    · nofun
    · rintro ⟨sides, heval, -⟩
      exact (hno sides heval).elim

/-- In the campaign's environment only comparable programs are classified alike. -/
theorem agrees_comparable
    (h : replayClass strict name bytes query = some (runProgramIn .new strict name bytes query).finding) :
    Comparable .new bytes ∧ Answered query := by
  obtain ⟨sides, heval, hclass⟩ := replayClass_some.mp h
  obtain ⟨env, verified, hsetup, hverify, hanswered, rfl⟩ := evaluate_ok.mp heval
  have htype : env.progType = .socketFilter := setup_type hsetup
  refine ⟨⟨env, verified, env, verified, hsetup, hverify, hsetup, hverify, by rw [htype], ?_⟩, hanswered⟩
  rw [runProgramIn_verified hsetup hverify] at hclass
  by_contra hgap
  have hgap' := @classify_gap ⟨name, (miniSide verified.verdict).1, (miniSide verified.verdict).2,
    concreteSide verified.report, (askKernel query).1, specSide (verifySpec env env.progType), (askKernel query).2, strict,
    detectGap verified.report (miniSide verified.verdict).2 (verifySpec env env.progType)⟩
    (Option.isSome_iff_ne_none.mpr hgap)
  rw [classifyEnvWithGap, hgap'] at hclass
  exact classify_ne_gap rfl hclass

/-- The label of a stored class other than a panic is read back. -/
theorem parse_stored {finding : Finding} (h : finding.isFinding = true) (hpanic : finding ≠ .rvPanic) :
    finding.name ≠ "verdict-flip" ∧ parseFinding finding.name = some finding := by
  cases finding with
  | rvPanic => exact absurd rfl hpanic
  | agree | whitelisted | surfaceGap | inconclusive | skipped => cases h
  | _ => exact ⟨by decide, by decide⟩

/-- The finding's own program preserves the invariant that its record gives. -/
theorem own_preserved (h : Comparable start bytes) (heval : evaluateBytes bytes query = some (.ok sides))
    (hstored : (runProgramIn start strict name bytes query).finding.isFinding = true) :
    ∃ inv, invariantFor (recorded (runProgramIn start strict name bytes query) sides.spec) = .ok inv ∧
      inv.preserves name sides strict = true := by
  have hclass := @comparable_agrees _ strict name _ _ _ h heval
  obtain ⟨env, verified, _, _, hsetup, hverify, _⟩ := h
  obtain ⟨_, _, _, _, _, hsides⟩ := evaluate_ok.mp heval
  have hkernel : (runProgramIn start strict name bytes query).kernel = sides.kernel := by
    rw [runProgramIn_verified hsetup hverify, hsides]
  generalize runProgramIn start strict name bytes query = outcome at hstored hclass hkernel
  have hpanic : outcome.finding ≠ .rvPanic := by
    rw [hclass] at hstored ⊢
    exact (classify_stored hstored).2.1
  obtain ⟨hflip, hparse⟩ := parse_stored hstored hpanic
  have hinv : invariantFor (recorded outcome sides.spec) = .ok (.classification outcome.finding
      (match outcome.kernel with
        | .reject category => some category
        | _ => none)) := by
    simp only [invariantFor, recorded, if_neg hflip, hparse]
  refine ⟨_, hinv, ?_⟩
  simp only [Invariant.preserves, ← hclass, beq_self_eq_true, Bool.true_and, hkernel]
  split
  · rename_i category hcategory
    split at hcategory
    · rename_i hreject
      cases hcategory
      rw [hreject, beq_self_eq_true]
    · cases hcategory
  · rfl

end Agree

/-- The replay classifies as the campaign exactly if the program loads, is verified without a
    panic and shows no gap, and a host that was asked gave a verdict. Then a stored finding's own
    program preserves its invariant, and a program that preserves a class has it in the
    campaign. Under other maps and types this holds where they do not change the judgement. -/
theorem replay_agrees (start : Env) (strict : Bool) (name : String) (bytes : List UInt8) (query : KernelQuery) :
    (replayClass strict name bytes query = some (runProgram strict name bytes query).finding ↔
      Answered query ∧ Comparable .new bytes) ∧
    (Answered query ∧ Comparable start bytes →
      replayClass strict name bytes query = some (runProgramIn start strict name bytes query).finding ∧
      ∀ sides, evaluateBytes bytes query = some (.ok sides) →
        ((runProgramIn start strict name bytes query).finding.isFinding = true →
          ∃ inv, invariantFor (recorded (runProgramIn start strict name bytes query) sides.spec) = .ok inv ∧
            inv.preserves name sides strict = true) ∧
        ∀ finding category, (Invariant.classification finding category).preserves name sides strict = true →
          (runProgramIn start strict name bytes query).finding = finding) := by
  have hagree : ∀ start, Answered query ∧ Comparable start bytes →
      replayClass strict name bytes query = some (runProgramIn start strict name bytes query).finding := by
    intro start h
    obtain ⟨hanswered, hcomparable⟩ := h
    have hboth := hcomparable
    obtain ⟨_, _, own, ownVerified, _, _, hown, hownVerify, _⟩ := hboth
    have heval := evaluate_ok.mpr ⟨own, ownVerified, hown, hownVerify, hanswered, rfl⟩
    exact replayClass_some.mpr ⟨_, heval, (comparable_agrees hcomparable heval).symm⟩
  refine ⟨⟨fun h => (agrees_comparable h).symm, hagree .new⟩, fun h => ⟨hagree start h, fun sides heval => ⟨?_, ?_⟩⟩⟩
  · exact own_preserved h.2 heval
  · intro finding category hpreserves
    rw [comparable_agrees h.2 heval]
    simp only [Invariant.preserves, Bool.and_eq_true, beq_iff_eq] at hpreserves
    exact hpreserves.1

/-- `r0 = prandom(); if r0 == 12345 goto +1; exit; call 42; exit`, which the kernel accepts: the
    verifier has no helper 42. The campaign counts a gap, the replay finds a precision gap. -/
theorem hidden_gap : ∃ bytes,
    (runProgram false "seed-1-0" bytes (.host .accept)).finding = .surfaceGap ∧
      replayClass false "seed-1-0" bytes (.host .accept) = some .rvPrecisionGap :=
  ⟨[0x85, 0, 0, 0, 7, 0, 0, 0, 0x15, 0, 1, 0, 0x39, 0x30, 0, 0, 0x95, 0, 0, 0, 0, 0, 0, 0,
    0x85, 0, 0, 0, 42, 0, 0, 0, 0x95, 0, 0, 0, 0, 0, 0, 0], by decide +kernel, by decide +kernel⟩

end Oracle

end RandVerifier
