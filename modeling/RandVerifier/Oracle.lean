/-
  RandVerifier.Oracle — the classification of one program (`src/fuzz/oracle.rs`, the whitelist
  of `src/diff.rs`).

  Four verdicts are put together: that of the verifier, of the concrete run, of the kernel and
  of the independent spec. What the models cannot judge (a surface gap, found in the texts of
  the failures) is never a finding; a pair of verdicts that the whitelist knows is none either.

  - `whitelisted_accepts`: the whitelist is about programs that the kernel accepts;
  - `classify_gap`, `classify_ne_gap`: a gap decides the class, and only a gap gives that class;
  - `classify_stored`: a stored class has no gap behind it and two sides that disagree.
-/

import RandVerifier.Verify

namespace RandVerifier

namespace Oracle

open Pipeline

/-! ## Sides -/

inductive ReasonCategory where
  | uninitRead
  | stackBounds
  | stackAlign
  | pointerArith
  | helperArgs
  | cfgJump
  | loop
  | unreachable
  | exitR0
  | complexity
  | ref
  | other
  deriving DecidableEq, Repr

inductive SideVerdict where
  | accept
  | reject (category : ReasonCategory)
  | skipped
  deriving DecidableEq, Repr

def SideVerdict.name : SideVerdict → String
  | accept => "ACCEPT"
  | reject _ => "REJECT"
  | skipped => "SKIPPED"

def SideVerdict.rejects : SideVerdict → Bool
  | reject _ => true
  | _ => false

/-- `str::contains`. -/
def textContains (text needle : String) : Bool := decide (needle.toList <:+: text.toList)

/-- An optional text that contains one of the needles. -/
def mentions (text : Option String) (needles : List String) : Bool := text.any fun t => needles.any (textContains t ·)

/-- The texts by which `categorize_mini_reason` tells the categories, in its order. -/
def miniReasons : List (List String × ReasonCategory) :=
  [(["unreachable instruction"], .unreachable),
    (["crosses subprogram boundary", "falls through out of subprogram", "does not end with exit",
      "pc out of program range"], .cfgJump),
    (["uninitialized"], .uninitRead),
    (["aligned"], .stackAlign),
    (["arithmetic", "invalid comparison", "comparing pointers", "non-stack pointer", "through a scalar", "map value",
      "math between", "out of bounds", "pointer offset"], .pointerArith),
    (["indirect read"], .uninitRead),
    (["invalid size of register fill", "corrupt spilled pointer"], .uninitRead),
    (["stack access", "stack pointer"], .stackBounds),
    (["not a scalar"], .exitR0),
    (["helper", "expected"], .helperArgs),
    (["back-edge", "complexity limit"], .complexity),
    (["kfunc"], .ref),
    (["dynptr"], .ref),
    (["reference", "Unreleased"], .ref),
    (["infinite loop"], .loop)]

def categorizeMiniReason (failure : VerificationFailure) : ReasonCategory :=
  ((miniReasons.find? fun reason => mentions (some failure.message) reason.1).map (·.2)).getD .other

/-- The verifier's side and the text of its rejection. -/
def miniSide : Verdict → SideVerdict × Option String
  | .safe => (.accept, none)
  | .notSafe failure => (.reject (categorizeMiniReason failure), some failure.message)

inductive KernelOutcome where
  | accept
  | reject (insnIdx : Nat) (message : String) (category : ReasonCategory)
  | privilege
  | noErrorLine (errno : Int)
  | invalidProgram
  deriving DecidableEq, Repr

def kernelSide : KernelOutcome → SideVerdict
  | .accept => .accept
  | .reject _ _ category => .reject category
  | .privilege | .noErrorLine _ | .invalidProgram => .skipped

inductive ConcreteSide where
  | safe
  | notSafe
  | inconclusive
  deriving DecidableEq, Repr

/-- A program without a report was not run. -/
def concreteSide : Option ConcreteReport → ConcreteSide
  | none => .inconclusive
  | some report =>
    match report.verdict with
    | .safe => .safe
    | .notSafe => .notSafe
    | .inconclusive => .inconclusive

inductive SpecSide where
  | accept
  | reject
  | inconclusive
  deriving DecidableEq, Repr

def specSide : Spec.SpecVerdict → SpecSide
  | .accept => .accept
  | .reject .. => .reject
  | .inconclusive => .inconclusive

/-! ## The whitelist -/

/-- The sides that a fingerprint inspects. -/
structure FingerprintInput where
  name : String
  mini : SideVerdict
  kernel : SideVerdict
  miniReason : Option String

/-- Reads of uninitialized stack, and indirect ones over spilled pointers. -/
def privilegedStackLeniency (mini : SideVerdict) (miniReason : Option String) : Bool :=
  mini == .reject .uninitRead && mentions miniReason ["stack slot", "indirect read", "uninitialized stack"]

def fpMiniComplexityBudget (input : FingerprintInput) : Bool :=
  input.kernel == .accept && input.mini.rejects && input.mini == .reject .complexity

def fpPrivilegedUninitStack (input : FingerprintInput) : Bool :=
  input.kernel == .accept && privilegedStackLeniency input.mini input.miniReason

def fpPrivilegedR0PointerExit (input : FingerprintInput) : Bool :=
  input.kernel == .accept && input.mini == .reject .exitR0 && mentions input.miniReason ["at exit"]

def fpCorpusUninitStackFixture (input : FingerprintInput) : Bool :=
  input.kernel == .accept && (input.name == "stack_write_before_read" || input.name == "narrow_read_uninit")

/-- The known design differences by their ids. -/
def fingerprints : List (String × (FingerprintInput → Bool)) :=
  [("mini-complexity-budget", fpMiniComplexityBudget),
    ("privileged-uninit-stack", fpPrivilegedUninitStack),
    ("privileged-r0-pointer-exit", fpPrivilegedR0PointerExit),
    ("corpus-uninit-stack-fixture", fpCorpusUninitStackFixture)]

/-- The fingerprint that suppresses a pair. -/
def suppressedFingerprint (input : FingerprintInput) : Option String :=
  (fingerprints.find? fun fingerprint => fingerprint.2 input).map (·.1)

def whitelisted (name : String) (mini kernel : SideVerdict) (miniReason : Option String) : Bool :=
  (suppressedFingerprint ⟨name, mini, kernel, miniReason⟩).isSome

/-! ## Surface gaps -/

inductive SurfaceGapKind where
  | decodeUnsupported
  | unknownMapFd
  | unknownHelper
  | unknownKfunc
  | unmodeledCtx
  | unmodeledProgType
  | other
  deriving DecidableEq, Repr

/-- The texts that tell a gap, in the order they are looked for. -/
def gapTexts : List (List String × SurfaceGapKind) :=
  [(["unsupported instruction"], .decodeUnsupported),
    (["unknown map fd"], .unknownMapFd),
    (["unknown kfunc", "not a vmlinux function"], .unknownKfunc),
    (["unknown helper"], .unknownHelper),
    (["invalid bpf_context access", "ctx load"], .unmodeledCtx),
    (["not supported"], .other)]

def surfaceGapKind (message : String) : Option SurfaceGapKind :=
  (gapTexts.find? fun gap => mentions (some message) gap.1).map (·.2)

/-- A concrete failure that the interpreter has no model for. -/
def failureGap : Explorer.ConcreteFailure → Option SurfaceGapKind
  | .unknownHelper .. => some .unknownHelper
  | .unsupportedHelperReturn .. | .nonStackBase .. | .helperArgMismatch .. => some .other
  | _ => none

/-- A rejection by the spec whose text names a gap. -/
def specGap : Spec.SpecVerdict → Option SurfaceGapKind
  | .reject _ message => surfaceGapKind message
  | _ => none

/-- The first gap: of an unexpected concrete failure, of the note on a rejected program, of the
    verifier's text, of the spec's. -/
def detectGap (report : Option ConcreteReport) (miniReason : Option String) (spec : Spec.SpecVerdict) : Option SurfaceGapKind :=
  ((report.bind (·.unexpectedFailure)).bind failureGap).or
    (((report.bind (·.rejectNote)).bind surfaceGapKind).or
      ((miniReason.bind surfaceGapKind).or (specGap spec)))

/-! ## Classes -/

inductive Finding where
  | precisionCandidate
  | kernelUnsoundCandidate
  | kernelOverstrictCandidate
  | soundnessCandidate
  | rvPrecisionGap
  | rvSoundnessBug
  | rvPanic
  | agree
  | whitelisted
  | surfaceGap
  | inconclusive
  | skipped
  deriving DecidableEq, Repr

def Finding.name : Finding → String
  | precisionCandidate => "precision-candidate"
  | kernelUnsoundCandidate => "kernel-unsound-candidate"
  | kernelOverstrictCandidate => "kernel-overstrict-candidate"
  | soundnessCandidate => "soundness-candidate"
  | rvPrecisionGap => "rv-precision-gap"
  | rvSoundnessBug => "rv-soundness-bug"
  | rvPanic => "rv-panic"
  | agree => "agree"
  | whitelisted => "whitelisted"
  | surfaceGap => "surface-gap"
  | inconclusive => "inconclusive"
  | skipped => "skipped"

/-- Whether the class is stored. -/
def Finding.isFinding : Finding → Bool
  | precisionCandidate | kernelUnsoundCandidate | kernelOverstrictCandidate | soundnessCandidate | rvPrecisionGap
  | rvSoundnessBug | rvPanic => true
  | _ => false

structure OracleInput where
  name : String
  mini : SideVerdict
  miniReason : Option String
  concrete : ConcreteSide
  kernel : SideVerdict
  spec : SpecSide
  kernelReason : Option String
  strict : Bool
  surfaceGap : Option SurfaceGapKind

/-- The verifier rejects, by design, what a privileged kernel accepts. -/
def OracleInput.byDesign (input : OracleInput) : Bool :=
  whitelisted input.name input.mini input.kernel input.miniReason || privilegedStackLeniency input.mini input.miniReason

/-- The kernel rejects a program that the concrete run found safe. -/
def classifyReject (input : OracleInput) (category : ReasonCategory) : Finding :=
  if input.mini.rejects then .whitelisted
  else if input.strict && mentions input.kernelReason ["for !root"] then .whitelisted
  else if input.mini = .reject category then .whitelisted
  else if category = .loop ∧ mentions input.miniReason ["loop", "back edge"] then .whitelisted
  else if input.strict ∧ category = .uninitRead ∧ input.mini = .accept ∧
    mentions input.kernelReason ["invalid read from stack"] then .whitelisted
  else if input.spec = .accept then .kernelOverstrictCandidate
  else .precisionCandidate

/-- The class of one program. -/
def classify (input : OracleInput) : Finding :=
  if input.surfaceGap.isSome then .surfaceGap
  else if input.spec = .reject ∧ input.concrete = .safe ∧ input.kernel = .accept then
    if input.byDesign then .whitelisted else .kernelUnsoundCandidate
  else match input.concrete with
    | .inconclusive => .inconclusive
    | .notSafe =>
      match input.mini with
      | .accept => .rvSoundnessBug
      | .reject _ =>
        match input.kernel with
        | .accept => if input.byDesign then .whitelisted else .soundnessCandidate
        | _ => .agree
      | .skipped => .agree
    | .safe =>
      match input.kernel with
      | .skipped => .skipped
      | .accept =>
        match input.mini with
        | .reject _ =>
          if whitelisted input.name input.mini input.kernel input.miniReason then .whitelisted else .rvPrecisionGap
        | _ => .agree
      | .reject category => classifyReject input category

section Classes

variable {input : OracleInput} {category : ReasonCategory}

/-- Every fingerprint is about a program that the kernel accepts. -/
theorem whitelisted_accepts {name : String} {mini kernel : SideVerdict} {miniReason : Option String}
    (h : whitelisted name mini kernel miniReason = true) : kernel = .accept := by
  obtain ⟨id, hid⟩ := Option.isSome_iff_exists.mp h
  obtain ⟨fingerprint, hfind, -⟩ := Option.map_eq_some_iff.mp hid
  have hcheck := List.find?_some hfind
  have hmem := List.mem_of_find?_eq_some hfind
  simp only [fingerprints, List.mem_cons, List.not_mem_nil, or_false] at hmem
  rcases hmem with rfl | rfl | rfl | rfl
  all_goals
    simp only [fpMiniComplexityBudget, fpPrivilegedUninitStack, fpPrivilegedR0PointerExit, fpCorpusUninitStackFixture,
      Bool.and_eq_true, beq_iff_eq] at hcheck
    tauto

theorem classify_gap (h : input.surfaceGap.isSome = true) : classify input = .surfaceGap := if_pos h

theorem classifyReject_cases : classifyReject input category = .whitelisted ∨
    (input.mini.rejects = false ∧
      (classifyReject input category = .kernelOverstrictCandidate ∨ classifyReject input category = .precisionCandidate)) := by
  unfold classifyReject
  split
  · exact .inl rfl
  · rename_i hmini
    rw [Bool.not_eq_true] at hmini
    split_ifs
    · exact .inl rfl
    · exact .inl rfl
    · exact .inl rfl
    · exact .inl rfl
    · exact .inr ⟨hmini, .inl rfl⟩
    · exact .inr ⟨hmini, .inr rfl⟩

/-- Two sides that disagree. -/
def Disagree (input : OracleInput) : Prop :=
  (input.mini = .accept ∧ input.concrete = .notSafe) ∨
    (input.kernel = .accept ∧ (input.mini.rejects = true ∨ input.spec = .reject)) ∨
    ((∃ category, input.kernel = .reject category) ∧ input.mini.rejects = false ∧ input.concrete = .safe)

/-- A stored class has no gap behind it and two sides that disagree, and it is no panic. -/
theorem classify_stored (h : (classify input).isFinding = true) :
    input.surfaceGap = none ∧ classify input ≠ .rvPanic ∧ Disagree input := by
  unfold classify at h ⊢
  by_cases hgap : input.surfaceGap.isSome = true
  · rw [if_pos hgap] at h
    cases h
  rw [if_neg hgap] at h ⊢
  refine ⟨by simpa using hgap, ?_⟩
  by_cases hspec : input.spec = .reject ∧ input.concrete = .safe ∧ input.kernel = .accept
  · rw [if_pos hspec]
    refine ⟨?_, .inr (.inl ⟨hspec.2.2, .inr hspec.1⟩)⟩
    split
    · exact nofun
    · exact nofun
  rw [if_neg hspec] at h ⊢
  cases hconcrete : input.concrete with
  | inconclusive =>
    rw [hconcrete] at h
    cases h
  | notSafe =>
    simp only [hconcrete] at h ⊢
    cases hmini : input.mini with
    | accept =>
      dsimp only
      exact ⟨nofun, .inl ⟨hmini, hconcrete⟩⟩
    | skipped =>
      simp only [hmini] at h
      cases h
    | reject category =>
      simp only [hmini] at h ⊢
      cases hkernel : input.kernel with
      | accept =>
        simp only [hkernel] at h ⊢
        refine ⟨?_, .inr (.inl ⟨hkernel, .inl (by rw [hmini]; rfl)⟩)⟩
        split
        · exact nofun
        · exact nofun
      | reject | skipped =>
        simp only [hkernel] at h
        cases h
  | safe =>
    simp only [hconcrete] at h ⊢
    cases hkernel : input.kernel with
    | skipped =>
      simp only [hkernel] at h
      cases h
    | accept =>
      simp only [hkernel] at h ⊢
      cases hmini : input.mini with
      | accept | skipped =>
        simp only [hmini] at h
        cases h
      | reject category =>
        dsimp only
        refine ⟨?_, .inr (.inl ⟨hkernel, .inl (by rw [hmini]; rfl)⟩)⟩
        split
        · exact nofun
        · exact nofun
    | reject category =>
      simp only [hkernel] at h ⊢
      obtain hwhite | ⟨hmini, hclass⟩ := @classifyReject_cases input category
      · rw [hwhite] at h
        cases h
      · refine ⟨?_, .inr (.inr ⟨⟨category, hkernel⟩, hmini, hconcrete⟩)⟩
        rcases hclass with hclass | hclass
        · rw [hclass]
          exact nofun
        · rw [hclass]
          exact nofun

theorem classify_ne_gap (h : input.surfaceGap = none) : classify input ≠ .surfaceGap := by
  unfold classify
  rw [h, if_neg (by decide)]
  split
  · split
    · exact nofun
    · exact nofun
  · cases input.concrete with
    | inconclusive => exact nofun
    | notSafe =>
      cases input.mini with
      | accept | skipped => exact nofun
      | reject category =>
        cases input.kernel with
        | accept =>
          dsimp only
          split
          · exact nofun
          · exact nofun
        | reject | skipped => exact nofun
    | safe =>
      cases input.kernel with
      | skipped => exact nofun
      | accept =>
        cases input.mini with
        | accept | skipped => exact nofun
        | reject category =>
          dsimp only
          split
          · exact nofun
          · exact nofun
      | reject category =>
        dsimp only
        obtain hclass | ⟨-, hclass | hclass⟩ := @classifyReject_cases input category
        all_goals
          rw [hclass]
          exact nofun

end Classes

/-- Classify a verified program from its environment, with the gap that was found. -/
def classifyEnvWithGap (env : Env) (report : Option ConcreteReport) (name : String) (mini : SideVerdict)
    (miniReason : Option String) (kernel : SideVerdict) (kernelReason : Option String) (strict : Bool) :
    Finding × Option SurfaceGapKind :=
  let spec := verifySpec env env.progType
  let surfaceGap := detectGap report miniReason spec
  (classify ⟨name, mini, miniReason, concreteSide report, kernel, specSide spec, kernelReason, strict, surfaceGap⟩,
    surfaceGap)

end Oracle

end RandVerifier
