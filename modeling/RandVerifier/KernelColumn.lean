/-
  RandVerifier.KernelColumn — the kernel's side of a program, as the host loads it and as the
  guest reports it (`src/klog.rs`, the load of `src/krun.rs`, `src/bin/agent.rs`,
  `parse_agent_verdict` of `src/fuzz/qemu.rs`, `kernel_side_of` of `src/bin/fuzz.rs`).

  A refused load is told by the text of the verifier's log: the lines behind the last trace of an
  instruction are the message. The guest's agent prints one line for an outcome, the host reads
  it back. What the kernel answers, to the creation of a map and to a load, is an argument.

  Proved:
  - `message_form`: a message has no line feed, begins and ends with no blank and is not empty,
    and the instruction it names is a `u32`;
  - `verdict_round_trip`: what the host reads out of the agent's output, for every answer and
    every log of the kernel: the host column's side, message and instruction, or nothing.
-/

import RandVerifier.Lines
import RandVerifier.MapFds
import RandVerifier.Oracle

namespace RandVerifier

namespace Oracle

open Pipeline Texts

/-! ## The verifier's log (`src/klog.rs`) -/

/-- The texts by which `categorize_reason` tells the categories, in its order: one of the first
    texts, or all of the second ones. -/
def kernelReasons : List (List String × List String × ReasonCategory) :=
  [(["Unreleased reference", "release of unacquired reference", "dynptr", "kfunc"], [], .ref),
    (["misaligned"], [], .stackAlign),
    ([], ["stack", "off=", "invalid"], .stackBounds),
    (["!read_ok", "invalid read from stack"], [], .uninitRead),
    (["unreachable insn"], [], .unreachable),
    (["jump out of range", "jump into the middle", "indirect jump out of range", "last insn is not an exit",
      "call to invalid destination"], [], .cfgJump),
    (["back-edge", "infinite loop detected"], [], .loop),
    (["leaks addr as return", "cannot return", "not a scalar"], [], .exitR0),
    (["pointer arithmetic", "pointer comparison", "invalid mem access", "leaks addr", "leaking pointer",
      "subtraction from stack pointer", "frame pointer is read only", "unbounded min value", "math between",
      "out of bounds", "pointer offset"], [], .pointerArith),
    (["variable stack access"], [], .stackBounds),
    (["invalid func", "unknown func", "helper", "arg#", "expected", "Possibly NULL pointer"], [], .helperArgs),
    (["too complex", "BPF program is too large", "iteration limit"], [], .complexity)]

def categorizeReason (message : String) : ReasonCategory :=
  let msg := String.ofList (trim message.toList)
  let isReason := fun reason : List String × List String × ReasonCategory =>
    reason.1.any (textContains msg) || (reason.2.1 ≠ [] && reason.2.1.all (textContains msg))
  ((kernelReasons.find? isReason).map (·.2.2)).getD .other

/-- `str::starts_with`. -/
def startsWith (text : List Char) (start : String) : Bool := start.toList.isPrefixOf text

def isSummary (t : List Char) : Bool :=
  t == [] || ["processed ", "verification time ", "stack depth ", "insns processed "].any (startsWith t)

/-- The line of an instruction: a number, a colon and the opcode in parentheses. -/
def isTrace (t : List Char) : Bool :=
  let split := (splitOnce ':' (trim t)).getD ([], [])
  startsWith (split.2.dropWhile isBlank) "(" && (parseU32 split.1).isSome

/-- The lines of the message: neither a summary nor a trace nor a transition. -/
def isMessage (line : List Char) : Bool :=
  let t := trim line
  !isSummary t && !isTrace t && !startsWith t "from "

/-- The instruction that a message of the CFG stage names. -/
def namedInsn (message : List Char) : Nat :=
  let ws := words isBlank message
  match (ws.zip (ws.drop 1)).find? (·.1 == "insn".toList) with
  | some (_, next) => (parseU32 (next.rdropWhile (· == ','))).getD 0
  | none => 0

/-- The instruction of the last trace. -/
def tracedInsn (line : List Char) : Nat := ((splitOnce ':' (trim line)).bind fun split => parseU32 split.1).getD 0

def parseVerifierLog (log : String) : Option (Nat × String) :=
  let all := lines log.toList
  -- the lines behind the last trace, and that trace
  let errorLines := all.rtakeWhile fun l => !isTrace (trim l)
  let lastTrace := (all.rdropWhile fun l => !isTrace (trim l)).getLast?
  let message := [' '].intercalate ((errorLines.filter isMessage).map trim)
  if message = [] then none
  else some ((lastTrace.map tracedInsn).getD (namedInsn message), String.ofList message)

/-! ## The load (`src/krun.rs`) -/

/-- The kernel's answers: to `BPF_MAP_CREATE` for the map of a descriptor, a descriptor or an
    error number; to `BPF_PROG_LOAD` at a log level, an error number, if any, and the log. -/
structure Kernel where
  mapCreate : UInt32 → MapInfo → Except Int Int32
  progLoad : Nat → List UInt8 → Option Int × String

def EPERM : Int := 1

/-- The outcome of a refused call without a verdict. -/
def errnoOutcome (errno : Int) : KernelOutcome := if errno = EPERM then .privilege else .noErrorLine errno

/-- `load_with_level_typed`. -/
def loadWithLevel (kernel : Kernel) (logLevel : Nat) (insns : List UInt8) : KernelOutcome × String :=
  if insns = [] ∨ insns.length % 8 ≠ 0 then (.invalidProgram, "")
  else
    let (answer, log) := kernel.progLoad logLevel insns
    match answer with
    | none => (.accept, log)
    | some errno =>
      if errno = EPERM then (.privilege, log)
      else
        match parseVerifierLog log with
        | some (insnIdx, message) => (.reject insnIdx message (categorizeReason message), log)
        | none => (.noErrorLine errno, log)

/-- The maps of a program, created in order; a descriptor that is not registered has none. -/
def createMaps (kernel : Kernel) (maps : UInt32 → Option MapInfo) :
    MapFds.FdTable → List UInt32 → Except Int MapFds.FdTable
  | live, [] => .ok live
  | live, fd :: fds =>
    match maps fd with
    | none => createMaps kernel maps live fds
    | some info =>
      match kernel.mapCreate fd info with
      | .ok real => createMaps kernel maps (fun f => if f = fd then some real else live f) fds
      | .error errno => .error errno

/-- `load_with_kernel_maps_typed`. -/
def loadWithKernelMaps (kernel : Kernel) (maps : UInt32 → Option MapInfo) (logLevel : Nat) (insns : List UInt8) :
    KernelOutcome × String :=
  match createMaps kernel maps (fun _ => none) (MapFds.referencedMapFds insns) with
  | .error errno => (errnoOutcome errno, "")
  | .ok live => loadWithLevel kernel logLevel (MapFds.patchMapFds insns live)

/-! ## The agent (`src/bin/agent.rs`) -/

/-- Every referenced descriptor stands for a small array. -/
def defaultMaps (insns : List UInt8) (fd : UInt32) : Option MapInfo :=
  if fd ∈ MapFds.referencedMapFds insns then
    some { mapType := .array, keySize := 4, valueSize := 8, maxEntries := 1 }
  else none

def formatKernelVerdict : KernelOutcome → String
  | .accept => "ACCEPT"
  | .reject insnIdx message _ => "REJECT " ++ message ++ " insn_idx=" ++ toString insnIdx ++ " errno=0"
  | .privilege => "REJECT not-privileged errno=1"
  | .noErrorLine errno => "REJECT no-error-line errno=" ++ toString errno
  | .invalidProgram => "REJECT invalid-program errno=0"

/-- The load of the agent: a log that did not fit its buffer is asked for again, errors only. -/
def agentLoad (kernel : Kernel) (logLevel : Nat) (data : List UInt8) : KernelOutcome × String :=
  let first := loadWithKernelMaps kernel (defaultMaps data) logLevel data
  if first.1 = .noErrorLine 28 ∧ 1 < logLevel then loadWithKernelMaps kernel (defaultMaps data) 1 data else first

/-- `run_program_bytes`, as the texts it prints in turn: the verdict, and behind it at level 2 the
    two ends of the log. -/
def runProgramBytes (kernel : Kernel) (logLevel : Nat) (data : List UInt8) : List String :=
  let (outcome, log) := agentLoad kernel logLevel data
  (formatKernelVerdict outcome ++ "\n") ::
    if 2 ≤ logLevel then
      let all := lines log.toList
      [s!"AGENT_LOG: log len {byteLen log.toList} bytes\n",
        "--- log head ---\n", String.ofList (['\n'].intercalate (all.take 30)) ++ "\n",
        "--- log tail ---\n", String.ofList (['\n'].intercalate (all.rtake 20)) ++ "\n"]
    else []

/-- What the agent prints for one file, as the guest's script calls it: the bytes are read first,
    then the capabilities are dropped. -/
def agentMain (kernel : Kernel) (logLevel : Nat) (strict capsDropped : Bool) (path : String)
    (file : Except Int (List UInt8)) : List String :=
  match file with
  | .error errno => [s!"cannot-read detail: path={path} errno={errno}\n", "REJECT cannot-read job file errno=2\n"]
  | .ok data =>
    if strict = true ∧ capsDropped = false then ["REJECT not-privileged errno=1\n"]
    else runProgramBytes kernel logLevel data

/-! ## The host (`src/fuzz/qemu.rs`, `src/bin/fuzz.rs`) -/

/-- A column of the comparison: the side, the message and the instruction. -/
abbrev Column := SideVerdict × Option String × Option Nat

/-- The words of a rejection that is no verdict. -/
def infrastructure (reason : List Char) : Bool :=
  ["cannot-read", "invalid-program", "no-error-line", "not-privileged"].any (startsWith reason)

/-- The instruction at the end of a reason; what is no number belongs to the message. -/
def splitInsn (reason : List Char) : List Char × Option Nat :=
  match rsplitOnce " insn_idx=".toList reason with
  | some (message, index) =>
    match parseU32 index with
    | some index => (message, some index)
    | none => (reason, none)
  | none => (reason, none)

/-- What stands behind `REJECT `. -/
def readReason (reason : List Char) : Option Column :=
  if infrastructure reason then none
  else
    let reason := ((rsplitOnce " errno=".toList reason).map (·.1)).getD reason
    let (reason, insnIdx) := splitInsn reason
    let reason := String.ofList reason
    some (.reject (categorizeReason reason), some reason, insnIdx)

/-- `parse_agent_verdict`: the first line that is not blank. -/
def parseAgentVerdict (text : String) : Option Column :=
  match (lines text.toList).find? fun l => trim l ≠ [] with
  | none => none
  | some first =>
    let rest := trim first
    if rest = "ACCEPT".toList then some (.accept, none, none)
    else if rest = "AGENT-TIMEOUT".toList then none
    else ("REJECT ".toList.isPrefixOf? rest).bind readReason

/-- The host column of an outcome, `kernel_side_of` with the instruction. -/
def kernelColumnOf : KernelOutcome → Column
  | .accept => (.accept, none, none)
  | .reject insnIdx message category => (.reject category, some message, some insnIdx)
  | .privilege => (.skipped, some "EPERM (privilege)", none)
  | .noErrorLine errno => (.skipped, some s!"errno {errno} (no log line)", none)
  | .invalidProgram => (.skipped, some "invalid program", none)

/-! ## What a message looks like -/

theorem isMessage_trimmed {line : List Char} (hline : '\n' ∉ line) (h : isMessage line = true) : Trimmed (trim line) := by
  refine trimmed_trim hline ?_
  intro hempty
  simp [isMessage, isSummary, hempty] at h

theorem tracedInsn_lt (line : List Char) : tracedInsn line < 2 ^ 32 := by
  unfold tracedInsn
  cases hparse : (splitOnce ':' (trim line)).bind fun split => parseU32 split.1 with
  | none => decide
  | some n =>
    obtain ⟨split, -, hn⟩ := Option.bind_eq_some_iff.mp hparse
    exact parseU32_lt hn

theorem namedInsn_lt (message : List Char) : namedInsn message < 2 ^ 32 := by
  simp only [namedInsn]
  split
  · rename_i next _
    cases hparse : parseU32 (next.rdropWhile (· == ',')) with
    | none => decide
    | some n => exact parseU32_lt hparse
  · decide

/-- The message of a log is a trimmed text on one line, the instruction a `u32`. -/
theorem message_form {log message : String} {insnIdx : Nat} (h : parseVerifierLog log = some (insnIdx, message)) :
    Trimmed message.toList ∧ insnIdx < 2 ^ 32 := by
  simp only [parseVerifierLog] at h
  split at h
  · cases h
  · rename_i hne
    obtain ⟨rfl, rfl⟩ := Prod.mk.inj (Option.some.inj h)
    constructor
    · rw [String.toList_ofList]
      refine Trimmed.intercalate (by decide) ?_ ?_
      · intro hnil
        exact hne (by rw [hnil]; rfl)
      · intro part hpart
        obtain ⟨line, hline, rfl⟩ := List.mem_map.mp hpart
        obtain ⟨hmem, hmessage⟩ := List.mem_filter.mp hline
        exact isMessage_trimmed (mem_lines ((List.rtakeWhile_suffix _ _).subset hmem)) hmessage
    · generalize (List.rdropWhile (fun l => !isTrace (trim l)) (lines log.toList)).getLast? = lastTrace
      cases lastTrace with
      | none =>
        rw [Option.map_none, Option.getD_none]
        exact namedInsn_lt _
      | some line =>
        rw [Option.map_some, Option.getD_some]
        exact tracedInsn_lt line

/-- An outcome whose rejections are those of a log. -/
def OfLog : KernelOutcome → Prop
  | .reject insnIdx message category =>
    Trimmed message.toList ∧ insnIdx < 2 ^ 32 ∧ category = categorizeReason message
  | _ => True

theorem loadWithLevel_ofLog (kernel : Kernel) (logLevel : Nat) (insns : List UInt8) :
    OfLog (loadWithLevel kernel logLevel insns).1 := by
  unfold loadWithLevel
  split
  · trivial
  · simp only
    split
    · trivial
    · split
      · trivial
      · split
        · rename_i hlog
          obtain ⟨hform, hidx⟩ := message_form hlog
          exact ⟨hform, hidx, rfl⟩
        · trivial

theorem errnoOutcome_ofLog (errno : Int) : OfLog (errnoOutcome errno) := by
  unfold errnoOutcome
  split <;> trivial

theorem loadWithKernelMaps_ofLog (kernel : Kernel) (maps : UInt32 → Option MapInfo) (logLevel : Nat) (insns : List UInt8) :
    OfLog (loadWithKernelMaps kernel maps logLevel insns).1 := by
  unfold loadWithKernelMaps
  split
  · exact errnoOutcome_ofLog _
  · exact loadWithLevel_ofLog kernel logLevel _

theorem agentLoad_ofLog (kernel : Kernel) (logLevel : Nat) (data : List UInt8) : OfLog (agentLoad kernel logLevel data).1 := by
  simp only [agentLoad]
  split <;> exact loadWithKernelMaps_ofLog _ _ _ _

/-! ## Reading the agent's line -/

/-- The line of a rejection. -/
def rejection (reason : List Char) : List Char := "REJECT".toList ++ " ".toList ++ reason

theorem rejection_eq (reason : List Char) : rejection reason = "REJECT".toList ++ " ".toList ++ reason := rfl

theorem rejection_trimmed {reason : List Char} (h : Trimmed reason) : Trimmed (rejection reason) := by
  have hword : Trimmed "REJECT".toList := ⟨by simp, by simp, by simp [isBlank], by simp [isBlank]⟩
  exact hword.join _ h (by decide)

/-- The reason that the agent prints for a rejection of the verifier. -/
def verifierReason (message : List Char) (insnIdx : Nat) : List Char :=
  message ++ " insn_idx=".toList ++ Nat.toDigits 10 insnIdx ++ " errno=".toList ++ "0".toList

theorem verifierReason_trimmed {message : List Char} (h : Trimmed message) (insnIdx : Nat) :
    Trimmed (verifierReason message insnIdx) := by
  have hzero : Trimmed "0".toList := ⟨by simp, by simp, by simp [isBlank], by simp [isBlank]⟩
  exact (h.join _ (trimmed_toDigits insnIdx) (by decide)).join _ hzero (by decide)

theorem toList_toString (n : Nat) : (toString n).toList = Nat.toDigits 10 n := by
  rw [Nat.toString_eq_ofList_toDigits, String.toList_ofList]

theorem format_reject (insnIdx : Nat) (message : String) (category : ReasonCategory) :
    (formatKernelVerdict (.reject insnIdx message category)).toList =
      rejection (verifierReason message.toList insnIdx) := by
  have hformat : formatKernelVerdict (.reject insnIdx message category) =
      "REJECT " ++ message ++ " insn_idx=" ++ toString insnIdx ++ " errno=0" := rfl
  have hword : "REJECT ".toList = "REJECT".toList ++ " ".toList := by decide
  have herrno : " errno=0".toList = " errno=".toList ++ "0".toList := by decide
  rw [hformat, rejection_eq, verifierReason]
  simp only [String.toList_append, toList_toString, hword, herrno, List.append_assoc]

theorem trimmed_errno (errno : Int) : Trimmed (toString errno).toList := by
  cases errno with
  | ofNat n =>
    have htext : (toString (Int.ofNat n)).toList = Nat.toDigits 10 n := toList_toString n
    rw [htext]
    exact trimmed_toDigits n
  | negSucc n =>
    have htext : toString (Int.negSucc n) = "-" ++ toString (n + 1) := rfl
    have hminus : Trimmed "-".toList := ⟨by simp, by simp, by simp [isBlank], by simp [isBlank]⟩
    rw [htext, String.toList_append, toList_toString]
    have := hminus.join [] (trimmed_toDigits (n + 1)) List.not_mem_nil
    rwa [List.append_nil] at this

/-- The outcomes that are no verdicts. -/
theorem format_infrastructure {outcome : KernelOutcome} (haccept : outcome ≠ .accept)
    (hreject : ∀ i m c, outcome ≠ .reject i m c) :
    ∃ reason, (formatKernelVerdict outcome).toList = rejection reason ∧ Trimmed reason ∧ infrastructure reason = true := by
  cases outcome with
  | accept => exact absurd rfl haccept
  | reject i m c => exact absurd rfl (hreject i m c)
  | privilege =>
    have hformat : formatKernelVerdict .privilege = "REJECT not-privileged errno=1" := rfl
    refine ⟨"not-privileged errno=1".toList, ?_, ⟨by simp, by simp, by simp [isBlank], by simp [isBlank]⟩, by decide⟩
    rw [hformat]
    simp [rejection_eq]
  | noErrorLine errno =>
    have hformat : formatKernelVerdict (.noErrorLine errno) = "REJECT no-error-line errno=" ++ toString errno := rfl
    have hword : Trimmed "no-error-line".toList := ⟨by simp, by simp, by simp [isBlank], by simp [isBlank]⟩
    refine ⟨"no-error-line".toList ++ " errno=".toList ++ (toString errno).toList, ?_,
      hword.join _ (trimmed_errno errno) (by simp), by simp [infrastructure, startsWith]⟩
    rw [hformat]
    simp [rejection_eq]
  | invalidProgram =>
    have hformat : formatKernelVerdict .invalidProgram = "REJECT invalid-program errno=0" := rfl
    refine ⟨"invalid-program errno=0".toList, ?_, ⟨by simp, by simp, by simp [isBlank], by simp [isBlank]⟩, by decide⟩
    rw [hformat]
    simp [rejection_eq]

/-- A word without a blank starts a text up to a blank, or not at all. -/
theorem isPrefixOf_blank {word message rest : List Char} (hword : ' ' ∉ word) :
    word.isPrefixOf (message ++ ' ' :: rest) = word.isPrefixOf message := by
  induction message generalizing word with
  | nil =>
    cases word with
    | nil => rfl
    | cons c word =>
      have hc : c ≠ ' ' := fun h => hword (by rw [h]; exact List.mem_cons_self)
      simp [List.isPrefixOf, hc]
  | cons a message ih =>
    cases word with
    | nil => rfl
    | cons c word =>
      have hrest : ' ' ∉ word := fun h => hword (List.mem_cons_of_mem _ h)
      simp only [List.cons_append, List.isPrefixOf, ih hrest]

theorem infrastructure_blank (message rest : List Char) :
    infrastructure (message ++ ' ' :: rest) = infrastructure message := by
  have hwords : ∀ word ∈ ["cannot-read", "invalid-program", "no-error-line", "not-privileged"], ' ' ∉ word.toList := by
    simp
  simp only [List.forall_mem_cons] at hwords
  obtain ⟨hread, hinvalid, herror, hprivileged, -⟩ := hwords
  simp only [infrastructure, startsWith, List.any_cons, isPrefixOf_blank hread, isPrefixOf_blank hinvalid,
    isPrefixOf_blank herror, isPrefixOf_blank hprivileged, List.any_nil]

/-- The first line of an output decides. -/
theorem parseAgentVerdict_rejection {reason : List Char} (h : Trimmed reason) {text : String} {rest : List Char}
    (htext : text.toList = rejection reason ++ '\n' :: rest) : parseAgentVerdict text = readReason reason := by
  have htrim := rejection_trimmed h
  have hfirst : (lines text.toList).find? (fun l => trim l ≠ []) = some (rejection reason) := by
    rw [htext, htrim.lines, List.find?_cons_of_pos]
    simpa [htrim.trim_self] using htrim.nonempty
  have haccept : rejection reason ≠ "ACCEPT".toList := by simp [rejection_eq]
  have htimeout : rejection reason ≠ "AGENT-TIMEOUT".toList := by simp [rejection_eq]
  have hprefix : "REJECT ".toList.isPrefixOf? (rejection reason) = some reason := by
    rw [List.isPrefixOf?_eq_some_iff_append_eq]
    simp [rejection_eq]
  simp only [parseAgentVerdict, hfirst, htrim.trim_self]
  rw [if_neg haccept, if_neg htimeout, hprefix, Option.bind_some]

theorem readReason_verifier {message : List Char} {insnIdx : Nat} (hidx : insnIdx < 2 ^ 32) :
    readReason (verifierReason message insnIdx) =
      if infrastructure message then none
      else some (.reject (categorizeReason (String.ofList message)), some (String.ofList message), some insnIdx) := by
  have hreason : verifierReason message insnIdx =
      message ++ ' ' :: ("insn_idx=".toList ++ Nat.toDigits 10 insnIdx ++ " errno=".toList ++ "0".toList) := by
    simp [verifierReason]
  have hinfra : infrastructure (verifierReason message insnIdx) = infrastructure message := by
    rw [hreason, infrastructure_blank]
  have hblank : ' ' ∉ Nat.toDigits 10 insnIdx := fun h => absurd (isDigit_toDigits h) (by decide)
  have herrno : rsplitOnce " errno=".toList (verifierReason message insnIdx) =
      some (message ++ " insn_idx=".toList ++ Nat.toDigits 10 insnIdx, "0".toList) := by
    have hseparator : ' ' ∉ "errno=".toList := by simp
    have hback : ' ' ∉ "0".toList := by simp
    simpa [verifierReason] using
      rsplitOnce_behind (message ++ " insn_idx=".toList ++ Nat.toDigits 10 insnIdx) hseparator hback
  have hinsn : splitInsn (message ++ " insn_idx=".toList ++ Nat.toDigits 10 insnIdx) = (message, some insnIdx) := by
    have hseparator : ' ' ∉ "insn_idx=".toList := by simp
    have hsplit : rsplitOnce " insn_idx=".toList (message ++ " insn_idx=".toList ++ Nat.toDigits 10 insnIdx) =
        some (message, Nat.toDigits 10 insnIdx) := by
      simpa using rsplitOnce_behind message hseparator hblank
    simp only [splitInsn, hsplit, parseU32_toDigits hidx]
  simp only [readReason, hinfra, herrno, Option.map_some, Option.getD_some, hinsn]

/-! ## The round trip -/

/-- What the guest's column shows of an outcome: what is no verdict is not shown, nor is a
    rejection whose message begins like one that is none. -/
def guestColumn (outcome : KernelOutcome) : Option Column :=
  match outcome with
  | .accept => some (kernelColumnOf outcome)
  | .reject _ message _ => if infrastructure message.toList then none else some (kernelColumnOf outcome)
  | .privilege | .noErrorLine _ | .invalidProgram => none

theorem parse_format {outcome : KernelOutcome} (h : OfLog outcome) (rest : String) :
    parseAgentVerdict (formatKernelVerdict outcome ++ "\n" ++ rest) = guestColumn outcome := by
  have htext : ∀ line, (formatKernelVerdict outcome).toList = line →
      (formatKernelVerdict outcome ++ "\n" ++ rest).toList = line ++ '\n' :: rest.toList := by
    intro line hline
    simp [hline]
  by_cases haccept : outcome = .accept
  · have hformat : formatKernelVerdict outcome = "ACCEPT" := by
      rw [haccept]
      rfl
    have hword : Trimmed "ACCEPT".toList := ⟨by simp, by simp, by simp [isBlank], by simp [isBlank]⟩
    have hfirst : (lines (formatKernelVerdict outcome ++ "\n" ++ rest).toList).find? (fun l => trim l ≠ []) =
        some "ACCEPT".toList := by
      rw [htext _ (congrArg String.toList hformat), hword.lines, List.find?_cons_of_pos]
      rw [hword.trim_self]
      simp
    simp only [parseAgentVerdict, hfirst, hword.trim_self]
    rw [if_pos trivial, haccept]
    rfl
  by_cases hreject : ∀ i m c, outcome ≠ .reject i m c
  · obtain ⟨reason, hformat, htrim, hinfra⟩ := format_infrastructure haccept hreject
    rw [parseAgentVerdict_rejection htrim (htext _ hformat), readReason, if_pos hinfra]
    cases outcome with
    | accept => exact absurd rfl haccept
    | reject i m c => exact absurd rfl (hreject i m c)
    | privilege => rfl
    | noErrorLine errno => rfl
    | invalidProgram => rfl
  · simp only [not_forall, not_not] at hreject
    obtain ⟨insnIdx, message, category, rfl⟩ := hreject
    obtain ⟨htrim, hidx, hcategory⟩ := h
    rw [parseAgentVerdict_rejection (verifierReason_trimmed htrim insnIdx) (htext _ (format_reject _ _ _)),
      readReason_verifier hidx, String.ofList_toList, hcategory]
    rfl

section Agent

variable (kernel : Kernel) (logLevel : Nat) {strict capsDropped : Bool} (path : String) (data : List UInt8) (k : Nat)

/-- Every other one gives the verdict of the load. -/
theorem privileged_agent (h : ¬(strict = true ∧ capsDropped = false)) :
    parseAgentVerdict (String.join ((agentMain kernel logLevel strict capsDropped path (.ok data)).take (k + 1))) =
      guestColumn (agentLoad kernel logLevel data).1 := by
  simp only [agentMain]
  rw [if_neg h]
  simp only [runProgramBytes, List.take_succ_cons, String.join_cons]
  exact parse_format (agentLoad_ofLog kernel logLevel data) _

end Agent

/-- A text of blanks has no verdict. -/
theorem parse_blank {text : String} (h : trim text.toList = []) : parseAgentVerdict text = none := by
  have hfirst : (lines text.toList).find? (fun l => trim l ≠ []) = none := by
    rw [List.find?_eq_none]
    intro line hline hkept
    have hblank : trim line = [] := trim_eq_nil.mpr fun c hc => trim_eq_nil.mp h c (lines_subset hline hc)
    rw [hblank] at hkept
    simp at hkept
  simp only [parseAgentVerdict, hfirst]

end Oracle

end RandVerifier
