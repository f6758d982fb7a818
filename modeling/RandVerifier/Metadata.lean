/-
  RandVerifier.Metadata — the record of a stored finding and how the reducer reads it again
  (`meta_json` and `json_escape` of `src/bin/fuzz.rs`, `load_finding` and its readers in
  `src/fuzz/reduce/replay.rs`).

  The writer escapes quotes, backslashes and line breaks; the reader searches for the quoted key
  and takes the text up to the next quote as it stands. The readers of the categories and of the
  labels know neither `Ref` nor `rv-panic`.

  - `value_behind`: what the reader takes for a key, whatever the fields before hold;
  - `escape_eq_self`: which texts the writer leaves alone;
  - `metadata_round_trip`: which stored findings are read back, with an invariant;
  - `unread_findings`: a panic and a leaked reference, stored findings that are not.
-/

import RandVerifier.Replay
import RandVerifier.Scan

namespace RandVerifier

namespace Oracle

open Pipeline Scan

/-! ## Writing -/

/-- The name of a category in its debug form. -/
def ReasonCategory.text : ReasonCategory → String
  | uninitRead => "UninitRead"
  | stackBounds => "StackBounds"
  | stackAlign => "StackAlign"
  | pointerArith => "PointerArith"
  | helperArgs => "HelperArgs"
  | cfgJump => "CfgJump"
  | loop => "Loop"
  | unreachable => "Unreachable"
  | exitR0 => "ExitR0"
  | complexity => "Complexity"
  | ref => "Ref"
  | other => "Other"

def sideJson : SideVerdict → String
  | .accept => "ACCEPT"
  | .reject category => "REJECT(" ++ category.text ++ ")"
  | .skipped => "SKIPPED"

def specJson : SpecSide → String
  | .accept => "ACCEPT"
  | .reject => "REJECT"
  | .inconclusive => "INCONCLUSIVE"

def escapeChar : Char → List Char
  | '"' => ['\\', '"']
  | '\\' => ['\\', '\\']
  | '\n' => ['\\', 'n']
  | c => [c]

def jsonEscape (text : String) : String := String.ofList (text.toList.flatMap escapeChar)

/-- One line of the record. -/
def metaLine (key value ending : String) : String := "  \"" ++ key ++ "\": \"" ++ value ++ "\"" ++ ending

def metaJson (label name : String) (finding : Finding) (mini kernel : SideVerdict) (spec : SpecSide) : String :=
  "\x7b\n" ++
  metaLine "label" (jsonEscape label) ",\n" ++
  metaLine "name" (jsonEscape name) ",\n" ++
  metaLine "finding" finding.name ",\n" ++
  metaLine "mini" (sideJson mini) ",\n" ++
  metaLine "kernel" (sideJson kernel) ",\n" ++
  metaLine "spec" (specJson spec) "\n" ++
  "\x7d\n"

/-- What is stored of a program: a finding, or a mutant whose verdict differs from its seed's. -/
structure ProgramResult where
  label : String
  name : String
  finding : Finding
  mini : SideVerdict
  miniReason : Option String
  kernel : SideVerdict
  kernelMessage : Option String
  bytes : List UInt8

/-- The files of a stored finding; what cannot be read has a text that says why. -/
structure FindingDir where
  path : String
  metaFile : Except String String
  prog : Except String (List UInt8)
  miniText : String
  kernelLog : Option String

def saveFinding (path : String) (result : ProgramResult) (spec : SpecSide) : FindingDir where
  path := path
  metaFile := .ok (metaJson result.label result.name result.finding result.mini result.kernel spec)
  prog := .ok result.bytes
  miniText := s!"mini: {result.mini.name}\n" ++
    match result.miniReason with
    | some reason => s!"reason: {reason}\n"
    | none => ""
  kernelLog := result.kernelMessage.map (· ++ "\n")

/-! ## Reading -/

/-- `char::is_whitespace`. -/
def isSpace (c : Char) : Bool :=
  let n := c.toNat
  decide (9 ≤ n ∧ n ≤ 13) || decide (0x2000 ≤ n ∧ n ≤ 0x200a) ||
    [0x20, 0x85, 0xa0, 0x1680, 0x2028, 0x2029, 0x202f, 0x205f, 0x3000].contains n

def trimStart (text : List Char) : List Char := text.dropWhile isSpace

/-- The loop of `meta_value`: the value behind the first hit that a colon follows. -/
def valueFrom (needle : List Char) : Nat → List Char → Option (List Char)
  | 0, _ => none
  | fuel + 1, text =>
    match after needle text with
    | none => none
    | some behind =>
      match trimStart behind with
      | ':' :: value =>
        match trimStart value with
        | '"' :: value => upTo '"' value
        | _ => none
      | _ => valueFrom needle fuel behind

/-- Every hit shortens the text, so its length bounds the rounds. -/
def metaValue (text key : String) : Option String :=
  (valueFrom (quoted '"' key.toList) (text.toList.length + 1) text.toList).map String.ofList

def parseSpecSide : Option String → SpecSide
  | some "ACCEPT" => .accept
  | some "REJECT" => .reject
  | _ => .inconclusive

/-- The categories that the reader knows. -/
def parsedCategories : List ReasonCategory :=
  [.uninitRead, .stackBounds, .stackAlign, .pointerArith, .helperArgs, .cfgJump, .loop, .unreachable, .exitR0,
    .complexity, .other]

def parseCategory (text : String) : Option ReasonCategory := parsedCategories.find? (·.text == text)

def parseSide (text : String) : Option SideVerdict :=
  if text = "ACCEPT" then some .accept
  else if text = "SKIPPED" then some .skipped
  else if "REJECT(".toList <+: text.toList ∧ ")".toList <:+ text.toList then
    (parseCategory (String.ofList (text.toList.drop 7).dropLast)).map .reject
  else none

def metaField (text key : String) : Except ReduceError String :=
  match metaValue text key with
  | some value => .ok value
  | none => .error (.invalidFinding s!"meta.json: missing \"{key}\"")

def metaSide (text key : String) : Except ReduceError SideVerdict := do
  let value ← metaField text key
  match parseSide value with
  | some side => .ok side
  | none => .error (.invalidFinding s!"meta.json: unparsable \"{key}\"")

/-- The class of a label; a flip has none. -/
def labelFinding (label : String) : Except ReduceError (Option Finding) :=
  if isKernelDependent label || label == "rv-soundness-bug" then
    match parseFinding label with
    | some finding => .ok (some finding)
    | none => .error (.invalidFinding s!"meta.json: unknown finding label {repr label}")
  else .ok none

def loadProg (dir : FindingDir) : Except ReduceError (List UInt8) := do
  let bytes ← dir.prog.mapError fun e => .invalidFinding s!"{dir.path}/prog.bin: {e}"
  if bytes = [] ∨ bytes.length % 8 ≠ 0 then
    .error (.invalidFinding s!"{dir.path}/prog.bin: not a multiple-of-8 instruction stream")
  else .ok bytes

def loadFinding (dir : FindingDir) : Except ReduceError (FindingSpec × List UInt8) := do
  let text ← dir.metaFile.mapError fun e => .invalidFinding s!"{dir.path}/meta.json: {e}"
  let name ← metaField text "name"
  let label ← metaField text "label"
  let mini ← metaSide text "mini"
  let kernel ← metaSide text "kernel"
  let specRaw := metaValue text "spec"
  let finding ← labelFinding label
  let bytes ← loadProg dir
  .ok (⟨name, label, finding, mini, kernel, parseSpecSide specRaw, specRaw.isSome⟩, bytes)

/-! ## What the reader finds -/

/-- Texts that the writer leaves alone. -/
def Plain (text : List Char) : Prop := '"' ∉ text ∧ '\\' ∉ text ∧ '\n' ∉ text

instance (text : List Char) : Decidable (Plain text) := inferInstanceAs (Decidable (_ ∧ _))

/-- A key: quotes, colons, commas and blanks are no letters. -/
def Word (key : List Char) : Prop := key.all Char.isAlpha = true

instance (key : List Char) : Decidable (Word key) := inferInstanceAs (Decidable (_ = true))

section Reading

variable {key lead text : List Char} {fuel : Nat}

theorem Word.free (h : Word key) {c : Char} (hc : c.isAlpha = false) : c ∉ key := by
  intro hmem
  rw [List.all_eq_true.mp h c hmem] at hc
  cases hc

/-- What stands between a key and its value, or between two fields, is no key. -/
theorem Word.ne {c : Char} (h : Word key) (hc : c.isAlpha = false) : c :: text ≠ key := by
  intro heq
  exact h.free hc (heq ▸ List.mem_cons_self)

/-- A field up to its value. -/
def opening (key : List Char) : List Char := ' ' :: ' ' :: '"' :: (key ++ '"' :: ':' :: ' ' :: ['"'])

/-- A line that another one follows. -/
def fieldLine (field : List Char × List Char) : List Char := opening field.1 ++ field.2 ++ ['"', ',', '\n']

/-- A field that the search for `key` passes over. -/
def Foreign (key : List Char) (field : List Char × List Char) : Prop :=
  field.1 ≠ key ∧ '"' ∉ field.1 ∧ '"' ∉ field.2

theorem valueFrom_congr {needle other : List Char} (h : after needle text = after needle other) :
    valueFrom needle fuel text = valueFrom needle fuel other := by
  cases fuel with
  | zero => rfl
  | succ fuel => rw [valueFrom, valueFrom, h]

/-- At the field of the key, its value is read. -/
theorem valueFrom_own (hlead : '"' ∉ lead) :
    valueFrom (quoted '"' key) (fuel + 1) (lead ++ (opening key ++ text)) = upTo '"' text := by
  have hhit : after (quoted '"' key) (lead ++ (opening key ++ text)) = some (':' :: ' ' :: '"' :: text) := by
    rw [after_skip lead hlead]
    simp only [opening, List.cons_append, List.append_assoc, List.nil_append]
    rw [after_cons_ne (by decide), after_cons_ne (by decide), after_hit]
  rw [valueFrom, hhit]
  rfl

/-- The search comes from a foreign field to the one behind it; a value that equals the key costs
    a round. -/
theorem valueFrom_foreign {field : List Char × List Char} (hkey : Word key) (hfield : Foreign key field)
    (hlead : '"' ∉ lead) (next text : List Char) :
    ∃ spent, spent ≤ 1 ∧ ∀ fuel, valueFrom (quoted '"' key) (fuel + spent) (lead ++ (fieldLine field ++ (opening next ++ text))) =
      valueFrom (quoted '"' key) fuel (',' :: '\n' :: (opening next ++ text)) := by
  obtain ⟨hne, hfree, hvalue⟩ := hfield
  have hquote : '"' ∉ key := hkey.free (by decide)
  -- in front of the value, no token is the key
  have hvalueAt : after (quoted '"' key) (lead ++ (fieldLine field ++ (opening next ++ text))) =
      after (quoted '"' key) ('"' :: (field.2 ++ '"' :: ',' :: '\n' :: (opening next ++ text))) := by
    rw [after_skip lead hlead]
    simp only [fieldLine, opening, List.cons_append, List.append_assoc, List.nil_append]
    rw [after_cons_ne (by decide), after_cons_ne (by decide), after_miss field.1 hquote hfree hne]
    exact after_miss [':', ' '] hquote (by decide) (hkey.ne (by decide))
  by_cases hhit : field.2 = key
  · refine ⟨1, le_refl 1, fun fuel => ?_⟩
    rw [valueFrom, hvalueAt, hhit, after_hit]
    rfl
  · refine ⟨0, Nat.zero_le 1, fun fuel => valueFrom_congr ?_⟩
    rw [hvalueAt, after_miss field.2 hquote hvalue hhit]
    simp only [opening, List.cons_append]
    exact (after_miss [',', '\n', ' ', ' '] hquote (by decide) (hkey.ne (by decide))).trans
      (after_skip [',', '\n', ' ', ' '] (by decide)).symm

/-- What the reader takes for a key is what stands behind its field, up to the next quote. -/
theorem valueFrom_behind (hkey : Word key) {fields : List (List Char × List Char)} :
    ∀ lead {fuel}, (∀ field ∈ fields, Foreign key field) → '"' ∉ lead → fields.length < fuel →
      valueFrom (quoted '"' key) fuel (lead ++ (fields.flatMap fieldLine ++ (opening key ++ text))) = upTo '"' text := by
  induction fields with
  | nil =>
    intro lead fuel _ hlead hfuel
    obtain ⟨fuel, rfl⟩ := Nat.exists_eq_succ_of_ne_zero (Nat.ne_of_gt hfuel)
    exact valueFrom_own hlead
  | cons field fields ih =>
    intro lead fuel hforeign hlead hfuel
    -- whatever comes next starts with a field
    obtain ⟨next, more, hnext⟩ : ∃ next more, fields.flatMap fieldLine ++ (opening key ++ text) = opening next ++ more := by
      cases fields with
      | nil => exact ⟨key, text, rfl⟩
      | cons next fields =>
        refine ⟨next.1, next.2 ++ (['"', ',', '\n'] ++ (fields.flatMap fieldLine ++ (opening key ++ text))), ?_⟩
        simp only [List.flatMap_cons, fieldLine, List.append_assoc]
    rw [List.forall_mem_cons] at hforeign
    obtain ⟨spent, hspent, hstep⟩ := valueFrom_foreign hkey hforeign.1 hlead next more
    rw [List.length_cons] at hfuel
    obtain ⟨left, rfl⟩ := Nat.exists_eq_add_of_le' (show spent ≤ fuel by omega)
    rw [List.flatMap_cons, List.append_assoc, hnext, hstep left, ← hnext]
    exact ih [',', '\n'] hforeign.2 (by decide) (by omega)

theorem length_le_lines (fields : List (List Char × List Char)) : fields.length ≤ (fields.flatMap fieldLine).length := by
  induction fields with
  | nil => exact Nat.le_refl 0
  | cons field fields ih =>
    rw [List.flatMap_cons, List.length_append, List.length_cons]
    have hline : 1 ≤ (fieldLine field).length := by simp [fieldLine, opening]
    omega

/-- The value of a key in a record with the given fields in front of it. -/
theorem value_behind {record word : String} {fields : List (List Char × List Char)} (hkey : Word word.toList)
    (hrecord : record.toList = '\x7b' :: '\n' :: (fields.flatMap fieldLine ++ (opening word.toList ++ text)))
    (hforeign : ∀ field ∈ fields, Foreign word.toList field) :
    metaValue record word = (upTo '"' text).map String.ofList := by
  have hfuel : fields.length < record.toList.length + 1 := by
    have hlines := length_le_lines fields
    simp only [hrecord, List.length_cons, List.length_append]
    omega
  have hread : valueFrom (quoted '"' word.toList) (record.toList.length + 1) record.toList = upTo '"' text := by
    rw [hrecord] at hfuel ⊢
    exact valueFrom_behind hkey ['\x7b', '\n'] hforeign (by decide) hfuel
  rw [metaValue, hread]

end Reading

/-! ## Escaping -/

section Escaping

variable {text rest : List Char}

theorem escapeChar_plain {c : Char} (hquote : c ≠ '"') (hslash : c ≠ '\\') (hbreak : c ≠ '\n') : escapeChar c = [c] := by
  unfold escapeChar
  split
  · exact absurd rfl hquote
  · exact absurd rfl hslash
  · exact absurd rfl hbreak
  · rfl

theorem length_escapeChar (c : Char) : 1 ≤ (escapeChar c).length := by
  unfold escapeChar
  split <;> exact Nat.succ_pos _

theorem length_le_escape (text : List Char) : text.length ≤ (text.flatMap escapeChar).length := by
  induction text with
  | nil => exact Nat.le_refl 0
  | cons c text ih =>
    have hc := length_escapeChar c
    rw [List.flatMap_cons, List.length_append, List.length_cons]
    omega

/-- A letter that is escaped takes two. -/
theorem escape_special {c : Char} (h : (escapeChar c).length = 2) : (c :: text).flatMap escapeChar ≠ c :: text := by
  intro heq
  have hlength := congrArg List.length heq
  have htext := length_le_escape text
  rw [List.flatMap_cons, List.length_append, h, List.length_cons] at hlength
  omega

/-- The writer leaves a text alone exactly if it has no quote, backslash or line break. -/
theorem escape_eq_self : text.flatMap escapeChar = text ↔ Plain text := by
  induction text with
  | nil => exact ⟨fun _ => by decide, fun _ => rfl⟩
  | cons c text ih =>
    by_cases hquote : c = '"'
    · subst hquote
      exact ⟨fun h => absurd h (escape_special rfl), fun h => absurd List.mem_cons_self h.1⟩
    by_cases hslash : c = '\\'
    · subst hslash
      exact ⟨fun h => absurd h (escape_special rfl), fun h => absurd List.mem_cons_self h.2.1⟩
    by_cases hbreak : c = '\n'
    · subst hbreak
      exact ⟨fun h => absurd h (escape_special rfl), fun h => absurd List.mem_cons_self h.2.2⟩
    rw [List.flatMap_cons, escapeChar_plain hquote hslash hbreak, List.singleton_append, List.cons.injEq, ih]
    simp only [Plain, List.mem_cons, not_or, true_and, Ne.symm hquote, Ne.symm hslash, Ne.symm hbreak, not_false_eq_true]

/-- Without a quote, none is written. -/
theorem escape_free (h : '"' ∉ text) : '"' ∉ text.flatMap escapeChar := by
  intro hmem
  obtain ⟨c, hc, hquote⟩ := List.mem_flatMap.mp hmem
  unfold escapeChar at hquote
  split at hquote
  · exact h hc
  · exact absurd hquote (by decide)
  · exact absurd hquote (by decide)
  · rw [List.mem_singleton] at hquote
    exact h (hquote ▸ hc)

/-- An escaped text is read back as it was exactly if nothing was escaped. -/
theorem read_escaped : upTo '"' (text.flatMap escapeChar ++ '"' :: rest) = some text ↔ Plain text := by
  constructor
  · intro h
    rw [upTo_append (escape_free (upTo_free h))] at h
    exact escape_eq_self.mp (Option.some.inj h)
  · intro h
    rw [escape_eq_self.mpr h]
    exact upTo_append h.1

end Escaping

/-! ## The record -/

/-- The fields in front of the last one. -/
def recordFields (result : ProgramResult) : List (List Char × List Char) :=
  [("label".toList, result.label.toList.flatMap escapeChar), ("name".toList, result.name.toList.flatMap escapeChar),
    ("finding".toList, result.finding.name.toList), ("mini".toList, (sideJson result.mini).toList),
    ("kernel".toList, (sideJson result.kernel).toList)]

/-- The record of a result. -/
def ProgramResult.record (result : ProgramResult) (spec : SpecSide) : String :=
  metaJson result.label result.name result.finding result.mini result.kernel spec

theorem metaLine_toList (word value : String) :
    (metaLine word value ",\n").toList = fieldLine (word.toList, value.toList) := by
  simp only [metaLine, String.toList_append, fieldLine, opening]
  rw [show "  \"".toList = [' ', ' ', '"'] by decide, show "\": \"".toList = ['"', ':', ' ', '"'] by decide,
    show "\"".toList = ['"'] by decide, show ",\n".toList = [',', '\n'] by decide]
  simp only [List.append_assoc, List.cons_append, List.nil_append]

theorem record_toList (result : ProgramResult) (spec : SpecSide) :
    (result.record spec).toList = '\x7b' :: '\n' :: ((recordFields result).flatMap fieldLine ++
      (opening "spec".toList ++ ((specJson spec).toList ++ '"' :: ['\n', '\x7d', '\n']))) := by
  simp only [ProgramResult.record, metaJson, String.toList_append, metaLine_toList, jsonEscape, String.toList_ofList,
    recordFields, List.flatMap_cons, List.flatMap_nil, List.append_nil, List.append_assoc]
  rw [show metaLine "spec" (specJson spec) "\n" = "  \"spec\": \"" ++ specJson spec ++ "\"\n" by
    simp only [metaLine, String.append_assoc]
    rfl]
  simp only [String.toList_append, List.append_assoc]
  rfl

/-- What is stored has been loaded, and is a finding or a flip. -/
structure ProgramResult.Stored (result : ProgramResult) : Prop where
  loads : ∃ env, Env.new.setupProgBytes result.bytes = .ok env
  labelled : result.label = "verdict-flip" ∨ (result.label = result.finding.name ∧ result.finding.isFinding = true)

/-- The class that the record means: a flip has none. -/
def ProgramResult.category (result : ProgramResult) : Option Finding :=
  if result.label = "verdict-flip" then none else some result.finding

/-- What a faithful reader returns. -/
def ProgramResult.stored (result : ProgramResult) (spec : SpecSide) : FindingSpec :=
  ⟨result.name, result.label, result.category, result.mini, result.kernel, spec, true⟩

section Record

variable {result : ProgramResult} {spec : SpecSide}

theorem side_free (side : SideVerdict) : '"' ∉ (sideJson side).toList := by
  cases side with
  | accept | skipped => decide +kernel
  | reject category => cases category <;> decide +kernel

theorem finding_plain (finding : Finding) : Plain finding.name.toList := by
  cases finding <;> decide +kernel

theorem label_plain (h : result.Stored) : Plain result.label.toList := by
  rcases h.labelled with hflip | ⟨hname, -⟩
  · rw [hflip]
    decide
  · rw [hname]
    exact finding_plain result.finding

/-- In a field of the record stand no quotes. -/
theorem record_free (h : result.Stored) (hname : Plain result.name.toList) :
    ∀ field ∈ recordFields result, '"' ∉ field.1 ∧ '"' ∉ field.2 := by
  simp only [recordFields, List.forall_mem_cons, List.not_mem_nil, false_imp_iff, implies_true, and_true]
  exact ⟨⟨by decide, escape_free (label_plain h).1⟩, ⟨by decide, escape_free hname.1⟩,
    ⟨by decide, (finding_plain result.finding).1⟩, ⟨by decide, side_free result.mini⟩, ⟨by decide, side_free result.kernel⟩⟩

/-- What is read for a field that stands behind foreign ones. -/
theorem read_at (word : String) (before : List (List Char × List Char)) {behind : List (List Char × List Char)}
    {value : List Char} (spec : SpecSide)
    (hsplit : recordFields result = before ++ (word.toList, value) :: behind) (hkey : Word word.toList)
    (hforeign : ∀ field ∈ before, Foreign word.toList field) :
    ∃ rest, metaValue (result.record spec) word = (upTo '"' (value ++ '"' :: rest)).map String.ofList := by
  have hrecord := record_toList result spec
  rw [hsplit, List.flatMap_append, List.flatMap_cons] at hrecord
  simp only [fieldLine, List.append_assoc, List.cons_append, List.nil_append] at hrecord
  exact ⟨_, value_behind hkey hrecord hforeign⟩

theorem read_label (h : result.Stored) : metaValue (result.record spec) "label" = some result.label := by
  obtain ⟨rest, hread⟩ := @read_at result "label" [] _ _ spec rfl (by decide)
    (fun field hfield => absurd hfield List.not_mem_nil)
  rw [hread, read_escaped.mpr (label_plain h), Option.map_some, String.ofList_toList]

/-- The name is read back exactly if none of its letters is escaped. -/
theorem read_name (h : result.Stored) :
    metaValue (result.record spec) "name" = some result.name ↔ Plain result.name.toList := by
  obtain ⟨rest, hread⟩ := @read_at result "name" [_] _ _ spec rfl (by decide)
    (fun field hfield => by
      rw [List.mem_singleton.mp hfield]
      dsimp only [Foreign]
      exact ⟨by decide, by decide, escape_free (label_plain h).1⟩)
  rw [hread, ← @read_escaped _ rest]
  constructor
  · intro hmap
    obtain ⟨value, hvalue, hname⟩ := Option.map_eq_some_iff.mp hmap
    rw [hvalue, ← hname, String.toList_ofList]
  · intro hvalue
    rw [hvalue, Option.map_some, String.ofList_toList]

/-- A field that holds a fixed text is read back behind a name without escapes. -/
theorem read_fixed {word value : String} (before : List (List Char × List Char))
    {behind : List (List Char × List Char)} (h : result.Stored)
    (hname : Plain result.name.toList) (hsplit : recordFields result = before ++ (word.toList, value.toList) :: behind)
    (hkey : Word word.toList) (hother : ∀ field ∈ before, field.1 ≠ word.toList) :
    metaValue (result.record spec) word = some value := by
  have hfree := record_free h hname
  rw [hsplit] at hfree
  obtain ⟨rest, hread⟩ := read_at word before spec hsplit hkey
    (fun field hfield => ⟨hother field hfield, hfree field (List.mem_append_left _ hfield)⟩)
  have hvalue : '"' ∉ value.toList := (hfree _ (List.mem_append_right before List.mem_cons_self)).2
  rw [hread, upTo_append hvalue, Option.map_some, String.ofList_toList]

/-- The remaining fields of a record whose name is plain. -/
theorem read_rest (h : result.Stored) (hname : Plain result.name.toList) :
    metaValue (result.record spec) "mini" = some (sideJson result.mini) ∧
      metaValue (result.record spec) "kernel" = some (sideJson result.kernel) ∧
      metaValue (result.record spec) "spec" = some (specJson spec) := by
  refine ⟨?_, ?_, ?_⟩
  · refine read_fixed [_, _, _] h hname rfl (by decide) ?_
    simp only [List.forall_mem_cons, List.not_mem_nil, false_imp_iff, implies_true, and_true]
    exact ⟨by decide, by decide, by decide⟩
  · refine read_fixed [_, _, _, _] h hname rfl (by decide) ?_
    simp only [List.forall_mem_cons, List.not_mem_nil, false_imp_iff, implies_true, and_true]
    exact ⟨by decide, by decide, by decide, by decide⟩
  · have hfree := record_free h hname
    have hother : ∀ field ∈ recordFields result, field.1 ≠ "spec".toList := by
      simp only [recordFields, List.forall_mem_cons, List.not_mem_nil, false_imp_iff, implies_true, and_true]
      exact ⟨by decide, by decide, by decide, by decide, by decide⟩
    rw [value_behind (by decide) (record_toList result spec) fun field hfield => ⟨hother field hfield, hfree field hfield⟩,
      upTo_append (by cases spec <;> decide), Option.map_some, String.ofList_toList]

end Record

/-! ## Reading a record -/

theorem parseSpec_json (spec : SpecSide) : parseSpecSide (some (specJson spec)) = spec := by
  cases spec <;> rfl

/-- A side is read back unless its category is `Ref`. -/
theorem parseSide_json (side : SideVerdict) : parseSide (sideJson side) = some side ↔ side ≠ .reject .ref := by
  cases side with
  | accept | skipped => decide +kernel
  | reject category => cases category <;> decide +kernel

section Loading

variable {text word : String} {dir : FindingDir} {loaded : FindingSpec} {bytes : List UInt8}

theorem metaField_ok {value : String} : metaField text word = .ok value ↔ metaValue text word = some value := by
  unfold metaField
  cases metaValue text word <;> simp

theorem metaSide_ok {side : SideVerdict} :
    metaSide text word = .ok side ↔ ∃ value, metaValue text word = some value ∧ parseSide value = some side := by
  simp only [metaSide, bind_eq_ok, metaField_ok]
  refine exists_congr fun value => and_congr_right fun _ => ?_
  cases parseSide value <;> simp

theorem loadProg_ok : loadProg dir = .ok bytes ↔ dir.prog = .ok bytes ∧ bytes ≠ [] ∧ bytes.length % 8 = 0 := by
  simp only [loadProg, bind_eq_ok, mapError_eq_ok]
  constructor
  · intro h
    obtain ⟨read, hread, hcheck⟩ := h
    split at hcheck
    · cases hcheck
    · rename_i hsize
      rw [not_or, not_not] at hsize
      cases hcheck
      exact ⟨hread, hsize⟩
  · intro h
    obtain ⟨hread, hne, hsize⟩ := h
    exact ⟨bytes, hread, by rw [if_neg (not_or.mpr ⟨hne, not_not.mpr hsize⟩)]⟩

/-- What a loaded finding is made of. -/
theorem loadFinding_ok : loadFinding dir = .ok (loaded, bytes) ↔
    ∃ text, dir.metaFile = .ok text ∧ metaValue text "name" = some loaded.name ∧
      metaValue text "label" = some loaded.label ∧ metaSide text "mini" = .ok loaded.mini ∧
      metaSide text "kernel" = .ok loaded.kernel ∧ labelFinding loaded.label = .ok loaded.finding ∧
      loadProg dir = .ok bytes ∧ parseSpecSide (metaValue text "spec") = loaded.spec ∧
      (metaValue text "spec").isSome = loaded.specRecorded := by
  simp only [loadFinding, bind_eq_ok, mapError_eq_ok, metaField_ok]
  refine exists_congr fun text => and_congr_right fun _ => ?_
  constructor
  · intro h
    obtain ⟨name, hname, label, hlabel, mini, hmini, kernel, hkernel, finding, hfinding, read, hread, heq⟩ := h
    cases heq
    exact ⟨hname, hlabel, hmini, hkernel, hfinding, hread, rfl, rfl⟩
  · intro h
    obtain ⟨hname, hlabel, hmini, hkernel, hfinding, hread, hspec, hrecorded⟩ := h
    exact ⟨_, hname, _, hlabel, _, hmini, _, hkernel, _, hfinding, _, hread, by rw [hspec, hrecorded]⟩

end Loading

section RoundTrip

variable {result : ProgramResult} {spec : SpecSide}

/-- The class of a stored label is read back unless it is a panic. -/
theorem label_category (h : result.Stored) :
    labelFinding result.label = .ok result.category ↔ result.label ≠ "rv-panic" := by
  unfold ProgramResult.category
  rcases h.labelled with hflip | ⟨hname, hfinding⟩
  · rw [hflip]
    exact ⟨fun _ => by decide, fun _ => rfl⟩
  · rw [hname]
    cases hclass : result.finding with
    | rvPanic => exact ⟨fun heq => (nomatch heq), fun hne => absurd rfl hne⟩
    | agree | whitelisted | surfaceGap | inconclusive | skipped =>
      rw [hclass] at hfinding
      cases hfinding
    | _ => exact ⟨fun _ => by decide, fun _ => rfl⟩

/-- When a record gives an invariant: a flip needs a verdict, a class a known label. -/
theorem invariantFor_ok {loaded : FindingSpec} : (∃ inv, invariantFor loaded = .ok inv) ↔
    if loaded.label = "verdict-flip" then loaded.mini ≠ .skipped else (parseFinding loaded.label).isSome := by
  unfold invariantFor
  split
  · split
    · rename_i hskipped
      simp [hskipped]
    · rename_i hmini
      simp [hmini]
  · cases parseFinding loaded.label <;> simp

theorem stored_invariant (h : result.Stored) : (∃ inv, invariantFor (result.stored spec) = .ok inv) ↔
    result.label ≠ "rv-panic" ∧ (result.label = "verdict-flip" → result.mini ≠ .skipped) := by
  rw [invariantFor_ok]
  change (if result.label = "verdict-flip" then result.mini ≠ .skipped else (parseFinding result.label).isSome) ↔ _
  rcases h.labelled with hflip | ⟨hname, hfinding⟩
  · rw [if_pos hflip, hflip]
    exact ⟨fun hmini => ⟨by decide, fun _ => hmini⟩, fun hboth => hboth.2 rfl⟩
  · have hclass : result.finding.name ≠ "verdict-flip" := by cases result.finding <;> decide
    rw [hname, if_neg hclass]
    simp only [hclass, false_imp_iff, and_true]
    cases hfound : result.finding with
    | agree | whitelisted | surfaceGap | inconclusive | skipped =>
      rw [hfound] at hfinding
      cases hfinding
    | _ => decide

theorem stored_prog (path : String) (h : result.Stored) : loadProg (saveFinding path result spec) = .ok result.bytes := by
  obtain ⟨env, hload⟩ := h.loads
  unfold Env.setupProgBytes at hload
  split_ifs at hload with hsize hempty
  exact loadProg_ok.mpr ⟨rfl, hempty, not_not.mp hsize⟩

/-- A panic is read back without a class. -/
theorem load_panic (path : String) (h : result.Stored) (hplain : Plain result.name.toList)
    (hmini : result.mini ≠ .reject .ref) (hkernel : result.kernel ≠ .reject .ref) (hlabel : result.label = "rv-panic") :
    loadFinding (saveFinding path result spec) = .ok ({ result.stored spec with finding := none }, result.bytes) := by
  obtain ⟨hminiText, hkernelText, hspecText⟩ := @read_rest _ spec h hplain
  have hclass : labelFinding result.label = .ok none := by
    rw [hlabel]
    rfl
  refine loadFinding_ok.mpr ⟨result.record spec, rfl, (read_name h).mpr hplain, read_label h,
    metaSide_ok.mpr ⟨_, hminiText, (parseSide_json _).mpr hmini⟩,
    metaSide_ok.mpr ⟨_, hkernelText, (parseSide_json _).mpr hkernel⟩, hclass, stored_prog path h, ?_, ?_⟩
  · rw [hspecText]
    exact parseSpec_json spec
  · rw [hspecText]
    rfl

/-- A kernel that rejects for a reference leaves a record that is not read. -/
theorem load_leak (path : String) (h : result.Stored) (hplain : Plain result.name.toList)
    (hmini : result.mini ≠ .reject .ref) (hkernel : result.kernel = .reject .ref) :
    loadFinding (saveFinding path result spec) = .error (.invalidFinding "meta.json: unparsable \"kernel\"") := by
  obtain ⟨hminiText, hkernelText, -⟩ := @read_rest _ spec h hplain
  have hname := metaField_ok.mpr ((@read_name _ spec h).mpr hplain)
  have hlabel := metaField_ok.mpr (@read_label _ spec h)
  have hside := metaSide_ok.mpr ⟨_, hminiText, (parseSide_json _).mpr hmini⟩
  have hparse : parseSide (sideJson result.kernel) = none := by
    rw [hkernel]
    decide +kernel
  have hfail : metaSide (result.record spec) "kernel" = .error (.invalidFinding "meta.json: unparsable \"kernel\"") := by
    rw [metaSide, metaField_ok.mpr hkernelText]
    simp only [bind, Except.bind, hparse]
    rfl
  have htext : (saveFinding path result spec).metaFile = .ok (result.record spec) := rfl
  simp only [loadFinding, htext, Except.mapError, bind, Except.bind, hname, hlabel, hside, hfail]

/-- When the record of a stored result is read back. -/
theorem load_stored (path : String) (h : result.Stored) :
    loadFinding (saveFinding path result spec) = .ok (result.stored spec, result.bytes) ↔
      Plain result.name.toList ∧ result.mini ≠ .reject .ref ∧ result.kernel ≠ .reject .ref ∧ result.label ≠ "rv-panic" := by
  have hprog := @stored_prog _ spec path h
  rw [loadFinding_ok]
  constructor
  · intro hload
    obtain ⟨text, htext, hname, -, hmini, hkernel, hfinding, -, -, -⟩ := hload
    cases htext
    have hplain := (read_name h).mp hname
    obtain ⟨hminiText, hkernelText, -⟩ := @read_rest _ spec h hplain
    obtain ⟨mini, hmini, hside⟩ := metaSide_ok.mp hmini
    obtain ⟨kernel, hkernel, hkernelSide⟩ := metaSide_ok.mp hkernel
    cases hminiText.symm.trans hmini
    cases hkernelText.symm.trans hkernel
    exact ⟨hplain, (parseSide_json _).mp hside, (parseSide_json _).mp hkernelSide, (label_category h).mp hfinding⟩
  · intro hcond
    obtain ⟨hplain, hmini, hkernel, hlabel⟩ := hcond
    obtain ⟨hminiText, hkernelText, hspecText⟩ := @read_rest _ spec h hplain
    refine ⟨result.record spec, rfl, (read_name h).mpr hplain, read_label h,
      metaSide_ok.mpr ⟨_, hminiText, (parseSide_json _).mpr hmini⟩,
      metaSide_ok.mpr ⟨_, hkernelText, (parseSide_json _).mpr hkernel⟩, (label_category h).mpr hlabel, hprog, ?_, ?_⟩
    · rw [hspecText]
      exact parseSpec_json spec
    · rw [hspecText]
      rfl

end RoundTrip

/-- A stored finding is read back as it was recorded, with an invariant, exactly if its name has
    no quote, backslash or line break, no side rejects for a reference, it is no panic, and a flip
    has a verdict. Its messages do not matter. -/
theorem metadata_round_trip (result : ProgramResult) (spec : SpecSide) (path : String) (h : result.Stored) :
    (loadFinding (saveFinding path result spec) = .ok (result.stored spec, result.bytes) ∧
        ∃ inv, invariantFor (result.stored spec) = .ok inv) ↔
      Plain result.name.toList ∧ result.mini ≠ .reject .ref ∧ result.kernel ≠ .reject .ref ∧
        result.label ≠ "rv-panic" ∧ (result.label = "verdict-flip" → result.mini ≠ .skipped) := by
  rw [load_stored path h, stored_invariant h]
  constructor
  · intro hboth
    obtain ⟨⟨hplain, hmini, hkernel, hlabel⟩, -, hflip⟩ := hboth
    exact ⟨hplain, hmini, hkernel, hlabel, hflip⟩
  · intro hcond
    obtain ⟨hplain, hmini, hkernel, hlabel, hflip⟩ := hcond
    exact ⟨⟨hplain, hmini, hkernel, hlabel⟩, hlabel, hflip⟩

/-- `exit`, rejected here and accepted by the kernel, under a name that is a key of the record. -/
def exitResult : ProgramResult where
  label := "soundness-candidate"
  name := "mini"
  finding := .soundnessCandidate
  mini := .reject .uninitRead
  miniReason := some "at insn 0: \"R0\" !read_ok\n"
  kernel := .accept
  kernelMessage := none
  bytes := [0x95, 0, 0, 0, 0, 0, 0, 0]

theorem exit_round_trip : loadFinding (saveFinding "findings/mini" exitResult .reject) =
      .ok (exitResult.stored .reject, exitResult.bytes) ∧
    ∃ inv, invariantFor (exitResult.stored .reject) = .ok inv :=
  (metadata_round_trip exitResult .reject "findings/mini" ⟨⟨_, rfl⟩, .inr ⟨rfl, rfl⟩⟩).mpr
    ⟨by decide, by decide, by decide, by decide, by decide⟩

/-- A program the verifier panics at is stored, but its record gives no invariant; a kernel that
    rejects for a leaked reference makes the record unreadable. -/
theorem unread_findings : ∃ panic leak : ProgramResult, ∃ loaded,
    panic.Stored ∧ loadFinding (saveFinding "findings/panic" panic .accept) = .ok (loaded, panic.bytes) ∧
      (¬ ∃ inv, invariantFor loaded = .ok inv) ∧
      leak.Stored ∧ loadFinding (saveFinding "findings/leak" leak .accept) =
        .error (.invalidFinding "meta.json: unparsable \"kernel\"") := by
  have hpanic : ProgramResult.Stored
      { exitResult with label := "rv-panic", name := "seed-1-0", finding := .rvPanic, mini := .skipped } :=
    ⟨⟨_, rfl⟩, .inr ⟨rfl, rfl⟩⟩
  have hleak : ProgramResult.Stored { exitResult with name := "seed-1-1", mini := .accept, kernel := .reject .ref } :=
    ⟨⟨_, rfl⟩, .inr ⟨rfl, rfl⟩⟩
  exact ⟨_, _, ⟨"seed-1-0", "rv-panic", none, .skipped, .accept, .accept, true⟩, hpanic,
    load_panic "findings/panic" hpanic (by decide +kernel) (by decide) (by decide) rfl, invariantFor_ok.not.mpr (by decide),
    hleak, load_leak "findings/leak" hleak (by decide +kernel) (by decide) rfl⟩

end Oracle

end RandVerifier
