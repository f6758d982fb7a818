/-
  RandVerifier.Cfg — subprograms and the control flow graph (`src/cfg.rs`).

  The targets are computed as in the source, `(idx as i32 + 1 + offset) as u32`. The search
  of `check_cfg` runs with fuel; `none` is a search that used it up. An index past the
  program is a panic.
-/

import RandVerifier.Branch
import RandVerifier.GraphSearch
import RandVerifier.Liveness
import Mathlib.Data.List.Sort

namespace RandVerifier

/-! ## Subprograms -/

/-- The call targets from `pc` on, added to the starts found so far. -/
def addStarts (insnCnt : Nat) : Nat → List BpfInsn → List Nat → Exec (List Nat)
  | _, [], starts => .ok starts
  | pc, .callSub offset :: insns, starts =>
    let target := callTarget pc offset
    if insnCnt ≤ target then fail pc s!"call target {target} is out of the program"
    else addStarts insnCnt (pc + 1) insns (if target ∈ starts then starts else starts ++ [target])
  | pc, _ :: insns, starts => addStarts insnCnt (pc + 1) insns starts

/-- The subprogram entries: the main program and every call target, sorted. -/
def addSubprog (insns : List BpfInsn) : Exec (List Nat) := do
  let starts ← addStarts insns.length 0 insns [0]
  .ok (starts.insertionSort (· ≤ ·))

/-- The `[start, end)` range of the subprogram that contains an instruction. -/
def findSubprogRange (insnIdx : Nat) (subprogs : List Nat) (insnCnt : Nat) : Nat × Nat :=
  ((subprogs.reverse.find? (· ≤ insnIdx)).getD 0, (subprogs.find? (insnIdx < ·)).getD insnCnt)

/-! ## Edges -/

/-- A target must not be the second slot of a wide load. -/
def checkLdimm64Target (idx target : Nat) (insns : List BpfInsn) : Exec Unit :=
  match insns[target]? with
  | some (.ldImm64Second _) =>
    fail idx s!"jump target {target} lands in the middle of an ldimm64 instruction"
  | _ => .ok ()

/-- A jump target inside the subprogram. -/
def checkTarget (idx target start stop : Nat) (kind : String) (insns : List BpfInsn) : Exec Unit := do
  failIf (target < start ∨ stop ≤ target) idx
    s!"{kind} target {target} crosses subprogram boundary [{start}, {stop})"
  checkLdimm64Target idx target insns

/-- The successors of an instruction, before the fall-through check. -/
def insnNexts (idx start stop : Nat) (insns : List BpfInsn) (subprogs : List Nat) (insn : BpfInsn) :
    Exec (List Nat) :=
  match insn with
  -- the main program ends, a subprogram returns behind every call of it
  | .exit =>
    .ok (if start = 0 then [] else ((callSites insns).filter (·.2 = start)).map (·.1 + 1))
  | .jmp offset => do
    let target := branchTarget idx offset
    checkTarget idx target start stop "jump" insns
    .ok [target]
  | .callSub offset =>
    let target := callTarget idx offset
    if target ∈ subprogs then .ok [target]
    else fail idx s!"call target {target} is not a subprogram entry {subprogs}"
  | insn =>
    match insn.branchOffset with
    | some offset => do
      let target := branchTarget idx offset
      checkTarget idx target start stop "branch" insns
      .ok [target, idx + 1]
    | none => .ok [idx + 1]

/-- The successors of an instruction, which must not fall out of its subprogram. -/
def visitInsn (idx : Nat) (insns : List BpfInsn) (subprogs : List Nat) : Exec (List Nat) :=
  let (start, stop) := findSubprogRange idx subprogs insns.length
  match insns[idx]? with
  | none => .error .panic
  | some insn => do
    let nexts ← insnNexts idx start stop insns subprogs insn
    failIf (idx + 1 ∈ nexts ∧ stop ≤ idx + 1) idx
      s!"falls through out of subprogram [{start}, {stop})"
    .ok nexts

/-! ## The search -/

/-- Whether an instruction has no fall-through and is no call. -/
def BpfInsn.endsSubprog : BpfInsn → Bool
  | .exit | .jmp _ => true
  | _ => false

/-- Every subprogram ends with an exit or an unconditional jump. -/
def checkSubprogEnds (insns : List BpfInsn) : List Nat → Exec Unit
  | [] => .ok ()
  | start :: rest =>
    let stop := (rest[0]?).getD insns.length
    match insns[stop - 1]? with
    | none => .error .panic
    | some insn =>
      if insn.endsSubprog then checkSubprogEnds insns rest
      else fail (stop - 1) s!"subprogram [{start}..{stop}) does not end with exit or jmp"

/-- One round of the search: the next child of the innermost instruction, or its end. -/
def cfgIterate (insns : List BpfInsn) (subprogs : List Nat) (s : Search Nat) :
    Exec (Option (Search Nat)) :=
  match s.stack with
  | [] => .ok none
  | (idx, child) :: rest => do
    let nexts ← visitInsn idx insns subprogs
    match nexts[child]? with
    | some nxt =>
      if insns.length ≤ nxt then .error .panic
      else match s.visit nxt with
        | .notVisited =>
          .ok (some ⟨Function.update s.visit nxt .discovering, (nxt, 0) :: (idx, child + 1) :: rest,
            s.heads⟩)
        -- an edge to an instruction being explored: its target is a loop head
        | .discovering =>
          .ok (some ⟨s.visit, (idx, child + 1) :: rest,
            if nxt ∈ s.heads then s.heads else s.heads ++ [nxt]⟩)
        | .explored => .ok (some ⟨s.visit, (idx, child + 1) :: rest, s.heads⟩)
    | none => .ok (some ⟨Function.update s.visit idx .explored, rest, s.heads⟩)

/-- The search loop: `none` when the fuel is used up. -/
def cfgLoop (insns : List BpfInsn) (subprogs : List Nat) :
    Nat → Search Nat → Option (Exec (Search Nat))
  | 0, _ => none
  | fuel + 1, s =>
    match cfgIterate insns subprogs s with
    | .error e => some (.error e)
    | .ok none => some (.ok s)
    | .ok (some t) => cfgLoop insns subprogs fuel t

/-- The loop heads, unless an instruction was not visited. -/
def cfgResult (insns : List BpfInsn) (s : Search Nat) : Exec (List Nat) :=
  match (List.range insns.length).find? (s.visit · = .notVisited) with
  | some i => fail i "unreachable instruction"
  | none => .ok s.heads

/-- Check the control flow graph; the result are the loop heads. -/
def checkCfg (fuel : Nat) (insns : List BpfInsn) (subprogs : List Nat) : Option (Exec (List Nat)) :=
  if insns = [] then some (fail 0 "empty program")
  else match checkSubprogEnds insns subprogs with
    | .error e => some (.error e)
    | .ok () => (cfgLoop insns subprogs fuel (.start 0)).map (· >>= cfgResult insns)

/-- The edges of the graph: the successors of an instruction that passes its checks. -/
def cfgEdges (insns : List BpfInsn) (subprogs : List Nat) (idx : Nat) : List Nat :=
  match visitInsn idx insns subprogs with
  | .ok nexts => nexts
  | .error _ => []

/-- Fuel for every search of a program: its instructions and its edges. -/
def cfgFuel (insns : List BpfInsn) (subprogs : List Nat) : Nat :=
  ∑ idx ∈ Finset.range insns.length, Search.nodeWork (cfgEdges insns subprogs) idx

end RandVerifier
