/-
  RandVerifier.Passes — the structural passes of the reducer (`src/fuzz/reduce/passes.rs`).

  Dead code, the backward slice to a failure anchor and the branches with a dead side, over the
  edges that `successors` knows: the fall-through, `JA` and the 64-bit comparisons. A `JSET`, a
  32-bit comparison and a subprogram call only fall through here.

  Proved:
  - `mem_reachable`, `mem_backwardReachable`: the explorations find exactly the known paths;
  - `deadCode_some`, `sliceToAnchor_some`: what a candidate deletes;
  - `simplifyDeadSide_mem`: a branch becomes a jump, or is deleted;
  - `deadCode_returns`, `sliceToAnchor_returns`, `simplifyDeadSide_returns`: the passes are only
    stopped by an instruction that does not encode.
-/

import RandVerifier.Operand
import RandVerifier.Worklist

namespace RandVerifier

namespace Reduce

open Fixup

/-! ## The known edges -/

def successors (insns : List BpfInsn) (pc : Nat) : List Nat :=
  let fall := if pc + 1 < insns.length then [pc + 1] else []
  match insns[pc]? with
  | none => []
  | some .exit => []
  | some (.jmp offset) => inRange pc offset.toInt insns.length
  | some insn =>
    if insn.isConditionalBranch then
      match Fixup.branchOffset insn with
      | some offset => fall ++ inRange pc offset.toInt insns.length
      | none => fall
    else fall

/-- The edges without one that is skipped. -/
def edgesBut (insns : List BpfInsn) (skip : Option (Nat × Nat)) (pc : Nat) : List Nat :=
  (successors insns pc).filter fun next => decide (skip ≠ some (pc, next))

/-- What is reached from the entry. -/
def reachable (insns : List BpfInsn) (skip : Option (Nat × Nat)) : List Nat :=
  Worklist.reach (List.range insns.length) (edgesBut insns skip) 0

/-- The instructions with an edge to this one. -/
def predecessors (insns : List BpfInsn) (pc : Nat) : List Nat :=
  (List.range insns.length).flatMap fun i => ((successors insns i).filter (· = pc)).map fun _ => i

/-- The instructions from which the anchor is reached. -/
def backwardReachable (insns : List BpfInsn) (anchor : Nat) : List Nat :=
  Worklist.reach (List.range insns.length) (predecessors insns) anchor

/-! ## The passes -/

/-- The result of a deletion: a rejected one gives no candidate. -/
def asCandidate (r : Except Fixup.Stop (List UInt8)) : Except Panic (Option (List UInt8)) :=
  match r with
  | .ok out => .ok (some out)
  | .error .rejected => .ok none
  | .error .unreachable => .error .unreachable

/-- The positions that are not kept. -/
def others (len : Nat) (keep : Nat → Bool) : List Nat := (List.range len).filter fun i => !keep i

/-- The candidate without the positions that are not kept. -/
def deleteOthers (bytes : List UInt8) (len : Nat) (keep : Nat → Bool) : Except Panic (Option (List UInt8)) :=
  if others len keep = [] then .ok none else asCandidate (deleteInsns bytes (others len keep))

/-- What dead-code elimination keeps. -/
def live (insns : List BpfInsn) (i : Nat) : Bool := decide (i ∈ reachable insns none)

def deadCode (bytes : List UInt8) : Except Panic (Option (List UInt8)) :=
  match decode bytes with
  | none => .ok none
  | some insns => deleteOthers bytes insns.length (live insns)

/-- What a slice keeps: what leads to the anchor, and the exits. -/
def sliceKeeps (insns : List BpfInsn) (anchor i : Nat) : Bool :=
  decide (i ∈ backwardReachable insns anchor) || decide (insns[i]? = some .exit)

def sliceToAnchor (bytes : List UInt8) (anchor : Option Nat) : Except Panic (Option (List UInt8)) :=
  match decode bytes with
  | none => .ok none
  | some insns =>
    match anchor with
    | none => .ok none
    | some anchor =>
      if insns.length ≤ anchor then .ok none
      else deleteOthers bytes insns.length (sliceKeeps insns anchor)

/-- A dead fall-through: the branch always jumps. -/
def alwaysJumps (insns : List BpfInsn) (pc : Nat) (offset : Int16) : Except Panic (List (List UInt8)) :=
  if pc + 1 < insns.length ∧ pc + 1 ∉ reachable insns (some (pc, pc + 1)) then
    match encodeProgram (insns.set pc (.jmp offset)) with
    | none => .error .unreachable
    | some out => .ok [out]
  else .ok []

/-- A dead target: the branch never jumps. -/
def neverJumps (bytes : List UInt8) (insns : List BpfInsn) (pc target : Nat) : Except Panic (List (List UInt8)) :=
  if target ∉ reachable insns (some (pc, target)) then
    (asCandidate (deleteInsns bytes [pc])).map Option.toList
  else .ok []

def deadSides (bytes : List UInt8) (insns : List BpfInsn) (pc : Nat) (insn : BpfInsn) :
    Except Panic (List (List UInt8)) :=
  if insn.isConditionalBranch then
    match Fixup.branchOffset insn with
    | none => .ok []
    | some offset =>
      match inRange pc offset.toInt insns.length with
      | [] => .ok []
      | target :: _ => do
        let jumps ← alwaysJumps insns pc offset
        let falls ← neverJumps bytes insns pc target
        .ok (jumps ++ falls)
  else .ok []

/-- The candidates for the branches with a dead side, in order. -/
def simplifyDeadSide (bytes : List UInt8) : Except Panic (List (List UInt8)) :=
  match decode bytes with
  | none => .ok []
  | some insns => forInsns (deadSides bytes insns) 0 insns

/-! ## What is found -/

section Found

variable {insns : List BpfInsn} {i j pc : Nat}

theorem mem_inRange {offset : Int} {n : Nat} : j ∈ inRange i offset n ↔ (j : Int) = i + 1 + offset ∧ j < n := by
  unfold inRange
  dsimp only
  split
  · rw [List.mem_singleton]
    omega
  · simp only [List.not_mem_nil, false_iff]
    omega

theorem successors_lt (h : j ∈ successors insns i) : j < insns.length := by
  have hfall : j ∈ (if i + 1 < insns.length then [i + 1] else []) → j < insns.length := by
    intro hj
    split at hj
    · rw [List.mem_singleton.mp hj]
      assumption
    · cases hj
  unfold successors at h
  dsimp only at h
  split at h
  · cases h
  · cases h
  · exact (mem_inRange.mp h).2
  · split at h
    · split at h
      · rcases List.mem_append.mp h with h | h
        · exact hfall h
        · exact (mem_inRange.mp h).2
      · exact hfall h
    · exact hfall h

/-- A known edge. -/
def KnownEdge (insns : List BpfInsn) (i j : Nat) : Prop := j ∈ successors insns i

theorem knownEdge_left (h : KnownEdge insns i j) : i < insns.length := by
  by_contra hge
  rw [KnownEdge, successors, List.getElem?_eq_none (by omega)] at h
  cases h

/-- What is live is reached from the entry over known edges. -/
theorem mem_reachable : i ∈ reachable insns none ↔
    0 < insns.length ∧ Relation.ReflTransGen (KnownEdge insns) 0 i := by
  rw [reachable, Worklist.mem_reach List.nodup_range, List.mem_range]
  have hedge : Worklist.Edge (List.range insns.length) (edgesBut insns none) = KnownEdge insns := by
    funext a b
    simp only [Worklist.Edge, edgesBut, KnownEdge, eq_iff_iff, List.mem_filter, List.mem_range]
    exact ⟨fun h => h.1.1, fun h => ⟨⟨h, by simp⟩, successors_lt h⟩⟩
  rw [hedge]

theorem mem_predecessors : j ∈ predecessors insns i ↔ KnownEdge insns j i := by
  simp only [predecessors, List.mem_flatMap, List.mem_range, List.mem_map, List.mem_filter, decide_eq_true_eq]
  constructor
  · rintro ⟨x, -, y, ⟨hy, rfl⟩, rfl⟩
    exact hy
  · intro h
    exact ⟨j, knownEdge_left h, i, ⟨h, rfl⟩, rfl⟩

/-- What a slice finds is what leads to the anchor over known edges. -/
theorem mem_backwardReachable {anchor : Nat} : i ∈ backwardReachable insns anchor ↔
    anchor < insns.length ∧ Relation.ReflTransGen (KnownEdge insns) i anchor := by
  rw [backwardReachable, Worklist.mem_reach List.nodup_range, List.mem_range]
  have hedge : Worklist.Edge (List.range insns.length) (predecessors insns) = Function.swap (KnownEdge insns) := by
    funext a b
    simp only [Worklist.Edge, eq_iff_iff, mem_predecessors, List.mem_range, Function.swap]
    exact ⟨fun h => h.1, fun h => ⟨h, knownEdge_left h⟩⟩
  rw [hedge, Relation.reflTransGen_swap]

end Found

/-! ## What a candidate is -/

section Candidates

variable {bytes out : List UInt8} {insns : List BpfInsn} {len i : Nat} {keep : Nat → Bool}

theorem decode_some : decode bytes = some insns ↔
    bytes ≠ [] ∧ bytes.length % 8 = 0 ∧ decodeProgram bytes = .ok insns := by
  unfold decode
  split
  · rename_i h
    simp only [reduceCtorEq, false_iff]
    tauto
  · rename_i h
    rw [not_or, not_not] at h
    cases hd : decodeProgram bytes with
    | error e => simp [Except.toOption]
    | ok insns' => simp [Except.toOption, h]

theorem mem_others : i ∈ others len keep ↔ i < len ∧ keep i = false := by
  simp only [others, List.mem_filter, List.mem_range, Bool.not_eq_true']

theorem asCandidate_some {r : Except Fixup.Stop (List UInt8)} : asCandidate r = .ok (some out) ↔ r = .ok out := by
  rcases r with (_ | _) | out' <;> simp [asCandidate]

theorem asCandidate_returns {r : Except Fixup.Stop (List UInt8)} (h : r ≠ .error .unreachable) :
    ∃ c, asCandidate r = .ok c := by
  rcases r with (_ | _) | out
  · exact ⟨_, rfl⟩
  · exact absurd rfl h
  · exact ⟨_, rfl⟩

theorem deleteOthers_some : deleteOthers bytes len keep = .ok (some out) ↔
    others len keep ≠ [] ∧ deleteInsns bytes (others len keep) = .ok out := by
  unfold deleteOthers
  split
  · rename_i h
    simp [h]
  · rename_i h
    rw [asCandidate_some]
    exact ⟨fun hdel => ⟨h, hdel⟩, fun hdel => hdel.2⟩

/-- What dead-code elimination deletes. -/
theorem deadCode_some : deadCode bytes = .ok (some out) ↔ ∃ insns, decode bytes = some insns ∧
    others insns.length (live insns) ≠ [] ∧ deleteInsns bytes (others insns.length (live insns)) = .ok out := by
  unfold deadCode
  cases decode bytes with
  | none => simp
  | some insns => simp [deleteOthers_some]

/-- What a slice deletes. -/
theorem sliceToAnchor_some {anchor : Option Nat} : sliceToAnchor bytes anchor = .ok (some out) ↔
    ∃ insns a, decode bytes = some insns ∧ anchor = some a ∧ a < insns.length ∧
      others insns.length (sliceKeeps insns a) ≠ [] ∧
      deleteInsns bytes (others insns.length (sliceKeeps insns a)) = .ok out := by
  unfold sliceToAnchor
  cases decode bytes with
  | none => simp
  | some insns =>
    cases anchor with
    | none => simp
    | some a =>
      dsimp only
      split
      · rename_i h
        simp only [Except.ok.injEq, reduceCtorEq, false_iff, not_exists]
        rintro insns' a' ⟨hi, ha, hlt, -⟩
        cases hi
        cases ha
        omega
      · rename_i h
        rw [deleteOthers_some]
        constructor
        · intro hdel
          exact ⟨insns, a, rfl, rfl, by omega, hdel⟩
        · rintro ⟨insns', a', hi, ha, -, hdel⟩
          cases hi
          cases ha
          exact hdel

/-- A deletion of something is shorter. -/
theorem deleted_shorter {removed : List Nat} (h : deleteInsns bytes removed = .ok out) (hi : i ∈ removed) :
    out.length < bytes.length := by
  obtain ⟨insns, slots, hdel, -⟩ := deleteInsns_ok.mp h
  have hlt := hdel.inside i hi
  have hn := decodeProgram_length hdel.decodes
  have hlen := deleteInsns_length h
  have h1 := @newPos_le removed 0 i (Nat.zero_le _)
  have h2 := @newPos_le removed (i + 1) (bytes.length / 8) (by omega)
  have h0 : newPos removed 0 = 0 := rfl
  rw [newPos_removed hi] at h2
  omega

theorem deleteOthers_shorter (h : deleteOthers bytes len keep = .ok (some out)) : out.length < bytes.length := by
  obtain ⟨hne, hdel⟩ := deleteOthers_some.mp h
  obtain ⟨i, hi⟩ := List.exists_mem_of_ne_nil _ hne
  exact deleted_shorter hdel hi

theorem deadCode_shorter (h : deadCode bytes = .ok (some out)) : out.length < bytes.length := by
  obtain ⟨insns, -, hne, hdel⟩ := deadCode_some.mp h
  exact deleteOthers_shorter (deleteOthers_some.mpr ⟨hne, hdel⟩)

theorem sliceToAnchor_shorter {anchor : Option Nat} (h : sliceToAnchor bytes anchor = .ok (some out)) :
    out.length < bytes.length := by
  obtain ⟨insns, a, -, -, -, hne, hdel⟩ := sliceToAnchor_some.mp h
  exact deleteOthers_shorter (deleteOthers_some.mpr ⟨hne, hdel⟩)

/-- A branch with a dead side becomes a jump, or is deleted. -/
inductive Simplified (bytes : List UInt8) (insns : List BpfInsn) (out : List UInt8) : Prop where
  | jump {pc : Nat} {insn : BpfInsn} {o : Int16} (hget : insns[pc]? = some insn)
      (hcond : insn.isConditionalBranch = true) (hoff : Fixup.branchOffset insn = some o)
      (hout : encodeProgram (insns.set pc (.jmp o)) = some out)
  | delete {pc : Nat} (hout : deleteInsns bytes [pc] = .ok out)

theorem simplifyDeadSide_mem {cands : List (List UInt8)} (hdec : decode bytes = some insns)
    (h : simplifyDeadSide bytes = .ok cands) (hmem : out ∈ cands) : Simplified bytes insns out := by
  unfold simplifyDeadSide at h
  rw [hdec] at h
  obtain ⟨pc, insn, here, hget, hhere, hin⟩ := forInsns_mem h hmem
  rw [Nat.zero_add] at hhere
  unfold deadSides at hhere
  split at hhere
  · rename_i hcond
    split at hhere
    · cases hhere
      cases hin
    · rename_i o hoff
      split at hhere
      · cases hhere
        cases hin
      · obtain ⟨jumps, hjumps, hhere⟩ := bind_eq_ok.mp hhere
        obtain ⟨falls, hfalls, hhere⟩ := bind_eq_ok.mp hhere
        cases hhere
        rcases List.mem_append.mp hin with hin | hin
        · unfold alwaysJumps at hjumps
          split at hjumps
          · split at hjumps
            · cases hjumps
            · rename_i out' hout
              cases hjumps
              rw [List.mem_singleton.mp hin]
              exact .jump hget hcond hoff hout
          · cases hjumps
            cases hin
        · unfold neverJumps at hfalls
          split at hfalls
          · cases hdel : asCandidate (deleteInsns bytes [pc]) with
            | error e =>
              rw [hdel] at hfalls
              cases hfalls
            | ok c =>
              rw [hdel] at hfalls
              cases hfalls
              cases c with
              | none => cases hin
              | some out' =>
                rw [List.mem_singleton.mp hin]
                exact .delete (asCandidate_some.mp hdel)
          · cases hfalls
            cases hin
  · cases hhere
    cases hin

/-! ## The passes return -/

variable (henc : ∀ insns, decodeProgram bytes = .ok insns → ∀ insn ∈ insns, (encode insn).isSome = true)

include henc

theorem deleteOthers_returns : ∃ c, deleteOthers bytes len keep = .ok c := by
  unfold deleteOthers
  split
  · exact ⟨_, rfl⟩
  · exact asCandidate_returns (deleteInsns_unreachable henc)

theorem deadCode_returns : ∃ c, deadCode bytes = .ok c := by
  unfold deadCode
  cases decode bytes with
  | none => exact ⟨_, rfl⟩
  | some insns => exact deleteOthers_returns henc

theorem sliceToAnchor_returns (anchor : Option Nat) : ∃ c, sliceToAnchor bytes anchor = .ok c := by
  unfold sliceToAnchor
  cases decode bytes with
  | none => exact ⟨_, rfl⟩
  | some insns =>
    cases anchor with
    | none => exact ⟨_, rfl⟩
    | some a =>
      dsimp only
      split
      · exact ⟨_, rfl⟩
      · exact deleteOthers_returns henc

theorem simplifyDeadSide_returns : ∃ cands, simplifyDeadSide bytes = .ok cands := by
  unfold simplifyDeadSide
  cases hdec : decode bytes with
  | none => exact ⟨_, rfl⟩
  | some insns =>
    have hall := henc insns (decode_some.mp hdec).2.2
    refine forInsns_returns fun pc insn _ => ?_
    have hjumps : ∀ o, ∃ jumps, alwaysJumps insns pc o = .ok jumps := by
      intro o
      obtain ⟨chunks, hchunks⟩ := @mapM_encode_returns (insns.set pc (.jmp o)) fun insn' hin => by
        rcases List.mem_or_eq_of_mem_set hin with hin | rfl
        · exact hall insn' hin
        · rfl
      unfold alwaysJumps
      split
      · rw [encodeProgram, hchunks]
        exact ⟨_, rfl⟩
      · exact ⟨_, rfl⟩
    have hfalls : ∀ target, ∃ falls, neverJumps bytes insns pc target = .ok falls := by
      intro target
      unfold neverJumps
      split
      · obtain ⟨c, hc⟩ := asCandidate_returns (@deleteInsns_unreachable bytes [pc] henc)
        exact ⟨c.toList, by rw [hc]; rfl⟩
      · exact ⟨_, rfl⟩
    unfold deadSides
    split
    · split
      · exact ⟨_, rfl⟩
      · rename_i o _
        split
        · exact ⟨_, rfl⟩
        · rename_i target _ _
          obtain ⟨jumps, hj⟩ := hjumps o
          obtain ⟨falls, hf⟩ := hfalls target
          exact ⟨jumps ++ falls, by rw [hj, hf]; rfl⟩
    · exact ⟨_, rfl⟩

end Candidates

end Reduce

end RandVerifier
