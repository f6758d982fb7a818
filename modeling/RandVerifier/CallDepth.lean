/-
  RandVerifier.CallDepth — the stack budget of the call chains (`check_combined_stack_depth`
  of `src/cfg.rs`).

  Every static call chain from the main program is walked: no subprogram twice, at most 16
  frames, and the direct stack use of the frames within 512 bytes together.

  Proved:
  - `visitChain_call`: a walked subprogram had all its calls walked, none of them to a
    subprogram that is already on the chain.
-/

import RandVerifier.Cfg

namespace RandVerifier

/-- The stack bytes an access through R10 uses, in whole slots. -/
def accessDepth : BpfInsn → Nat
  | .ldMem _ base offset size _ | .stMem _ base offset size | .stMemImm _ base offset size =>
    if base = 10 then ((-offset.toInt + size.bytes).toNat + 7) / 8 * 8 else 0
  | _ => 0

/-- The direct stack use of the subprogram `[start, stop)`. -/
def subprogDepth (insns : List BpfInsn) (start stop : Nat) : Nat :=
  (List.range' start (stop - start)).foldl
    (fun depth pc => max depth ((insns[pc]?.map accessDepth).getD 0)) 0

/-- Static stack usage per subprogram from direct R10-based accesses. -/
def directStackDepths (insns : List BpfInsn) (subprogs : List Nat) : List Nat :=
  subprogs.mapIdx fun i start => subprogDepth insns start ((subprogs[i + 1]?).getD insns.length)

/-- The calls in `[start, stop)` with their targets, computed in `i32`. -/
def callsIn (insns : List BpfInsn) (start stop : Nat) : List (Nat × Int) :=
  (List.range' start (stop - start)).filterMap fun pc =>
    match (insns[pc]? : Option BpfInsn) with
    | some (.callSub offset) => some (pc, wrapI32 (pc + 1 + offset.toInt))
    | _ => none

/-- Walk the call chains from the subprogram `idx`, the last of `chain`. A chain has at most
    16 frames, so fuel for as many calls is never used up. -/
def visitChain (insns : List BpfInsn) (subprogs depth : List Nat) : Nat → Nat → List Nat → Exec Unit
  | 0, _, _ => .error .panic
  | fuel + 1, idx, chain =>
    let (start, stop) := findSubprogRange (subprogs.getD idx 0) subprogs insns.length
    (callsIn insns start stop).forM fun (pc, target) =>
      match subprogs.findIdx? fun (start : Nat) => decide (wrapI32 start = target) with
      | none => .ok ()
      | some callee =>
        let longer := chain ++ [callee]
        let total := (longer.map fun c => depth.getD c 0).sum
        if callee ∈ chain then
          fail pc s!"recursive subprogram call to entry {subprogs.getD callee 0}"
        else if maxCallFrames < longer.length then
          fail pc s!"the call stack of {longer.length - 1} frames is too deep"
        else if stackSize < total then
          fail pc s!"combined stack size of {longer.length} calls is {total}. Too large"
        else visitChain insns subprogs depth fuel callee longer

/-- Each subprogram's static stack usage, summed along every call chain. -/
def checkCombinedStackDepth (insns : List BpfInsn) (subprogs : List Nat) : Exec Unit :=
  visitChain insns subprogs (directStackDepths insns subprogs) maxCallFrames 0 [0]

/-! ## Walked subprograms -/

theorem forM_eq_ok {α : Type} {l : List α} {f : α → Exec Unit} {u : Unit} :
    l.forM f = .ok u ↔ ∀ x ∈ l, f x = .ok () := by
  induction l with
  | nil => exact ⟨fun _ => nofun, fun _ => rfl⟩
  | cons x rest ih =>
    show (f x >>= fun _ => rest.forM f) = .ok u ↔ _
    rw [bind_eq_ok]
    constructor
    · rintro ⟨⟨⟩, hx, hrest⟩ y hy
      rcases List.mem_cons.mp hy with rfl | hy
      · exact hx
      · exact ih.mp hrest y hy
    · intro h
      exact ⟨(), h x List.mem_cons_self, ih.mpr fun y hy => h y (List.mem_cons_of_mem _ hy)⟩

variable {insns : List BpfInsn} {subprogs depth : List Nat}

theorem mem_callsIn {start stop pc : Nat} {target : Int} :
    (pc, target) ∈ callsIn insns start stop ↔ start ≤ pc ∧ pc < stop ∧
      ∃ offset, insns[pc]? = some (.callSub offset) ∧ target = wrapI32 (pc + 1 + offset.toInt) := by
  unfold callsIn
  rw [List.mem_filterMap]
  constructor
  · rintro ⟨i, hi, hsome⟩
    rw [List.mem_range'_1] at hi
    split at hsome
    · rename_i offset hget
      cases hsome
      exact ⟨hi.1, by omega, offset, hget, rfl⟩
    · cases hsome
  · rintro ⟨hstart, hstop, offset, hget, rfl⟩
    refine ⟨pc, List.mem_range'_1.mpr ⟨hstart, by omega⟩, ?_⟩
    rw [hget]

/-- The calls of a walked subprogram lead to other subprograms than those of the chain,
    and these were walked too. -/
theorem visitChain_call {fuel idx : Nat} {chain : List Nat} {u : Unit}
    (h : visitChain insns subprogs depth fuel idx chain = .ok u) {pc callee : Nat} {offset : Int32}
    (hstart : (findSubprogRange (subprogs.getD idx 0) subprogs insns.length).1 ≤ pc)
    (hstop : pc < (findSubprogRange (subprogs.getD idx 0) subprogs insns.length).2)
    (hget : insns[pc]? = some (.callSub offset))
    (hcallee : subprogs.findIdx? (fun (start : Nat) =>
      decide (wrapI32 start = wrapI32 (pc + 1 + offset.toInt))) = some callee) :
    callee ∉ chain ∧ ∃ fuel', visitChain insns subprogs depth fuel' callee (chain ++ [callee]) = .ok () := by
  cases fuel with
  | zero => cases h
  | succ fuel =>
    unfold visitChain at h
    have hcall := forM_eq_ok.mp h _ (mem_callsIn.mpr ⟨hstart, hstop, offset, hget, rfl⟩)
    dsimp only at hcall
    rw [hcallee] at hcall
    dsimp only at hcall
    by_cases hmem : callee ∈ chain
    · rw [if_pos hmem] at hcall
      exact (fail_ne_ok.mp hcall).elim
    · rw [if_neg hmem] at hcall
      refine ⟨hmem, fuel, ?_⟩
      split at hcall
      · exact (fail_ne_ok.mp hcall).elim
      · split at hcall
        · exact (fail_ne_ok.mp hcall).elim
        · exact hcall

end RandVerifier
