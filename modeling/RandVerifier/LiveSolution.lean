/-
  RandVerifier.LiveSolution — what the liveness pass computes (`analyze` of `src/liveness.rs`).

  The live masks of a program are meant to be the least solution of
  `in(pc) = use(pc) ∪ (⋃ in(s) over static_successors(pc) \ def(pc))`, one such system for the
  registers and one for the stack slots. Both are one system of monotone equations over the
  masks of an instruction (`liveSystem`), which the pass solves one instruction at a time.

  - `livePass_eq`: a pass of the source is a run over the instructions in order.
  - `masks_solution`, `masks_least`: the masks it ends with solve the equations, and lie below
    every other solution.
  - `order_passes`, `schedule_end`: passes in another order, and any visits that end where
    nothing changes, end at the same masks.
-/

import RandVerifier.CfgSound
import RandVerifier.Chaotic
import RandVerifier.StructuralPasses

namespace RandVerifier

open Chaotic

/-! ## Masks as an order -/

instance : PartialOrder LiveMasks where
  le := LiveMasks.Le
  le_refl := LiveMasks.Le.refl
  le_trans := fun _ _ _ => LiveMasks.Le.trans
  le_antisymm := by
    intro x y h h'
    cases x
    cases y
    simp only [LiveMasks.mk.injEq]
    exact ⟨h.inRegs.antisymm h'.inRegs, h.outRegs.antisymm h'.outRegs, h.inSlots.antisymm h'.inSlots,
      h.outSlots.antisymm h'.outSlots⟩

instance : OrderBot LiveMasks where
  bot := .empty
  bot_le := LiveMasks.Le.empty

theorem LiveMasks.rank_strictMono : StrictMono LiveMasks.rank :=
  fun _ _ h => LiveMasks.Le.rank_lt h.le h.ne

/-! ## The equations -/

/-- The union of the masks of some instructions. -/
def unionOver {w : Nat} (succs : List Nat) (live : Nat → BitVec w) : BitVec w :=
  succs.foldl (fun m s => m ||| live s) 0

/-- `in(pc) = use(pc) ∪ (⋃ in(s) over static_successors(pc) \ def(pc))`. -/
def Dataflow {w : Nat} (uses defs : BpfInsn → BitVec w) (program : List BpfInsn) (live : Nat → BitVec w) : Prop :=
  ∀ pc insn, program[pc]? = some insn →
    live pc = uses insn ||| (unionOver (staticSuccessors pc program) live &&& ~~~ defs insn)

def RegsLive (program : List BpfInsn) : (Nat → RegMask) → Prop :=
  Dataflow (fun insn => (useDef insn).useRegs) (fun insn => (useDef insn).defRegs) program

def SlotsLive (program : List BpfInsn) : (Nat → SlotMask) → Prop :=
  Dataflow (fun insn => (useDef insn).readSlots) (fun insn => (useDef insn).writeSlots) program

/-- `transfer` on masks given by a function. -/
def transferOf (x : Nat → LiveMasks) (ud : InsnUseDef) (succs : List Nat) : LiveMasks where
  inRegs := (unionOver succs (fun s => (x s).inRegs) &&& ~~~ ud.defRegs) ||| ud.useRegs
  outRegs := unionOver succs fun s => (x s).inRegs
  inSlots := (unionOver succs (fun s => (x s).inSlots) &&& ~~~ ud.writeSlots) ||| ud.readSlots
  outSlots := unionOver succs fun s => (x s).inSlots

theorem transferOf_mono {x y : Nat → LiveMasks} (h : x ≤ y) (ud : InsnUseDef) (succs : List Nat) :
    transferOf x ud succs ≤ transferOf y ud succs where
  inRegs := defUse_mono (union_mono (fun s => (h s).inRegs) succs) _ _
  outRegs := union_mono (fun s => (h s).inRegs) succs
  inSlots := defUse_mono (union_mono (fun s => (h s).inSlots) succs) _ _
  outSlots := union_mono (fun s => (h s).inSlots) succs

/-- The equations of a program. -/
def liveSystem (program : List BpfInsn) : System Nat LiveMasks where
  nodes := Finset.range program.length
  step i x := match program[i]? with
    | none => ⊥
    | some insn => transferOf x (useDef insn) (staticSuccessors i program)
  mono := by
    intro i x y h
    dsimp only
    cases program[i]? with
    | none => exact le_refl _
    | some insn => exact transferOf_mono h _ _

section System

variable {program : List BpfInsn} {x : Nat → LiveMasks}

theorem liveSystem_step {i : Nat} {insn : BpfInsn} (hget : program[i]? = some insn) :
    (liveSystem program).step i x = transferOf x (useDef insn) (staticSuccessors i program) := by
  simp only [liveSystem, hget]

/-- The masks before the instructions solve both systems. -/
theorem solution_flows (h : (liveSystem program).Solution x) :
    RegsLive program (fun pc => (x pc).inRegs) ∧ SlotsLive program (fun pc => (x pc).inSlots) := by
  have heq : ∀ pc insn, program[pc]? = some insn →
      x pc = transferOf x (useDef insn) (staticSuccessors pc program) := by
    intro pc insn hget
    rw [← liveSystem_step hget]
    exact h pc (Finset.mem_range.mpr (List.getElem?_eq_some_iff.mp hget).1)
  constructor
  · intro pc insn hget
    exact (congrArg LiveMasks.inRegs (heq pc insn hget)).trans (BitVec.or_comm _ _)
  · intro pc insn hget
    exact (congrArg LiveMasks.inSlots (heq pc insn hget)).trans (BitVec.or_comm _ _)

/-- Solutions for the registers and for the slots make one of both. -/
theorem flows_solution {regs : Nat → RegMask} {slots : Nat → SlotMask} (hregs : RegsLive program regs)
    (hslots : SlotsLive program slots) :
    (liveSystem program).Solution fun pc =>
      ⟨regs pc, unionOver (staticSuccessors pc program) regs, slots pc,
        unionOver (staticSuccessors pc program) slots⟩ := by
  intro pc hpc
  have hget := List.getElem?_eq_getElem (Finset.mem_range.mp hpc)
  rw [liveSystem_step hget]
  simp only [transferOf, LiveMasks.mk.injEq, and_true, true_and]
  exact ⟨(hregs pc _ hget).trans (BitVec.or_comm _ _), (hslots pc _ hget).trans (BitVec.or_comm _ _)⟩

end System

/-! ## Visits on lists -/

/-- The masks of one instruction are recomputed. -/
def liveVisit (program : List BpfInsn) (ms : List LiveMasks) (i : Nat) : List LiveMasks :=
  match program[i]? with
  | none => ms
  | some insn => ms.set i (transfer ms (useDef insn) (staticSuccessors i program))

/-- A pass over instructions in the order of a list. -/
def livePassIn (program : List BpfInsn) (order : List Nat) (ms : List LiveMasks) : List LiveMasks :=
  order.foldl (liveVisit program) ms

def liveStart (program : List BpfInsn) : List LiveMasks := List.replicate program.length .empty

/-- The pass of the source takes the instructions in order. -/
theorem livePass_eq (program : List BpfInsn) : livePass program = livePassIn program (List.range program.length) := by
  funext ms
  have hrange : List.range program.length = program.zipIdx.map Prod.snd := by
    rw [List.zipIdx_map_snd, List.range_eq_range']
  unfold livePass livePassIn
  rw [hrange, List.foldl_map]
  refine List.foldl_ext _ _ _ fun ms x hx => ?_
  simp only [liveVisit, List.mem_zipIdx_iff_getElem?.mp hx]

/-- The masks of a list by instruction. -/
def masksAt (ms : List LiveMasks) (i : Nat) : LiveMasks := ms.getD i .empty

section Lists

variable {program : List BpfInsn} {ms ms' : List LiveMasks} {order : List Nat}

theorem masksAt_start (program : List BpfInsn) : masksAt (liveStart program) = ⊥ := by
  funext i
  unfold masksAt liveStart
  rw [List.getD_eq_getElem?_getD, List.getElem?_replicate]
  split <;> rfl

theorem masksAt_inj (hlen : ms.length = ms'.length) (h : masksAt ms = masksAt ms') : ms = ms' := by
  refine List.ext_getElem hlen fun i hi hi' => ?_
  have := congrFun h i
  unfold masksAt at this
  rwa [List.getD_eq_getElem _ _ hi, List.getD_eq_getElem _ _ hi'] at this

theorem liveVisit_length (i : Nat) : (liveVisit program ms i).length = ms.length := by
  unfold liveVisit
  cases program[i]? with
  | none => rfl
  | some insn => exact List.length_set

theorem masksAt_visit (hlen : ms.length = program.length) {i : Nat} (hi : i < program.length) :
    masksAt (liveVisit program ms i) = (liveSystem program).visit (masksAt ms) i := by
  have hget := List.getElem?_eq_getElem hi
  funext j
  rw [System.visit, liveSystem_step hget]
  simp only [liveVisit, hget]
  by_cases hj : j = i
  · subst hj
    rw [Function.update_self]
    exact getD_set_self _ (by omega)
  · rw [Function.update_of_ne hj]
    exact getD_set_ne _ (Ne.symm hj)

/-- A pass over a list of masks is a run of the equations. -/
theorem livePassIn_run (hlen : ms.length = program.length) (horder : ∀ i ∈ order, i < program.length) :
    (livePassIn program order ms).length = program.length ∧
      masksAt (livePassIn program order ms) = (liveSystem program).run order (masksAt ms) := by
  unfold livePassIn System.run
  induction order generalizing ms with
  | nil => exact ⟨hlen, rfl⟩
  | cons i rest ih =>
    have hi := horder i List.mem_cons_self
    have hvisit : (liveVisit program ms i).length = program.length := (liveVisit_length i).trans hlen
    obtain ⟨hlen', hrun⟩ := ih hvisit fun j hj => horder j (List.mem_cons_of_mem _ hj)
    rw [List.foldl_cons, List.foldl_cons, ← masksAt_visit hlen hi]
    exact ⟨hlen', hrun⟩

theorem iterate_masks (horder : ∀ i ∈ order, i < program.length) (k : Nat) :
    ((livePassIn program order)^[k] (liveStart program)).length = program.length ∧
      masksAt ((livePassIn program order)^[k] (liveStart program)) = ((liveSystem program).run order)^[k] ⊥ := by
  induction k with
  | zero => exact ⟨List.length_replicate, masksAt_start program⟩
  | succ k ih =>
    obtain ⟨hlen, hmasks⟩ := ih
    rw [Function.iterate_succ_apply', Function.iterate_succ_apply', ← hmasks]
    exact livePassIn_run hlen horder

end Lists

/-! ## The end of the passes -/

section Ends

variable {program : List BpfInsn} {order schedule : List Nat} {ms : List LiveMasks}

/-- Visits from the empty masks that end where the equations hold end in the least solution. -/
theorem iterate_least (horder : ∀ i ∈ order, i < program.length) {k : Nat}
    (h : (liveSystem program).Solution (masksAt ((livePassIn program order)^[k] (liveStart program)))) :
    IsLeast {y | (liveSystem program).Solution y} (masksAt ((livePassIn program order)^[k] (liveStart program))) := by
  have hwithin : (liveSystem program).Within order := fun i hi => Finset.mem_range.mpr (horder i hi)
  rw [(iterate_masks horder k).2, System.iterate_run] at h ⊢
  exact System.run_isLeast (hwithin.replicate k) h

/-- Passes in any order end at a solution, after as many passes as the masks have bits. -/
theorem order_passes (horder : ∀ i, i ∈ order ↔ i < program.length) :
    ∃ k ≤ program.length * 160,
      (livePassIn program order)^[k + 1] (liveStart program) = (livePassIn program order)^[k] (liveStart program) ∧
      (liveSystem program).Solution (masksAt ((livePassIn program order)^[k] (liveStart program))) := by
  have hin : ∀ i ∈ order, i < program.length := fun i hi => (horder i).mp hi
  have hwithin : (liveSystem program).Within order := fun i hi => Finset.mem_range.mpr (hin i hi)
  have hbits : (liveSystem program).nodes.card * 160 ≤
      program.length * 160 + System.totalRank (liveSystem program) LiveMasks.rank ⊥ := by
    show (Finset.range program.length).card * 160 ≤ _
    rw [Finset.card_range]
    exact Nat.le_add_right _ _
  obtain ⟨k, hk, hstop⟩ :=
    System.passes_stop LiveMasks.rank_strictMono LiveMasks.rank_le hwithin System.ascending_bot hbits
  obtain ⟨hlen, hmasks⟩ := iterate_masks hin k
  obtain ⟨hlen', hmasks'⟩ := iterate_masks hin (k + 1)
  refine ⟨k, hk, masksAt_inj (hlen'.trans hlen.symm) (hmasks'.trans (hstop.trans hmasks.symm)), ?_⟩
  have hascending : (liveSystem program).Ascending (((liveSystem program).run order)^[k] ⊥) := by
    rw [System.iterate_run]
    exact (System.ascending_bot.run (hwithin.replicate k)).1
  rw [hmasks]
  refine System.pass_solution hascending (fun i => (horder i).trans Finset.mem_range.symm) ?_
  rw [← Function.iterate_succ_apply' (f := (liveSystem program).run order)]
  exact hstop

/-- Masks that no visit changes solve the equations. -/
theorem stable_solution (hlen : ms.length = program.length)
    (h : ∀ i < program.length, liveVisit program ms i = ms) : (liveSystem program).Solution (masksAt ms) := by
  intro i hi
  have hlt := Finset.mem_range.mp hi
  have hvisit := congrFun (masksAt_visit hlen hlt) i
  rw [h i hlt, System.visit, Function.update_self] at hvisit
  exact hvisit

theorem solution_stable (hlen : ms.length = program.length) (h : (liveSystem program).Solution (masksAt ms)) :
    ∀ i < program.length, liveVisit program ms i = ms := by
  intro i hi
  refine masksAt_inj (liveVisit_length i) ?_
  rw [masksAt_visit hlen hi, System.visit, ← h i (Finset.mem_range.mpr hi), Function.update_eq_self]

/-- A solution for the registers lies above the least solution of both. -/
theorem regs_least {x : Nat → LiveMasks} (hleast : IsLeast {y | (liveSystem program).Solution y} x)
    {regs : Nat → RegMask} (hregs : RegsLive program regs) (pc : Nat) : BitsLe (x pc).inRegs (regs pc) :=
  (hleast.2 (flows_solution hregs (solution_flows hleast.1).2) pc).inRegs

theorem slots_least {x : Nat → LiveMasks} (hleast : IsLeast {y | (liveSystem program).Solution y} x)
    {slots : Nat → SlotMask} (hslots : SlotsLive program slots) (pc : Nat) : BitsLe (x pc).inSlots (slots pc) :=
  (hleast.2 (flows_solution (solution_flows hleast.1).1 hslots) pc).inSlots

/-- The loop of the source stops where the passes do. -/
theorem analyze_masks {l : Liveness} (h : analyze program = .ok l) {k : Nat} (hk : k ≤ program.length * 160)
    (hstop : (livePass program)^[k + 1] (liveStart program) = (livePass program)^[k] (liveStart program)) :
    l.masks = (livePass program)^[k] (liveStart program) := by
  unfold analyze at h
  dsimp only at h
  split at h
  · cases h
    dsimp only
    rw [liveLoop_eq]
    exact settle_iterate hstop (by omega)
  · cases h

end Ends

/-! ## Accepted programs -/

section Accepted

variable {program : List BpfInsn} {subprogs heads : List Nat} {fuel : Nat}

theorem checkCfg_ends (h : checkCfg fuel program subprogs = some (.ok heads)) : EndsChecked program subprogs := by
  unfold checkCfg at h
  split at h
  · exact (fail_ne_ok.mp (Option.some.inj h)).elim
  · split at h
    · cases h
    · rename_i hends
      exact checkSubprogEnds_eq_ok.mp hends

/-- The last instruction of an accepted program is no call. -/
theorem checkCfg_returnsInside (hsub : addSubprog program = .ok subprogs)
    (h : checkCfg fuel program subprogs = some (.ok heads)) : ReturnsInside program := by
  intro i offset _ hexit hlast
  have hnil : program ≠ [] := List.ne_nil_of_mem (List.mem_of_getElem? hexit)
  have hne : subprogs ≠ [] := List.ne_nil_of_mem (addSubprog_range hnil hsub).2
  have := callSite_range hne (checkCfg_ends h) hlast
  omega

/-- The masks that the liveness pass returns: where its passes stop, the least solution of the
    equations, whatever the order of the visits. -/
structure LeastLive (program : List BpfInsn) (l : Liveness) : Prop where
  stops : ∃ k ≤ program.length * 160,
    (livePass program)^[k + 1] (liveStart program) = (livePass program)^[k] (liveStart program) ∧
      l.masks = (livePass program)^[k] (liveStart program)
  stable : ∀ i < program.length, liveVisit program l.masks i = l.masks
  regs : RegsLive program l.liveRegsBefore
  slots : SlotsLive program l.liveStackBefore
  leastRegs : ∀ regs, RegsLive program regs → ∀ pc, BitsLe (l.liveRegsBefore pc) (regs pc)
  leastSlots : ∀ slots, SlotsLive program slots → ∀ pc, BitsLe (l.liveStackBefore pc) (slots pc)
  anyOrder : ∀ order, (∀ i, i ∈ order ↔ i < program.length) → ∃ k ≤ program.length * 160,
    (livePassIn program order)^[k + 1] (liveStart program) = (livePassIn program order)^[k] (liveStart program) ∧
      l.masks = (livePassIn program order)^[k] (liveStart program)
  anySchedule : ∀ schedule, (∀ i ∈ schedule, i < program.length) →
    (∀ i < program.length, liveVisit program (livePassIn program schedule (liveStart program)) i =
      livePassIn program schedule (liveStart program)) →
    l.masks = livePassIn program schedule (liveStart program)

theorem leastLive {l : Liveness} (h : analyze program = .ok l) : LeastLive program l := by
  have hrange : ∀ i, i ∈ List.range program.length ↔ i < program.length := fun i => List.mem_range
  obtain ⟨k, hk, hstop, hsolution⟩ := order_passes hrange
  rw [← livePass_eq] at hstop hsolution
  have hmasks := analyze_masks h hk hstop
  have hleast : IsLeast {y | (liveSystem program).Solution y} (masksAt l.masks) := by
    rw [hmasks, livePass_eq]
    rw [livePass_eq] at hsolution
    exact iterate_least (fun i hi => (hrange i).mp hi) hsolution
  have hlen : l.masks.length = program.length := by
    rw [hmasks, livePass_eq]
    exact (iterate_masks (fun i hi => (hrange i).mp hi) k).1
  -- least solutions are equal
  have hsame : ∀ (order : List Nat) (j : Nat), (∀ i ∈ order, i < program.length) →
      (liveSystem program).Solution (masksAt ((livePassIn program order)^[j] (liveStart program))) →
      l.masks = (livePassIn program order)^[j] (liveStart program) := by
    intro order j horder hsol
    exact masksAt_inj (hlen.trans (iterate_masks horder j).1.symm)
      (hleast.unique (iterate_least horder hsol))
  obtain ⟨hregs, hslots⟩ := solution_flows hleast.1
  refine ⟨⟨k, hk, hstop, hmasks⟩, solution_stable hlen hleast.1, hregs, hslots,
    fun regs hregs pc => regs_least hleast hregs pc, fun slots hslots pc => slots_least hleast hslots pc, ?_, ?_⟩
  · intro order horder
    obtain ⟨j, hj, hstop', hsol⟩ := order_passes horder
    exact ⟨j, hj, hstop', hsame order j (fun i hi => (horder i).mp hi) hsol⟩
  · intro schedule hschedule hstable
    exact hsame schedule 1 hschedule
      (stable_solution (iterate_masks hschedule 1).1 hstable)

/-- The liveness pass returns the least solution for every program that `check_cfg` accepts. -/
theorem live_solution (hsub : addSubprog program = .ok subprogs)
    (h : checkCfg fuel program subprogs = some (.ok heads)) :
    ∃ l, analyze program = .ok l ∧ (program.length ≤ maxInsns → analyzeChecked program = .ok l) ∧
      LeastLive program l := by
  obtain ⟨l, hl⟩ := analyze_ok (checkCfg_returnsInside hsub h)
  refine ⟨l, hl, fun hlen => ?_, leastLive hl⟩
  have hfit : ReturnsFit program := fun _ _ _ _ _ hget => addSubprog_fits hlen hsub hget
  rw [analyzeChecked_eq hlen hfit, hl]

/-- A branch around a move. -/
theorem live_solution_branch :
    ∃ l, analyze [.movImm 0 1, .jeqImm 0 1 1, .movImm 0 2, .exit] = .ok l ∧
      (4 ≤ maxInsns → analyzeChecked [.movImm 0 1, .jeqImm 0 1 1, .movImm 0 2, .exit] = .ok l) ∧
      LeastLive [.movImm 0 1, .jeqImm 0 1 1, .movImm 0 2, .exit] l :=
  @live_solution [.movImm 0 1, .jeqImm 0 1 1, .movImm 0 2, .exit] [0] [] 40 (by decide +kernel) (by decide +kernel)

end Accepted

end RandVerifier
