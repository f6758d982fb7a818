/-
  RandVerifier.StackBudget — what `check_combined_stack_depth` of `src/cfg.rs` accepts.

  A call chain is a walk of the call relation between the subprograms from the main program,
  which are numbered as in the sorted list of their starts. `StackFits` is the stack budget: no
  recursion, at most 16 frames, and the deepest bytes that the frames of a chain use, in whole
  slots, within 512 bytes. The pass counts otherwise: a load or store of `size` bytes at
  `r10 + offset` for `size - offset` bytes, an atomic for none, and the main program only
  together with a callee.

  Proved:
  - `visitChain_ok_iff`, `checkCombinedStackDepth_ok_iff`: what the walk of the call chains
    accepts, for its own count;
  - `stack_depth_check`: the pass decides `StackFits` exactly if no offset is -32768 and, for
    programs without recursion and long chains, the two counts agree on the limit;
  - `two_half_frames`: two frames of 256 bytes, which the pass rejects.
-/

import RandVerifier.StructuralPasses
import RandVerifier.Walks
import Mathlib.Order.Lattice.Nat
import Mathlib.Data.Finset.Lattice.Fold

namespace RandVerifier

open Relation

/-! ## Call chains -/

/-- Subprogram `i` calls subprogram `j`. -/
def Calls (insns : List BpfInsn) (subprogs : List Nat) (i j : Nat) : Prop :=
  ∃ pc offset, insns[pc]? = some (.callSub offset) ∧ subprogs[i]? = some (entryOf insns subprogs pc) ∧
    subprogs[j]? = some (callTarget pc offset)

/-- The subprograms `l`, called one by the other, the first one by the main program. -/
def CallChain (insns : List BpfInsn) (subprogs l : List Nat) : Prop :=
  (0 :: l).IsChain (Calls insns subprogs)

/-! ## Stack use -/

/-- The deepest byte that an access through R10 uses. -/
def deepestByte : BpfInsn → Nat
  | .ldMem _ base offset _ _ | .stMem _ base offset _ | .stMemImm _ base offset _
  | .atomic base _ offset _ _ _ => if base = 10 then (-offset.toInt).toNat else 0
  | _ => 0

/-- The bytes that the pass counts for a load or store through R10. -/
def countedBytes : BpfInsn → Nat
  | .ldMem _ base offset size _ | .stMem _ base offset size | .stMemImm _ base offset size =>
    if base = 10 then (-offset.toInt + size.bytes).toNat else 0
  | _ => 0

def roundUp8 (n : Nat) : Nat := (n + 7) / 8 * 8

/-- The most that the instructions of subprogram `i` use, in whole slots. -/
def frameUse (use : BpfInsn → Nat) (insns : List BpfInsn) (subprogs : List Nat) (i : Nat) : Nat :=
  roundUp8 (((Finset.range insns.length).filter fun pc => subprogs[i]? = some (entryOf insns subprogs pc)).sup
    fun pc => (insns[pc]?.map use).getD 0)

/-- The stack use of the main program and the subprograms of a chain. -/
def chainUse (use : BpfInsn → Nat) (insns : List BpfInsn) (subprogs l : List Nat) : Nat :=
  ((0 :: l).map (frameUse use insns subprogs)).sum

/-- No subprogram that is reached calls itself, directly or indirectly. -/
def NoRecursion (insns : List BpfInsn) (subprogs : List Nat) : Prop :=
  ∀ i, ReflTransGen (Calls insns subprogs) 0 i → ¬ TransGen (Calls insns subprogs) i i

def ShortChains (insns : List BpfInsn) (subprogs : List Nat) : Prop :=
  ∀ l, CallChain insns subprogs l → (0 :: l).length ≤ maxCallFrames

/-- The stack budget. -/
structure StackFits (insns : List BpfInsn) (subprogs : List Nat) : Prop where
  recursion : NoRecursion insns subprogs
  frames : ShortChains insns subprogs
  bytes : ∀ l, CallChain insns subprogs l → chainUse deepestByte insns subprogs l ≤ stackSize

/-- The budget by the count of the pass, for chains with a call. -/
def CountedFits (insns : List BpfInsn) (subprogs : List Nat) : Prop :=
  ∀ l, l ≠ [] → CallChain insns subprogs l → chainUse countedBytes insns subprogs l ≤ stackSize

/-! ## The count of the pass -/

section Count

variable {insns : List BpfInsn} {subprogs : List Nat}

theorem roundUp8_zero : roundUp8 0 = 0 := rfl

theorem accessDepth_eq (insn : BpfInsn) : accessDepth insn = roundUp8 (countedBytes insn) := by
  cases insn with
  | ldMem | stMem | stMemImm =>
    simp only [accessDepth, countedBytes]
    split
    · rfl
    · exact roundUp8_zero.symm
  | _ => exact roundUp8_zero.symm

theorem roundUp8_mono : Monotone roundUp8 := by
  intro m n h
  unfold roundUp8
  omega

theorem foldl_max_le {f : Nat → Nat} {l : List Nat} {init b : Nat} :
    l.foldl (fun d x => max d (f x)) init ≤ b ↔ init ≤ b ∧ ∀ x ∈ l, f x ≤ b := by
  induction l generalizing init with
  | nil => simp
  | cons x rest ih => rw [List.foldl_cons, ih, Nat.max_le, List.forall_mem_cons, and_assoc]

/-- The range from a start to the next is its subprogram. -/
theorem entryOf_eq_start (hsub : addSubprog insns = .ok subprogs) {i start pc : Nat} (hi : subprogs[i]? = some start)
    (hlt : pc < insns.length) :
    entryOf insns subprogs pc = start ↔ start ≤ pc ∧ pc < (subprogs[i + 1]?).getD insns.length := by
  have hsorted := addSubprog_sorted hsub
  have hnodup := addSubprog_nodup hsub
  obtain ⟨hilt, hat⟩ := List.getElem?_eq_some_iff.mp hi
  have hmono : ∀ {j k : Nat} (hj : j < subprogs.length) (hk : k < subprogs.length), j < k → subprogs[j] < subprogs[k] := by
    intro j k hj hk hjk
    refine lt_of_le_of_ne (List.pairwise_iff_getElem.mp hsorted j k hj hk hjk) fun heq => ?_
    exact absurd ((List.Nodup.getElem_inj_iff hnodup).mp heq) (by omega)
  rw [subprog_entry_eq hsub]
  constructor
  · rintro ⟨-, hle, hmax⟩
    refine ⟨hle, ?_⟩
    cases hnext : subprogs[i + 1]? with
    | none => exact hlt
    | some next =>
      obtain ⟨hnlt, hnat⟩ := List.getElem?_eq_some_iff.mp hnext
      have hless := hmono hilt hnlt (Nat.lt_succ_self i)
      rw [hat, hnat] at hless
      rw [Option.getD_some]
      by_contra hge
      have := hmax next (List.mem_of_getElem? hnext) (by omega)
      omega
  · rintro ⟨hle, hstop⟩
    refine ⟨List.mem_of_getElem? hi, hle, fun t ht htpc => ?_⟩
    obtain ⟨k, hk, rfl⟩ := List.getElem_of_mem ht
    by_cases hki : k ≤ i
    · rcases Nat.lt_or_eq_of_le hki with hlt' | rfl
      · exact (hat ▸ hmono hk hilt hlt').le
      · exact hat.le
    · have hnlt : i + 1 < subprogs.length := by omega
      rw [List.getElem?_eq_getElem hnlt, Option.getD_some] at hstop
      rcases Nat.lt_or_eq_of_le (show i + 1 ≤ k by omega) with hlt' | rfl
      · have := hmono hnlt hk hlt'
        omega
      · omega

/-- The table of the pass. -/
theorem directStackDepths_getD (hsub : addSubprog insns = .ok subprogs) (i : Nat) :
    (directStackDepths insns subprogs).getD i 0 = frameUse countedBytes insns subprogs i := by
  unfold directStackDepths frameUse
  rw [List.getD_eq_getElem?_getD, List.getElem?_mapIdx]
  cases hi : subprogs[i]? with
  | none =>
    rw [Finset.filter_false_of_mem fun pc _ => nofun, Finset.sup_empty]
    exact roundUp8_zero.symm
  | some start =>
    rw [Option.map_some, Option.getD_some, Finset.apply_sup_eq_sup_comp_of_linearOrder roundUp8 roundUp8_mono roundUp8_zero]
    refine eq_of_forall_ge_iff fun b => ?_
    unfold subprogDepth
    rw [foldl_max_le, Finset.sup_le_iff]
    have hstop : (subprogs[i + 1]?).getD insns.length ≤ insns.length := by
      cases hnext : subprogs[i + 1]? with
      | none => exact Nat.le_refl _
      | some next =>
        have hne : insns ≠ [] := by
          rintro rfl
          cases hsub
          cases hnext
        exact ((addSubprog_range hne hsub).1 next (List.mem_of_getElem? hnext)).le
    have huse : ∀ pc : Nat, (insns[pc]?.map accessDepth).getD 0 = roundUp8 ((insns[pc]?.map countedBytes).getD 0) := by
      intro pc
      cases insns[pc]? with
      | none => rfl
      | some insn => exact accessDepth_eq insn
    constructor
    · rintro ⟨-, h⟩ pc hpc
      obtain ⟨hlt, hentry⟩ := Finset.mem_filter.mp hpc
      rw [Finset.mem_range] at hlt
      obtain ⟨hle, hlast⟩ := (entryOf_eq_start hsub hi hlt).mp (Option.some.inj hentry).symm
      rw [Function.comp_apply, ← huse]
      exact h pc (List.mem_range'_1.mpr ⟨hle, by omega⟩)
    · intro h
      refine ⟨Nat.zero_le _, fun pc hpc => ?_⟩
      obtain ⟨hle, hlast⟩ := List.mem_range'_1.mp hpc
      have hlt : pc < insns.length := by omega
      rw [huse]
      refine h pc (Finset.mem_filter.mpr ⟨Finset.mem_range.mpr hlt, ?_⟩)
      rw [(entryOf_eq_start hsub hi hlt).mpr ⟨hle, by omega⟩]

end Count

/-! ## The walk of the call chains -/

section Walk

variable {insns : List BpfInsn} {subprogs depth : List Nat}

/-- The pass finds a callee by its start. -/
theorem callee_iff (hsub : addSubprog insns = .ok subprogs) {pc j : Nat} {offset : Int32} :
    subprogs.findIdx? (fun (start : Nat) => decide (wrapI32 start = wrapI32 ((pc : Int) + 1 + offset.toInt))) = some j ↔
      subprogs[j]? = some (callTarget pc offset) := by
  rw [List.findIdx?_eq_some_iff_getElem]
  constructor
  · rintro ⟨hlt, hat, -⟩
    rw [List.getElem?_eq_getElem hlt]
    exact congrArg some ((wrapI32_eq_iff (subprog_lt hsub (List.getElem_mem hlt))).mp (of_decide_eq_true hat))
  · intro hget
    obtain ⟨hlt, hat⟩ := List.getElem?_eq_some_iff.mp hget
    refine ⟨hlt, decide_eq_true ?_, fun k hk hfound => ?_⟩
    · rw [hat]
      exact (wrapI32_eq_iff (subprog_lt hsub (List.mem_of_getElem? hget))).mpr rfl
    · have hklt : k < subprogs.length := by omega
      have hk' := (wrapI32_eq_iff (subprog_lt hsub (List.getElem_mem hklt))).mp (of_decide_eq_true hfound)
      exact absurd ((List.Nodup.getElem_inj_iff (addSubprog_nodup hsub)).mp (hk'.trans hat.symm)) (by omega)

/-- The calls that the walk finds in subprogram `i`. -/
theorem calls_iff (hsub : addSubprog insns = .ok subprogs) {i j : Nat} (hi : i < subprogs.length) :
    Calls insns subprogs i j ↔ ∃ pc offset, insns[pc]? = some (.callSub offset) ∧
      (findSubprogRange (subprogs.getD i 0) subprogs insns.length).1 ≤ pc ∧
      pc < (findSubprogRange (subprogs.getD i 0) subprogs insns.length).2 ∧
      subprogs[j]? = some (callTarget pc offset) := by
  have hat : subprogs[i]? = some (subprogs.getD i 0) := by
    rw [List.getD_eq_getElem?_getD, List.getElem?_eq_getElem hi, Option.getD_some]
  constructor
  · rintro ⟨pc, offset, hget, hentry, hj⟩
    have hin := subprog_range_entry hsub (List.getElem?_eq_some_iff.mp hget).1
    rw [hat] at hentry
    rw [← Option.some.inj hentry] at hin
    exact ⟨pc, offset, hget, hin.1, hin.2, hj⟩
  · rintro ⟨pc, offset, hget, hstart, hstop, hj⟩
    refine ⟨pc, offset, hget, ?_, hj⟩
    rw [hat, subprog_entry_range hsub hstart hstop, subprog_entry_start hsub (List.mem_of_getElem? hat)]

/-- What the walk checks when it enters subprogram `j` behind the chain `front`. -/
def Pushed (depth front : List Nat) (j : Nat) : Prop :=
  j ∉ front ∧ (front ++ [j]).length ≤ maxCallFrames ∧
    ((front ++ [j]).map fun c => depth.getD c 0).sum ≤ stackSize

/-- The walk accepts the chains that are within the limits at every call. -/
theorem visitChain_ok_iff (hsub : addSubprog insns = .ok subprogs) {fuel idx : Nat} {chain : List Nat}
    (hidx : idx < subprogs.length) (hfuel : fuel + chain.length = maxCallFrames + 1) (hpos : 0 < fuel) :
    visitChain insns subprogs depth fuel idx chain = .ok () ↔
      ∀ l j, (idx :: (l ++ [j])).IsChain (Calls insns subprogs) → Pushed depth (chain ++ l) j := by
  induction fuel generalizing idx chain with
  | zero => cases hpos
  | succ fuel ih =>
    rw [Walk.forall_snoc]
    -- a callee that is entered leaves fuel for its own calls
    have hdeeper : ∀ {j}, subprogs[j]? ≠ none → Pushed depth chain j →
        (visitChain insns subprogs depth fuel j (chain ++ [j]) = .ok () ↔
          ∀ l b, (j :: (l ++ [b])).IsChain (Calls insns subprogs) → Pushed depth (chain ++ [j] ++ l) b) := by
      intro j hj hpush
      have hlen := hpush.2.1
      rw [List.length_append, List.length_singleton] at hlen
      refine ih ?_ ?_ (by omega)
      · by_contra hout
        exact hj (List.getElem?_eq_none (Nat.not_lt.mp hout))
      · rw [List.length_append, List.length_singleton]
        omega
    unfold visitChain
    dsimp only
    constructor
    · intro h j hcall
      obtain ⟨pc, offset, hget, hstart, hstop, hj⟩ := (calls_iff hsub hidx).mp hcall
      have hok := forM_eq_ok.mp h _ (mem_callsIn.mpr ⟨hstart, hstop, offset, hget, rfl⟩)
      simp only [(callee_iff hsub).mpr hj] at hok
      split at hok
      · exact (fail_ne_ok.mp hok).elim
      · rename_i hfresh
        split at hok
        · exact (fail_ne_ok.mp hok).elim
        · split at hok
          · exact (fail_ne_ok.mp hok).elim
          · have hpush : Pushed depth chain j := ⟨hfresh, by omega, by omega⟩
            exact ⟨hpush, (hdeeper (by rw [hj]; simp) hpush).mp hok⟩
    · intro h
      refine forM_eq_ok.mpr fun x hx => ?_
      obtain ⟨pc, target⟩ := x
      obtain ⟨hstart, hstop, offset, hget, rfl⟩ := mem_callsIn.mp hx
      dsimp only
      cases hfind : subprogs.findIdx? (fun (start : Nat) =>
          decide (wrapI32 start = wrapI32 ((pc : Int) + 1 + offset.toInt))) with
      | none => rfl
      | some j =>
        have hj := (callee_iff hsub).mp hfind
        obtain ⟨hpush, hrest⟩ := h j ((calls_iff hsub hidx).mpr ⟨pc, offset, hget, hstart, hstop, hj⟩)
        dsimp only
        rw [if_neg hpush.1, if_neg (Nat.not_lt.mpr hpush.2.1), if_neg (Nat.not_lt.mpr hpush.2.2)]
        exact (hdeeper (by rw [hj]; simp) hpush).mpr hrest

/-- What the pass accepts, by its own count. -/
theorem checkCombinedStackDepth_ok_iff (hsub : addSubprog insns = .ok subprogs) :
    checkCombinedStackDepth insns subprogs = .ok () ↔
      NoRecursion insns subprogs ∧ ShortChains insns subprogs ∧ CountedFits insns subprogs := by
  have hpos : 0 < subprogs.length := (List.getElem?_eq_some_iff.mp (addSubprog_head hsub)).1
  have hsum : ∀ l : List Nat, ((0 :: l).map fun c => (directStackDepths insns subprogs).getD c 0).sum =
      chainUse countedBytes insns subprogs l := by
    intro l
    unfold chainUse
    congr 1
    exact List.map_congr_left fun c _ => directStackDepths_getD hsub c
  unfold checkCombinedStackDepth
  rw [visitChain_ok_iff hsub hpos rfl (by decide)]
  constructor
  · intro h
    have hlast : ∀ l, l ≠ [] → CallChain insns subprogs l → ∃ front j, l = front ++ [j] ∧
        Pushed (directStackDepths insns subprogs) (0 :: front) j := by
      intro l hne hl
      obtain ⟨front, j, rfl⟩ := (List.eq_nil_or_concat' l).resolve_left hne
      exact ⟨front, j, rfl, h front j hl⟩
    refine ⟨?_, fun l hl => ?_, fun l hne hl => ?_⟩
    · unfold NoRecursion
      rw [← Walk.walks_nodup_iff, Walk.walks_fresh_iff]
      exact fun l j hl => (h l j hl).1
    · by_cases hne : l = []
      · subst hne
        decide
      · obtain ⟨front, j, rfl, hpush⟩ := hlast l hne hl
        exact hpush.2.1
    · obtain ⟨front, j, rfl, hpush⟩ := hlast l hne hl
      rw [← hsum]
      exact hpush.2.2
  · rintro ⟨hrec, hshort, hfits⟩ l j hl
    unfold NoRecursion at hrec
    rw [← Walk.walks_nodup_iff, Walk.walks_fresh_iff] at hrec
    refine ⟨hrec l j hl, hshort _ hl, ?_⟩
    have hbytes := hfits _ (by simp) hl
    rw [← hsum] at hbytes
    exact hbytes

end Walk

/-! ## The budget -/

section Budget

variable {insns : List BpfInsn} {subprogs : List Nat}

/-- The pass ends, and accepts exactly the programs within the stack budget. -/
def DecidesBudget (insns : List BpfInsn) (subprogs : List Nat) : Prop :=
  checkCombinedStackDepthChecked insns subprogs ≠ .error .panic ∧
    (checkCombinedStackDepthChecked insns subprogs = .ok () ↔ StackFits insns subprogs)

theorem decidesBudget_iff (hsub : addSubprog insns = .ok subprogs) (hcalls : CallsExact insns)
    (hlow : ∀ insn ∈ insns, frameOffset insn ≠ some (-32768)) :
    DecidesBudget insns subprogs ↔ (NoRecursion insns subprogs → ShortChains insns subprogs →
      ((∀ l, CallChain insns subprogs l → chainUse deepestByte insns subprogs l ≤ stackSize) ↔
        CountedFits insns subprogs)) := by
  unfold DecidesBudget
  rw [checkCombinedStackDepthChecked_eq hcalls hsub hlow, checkCombinedStackDepth_ok_iff hsub]
  constructor
  · rintro ⟨-, h⟩ hrec hshort
    constructor
    · intro hbytes
      exact (h.mpr ⟨hrec, hshort, hbytes⟩).2.2
    · intro hcounted
      exact (h.mp ⟨hrec, hshort, hcounted⟩).bytes
  · intro h
    refine ⟨checkCombinedStackDepth_calm, ?_, ?_⟩
    · rintro ⟨hrec, hshort, hcounted⟩
      exact ⟨hrec, hshort, (h hrec hshort).mpr hcounted⟩
    · rintro ⟨hrec, hshort, hbytes⟩
      exact ⟨hrec, hshort, (h hrec hshort).mp hbytes⟩

/-- The pass decides the stack budget exactly if no negated offset overflows and, where
    neither recursion nor a long chain is found, its count agrees with the bytes used. -/
theorem stack_depth_check (hsub : addSubprogChecked insns = .ok subprogs) :
    DecidesBudget insns subprogs ↔ (∀ insn ∈ insns, frameOffset insn ≠ some (-32768)) ∧
      (NoRecursion insns subprogs → ShortChains insns subprogs →
        ((∀ l, CallChain insns subprogs l → chainUse deepestByte insns subprogs l ≤ stackSize) ↔
          CountedFits insns subprogs)) := by
  obtain ⟨hok, hcalls⟩ := addSubprogChecked_ok hsub
  constructor
  · intro h
    have hlow : ∀ insn ∈ insns, frameOffset insn ≠ some (-32768) := by
      intro insn hmem
      obtain ⟨pc, hget⟩ := List.mem_iff_getElem?.mp hmem
      cases hdepths : directStackDepthsChecked insns subprogs with
      | ok depths => exact directStackDepthsChecked_mem hok hdepths hget
      | error e =>
        refine absurd ?_ h.1
        unfold checkCombinedStackDepthChecked
        rw [hdepths, directStackDepthsChecked_error hdepths]
        rfl
    exact ⟨hlow, (decidesBudget_iff hok hcalls hlow).mp h⟩
  · rintro ⟨hlow, hagree⟩
    exact (decidesBudget_iff hok hcalls hlow).mpr hagree

/-- A main program that stores a word and calls a subprogram. -/
theorem stack_depth_check_store :
    DecidesBudget [.stMemImm 0 10 (-8) .dw, .callSub 1, .exit, .exit] [0, 3] ↔
      (∀ insn ∈ [BpfInsn.stMemImm 0 10 (-8) .dw, .callSub 1, .exit, .exit], frameOffset insn ≠ some (-32768)) ∧
        (NoRecursion [.stMemImm 0 10 (-8) .dw, .callSub 1, .exit, .exit] [0, 3] →
          ShortChains [.stMemImm 0 10 (-8) .dw, .callSub 1, .exit, .exit] [0, 3] →
          ((∀ l, CallChain [.stMemImm 0 10 (-8) .dw, .callSub 1, .exit, .exit] [0, 3] l →
            chainUse deepestByte [.stMemImm 0 10 (-8) .dw, .callSub 1, .exit, .exit] [0, 3] l ≤ stackSize) ↔
            CountedFits [.stMemImm 0 10 (-8) .dw, .callSub 1, .exit, .exit] [0, 3])) :=
  stack_depth_check (by decide)

/-- Two frames that each use 256 bytes. -/
def halfFrames : List BpfInsn :=
  [.stMemImm 0 10 (-256) .dw, .callSub 1, .exit, .stMemImm 0 10 (-256) .dw, .exit]

theorem halfFrames_calls {i j : Nat} (h : Calls halfFrames [0, 3] i j) : i = 0 ∧ j = 1 := by
  obtain ⟨pc, offset, hget, hi, hj⟩ := h
  have hpc : pc = 1 ∧ offset = 1 := by
    have hlt := (List.getElem?_eq_some_iff.mp hget).1
    have hcases : pc = 0 ∨ pc = 1 ∨ pc = 2 ∨ pc = 3 ∨ pc = 4 := by
      unfold halfFrames at hlt
      simp only [List.length_cons, List.length_nil] at hlt
      omega
    rcases hcases with rfl | rfl | rfl | rfl | rfl <;> cases hget
    exact ⟨rfl, rfl⟩
  obtain ⟨rfl, rfl⟩ := hpc
  have hentry : entryOf halfFrames [0, 3] 1 = 0 := by decide
  have htarget : callTarget 1 1 = 3 := by decide
  rw [hentry] at hi
  rw [htarget] at hj
  constructor
  · match i, hi with
    | 0, _ => rfl
    | 1, hi => cases hi
    | i + 2, hi => cases hi
  · match j, hj with
    | 0, hj => cases hj
    | 1, _ => rfl
    | j + 2, hj => cases hj

theorem halfFrames_chain {l : List Nat} (h : CallChain halfFrames [0, 3] l) : l = [] ∨ l = [1] := by
  cases l with
  | nil => exact .inl rfl
  | cons i rest =>
    obtain ⟨hfirst, hrest⟩ := List.isChain_cons_cons.mp h
    obtain ⟨-, rfl⟩ := halfFrames_calls hfirst
    cases rest with
    | nil => exact .inr rfl
    | cons j rest =>
      obtain ⟨hzero, -⟩ := halfFrames_calls (List.isChain_cons_cons.mp hrest).1
      cases hzero

/-- The pass counts 264 bytes for each frame and rejects the program. -/
theorem two_half_frames : ¬ ∀ insns subprogs, addSubprogChecked insns = .ok subprogs → DecidesBudget insns subprogs := by
  intro h
  obtain ⟨-, hdecides⟩ := h halfFrames [0, 3] (by decide)
  have hfits : StackFits halfFrames [0, 3] := by
    refine ⟨?_, fun l hl => ?_, fun l hl => ?_⟩
    · unfold NoRecursion
      rw [← Walk.walks_nodup_iff]
      intro l hl
      rcases halfFrames_chain hl with rfl | rfl <;> decide
    · rcases halfFrames_chain hl with rfl | rfl <;> decide
    · rcases halfFrames_chain hl with rfl | rfl <;> decide
  have hok := hdecides.mpr hfits
  revert hok
  decide

end Budget

end RandVerifier
