/-
  RandVerifier.CallStack — the call discipline of the validated graph.

  A configuration of any of the engines has a pc and, one for each active call, the pc it
  returns to. `CallStack` relates the two in a program that the passes accept: each return
  address is behind a call of the subprogram that runs, in the subprogram that runs below.

  Proved, for accepted programs:
  - `cfgEdges_insn`, `mem_exit_edges`: the edges of an instruction and of an exit;
  - `CallStack.move`, `CallStack.enter`, `CallStack.leave`: edges, calls and returns keep
    the discipline, and a return is an edge.
-/

import RandVerifier.CallDepth
import RandVerifier.CfgSound

namespace RandVerifier

/-! ## Subprogram starts -/

theorem mem_addStarts {insnCnt pc : Nat} {rest : List BpfInsn} {starts starts' : List Nat}
    (h : addStarts insnCnt pc rest starts = .ok starts') (s : Nat) :
    s ∈ starts' ↔ s ∈ starts ∨ ∃ i offset, rest[i]? = some (.callSub offset) ∧
      s = callTarget (pc + i) offset := by
  induction rest generalizing pc starts with
  | nil =>
    cases h
    simp
  | cons insn rest ih =>
    have htail : ∀ {l : List Nat}, addStarts insnCnt (pc + 1) rest l = .ok starts' →
        (s ∈ starts' ↔ s ∈ l ∨ ∃ i offset, (insn :: rest)[i + 1]? = some (.callSub offset) ∧
          s = callTarget (pc + (i + 1)) offset) := by
      intro l hl
      rw [ih hl]
      simp only [List.getElem?_cons_succ, Nat.add_assoc, Nat.add_comm 1]
    by_cases hcall : insn.isCallSub = true
    · cases insn with
      | callSub offset =>
        simp only [addStarts] at h
        by_cases hout : insnCnt ≤ callTarget pc offset
        · rw [if_pos hout] at h
          exact (fail_ne_ok.mp h).elim
        · rw [if_neg hout] at h
          rw [htail h]
          have hmem : s ∈ (if callTarget pc offset ∈ starts then starts
              else starts ++ [callTarget pc offset]) ↔ s ∈ starts ∨ s = callTarget pc offset := by
            split
            · rename_i hin
              exact ⟨.inl, fun hs => hs.elim id fun heq => heq ▸ hin⟩
            · rw [List.mem_append, List.mem_singleton]
          rw [hmem]
          constructor
          · rintro ((hs | rfl) | ⟨i, o, hget, rfl⟩)
            · exact .inl hs
            · exact .inr ⟨0, offset, rfl, rfl⟩
            · exact .inr ⟨i + 1, o, hget, rfl⟩
          · rintro (hs | ⟨i, o, hget, rfl⟩)
            · exact .inl (.inl hs)
            · cases i with
              | zero =>
                cases hget
                exact .inl (.inr rfl)
              | succ i => exact .inr ⟨i, o, hget, rfl⟩
      | _ => cases hcall
    · have hskip : addStarts insnCnt (pc + 1) rest starts = .ok starts' := by
        cases insn with
        | callSub offset => exact absurd rfl hcall
        | _ => exact h
      rw [htail hskip]
      constructor
      · rintro (hs | ⟨i, o, hget, rfl⟩)
        · exact .inl hs
        · exact .inr ⟨i + 1, o, hget, rfl⟩
      · rintro (hs | ⟨i, o, hget, rfl⟩)
        · exact .inl hs
        · cases i with
          | zero =>
            cases hget
            exact absurd rfl hcall
          | succ i => exact .inr ⟨i, o, hget, rfl⟩

variable {insns : List BpfInsn} {subprogs : List Nat}

/-- The starts are the main program and the call targets, sorted. -/
theorem mem_addSubprog (h : addSubprog insns = .ok subprogs) (s : Nat) :
    s ∈ subprogs ↔ s = 0 ∨ ∃ pc offset, insns[pc]? = some (.callSub offset) ∧ s = callTarget pc offset := by
  obtain ⟨starts, hstarts, h⟩ := bind_eq_ok.mp h
  cases h
  rw [List.mem_insertionSort, mem_addStarts hstarts, List.mem_singleton]
  simp only [Nat.zero_add]

theorem addSubprog_sorted (h : addSubprog insns = .ok subprogs) : subprogs.Pairwise (· ≤ ·) := by
  obtain ⟨starts, -, h⟩ := bind_eq_ok.mp h
  cases h
  exact List.pairwise_insertionSort _ _

/-- The main program is the first start. -/
theorem addSubprog_head (h : addSubprog insns = .ok subprogs) : subprogs[0]? = some 0 := by
  obtain ⟨j, hj, hzero⟩ := List.getElem_of_mem ((mem_addSubprog h 0).mpr (.inl rfl))
  have hpos : 0 < subprogs.length := by omega
  have hle : subprogs[0] ≤ subprogs[j] := by
    rcases Nat.eq_zero_or_pos j with rfl | hjpos
    · exact Nat.le_refl _
    · exact List.pairwise_iff_getElem.mp (addSubprog_sorted h) 0 j hpos hj hjpos
  rw [List.getElem?_eq_getElem hpos]
  congr 1
  omega

/-! ## Subprogram entries -/

/-- The entry of the subprogram an instruction is in. -/
def entryOf (insns : List BpfInsn) (subprogs : List Nat) (pc : Nat) : Nat :=
  (findSubprogRange pc subprogs insns.length).1

section Entries

variable (h : addSubprog insns = .ok subprogs)
include h

theorem zero_mem_subprogs : 0 ∈ subprogs := (mem_addSubprog h 0).mpr (.inl rfl)

theorem subprog_lt {s : Nat} (hs : s ∈ subprogs) : s < 2 ^ 32 := by
  rcases (mem_addSubprog h s).mp hs with rfl | ⟨pc, offset, -, rfl⟩
  · omega
  · unfold callTarget
    omega

/-- The entry is the last start at or before the instruction. -/
theorem subprog_entry_eq {pc s : Nat} :
    entryOf insns subprogs pc = s ↔ s ∈ subprogs ∧ s ≤ pc ∧ ∀ t ∈ subprogs, t ≤ pc → t ≤ s := by
  have hsorted := addSubprog_sorted h
  have hspec : ∀ e, subprogs.reverse.find? (· ≤ pc) = some e →
      e ∈ subprogs ∧ e ≤ pc ∧ ∀ t ∈ subprogs, t ≤ pc → t ≤ e := by
    intro e he
    obtain ⟨hle, before, after, hsplit, hbefore⟩ := List.find?_eq_some_iff_append.mp he
    have hmem : ∀ t, t ∈ subprogs ↔ t ∈ before ∨ t = e ∨ t ∈ after := by
      intro t
      rw [← List.mem_reverse, hsplit, List.mem_append, List.mem_cons]
    refine ⟨(hmem e).mpr (.inr (.inl rfl)), of_decide_eq_true hle, ?_⟩
    intro t ht htpc
    rcases (hmem t).mp ht with hb | rfl | ha
    · exact absurd htpc (by simpa using hbefore t hb)
    · exact Nat.le_refl _
    · have hpair : (before ++ e :: after).Pairwise (fun a b => b ≤ a) := by
        rw [← hsplit]
        exact List.pairwise_reverse.mpr hsorted
      exact (List.pairwise_cons.mp (List.pairwise_append.mp hpair).2.1).1 t ha
  have hsome : ∃ e, subprogs.reverse.find? (· ≤ pc) = some e := by
    rw [← Option.isSome_iff_exists, List.find?_isSome]
    exact ⟨0, List.mem_reverse.mpr (zero_mem_subprogs h), by simp⟩
  obtain ⟨e, he⟩ := hsome
  have hentry : entryOf insns subprogs pc = e := by
    simp only [entryOf, findSubprogRange, he, Option.getD_some]
  rw [hentry]
  obtain ⟨hmem, hle, hmax⟩ := hspec e he
  constructor
  · rintro rfl
    exact ⟨hmem, hle, hmax⟩
  · rintro ⟨hs, hspc, hsmax⟩
    exact Nat.le_antisymm (hsmax e hmem hle) (hmax s hs hspc)

theorem subprog_entry_spec (pc : Nat) :
    entryOf insns subprogs pc ∈ subprogs ∧ entryOf insns subprogs pc ≤ pc ∧
      ∀ t ∈ subprogs, t ≤ pc → t ≤ entryOf insns subprogs pc :=
  (subprog_entry_eq h).mp rfl

theorem subprog_entry_start {s : Nat} (hs : s ∈ subprogs) : entryOf insns subprogs s = s :=
  (subprog_entry_eq h).mpr ⟨hs, Nat.le_refl _, fun _ _ ht => ht⟩

/-- The instructions of a subprogram's range have its entry. -/
theorem subprog_entry_range {pc n : Nat} (hstart : (findSubprogRange pc subprogs insns.length).1 ≤ n)
    (hstop : n < (findSubprogRange pc subprogs insns.length).2) :
    entryOf insns subprogs n = entryOf insns subprogs pc := by
  obtain ⟨hmem, hle, hmax⟩ := subprog_entry_spec h pc
  refine (subprog_entry_eq h).mpr ⟨hmem, hstart, ?_⟩
  intro t ht htn
  by_cases htpc : t ≤ pc
  · exact hmax t ht htpc
  · -- a start behind pc is not before the end of the range
    exfalso
    have hend : (findSubprogRange pc subprogs insns.length).2 ≤ t := by
      simp only [findSubprogRange]
      cases hfind : subprogs.find? (pc < ·) with
      | none =>
        have hno := List.find?_eq_none.mp hfind t ht
        exact absurd (by simpa using htpc) hno
      | some e =>
        obtain ⟨-, before, after, hsplit, hbefore⟩ := List.find?_eq_some_iff_append.mp hfind
        have hsorted := addSubprog_sorted h
        rw [hsplit] at ht hsorted
        rcases List.mem_append.mp ht with hb | ha
        · exact absurd (by simpa using htpc) (by simpa using hbefore t hb)
        · rcases List.mem_cons.mp ha with rfl | ha
          · exact Nat.le_refl _
          · exact (List.pairwise_cons.mp (List.pairwise_append.mp hsorted).2.1).1 t ha
    omega

/-- The instructions of a subprogram are in the range of its entry. -/
theorem subprog_range_entry {pc : Nat} (hlt : pc < insns.length) :
    (findSubprogRange (entryOf insns subprogs pc) subprogs insns.length).1 ≤ pc ∧
      pc < (findSubprogRange (entryOf insns subprogs pc) subprogs insns.length).2 := by
  obtain ⟨hmem, hle, hmax⟩ := subprog_entry_spec h pc
  have hstart : (findSubprogRange (entryOf insns subprogs pc) subprogs insns.length).1 =
      entryOf insns subprogs pc := subprog_entry_start h hmem
  refine ⟨hstart.le.trans hle, ?_⟩
  simp only [findSubprogRange]
  cases hfind : subprogs.find? (entryOf insns subprogs pc < ·) with
  | none => exact hlt
  | some e =>
    have hafter : entryOf insns subprogs pc < e := by
      simpa using List.find?_some hfind
    show pc < e
    by_contra hpc
    have := hmax e (List.mem_of_find?_eq_some hfind) (by omega)
    omega

end Entries

/-! ## Accepted programs -/

/-- What the three passes accept. -/
structure Accepted (insns : List BpfInsn) (subprogs : List Nat) : Prop where
  sub : addSubprog insns = .ok subprogs
  depth : checkCombinedStackDepth insns subprogs = .ok ()
  cfg : CfgAccepts insns subprogs

namespace Accepted

theorem zero_mem (h : Accepted insns subprogs) : 0 ∈ subprogs := (mem_addSubprog h.sub 0).mpr (.inl rfl)

theorem target_mem (h : Accepted insns subprogs) {pc : Nat} {offset : Int32}
    (hget : insns[pc]? = some (.callSub offset)) : callTarget pc offset ∈ subprogs :=
  (mem_addSubprog h.sub _).mpr (.inr ⟨pc, offset, hget, rfl⟩)

theorem subprogs_ne_nil (h : Accepted insns subprogs) : subprogs ≠ [] := List.ne_nil_of_mem h.zero_mem

theorem entryOf_eq (h : Accepted insns subprogs) {pc s : Nat} :
    entryOf insns subprogs pc = s ↔ s ∈ subprogs ∧ s ≤ pc ∧ ∀ t ∈ subprogs, t ≤ pc → t ≤ s :=
  subprog_entry_eq h.sub

theorem entryOf_spec (h : Accepted insns subprogs) (pc : Nat) :
    entryOf insns subprogs pc ∈ subprogs ∧ entryOf insns subprogs pc ≤ pc ∧
      ∀ t ∈ subprogs, t ≤ pc → t ≤ entryOf insns subprogs pc :=
  subprog_entry_spec h.sub pc

theorem entryOf_start (h : Accepted insns subprogs) {s : Nat} (hs : s ∈ subprogs) :
    entryOf insns subprogs s = s :=
  subprog_entry_start h.sub hs

theorem entryOf_range (h : Accepted insns subprogs) {pc n : Nat}
    (hstart : (findSubprogRange pc subprogs insns.length).1 ≤ n)
    (hstop : n < (findSubprogRange pc subprogs insns.length).2) :
    entryOf insns subprogs n = entryOf insns subprogs pc :=
  subprog_entry_range h.sub hstart hstop

end Accepted

/-! ## Edges of an instruction -/

/-- Where an instruction other than an exit leads. -/
def insnTargets (pc : Nat) : BpfInsn → List Nat
  | .exit => []
  | .jmp offset => [branchTarget pc offset]
  | .callSub offset => [callTarget pc offset]
  | insn =>
    match insn.branchOffset with
    | some offset => [branchTarget pc offset, pc + 1]
    | none => [pc + 1]

theorem insnNexts_eq {pc start stop : Nat} {insn : BpfInsn} {nexts : List Nat} (hexit : insn ≠ .exit)
    (h : insnNexts pc start stop insns subprogs insn = .ok nexts) : nexts = insnTargets pc insn := by
  unfold insnNexts at h
  split at h
  · exact absurd rfl hexit
  · obtain ⟨_, -, h⟩ := bind_eq_ok.mp h
    cases h
    rfl
  · dsimp only at h
    split at h
    · cases h
      rfl
    · exact (fail_ne_ok.mp h).elim
  · rename_i hjmp hcall
    have htargets : insnTargets pc insn = match insn.branchOffset with
        | some offset => [branchTarget pc offset, pc + 1]
        | none => [pc + 1] := by
      cases insn <;> first | rfl | exact absurd rfl hexit | exact absurd rfl (hjmp _) |
        exact absurd rfl (hcall _)
    rw [htargets]
    cases hoff : insn.branchOffset with
    | none =>
      rw [hoff] at h
      cases h
      rfl
    | some offset =>
      rw [hoff] at h
      obtain ⟨_, -, h⟩ := bind_eq_ok.mp h
      cases h
      rfl

namespace Accepted

theorem visitInsn_ok (h : Accepted insns subprogs) {pc : Nat} {insn : BpfInsn}
    (hget : insns[pc]? = some insn) : ∃ nexts, visitInsn pc insns subprogs = .ok nexts ∧
      insnNexts pc (entryOf insns subprogs pc) (findSubprogRange pc subprogs insns.length).2 insns
        subprogs insn = .ok nexts := by
  obtain ⟨hlt, -⟩ := List.getElem?_eq_some_iff.mp hget
  obtain ⟨nexts, hvisit⟩ := h.cfg.visits pc hlt
  obtain ⟨insn', hget', hnexts, -⟩ := visitInsn_eq_ok hvisit
  rw [hget] at hget'
  cases hget'
  exact ⟨nexts, hvisit, hnexts⟩

/-- The edges of an instruction other than an exit are its targets. -/
theorem cfgEdges_insn (h : Accepted insns subprogs) {pc : Nat} {insn : BpfInsn}
    (hget : insns[pc]? = some insn) (hexit : insn ≠ .exit) :
    cfgEdges insns subprogs pc = insnTargets pc insn := by
  obtain ⟨nexts, hvisit, hnexts⟩ := h.visitInsn_ok hget
  rw [← insnNexts_eq hexit hnexts]
  simp only [cfgEdges, hvisit]

/-- The edges of an exit of a subprogram lead behind the calls of it. -/
theorem mem_exit_edges (h : Accepted insns subprogs) {pc n : Nat} (hget : insns[pc]? = some .exit) :
    n ∈ cfgEdges insns subprogs pc ↔ entryOf insns subprogs pc ≠ 0 ∧
      ∃ c offset, insns[c]? = some (.callSub offset) ∧
        callTarget c offset = entryOf insns subprogs pc ∧ n = c + 1 := by
  obtain ⟨nexts, hvisit, hnexts⟩ := h.visitInsn_ok hget
  simp only [insnNexts, Except.ok.injEq] at hnexts
  simp only [cfgEdges, hvisit]
  rw [← hnexts]
  split
  · rename_i h0
    exact ⟨fun hn => absurd hn List.not_mem_nil, fun hn => absurd h0 hn.1⟩
  · rename_i h0
    constructor
    · intro hn
      obtain ⟨⟨c, target⟩, hsite, rfl⟩ := List.mem_map.mp hn
      obtain ⟨hmem, htarget⟩ := List.mem_filter.mp hsite
      obtain ⟨offset, hc, rfl⟩ := mem_callSites.mp hmem
      exact ⟨h0, c, offset, hc, of_decide_eq_true htarget, rfl⟩
    · rintro ⟨-, c, offset, hc, htarget, rfl⟩
      refine List.mem_map.mpr ⟨(c, callTarget c offset), List.mem_filter.mpr ⟨?_, ?_⟩, rfl⟩
      · exact mem_callSites.mpr ⟨offset, hc, rfl⟩
      · exact decide_eq_true htarget

/-- A call is followed by an instruction of its own subprogram. -/
theorem entryOf_return (h : Accepted insns subprogs) {c : Nat} {offset : Int32}
    (hget : insns[c]? = some (.callSub offset)) :
    entryOf insns subprogs (c + 1) = entryOf insns subprogs c := by
  obtain ⟨hmem, hle, hmax⟩ := h.entryOf_spec c
  refine h.entryOf_eq.mpr ⟨hmem, by omega, ?_⟩
  intro t ht htc
  by_cases hlt : t ≤ c
  · exact hmax t ht hlt
  · -- a subprogram starting behind the call: its predecessor would end with the call
    exfalso
    obtain rfl : t = c + 1 := by omega
    obtain ⟨i, hi, hat⟩ := List.getElem_of_mem ht
    cases i with
    | zero =>
      obtain ⟨j, hj, hzero⟩ := List.getElem_of_mem h.zero_mem
      have hle0 : subprogs[0] ≤ subprogs[j] := by
        rcases Nat.eq_zero_or_pos j with rfl | hpos
        · exact Nat.le_refl _
        · exact List.pairwise_iff_getElem.mp (addSubprog_sorted h.sub) 0 j hi hj hpos
      omega
    | succ i =>
      obtain ⟨insn, hend, hends⟩ := h.cfg.ends i _ (List.getElem?_eq_getElem (by omega))
      rw [List.getElem?_eq_getElem hi, hat, Option.getD_some, Nat.add_sub_cancel, hget] at hend
      cases hend
      cases hends

theorem entry_range (h : Accepted insns subprogs) {pc : Nat} (hlt : pc < insns.length) :
    (findSubprogRange (entryOf insns subprogs pc) subprogs insns.length).1 ≤ pc ∧
      pc < (findSubprogRange (entryOf insns subprogs pc) subprogs insns.length).2 :=
  subprog_range_entry h.sub hlt

/-- An edge other than a call or a return keeps the subprogram. -/
theorem entryOf_edge (h : Accepted insns subprogs) {pc n : Nat} {insn : BpfInsn}
    (hget : insns[pc]? = some insn) (hcall : insn.isCallSub = false) (hexit : insn ≠ .exit)
    (hn : n ∈ cfgEdges insns subprogs pc) : entryOf insns subprogs n = entryOf insns subprogs pc :=
  have hin := cfgEdges_inside hget hcall hexit hn
  h.entryOf_range hin.1 hin.2

/-- An instruction other than a call goes along the edges of the graph. -/
theorem insn_edge (h : Accepted insns subprogs) {pc n : Nat} {insn : BpfInsn}
    (hget : insns[pc]? = some insn) (hn : n ∈ insnTargets pc insn) : n ∈ cfgEdges insns subprogs pc := by
  by_cases hexit : insn = .exit
  · subst hexit
    cases hn
  · rw [h.cfgEdges_insn hget hexit]
    exact hn

end Accepted

/-! ## The call stack -/

/-- The calls of a subprogram have been walked on a chain from the main program. -/
def OnChain (insns : List BpfInsn) (subprogs : List Nat) (entry : Nat) : Prop :=
  ∃ fuel idx chain, subprogs[idx]? = some entry ∧ 0 ∈ chain ∧
    visitChain insns subprogs (directStackDepths insns subprogs) fuel idx chain = .ok ()

/-- The pcs the active calls return to, innermost first, fit the subprograms that run. -/
inductive CallStack (insns : List BpfInsn) (subprogs : List Nat) : Nat → List Nat → Prop where
  | main {pc : Nat} : entryOf insns subprogs pc = 0 → CallStack insns subprogs pc []
  | call {pc c : Nat} {offset : Int32} {rest : List Nat} :
    insns[c]? = some (.callSub offset) → callTarget c offset = entryOf insns subprogs pc →
    entryOf insns subprogs pc ≠ 0 → OnChain insns subprogs (entryOf insns subprogs pc) →
    CallStack insns subprogs c rest → CallStack insns subprogs pc ((c + 1) :: rest)

theorem Accepted.head_zero (h : Accepted insns subprogs) : subprogs[0]? = some 0 := addSubprog_head h.sub

/-- The stack check finds a call target by comparing in `i32`. -/
theorem wrapI32_eq_iff {s pc : Nat} {offset : Int32} (hs : s < 2 ^ 32) :
    wrapI32 s = wrapI32 (pc + 1 + offset.toInt) ↔ s = callTarget pc offset := by
  have hlo := offset.le_toInt
  have hhi := offset.toInt_lt
  unfold wrapI32 callTarget Int.bmod
  dsimp only
  split <;> split <;> omega

theorem Accepted.lt_of_mem (h : Accepted insns subprogs) {s : Nat} (hs : s ∈ subprogs) : s < 2 ^ 32 :=
  subprog_lt h.sub hs

namespace CallStack

variable {pc : Nat} {rets : List Nat}

/-- Within a subprogram the stack fits all its instructions. -/
theorem move (hs : CallStack insns subprogs pc rets) {n : Nat}
    (hn : entryOf insns subprogs n = entryOf insns subprogs pc) : CallStack insns subprogs n rets := by
  cases hs with
  | main h0 => exact .main (hn.trans h0)
  | call hget htarget h0 hchain hrest =>
    rw [← hn] at htarget h0 hchain
    exact .call hget htarget h0 hchain hrest

theorem onChain (h : Accepted insns subprogs) (hs : CallStack insns subprogs pc rets) :
    OnChain insns subprogs (entryOf insns subprogs pc) := by
  cases hs with
  | main h0 =>
    rw [h0]
    exact ⟨_, 0, [0], h.head_zero, List.mem_singleton.mpr rfl, h.depth⟩
  | call _ _ _ hchain _ => exact hchain

/-- A call of a running subprogram enters a subprogram that is walked, and not the main
    program. -/
theorem enter (h : Accepted insns subprogs) (hs : CallStack insns subprogs pc rets) {offset : Int32}
    (hget : insns[pc]? = some (.callSub offset)) :
    CallStack insns subprogs (callTarget pc offset) ((pc + 1) :: rets) := by
  obtain ⟨fuel, idx, chain, hidx, hzero, hvisit⟩ := hs.onChain h
  obtain ⟨hlt, -⟩ := List.getElem?_eq_some_iff.mp hget
  have hmem := h.target_mem hget
  have hstart := h.entryOf_start hmem
  have hentry : subprogs.getD idx 0 = entryOf insns subprogs pc := by
    rw [List.getD_eq_getElem?_getD, hidx, Option.getD_some]
  have hin := h.entry_range hlt
  rw [← hentry] at hin
  -- the stack check finds the callee by its start
  have hfound : ∃ callee, subprogs.findIdx? (fun (start : Nat) =>
      decide (wrapI32 start = wrapI32 (pc + 1 + offset.toInt))) = some callee := by
    rw [← Option.isSome_iff_exists, List.findIdx?_isSome, List.any_eq_true]
    exact ⟨_, hmem, decide_eq_true ((wrapI32_eq_iff (h.lt_of_mem hmem)).mpr rfl)⟩
  obtain ⟨callee, hcallee⟩ := hfound
  obtain ⟨hclt, hat, hbefore⟩ := List.findIdx?_eq_some_iff_getElem.mp hcallee
  have hcall : subprogs[callee] = callTarget pc offset :=
    (wrapI32_eq_iff (h.lt_of_mem (List.getElem_mem hclt))).mp (of_decide_eq_true hat)
  obtain ⟨hfresh, fuel', hwalk⟩ := visitChain_call hvisit hin.1 hin.2 hget hcallee
  refine .call hget hstart.symm ?_ ?_ hs
  · -- the main program has index 0, which is on every chain
    rw [hstart]
    intro h0
    have hc0 : callee = 0 := by
      by_contra hne
      have hhead := h.head_zero
      rw [List.getElem?_eq_getElem (by omega), Option.some.injEq] at hhead
      have hno := hbefore 0 (by omega)
      rw [hhead] at hno
      exact hno (decide_eq_true ((wrapI32_eq_iff (by omega)).mpr h0.symm))
    rw [hc0] at hfresh
    exact hfresh hzero
  · rw [hstart]
    refine ⟨fuel', callee, chain ++ [callee], ?_, List.mem_append_left _ hzero, hwalk⟩
    rw [List.getElem?_eq_getElem hclt, hcall]

/-- A return goes behind the call, along an edge of the exit. -/
theorem leave (h : Accepted insns subprogs) {r : Nat} (hs : CallStack insns subprogs pc (r :: rets))
    (hget : insns[pc]? = some .exit) :
    r ∈ cfgEdges insns subprogs pc ∧ CallStack insns subprogs r rets := by
  cases hs with
  | call hc htarget h0 _ hrest =>
    exact ⟨(h.mem_exit_edges hget).mpr ⟨h0, _, _, hc, htarget, rfl⟩, hrest.move (h.entryOf_return hc)⟩

end CallStack

/-! ## Return addresses -/

/-- The pcs the active calls return to, innermost first: the current one, then those of the
    saved frames. The main program does not return. -/
def returnsTo (saved : Nat → Option Nat) : Nat → Nat → List Nat
  | 0, _ => []
  | depth + 1, ret => ret :: returnsTo saved depth ((saved depth).getD 0)

theorem returnsTo_congr {saved saved' : Nat → Option Nat} {depth : Nat} (ret : Nat)
    (h : ∀ k < depth, saved k = saved' k) : returnsTo saved depth ret = returnsTo saved' depth ret := by
  induction depth generalizing ret with
  | zero => rfl
  | succ depth ih =>
    simp only [returnsTo, h depth (Nat.lt_succ_self _)]
    rw [ih _ fun k hk => h k (Nat.lt_succ_of_lt hk)]

end RandVerifier
