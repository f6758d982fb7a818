/-
  RandVerifier.Engines — one control-flow relation for all engines.

  The verifier (`exec::successors` and the returns of the mini), the liveness pass and the
  concrete interpreter each compute where an instruction leads. `OneRelation`: all of it is
  an edge of the graph that `check_cfg` has validated.

  Proved:
  - `successors_target`, `path_callStack`: the pcs the verifier leads to, and its frames
    keep the call discipline, so that its returns are edges of the exits;
  - `Accepted.static_edge`: the edges of the liveness pass are edges of the graph;
  - `one_relation`: for an accepted program the engines agree with the graph if and only if
    every call offset fits an `i16`: the verifier truncates it;
  - `far_call`: an accepted program with a call that the verifier takes elsewhere.
-/

import RandVerifier.ExplorerFrames
import RandVerifier.Frames

namespace RandVerifier

/-! ## The verifier -/

/-- Where the verifier goes: it truncates the offset of a call. -/
def execTargets (pc : Nat) : BpfInsn → List Nat
  | .callSub offset => [branchTarget pc offset.toInt16]
  | insn => insnTargets pc insn

section Successors

variable {pc : Nat} {st : VerifierState} {l : List Succ} {x : Succ}

theorem scalarBranch_target {t f : Nat} {dst : Reg} {srcReg : Option Reg} {d s : ScalarBounds}
    {op : CondOp} (hx : x ∈ scalarBranch t f dst srcReg d s op st) : x.1 = t ∨ x.1 = f := by
  simp only [scalarBranch] at hx
  split at hx <;> simp only [List.mem_cons, List.not_mem_nil, or_false] at hx
  · exact .inl (by rw [hx])
  · exact .inr (by rw [hx])
  · rcases hx with rfl | rfl
    · exact .inl rfl
    · exact .inr rfl

theorem nullCheck_target {t f : Nat} {op : CondOp} {a b : VerifierState} (hx : x ∈ nullCheck t f op a b) :
    x.1 = t ∨ x.1 = f := by
  unfold nullCheck at hx
  split at hx <;> simp only [List.mem_cons, List.not_mem_nil, or_false] at hx <;>
    rcases hx with rfl | rfl
  · exact .inl rfl
  · exact .inr rfl
  · exact .inr rfl
  · exact .inl rfl

theorem branchOrBoth_target {offset : Int16} {taken : Option Bool}
    (hx : x ∈ branchOrBoth pc offset taken st) : x.1 = branchTarget pc offset ∨ x.1 = pc + 1 := by
  unfold branchOrBoth at hx
  split at hx <;> simp only [List.mem_cons, List.not_mem_nil, or_false] at hx
  · exact .inl (by rw [hx])
  · exact .inr (by rw [hx])
  · rcases hx with rfl | rfl
    · exact .inl rfl
    · exact .inr rfl

theorem condBranchImpl_target {dst : Reg} {srcReg : Option Reg} {srcState : RegState}
    {offset : Int16} {op : CondOp} (hl : condBranchImpl pc dst srcReg srcState offset op st = .ok l)
    (hx : x ∈ l) : x.1 = branchTarget pc offset ∨ x.1 = pc + 1 := by
  have hboth : ∀ t f : Nat, x ∈ [(t, st), (f, st)] → x.1 = t ∨ x.1 = f := by
    intro t f hx
    simp only [List.mem_cons, List.not_mem_nil, or_false] at hx
    rcases hx with rfl | rfl
    · exact .inl rfl
    · exact .inr rfl
  simp only [condBranchImpl, bind_eq_ok, readReg_eq_ok] at hl
  obtain ⟨d, -, hl⟩ := hl
  split at hl
  · cases hl
    exact scalarBranch_target hx
  · simp only [bind_eq_ok] at hl
    obtain ⟨-, -, r, -, hl⟩ := hl
    cases hl
    exact nullCheck_target hx
  · simp only [bind_eq_ok] at hl
    obtain ⟨-, -, r, -, hl⟩ := hl
    cases hl
    exact nullCheck_target hx
  · simp only [bind_eq_ok] at hl
    obtain ⟨-, -, hl⟩ := hl
    cases hl
    exact hboth _ _ hx
  · simp only [bind_eq_ok] at hl
    obtain ⟨-, -, hl⟩ := hl
    cases hl
    exact hboth _ _ hx
  · cases hl
    exact hboth _ _ hx
  · cases hl
  · exact (fail_ne_ok.mp hl).elim

theorem condBranch_target {dst src : Reg} {offset : Int16} {op : CondOp}
    (hl : condBranch pc dst src offset op st = .ok l) (hx : x ∈ l) :
    x.1 = branchTarget pc offset ∨ x.1 = pc + 1 := by
  simp only [condBranch, bind_eq_ok] at hl
  obtain ⟨s, -, hl⟩ := hl
  split at hl
  · cases hl
    rw [List.mem_singleton.mp hx]
    split
    · exact .inl rfl
    · exact .inr rfl
  · exact condBranchImpl_target hl hx

/-- The pcs of the successors of an instruction. -/
theorem successors_target {insn : BpfInsn} (hl : successors pc insn st = .ok l) (hx : x ∈ l) :
    x.1 ∈ execTargets pc insn := by
  have hpair : ∀ {t : Nat}, (x.1 = t ∨ x.1 = pc + 1) → x.1 ∈ [t, pc + 1] := by
    intro t h
    simpa using h
  have hstep : ∀ insn : BpfInsn,
      (do
        let next ← step pc st insn
        Except.ok [(pc + 1, next)] : Exec (List Succ)) = .ok l → x.1 ∈ [pc + 1] := by
    intro insn hl
    obtain ⟨next, -, hl⟩ := bind_eq_ok.mp hl
    cases hl
    rw [List.mem_singleton.mp hx]
    exact List.mem_singleton.mpr rfl
  cases insn with
  | exit =>
    cases hl
    cases hx
  | jmp =>
    cases hl
    rw [List.mem_singleton.mp hx]
    exact List.mem_singleton.mpr rfl
  | callSub =>
    obtain ⟨callee, -, hl⟩ := bind_eq_ok.mp hl
    cases hl
    rw [List.mem_singleton.mp hx]
    exact List.mem_singleton.mpr rfl
  | jeq | jne | jgt | jge | jlt | jle | jsgt | jsge | jslt | jsle =>
    exact hpair (condBranch_target hl hx)
  | jeqImm | jneImm | jgtImm | jgeImm | jltImm | jleImm | jsgtImm | jsgeImm | jsltImm | jsleImm =>
    exact hpair (condBranchImpl_target hl hx)
  | jset | jmp32 =>
    simp only [successors, bind_eq_ok] at hl
    obtain ⟨_, -, _, -, hl⟩ := hl
    cases hl
    exact hpair (branchOrBoth_target hx)
  | jsetImm =>
    simp only [successors, bind_eq_ok] at hl
    obtain ⟨_, -, hl⟩ := hl
    refine hpair ?_
    split at hl <;> cases hl <;> simp only [List.mem_cons, List.not_mem_nil, or_false] at hx
    · exact .inl (by rw [hx])
    · exact .inr (by rw [hx])
    · rcases hx with rfl | rfl
      · exact .inl rfl
      · exact .inr rfl
  | _ => exact hstep _ hl

end Successors

/-! ## The call discipline of the verifier -/

namespace VerifierState

def returns (st : VerifierState) : List Nat :=
  returnsTo (fun k => (st.saved k).map (·.retPc)) st.curframe st.retPc

end VerifierState

theorem SameFrames.returns {st st' : VerifierState} (h : SameFrames st st') : st'.returns = st.returns := by
  have hsaved : (fun k => (st'.saved k).map (·.retPc)) = fun k => (st.saved k).map (·.retPc) :=
    funext h.callers
  simp only [VerifierState.returns, hsaved, h.curframe, h.retPc]

theorem callSubprog_returns {st callee : VerifierState} {ret : Nat} (h : st.callSubprog ret = .ok callee) :
    callee.returns = ret :: st.returns := by
  obtain ⟨-, rfl⟩ := callSubprog_eq_ok h
  simp only [VerifierState.returns, returnsTo, Function.update_self, Option.map_some, Option.getD_some]
  congr 1
  refine returnsTo_congr _ fun k hk => ?_
  rw [Function.update_of_ne (by omega)]

theorem returnFromSubprog_returns {st : VerifierState} (hf : Framed st) (hcur : 0 < st.curframe) :
    st.returns = st.retPc :: st.returnFromSubprog.1.returns := by
  obtain ⟨d, hd⟩ : ∃ d, st.curframe = d + 1 := ⟨st.curframe - 1, by omega⟩
  obtain ⟨fr, hfr⟩ := Option.isSome_iff_exists.mp ((hf.active d).mpr (by omega))
  rw [returnFromSubprog_eq hd hfr]
  simp only [VerifierState.returns, VerifierState.clobberArgs, hd, returnsTo, hfr, Option.map_some,
    Option.getD_some]
  congr 1
  refine returnsTo_congr _ fun k hk => ?_
  rw [Function.update_of_ne (by omega)]

/-- Whether the verifier takes every call to its target. -/
def CallsFit (insns : List BpfInsn) : Prop :=
  ∀ (pc : Nat) (offset : Int32), insns[pc]? = some (.callSub offset) → -2 ^ 15 ≤ offset.toInt ∧ offset.toInt < 2 ^ 15

/-- Truncating an offset to an `i16` keeps the target exactly when the offset fits. -/
theorem branchTarget_toInt16 {pc : Nat} {offset : Int32} :
    branchTarget pc offset.toInt16 = callTarget pc offset ↔
      -2 ^ 15 ≤ offset.toInt ∧ offset.toInt < 2 ^ 15 := by
  have hlo := offset.le_toInt
  have hhi := offset.toInt_lt
  have htrunc : offset.toInt16.toInt = offset.toInt.bmod (2 ^ 16) := Int32.toInt_toInt16 offset
  unfold branchTarget callTarget
  rw [htrunc]
  unfold Int.bmod
  dsimp only
  split <;> omega

variable {insns : List BpfInsn} {subprogs : List Nat}

theorem execTargets_eq {pc : Nat} {insn : BpfInsn} (hcall : insn.isCallSub = false) :
    execTargets pc insn = insnTargets pc insn := by
  cases insn with
  | callSub => cases hcall
  | _ => rfl

/-- Every path of the verifier keeps the call discipline, when the offsets fit. -/
theorem path_callStack (h : Accepted insns subprogs) (hfit : CallsFit insns) {progType : ProgType}
    {x : Succ} (hx : Path insns progType x) : CallStack insns subprogs x.1 x.2.returns := by
  induction hx with
  | init h0 =>
    subst h0
    exact .main (h.entryOf_start h.zero_mem)
  | @step s t hreach hstep ih =>
    cases hstep with
    | @next pc st insn l _ hget hl hx =>
      by_cases hcall : insn.isCallSub = true
      · obtain ⟨offset, callee, rfl, hcallee, rfl⟩ := successors_callSub hcall hl
        rw [List.mem_singleton.mp hx, branchTarget_toInt16.mpr (hfit pc offset hget)]
        dsimp only
        rw [callSubprog_returns hcallee]
        exact ih.enter h hget
      · have hcall : insn.isCallSub = false := by simpa using hcall
        have hexit : insn ≠ .exit := by
          rintro rfl
          cases hl
          cases hx
        have htarget := successors_target hl hx
        rw [execTargets_eq hcall] at htarget
        rw [(successors_sameFrames hcall hl hx).returns]
        exact ih.move (h.entryOf_edge hget hcall hexit (h.insn_edge hget htarget))
    | ret hget hcur hr0 =>
      dsimp only at ih
      rw [returnFromSubprog_returns (path_framed hreach) hcur] at ih
      exact (ih.leave h hget).2

/-! ## The liveness pass -/

theorem foldl_max_spec (l : List Nat) (a : Nat) :
    a ≤ l.foldl max a ∧ (∀ x ∈ l, x ≤ l.foldl max a) ∧ (l.foldl max a = a ∨ l.foldl max a ∈ l) := by
  induction l generalizing a with
  | nil => exact ⟨Nat.le_refl _, nofun, .inl rfl⟩
  | cons y rest ih =>
    obtain ⟨hle, hall, hmem⟩ := ih (max a y)
    rw [List.foldl_cons]
    refine ⟨by omega, ?_, ?_⟩
    · intro x hx
      rcases List.mem_cons.mp hx with rfl | hx
      · omega
      · exact hall x hx
    · rcases hmem with heq | hin
      · rw [heq]
        rcases Nat.le_total a y with h | h
        · rw [Nat.max_eq_right h]
          exact .inr List.mem_cons_self
        · exact .inl (Nat.max_eq_left h)
      · exact .inr (List.mem_cons_of_mem _ hin)

/-- The liveness pass finds the entry of a subprogram as the graph does. -/
theorem Accepted.subprogEntryAt (h : Accepted insns subprogs) {i start : Nat}
    (hstart : subprogEntryAt i insns = some start) :
    start ≠ 0 ∧ entryOf insns subprogs i = start := by
  have htargets : ∀ t, t ∈ ((callSites insns).map (·.2)).filter (· ≤ i) ↔
      t ≤ i ∧ ∃ pc offset, insns[pc]? = some (.callSub offset) ∧ t = callTarget pc offset := by
    intro t
    rw [List.mem_filter, List.mem_map, and_comm, decide_eq_true_eq]
    constructor
    · rintro ⟨hle, ⟨pc, target⟩, hsite, rfl⟩
      obtain ⟨offset, hget, rfl⟩ := mem_callSites.mp hsite
      exact ⟨hle, pc, offset, hget, rfl⟩
    · rintro ⟨hle, pc, offset, hget, rfl⟩
      exact ⟨hle, (pc, callTarget pc offset), mem_callSites.mpr ⟨offset, hget, rfl⟩, rfl⟩
  obtain ⟨-, hall, hmem⟩ := foldl_max_spec (((callSites insns).map (·.2)).filter (· ≤ i)) 0
  simp only [RandVerifier.subprogEntryAt] at hstart
  split at hstart
  · cases hstart
  · rename_i hne
    cases hstart
    rcases hmem with h0 | hin
    · exact absurd h0 hne
    · obtain ⟨hle, pc, offset, hget, htarget⟩ := (htargets _).mp hin
      refine ⟨hne, h.entryOf_eq.mpr ⟨?_, hle, ?_⟩⟩
      · exact (mem_addSubprog h.sub _).mpr (.inr ⟨pc, offset, hget, htarget⟩)
      · intro t ht hti
        rcases (mem_addSubprog h.sub t).mp ht with rfl | hcall
        · exact Nat.zero_le _
        · exact hall t ((htargets t).mpr ⟨hti, hcall⟩)

theorem mem_inRange {i n t : Nat} {offset : Int} :
    t ∈ inRange i offset n ↔ (i : Int) + 1 + offset = t ∧ t < n := by
  simp only [inRange]
  split
  · rw [List.mem_singleton]
    omega
  · constructor
    · nofun
    · omega

/-- Every edge of the liveness pass is an edge of the graph. -/
theorem Accepted.static_edge (h : Accepted insns subprogs) (hsize : insns.length ≤ 2 ^ 32) {i n : Nat}
    (hn : n ∈ staticSuccessors i insns) : n ∈ cfgEdges insns subprogs i := by
  have hjump : ∀ {offset : Int16}, n ∈ inRange i offset.toInt insns.length → n = branchTarget i offset := by
    intro offset hr
    obtain ⟨heq, hlt⟩ := mem_inRange.mp hr
    unfold branchTarget
    omega
  have hfall : n ∈ (if i + 1 < insns.length then [i + 1] else []) → n = i + 1 := by
    intro hr
    split at hr
    · exact List.mem_singleton.mp hr
    · cases hr
  simp only [staticSuccessors] at hn
  split at hn
  · cases hn
  · rename_i hget
    split at hn
    · cases hn
    · split at hn
      · cases hn
      · rename_i start hstart
        obtain ⟨h0, hentry⟩ := h.subprogEntryAt hstart
        obtain ⟨⟨c, target⟩, hsite, rfl⟩ := List.mem_map.mp hn
        obtain ⟨hmem, htarget⟩ := List.mem_filter.mp hsite
        obtain ⟨offset, hc, rfl⟩ := mem_callSites.mp hmem
        rw [h.mem_exit_edges hget, hentry]
        exact ⟨h0, c, offset, hc, of_decide_eq_true htarget, rfl⟩
  · rename_i offset hget
    obtain ⟨heq, hlt⟩ := mem_inRange.mp hn
    refine h.insn_edge hget (List.mem_singleton.mpr ?_)
    unfold callTarget
    omega
  · rename_i offset hget
    exact h.insn_edge hget (List.mem_singleton.mpr (hjump hn))
  · rename_i insn hexit hcall hjmp hget
    have htargets : insnTargets i insn =
        (insn.branchOffset.map fun offset => [branchTarget i offset, i + 1]).getD [i + 1] := by
      cases insn <;> first | rfl | exact absurd rfl hexit | exact absurd rfl (hjmp _) |
        exact absurd rfl (hcall _)
    refine h.insn_edge hget ?_
    rw [htargets]
    cases hoff : insn.branchOffset with
    | none =>
      rw [hoff] at hn
      rw [hfall hn]
      exact List.mem_singleton.mpr rfl
    | some offset =>
      rw [hoff] at hn
      rcases List.mem_append.mp hn with hr | hr
      · rw [hfall hr]
        exact List.mem_cons_of_mem _ (List.mem_singleton.mpr rfl)
      · rw [hjump hr]
        exact List.mem_cons_self

/-! ## One relation -/

/-- Where the engines lead is where the graph leads: the successors of the verifier in any
    state, the returns of every explored item, the edges of the liveness pass, and the
    steps of every item of the concrete explorer with any map memory. -/
structure OneRelation (insns : List BpfInsn) (subprogs : List Nat) : Prop where
  exec : ∀ (pc : Nat) (insn : BpfInsn) (st : VerifierState) (l : List Succ),
    insns[pc]? = some insn → successors pc insn st = .ok l →
    ∀ x ∈ l, x.1 ∈ cfgEdges insns subprogs pc
  returns : ∀ (env : MiniEnv) (s : MiniState), env.program = insns → MiniReach env s →
    ∀ item ∈ s.worklist, insns[item.pc]? = some .exit → 0 < item.state.curframe →
      item.state.retPc ∈ cfgEdges insns subprogs item.pc
  static : ∀ i, ∀ n ∈ staticSuccessors i insns, n ∈ cfgEdges insns subprogs i
  concrete : ∀ (p : Explorer.Program) (x : Explorer.Exploration) (visits : Explorer.Visits),
    p.insns = insns → Explorer.ExploreRun p (fun _ _ _ _ => True) x visits →
    ∀ item ∈ x.worklist, ∀ mem mem' l, Explorer.itemSuccessors p item mem = .ok (l, mem') →
      ∀ y ∈ l, y.1 ∈ cfgEdges insns subprogs item.1

/-- For a program that the three passes accept (a pc is a `u32`), the engines agree with
    the validated graph if and only if every call offset fits an `i16`. -/
theorem one_relation {fuel : Nat} {heads : List Nat} (hsize : insns.length ≤ 2 ^ 32)
    (hsub : addSubprog insns = .ok subprogs)
    (hdepth : checkCombinedStackDepth insns subprogs = .ok ())
    (hfuel : cfgFuel insns subprogs < fuel) (hcfg : checkCfg fuel insns subprogs = some (.ok heads)) :
    OneRelation insns subprogs ↔ CallsFit insns := by
  have h : Accepted insns subprogs := ⟨hsub, hdepth, checkCfg_accepts hsub hfuel hcfg⟩
  constructor
  · intro hone pc offset hget
    -- a call in the initial state
    obtain ⟨callee, hcallee⟩ : ∃ callee, (VerifierState.initialWith .socketFilter).callSubprog (pc + 1) =
        .ok callee := ⟨_, rfl⟩
    have hl : successors pc (.callSub offset) (.initialWith .socketFilter) =
        .ok [(branchTarget pc offset.toInt16, callee)] := by
      simp only [successors, callSubprogAt, hcallee, bind, Except.bind]
    have hedge := hone.exec pc _ _ _ hget hl _ (List.mem_singleton.mpr rfl)
    rw [h.cfgEdges_insn hget (by simp)] at hedge
    exact branchTarget_toInt16.mp (List.mem_singleton.mp hedge)
  · intro hfit
    refine ⟨?_, ?_, fun i n hn => h.static_edge hsize hn, ?_⟩
    · intro pc insn st l hget hl x hx
      refine h.insn_edge hget ?_
      have htarget := successors_target hl hx
      by_cases hcall : insn.isCallSub = true
      · cases insn with
        | callSub offset =>
          rw [execTargets, branchTarget_toInt16.mpr (hfit pc offset hget)] at htarget
          exact htarget
        | _ => cases hcall
      · rw [execTargets_eq (by simpa using hcall)] at htarget
        exact htarget
    · intro env s henv hreach item hitem hget hcur
      subst henv
      have hpath := mini_path hreach hitem
      have hstack := path_callStack h hfit hpath
      dsimp only at hstack
      rw [returnFromSubprog_returns (path_framed hpath) hcur] at hstack
      exact (hstack.leave h hget).1
    · intro p x visits hp hrun item hitem mem mem' l hl y hy
      subst hp
      exact ((Explorer.explore_callStack h hrun item hitem).step h hl hy).1

theorem one_relation_call :
    OneRelation [.callSub 1, .exit, .movImm 0 0, .exit] [0, 2] ↔
      CallsFit [.callSub 1, .exit, .movImm 0 0, .exit] :=
  one_relation (by decide) (by decide) (by decide)
    (by decide : cfgFuel [.callSub 1, .exit, .movImm 0 0, .exit] [0, 2] < 40)
    (by decide : checkCfg 40 [.callSub 1, .exit, .movImm 0 0, .exit] [0, 2] = some (.ok []))

/-! ## A far call -/

/-- A call over `n` moves: r0 = 0 follows the call, the subprogram is the last exit. -/
def farCall (n : Nat) : List BpfInsn :=
  .callSub (Int32.ofNat (n + 1)) :: (List.replicate n (.movImm 0 0) ++ [.exit, .exit])

section FarCall

variable {n i : Nat}

theorem farCall_length : (farCall n).length = n + 3 := by
  simp only [farCall, List.length_cons, List.length_append, List.length_replicate, List.length_nil]

theorem farCall_first : (farCall n)[0]? = some (.callSub (Int32.ofNat (n + 1))) := rfl

theorem farCall_mov (h1 : 1 ≤ i) (hn : i ≤ n) : (farCall n)[i]? = some (.movImm 0 0) := by
  obtain ⟨i, rfl⟩ : ∃ j, i = j + 1 := ⟨i - 1, by omega⟩
  rw [farCall, List.getElem?_cons_succ, List.getElem?_append_left (by rw [List.length_replicate]; omega),
    List.getElem?_replicate, if_pos (by omega)]

theorem farCall_exit (h : i = n + 1 ∨ i = n + 2) : (farCall n)[i]? = some .exit := by
  obtain ⟨i, rfl⟩ : ∃ j, i = j + 1 := ⟨i - 1, by omega⟩
  rw [farCall, List.getElem?_cons_succ, List.getElem?_append_right (by simp; omega),
    List.length_replicate]
  rcases h with h | h
  · have h0 : i - n = 0 := by omega
    rw [h0]
    rfl
  · have h0 : i - n = 1 := by omega
    rw [h0]
    rfl

/-- The only call is the first instruction. -/
theorem farCall_call {offset : Int32} (hget : (farCall n)[i]? = some (.callSub offset)) :
    i = 0 ∧ offset = Int32.ofNat (n + 1) := by
  obtain ⟨hlt, -⟩ := List.getElem?_eq_some_iff.mp hget
  rw [farCall_length] at hlt
  rcases Nat.eq_zero_or_pos i with rfl | hpos
  · cases hget
    exact ⟨rfl, rfl⟩
  · exfalso
    rcases Nat.lt_or_ge n i with hi | hi
    · rw [farCall_exit (by omega)] at hget
      cases hget
    · rw [farCall_mov hpos hi] at hget
      cases hget

theorem farCall_tail {insn : BpfInsn} (h : insn ∈ List.replicate n (.movImm 0 0) ++ [.exit, .exit]) :
    insn = .movImm 0 0 ∨ insn = .exit := by
  rcases List.mem_append.mp h with hm | he
  · exact .inl (List.eq_of_mem_replicate hm)
  · right
    simpa using he

theorem farCall_target (hn : n + 3 ≤ 2 ^ 31) : callTarget 0 (Int32.ofNat (n + 1)) = n + 2 := by
  have hoff : (Int32.ofNat (n + 1)).toInt = n + 1 := Int32.toInt_ofNat_of_lt (by omega)
  unfold callTarget
  rw [hoff]
  omega

theorem addStarts_noCalls {insnCnt pc : Nat} {rest : List BpfInsn} {starts : List Nat}
    (h : ∀ insn ∈ rest, insn.isCallSub = false) : addStarts insnCnt pc rest starts = .ok starts := by
  induction rest generalizing pc with
  | nil => rfl
  | cons insn rest ih =>
    have hrest := @ih (pc + 1) fun i hi => h i (List.mem_cons_of_mem _ hi)
    cases insn with
    | callSub offset => cases h _ List.mem_cons_self
    | _ => exact hrest

theorem farCall_subprogs (hn : n + 3 ≤ 2 ^ 31) : addSubprog (farCall n) = .ok [0, n + 2] := by
  have htail : addStarts (n + 3) 1 (List.replicate n (.movImm 0 0) ++ [.exit, .exit]) [0, n + 2] =
      .ok [0, n + 2] := by
    refine addStarts_noCalls fun insn hi => ?_
    rcases farCall_tail hi with rfl | rfl <;> rfl
  have hstarts : addStarts (farCall n).length 0 (farCall n) [0] = .ok [0, n + 2] := by
    rw [farCall_length, farCall, addStarts, farCall_target hn]
    rw [if_neg (by omega), if_neg (by simp)]
    exact htail
  rw [addSubprog, hstarts]
  show Except.ok (List.insertionSort (· ≤ ·) [0, n + 2]) = _
  simp [List.insertionSort]

theorem farCall_depths : directStackDepths (farCall n) [0, n + 2] = [0, 0] := by
  have hzero : ∀ pc : Nat, ((farCall n)[pc]?.map accessDepth).getD 0 = 0 := by
    intro pc
    cases hget : (farCall n)[pc]? with
    | none => rfl
    | some insn =>
      rcases List.mem_cons.mp (List.mem_of_getElem? hget) with rfl | hi
      · rfl
      · rcases farCall_tail hi with rfl | rfl <;> rfl
  have hdepth : ∀ start stop, subprogDepth (farCall n) start stop = 0 := by
    intro start stop
    unfold subprogDepth
    simp only [hzero]
    induction List.range' start (stop - start) with
    | nil => rfl
    | cons _ _ ih => exact ih
  simp only [directStackDepths, List.mapIdx_cons, List.mapIdx_nil, hdepth]

theorem farCall_range (hi : i ≤ n + 1) :
    findSubprogRange i [0, n + 2] (farCall n).length = (0, n + 2) := by
  have hlast : ¬ n + 2 ≤ i := by omega
  have hnext : i < n + 2 := by omega
  simp [findSubprogRange, hlast, hnext]

theorem farCall_range_sub : findSubprogRange (n + 2) [0, n + 2] (farCall n).length = (n + 2, n + 3) := by
  simp [findSubprogRange, farCall_length]

/-- The one call chain passes the stack check. -/
theorem farCall_depth (hn : n + 3 ≤ 2 ^ 31) :
    checkCombinedStackDepth (farCall n) [0, n + 2] = .ok () := by
  have hsub : visitChain (farCall n) [0, n + 2] [0, 0] 15 1 [0, 1] = .ok () := by
    unfold visitChain
    refine forM_eq_ok.mpr ?_
    rintro ⟨pc, target⟩ hcall
    exfalso
    obtain ⟨hle, -, offset, hget, -⟩ := mem_callsIn.mp hcall
    have hle : (findSubprogRange (n + 2) [0, n + 2] (farCall n).length).1 ≤ pc := hle
    rw [farCall_range_sub] at hle
    have hpc := (farCall_call hget).1
    omega
  have hwrap : ¬ wrapI32 ((0 : Nat) : Int) = wrapI32 (((0 : Nat) : Int) + 1 + (Int32.ofNat (n + 1)).toInt) := by
    rw [wrapI32_eq_iff (by omega), farCall_target hn]
    omega
  have hfound : wrapI32 ((n + 2 : Nat) : Int) =
      wrapI32 (((0 : Nat) : Int) + 1 + (Int32.ofNat (n + 1)).toInt) := by
    rw [wrapI32_eq_iff (by omega), farCall_target hn]
  rw [checkCombinedStackDepth, farCall_depths]
  show visitChain _ _ _ (15 + 1) _ _ = _
  unfold visitChain
  refine forM_eq_ok.mpr ?_
  rintro ⟨pc, target⟩ hcall
  obtain ⟨-, -, offset, hget, rfl⟩ := mem_callsIn.mp hcall
  obtain ⟨rfl, rfl⟩ := farCall_call hget
  have hidx : [0, n + 2].findIdx? (fun (start : Nat) => decide (wrapI32 start =
      wrapI32 (((0 : Nat) : Int) + 1 + (Int32.ofNat (n + 1)).toInt))) = some 1 := by
    simp only [List.findIdx?_cons, decide_eq_false hwrap, decide_eq_true hfound]
    rfl
  dsimp only
  rw [hidx]
  exact hsub

theorem farCall_visit_call (hn : n + 3 ≤ 2 ^ 31) :
    visitInsn 0 (farCall n) [0, n + 2] = .ok [n + 2] := by
  have hfall : ¬ (0 + 1 ∈ [n + 2] ∧ n + 2 ≤ 0 + 1) := by omega
  unfold visitInsn
  rw [farCall_range (by omega), farCall_first]
  simp only [insnNexts, bind, Except.bind, failIf]
  rw [farCall_target hn, if_pos (by simp)]
  dsimp only
  rw [if_neg hfall]

theorem farCall_visit_mov (h1 : 1 ≤ i) (hn : i ≤ n) :
    visitInsn i (farCall n) [0, n + 2] = .ok [i + 1] := by
  have hlast : ¬ n + 2 ≤ i + 1 := by omega
  unfold visitInsn
  rw [farCall_range (by omega), farCall_mov h1 hn]
  simp [insnNexts, BpfInsn.branchOffset, failIf, bind, Except.bind, hlast]

theorem farCall_visit_exit : visitInsn (n + 1) (farCall n) [0, n + 2] = .ok [] := by
  unfold visitInsn
  rw [farCall_range (by omega), farCall_exit (by omega)]
  simp [insnNexts, failIf, bind, Except.bind]

/-- The subprogram returns behind the call. -/
theorem farCall_visit_return (hn : n + 3 ≤ 2 ^ 31) :
    ∃ nexts, visitInsn (n + 2) (farCall n) [0, n + 2] = .ok nexts ∧ 1 ∈ nexts := by
  have hmem : ∀ m, m ∈ ((callSites (farCall n)).filter (·.2 = n + 2)).map (·.1 + 1) ↔ m = 1 := by
    intro m
    constructor
    · intro hm
      obtain ⟨⟨c, target⟩, hsite, rfl⟩ := List.mem_map.mp hm
      obtain ⟨offset, hget, -⟩ := mem_callSites.mp (List.mem_filter.mp hsite).1
      rw [(farCall_call hget).1]
    · rintro rfl
      refine List.mem_map.mpr ⟨(0, n + 2), List.mem_filter.mpr ⟨?_, decide_eq_true rfl⟩, rfl⟩
      exact mem_callSites.mpr ⟨Int32.ofNat (n + 1), rfl, (farCall_target hn).symm⟩
  refine ⟨((callSites (farCall n)).filter (·.2 = n + 2)).map (·.1 + 1), ?_, (hmem 1).mpr rfl⟩
  have hfall : ¬ (n + 2 + 1 ∈ ((callSites (farCall n)).filter (·.2 = n + 2)).map (·.1 + 1) ∧
      n + 3 ≤ n + 2 + 1) := by
    rw [hmem]
    omega
  unfold visitInsn
  rw [farCall_range_sub, farCall_exit (by omega)]
  simp only [insnNexts, bind, Except.bind, failIf]
  rw [if_neg (by omega : ¬ n + 2 = 0), if_neg hfall]

/-- The program passes the graph check. -/
theorem farCall_accepts (hn : n + 3 ≤ 2 ^ 31) : CfgAccepts (farCall n) [0, n + 2] := by
  obtain ⟨nexts, hreturn, hmem⟩ := farCall_visit_return hn
  have hedge : ∀ {a b : Nat} {l : List Nat}, visitInsn a (farCall n) [0, n + 2] = .ok l → b ∈ l →
      b ∈ cfgEdges (farCall n) [0, n + 2] a := fun hv hb => mem_cfgEdges.mpr ⟨_, hv, hb⟩
  have hsub : Relation.ReflTransGen (fun a b => b ∈ cfgEdges (farCall n) [0, n + 2] a) 0 (n + 2) :=
    .single (hedge (farCall_visit_call hn) (List.mem_singleton.mpr rfl))
  have hmain : ∀ i, i ≤ n →
      Relation.ReflTransGen (fun a b => b ∈ cfgEdges (farCall n) [0, n + 2] a) 0 (i + 1) := by
    intro i
    induction i with
    | zero => exact fun _ => hsub.tail (hedge hreturn hmem)
    | succ i ih =>
      intro hi
      have hprev := ih (by omega)
      exact hprev.tail (hedge (farCall_visit_mov (by omega) (by omega)) (List.mem_singleton.mpr rfl))
  refine ⟨by simp [farCall], ?_, ?_, ?_⟩
  · intro i start hi
    cases i with
    | zero => exact ⟨.exit, farCall_exit (by simp), rfl⟩
    | succ i =>
      cases i with
      | zero => exact ⟨.exit, farCall_exit (by simp [farCall_length]), rfl⟩
      | succ i => cases hi
  · intro idx hlt
    rw [farCall_length] at hlt
    rcases Nat.eq_zero_or_pos idx with rfl | hpos
    · exact ⟨_, farCall_visit_call hn⟩
    · rcases Nat.lt_or_ge n idx with hi | hi
      · rcases Nat.lt_or_ge (n + 1) idx with hj | hj
        · obtain rfl : idx = n + 2 := by omega
          exact ⟨nexts, hreturn⟩
        · obtain rfl : idx = n + 1 := by omega
          exact ⟨_, farCall_visit_exit⟩
      · exact ⟨_, farCall_visit_mov hpos hi⟩
  · intro idx hlt
    rw [farCall_length] at hlt
    rcases Nat.eq_zero_or_pos idx with rfl | hpos
    · exact .refl
    · obtain ⟨i, rfl⟩ : ∃ i, idx = i + 1 := ⟨idx - 1, by omega⟩
      rcases Nat.lt_or_ge n i with hi | hi
      · obtain rfl : i = n + 1 := by omega
        exact hsub
      · exact hmain i hi

end FarCall

/-- A call with offset 32768 passes the three checks, which take it to instruction 32769;
    the verifier wraps the offset to -32768 and goes to the pc 2^32 - 32767. -/
theorem far_call :
    addSubprog (farCall 32767) = .ok [0, 32769] ∧
    checkCombinedStackDepth (farCall 32767) [0, 32769] = .ok () ∧
    (∃ fuel heads, cfgFuel (farCall 32767) [0, 32769] < fuel ∧
      checkCfg fuel (farCall 32767) [0, 32769] = some (.ok heads)) ∧
    ∃ callee, successors 0 (.callSub 32768) (.initialWith .socketFilter) = .ok [(4294934529, callee)] ∧
      (farCall 32767)[0]? = some (.callSub 32768) ∧
      4294934529 ∉ cfgEdges (farCall 32767) [0, 32769] 0 := by
  have hn : 32767 + 3 ≤ 2 ^ 31 := by decide
  have hsub : addSubprog (farCall 32767) = .ok [0, 32769] := farCall_subprogs hn
  have hacc : CfgAccepts (farCall 32767) [0, 32769] := farCall_accepts hn
  have hcheck : ∃ fuel heads, cfgFuel (farCall 32767) [0, 32769] < fuel ∧
      checkCfg fuel (farCall 32767) [0, 32769] = some (.ok heads) := by
    have hfuel := Nat.lt_succ_self (cfgFuel (farCall 32767) [0, 32769])
    obtain ⟨heads, hcfg⟩ := checkCfg_of_accepts hsub hacc hfuel
    exact ⟨_, heads, hfuel, hcfg⟩
  have hfirst : (farCall 32767)[0]? = some (.callSub (Int32.ofNat (32767 + 1))) := farCall_first
  have hoff : Int32.ofNat (32767 + 1) = 32768 := by decide
  rw [hoff] at hfirst
  have hpc : branchTarget 0 (32768 : Int32).toInt16 = 4294934529 := by decide
  obtain ⟨callee, hcallee⟩ : ∃ callee, (VerifierState.initialWith .socketFilter).callSubprog 1 =
      .ok callee := ⟨_, rfl⟩
  have hexec : successors 0 (.callSub 32768) (.initialWith .socketFilter) =
      .ok [(4294934529, callee)] := by
    simp only [successors, callSubprogAt, hcallee, bind, Except.bind, hpc]
  refine ⟨hsub, farCall_depth hn, hcheck, callee, hexec, hfirst, ?_⟩
  have hvisit : visitInsn 0 (farCall 32767) [0, 32769] = .ok [32769] := farCall_visit_call hn
  simp only [cfgEdges, hvisit]
  decide

end RandVerifier
