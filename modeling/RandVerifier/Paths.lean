/-
  RandVerifier.Paths — abstract paths, and the rounds of the exploration.

  A path starts in the initial state and takes successors, or returns from a subprogram at
  a nested exit; nothing is pruned.

  - `iterate_cases`: what one round of the exploration does with the item it pops.
  - `mini_path`: every item the exploration ever pushes is the end of a path.
-/

import RandVerifier.Flow
import RandVerifier.Mini
import RandVerifier.Transition

namespace RandVerifier

/-! ## Paths -/

/-- One step of a path. -/
inductive PathStep (program : List BpfInsn) : Succ → Succ → Prop
  | next {pc : Nat} {st : VerifierState} {insn : BpfInsn} {l : List Succ} {x : Succ} :
      program[pc]? = some insn → successors pc insn st = .ok l → x ∈ l → PathStep program (pc, st) x
  | ret {pc : Nat} {st : VerifierState} :
      program[pc]? = some .exit → 0 < st.curframe → (st.regs 0).isPtrToStack = false →
      PathStep program (pc, st) (st.retPc, st.returnFromSubprog.1)

/-- The states at the end of the paths of a program. -/
abbrev Path (program : List BpfInsn) (progType : ProgType) : Succ → Prop :=
  Reach (· = (0, .initialWith progType)) (PathStep program)

/-- The ends of the paths whose steps all start where `Q` holds. -/
abbrev PathWhere (Q : Succ → Prop) (program : List BpfInsn) (progType : ProgType) : Succ → Prop :=
  Reach (· = (0, .initialWith progType)) fun x y => PathStep program x y ∧ Q x

/-- The states between the rounds of an exploration. -/
abbrev MiniReach (env : MiniEnv) : MiniState → Prop :=
  Reach (· = initialMini env.limits) fun s t => iterate env s = .ok (some t)

/-- The same, as long as `Q` holds of every item that is popped. -/
abbrev MiniReachWhere (env : MiniEnv) (Q : Succ → Prop) : MiniState → Prop :=
  Reach (· = initialMini env.limits) fun s t =>
    iterate env s = .ok (some t) ∧ ∀ item, s.worklist.head? = some item → Q (item.pc, item.state)

/-! ## Rounds -/

/-- The state after a number of rounds, none of them on an empty worklist, `q` holding of
    every item that is popped. -/
def roundsWhere (env : MiniEnv) (q : Succ → Bool) : Nat → MiniState → Exec MiniState
  | 0, s => .ok s
  | n + 1, s =>
    match s.worklist.head?, iterate env s with
    | some item, .ok (some t) =>
      if q (item.pc, item.state) then roundsWhere env q n t else .error .panic
    | _, .error e => .error e
    | _, _ => .error .panic

theorem roundsWhere_reach {env : MiniEnv} {q : Succ → Bool} {n : Nat} {s t : MiniState}
    (h : MiniReachWhere env (fun x => q x = true) s) (ht : roundsWhere env q n s = .ok t) :
    MiniReachWhere env (fun x => q x = true) t := by
  induction n generalizing s with
  | zero =>
    cases ht
    exact h
  | succ n ih =>
    simp only [roundsWhere] at ht
    split at ht
    · rename_i item t' hhead hiter
      split at ht
      · rename_i hq
        refine ih (.step h ⟨hiter, fun item' hitem' => ?_⟩) ht
        rw [hhead] at hitem'
        cases hitem'
        exact hq
      · cases ht
    · cases ht
    · cases ht

/-- The state of a round after the pop. -/
def popped (s : MiniState) (rest : List WorkItem) : MiniState :=
  { s with worklist := rest, steps := s.steps + 1, insnProcessed := s.insnProcessed + 1 }

/-- The state of a round once its instruction is counted. -/
def counted (s : MiniState) (insn : BpfInsn) : MiniState :=
  if insn.isControlFlow || insn.isHelperCall then { s with jmpsProcessed := s.jmpsProcessed + 1 }
  else s

/-- What a round does with a popped item, from the state after the pop to the one in
    which the item is consumed. -/
inductive Handled (env : MiniEnv) (item : WorkItem) (insn : BpfInsn) (s : MiniState) :
    MiniState → Prop
  | pruned {cps : List Checkpoint} : visit env s item (cleanedState env item) = .ok (.inl cps) →
      Handled env item insn s { s with checkpoints := cps }
  | nested {s1 s2 t : MiniState} {last : Option Nat} :
      visit env s item (cleanedState env item) = .ok (.inr (s1, last)) →
      charge env s1 item.pc (cleanedState env item) = .ok s2 →
      insn = .exit → 0 < item.state.curframe → (item.state.regs 0).isPtrToStack = false →
      pushItems (counted s2 insn) item.lastCp
        [⟨item.state.retPc, item.state.returnFromSubprog.1, item.lastCp, []⟩] = .ok t →
      Handled env item insn s t
  | main {s1 s2 : MiniState} {last : Option Nat} :
      visit env s item (cleanedState env item) = .ok (.inr (s1, last)) →
      charge env s1 item.pc (cleanedState env item) = .ok s2 →
      insn = .exit → item.state.curframe = 0 → Handled env item insn s (counted s2 insn)
  | expanded {s1 s2 t : MiniState} {last : Option Nat} {nexts : List Succ} :
      visit env s item (cleanedState env item) = .ok (.inr (s1, last)) →
      charge env s1 item.pc (cleanedState env item) = .ok s2 →
      insn ≠ .exit → successors item.pc insn item.state = .ok nexts →
      pushItems { counted s2 insn with
        checkpoints := (markRequired env (counted s2 insn).checkpoints item last
          (precisionRegs insn item.state nexts.length)) } last
        (nextItems item last (histEntry item.pc insn item.state) nexts) = .ok t →
      Handled env item insn s t

/-- A round that succeeds pops an item inside the program, within the step budget, handles
    it and consumes it. -/
theorem iterate_cases {env : MiniEnv} {s t : MiniState} (h : iterate env s = .ok (some t)) :
    ∃ item rest insn mid, s.worklist = item :: rest ∧ env.program[item.pc]? = some insn ∧
      s.steps < env.limits.maxSteps ∧ Handled env item insn (popped s rest) mid ∧
      consume mid item = .ok t := by
  unfold iterate at h
  split at h
  · cases h
  · rename_i item rest hw
    simp only [bind_eq_ok, failIf_eq_ok] at h
    obtain ⟨_, hsteps, h⟩ := h
    split at h
    · exact (fail_ne_ok.mp h).elim
    · rename_i insn hpc
      obtain ⟨t', h, ht⟩ := map_eq_ok.mp h
      cases ht
      suffices hmid : ∃ mid, Handled env item insn (popped s rest) mid ∧ consume mid item = .ok t by
        obtain ⟨mid, hmid, ht⟩ := hmid
        exact ⟨item, rest, insn, mid, hw, hpc, by omega, hmid, ht⟩
      simp only [exploreItem, bind_eq_ok] at h
      obtain ⟨r, hv, h⟩ := h
      split at h
      · exact ⟨_, .pruned hv, h⟩
      · simp only [bind_eq_ok] at h
        obtain ⟨s2, hc, h⟩ := h
        simp only [execItem] at h
        split at h
        · rename_i hexit
          split at h
          · rename_i hcur
            simp only [nestedExit, bind_eq_ok, failIf_eq_ok, Bool.not_eq_true] at h
            obtain ⟨_, hr0, mid, hp, h⟩ := h
            exact ⟨mid, .nested hv hc hexit hcur hr0 hp, h⟩
          · simp only [mainExit, bind_eq_ok] at h
            obtain ⟨r0, -, _, -, _, -, h⟩ := h
            exact ⟨_, .main hv hc hexit (by omega), h⟩
        · rename_i hexit
          simp only [expand, bind_eq_ok] at h
          obtain ⟨nexts, hs, mid, hp, h⟩ := h
          exact ⟨mid, .expanded hv hc hexit hs hp, h⟩

/-! ## The worklist -/

theorem applyScan_worklist (s : MiniState) (item : WorkItem) (c : VerifierState) (scan : VisitScan) :
    (applyScan s item c scan).1.worklist = s.worklist := by
  unfold applyScan
  dsimp only
  split <;> rfl

theorem visit_worklist {env : MiniEnv} {s s1 : MiniState} {item : WorkItem} {c : VerifierState}
    {last : Option Nat} (h : visit env s item c = .ok (.inr (s1, last))) :
    s1.worklist = s.worklist := by
  unfold visit at h
  split at h
  · simp only [bind_eq_ok] at h
    obtain ⟨r, -, h⟩ := h
    split at h
    · cases h
    · exact (fail_ne_ok.mp h).elim
    · simp only [Except.ok.injEq, Sum.inr.injEq] at h
      have hw := applyScan_worklist s item c ‹VisitScan›
      rwa [h] at hw
  · cases h
    rfl

theorem charge_eq {env : MiniEnv} {s s2 : MiniState} {pc : Nat} {c : VerifierState}
    (h : charge env s pc c = .ok s2) :
    s2.worklist = s.worklist ∧ s2.checkpoints = s.checkpoints ∧ s2.visited = s.visited := by
  simp only [charge, bind_eq_ok] at h
  obtain ⟨_, -, _, -, h⟩ := h
  cases h
  exact ⟨rfl, rfl, rfl⟩

theorem counted_eq (s : MiniState) (insn : BpfInsn) :
    (counted s insn).worklist = s.worklist ∧ (counted s insn).checkpoints = s.checkpoints ∧
      (counted s insn).visited = s.visited := by
  unfold counted
  split <;> exact ⟨rfl, rfl, rfl⟩

theorem pushItems_worklist {s t : MiniState} {last : Option Nat} {items : List WorkItem}
    (h : pushItems s last items = .ok t) : t.worklist = items ++ s.worklist := by
  simp only [pushItems, bind_eq_ok] at h
  obtain ⟨cps, -, h⟩ := h
  cases h
  rfl

theorem consume_worklist {s t : MiniState} {item : WorkItem} (h : consume s item = .ok t) :
    t.worklist = s.worklist := by
  simp only [consume, bind_eq_ok] at h
  obtain ⟨cps, -, h⟩ := h
  cases h
  rfl

/-- The items a round pushes are one step further on the path of the item it popped. -/
theorem handled_worklist {env : MiniEnv} {item : WorkItem} {insn : BpfInsn} {s t : MiniState}
    (hpc : env.program[item.pc]? = some insn) (h : Handled env item insn s t) :
    ∃ items, t.worklist = items ++ s.worklist ∧
      ∀ i ∈ items, PathStep env.program (item.pc, item.state) (i.pc, i.state) := by
  cases h with
  | pruned _ => exact ⟨[], rfl, by simp⟩
  | nested hv hc hexit hcur hr0 hp =>
    refine ⟨[⟨item.state.retPc, item.state.returnFromSubprog.1, item.lastCp, []⟩], ?_, ?_⟩
    · rw [pushItems_worklist hp, (counted_eq _ _).1, (charge_eq hc).1, visit_worklist hv]
    · intro i hi
      rw [List.mem_singleton] at hi
      subst hi
      exact .ret (hexit ▸ hpc) hcur hr0
  | main hv hc hexit hcur =>
    exact ⟨[], by rw [(counted_eq _ _).1, (charge_eq hc).1, visit_worklist hv]; rfl, by simp⟩
  | @expanded s1 s2 t last nexts hv hc hexit hs hp =>
    refine ⟨nextItems item last (histEntry item.pc insn item.state) nexts, ?_, ?_⟩
    · rw [pushItems_worklist hp]
      dsimp only
      rw [(counted_eq _ _).1, (charge_eq hc).1, visit_worklist hv]
    · intro i hi
      simp only [nextItems, List.mem_map] at hi
      obtain ⟨x, hx, rfl⟩ := hi
      exact .next hpc hs hx

/-- Every item of the worklist of an exploration is the end of a path, through the items
    that were popped. -/
theorem mini_pathWhere {env : MiniEnv} {Q : Succ → Prop} {s : MiniState} (h : MiniReachWhere env Q s) :
    ∀ item ∈ s.worklist, PathWhere Q env.program env.limits.progType (item.pc, item.state) := by
  induction h with
  | init h0 =>
    subst h0
    intro item hi
    simp only [initialMini, List.mem_singleton] at hi
    subst hi
    exact .init rfl
  | step _ hst ih =>
    intro item hi
    obtain ⟨p, rest, insn, mid, hw, hpc, -, hr, hc⟩ := iterate_cases hst.1
    obtain ⟨items, ht, hitems⟩ := handled_worklist hpc hr
    rw [consume_worklist hc, ht, List.mem_append] at hi
    rcases hi with hi | hi
    · have hq := hst.2 p (by rw [hw, List.head?_cons])
      exact .step (ih p (by rw [hw]; exact List.mem_cons_self)) ⟨hitems item hi, hq⟩
    · exact ih item (by rw [hw]; exact List.mem_cons_of_mem _ hi)

theorem mini_path {env : MiniEnv} {s : MiniState} (h : MiniReach env s) {item : WorkItem}
    (hi : item ∈ s.worklist) : Path env.program env.limits.progType (item.pc, item.state) := by
  have hwhere : MiniReachWhere env (fun _ => True) s :=
    h.mono (fun _ h0 => h0) fun _ _ hst => ⟨hst, fun _ _ => trivial⟩
  exact (mini_pathWhere hwhere item hi).mono (fun _ h0 => h0) fun _ _ hst => hst.1

/-! ## Runs of a program -/

/-- A run of a program and the first item of its worklist after some rounds, `q` holding
    of every item popped on the way. -/
def itemWhere (q : Succ → Bool) (program : List BpfInsn) (n : Nat) :
    Option (MiniEnv × MiniState × WorkItem) :=
  match miniEnv program [] .default with
  | .error _ => none
  | .ok env => match roundsWhere env q n (initialMini env.limits) with
    | .error _ => none
    | .ok s => s.worklist.head?.map fun item => (env, s, item)

def itemAfter (program : List BpfInsn) (n : Nat) : Option (MiniEnv × MiniState × WorkItem) :=
  itemWhere (fun _ => true) program n

theorem itemWhere_eq_some {q : Succ → Bool} {program : List BpfInsn} {n : Nat} {env : MiniEnv}
    {s : MiniState} {item : WorkItem} (h : itemWhere q program n = some (env, s, item)) :
    miniEnv program [] .default = .ok env ∧ MiniReachWhere env (fun x => q x = true) s ∧
      item ∈ s.worklist := by
  unfold itemWhere at h
  split at h
  · cases h
  · rename_i env' henv
    split at h
    · cases h
    · rename_i s' hs
      obtain ⟨item', hitem, heq⟩ := Option.map_eq_some_iff.mp h
      cases heq
      exact ⟨henv, roundsWhere_reach (.init rfl) hs, List.mem_of_head? hitem⟩

theorem itemAfter_eq_some {program : List BpfInsn} {n : Nat} {env : MiniEnv} {s : MiniState}
    {item : WorkItem} (h : itemAfter program n = some (env, s, item)) :
    miniEnv program [] .default = .ok env ∧ MiniReach env s ∧ item ∈ s.worklist := by
  obtain ⟨henv, hs, hi⟩ := itemWhere_eq_some h
  exact ⟨henv, hs.mono (fun _ h0 => h0) fun _ _ hst => hst.1, hi⟩

end RandVerifier
