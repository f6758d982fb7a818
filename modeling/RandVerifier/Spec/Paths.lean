/-
  RandVerifier.Spec.Paths — the paths of the safety-spec verifier, and what its run explores.

  A path goes from point to point; between two of its steps the other paths of the run may
  have drawn ids, so the counter may have grown. Everything the run visits is on a path
  (`Explored.reached`), and a run that accepts has visited a set of nodes that is closed
  under steps (`accept_closed`).
-/

import RandVerifier.Spec.Steps

namespace RandVerifier.Spec

/-- A point of a path: the id counter, the pc and the state. -/
structure Point where
  nextId : Nat
  pc : Nat
  state : SpecState

def Point.initial : Point := ⟨firstRefId, 0, .initial⟩

/-- One step of a path through an instruction. -/
inductive Edge (env : Env) : Point → BpfInsn → Point → Prop
  | step {c c₀ c' pc pc' : Nat} {s s' : SpecState} {insn : BpfInsn} {nodes : List Node} : c ≤ c₀ →
      env.program[pc]? = some insn → step env c₀ pc s insn = .ok (nodes, c') → (pc', s') ∈ nodes →
      Edge env ⟨c, pc, s⟩ insn ⟨c', pc', s'⟩

/-- The points that paths from the start reach. -/
inductive Reached (env : Env) : Point → Prop
  | start : Reached env .initial
  | edge {p q : Point} {insn : BpfInsn} : Reached env p → Edge env p insn q → Reached env q

section Counter

variable {env : Env} {c c' pc : Nat} {s s' : SpecState} {insn : BpfInsn} {nodes : List Node}

theorem setResult_le {ret : SpecRet} (h : setResult s pc c ret = .ok (s', c')) : c ≤ c' := by
  cases ret with
  | memOrNull =>
    simp only [setResult] at h
    split at h
    · obtain ⟨-, rfl⟩ := Prod.mk.inj (Except.ok.inj h)
      omega
    · cases h
  | _ =>
    obtain ⟨-, rfl⟩ := Prod.mk.inj (Except.ok.inj h)
    omega

/-- The counter never decreases. -/
theorem step_le (h : step env c pc s insn = .ok (nodes, c')) : c ≤ c' := by
  by_cases hcall : ∃ imm, insn = .call imm
  · obtain ⟨imm, rfl⟩ := hcall
    obtain ⟨⟨t, c''⟩, ht, hn⟩ := exceptMap_ok h
    obtain ⟨-, rfl⟩ := Prod.mk.inj hn
    obtain ⟨proto, s₁, s₂, s₃, -, -, -, -, hres, -⟩ := helperCall_ok ht
    exact setResult_le hres
  · have hstep : step env c pc s insn = (stepPlain env pc s insn).map fun nodes => (nodes, c) := by
      cases insn with
      | call imm => exact absurd ⟨imm, rfl⟩ hcall
      | _ => rfl
    rw [hstep] at h
    obtain ⟨ns, -, hn⟩ := exceptMap_ok h
    obtain ⟨-, rfl⟩ := Prod.mk.inj hn
    exact le_refl c

end Counter

theorem Edge.le {env : Env} {p q : Point} {insn : BpfInsn} (h : Edge env p insn q) : p.nextId ≤ q.nextId := by
  cases h with
  | step hle _ hstep _ => exact le_trans hle (step_le hstep)

/-- The next point of a path, by the place of the successor in its step. -/
def Point.next (env : Env) (p : Point) (k : Nat) : Option (BpfInsn × Point) :=
  match env.program[p.pc]? with
  | none => none
  | some insn =>
    match step env p.nextId p.pc p.state insn with
    | .error _ => none
    | .ok (nodes, c) => nodes[k]?.map fun n => (insn, ⟨c, n.1, n.2⟩)

theorem next_edge {env : Env} {p q : Point} {k : Nat} {insn : BpfInsn} (h : p.next env k = some (insn, q)) :
    Edge env p insn q := by
  unfold Point.next at h
  split at h
  · cases h
  · rename_i insn' hinsn
    split at h
    · cases h
    · rename_i nodes c hstep
      obtain ⟨n, hn, heq⟩ := Option.map_eq_some_iff.mp h
      obtain ⟨rfl, rfl⟩ := Prod.mk.inj heq
      exact .step (le_refl _) hinsn hstep (List.mem_of_getElem? hn)

/-! ## The run -/

/-- The runners between the pops of a run. -/
inductive Explored (env : Env) : Runner → Prop
  | start : Explored env .initial
  | pop {r r' : Runner} {pc : Nat} {s : SpecState} {rest : List Node} : Explored env r →
      r.worklist = (pc, s) :: rest → r.visit env pc s rest = .ok r' → Explored env r'

variable {env : Env} {r r' : Runner}

/-- A pop drops the item, or expands it. -/
theorem visit_ok {pc : Nat} {s : SpecState} {rest : List Node} (h : r.visit env pc s rest = .ok r') :
    ((pc, s) ∈ r.visited ∧ isLoopHead env.program pc = false ∧ r' = { r with worklist := rest }) ∨
    ((pc, s) ∉ r.visited ∧ ∃ insn nodes nextId, env.program[pc]? = some insn ∧
      step env r.nextId pc s insn = .ok (nodes, nextId) ∧
      r' = ⟨nodes.reverse ++ rest, (pc, s) :: r.visited, nextId⟩) := by
  unfold Runner.visit failure at h
  split at h
  · cases h
  · rename_i insn hinsn
    split at h
    · rename_i hmem
      split at h
      · cases h
      · rename_i hhead
        exact .inl ⟨hmem, by simpa using hhead, (Except.ok.inj h).symm⟩
    · rename_i hmem
      obtain ⟨⟨nodes, nextId⟩, hstep, hr⟩ := bind_eq_ok.mp h
      exact .inr ⟨hmem, insn, nodes, nextId, hinsn, hstep, (Except.ok.inj hr).symm⟩

/-- A node is on a path that drew no ids beyond a counter. -/
def OnPath (env : Env) (c : Nat) (n : Node) : Prop := ∃ p, Reached env p ∧ p.nextId ≤ c ∧ (p.pc, p.state) = n

theorem OnPath.mono {c c' : Nat} {n : Node} (h : OnPath env c n) (hle : c ≤ c') : OnPath env c' n := by
  obtain ⟨p, hp, hc, hn⟩ := h
  exact ⟨p, hp, le_trans hc hle, hn⟩

/-- Everything that waits or was visited is on a path. -/
theorem Explored.reached (h : Explored env r) :
    (∀ n ∈ r.worklist, OnPath env r.nextId n) ∧ ∀ n ∈ r.visited, OnPath env r.nextId n := by
  induction h with
  | start =>
    refine ⟨?_, nofun⟩
    intro n hn
    rw [List.mem_singleton.mp hn]
    exact ⟨.initial, .start, le_refl _, rfl⟩
  | @pop r r' pc s rest _ hpop hvisit ih =>
    obtain ⟨hwork, hvis⟩ := ih
    rw [hpop] at hwork
    rcases visit_ok hvisit with ⟨-, -, rfl⟩ | ⟨-, insn, nodes, nextId, hinsn, hstep, rfl⟩
    · exact ⟨fun n hn => hwork n (List.mem_cons_of_mem _ hn), hvis⟩
    · have hle := step_le hstep
      have hhead := hwork (pc, s) List.mem_cons_self
      refine ⟨?_, ?_⟩
      · intro n hn
        rcases List.mem_append.mp hn with hnew | hrest
        · obtain ⟨p, hp, hc, heq⟩ := hhead
          obtain ⟨rfl, rfl⟩ := Prod.mk.inj heq
          refine ⟨⟨nextId, n.1, n.2⟩, .edge hp (.step hc hinsn hstep (List.mem_reverse.mp hnew)), le_refl _, rfl⟩
        · exact (hwork n (List.mem_cons_of_mem _ hrest)).mono hle
      · intro n hn
        rcases List.mem_cons.mp hn with rfl | hold
        · exact hhead.mono hle
        · exact (hvis n hold).mono hle

/-- What was visited has been expanded: its successors were visited or wait. -/
def Expanded (env : Env) (known : Node → Prop) (n : Node) : Prop :=
  ∃ insn c nodes c', env.program[n.1]? = some insn ∧ step env c n.1 n.2 insn = .ok (nodes, c') ∧
    ∀ m ∈ nodes, known m

theorem Explored.expanded (h : Explored env r) :
    ((0, SpecState.initial) ∈ r.visited ∨ (0, SpecState.initial) ∈ r.worklist) ∧
      ∀ n ∈ r.visited, Expanded env (fun m => m ∈ r.visited ∨ m ∈ r.worklist) n := by
  induction h with
  | start => exact ⟨.inr List.mem_cons_self, nofun⟩
  | @pop r r' pc s rest _ hpop hvisit ih =>
    obtain ⟨hinit, hexp⟩ := ih
    rcases visit_ok hvisit with ⟨hmem, -, rfl⟩ | ⟨-, insn, nodes, nextId, hinsn, hstep, rfl⟩
    · -- the item was known already
      have keep : ∀ m, m ∈ r.visited ∨ m ∈ r.worklist → m ∈ r.visited ∨ m ∈ rest := by
        rintro m (hv | hw)
        · exact .inl hv
        · rw [hpop] at hw
          rcases List.mem_cons.mp hw with rfl | hrest
          · exact .inl hmem
          · exact .inr hrest
      refine ⟨keep _ hinit, ?_⟩
      intro n hn
      obtain ⟨insn, c, nodes, c', hi, hs, hall⟩ := hexp n hn
      exact ⟨insn, c, nodes, c', hi, hs, fun m hm => keep m (hall m hm)⟩
    · have keep : ∀ m, m ∈ r.visited ∨ m ∈ r.worklist →
          m ∈ (pc, s) :: r.visited ∨ m ∈ nodes.reverse ++ rest := by
        rintro m (hv | hw)
        · exact .inl (List.mem_cons_of_mem _ hv)
        · rw [hpop] at hw
          rcases List.mem_cons.mp hw with rfl | hrest
          · exact .inl List.mem_cons_self
          · exact .inr (List.mem_append_right _ hrest)
      refine ⟨keep _ hinit, ?_⟩
      intro n hn
      rcases List.mem_cons.mp hn with rfl | hold
      · refine ⟨insn, _, nodes, _, hinsn, hstep, ?_⟩
        intro m hm
        exact .inr (List.mem_append_left _ (List.mem_reverse.mpr hm))
      · obtain ⟨insn', c, nodes', c', hi, hs, hall⟩ := hexp n hold
        exact ⟨insn', c, nodes', c', hi, hs, fun m hm => keep m (hall m hm)⟩

/-- An accepting run ends with an empty worklist. -/
theorem run_accept {maxStates steps : Nat} (hr : Explored env r) (h : r.run env maxStates steps = .accept) :
    ∃ r', Explored env r' ∧ r'.worklist = [] := by
  induction steps generalizing r with
  | zero =>
    unfold Runner.run at h
    split at h
    · rename_i hnil
      exact ⟨r, hr, hnil⟩
    · cases h
  | succ steps ih =>
    unfold Runner.run at h
    split at h
    · rename_i hnil
      exact ⟨r, hr, hnil⟩
    · rename_i pc s rest hpop
      dsimp only at h
      split at h
      · cases h
      · split at h
        · rename_i v _
          exact absurd h v.property
        · rename_i r' hvisit
          exact ih (.pop hr hpop hvisit) h

/-- The nodes that an accepting run visited: they contain the start, and every one steps
    into the set. -/
theorem accept_closed {limits : SpecLimits} (h : verifySpecLimited env limits = .accept) :
    ∃ V : List Node, (0, .initial) ∈ V ∧ ∀ n ∈ V, Expanded env (· ∈ V) n := by
  obtain ⟨r, hr, hnil⟩ := run_accept .start h
  obtain ⟨hinit, hexp⟩ := hr.expanded
  have known : ∀ m, m ∈ r.visited ∨ m ∈ r.worklist → m ∈ r.visited := by
    rintro m (hv | hw)
    · exact hv
    · rw [hnil] at hw
      cases hw
  refine ⟨r.visited, known _ hinit, ?_⟩
  intro n hn
  obtain ⟨insn, c, nodes, c', hi, hs, hall⟩ := hexp n hn
  exact ⟨insn, c, nodes, c', hi, hs, fun m hm => known m (hall m hm)⟩

end RandVerifier.Spec
