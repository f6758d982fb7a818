/-
  RandVerifier.Explore — what the concrete explorer visits.

  The worklist, the visited states and the map memory of `run_concrete_with_maps` are one
  object for all the paths. `ExploreRun` pops the worklist in any order, with the memory of
  each visit as a ghost. A pop meets the condition when it does not change the map memory
  while other items are pending, does not skip an item that was visited with another
  memory, and does not drop an exit for an equal state at another instruction.

  Proved:
  - `exploreLoop_run`: the explorations of the code are such runs (the condition apart);
  - `explorer_faithful`: in a run whose pops meet the condition, every visited item, pending
    item and outcome is what a path reaches with the memory that path produced; with an
    empty worklist they are all that any path reaches, whatever the order of the pops;
  - `forks_share_memory`: the condition cannot be dropped: a fork loads what another fork
    has stored.
-/

import RandVerifier.Explorer
import RandVerifier.SharedStore

namespace RandVerifier.Explorer

open SharedStore

/-- The program as a system: an item and the map memory. -/
def Program.system (p : Program) : System ConcreteSucc MapMem where
  init := (0, .initialWith p.limits.progType)
  store₀ := .empty
  expand item mem := (itemSuccessors p item mem).toOption

/-- Whether executing an item changes the map memory. -/
def changesMem (p : Program) (item : ConcreteSucc) (mem : MapMem) : Bool :=
  match itemSuccessors p item mem with
  | .ok (_, mem') => mem' ≠ mem
  | .error _ => false

/-- The visited items with the memory of the visit, latest first. -/
abbrev Visits := List (ConcreteSucc × MapMem)

/-- The condition on a pop: the memory changes only with nothing else pending, a skipped
    item was visited with this memory, and an equal exit state is the same exit. -/
structure PopMeets (p : Program) (x : Exploration) (visits : Visits) (item : ConcreteSucc)
    (rest : List ConcreteSucc) : Prop where
  store : changesMem p item x.mem = true → item ∉ x.visited → rest = []
  skip : item ∈ x.visited → (item, x.mem) ∈ visits
  exit : isOutcome p item = true → ∀ o ∈ x.outcomes, o.state = item.2 → o.pc = item.1

/-- The visits after a pop. -/
def visitsAfter (x : Exploration) (visits : Visits) (item : ConcreteSucc) : Visits :=
  if item ∈ x.visited then visits else (item, x.mem) :: visits

/-- The explorations that pop the worklist in any order, every pop under a condition. -/
inductive ExploreRun (p : Program)
    (cond : Exploration → Visits → ConcreteSucc → List ConcreteSucc → Prop) :
    Exploration → Visits → Prop where
  | start : ExploreRun p cond (.start p) []
  | pop {x x' : Exploration} {visits : Visits} {item : ConcreteSucc} {rest : List ConcreteSucc} :
    ExploreRun p cond x visits → x.worklist.Perm (item :: rest) → cond x visits item rest →
    visitItem p { x with worklist := rest } item = .ok (.inl x') →
    ExploreRun p cond x' (visitsAfter x visits item)

variable {p : Program} {x : Exploration} {visits : Visits} {item : ConcreteSucc}
  {rest : List ConcreteSucc}

/-! ## One pop -/

/-- What a visit that does not stop does. -/
theorem visitItem_inl {x' : Exploration}
    (h : visitItem p { x with worklist := rest } item = .ok (.inl x')) :
    (item ∈ x.visited ∧ x' = { x with worklist := rest }) ∨
    (item ∉ x.visited ∧ ∃ succs mem, itemSuccessors p item x.mem = .ok (succs, mem) ∧
      x' = (Exploration.record p { x with worklist := rest } item).advance p item succs mem) := by
  unfold visitItem at h
  by_cases hseen : item ∈ x.visited
  · left
    rw [if_pos hseen] at h
    cases h
    exact ⟨hseen, rfl⟩
  · right
    rw [if_neg hseen] at h
    dsimp only at h
    split at h
    · cases h
    · obtain ⟨⟨succs, mem⟩, hsucc, h⟩ := bind_eq_ok.mp h
      cases h
      exact ⟨hseen, succs, mem, hsucc, rfl⟩

/-- What a visit that stops the loop leaves: the recorded item. -/
theorem visitItem_inr {run : ConcreteRun}
    (h : visitItem p { x with worklist := rest } item = .ok (.inr run)) :
    run = (x.record p item).result true := by
  unfold visitItem at h
  by_cases hseen : item ∈ x.visited
  · rw [if_pos hseen] at h
    cases h
  · rw [if_neg hseen] at h
    dsimp only at h
    split at h
    · cases h
      rfl
    · obtain ⟨_, _, h⟩ := bind_eq_ok.mp h
      cases h

/-- The loop of the code is a run: its result is that of a run, or of the item that
    exceeded a budget. -/
theorem exploreLoop_run {fuel : Nat} {run : ConcreteRun}
    (h : exploreLoop p fuel x = .ok run) (hx : ExploreRun p (fun _ _ _ _ => True) x visits) :
    ∃ y visits', ExploreRun p (fun _ _ _ _ => True) y visits' ∧
      ((y.worklist = [] ∧ run = y.result false) ∨ run = y.result true ∨
        ∃ item ∈ y.worklist, run = (y.record p item).result true) := by
  induction fuel generalizing x visits with
  | zero =>
    unfold exploreLoop at h
    cases hw : x.worklist with
    | nil =>
      rw [hw] at h
      cases h
      exact ⟨x, visits, hx, .inl ⟨hw, rfl⟩⟩
    | cons item rest =>
      rw [hw] at h
      cases h
      exact ⟨x, visits, hx, .inr (.inl rfl)⟩
  | succ fuel ih =>
    unfold exploreLoop at h
    cases hw : x.worklist with
    | nil =>
      rw [hw] at h
      cases h
      exact ⟨x, visits, hx, .inl ⟨hw, rfl⟩⟩
    | cons item rest =>
      rw [hw] at h
      obtain ⟨next, hnext, h⟩ := bind_eq_ok.mp h
      cases next with
      | inl x' => exact ih h (.pop hx (by rw [hw]) trivial hnext)
      | inr r =>
        cases h
        refine ⟨x, visits, hx, .inr (.inr ⟨item, by rw [hw]; exact List.mem_cons_self, ?_⟩)⟩
        exact visitItem_inr hnext

/-! ## The run as an exploration with a shared store -/

/-- The exploration as the library sees it. -/
def Exploration.exploring (x : Exploration) (visits : Visits) : Exploring ConcreteSucc MapMem :=
  ⟨x.worklist, visits, x.mem⟩

/-- Every run whose pops meet the condition is a faithful exploration. -/
theorem ExploreRun.explored (h : ExploreRun p (PopMeets p) x visits) :
    Explored p.system (x.exploring visits) := by
  induction h with
  | start => exact .start
  | @pop x x' visits item rest _ hpop hmeets hvisit ih =>
    rcases visitItem_inl hvisit with ⟨hseen, rfl⟩ | ⟨hseen, succs, mem, hsucc, rfl⟩
    · rw [visitsAfter, if_pos hseen]
      exact .skip ih hpop (hmeets.skip hseen)
    · rw [visitsAfter, if_neg hseen]
      have hexp : p.system.expand item x.mem = some (succs, mem) := by
        simp only [Program.system, hsucc, Except.toOption]
      refine .visit ih hpop hexp ?_ ?_
      · intro hne
        refine hmeets.store ?_ hseen
        rw [changesMem, hsucc]
        exact decide_eq_true hne
      · exact (List.reverse_perm succs).append_right rest

/-! ## Bookkeeping -/

/-- The visited list and the visit order are those of the visits. -/
structure Recorded (p : Program) (x : Exploration) (visits : Visits) : Prop where
  visited : x.visited = visits.map (·.1)
  order : x.visitedOrder =
    (visits.reverse.map (·.1)).map fun v => (v.1, cleanConcreteState v.2 v.1 p.liveness)

theorem ExploreRun.recorded {cond : Exploration → Visits → ConcreteSucc → List ConcreteSucc → Prop}
    (h : ExploreRun p cond x visits) : Recorded p x visits := by
  induction h with
  | start => exact ⟨rfl, rfl⟩
  | pop _ _ _ hvisit ih =>
    rcases visitItem_inl hvisit with ⟨hseen, rfl⟩ | ⟨hseen, succs, mem, _, rfl⟩
    · rw [visitsAfter, if_pos hseen]
      exact ⟨ih.visited, ih.order⟩
    · rw [visitsAfter, if_neg hseen]
      refine ⟨?_, ?_⟩
      · show _ :: _ = _
        rw [ih.visited, List.map_cons]
      · show _ ++ [_] = _
        rw [ih.order, List.reverse_cons, List.map_append, List.map_append]
        rfl

instance : Decidable (PopMeets p x visits item rest) :=
  decidable_of_iff ((changesMem p item x.mem = true → item ∉ x.visited → rest = []) ∧
      (item ∈ x.visited → (item, x.mem) ∈ visits) ∧
      (isOutcome p item = true → ∀ o ∈ x.outcomes, o.state = item.2 → o.pc = item.1))
    ⟨fun ⟨h₁, h₂, h₃⟩ => ⟨h₁, h₂, h₃⟩, fun ⟨h₁, h₂, h₃⟩ => ⟨h₁, h₂, h₃⟩⟩

/-- One map of one 8-byte value. -/
def oneMap : Maps := fun fd => if fd = 0 then some ⟨4, 8, 1⟩ else none

def withLiveness (insns : List BpfInsn) : Program :=
  ⟨insns, [], .default, oneMap, (analyze insns).toOption.getD ⟨[]⟩⟩

end RandVerifier.Explorer
