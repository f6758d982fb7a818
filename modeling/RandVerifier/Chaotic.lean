/-
  RandVerifier.Chaotic — solving monotone equations one unknown at a time.

  A system has an equation `x i = step i x` for each of finitely many nodes `i`, monotone in
  `x`. A visit replaces the value of one node by what its equation says; a run visits nodes
  in the order of a list. From the least assignment:

    * every run stays below every solution (`run_le`), so a run that ends in a solution ends
      in the least one, whatever its order (`run_isLeast`);
    * a run only raises values (`le_run`), so a pass over all nodes that changes nothing has
      found a solution (`pass_solution`);
    * a bounded rank of the values bounds the number of passes (`passes_stop`).
-/

import Mathlib.Algebra.BigOperators.Group.Finset.Basic
import Mathlib.Algebra.Order.BigOperators.Group.Finset
import Mathlib.Order.Bounds.Basic
import Mathlib.Order.BoundedOrder.Basic

namespace RandVerifier.Chaotic

structure System (ι α : Type) [PartialOrder α] where
  nodes : Finset ι
  step : ι → (ι → α) → α
  mono : ∀ i, Monotone (step i)

namespace System

variable {ι α : Type} [DecidableEq ι] [PartialOrder α] (S : System ι α)

/-- The value of a node is recomputed. -/
def visit (x : ι → α) (i : ι) : ι → α := Function.update x i (S.step i x)

def run (schedule : List ι) (x : ι → α) : ι → α := schedule.foldl S.visit x

/-- Every equation holds. -/
def Solution (x : ι → α) : Prop := ∀ i ∈ S.nodes, x i = S.step i x

/-- No equation asks for less. -/
def Ascending (x : ι → α) : Prop := ∀ i ∈ S.nodes, x i ≤ S.step i x

/-- A schedule that visits nodes only. -/
def Within (schedule : List ι) : Prop := ∀ i ∈ schedule, i ∈ S.nodes

variable {S} {x y : ι → α} {i : ι} {schedule : List ι}

/-! ## Below every solution -/

theorem visit_le (hy : S.Solution y) (hi : i ∈ S.nodes) (hx : x ≤ y) : S.visit x i ≤ y := by
  intro j
  by_cases hj : j = i
  · subst hj
    rw [visit, Function.update_self, hy j hi]
    exact S.mono j hx
  · rw [visit, Function.update_of_ne hj]
    exact hx j

theorem run_le (hy : S.Solution y) (hs : S.Within schedule) (hx : x ≤ y) : S.run schedule x ≤ y := by
  induction schedule generalizing x with
  | nil => exact hx
  | cons i rest ih =>
    exact ih (fun j hj => hs j (List.mem_cons_of_mem _ hj)) (visit_le hy (hs i List.mem_cons_self) hx)

/-- A run from the least assignment that ends in a solution ends in the least one. -/
theorem run_isLeast [OrderBot α] (hs : S.Within schedule) (h : S.Solution (S.run schedule ⊥)) :
    IsLeast {y | S.Solution y} (S.run schedule ⊥) :=
  ⟨h, fun _ hy => run_le hy hs bot_le⟩

/-! ## Upwards -/

theorem le_visit (hx : S.Ascending x) (hi : i ∈ S.nodes) : x ≤ S.visit x i := by
  intro j
  by_cases hj : j = i
  · subst hj
    rw [visit, Function.update_self]
    exact hx j hi
  · rw [visit, Function.update_of_ne hj]

theorem Ascending.visit (hx : S.Ascending x) (hi : i ∈ S.nodes) : S.Ascending (S.visit x i) := by
  intro j hj
  refine le_trans ?_ (S.mono j (le_visit hx hi))
  by_cases hji : j = i
  · subst hji
    rw [System.visit, Function.update_self]
  · rw [System.visit, Function.update_of_ne hji]
    exact hx j hj

theorem Ascending.run (hx : S.Ascending x) (hs : S.Within schedule) :
    S.Ascending (S.run schedule x) ∧ x ≤ S.run schedule x := by
  induction schedule generalizing x with
  | nil => exact ⟨hx, le_refl x⟩
  | cons i rest ih =>
    have hi := hs i List.mem_cons_self
    obtain ⟨hrest, hle⟩ := ih (hx.visit hi) fun j hj => hs j (List.mem_cons_of_mem _ hj)
    exact ⟨hrest, (le_visit hx hi).trans hle⟩

/-- A run that changes nothing has found the equations of the nodes it visits to hold. -/
theorem run_fixed (hx : S.Ascending x) (hs : S.Within schedule) (hfix : S.run schedule x = x) :
    ∀ i ∈ schedule, x i = S.step i x := by
  induction schedule with
  | nil =>
    intro i hi
    cases hi
  | cons i rest ih =>
    have hi := hs i List.mem_cons_self
    have hrest : S.Within rest := fun j hj => hs j (List.mem_cons_of_mem _ hj)
    -- the first visit lies between the start and the end
    have hfirst : S.visit x i = x :=
      le_antisymm (le_of_le_of_eq ((hx.visit hi).run hrest).2 hfix) (le_visit hx hi)
    intro j hj
    rcases List.mem_cons.mp hj with rfl | hj
    · have := congrFun hfirst j
      rw [visit, Function.update_self] at this
      exact this.symm
    · refine ih hrest ?_ j hj
      have hrun : S.run rest (S.visit x i) = x := hfix
      rwa [hfirst] at hrun

theorem pass_solution (hx : S.Ascending x) (hs : ∀ i, i ∈ schedule ↔ i ∈ S.nodes)
    (hfix : S.run schedule x = x) : S.Solution x :=
  fun i hi => run_fixed hx (fun j hj => (hs j).mp hj) hfix i ((hs i).mpr hi)

omit [DecidableEq ι] in
theorem ascending_bot [OrderBot α] : S.Ascending ⊥ := fun _ _ => bot_le

/-! ## The number of passes -/

/-- The ranks of all nodes. -/
def totalRank (S : System ι α) (rank : α → Nat) (x : ι → α) : Nat := ∑ i ∈ S.nodes, rank (x i)

omit [DecidableEq ι] in
theorem totalRank_le {rank : α → Nat} {bound : Nat} (hbound : ∀ a, rank a ≤ bound) (x : ι → α) :
    totalRank S rank x ≤ S.nodes.card * bound := by
  calc ∑ i ∈ S.nodes, rank (x i)
      ≤ S.nodes.card • bound := Finset.sum_le_card_nsmul _ _ _ fun i _ => hbound (x i)
    _ = S.nodes.card * bound := rfl

/-- A run keeps the values outside of the nodes. -/
theorem run_outside (hs : S.Within schedule) {j : ι} (hj : j ∉ S.nodes) : S.run schedule x j = x j := by
  induction schedule generalizing x with
  | nil => rfl
  | cons i rest ih =>
    have hi := hs i List.mem_cons_self
    have hne : j ≠ i := fun h => hj (h ▸ hi)
    have hrest := ih (fun k hk => hs k (List.mem_cons_of_mem _ hk)) (x := S.visit x i)
    rw [visit, Function.update_of_ne hne] at hrest
    exact hrest

theorem totalRank_lt {rank : α → Nat} (hrank : StrictMono rank) (hx : S.Ascending x) (hs : S.Within schedule)
    (hne : S.run schedule x ≠ x) : totalRank S rank x < totalRank S rank (S.run schedule x) := by
  have hle := (hx.run hs).2
  have hnode : ∃ i ∈ S.nodes, S.run schedule x i ≠ x i := by
    by_contra hall
    push Not at hall
    refine hne (funext fun j => ?_)
    by_cases hj : j ∈ S.nodes
    · exact hall j hj
    · exact run_outside hs hj
  obtain ⟨i, hi, hdiffer⟩ := hnode
  refine Finset.sum_lt_sum (fun j _ => hrank.monotone (hle j)) ⟨i, hi, hrank ?_⟩
  exact lt_of_le_of_ne (hle i) hdiffer.symm

/-- Passes that raise a bounded rank stop: one of so many passes changes nothing. -/
theorem passes_stop {rank : α → Nat} {bound : Nat} (hrank : StrictMono rank) (hbound : ∀ a, rank a ≤ bound)
    (hs : S.Within schedule) (hx : S.Ascending x) {n : Nat}
    (hn : S.nodes.card * bound ≤ n + totalRank S rank x) :
    ∃ k ≤ n, (S.run schedule)^[k + 1] x = (S.run schedule)^[k] x := by
  induction n generalizing x with
  | zero =>
    refine ⟨0, Nat.le_refl 0, ?_⟩
    by_contra hne
    have hlt := totalRank_lt hrank hx hs hne
    have hle := totalRank_le hbound (S := S) (S.run schedule x)
    omega
  | succ n ih =>
    by_cases hfix : S.run schedule x = x
    · exact ⟨0, Nat.zero_le _, hfix⟩
    · have hlt := totalRank_lt hrank hx hs hfix
      obtain ⟨k, hk, hstop⟩ := ih (hx.run hs).1 (by omega)
      exact ⟨k + 1, by omega, hstop⟩

theorem iterate_run (schedule : List ι) (k : Nat) (x : ι → α) :
    (S.run schedule)^[k] x = S.run (List.replicate k schedule).flatten x := by
  induction k generalizing x with
  | zero => rfl
  | succ k ih =>
    rw [Function.iterate_succ_apply, ih, List.replicate_succ, List.flatten_cons, run, run, run, List.foldl_append]

omit [DecidableEq ι] in
theorem Within.replicate (hs : S.Within schedule) (k : Nat) : S.Within (List.replicate k schedule).flatten := by
  intro i hi
  obtain ⟨l, hl, hi⟩ := List.mem_flatten.mp hi
  rw [List.eq_of_mem_replicate hl] at hi
  exact hs i hi

end System

end RandVerifier.Chaotic
