/-
  RandVerifier.Worklist — a depth-first exploration with a stack of nodes to visit.

  The stack may hold a node several times and nodes outside of the graph; a node is expanded
  when it is popped for the first time. Every expansion pushes the node's successors, so the
  number of edges bounds the pops (`explore_done`), and the nodes that are seen are those that
  are reached from the root (`mem_reach`).
-/

import Mathlib.Algebra.BigOperators.Group.List.Basic
import Mathlib.Algebra.GroupWithZero.Nat
import Mathlib.Data.List.Nodup
import Mathlib.Logic.Relation

namespace RandVerifier.Worklist

open Relation

variable {α : Type} [DecidableEq α]

/-- Pop a node; unless it is outside of the graph or seen, mark it and push its successors. -/
def explore (nodes : List α) (edges : α → List α) : Nat → List α → List α → List α
  | 0, _, seen => seen
  | _, [], seen => seen
  | fuel + 1, x :: stack, seen =>
    if x ∉ nodes ∨ x ∈ seen then explore nodes edges fuel stack seen
    else explore nodes edges fuel ((edges x).reverse ++ stack) (x :: seen)

/-- The number of edges. -/
def edgeCount (nodes : List α) (edges : α → List α) : Nat := (nodes.map fun x => (edges x).length).sum

/-- What an exploration from a root sees. -/
def reach (nodes : List α) (edges : α → List α) (root : α) : List α :=
  explore nodes edges (edgeCount nodes edges + 1) [root] []

/-- An edge of the graph. -/
def Edge (nodes : List α) (edges : α → List α) (a b : α) : Prop := b ∈ edges a ∧ b ∈ nodes

/-- The edges of the nodes that are not seen. -/
def unseenEdges (nodes : List α) (edges : α → List α) (seen : List α) : Nat :=
  edgeCount (nodes.filter (· ∉ seen)) edges

section Fuel

variable {nodes : List α} {edges : α → List α} {x : α} {stack seen : List α}

/-- Marking a node takes its edges from what is left. -/
theorem unseenEdges_mark (hn : nodes.Nodup) (hx : x ∈ nodes) (hnew : x ∉ seen) :
    unseenEdges nodes edges (x :: seen) + (edges x).length = unseenEdges nodes edges seen := by
  unfold unseenEdges edgeCount
  induction nodes with
  | nil => cases hx
  | cons y nodes ih =>
    obtain ⟨hy, hn⟩ := List.nodup_cons.mp hn
    by_cases hxy : y = x
    · subst hxy
      have hrest : nodes.filter (fun z => decide (z ∉ y :: seen)) = nodes.filter fun z => decide (z ∉ seen) := by
        refine List.filter_congr fun z hz => ?_
        have hne : z ≠ y := fun h => hy (h ▸ hz)
        simp [hne]
      simp only [List.filter_cons, List.mem_cons, true_or, not_true, decide_false, Bool.false_eq_true, if_false,
        hnew, not_false_iff, decide_true, if_true, List.map_cons, List.sum_cons]
      simp only [List.mem_cons] at hrest
      rw [hrest, Nat.add_comm]
    · have hrest := ih hn ((List.mem_cons.mp hx).resolve_left (Ne.symm hxy))
      by_cases hseen : y ∈ seen
      · simp only [List.filter_cons, List.mem_cons, hseen, or_true, not_true, decide_false, Bool.false_eq_true,
          if_false] at hrest ⊢
        exact hrest
      · simp only [List.filter_cons, List.mem_cons, hxy, hseen, or_false, not_false_iff, decide_true, if_true,
          List.map_cons, List.sum_cons] at hrest ⊢
        omega

/-- What an exploration ends with: nothing that was seen is lost, and what is new is in the
    graph, closed under its edges and reached from the stack. -/
structure Explored (nodes : List α) (edges : α → List α) (stack seen seen' : List α) : Prop where
  kept : ∀ x ∈ seen, x ∈ seen'
  popped : ∀ x ∈ stack, x ∈ nodes → x ∈ seen'
  closed : ∀ a ∈ seen', a ∉ seen → a ∈ nodes ∧ ∀ b ∈ edges a, b ∈ nodes → b ∈ seen'
  origin : ∀ a ∈ seen', a ∉ seen → ∃ r ∈ stack, r ∈ nodes ∧ ReflTransGen (Edge nodes edges) r a

omit [DecidableEq α] in
theorem explored_nil : Explored nodes edges [] seen seen :=
  ⟨fun _ h => h, nofun, fun _ h hnew => absurd h hnew, fun _ h hnew => absurd h hnew⟩

theorem explore_done (hn : nodes.Nodup) (fuel : Nat)
    (hfuel : stack.length + unseenEdges nodes edges seen ≤ fuel) :
    Explored nodes edges stack seen (explore nodes edges fuel stack seen) := by
  induction fuel generalizing stack seen with
  | zero =>
    cases stack with
    | nil => exact explored_nil
    | cons x stack => simp at hfuel
  | succ fuel ih =>
    cases stack with
    | nil => exact explored_nil
    | cons x stack =>
      rw [List.length_cons] at hfuel
      unfold explore
      split
      · rename_i hskip
        have h := @ih stack seen (by omega)
        refine ⟨h.kept, fun y hy hin => ?_, h.closed, fun a ha hnew => ?_⟩
        · rcases List.mem_cons.mp hy with rfl | hy
          · exact h.kept y (hskip.resolve_left fun hout => hout hin)
          · exact h.popped y hy hin
        · obtain ⟨r, hr, hpath⟩ := h.origin a ha hnew
          exact ⟨r, List.mem_cons_of_mem _ hr, hpath⟩
      · rename_i hskip
        rw [not_or, not_not] at hskip
        obtain ⟨hx, hnew⟩ := hskip
        have hmark := @unseenEdges_mark _ _ nodes edges x seen hn hx hnew
        have h := @ih ((edges x).reverse ++ stack) (x :: seen) (by
          rw [List.length_append, List.length_reverse]
          omega)
        have hself := h.kept x List.mem_cons_self
        have hold : ∀ a, a ∉ seen → a ≠ x → a ∉ x :: seen :=
          fun a hanew hax hin => (List.mem_cons.mp hin).elim hax hanew
        refine ⟨fun y hy => h.kept y (List.mem_cons_of_mem _ hy), fun y hy hin => ?_, fun a ha hanew => ?_,
          fun a ha hanew => ?_⟩
        · rcases List.mem_cons.mp hy with rfl | hy
          · exact hself
          · exact h.popped y (List.mem_append.mpr (.inr hy)) hin
        · by_cases hax : a = x
          · subst hax
            exact ⟨hx, fun b hb hin => h.popped b (List.mem_append.mpr (.inl (List.mem_reverse.mpr hb))) hin⟩
          · exact h.closed a ha (hold a hanew hax)
        · by_cases hax : a = x
          · subst hax
            exact ⟨a, List.mem_cons_self, hx, .refl⟩
          · obtain ⟨r, hr, hin, hpath⟩ := h.origin a ha (hold a hanew hax)
            rcases List.mem_append.mp hr with hr | hr
            · exact ⟨x, List.mem_cons_self, hx, .head ⟨List.mem_reverse.mp hr, hin⟩ hpath⟩
            · exact ⟨r, List.mem_cons_of_mem _ hr, hin, hpath⟩

/-- An exploration sees exactly what is reached from its root. -/
theorem mem_reach (hn : nodes.Nodup) {root : α} :
    x ∈ reach nodes edges root ↔ root ∈ nodes ∧ ReflTransGen (Edge nodes edges) root x := by
  have hall : unseenEdges nodes edges [] = edgeCount nodes edges := by
    unfold unseenEdges
    rw [List.filter_eq_self.mpr fun _ _ => by simp]
  have h := @explore_done _ _ nodes edges [root] [] hn (edgeCount nodes edges + 1) (by
    rw [hall, List.length_singleton]
    omega)
  constructor
  · intro hx
    obtain ⟨r, hr, hin, hpath⟩ := h.origin x hx List.not_mem_nil
    rw [List.mem_singleton.mp hr] at hin hpath
    exact ⟨hin, hpath⟩
  · rintro ⟨hroot, hpath⟩
    induction hpath with
    | refl => exact h.popped root List.mem_cons_self hroot
    | tail _ hstep ih => exact (h.closed _ ih List.not_mem_nil).2 _ hstep.1 hstep.2

end Fuel

end RandVerifier.Worklist
