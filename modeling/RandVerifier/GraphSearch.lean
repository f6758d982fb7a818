/-
  RandVerifier.GraphSearch — depth-first search with an explicit stack.

  The stack holds the nodes being explored, the innermost first, each with the number of
  its edges that were taken; an edge to a node on the stack is a back edge, and its target
  is recorded as a head. Over any graph `edges : α → List α`:
  - `Move.potential`: a move takes one unit of the work left, so a search of a finite graph
    ends, after one move for each node and each edge at most.
  - `explored_iff`: a search that ended has explored what the root reaches.
  - `cycle_has_head`: every cycle of explored nodes goes through a head; the nodes in the
    order in which they were finished are the certificate (`Settled`).
-/

import RandVerifier.Transition
import Mathlib.Algebra.BigOperators.Group.Finset.Basic
import Mathlib.Algebra.GroupWithZero.Nat
import Mathlib.Logic.Function.Basic
import Mathlib.Logic.Relation

namespace RandVerifier

inductive VisitState where
  | notVisited
  | discovering
  | explored
  deriving DecidableEq, Repr

/-- A search under way: what was visited, the stack, and the heads found so far. -/
structure Search (α : Type) where
  visit : α → VisitState
  stack : List (α × Nat)
  heads : List α

namespace Search

variable {α : Type}

/-- A search at its root. -/
def start [DecidableEq α] (root : α) : Search α :=
  ⟨Function.update (fun _ => .notVisited) root .discovering, [(root, 0)], []⟩

/-- One move: along the next edge of the innermost node, or out of it. -/
inductive Move [DecidableEq α] (edges : α → List α) : Search α → Search α → Prop
  | discover {s : Search α} {u v : α} {c : Nat} {rest : List (α × Nat)} :
      s.stack = (u, c) :: rest → (edges u)[c]? = some v → s.visit v = .notVisited →
      Move edges s ⟨Function.update s.visit v .discovering, (v, 0) :: (u, c + 1) :: rest, s.heads⟩
  | back {s : Search α} {u v : α} {c : Nat} {rest : List (α × Nat)} :
      s.stack = (u, c) :: rest → (edges u)[c]? = some v → s.visit v = .discovering →
      Move edges s ⟨s.visit, (u, c + 1) :: rest, if v ∈ s.heads then s.heads else s.heads ++ [v]⟩
  | cross {s : Search α} {u v : α} {c : Nat} {rest : List (α × Nat)} :
      s.stack = (u, c) :: rest → (edges u)[c]? = some v → s.visit v = .explored →
      Move edges s ⟨s.visit, (u, c + 1) :: rest, s.heads⟩
  | finish {s : Search α} {u : α} {c : Nat} {rest : List (α × Nat)} :
      s.stack = (u, c) :: rest → (edges u)[c]? = none →
      Move edges s ⟨Function.update s.visit u .explored, rest, s.heads⟩

/-! ## The invariant -/

/-- Finished nodes, the last one first: every edge leads to a head or to a node finished
    before. -/
inductive Settled (edges : α → List α) (heads : List α) : List α → Prop
  | nil : Settled edges heads []
  | cons {u : α} {done : List α} : u ∉ done → (∀ v ∈ edges u, v ∈ heads ∨ v ∈ done) →
      Settled edges heads done → Settled edges heads (u :: done)

/-- The first `c` edges of a node lead to heads or to finished nodes. -/
def Taken (edges : α → List α) (heads done : List α) (u : α) (c : Nat) : Prop :=
  ∀ i < c, ∀ v, (edges u)[i]? = some v → v ∈ heads ∨ v ∈ done

/-- The stack below a node: each entry waits for the one above it. -/
def Waits (edges : α → List α) (heads done : List α) : α → List (α × Nat) → Prop
  | _, [] => True
  | a, (b, c) :: rest => (∃ i, c = i + 1 ∧ (edges b)[i]? = some a ∧ Taken edges heads done b i) ∧
      Waits edges heads done b rest

structure Inv (edges : α → List α) (root : α) (s : Search α) (done : List α) : Prop where
  settled : Settled edges s.heads done
  explored : ∀ u, s.visit u = .explored ↔ u ∈ done
  discovering : ∀ u, s.visit u = .discovering ↔ u ∈ s.stack.map Prod.fst
  distinct : (s.stack.map Prod.fst).Nodup
  top : ∀ u c rest, s.stack = (u, c) :: rest →
    c ≤ (edges u).length ∧ Taken edges s.heads done u c ∧ Waits edges s.heads done u rest
  heads : s.heads.Nodup ∧ ∀ v ∈ s.heads, s.visit v ≠ .notVisited
  reached : ∀ u, s.visit u ≠ .notVisited → Relation.ReflTransGen (fun a b => b ∈ edges a) root u
  root : s.visit root ≠ .notVisited

section Growth

variable {edges : α → List α} {heads heads' done done' : List α}

theorem Settled.mono (hh : ∀ v ∈ heads, v ∈ heads') (h : Settled edges heads done) :
    Settled edges heads' done := by
  induction h with
  | nil => exact .nil
  | cons hnew hedges _ ih => exact .cons hnew (fun v hv => (hedges v hv).imp (hh v) id) ih

theorem Taken.mono {u : α} {c : Nat} (hh : ∀ v ∈ heads, v ∈ heads') (hd : ∀ v ∈ done, v ∈ done')
    (h : Taken edges heads done u c) : Taken edges heads' done' u c :=
  fun i hi v hv => (h i hi v hv).imp (hh v) (hd v)

theorem Waits.mono (hh : ∀ v ∈ heads, v ∈ heads') (hd : ∀ v ∈ done, v ∈ done') {a : α}
    {rest : List (α × Nat)} (h : Waits edges heads done a rest) :
    Waits edges heads' done' a rest := by
  induction rest generalizing a with
  | nil => trivial
  | cons e rest ih =>
    obtain ⟨⟨i, hc, hedge, ht⟩, hrest⟩ := h
    exact ⟨⟨i, hc, hedge, ht.mono hh hd⟩, ih hrest⟩

/-- Taking an edge to a head or a finished node. -/
theorem Taken.succ {u v : α} {c : Nat} (h : Taken edges heads done u c)
    (hedge : (edges u)[c]? = some v) (hv : v ∈ heads ∨ v ∈ done) : Taken edges heads done u (c + 1) := by
  intro i hi w hw
  by_cases hic : i = c
  · subst hic
    rw [hedge] at hw
    cases hw
    exact hv
  · exact h i (by omega) w hw

/-- An edge of a visited node leads to a node that the root reaches. -/
theorem Inv.reached_edge {edges : α → List α} {root : α} {s : Search α} {done : List α}
    (hi : Inv edges root s done) {u v : α} {c : Nat}
    (hu : s.visit u ≠ .notVisited) (hedge : (edges u)[c]? = some v) :
    Relation.ReflTransGen (fun a b => b ∈ edges a) root v :=
  (hi.reached u hu).tail (List.mem_of_getElem? hedge)

/-- Taking an edge to a visited node that is a head from now on, or finished. -/
theorem Inv.advance {edges : α → List α} {root : α} {s : Search α} {done : List α}
    (hi : Inv edges root s done) {u v : α} {c : Nat}
    {rest : List (α × Nat)} {heads : List α} (hs : s.stack = (u, c) :: rest) (hedge : (edges u)[c]? = some v)
    (hsub : ∀ w ∈ s.heads, w ∈ heads) (hheads : heads.Nodup ∧ ∀ w ∈ heads, s.visit w ≠ .notVisited)
    (hv : v ∈ heads ∨ v ∈ done) : Inv edges root ⟨s.visit, (u, c + 1) :: rest, heads⟩ done := by
  obtain ⟨hc, htaken, hwaits⟩ := hi.top u c rest hs
  have hstack : ((u, c + 1) :: rest).map Prod.fst = s.stack.map Prod.fst := by rw [hs]; rfl
  refine ⟨hi.settled.mono hsub, hi.explored, ?_, ?_, ?_, hheads, hi.reached, hi.root⟩
  · intro w
    rw [hi.discovering, ← hstack]
  · rw [hstack]
    exact hi.distinct
  · intro w d rest' h
    simp only [List.cons.injEq, Prod.mk.injEq] at h
    obtain ⟨⟨rfl, rfl⟩, rfl⟩ := h
    obtain ⟨hlt, -⟩ := List.getElem?_eq_some_iff.mp hedge
    exact ⟨hlt, (htaken.mono hsub fun _ h => h).succ hedge hv, hwaits.mono hsub fun _ h => h⟩

end Growth

section Moves

variable [DecidableEq α] {edges : α → List α} {root : α} {s t : Search α} {done : List α}

theorem inv_start : Inv edges root (start root) [] where
  settled := .nil
  explored u := by
    simp only [start, Function.update_apply, List.not_mem_nil, iff_false]
    split <;> nofun
  discovering u := by
    simp only [start, Function.update_apply, List.map_cons, List.map_nil, List.mem_singleton]
    split <;> simp_all
  distinct := by simp [start]
  top u c rest h := by
    simp only [start, List.cons.injEq, Prod.mk.injEq] at h
    obtain ⟨⟨rfl, rfl⟩, rfl⟩ := h
    exact ⟨Nat.zero_le _, fun i hi => absurd hi (by omega), trivial⟩
  heads := ⟨by simp [start], by simp [start]⟩
  reached u hu := by
    simp only [start, Function.update_apply] at hu
    split at hu
    · rename_i heq
      rw [heq]
    · exact absurd rfl hu
  root := by simp [start]

theorem Inv.discover (hi : Inv edges root s done) {u v : α} {c : Nat} {rest : List (α × Nat)}
    (hs : s.stack = (u, c) :: rest) (hedge : (edges u)[c]? = some v)
    (hv : s.visit v = .notVisited) :
    Inv edges root ⟨Function.update s.visit v .discovering, (v, 0) :: (u, c + 1) :: rest, s.heads⟩
      done := by
  obtain ⟨hc, htaken, hwaits⟩ := hi.top u c rest hs
  have hmem : ∀ w, w ∈ s.stack.map Prod.fst ↔ w = u ∨ w ∈ rest.map Prod.fst := by
    intro w
    rw [hs, List.map_cons, List.mem_cons]
  have hvout : v ∉ s.stack.map Prod.fst := by
    rw [← hi.discovering, hv]
    nofun
  have hvis : s.visit u ≠ .notVisited := by
    rw [(hi.discovering u).mpr ((hmem u).mpr (.inl rfl))]
    nofun
  have hkeep : ∀ w, s.visit w ≠ .notVisited →
      Function.update s.visit v .discovering w ≠ .notVisited := by
    intro w hw
    rw [Function.update_apply]
    split
    · nofun
    · exact hw
  refine ⟨hi.settled, ?_, ?_, ?_, ?_, ⟨hi.heads.1, fun w hw => hkeep w (hi.heads.2 w hw)⟩, ?_,
    hkeep root hi.root⟩
  · intro w
    dsimp only
    rw [← hi.explored, Function.update_apply]
    split
    · rename_i heq
      rw [heq, hv]
      constructor <;> nofun
    · rfl
  · intro w
    simp only [List.map_cons, List.mem_cons, Function.update_apply]
    split
    · rename_i heq
      simp [heq]
    · rename_i hne
      rw [hi.discovering, hmem]
      simp [hne]
  · have hd := hi.distinct
    rw [hs] at hd hvout
    exact List.nodup_cons.mpr ⟨hvout, hd⟩
  · intro w d rest' h
    simp only [List.cons.injEq, Prod.mk.injEq] at h
    obtain ⟨⟨rfl, rfl⟩, rfl⟩ := h
    exact ⟨Nat.zero_le _, fun i h => absurd h (by omega), ⟨c, rfl, hedge, htaken⟩, hwaits⟩
  · intro w hw
    dsimp only at hw
    rw [Function.update_apply] at hw
    split at hw
    · rename_i heq
      rw [heq]
      exact hi.reached_edge hvis hedge
    · exact hi.reached w hw

theorem Inv.back (hi : Inv edges root s done) {u v : α} {c : Nat} {rest : List (α × Nat)}
    (hs : s.stack = (u, c) :: rest) (hedge : (edges u)[c]? = some v)
    (hv : s.visit v = .discovering) :
    Inv edges root ⟨s.visit, (u, c + 1) :: rest, if v ∈ s.heads then s.heads else s.heads ++ [v]⟩
      done := by
  have hvis : s.visit v ≠ .notVisited := by rw [hv]; nofun
  by_cases hmem : v ∈ s.heads
  · rw [if_pos hmem]
    exact hi.advance hs hedge (fun _ h => h) hi.heads (.inl hmem)
  · rw [if_neg hmem]
    refine hi.advance hs hedge (fun w hw => List.mem_append_left _ hw) ⟨?_, ?_⟩ (.inl (by simp))
    · exact hi.heads.1.append (List.nodup_singleton v) (by simpa using hmem)
    · intro w hw
      rcases List.mem_append.mp hw with hw | hw
      · exact hi.heads.2 w hw
      · rw [List.mem_singleton.mp hw]
        exact hvis

theorem Inv.finish (hi : Inv edges root s done) {u : α} {c : Nat} {rest : List (α × Nat)}
    (hs : s.stack = (u, c) :: rest) (hend : (edges u)[c]? = none) :
    Inv edges root ⟨Function.update s.visit u .explored, rest, s.heads⟩ (u :: done) := by
  obtain ⟨hc, htaken, hwaits⟩ := hi.top u c rest hs
  have hlen := List.getElem?_eq_none_iff.mp hend
  have hd := hi.distinct
  rw [hs, List.map_cons, List.nodup_cons] at hd
  have hgray : s.visit u = .discovering := (hi.discovering u).mpr (by rw [hs]; simp)
  have hnew : u ∉ done := by
    rw [← hi.explored, hgray]
    nofun
  have hkeep : ∀ w, s.visit w ≠ .notVisited →
      Function.update s.visit u .explored w ≠ .notVisited := by
    intro w hw
    rw [Function.update_apply]
    split
    · nofun
    · exact hw
  refine ⟨.cons hnew ?_ hi.settled, ?_, ?_, hd.2, ?_,
    ⟨hi.heads.1, fun w hw => hkeep w (hi.heads.2 w hw)⟩, ?_, hkeep root hi.root⟩
  · intro v hv
    obtain ⟨i, hi', hget⟩ := List.getElem_of_mem hv
    exact htaken i (by omega) v (List.getElem?_eq_some_iff.mpr ⟨hi', hget⟩)
  · intro w
    dsimp only
    rw [List.mem_cons, ← hi.explored, Function.update_apply]
    split
    · rename_i heq
      simp [heq]
    · rename_i hne
      simp [hne]
  · intro w
    dsimp only
    rw [Function.update_apply]
    split
    · rename_i heq
      rw [heq]
      exact ⟨nofun, fun h => absurd h hd.1⟩
    · rename_i hne
      rw [hi.discovering, hs, List.map_cons, List.mem_cons]
      simp [hne]
  · intro w d rest' h
    subst h
    obtain ⟨⟨i, rfl, hedge, ht⟩, hw⟩ := hwaits
    obtain ⟨hlt, -⟩ := List.getElem?_eq_some_iff.mp hedge
    have hsub : ∀ v ∈ done, v ∈ u :: done := fun v hv => List.mem_cons_of_mem _ hv
    exact ⟨hlt, (ht.mono (fun _ h => h) hsub).succ hedge (.inr List.mem_cons_self),
      hw.mono (fun _ h => h) hsub⟩
  · intro w hw
    dsimp only at hw
    rw [Function.update_apply] at hw
    split at hw
    · rename_i heq
      rw [heq]
      exact hi.reached u (by rw [hgray]; nofun)
    · exact hi.reached w hw

theorem inv_move (hi : Inv edges root s done) (h : Move edges s t) :
    ∃ done', Inv edges root t done' := by
  cases h with
  | discover hs hedge hv => exact ⟨_, hi.discover hs hedge hv⟩
  | back hs hedge hv => exact ⟨_, hi.back hs hedge hv⟩
  | cross hs hedge hv =>
    exact ⟨_, hi.advance hs hedge (fun _ h => h) hi.heads (.inr ((hi.explored _).mp hv))⟩
  | finish hs hend => exact ⟨_, hi.finish hs hend⟩

theorem inv_reach (h : Reach (· = start root) (Move edges) s) : ∃ done, Inv edges root s done := by
  have hstart : ∀ s, s = start root → ∃ done, Inv edges root s done := by
    rintro _ rfl
    exact ⟨_, inv_start⟩
  have hstep : ∀ s t, (∃ done, Inv edges root s done) → Move edges s t →
      ∃ done, Inv edges root t done := by
    rintro s t ⟨done, hi⟩ hst
    exact inv_move hi hst
  exact h.inv hstart hstep

end Moves

/-! ## Termination -/

section Termination

variable [DecidableEq α] {edges : α → List α} {root : α} {s t : Search α} {done : List α}

/-- The work of a node: its edges and its finish. -/
def nodeWork (edges : α → List α) (v : α) : Nat := (edges v).length + 1

/-- The moves left: the nodes not visited, and what the stack still has to do. -/
def work (edges : α → List α) (nodes : Finset α) (s : Search α) : Nat :=
  (∑ v ∈ nodes.filter (s.visit · = .notVisited), nodeWork edges v) +
    (s.stack.map fun e => nodeWork edges e.1 - e.2).sum

theorem filter_update {nodes : Finset α} {visit : α → VisitState} {v : α} {c : VisitState}
    (hc : c ≠ .notVisited) : nodes.filter (Function.update visit v c · = .notVisited) =
      (nodes.filter (visit · = .notVisited)).erase v := by
  ext w
  simp only [Finset.mem_filter, Finset.mem_erase, Function.update_apply]
  split
  · rename_i heq
    simp [heq, hc]
  · rename_i hne
    simp [hne]

theorem work_start {nodes : Finset α} (hroot : root ∈ nodes) :
    work edges nodes (start root) = ∑ v ∈ nodes, nodeWork edges v := by
  have hrest : nodes.filter (Function.update (fun _ => VisitState.notVisited) root .discovering · =
      .notVisited) = nodes.erase root := by
    rw [filter_update (by nofun), Finset.filter_true_of_mem fun _ _ => rfl]
  have hsum := Finset.sum_erase_add _ (nodeWork edges) hroot
  have hwork : work edges nodes (start root) = (∑ v ∈ nodes.erase root, nodeWork edges v) +
      ([(root, 0)].map fun e => nodeWork edges e.1 - e.2).sum := by
    rw [← hrest]
    rfl
  simp only [hwork, List.map_cons, List.map_nil, List.sum_cons, List.sum_nil]
  omega

/-- A move takes one unit of the work left. -/
theorem Move.potential (hi : Inv edges root s done) (h : Move edges s t) {nodes : Finset α}
    (hclosed : ∀ u ∈ nodes, ∀ v ∈ edges u, v ∈ nodes)
    (hstack : ∀ u ∈ s.stack.map Prod.fst, u ∈ nodes) : work edges nodes t + 1 = work edges nodes s := by
  cases h with
  | @discover u v c rest hs hedge hv =>
    obtain ⟨hlt, -⟩ := List.getElem?_eq_some_iff.mp hedge
    have hu : u ∈ nodes := hstack u (by rw [hs]; simp)
    have hvn := hclosed u hu v (List.mem_of_getElem? hedge)
    have hmem : v ∈ nodes.filter (s.visit · = .notVisited) := Finset.mem_filter.mpr ⟨hvn, hv⟩
    have hsum := Finset.sum_erase_add _ (nodeWork edges) hmem
    simp only [work, hs, filter_update (by nofun : VisitState.discovering ≠ .notVisited),
      List.map_cons, List.sum_cons]
    have hwork : nodeWork edges u = (edges u).length + 1 := rfl
    omega
  | @back u v c rest hs hedge hv =>
    obtain ⟨hlt, -⟩ := List.getElem?_eq_some_iff.mp hedge
    simp only [work, hs, List.map_cons, List.sum_cons, nodeWork]
    omega
  | @cross u v c rest hs hedge hv =>
    obtain ⟨hlt, -⟩ := List.getElem?_eq_some_iff.mp hedge
    simp only [work, hs, List.map_cons, List.sum_cons, nodeWork]
    omega
  | @finish u c rest hs hend =>
    obtain ⟨hc, -, -⟩ := hi.top u c rest hs
    have hlen := List.getElem?_eq_none_iff.mp hend
    have hgray : s.visit u = .discovering := (hi.discovering u).mpr (by rw [hs]; simp)
    have hnot : u ∉ nodes.filter (s.visit · = .notVisited) := by
      rw [Finset.mem_filter, hgray]
      exact fun h => nomatch h.2
    simp only [work, hs, filter_update (by nofun : VisitState.explored ≠ .notVisited),
      Finset.erase_eq_of_notMem hnot, List.map_cons, List.sum_cons, nodeWork]
    omega

end Termination

/-! ## The result -/

/-- A closed walk through the listed nodes. -/
def IsCycle (edges : α → List α) (l : List α) : Prop :=
  ∃ u rest, l = u :: rest ∧ List.IsChain (fun a b => b ∈ edges a) (l ++ [u])

theorem transGen_of_isChain {R : α → α → Prop} {u w : α} {rest : List α}
    (h : List.IsChain R (u :: rest ++ [w])) : Relation.TransGen R u w := by
  induction rest generalizing u with
  | nil => exact .single (List.isChain_pair.mp h)
  | cons v rest ih =>
    obtain ⟨huv, hrest⟩ := List.isChain_cons_cons.mp h
    exact .head huv (ih hrest)

section Result

variable {edges : α → List α} {heads done : List α}

theorem Settled.closed (h : Settled edges heads done) {u v : α} (hu : u ∈ done)
    (hedge : v ∈ edges u) : v ∈ heads ∨ v ∈ done := by
  induction h with
  | nil => cases hu
  | cons _ hedges _ ih =>
    rcases List.mem_cons.mp hu with rfl | hu
    · exact (hedges v hedge).imp id (List.mem_cons_of_mem _)
    · exact (ih hu).imp id (List.mem_cons_of_mem _)

/-- Edges that avoid the heads lead to nodes finished before, so they close no cycle. -/
theorem Settled.acyclic (h : Settled edges heads done) {u : α} (hu : u ∈ done) :
    ¬ Relation.TransGen (fun a b => b ∈ edges a ∧ b ∉ heads) u u := by
  induction h with
  | nil => cases hu
  | @cons w done hnew hedges hrest ih =>
    have hstays : ∀ a b, Relation.ReflTransGen (fun a b => b ∈ edges a ∧ b ∉ heads) a b →
        a ∈ done → b ∈ done := by
      intro a b hab ha
      induction hab with
      | refl => exact ha
      | tail _ hstep ih => exact (hrest.closed ih hstep.1).resolve_left hstep.2
    intro hcycle
    rcases List.mem_cons.mp hu with rfl | hu
    · obtain ⟨v, hstep, hback⟩ := Relation.TransGen.head'_iff.mp hcycle
      have hv := (hedges v hstep.1).resolve_left hstep.2
      exact hnew (hstays v _ hback hv)
    · exact ih hu hcycle

end Result

section Finished

variable {edges : α → List α} {root : α} {s : Search α} {done : List α}

/-- The edges of a finished search stay among the explored nodes. -/
theorem Inv.closed (hi : Inv edges root s done) (hend : s.stack = []) {u v : α} (hu : u ∈ done)
    (hedge : v ∈ edges u) : v ∈ done := by
  rcases hi.settled.closed hu hedge with hv | hv
  · have hvis := hi.heads.2 v hv
    rw [← hi.explored]
    cases hcase : s.visit v with
    | notVisited => exact absurd hcase hvis
    | discovering =>
      have hmem := (hi.discovering v).mp hcase
      rw [hend] at hmem
      cases hmem
    | explored => rfl
  · exact hv

theorem Inv.root_done (hi : Inv edges root s done) (hend : s.stack = []) : root ∈ done := by
  have hroot := hi.root
  rw [← hi.explored]
  cases hcase : s.visit root with
  | notVisited => exact absurd hcase hroot
  | discovering =>
    have hmem := (hi.discovering root).mp hcase
    rw [hend] at hmem
    cases hmem
  | explored => rfl

/-- A finished search has explored exactly what the root reaches. -/
theorem explored_iff [DecidableEq α] (h : Reach (· = start root) (Move edges) s) (hend : s.stack = []) {u : α} :
    s.visit u = .explored ↔ Relation.ReflTransGen (fun a b => b ∈ edges a) root u := by
  obtain ⟨done, hi⟩ := inv_reach h
  constructor
  · intro hu
    exact hi.reached u (by rw [hu]; nofun)
  · intro hreach
    rw [hi.explored]
    induction hreach with
    | refl => exact hi.root_done hend
    | tail _ hstep ih => exact hi.closed hend ih hstep

/-- Every cycle of explored nodes goes through a head. -/
theorem cycle_has_head [DecidableEq α] (h : Reach (· = start root) (Move edges) s) {l : List α}
    (hl : IsCycle edges l) (hdone : ∀ u ∈ l, s.visit u = .explored) : ∃ v ∈ l, v ∈ s.heads := by
  obtain ⟨done, hi⟩ := inv_reach h
  obtain ⟨u, rest, rfl, hchain⟩ := hl
  by_contra hnone
  push Not at hnone
  have hu := (hi.explored u).mp (hdone u List.mem_cons_self)
  refine hi.settled.acyclic hu (transGen_of_isChain (hchain.imp_of_mem_imp fun a b _ hb hab => ⟨hab, ?_⟩))
  rcases List.mem_append.mp hb with hb | hb
  · exact hnone b hb
  · rw [List.mem_singleton.mp hb]
    exact hnone u List.mem_cons_self

theorem heads_nodup [DecidableEq α] (h : Reach (· = start root) (Move edges) s) : s.heads.Nodup := by
  obtain ⟨done, hi⟩ := inv_reach h
  exact hi.heads.1

end Finished

end Search

end RandVerifier
