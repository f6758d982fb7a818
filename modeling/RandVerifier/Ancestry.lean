/-
  RandVerifier.Ancestry — chains in a growing forest.

  A forest is the list of its nodes' parents; `Grown` forests put every parent before its
  children. `ancestors` walks from a node to its root.

  - `ancestors_some`: a chain is its node, then the chain of the parent.
  - `lt_length_of_mem_ancestors`, `ancestors_append`: a chain stays in the forest, and new
    nodes change no old chain.
-/

import Mathlib.Data.List.Basic

namespace RandVerifier

/-- Every parent precedes its children. -/
def Grown (parents : List (Option Nat)) : Prop := ∀ i p : Nat, parents[i]? = some (some p) → p < i

def ancestorsFrom (parents : List (Option Nat)) : Nat → Option Nat → List Nat
  | 0, _ => []
  | _ + 1, none => []
  | fuel + 1, some i =>
    match parents[i]? with
    | none => []
    | some p => i :: ancestorsFrom parents fuel p

/-- The nodes from `last` to its root; the number of nodes bounds the walk. -/
def ancestors (parents : List (Option Nat)) (last : Option Nat) : List Nat :=
  ancestorsFrom parents parents.length last

section Chains

variable {parents : List (Option Nat)}

@[simp] theorem ancestors_none : ancestors parents none = [] := by
  unfold ancestors
  cases parents.length <;> rfl

/-- Any fuel above the node walks the whole chain. -/
theorem ancestorsFrom_enough (h : Grown parents) {i a b : Nat} (ha : i < a) (hb : i < b) :
    ancestorsFrom parents a (some i) = ancestorsFrom parents b (some i) := by
  induction i using Nat.strongRecOn generalizing a b with
  | ind i ih =>
    obtain ⟨a, rfl⟩ : ∃ a', a = a' + 1 := ⟨a - 1, by omega⟩
    obtain ⟨b, rfl⟩ : ∃ b', b = b' + 1 := ⟨b - 1, by omega⟩
    unfold ancestorsFrom
    cases hp : parents[i]? with
    | none => rfl
    | some p =>
      cases p with
      | none =>
        dsimp only
        congr 1
        cases a <;> cases b <;> rfl
      | some q =>
        have hq := h i q hp
        have hab : ancestorsFrom parents a (some q) = ancestorsFrom parents b (some q) :=
          ih q hq (by omega) (by omega)
        dsimp only
        rw [hab]

theorem ancestors_some (h : Grown parents) {i : Nat} {p : Option Nat} (hp : parents[i]? = some p) :
    ancestors parents (some i) = i :: ancestors parents p := by
  have hi : i < parents.length := (List.getElem?_eq_some_iff.mp hp).1
  obtain ⟨n, hn⟩ : ∃ n, parents.length = n + 1 := ⟨parents.length - 1, by omega⟩
  unfold ancestors
  rw [hn, ancestorsFrom, hp]
  dsimp only
  congr 1
  cases p with
  | none => cases n <;> rfl
  | some q =>
    have hq := h i q hp
    exact ancestorsFrom_enough h (by omega) (by omega)

/-- The nodes of a chain are in the forest. -/
theorem lt_length_of_mem_ancestors (h : Grown parents) {last : Option Nat} {j : Nat}
    (hj : j ∈ ancestors parents last) : j < parents.length := by
  cases last with
  | none => simp at hj
  | some i =>
    induction i using Nat.strongRecOn with
    | ind i ih =>
      cases hp : parents[i]? with
      | none =>
        unfold ancestors at hj
        cases hlen : parents.length with
        | zero => rw [hlen] at hj; cases hj
        | succ n => rw [hlen, ancestorsFrom, hp] at hj; cases hj
      | some p =>
        rw [ancestors_some h hp, List.mem_cons] at hj
        rcases hj with rfl | hj
        · exact (List.getElem?_eq_some_iff.mp hp).1
        · cases p with
          | none => simp at hj
          | some q => exact ih q (h i q hp) hj

theorem grown_append {p : Option Nat} (h : Grown parents) (hp : ∀ q, p = some q → q < parents.length) :
    Grown (parents ++ [p]) := by
  intro i q hi
  rcases Nat.lt_or_ge i parents.length with hlt | hge
  · rw [List.getElem?_append_left hlt] at hi
    exact h i q hi
  · rw [List.getElem?_append_right hge] at hi
    obtain ⟨hlen, hq⟩ := List.getElem?_eq_some_iff.mp hi
    have hzero : i - parents.length = 0 := by simpa using hlen
    simp only [hzero, List.getElem_cons_zero] at hq
    have hlt := hp q hq
    omega

/-- A new node changes no old chain. -/
theorem ancestors_append {p : Option Nat} (h : Grown (parents ++ [p])) {last : Option Nat}
    (hlast : ∀ i, last = some i → i < parents.length) :
    ancestors (parents ++ [p]) last = ancestors parents last := by
  have hold : Grown parents := by
    intro i q hi
    have hlt := (List.getElem?_eq_some_iff.mp hi).1
    exact h i q (by rw [List.getElem?_append_left hlt, hi])
  cases last with
  | none => simp
  | some i =>
    have hi := hlast i rfl
    induction i using Nat.strongRecOn with
    | ind i ih =>
      obtain ⟨q, hq⟩ : ∃ q, parents[i]? = some q := ⟨_, List.getElem?_eq_getElem hi⟩
      have hq' : (parents ++ [p])[i]? = some q := by rw [List.getElem?_append_left hi, hq]
      rw [ancestors_some h hq', ancestors_some hold hq]
      congr 1
      cases q with
      | none => simp
      | some j =>
        have hji := hold i j hq
        exact ih j hji (fun k hk => by cases hk; omega) (by omega)

/-- The chain of the node that was just added. -/
theorem ancestors_new {p : Option Nat} (h : Grown parents) (hp : ∀ q, p = some q → q < parents.length) :
    ancestors (parents ++ [p]) (some parents.length) = parents.length :: ancestors parents p := by
  have hg := grown_append h hp
  have hnew : (parents ++ [p])[parents.length]? = some p := by simp
  rw [ancestors_some hg hnew, ancestors_append hg hp]

end Chains

end RandVerifier
