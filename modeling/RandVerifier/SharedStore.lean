/-
  RandVerifier.SharedStore — worklist exploration of a system with a store.

  A system expands a node with a store into its successor nodes and the next store. A path
  carries its own store; an exploration keeps one store for all its pending nodes and skips
  a node it has seen. A pop is faithful when the store changes only while nothing else is
  pending, and when a skipped node was seen with the present store.

  Proved, for pops in any order:
  - `Explored.sound`: every seen node was reached by a path with the store it was seen with,
    and every pending node by a path with the present store;
  - `Explored.complete`: when nothing is pending, the seen nodes with their stores are all
    that a path reaches.
-/

import Mathlib.Data.List.Perm.Basic

namespace RandVerifier.SharedStore

variable {Node Store : Type}

/-- A system with a store; `none` is a failure. -/
structure System (Node Store : Type) where
  init : Node
  store₀ : Store
  expand : Node → Store → Option (List Node × Store)

/-- The nodes a path reaches, with the store the path has produced. -/
inductive Reach (S : System Node Store) : Node → Store → Prop where
  | init : Reach S S.init S.store₀
  | step {n n' : Node} {m m' : Store} {l : List Node} :
    Reach S n m → S.expand n m = some (l, m') → n' ∈ l → Reach S n' m'

/-- An exploration; `seen` records the store of each visit. -/
structure Exploring (Node Store : Type) where
  pending : List Node
  seen : List (Node × Store)
  store : Store

/-- The explorations by faithful pops. -/
inductive Explored (S : System Node Store) : Exploring Node Store → Prop where
  | start : Explored S ⟨[S.init], [], S.store₀⟩
  | skip {x : Exploring Node Store} {n : Node} {rest : List Node} :
    Explored S x → x.pending.Perm (n :: rest) → (n, x.store) ∈ x.seen →
    Explored S { x with pending := rest }
  | visit {x : Exploring Node Store} {n : Node} {rest l pending : List Node} {m : Store} :
    Explored S x → x.pending.Perm (n :: rest) → S.expand n x.store = some (l, m) →
    (m ≠ x.store → rest = []) → pending.Perm (l ++ rest) →
    Explored S ⟨pending, (n, x.store) :: x.seen, m⟩

variable {S : System Node Store} {x : Exploring Node Store}

/-! ## Soundness -/

/-- Every node is met with the store of a path to it. -/
structure Sound (S : System Node Store) (x : Exploring Node Store) : Prop where
  pending : ∀ n ∈ x.pending, Reach S n x.store
  seen : ∀ e ∈ x.seen, Reach S e.1 e.2

theorem Sound.visit {n : Node} {rest l pending : List Node} {m : Store} (h : Sound S x)
    (hpop : x.pending.Perm (n :: rest)) (hexp : S.expand n x.store = some (l, m))
    (hstore : m ≠ x.store → rest = []) (hpush : pending.Perm (l ++ rest)) :
    Sound S ⟨pending, (n, x.store) :: x.seen, m⟩ := by
  have hn : Reach S n x.store := h.pending n (hpop.mem_iff.mpr List.mem_cons_self)
  refine ⟨?_, ?_⟩
  · intro k hk
    rcases List.mem_append.mp (hpush.mem_iff.mp hk) with hl | hrest
    · exact .step hn hexp hl
    · -- another pending node: the store has not changed
      have hm : m = x.store := by
        by_contra hne
        rw [hstore hne] at hrest
        cases hrest
      subst hm
      exact h.pending k (hpop.mem_iff.mpr (List.mem_cons_of_mem _ hrest))
  · intro e he
    rcases List.mem_cons.mp he with rfl | he
    · exact hn
    · exact h.seen e he

theorem Explored.sound (h : Explored S x) : Sound S x := by
  induction h with
  | start => exact ⟨fun n hn => by rw [List.mem_singleton.mp hn]; exact .init, nofun⟩
  | skip _ hpop _ ih =>
    exact ⟨fun k hk => ih.pending k (hpop.mem_iff.mpr (List.mem_cons_of_mem _ hk)), ih.seen⟩
  | visit _ hpop hexp hstore hpush ih => exact ih.visit hpop hexp hstore hpush

/-! ## Completeness -/

/-- A node with a store is accounted for: seen, or pending with this store. -/
def Covered (x : Exploring Node Store) (n : Node) (m : Store) : Prop :=
  (n, m) ∈ x.seen ∨ n ∈ x.pending ∧ m = x.store

theorem Covered.skip {n k : Node} {m : Store} {rest : List Node} (h : Covered x k m)
    (hpop : x.pending.Perm (n :: rest)) (hseen : (n, x.store) ∈ x.seen) :
    Covered { x with pending := rest } k m := by
  rcases h with hs | ⟨hp, rfl⟩
  · exact .inl hs
  · rcases List.mem_cons.mp (hpop.mem_iff.mp hp) with rfl | hk
    · exact .inl hseen
    · exact .inr ⟨hk, rfl⟩

theorem Covered.visit {n k : Node} {rest l pending : List Node} {m m' : Store} (h : Covered x k m)
    (hpop : x.pending.Perm (n :: rest)) (hstore : m' ≠ x.store → rest = [])
    (hpush : pending.Perm (l ++ rest)) :
    Covered ⟨pending, (n, x.store) :: x.seen, m'⟩ k m := by
  rcases h with hs | ⟨hp, rfl⟩
  · exact .inl (List.mem_cons_of_mem _ hs)
  · rcases List.mem_cons.mp (hpop.mem_iff.mp hp) with rfl | hk
    · exact .inl List.mem_cons_self
    · have hm : m' = x.store := by
        by_contra hne
        rw [hstore hne] at hk
        cases hk
      exact .inr ⟨hpush.mem_iff.mpr (List.mem_append_right _ hk), hm.symm⟩

/-- The start is covered, and so is every successor of what was seen. -/
structure Closed (S : System Node Store) (x : Exploring Node Store) : Prop where
  init : Covered x S.init S.store₀
  succ : ∀ e ∈ x.seen, ∃ l m, S.expand e.1 e.2 = some (l, m) ∧ ∀ n ∈ l, Covered x n m

theorem Explored.closed (h : Explored S x) : Closed S x := by
  induction h with
  | start => exact ⟨.inr ⟨List.mem_singleton.mpr rfl, rfl⟩, nofun⟩
  | skip _ hpop hseen ih =>
    refine ⟨ih.init.skip hpop hseen, ?_⟩
    intro e he
    obtain ⟨l, m, hexp, hl⟩ := ih.succ e he
    exact ⟨l, m, hexp, fun n hn => (hl n hn).skip hpop hseen⟩
  | visit _ hpop hexp hstore hpush ih =>
    refine ⟨ih.init.visit hpop hstore hpush, ?_⟩
    intro e he
    rcases List.mem_cons.mp he with rfl | he
    · refine ⟨_, _, hexp, ?_⟩
      intro n hn
      exact .inr ⟨hpush.mem_iff.mpr (List.mem_append_left _ hn), rfl⟩
    · obtain ⟨l', m', hexp', hl⟩ := ih.succ e he
      exact ⟨l', m', hexp', fun n hn => (hl n hn).visit hpop hstore hpush⟩

/-- Nothing that a path reaches is missed. -/
theorem Explored.complete (h : Explored S x) (hdone : x.pending = []) {n : Node} {m : Store} :
    (n, m) ∈ x.seen ↔ Reach S n m := by
  have covered_seen : ∀ {k : Node} {b : Store}, Covered x k b → (k, b) ∈ x.seen := by
    rintro k b (hs | ⟨hp, -⟩)
    · exact hs
    · rw [hdone] at hp
      cases hp
  constructor
  · intro hmem
    exact h.sound.seen _ hmem
  · intro hreach
    induction hreach with
    | init => exact covered_seen h.closed.init
    | step _ hexp hn ih =>
      obtain ⟨l, m', hexp', hl⟩ := h.closed.succ _ ih
      obtain ⟨rfl, rfl⟩ := Prod.mk.inj (Option.some.inj (hexp.symm.trans hexp'))
      exact covered_seen (hl _ hn)

end RandVerifier.SharedStore
