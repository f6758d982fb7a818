/-
  RandVerifier.Settle — iterating a function until it changes nothing.

  `settle f` applies `f` until a fixed point, at most as often as its fuel allows. A rank that
  every application raises, and that is bounded, gives the fuel that always suffices
  (`settle_fixed`). The bits of a word are such a rank, for words that only gain bits.
-/

import Mathlib.Data.Finset.Card
import Mathlib.Data.Fintype.Card

namespace RandVerifier

/-! ## Iteration -/

section Iteration

variable {α : Type} [DecidableEq α]

def settle (f : α → α) : Nat → α → α
  | 0, x => x
  | fuel + 1, x => if f x = x then x else settle f fuel (f x)

/-- Fuel for every rank above that of the start is enough. -/
theorem settle_fixed {f : α → α} {Inv : α → Prop} {rank : α → Nat} {bound : Nat}
    (hinv : ∀ x, Inv x → Inv (f x)) (hrank : ∀ x, Inv x → f x ≠ x → rank x < rank (f x))
    (hbound : ∀ x, Inv x → rank x ≤ bound) {fuel : Nat} {x : α} (hx : Inv x) (hfuel : bound < fuel + rank x) :
    f (settle f fuel x) = settle f fuel x := by
  induction fuel generalizing x with
  | zero =>
    have := hbound x hx
    omega
  | succ fuel ih =>
    unfold settle
    by_cases hfix : f x = x
    · rw [if_pos hfix]
      exact hfix
    · rw [if_neg hfix]
      have := hrank x hx hfix
      exact ih (hinv x hx) (by omega)

/-- An iterate that the function keeps is where the iteration ends. -/
theorem settle_iterate {f : α → α} {k fuel : Nat} {x : α} (hstop : f^[k + 1] x = f^[k] x) (hk : k ≤ fuel) :
    settle f fuel x = f^[k] x := by
  induction fuel generalizing k x with
  | zero =>
    obtain rfl := Nat.le_zero.mp hk
    rfl
  | succ fuel ih =>
    unfold settle
    by_cases hfix : f x = x
    · rw [if_pos hfix, Function.iterate_fixed hfix]
    · rw [if_neg hfix]
      cases k with
      | zero => exact absurd hstop hfix
      | succ k => exact ih hstop (by omega)

end Iteration

/-! ## Bits of a word -/

section Bits

variable {w : Nat} {x y : BitVec w}

/-- Every bit of `x` is one of `y`. -/
def BitsLe (x y : BitVec w) : Prop := ∀ i, x.getLsbD i = true → y.getLsbD i = true

theorem BitsLe.refl (x : BitVec w) : BitsLe x x := fun _ h => h

theorem BitsLe.trans {z : BitVec w} (h : BitsLe x y) (h' : BitsLe y z) : BitsLe x z := fun i hi => h' i (h i hi)

theorem BitsLe.antisymm (h : BitsLe x y) (h' : BitsLe y x) : x = y := by
  refine BitVec.eq_of_getLsbD_eq fun i _ => ?_
  rw [Bool.eq_iff_iff]
  exact ⟨h i, h' i⟩

theorem BitsLe.zero (y : BitVec w) : BitsLe 0 y := by
  intro i hi
  simp at hi

def bitCount (x : BitVec w) : Nat := (Finset.univ.filter fun i : Fin w => x.getLsbD i = true).card

theorem bitCount_le_width (x : BitVec w) : bitCount x ≤ w :=
  (Finset.card_filter_le _ _).trans (by rw [Finset.card_univ, Fintype.card_fin])

theorem BitsLe.count (h : BitsLe x y) : bitCount x ≤ bitCount y :=
  Finset.card_le_card (Finset.monotone_filter_right _ fun i _ hi => h i hi)

/-- A word that gains a bit counts more. -/
theorem BitsLe.count_lt (h : BitsLe x y) (hne : x ≠ y) : bitCount x < bitCount y := by
  refine lt_of_le_of_ne h.count fun heq => hne (h.antisymm fun i hi => ?_)
  have hsame : (Finset.univ.filter fun i : Fin w => x.getLsbD i = true) =
      Finset.univ.filter fun i : Fin w => y.getLsbD i = true :=
    Finset.eq_of_subset_of_card_le (Finset.monotone_filter_right _ fun i _ hi => h i hi) heq.ge
  have hlt : i < w := BitVec.lt_of_getLsbD hi
  have hmem : (⟨i, hlt⟩ : Fin w) ∈ Finset.univ.filter fun i : Fin w => y.getLsbD i = true :=
    Finset.mem_filter.mpr ⟨Finset.mem_univ _, hi⟩
  rw [← hsame] at hmem
  exact (Finset.mem_filter.mp hmem).2

end Bits

end RandVerifier
