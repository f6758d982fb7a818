/-
  RandVerifier.Draws — computations that draw from a stream and may stop.

  A computation takes the state of the stream and returns a value with the next state, or stops
  (`none`). `Yields` says that it stops in no state and that every value it returns has a
  property; the rules follow the computation. `Drawn` speaks of the value that one state
  determines.
-/

import Mathlib.Data.List.Basic

namespace Draws

/-- Every run returns, with a value that has the property. -/
def Yields {σ α : Type} (g : StateT σ Option α) (P : α → Prop) : Prop :=
  ∀ s, ∃ a s', g s = some (a, s') ∧ P a

section Rules

variable {σ α β : Type} {g : StateT σ Option α} {P Q : α → Prop} {R : β → Prop} {f : α → StateT σ Option β}

theorem Yields.pure {a : α} (h : P a) : Yields (σ := σ) (Pure.pure a) P :=
  fun s => ⟨a, s, rfl, h⟩

theorem Yields.bind (hg : Yields g P) (hf : ∀ a, P a → Yields (f a) R) : Yields (g >>= f) R := by
  intro s
  obtain ⟨a, s', ha, hp⟩ := hg s
  obtain ⟨b, s'', hb, hr⟩ := hf a hp s'
  refine ⟨b, s'', ?_, hr⟩
  show (g s).bind _ = _
  rw [ha]
  exact hb

theorem Yields.imp (hg : Yields g P) (h : ∀ a, P a → Q a) : Yields g Q := by
  intro s
  obtain ⟨a, s', ha, hp⟩ := hg s
  exact ⟨a, s', ha, h a hp⟩

theorem Yields.map {k : α → β} (hg : Yields g P) (h : ∀ a, P a → R (k a)) : Yields (k <$> g) R := by
  intro s
  obtain ⟨a, s', ha, hp⟩ := hg s
  refine ⟨k a, s', ?_, h a hp⟩
  show (g s).bind _ = _
  rw [ha]
  rfl

theorem Yields.ite {c : Prop} [Decidable c] {g' : StateT σ Option α} (hg : c → Yields g P) (hg' : ¬ c → Yields g' P) :
    Yields (if c then g else g') P := by
  by_cases h : c
  · rw [if_pos h]
    exact hg h
  · rw [if_neg h]
    exact hg' h

theorem Yields.run (hg : Yields g P) {s s' : σ} {a : α} (h : g s = some (a, s')) : P a := by
  obtain ⟨a', s'', ha, hp⟩ := hg s
  rw [h] at ha
  cases ha
  exact hp

end Rules

/-! ## One run -/

/-- What holds of the value that is drawn in a state and of the state behind it. -/
def Drawn {σ α : Type} (g : StateT σ Option α) (s : σ) (P : α → σ → Prop) : Prop :=
  ∀ a s', g s = some (a, s') → P a s'

section Run

variable {σ α β : Type} {g : StateT σ Option α} {s s' s'' : σ} {a : α} {b : β}

theorem drawn_iff {P : α → σ → Prop} (h : g s = some (a, s')) : Drawn g s P ↔ P a s' := by
  constructor
  · intro hdrawn
    exact hdrawn a s' h
  · intro hp a' s'' h'
    rw [h] at h'
    cases h'
    exact hp

theorem run_bind {f : α → StateT σ Option β} :
    (g >>= f) s = some (b, s'') ↔ ∃ a s', g s = some (a, s') ∧ f a s' = some (b, s'') := by
  show (g s).bind _ = _ ↔ _
  rw [Option.bind_eq_some_iff]
  exact ⟨fun ⟨⟨a, s'⟩, hg, hf⟩ => ⟨a, s', hg, hf⟩, fun ⟨a, s', hg, hf⟩ => ⟨(a, s'), hg, hf⟩⟩

theorem run_map {k : α → β} : (k <$> g) s = some (b, s') ↔ ∃ a, g s = some (a, s') ∧ k a = b := by
  show (g s).bind _ = _ ↔ _
  rw [Option.bind_eq_some_iff]
  constructor
  · rintro ⟨⟨a, s''⟩, hg, hk⟩
    cases hk
    exact ⟨a, hg, rfl⟩
  · rintro ⟨a, hg, rfl⟩
    exact ⟨(a, s'), hg, rfl⟩

end Run

end Draws
