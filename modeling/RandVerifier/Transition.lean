/-
  RandVerifier.Transition — runs of a transition system.

  - `Reach.inv`: an invariant that holds initially and survives every step holds in every
    reachable state.
  - `Reach.mono`: what a system reaches, a system with more initial states and more steps
    reaches too.
-/

namespace RandVerifier

/-- The states a system reaches from its initial ones. -/
inductive Reach {σ : Type} (init : σ → Prop) (step : σ → σ → Prop) : σ → Prop
  | init {s : σ} : init s → Reach init step s
  | step {s t : σ} : Reach init step s → step s t → Reach init step t

namespace Reach

variable {σ τ : Type} {init : σ → Prop} {step : σ → σ → Prop}

theorem inv {I : σ → Prop} (h0 : ∀ s, init s → I s) (hs : ∀ s t, I s → step s t → I t) {s : σ}
    (h : Reach init step s) : I s := by
  induction h with
  | init hi => exact h0 _ hi
  | step _ hst ih => exact hs _ _ ih hst

theorem mono {init' : σ → Prop} {step' : σ → σ → Prop} (h0 : ∀ s, init s → init' s)
    (hs : ∀ s t, step s t → step' s t) {s : σ} (h : Reach init step s) : Reach init' step' s := by
  induction h with
  | init hi => exact .init (h0 _ hi)
  | step _ hst ih => exact .step ih (hs _ _ hst)

end Reach

end RandVerifier
