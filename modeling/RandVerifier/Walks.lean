/-
  RandVerifier.Walks — walks of a relation from a node.

  A walk is a list that is a chain of the relation. `forall_snoc` splits a property of every
  walk at its first step, as a depth-first search that carries the walk so far does.
  `walks_nodup_iff`: no walk meets a node twice exactly if no node that is reached lies on a
  cycle, and `walks_fresh_iff` states it for the last node of each walk.
-/

import Mathlib.Data.List.Chain
import Mathlib.Data.List.Nodup
import Mathlib.Logic.Relation

namespace RandVerifier.Walk

open Relation

variable {α : Type} {R : α → α → Prop} {a b : α}

/-- A property of all walks from `a`, split at the first step. -/
theorem forall_snoc {P : List α → α → Prop} {c : List α} :
    (∀ l b, (a :: (l ++ [b])).IsChain R → P (c ++ l) b) ↔
      ∀ d, R a d → P c d ∧ ∀ l b, (d :: (l ++ [b])).IsChain R → P (c ++ [d] ++ l) b := by
  constructor
  · intro h d hd
    constructor
    · have hone := h [] d (List.isChain_pair.mpr hd)
      rwa [List.append_nil] at hone
    · intro l b hl
      have hlonger := h (d :: l) b (List.isChain_cons_cons.mpr ⟨hd, hl⟩)
      rwa [List.append_cons] at hlonger
  · intro h l b hl
    cases l with
    | nil =>
      rw [List.append_nil]
      exact (h b (List.isChain_pair.mp hl)).1
    | cons d l =>
      obtain ⟨hd, hrest⟩ := List.isChain_cons_cons.mp hl
      rw [List.append_cons]
      exact (h d hd).2 l b hrest

/-- The later nodes of a walk are reached from its first. -/
theorem transGen_of_mem {l : List α} (h : (a :: l).IsChain R) {x : α} (hx : x ∈ l) : TransGen R a x := by
  induction l generalizing a with
  | nil => cases hx
  | cons d rest ih =>
    obtain ⟨had, hrest⟩ := List.isChain_cons_cons.mp h
    rcases List.mem_cons.mp hx with rfl | hx
    · exact .single had
    · exact .head had (ih hrest hx)

/-- A node that is reached, and then reached again, is twice on a walk. -/
theorem walk_twice (hreach : ReflTransGen R a b) (hcycle : TransGen R b b) :
    ∃ l, (a :: l).IsChain R ∧ ¬ (a :: l).Nodup := by
  induction hreach using ReflTransGen.head_induction_on with
  | refl =>
    obtain ⟨d, hbd, hdb⟩ := TransGen.head'_iff.mp hcycle
    obtain ⟨m, hm, hlast⟩ := List.exists_isChain_cons_of_relationReflTransGen hdb
    refine ⟨d :: m, List.isChain_cons_cons.mpr ⟨hbd, hm⟩, fun hnodup => ?_⟩
    have hb : b ∈ d :: m := hlast ▸ List.getLast_mem _
    exact (List.nodup_cons.mp hnodup).1 hb
  | @head a d had _ ih =>
    obtain ⟨l, hl, hdup⟩ := ih
    exact ⟨d :: l, List.isChain_cons_cons.mpr ⟨had, hl⟩, fun hnodup => hdup (List.nodup_cons.mp hnodup).2⟩

/-- No walk meets a node twice exactly if no node that is reached lies on a cycle. -/
theorem walks_nodup_iff :
    (∀ l, (a :: l).IsChain R → (a :: l).Nodup) ↔ ∀ b, ReflTransGen R a b → ¬ TransGen R b b := by
  constructor
  · intro h b hreach hcycle
    obtain ⟨l, hl, hdup⟩ := walk_twice hreach hcycle
    exact hdup (h l hl)
  · intro h l
    induction l generalizing a with
    | nil => exact fun _ => List.nodup_singleton a
    | cons d rest ih =>
      intro hl
      obtain ⟨had, hrest⟩ := List.isChain_cons_cons.mp hl
      refine List.nodup_cons.mpr ⟨fun ha => ?_, ih (fun b hb => h b (.head had hb)) hrest⟩
      exact h a .refl (transGen_of_mem hl ha)

theorem walks_fresh_iff :
    (∀ l, (a :: l).IsChain R → (a :: l).Nodup) ↔ ∀ l b, (a :: (l ++ [b])).IsChain R → b ∉ a :: l := by
  have hsnoc : ∀ l b, a :: (l ++ [b]) = (a :: l) ++ [b] := fun l b => List.cons_append.symm
  constructor
  · intro h l b hl hb
    have hnodup := h _ hl
    rw [hsnoc, List.nodup_append] at hnodup
    exact hnodup.2.2 b hb b (List.mem_singleton.mpr rfl) rfl
  · intro h l
    induction l using List.reverseRecOn with
    | nil => exact fun _ => List.nodup_singleton a
    | append_singleton l b ih =>
      intro hl
      have hfresh := h l b hl
      rw [hsnoc] at hl ⊢
      refine List.nodup_append.mpr ⟨ih hl.left_of_append, List.nodup_singleton b, ?_⟩
      intro x hx y hy heq
      rw [List.mem_singleton.mp hy] at heq
      exact hfresh (heq ▸ hx)

end RandVerifier.Walk
