/-
  RandVerifier.Triage — the groups of findings with one cause (`src/fuzz/triage.rs`).

  Candidates are taken in the order of their names and counted by their key: the class, the
  categories of the two rejections, the first instruction where the sides part and the point
  of the concrete one. The groups come out by priority, then by key.

  - `mem_group`: a group is a key that a candidate has, how many have it, and their least name.
  - `group_sorted`: the output is in its order.
  - `grouping`: what a list of candidates is grouped into, whatever its order.
-/

import RandVerifier.Oracle
import RandVerifier.OrderedMap
import Mathlib.Data.List.Lex
import Mathlib.Data.String.Basic

namespace RandVerifier

namespace Triage

open Oracle

structure Divergence where
  miniInsn : Option UInt32
  kernelInsn : Option UInt32
  concretePc : Option UInt32
  deriving DecidableEq, Repr

structure Candidate where
  name : String
  finding : Finding
  mini : SideVerdict
  kernel : SideVerdict
  divergence : Divergence
  deriving DecidableEq, Repr

structure GroupKey where
  finding : Finding
  miniCategory : Option ReasonCategory
  kernelCategory : Option ReasonCategory
  divInsn : Option UInt32
  concretePc : Option UInt32
  deriving Repr

structure Group where
  key : GroupKey
  count : Nat
  representative : String
  priority : Nat
  deriving Repr

/-! ## The order of the keys -/

/-- The derived order of an `Option`: none before every value. -/
def optionRank {α : Type} (rank : α → Nat) : Option α → Nat
  | none => 0
  | some a => rank a + 1

theorem optionRank_injective {α : Type} {rank : α → Nat} (h : Function.Injective rank) :
    Function.Injective (optionRank rank) := by
  intro x y hxy
  cases x with
  | none => cases y with
    | none => rfl
    | some b => cases hxy
  | some a => cases y with
    | none => cases hxy
    | some b => exact congrArg some (h (Nat.succ.inj hxy))

/-- The fields in the order of their declaration, each variant by its place. -/
def GroupKey.ranks (key : GroupKey) : List Nat :=
  [key.finding.ctorIdx, optionRank ReasonCategory.ctorIdx key.miniCategory,
    optionRank ReasonCategory.ctorIdx key.kernelCategory, optionRank UInt32.toNat key.divInsn,
    optionRank UInt32.toNat key.concretePc]

theorem finding_ctorIdx_injective : Function.Injective Finding.ctorIdx := by
  intro a b h
  cases a <;> cases b <;> first | rfl | cases h

theorem category_ctorIdx_injective : Function.Injective ReasonCategory.ctorIdx := by
  intro a b h
  cases a <;> cases b <;> first | rfl | cases h

theorem GroupKey.ranks_injective : Function.Injective GroupKey.ranks := by
  intro a b h
  unfold GroupKey.ranks at h
  simp only [List.cons.injEq, and_true] at h
  obtain ⟨hfinding, hmini, hkernel, hinsn, hpc⟩ := h
  have hu32 : Function.Injective UInt32.toNat := fun _ _ => UInt32.toNat_inj.mp
  cases a
  cases b
  simp only [GroupKey.mk.injEq]
  exact ⟨finding_ctorIdx_injective hfinding, optionRank_injective category_ctorIdx_injective hmini,
    optionRank_injective category_ctorIdx_injective hkernel, optionRank_injective hu32 hinsn,
    optionRank_injective hu32 hpc⟩

/-- `#[derive(Ord)]`: field by field. -/
instance : LinearOrder GroupKey := LinearOrder.lift' GroupKey.ranks GroupKey.ranks_injective

/-! ## Grouping -/

def categoryOf : SideVerdict → Option ReasonCategory
  | .reject category => some category
  | _ => none

def priorityOf : Finding → Nat
  | .rvSoundnessBug => 4
  | .kernelUnsoundCandidate => 3
  | .soundnessCandidate => 2
  | .kernelOverstrictCandidate => 2
  | .precisionCandidate => 1
  | .rvPrecisionGap => 0
  | _ => 0

def Candidate.key (c : Candidate) : GroupKey where
  finding := c.finding
  miniCategory := categoryOf c.mini
  kernelCategory := categoryOf c.kernel
  divInsn := c.divergence.miniInsn.or c.divergence.kernelInsn
  concretePc := c.divergence.concretePc

def NameLe (a b : Candidate) : Prop := a.name ≤ b.name

instance : DecidableRel NameLe := fun a b => inferInstanceAs (Decidable (a.name ≤ b.name))

/-- The order of the output: the higher priority first, then by key. -/
def Before (a b : Group) : Prop := b.priority < a.priority ∨ (b.priority = a.priority ∧ a.key ≤ b.key)

instance : DecidableRel Before := fun _ _ => inferInstanceAs (Decidable (_ ∨ _))

/-- The `BTreeMap` of counts and representatives. -/
def counts (candidates : List Candidate) : OrderedMap GroupKey (Nat × String) :=
  OrderedMap.tally Candidate.key Candidate.name (candidates.insertionSort NameLe)

def toGroup (entry : GroupKey × Nat × String) : Group where
  key := entry.1
  count := entry.2.1
  representative := entry.2.2
  priority := priorityOf entry.1.finding

def group (candidates : List Candidate) : List Group :=
  ((counts candidates).entries.map toGroup).insertionSort Before

/-! ## The groups -/

section Groups

variable {candidates candidates' : List Candidate} {g : Group}

instance : Std.Total NameLe := ⟨fun a b => le_total a.name b.name⟩

instance : IsTrans Candidate NameLe := ⟨fun _ _ _ h h' => le_trans h h'⟩

instance : Std.Total Before where
  total a b := by
    rcases lt_trichotomy a.priority b.priority with hlt | heq | hlt
    · exact .inr (.inl hlt)
    · exact (le_total a.key b.key).imp (fun hkey => .inr ⟨heq.symm, hkey⟩) fun hkey => .inr ⟨heq, hkey⟩
    · exact .inl (.inl hlt)

instance : IsTrans Group Before where
  trans a b c h h' := by
    rcases h with hlt | ⟨heq, hkey⟩
    · rcases h' with hlt' | ⟨heq', -⟩
      · exact .inl (hlt'.trans hlt)
      · exact .inl (heq'.trans_lt hlt)
    · rcases h' with hlt' | ⟨heq', hkey'⟩
      · exact .inl (hlt'.trans_eq heq)
      · exact .inr ⟨heq'.trans heq, hkey.trans hkey'⟩

theorem sorted_names (candidates : List Candidate) :
    (candidates.insertionSort NameLe).Pairwise fun a b => a.name ≤ b.name :=
  List.pairwise_insertionSort NameLe candidates

theorem counts_perm (h : candidates.Perm candidates') : counts candidates = counts candidates' := by
  refine OrderedMap.tally_perm ?_ (sorted_names _) (sorted_names _)
  exact (List.perm_insertionSort _ _).trans (h.trans (List.perm_insertionSort _ _).symm)

theorem find_counts {k : GroupKey} {n : Nat} {name : String} :
    (counts candidates).find k = some (n, name) ↔
      n = candidates.countP (·.key = k) ∧ IsLeast {s | ∃ c ∈ candidates, c.key = k ∧ c.name = s} name := by
  unfold counts
  rw [OrderedMap.find_tally_sorted (sorted_names _), ← List.countP_eq_length_filter,
    (List.perm_insertionSort NameLe candidates).countP_eq]
  simp only [List.mem_insertionSort]

/-- What a group says: how many candidates have its key and which name is the least. -/
structure Summarises (candidates : List Candidate) (g : Group) : Prop where
  count : g.count = candidates.countP (·.key = g.key)
  representative : IsLeast {s | ∃ c ∈ candidates, c.key = g.key ∧ c.name = s} g.representative
  priority : g.priority = priorityOf g.key.finding

theorem mem_group : g ∈ group candidates ↔ Summarises candidates g := by
  unfold group
  rw [List.mem_insertionSort, List.mem_map]
  constructor
  · intro h
    obtain ⟨⟨k, n, name⟩, hmem, rfl⟩ := h
    obtain ⟨hcount, hleast⟩ := find_counts.mp (OrderedMap.mem_entries.mp hmem)
    exact ⟨hcount, hleast, rfl⟩
  · intro h
    have hfind := find_counts.mpr ⟨h.count, h.representative⟩
    refine ⟨(g.key, g.count, g.representative), OrderedMap.mem_entries.mpr hfind, ?_⟩
    unfold toGroup
    rw [← h.priority]

theorem group_keys (candidates : List Candidate) :
    ((group candidates).map Group.key).Perm ((counts candidates).entries.map Prod.fst) := by
  have hperm := (List.perm_insertionSort Before ((counts candidates).entries.map toGroup)).map Group.key
  rw [List.map_map] at hperm
  exact hperm

theorem group_keys_nodup (candidates : List Candidate) : ((group candidates).map Group.key).Nodup :=
  (group_keys candidates).nodup_iff.mpr (counts candidates).keys_nodup

theorem group_counts (candidates : List Candidate) :
    ((group candidates).map Group.count).sum = candidates.length := by
  have hperm := (List.perm_insertionSort Before ((counts candidates).entries.map toGroup)).map Group.count
  rw [List.map_map] at hperm
  calc ((group candidates).map Group.count).sum
      = ((counts candidates).entries.map fun e => e.2.1).sum := hperm.sum_eq
    _ = (candidates.insertionSort NameLe).length := OrderedMap.sum_tally _ _ _
    _ = candidates.length := List.length_insertionSort NameLe candidates

/-- The higher priority first, then the lesser key; no two groups tie. -/
theorem group_sorted (candidates : List Candidate) :
    (group candidates).Pairwise fun a b =>
      b.priority < a.priority ∨ (b.priority = a.priority ∧ a.key < b.key) := by
  have hsorted := List.pairwise_insertionSort Before ((counts candidates).entries.map toGroup)
  have hkeys := List.pairwise_map.mp (group_keys_nodup candidates)
  refine (hsorted.and hkeys).imp fun h => ?_
  obtain ⟨hbefore, hne⟩ := h
  exact hbefore.imp_right fun hkey => ⟨hkey.1, lt_of_le_of_ne hkey.2 hne⟩

/-- The candidates have one group each. -/
theorem group_of {c : Candidate} (hc : c ∈ candidates) : ∃! g, g ∈ group candidates ∧ g.key = c.key := by
  obtain ⟨e, hfind⟩ := OrderedMap.find_tally_mem Candidate.key Candidate.name
    ((List.mem_insertionSort NameLe).mpr hc)
  have hmem : toGroup (c.key, e) ∈ group candidates :=
    (List.mem_insertionSort Before).mpr (List.mem_map.mpr ⟨(c.key, e), OrderedMap.mem_entries.mpr hfind, rfl⟩)
  refine ⟨toGroup (c.key, e), ⟨hmem, rfl⟩, fun g hg => ?_⟩
  exact List.inj_on_of_nodup_map (group_keys_nodup candidates) hg.1 hmem hg.2

/-- A list of groups for the candidates, whatever the order they come in. -/
structure Grouped (candidates : List Candidate) (groups : List Group) : Prop where
  anyOrder : ∀ candidates' : List Candidate, candidates.Perm candidates' → group candidates' = groups
  total : (groups.map Group.count).sum = candidates.length
  keys : (groups.map Group.key).Nodup
  oneEach : ∀ c ∈ candidates, ∃! g, g ∈ groups ∧ g.key = c.key
  summaries : ∀ g ∈ groups, Summarises candidates g
  sorted : groups.Pairwise fun a b => b.priority < a.priority ∨ (b.priority = a.priority ∧ a.key < b.key)

/-- Grouping loses no candidate and does not depend on their order. -/
theorem grouping (candidates : List Candidate) : Grouped candidates (group candidates) where
  anyOrder candidates' h := by
    unfold group
    rw [counts_perm h]
  total := group_counts candidates
  keys := group_keys_nodup candidates
  oneEach _ hc := group_of hc
  summaries _ hg := mem_group.mp hg
  sorted := group_sorted candidates

/-- Two overstrict and one unsound candidate. -/
example :
    let c (name : String) (finding : Finding) : Candidate := ⟨name, finding, .accept, .accept, none, some 7, none⟩
    (group [c "b" .precisionCandidate, c "s" .soundnessCandidate, c "a" .precisionCandidate]).map
      (fun g => (g.representative, g.count, g.priority)) = [("s", 1, 2), ("a", 2, 1)] := by
  decide

end Groups

end Triage

end RandVerifier
