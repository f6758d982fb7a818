/-
  RandVerifier.OrderedMap — a map kept as its entries in strict order of the keys, and counting
  with it.

  `upsert` changes the value at a key, starting from a default where there is none. A tally goes
  through a list and keeps for each key how many items had it and the label of the first one.

  - `find_upsert_self`, `find_upsert_ne`: an upsert changes one key.
  - `ext_find`: a map is what it says of every key.
  - `find_tally`: a tally says of a key how many items have it and the label of the first.
  - `find_tally_sorted`, `tally_perm`: of items in the order of their labels the first is the
    least, so the tally depends on which items there are and not on how ties are ordered.
  - `sum_tally`: the counts add up to the number of items.
-/

import Mathlib.Algebra.GroupWithZero.Nat
import Mathlib.Data.List.Induction
import Mathlib.Data.List.Sort
import Mathlib.Order.Bounds.Basic

namespace RandVerifier

structure OrderedMap (κ ν : Type) [LinearOrder κ] where
  entries : List (κ × ν)
  sorted : entries.Pairwise fun a b => a.1 < b.1

namespace OrderedMap

variable {κ ν : Type} [LinearOrder κ]

/-! ## Entries in order -/

def upsertIn (k : κ) (default : ν) (f : ν → ν) : List (κ × ν) → List (κ × ν)
  | [] => [(k, f default)]
  | (j, v) :: rest =>
    if k < j then (k, f default) :: (j, v) :: rest
    else if k = j then (j, f v) :: rest
    else (j, v) :: upsertIn k default f rest

def findIn (k : κ) : List (κ × ν) → Option ν
  | [] => none
  | (j, v) :: rest => if k = j then some v else findIn k rest

variable {k j : κ} {d : ν} {f : ν → ν} {l l' : List (κ × ν)}

theorem mem_upsertIn {x : κ × ν} (h : x ∈ upsertIn k d f l) : x.1 = k ∨ x ∈ l := by
  induction l with
  | nil => exact .inl (by rw [List.mem_singleton.mp h])
  | cons e rest ih =>
    obtain ⟨j, v⟩ := e
    unfold upsertIn at h
    split at h
    · rcases List.mem_cons.mp h with rfl | h
      · exact .inl rfl
      · exact .inr h
    · split at h
      · rename_i hkj
        rcases List.mem_cons.mp h with rfl | h
        · exact .inl hkj.symm
        · exact .inr (List.mem_cons_of_mem _ h)
      · rcases List.mem_cons.mp h with rfl | h
        · exact .inr List.mem_cons_self
        · exact (ih h).imp_right (List.mem_cons_of_mem _)

theorem upsertIn_sorted (hl : l.Pairwise fun a b => a.1 < b.1) :
    (upsertIn k d f l).Pairwise fun a b => a.1 < b.1 := by
  induction l with
  | nil => exact List.pairwise_singleton _ _
  | cons e rest ih =>
    obtain ⟨j, v⟩ := e
    obtain ⟨hfirst, hrest⟩ := List.pairwise_cons.mp hl
    unfold upsertIn
    split
    · rename_i hkj
      refine List.pairwise_cons.mpr ⟨fun x hx => ?_, hl⟩
      rcases List.mem_cons.mp hx with rfl | hx
      · exact hkj
      · exact hkj.trans (hfirst x hx)
    · split
      · exact List.pairwise_cons.mpr ⟨hfirst, hrest⟩
      · rename_i hlt hne
        refine List.pairwise_cons.mpr ⟨fun x hx => ?_, ih hrest⟩
        rcases mem_upsertIn hx with hk | hx
        · rw [hk]
          exact lt_of_le_of_ne (not_lt.mp hlt) (Ne.symm hne)
        · exact hfirst x hx

theorem mem_of_findIn {v : ν} (h : findIn k l = some v) : (k, v) ∈ l := by
  induction l with
  | nil => cases h
  | cons e rest ih =>
    obtain ⟨j, u⟩ := e
    unfold findIn at h
    split at h
    · rename_i hkj
      cases h
      rw [hkj]
      exact List.mem_cons_self
    · exact List.mem_cons_of_mem _ (ih h)

theorem findIn_mem (hl : l.Pairwise fun a b => a.1 < b.1) {v : ν} (h : (k, v) ∈ l) : findIn k l = some v := by
  induction l with
  | nil => cases h
  | cons e rest ih =>
    obtain ⟨j, u⟩ := e
    obtain ⟨hfirst, hrest⟩ := List.pairwise_cons.mp hl
    unfold findIn
    rcases List.mem_cons.mp h with heq | h
    · cases heq
      rw [if_pos rfl]
    · rw [if_neg (hfirst _ h).ne', ih hrest h]

/-- A key below all entries has none. -/
theorem findIn_none (h : ∀ x ∈ l, k < x.1) : findIn k l = none := by
  cases hfind : findIn k l with
  | none => rfl
  | some v => exact absurd (h _ (mem_of_findIn hfind)) (lt_irrefl k)

theorem findIn_upsertIn_self (hl : l.Pairwise fun a b => a.1 < b.1) :
    findIn k (upsertIn k d f l) = some (f ((findIn k l).getD d)) := by
  induction l with
  | nil => simp [upsertIn, findIn]
  | cons e rest ih =>
    obtain ⟨j, v⟩ := e
    obtain ⟨hfirst, hrest⟩ := List.pairwise_cons.mp hl
    unfold upsertIn
    split
    · rename_i hkj
      have hnone : findIn k ((j, v) :: rest) = none := by
        refine findIn_none fun x hx => ?_
        rcases List.mem_cons.mp hx with rfl | hx
        · exact hkj
        · exact hkj.trans (hfirst x hx)
      rw [hnone, findIn, if_pos rfl, Option.getD_none]
    · split
      · rename_i hkj
        rw [findIn, findIn, if_pos hkj, if_pos hkj, Option.getD_some]
      · rename_i hkj
        rw [findIn, findIn, if_neg hkj, if_neg hkj, ih hrest]

theorem findIn_upsertIn_ne (hne : j ≠ k) : findIn j (upsertIn k d f l) = findIn j l := by
  induction l with
  | nil => simp [upsertIn, findIn, hne]
  | cons e rest ih =>
    obtain ⟨i, v⟩ := e
    unfold upsertIn
    split
    · rw [findIn, if_neg hne]
    · split
      · rename_i hki
        rw [findIn, findIn, if_neg (hki ▸ hne), if_neg (hki ▸ hne)]
      · rw [findIn, findIn, ih]

/-! ## Maps -/

def empty : OrderedMap κ ν := ⟨[], List.Pairwise.nil⟩

/-- The value at a key, or the default where there is none, is changed. -/
def upsert (m : OrderedMap κ ν) (k : κ) (default : ν) (f : ν → ν) : OrderedMap κ ν :=
  ⟨upsertIn k default f m.entries, upsertIn_sorted m.sorted⟩

def find (m : OrderedMap κ ν) (k : κ) : Option ν := findIn k m.entries

variable {m m' : OrderedMap κ ν}

theorem find_upsert_self : (m.upsert k d f).find k = some (f ((m.find k).getD d)) := findIn_upsertIn_self m.sorted

theorem find_upsert_ne (hne : j ≠ k) : (m.upsert k d f).find j = m.find j := findIn_upsertIn_ne hne

theorem mem_entries {v : ν} : (k, v) ∈ m.entries ↔ m.find k = some v := ⟨findIn_mem m.sorted, mem_of_findIn⟩

theorem keys_nodup (m : OrderedMap κ ν) : (m.entries.map Prod.fst).Nodup :=
  List.pairwise_map.mpr (m.sorted.imp fun h => h.ne)

/-- A map is what it says of every key. -/
theorem ext_find (h : ∀ k, m.find k = m'.find k) : m = m' := by
  have hmem : ∀ x, x ∈ m.entries ↔ x ∈ m'.entries := by
    intro x
    obtain ⟨k, v⟩ := x
    rw [mem_entries, mem_entries, h k]
  have hperm : m.entries.Perm m'.entries :=
    (List.perm_ext_iff_of_nodup (List.Nodup.of_map _ m.keys_nodup) (List.Nodup.of_map _ m'.keys_nodup)).mpr hmem
  have heq := List.Perm.eq_of_pairwise (fun a b _ _ hab hba => absurd (hab.trans hba) (lt_irrefl _)) m.sorted
    m'.sorted hperm
  cases m
  cases m'
  cases heq
  rfl

/-! ## Counting -/

section Tally

variable {α β : Type} (key : α → κ) (label : α → β)

/-- How many items have a key, and the label of the first of them. -/
def tally (l : List α) : OrderedMap κ (Nat × β) :=
  l.foldl (fun m a => m.upsert (key a) (0, label a) fun e => (e.1 + 1, e.2)) empty

theorem tally_concat (l : List α) (a : α) :
    tally key label (l ++ [a]) =
      (tally key label l).upsert (key a) (0, label a) fun e => (e.1 + 1, e.2) := by
  rw [tally, List.foldl_concat]
  rfl

theorem find_tally (l : List α) (k : κ) :
    (tally key label l).find k =
      ((l.filter fun a => key a = k).head?).map fun a => ((l.filter fun a => key a = k).length, label a) := by
  induction l using List.reverseRecOn with
  | nil => rfl
  | append_singleton l a ih =>
    rw [tally_concat, List.filter_append]
    by_cases hk : key a = k
    · subst hk
      rw [find_upsert_self, ih]
      cases l.filter fun b => key b = key a with
      | nil => simp
      | cons b rest => simp
    · rw [find_upsert_ne (Ne.symm hk), ih]
      simp [hk]

theorem find_tally_mem {l : List α} {a : α} (h : a ∈ l) : ∃ e, (tally key label l).find (key a) = some e := by
  have hmem : a ∈ l.filter fun b => key b = key a := List.mem_filter.mpr ⟨h, decide_eq_true rfl⟩
  rw [find_tally]
  cases hfilter : l.filter fun b => key b = key a with
  | nil =>
    rw [hfilter] at hmem
    cases hmem
  | cons b rest => exact ⟨_, rfl⟩

/-- An upsert that counts raises the sum by one. -/
theorem sum_upsertIn {w : ν → Nat} (hd : w d = 0) (hf : ∀ v, w (f v) = w v + 1) :
    ((upsertIn k d f l).map fun e => w e.2).sum = (l.map fun e => w e.2).sum + 1 := by
  induction l with
  | nil => simp [upsertIn, hd, hf]
  | cons e rest ih =>
    unfold upsertIn
    split
    · simp only [List.map_cons, List.sum_cons, hf, hd]
      omega
    · split
      · simp only [List.map_cons, List.sum_cons, hf]
        omega
      · simp only [List.map_cons, List.sum_cons, ih]
        omega

/-- The counts add up. -/
theorem sum_tally (l : List α) : ((tally key label l).entries.map fun e => e.2.1).sum = l.length := by
  induction l using List.reverseRecOn with
  | nil => rfl
  | append_singleton l a ih =>
    rw [tally_concat, List.length_append, List.length_singleton, ← ih]
    exact sum_upsertIn rfl fun _ => rfl

variable {key label} [LinearOrder β] {items items' : List α}

/-- Of items in the order of their labels the first one has the least label. -/
theorem find_tally_sorted (h : items.Pairwise fun a b => label a ≤ label b) {k : κ} {n : Nat} {b : β} :
    (tally key label items).find k = some (n, b) ↔
      n = (items.filter fun a => key a = k).length ∧ IsLeast {b | ∃ a ∈ items, key a = k ∧ label a = b} b := by
  have hmem : ∀ b, (∃ a ∈ items, key a = k ∧ label a = b) ↔ ∃ a ∈ items.filter fun a => key a = k, label a = b := by
    intro b
    simp only [List.mem_filter, decide_eq_true_eq, and_assoc]
  rw [find_tally]
  simp only [hmem]
  have hsorted := h.filter fun a => decide (key a = k)
  cases hfilter : items.filter fun a => key a = k with
  | nil =>
    simp only [List.head?_nil, Option.map_none, reduceCtorEq, false_iff]
    intro hleast
    obtain ⟨a, ha, -⟩ := hleast.2.1
    cases ha
  | cons a rest =>
    rw [hfilter] at hsorted
    have hleast : IsLeast {b | ∃ c ∈ a :: rest, label c = b} (label a) := by
      refine ⟨⟨a, List.mem_cons_self, rfl⟩, fun b hb => ?_⟩
      obtain ⟨c, hc, rfl⟩ := hb
      rcases List.mem_cons.mp hc with rfl | hc
      · exact le_refl _
      · exact (List.pairwise_cons.mp hsorted).1 c hc
    simp only [List.head?_cons, Option.map_some, Option.some.injEq, Prod.mk.injEq]
    constructor
    · intro heq
      obtain ⟨hn, rfl⟩ := heq
      exact ⟨hn.symm, hleast⟩
    · intro heq
      exact ⟨heq.1.symm, hleast.unique heq.2⟩

/-- The tally does not depend on the order of items with equal labels. -/
theorem tally_perm (hperm : items.Perm items') (h : items.Pairwise fun a b => label a ≤ label b)
    (h' : items'.Pairwise fun a b => label a ≤ label b) : tally key label items = tally key label items' := by
  refine ext_find fun k => Option.ext fun e => ?_
  obtain ⟨n, b⟩ := e
  rw [find_tally_sorted h, find_tally_sorted h', (hperm.filter _).length_eq]
  simp only [hperm.mem_iff]

end Tally

end OrderedMap

end RandVerifier
