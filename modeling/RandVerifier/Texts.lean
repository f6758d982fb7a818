/-
  RandVerifier.Texts — cutting a text: at separators, and at a number of bytes.

  `fields` cuts a list at every separator, `words` keeps the fields that are not empty. A text
  has a prefix of `n` bytes unless a character begins before byte `n` and ends behind it.

  - `fields_append`: what holds no separator stays in the first field.
  - `takeBytes_eq_some`: the prefix of `n` bytes, where there is one.
  - `takeBytes_isSome`: there is one unless a character straddles the byte.
-/

import Mathlib.Algebra.GroupWithZero.Nat
import Mathlib.Data.List.Basic
import Mathlib.Data.Nat.Notation

namespace RandVerifier.Texts

/-! ## Separators -/

section Fields

variable {α : Type} (separates : α → Bool)

/-- The field up to the first separator, and the fields behind it. -/
def fields : List α → List α × List (List α)
  | [] => ([], [])
  | a :: rest =>
    if separates a then ([], (fields rest).1 :: (fields rest).2)
    else (a :: (fields rest).1, (fields rest).2)

def words (l : List α) : List (List α) := ((fields separates l).1 :: (fields separates l).2).filter (· ≠ [])

variable {separates}

theorem fields_append {run : List α} (h : ∀ a ∈ run, separates a = false) (rest : List α) :
    fields separates (run ++ rest) = (run ++ (fields separates rest).1, (fields separates rest).2) := by
  induction run with
  | nil => rfl
  | cons a run ih =>
    have ha := h a List.mem_cons_self
    rw [List.cons_append, fields, ha, if_neg Bool.false_ne_true,
      ih fun b hb => h b (List.mem_cons_of_mem _ hb)]
    rfl

theorem mem_fields {w : List α} {a : α} {l : List α} (ha : a ∈ w)
    (hw : w ∈ (fields separates l).1 :: (fields separates l).2) : a ∈ l := by
  induction l generalizing w with
  | nil =>
    obtain rfl := List.mem_singleton.mp hw
    exact ha
  | cons b rest ih =>
    unfold fields at hw
    split at hw
    · rcases List.mem_cons.mp hw with rfl | hw
      · cases ha
      · exact List.mem_cons_of_mem _ (ih ha hw)
    · rcases List.mem_cons.mp hw with rfl | hw
      · rcases List.mem_cons.mp ha with rfl | ha
        · exact List.mem_cons_self
        · exact List.mem_cons_of_mem _ (ih ha List.mem_cons_self)
      · exact List.mem_cons_of_mem _ (ih ha (List.mem_cons_of_mem _ hw))

theorem mem_words {w : List α} {a : α} {l : List α} (ha : a ∈ w) (hw : w ∈ words separates l) : a ∈ l :=
  mem_fields ha (List.mem_filter.mp hw).1

end Fields

/-! ## Bytes -/

def byteLen (text : List Char) : Nat := (text.map Char.utf8Size).sum

@[simp] theorem byteLen_nil : byteLen [] = 0 := rfl

@[simp] theorem byteLen_cons (c : Char) (text : List Char) : byteLen (c :: text) = c.utf8Size + byteLen text := rfl

theorem utf8ByteSize_ofList (text : List Char) : (String.ofList text).utf8ByteSize = byteLen text := by
  induction text with
  | nil => rfl
  | cons c rest ih =>
    have hcons : String.ofList (c :: rest) = String.singleton c ++ String.ofList rest := by
      rw [← String.toList_inj, String.toList_append, String.toList_ofList, String.toList_ofList,
        String.toList_singleton, List.singleton_append]
    rw [hcons, String.utf8ByteSize_append, String.utf8ByteSize_singleton, ih, byteLen_cons]

/-- The prefix of exactly `n` bytes. -/
def takeBytes : Nat → List Char → Option (List Char)
  | 0, _ => some []
  | _ + 1, [] => none
  | n + 1, c :: rest => if c.utf8Size ≤ n + 1 then (takeBytes (n + 1 - c.utf8Size) rest).map (c :: ·) else none

/-- A character that begins before byte `n` and ends behind it. -/
def Straddles (n : Nat) (text : List Char) : Prop :=
  ∃ before c behind, text = before ++ c :: behind ∧ byteLen before < n ∧ n < byteLen before + c.utf8Size

theorem takeBytes_eq_some {n : Nat} {text t : List Char} (h : takeBytes n text = some t) :
    byteLen t = n ∧ t <+: text := by
  induction text generalizing n t with
  | nil =>
    cases n with
    | zero =>
      cases h
      exact ⟨rfl, List.nil_prefix⟩
    | succ n => cases h
  | cons c rest ih =>
    cases n with
    | zero =>
      cases h
      exact ⟨rfl, List.nil_prefix⟩
    | succ n =>
      unfold takeBytes at h
      split at h
      · rename_i hfits
        obtain ⟨u, hu, rfl⟩ := Option.map_eq_some_iff.mp h
        obtain ⟨hlen, hprefix⟩ := ih hu
        exact ⟨by rw [byteLen_cons, hlen]; omega, List.cons_prefix_cons.mpr ⟨rfl, hprefix⟩⟩
      · cases h

/-- A text of more than `n` bytes has a prefix of `n` unless a character straddles the byte. -/
theorem takeBytes_isSome {n : Nat} {text : List Char} (hn : n ≤ byteLen text) :
    (∃ t, takeBytes n text = some t) ↔ ¬ Straddles n text := by
  induction text generalizing n with
  | nil =>
    obtain rfl := Nat.le_zero.mp hn
    refine ⟨fun _ hstraddle => ?_, fun _ => ⟨[], rfl⟩⟩
    obtain ⟨before, c, behind, -, hlt, -⟩ := hstraddle
    exact Nat.not_lt_zero _ hlt
  | cons c rest ih =>
    cases n with
    | zero =>
      refine ⟨fun _ hstraddle => ?_, fun _ => ⟨[], rfl⟩⟩
      obtain ⟨before, c, behind, -, hlt, -⟩ := hstraddle
      exact Nat.not_lt_zero _ hlt
    | succ n =>
      have hpos := c.utf8Size_pos
      unfold takeBytes
      by_cases hfits : c.utf8Size ≤ n + 1
      · rw [byteLen_cons] at hn
        have hrest := ih (n := n + 1 - c.utf8Size) (by omega)
        have hsome : (∃ t, (takeBytes (n + 1 - c.utf8Size) rest).map (c :: ·) = some t) ↔
            ∃ t, takeBytes (n + 1 - c.utf8Size) rest = some t := by
          cases takeBytes (n + 1 - c.utf8Size) rest <;> simp
        rw [if_pos hfits, hsome, hrest, not_iff_not]
        constructor
        · intro hstraddle
          obtain ⟨before, d, behind, rfl, hlt, hgt⟩ := hstraddle
          exact ⟨c :: before, d, behind, rfl, by rw [byteLen_cons]; omega, by rw [byteLen_cons]; omega⟩
        · intro hstraddle
          obtain ⟨before, d, behind, heq, hlt, hgt⟩ := hstraddle
          cases before with
          | nil =>
            obtain ⟨rfl, rfl⟩ := List.cons.inj heq
            rw [byteLen_nil] at hgt
            omega
          | cons b before =>
            obtain ⟨rfl, rfl⟩ := List.cons.inj heq
            rw [byteLen_cons] at hlt hgt
            exact ⟨before, d, behind, rfl, by omega, by omega⟩
      · rw [if_neg hfits]
        refine ⟨fun h => ?_, fun h => absurd ⟨[], c, rest, rfl, Nat.succ_pos n, ?_⟩ h⟩
        · obtain ⟨t, ht⟩ := h
          cases ht
        · rw [byteLen_nil]
          omega

end RandVerifier.Texts
