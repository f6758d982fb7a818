/-
  RandVerifier.Scan — searching a text for quoted tokens.

  A text is a list of letters, one of which is the quote. Between two quotes stands a token
  without quotes, so that a needle that is itself a quoted token is found where a token equals
  it and nowhere else.

  - `after_skip`, `after_miss`, `after_hit`: what a search does with a stretch without quotes and
    with a token;
  - `upTo_append`, `upTo_free`: reading up to the next quote.
-/

import Mathlib.Data.List.Basic

namespace RandVerifier

namespace Scan

variable {α : Type} [DecidableEq α] {q : α} {key token pre rest text : List α}

/-- The text behind the first occurrence of a needle. -/
def after (needle : List α) : List α → Option (List α)
  | [] => needle.isPrefixOf? []
  | c :: text =>
    match needle.isPrefixOf? (c :: text) with
    | some rest => some rest
    | none => after needle text

/-- The text before the first `q`. -/
def upTo (q : α) : List α → Option (List α)
  | [] => none
  | c :: text => if c = q then some [] else (upTo q text).map (c :: ·)

/-- A token between quotes. -/
def quoted (q : α) (token : List α) : List α := q :: token ++ [q]

/-! ## Reading up to a quote -/

theorem upTo_append (h : q ∉ pre) : upTo q (pre ++ q :: rest) = some pre := by
  induction pre with
  | nil => simp [upTo]
  | cons c pre ih =>
    rw [List.mem_cons, not_or] at h
    obtain ⟨hc, hpre⟩ := h
    simp [upTo, Ne.symm hc, ih hpre]

/-- What is read holds no quote. -/
theorem upTo_free (h : upTo q text = some token) : q ∉ token := by
  induction text generalizing token with
  | nil => cases h
  | cons c text ih =>
    simp only [upTo] at h
    split at h
    · cases h
      exact List.not_mem_nil
    · rename_i hc
      obtain ⟨more, hmore, rfl⟩ := Option.map_eq_some_iff.mp h
      rw [List.mem_cons, not_or]
      exact ⟨Ne.symm hc, ih hmore⟩

/-! ## Searching for a quoted token -/

/-- Two tokens that start a text in quotes are one. -/
theorem quoted_unique (hkey : q ∉ key) (htoken : q ∉ token) (h : key ++ q :: rest = token ++ q :: text) : key = token := by
  have hread := congrArg (upTo q) h
  rw [upTo_append hkey, upTo_append htoken] at hread
  exact Option.some.inj hread

theorem after_cons_ne {c : α} (h : c ≠ q) : after (quoted q key) (c :: text) = after (quoted q key) text := by
  have hno : (quoted q key).isPrefixOf? (c :: text) = none := by
    simp [quoted, List.isPrefixOf?, Ne.symm h]
  rw [after, hno]

/-- A stretch without quotes is skipped. -/
theorem after_skip (pre : List α) (h : q ∉ pre) : after (quoted q key) (pre ++ text) = after (quoted q key) text := by
  induction pre with
  | nil => rfl
  | cons c pre ih =>
    rw [List.mem_cons, not_or] at h
    obtain ⟨hc, hpre⟩ := h
    rw [List.cons_append, after_cons_ne (Ne.symm hc), ih hpre]

/-- The token is the key: the search ends behind its closing quote. -/
theorem after_hit : after (quoted q key) (q :: (key ++ q :: text)) = some text := by
  have hyes : (quoted q key).isPrefixOf? (q :: (key ++ q :: text)) = some text := by
    rw [List.isPrefixOf?_eq_some_iff_append_eq]
    simp [quoted]
  rw [after, hyes]

/-- The token is another one: the search goes on at its closing quote. -/
theorem after_miss (token : List α) (hkey : q ∉ key) (htoken : q ∉ token) (hne : token ≠ key) :
    after (quoted q key) (q :: (token ++ q :: text)) = after (quoted q key) (q :: text) := by
  have hno : (quoted q key).isPrefixOf? (q :: (token ++ q :: text)) = none := by
    rw [Option.eq_none_iff_forall_ne_some]
    intro rest hrest
    rw [List.isPrefixOf?_eq_some_iff_append_eq] at hrest
    simp only [quoted, List.cons_append, List.append_assoc, List.nil_append, List.cons.injEq, true_and] at hrest
    exact hne (quoted_unique hkey htoken hrest).symm
  rw [after, hno]
  exact after_skip token htoken

end Scan

end RandVerifier
