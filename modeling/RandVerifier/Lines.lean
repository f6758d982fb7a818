/-
  RandVerifier.Lines — the lines of a text, the text around a separator, and decimal numbers.

  A text is a list of characters. A line ends at a line feed, which a carriage return may
  precede; what stands behind the last line feed is a line if it is not empty. A separator is
  looked for from the front or from the back.

  - `mem_lines`: a line holds no line feed;
  - `lines_cons`: the line in front of the first line feed;
  - `lines_head`, `trim_head`: the first character of a text stays where it is;
  - `trim_eq_self`, `trimmed_trim`: what trimming leaves alone, and how its result ends;
  - `Trimmed.join`, `Trimmed.intercalate`: trimmed texts joined on one line;
  - `rsplitOnce_behind`: the last separator, where its first letter does not occur behind it;
  - `parseU32_toDigits`: a number in decimal digits is read back.
-/

import RandVerifier.Texts
import Mathlib.Data.List.DropRight

namespace RandVerifier.Texts

/-! ## Separators, once -/

section Split

variable {α : Type} [DecidableEq α]

/-- The text before and behind the first `c`. -/
def splitOnce (c : α) : List α → Option (List α × List α)
  | [] => none
  | a :: text => if a = c then some ([], text) else (splitOnce c text).map fun (front, back) => (a :: front, back)

/-- The text before and behind the last occurrence of a separator. -/
def rsplitOnce (separator : List α) : List α → Option (List α × List α)
  | [] => (separator.isPrefixOf? []).map ([], ·)
  | a :: text =>
    match rsplitOnce separator text with
    | some (front, back) => some (a :: front, back)
    | none => (separator.isPrefixOf? (a :: text)).map ([], ·)

variable {c : α} {separator front back text : List α}

theorem rsplitOnce_free (h : c ∉ text) : rsplitOnce (c :: separator) text = none := by
  induction text with
  | nil => rfl
  | cons a text ih =>
    rw [List.mem_cons, not_or] at h
    obtain ⟨hne, htext⟩ := h
    have hno : (c :: separator).isPrefixOf? (a :: text) = none := by simp [List.isPrefixOf?, hne]
    simp only [rsplitOnce, ih htext, hno]
    rfl

theorem rsplitOnce_behind (front : List α) (hseparator : c ∉ separator) (hback : c ∉ back) :
    rsplitOnce (c :: separator) (front ++ c :: (separator ++ back)) = some (front, back) := by
  induction front with
  | nil =>
    have hfree : c ∉ separator ++ back := by
      rw [List.mem_append, not_or]
      exact ⟨hseparator, hback⟩
    have hyes : (c :: separator).isPrefixOf? (c :: (separator ++ back)) = some back := by
      rw [List.isPrefixOf?_eq_some_iff_append_eq]
      rfl
    simp only [List.nil_append, rsplitOnce, rsplitOnce_free hfree, hyes]
    rfl
  | cons a front ih => simp only [List.cons_append, rsplitOnce, ih]

end Split

/-! ## Lines -/

/-- A carriage return in front of the line feed belongs to it. -/
def stripCr (line : List Char) : List Char := if line.getLast? = some '\r' then line.dropLast else line

/-- `str::lines`. -/
def lines (text : List Char) : List (List Char) :=
  let split := fields (· == '\n') text
  let pieces := split.1 :: split.2
  pieces.dropLast.map stripCr ++ [pieces.getLastD []].filter (· ≠ [])

theorem fields_free {α : Type} {separates : α → Bool} {l w : List α} {a : α}
    (hw : w ∈ (fields separates l).1 :: (fields separates l).2) (ha : a ∈ w) : separates a = false := by
  induction l generalizing w with
  | nil =>
    obtain rfl := List.mem_singleton.mp hw
    cases ha
  | cons b rest ih =>
    unfold fields at hw
    split at hw
    · rcases List.mem_cons.mp hw with rfl | hw
      · cases ha
      · exact ih hw ha
    · rename_i hb
      rcases List.mem_cons.mp hw with rfl | hw
      · rcases List.mem_cons.mp ha with rfl | ha
        · simpa using hb
        · exact ih List.mem_cons_self ha
      · exact ih (List.mem_cons_of_mem _ hw) ha

theorem stripCr_subset (line : List Char) : stripCr line ⊆ line := by
  unfold stripCr
  split
  · exact List.dropLast_subset line
  · exact List.Subset.refl line

theorem mem_lines {text line : List Char} (h : line ∈ lines text) : '\n' ∉ line := by
  intro hnl
  have hpiece : ∃ w ∈ (fields (· == '\n') text).1 :: (fields (· == '\n') text).2, '\n' ∈ w := by
    rcases List.mem_append.mp h with h | h
    · obtain ⟨w, hw, rfl⟩ := List.mem_map.mp h
      exact ⟨w, List.dropLast_subset _ hw, stripCr_subset w hnl⟩
    · obtain ⟨hline, -⟩ := List.mem_filter.mp h
      rw [List.mem_singleton.mp hline] at hnl
      refine ⟨_, ?_, hnl⟩
      rw [List.getLastD_eq_getLast?, List.getLast?_eq_getLast_of_ne_nil (List.cons_ne_nil _ _)]
      exact List.getLast_mem _
  obtain ⟨w, hw, hnl⟩ := hpiece
  simpa using fields_free hw hnl

theorem lines_subset {text line : List Char} (h : line ∈ lines text) : line ⊆ text := by
  intro c hc
  rcases List.mem_append.mp h with h | h
  · obtain ⟨w, hw, rfl⟩ := List.mem_map.mp h
    exact mem_fields (stripCr_subset w hc) (List.dropLast_subset _ hw)
  · obtain ⟨hline, -⟩ := List.mem_filter.mp h
    rw [List.mem_singleton.mp hline, List.getLastD_eq_getLast?,
      List.getLast?_eq_getLast_of_ne_nil (List.cons_ne_nil _ _)] at hc
    exact mem_fields hc (List.getLast_mem _)

/-- The line in front of the first line feed, where no carriage return ends it. -/
theorem lines_cons {line : List Char} (hfree : '\n' ∉ line) (hcr : line.getLast? ≠ some '\r') (rest : List Char) :
    lines (line ++ '\n' :: rest) = line :: lines rest := by
  have hrun : ∀ a ∈ line, (a == '\n') = false := by
    intro a ha
    rw [beq_eq_false_iff_ne]
    rintro rfl
    exact hfree ha
  have hsplit : fields (· == '\n') (line ++ '\n' :: rest) =
      (line, (fields (· == '\n') rest).1 :: (fields (· == '\n') rest).2) := by
    rw [fields_append hrun, fields, if_pos (by rfl), List.append_nil]
  simp only [lines, hsplit, List.dropLast_cons_cons, List.map_cons, List.cons_append, stripCr, if_neg hcr]
  rfl

/-- `char::is_whitespace`: the Unicode property White_Space. -/
def isBlank (c : Char) : Bool :=
  let n := c.toNat
  decide (9 ≤ n ∧ n ≤ 13) || decide (0x2000 ≤ n ∧ n ≤ 0x200a) ||
    [0x20, 0x85, 0xa0, 0x1680, 0x2028, 0x2029, 0x202f, 0x205f, 0x3000].contains n

/-- `str::trim`. -/
def trim (text : List Char) : List Char := (text.dropWhile isBlank).rdropWhile isBlank

theorem trim_eq_self {text : List Char} (hfirst : ∀ c ∈ text.head?, isBlank c = false)
    (hlast : ∀ c ∈ text.getLast?, isBlank c = false) : trim text = text := by
  have hdrop : text.dropWhile isBlank = text := by
    cases text with
    | nil => rfl
    | cons c text => rw [List.dropWhile_cons_of_neg (by simp [hfirst c rfl])]
  rw [trim, hdrop, List.rdropWhile_eq_self_iff]
  intro hne
  simp [hlast _ (List.getLast?_eq_getLast_of_ne_nil hne)]

theorem trim_subset (text : List Char) : trim text ⊆ text := fun _ h =>
  (List.dropWhile_sublist isBlank).subset ((List.rdropWhile_prefix isBlank _).subset h)

theorem trim_eq_nil {text : List Char} : trim text = [] ↔ ∀ c ∈ text, isBlank c = true := by
  rw [trim, List.rdropWhile_eq_nil_iff]
  constructor
  · intro h
    have hdrop : text.dropWhile isBlank = [] := by
      cases hdrop : text.dropWhile isBlank with
      | nil => rfl
      | cons c rest =>
        have hblank := h c (by rw [hdrop]; exact List.mem_cons_self)
        have hnot := List.head?_dropWhile_not isBlank text
        rw [hdrop] at hnot
        simp [hblank] at hnot
    exact List.dropWhile_eq_nil_iff.mp hdrop
  · exact fun h c hc => h c ((List.dropWhile_sublist isBlank).subset hc)

/-- What is left begins and ends with no blank. -/
theorem trim_ends (text : List Char) :
    (∀ c ∈ (trim text).head?, isBlank c = false) ∧ ∀ c ∈ (trim text).getLast?, isBlank c = false := by
  constructor
  · intro c hc
    obtain ⟨tail, htail⟩ := List.rdropWhile_prefix isBlank (text.dropWhile isBlank)
    have hhead : (text.dropWhile isBlank).head? = some c := by
      rw [← htail, List.head?_append]
      exact (congrArg (·.or tail.head?) hc).trans rfl
    have := List.head?_dropWhile_not isBlank text
    rw [hhead] at this
    simpa using this
  · intro c hc
    obtain ⟨hne, rfl⟩ := List.mem_getLast?_eq_getLast hc
    exact Bool.eq_false_iff.mpr (List.rdropWhile_last_not isBlank (text.dropWhile isBlank) hne)

/-- A text on one line that does not begin or end with a blank. -/
structure Trimmed (text : List Char) : Prop where
  nonempty : text ≠ []
  oneLine : '\n' ∉ text
  first : ∀ c ∈ text.head?, isBlank c = false
  last : ∀ c ∈ text.getLast?, isBlank c = false

/-- Two such texts with something between them that is on one line. -/
theorem Trimmed.join {front back : List Char} (hfront : Trimmed front) (between : List Char) (hback : Trimmed back)
    (hbetween : '\n' ∉ between) : Trimmed (front ++ between ++ back) where
  nonempty := by simp [hfront.nonempty]
  oneLine := by simp [hfront.oneLine, hbetween, hback.oneLine]
  first := by
    intro c hc
    obtain ⟨a, front, rfl⟩ := List.exists_cons_of_ne_nil hfront.nonempty
    exact hfront.first c hc
  last := by
    intro c hc
    rw [List.getLast?_append_of_ne_nil _ hback.nonempty] at hc
    exact hback.last c hc

theorem Trimmed.intercalate {sep : List Char} (hsep : '\n' ∉ sep) {parts : List (List Char)} (hne : parts ≠ [])
    (h : ∀ part ∈ parts, Trimmed part) : Trimmed (sep.intercalate parts) := by
  induction parts with
  | nil => exact absurd rfl hne
  | cons part parts ih =>
    have hpart := h part List.mem_cons_self
    by_cases hparts : parts = []
    · rw [hparts, List.intercalate_singleton]
      exact hpart
    · rw [List.intercalate_cons_of_ne_nil hparts]
      exact hpart.join sep (ih hparts fun p hp => h p (List.mem_cons_of_mem _ hp)) hsep

theorem Trimmed.trim_self {text : List Char} (h : Trimmed text) : trim text = text := trim_eq_self h.first h.last

theorem trimmed_trim {line : List Char} (hline : '\n' ∉ line) (hne : trim line ≠ []) : Trimmed (trim line) where
  nonempty := hne
  oneLine h := hline (trim_subset line h)
  first := (trim_ends line).1
  last := (trim_ends line).2

/-- The line of such a text, with more behind it. -/
theorem Trimmed.lines {text : List Char} (h : Trimmed text) (rest : List Char) :
    lines (text ++ '\n' :: rest) = text :: Texts.lines rest := by
  refine lines_cons h.oneLine ?_ rest
  intro hcr
  have := h.last '\r' hcr
  exact absurd this (by decide)

/-! ## Numbers -/

/-- A number may have a plus sign. -/
def unsigned : List Char → List Char
  | '+' :: digits => digits
  | digits => digits

/-- `str::parse::<u32>`. -/
def parseU32 (text : List Char) : Option Nat :=
  let digits := unsigned text
  let value := Nat.ofDigitChars 10 digits 0
  if digits ≠ [] ∧ digits.all Char.isDigit = true ∧ value < 2 ^ 32 then some value else none

theorem isDigit_toDigits {n : Nat} {c : Char} (h : c ∈ Nat.toDigits 10 n) : c.isDigit = true :=
  Nat.isDigit_of_mem_toDigits (by decide) (by decide) h

theorem isBlank_digit {c : Char} (h : c.isDigit = true) : isBlank c = false := by
  have hval : 48 ≤ c.toNat ∧ c.toNat ≤ 57 := by
    simp only [Char.isDigit, Bool.and_eq_true, decide_eq_true_eq, ge_iff_le, UInt32.le_iff_toNat_le] at h
    exact h
  unfold isBlank
  simp only [Bool.or_eq_false_iff, decide_eq_false_iff_not, List.contains_eq_mem, List.mem_cons, List.not_mem_nil,
    or_false, not_or]
  omega

theorem trimmed_toDigits (n : Nat) : Trimmed (Nat.toDigits 10 n) where
  nonempty := Nat.toDigits_ne_nil
  oneLine h := absurd (isDigit_toDigits h) (by decide)
  first c hc := isBlank_digit (isDigit_toDigits (List.mem_of_mem_head? hc))
  last c hc := isBlank_digit (isDigit_toDigits (List.mem_of_mem_getLast? hc))

theorem parseU32_lt {text : List Char} {n : Nat} (h : parseU32 text = some n) : n < 2 ^ 32 := by
  simp only [parseU32] at h
  split at h
  · rename_i hok
    cases h
    exact hok.2.2
  · cases h

theorem unsigned_toDigits (n : Nat) : unsigned (Nat.toDigits 10 n) = Nat.toDigits 10 n := by
  unfold unsigned
  split
  · rename_i digits heq
    have hplus : '+'.isDigit = true := isDigit_toDigits (n := n) (by rw [heq]; exact List.mem_cons_self)
    exact absurd hplus (by decide)
  · rfl

theorem parseU32_toDigits {n : Nat} (h : n < 2 ^ 32) : parseU32 (Nat.toDigits 10 n) = some n := by
  have hall : (Nat.toDigits 10 n).all Char.isDigit = true := List.all_eq_true.mpr fun c hc => isDigit_toDigits hc
  simp only [parseU32, unsigned_toDigits, Nat.ofDigitChars_ten_toDigits]
  rw [if_pos ⟨Nat.toDigits_ne_nil, hall, h⟩]

end RandVerifier.Texts
