/-
  RandVerifier.Novelty — the clustered form of verifier messages (`src/fuzz/novelty.rs`).

  `normalize_message` goes through the words of a message, replaces each number by `#` as it
  scans, and cuts the result at 120 bytes. `String::truncate` panics where the cut falls into
  a character.

  What the result should depend on is the skeleton of a message: its text with every numeric
  literal replaced by a mark, whichever the literal. `clustered` reads the text off from it.

  - `skeleton_fields`: a skeleton has the words of its message.
  - `scan_eq`: the scanner keeps of a word what its skeleton says.
  - `normalizeMessage_eq`: a message is cut from the text of its skeleton.
  - `normalises_iff`: the text comes back, and the same for all literals, unless a character
    straddles byte 120.
  - `normalises_ascii`: so for every message of one-byte characters.
  - `straddling_message`: one that does.
-/

import RandVerifier.Exec
import RandVerifier.Texts
import Mathlib.Data.List.DropRight

namespace RandVerifier

namespace Novelty

open Texts

/-! ## Characters -/

/-- `char::is_whitespace`: the Unicode property White_Space. -/
def isWhitespace (c : Char) : Bool :=
  let n := c.toNat
  (9 ≤ n && n ≤ 13) || n == 0x20 || n == 0x85 || n == 0xa0 || n == 0x1680 || (0x2000 ≤ n && n ≤ 0x200a) ||
    n == 0x2028 || n == 0x2029 || n == 0x202f || n == 0x205f || n == 0x3000

def isHexDigit (c : Char) : Bool := c.isDigit || ('a' ≤ c && c ≤ 'f') || ('A' ≤ c && c ≤ 'F')

/-- What a number goes on with. -/
def inNumber (c : Char) : Bool := isHexDigit c || c == 'x' || c == 'X'

/-- A decimal digit that does not follow a letter, a digit or an underscore. -/
def startsNumber (prev : Option Char) (c : Char) : Bool :=
  c.isDigit && prev.all fun p => !p.isAlphanum && p != '_'

def isSign (c : Char) : Bool := c == '-' || c == '+'

def isTrimmed (c : Char) : Bool := c == ',' || c == '.' || c == ';' || c == ':'

def trimMatches (norm : List Char) : List Char := (norm.dropWhile isTrimmed).rdropWhile isTrimmed

/-! ## The scanner -/

/-- A sign at the end is popped. -/
def popSign (norm : List Char) : List Char := if norm.getLast?.any isSign then norm.dropLast else norm

/-- The loop over the characters of a word. -/
def scan (norm : List Char) (prev : Option Char) : List Char → List Char
  | [] => norm
  | c :: chars =>
    if startsNumber prev c then scan (popSign norm ++ ['#']) (some '#') (chars.dropWhile inNumber)
    else scan (norm ++ [c]) (some c) chars
  termination_by chars => chars.length
  decreasing_by
    · exact Nat.lt_succ_of_le (List.dropWhile_sublist _).length_le
    · exact Nat.lt_succ_self _

/-- One word of the message: `out` and `prev_space` behind it. -/
def addToken (state : List Char × Bool) (token : List Char) : List Char × Bool :=
  let norm := trimMatches (scan [] none token)
  if norm = [] then state
  else (state.1 ++ (if state.2 then [' '] else []) ++ norm, true)

/-- `String::truncate`: panics inside a character. -/
def truncate (n : Nat) (s : String) : Exec String :=
  if s.utf8ByteSize ≤ n then .ok s
  else match takeBytes n s.toList with
    | some text => .ok (String.ofList text)
    | none => .error .panic

def normalizeMessage (message : String) : Exec String :=
  truncate 120 (String.ofList ((words isWhitespace message.toList).foldl addToken ([], false)).1)

/-- The key of a finding, with the text of the hash of its opcodes. -/
def signature (finding : String) (miniReason kernelMessage : Option String) (shapeHash : String) : Exec String := do
  let mini ← normalizeMessage (miniReason.getD "")
  let kernel ← normalizeMessage (kernelMessage.getD "")
  .ok s!"{finding}|{mini}|{kernel}|{shapeHash}"

/-! ## Skeletons -/

/-- A message with its numeric literals marked: a literal is a maximal run of hexadecimal
    digits and `x` from a decimal digit on that follows no letter, digit or underscore. -/
def skeleton (prev : Option Char) : List Char → List (Option Char)
  | [] => []
  | c :: chars =>
    if startsNumber prev c then none :: skeleton (some c) (chars.dropWhile inNumber)
    else some c :: skeleton (some c) chars
  termination_by chars => chars.length
  decreasing_by
    · exact Nat.lt_succ_of_le (List.dropWhile_sublist _).length_le
    · exact Nat.lt_succ_self _

/-- Messages that differ only in their numeric literals. -/
def SameButLiterals (m m' : String) : Prop := skeleton none m.toList = skeleton none m'.toList

/-- A word of a skeleton: `#` for a literal and for a sign right before it. -/
def render : List (Option Char) → List Char
  | [] => []
  | none :: rest => '#' :: render rest
  | some c :: rest => if isSign c && rest.head? == some none then render rest else c :: render rest

/-- The text of a skeleton: its words rendered, without punctuation around them, those that are
    left joined by spaces. -/
def textOf (s : List (Option Char)) : List Char :=
  [' '].intercalate (((words (·.any isWhitespace) s).map fun w => trimMatches (render w)).filter (· ≠ []))

def clustered (message : String) : List Char := textOf (skeleton none message.toList)

/-! ## Characters of a number -/

section Characters

variable {c d : Char} {prev prev' : Option Char} {l : List Char}

theorem inNumber_isWhitespace (h : inNumber c = true) : isWhitespace c = false := by
  unfold inNumber isHexDigit at h
  simp only [Char.isDigit, Bool.or_eq_true, Bool.and_eq_true, decide_eq_true_eq, beq_iff_eq, Char.le_def,
    UInt32.le_iff_toNat_le, ge_iff_le, Char.reduceVal, UInt32.reduceToNat] at h
  have hc : c.toNat = c.val.toNat := rfl
  unfold isWhitespace
  rcases h with (((h | h) | h) | rfl) | rfl
  · simp
    omega
  · simp
    omega
  · simp
    omega
  · decide
  · decide

theorem startsNumber_inNumber (h : startsNumber prev c = true) : inNumber c = true := by
  unfold startsNumber at h
  unfold inNumber isHexDigit
  rw [(Bool.and_eq_true_iff.mp h).1]
  rfl

theorem isAlphanum_eq (c : Char) :
    c.isAlphanum = (decide (c.val ≥ 65 ∧ c.val ≤ 90) || c.val ≥ 97 && c.val ≤ 122 || c.isDigit) := rfl

theorem isWhitespace_other (h : isWhitespace c = true) : c.isAlphanum = false ∧ c ≠ '_' := by
  have hc : c.toNat = c.val.toNat := rfl
  have hline : c ≠ '_' := by
    rintro rfl
    revert h
    decide
  refine ⟨?_, hline⟩
  unfold isWhitespace at h
  simp [isAlphanum_eq, Char.isDigit, UInt32.le_iff_toNat_le] at h ⊢
  omega

/-- Whitespace is no better than the beginning of a word. -/
theorem startsNumber_whitespace (h : isWhitespace d = true) : startsNumber (some d) c = startsNumber none c := by
  obtain ⟨halpha, hline⟩ := isWhitespace_other h
  unfold startsNumber
  simp [halpha, hline]

theorem skeleton_congr (h : ∀ c ∈ l.head?, startsNumber prev c = startsNumber prev' c) :
    skeleton prev l = skeleton prev' l := by
  cases l with
  | nil => rw [skeleton, skeleton]
  | cons c chars => rw [skeleton, skeleton, h c rfl]

theorem skeleton_eq_nil : skeleton prev l = [] ↔ l = [] := by
  cases l with
  | nil => simp [skeleton]
  | cons c chars =>
    rw [skeleton]
    split <;> simp

end Characters

/-! ## Words of a skeleton -/

section Skeletons

variable {l : List Char}

theorem fields_head {p : Char → Bool} {c : Char} (h : c ∈ (fields p l).1.head?) : c ∈ l.head? := by
  cases l with
  | nil => exact h
  | cons a rest =>
    unfold fields at h
    split at h
    · cases h
    · exact h

/-- What begins with no character of a number is left by the scanner. -/
theorem dropWhile_inNumber {run : List Char} (hrun : ∀ c ∈ run, inNumber c = true) {rest : List Char}
    (hrest : ∀ c ∈ rest.head?, inNumber c = false) : (run ++ rest).dropWhile inNumber = rest := by
  rw [List.dropWhile_append_of_pos hrun]
  cases rest with
  | nil => rfl
  | cons c rest => rw [List.dropWhile_cons_of_neg (by rw [hrest c rfl]; exact Bool.false_ne_true)]

theorem dropWhile_head {c : Char} (h : c ∈ (l.dropWhile inNumber).head?) : inNumber c = false := by
  have := List.head?_dropWhile_not inNumber l
  rw [Option.mem_def.mp h] at this
  simpa using this

/-- The words of a skeleton are the skeletons of the words. -/
theorem skeleton_fields (prev : Option Char) (l : List Char) :
    fields (·.any isWhitespace) (skeleton prev l) =
      (skeleton prev (fields isWhitespace l).1, (fields isWhitespace l).2.map (skeleton none)) := by
  fun_induction skeleton prev l with
  | case1 prev =>
    rw [fields, fields, skeleton]
    rfl
  | case2 prev c chars hstart ih =>
    -- the run of the literal holds no whitespace
    have hrun : ∀ d ∈ c :: chars.takeWhile inNumber, isWhitespace d = false := by
      intro d hd
      rcases List.mem_cons.mp hd with rfl | hd
      · exact inNumber_isWhitespace (startsNumber_inNumber hstart)
      · exact inNumber_isWhitespace (List.mem_takeWhile_imp hd)
    have hsplit : c :: chars = (c :: chars.takeWhile inNumber) ++ chars.dropWhile inNumber := by
      rw [List.cons_append, List.takeWhile_append_dropWhile]
    have hdrop : (chars.takeWhile inNumber ++ (fields isWhitespace (chars.dropWhile inNumber)).1).dropWhile inNumber =
        (fields isWhitespace (chars.dropWhile inNumber)).1 :=
      dropWhile_inNumber (fun d hd => List.mem_takeWhile_imp hd) fun d hd => dropWhile_head (fields_head hd)
    rw [hsplit, fields_append hrun, fields, Option.any_none, if_neg Bool.false_ne_true, ih, List.cons_append,
      skeleton, if_pos hstart, hdrop]
  | case3 prev c chars hstart ih =>
    rw [fields, fields, Option.any_some, ih]
    by_cases hspace : isWhitespace c = true
    · have hfirst : skeleton (some c) (fields isWhitespace chars).1 = skeleton none (fields isWhitespace chars).1 :=
        skeleton_congr fun d _ => startsNumber_whitespace hspace
      rw [if_pos hspace, if_pos hspace, List.map_cons, skeleton, hfirst]
    · rw [if_neg hspace, if_neg hspace, skeleton, if_neg hstart]

theorem skeleton_words (l : List Char) :
    words (·.any isWhitespace) (skeleton none l) = (words isWhitespace l).map (skeleton none) := by
  have hnil : (fun w => decide (w ≠ [])) ∘ skeleton none = fun w => decide (w ≠ []) := by
    funext w
    simp only [Function.comp_apply, ne_eq, skeleton_eq_nil]
  unfold words
  rw [skeleton_fields]
  dsimp only
  rw [← List.map_cons, List.filter_map, hnil]

end Skeletons

/-! ## The scanner -/

theorem popSign_concat (norm : List Char) (c : Char) :
    popSign (norm ++ [c]) = if isSign c then norm else norm ++ [c] := by
  unfold popSign
  rw [List.getLast?_concat, List.dropLast_concat]
  rfl

/-- The scanner renders the skeleton of a word behind what it has. -/
theorem scan_eq (norm : List Char) (prev : Option Char) (l : List Char) :
    scan norm prev l =
      (if (skeleton prev l).head? = some none then popSign norm else norm) ++ render (skeleton prev l) := by
  fun_induction scan norm prev l with
  | case1 norm prev =>
    rw [skeleton]
    simp [render]
  | case2 norm prev c chars hstart ih =>
    have hrest : skeleton (some '#') (chars.dropWhile inNumber) = skeleton (some c) (chars.dropWhile inNumber) := by
      refine skeleton_congr fun d hd => ?_
      have hdigit : d.isDigit = false := by
        have := dropWhile_head hd
        unfold inNumber isHexDigit at this
        simp only [Bool.or_eq_false_iff] at this
        exact this.1.1.1.1
      unfold startsNumber
      rw [hdigit]
      rfl
    have hmark : popSign (popSign norm ++ ['#']) = popSign norm ++ ['#'] := popSign_concat _ _
    rw [ih, hrest, skeleton, if_pos hstart, hmark, ite_self]
    simp [render]
  | case3 norm prev c chars hstart ih =>
    rw [ih, skeleton, if_neg hstart, popSign_concat, render]
    by_cases hsign : isSign c = true
    · by_cases hhead : (skeleton (some c) chars).head? = some none
      · simp [hsign, hhead]
      · simp [hsign, hhead]
    · simp [hsign]

/-! ## The whole message -/

theorem join_cons (sep w : List Char) (ws : List (List Char)) :
    sep.intercalate (w :: ws) = w ++ ws.flatMap (sep ++ ·) := by
  induction ws generalizing w with
  | nil => simp
  | cons v ws ih => rw [List.intercalate_cons_cons, ih, List.flatMap_cons, List.append_assoc, List.append_assoc]

/-- The loop over the words joins those that are left of them. -/
theorem foldl_addToken (tokens : List (List Char)) (out : List Char) :
    (tokens.foldl addToken (out, true)).1 =
        out ++ ((tokens.map fun w => trimMatches (scan [] none w)).filter (· ≠ [])).flatMap ([' '] ++ ·) ∧
      (tokens.foldl addToken (out, false)).1 =
        out ++ [' '].intercalate ((tokens.map fun w => trimMatches (scan [] none w)).filter (· ≠ [])) := by
  induction tokens generalizing out with
  | nil => simp
  | cons w tokens ih =>
    rw [List.foldl_cons, List.foldl_cons, List.map_cons, addToken, addToken]
    dsimp only
    by_cases hempty : trimMatches (scan [] none w) = []
    · rw [if_pos hempty, if_pos hempty, List.filter_cons_of_neg (by simp [hempty])]
      exact ih out
    · rw [if_neg hempty, if_neg hempty, List.filter_cons_of_pos (by simp [hempty]), join_cons, (ih _).1, (ih _).1]
      simp

/-- A message is cut from the text of its skeleton. -/
theorem normalizeMessage_eq (message : String) :
    normalizeMessage message = truncate 120 (String.ofList (clustered message)) := by
  have hscan : (fun w => trimMatches (scan [] none w)) = (fun w => trimMatches (render w)) ∘ skeleton none := by
    funext w
    have hpop : popSign [] = [] := rfl
    rw [scan_eq, hpop, ite_self]
    rfl
  unfold normalizeMessage clustered textOf
  rw [(foldl_addToken _ _).2, skeleton_words, List.map_map, hscan, List.nil_append]

section Truncate

variable {n : Nat} {text : List Char} {s t : String}

/-- A cut text has at most the bytes of the cut. -/
theorem truncate_le (h : truncate n s = .ok t) : t.utf8ByteSize ≤ n := by
  unfold truncate at h
  split at h
  · rename_i hfits
    cases h
    exact hfits
  · split at h
    · rename_i taken htaken
      cases h
      rw [utf8ByteSize_ofList, (takeBytes_eq_some htaken).1]
    · cases h

theorem straddles_lt (h : Straddles n text) : n < byteLen text := by
  obtain ⟨before, c, behind, rfl, -, hgt⟩ := h
  have hsum : byteLen (before ++ c :: behind) = byteLen before + (c.utf8Size + byteLen behind) := by
    simp [byteLen]
  omega

theorem truncate_ok : (∃ t, truncate n (String.ofList text) = .ok t) ↔ ¬ Straddles n text := by
  unfold truncate
  rw [utf8ByteSize_ofList, String.toList_ofList]
  by_cases hfits : byteLen text ≤ n
  · rw [if_pos hfits]
    refine ⟨fun _ hstraddle => ?_, fun _ => ⟨_, rfl⟩⟩
    exact absurd (straddles_lt hstraddle) (by omega)
  · rw [if_neg hfits, ← takeBytes_isSome (by omega)]
    cases takeBytes n text with
    | none => simp
    | some taken => simp

end Truncate

/-! ## Messages -/

/-- A message is clustered: it gives a text of at most 120 bytes, and neither the text nor a key
    of a finding depends on which literals it has. -/
structure Normalises (message : String) : Prop where
  returns : ∃ s, normalizeMessage message = .ok s ∧ s.utf8ByteSize ≤ 120
  literals : ∀ other, SameButLiterals message other → normalizeMessage other = normalizeMessage message
  miniKey : ∀ other finding kernel hash, SameButLiterals message other →
    signature finding (some other) kernel hash = signature finding (some message) kernel hash
  kernelKey : ∀ other finding mini hash, SameButLiterals message other →
    signature finding mini (some other) hash = signature finding mini (some message) hash

theorem normalizeMessage_same {message other : String} (h : SameButLiterals message other) :
    normalizeMessage other = normalizeMessage message := by
  rw [normalizeMessage_eq, normalizeMessage_eq, clustered, clustered, h]

theorem normalises_of {message : String} (h : ¬ Straddles 120 (clustered message)) : Normalises message := by
  obtain ⟨s, hs⟩ := truncate_ok.mpr h
  rw [← normalizeMessage_eq] at hs
  refine ⟨⟨s, hs, ?_⟩, fun other hother => normalizeMessage_same hother, ?_, ?_⟩
  · exact truncate_le hs
  · intro other finding kernel hash hother
    unfold signature
    rw [Option.getD_some, Option.getD_some, normalizeMessage_same hother]
  · intro other finding mini hash hother
    unfold signature
    rw [Option.getD_some, Option.getD_some, normalizeMessage_same hother]

/-- The text comes back unless one of its characters straddles byte 120. -/
theorem normalises_iff (message : String) : Normalises message ↔ ¬ Straddles 120 (clustered message) := by
  refine ⟨fun h => ?_, normalises_of⟩
  obtain ⟨s, hs, -⟩ := h.returns
  rw [normalizeMessage_eq] at hs
  exact truncate_ok.mp ⟨s, hs⟩

section Ascii

variable {c : Char} {message : String}

theorem mem_skeleton {prev : Option Char} {l : List Char} (h : some c ∈ skeleton prev l) : c ∈ l := by
  fun_induction skeleton prev l with
  | case1 prev => cases h
  | case2 prev d chars hstart ih =>
    rcases List.mem_cons.mp h with heq | h
    · cases heq
    · exact List.mem_cons_of_mem _ ((List.dropWhile_sublist _).subset (ih h))
  | case3 prev d chars hstart ih =>
    rcases List.mem_cons.mp h with heq | h
    · cases heq
      exact List.mem_cons_self
    · exact List.mem_cons_of_mem _ (ih h)

theorem mem_render {w : List (Option Char)} (h : c ∈ render w) : c = '#' ∨ some c ∈ w := by
  fun_induction render w with
  | case1 => cases h
  | case2 rest ih =>
    rcases List.mem_cons.mp h with rfl | h
    · exact .inl rfl
    · exact (ih h).imp_right (List.mem_cons_of_mem _)
  | case3 d rest hsign ih => exact (ih h).imp_right (List.mem_cons_of_mem _)
  | case4 d rest hsign ih =>
    rcases List.mem_cons.mp h with rfl | h
    · exact .inr List.mem_cons_self
    · exact (ih h).imp_right (List.mem_cons_of_mem _)

theorem trimMatches_subset (norm : List Char) : trimMatches norm ⊆ norm := by
  intro d hd
  exact (List.dropWhile_sublist _).subset ((List.rdropWhile_prefix _ _).subset hd)

/-- The text holds marks, spaces and characters of the message. -/
theorem mem_clustered (h : c ∈ clustered message) : c = '#' ∨ c = ' ' ∨ c ∈ message.toList := by
  have hword : ∀ w ∈ ((words (·.any isWhitespace) (skeleton none message.toList)).map fun w =>
      trimMatches (render w)).filter (· ≠ []), c ∈ w → c = '#' ∨ c = ' ' ∨ c ∈ message.toList := by
    intro w hw hc
    obtain ⟨v, hv, rfl⟩ := List.mem_map.mp (List.mem_filter.mp hw).1
    rcases mem_render (trimMatches_subset _ hc) with rfl | hc
    · exact .inl rfl
    · exact .inr (.inr (mem_skeleton (mem_words hc hv)))
  unfold clustered textOf at h
  cases hwords : ((words (·.any isWhitespace) (skeleton none message.toList)).map fun w =>
      trimMatches (render w)).filter (· ≠ []) with
  | nil =>
    rw [hwords] at h
    cases h
  | cons w ws =>
    rw [hwords] at h hword
    rw [join_cons] at h
    rcases List.mem_append.mp h with h | h
    · exact hword w List.mem_cons_self h
    · obtain ⟨v, hv, h⟩ := List.mem_flatMap.mp h
      rcases List.mem_cons.mp h with rfl | h
      · exact .inr (.inl rfl)
      · exact hword v (List.mem_cons_of_mem _ hv) h

/-- A message of one-byte characters is clustered. -/
theorem normalises_ascii (h : ∀ c ∈ message.toList, c.utf8Size = 1) : Normalises message := by
  refine normalises_of fun hstraddle => ?_
  obtain ⟨before, c, behind, htext, hlt, hgt⟩ := hstraddle
  have hc : c ∈ clustered message := by
    rw [htext]
    exact List.mem_append_right _ List.mem_cons_self
  have hsize : c.utf8Size = 1 := by
    rcases mem_clustered hc with rfl | rfl | hc
    · rfl
    · rfl
    · exact h c hc
  omega

end Ascii

/-- A letter of two bytes behind 119 of one. -/
theorem straddling_message : ¬ ∀ message, Normalises message := by
  intro h
  obtain ⟨s, hs, -⟩ := (h (String.ofList (List.replicate 119 'a' ++ ['é']))).returns
  have hword : (words isWhitespace (List.replicate 119 'a' ++ ['é'])).foldl addToken ([], false) =
      (List.replicate 119 'a' ++ ['é'], true) := by
    decide +kernel
  rw [normalizeMessage, String.toList_ofList, hword] at hs
  exact truncate_ok.mp ⟨s, hs⟩ ⟨List.replicate 119 'a', 'é', [], rfl, by decide +kernel, by decide +kernel⟩

end Novelty

end RandVerifier
