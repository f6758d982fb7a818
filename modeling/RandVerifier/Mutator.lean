/-
  RandVerifier.Mutator — mutation of seed programs (`src/fuzz/mutator.rs`).

  A mutation replaces a field, inserts or deletes an instruction of the body, or joins the head
  of one seed to the tail of another; the mutant is dropped unless `add_subprog` and
  `check_cfg` accept it. Neither looks at the pairs of wide loads: `check_cfg` only keeps jumps
  out of a second half. So an edit can split a pair, and a sign-extending 8-byte load, which
  decodes but has no encoding, stays in the mutant.

  - `insert_slotted`, `delete_slotted`, `splice_slotted`: what an edit leaves of the pairs;
  - `mutate_spares`: when a mutant is well formed;
  - `mutant_decodes`: exactly then a mutant that passes the checks decodes from its encoding,
    keeps its frame and jumps into no wide load;
  - `deleted_half`: a mutant without the second half of its load.
-/

import RandVerifier.CallStack
import RandVerifier.Generator

namespace RandVerifier

namespace Fuzz

namespace Mutator

open Draws Fixup

/-! ## Replacing a field -/

/-- Replace the immediate; an instruction without one is unchanged. -/
def replaceImm (insn : BpfInsn) (imm : Int32) : BpfInsn :=
  match insn with
  | .movImm dst _ => .movImm dst imm
  | .addImm dst _ => .addImm dst imm
  | .subImm dst _ => .subImm dst imm
  | .andImm dst _ => .andImm dst imm
  | .orImm dst _ => .orImm dst imm
  | .xorImm dst _ => .xorImm dst imm
  | .lshImm dst _ => .lshImm dst imm
  | .rshImm dst _ => .rshImm dst imm
  | .arshImm dst _ => .arshImm dst imm
  | .add32Imm dst _ => .add32Imm dst imm
  | .sub32Imm dst _ => .sub32Imm dst imm
  | .and32Imm dst _ => .and32Imm dst imm
  | .or32Imm dst _ => .or32Imm dst imm
  | .xor32Imm dst _ => .xor32Imm dst imm
  | .lsh32Imm dst _ => .lsh32Imm dst imm
  | .rsh32Imm dst _ => .rsh32Imm dst imm
  | .arsh32Imm dst _ => .arsh32Imm dst imm
  | .jeqImm dst _ offset => .jeqImm dst imm offset
  | .jneImm dst _ offset => .jneImm dst imm offset
  | .jgtImm dst _ offset => .jgtImm dst imm offset
  | .jgeImm dst _ offset => .jgeImm dst imm offset
  | .jltImm dst _ offset => .jltImm dst imm offset
  | .jleImm dst _ offset => .jleImm dst imm offset
  | .jsgtImm dst _ offset => .jsgtImm dst imm offset
  | .jsgeImm dst _ offset => .jsgeImm dst imm offset
  | .jsltImm dst _ offset => .jsltImm dst imm offset
  | .jsleImm dst _ offset => .jsleImm dst imm offset
  | .call _ => .call imm
  | other => other

/-- Replace the offset of a jump, or of an access, which becomes one of the stack. -/
def replaceOff (insn : BpfInsn) (offset : Int16) : BpfInsn :=
  match insn with
  | .ldMem dst _ _ size signExtend => .ldMem dst 10 offset size signExtend
  | .stMem src _ _ size => .stMem src 10 offset size
  | .jeq dst src _ => .jeq dst src offset
  | .jne dst src _ => .jne dst src offset
  | .jgt dst src _ => .jgt dst src offset
  | .jge dst src _ => .jge dst src offset
  | .jlt dst src _ => .jlt dst src offset
  | .jle dst src _ => .jle dst src offset
  | .jsgt dst src _ => .jsgt dst src offset
  | .jsge dst src _ => .jsge dst src offset
  | .jslt dst src _ => .jslt dst src offset
  | .jsle dst src _ => .jsle dst src offset
  | .jeqImm dst imm _ => .jeqImm dst imm offset
  | .jneImm dst imm _ => .jneImm dst imm offset
  | .jgtImm dst imm _ => .jgtImm dst imm offset
  | .jgeImm dst imm _ => .jgeImm dst imm offset
  | .jltImm dst imm _ => .jltImm dst imm offset
  | .jleImm dst imm _ => .jleImm dst imm offset
  | .jsgtImm dst imm _ => .jsgtImm dst imm offset
  | .jsgeImm dst imm _ => .jsgeImm dst imm offset
  | .jsltImm dst imm _ => .jsltImm dst imm offset
  | .jsleImm dst imm _ => .jsleImm dst imm offset
  | .jmp _ => .jmp offset
  | other => other

/-- Replace the destination, or the register that is stored. -/
def replaceReg (insn : BpfInsn) (reg : Reg) : BpfInsn :=
  match insn with
  | .movImm _ imm => .movImm reg imm
  | .movReg _ src => .movReg reg src
  | .addImm _ imm => .addImm reg imm
  | .addReg _ src => .addReg reg src
  | .subImm _ imm => .subImm reg imm
  | .subReg _ src => .subReg reg src
  | .andImm _ imm => .andImm reg imm
  | .andReg _ src => .andReg reg src
  | .orImm _ imm => .orImm reg imm
  | .orReg _ src => .orReg reg src
  | .xorImm _ imm => .xorImm reg imm
  | .xorReg _ src => .xorReg reg src
  | .lshImm _ imm => .lshImm reg imm
  | .lshReg _ src => .lshReg reg src
  | .rshImm _ imm => .rshImm reg imm
  | .rshReg _ src => .rshReg reg src
  | .arshImm _ imm => .arshImm reg imm
  | .arshReg _ src => .arshReg reg src
  | .add32Imm _ imm => .add32Imm reg imm
  | .add32Reg _ src => .add32Reg reg src
  | .sub32Imm _ imm => .sub32Imm reg imm
  | .sub32Reg _ src => .sub32Reg reg src
  | .and32Imm _ imm => .and32Imm reg imm
  | .and32Reg _ src => .and32Reg reg src
  | .or32Imm _ imm => .or32Imm reg imm
  | .or32Reg _ src => .or32Reg reg src
  | .xor32Imm _ imm => .xor32Imm reg imm
  | .xor32Reg _ src => .xor32Reg reg src
  | .lsh32Imm _ imm => .lsh32Imm reg imm
  | .lsh32Reg _ src => .lsh32Reg reg src
  | .rsh32Imm _ imm => .rsh32Imm reg imm
  | .rsh32Reg _ src => .rsh32Reg reg src
  | .arsh32Imm _ imm => .arsh32Imm reg imm
  | .arsh32Reg _ src => .arsh32Reg reg src
  | .ldMem _ _ offset size signExtend => .ldMem reg 10 offset size signExtend
  | .stMem _ _ offset size => .stMem reg 10 offset size
  | .jeq _ src offset => .jeq reg src offset
  | .jne _ src offset => .jne reg src offset
  | .jgt _ src offset => .jgt reg src offset
  | .jge _ src offset => .jge reg src offset
  | .jlt _ src offset => .jlt reg src offset
  | .jle _ src offset => .jle reg src offset
  | .jsgt _ src offset => .jsgt reg src offset
  | .jsge _ src offset => .jsge reg src offset
  | .jslt _ src offset => .jslt reg src offset
  | .jsle _ src offset => .jsle reg src offset
  | .jeqImm _ imm offset => .jeqImm reg imm offset
  | .jneImm _ imm offset => .jneImm reg imm offset
  | .jgtImm _ imm offset => .jgtImm reg imm offset
  | .jgeImm _ imm offset => .jgeImm reg imm offset
  | .jltImm _ imm offset => .jltImm reg imm offset
  | .jleImm _ imm offset => .jleImm reg imm offset
  | .jsgtImm _ imm offset => .jsgtImm reg imm offset
  | .jsgeImm _ imm offset => .jsgeImm reg imm offset
  | .jsltImm _ imm offset => .jsltImm reg imm offset
  | .jsleImm _ imm offset => .jsleImm reg imm offset
  | other => other

/-- One of the fields, with a value of its pool. -/
def replaceField (insn : BpfInsn) : Gen BpfInsn := do
  match (← below 3) with
  | 0 => replaceImm insn <$> pick immediates
  | 1 => replaceOff insn <$> pick offsets
  | _ => replaceReg insn <$> pick aluRegs

/-! ## Mutations -/

/-- An index between the first instruction and the last one. -/
def bodyIndex (insns : List BpfInsn) : Gen Nat := (1 + ·) <$> below (insns.length - 2)

/-- An index behind the first instruction. -/
def cutIndex (insns : List BpfInsn) : Gen Nat := (1 + ·) <$> below (insns.length - 1)

/-- Replace one field of one body instruction. -/
def fieldReplace (seed : List BpfInsn) : Gen (List BpfInsn) := do
  let idx ← bodyIndex seed
  match seed[idx]? with
  | some insn => seed.set idx <$> replaceField insn
  | none => stop

/-- Insert one fresh instruction. -/
def insert (seed : List BpfInsn) : Gen (List BpfInsn) := do
  let pos ← cutIndex seed
  seed.insertIdx pos <$> genBodyInsn pos seed.length

/-- Remove one body instruction, if another one is left. -/
def delete (seed : List BpfInsn) : Gen (List BpfInsn) :=
  if 3 < seed.length then seed.eraseIdx <$> bodyIndex seed else pure seed

/-- The head of `a` and the tail of `b`. -/
def splice (a b : List BpfInsn) : Gen (List BpfInsn) := do
  let cutA ← cutIndex a
  let cutB ← cutIndex b
  pure (a.take cutA ++ b.drop cutB)

def mutate (seed : List BpfInsn) (other : Option (List BpfInsn)) : Gen (List BpfInsn) := do
  let roll ← below 100
  if roll < 50 then fieldReplace seed
  else if roll < 70 then insert seed
  else if roll < 85 then delete seed
  else match other with
    | some b => if 2 ≤ b.length then splice seed b else fieldReplace seed
    | none => fieldReplace seed

/-- A mutant that the structural checks accept. -/
def checked (mutant : List BpfInsn) : Option (List BpfInsn) :=
  match addSubprog mutant with
  | .error _ => none
  | .ok subprogs =>
    match checkCfg (cfgFuel mutant subprogs + 1) mutant subprogs with
    | some (.ok _) => some mutant
    | _ => none

/-- One mutation of `seed`, `none` if the mutant is dropped. -/
def tryMutate (seed : List BpfInsn) (other : Option (List BpfInsn)) : Gen (Option (List BpfInsn)) :=
  if seed.length < 3 then pure none else checked <$> mutate seed other

/-! ## What an edit leaves of the pairs -/

/-- The sign-extending 8-byte load: it decodes but has no encoding. -/
def unencodable : BpfInsn → Bool
  | .ldMem _ _ _ .dw true => true
  | _ => false

def isSecond : BpfInsn → Bool
  | .ldImm64Second _ => true
  | _ => false

/-- The program starts with the second half of a pair. -/
def startsInPair (insns : List BpfInsn) : Bool := insns.head?.any isSecond

/-- The first half of a pair. -/
def isFirst (insn : BpfInsn) : Bool := insn.isHalf && !isSecond insn

/-- A tail closes the pair that a head leaves open, and no other one. -/
def Joins (head tail : List BpfInsn) : Prop :=
  match head.getLast? with
  | some w => if isFirst w = true then ∃ s, tail.head? = some s ∧ Halves w s else startsInPair tail = false
  | none => startsInPair tail = false

section Pairs

variable {P : BpfInsn → Prop} {l l₁ l₂ m₁ m₂ : List BpfInsn} {insn w s : BpfInsn}

theorem halves_second (h : Halves w s) : isSecond s = true ∧ isFirst w = true := by
  cases w with
  | ldImm64 | ldMapFd | ldMapValue =>
    cases s with
    | ldImm64Second => exact ⟨rfl, rfl⟩
    | _ => exact absurd h id
  | _ => exact absurd h id

theorem second_half (h : isSecond insn = true) : insn.isHalf = true := by
  cases insn with
  | ldImm64Second => rfl
  | _ => cases h

theorem slotted_starts (h : Slotted P l) : startsInPair l = false := by
  cases h with
  | nil => rfl
  | @narrow insn _ hnarrow _ _ =>
    by_contra hsecond
    have := second_half (show isSecond insn = true by simpa [startsInPair] using hsecond)
    rw [hnarrow] at this
    cases this
  | wide hhalves _ =>
    have hfirst := (halves_second hhalves).2
    simp only [isFirst, Bool.and_eq_true, Bool.not_eq_true'] at hfirst
    simp [startsInPair, hfirst.2]

theorem slotted_last (h : Slotted P (l ++ [w])) : isFirst w = false := by
  obtain ⟨-, hlast⟩ | ⟨l', w', s, r, -, heq, hhalves, -⟩ := h.cut
  · cases hlast with
    | narrow hnarrow _ _ => simp [isFirst, hnarrow]
  · obtain ⟨rfl, -⟩ := List.cons.inj heq
    simp [isFirst, (halves_second hhalves).1]

/-- A cut splits a pair exactly if the part behind it starts in the pair. -/
theorem cut_clean (h : Slotted P (l₁ ++ l₂)) : startsInPair l₂ = false ↔ Slotted P l₁ ∧ Slotted P l₂ := by
  refine ⟨fun hstart => ?_, fun hboth => slotted_starts hboth.2⟩
  obtain hboth | ⟨l, w, s, r, -, rfl, hhalves, -⟩ := h.cut
  · exact hboth
  · simp [startsInPair, (halves_second hhalves).1] at hstart

/-- Behind an instruction of one slot no pair is open. -/
theorem around_narrow (h : Slotted P (l₁ ++ insn :: l₂)) (hnarrow : insn.isHalf = false) : Slotted P l₁ ∧ Slotted P l₂ := by
  obtain ⟨hhead, htail⟩ | ⟨l, w, s, r, -, heq, hhalves, -⟩ := h.cut
  · exact ⟨hhead, htail.tail hnarrow⟩
  · obtain ⟨rfl, -⟩ := List.cons.inj heq
    rw [hhalves.second] at hnarrow
    cases hnarrow

theorem insert_slotted (hnarrow : insn.isHalf = false) (hp : P insn) (h : Slotted P (l₁ ++ l₂)) :
    Slotted P (l₁ ++ insn :: l₂) ↔ startsInPair l₂ = false := by
  constructor
  · intro hinsert
    exact slotted_starts (around_narrow hinsert hnarrow).2
  · intro hstart
    obtain ⟨hhead, htail⟩ := (cut_clean h).mp hstart
    exact hhead.append (.narrow hnarrow hp htail)

theorem delete_slotted (h : Slotted P (l₁ ++ insn :: l₂)) : Slotted P (l₁ ++ l₂) ↔ insn.isHalf = false := by
  constructor
  · intro hdelete
    rw [← Bool.not_eq_true]
    intro hhalf
    -- the other half of the pair is left without this one
    obtain ⟨hhead, htail⟩ | ⟨l, w, s, r, rfl, heq, hhalves, hl, hr⟩ := h.cut
    · obtain ⟨s, r, rfl, hhalves, -⟩ := htail.second hhalf
      have hstart := slotted_starts (hhead.rest.mp hdelete)
      simp [startsInPair, (halves_second hhalves).1] at hstart
    · obtain ⟨rfl, rfl⟩ := List.cons.inj heq
      rw [List.append_assoc] at hdelete
      obtain ⟨s', r', rfl, hhalves', -⟩ := (hl.rest.mp hdelete).second hhalves.first
      have hstart := slotted_starts hr
      simp [startsInPair, (halves_second hhalves').1] at hstart
  · intro hnarrow
    obtain ⟨hhead, htail⟩ := around_narrow h hnarrow
    exact hhead.append htail

theorem splice_slotted (h₁ : Slotted P (l₁ ++ m₁)) (h₂ : Slotted P (m₂ ++ l₂)) : Slotted P (l₁ ++ l₂) ↔ Joins l₁ l₂ := by
  obtain ⟨hhead, -⟩ | ⟨l, w, s, r, rfl, rfl, hhalves, hl, -⟩ := h₁.cut
  · have hjoins : Joins l₁ l₂ ↔ startsInPair l₂ = false := by
      unfold Joins
      cases hlast : l₁.getLast? with
      | none => rfl
      | some w =>
        obtain ⟨l, rfl⟩ := List.getLast?_eq_some_iff.mp hlast
        simp [slotted_last hhead]
    rw [hhead.rest, hjoins]
    exact ⟨slotted_starts, fun hstart => ((cut_clean h₂).mp hstart).2⟩
  · have hjoins : Joins (l ++ [w]) l₂ ↔ ∃ s, l₂.head? = some s ∧ Halves w s := by
      simp [Joins, (halves_second hhalves).2]
    rw [List.append_assoc, hl.rest, hjoins]
    constructor
    · intro hwide
      obtain ⟨s', r', rfl, hhalves', -⟩ := hwide.second hhalves.first
      exact ⟨s', rfl, hhalves'⟩
    · rintro ⟨s', hs, hhalves'⟩
      obtain ⟨r', rfl⟩ := List.head?_eq_some_iff.mp hs
      obtain ⟨-, htail⟩ | ⟨-, -, s'', r'', -, heq, -, -, hr⟩ := h₂.cut
      · have hstart := slotted_starts htail
        simp [startsInPair, (halves_second hhalves').1] at hstart
      · obtain ⟨rfl, rfl⟩ := List.cons.inj heq
        exact .wide hhalves' hr

end Pairs

/-! ## Instructions that encode -/

/-- Decoded from one slot. -/
def Parsed (insn : BpfInsn) : Prop := ∃ f, parseFields f = .ok insn

def Encodable (insns : List BpfInsn) : Prop := ∀ insn ∈ insns, unencodable insn = false

section Encodable

variable {insn : BpfInsn} {insns : List BpfInsn} {bytes : List UInt8} {idx : Nat} {f : Fields}

theorem parsed_legal (h : Parsed insn) : insn.Legal ↔ unencodable insn = false := by
  constructor
  · intro hlegal
    cases insn with
    | ldMem dst base offset size signExtend =>
      cases size <;> cases signExtend
      case dw.true => exact absurd ⟨rfl, rfl⟩ hlegal
      all_goals rfl
    | _ => rfl
  · intro hload
    obtain ⟨f, hf⟩ := h
    refine legal_of_parse hf ?_
    by_cases hcode : f.code = 0x99
    · obtain ⟨dst, base, offset, rfl⟩ := parse_load hf hcode
      cases hload
    · rw [encode, (encode_parseFields (parseFields_clean hf)).mpr (clean_canonical hcode)]
      rfl

theorem half_encodable (h : insn.isHalf = true) : unencodable insn = false := by
  cases insn with
  | ldMem => cases h
  | _ => rfl

theorem legal_slotted : Slotted BpfInsn.Legal insns ↔ Slotted Parsed insns ∧ Encodable insns := by
  constructor
  · intro h
    refine ⟨h.imp fun insn _ _ hlegal => (legal_iff.mp hlegal).1, fun insn hin => ?_⟩
    by_cases hhalf : insn.isHalf = true
    · exact half_encodable hhalf
    · have hlegal := h.mem hin (by simpa using hhalf)
      exact (parsed_legal (legal_iff.mp hlegal).1).mp hlegal
  · rintro ⟨h, hencodable⟩
    exact h.imp fun insn hin _ hparsed => (parsed_legal hparsed).mpr (hencodable insn hin)

theorem parsed_program (h : decodeProgram bytes = .ok insns) : Slotted Parsed insns := by
  unfold decodeProgram at h
  exact slotted_of_decode h

end Encodable

/-! ## What a replacement keeps -/

/-- A replacement keeps the operation, and a half of a pair altogether. -/
def Replaces (old new : BpfInsn) : Prop :=
  (old.isHalf = true → new = old) ∧ new.isHalf = old.isHalf ∧ unencodable new = unencodable old ∧
    (new = old ∨ unencodable old = true ∨ new.Legal)

section Replaces

variable {old new insn : BpfInsn} {l₁ l₂ : List BpfInsn}

theorem load_keeps {dst base dst' base' : Reg} {offset offset' : Int16} {size : MemSize} {signExtend : Bool} :
    Replaces (.ldMem dst base offset size signExtend) (.ldMem dst' base' offset' size signExtend) := by
  refine ⟨nofun, rfl, ?_⟩
  by_cases hload : size = .dw ∧ signExtend = true
  · obtain ⟨rfl, rfl⟩ := hload
    exact ⟨rfl, .inr (.inl rfl)⟩
  · refine ⟨?_, .inr (.inr hload)⟩
    cases size <;> cases signExtend <;> rfl

theorem replaceImm_keeps (imm : Int32) : Replaces old (replaceImm old imm) := by
  cases old with
  | ldImm64 | ldMapFd | ldMapValue | ldImm64Second => exact ⟨fun _ => rfl, rfl, rfl, .inl rfl⟩
  | _ =>
    refine ⟨nofun, rfl, rfl, ?_⟩
    first
      | exact .inl rfl
      | exact .inr (.inr trivial)

theorem replaceOff_keeps (offset : Int16) : Replaces old (replaceOff old offset) := by
  cases old with
  | ldImm64 | ldMapFd | ldMapValue | ldImm64Second => exact ⟨fun _ => rfl, rfl, rfl, .inl rfl⟩
  | ldMem => exact load_keeps
  | _ =>
    refine ⟨nofun, rfl, rfl, ?_⟩
    first
      | exact .inl rfl
      | exact .inr (.inr trivial)

theorem replaceReg_keeps (reg : Reg) : Replaces old (replaceReg old reg) := by
  cases old with
  | ldImm64 | ldMapFd | ldMapValue | ldImm64Second => exact ⟨fun _ => rfl, rfl, rfl, .inl rfl⟩
  | ldMem => exact load_keeps
  | _ =>
    refine ⟨nofun, rfl, rfl, ?_⟩
    first
      | exact .inl rfl
      | exact .inr (.inr trivial)

theorem replace_slotted (h : Slotted BpfInsn.Legal (l₁ ++ old :: l₂)) (hkeeps : Replaces old new) :
    Slotted BpfInsn.Legal (l₁ ++ new :: l₂) := by
  obtain ⟨hsame, hhalf, hunencodable, hlegal⟩ := hkeeps
  by_cases hold : old.isHalf = true
  · rwa [hsame hold]
  · rw [Bool.not_eq_true] at hold
    obtain hnew | hload | hlegal := hlegal
    · rwa [hnew]
    · have := (legal_slotted.mp h).2 old (List.mem_append_right _ List.mem_cons_self)
      rw [hload] at this
      cases this
    · rw [hold] at hhalf
      obtain ⟨hhead, htail⟩ := around_narrow h hold
      exact hhead.append (.narrow hhalf hlegal htail)

end Replaces

/-! ## Which mutants are well formed -/

/-- An insertion at `pos`: the position is not between the halves of a pair. -/
def InsertSpares (seed : List BpfInsn) (pos : Nat) : Prop := Encodable seed ∧ startsInPair (seed.drop pos) = false

/-- A deletion at `pos`: the instruction is no half of a pair. -/
def DeleteSpares (seed : List BpfInsn) (pos : Nat) : Prop :=
  Encodable (seed.eraseIdx pos) ∧ ∀ insn, seed[pos]? = some insn → insn.isHalf = false

/-- A splice: both cuts are clean, or the halves they leave are those of one pair. -/
def SpliceSpares (a b : List BpfInsn) (cutA cutB : Nat) : Prop :=
  Encodable (a.take cutA ++ b.drop cutB) ∧ Joins (a.take cutA) (b.drop cutB)

/-- What the strategy and the positions that are drawn must find in the seeds. -/
def Spares (seed : List BpfInsn) (other : Option (List BpfInsn)) (rng : SplitMix64) : Prop :=
  Drawn (below 100) rng fun roll rng =>
    if roll < 50 then Encodable seed
    else if roll < 70 then Drawn (cutIndex seed) rng fun pos _ => InsertSpares seed pos
    else if roll < 85 then
      if 3 < seed.length then Drawn (bodyIndex seed) rng fun pos _ => DeleteSpares seed pos else Encodable seed
    else match other with
      | some b =>
        if 2 ≤ b.length then
          Drawn (cutIndex seed) rng fun cutA rng => Drawn (cutIndex b) rng fun cutB _ => SpliceSpares seed b cutA cutB
        else Encodable seed
      | none => Encodable seed

section Mutants

variable {seed b mutant : List BpfInsn} {other : Option (List BpfInsn)} {rng rng' : SplitMix64} {idx pos : Nat}

theorem below_lt {n a : Nat} (h : below n rng = some (a, rng')) : a < n := by
  unfold below at h
  split at h
  · cases h
  · cases h
    exact Nat.mod_lt _ (by omega)

theorem bodyIndex_range (h : bodyIndex seed rng = some (idx, rng')) : 0 < idx ∧ idx + 1 < seed.length := by
  obtain ⟨a, ha, rfl⟩ := run_map.mp h
  have := below_lt ha
  omega

theorem cutIndex_range (h : cutIndex seed rng = some (idx, rng')) : 0 < idx ∧ idx < seed.length := by
  obtain ⟨a, ha, rfl⟩ := run_map.mp h
  have := below_lt ha
  omega

/-- A field replacement at some index of the body. -/
theorem fieldReplace_run (h : fieldReplace seed rng = some (mutant, rng')) :
    ∃ idx old new, 0 < idx ∧ idx + 1 < seed.length ∧ seed[idx]? = some old ∧ mutant = seed.set idx new ∧ Replaces old new := by
  obtain ⟨idx, r, hidx, h⟩ := run_bind.mp h
  obtain ⟨hpos, hlt⟩ := bodyIndex_range hidx
  cases hold : seed[idx]? with
  | none =>
    rw [hold] at h
    cases h
  | some old =>
    rw [hold] at h
    obtain ⟨new, hnew, rfl⟩ := run_map.mp h
    refine ⟨idx, old, new, hpos, hlt, hold, rfl, ?_⟩
    obtain ⟨field, r', -, hnew⟩ := run_bind.mp hnew
    split at hnew
    · obtain ⟨imm, -, rfl⟩ := run_map.mp hnew
      exact replaceImm_keeps imm
    · obtain ⟨offset, -, rfl⟩ := run_map.mp hnew
      exact replaceOff_keeps offset
    · obtain ⟨reg, -, rfl⟩ := run_map.mp hnew
      exact replaceReg_keeps reg

theorem split_at (h : seed[idx]? = some insn) : seed = seed.take idx ++ insn :: seed.drop (idx + 1) := by
  obtain ⟨hlt, rfl⟩ := List.getElem?_eq_some_iff.mp h
  rw [← List.drop_eq_getElem_cons hlt, List.take_append_drop]

theorem fieldReplace_spares (hseed : Slotted Parsed seed) (h : fieldReplace seed rng = some (mutant, rng')) :
    Slotted BpfInsn.Legal mutant ↔ Encodable seed := by
  obtain ⟨idx, old, new, -, hlt, hold, rfl, hkeeps⟩ := fieldReplace_run h
  have hsplit := split_at hold
  have hset : seed.set idx new = seed.take idx ++ new :: seed.drop (idx + 1) :=
    List.set_eq_take_append_cons_drop.trans (if_pos (by omega))
  rw [hset]
  constructor
  · intro hmutant insn hin
    have hencodable := (legal_slotted.mp hmutant).2
    rw [hsplit] at hin
    rcases List.mem_append.mp hin with hin | hin
    · exact hencodable insn (List.mem_append_left _ hin)
    · rcases List.mem_cons.mp hin with rfl | hin
      · rw [← hkeeps.2.2.1]
        exact hencodable new (List.mem_append_right _ List.mem_cons_self)
      · exact hencodable insn (List.mem_append_right _ (List.mem_cons_of_mem _ hin))
  · intro hencodable
    have hlegal := legal_slotted.mpr ⟨hseed, hencodable⟩
    rw [hsplit] at hlegal
    exact replace_slotted hlegal hkeeps

theorem insert_at {insn : BpfInsn} (h : pos ≤ seed.length) :
    seed.insertIdx pos insn = seed.take pos ++ insn :: seed.drop pos := by
  induction seed generalizing pos with
  | nil =>
    obtain rfl : pos = 0 := Nat.le_zero.mp h
    rfl
  | cons first seed ih =>
    cases pos with
    | zero => rfl
    | succ pos =>
      rw [List.insertIdx_succ_cons, ih (Nat.le_of_succ_le_succ h)]
      rfl

theorem insert_run (h : insert seed rng = some (mutant, rng')) : ∃ pos r insn, cutIndex seed rng = some (pos, r) ∧
    0 < pos ∧ pos < seed.length ∧ insn.Legal ∧ mutant = seed.take pos ++ insn :: seed.drop pos := by
  obtain ⟨pos, r, hcut, h⟩ := run_bind.mp h
  obtain ⟨hpos, hlt⟩ := cutIndex_range hcut
  obtain ⟨insn, hinsn, rfl⟩ := run_map.mp h
  exact ⟨pos, r, insn, hcut, hpos, hlt, ((genBodyInsn_yields hlt).run hinsn).1, insert_at (by omega)⟩

theorem insert_spares (hseed : Slotted Parsed seed) (h : insert seed rng = some (mutant, rng')) :
    Slotted BpfInsn.Legal mutant ↔ Drawn (cutIndex seed) rng fun pos _ => InsertSpares seed pos := by
  obtain ⟨pos, r, insn, hcut, -, -, hinsn, rfl⟩ := insert_run h
  rw [drawn_iff hcut]
  have hnarrow := hinsn.narrow
  have hparsed := (legal_iff.mp hinsn).1
  have hsplit : Slotted Parsed (seed.take pos ++ seed.drop pos) := by rwa [List.take_append_drop]
  rw [legal_slotted, insert_slotted hnarrow hparsed hsplit, and_comm]
  refine and_congr_left fun _ => ?_
  have hmem : ∀ i, i ∈ seed.take pos ++ insn :: seed.drop pos ↔ i = insn ∨ i ∈ seed := by
    intro i
    rw [List.mem_append, List.mem_cons, or_left_comm, ← List.mem_append, List.take_append_drop]
  simp only [Encodable, hmem, forall_eq_or_imp, (parsed_legal hparsed).mp hinsn, true_and]

theorem delete_run (hlen : 3 < seed.length) (h : delete seed rng = some (mutant, rng')) :
    ∃ pos, bodyIndex seed rng = some (pos, rng') ∧ 0 < pos ∧ pos + 1 < seed.length ∧ mutant = seed.eraseIdx pos := by
  rw [delete, if_pos hlen] at h
  obtain ⟨pos, hpos, rfl⟩ := run_map.mp h
  exact ⟨pos, hpos, (bodyIndex_range hpos).1, (bodyIndex_range hpos).2, rfl⟩

theorem delete_spares (hseed : Slotted Parsed seed) (hlen : 3 < seed.length)
    (h : delete seed rng = some (mutant, rng')) :
    Slotted BpfInsn.Legal mutant ↔ Drawn (bodyIndex seed) rng fun pos _ => DeleteSpares seed pos := by
  obtain ⟨pos, hpos, -, hlt, rfl⟩ := delete_run hlen h
  rw [drawn_iff hpos, legal_slotted, DeleteSpares, and_comm]
  refine and_congr_right fun _ => ?_
  have hget := List.getElem?_eq_getElem (show pos < seed.length by omega)
  rw [List.eraseIdx_eq_take_drop_succ, hget]
  rw [split_at hget] at hseed
  rw [delete_slotted hseed]
  exact ⟨fun hnarrow insn heq => Option.some.inj heq ▸ hnarrow, fun hnarrow => hnarrow _ rfl⟩

theorem splice_run (h : splice seed b rng = some (mutant, rng')) : ∃ cutA cutB r, cutIndex seed rng = some (cutA, r) ∧
    cutIndex b r = some (cutB, rng') ∧ mutant = seed.take cutA ++ b.drop cutB := by
  obtain ⟨cutA, r, hcutA, h⟩ := run_bind.mp h
  obtain ⟨cutB, r', hcutB, h⟩ := run_bind.mp h
  cases h
  exact ⟨cutA, cutB, r, hcutA, hcutB, rfl⟩

theorem splice_spares (hseed : Slotted Parsed seed) (hb : Slotted Parsed b) (h : splice seed b rng = some (mutant, rng')) :
    Slotted BpfInsn.Legal mutant ↔ Drawn (cutIndex seed) rng fun cutA rng =>
      Drawn (cutIndex b) rng fun cutB _ => SpliceSpares seed b cutA cutB := by
  obtain ⟨cutA, cutB, r, hcutA, hcutB, rfl⟩ := splice_run h
  rw [drawn_iff hcutA, drawn_iff hcutB, legal_slotted, SpliceSpares, and_comm]
  rw [← List.take_append_drop cutA seed] at hseed
  rw [← List.take_append_drop cutB b] at hb
  exact and_congr_right fun _ => splice_slotted hseed hb

/-- A mutant is well formed exactly if the strategy finds what it must find. -/
theorem mutate_spares (hseed : Slotted Parsed seed) (hother : ∀ b, other = some b → Slotted Parsed b)
    (h : mutate seed other rng = some (mutant, rng')) : Slotted BpfInsn.Legal mutant ↔ Spares seed other rng := by
  obtain ⟨roll, r, hroll, h⟩ := run_bind.mp h
  rw [Spares, drawn_iff hroll]
  by_cases h50 : roll < 50
  · rw [if_pos h50] at h ⊢
    exact fieldReplace_spares hseed h
  rw [if_neg h50] at h ⊢
  by_cases h70 : roll < 70
  · rw [if_pos h70] at h ⊢
    exact insert_spares hseed h
  rw [if_neg h70] at h ⊢
  by_cases h85 : roll < 85
  · rw [if_pos h85] at h ⊢
    by_cases hlen : 3 < seed.length
    · rw [if_pos hlen]
      exact delete_spares hseed hlen h
    · rw [if_neg hlen]
      rw [delete, if_neg hlen] at h
      cases h
      rw [legal_slotted]
      exact and_iff_right hseed
  rw [if_neg h85] at h ⊢
  cases other with
  | none => exact fieldReplace_spares hseed h
  | some b =>
    by_cases hlen : 2 ≤ b.length
    · simp only [if_pos hlen] at h ⊢
      exact splice_spares hseed (hother b rfl) h
    · simp only [if_neg hlen] at h ⊢
      exact fieldReplace_spares hseed h

end Mutants

/-! ## The frame -/

section Frame

variable {a b seed mutant : List BpfInsn} {other : Option (List BpfInsn)} {rng rng' : SplitMix64} {cutA cutB : Nat}

theorem ends_join (mid : List BpfInsn) (ha : a ≠ []) (hpos : 0 < cutA) (hlt : cutB < b.length) :
    (a.take cutA ++ (mid ++ b.drop cutB)).head? = a.head? ∧
      (a.take cutA ++ (mid ++ b.drop cutB)).getLast? = b.getLast? := by
  have hhead : a.take cutA ≠ [] := by
    simp only [ne_eq, List.take_eq_nil_iff, ha, or_false]
    omega
  have htail : b.drop cutB ≠ [] := by
    simp only [ne_eq, List.drop_eq_nil_iff]
    omega
  constructor
  · rw [List.head?_append_of_ne_nil _ hhead, List.head?_take, if_neg (by omega)]
  · rw [← List.append_assoc, List.getLast?_append_of_ne_nil _ htail, List.getLast?_drop, if_neg (by omega)]

/-- The first instruction is that of the seed, the last one that of a seed. -/
def KeepsFrame (seed : List BpfInsn) (other : Option (List BpfInsn)) (mutant : List BpfInsn) : Prop :=
  mutant.head? = seed.head? ∧
    (mutant.getLast? = seed.getLast? ∨ ∃ b, other = some b ∧ mutant.getLast? = b.getLast?)

theorem fieldReplace_frame (h : fieldReplace seed rng = some (mutant, rng')) : KeepsFrame seed other mutant := by
  obtain ⟨idx, old, new, hpos, hlt, -, rfl, -⟩ := fieldReplace_run h
  have hset : seed.set idx new = seed.take idx ++ ([new] ++ seed.drop (idx + 1)) :=
    List.set_eq_take_append_cons_drop.trans (if_pos (by omega))
  have hne : seed ≠ [] := List.ne_nil_of_length_pos (by omega)
  obtain ⟨hhead, hlast⟩ := ends_join [new] hne hpos hlt
  rw [hset]
  exact ⟨hhead, .inl hlast⟩

theorem mutate_frame (hseed : seed ≠ []) (h : mutate seed other rng = some (mutant, rng')) :
    KeepsFrame seed other mutant := by
  obtain ⟨roll, r, -, h⟩ := run_bind.mp h
  split at h
  · exact fieldReplace_frame h
  split at h
  · obtain ⟨pos, -, insn, -, hpos, hlt, -, rfl⟩ := insert_run h
    obtain ⟨hhead, hlast⟩ := ends_join [insn] hseed hpos hlt
    exact ⟨hhead, .inl hlast⟩
  split at h
  · by_cases hlen : 3 < seed.length
    · obtain ⟨pos, -, hpos, hlt, rfl⟩ := delete_run hlen h
      obtain ⟨hhead, hlast⟩ := ends_join [] hseed hpos hlt
      rw [List.eraseIdx_eq_take_drop_succ]
      exact ⟨hhead, .inl hlast⟩
    · rw [delete, if_neg hlen] at h
      cases h
      exact ⟨rfl, .inl rfl⟩
  cases other with
  | none => exact fieldReplace_frame h
  | some b =>
    by_cases hlen : 2 ≤ b.length
    · simp only [if_pos hlen] at h
      obtain ⟨cutA, cutB, r, hcutA, hcutB, rfl⟩ := splice_run h
      obtain ⟨hhead, hlast⟩ := ends_join [] hseed (cutIndex_range hcutA).1 (cutIndex_range hcutB).2
      exact ⟨hhead, .inr ⟨b, rfl, hlast⟩⟩
    · simp only [if_neg hlen] at h
      exact fieldReplace_frame h

end Frame

/-! ## Jumps -/

/-- Where a jump or a call of a subprogram leads. -/
def jumpTarget (pc : Nat) : BpfInsn → Option Nat
  | .jmp offset => some (branchTarget pc offset)
  | .callSub offset => some (callTarget pc offset)
  | insn => insn.branchOffset.map (branchTarget pc)

/-- No jump leads into the second half of a pair. -/
def JumpsClear (insns : List BpfInsn) : Prop :=
  ∀ pc insn target, insns[pc]? = some insn → jumpTarget pc insn = some target →
    ∀ s, insns[target]? = some s → isSecond s = false

section Jumps

variable {insns mutant : List BpfInsn} {subprogs : List Nat} {P : BpfInsn → Prop}

theorem checkTarget_clear {idx target start stop : Nat} {kind : String} {u : Unit} {s : BpfInsn}
    (h : checkTarget idx target start stop kind insns = .ok u) (hget : insns[target]? = some s) :
    isSecond s = false := by
  obtain ⟨-, -, h⟩ := bind_eq_ok.mp h
  unfold checkLdimm64Target at h
  rw [hget] at h
  cases s with
  | ldImm64Second => exact (fail_ne_ok.mp h).elim
  | _ => rfl

/-- A subprogram starts the program or behind an instruction of one slot. -/
theorem entry_clear (hsub : addSubprog insns = .ok subprogs) (hacc : CfgAccepts insns subprogs)
    (h : Slotted P insns) {target : Nat} (htarget : target ∈ subprogs) {s : BpfInsn} (hget : insns[target]? = some s) :
    isSecond s = false := by
  obtain ⟨-, hmain⟩ := addSubprog_range hacc.nonempty hsub
  obtain ⟨k, hk⟩ := List.mem_iff_getElem?.mp htarget
  have hhead : ∀ l : List BpfInsn, Slotted P l → l[0]? = some s → isSecond s = false := by
    intro l hl hs
    have hstart := slotted_starts hl
    rw [startsInPair, List.head?_eq_getElem?, hs] at hstart
    exact hstart
  by_cases hzero : target = 0
  · rw [hzero] at hget
    exact hhead insns h hget
  · cases k with
    | zero =>
      -- the entries are sorted, and the main program is one of them
      obtain ⟨rest, rfl⟩ := List.head?_eq_some_iff.mp (List.head?_eq_getElem?.trans hk)
      have hle := (List.pairwise_cons.mp (addSubprog_sorted hsub)).1
      rcases List.mem_cons.mp hmain with heq | hrest
      · exact absurd heq.symm hzero
      · exact absurd (Nat.le_zero.mp (hle 0 hrest)) hzero
    | succ k =>
      have hlt := (List.getElem?_eq_some_iff.mp hk).1
      obtain ⟨e, he, hends⟩ := hacc.ends k _ (List.getElem?_eq_getElem (show k < subprogs.length by omega))
      rw [hk, Option.getD_some] at he
      have hnarrow : e.isHalf = false := by
        cases e with
        | exit | jmp => rfl
        | _ => cases hends
      have hsucc : target - 1 + 1 = target := by omega
      rw [split_at he, hsucc] at h
      refine hhead _ (around_narrow h hnarrow).2 ?_
      rw [List.getElem?_drop, Nat.add_zero, hget]

theorem accepted_clear (hsub : addSubprog insns = .ok subprogs) (hacc : CfgAccepts insns subprogs) (h : Slotted P insns) :
    JumpsClear insns := by
  intro pc insn target hget htarget s hs
  have hpc := (List.getElem?_eq_some_iff.mp hget).1
  obtain ⟨nexts, hnexts⟩ := hacc.visits pc hpc
  obtain ⟨insn', hget', hnexts, -⟩ := visitInsn_eq_ok hnexts
  rw [hget] at hget'
  cases hget'
  unfold jumpTarget at htarget
  unfold insnNexts at hnexts
  split at htarget
  · cases htarget
    obtain ⟨u, hcheck, -⟩ := bind_eq_ok.mp hnexts
    exact checkTarget_clear hcheck hs
  · cases htarget
    dsimp only at hnexts
    split at hnexts
    · rename_i hmem
      exact entry_clear hsub hacc h hmem hs
    · exact (fail_ne_ok.mp hnexts).elim
  · rename_i hjmp hcall
    obtain ⟨offset, hoff, rfl⟩ := Option.map_eq_some_iff.mp htarget
    have hexit : insn ≠ .exit := by
      intro hexit
      rw [hexit] at hoff
      cases hoff
    split at hnexts
    · exact absurd rfl hexit
    · exact absurd rfl (hjmp _)
    · exact absurd rfl (hcall _)
    · rw [hoff] at hnexts
      obtain ⟨u, hcheck, -⟩ := bind_eq_ok.mp hnexts
      exact checkTarget_clear hcheck hs

theorem checked_accepts {mutant' : List BpfInsn} (h : checked mutant = some mutant') :
    mutant' = mutant ∧ ∃ subprogs, addSubprog mutant = .ok subprogs ∧ CfgAccepts mutant subprogs := by
  unfold checked at h
  cases hsub : addSubprog mutant with
  | error e =>
    rw [hsub] at h
    cases h
  | ok subprogs =>
    rw [hsub] at h
    dsimp only at h
    split at h
    · rename_i heads hheads
      cases h
      exact ⟨rfl, subprogs, rfl, checkCfg_accepts hsub (Nat.lt_succ_self _) hheads⟩
    · cases h

end Jumps

/-! ## Every mutant -/

section Runs

variable {seed mutant : List BpfInsn} {other : Option (List BpfInsn)} {rng rng' : SplitMix64} {bytes : List UInt8}

theorem tryMutate_run (h : tryMutate seed other rng = some (some mutant, rng')) :
    3 ≤ seed.length ∧ mutate seed other rng = some (mutant, rng') ∧
      ∃ subprogs, addSubprog mutant = .ok subprogs ∧ CfgAccepts mutant subprogs := by
  unfold tryMutate at h
  split at h
  · cases h
  · rename_i hlen
    obtain ⟨mutant', hmutate, hchecked⟩ := run_map.mp h
    obtain ⟨rfl, haccepts⟩ := checked_accepts hchecked
    exact ⟨by omega, hmutate, haccepts⟩

/-- A mutant decodes from its encoding, keeps its frame and jumps into no pair exactly if the
    mutation spares the pairs of the seeds and keeps no load that has no encoding. -/
theorem mutant_decodes (hseed : decodeProgram bytes = .ok seed)
    (hother : ∀ b, other = some b → ∃ bytes, decodeProgram bytes = .ok b)
    (h : tryMutate seed other rng = some (some mutant, rng')) :
    ((∃ bytes, encodeProgram mutant = some bytes ∧ decodeProgram bytes = .ok mutant) ∧
      KeepsFrame seed other mutant ∧ JumpsClear mutant) ↔ Spares seed other rng := by
  obtain ⟨hlen, hmutate, subprogs, hsub, hacc⟩ := tryMutate_run h
  have hparsed : ∀ b, other = some b → Slotted Parsed b := by
    intro b hb
    obtain ⟨bytes, hbytes⟩ := hother b hb
    exact parsed_program hbytes
  rw [← decodes_iff, ← mutate_spares (parsed_program hseed) hparsed hmutate]
  constructor
  · intro hgood
    exact hgood.1
  · intro hslotted
    exact ⟨hslotted, mutate_frame (List.ne_nil_of_length_pos (by omega)) hmutate, accepted_clear hsub hacc hslotted⟩

end Runs

/-- An instruction inserted before a pair. -/
theorem mutant_decodes_inserted :
    ((∃ bytes, encodeProgram [.movImm 0 0, .rshReg 6 2, .ldImm64 1 7, .ldImm64Second 0, .exit] = some bytes ∧
        decodeProgram bytes = .ok [.movImm 0 0, .rshReg 6 2, .ldImm64 1 7, .ldImm64Second 0, .exit]) ∧
      KeepsFrame [.movImm 0 0, .ldImm64 1 7, .ldImm64Second 0, .exit] none
        [.movImm 0 0, .rshReg 6 2, .ldImm64 1 7, .ldImm64Second 0, .exit] ∧
      JumpsClear [.movImm 0 0, .rshReg 6 2, .ldImm64 1 7, .ldImm64Second 0, .exit]) ↔
    Spares [.movImm 0 0, .ldImm64 1 7, .ldImm64Second 0, .exit] none ⟨3⟩ :=
  @mutant_decodes _ _ _ _ ⟨3 + 7 * 0x9E3779B97F4A7C15⟩
    [0xb7, 0, 0, 0, 0, 0, 0, 0, 0x18, 1, 0, 0, 7, 0, 0, 0, 0, 0, 0, 0, 0, 0, 0, 0, 0x95, 0, 0, 0, 0, 0, 0, 0]
    (by decide) nofun (by decide)

/-- The first half of a load is deleted: the mutant passes the checks and does not decode. -/
theorem deleted_half : ∃ bytes seed mutant bytes' rng',
    decodeProgram bytes = .ok seed ∧ tryMutate seed none ⟨4⟩ = some (some mutant, rng') ∧
      encodeProgram mutant = some bytes' ∧ decodeProgram bytes' ≠ .ok mutant :=
  ⟨[0xb7, 0, 0, 0, 0, 0, 0, 0, 0x18, 1, 0, 0, 7, 0, 0, 0, 0, 0, 0, 0, 0, 0, 0, 0, 0x95, 0, 0, 0, 0, 0, 0, 0],
    [.movImm 0 0, .ldImm64 1 7, .ldImm64Second 0, .exit], [.movImm 0 0, .ldImm64Second 0, .exit],
    [0xb7, 0, 0, 0, 0, 0, 0, 0, 0, 0, 0, 0, 0, 0, 0, 0, 0x95, 0, 0, 0, 0, 0, 0, 0],
    ⟨4 + 0x9E3779B97F4A7C15 + 0x9E3779B97F4A7C15⟩, by decide, by decide, by decide,
    by decide⟩

end Mutator

end Fuzz

end RandVerifier
