/-
  RandVerifier.Renaming — the register lowering of the reducer as a renaming
  (`src/fuzz/reduce/operand.rs`).

  The candidate is made of the encodings, with a nibble edited wherever it is the number of the
  register; the census that picks the register is taken on the decoded instructions. It does not
  count the base of a plain load or store, nor the source of a 32-bit comparison; and a nibble
  that is a pseudo class looks like R2.

  - `encode_mapRegs`: where no pseudo class looks like the register, the edited encoding is that
    of the renamed instruction;
  - `lowering_renames`: a candidate is the renamed program, and the new register is fresh,
    exactly if the census missed no use of it and no pseudo class looks like the old one.
-/

import RandVerifier.Pairing
import RandVerifier.Shrink

namespace RandVerifier

namespace Reduce

open Fixup

/-! ## Register operands -/

/-- The instruction with its register operands mapped. -/
def mapRegs (ρ : Reg → Reg) : BpfInsn → BpfInsn
  | .movImm dst imm => .movImm (ρ dst) imm
  | .movReg dst src => .movReg (ρ dst) (ρ src)
  | .mov32Imm dst imm => .mov32Imm (ρ dst) imm
  | .mov32Reg dst src => .mov32Reg (ρ dst) (ρ src)
  | .mulImm dst imm high => .mulImm (ρ dst) imm high
  | .mulReg dst src high => .mulReg (ρ dst) (ρ src) high
  | .divImm dst imm => .divImm (ρ dst) imm
  | .divReg dst src => .divReg (ρ dst) (ρ src)
  | .modImm dst imm => .modImm (ρ dst) imm
  | .modReg dst src => .modReg (ρ dst) (ρ src)
  | .neg dst => .neg (ρ dst)
  | .mul32Imm dst imm => .mul32Imm (ρ dst) imm
  | .mul32Reg dst src => .mul32Reg (ρ dst) (ρ src)
  | .div32Imm dst imm => .div32Imm (ρ dst) imm
  | .div32Reg dst src => .div32Reg (ρ dst) (ρ src)
  | .mod32Imm dst imm => .mod32Imm (ρ dst) imm
  | .mod32Reg dst src => .mod32Reg (ρ dst) (ρ src)
  | .neg32 dst => .neg32 (ρ dst)
  | .addImm dst imm => .addImm (ρ dst) imm
  | .addReg dst src => .addReg (ρ dst) (ρ src)
  | .subImm dst imm => .subImm (ρ dst) imm
  | .subReg dst src => .subReg (ρ dst) (ρ src)
  | .andImm dst imm => .andImm (ρ dst) imm
  | .andReg dst src => .andReg (ρ dst) (ρ src)
  | .orImm dst imm => .orImm (ρ dst) imm
  | .orReg dst src => .orReg (ρ dst) (ρ src)
  | .xorImm dst imm => .xorImm (ρ dst) imm
  | .xorReg dst src => .xorReg (ρ dst) (ρ src)
  | .lshImm dst imm => .lshImm (ρ dst) imm
  | .lshReg dst src => .lshReg (ρ dst) (ρ src)
  | .rshImm dst imm => .rshImm (ρ dst) imm
  | .rshReg dst src => .rshReg (ρ dst) (ρ src)
  | .arshImm dst imm => .arshImm (ρ dst) imm
  | .arshReg dst src => .arshReg (ρ dst) (ρ src)
  | .add32Imm dst imm => .add32Imm (ρ dst) imm
  | .add32Reg dst src => .add32Reg (ρ dst) (ρ src)
  | .sub32Imm dst imm => .sub32Imm (ρ dst) imm
  | .sub32Reg dst src => .sub32Reg (ρ dst) (ρ src)
  | .and32Imm dst imm => .and32Imm (ρ dst) imm
  | .and32Reg dst src => .and32Reg (ρ dst) (ρ src)
  | .or32Imm dst imm => .or32Imm (ρ dst) imm
  | .or32Reg dst src => .or32Reg (ρ dst) (ρ src)
  | .xor32Imm dst imm => .xor32Imm (ρ dst) imm
  | .xor32Reg dst src => .xor32Reg (ρ dst) (ρ src)
  | .lsh32Imm dst imm => .lsh32Imm (ρ dst) imm
  | .lsh32Reg dst src => .lsh32Reg (ρ dst) (ρ src)
  | .rsh32Imm dst imm => .rsh32Imm (ρ dst) imm
  | .rsh32Reg dst src => .rsh32Reg (ρ dst) (ρ src)
  | .arsh32Imm dst imm => .arsh32Imm (ρ dst) imm
  | .arsh32Reg dst src => .arsh32Reg (ρ dst) (ρ src)
  | .ldMem dst base offset size signExtend => .ldMem (ρ dst) (ρ base) offset size signExtend
  | .stMem src base offset size => .stMem (ρ src) (ρ base) offset size
  | .stMemImm imm base offset size => .stMemImm imm (ρ base) offset size
  | .ldImm64 dst imm => .ldImm64 (ρ dst) imm
  | .ldMapFd dst fd keySize valueSize mapType => .ldMapFd (ρ dst) fd keySize valueSize mapType
  | .ldMapValue dst fd offset keySize valueSize => .ldMapValue (ρ dst) fd offset keySize valueSize
  | .ldImm64Second immHi => .ldImm64Second immHi
  | .jeq dst src offset => .jeq (ρ dst) (ρ src) offset
  | .jne dst src offset => .jne (ρ dst) (ρ src) offset
  | .jgt dst src offset => .jgt (ρ dst) (ρ src) offset
  | .jge dst src offset => .jge (ρ dst) (ρ src) offset
  | .jlt dst src offset => .jlt (ρ dst) (ρ src) offset
  | .jle dst src offset => .jle (ρ dst) (ρ src) offset
  | .jsgt dst src offset => .jsgt (ρ dst) (ρ src) offset
  | .jsge dst src offset => .jsge (ρ dst) (ρ src) offset
  | .jslt dst src offset => .jslt (ρ dst) (ρ src) offset
  | .jsle dst src offset => .jsle (ρ dst) (ρ src) offset
  | .jeqImm dst imm offset => .jeqImm (ρ dst) imm offset
  | .jneImm dst imm offset => .jneImm (ρ dst) imm offset
  | .jgtImm dst imm offset => .jgtImm (ρ dst) imm offset
  | .jgeImm dst imm offset => .jgeImm (ρ dst) imm offset
  | .jltImm dst imm offset => .jltImm (ρ dst) imm offset
  | .jleImm dst imm offset => .jleImm (ρ dst) imm offset
  | .jsgtImm dst imm offset => .jsgtImm (ρ dst) imm offset
  | .jsgeImm dst imm offset => .jsgeImm (ρ dst) imm offset
  | .jsltImm dst imm offset => .jsltImm (ρ dst) imm offset
  | .jsleImm dst imm offset => .jsleImm (ρ dst) imm offset
  | .jmp offset => .jmp offset
  | .jset dst src offset => .jset (ρ dst) (ρ src) offset
  | .jsetImm dst imm offset => .jsetImm (ρ dst) imm offset
  | .jmp32 dst src imm offset op => .jmp32 (ρ dst) (src.map ρ) imm offset op
  | .atomic dst src offset size op fetch => .atomic (ρ dst) (ρ src) offset size op fetch
  | .ldAbs size imm => .ldAbs size imm
  | .ldInd src size imm => .ldInd (ρ src) size imm
  | .call imm => .call imm
  | .callSub offset => .callSub offset
  | .callKfunc btfId => .callKfunc btfId
  | .exit => .exit

/-- The register operands: what `mapRegs` maps. -/
def operands : BpfInsn → List Reg
  | .ldMem dst base .. => [dst, base]
  | .stMem src base .. => [src, base]
  | .stMemImm _ base .. => [base]
  | .jmp32 dst src .. => dst :: src.toList
  | .atomic dst src .. => [dst, src]
  | .ldAbs .. => []
  | .ldInd src .. => [src]
  | insn => markRegs insn

/-- The register operands that the census does not count. -/
def uncounted : BpfInsn → List Reg
  | .ldMem _ base .. | .stMem _ base .. | .stMemImm _ base .. => [base]
  | .jmp32 _ src .. => src.toList
  | _ => []

/-- Whether the source nibble is a pseudo class that looks like R2. -/
def looksLikeR2 : BpfInsn → Bool
  | .ldMapValue .. | .callKfunc _ => true
  | _ => false

/-- The renaming of one register. -/
def renamed (high low r : Reg) : Reg := if r = high then low else r

section Operands

variable {insn : BpfInsn} {r : Reg} {ρ σ : Reg → Reg}

/-- `operands` lists what `mapRegs` depends on. -/
theorem mapRegs_congr (h : ∀ r ∈ operands insn, ρ r = σ r) : mapRegs ρ insn = mapRegs σ insn := by
  cases insn with
  | jmp32 dst src imm offset op => cases src <;> simp_all [operands, mapRegs]
  | _ => simp_all [operands, markRegs, mapRegs]

theorem operands_counted (h : r ∈ operands insn) : r ∈ markRegs insn ∨ r ∈ uncounted insn := by
  cases insn with
  | jmp32 dst src imm offset op => simpa [operands, markRegs, uncounted] using h
  | atomic dst src offset size op fetch =>
    have h' : r = dst ∨ r = src := by simpa [operands] using h
    left
    by_cases hop : op = .cmpxchg
    · rcases h' with rfl | rfl <;> simp [markRegs, hop]
    · rcases h' with rfl | rfl <;> simp [markRegs, hop]
  | _ => simp_all [operands, markRegs, uncounted]

theorem uncounted_operand (h : r ∈ uncounted insn) : r ∈ operands insn := by
  cases insn with
  | ldMem | stMem | stMemImm | jmp32 => simp_all [operands, uncounted]
  | _ => cases h

theorem legal_mapRegs : (mapRegs ρ insn).Legal ↔ insn.Legal := by
  cases insn with
  | jmp32 dst src imm offset op => simp [mapRegs, BpfInsn.Legal]
  | _ => exact Iff.rfl

theorem isHalf_mapRegs : (mapRegs ρ insn).isHalf = insn.isHalf := by
  cases insn <;> rfl

theorem Halves.mapRegs {w s : BpfInsn} (h : Halves w s) : Halves (mapRegs ρ w) (mapRegs ρ s) := by
  unfold Halves at h
  split at h
  · exact h
  · exact h
  · exact h
  · exact h.elim

theorem Slotted.mapRegs {insns : List BpfInsn} (h : Slotted BpfInsn.Legal insns) :
    Slotted BpfInsn.Legal (insns.map (mapRegs ρ)) := by
  induction h with
  | nil => exact .nil
  | narrow hnarrow h _ ih => exact .narrow (isHalf_mapRegs.trans hnarrow) (legal_mapRegs.mpr h) ih
  | wide h _ ih => exact .wide (Halves.mapRegs h) ih

end Operands

/-! ## Editing the encoding -/

section Encoding

variable {insn : BpfInsn} {f : Fields} {high low r : Reg}

theorem regField_inj {r r' : Reg} : regField r = regField r' ↔ r = r' := by
  constructor
  · intro h
    have h' := regOfNibble_regField r
    rw [h, regOfNibble_regField] at h'
    exact (Except.ok.inj h').symm
  · exact congrArg regField

theorem renameNibble_reg : renameNibble (regField high) (regField low) (regField r) = regField (renamed high low r) := by
  unfold renameNibble renamed
  by_cases h : r = high
  · rw [if_pos (regField_inj.mpr h), if_pos h]
  · rw [if_neg (fun heq => h (regField_inj.mp heq)), if_neg h]

/-- A nibble that is not the register is kept. -/
theorem renameNibble_other (h : r ≠ high) : renameNibble (regField high) (regField low) (regField r) = regField r := by
  rw [renameNibble_reg, renamed, if_neg h]

/-- Where no pseudo class looks like the register, the edited encoding is that of the renamed
    instruction. -/
theorem encode_mapRegs (hhigh : 1 < high) (hpseudo : high = 2 → looksLikeR2 insn = false) (h : encodeFields insn = some f) :
    encodeFields (mapRegs (renamed high low) insn) = some (renameFields high low f) := by
  have hother : ∀ r : Reg, ¬ 1 < r → r ≠ high := fun r hr heq => hr (heq ▸ hhigh)
  have hzero : renameNibble (regField high) (regField low) 0 = 0 := renameNibble_other (r := 0) (hother _ (by decide))
  have hone : renameNibble (regField high) (regField low) 1 = 1 := renameNibble_other (r := 1) (hother _ (by decide))
  cases insn with
  | ldMem dst base offset size signExtend =>
    obtain ⟨code, hcode, h⟩ := Option.bind_eq_some_iff.mp h
    cases h
    simp [encodeFields, mapRegs, hcode, xForm, renameFields, renameNibble_reg]
  | jmp32 dst src imm offset op =>
    cases src with
    | some src =>
      cases h
      simp [encodeFields, mapRegs, xForm, renameFields, renameNibble_reg]
    | none =>
      cases imm with
      | none => cases h
      | some imm =>
        cases h
        simp [encodeFields, mapRegs, kForm, renameFields, renameNibble_reg, hzero]
  | ldMapValue | callKfunc =>
    have htwo : renameNibble (regField high) (regField low) 2 = 2 :=
      renameNibble_other (r := 2) fun heq => Bool.noConfusion (hpseudo heq.symm)
    cases h
    simp [encodeFields, mapRegs, renameFields, renameNibble_reg, hzero, htwo, opcode.pseudoMapValue]
  | _ =>
    cases h
    simp [encodeFields, mapRegs, kForm, xForm, renameFields, renameNibble_reg, hzero, hone, opcode.pseudoMapFd]

end Encoding

/-! ## The candidate of the register lowering -/

/-- A candidate is the renamed program, and the new register is fresh. -/
structure Renamed (insns : List BpfInsn) (out : List UInt8) (high low : Reg) : Prop where
  decodes : decode out = some (insns.map (mapRegs (renamed high low)))
  fresh : ∀ insn ∈ insns, low ∉ operands insn

/-- The census missed no use of the new register, and no pseudo class looks like the old one. -/
structure CensusAgrees (insns : List BpfInsn) (high low : Reg) : Prop where
  counted : ∀ insn ∈ insns, low ∉ uncounted insn
  pseudo : high = 2 → ∀ insn ∈ insns, looksLikeR2 insn = false

section Candidate

variable {bytes out : List UInt8} {insns : List BpfInsn} {high low : Reg} {fs : List Fields}

theorem slotted_of_encodes (hdec : decode bytes = some insns)
    (hfs : List.Forall₂ (fun insn f => encodeFields insn = some f) insns fs) : Slotted BpfInsn.Legal insns := by
  obtain ⟨slots, -, hchunks, -⟩ := decode_slots hdec
  refine (slotted_of_decode hchunks).imp fun insn hin _ hparse => legal_iff.mpr ⟨hparse, ?_⟩
  obtain ⟨f, -, hf⟩ := forall₂_mem hfs.flip hin
  rw [encode, hf]
  rfl

theorem slots_of_encodes (hfs : List.Forall₂ (fun insn f => encodeFields insn = some f) insns fs) :
    insns.mapM encode = some (fs.map fun f => f.slot.bytes) := by
  induction hfs with
  | nil => rfl
  | cons hf _ ih =>
    rw [List.map_cons, mapM_cons_eq_some, encode, hf]
    exact ⟨rfl, ih⟩

theorem renamed_decodes (hdec : decode bytes = some insns)
    (hfs : List.Forall₂ (fun insn f => encodeFields insn = some f) insns fs) (hhigh : 1 < high)
    (hpseudo : high = 2 → ∀ insn ∈ insns, looksLikeR2 insn = false) :
    decode (fs.map fun f => (renameFields high low f).slot.bytes).flatten = some (insns.map (mapRegs (renamed high low))) := by
  have hencodes : List.Forall₂ (fun insn f => encodeFields insn = some f) (insns.map (mapRegs (renamed high low)))
      (fs.map (renameFields high low)) := by
    have hall : ∀ insn ∈ insns, high = 2 → looksLikeR2 insn = false := fun insn hin heq => hpseudo heq insn hin
    clear hdec hpseudo
    induction hfs with
    | nil => exact .nil
    | cons hf _ ih =>
      refine .cons (encode_mapRegs hhigh (hall _ List.mem_cons_self) hf) (ih fun insn hin => ?_)
      exact hall insn (List.mem_cons_of_mem _ hin)
  obtain ⟨bytes', henc, hdec'⟩ := decodes_iff.mp (Slotted.mapRegs (ρ := renamed high low) (slotted_of_encodes hdec hfs))
  rw [encodeProgram, slots_of_encodes hencodes, List.map_map] at henc
  have hbytes : bytes' = (fs.map fun f => (renameFields high low f).slot.bytes).flatten := (Option.some.inj henc).symm
  subst hbytes
  have hlen := decodeProgram_length hdec'
  obtain ⟨hne, -, hprog⟩ := decode_some.mp hdec
  have hcount := decodeProgram_length hprog
  have hpos := List.length_pos_iff.mpr hne
  rw [List.length_map] at hlen
  refine decode_some.mpr ⟨fun hnil => ?_, by omega, hdec'⟩
  rw [hnil, List.length_nil] at hlen
  omega

/-- If the candidate is the renamed program, no pseudo class looks like the old register. -/
theorem pseudo_kept (hfs : List.Forall₂ (fun insn f => encodeFields insn = some f) insns fs) (hne : low ≠ high)
    (h : decode (fs.map fun f => (renameFields high low f).slot.bytes).flatten = some (insns.map (mapRegs (renamed high low))))
    (hhigh : high = 2) {insn : BpfInsn} (hin : insn ∈ insns) : looksLikeR2 insn = false := by
  obtain ⟨slots, hbytes, -, hslots⟩ := decode_slots h
  have hmap : (fs.map fun f => (renameFields high low f).slot.bytes) =
      (fs.map fun f => (renameFields high low f).slot).map Slot.bytes := by
    rw [List.map_map]
    rfl
  rw [hmap] at hbytes
  have heq := congrArg asChunks hbytes
  rw [asChunks_flatten, asChunks_flatten, Prod.mk.injEq] at heq
  obtain ⟨i, hlt, hget⟩ := List.getElem_of_mem hin
  obtain ⟨f, hfget, hf⟩ := forall₂_get hfs (List.getElem?_eq_some_iff.mpr ⟨hlt, hget⟩)
  have hmapped : (insns.map (mapRegs (renamed high low)))[i]? = some (mapRegs (renamed high low) insn) := by
    rw [List.getElem?_map, List.getElem?_eq_some_iff.mpr ⟨hlt, hget⟩]
    rfl
  obtain ⟨s, hs, henc⟩ := forall₂_get hslots hmapped
  rw [← heq.1, List.getElem?_map, hfget] at hs
  cases hs
  obtain ⟨hd, hsrc⟩ := encodeFields_nibbles hf
  have hfields := Fields.slot_fields (f := renameFields high low f) (renameNibble_lt hd high low) (renameNibble_lt hsrc high low)
  have hnibble : renameNibble (regField high) (regField low) 2 ≠ 2 := by
    have h2 : renameNibble (regField high) (regField low) (regField 2) = regField (renamed high low 2) := renameNibble_reg
    have htwo : regField 2 = 2 := by decide
    rw [renamed, if_pos hhigh.symm, htwo] at h2
    intro hbad
    rw [h2, ← htwo] at hbad
    exact hne ((regField_inj.mp hbad).trans hhigh.symm)
  cases insn with
  | ldMapValue | callKfunc =>
    cases hf
    have hclean := encodesSlot_some henc rfl
    rw [hfields, clean_of_code (by dsimp only [renameFields]; decide)] at hclean
    exact absurd (congrArg Fields.src hclean).symm hnibble
  | _ => rfl

/-- A candidate of the register lowering is the renamed program, and the new register is fresh,
    exactly if the census missed no use of the new register and no pseudo class looks like the
    old one. -/
theorem lowering_renames (bytes out : List UInt8) (insns : List BpfInsn) (cands : List (Transform × List UInt8))
    (high low : Reg) (hdec : decode bytes = some insns) (hcands : operandCandidates bytes = .ok cands)
    (hmem : (.regLower, out) ∈ cands) (hpair : loweringPair insns = some (high, low)) :
    Renamed insns out high low ↔ CensusAgrees insns high low := by
  obtain ⟨-, hunused, hlt, hhigh, hlow⟩ := lowering_facts hpair
  have hone : 1 < high := by
    have hall : ∀ r ∈ loweredRegs, ∀ r' ∈ loweredRegs, r < r' → 1 < r' := by decide
    exact hall low hlow high hhigh hlt
  cases operandCandidates_mem hdec hcands hmem with
  | @regLower high' low' fs hpair' hfs =>
    rw [hpair] at hpair'
    cases hpair'
    constructor
    · intro h
      refine ⟨fun insn hin hbad => h.fresh insn hin (uncounted_operand hbad), fun heq insn hin => ?_⟩
      exact pseudo_kept hfs (ne_of_lt hlt) h.decodes heq hin
    · intro h
      refine ⟨renamed_decodes hdec hfs hone h.pseudo, fun insn hin hbad => ?_⟩
      rcases operands_counted hbad with hcounted | hmissed
      · have hused : used insns low = true := List.any_eq_true.mpr ⟨insn, hin, decide_eq_true hcounted⟩
        rw [hunused] at hused
        cases hused
      · exact h.counted insn hin hmissed

/-- The bytes of `r0 = 0; r3 = r0; exit`. -/
def threeRegs : List UInt8 :=
  [0xb7, 0, 0, 0, 0, 0, 0, 0, 0xbf, 3, 0, 0, 0, 0, 0, 0, 0x95, 0, 0, 0, 0, 0, 0, 0]

/-- The bytes of `r0 = 0; r1 = r0; exit`. -/
def threeRegsLowered : List UInt8 :=
  [0xb7, 0, 0, 0, 0, 0, 0, 0, 0xbf, 1, 0, 0, 0, 0, 0, 0, 0x95, 0, 0, 0, 0, 0, 0, 0]

theorem lowering_renames_move : Renamed [.movImm 0 0, .movReg 3 0, .exit] threeRegsLowered 3 1 ↔
    CensusAgrees [.movImm 0 0, .movReg 3 0, .exit] 3 1 := by
  refine lowering_renames threeRegs threeRegsLowered [.movImm 0 0, .movReg 3 0, .exit]
    [(.aluForm, [0xb7, 0, 0, 0, 0, 0, 0, 0, 0xb7, 3, 0, 0, 0, 0, 0, 0, 0x95, 0, 0, 0, 0, 0, 0, 0]),
      (.regLower, threeRegsLowered)] 3 1 ?_ ?_ ?_ ?_
  · decide
  · decide
  · decide
  · decide

/-- The bytes of `r3 = *(u64 *)(r1 + 0); r0 = r3; exit`. -/
def loadsThree : List UInt8 :=
  [0x79, 0x13, 0, 0, 0, 0, 0, 0, 0xbf, 0x30, 0, 0, 0, 0, 0, 0, 0x95, 0, 0, 0, 0, 0, 0, 0]

/-- The bytes of `r2 = map_value(fd 1)[0]; r0 = r2; exit`. -/
def mapValueTwo : List UInt8 :=
  [0x18, 0x22, 0, 0, 1, 0, 0, 0, 0, 0, 0, 0, 0, 0, 0, 0, 0xbf, 0x20, 0, 0, 0, 0, 0, 0, 0x95, 0, 0, 0, 0, 0, 0, 0]

/-- A register that is only the base of a load gets a second value; and a load of a map value
    becomes the load of a map. -/
theorem lowered_base :
    (decode loadsThree = some [.ldMem 3 1 0 .dw false, .movReg 0 3, .exit] ∧
      (.regLower, [0x79, 0x11, 0, 0, 0, 0, 0, 0, 0xbf, 0x10, 0, 0, 0, 0, 0, 0, 0x95, 0, 0, 0, 0, 0, 0, 0]) ∈
        (operandCandidates loadsThree).toOption.getD [] ∧
      ¬ Renamed [.ldMem 3 1 0 .dw false, .movReg 0 3, .exit]
        [0x79, 0x11, 0, 0, 0, 0, 0, 0, 0xbf, 0x10, 0, 0, 0, 0, 0, 0, 0x95, 0, 0, 0, 0, 0, 0, 0] 3 1) ∧
    (decode mapValueTwo = some [.ldMapValue 2 1 0 0 0, .ldImm64Second 0, .movReg 0 2, .exit] ∧
      (.regLower, [0x18, 0x11, 0, 0, 1, 0, 0, 0, 0, 0, 0, 0, 0, 0, 0, 0, 0xbf, 0x10, 0, 0, 0, 0, 0, 0,
        0x95, 0, 0, 0, 0, 0, 0, 0]) ∈ (operandCandidates mapValueTwo).toOption.getD [] ∧
      decode [0x18, 0x11, 0, 0, 1, 0, 0, 0, 0, 0, 0, 0, 0, 0, 0, 0, 0xbf, 0x10, 0, 0, 0, 0, 0, 0, 0x95, 0, 0, 0, 0, 0, 0, 0] =
        some [.ldMapFd 1 1 0 0 0, .ldImm64Second 0, .movReg 0 1, .exit]) := by
  refine ⟨⟨by decide, by decide, fun h => ?_⟩, by decide, by decide, by decide⟩
  exact h.fresh (.ldMem 3 1 0 .dw false) List.mem_cons_self (by decide)

end Candidate

end Reduce

end RandVerifier
