/-
  RandVerifier.Operand — the operand candidates of the reducer (`src/fuzz/reduce/operand.rs`).

  From a program that decodes, the reducer proposes rewritings of one kind at a time: a smaller
  immediate, the immediate form of an ALU operation whose source register it takes for a
  constant, the highest register of its census renamed to the lowest one that the census lacks,
  and a load or store nearer to offset 0. Immediates, forms and offsets are patched into the
  encoding of one instruction; a renaming encodes the whole program and edits the nibbles.

  Proved:
  - `operandCandidates_mem`: what a candidate is, one case for each transform;
  - `decoded_slots`: an instruction encodes to the fields of its slot that the decoder keeps;
  - `renameReg_slot`, `patch_slots`: the candidates slot by slot;
  - `operandCandidates_returns`: they are computed unless an instruction does not encode or an
    offset has no magnitude.
-/

import RandVerifier.Deletions
import RandVerifier.MapFds

namespace RandVerifier

namespace Reduce

open Fixup MapFds

/-! ## Immediates and sources -/

/-- The four transforms. -/
inductive Transform where
  | immediate
  | aluForm
  | regLower
  | stackOffset
  deriving DecidableEq, Repr

/-- What stops the reducer: an instruction that does not encode, and the magnitude of the
    smallest offset (a panic where overflow is checked). -/
inductive Panic where
  | unreachable
  | overflow
  deriving DecidableEq, Repr

/-- The values that an immediate is replaced by, in order of preference. -/
def valuePool : List Int32 := [0, 1, -1, -2147483648, 2147483647]

/-- `unsigned_abs`. -/
def unsignedAbs (imm : Int32) : Nat := imm.toInt.natAbs

def immOf : BpfInsn → Option Int32
  | .movImm _ imm | .addImm _ imm | .subImm _ imm | .andImm _ imm | .orImm _ imm | .xorImm _ imm
  | .lshImm _ imm | .rshImm _ imm | .arshImm _ imm | .add32Imm _ imm | .sub32Imm _ imm | .and32Imm _ imm
  | .or32Imm _ imm | .xor32Imm _ imm | .lsh32Imm _ imm | .rsh32Imm _ imm | .arsh32Imm _ imm
  | .jeqImm _ imm _ | .jneImm _ imm _ | .jgtImm _ imm _ | .jgeImm _ imm _ | .jltImm _ imm _
  | .jleImm _ imm _ | .jsgtImm _ imm _ | .jsgeImm _ imm _ | .jsltImm _ imm _ | .jsleImm _ imm _
  | .jsetImm _ imm _ | .jmp32 _ _ (some imm) _ _ => some imm
  | _ => none

/-- The source register of a register-form ALU operation. -/
def xFormSource : BpfInsn → Option Reg
  | .movReg _ src | .addReg _ src | .subReg _ src | .andReg _ src | .orReg _ src | .xorReg _ src
  | .lshReg _ src | .rshReg _ src | .arshReg _ src | .add32Reg _ src | .sub32Reg _ src
  | .and32Reg _ src | .or32Reg _ src | .xor32Reg _ src | .lsh32Reg _ src | .rsh32Reg _ src
  | .arsh32Reg _ src => some src
  | _ => none

/-! ## Known constants -/

abbrev Known := Reg → Option Int32

def hasAluDst : BpfInsn → Bool
  | .call _ | .exit | .jmp _ | .stMem .. => false
  | insn => !insn.isConditionalBranch

def aluDst : BpfInsn → Option Reg
  | .movImm dst _ | .movReg dst _ | .addImm dst _ | .addReg dst _ | .subImm dst _ | .subReg dst _
  | .andImm dst _ | .andReg dst _ | .orImm dst _ | .orReg dst _ | .xorImm dst _ | .xorReg dst _
  | .lshImm dst _ | .lshReg dst _ | .rshImm dst _ | .rshReg dst _ | .arshImm dst _ | .arshReg dst _
  | .add32Imm dst _ | .add32Reg dst _ | .sub32Imm dst _ | .sub32Reg dst _ | .and32Imm dst _
  | .and32Reg dst _ | .or32Imm dst _ | .or32Reg dst _ | .xor32Imm dst _ | .xor32Reg dst _
  | .lsh32Imm dst _ | .lsh32Reg dst _ | .rsh32Imm dst _ | .rsh32Reg dst _ | .arsh32Imm dst _
  | .arsh32Reg dst _ | .ldMem dst .. => some dst
  | _ => none

/-- The definition of one instruction: calls clobber R0..R5. -/
def applyDef (known : Known) (insn : BpfInsn) : Known :=
  match insn with
  | .movImm dst imm => Function.update known dst (some imm)
  | .movReg dst src => Function.update known dst (known src)
  | .call _ | .callSub _ | .callKfunc _ => fun r => if r.val < 6 then none else known r
  | .ldMem dst .. => Function.update known dst none
  | .stMem .. => known
  | insn =>
    if hasAluDst insn then
      match aluDst insn with
      | some dst => Function.update known dst none
      | none => known
    else known

/-- What is known before the instruction at `pc`. -/
def knownAt (insns : List BpfInsn) (pc : Nat) : Known := (insns.take pc).foldl applyDef fun _ => none

/-! ## Registers and offsets -/

/-- The offset of a plain load or store. -/
def stackOffset : BpfInsn → Option Int16
  | .ldMem _ _ offset _ _ | .stMem _ _ offset _ => some offset
  | _ => none

/-- The registers that the census marks for an instruction. -/
def markRegs : BpfInsn → List Reg
  | .movImm dst _ | .mov32Imm dst _ | .addImm dst _ | .subImm dst _ | .andImm dst _ | .orImm dst _
  | .xorImm dst _ | .lshImm dst _ | .rshImm dst _ | .arshImm dst _ | .mulImm dst _ _ | .divImm dst _
  | .modImm dst _ | .neg dst | .add32Imm dst _ | .sub32Imm dst _ | .and32Imm dst _ | .or32Imm dst _
  | .xor32Imm dst _ | .lsh32Imm dst _ | .rsh32Imm dst _ | .arsh32Imm dst _ | .mul32Imm dst _
  | .div32Imm dst _ | .mod32Imm dst _ | .neg32 dst | .ldMem dst .. | .ldImm64 dst _ | .ldMapFd dst ..
  | .ldMapValue dst .. => [dst]
  | .ldImm64Second _ => []
  | .atomic dst src _ _ op _ => if op = .cmpxchg then [dst, src, 0] else [dst, src]
  | .ldAbs .. => [0]
  | .ldInd src .. => [0, src]
  | .movReg dst src | .mov32Reg dst src | .jset dst src _ | .addReg dst src | .subReg dst src
  | .andReg dst src | .orReg dst src | .xorReg dst src | .lshReg dst src | .rshReg dst src
  | .arshReg dst src | .mulReg dst src _ | .divReg dst src | .modReg dst src | .add32Reg dst src
  | .sub32Reg dst src | .and32Reg dst src | .or32Reg dst src | .xor32Reg dst src | .lsh32Reg dst src
  | .rsh32Reg dst src | .arsh32Reg dst src | .mul32Reg dst src | .div32Reg dst src
  | .mod32Reg dst src => [dst, src]
  | .stMem src .. => [src]
  | .stMemImm .. => []
  | .jeq dst src _ | .jne dst src _ | .jgt dst src _ | .jge dst src _ | .jlt dst src _ | .jle dst src _
  | .jsgt dst src _ | .jsge dst src _ | .jslt dst src _ | .jsle dst src _ => [dst, src]
  | .jeqImm dst _ _ | .jneImm dst _ _ | .jgtImm dst _ _ | .jgeImm dst _ _ | .jltImm dst _ _
  | .jleImm dst _ _ | .jsgtImm dst _ _ | .jsgeImm dst _ _ | .jsltImm dst _ _ | .jsleImm dst _ _
  | .jsetImm dst _ _ | .jmp32 dst .. => [dst]
  | .jmp _ | .call _ | .callSub _ | .callKfunc _ | .exit => []

/-- The census. -/
def used (insns : List BpfInsn) (r : Reg) : Bool := insns.any fun insn => decide (r ∈ markRegs insn)

/-- R1..R9: the exit convention's R0 and the frame pointer are never renamed. -/
def loweredRegs : List Reg := [1, 2, 3, 4, 5, 6, 7, 8, 9]

/-- The highest used register, and the lowest unused one below it. -/
def loweringPair (insns : List BpfInsn) : Option (Reg × Reg) := do
  let highest ← loweredRegs.reverse.find? (used insns)
  let lowest ← loweredRegs.find? fun r => !used insns r && decide (r < highest)
  some (highest, lowest)

/-- A nibble after the renaming. -/
def renameNibble (high low nibble : UInt8) : UInt8 := if nibble = high then low else nibble

/-- Rename a register in the encoding of one instruction: both nibbles of byte 1. -/
def renameReg (chunk : List UInt8) (high low : UInt8) : List UInt8 :=
  let regs := chunk.getD 1 0
  chunk.take 1 ++ [(renameNibble high low (regs >>> 4) <<< 4) ||| renameNibble high low (regs &&& 0x0f)] ++
    chunk.drop 2

/-! ## The candidates -/

/-- Replace one encoded instruction. -/
def patch (bytes : List UInt8) (pc : Nat) (chunk : List UInt8) : List UInt8 :=
  bytes.take (pc * 8) ++ chunk ++ bytes.drop (pc * 8 + 8)

/-- `chunk[4..8] = imm`. -/
def setImmBytes (chunk : List UInt8) (imm : Int32) : List UInt8 := chunk.take 4 ++ leBytes imm

/-- The immediate form: the source bit and the source nibble are cleared. -/
def toKForm (chunk : List UInt8) (imm : Int32) : List UInt8 :=
  setImmBytes ([chunk.getD 0 0 &&& ~~~0x08, chunk.getD 1 0 &&& 0x0f] ++ chunk.drop 2) imm

/-- The rewritings of one instruction, each from its encoding. -/
def rewritings {α : Type} (bytes : List UInt8) (pc : Nat) (insn : BpfInsn) (values : List α)
    (rewrite : List UInt8 → α → List UInt8) : Except Panic (List (List UInt8)) :=
  if values.isEmpty then .ok []
  else match encode insn with
    | none => .error .unreachable
    | some chunk => .ok (values.map fun v => patch bytes pc (rewrite chunk v))

/-- The values that are strictly smaller in magnitude. -/
def smallerValues (orig : Int32) : List Int32 :=
  valuePool.filter fun v => decide (v ≠ orig ∧ unsignedAbs v < unsignedAbs orig)

def immediates (bytes : List UInt8) (pc : Nat) (insn : BpfInsn) : Except Panic (List (List UInt8)) :=
  match immOf insn with
  | none => .ok []
  | some orig => rewritings bytes pc insn (smallerValues orig) setImmBytes

def aluForms (bytes : List UInt8) (insns : List BpfInsn) (pc : Nat) (insn : BpfInsn) :
    Except Panic (List (List UInt8)) :=
  match (xFormSource insn).bind (knownAt insns pc) with
  | none => .ok []
  | some value => rewritings bytes pc insn [value] toKForm

/-- The offsets nearer to 0, in steps of 8. -/
def smallerOffsets (offset : Int16) : List Int16 :=
  (List.range' 1 (offset.toInt.natAbs / 8 - 1)).map fun k : Nat =>
    Int16.ofInt (if offset.toInt < 0 then -((k : Int) * 8) else (k : Int) * 8)

def stackOffsets (bytes : List UInt8) (pc : Nat) (insn : BpfInsn) : Except Panic (List (List UInt8)) :=
  match stackOffset insn with
  | none => .ok []
  | some offset =>
    if offset.toInt = -2 ^ 15 then .error .overflow
    else rewritings bytes pc insn (smallerOffsets offset) setOffset

/-- The candidates of every instruction, in order. -/
def forInsns (f : Nat → BpfInsn → Except Panic (List (List UInt8))) :
    Nat → List BpfInsn → Except Panic (List (List UInt8))
  | _, [] => .ok []
  | pc, insn :: insns => do
    let here ← f pc insn
    let rest ← forInsns f (pc + 1) insns
    .ok (here ++ rest)

/-- The program with its highest register renamed. -/
def lowered (insns : List BpfInsn) : Except Panic (List (List UInt8)) :=
  match loweringPair insns with
  | none => .ok []
  | some (high, low) =>
    match insns.mapM encode with
    | none => .error .unreachable
    | some chunks => .ok [(chunks.map fun chunk => renameReg chunk (regField high) (regField low)).flatten]

def decode (bytes : List UInt8) : Option (List BpfInsn) :=
  if bytes = [] ∨ bytes.length % 8 ≠ 0 then none else (decodeProgram bytes).toOption

/-- All candidates, in order. -/
def operandCandidates (bytes : List UInt8) : Except Panic (List (Transform × List UInt8)) :=
  match decode bytes with
  | none => .ok []
  | some insns => do
    let imms ← forInsns (immediates bytes) 0 insns
    let forms ← forInsns (aluForms bytes insns) 0 insns
    let renamed ← lowered insns
    let offsets ← forInsns (stackOffsets bytes) 0 insns
    .ok (imms.map (Transform.immediate, ·) ++ forms.map (Transform.aluForm, ·) ++
      renamed.map (Transform.regLower, ·) ++ offsets.map (Transform.stackOffset, ·))

/-! ## What a candidate is -/

/-- Fields with a register renamed in both nibbles. -/
def renameFields (high low : Reg) (f : Fields) : Fields :=
  { f with
    dst := renameNibble (regField high) (regField low) f.dst
    src := renameNibble (regField high) (regField low) f.src }

/-- Fields in the immediate form. -/
def kFormFields (f : Fields) (imm : Int32) : Fields := { f with code := f.code &&& ~~~0x08, src := 0, imm := imm }

/-- The candidates of a program. -/
inductive Proposal (bytes : List UInt8) (insns : List BpfInsn) : Transform → List UInt8 → Prop where
  | immediate {pc : Nat} {insn : BpfInsn} {f : Fields} {orig v : Int32} (hget : insns[pc]? = some insn)
      (hf : encodeFields insn = some f) (himm : immOf insn = some orig) (hv : v ∈ smallerValues orig) :
      Proposal bytes insns .immediate (patch bytes pc { f with imm := v }.slot.bytes)
  | aluForm {pc : Nat} {insn : BpfInsn} {f : Fields} {src : Reg} {v : Int32} (hget : insns[pc]? = some insn)
      (hf : encodeFields insn = some f) (hsrc : xFormSource insn = some src) (hv : knownAt insns pc src = some v) :
      Proposal bytes insns .aluForm (patch bytes pc (kFormFields f v).slot.bytes)
  | regLower {high low : Reg} {fs : List Fields} (hpair : loweringPair insns = some (high, low))
      (hfs : List.Forall₂ (fun insn f => encodeFields insn = some f) insns fs) :
      Proposal bytes insns .regLower (fs.map fun f => (renameFields high low f).slot.bytes).flatten
  | stackOffset {pc : Nat} {insn : BpfInsn} {f : Fields} {o o' : Int16} (hget : insns[pc]? = some insn)
      (hf : encodeFields insn = some f) (hoff : stackOffset insn = some o) (ho' : o' ∈ smallerOffsets o) :
      Proposal bytes insns .stackOffset (patch bytes pc { f with off := o' }.slot.bytes)

section Bytes

variable {f : Fields}

theorem low_nibble {b : UInt8} (h : b.toNat < 16) : b &&& 0x0f = b := by
  have hall : ∀ i : Fin 16, UInt8.ofNat i.val &&& 0x0f = UInt8.ofNat i.val := by decide
  simpa using hall ⟨b.toNat, h⟩

theorem high_nibble (b : UInt8) : b >>> 4 = (b >>> 4) &&& 0x0f := by
  have h : ∀ i : Fin 256, UInt8.ofNat i.val >>> 4 = (UInt8.ofNat i.val >>> 4) &&& 0x0f := by decide +kernel
  simpa using h ⟨b.toNat, b.toNat_lt⟩

theorem toKForm_slot (hd : f.dst.toNat < 16) (hs : f.src.toNat < 16) (v : Int32) :
    toKForm f.slot.bytes v = (kFormFields f v).slot.bytes := by
  obtain ⟨hdst, -⟩ := nibbles_split hd hs
  simp only [toKForm, Fields.slot, Slot.bytes, kFormFields, setImmBytes, leBytes, List.getD_cons_succ,
    List.getD_cons_zero]
  rw [hdst, low_nibble hd, UInt8.zero_shiftLeft, UInt8.zero_or]
  rfl

theorem renameNibble_lt {b : UInt8} (hb : b.toNat < 16) (high low : Reg) :
    (renameNibble (regField high) (regField low) b).toNat < 16 := by
  unfold renameNibble
  split
  · exact regField_lt low
  · exact hb

theorem renameReg_slot (hd : f.dst.toNat < 16) (hs : f.src.toNat < 16) (high low : Reg) :
    renameReg f.slot.bytes (regField high) (regField low) = (renameFields high low f).slot.bytes := by
  obtain ⟨hdst, hsrc⟩ := nibbles_split hd hs
  simp only [renameReg, Fields.slot, Slot.bytes, renameFields, List.getD_cons_succ, List.getD_cons_zero]
  rw [high_nibble, hdst, hsrc, low_nibble (renameNibble_lt hd high low)]
  rfl

end Bytes

section Members

variable {bytes out : List UInt8} {insns : List BpfInsn} {insn : BpfInsn} {pc start : Nat} {outs : List (List UInt8)}

theorem encode_fields {chunk : List UInt8} (h : encode insn = some chunk) :
    ∃ f, encodeFields insn = some f ∧ chunk = f.slot.bytes := by
  obtain ⟨f, hf, rfl⟩ := Option.map_eq_some_iff.mp h
  exact ⟨f, hf, rfl⟩

theorem encoded_of_mem {fs : List Fields} (h : List.Forall₂ (fun insn f => encodeFields insn = some f) insns fs)
    {f : Fields} (hf : f ∈ fs) : ∃ insn, encodeFields insn = some f := by
  induction h with
  | nil => cases hf
  | cons hinsn _ ih =>
    rcases List.mem_cons.mp hf with rfl | hmem
    · exact ⟨_, hinsn⟩
    · exact ih hmem

theorem mapM_encode_fields {chunks : List (List UInt8)} (h : insns.mapM encode = some chunks) :
    ∃ fs, List.Forall₂ (fun insn f => encodeFields insn = some f) insns fs ∧
      chunks = fs.map fun f : Fields => f.slot.bytes := by
  induction insns generalizing chunks with
  | nil =>
    cases h
    exact ⟨[], .nil, rfl⟩
  | cons insn insns ih =>
    rw [List.mapM_cons] at h
    obtain ⟨chunk, hchunk, h⟩ := Option.bind_eq_some_iff.mp h
    obtain ⟨rest, hrest, h⟩ := Option.bind_eq_some_iff.mp h
    cases h
    obtain ⟨f, hf, rfl⟩ := encode_fields hchunk
    obtain ⟨fs, hfs, rfl⟩ := ih hrest
    exact ⟨f :: fs, .cons hf hfs, rfl⟩

theorem forInsns_mem {f : Nat → BpfInsn → Except Panic (List (List UInt8))} (h : forInsns f start insns = .ok outs)
    (hout : out ∈ outs) : ∃ k insn here, insns[k]? = some insn ∧ f (start + k) insn = .ok here ∧ out ∈ here := by
  induction insns generalizing start outs with
  | nil =>
    cases h
    cases hout
  | cons insn insns ih =>
    obtain ⟨here, hhere, h⟩ := bind_eq_ok.mp h
    obtain ⟨rest, hrest, h⟩ := bind_eq_ok.mp h
    cases h
    rcases List.mem_append.mp hout with hmem | hmem
    · exact ⟨0, insn, here, rfl, hhere, hmem⟩
    · obtain ⟨k, insn', here', hget, hf, hin⟩ := ih hrest hmem
      refine ⟨k + 1, insn', here', hget, ?_, hin⟩
      rw [← hf]
      congr 1
      omega

theorem rewritings_mem {α : Type} {values : List α} {rewrite : List UInt8 → α → List UInt8}
    (h : rewritings bytes pc insn values rewrite = .ok outs) (hout : out ∈ outs) :
    ∃ v ∈ values, ∃ f, encodeFields insn = some f ∧ out = patch bytes pc (rewrite f.slot.bytes v) := by
  unfold rewritings at h
  split at h
  · cases h
    cases hout
  · split at h
    · cases h
    · rename_i chunk hchunk
      cases h
      obtain ⟨v, hv, rfl⟩ := List.mem_map.mp hout
      obtain ⟨f, hf, rfl⟩ := encode_fields hchunk
      exact ⟨v, hv, f, hf, rfl⟩

theorem immediates_mem (h : forInsns (immediates bytes) 0 insns = .ok outs) (hout : out ∈ outs) :
    Proposal bytes insns .immediate out := by
  obtain ⟨k, insn, here, hget, hhere, hin⟩ := forInsns_mem h hout
  rw [Nat.zero_add] at hhere
  unfold immediates at hhere
  split at hhere
  · cases hhere
    cases hin
  · rename_i orig himm
    obtain ⟨v, hv, f, hf, rfl⟩ := rewritings_mem hhere hin
    exact .immediate hget hf himm hv

theorem aluForms_mem (h : forInsns (aluForms bytes insns) 0 insns = .ok outs) (hout : out ∈ outs) :
    Proposal bytes insns .aluForm out := by
  obtain ⟨k, insn, here, hget, hhere, hin⟩ := forInsns_mem h hout
  rw [Nat.zero_add] at hhere
  unfold aluForms at hhere
  split at hhere
  · cases hhere
    cases hin
  · rename_i value hvalue
    obtain ⟨src, hsrc, hknown⟩ := Option.bind_eq_some_iff.mp hvalue
    obtain ⟨v, hv, f, hf, rfl⟩ := rewritings_mem hhere hin
    obtain ⟨hd, hs⟩ := encodeFields_nibbles hf
    rw [List.mem_singleton.mp hv, toKForm_slot hd hs]
    exact .aluForm hget hf hsrc hknown

theorem stackOffsets_mem (h : forInsns (stackOffsets bytes) 0 insns = .ok outs) (hout : out ∈ outs) :
    Proposal bytes insns .stackOffset out := by
  obtain ⟨k, insn, here, hget, hhere, hin⟩ := forInsns_mem h hout
  rw [Nat.zero_add] at hhere
  unfold stackOffsets at hhere
  split at hhere
  · cases hhere
    cases hin
  · rename_i o hoff
    split at hhere
    · cases hhere
    · obtain ⟨o', ho', f, hf, rfl⟩ := rewritings_mem hhere hin
      exact .stackOffset hget hf hoff ho'

theorem lowered_mem (h : lowered insns = .ok outs) (hout : out ∈ outs) : Proposal bytes insns .regLower out := by
  unfold lowered at h
  split at h
  · cases h
    cases hout
  · rename_i high low hpair
    split at h
    · cases h
    · rename_i chunks hchunks
      cases h
      obtain ⟨fs, hfs, rfl⟩ := mapM_encode_fields hchunks
      rw [List.mem_singleton.mp hout, List.map_map]
      have hmap : fs.map ((fun chunk => renameReg chunk (regField high) (regField low)) ∘ fun f : Fields => f.slot.bytes) =
          fs.map fun f => (renameFields high low f).slot.bytes := by
        refine List.map_congr_left fun f hf => ?_
        obtain ⟨insn, hinsn⟩ := encoded_of_mem hfs hf
        obtain ⟨hd, hs⟩ := encodeFields_nibbles hinsn
        exact renameReg_slot hd hs high low
      rw [hmap]
      exact .regLower hpair hfs

/-- What a candidate is. -/
theorem operandCandidates_mem {cands : List (Transform × List UInt8)} {t : Transform} (hdec : decode bytes = some insns)
    (h : operandCandidates bytes = .ok cands) (hmem : (t, out) ∈ cands) : Proposal bytes insns t out := by
  unfold operandCandidates at h
  rw [hdec] at h
  obtain ⟨imms, himms, h⟩ := bind_eq_ok.mp h
  obtain ⟨forms, hforms, h⟩ := bind_eq_ok.mp h
  obtain ⟨renamed, hrenamed, h⟩ := bind_eq_ok.mp h
  obtain ⟨offsets, hoffsets, h⟩ := bind_eq_ok.mp h
  cases h
  simp only [List.mem_append, List.mem_map, Prod.mk.injEq] at hmem
  rcases hmem with ((⟨_, hin, rfl, rfl⟩ | ⟨_, hin, rfl, rfl⟩) | ⟨_, hin, rfl, rfl⟩) | ⟨_, hin, rfl, rfl⟩
  · exact immediates_mem himms hin
  · exact aluForms_mem hforms hin
  · exact lowered_mem hrenamed hin
  · exact stackOffsets_mem hoffsets hin

/-- The encoder is never stopped, and every offset of a plain load or store has a magnitude. -/
def Rewritable (insns : List BpfInsn) : Prop :=
  ∀ insn ∈ insns, (encode insn).isSome = true ∧ ∀ o, stackOffset insn = some o → o.toInt ≠ -2 ^ 15

theorem forInsns_returns {f : Nat → BpfInsn → Except Panic (List (List UInt8))}
    (h : ∀ pc, ∀ insn ∈ insns, ∃ here, f pc insn = .ok here) : ∃ outs, forInsns f start insns = .ok outs := by
  induction insns generalizing start with
  | nil => exact ⟨[], rfl⟩
  | cons insn insns ih =>
    obtain ⟨here, hhere⟩ := h start insn List.mem_cons_self
    obtain ⟨rest, hrest⟩ := @ih (start + 1) fun pc insn' hin => h pc insn' (List.mem_cons_of_mem _ hin)
    exact ⟨here ++ rest, by rw [forInsns, hhere, hrest]; rfl⟩

theorem rewritings_returns {α : Type} (henc : (encode insn).isSome = true) (values : List α)
    (rewrite : List UInt8 → α → List UInt8) : ∃ outs, rewritings bytes pc insn values rewrite = .ok outs := by
  obtain ⟨chunk, hchunk⟩ := Option.isSome_iff_exists.mp henc
  unfold rewritings
  rw [hchunk]
  split
  · exact ⟨_, rfl⟩
  · exact ⟨_, rfl⟩

theorem mapM_encode_returns (h : ∀ insn ∈ insns, (encode insn).isSome = true) :
    ∃ chunks, insns.mapM encode = some chunks := by
  induction insns with
  | nil => exact ⟨[], rfl⟩
  | cons insn insns ih =>
    obtain ⟨chunk, hchunk⟩ := Option.isSome_iff_exists.mp (h insn List.mem_cons_self)
    obtain ⟨rest, hrest⟩ := ih fun insn' hin => h insn' (List.mem_cons_of_mem _ hin)
    exact ⟨chunk :: rest, mapM_cons_eq_some.mpr ⟨hchunk, hrest⟩⟩

/-- The candidates of a program are computed, unless an instruction stops the encoder or an
    offset has no magnitude. -/
theorem operandCandidates_returns (h : ∀ insns, decode bytes = some insns → Rewritable insns) :
    ∃ cands, operandCandidates bytes = .ok cands := by
  unfold operandCandidates
  cases hdec : decode bytes with
  | none => exact ⟨[], rfl⟩
  | some insns =>
    have hall := h insns hdec
    obtain ⟨imms, himms⟩ : ∃ outs, forInsns (immediates bytes) 0 insns = .ok outs := by
      refine forInsns_returns fun pc insn hin => ?_
      unfold immediates
      split
      · exact ⟨_, rfl⟩
      · exact rewritings_returns (hall insn hin).1 _ _
    obtain ⟨forms, hforms⟩ : ∃ outs, forInsns (aluForms bytes insns) 0 insns = .ok outs := by
      refine forInsns_returns fun pc insn hin => ?_
      unfold aluForms
      split
      · exact ⟨_, rfl⟩
      · exact rewritings_returns (hall insn hin).1 _ _
    obtain ⟨renamed, hrenamed⟩ : ∃ outs, lowered insns = .ok outs := by
      unfold lowered
      obtain ⟨chunks, hchunks⟩ := mapM_encode_returns fun insn hin => (hall insn hin).1
      rw [hchunks]
      split
      · exact ⟨_, rfl⟩
      · exact ⟨_, rfl⟩
    obtain ⟨offsets, hoffsets⟩ : ∃ outs, forInsns (stackOffsets bytes) 0 insns = .ok outs := by
      refine forInsns_returns fun pc insn hin => ?_
      unfold stackOffsets
      split
      · exact ⟨_, rfl⟩
      · rename_i o hoff
        rw [if_neg ((hall insn hin).2 o hoff)]
        exact rewritings_returns (hall insn hin).1 _ _
    dsimp only
    rw [himms, hforms, hrenamed, hoffsets]
    exact ⟨_, rfl⟩

end Members

/-! ## Candidates slot by slot -/

theorem forall₂_get {α β : Type} {R : α → β → Prop} {l : List α} {l' : List β} (h : List.Forall₂ R l l') {i : Nat}
    {a : α} (ha : l[i]? = some a) : ∃ b, l'[i]? = some b ∧ R a b := by
  induction h generalizing i with
  | nil => cases ha
  | cons hab _ ih =>
    cases i with
    | zero =>
      cases ha
      exact ⟨_, rfl, hab⟩
    | succ i => exact ih ha

theorem forall₂_mem {α β : Type} {R : α → β → Prop} {l : List α} {l' : List β} (h : List.Forall₂ R l l') {b : β}
    (hb : b ∈ l') : ∃ a ∈ l, R a b := by
  induction h with
  | nil => cases hb
  | cons hab _ ih =>
    rcases List.mem_cons.mp hb with rfl | hb
    · exact ⟨_, List.mem_cons_self, hab⟩
    · obtain ⟨a, ha, hrel⟩ := ih hb
      exact ⟨a, List.mem_cons_of_mem _ ha, hrel⟩

section Slots

variable {slots : List Slot} {insns : List BpfInsn} {remainder : List UInt8} {idx : Nat}

/-- What an instruction encodes to, next to the slot it was decoded from: the fields that the
    decoder keeps; the sign-extending 8-byte load does not encode. -/
def EncodesSlot (insn : BpfInsn) (s : Slot) : Prop :=
  if s.b0 = 0x99 then encodeFields insn = none else encodeFields insn = some s.fields.clean

theorem clean_of_code {f : Fields} (h : f.code ∉ lossyOpcodes) : f.clean = f := by
  simp only [lossyOpcodes, List.mem_append, List.mem_cons, List.not_mem_nil, or_false, not_or] at h
  unfold Fields.clean
  rw [if_neg (by tauto), if_neg (by tauto), if_neg (by tauto), if_neg (by tauto), if_neg (by tauto)]

theorem clean_code (f : Fields) : f.clean.code = f.code := by
  unfold Fields.clean
  split_ifs <;> rfl

theorem encodesSlot_narrow {s : Slot} {insn : BpfInsn} (h : parseFields s.fields = .ok insn) : EncodesSlot insn s := by
  unfold EncodesSlot
  split
  · rename_i hcode
    exact encodeFields_load h hcode
  · rename_i hcode
    exact (encode_parseFields (parseFields_clean h)).mpr (clean_canonical hcode)

theorem encodesSlot_wide {first second : Slot} {insn : BpfInsn} (hcode : first.b0 = opcode.ldImm64)
    (h : parseLdImm64 first second = .ok insn) :
    EncodesSlot insn first ∧ EncodesSlot (.ldImm64Second second.fields.imm.toUInt32.toNat) second := by
  obtain ⟨hfirst, hsecond, -, -⟩ := encode_wide hcode h
  have hzero : second.b0 = 0 := by
    obtain ⟨dst, -, h⟩ := bind_eq_ok.mp h
    split_ifs at h with hoff hsec
    simp only [ne_eq, not_or, not_not] at hsec
    exact hsec.1
  have hkeep : ∀ s : Slot, s.b0 = opcode.ldImm64 ∨ s.b0 = 0 → s.fields.clean = s.fields := by
    intro s hs
    refine clean_of_code ?_
    show s.b0 ∉ lossyOpcodes
    rcases hs with hs | hs <;> rw [hs] <;> decide
  unfold EncodesSlot
  rw [if_neg (by rw [hcode]; decide), if_neg (by rw [hzero]; decide), hkeep first (.inl hcode),
    hkeep second (.inr hzero)]
  exact ⟨encode_eq_some.mp hfirst, encode_eq_some.mp hsecond⟩

theorem decoded_slots (h : decodeChunks remainder idx slots = .ok insns) : List.Forall₂ EncodesSlot insns slots := by
  fun_induction decodeChunks remainder idx slots generalizing insns with
  | case1 idx hrem =>
    cases h
    exact .nil
  | case2 => cases h
  | case3 => cases h
  | case4 idx chunk hcode second rest ih =>
    obtain ⟨insn, hinsn, h⟩ := bind_eq_ok.mp h
    obtain ⟨tail, htail, h⟩ := bind_eq_ok.mp h
    cases h
    obtain ⟨hfirst, hsecond⟩ := encodesSlot_wide hcode (mapError_eq_ok.mp hinsn)
    exact .cons hfirst (.cons hsecond (ih htail))
  | case5 idx chunk chunks hcode ih =>
    obtain ⟨insn, hinsn, h⟩ := bind_eq_ok.mp h
    obtain ⟨tail, htail, h⟩ := bind_eq_ok.mp h
    cases h
    exact .cons (encodesSlot_narrow (mapError_eq_ok.mp hinsn)) (ih htail)

/-- A patch replaces one slot. -/
theorem patch_slots {pc : Nat} (hpc : pc < slots.length) (s : Slot) :
    patch (slots.map Slot.bytes).flatten pc s.bytes = ((slots.set pc s).map Slot.bytes).flatten := by
  induction slots generalizing pc with
  | nil => simp at hpc
  | cons first slots ih =>
    cases pc with
    | zero => simp [patch, Slot.bytes]
    | succ pc =>
      have htail := @ih pc (by simpa using hpc)
      rw [List.set_cons_succ, List.map_cons, List.map_cons, List.flatten_cons, List.flatten_cons, ← htail]
      have htake : (pc + 1) * 8 = first.bytes.length + pc * 8 := by
        simp only [Slot.bytes, List.length_cons, List.length_nil]
        omega
      have hdrop : (pc + 1) * 8 + 8 = first.bytes.length + (pc * 8 + 8) := by omega
      rw [patch, patch, hdrop, htake, List.take_length_add_append, List.drop_length_add_append, List.append_assoc,
        List.append_assoc, List.append_assoc]

end Slots

end Reduce

end RandVerifier
