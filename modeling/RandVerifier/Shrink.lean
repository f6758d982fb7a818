/-
  RandVerifier.Shrink — every candidate of the reducer is smaller.

  Programs are compared by their length, then by the number of their conditional branches, of
  their register-form operations, by the sum of their register nibbles and by the sum of the
  magnitudes of their immediates and offsets. All of it is read off the raw slots: a candidate
  need not decode, and a renaming may even turn a wide load into one of another class.

  - `deletion_smaller`, `simplified_smaller`, `proposal_smaller`: each pass is a step down;
  - `smaller_wf`: there is no infinite descent;
  - `Tame`: no slot stops the reducer, and it stays so (`deletion_tame`, `simplified_tame`,
    `proposal_tame`).
-/

import RandVerifier.Passes
import Mathlib.Data.Prod.Lex
import Mathlib.Order.WellFounded

namespace RandVerifier

namespace Reduce

open Fixup

/-! ## Weights -/

/-- A weight of the fields, over all slots. -/
def total (w : Fields → Nat) (slots : List Slot) : Nat := (slots.map fun s => w s.fields).sum

/-- The opcodes of the branches that `simplifyDeadSide` looks at. -/
def branchOpcodes : List UInt8 := branchCodes.tail

/-- The opcodes of the operations that have an immediate form here. -/
def xFormOpcodes : List UInt8 :=
  [opcode.movReg, opcode.addReg, opcode.subReg, opcode.andReg, opcode.orReg, opcode.xorReg, opcode.lshReg,
   opcode.rshReg, opcode.arshReg, opcode.add32Reg, opcode.sub32Reg, opcode.and32Reg, opcode.or32Reg,
   opcode.xor32Reg, opcode.lsh32Reg, opcode.rsh32Reg, opcode.arsh32Reg]

/-- The opcodes of the plain loads and stores. -/
def memOpcodes : List UInt8 := [0x61, 0x69, 0x71, 0x79, 0x81, 0x89, 0x91, 0x63, 0x6b, 0x73, 0x7b]

def branchWeight (f : Fields) : Nat := if f.code ∈ branchOpcodes then 1 else 0

def formWeight (f : Fields) : Nat := if f.code ∈ xFormOpcodes then 1 else 0

def nibbleWeight (f : Fields) : Nat := f.dst.toNat + f.src.toNat

def sizeWeight (f : Fields) : Nat := f.imm.toInt.natAbs + f.off.toInt.natAbs

/-- The measure of a program, compared lexicographically. -/
def measure (bytes : List UInt8) : Nat ×ₗ Nat ×ₗ Nat ×ₗ Nat ×ₗ Nat :=
  let slots := (asChunks bytes).1
  toLex (bytes.length, toLex (total branchWeight slots, toLex (total formWeight slots,
    toLex (total nibbleWeight slots, total sizeWeight slots))))

def Smaller (bytes bytes' : List UInt8) : Prop := measure bytes < measure bytes'

theorem smaller_wf : WellFounded Smaller := InvImage.wf measure wellFounded_lt

theorem Smaller.trans {a b c : List UInt8} (h : Smaller a b) (h' : Smaller b c) : Smaller a c := lt_trans h h'

theorem smaller_of_length {a b : List UInt8} (h : a.length < b.length) : Smaller a b :=
  Prod.Lex.toLex_lt_toLex.mpr (.inl h)

theorem Smaller.length_le {a b : List UInt8} (h : Smaller a b) : a.length ≤ b.length := by
  rcases Prod.Lex.toLex_lt_toLex.mp h with hlt | ⟨heq, -⟩
  · exact le_of_lt hlt
  · exact le_of_eq heq

section Totals

variable {w : Fields → Nat} {slots slots' : List Slot} {s s' : Slot} {pc : Nat}

theorem total_cons : total w (s :: slots) = w s.fields + total w slots := rfl

theorem total_set (hget : slots[pc]? = some s) :
    total w (slots.set pc s') + w s.fields = total w slots + w s'.fields := by
  induction slots generalizing pc with
  | nil => cases hget
  | cons first slots ih =>
    cases pc with
    | zero =>
      cases hget
      rw [List.set_cons_zero, total_cons, total_cons]
      omega
    | succ pc =>
      have := ih hget
      rw [List.set_cons_succ, total_cons, total_cons]
      omega

theorem total_le (h : List.Forall₂ (fun s' s => w s'.fields ≤ w s.fields) slots' slots) :
    total w slots' ≤ total w slots := by
  induction h with
  | nil => exact le_refl _
  | cons hle _ ih =>
    rw [total_cons, total_cons]
    omega

theorem total_lt (h : List.Forall₂ (fun s' s => w s'.fields ≤ w s.fields) slots' slots) {i : Nat}
    (hs' : slots'[i]? = some s') (hs : slots[i]? = some s) (hlt : w s'.fields < w s.fields) :
    total w slots' < total w slots := by
  induction h generalizing i with
  | nil => cases hs
  | cons hle hrest ih =>
    rw [total_cons, total_cons]
    cases i with
    | zero =>
      cases hs'
      cases hs
      have := total_le hrest
      omega
    | succ i =>
      have := ih hs' hs
      omega

/-- Programs of the same length are compared by their weights. -/
theorem smaller_of_weights (hlen : slots'.length = slots.length)
    (h : total branchWeight slots' < total branchWeight slots ∨ total branchWeight slots' = total branchWeight slots ∧
      (total formWeight slots' < total formWeight slots ∨ total formWeight slots' = total formWeight slots ∧
        (total nibbleWeight slots' < total nibbleWeight slots ∨ total nibbleWeight slots' = total nibbleWeight slots ∧
          total sizeWeight slots' < total sizeWeight slots))) :
    Smaller (slots'.map Slot.bytes).flatten (slots.map Slot.bytes).flatten := by
  have hbytes : ∀ l : List Slot, ((l.map Slot.bytes).flatten).length = 8 * l.length := fun l => slots_length l
  simp only [Smaller, measure, asChunks_flatten, Prod.Lex.toLex_lt_toLex, hbytes, hlen]
  exact .inr ⟨trivial, h⟩

end Totals

/-! ## Encodings -/

section Encodings

variable {insn : BpfInsn} {f : Fields}

theorem stackOffset_encode (h : encodeFields insn = some f) :
    stackOffset insn = if f.code ∈ memOpcodes then some f.off else none := by
  cases insn with
  | jmp32 dst src imm offset op =>
    have hcodes : (jmp32Opcodes op).1 ∉ memOpcodes ∧ (jmp32Opcodes op).2 ∉ memOpcodes := by
      cases op <;> decide
    simp only [encodeFields] at h
    split at h
    · cases h
      exact (if_neg hcodes.1).symm
    · cases h
      exact (if_neg hcodes.2).symm
    · cases h
  | ldMem dst base offset size signExtend =>
    obtain ⟨code, hcode, h⟩ := Option.bind_eq_some_iff.mp h
    cases h
    refine (if_pos ?_).symm
    cases size <;> cases signExtend <;> cases hcode <;> dsimp only <;> decide
  | stMem src base offset size =>
    cases h
    refine (if_pos ?_).symm
    dsimp only
    cases size <;> decide
  | stMemImm imm base offset size =>
    cases h
    refine (if_neg ?_).symm
    dsimp only
    cases size <;> decide
  | ldAbs size imm =>
    cases h
    refine (if_neg ?_).symm
    dsimp only
    cases size <;> decide
  | ldInd src size imm =>
    cases h
    refine (if_neg ?_).symm
    dsimp only
    cases size <;> decide
  | atomic dst src offset size op fetch =>
    cases h
    refine (if_neg ?_).symm
    dsimp only
    cases size <;> decide
  | _ =>
    cases h
    rfl

theorem stackOffset_some {o : Int16} (h : encodeFields insn = some f) (ho : stackOffset insn = some o) :
    f.code ∈ memOpcodes ∧ f.off = o := by
  rw [stackOffset_encode h] at ho
  split at ho
  · rename_i hcode
    exact ⟨hcode, Option.some.inj ho⟩
  · cases ho

/-- A 32-bit comparison has one operand: the decoder gives a register or an immediate. -/
def OneOperand (insn : BpfInsn) : Prop := ∀ d s i o op, insn ≠ .jmp32 d (some s) (some i) o op

theorem parse_jmp32 {d s : Reg} {off : Int16} {op : Jmp32Op} :
    parseFields ⟨(jmp32Opcodes op).1, regField d, regField s, off, 0⟩ = .ok (.jmp32 d (some s) none off op) := by
  obtain ⟨hclass, hop, hx⟩ : (jmp32Opcodes op).1 &&& 0x07 = 0x06 ∧ jmp32OpOf (jmp32Opcodes op).1 = some op ∧
      isX (jmp32Opcodes op).1 = true := by cases op <;> decide
  have halu : parseAlu ⟨(jmp32Opcodes op).1, regField d, regField s, off, 0⟩ d s = none := by cases op <;> rfl
  have hjump : (jumpArms d s 0 off).lookup (jmp32Opcodes op).1 = none := by cases op <;> rfl
  have harm : jmp32Arm ⟨(jmp32Opcodes op).1, regField d, regField s, off, 0⟩ d s =
      some (.jmp32 d (some s) none off op) := by
    simp only [jmp32Arm, if_pos hclass, hop, hx, Option.map_some, if_true]
  simp only [parseFields, regOfNibble_regField, bind, Except.bind, parseArms, halu, hjump, harm, operandArm,
    reserved_x hx]
  rfl

theorem parse_oneOperand {g : Fields} (h : parseFields g = .ok insn) : OneOperand insn := by
  rintro d s i o op rfl
  have hparse := @parse_encode g ⟨(jmp32Opcodes op).1, regField d, regField s, o, 0⟩ _ h rfl
  rw [parse_jmp32] at hparse
  cases hparse

theorem decoded_oneOperand {remainder : List UInt8} {idx : Nat} {chunks : List Slot} {insns : List BpfInsn}
    (h : decodeChunks remainder idx chunks = .ok insns) : ∀ insn ∈ insns, OneOperand insn := by
  fun_induction decodeChunks remainder idx chunks generalizing insns with
  | case1 idx hrem =>
    cases h
    intro insn hmem
    cases hmem
  | case2 => cases h
  | case3 => cases h
  | case4 idx chunk hcode second rest ih =>
    obtain ⟨insn, hinsn, h⟩ := bind_eq_ok.mp h
    obtain ⟨tail, htail, h⟩ := bind_eq_ok.mp h
    cases h
    have hwide := mapError_eq_ok.mp hinsn
    obtain ⟨dst, -, hwide⟩ := bind_eq_ok.mp hwide
    refine List.forall_mem_cons.mpr ⟨?_, List.forall_mem_cons.mpr ⟨?_, ih htail⟩⟩
    · unfold ldImm64Arm at hwide
      split_ifs at hwide <;> cases hwide <;> simp [OneOperand]
    · simp [OneOperand]
  | case5 idx chunk chunks hcode ih =>
    obtain ⟨insn, hinsn, h⟩ := bind_eq_ok.mp h
    obtain ⟨tail, htail, h⟩ := bind_eq_ok.mp h
    cases h
    exact List.forall_mem_cons.mpr ⟨parse_oneOperand (mapError_eq_ok.mp hinsn), ih htail⟩

theorem immOf_encode {orig : Int32} (hone : OneOperand insn) (h : encodeFields insn = some f)
    (himm : immOf insn = some orig) : f.imm = orig ∧ f.code ∉ lossyOpcodes ∧ f.code ∉ memOpcodes := by
  cases insn with
  | jmp32 dst src imm offset op =>
    cases imm with
    | none => cases himm
    | some imm =>
      cases himm
      cases src with
      | some s => exact absurd rfl (hone dst s _ offset op)
      | none =>
        cases h
        refine ⟨rfl, ?_⟩
        dsimp only
        cases op <;> decide
  | _ =>
    first
    | (cases himm; done)
    | (cases himm
       cases h
       refine ⟨rfl, ?_⟩
       dsimp only
       decide)

theorem xFormSource_encode {src : Reg} (h : encodeFields insn = some f) (hsrc : xFormSource insn = some src) :
    f.code ∈ xFormOpcodes ∧ f.src = regField src ∧ f.imm = 0 ∧ f.off = 0 := by
  cases insn with
  | jmp32 => cases hsrc
  | ldMem => cases hsrc
  | _ =>
    first
    | (cases hsrc; done)
    | (cases hsrc
       cases h
       refine ⟨?_, rfl, rfl, rfl⟩
       dsimp only
       decide)

/-- A branch of `simplifyDeadSide` keeps all of its fields. -/
theorem branch_encode {o : Int16} (hcond : insn.isConditionalBranch = true) (hoff : Fixup.branchOffset insn = some o)
    (h : encodeFields insn = some f) : f.code ∈ branchOpcodes := by
  cases insn with
  | jmp32 => cases hoff
  | ldMem => cases hoff
  | _ =>
    first
    | (cases hoff; done)
    | (cases hcond; done)
    | (cases h
       dsimp only
       decide)

/-- A register that the census marks, other than the implicit R0, is a nibble. -/
theorem markRegs_encode {r : Reg} (h : encodeFields insn = some f) (hr : r ∈ markRegs insn) (hne : r ≠ 0) :
    f.dst = regField r ∨ f.src = regField r := by
  cases insn with
  | jmp32 dst src imm offset op =>
    obtain rfl := List.mem_singleton.mp hr
    simp only [encodeFields] at h
    split at h
    · cases h
      exact .inl rfl
    · cases h
      exact .inl rfl
    · cases h
  | ldMem dst base offset size signExtend =>
    obtain rfl := List.mem_singleton.mp hr
    obtain ⟨code, hcode, h⟩ := Option.bind_eq_some_iff.mp h
    cases h
    exact .inl rfl
  | atomic dst src offset size op fetch =>
    cases h
    have hregs : r = dst ∨ r = src := by
      by_cases hop : op = .cmpxchg
      · simp only [markRegs, if_pos hop, List.mem_cons, List.not_mem_nil, or_false] at hr
        tauto
      · simp only [markRegs, if_neg hop, List.mem_cons, List.not_mem_nil, or_false] at hr
        exact hr
    rcases hregs with rfl | rfl
    · exact .inl rfl
    · exact .inr rfl
  | ldAbs => exact absurd (List.mem_singleton.mp hr) hne
  | ldInd src size imm =>
    cases h
    simp only [markRegs, List.mem_cons, List.not_mem_nil, or_false] at hr
    rcases hr with rfl | rfl
    · exact absurd rfl hne
    · exact .inr rfl
  | stMem src base offset size =>
    cases h
    rw [List.mem_singleton.mp hr]
    exact .inr rfl
  | _ =>
    cases h
    first
    | (cases hr; done)
    | (rw [List.mem_singleton.mp hr]
       exact .inl rfl)
    | (simp only [markRegs, List.mem_cons, List.not_mem_nil, or_false] at hr
       rcases hr with rfl | rfl
       · exact .inl rfl
       · exact .inr rfl)

end Encodings

/-! ## Slots that do not stop the reducer -/

/-- Not the load that does not encode, and no offset without magnitude. -/
def TameFields (f : Fields) : Prop := f.code ≠ 0x99 ∧ (f.code ∈ memOpcodes → f.off.toInt ≠ -2 ^ 15)

def Tame (bytes : List UInt8) : Prop := ∀ s ∈ (asChunks bytes).1, TameFields s.fields

section Decoded

variable {bytes out : List UInt8} {insns : List BpfInsn} {slots : List Slot} {insn : BpfInsn} {f f' : Fields}
  {s : Slot} {pc : Nat}

/-- The slots of a program that decodes. -/
theorem decode_slots (h : decode bytes = some insns) : ∃ slots, bytes = (slots.map Slot.bytes).flatten ∧
    decodeChunks [] 0 slots = .ok insns ∧ List.Forall₂ EncodesSlot insns slots := by
  obtain ⟨-, -, hdec⟩ := decode_some.mp h
  obtain ⟨hrem, -⟩ := encode_decodeChunks hdec
  have hbytes := asChunks_bytes bytes
  rw [hrem, List.append_nil] at hbytes
  have hchunks : decodeChunks [] 0 (asChunks bytes).1 = .ok insns := by
    rw [← hrem]
    exact hdec
  exact ⟨(asChunks bytes).1, hbytes.symm, hchunks, decoded_slots hchunks⟩

theorem tame_flatten : Tame (slots.map Slot.bytes).flatten ↔ ∀ s ∈ slots, TameFields s.fields := by
  rw [Tame, asChunks_flatten]

/-- What the decoder keeps is all that matters. -/
theorem clean_of_mem (h : f.code ∈ memOpcodes) : f.clean = f := by
  have hcodes : ∀ c ∈ memOpcodes, c ∉ lossyOpcodes := forall_mem_of_all (by decide)
  exact clean_of_code (hcodes f.code h)

theorem tame_clean : TameFields f.clean ↔ TameFields f := by
  unfold TameFields
  rw [clean_code]
  refine and_congr_right fun _ => ?_
  constructor
  · intro h hmem
    rw [← clean_of_mem hmem]
    exact h hmem
  · intro h hmem
    rw [clean_of_mem hmem]
    exact h hmem

theorem encodesSlot_some (h : EncodesSlot insn s) (hf : encodeFields insn = some f) : f = s.fields.clean := by
  unfold EncodesSlot at h
  split at h
  · rw [hf] at h
    cases h
  · exact Option.some.inj (hf.symm.trans h)

/-- An instruction that the reducer can rewrite comes from a tame slot. -/
theorem tame_slot_iff (h : EncodesSlot insn s) :
    ((encode insn).isSome = true ∧ ∀ o, stackOffset insn = some o → o.toInt ≠ -2 ^ 15) ↔ TameFields s.fields := by
  unfold EncodesSlot at h
  split at h
  · rename_i hcode
    have hnone : encode insn = none := by rw [encode, h, Option.map_none]
    rw [hnone]
    exact ⟨fun hbad => absurd hbad.1 (by decide), fun htame => absurd hcode htame.1⟩
  · rename_i hcode
    have hsome : encode insn = some s.fields.clean.slot.bytes := by rw [encode, h, Option.map_some]
    rw [hsome, stackOffset_encode h, ← tame_clean, TameFields, clean_code]
    constructor
    · intro hbad
      refine ⟨hcode, fun hmem => hbad.2 _ ?_⟩
      rw [if_pos hmem]
    · intro htame
      refine ⟨rfl, fun o ho => ?_⟩
      split at ho
      · rename_i hmem
        rw [← Option.some.inj ho]
        exact htame.2 hmem
      · cases ho

/-- The reducer is not stopped in a program exactly if its slots are tame. -/
theorem rewritable_iff (h : decode bytes = some insns) : Rewritable insns ↔ Tame bytes := by
  obtain ⟨slots, rfl, -, hslots⟩ := decode_slots h
  rw [tame_flatten]
  clear h
  induction hslots with
  | nil => exact ⟨nofun, nofun⟩
  | cons hs _ ih =>
    rw [Rewritable, List.forall_mem_cons, List.forall_mem_cons, tame_slot_iff hs]
    exact and_congr_right fun _ => ih

/-- A patch of one instruction. -/
theorem patched (hslots : List.Forall₂ EncodesSlot insns slots) (hget : insns[pc]? = some insn)
    (hf : encodeFields insn = some f) (hd : f'.dst.toNat < 16) (hs : f'.src.toNat < 16) :
    ∃ s, slots[pc]? = some s ∧ f = s.fields.clean ∧ f'.slot.fields = f' ∧
      patch (slots.map Slot.bytes).flatten pc f'.slot.bytes = ((slots.set pc f'.slot).map Slot.bytes).flatten := by
  obtain ⟨s, hslot, henc⟩ := forall₂_get hslots hget
  obtain ⟨hlt, -⟩ := List.getElem?_eq_some_iff.mp hslot
  exact ⟨s, hslot, encodesSlot_some henc hf, Fields.slot_fields hd hs, patch_slots hlt f'.slot⟩

/-- A patch is a step down, if the weights go down, and stays tame. -/
theorem patch_smaller (hslots : List.Forall₂ EncodesSlot insns slots) (hget : insns[pc]? = some insn)
    (hf : encodeFields insn = some f) (hd : f'.dst.toNat < 16) (hs : f'.src.toNat < 16) (hkeep : f.code ∉ lossyOpcodes)
    (hbranch : branchWeight f' = branchWeight f)
    (hless : formWeight f' < formWeight f ∨ formWeight f' = formWeight f ∧ nibbleWeight f' = nibbleWeight f ∧
      sizeWeight f' < sizeWeight f) (htame : TameFields f') :
    Smaller (patch (slots.map Slot.bytes).flatten pc f'.slot.bytes) (slots.map Slot.bytes).flatten ∧
      (Tame (slots.map Slot.bytes).flatten → Tame (patch (slots.map Slot.bytes).flatten pc f'.slot.bytes)) := by
  obtain ⟨s, hslot, hclean, hfields, hpatch⟩ := patched hslots hget hf hd hs
  have hsame : s.fields = f := by
    rw [hclean, clean_of_code]
    rw [hclean, clean_code] at hkeep
    exact hkeep
  have h1 := @total_set branchWeight slots s f'.slot pc hslot
  have h2 := @total_set formWeight slots s f'.slot pc hslot
  have h3 := @total_set nibbleWeight slots s f'.slot pc hslot
  have h4 := @total_set sizeWeight slots s f'.slot pc hslot
  rw [hfields, hsame] at h1 h2 h3 h4
  rw [hpatch]
  refine ⟨smaller_of_weights List.length_set (by omega), fun hall => ?_⟩
  rw [tame_flatten] at hall ⊢
  intro s' hs'
  rcases List.mem_or_eq_of_mem_set hs' with hin | rfl
  · exact hall s' hin
  · rw [hfields]
    exact htame

/-! ## Operand candidates -/

theorem formOpcodes_facts : ∀ c ∈ xFormOpcodes, (c ∉ lossyOpcodes ∧ c ∉ branchOpcodes) ∧
    (c &&& ~~~0x08 ∉ branchOpcodes ∧ c &&& ~~~0x08 ∉ xFormOpcodes) ∧
    c &&& ~~~0x08 ≠ 0x99 ∧ c &&& ~~~0x08 ∉ memOpcodes := forall_mem_of_all (by decide)

theorem smallerOffsets_lt {o o' : Int16} (h : o' ∈ smallerOffsets o) : o'.toInt.natAbs < o.toInt.natAbs := by
  obtain ⟨k, hk, rfl⟩ := List.mem_map.mp h
  rw [List.mem_range'_1] at hk
  have hlo := o.le_toInt
  have hhi := o.toInt_lt
  have hint : (Int16.ofInt (if o.toInt < 0 then -((k : Int) * 8) else (k : Int) * 8)).toInt =
      if o.toInt < 0 then -((k : Int) * 8) else (k : Int) * 8 := by
    refine Int16.toInt_ofInt_of_le ?_ ?_ <;> split <;> omega
  rw [hint]
  split <;> omega

theorem lowering_facts {high low : Reg} (h : loweringPair insns = some (high, low)) :
    used insns high = true ∧ used insns low = false ∧ low < high ∧ high ∈ loweredRegs ∧ low ∈ loweredRegs := by
  obtain ⟨high', hhigh, h⟩ := Option.bind_eq_some_iff.mp h
  obtain ⟨low', hlow, h⟩ := Option.bind_eq_some_iff.mp h
  cases h
  have hfound := List.find?_some hlow
  rw [Bool.and_eq_true, Bool.not_eq_true', decide_eq_true_eq] at hfound
  exact ⟨List.find?_some hhigh, hfound.1, hfound.2, List.mem_reverse.mp (List.mem_of_find?_eq_some hhigh),
    List.mem_of_find?_eq_some hlow⟩

theorem clean_nibbles (f : Fields) : f.clean.dst.toNat ≤ f.dst.toNat ∧ f.clean.src.toNat ≤ f.src.toNat := by
  unfold Fields.clean
  split_ifs
  · exact ⟨le_refl _, le_refl _⟩
  · exact ⟨le_refl _, le_refl _⟩
  · exact ⟨le_refl _, Nat.zero_le _⟩
  · exact ⟨le_refl _, le_refl _⟩
  · exact ⟨le_refl _, le_refl _⟩
  · exact ⟨le_refl _, le_refl _⟩

theorem renameNibble_le {high low : Reg} (hlt : low < high) (b : UInt8) :
    (renameNibble (regField high) (regField low) b).toNat ≤ b.toNat ∧
      (b = regField high → (renameNibble (regField high) (regField low) b).toNat < b.toNat) := by
  have hnum : (regField low).toNat < (regField high).toNat := by
    have hval : low.val < high.val := hlt
    have h1 := low.isLt
    have h2 := high.isLt
    simp only [regField, UInt8.toNat_ofNat']
    omega
  unfold renameNibble
  split
  · rename_i heq
    rw [heq]
    exact ⟨le_of_lt hnum, fun _ => hnum⟩
  · rename_i hne
    exact ⟨le_refl _, fun heq => absurd heq hne⟩

/-- A renaming lowers the nibbles and keeps the opcodes. -/
theorem rename_smaller {high low : Reg} {fs : List Fields} (hslots : List.Forall₂ EncodesSlot insns slots)
    (hpair : loweringPair insns = some (high, low))
    (hfs : List.Forall₂ (fun insn f => encodeFields insn = some f) insns fs) :
    Smaller (fs.map fun f => (renameFields high low f).slot.bytes).flatten (slots.map Slot.bytes).flatten ∧
      (Tame (slots.map Slot.bytes).flatten → Tame (fs.map fun f => (renameFields high low f).slot.bytes).flatten) := by
  obtain ⟨hused, -, hlt, hhigh, -⟩ := lowering_facts hpair
  have hmap : (fs.map fun f => (renameFields high low f).slot.bytes) =
      (fs.map fun f => (renameFields high low f).slot).map Slot.bytes := by
    rw [List.map_map]
    rfl
  -- slot by slot
  have hall : List.Forall₂ (fun s' s => ∃ f, f = s.fields.clean ∧ s'.fields = renameFields high low f)
      (fs.map fun f => (renameFields high low f).slot) slots := by
    clear hpair hused hmap
    induction hslots generalizing fs with
    | nil =>
      cases hfs
      exact .nil
    | cons hs _ ih =>
      cases hfs with
      | @cons _ f _ fs hf hrest =>
        obtain ⟨hd, hsrc⟩ := encodeFields_nibbles hf
        exact .cons ⟨f, encodesSlot_some hs hf,
          Fields.slot_fields (renameNibble_lt hd high low) (renameNibble_lt hsrc high low)⟩ (ih hrest)
  have hcode : ∀ s' s : Slot, (∃ f, f = s.fields.clean ∧ s'.fields = renameFields high low f) →
      s'.fields.code = s.fields.code := by
    rintro s' s ⟨f, rfl, hs'⟩
    rw [hs']
    exact clean_code _
  have hweight : ∀ w : Fields → Nat, (∀ f f' : Fields, f.code = f'.code → w f = w f') →
      total w (fs.map fun f => (renameFields high low f).slot) ≤ total w slots := by
    intro w hw
    exact total_le (hall.imp fun s' s hs => le_of_eq (hw _ _ (hcode s' s hs)))
  have hbranch := hweight branchWeight fun f f' h => by rw [branchWeight, branchWeight, h]
  have hform := hweight formWeight fun f f' h => by rw [formWeight, formWeight, h]
  have hnibbles : List.Forall₂ (fun s' s => nibbleWeight s'.fields ≤ nibbleWeight s.fields)
      (fs.map fun f => (renameFields high low f).slot) slots := by
    refine hall.imp ?_
    rintro s' s ⟨f, rfl, hs'⟩
    have h1 := (renameNibble_le hlt s.fields.clean.dst).1
    have h2 := (renameNibble_le hlt s.fields.clean.src).1
    have h3 := clean_nibbles s.fields
    rw [hs']
    simp only [nibbleWeight, renameFields]
    omega
  -- the highest register of the census is a nibble of some slot
  obtain ⟨insn, hin, hmark⟩ := List.any_eq_true.mp hused
  rw [decide_eq_true_eq] at hmark
  obtain ⟨i, hget⟩ := List.mem_iff_getElem?.mp hin
  obtain ⟨s, hslot, henc⟩ := forall₂_get hslots hget
  obtain ⟨f, hfget, hf⟩ := forall₂_get hfs hget
  have hne : high ≠ 0 := by
    rintro rfl
    exact absurd hhigh (by decide)
  have hnib := markRegs_encode hf hmark hne
  have hclean := encodesSlot_some henc hf
  obtain ⟨hd, hsrc⟩ := encodeFields_nibbles hf
  have hfields : (renameFields high low f).slot.fields = renameFields high low f :=
    Fields.slot_fields (renameNibble_lt hd high low) (renameNibble_lt hsrc high low)
  have hless := @total_lt nibbleWeight slots _ s (renameFields high low f).slot hnibbles i
    (by rw [List.getElem?_map, hfget, Option.map_some]) hslot (by
      obtain ⟨h1, h1'⟩ := renameNibble_le hlt f.dst
      obtain ⟨h2, h2'⟩ := renameNibble_le hlt f.src
      have h3 := clean_nibbles s.fields
      rw [← hclean] at h3
      rw [hfields]
      simp only [nibbleWeight, renameFields]
      rcases hnib with hnib | hnib
      · have := h1' hnib
        omega
      · have := h2' hnib
        omega)
  rw [hmap]
  refine ⟨smaller_of_weights hall.length_eq (by omega), fun htame => ?_⟩
  rw [tame_flatten] at htame ⊢
  intro s' hs'
  obtain ⟨s, hsin, f, rfl, hs'f⟩ := forall₂_mem hall.flip hs'
  have hs := tame_clean.mpr (htame s hsin)
  rw [hs'f]
  exact hs

/-- Every operand candidate is a step down and stays tame. -/
theorem proposal_smaller {t : Transform} (hdec : decode bytes = some insns) (htame : Tame bytes)
    (h : Proposal bytes insns t out) : Smaller out bytes ∧ Tame out := by
  obtain ⟨slots, rfl, hchunks, hslots⟩ := decode_slots hdec
  cases h with
  | @immediate pc insn f orig v hget hf himm hv =>
    obtain ⟨rfl, hkeep, hmem⟩ := immOf_encode (decoded_oneOperand hchunks insn (List.mem_of_getElem? hget)) hf himm
    obtain ⟨hd, hs⟩ := encodeFields_nibbles hf
    have hless := (of_decide_eq_true (List.mem_filter.mp hv).2).2
    unfold unsignedAbs at hless
    have hload : f.code ≠ 0x99 := fun h99 => hkeep (h99 ▸ by decide)
    have hstep := @patch_smaller insns slots insn f { f with imm := v } pc hslots hget hf hd hs hkeep rfl
      (.inr ⟨rfl, rfl, by simp only [sizeWeight]; omega⟩) ⟨hload, fun hbad => absurd hbad hmem⟩
    exact ⟨hstep.1, hstep.2 htame⟩
  | @aluForm pc insn f src v hget hf hsrc hv =>
    obtain ⟨hcode, -⟩ := xFormSource_encode hf hsrc
    obtain ⟨⟨hkeep, hbranch⟩, ⟨hbranch', hform'⟩, hload, hmem⟩ := formOpcodes_facts f.code hcode
    obtain ⟨hd, -⟩ := encodeFields_nibbles hf
    have hstep := @patch_smaller insns slots insn f (kFormFields f v) pc hslots hget hf hd
      (by show (0 : UInt8).toNat < 16; decide) hkeep
      (by simp only [branchWeight, kFormFields, hbranch, hbranch', if_false])
      (.inl (by simp only [formWeight, kFormFields, hform', hcode, if_false, if_true]; decide))
      ⟨hload, fun hbad => absurd hbad hmem⟩
    exact ⟨hstep.1, hstep.2 htame⟩
  | regLower hpair hfs =>
    have hstep := rename_smaller hslots hpair hfs
    exact ⟨hstep.1, hstep.2 htame⟩
  | @stackOffset pc insn f o o' hget hf hoff ho' =>
    obtain ⟨hcode, rfl⟩ := stackOffset_some hf hoff
    have hless := smallerOffsets_lt ho'
    have hlo := f.off.le_toInt
    have hhi := f.off.toInt_lt
    have hkeep : ∀ c ∈ memOpcodes, c ∉ lossyOpcodes ∧ c ≠ 0x99 := forall_mem_of_all (by decide)
    obtain ⟨hkeep, hload⟩ := hkeep f.code hcode
    obtain ⟨hd, hs⟩ := encodeFields_nibbles hf
    have hstep := @patch_smaller insns slots insn f { f with off := o' } pc hslots hget hf hd hs hkeep rfl
      (.inr ⟨rfl, rfl, by simp only [sizeWeight]; omega⟩) ⟨hload, fun _ => by dsimp only; omega⟩
    exact ⟨hstep.1, hstep.2 htame⟩

/-! ## Deletions and simplified branches -/

theorem branchCodes_facts : ∀ c ∈ branchCodes, c ≠ 0x99 ∧ c ∉ memOpcodes := forall_mem_of_all (by decide)

theorem mem_survivors {removed : List Nat} {old : Nat} {x : BpfInsn} (h : x ∈ survivors removed old insns) :
    ∃ i insn, insns[i]? = some insn ∧ x = fixed removed (old + i) insn := by
  induction insns generalizing old with
  | nil => cases h
  | cons insn insns ih =>
    have hshift : ∀ i, old + 1 + i = old + (i + 1) := by omega
    by_cases hold : old ∈ removed
    · rw [survivors, if_pos hold] at h
      obtain ⟨i, insn', hget, hx⟩ := ih h
      exact ⟨i + 1, insn', hget, by rw [← hshift]; exact hx⟩
    · rw [survivors, if_neg hold] at h
      rcases List.mem_cons.mp h with rfl | h
      · exact ⟨0, insn, rfl, rfl⟩
      · obtain ⟨i, insn', hget, hx⟩ := ih h
        exact ⟨i + 1, insn', hget, by rw [← hshift]; exact hx⟩

theorem deleted_decode {removed : List Nat} {slots' : List Slot} (h : Deleted bytes removed insns slots') :
    decode bytes = some insns := by
  have hlen := decodeProgram_length h.decodes
  have hpos := List.length_pos_iff.mpr h.ne
  refine decode_some.mpr ⟨fun hnil => ?_, by omega, h.decodes⟩
  rw [hnil, List.length_nil] at hlen
  omega

/-- A deletion decodes what it deletes from, and stays tame. -/
theorem deletion_tame {removed : List Nat} (h : deleteInsns bytes removed = .ok out) :
    (∃ insns, decode bytes = some insns) ∧ (Tame bytes → Tame out) := by
  obtain ⟨insns, slots', hdel, rfl⟩ := deleteInsns_ok.mp h
  have hdec := deleted_decode hdel
  refine ⟨⟨insns, hdec⟩, ?_⟩
  obtain ⟨slots, rfl, -, hslots⟩ := decode_slots hdec
  rw [tame_flatten, tame_flatten]
  intro htame s' hs'
  obtain ⟨x, hx, hf⟩ := forall₂_mem hdel.encodes hs'
  obtain ⟨i, insn, hget, rfl⟩ := mem_survivors hx
  cases hoff : Fixup.branchOffset insn with
  | none =>
    rw [fixed_of_none hoff] at hf
    obtain ⟨s, hslot, henc⟩ := forall₂_get hslots hget
    rw [encodesSlot_some henc hf]
    exact tame_clean.mpr (htame s (List.mem_of_getElem? hslot))
  | some o =>
    have hsome : Fixup.branchOffset (fixed removed (0 + i) insn) ≠ none := by
      rw [fixed, hoff]
      dsimp only
      rw [branchOffset_withOffset hoff]
      exact Option.some_ne_none _
    rw [branchOffset_encode hf] at hsome
    have hcode : s'.fields.code ∈ branchCodes := by
      by_contra hno
      exact hsome (if_neg hno)
    obtain ⟨hload, hmem⟩ := branchCodes_facts _ hcode
    exact ⟨hload, fun hbad => absurd hbad hmem⟩

theorem forall₂_set {α β γ : Type} {P : α → β → Prop} {Q : α → γ → Prop} {l : List α} {x : α} {fs : List β}
    {l' : List γ} (hq : List.Forall₂ Q l l') (hp : List.Forall₂ P (l.set pc x) fs) :
    List.Forall₂ (fun f s => (∃ a, P a f ∧ Q a s) ∨ P x f) fs l' := by
  induction hq generalizing pc fs with
  | nil =>
    cases hp
    exact .nil
  | @cons a s l l' hab _ ih =>
    cases pc with
    | zero =>
      cases hp with
      | cons hx hrest =>
        have hnone : l.set l.length x = l := List.set_eq_of_length_le (le_refl _)
        rw [← hnone] at hrest
        exact .cons (.inr hx) (ih hrest)
    | succ pc =>
      cases hp with
      | cons hx hrest => exact .cons (.inl ⟨_, hx, hab⟩) (ih hrest)

/-- A simplified branch is a step down, and stays tame. -/
theorem simplified_smaller (hdec : decode bytes = some insns) (htame : Tame bytes) (h : Simplified bytes insns out) :
    Smaller out bytes ∧ Tame out := by
  cases h with
  | @delete pc hout =>
    exact ⟨smaller_of_length (deleted_shorter hout (List.mem_singleton_self _)), (deletion_tame hout).2 htame⟩
  | @jump pc insn o hget hcond hoff hout =>
    obtain ⟨slots, rfl, -, hslots⟩ := decode_slots hdec
    obtain ⟨chunks, hchunks, rfl⟩ := Option.map_eq_some_iff.mp hout
    obtain ⟨fs, hfs, rfl⟩ := mapM_encode_fields hchunks
    have hnibbles : ∀ f ∈ fs, f.slot.fields = f := by
      intro f hf
      obtain ⟨insn', hinsn'⟩ := encoded_of_mem hfs hf
      obtain ⟨hd, hs⟩ := encodeFields_nibbles hinsn'
      exact Fields.slot_fields hd hs
    have hall := forall₂_set hslots hfs
    have hjump : ∀ f, encodeFields (.jmp o) = some f → f.code = opcode.jmp := by
      intro f hf
      cases hf
      rfl
    -- every slot is encoded again, or is the jump
    have hslot : ∀ f s, ((∃ a, encodeFields a = some f ∧ EncodesSlot a s) ∨ encodeFields (.jmp o) = some f) →
        f = s.fields.clean ∨ f.code = opcode.jmp := by
      rintro f s (⟨a, hf, henc⟩ | hf)
      · exact .inl (encodesSlot_some henc hf)
      · exact .inr (hjump f hf)
    have hle : List.Forall₂ (fun s' s => branchWeight s'.fields ≤ branchWeight s.fields) (fs.map Fields.slot) slots := by
      rw [List.forall₂_map_left_iff]
      refine (List.forall₂_iff_zip.mpr ⟨hall.length_eq, fun {f s} hmem => ?_⟩)
      rw [hnibbles f (List.of_mem_zip hmem).1]
      rcases hslot f s ((List.forall₂_iff_zip.mp hall).2 hmem) with rfl | hcode
      · rw [branchWeight, branchWeight, clean_code]
      · rw [branchWeight, hcode, if_neg (by decide)]
        exact Nat.zero_le _
    obtain ⟨hlt, -⟩ := List.getElem?_eq_some_iff.mp hget
    obtain ⟨f, hf, hfj⟩ := forall₂_get hfs (List.getElem?_set_self hlt)
    obtain ⟨s, hs, henc⟩ := forall₂_get hslots hget
    have hbranch : branchWeight s.fields = 1 := by
      have hsome : s.b0 ≠ 0x99 := (htame s (by rw [asChunks_flatten]; exact List.mem_of_getElem? hs)).1
      unfold EncodesSlot at henc
      rw [if_neg hsome] at henc
      have hcode := branch_encode hcond hoff henc
      rw [clean_code] at hcode
      rw [branchWeight, if_pos hcode]
    have hless := @total_lt branchWeight slots _ s f.slot hle pc
      (by rw [List.getElem?_map, hf, Option.map_some]) hs (by
        rw [hnibbles f (List.mem_of_getElem? hf), hbranch, branchWeight, hjump f hfj, if_neg (by decide)]
        exact Nat.one_pos)
    have hmap : fs.map (fun f : Fields => f.slot.bytes) = (fs.map Fields.slot).map Slot.bytes := by
      rw [List.map_map]
      rfl
    rw [hmap]
    refine ⟨smaller_of_weights (by rw [List.length_map, hall.length_eq]) (.inl hless), ?_⟩
    rw [tame_flatten] at htame ⊢
    intro s' hs'
    obtain ⟨f', hf', rfl⟩ := List.mem_map.mp hs'
    rw [hnibbles f' hf']
    obtain ⟨s'', hs'', hrel⟩ := forall₂_mem hall.flip hf'
    rcases hslot f' s'' hrel with rfl | hcode
    · exact tame_clean.mpr (htame s'' hs'')
    · unfold TameFields
      rw [hcode]
      exact ⟨by decide, fun hbad => absurd hbad (by decide)⟩

end Decoded

end Reduce

end RandVerifier
