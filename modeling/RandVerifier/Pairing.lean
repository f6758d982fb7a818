/-
  RandVerifier.Pairing — which programs decode from their own encoding (`src/insn.rs`,
  `src/fuzz/insn_lib.rs`).

  An instruction that takes one slot decodes from its encoding exactly if it is legal: no
  division by the immediate zero, one operand for a 32-bit comparison, the sizes that the
  opcodes have. The first slot of a wide load only decodes with its own second one. So a
  program decodes from its encoding exactly if it is a sequence of legal instructions and
  intact pairs, and every cut of it is clean or splits one pair.

  - `legal_iff`: what is decoded and encodes is legal, and the converse;
  - `decodes_iff`: the programs that decode from their own encoding;
  - `Slotted.cut`, `Slotted.rest`: how pairs lie in a program.
-/

import RandVerifier.Deletions

namespace RandVerifier

open Fixup

/-! ## Instructions of one slot -/

/-- One of the two slots of a wide load. -/
def BpfInsn.isHalf : BpfInsn → Bool
  | .ldImm64 .. | .ldMapFd .. | .ldMapValue .. | .ldImm64Second _ => true
  | _ => false

/-- The instructions of one slot that decode from their own encoding. -/
def BpfInsn.Legal : BpfInsn → Prop
  | .divImm _ imm | .modImm _ imm | .div32Imm _ imm | .mod32Imm _ imm => imm ≠ 0
  | .jmp32 _ src imm _ _ => src.isSome ≠ imm.isSome
  | .atomic _ _ _ size op fetch => (size = .w ∨ size = .dw) ∧ (op.requiresFetch = true → fetch = true)
  | .ldAbs size _ | .ldInd _ size _ => size ≠ .dw
  | .ldMem _ _ _ size signExtend => ¬ (size = .dw ∧ signExtend = true)
  | .ldImm64 .. | .ldMapFd .. | .ldMapValue .. | .ldImm64Second _ => False
  | _ => True

instance (insn : BpfInsn) : Decidable insn.Legal := by
  cases insn <;> unfold BpfInsn.Legal <;> infer_instance

section Arms

variable {code d s : UInt8} {off : Int16} {imm : Int32} {dst src : Reg} {high : MulHigh} {insn : BpfInsn} {f : Fields}

theorem parse_regs (hd : regOfNibble f.dst = .ok dst) (hs : regOfNibble f.src = .ok src) :
    parseFields f = parseArms f dst src := by
  simp only [parseFields, hd, hs, bind, Except.bind]

theorem parse_alu (hd : regOfNibble f.dst = .ok dst) (hs : regOfNibble f.src = .ok src)
    (hlook : (aluArms dst src f.imm high).lookup f.code = some insn) (hhigh : aluHigh f = some high)
    (hres : operandReserved f = false) (hdiv : f.code ∈ divImmOpcodes → f.imm ≠ 0) : parseFields f = .ok insn := by
  have hno : ¬ (operandReserved f = true ∨ some high = none) := by
    rw [hres]
    simp
  have hdiv' : ¬ (f.code ∈ divImmOpcodes ∧ f.imm = 0) := fun h => hdiv h.1 h.2
  have halu : parseAlu f dst src = some (.ok insn) := by
    unfold parseAlu
    rw [hhigh, Option.getD_some, hlook]
    dsimp only
    rw [if_neg hno, if_neg hdiv']
  rw [parse_regs hd hs, parseArms, halu]

theorem alu_zero {insn' : BpfInsn} (hd : regOfNibble f.dst = .ok dst) (hs : regOfNibble f.src = .ok src)
    (hlook : (aluArms dst src f.imm ((aluHigh f).getD .low)).lookup f.code = some insn') (hdiv : f.code ∈ divImmOpcodes)
    (himm : f.imm = 0) : parseFields f ≠ .ok insn := by
  intro h
  rw [parse_regs hd hs, parseArms, parseAlu, hlook] at h
  dsimp only at h
  split at h
  · cases h
  · rw [if_pos ⟨hdiv, himm⟩] at h
    cases h

theorem alu_k (hlook : (aluArms dst 0 imm high).lookup code = some insn) (hx : isX code = false)
    (hhigh : aluHigh ⟨code, regField dst, 0, off, imm⟩ = some high) (hdiv : code ∈ divImmOpcodes → imm ≠ 0) :
    parseFields ⟨code, regField dst, 0, off, imm⟩ = .ok insn :=
  parse_alu (regOfNibble_regField dst) regOfNibble_zero hlook hhigh (reserved_k hx) hdiv

theorem alu_x (hlook : (aluArms dst src 0 high).lookup code = some insn) (hx : isX code = true)
    (hhigh : aluHigh ⟨code, regField dst, regField src, off, 0⟩ = some high) (hdiv : code ∉ divImmOpcodes) :
    parseFields ⟨code, regField dst, regField src, off, 0⟩ = .ok insn :=
  parse_alu (regOfNibble_regField dst) (regOfNibble_regField src) hlook hhigh (reserved_x hx) fun h => absurd h hdiv

theorem parse_mem (hd : regOfNibble d = .ok dst) (hs : regOfNibble s = .ok src)
    (halu : parseAlu ⟨code, d, s, off, imm⟩ dst src = none) (hjump : (jumpArms dst src imm off).lookup code = none)
    (h32 : code &&& 0x07 ≠ 0x06) (hmem : isMemOpcode code = true) (hpacket : code ∉ packetOpcodes)
    (hother : code ≠ opcode.jmp ∧ code ≠ opcode.call ∧ code ≠ opcode.exit ∧ code ≠ opcode.ldImm64) :
    parseFields ⟨code, d, s, off, imm⟩ = parseMem ⟨code, d, s, off, imm⟩ dst src := by
  rw [parse_regs (f := ⟨code, d, s, off, imm⟩) hd hs, parseArms_rest halu hjump h32, if_neg hpacket, if_neg hother.1,
    if_neg hother.2.1, if_neg hother.2.2.1, if_neg hother.2.2.2, if_pos hmem]

theorem load_arm {size : MemSize} {signExtend : Bool} (hcode : ldMemOpcode size signExtend = some code) :
    parseMem ⟨code, d, s, off, 0⟩ dst src = .ok (.ldMem dst src off size signExtend) := by
  have hbits : code &&& 0x07 = 0x01 ∧ memSizeOf code = size ∧ (code &&& 0xe0 == 0x80) = signExtend := by
    cases size <;> cases signExtend <;> cases hcode <;> decide
  simp only [parseMem, hbits, ne_eq, not_true_eq_false, false_and, if_false, if_true]

theorem store_arm {size : MemSize} :
    parseMem ⟨stMemOpcode size, d, s, off, 0⟩ dst src = .ok (.stMem src dst off size) ∧
      parseMem ⟨stMemImmOpcode size, d, s, off, imm⟩ dst src = .ok (.stMemImm imm dst off size) := by
  have hbits : stMemOpcode size &&& 0x07 = 0x03 ∧ memSizeOf (stMemOpcode size) = size := by cases size <;> decide
  have hbits' : stMemImmOpcode size &&& 0x07 = 0x02 ∧ memSizeOf (stMemImmOpcode size) = size := by
    cases size <;> decide
  have hne : ¬ (0x03 : UInt8) = 0x01 ∧ ¬ (0x03 : UInt8) = 0x02 ∧ ¬ (0x02 : UInt8) = 0x01 := by decide
  simp only [parseMem, hbits, hbits', hne, ne_eq, not_true_eq_false, false_and, and_false, if_false, if_true, and_self]

theorem packet_arm {size : MemSize} (hsize : size ≠ .dw) :
    parsePacketLoad ⟨ldAbsOpcode size, 0, 0, off, imm⟩ src = .ok (.ldAbs size imm) ∧
      parsePacketLoad ⟨ldIndOpcode size, 0, s, off, imm⟩ src = .ok (.ldInd src size imm) := by
  have hbits : ldAbsOpcode size < 0x40 ∧ memSizeOf (ldAbsOpcode size) = size ∧
      ¬ ldIndOpcode size < 0x40 ∧ memSizeOf (ldIndOpcode size) = size := by
    cases size
    case dw => exact absurd rfl hsize
    all_goals decide
  simp only [parsePacketLoad, hbits, ne_eq, not_true_eq_false, if_false, if_true, and_self]

theorem atomic_arm {size : MemSize} {op : AtomicOp} {fetch : Bool} (hcode : code = if size = .w then opcode.atomicW else opcode.atomicDw)
    (hsize : size = .w ∨ size = .dw) (hfetch : op.requiresFetch = true → fetch = true) :
    parseAtomic ⟨code, d, s, off, op.toImm ||| (if fetch then 1 else 0)⟩ dst src =
      .ok (.atomic dst src off size op fetch) := by
  have hcode' : (if code = opcode.atomicW then MemSize.w else MemSize.dw) = size := by
    rw [hcode]
    rcases hsize with rfl | rfl <;> rfl
  have hbits : (op.toImm ||| (if fetch then 1 else 0)) &&& 0x0e = 0 ∧
      AtomicOp.fromImm (op.toImm ||| (if fetch then 1 else 0)) = some op ∧
      ((op.toImm ||| (if fetch then 1 else 0)) &&& opcode.fetch != 0) = fetch := by
    cases op <;> cases fetch <;> decide
  have hok : (op.requiresFetch && !fetch) = false := by
    cases hreq : op.requiresFetch with
    | false => rfl
    | true => rw [hfetch hreq]; rfl
  simp only [parseAtomic, hbits, hcode', hok, ne_eq, not_true_eq_false, if_false, Bool.false_eq_true]

theorem parse_call (hs : regOfNibble s = .ok src) :
    parseFields ⟨opcode.call, 0, s, 0, imm⟩ = parseCall ⟨opcode.call, 0, s, 0, imm⟩ := by
  rw [parse_regs (f := ⟨opcode.call, 0, s, 0, imm⟩) regOfNibble_zero hs, parseArms_rest rfl rfl (by decide),
    if_neg (by decide), if_neg (by decide), if_pos rfl]

theorem parse_jump32 (hd : regOfNibble f.dst = .ok dst) (hs : regOfNibble f.src = .ok src)
    (halu : parseAlu f dst src = none) (hjump : (jumpArms dst src f.imm f.off).lookup f.code = none)
    (h32 : jmp32Arm f dst src = some insn) (hres : operandReserved f = false) : parseFields f = .ok insn := by
  rw [parse_regs hd hs]
  simp only [parseArms, halu, hjump, h32, operandArm, hres, Bool.false_eq_true, if_false]

theorem jump32_arm (op : Jmp32Op) :
    jmp32Arm ⟨(jmp32Opcodes op).1, d, s, off, imm⟩ dst src = some (.jmp32 dst (some src) none off op) ∧
      jmp32Arm ⟨(jmp32Opcodes op).2, d, s, off, imm⟩ dst src = some (.jmp32 dst none (some imm) off op) := by
  have hclass : (jmp32Opcodes op).1 &&& 0x07 = 0x06 ∧ (jmp32Opcodes op).2 &&& 0x07 = 0x06 := by cases op <;> decide
  have hop : jmp32OpOf (jmp32Opcodes op).1 = some op ∧ jmp32OpOf (jmp32Opcodes op).2 = some op := by
    cases op <;> decide
  have hx : isX (jmp32Opcodes op).1 = true ∧ isX (jmp32Opcodes op).2 = false := by cases op <;> decide
  simp only [jmp32Arm, hclass, hop, hx, if_true, Bool.false_eq_true, if_false, Option.map_some, and_self]

end Arms

/-- A legal instruction decodes from its encoding. -/
theorem parse_legal {insn : BpfInsn} (h : insn.Legal) : ∃ f, encodeFields insn = some f ∧ parseFields f = .ok insn := by
  cases insn with
  | movImm | mov32Imm | addImm | subImm | andImm | orImm | xorImm | lshImm | rshImm | arshImm | add32Imm
  | sub32Imm | and32Imm | or32Imm | xor32Imm | lsh32Imm | rsh32Imm | arsh32Imm | mul32Imm | neg | neg32 =>
    exact ⟨_, rfl, alu_k (show _ = some _ from rfl) rfl rfl fun h => absurd h (by decide)⟩
  | divImm | modImm | div32Imm | mod32Imm =>
    exact ⟨_, rfl, alu_k (show _ = some _ from rfl) rfl rfl fun _ => h⟩
  | movReg | mov32Reg | addReg | subReg | andReg | orReg | xorReg | lshReg | rshReg | arshReg | add32Reg
  | sub32Reg | and32Reg | or32Reg | xor32Reg | lsh32Reg | rsh32Reg | arsh32Reg | mul32Reg | divReg | modReg
  | div32Reg | mod32Reg =>
    exact ⟨_, rfl, alu_x (show _ = some _ from rfl) rfl rfl (by decide)⟩
  | mulImm dst imm high =>
    refine ⟨_, rfl, alu_k (show _ = some _ from rfl) rfl ?_ fun h => absurd h (by decide)⟩
    cases high <;> rfl
  | mulReg dst src high =>
    refine ⟨_, rfl, alu_x (show _ = some _ from rfl) rfl ?_ (by decide)⟩
    cases high <;> rfl
  | jeq | jne | jgt | jge | jlt | jle | jsgt | jsge | jslt | jsle | jset =>
    exact ⟨_, rfl, parse_jump (regOfNibble_regField _) (regOfNibble_regField _) rfl rfl (reserved_x rfl)⟩
  | jeqImm | jneImm | jgtImm | jgeImm | jltImm | jleImm | jsgtImm | jsgeImm | jsltImm | jsleImm | jsetImm =>
    exact ⟨_, rfl, parse_jump (regOfNibble_regField _) regOfNibble_zero rfl rfl (reserved_k rfl)⟩
  | jmp32 dst src imm offset op =>
    cases src with
    | some src =>
      cases imm with
      | some imm => exact absurd rfl h
      | none =>
        refine ⟨_, rfl, parse_jump32 (regOfNibble_regField _) (regOfNibble_regField _) ?_ ?_ (jump32_arm op).1
          (reserved_x ?_)⟩
        all_goals cases op <;> rfl
    | none =>
      cases imm with
      | none => exact absurd rfl h
      | some imm =>
        refine ⟨_, rfl, parse_jump32 (regOfNibble_regField _) regOfNibble_zero ?_ ?_ (jump32_arm op).2 (reserved_k ?_)⟩
        all_goals cases op <;> rfl
  | jmp offset => exact ⟨_, rfl, parse_encode_branch rfl rfl⟩
  | call imm => exact ⟨_, rfl, (parse_call regOfNibble_zero).trans (by simp [parseCall])⟩
  | callSub offset =>
    have hone : regOfNibble 1 = .ok 1 := by decide
    exact ⟨_, rfl, (parse_call hone).trans (by simp [parseCall])⟩
  | callKfunc btfId =>
    have htwo : regOfNibble 2 = .ok 2 := by decide
    exact ⟨_, rfl, (parse_call htwo).trans (by simp [parseCall])⟩
  | exit => exact ⟨_, rfl, rfl⟩
  | ldMem dst base offset size signExtend =>
    cases hcode : ldMemOpcode size signExtend with
    | none =>
      cases size <;> cases signExtend <;> cases hcode
      exact absurd ⟨rfl, rfl⟩ h
    | some code =>
      refine ⟨⟨code, regField dst, regField base, offset, 0⟩, by simp [encodeFields, hcode, xForm],
        (parse_mem (regOfNibble_regField _) (regOfNibble_regField _) ?_ ?_ ?_ ?_ ?_ ?_).trans (load_arm hcode)⟩
      all_goals
        clear h
        cases size <;> cases signExtend <;> cases hcode
        all_goals first
          | rfl
          | decide
  | stMem src base offset size =>
    refine ⟨_, rfl, (parse_mem (regOfNibble_regField _) (regOfNibble_regField _) ?_ ?_ ?_ ?_ ?_ ?_).trans (@store_arm _ _ _ 0 _ _ _).1⟩
    all_goals
      cases size
      all_goals first
        | rfl
        | decide
  | stMemImm imm base offset size =>
    refine ⟨_, rfl, (parse_mem (regOfNibble_regField _) regOfNibble_zero ?_ ?_ ?_ ?_ ?_ ?_).trans store_arm.2⟩
    all_goals
      cases size
      all_goals first
        | rfl
        | decide
  | ldAbs size imm =>
    have hmem : ldAbsOpcode size ∈ packetOpcodes := by
      cases size
      case dw => exact absurd rfl h
      all_goals decide
    refine ⟨_, rfl, ?_⟩
    rw [parse_regs regOfNibble_zero regOfNibble_zero, parseArms_packet hmem]
    exact (packet_arm (s := 0) h).1
  | ldInd src size imm =>
    have hmem : ldIndOpcode size ∈ packetOpcodes := by
      cases size
      case dw => exact absurd rfl h
      all_goals decide
    refine ⟨_, rfl, ?_⟩
    rw [parse_regs regOfNibble_zero (regOfNibble_regField src), parseArms_packet hmem]
    exact (packet_arm h).2
  | atomic dst src offset size op fetch =>
    refine ⟨_, rfl, ?_⟩
    rw [parse_regs (regOfNibble_regField dst) (regOfNibble_regField src), parseArms_atomic (by split <;> simp)]
    exact atomic_arm rfl h.1 h.2
  | ldImm64 | ldMapFd | ldMapValue | ldImm64Second => exact absurd h id

section Parsed

variable {f : Fields} {insn : BpfInsn}

theorem parse_zero (hcode : f.code = 0) : parseFields f ≠ .ok insn := by
  obtain ⟨code, d, s, off, imm⟩ := f
  dsimp only at hcode
  subst hcode
  intro h
  obtain ⟨dst, -, h₁⟩ := bind_eq_ok.mp h
  obtain ⟨src, -, h₂⟩ := bind_eq_ok.mp h₁
  rw [parseArms_rest rfl rfl (by decide), if_neg (by decide), if_neg (by decide), if_neg (by decide),
    if_neg (by decide), if_neg (by decide), if_neg (by decide), if_neg (by decide)] at h₂
  split at h₂ <;> cases h₂

/-- Only a wide load and its second slot have their opcodes. -/
theorem narrow_code {g : Fields} (h : parseFields g = .ok insn) (hf : encodeFields insn = some f) :
    f.code ≠ opcode.ldImm64 ∧ f.code ≠ 0 := by
  have hparse := parse_encode h hf
  exact ⟨parseFields_narrow hparse, fun hzero => parse_zero hzero hparse⟩

theorem atomic_legal {dst src : Reg} (h : parseAtomic f dst src = .ok insn) : insn.Legal := by
  unfold parseAtomic at h
  dsimp only at h
  split at h
  · cases h
  · split at h
    · cases h
    · split at h
      · cases h
      · rename_i hreq
        cases h
        refine ⟨?_, fun hneeds => ?_⟩
        · split
          · exact .inl rfl
          · exact .inr rfl
        · simpa [hneeds] using hreq

/-- What is decoded from one slot, and encodes, is legal. -/
theorem legal_of_parse {g : Fields} (h : parseFields g = .ok insn) (he : (encode insn).isSome = true) : insn.Legal := by
  obtain ⟨bytes, hbytes⟩ := Option.isSome_iff_exists.mp he
  obtain ⟨f, hf, -⟩ := Option.map_eq_some_iff.mp hbytes
  have hparse := parse_encode h hf
  obtain ⟨hwide, hzero⟩ := narrow_code h hf
  cases insn with
  | ldImm64 | ldMapFd | ldMapValue =>
    cases hf
    exact absurd rfl hwide
  | ldImm64Second =>
    cases hf
    exact absurd rfl hzero
  | divImm dst imm | modImm dst imm | div32Imm dst imm | mod32Imm dst imm =>
    rintro rfl
    cases hf
    exact alu_zero (regOfNibble_regField dst) regOfNibble_zero (show _ = some _ from rfl)
      (by dsimp only; decide) rfl hparse
  | jmp32 dst src imm offset op =>
    cases src with
    | none =>
      cases imm with
      | none => cases hf
      | some imm => exact Bool.false_ne_true
    | some src =>
      cases imm with
      | none => exact Bool.false_ne_true.symm
      | some imm =>
        obtain ⟨f', hf', hparse'⟩ := parse_legal (show (BpfInsn.jmp32 dst (some src) none offset op).Legal from
          Bool.false_ne_true.symm)
        cases hf
        cases hf'
        rw [hparse] at hparse'
        cases hparse'
  | ldMem dst base offset size signExtend =>
    rintro ⟨rfl, rfl⟩
    cases hf
  | ldAbs size imm =>
    rintro rfl
    cases hf
    rw [parse_regs regOfNibble_zero regOfNibble_zero, parseArms_rest rfl rfl (by decide), if_neg (by decide),
      if_neg (by decide), if_neg (by decide), if_neg (by decide), if_neg (by decide), if_neg (by decide),
      if_neg (by decide)] at hparse
    split at hparse <;> cases hparse
  | ldInd src size imm =>
    rintro rfl
    cases hf
    rw [parse_regs regOfNibble_zero (regOfNibble_regField src), parseArms_rest rfl rfl (by decide), if_neg (by decide),
      if_neg (by decide), if_neg (by decide), if_neg (by decide), if_neg (by decide), if_neg (by decide),
      if_neg (by decide)] at hparse
    split at hparse <;> cases hparse
  | atomic dst src offset size op fetch =>
    cases hf
    rw [parse_regs (regOfNibble_regField dst) (regOfNibble_regField src), parseArms_atomic (by split <;> simp)] at hparse
    exact atomic_legal hparse
  | _ => trivial

/-- What is decoded from one slot and encodes is what is legal. -/
theorem legal_iff : insn.Legal ↔ (∃ g, parseFields g = .ok insn) ∧ (encode insn).isSome = true := by
  constructor
  · intro h
    obtain ⟨f, hf, hparse⟩ := parse_legal h
    exact ⟨⟨f, hparse⟩, by rw [encode, hf]; rfl⟩
  · rintro ⟨⟨g, hg⟩, he⟩
    exact legal_of_parse hg he

theorem BpfInsn.Legal.narrow (h : insn.Legal) : insn.isHalf = false := by
  cases insn with
  | ldImm64 | ldMapFd | ldMapValue | ldImm64Second => exact absurd h id
  | _ => rfl

theorem parse_narrow {g : Fields} (h : parseFields g = .ok insn) : insn.isHalf = false := by
  cases insn with
  | ldImm64 | ldMapFd | ldMapValue => exact absurd rfl (narrow_code h rfl).1
  | ldImm64Second => exact absurd rfl (narrow_code h rfl).2
  | _ => rfl

end Parsed

/-! ## Pairs of slots -/

/-- The two instructions of a wide load. -/
def Halves : BpfInsn → BpfInsn → Prop
  | .ldImm64 _ imm, .ldImm64Second hi => hi = (imm >>> 32).toNat
  | .ldMapFd _ fd keySize valueSize mapType, .ldImm64Second hi =>
    fd < 2 ^ 32 ∧ hi = 0 ∧ keySize = 0 ∧ valueSize = 0 ∧ mapType = 0
  | .ldMapValue _ fd offset keySize valueSize, .ldImm64Second hi =>
    fd < 2 ^ 32 ∧ offset < 2 ^ 32 ∧ hi = offset ∧ keySize = 0 ∧ valueSize = 0
  | _, _ => False

section Halves

variable {w s : BpfInsn}

theorem Halves.first (h : Halves w s) : w.isHalf = true := by
  cases w with
  | ldImm64 | ldMapFd | ldMapValue => rfl
  | _ => exact absurd h id

theorem Halves.second (h : Halves w s) : s.isHalf = true := by
  unfold Halves at h
  split at h
  all_goals first
    | rfl
    | cases h

theorem wide_join {a b : Nat} (ha : a < 2 ^ 32) (hb : b < 2 ^ 32) : a <<< 32 % 2 ^ 64 ||| b = a * 2 ^ 32 + b := by
  rw [Nat.shiftLeft_eq, Nat.mod_eq_of_lt (by omega), ← Nat.shiftLeft_eq, ← Nat.shiftLeft_add_eq_or_of_lt hb,
    Nat.shiftLeft_eq]

theorem shift_32 : UInt64.toNat 32 % 64 = 32 := rfl

theorem wide_high (hi lo : UInt32) : ((hi.toUInt64 <<< 32 ||| lo.toUInt64) >>> 32).toNat = hi.toNat := by
  have hhi := hi.toNat_lt
  have hlo := lo.toNat_lt
  simp only [UInt64.toNat_shiftRight, UInt64.toNat_or, UInt64.toNat_shiftLeft, UInt32.toNat_toUInt64, shift_32,
    wide_join hhi hlo, Nat.shiftRight_eq_div_pow]
  omega

theorem wide_split (imm : UInt64) : (imm >>> 32).toUInt32.toUInt64 <<< 32 ||| imm.toUInt32.toUInt64 = imm := by
  have hlt := imm.toNat_lt
  have hhi : imm.toNat / 2 ^ 32 % 2 ^ 32 < 2 ^ 32 := Nat.mod_lt _ (by decide)
  have hlo : imm.toNat % 2 ^ 32 < 2 ^ 32 := Nat.mod_lt _ (by decide)
  rw [← UInt64.toNat_inj]
  simp only [UInt64.toNat_shiftRight, UInt64.toNat_or, UInt64.toNat_shiftLeft, UInt32.toNat_toUInt64,
    UInt64.toNat_toUInt32, shift_32, Nat.shiftRight_eq_div_pow, wide_join hhi hlo]
  omega

theorem parse_slots (dst : Reg) {src : UInt8} (lo hi : UInt32) (hsrc : src.toNat < 16) :
    parseLdImm64 (Fields.slot ⟨opcode.ldImm64, regField dst, src, 0, lo.toInt32⟩) (Fields.slot ⟨0, 0, 0, 0, hi.toInt32⟩) =
      ldImm64Arm dst src lo hi := by
  have hfirst := @Fields.slot_fields ⟨opcode.ldImm64, regField dst, src, 0, lo.toInt32⟩ (regField_lt dst) hsrc
  have hsecond := @Fields.slot_fields ⟨0, 0, 0, 0, hi.toInt32⟩ (by dsimp only; decide) (by dsimp only; decide)
  unfold parseLdImm64
  dsimp only
  rw [hfirst, hsecond]
  simp only [regOfNibble_regField, bind, Except.bind, ne_eq, not_true_eq_false, if_false, Fields.slot, or_false]
  rw [if_neg (by decide)]
  rfl

/-- The halves of a wide load are what its two slots decode to. -/
theorem halves_iff : Halves w s ↔ ∃ first second : Slot, first.b0 = opcode.ldImm64 ∧
    parseLdImm64 first second = .ok w ∧ s = .ldImm64Second second.fields.imm.toUInt32.toNat := by
  constructor
  · intro h
    have hslots : ∀ (dst : Reg) (src : UInt8) (lo hi : UInt32), src.toNat < 16 → ldImm64Arm dst src lo hi = .ok w →
        s = .ldImm64Second hi.toNat → ∃ first second : Slot, first.b0 = opcode.ldImm64 ∧
          parseLdImm64 first second = .ok w ∧ s = .ldImm64Second second.fields.imm.toUInt32.toNat := by
      intro dst src lo hi hsrc harm hs
      have hsecond := @Fields.slot_fields ⟨0, 0, 0, 0, hi.toInt32⟩ (by dsimp only; decide) (by dsimp only; decide)
      refine ⟨_, _, rfl, (parse_slots dst lo hi hsrc).trans harm, ?_⟩
      rw [hs, hsecond]
      rfl
    unfold Halves at h
    split at h
    · rename_i dst imm hi
      refine hslots dst 0 imm.toUInt32 (imm >>> 32).toUInt32 (by decide) ?_ ?_
      · rw [ldImm64Arm, if_pos rfl, wide_split]
      · have hlt := imm.toNat_lt
        rw [h]
        congr 1
        simp only [UInt64.toNat_toUInt32, UInt64.toNat_shiftRight, shift_32, Nat.shiftRight_eq_div_pow]
        omega
    · rename_i dst fd keySize valueSize mapType hi
      obtain ⟨hfd, rfl, rfl, rfl, rfl⟩ := h
      refine hslots dst 1 (UInt32.ofNat fd) 0 (by decide) ?_ rfl
      rw [ldImm64Arm, if_neg (by decide), if_pos (by decide), if_neg (by decide), UInt32.toNat_ofNat_of_lt' hfd]
    · rename_i dst fd offset keySize valueSize hi
      obtain ⟨hfd, hoff, rfl, rfl, rfl⟩ := h
      refine hslots dst 2 (UInt32.ofNat fd) (UInt32.ofNat hi) (by decide) ?_ ?_
      · rw [ldImm64Arm, if_neg (by decide), if_neg (by decide), if_pos (by decide), UInt32.toNat_ofNat_of_lt' hfd,
          UInt32.toNat_ofNat_of_lt' hoff]
      · rw [UInt32.toNat_ofNat_of_lt' hoff]
    · exact h.elim
  · rintro ⟨first, second, hcode, hparse, rfl⟩
    obtain ⟨dst, hdst, h⟩ := bind_eq_ok.mp hparse
    split_ifs at h with hoff hsec
    unfold ldImm64Arm at h
    split_ifs at h with h0 h1 hhi h2 <;> cases h
    · exact (wide_high _ _).symm
    · rw [not_not] at hhi
      rw [hhi]
      exact ⟨UInt32.toNat_lt _, rfl, rfl, rfl, rfl⟩
    · exact ⟨UInt32.toNat_lt _, UInt32.toNat_lt _, rfl, rfl, rfl⟩

end Halves

/-! ## Programs of pairs -/

/-- Instructions of one slot with a property, and intact pairs. -/
inductive Slotted (P : BpfInsn → Prop) : List BpfInsn → Prop
  | nil : Slotted P []
  | narrow {insn : BpfInsn} {insns : List BpfInsn} (hnarrow : insn.isHalf = false) (h : P insn)
      (hrest : Slotted P insns) : Slotted P (insn :: insns)
  | wide {w s : BpfInsn} {insns : List BpfInsn} (h : Halves w s) (hrest : Slotted P insns) : Slotted P (w :: s :: insns)

section Slotted

variable {P Q : BpfInsn → Prop} {l l₁ l₂ insns : List BpfInsn} {w s x : BpfInsn}

theorem Slotted.imp (h : Slotted P l) (hpq : ∀ insn ∈ l, insn.isHalf = false → P insn → Q insn) : Slotted Q l := by
  induction h with
  | nil => exact .nil
  | narrow hnarrow h _ ih =>
    exact .narrow hnarrow (hpq _ List.mem_cons_self hnarrow h) (ih fun i hi => hpq i (List.mem_cons_of_mem _ hi))
  | wide h _ ih => exact .wide h (ih fun i hi => hpq i (List.mem_cons_of_mem _ (List.mem_cons_of_mem _ hi)))

theorem Slotted.mem (h : Slotted P l) {insn : BpfInsn} (hin : insn ∈ l) (hnarrow : insn.isHalf = false) : P insn := by
  induction h with
  | nil => cases hin
  | narrow _ h _ ih =>
    rcases List.mem_cons.mp hin with rfl | hin
    · exact h
    · exact ih hin
  | wide h _ ih =>
    rcases List.mem_cons.mp hin with rfl | hin
    · rw [h.first] at hnarrow
      cases hnarrow
    · rcases List.mem_cons.mp hin with rfl | hin
      · rw [h.second] at hnarrow
        cases hnarrow
      · exact ih hin

theorem Slotted.append (h₁ : Slotted P l₁) (h₂ : Slotted P l₂) : Slotted P (l₁ ++ l₂) := by
  induction h₁ with
  | nil => exact h₂
  | narrow hnarrow h _ ih => exact .narrow hnarrow h ih
  | wide h _ ih => exact .wide h ih

theorem Slotted.tail (h : Slotted P (x :: l)) (hnarrow : x.isHalf = false) : Slotted P l := by
  cases h with
  | narrow _ _ hrest => exact hrest
  | wide hhalves _ =>
    rw [hhalves.first] at hnarrow
    cases hnarrow

theorem Slotted.second (h : Slotted P (x :: l)) (hhalf : x.isHalf = true) :
    ∃ s r, l = s :: r ∧ Halves x s ∧ Slotted P r := by
  cases h with
  | narrow hnarrow _ _ =>
    rw [hhalf] at hnarrow
    cases hnarrow
  | wide hhalves hrest => exact ⟨_, _, rfl, hhalves, hrest⟩

/-- After pairs that are intact the rest decides. -/
theorem Slotted.rest (h₁ : Slotted P l₁) : Slotted P (l₁ ++ l₂) ↔ Slotted P l₂ := by
  refine ⟨fun h => ?_, h₁.append⟩
  induction h₁ with
  | nil => exact h
  | narrow hnarrow _ _ ih => exact ih (h.tail hnarrow)
  | wide hhalves _ ih =>
    obtain ⟨s, r, heq, -, hr⟩ := h.second hhalves.first
    obtain ⟨-, hrest⟩ := List.cons.inj heq
    subst hrest
    exact ih hr

/-- A cut is clean or splits one pair. -/
theorem Slotted.cut (h : Slotted P (l₁ ++ l₂)) : (Slotted P l₁ ∧ Slotted P l₂) ∨
    ∃ l w s r, l₁ = l ++ [w] ∧ l₂ = s :: r ∧ Halves w s ∧ Slotted P l ∧ Slotted P r := by
  generalize hl : l₁ ++ l₂ = l at h
  induction h generalizing l₁ with
  | nil =>
    obtain ⟨rfl, rfl⟩ := List.append_eq_nil_iff.mp hl
    exact .inl ⟨.nil, .nil⟩
  | @narrow insn insns hnarrow h hrest ih =>
    cases l₁ with
    | nil =>
      rw [List.nil_append] at hl
      exact .inl ⟨.nil, hl ▸ .narrow hnarrow h hrest⟩
    | cons x l₁ =>
      obtain ⟨hx, htail⟩ := List.cons.inj hl
      subst hx
      rcases ih htail with ⟨h₁, h₂⟩ | ⟨l, w, s, r, rfl, hr, hhalves, h₁, h₂⟩
      · exact .inl ⟨.narrow hnarrow h h₁, h₂⟩
      · exact .inr ⟨x :: l, w, s, r, rfl, hr, hhalves, .narrow hnarrow h h₁, h₂⟩
  | @wide w s insns h hrest ih =>
    match l₁, hl with
    | [], hl =>
      rw [List.nil_append] at hl
      exact .inl ⟨.nil, hl ▸ .wide h hrest⟩
    | [x], hl =>
      obtain ⟨hx, htail⟩ := List.cons.inj hl
      subst hx
      exact .inr ⟨[], x, s, insns, rfl, htail, h, .nil, hrest⟩
    | x :: y :: l₁, hl =>
      obtain ⟨hx, htail⟩ := List.cons.inj hl
      obtain ⟨hy, hrest'⟩ := List.cons.inj htail
      subst hx hy
      rcases ih hrest' with ⟨h₁, h₂⟩ | ⟨l, w, s, r, rfl, hr, hhalves, h₁, h₂⟩
      · exact .inl ⟨.wide h h₁, h₂⟩
      · exact .inr ⟨x :: y :: l, w, s, r, rfl, hr, hhalves, .wide h h₁, h₂⟩

/-- What is decoded is paired. -/
theorem slotted_of_decode {remainder : List UInt8} {idx : Nat} {chunks : List Slot}
    (h : decodeChunks remainder idx chunks = .ok insns) : Slotted (fun insn => ∃ f, parseFields f = .ok insn) insns := by
  fun_induction decodeChunks remainder idx chunks generalizing insns with
  | case1 =>
    cases h
    exact .nil
  | case2 => cases h
  | case3 => cases h
  | case4 idx chunk hcode second rest ih =>
    obtain ⟨insn, hinsn, h⟩ := bind_eq_ok.mp h
    obtain ⟨tail, htail, h⟩ := bind_eq_ok.mp h
    cases h
    exact .wide (halves_iff.mpr ⟨chunk, second, hcode, mapError_eq_ok.mp hinsn, rfl⟩) (ih htail)
  | case5 idx chunk chunks hcode ih =>
    obtain ⟨insn, hinsn, h⟩ := bind_eq_ok.mp h
    obtain ⟨tail, htail, h⟩ := bind_eq_ok.mp h
    cases h
    have hparse := mapError_eq_ok.mp hinsn
    exact .narrow (parse_narrow hparse) ⟨_, hparse⟩ (ih htail)

theorem Slotted.slots (h : Slotted BpfInsn.Legal insns) : ∃ slots : List Slot,
    insns.mapM encode = some (slots.map Slot.bytes) ∧ ∀ idx, decodeChunks [] idx slots = .ok insns := by
  induction h with
  | nil => exact ⟨[], rfl, fun _ => rfl⟩
  | @narrow insn insns _ hlegal _ ih =>
    obtain ⟨slots, hslots, hdec⟩ := ih
    obtain ⟨f, hf, hparse⟩ := parse_legal hlegal
    obtain ⟨hd, hs⟩ := encodeFields_nibbles hf
    have hfields := Fields.slot_fields hd hs
    refine ⟨f.slot :: slots, ?_, fun idx => ?_⟩
    · rw [List.map_cons, mapM_cons_eq_some, encode, hf]
      exact ⟨rfl, hslots⟩
    · unfold decodeChunks
      rw [if_neg (show ¬ f.slot.b0 = opcode.ldImm64 from (narrow_code hparse hf).1), hfields, hparse, hdec (idx + 1)]
      rfl
  | @wide w s insns hhalves _ ih =>
    obtain ⟨slots, hslots, hdec⟩ := ih
    obtain ⟨first, second, hcode, hparse, rfl⟩ := halves_iff.mp hhalves
    obtain ⟨hfirst, hsecond, -, -⟩ := encode_wide hcode hparse
    refine ⟨first :: second :: slots, ?_, fun idx => ?_⟩
    · rw [List.map_cons, List.map_cons, mapM_cons_eq_some, mapM_cons_eq_some]
      exact ⟨hfirst, hsecond, hslots⟩
    · unfold decodeChunks
      rw [if_pos hcode]
      dsimp only
      rw [hparse, hdec (idx + 2)]
      rfl

theorem encodes_of_mem {chunks : List (List UInt8)} (h : insns.mapM encode = some chunks) (hin : x ∈ insns) :
    (encode x).isSome = true := by
  induction insns generalizing chunks with
  | nil => cases hin
  | cons insn insns ih =>
    rw [List.mapM_cons] at h
    obtain ⟨chunk, hchunk, h⟩ := Option.bind_eq_some_iff.mp h
    obtain ⟨rest, hrest, -⟩ := Option.bind_eq_some_iff.mp h
    rcases List.mem_cons.mp hin with rfl | hin
    · rw [hchunk]
      rfl
    · exact ih hrest hin

/-- The programs that decode from their own encoding. -/
theorem decodes_iff : Slotted BpfInsn.Legal insns ↔
    ∃ bytes, encodeProgram insns = some bytes ∧ decodeProgram bytes = .ok insns := by
  constructor
  · intro h
    obtain ⟨slots, hslots, hdec⟩ := h.slots
    refine ⟨(slots.map Slot.bytes).flatten, by rw [encodeProgram, hslots]; rfl, ?_⟩
    rw [decodeProgram, asChunks_flatten]
    exact hdec 0
  · rintro ⟨bytes, henc, hdec⟩
    obtain ⟨chunks, hchunks, -⟩ := Option.map_eq_some_iff.mp henc
    refine (slotted_of_decode hdec).imp fun insn hin _ hparse => legal_iff.mpr ⟨hparse, ?_⟩
    exact encodes_of_mem hchunks hin

end Slotted

end RandVerifier
