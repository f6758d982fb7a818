/-
  RandVerifier.Codec — what the encoder gives back of a decoded program.

  The decoder drops fields that it does not reserve: the immediate of a negation, the
  offset of an exit and of a packet load, the source nibble of an immediate store and the
  upper bytes of an atomic's immediate. It accepts a sign-extending 8-byte load, which the
  encoder calls unreachable. `Fields.Canonical` says that a slot has none of these.

  An accepted program encodes to its own bytes exactly when its slots are canonical
  (`encode_decode`); a program with the 8-byte load does not encode at all
  (`encode_ldsx_dw`).
-/

import RandVerifier.Decode
import RandVerifier.State

namespace RandVerifier

/-! ## Bytes and fields -/

theorem u16FromLe_toNat (b0 b1 : UInt8) :
    (u16FromLe b0 b1).toNat = b0.toNat + 2 ^ 8 * b1.toNat := by
  have h0 := b0.toNat_lt
  have h1 := b1.toNat_lt
  simp only [u16FromLe, UInt16.toNat_ofNat']
  omega

theorem u32FromLe_toNat (b0 b1 b2 b3 : UInt8) : (u32FromLe b0 b1 b2 b3).toNat =
    b0.toNat + 2 ^ 8 * b1.toNat + 2 ^ 16 * b2.toNat + 2 ^ 24 * b3.toNat := by
  have h0 := b0.toNat_lt
  have h1 := b1.toNat_lt
  have h2 := b2.toNat_lt
  have h3 := b3.toNat_lt
  simp only [u32FromLe, UInt32.toNat_ofNat']
  omega

theorem nibbles_join (b : UInt8) :
    (((b >>> 4) &&& 0x0f) <<< 4) ||| ((b &&& 0x0f) &&& 0x0f) = b := by
  have h : ∀ i : Fin 256, (((UInt8.ofNat i.val >>> 4) &&& 0x0f) <<< 4) |||
      ((UInt8.ofNat i.val &&& 0x0f) &&& 0x0f) = UInt8.ofNat i.val := by decide +kernel
  simpa using h ⟨b.toNat, b.toNat_lt⟩

theorem nibbles_split {dst src : UInt8} (hd : dst.toNat < 16) (hs : src.toNat < 16) :
    ((src <<< 4) ||| (dst &&& 0x0f)) &&& 0x0f = dst ∧
      (((src <<< 4) ||| (dst &&& 0x0f)) >>> 4) &&& 0x0f = src := by
  have h : ∀ i j : Fin 16,
      ((UInt8.ofNat j.val <<< 4) ||| (UInt8.ofNat i.val &&& 0x0f)) &&& 0x0f = UInt8.ofNat i.val ∧
      (((UInt8.ofNat j.val <<< 4) ||| (UInt8.ofNat i.val &&& 0x0f)) >>> 4) &&& 0x0f =
        UInt8.ofNat j.val := by decide
  simpa using h ⟨dst.toNat, hd⟩ ⟨src.toNat, hs⟩

theorem ofNat_byte_eq {n : Nat} {b : UInt8} (h : n % 256 = b.toNat) : UInt8.ofNat n = b := by
  rw [← UInt8.toNat_inj, UInt8.toNat_ofNat']
  exact h

/-- The bytes of a slot are those of its fields. -/
theorem Slot.fields_slot (s : Slot) : s.fields.slot = s := by
  obtain ⟨b0, b1, b2, b3, b4, b5, b6, b7⟩ := s
  have h2 := b2.toNat_lt
  have h3 := b3.toNat_lt
  have h4 := b4.toNat_lt
  have h5 := b5.toNat_lt
  have h6 := b6.toNat_lt
  have h7 := b7.toNat_lt
  simp only [Slot.fields, Fields.slot, UInt16.toUInt16_toInt16, UInt32.toUInt32_toInt32,
    u16FromLe_toNat, u32FromLe_toNat, nibbles_join, Slot.mk.injEq, true_and]
  refine ⟨?_, ?_, ?_, ?_, ?_, ?_⟩ <;> apply ofNat_byte_eq <;> omega

/-- Fields with nibbles for registers are those of their bytes. -/
theorem Fields.slot_fields {f : Fields} (hd : f.dst.toNat < 16) (hs : f.src.toNat < 16) :
    f.slot.fields = f := by
  obtain ⟨code, dst, src, off, imm⟩ := f
  obtain ⟨hdst, hsrc⟩ := nibbles_split hd hs
  have hoff := off.toUInt16.toNat_lt
  have himm := imm.toUInt32.toNat_lt
  simp only [Slot.fields, Fields.slot, Fields.mk.injEq, hdst, hsrc, true_and]
  constructor
  · have hle : u16FromLe (UInt8.ofNat off.toUInt16.toNat) (UInt8.ofNat (off.toUInt16.toNat / 2 ^ 8)) =
        off.toUInt16 := by
      rw [← UInt16.toNat_inj, u16FromLe_toNat, UInt8.toNat_ofNat', UInt8.toNat_ofNat']
      omega
    rw [hle, Int16.toInt16_toUInt16]
  · have hle : u32FromLe (UInt8.ofNat imm.toUInt32.toNat) (UInt8.ofNat (imm.toUInt32.toNat / 2 ^ 8))
        (UInt8.ofNat (imm.toUInt32.toNat / 2 ^ 16)) (UInt8.ofNat (imm.toUInt32.toNat / 2 ^ 24)) =
        imm.toUInt32 := by
      rw [← UInt32.toNat_inj, u32FromLe_toNat, UInt8.toNat_ofNat', UInt8.toNat_ofNat',
        UInt8.toNat_ofNat', UInt8.toNat_ofNat']
      omega
    rw [hle, Int32.toInt32_toUInt32]

theorem Slot.bytes_inj {s t : Slot} (h : s.bytes = t.bytes) : s = t := by
  obtain ⟨⟩ := s
  obtain ⟨⟩ := t
  simpa only [Slot.bytes, List.cons.injEq, and_true, Slot.mk.injEq] using h

/-! ## Canonical slots -/

/-- The opcodes of `BPF_ST`. -/
def stMemImmOpcodes : List UInt8 := [0x62, 0x6a, 0x72, 0x7a]

/-- The fields that the decoder drops are zero, and the opcode is not the sign-extending
    8-byte load. -/
structure Fields.Canonical (f : Fields) : Prop where
  neg : f.code = opcode.neg ∨ f.code = opcode.neg32 → f.imm = 0
  exit : f.code = opcode.exit → f.off = 0
  store : f.code ∈ stMemImmOpcodes → f.src = 0
  packet : f.code ∈ packetOpcodes → f.off = 0
  atomic : f.code = opcode.atomicW ∨ f.code = opcode.atomicDw → f.imm &&& 0xff = f.imm
  load : f.code ≠ 0x99

/-- The opcodes of the instructions that lose a field. -/
def lossyOpcodes : List UInt8 :=
  [opcode.neg, opcode.neg32, opcode.exit, opcode.atomicW, opcode.atomicDw, 0x99] ++
    stMemImmOpcodes ++ packetOpcodes

theorem canonical_of_code {f : Fields} (h : f.code ∉ lossyOpcodes) : f.Canonical where
  neg hc := by
    rcases hc with hc | hc <;> exact absurd (hc ▸ by decide) h
  exit hc := absurd (hc ▸ by decide) h
  store hc := absurd (by simp [lossyOpcodes, hc]) h
  packet hc := absurd (by simp [lossyOpcodes, hc]) h
  atomic hc := by
    rcases hc with hc | hc <;> exact absurd (hc ▸ by decide) h
  load hc := absurd (hc ▸ by decide) h

/-- A fact of every opcode of a table, by running through the table. -/
theorem forall_mem_of_all {α : Type} {l : List α} {P : α → Prop} [DecidablePred P]
    (h : l.all (fun a => decide (P a)) = true) : ∀ a ∈ l, P a := by
  intro a ha
  exact of_decide_eq_true (List.all_eq_true.mp h a ha)

theorem canonical_neg {f : Fields} (hcode : f.code = opcode.neg ∨ f.code = opcode.neg32) :
    f.Canonical ↔ f.imm = 0 := by
  refine ⟨fun h => h.neg hcode, fun h => ⟨fun _ => h, ?_, ?_, ?_, ?_, ?_⟩⟩ <;> intro hc <;>
    rcases hcode with hcode | hcode <;> rw [hcode] at hc <;> exact absurd hc (by decide)

theorem canonical_exit {f : Fields} (hcode : f.code = opcode.exit) : f.Canonical ↔ f.off = 0 := by
  refine ⟨fun h => h.exit hcode, fun h => ⟨?_, fun _ => h, ?_, ?_, ?_, ?_⟩⟩ <;> intro hc <;>
    rw [hcode] at hc <;> exact absurd hc (by decide)

theorem canonical_store {f : Fields} (hcode : f.code ∈ stMemImmOpcodes) :
    f.Canonical ↔ f.src = 0 := by
  have hne : ∀ c ∈ stMemImmOpcodes, (c ≠ opcode.neg ∧ c ≠ opcode.neg32 ∧ c ≠ opcode.exit) ∧
      (c ∉ packetOpcodes ∧ c ≠ opcode.atomicW ∧ c ≠ opcode.atomicDw) ∧ c ≠ 0x99 :=
    forall_mem_of_all (by decide)
  obtain ⟨⟨h1, h2, h3⟩, ⟨h4, h5, h6⟩, h7⟩ := hne f.code hcode
  refine ⟨fun h => h.store hcode, fun h => ⟨?_, ?_, fun _ => h, ?_, ?_, h7⟩⟩ <;> intro hc
  · rcases hc with hc | hc
    · exact absurd hc h1
    · exact absurd hc h2
  · exact absurd hc h3
  · exact absurd hc h4
  · rcases hc with hc | hc
    · exact absurd hc h5
    · exact absurd hc h6

theorem canonical_packet {f : Fields} (hcode : f.code ∈ packetOpcodes) :
    f.Canonical ↔ f.off = 0 := by
  have hne : ∀ c ∈ packetOpcodes, (c ≠ opcode.neg ∧ c ≠ opcode.neg32 ∧ c ≠ opcode.exit) ∧
      (c ∉ stMemImmOpcodes ∧ c ≠ opcode.atomicW ∧ c ≠ opcode.atomicDw) ∧ c ≠ 0x99 :=
    forall_mem_of_all (by decide)
  obtain ⟨⟨h1, h2, h3⟩, ⟨h4, h5, h6⟩, h7⟩ := hne f.code hcode
  refine ⟨fun h => h.packet hcode, fun h => ⟨?_, ?_, ?_, fun _ => h, ?_, h7⟩⟩ <;> intro hc
  · rcases hc with hc | hc
    · exact absurd hc h1
    · exact absurd hc h2
  · exact absurd hc h3
  · exact absurd hc h4
  · rcases hc with hc | hc
    · exact absurd hc h5
    · exact absurd hc h6

theorem canonical_atomic {f : Fields} (hcode : f.code = opcode.atomicW ∨ f.code = opcode.atomicDw) :
    f.Canonical ↔ f.imm &&& 0xff = f.imm := by
  refine ⟨fun h => h.atomic hcode, fun h => ⟨?_, ?_, ?_, ?_, fun _ => h, ?_⟩⟩ <;> intro hc <;>
    rcases hcode with hcode | hcode <;> rw [hcode] at hc <;> exact absurd hc (by decide)

/-! ## The arms of the decoder -/

theorem regOfNibble_ok {n : UInt8} {r : Reg} (h : regOfNibble n = .ok r) : regField r = n := by
  unfold regOfNibble at h
  split at h
  · cases h
    simp [regField]
  · cases h

theorem regField_lt (r : Reg) : (regField r).toNat < 16 := by
  have h := r.isLt
  simp only [regField, UInt8.toNat_ofNat']
  omega

theorem lookup_mem {α : Type} {op : UInt8} {v : α} {l : List (UInt8 × α)} (h : l.lookup op = some v) :
    (op, v) ∈ l := by
  induction l with
  | nil => cases h
  | cons e l ih =>
    rw [List.lookup_cons] at h
    split at h
    · rename_i heq
      cases h
      rw [eq_of_beq heq]
      exact List.mem_cons_self
    · exact List.mem_cons_of_mem _ (ih h)

/-- What an operand arm encodes to: the operand fields that the form does not use are zero. -/
def operandFields (op : UInt8) (dst src : Reg) (off : Int16) (imm : Int32) : Option Fields :=
  some ⟨op, regField dst, if isX op then regField src else 0, off, if isX op then 0 else imm⟩

theorem operandFields_eq {f : Fields} {dst src : Reg} (hd : regField dst = f.dst)
    (hs : regField src = f.src) (h : operandReserved f = false) :
    operandFields f.code dst src f.off f.imm = some f := by
  obtain ⟨code, d, s, off, imm⟩ := f
  simp only at hd hs
  simp only [operandReserved, Bool.or_eq_false_iff, Bool.and_eq_false_iff, bne_eq_false_iff_eq] at h
  simp only [operandFields, hd, hs]
  cases hx : isX code <;> simp_all

theorem encode_jumpArms {dst src : Reg} {imm : Int32} {off : Int16} :
    ∀ e ∈ jumpArms dst src imm off, encodeFields e.2 = operandFields e.1 dst src off imm := by
  simp only [jumpArms, List.forall_mem_cons]
  refine ⟨rfl, rfl, rfl, rfl, rfl, rfl, rfl, rfl, rfl, rfl, rfl, rfl, rfl, rfl, rfl, rfl, rfl, rfl, rfl,
    rfl, rfl, rfl, nofun⟩

/-- The immediate that an ALU instruction keeps. -/
def aluImmField (op : UInt8) (imm : Int32) : Int32 :=
  if op = opcode.neg ∨ op = opcode.neg32 then 0 else imm

theorem encode_aluArms {dst src : Reg} {imm : Int32} {high : MulHigh} :
    ∀ e ∈ aluArms dst src imm high, encodeFields e.2 =
      operandFields e.1 dst src (if isMul64 e.1 then high.toOff else 0) (aluImmField e.1 imm) := by
  simp only [aluArms, List.forall_mem_cons]
  repeat' apply And.intro
  all_goals first | rfl | nofun

theorem fromOff_toOff {off : Int16} {high : MulHigh} (h : MulHigh.fromOff off = some high) :
    high.toOff = off := by
  unfold MulHigh.fromOff at h
  split_ifs at h with h0 h1 h2 <;> cases h
  · exact h0.symm
  · exact h1.symm
  · exact h2.symm

/-- The encoding of an ALU arm keeps everything but the immediate of a negation. -/
theorem encode_parseAlu {f : Fields} {dst src : Reg} {insn : BpfInsn} (hd : regField dst = f.dst)
    (hs : regField src = f.src) (h : parseAlu f dst src = some (.ok insn)) :
    (encodeFields insn = some f ↔ f.Canonical) := by
  unfold parseAlu at h
  split at h
  · cases h
  · rename_i insn' hlook
    rw [Option.some.injEq] at h
    split_ifs at h with hres hdiv
    cases h
    rw [not_or, Bool.not_eq_true] at hres
    obtain ⟨hres, hhigh⟩ := hres
    obtain ⟨high, hhigh⟩ := Option.ne_none_iff_exists'.mp hhigh
    rw [hhigh, Option.getD_some] at hlook
    have hmem := lookup_mem hlook
    have henc := encode_aluArms _ hmem
    have hoff : (if isMul64 f.code then high.toOff else 0) = f.off := by
      unfold aluHigh at hhigh
      split_ifs at hhigh ⊢ with hmul h0
      · exact fromOff_toOff hhigh
      · exact h0.symm
    simp only [hoff] at henc
    rw [henc]
    have hcodes : ∀ c ∈ (aluArms dst src f.imm high).map Prod.fst,
        c = opcode.neg ∨ c = opcode.neg32 ∨ c ∉ lossyOpcodes := by
      show ∀ c ∈ (aluArms 0 0 0 .low).map Prod.fst, _
      exact forall_mem_of_all (by decide)
    have hbase := operandFields_eq hd hs hres
    by_cases hneg : f.code = opcode.neg ∨ f.code = opcode.neg32
    · have hx : isX f.code = false := by rcases hneg with hc | hc <;> rw [hc] <;> rfl
      rw [aluImmField, if_pos hneg]
      simp only [operandFields, hx, Bool.false_eq_true, if_false, Option.some.injEq] at hbase ⊢
      constructor
      · intro heq
        exact (canonical_neg hneg).mpr (by rw [← heq])
      · intro hcan
        rw [← hbase, ← hcan.neg hneg]
    · rw [aluImmField, if_neg hneg, hbase]
      have hcode := hcodes f.code (List.mem_map_of_mem hmem)
      refine ⟨fun _ => canonical_of_code ?_, fun _ => rfl⟩
      rcases hcode with hc | hc | hc
      · exact absurd (.inl hc) hneg
      · exact absurd (.inr hc) hneg
      · exact hc

theorem encode_jump {f : Fields} {dst src : Reg} {insn insn' : BpfInsn} {message : String}
    (hd : regField dst = f.dst) (hs : regField src = f.src)
    (hlook : (jumpArms dst src f.imm f.off).lookup f.code = some insn')
    (h : operandArm f message insn' = .ok insn) : (encodeFields insn = some f ↔ f.Canonical) := by
  unfold operandArm at h
  split_ifs at h with hres
  cases h
  rw [Bool.not_eq_true] at hres
  have hmem := lookup_mem hlook
  have hcodes : ∀ c ∈ (jumpArms dst src f.imm f.off).map Prod.fst, c ∉ lossyOpcodes := by
    show ∀ c ∈ (jumpArms 0 0 0 0).map Prod.fst, _
    exact forall_mem_of_all (by decide)
  rw [encode_jumpArms _ hmem, operandFields_eq hd hs hres]
  exact ⟨fun _ => canonical_of_code (hcodes _ (List.mem_map_of_mem hmem)), fun _ => rfl⟩

/-- A 32-bit comparison's opcode is that of its operation and form. -/
theorem jmp32Opcodes_of_op {c : UInt8} {op : Jmp32Op} (hclass : c &&& 0x07 = 0x06)
    (hop : jmp32OpOf c = some op) :
    (if isX c then (jmp32Opcodes op).1 else (jmp32Opcodes op).2) = c ∧ c ∉ lossyOpcodes := by
  have h : ∀ i : Fin 256, UInt8.ofNat i.val &&& 0x07 = 0x06 →
      (jmp32OpOf (UInt8.ofNat i.val)).all (fun op =>
        (if isX (UInt8.ofNat i.val) then (jmp32Opcodes op).1 else (jmp32Opcodes op).2) ==
          UInt8.ofNat i.val && decide (UInt8.ofNat i.val ∉ lossyOpcodes)) = true := by
    decide +kernel
  have hc := h ⟨c.toNat, c.toNat_lt⟩
  simp only [UInt8.ofNat_toNat, hop, Option.all_some, Bool.and_eq_true, beq_iff_eq,
    decide_eq_true_eq] at hc
  exact hc hclass

theorem encode_jmp32 {f : Fields} {dst src : Reg} {insn insn' : BpfInsn} {message : String}
    (hd : regField dst = f.dst) (hs : regField src = f.src) (harm : jmp32Arm f dst src = some insn')
    (h : operandArm f message insn' = .ok insn) : (encodeFields insn = some f ↔ f.Canonical) := by
  unfold operandArm at h
  split_ifs at h with hres
  cases h
  rw [Bool.not_eq_true] at hres
  unfold jmp32Arm at harm
  by_cases hclass : f.code &&& 0x07 = 0x06
  · rw [if_pos hclass] at harm
    obtain ⟨op, hop, rfl⟩ := Option.map_eq_some_iff.mp harm
    obtain ⟨heq, hkeep⟩ := jmp32Opcodes_of_op hclass hop
    rw [← operandFields_eq hd hs hres]
    refine ⟨fun _ => canonical_of_code hkeep, fun _ => ?_⟩
    cases hx : isX f.code with
    | true =>
      rw [if_pos hx] at heq
      simp only [if_true, encodeFields, xForm, operandFields, hx, heq]
    | false =>
      rw [hx, if_neg Bool.false_ne_true] at heq
      simp only [Bool.false_eq_true, if_false, encodeFields, kForm, operandFields, hx, heq]
  · rw [if_neg hclass] at harm
    cases harm

theorem encode_packetLoad {f : Fields} {src : Reg} {insn : BpfInsn} (hs : regField src = f.src)
    (hmem : f.code ∈ packetOpcodes) (h : parsePacketLoad f src = .ok insn) :
    (encodeFields insn = some f ↔ f.Canonical) := by
  have hcodes : ∀ c ∈ packetOpcodes, (c < 0x40 → ldAbsOpcode (memSizeOf c) = c) ∧
      (¬ c < 0x40 → ldIndOpcode (memSizeOf c) = c) := forall_mem_of_all (by decide)
  obtain ⟨habs, hind⟩ := hcodes f.code hmem
  rw [canonical_packet hmem]
  obtain ⟨code, d, s, off, imm⟩ := f
  simp only at hs habs hind
  unfold parsePacketLoad at h
  split_ifs at h with hdst hlow hsrc <;> cases h
  · simp only [ne_eq, not_not] at hdst hsrc
    simp [encodeFields, habs hlow, hdst, hsrc, eq_comm]
  · simp only [ne_eq, not_not] at hdst
    simp [encodeFields, hind hlow, hdst, hs, eq_comm]

theorem encode_call {f : Fields} {insn : BpfInsn} (hcode : f.code = opcode.call)
    (h : parseCall f = .ok insn) : (encodeFields insn = some f ↔ f.Canonical) := by
  have hcan : f.Canonical := canonical_of_code (hcode ▸ by decide)
  refine ⟨fun _ => hcan, fun _ => ?_⟩
  obtain ⟨code, d, s, off, imm⟩ := f
  simp only at hcode
  unfold parseCall at h
  split_ifs at h with hres h0 h1 h2 <;> cases h <;>
    simp only [ne_eq, not_or, not_not] at hres <;>
    simp_all [encodeFields]

theorem encode_jmp {f : Fields} {insn : BpfInsn} {message : String} (hcode : f.code = opcode.jmp)
    (h : parseBare f message (.jmp f.off) = .ok insn) : (encodeFields insn = some f ↔ f.Canonical) := by
  have hcan : f.Canonical := canonical_of_code (hcode ▸ by decide)
  refine ⟨fun _ => hcan, fun _ => ?_⟩
  obtain ⟨code, d, s, off, imm⟩ := f
  unfold parseBare at h
  split_ifs at h with hres
  cases h
  simp only [ne_eq, not_or, not_not] at hres hcode
  simp [encodeFields, hcode, hres]

theorem encode_exit {f : Fields} {insn : BpfInsn} {message : String} (hcode : f.code = opcode.exit)
    (h : parseBare f message .exit = .ok insn) : (encodeFields insn = some f ↔ f.Canonical) := by
  rw [canonical_exit hcode]
  obtain ⟨code, d, s, off, imm⟩ := f
  unfold parseBare at h
  split_ifs at h with hres
  cases h
  simp only [ne_eq, not_or, not_not] at hres hcode
  simp [encodeFields, hcode, hres, eq_comm]

theorem encode_mem {f : Fields} {dst src : Reg} {insn : BpfInsn} (hd : regField dst = f.dst)
    (hs : regField src = f.src) (hmem : isMemOpcode f.code = true)
    (h : parseMem f dst src = .ok insn) : (encodeFields insn = some f ↔ f.Canonical) := by
  have hcodes : ∀ i : Fin 256, isMemOpcode (UInt8.ofNat i.val) = true →
      (UInt8.ofNat i.val &&& 0x07 = 0x01 →
        ldMemOpcode (memSizeOf (UInt8.ofNat i.val)) (UInt8.ofNat i.val &&& 0xe0 == 0x80) =
          (if UInt8.ofNat i.val = 0x99 then none else some (UInt8.ofNat i.val)) ∧
        (UInt8.ofNat i.val ≠ 0x99 → UInt8.ofNat i.val ∉ lossyOpcodes)) ∧
      (UInt8.ofNat i.val &&& 0x07 = 0x02 →
        stMemImmOpcode (memSizeOf (UInt8.ofNat i.val)) = UInt8.ofNat i.val ∧
        UInt8.ofNat i.val ∈ stMemImmOpcodes) ∧
      (UInt8.ofNat i.val &&& 0x07 = 0x03 →
        stMemOpcode (memSizeOf (UInt8.ofNat i.val)) = UInt8.ofNat i.val ∧
        UInt8.ofNat i.val ∉ lossyOpcodes) := by
    decide +kernel
  have hcode := hcodes ⟨f.code.toNat, f.code.toNat_lt⟩
  simp only [UInt8.ofNat_toNat] at hcode
  obtain ⟨hld, himm, hst⟩ := hcode hmem
  obtain ⟨code, d, s, off, imm⟩ := f
  simp only at hd hs hld himm hst
  unfold parseMem at h
  simp only at h
  split_ifs at h with hres h1 h2 h3 <;> cases h
  · obtain ⟨hop, hkeep⟩ := hld h1
    have himm0 : imm = 0 := by
      by_contra hne
      exact hres ⟨hne, by rw [h1]; decide⟩
    simp only [encodeFields, hop]
    by_cases h99 : code = 0x99
    · rw [if_pos h99, Option.bind_none]
      exact ⟨nofun, fun hcan => absurd h99 hcan.load⟩
    · rw [if_neg h99, Option.bind_some]
      refine ⟨fun _ => canonical_of_code (hkeep h99), fun _ => ?_⟩
      rw [xForm, hd, hs, himm0]
  · obtain ⟨hop, hkeep⟩ := himm h2
    rw [canonical_store hkeep]
    simp [encodeFields, kForm, hop, hd, eq_comm]
  · obtain ⟨hop, hkeep⟩ := hst h3
    have himm0 : imm = 0 := by
      by_contra hne
      exact hres ⟨hne, h2⟩
    refine ⟨fun _ => canonical_of_code hkeep, fun _ => ?_⟩
    rw [encodeFields, xForm, hop, hd, hs, himm0]

/-! ## Atomics -/

theorem and_or_and (x a b : Int32) : (x &&& a) ||| (x &&& b) = x &&& (a ||| b) := by
  rw [← Int32.toBitVec_inj]
  apply BitVec.eq_of_getLsbD_eq
  intro i hi
  simp only [Int32.toBitVec_or, Int32.toBitVec_and, BitVec.getLsbD_or, BitVec.getLsbD_and]
  cases x.toBitVec.getLsbD i <;> simp

theorem and_one (x : Int32) : (if x &&& 1 != 0 then 1 else 0) = x &&& 1 := by
  have hbit : x &&& 1 = 0 ∨ x &&& 1 = 1 := by
    have h : (x &&& 1).toBitVec = (BitVec.ofBool (x.toBitVec.getLsbD 0)).setWidth 32 := by
      rw [Int32.toBitVec_and]
      exact BitVec.and_one_eq_setWidth_ofBool_getLsbD
    simp only [← Int32.toBitVec_inj, h]
    cases x.toBitVec.getLsbD 0
    · exact .inl rfl
    · exact .inr rfl
  rcases hbit with h | h <;> rw [h] <;> rfl

theorem fromImm_toImm {imm : Int32} {op : AtomicOp} (h : AtomicOp.fromImm imm = some op) :
    op.toImm = imm &&& 0xf0 := by
  unfold AtomicOp.fromImm at h
  simp only [List.lookup_cons, List.lookup_nil] at h
  repeat' split at h
  all_goals first | (cases h; rename_i heq; exact (eq_of_beq heq).symm) | cases h

/-- The low byte of an atomic's immediate is its operation and its fetch flag. -/
theorem atomicImm_eq {imm : Int32} {op : AtomicOp} (hres : imm &&& 0x0e = 0)
    (hop : AtomicOp.fromImm imm = some op) :
    op.toImm ||| (if imm &&& opcode.fetch != 0 then 1 else 0) = imm &&& 0xff := by
  have hand := and_or_and imm (0xf0 ||| 0x0e) 1
  calc op.toImm ||| (if imm &&& opcode.fetch != 0 then 1 else 0)
      = (imm &&& 0xf0) ||| (imm &&& 0x0e) ||| (imm &&& 1) := by
        rw [fromImm_toImm hop, hres, opcode.fetch, and_one, Int32.or_zero]
    _ = imm &&& 0xff := by rw [and_or_and, and_or_and]; rfl

theorem encode_atomic {f : Fields} {dst src : Reg} {insn : BpfInsn} (hd : regField dst = f.dst)
    (hs : regField src = f.src) (hcode : f.code = opcode.atomicW ∨ f.code = opcode.atomicDw)
    (h : parseAtomic f dst src = .ok insn) : (encodeFields insn = some f ↔ f.Canonical) := by
  rw [canonical_atomic hcode]
  have hsize : (if (if f.code = opcode.atomicW then MemSize.w else .dw) = .w then opcode.atomicW
      else opcode.atomicDw) = f.code := by
    rcases hcode with hc | hc <;> rw [hc] <;> rfl
  obtain ⟨code, d, s, off, imm⟩ := f
  dsimp only [parseAtomic] at hd hs h hsize ⊢
  by_cases hres : imm &&& 0x0e ≠ 0
  · rw [if_pos hres] at h
    cases h
  · rw [if_neg hres] at h
    split at h
    · cases h
    · rename_i op hop
      by_cases hfetch : (op.requiresFetch && !(imm &&& opcode.fetch != 0)) = true
      · rw [if_pos hfetch] at h
        cases h
      · rw [if_neg hfetch] at h
        cases h
        simp only [encodeFields, hsize, atomicImm_eq (not_not.mp hres) hop, hd, hs, Option.some.injEq,
          Fields.mk.injEq, true_and]

/-! ## One slot -/

theorem encode_parseFields {f : Fields} {insn : BpfInsn} (h : parseFields f = .ok insn) :
    (encodeFields insn = some f ↔ f.Canonical) := by
  obtain ⟨dst, hdst, h⟩ := bind_eq_ok.mp h
  obtain ⟨src, hsrc, h⟩ := bind_eq_ok.mp h
  have hd := regOfNibble_ok hdst
  have hs := regOfNibble_ok hsrc
  unfold parseArms at h
  split at h
  · rename_i result halu
    exact encode_parseAlu hd hs (h ▸ halu)
  · split at h
    · exact encode_jump hd hs (by assumption) h
    · split at h
      · exact encode_jmp32 hd hs (by assumption) h
      · split_ifs at h with h1 h2 h3 h4 h5 h6 h7
        · exact encode_packetLoad hs h1 h
        · exact encode_jmp h2 h
        · exact encode_call h3 h
        · exact encode_exit h4 h
        · exact encode_mem hd hs h6 h
        · exact encode_atomic hd hs h7 h
        · split at h <;> cases h

theorem kForm_nibbles {code : UInt8} {dst : Reg} {off : Int16} {imm : Int32} {f : Fields}
    (h : kForm code dst off imm = some f) : f.dst.toNat < 16 ∧ f.src.toNat < 16 := by
  cases h
  refine ⟨regField_lt _, ?_⟩
  dsimp only
  decide

theorem xForm_nibbles {code : UInt8} {dst src : Reg} {off : Int16} {f : Fields}
    (h : xForm code dst src off = some f) : f.dst.toNat < 16 ∧ f.src.toNat < 16 := by
  cases h
  exact ⟨regField_lt _, regField_lt _⟩

/-- The nibbles of an encoding are registers, or the pseudo sources. -/
theorem encodeFields_nibbles {insn : BpfInsn} {f : Fields} (h : encodeFields insn = some f) :
    f.dst.toNat < 16 ∧ f.src.toNat < 16 := by
  cases insn with
  | jmp32 dst src imm offset op =>
    simp only [encodeFields] at h
    split at h
    · exact xForm_nibbles h
    · exact kForm_nibbles h
    · cases h
  | ldMem dst base offset size signExtend =>
    obtain ⟨code, -, h⟩ := Option.bind_eq_some_iff.mp h
    exact xForm_nibbles h
  | atomic | ldAbs | ldInd | ldMapFd | ldMapValue | ldImm64Second | jmp | call | callSub | callKfunc
  | exit =>
    cases h
    constructor <;> first | exact regField_lt _ | (dsimp only; decide)
  | _ => first | exact kForm_nibbles h | exact xForm_nibbles h

theorem encode_eq_some {insn : BpfInsn} {s : Slot} :
    encode insn = some s.bytes ↔ encodeFields insn = some s.fields := by
  unfold encode
  constructor
  · intro h
    obtain ⟨f, hf, hbytes⟩ := Option.map_eq_some_iff.mp h
    obtain ⟨hd, hs⟩ := encodeFields_nibbles hf
    rw [hf, ← Slot.bytes_inj hbytes, Fields.slot_fields hd hs]
  · intro h
    rw [h, Option.map_some, Slot.fields_slot]

theorem encode_slot {s : Slot} {insn : BpfInsn} (h : parseFields s.fields = .ok insn) :
    (encode insn = some s.bytes ↔ s.fields.Canonical) := by
  rw [encode_eq_some]
  exact encode_parseFields h

/-! ## Wide loads -/

theorem wide_low (hi lo : UInt32) : (hi.toUInt64 <<< 32 ||| lo.toUInt64).toUInt32 = lo := by
  rw [← UInt32.toBitVec_inj]
  apply BitVec.eq_of_getLsbD_eq
  intro i hi'
  simp [hi']

/-- A wide load keeps both of its slots. -/
theorem encode_wide {first second : Slot} {insn : BpfInsn} (hcode : first.b0 = opcode.ldImm64)
    (h : parseLdImm64 first second = .ok insn) :
    encode insn = some first.bytes ∧
      encode (.ldImm64Second second.fields.imm.toUInt32.toNat) = some second.bytes ∧
      first.fields.Canonical ∧ second.fields.Canonical := by
  dsimp only [parseLdImm64] at h
  obtain ⟨dst, hdst, h⟩ := bind_eq_ok.mp h
  have hd := regOfNibble_ok hdst
  split_ifs at h with hoff hsec
  simp only [ne_eq, not_or, not_not] at hoff hsec
  obtain ⟨hb0, hb1, hoff2⟩ := hsec
  have hcode' : first.fields.code = opcode.ldImm64 := hcode
  have hcode2 : second.fields.code = 0 := hb0
  refine ⟨encode_eq_some.mpr ?_, encode_eq_some.mpr ?_, canonical_of_code (hcode' ▸ by decide),
    canonical_of_code (hcode2 ▸ by decide)⟩
  · generalize first.fields = f at hd hoff hcode' h
    obtain ⟨code, d, s, off, imm⟩ := f
    simp only at hd hoff hcode' h
    unfold ldImm64Arm at h
    split_ifs at h with h0 h1 hhi h2 <;> cases h
    · have hlow := wide_low second.fields.imm.toUInt32 imm.toUInt32
      simp [encodeFields, kForm, hlow, hd, h0, hoff, hcode']
    · simp [encodeFields, hd, h1, hoff, hcode']
    · simp [encodeFields, hd, h2, hoff, hcode']
  · have hregs : second.fields.dst = 0 ∧ second.fields.src = 0 := by
      simp only [Slot.fields, hb1]
      decide
    generalize second.fields = f at hregs hoff2 hcode2
    obtain ⟨code, d, s, off, imm⟩ := f
    simp only at hregs hoff2 hcode2
    simp [encodeFields, hregs, hoff2, hcode2]

/-! ## Programs -/

theorem asChunks_bytes (bytes : List UInt8) :
    ((asChunks bytes).1.map Slot.bytes).flatten ++ (asChunks bytes).2 = bytes := by
  fun_induction asChunks bytes with
  | case1 b0 b1 b2 b3 b4 b5 b6 b7 rest chunks remainder heq ih =>
    rw [heq] at ih
    simp only [List.map_cons, List.flatten_cons, Slot.bytes, List.append_assoc, ih]
    rfl
  | case2 short => rfl

theorem mapError_eq_ok {ε ε' α : Type} {f : ε → ε'} {x : Except ε α} {a : α} :
    x.mapError f = .ok a ↔ x = .ok a := by
  cases x <;> simp [Except.mapError]

theorem mapM_cons_eq_some {α β : Type} {f : α → Option β} {x : α} {xs : List α} {y : β}
    {ys : List β} : (x :: xs).mapM f = some (y :: ys) ↔ f x = some y ∧ xs.mapM f = some ys := by
  rw [List.mapM_cons]
  cases f x with
  | none => simp
  | some z => cases xs.mapM f <;> simp

/-- The encodings of an accepted program are its slots when the slots are canonical. -/
theorem encode_decodeChunks {remainder : List UInt8} {idx : Nat} {chunks : List Slot}
    {insns : List BpfInsn} (h : decodeChunks remainder idx chunks = .ok insns) :
    remainder = [] ∧ (insns.mapM encode = some (chunks.map Slot.bytes) ↔
      ∀ s ∈ chunks, s.fields.Canonical) := by
  fun_induction decodeChunks remainder idx chunks generalizing insns with
  | case1 idx hrem =>
    cases h
    exact ⟨hrem, by simp⟩
  | case2 => cases h
  | case3 => cases h
  | case4 idx chunk hcode second rest ih =>
    obtain ⟨insn, hinsn, h⟩ := bind_eq_ok.mp h
    obtain ⟨tail, htail, h⟩ := bind_eq_ok.mp h
    cases h
    obtain ⟨hfirst, hsecond, hcan, hcan2⟩ := encode_wide hcode (mapError_eq_ok.mp hinsn)
    obtain ⟨hrem, hiff⟩ := ih htail
    refine ⟨hrem, ?_⟩
    rw [List.map_cons, List.map_cons, mapM_cons_eq_some, mapM_cons_eq_some, hiff,
      List.forall_mem_cons, List.forall_mem_cons]
    exact ⟨fun h => ⟨hcan, hcan2, h.2.2⟩, fun h => ⟨hfirst, hsecond, h.2.2⟩⟩
  | case5 idx chunk chunks hcode ih =>
    obtain ⟨insn, hinsn, h⟩ := bind_eq_ok.mp h
    obtain ⟨tail, htail, h⟩ := bind_eq_ok.mp h
    cases h
    obtain ⟨hrem, hiff⟩ := ih htail
    refine ⟨hrem, ?_⟩
    rw [List.map_cons, mapM_cons_eq_some, hiff, encode_slot (mapError_eq_ok.mp hinsn),
      List.forall_mem_cons]

theorem mem_of_mapM {α β : Type} {f : α → Option β} {xs : List α} {ys : List β} {y : β}
    (h : xs.mapM f = some ys) (hy : y ∈ ys) : ∃ x ∈ xs, f x = some y := by
  induction xs generalizing ys with
  | nil =>
    cases h
    cases hy
  | cons x xs ih =>
    cases ys with
    | nil => cases hy
    | cons z ys =>
      obtain ⟨hx, hxs⟩ := mapM_cons_eq_some.mp h
      rcases List.mem_cons.mp hy with rfl | hy
      · exact ⟨x, List.mem_cons_self, hx⟩
      · obtain ⟨w, hw, hwy⟩ := ih hxs hy
        exact ⟨w, List.mem_cons_of_mem _ hw, hwy⟩

theorem flatten_inj_of_length {n : Nat} (hn : 0 < n) {l l' : List (List UInt8)}
    (hl : ∀ x ∈ l, x.length = n) (hl' : ∀ x ∈ l', x.length = n) (h : l.flatten = l'.flatten) :
    l = l' := by
  induction l generalizing l' with
  | nil =>
    cases l' with
    | nil => rfl
    | cons y l' =>
      have hy := hl' y List.mem_cons_self
      have hlen := congrArg List.length h
      simp only [List.flatten_nil, List.flatten_cons, List.length_nil, List.length_append] at hlen
      omega
  | cons x l ih =>
    have hx := hl x List.mem_cons_self
    cases l' with
    | nil =>
      have hlen := congrArg List.length h
      simp only [List.flatten_nil, List.flatten_cons, List.length_nil, List.length_append] at hlen
      omega
    | cons y l' =>
      have hy := hl' y List.mem_cons_self
      rw [List.flatten_cons, List.flatten_cons] at h
      obtain ⟨hxy, hrest⟩ := List.append_inj h (by omega)
      rw [hxy, ih (fun z hz => hl z (List.mem_cons_of_mem _ hz))
        (fun z hz => hl' z (List.mem_cons_of_mem _ hz)) hrest]

/-- An accepted program encodes to its own bytes exactly when its slots are canonical. -/
theorem encode_decode {bytes : List UInt8} {insns : List BpfInsn}
    (h : decodeProgram bytes = .ok insns) :
    encodeProgram insns = some bytes ↔ ∀ s ∈ (asChunks bytes).1, s.fields.Canonical := by
  obtain ⟨hrem, hiff⟩ := encode_decodeChunks h
  rw [← hiff]
  have hbytes := asChunks_bytes bytes
  rw [hrem, List.append_nil] at hbytes
  unfold encodeProgram
  constructor
  · intro henc
    obtain ⟨l, hl, hflat⟩ := Option.map_eq_some_iff.mp henc
    have hlen : ∀ x ∈ l, x.length = 8 := by
      intro x hx
      obtain ⟨insn, -, hinsn⟩ := mem_of_mapM hl hx
      obtain ⟨f, -, rfl⟩ := Option.map_eq_some_iff.mp hinsn
      rfl
    have hlen' : ∀ x ∈ (asChunks bytes).1.map Slot.bytes, x.length = 8 := by
      intro x hx
      obtain ⟨s, -, rfl⟩ := List.mem_map.mp hx
      rfl
    rw [hl, flatten_inj_of_length (by decide) hlen hlen' (hflat.trans hbytes.symm)]
  · intro henc
    rw [henc, Option.map_some, hbytes]

/-- A negation and an exit, every slot canonical. -/
theorem encode_decode_neg :
    encodeProgram [.neg 0, .exit] =
        some [0x87, 0, 0, 0, 0, 0, 0, 0, 0x95, 0, 0, 0, 0, 0, 0, 0] ↔
      ∀ s ∈ (asChunks [0x87, 0, 0, 0, 0, 0, 0, 0, 0x95, 0, 0, 0, 0, 0, 0, 0]).1,
        s.fields.Canonical :=
  encode_decode (by decide)

/-- The encoder has no encoding of the sign-extending 8-byte load. -/
theorem encode_ldsx_dw : ¬ ∀ bytes insns, decodeProgram bytes = .ok insns →
    encodeProgram insns = some bytes := by
  intro h
  have henc := h [0x99, 0xa0, 0xf8, 0xff, 0, 0, 0, 0, 0x95, 0, 0, 0, 0, 0, 0, 0]
    [.ldMem 0 10 (-8) .dw true, .exit] (by decide)
  revert henc
  decide

end RandVerifier
