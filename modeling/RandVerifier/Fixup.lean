/-
  RandVerifier.Fixup — deleting instructions from a program (`src/fuzz/reduce/fixup.rs`).

  The reducer decodes the program, drops the removed positions, encodes what is left and
  re-bases the offsets of the jumps it knows: `JA` and the 64-bit comparisons. It forgets
  `JSET`, the 32-bit comparisons and the subprogram calls, whose offsets stay, and it does not
  look at the pairs of slots of a wide load.

  - `decode_fixed`: unless a pair is split, the output decodes to the survivors.
  - `delete_insns_correct`: exactly when every transfer keeps its target.
  - `delete_insns_jset`: a `JSET` over a deleted instruction jumps too far.
-/

import RandVerifier.Codec
import RandVerifier.Liveness
import Mathlib.Data.Nat.Count

namespace RandVerifier

/-! ## The deletion -/

namespace Fixup

/-- A deletion that returns `None`, and an encoding that is `unreachable!`. -/
inductive Stop where
  | rejected
  | unreachable
  deriving DecidableEq, Repr

/-- The new index of each old one, `none` where it is removed. -/
def newIndices (removed : List Nat) : Nat → Nat → Nat → List (Option Nat)
  | _, _, 0 => []
  | old, next, n + 1 =>
    if old ∈ removed then none :: newIndices removed (old + 1) next n
    else some next :: newIndices removed (old + 1) (next + 1) n

/-- The code offset of the jumps that are re-based. -/
def branchOffset : BpfInsn → Option Int16
  | .jmp o => some o
  | .jeq _ _ o | .jne _ _ o | .jgt _ _ o | .jge _ _ o | .jlt _ _ o | .jle _ _ o | .jsgt _ _ o
  | .jsge _ _ o | .jslt _ _ o | .jsle _ _ o | .jeqImm _ _ o | .jneImm _ _ o | .jgtImm _ _ o
  | .jgeImm _ _ o | .jltImm _ _ o | .jleImm _ _ o | .jsgtImm _ _ o | .jsgeImm _ _ o
  | .jsltImm _ _ o | .jsleImm _ _ o => some o
  | _ => none

/-- `chunk[2..4] = off`. -/
def setOffset (chunk : List UInt8) (off : Int16) : List UInt8 :=
  let off := off.toUInt16.toNat
  chunk.take 2 ++ [UInt8.ofNat off, UInt8.ofNat (off / 2 ^ 8)] ++ chunk.drop 4

/-- The offset from a new index to the new index of the target. -/
def rebase (len : Nat) (newIndex : List (Option Nat)) (old newIdx : Nat) (offset : Int16) :
    Except Stop Int16 :=
  let target : Int := old + 1 + offset.toInt
  if target < 0 ∨ len ≤ target then .error .rejected
  else match newIndex[target.toNat]?.join with
    | none => .error .rejected
    | some newTarget =>
      let newOff : Int := newTarget - newIdx - 1
      if -2 ^ 15 ≤ newOff ∧ newOff < 2 ^ 15 then .ok (Int16.ofInt newOff) else .error .rejected

/-- The bytes of a surviving instruction. -/
def fixChunk (len : Nat) (newIndex : List (Option Nat)) (old newIdx : Nat) (insn : BpfInsn) :
    Except Stop (List UInt8) :=
  match encode insn with
  | none => .error .unreachable
  | some chunk =>
    match branchOffset insn with
    | none => .ok chunk
    | some offset => (rebase len newIndex old newIdx offset).map (setOffset chunk)

/-- The bytes of the survivors, from an old index on. -/
def fixChunks (len : Nat) (newIndex : List (Option Nat)) : Nat → List BpfInsn → Except Stop (List UInt8)
  | _, [] => .ok []
  | old, insn :: insns =>
    match newIndex[old]?.join with
    | none => fixChunks len newIndex (old + 1) insns
    | some newIdx => do
      let chunk ← fixChunk len newIndex old newIdx insn
      let rest ← fixChunks len newIndex (old + 1) insns
      .ok (chunk ++ rest)

/-- Delete a set of instructions, given unsorted and with duplicates. -/
def deleteInsns (bytes : List UInt8) (remove : List Nat) : Except Stop (List UInt8) :=
  let len := bytes.length / 8
  if bytes.length % 8 ≠ 0 ∨ bytes = [] then .error .rejected
  else match decodeProgram bytes with
    | .error _ => .error .rejected
    | .ok insns =>
      if remove.any (fun i => decide (len ≤ i)) then .error .rejected
      else fixChunks len (newIndices remove 0 0 len) 0 insns

end Fixup

/-! ## Decoding an encoding -/

theorem regOfNibble_regField (r : Reg) : regOfNibble (regField r) = .ok r := by
  revert r
  decide

theorem regOfNibble_zero : regOfNibble 0 = .ok 0 := by decide

theorem reserved_x {code d s : UInt8} {o : Int16} (h : isX code = true) :
    operandReserved ⟨code, d, s, o, 0⟩ = false := by
  simp [operandReserved, h]

theorem reserved_k {code d : UInt8} {o : Int16} {imm : Int32} (h : isX code = false) :
    operandReserved ⟨code, d, 0, o, imm⟩ = false := by
  simp [operandReserved, h]

theorem parse_jump {f : Fields} {dst src : Reg} {insn : BpfInsn} (hd : regOfNibble f.dst = .ok dst)
    (hs : regOfNibble f.src = .ok src) (halu : parseAlu f dst src = none)
    (hjump : (jumpArms dst src f.imm f.off).lookup f.code = some insn) (hres : operandReserved f = false) :
    parseFields f = .ok insn := by
  simp only [parseFields, hd, hs, parseArms, halu, hjump, operandArm, hres, bind, Except.bind]
  rfl

section Arms

variable {code d s : UInt8} {off : Int16} {imm : Int32} {dst src : Reg}

/-- The arms behind the ALU operations and the comparisons. -/
theorem parseArms_rest (halu : parseAlu ⟨code, d, s, off, imm⟩ dst src = none)
    (hjump : (jumpArms dst src imm off).lookup code = none) (h32 : code &&& 0x07 ≠ 0x06) :
    parseArms ⟨code, d, s, off, imm⟩ dst src =
      (if code ∈ packetOpcodes then parsePacketLoad ⟨code, d, s, off, imm⟩ src
      else if code = opcode.jmp then
        parseBare ⟨code, d, s, off, imm⟩ "BPF_JA uses reserved fields" (.jmp off)
      else if code = opcode.call then parseCall ⟨code, d, s, off, imm⟩
      else if code = opcode.exit then parseBare ⟨code, d, s, off, imm⟩ "BPF_EXIT uses reserved fields" .exit
      else if code = opcode.ldImm64 then .error .ldImm64Truncated
      else if isMemOpcode code then parseMem ⟨code, d, s, off, imm⟩ dst src
      else if code = opcode.atomicW ∨ code = opcode.atomicDw then parseAtomic ⟨code, d, s, off, imm⟩ dst src
      else match unsupportedReason code with
        | some reason => .error (.unsupported code reason)
        | none => .error (.unknownOpcode code)) := by
  have hwide : jmp32Arm ⟨code, d, s, off, imm⟩ dst src = none := if_neg h32
  have harms := parseArms.eq_1 ⟨code, d, s, off, imm⟩ dst src
  rw [halu] at harms
  dsimp only at harms
  rw [hjump] at harms
  dsimp only at harms
  rw [hwide] at harms
  exact harms

theorem parseArms_jmp : parseArms ⟨opcode.jmp, d, s, off, imm⟩ dst src =
    parseBare ⟨opcode.jmp, d, s, off, imm⟩ "BPF_JA uses reserved fields" (.jmp off) := by
  rw [parseArms_rest rfl rfl (by decide), if_neg (by decide), if_pos rfl]

theorem parseArms_exit : parseArms ⟨opcode.exit, d, s, off, imm⟩ dst src =
    parseBare ⟨opcode.exit, d, s, off, imm⟩ "BPF_EXIT uses reserved fields" .exit := by
  rw [parseArms_rest rfl rfl (by decide), if_neg (by decide), if_neg (by decide), if_neg (by decide), if_pos rfl]

theorem parseArms_packet (h : code ∈ packetOpcodes) :
    parseArms ⟨code, d, s, off, imm⟩ dst src = parsePacketLoad ⟨code, d, s, off, imm⟩ src := by
  have hmem := h
  simp only [packetOpcodes, List.mem_cons, List.not_mem_nil, or_false] at h
  rcases h with rfl | rfl | rfl | rfl | rfl | rfl <;>
    rw [parseArms_rest rfl rfl (by decide), if_pos hmem]

/-- The opcodes that reach the memory arm, of the immediate stores and of the load that does
    not encode. -/
theorem parseArms_mem (h : code ∈ stMemImmOpcodes ∨ code = 0x99) :
    parseArms ⟨code, d, s, off, imm⟩ dst src = parseMem ⟨code, d, s, off, imm⟩ dst src := by
  simp only [stMemImmOpcodes, List.mem_cons, List.not_mem_nil, or_false] at h
  rcases h with (rfl | rfl | rfl | rfl) | rfl <;>
    rw [parseArms_rest rfl rfl (by decide), if_neg (by decide), if_neg (by decide), if_neg (by decide),
      if_neg (by decide), if_neg (by decide), if_pos (by decide)]

theorem parseArms_atomic (h : code = opcode.atomicW ∨ code = opcode.atomicDw) :
    parseArms ⟨code, d, s, off, imm⟩ dst src = parseAtomic ⟨code, d, s, off, imm⟩ dst src := by
  have hcode := h
  rcases h with rfl | rfl <;>
    rw [parseArms_rest rfl rfl (by decide), if_neg (by decide), if_neg (by decide), if_neg (by decide),
      if_neg (by decide), if_neg (by decide), if_neg (by decide), if_pos hcode]

/-- The reserved operands of an immediate form. -/
theorem operandReserved_k (h : isX code = false) : operandReserved ⟨code, d, s, off, imm⟩ = (s != 0) := by
  simp [operandReserved, h]

theorem parseAlu_neg (h : code = opcode.neg ∨ code = opcode.neg32) :
    parseAlu ⟨code, d, s, off, imm⟩ dst src = parseAlu ⟨code, d, s, off, 0⟩ dst src := by
  have hx : isX code = false := by rcases h with rfl | rfl <;> decide
  have hdiv : code ∉ divImmOpcodes := by rcases h with rfl | rfl <;> decide
  simp only [parseAlu, operandReserved_k hx, hdiv, false_and]
  rcases h with rfl | rfl <;> rfl

theorem parseArms_neg (h : code = opcode.neg ∨ code = opcode.neg32) :
    parseArms ⟨code, d, s, off, imm⟩ dst src = parseArms ⟨code, d, s, off, 0⟩ dst src := by
  have halu := @parseAlu_neg code d s off imm dst src h
  rcases h with rfl | rfl <;> simp only [parseArms] <;> rw [halu] <;> rfl

end Arms

open Fixup in
/-- A re-based jump decodes to itself, whatever its offset. -/
theorem parse_encode_branch {insn : BpfInsn} {o : Int16} {f : Fields} (h : branchOffset insn = some o)
    (he : encodeFields insn = some f) : parseFields f = .ok insn := by
  cases insn with
  | jmp offset =>
    cases he
    simp only [parseFields, regOfNibble_zero, bind, Except.bind, parseArms_jmp]
    simp [parseBare]
  | jeq | jne | jgt | jge | jlt | jle | jsgt | jsge | jslt | jsle =>
    cases he
    exact parse_jump (regOfNibble_regField _) (regOfNibble_regField _) rfl rfl (reserved_x rfl)
  | jeqImm | jneImm | jgtImm | jgeImm | jltImm | jleImm | jsgtImm | jsgeImm | jsltImm | jsleImm =>
    cases he
    exact parse_jump (regOfNibble_regField _) regOfNibble_zero rfl rfl (reserved_k rfl)
  | _ => cases h

/-- The fields without what the decoder drops. -/
def Fields.clean (f : Fields) : Fields :=
  if f.code = opcode.neg ∨ f.code = opcode.neg32 then { f with imm := 0 }
  else if f.code = opcode.exit then { f with off := 0 }
  else if f.code ∈ stMemImmOpcodes then { f with src := 0 }
  else if f.code ∈ packetOpcodes then { f with off := 0 }
  else if f.code = opcode.atomicW ∨ f.code = opcode.atomicDw then { f with imm := f.imm &&& 0xff }
  else f

theorem clean_canonical {f : Fields} (hload : f.code ≠ 0x99) : f.clean.Canonical := by
  unfold Fields.clean
  split_ifs with h1 h2 h3 h4 h5
  · exact (canonical_neg (f := { f with imm := 0 }) h1).mpr rfl
  · exact (canonical_exit (f := { f with off := 0 }) h2).mpr rfl
  · exact (canonical_store (f := { f with src := 0 }) h3).mpr rfl
  · exact (canonical_packet (f := { f with off := 0 }) h4).mpr rfl
  · refine (canonical_atomic (f := { f with imm := f.imm &&& 0xff }) h5).mpr ?_
    dsimp only
    rw [Int32.and_assoc]
    rfl
  · refine canonical_of_code fun hmem => ?_
    simp only [lossyOpcodes, List.mem_append, List.mem_cons, List.not_mem_nil, or_false] at hmem
    tauto

theorem parseAtomic_low (f : Fields) (dst src : Reg) :
    parseAtomic { f with imm := f.imm &&& 0xff } dst src = parseAtomic f dst src := by
  have h1 : f.imm &&& 0xff &&& 0x0e = f.imm &&& 0x0e := by rw [Int32.and_assoc]; rfl
  have h2 : f.imm &&& 0xff &&& 0xf0 = f.imm &&& 0xf0 := by rw [Int32.and_assoc]; rfl
  have h3 : f.imm &&& 0xff &&& opcode.fetch = f.imm &&& opcode.fetch := by rw [Int32.and_assoc]; rfl
  simp only [parseAtomic, AtomicOp.fromImm, h1, h2, h3]

theorem parseMem_store {code d s : UInt8} {off : Int16} {imm : Int32} {dst : Reg} (src : Reg)
    (h : code ∈ stMemImmOpcodes) :
    parseMem ⟨code, d, s, off, imm⟩ dst src = .ok (.stMemImm imm dst off (memSizeOf code)) := by
  have hclass : ∀ c ∈ stMemImmOpcodes, c &&& 0x07 = 0x02 ∧ c &&& 0x07 ≠ 0x01 := forall_mem_of_all (by decide)
  obtain ⟨h2, h1⟩ := hclass code h
  simp only [parseMem]
  rw [if_neg fun hc => hc.2 h2, if_neg h1, if_pos h2]

/-- The decoder does not look at what it drops. -/
theorem parseFields_clean {f : Fields} {insn : BpfInsn} (h : parseFields f = .ok insn) :
    parseFields f.clean = .ok insn := by
  obtain ⟨code, d, s, off, imm⟩ := f
  obtain ⟨dst, hd, h₁⟩ := bind_eq_ok.mp h
  obtain ⟨src, hs, h₂⟩ := bind_eq_ok.mp h₁
  dsimp only at hd hs
  unfold Fields.clean
  dsimp only
  split_ifs with h1 h2 h3 h4 h5
  · simp only [parseFields, hd, hs, bind, Except.bind]
    rw [← parseArms_neg h1]
    exact h₂
  · subst h2
    simp only [parseFields, hd, hs, bind, Except.bind]
    rw [parseArms_exit] at h₂ ⊢
    exact h₂
  · simp only [parseFields, hd, regOfNibble_zero, bind, Except.bind]
    rw [parseArms_mem (.inl h3), parseMem_store _ h3] at h₂ ⊢
    exact h₂
  · simp only [parseFields, hd, hs, bind, Except.bind]
    rw [parseArms_packet h4] at h₂ ⊢
    exact h₂
  · simp only [parseFields, hd, hs, bind, Except.bind]
    rw [parseArms_atomic h5] at h₂ ⊢
    rw [← h₂]
    exact parseAtomic_low ⟨code, d, s, off, imm⟩ dst src
  · exact h

theorem parse_load {f : Fields} {insn : BpfInsn} (h : parseFields f = .ok insn) (hcode : f.code = 0x99) :
    ∃ dst base offset, insn = .ldMem dst base offset .dw true := by
  obtain ⟨code, d, s, off, imm⟩ := f
  dsimp only at hcode
  subst hcode
  obtain ⟨dst, -, h₁⟩ := bind_eq_ok.mp h
  obtain ⟨src, -, h₂⟩ := bind_eq_ok.mp h₁
  rw [parseArms_mem (.inr rfl)] at h₂
  unfold parseMem at h₂
  dsimp only at h₂
  rw [if_pos (show (0x99 : UInt8) &&& 0x07 = 0x01 by decide)] at h₂
  split_ifs at h₂
  cases h₂
  exact ⟨dst, src, off, rfl⟩

/-- The sign-extending 8-byte load has no encoding. -/
theorem encodeFields_load {f : Fields} {insn : BpfInsn} (h : parseFields f = .ok insn) (hcode : f.code = 0x99) :
    encodeFields insn = none := by
  obtain ⟨dst, base, offset, rfl⟩ := parse_load h hcode
  rfl

/-- An encoding decodes to the instruction, if the decoder produced it. -/
theorem parse_encode {f f' : Fields} {insn : BpfInsn} (h : parseFields f = .ok insn)
    (he : encodeFields insn = some f') : parseFields f' = .ok insn := by
  have hload : f.code ≠ 0x99 := by
    intro hcode
    rw [encodeFields_load h hcode] at he
    cases he
  have hclean := parseFields_clean h
  have hcan := (encode_parseFields hclean).mpr (clean_canonical hload)
  rw [hcan] at he
  cases he
  exact hclean

theorem parseFields_narrow {f : Fields} {insn : BpfInsn} (h : parseFields f = .ok insn) :
    f.code ≠ opcode.ldImm64 := by
  obtain ⟨code, d, s, off, imm⟩ := f
  rintro hcode
  dsimp only at hcode
  subst hcode
  obtain ⟨dst, -, h₁⟩ := bind_eq_ok.mp h
  obtain ⟨src, -, h₂⟩ := bind_eq_ok.mp h₁
  rw [parseArms_rest rfl rfl (by decide), if_neg (by decide), if_neg (by decide), if_neg (by decide),
    if_neg (by decide), if_pos rfl] at h₂
  cases h₂

/-! ## Positions -/

namespace Fixup

/-- The new index of a position that survives. -/
def newPos (removed : List Nat) (i : Nat) : Nat := Nat.count (· ∉ removed) i

/-- A transfer at `old` leads to an instruction of the program that survives. -/
def Reaches (removed : List Nat) (len old : Nat) (offset : Int) (t : Nat) : Prop :=
  (t : Int) = old + 1 + offset ∧ t < len ∧ t ∉ removed

section Positions

variable {removed : List Nat} {newIndex : List (Option Nat)} {len old : Nat}

theorem newPos_removed {i : Nat} (h : i ∈ removed) : newPos removed (i + 1) = newPos removed i := by
  simp [newPos, Nat.count_succ, h]

theorem newPos_kept {i : Nat} (h : i ∉ removed) : newPos removed (i + 1) = newPos removed i + 1 := by
  simp [newPos, Nat.count_succ, h]

/-- Deleting brings positions together. -/
theorem newPos_le {i j : Nat} (h : i ≤ j) :
    newPos removed i ≤ newPos removed j ∧ newPos removed j ≤ newPos removed i + (j - i) := by
  induction j, h using Nat.le_induction with
  | base => omega
  | succ j hij ih =>
    by_cases hj : j ∈ removed
    · rw [newPos_removed hj]
      omega
    · rw [newPos_kept hj]
      omega

/-- The distance stays exactly if nothing in between is deleted. -/
theorem newPos_eq {i j : Nat} (h : i ≤ j) :
    newPos removed j = newPos removed i + (j - i) ↔ ∀ k, i ≤ k → k < j → k ∉ removed := by
  induction j, h using Nat.le_induction with
  | base => exact ⟨fun _ k h1 h2 => by omega, fun _ => by omega⟩
  | succ j hij ih =>
    have hle := @newPos_le removed i j hij
    by_cases hj : j ∈ removed
    · rw [newPos_removed hj]
      exact ⟨fun heq => by omega, fun hall => absurd hj (hall j hij (Nat.lt_succ_self j))⟩
    · rw [newPos_kept hj]
      constructor
      · intro heq k h1 h2
        rcases Nat.lt_succ_iff_lt_or_eq.mp h2 with hlt | rfl
        · exact ih.mp (by omega) k h1 hlt
        · exact hj
      · intro hall
        have := ih.mpr fun k h1 h2 => hall k h1 (by omega)
        omega

/-- The vector of new indices. -/
def IndexesOf (newIndex : List (Option Nat)) (removed : List Nat) (len : Nat) : Prop :=
  ∀ i < len, newIndex[i]?.join = if i ∈ removed then none else some (newPos removed i)

theorem newIndices_get (removed : List Nat) (old n : Nat) : ∀ i < n,
    (newIndices removed old (newPos removed old) n)[i]?.join =
      if old + i ∈ removed then none else some (newPos removed (old + i)) := by
  induction n generalizing old with
  | zero => exact nofun
  | succ n ih =>
    intro i hi
    have hshift : old + 1 + (i - 1) = old + i ∨ i = 0 := by omega
    by_cases hold : old ∈ removed
    · simp only [newIndices, if_pos hold]
      cases i with
      | zero => simp [hold]
      | succ i =>
        rw [← newPos_removed hold, List.getElem?_cons_succ, ih (old + 1) i (by omega)]
        rw [show old + 1 + i = old + (i + 1) by omega]
    · simp only [newIndices, if_neg hold]
      cases i with
      | zero => simp [hold]
      | succ i =>
        rw [← newPos_kept hold, List.getElem?_cons_succ, ih (old + 1) i (by omega)]
        rw [show old + 1 + i = old + (i + 1) by omega]

theorem indexesOf_newIndices : IndexesOf (newIndices removed 0 0 len) removed len := by
  intro i hi
  have hget := newIndices_get removed 0 len i hi
  rw [Nat.zero_add] at hget
  exact hget

/-- A target that survives has a new offset, which fits since the distance does not grow. -/
theorem rebase_ok (hni : IndexesOf newIndex removed len) {offset : Int16} {t : Nat}
    (ht : Reaches removed len old offset.toInt t) :
    rebase len newIndex old (newPos removed old) offset =
      .ok (Int16.ofInt (newPos removed t - newPos removed old - 1)) ∧
    (Int16.ofInt ((newPos removed t : Int) - newPos removed old - 1)).toInt =
      newPos removed t - newPos removed old - 1 := by
  obtain ⟨htarget, hlt, hkept⟩ := ht
  have hlo := offset.le_toInt
  have hhi := offset.toInt_lt
  have hfit : -2 ^ 15 ≤ (newPos removed t : Int) - newPos removed old - 1 ∧
      (newPos removed t : Int) - newPos removed old - 1 < 2 ^ 15 := by
    rcases Nat.le_total old t with hle | hle
    · have := @newPos_le removed old t hle
      omega
    · have := @newPos_le removed t old hle
      omega
  constructor
  · unfold rebase
    dsimp only
    rw [← htarget, if_neg (by omega), Int.toNat_natCast, hni t hlt, if_neg hkept]
    dsimp only
    rw [if_pos hfit]
  · exact Int16.toInt_ofInt_of_le hfit.1 hfit.2

theorem rebase_rejected (hni : IndexesOf newIndex removed len) {offset : Int16}
    (ht : ∀ t, ¬ Reaches removed len old offset.toInt t) {newIdx : Nat} :
    rebase len newIndex old newIdx offset = .error .rejected := by
  unfold rebase
  dsimp only
  split
  · rfl
  · rename_i hin
    obtain ⟨t, htarget⟩ : ∃ t : Nat, (t : Int) = old + 1 + offset.toInt :=
      ⟨(old + 1 + offset.toInt).toNat, by omega⟩
    rw [← htarget, Int.toNat_natCast, hni t (by omega)]
    have hremoved : t ∈ removed := by
      by_contra hkept
      exact ht t ⟨htarget, by omega, hkept⟩
    rw [if_pos hremoved]

end Positions

/-! ## Surviving instructions -/

/-- A re-based jump with another offset. -/
def withOffset (insn : BpfInsn) (o : Int16) : BpfInsn :=
  match insn with
  | .jmp _ => .jmp o
  | .jeq d s _ => .jeq d s o
  | .jne d s _ => .jne d s o
  | .jgt d s _ => .jgt d s o
  | .jge d s _ => .jge d s o
  | .jlt d s _ => .jlt d s o
  | .jle d s _ => .jle d s o
  | .jsgt d s _ => .jsgt d s o
  | .jsge d s _ => .jsge d s o
  | .jslt d s _ => .jslt d s o
  | .jsle d s _ => .jsle d s o
  | .jeqImm d i _ => .jeqImm d i o
  | .jneImm d i _ => .jneImm d i o
  | .jgtImm d i _ => .jgtImm d i o
  | .jgeImm d i _ => .jgeImm d i o
  | .jltImm d i _ => .jltImm d i o
  | .jleImm d i _ => .jleImm d i o
  | .jsgtImm d i _ => .jsgtImm d i o
  | .jsgeImm d i _ => .jsgeImm d i o
  | .jsltImm d i _ => .jsltImm d i o
  | .jsleImm d i _ => .jsleImm d i o
  | insn => insn

theorem branchOffset_withOffset {insn : BpfInsn} {o : Int16} (h : branchOffset insn = some o) (o' : Int16) :
    branchOffset (withOffset insn o') = some o' := by
  cases insn <;> first | rfl | cases h

theorem encodeFields_withOffset {insn : BpfInsn} {o : Int16} (h : branchOffset insn = some o) (o' : Int16) :
    ∃ f, encodeFields insn = some f ∧ encodeFields (withOffset insn o') = some { f with off := o' } := by
  cases insn <;> first | exact ⟨_, rfl, rfl⟩ | cases h

/-- What becomes of a surviving instruction. -/
def fixed (removed : List Nat) (old : Nat) (insn : BpfInsn) : BpfInsn :=
  match branchOffset insn with
  | none => insn
  | some offset =>
    withOffset insn (Int16.ofInt (newPos removed (old + 1 + offset.toInt).toNat - newPos removed old - 1))

/-- The survivors of a program, re-based. -/
def survivors (removed : List Nat) : Nat → List BpfInsn → List BpfInsn
  | _, [] => []
  | old, insn :: insns =>
    if old ∈ removed then survivors removed (old + 1) insns
    else fixed removed old insn :: survivors removed (old + 1) insns

section Survivors

variable {removed : List Nat} {newIndex : List (Option Nat)} {len old : Nat} {insns : List BpfInsn}

/-- A survivor that can be encoded, and re-based if it is a re-based jump. -/
structure Fixable (removed : List Nat) (len old : Nat) (insn : BpfInsn) : Prop where
  encodes : (encode insn).isSome = true
  reaches : ∀ o, branchOffset insn = some o → ∃ t, Reaches removed len old o.toInt t

/-- The bytes of a fixable survivor are its encoding. -/
theorem fixChunk_ok (hni : IndexesOf newIndex removed len) {insn : BpfInsn} (h : Fixable removed len old insn) :
    ∃ f, encodeFields (fixed removed old insn) = some f ∧
      fixChunk len newIndex old (newPos removed old) insn = .ok f.slot.bytes := by
  obtain ⟨chunk, hchunk⟩ := Option.isSome_iff_exists.mp h.encodes
  cases hoff : branchOffset insn with
  | none =>
    obtain ⟨f, hf, rfl⟩ := Option.map_eq_some_iff.mp hchunk
    refine ⟨f, ?_, ?_⟩
    · rw [fixed, hoff]
      exact hf
    · simp only [fixChunk, hchunk, hoff]
  | some o =>
    obtain ⟨t, ht⟩ := h.reaches o hoff
    obtain ⟨hok, -⟩ := rebase_ok hni ht
    obtain ⟨f, hf, hf'⟩ := encodeFields_withOffset hoff (Int16.ofInt (newPos removed t - newPos removed old - 1))
    have hbytes : encode insn = some f.slot.bytes := by rw [encode, hf, Option.map_some]
    refine ⟨{ f with off := Int16.ofInt (newPos removed t - newPos removed old - 1) }, ?_, ?_⟩
    · rw [fixed, hoff]
      dsimp only
      rw [← ht.1, Int.toNat_natCast]
      exact hf'
    · simp only [fixChunk, hbytes, hoff, hok]
      rfl

theorem fixChunk_unencodable {insn : BpfInsn} (h : encode insn = none) {newIdx : Nat} :
    fixChunk len newIndex old newIdx insn = .error .unreachable := by
  simp only [fixChunk, h]

theorem fixChunk_rejected (hni : IndexesOf newIndex removed len) {insn : BpfInsn} {o : Int16}
    (hoff : branchOffset insn = some o) (ht : ∀ t, ¬ Reaches removed len old o.toInt t) {newIdx : Nat} :
    fixChunk len newIndex old newIdx insn = .error .rejected := by
  obtain ⟨f, hf, -⟩ := encodeFields_withOffset hoff o
  have hbytes : encode insn = some f.slot.bytes := by rw [encode, hf, Option.map_some]
  simp only [fixChunk, hbytes, hoff, rebase_rejected hni ht]
  rfl

/-- The survivors among the first `n` instructions from `old` on are fixable. -/
def FixableUpTo (removed : List Nat) (len old n : Nat) (insns : List BpfInsn) : Prop :=
  ∀ k < n, ∀ insn, insns[k]? = some insn → old + k ∉ removed → Fixable removed len (old + k) insn

theorem fixableUpTo_cons {insn : BpfInsn} {n : Nat} (hfirst : old ∉ removed → Fixable removed len old insn)
    (h : FixableUpTo removed len (old + 1) n insns) : FixableUpTo removed len old (n + 1) (insn :: insns) := by
  intro k hk insn' hget hkept
  cases k with
  | zero =>
    cases hget
    exact hfirst hkept
  | succ k =>
    have hshift : old + (k + 1) = old + 1 + k := by omega
    rw [hshift] at hkept ⊢
    exact h k (by omega) insn' hget hkept

/-- The first survivor that is not fixable decides how the deletion ends. -/
theorem fixChunks_cases (hni : IndexesOf newIndex removed len) (hlen : old + insns.length = len) :
    (FixableUpTo removed len old insns.length insns ∧ ∃ out, fixChunks len newIndex old insns = .ok out) ∨
    (∃ k insn, insns[k]? = some insn ∧ old + k ∉ removed ∧ FixableUpTo removed len old k insns ∧
      ((∃ o, branchOffset insn = some o ∧ (∀ t, ¬ Reaches removed len (old + k) o.toInt t) ∧
          fixChunks len newIndex old insns = .error .rejected) ∨
        (encode insn = none ∧ fixChunks len newIndex old insns = .error .unreachable))) := by
  induction insns generalizing old with
  | nil => exact .inl ⟨nofun, [], rfl⟩
  | cons insn insns ih =>
    have hlt : old < len := by
      rw [List.length_cons] at hlen
      omega
    have htail := @ih (old + 1) (by rw [List.length_cons] at hlen; omega)
    -- the tail decides, unless the first instruction does
    have hlift : ∀ r : Except Stop (List UInt8) → Except Stop (List UInt8),
        (old ∉ removed → Fixable removed len old insn) →
        fixChunks len newIndex old (insn :: insns) = r (fixChunks len newIndex (old + 1) insns) →
        (∀ e, r (.error e) = .error e) → (∀ out, ∃ out', r (.ok out) = .ok out') →
        (FixableUpTo removed len old (insn :: insns).length (insn :: insns) ∧
          ∃ out, fixChunks len newIndex old (insn :: insns) = .ok out) ∨
        (∃ k insn', (insn :: insns)[k]? = some insn' ∧ old + k ∉ removed ∧
          FixableUpTo removed len old k (insn :: insns) ∧
          ((∃ o, branchOffset insn' = some o ∧ (∀ t, ¬ Reaches removed len (old + k) o.toInt t) ∧
              fixChunks len newIndex old (insn :: insns) = .error .rejected) ∨
            (encode insn' = none ∧ fixChunks len newIndex old (insn :: insns) = .error .unreachable))) := by
      intro r hfirst hstep herror hok
      rcases htail with ⟨hall, out, hout⟩ | ⟨k, insn', hget, hkept, hbefore, hend⟩
      · obtain ⟨out', hout'⟩ := hok out
        exact .inl ⟨fixableUpTo_cons hfirst hall, out', by rw [hstep, hout, hout']⟩
      · have hshift : old + (k + 1) = old + 1 + k := by omega
        refine .inr ⟨k + 1, insn', hget, by rw [hshift]; exact hkept, fixableUpTo_cons hfirst hbefore, ?_⟩
        rw [hshift, hstep]
        rcases hend with ⟨o, hoff, ht, hrun⟩ | ⟨henc, hrun⟩
        · exact .inl ⟨o, hoff, ht, by rw [hrun, herror]⟩
        · exact .inr ⟨henc, by rw [hrun, herror]⟩
    by_cases hold : old ∈ removed
    · refine hlift id (fun hkept => absurd hold hkept) ?_ (fun _ => rfl) fun out => ⟨out, rfl⟩
      rw [fixChunks, hni old hlt, if_pos hold]
      rfl
    · have hidx : newIndex[old]?.join = some (newPos removed old) := by rw [hni old hlt, if_neg hold]
      by_cases hfix : Fixable removed len old insn
      · obtain ⟨f, -, hchunk⟩ := fixChunk_ok hni hfix
        refine hlift (fun rest => rest.map (f.slot.bytes ++ ·)) (fun _ => hfix) ?_ (fun _ => rfl)
          fun out => ⟨_, rfl⟩
        rw [fixChunks, hidx]
        dsimp only
        rw [hchunk]
        cases fixChunks len newIndex (old + 1) insns <;> rfl
      · refine .inr ⟨0, insn, rfl, hold, nofun, ?_⟩
        cases henc : encode insn with
        | none =>
          refine .inr ⟨rfl, ?_⟩
          rw [fixChunks, hidx]
          dsimp only
          rw [fixChunk_unencodable henc]
          rfl
        | some chunk =>
          obtain ⟨o, hoff, ht⟩ : ∃ o, branchOffset insn = some o ∧ ∀ t, ¬ Reaches removed len old o.toInt t := by
            by_contra hno
            push Not at hno
            exact hfix ⟨by rw [henc]; rfl, fun o ho => hno o ho⟩
          refine .inl ⟨o, hoff, ht, ?_⟩
          rw [fixChunks, hidx]
          dsimp only
          rw [fixChunk_rejected hni hoff ht]
          rfl

theorem fixed_of_none {insn : BpfInsn} (h : branchOffset insn = none) : fixed removed old insn = insn := by
  rw [fixed, h]

/-- What is written for a survivor decodes to it. -/
theorem parse_fixed {g f : Fields} {insn : BpfInsn} (h : parseFields g = .ok insn)
    (he : encodeFields (fixed removed old insn) = some f) : parseFields f = .ok (fixed removed old insn) := by
  cases hoff : branchOffset insn with
  | none =>
    rw [fixed_of_none hoff] at he ⊢
    exact parse_encode h he
  | some o =>
    have hfixed : ∃ o', branchOffset (fixed removed old insn) = some o' := by
      rw [fixed, hoff]
      exact ⟨_, branchOffset_withOffset hoff _⟩
    obtain ⟨o', ho'⟩ := hfixed
    exact parse_encode_branch ho' he

theorem branchOffset_wide {first second : Slot} {insn : BpfInsn} (h : parseLdImm64 first second = .ok insn) :
    branchOffset insn = none := by
  dsimp only [parseLdImm64] at h
  obtain ⟨dst, -, h₁⟩ := bind_eq_ok.mp h
  unfold ldImm64Arm at h₁
  split_ifs at h₁ <;> cases h₁ <;> rfl

theorem asChunks_flatten (slots : List Slot) : asChunks ((slots.map Slot.bytes).flatten) = (slots, []) := by
  induction slots with
  | nil => rfl
  | cons s slots ih =>
    rw [List.map_cons, List.flatten_cons]
    simp only [Slot.bytes, List.cons_append, List.nil_append, asChunks, ih]

/-- No pair of slots of a wide load is split. -/
def Unsplit (removed : List Nat) (insns : List BpfInsn) : Prop :=
  ∀ i hi, insns[i + 1]? = some (.ldImm64Second hi) → (i ∈ removed ↔ i + 1 ∈ removed)

theorem fixChunks_kept (hni : IndexesOf newIndex removed len) {insn : BpfInsn} (hlt : old < len)
    (hkept : old ∉ removed) {chunk out : List UInt8}
    (hchunk : fixChunk len newIndex old (newPos removed old) insn = .ok chunk)
    (hout : fixChunks len newIndex old (insn :: insns) = .ok out) :
    ∃ rest, fixChunks len newIndex (old + 1) insns = .ok rest ∧ out = chunk ++ rest := by
  rw [fixChunks, hni old hlt, if_neg hkept] at hout
  dsimp only at hout
  rw [hchunk] at hout
  obtain ⟨_, hfirst, h₁⟩ := bind_eq_ok.mp hout
  cases hfirst
  obtain ⟨rest, hrest, h₂⟩ := bind_eq_ok.mp h₁
  cases h₂
  exact ⟨rest, hrest, rfl⟩

theorem fixChunks_removed (hni : IndexesOf newIndex removed len) {insn : BpfInsn} (hlt : old < len)
    (hin : old ∈ removed) :
    fixChunks len newIndex old (insn :: insns) = fixChunks len newIndex (old + 1) insns := by
  rw [fixChunks, hni old hlt, if_pos hin]

/-- Unless a pair is split, the output decodes to the survivors. -/
theorem decode_fixed {remainder : List UInt8} {chunks : List Slot}
    (h : decodeChunks remainder old chunks = .ok insns) (hni : IndexesOf newIndex removed len)
    (hlen : old + insns.length = len)
    (hpairs : ∀ k hi, insns[k + 1]? = some (.ldImm64Second hi) → (old + k ∈ removed ↔ old + k + 1 ∈ removed))
    (hfix : FixableUpTo removed len old insns.length insns) {out : List UInt8}
    (hout : fixChunks len newIndex old insns = .ok out) :
    ∃ slots, out = (slots.map Slot.bytes).flatten ∧
      ∀ j, decodeChunks [] j slots = .ok (survivors removed old insns) := by
  fun_induction decodeChunks remainder old chunks generalizing insns out with
  | case1 idx hrem =>
    cases h
    cases hout
    exact ⟨[], rfl, fun _ => rfl⟩
  | case2 => cases h
  | case3 => cases h
  | case4 idx chunk hcode second rest ih =>
    obtain ⟨insn, hinsn, h₁⟩ := bind_eq_ok.mp h
    obtain ⟨tail, htail, h₂⟩ := bind_eq_ok.mp h₁
    cases h₂
    have hwide := mapError_eq_ok.mp hinsn
    obtain ⟨hfirst, hsecond, -, -⟩ := encode_wide hcode hwide
    rw [List.length_cons, List.length_cons] at hlen
    have hpair := hpairs 0 _ rfl
    have hrec : ∀ {out'}, fixChunks len newIndex (idx + 2) tail = .ok out' →
        ∃ slots, out' = (slots.map Slot.bytes).flatten ∧
          ∀ j, decodeChunks [] j slots = .ok (survivors removed (idx + 2) tail) := by
      intro out' hout'
      refine ih htail (by omega) (fun k hi hget => ?_) (fun k hk insn' hget hkept => ?_) hout'
      · have := hpairs (k + 2) hi hget
        rw [show idx + (k + 2) = idx + 2 + k by omega] at this
        exact this
      · have hshift : idx + 2 + k = idx + (k + 2) := by omega
        rw [hshift] at hkept ⊢
        exact hfix (k + 2) (by simp only [List.length_cons]; omega) insn' hget hkept
    by_cases hold : idx ∈ removed
    · have hold' : idx + 1 ∈ removed := hpair.mp hold
      rw [fixChunks_removed hni (by omega) hold, fixChunks_removed hni (by omega) hold'] at hout
      simp only [survivors, if_pos hold, if_pos hold']
      exact hrec hout
    · have hold' : idx + 1 ∉ removed := fun hin => hold (hpair.mpr hin)
      have hnone := branchOffset_wide hwide
      obtain ⟨rest₁, hrest₁, rfl⟩ := fixChunks_kept hni (by omega) hold
        (show fixChunk len newIndex idx (newPos removed idx) insn = .ok chunk.bytes by
          simp only [fixChunk, hfirst, hnone]) hout
      obtain ⟨rest₂, hrest₂, rfl⟩ := fixChunks_kept hni (by omega) hold'
        (show fixChunk len newIndex (idx + 1) (newPos removed (idx + 1)) _ = .ok second.bytes by
          simp only [fixChunk, hsecond, branchOffset]) hrest₁
      obtain ⟨slots, rfl, hdec⟩ := hrec hrest₂
      refine ⟨chunk :: second :: slots, rfl, fun j => ?_⟩
      simp only [decodeChunks, if_pos hcode, hwide, hdec, survivors, if_neg hold, if_neg hold',
        fixed_of_none hnone]
      rfl
  | case5 idx chunk chunks hcode ih =>
    obtain ⟨insn, hinsn, h₁⟩ := bind_eq_ok.mp h
    obtain ⟨tail, htail, h₂⟩ := bind_eq_ok.mp h₁
    cases h₂
    have hparse := mapError_eq_ok.mp hinsn
    rw [List.length_cons] at hlen
    have hrec : ∀ {out'}, fixChunks len newIndex (idx + 1) tail = .ok out' →
        ∃ slots, out' = (slots.map Slot.bytes).flatten ∧
          ∀ j, decodeChunks [] j slots = .ok (survivors removed (idx + 1) tail) := by
      intro out' hout'
      refine ih htail (by omega) (fun k hi hget => ?_) (fun k hk insn' hget hkept => ?_) hout'
      · have := hpairs (k + 1) hi hget
        rw [show idx + (k + 1) = idx + 1 + k by omega] at this
        exact this
      · have hshift : idx + 1 + k = idx + (k + 1) := by omega
        rw [hshift] at hkept ⊢
        exact hfix (k + 1) (by simp only [List.length_cons]; omega) insn' hget hkept
    by_cases hold : idx ∈ removed
    · rw [fixChunks_removed hni (by omega) hold] at hout
      simp only [survivors, if_pos hold]
      exact hrec hout
    · obtain ⟨f, hf, hchunk⟩ := fixChunk_ok hni (hfix 0 (by simp) insn rfl hold)
      obtain ⟨rest₁, hrest₁, rfl⟩ := fixChunks_kept hni (by omega) hold hchunk hout
      obtain ⟨slots, rfl, hdec⟩ := hrec hrest₁
      have hdecode := parse_fixed hparse hf
      obtain ⟨hd, hs⟩ := encodeFields_nibbles hf
      refine ⟨f.slot :: slots, rfl, fun j => ?_⟩
      have hnarrow : ¬ f.slot.b0 = opcode.ldImm64 := parseFields_narrow hdecode
      rw [decodeChunks.eq_def]
      dsimp only
      rw [if_neg hnarrow, Fields.slot_fields hd hs, hdecode, hdec, survivors, if_neg hold]
      rfl

theorem survivors_get {k : Nat} {insn : BpfInsn} (hget : insns[k]? = some insn) (hkept : old + k ∉ removed) :
    ∃ j, newPos removed (old + k) = newPos removed old + j ∧
      (survivors removed old insns)[j]? = some (fixed removed (old + k) insn) := by
  induction insns generalizing old k with
  | nil => cases hget
  | cons first insns ih =>
    cases k with
    | zero =>
      cases hget
      refine ⟨0, rfl, ?_⟩
      rw [survivors, if_neg (show old ∉ removed from hkept)]
      rfl
    | succ k =>
      have hshift : old + (k + 1) = old + 1 + k := by omega
      rw [hshift] at hkept ⊢
      obtain ⟨j, hpos, hj⟩ := ih hget hkept
      by_cases hold : old ∈ removed
      · refine ⟨j, by rw [hpos, newPos_removed hold], ?_⟩
        rw [survivors, if_pos hold]
        exact hj
      · refine ⟨j + 1, by rw [hpos, newPos_kept hold]; omega, ?_⟩
        rw [survivors, if_neg hold]
        exact hj

theorem survivors_length (removed : List Nat) (old : Nat) (insns : List BpfInsn) :
    newPos removed (old + insns.length) = newPos removed old + (survivors removed old insns).length := by
  induction insns generalizing old with
  | nil => rfl
  | cons insn insns ih =>
    have hshift : old + (insn :: insns).length = old + 1 + insns.length := by
      rw [List.length_cons]
      omega
    rw [hshift, ih (old + 1)]
    by_cases hold : old ∈ removed
    · rw [survivors, if_pos hold, newPos_removed hold]
    · rw [survivors, if_neg hold, newPos_kept hold, List.length_cons]
      omega

end Survivors

/-! ## What a deletion should do -/

/-- The offset of a jump of any class, or of a subprogram call. -/
def transferOffset : BpfInsn → Option Int
  | .callSub o => some o.toInt
  | .jmp o => some o.toInt
  | insn => insn.branchOffset.map (·.toInt)

/-- An instruction up to where it transfers control. -/
def clearTransfer : BpfInsn → BpfInsn
  | .callSub _ => .callSub 0
  | .jset d s _ => .jset d s 0
  | .jsetImm d i _ => .jsetImm d i 0
  | .jmp32 d s i _ op => .jmp32 d s i 0 op
  | insn => withOffset insn 0

/-- Whether an offset fits its instruction. -/
def OffsetFits (insn : BpfInsn) (o : Int) : Prop :=
  match insn with
  | .callSub _ => -2 ^ 31 ≤ o ∧ o < 2 ^ 31
  | _ => -2 ^ 15 ≤ o ∧ o < 2 ^ 15

/-- The survivors in order, each transfer to the image of its target. -/
structure Retargets (removed : List Nat) (insns outs : List BpfInsn) : Prop where
  length : outs.length = newPos removed insns.length
  survivor : ∀ i insn, insns[i]? = some insn → i ∉ removed →
    ∃ insn', outs[newPos removed i]? = some insn' ∧ clearTransfer insn' = clearTransfer insn ∧
      ∀ o, transferOffset insn = some o → ∃ t o', Reaches removed insns.length i o t ∧
        transferOffset insn' = some o' ∧ (newPos removed t : Int) = newPos removed i + 1 + o'

/-- A deletion preserves the control transfers, or is rejected if it cannot. -/
structure Preserves (removed : List Nat) (insns : List BpfInsn) (r : Except Stop (List UInt8)) : Prop where
  returns : ∀ out, r = .ok out →
    Unsplit removed insns ∧ ∃ outs, decodeProgram out = .ok outs ∧ Retargets removed insns outs
  rejects : (∃ i insn o t, insns[i]? = some insn ∧ i ∉ removed ∧ transferOffset insn = some o ∧
      ((t : Nat) : Int) = i + 1 + o ∧ t < insns.length ∧
      (t ∈ removed ∨ ¬ OffsetFits insn (newPos removed t - newPos removed i - 1))) →
    r = .error .rejected

/-! ## When it does -/

/-- The deletion is rejected: nothing to delete from, a position out of range, or a re-based
    jump that survives and loses its target, with only encodable survivors before it. -/
def Rejected (removed : List Nat) (insns : List BpfInsn) : Prop :=
  insns = [] ∨ (∃ i ∈ removed, insns.length ≤ i) ∨
  ∃ k insn o, insns[k]? = some insn ∧ k ∉ removed ∧ branchOffset insn = some o ∧
    (∀ t, ¬ Reaches removed insns.length k o.toInt t) ∧
    ∀ j < k, ∀ insn', insns[j]? = some insn' → j ∉ removed → (encode insn').isSome = true

/-- No surviving transfer has its target deleted. -/
def LosesNone (removed : List Nat) (insns : List BpfInsn) : Prop :=
  ∀ i insn o t, insns[i]? = some insn → i ∉ removed → transferOffset insn = some o →
    ((t : Nat) : Int) = i + 1 + o → t < insns.length → t ∉ removed

/-- From a surviving transfer that is not re-based to its target nothing is deleted. -/
def ForgottenKept (removed : List Nat) (insns : List BpfInsn) : Prop :=
  ∀ i insn o, insns[i]? = some insn → i ∉ removed → transferOffset insn = some o → branchOffset insn = none →
    ∃ t : Nat, (t : Int) = i + 1 + o ∧ t < insns.length ∧ ∀ k, min i t ≤ k → k ≤ max i t → k ∉ removed

/-- The condition under which a deletion preserves the control transfers. -/
def FixupHolds (removed : List Nat) (insns : List BpfInsn) : Prop :=
  Rejected removed insns ∨ LosesNone removed insns ∧
    ((∃ i insn, insns[i]? = some insn ∧ i ∉ removed ∧ encode insn = none) ∨
      Unsplit removed insns ∧ ForgottenKept removed insns)

section Holds

variable {removed : List Nat} {insns : List BpfInsn} {i : Nat} {insn : BpfInsn}

theorem transferOffset_branch {o : Int16} (h : branchOffset insn = some o) : transferOffset insn = some o.toInt := by
  cases insn with
  | jmp | jeq | jne | jgt | jge | jlt | jle | jsgt | jsge | jslt | jsle | jeqImm | jneImm | jgtImm
  | jgeImm | jltImm | jleImm | jsgtImm | jsgeImm | jsltImm | jsleImm =>
    cases h
    rfl
  | _ => cases h

theorem clearTransfer_withOffset (o : Int16) : clearTransfer (withOffset insn o) = clearTransfer insn := by
  cases insn <;> rfl

/-- The distance does not grow, so a new offset always fits. -/
theorem offsetFits {o : Int} {t : Nat} (h : transferOffset insn = some o) (ht : (t : Int) = i + 1 + o)
    (hkept : i ∉ removed) : OffsetFits insn (newPos removed t - newPos removed i - 1) := by
  have hdist : (o < 0 → o ≤ (newPos removed t : Int) - newPos removed i - 1) ∧
      (newPos removed t : Int) - newPos removed i - 1 ≤ max o 0 ∧
      (0 ≤ o → 0 ≤ (newPos removed t : Int) - newPos removed i - 1) := by
    rcases Nat.lt_or_ge i t with hlt | hge
    · have h1 := @newPos_le removed (i + 1) t hlt
      rw [newPos_kept hkept] at h1
      omega
    · have h1 := @newPos_le removed t i hge
      omega
  have hwide : (∃ c : Int32, insn = .callSub c ∧ o = c.toInt) ∨ (∃ c : Int16, o = c.toInt ∧
      ∀ n, OffsetFits insn n ↔ -2 ^ 15 ≤ n ∧ n < 2 ^ 15) := by
    cases insn with
    | callSub c =>
      cases h
      exact .inl ⟨c, rfl, rfl⟩
    | jmp | jeq | jne | jgt | jge | jlt | jle | jsgt | jsge | jslt | jsle | jset | jeqImm | jneImm | jgtImm
    | jgeImm | jltImm | jleImm | jsgtImm | jsgeImm | jsltImm | jsleImm | jsetImm | jmp32 =>
      cases h
      exact .inr ⟨_, rfl, fun _ => Iff.rfl⟩
    | _ => cases h
  rcases hwide with ⟨c, rfl, rfl⟩ | ⟨c, rfl, hfits⟩
  · have hlo := c.le_toInt
    have hhi := c.toInt_lt
    show -2 ^ 31 ≤ _ ∧ _ < 2 ^ 31
    omega
  · have hlo := c.le_toInt
    have hhi := c.toInt_lt
    rw [hfits]
    omega

/-- The re-based survivors keep their targets if the transfers that are not re-based do. -/
theorem retargets_iff (hfix : FixableUpTo removed insns.length 0 insns.length insns) :
    Retargets removed insns (survivors removed 0 insns) ↔ ForgottenKept removed insns := by
  have hzero : newPos removed 0 = 0 := rfl
  have hsurvivor : ∀ i insn, insns[i]? = some insn → i ∉ removed →
      (survivors removed 0 insns)[newPos removed i]? = some (fixed removed i insn) := by
    intro i insn hget hkept
    rw [← Nat.zero_add i] at hkept
    obtain ⟨j, hpos, hj⟩ := survivors_get hget hkept
    rw [hzero, Nat.zero_add, Nat.zero_add] at hpos
    rw [hpos, hj, Nat.zero_add]
  constructor
  · intro h i insn o hget hkept hoff hnone
    obtain ⟨insn', hout, -, htarget⟩ := h.survivor i insn hget hkept
    obtain ⟨t, o', ⟨ht, hlt, htkept⟩, hoff', hpos⟩ := htarget o hoff
    rw [hsurvivor i insn hget hkept, Option.some.injEq, fixed_of_none hnone] at hout
    subst hout
    obtain rfl := Option.some.inj (hoff.symm.trans hoff')
    refine ⟨t, ht, hlt, fun k h1 h2 => ?_⟩
    by_cases hk : k = i ∨ k = t
    · rcases hk with rfl | rfl
      · exact hkept
      · exact htkept
    · rcases Nat.le_total i t with hle | hle
      · exact (newPos_eq hle).mp (by omega) k (by omega) (by omega)
      · exact (newPos_eq hle).mp (by omega) k (by omega) (by omega)
  · intro h
    refine ⟨?_, fun i insn hget hkept => ⟨_, hsurvivor i insn hget hkept, ?_⟩⟩
    · have := survivors_length removed 0 insns
      rw [hzero, Nat.zero_add] at this
      omega
    · obtain ⟨hlt, -⟩ := List.getElem?_eq_some_iff.mp hget
      have hfixable := hfix i hlt insn hget (by rw [Nat.zero_add]; exact hkept)
      rw [Nat.zero_add] at hfixable
      cases hbranch : branchOffset insn with
      | some off =>
        obtain ⟨t, ht⟩ := hfixable.reaches off hbranch
        have hint := (rebase_ok indexesOf_newIndices ht).2
        have hfixed : fixed removed i insn =
            withOffset insn (Int16.ofInt (newPos removed t - newPos removed i - 1)) := by
          rw [fixed, hbranch]
          dsimp only
          rw [← ht.1, Int.toNat_natCast]
        rw [hfixed]
        refine ⟨clearTransfer_withOffset _, fun o hoff => ?_⟩
        obtain rfl := Option.some.inj ((transferOffset_branch hbranch).symm.trans hoff)
        refine ⟨t, _, ht, transferOffset_branch (branchOffset_withOffset hbranch _), ?_⟩
        rw [hint]
        omega
      | none =>
        rw [fixed_of_none hbranch]
        refine ⟨rfl, fun o hoff => ?_⟩
        obtain ⟨t, ht, htlt, hbetween⟩ := h i insn o hget hkept hoff hbranch
        refine ⟨t, o, ⟨ht, htlt, hbetween t (by omega) (by omega)⟩, hoff, ?_⟩
        rcases Nat.le_total i t with hle | hle
        · have := (newPos_eq hle).mpr fun k h1 h2 => hbetween k (by omega) (by omega)
          omega
        · have := (newPos_eq hle).mpr fun k h1 h2 => hbetween k (by omega) (by omega)
          omega

/-- A transfer that cannot be kept is one whose target is deleted. -/
theorem losesNone_iff : LosesNone removed insns ↔
    ¬ ∃ i insn o t, insns[i]? = some insn ∧ i ∉ removed ∧ transferOffset insn = some o ∧
      ((t : Nat) : Int) = i + 1 + o ∧ t < insns.length ∧
      (t ∈ removed ∨ ¬ OffsetFits insn (newPos removed t - newPos removed i - 1)) := by
  constructor
  · rintro h ⟨i, insn, o, t, hget, hkept, hoff, ht, hlt, hbad⟩
    rcases hbad with hin | hfit
    · exact h i insn o t hget hkept hoff ht hlt hin
    · exact hfit (offsetFits hoff ht hkept)
  · intro h i insn o t hget hkept hoff ht hlt hin
    exact h ⟨i, insn, o, t, hget, hkept, hoff, ht, hlt, .inl hin⟩

theorem decodeChunks_length {remainder : List UInt8} {idx : Nat} {chunks : List Slot} {insns : List BpfInsn}
    (h : decodeChunks remainder idx chunks = .ok insns) : remainder = [] ∧ insns.length = chunks.length := by
  fun_induction decodeChunks remainder idx chunks generalizing insns with
  | case1 idx hrem =>
    cases h
    exact ⟨hrem, rfl⟩
  | case2 => cases h
  | case3 => cases h
  | case4 idx chunk hcode second rest ih =>
    obtain ⟨insn, -, h₁⟩ := bind_eq_ok.mp h
    obtain ⟨tail, htail, h₂⟩ := bind_eq_ok.mp h₁
    cases h₂
    obtain ⟨hrem, hlen⟩ := ih htail
    exact ⟨hrem, by simp only [List.length_cons, hlen]⟩
  | case5 idx chunk chunks hcode ih =>
    obtain ⟨insn, -, h₁⟩ := bind_eq_ok.mp h
    obtain ⟨tail, htail, h₂⟩ := bind_eq_ok.mp h₁
    cases h₂
    obtain ⟨hrem, hlen⟩ := ih htail
    exact ⟨hrem, by simp only [List.length_cons, hlen]⟩

theorem slots_length (slots : List Slot) : (slots.map Slot.bytes).flatten.length = 8 * slots.length := by
  induction slots with
  | nil => rfl
  | cons s slots ih =>
    rw [List.map_cons, List.flatten_cons, List.length_append, ih, List.length_cons]
    simp only [Slot.bytes, List.length_cons, List.length_nil]
    omega

theorem decodeProgram_length {bytes : List UInt8} (h : decodeProgram bytes = .ok insns) :
    bytes.length = 8 * insns.length := by
  obtain ⟨hrem, hlen⟩ := decodeChunks_length h
  have hbytes := asChunks_bytes bytes
  rw [hrem, List.append_nil] at hbytes
  rw [hlen, ← slots_length, hbytes]

theorem deleteInsns_eq {bytes : List UInt8} (h : decodeProgram bytes = .ok insns) :
    deleteInsns bytes removed =
      if insns = [] ∨ ∃ i ∈ removed, insns.length ≤ i then .error .rejected
      else fixChunks insns.length (newIndices removed 0 0 insns.length) 0 insns := by
  have hlen := decodeProgram_length h
  have hdiv : bytes.length / 8 = insns.length := by omega
  have hnil : (bytes.length % 8 ≠ 0 ∨ bytes = []) ↔ insns = [] := by
    rw [← List.length_eq_zero_iff, ← List.length_eq_zero_iff]
    omega
  have hany : (removed.any fun i => decide (insns.length ≤ i)) = true ↔ ∃ i ∈ removed, insns.length ≤ i := by
    simp
  unfold deleteInsns
  dsimp only
  rw [h, hdiv]
  dsimp only
  by_cases h0 : insns = []
  · rw [if_pos (hnil.mpr h0), if_pos (.inl h0)]
  · rw [if_neg fun hc => h0 (hnil.mp hc)]
    by_cases hout : ∃ i ∈ removed, insns.length ≤ i
    · rw [if_pos (hany.mpr hout), if_pos (.inr hout)]
    · rw [if_neg fun hc => hout (hany.mp hc), if_neg fun hc => hc.elim h0 hout]

theorem fixChunks_rejected (h : ∃ k insn o, insns[k]? = some insn ∧ k ∉ removed ∧ branchOffset insn = some o ∧
      (∀ t, ¬ Reaches removed insns.length k o.toInt t) ∧
      ∀ j < k, ∀ insn', insns[j]? = some insn' → j ∉ removed → (encode insn').isSome = true) :
    fixChunks insns.length (newIndices removed 0 0 insns.length) 0 insns = .error .rejected := by
  obtain ⟨k, insn, o, hget, hkept, hoff, ht, hbefore⟩ := h
  obtain ⟨hlt, -⟩ := List.getElem?_eq_some_iff.mp hget
  rcases fixChunks_cases indexesOf_newIndices (Nat.zero_add _) with ⟨hall, -⟩ | ⟨k', insn', hget', hkept', hall, hend⟩
  · have hfix := hall k hlt insn hget (by rw [Nat.zero_add]; exact hkept)
    rw [Nat.zero_add] at hfix
    obtain ⟨t, hreach⟩ := hfix.reaches o hoff
    exact absurd hreach (ht t)
  · rcases hend with ⟨-, -, -, hrun⟩ | ⟨henc, -⟩
    · exact hrun
    · rw [Nat.zero_add] at hkept'
      exfalso
      rcases Nat.lt_trichotomy k k' with hlt' | rfl | hgt
      · have hfix := hall k hlt' insn hget (by rw [Nat.zero_add]; exact hkept)
        rw [Nat.zero_add] at hfix
        obtain ⟨t, hreach⟩ := hfix.reaches o hoff
        exact ht t hreach
      · cases hget.symm.trans hget'
        obtain ⟨f, hf, -⟩ := encodeFields_withOffset hoff o
        rw [encode, hf] at henc
        cases henc
      · have := hbefore k' hgt insn' hget' hkept'
        rw [henc] at this
        cases this

/-- A deletion preserves the control transfers exactly if it is rejected, or no surviving
    transfer loses its target and either the encoder panics, or no pair is split and nothing
    is deleted between a transfer that is not re-based and its target. -/
theorem delete_insns_correct {bytes : List UInt8} (h : decodeProgram bytes = .ok insns) (remove : List Nat) :
    Preserves remove insns (deleteInsns bytes remove) ↔ FixupHolds remove insns := by
  have hpreserves : ∀ r : Except Stop (List UInt8), r ≠ .error .rejected →
      (Preserves remove insns r ↔ LosesNone remove insns ∧ ∀ out, r = .ok out →
        Unsplit remove insns ∧ ∃ outs, decodeProgram out = .ok outs ∧ Retargets remove insns outs) := by
    intro r hr
    constructor
    · intro hp
      exact ⟨losesNone_iff.mpr fun hlost => hr (hp.rejects hlost), hp.returns⟩
    · rintro ⟨hlost, hreturns⟩
      exact ⟨hreturns, fun hbad => absurd hbad (losesNone_iff.mp hlost)⟩
  rw [deleteInsns_eq h]
  by_cases hearly : insns = [] ∨ ∃ i ∈ remove, insns.length ≤ i
  · rw [if_pos hearly]
    exact ⟨fun _ => .inl (hearly.elim .inl fun hout => .inr (.inl hout)), fun _ => ⟨nofun, fun _ => rfl⟩⟩
  rw [if_neg hearly]
  by_cases hbranch : ∃ k insn o, insns[k]? = some insn ∧ k ∉ remove ∧ branchOffset insn = some o ∧
      (∀ t, ¬ Reaches remove insns.length k o.toInt t) ∧
      ∀ j < k, ∀ insn', insns[j]? = some insn' → j ∉ remove → (encode insn').isSome = true
  · rw [fixChunks_rejected hbranch]
    exact ⟨fun _ => .inl (.inr (.inr hbranch)), fun _ => ⟨nofun, fun _ => rfl⟩⟩
  have hnot : ¬ Rejected remove insns := by
    rintro (h0 | hout | hb)
    · exact hearly (.inl h0)
    · exact hearly (.inr hout)
    · exact hbranch hb
  unfold FixupHolds
  rw [or_iff_right hnot]
  rcases fixChunks_cases indexesOf_newIndices (Nat.zero_add _) with ⟨hall, out, hout⟩ |
    ⟨k, insn, hget, hkept, hall, hend⟩
  · -- every survivor is encoded
    have hencodes : ¬ ∃ i insn, insns[i]? = some insn ∧ i ∉ remove ∧ encode insn = none := by
      rintro ⟨i, insn, hget, hkept, henc⟩
      obtain ⟨hlt, -⟩ := List.getElem?_eq_some_iff.mp hget
      have hfix := (hall i hlt insn hget (by rw [Nat.zero_add]; exact hkept)).encodes
      rw [henc] at hfix
      cases hfix
    rw [hout, hpreserves _ (by nofun), or_iff_right hencodes]
    refine and_congr_right fun _ => ?_
    have hdecode : Unsplit remove insns → decodeProgram out = .ok (survivors remove 0 insns) := by
      intro hpairs
      obtain ⟨slots, rfl, hdec⟩ := decode_fixed h indexesOf_newIndices (Nat.zero_add _)
        (fun k hi hget => by rw [Nat.zero_add]; exact hpairs k hi hget) hall hout
      rw [decodeProgram, asChunks_flatten]
      exact hdec 0
    constructor
    · intro hret
      obtain ⟨hpairs, outs, hdec, htargets⟩ := hret out rfl
      rw [hdecode hpairs] at hdec
      cases hdec
      exact ⟨hpairs, (retargets_iff hall).mp htargets⟩
    · rintro ⟨hpairs, hforgotten⟩ out' hout'
      cases hout'
      exact ⟨hpairs, _, hdecode hpairs, (retargets_iff hall).mpr hforgotten⟩
  · rw [Nat.zero_add] at hkept
    rcases hend with ⟨o, hoff, ht, -⟩ | ⟨henc, hrun⟩
    · rw [Nat.zero_add] at ht
      refine absurd ⟨k, insn, o, hget, hkept, hoff, ht, fun j hj insn' hget' hkept' => ?_⟩ hbranch
      exact (hall j hj insn' hget' (by rw [Nat.zero_add]; exact hkept')).encodes
    · rw [hrun, hpreserves _ (by nofun)]
      refine and_congr_right fun _ => ⟨fun _ => .inl ⟨k, insn, hget, hkept, henc⟩, fun _ => nofun⟩

end Holds

/-- if r0 & 1 goto +1; r1 = 1; exit, as bytes. -/
def jsetOver : List UInt8 :=
  [0x45, 0, 1, 0, 1, 0, 0, 0, 0xb7, 1, 0, 0, 1, 0, 0, 0, 0x95, 0, 0, 0, 0, 0, 0, 0]

def jsetOverInsns : List BpfInsn := [.jsetImm 0 1 1, .movImm 1 1, .exit]

theorem jsetOver_decodes : decodeProgram jsetOver = .ok jsetOverInsns := by decide

theorem delete_insns_correct_jsetOver :
    Preserves [1] jsetOverInsns (deleteInsns jsetOver [1]) ↔ FixupHolds [1] jsetOverInsns :=
  delete_insns_correct jsetOver_decodes [1]

/-- Without the move the jump leads out of the program, and not to the exit. -/
theorem delete_insns_jset : ∃ out, deleteInsns jsetOver [1] = .ok out ∧
    decodeProgram out = .ok [.jsetImm 0 1 1, .exit] ∧
    ¬ Preserves [1] jsetOverInsns (deleteInsns jsetOver [1]) := by
  have hout : deleteInsns jsetOver [1] = .ok [0x45, 0, 1, 0, 1, 0, 0, 0, 0x95, 0, 0, 0, 0, 0, 0, 0] := by
    decide
  have hdec : decodeProgram [0x45, 0, 1, 0, 1, 0, 0, 0, 0x95, 0, 0, 0, 0, 0, 0, 0] =
      .ok [.jsetImm 0 1 1, .exit] := by
    decide
  refine ⟨_, hout, hdec, fun h => ?_⟩
  obtain ⟨-, outs, houts, htargets⟩ := h.returns _ hout
  cases hdec.symm.trans houts
  obtain ⟨insn', hget, -, htarget⟩ := htargets.survivor 0 (.jsetImm 0 1 1) rfl (by decide)
  cases hget
  obtain ⟨t, o', ⟨ht, -, -⟩, hoff, hpos⟩ := htarget 1 rfl
  cases hoff
  obtain rfl : t = 2 := by omega
  revert hpos
  decide

end Fixup

end RandVerifier
