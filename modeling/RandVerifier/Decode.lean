/-
  RandVerifier.Decode — the instruction decoder of `src/insn.rs` and the encoder of
  `src/fuzz/insn_lib.rs`.

  A program is a stream of 8-byte slots, `[code, src << 4 | dst, off: le16, imm: le32]`; a
  wide load takes two of them. `Slot.fields` and `Fields.slot` are the two views of a slot.
  The encoder's `unreachable!` arms are `none`.
-/

import RandVerifier.Insn
import Mathlib.Algebra.Group.Nat.Defs

namespace RandVerifier

/-! ## Opcodes -/

namespace opcode

def movImm : UInt8 := 0xb7
def ldImm64 : UInt8 := 0x18
def pseudoMapFd : UInt8 := 1
def pseudoMapValue : UInt8 := 2
def movReg : UInt8 := 0xbf
def addImm : UInt8 := 0x07
def addReg : UInt8 := 0x0f
def subImm : UInt8 := 0x17
def subReg : UInt8 := 0x1f
def andImm : UInt8 := 0x57
def andReg : UInt8 := 0x5f
def orImm : UInt8 := 0x47
def orReg : UInt8 := 0x4f
def xorImm : UInt8 := 0xa7
def xorReg : UInt8 := 0xaf
def lshImm : UInt8 := 0x67
def lshReg : UInt8 := 0x6f
def rshImm : UInt8 := 0x77
def rshReg : UInt8 := 0x7f
def arshImm : UInt8 := 0xc7
def arshReg : UInt8 := 0xcf
def mulImm : UInt8 := 0x27
def mulReg : UInt8 := 0x2f
def divImm : UInt8 := 0x37
def divReg : UInt8 := 0x3f
def modImm : UInt8 := 0x97
def modReg : UInt8 := 0x9f
def neg : UInt8 := 0x87
def add32Imm : UInt8 := 0x04
def add32Reg : UInt8 := 0x0c
def sub32Imm : UInt8 := 0x14
def sub32Reg : UInt8 := 0x1c
def and32Imm : UInt8 := 0x54
def and32Reg : UInt8 := 0x5c
def or32Imm : UInt8 := 0x44
def or32Reg : UInt8 := 0x4c
def xor32Imm : UInt8 := 0xa4
def xor32Reg : UInt8 := 0xac
def lsh32Imm : UInt8 := 0x64
def lsh32Reg : UInt8 := 0x6c
def rsh32Imm : UInt8 := 0x74
def rsh32Reg : UInt8 := 0x7c
def arsh32Imm : UInt8 := 0xc4
def arsh32Reg : UInt8 := 0xcc
def mul32Imm : UInt8 := 0x24
def mul32Reg : UInt8 := 0x2c
def div32Imm : UInt8 := 0x34
def div32Reg : UInt8 := 0x3c
def mod32Imm : UInt8 := 0x94
def mod32Reg : UInt8 := 0x9c
def neg32 : UInt8 := 0x84
def mov32Imm : UInt8 := 0xb4
def mov32Reg : UInt8 := 0xbc
def jmp : UInt8 := 0x05
def jeq : UInt8 := 0x1d
def jeqImm : UInt8 := 0x15
def jne : UInt8 := 0x5d
def jneImm : UInt8 := 0x55
def jgt : UInt8 := 0x2d
def jgtImm : UInt8 := 0x25
def jge : UInt8 := 0x3d
def jgeImm : UInt8 := 0x35
def jlt : UInt8 := 0xad
def jltImm : UInt8 := 0xa5
def jle : UInt8 := 0xbd
def jleImm : UInt8 := 0xb5
def jsgt : UInt8 := 0x6d
def jsgtImm : UInt8 := 0x65
def jsge : UInt8 := 0x7d
def jsgeImm : UInt8 := 0x75
def jslt : UInt8 := 0xcd
def jsltImm : UInt8 := 0xc5
def jsle : UInt8 := 0xdd
def jsleImm : UInt8 := 0xd5
def jset : UInt8 := 0x4d
def jsetImm : UInt8 := 0x45
def call : UInt8 := 0x85
def exit : UInt8 := 0x95
def jmp32JeqImm : UInt8 := 0x16
def jmp32Jeq : UInt8 := 0x1e
def jmp32JgtImm : UInt8 := 0x26
def jmp32Jgt : UInt8 := 0x2e
def jmp32JgeImm : UInt8 := 0x36
def jmp32Jge : UInt8 := 0x3e
def jmp32JneImm : UInt8 := 0x56
def jmp32Jne : UInt8 := 0x5e
def jmp32JsgtImm : UInt8 := 0x66
def jmp32Jsgt : UInt8 := 0x6e
def jmp32JsgeImm : UInt8 := 0x76
def jmp32Jsge : UInt8 := 0x7e
def jmp32JltImm : UInt8 := 0xa6
def jmp32Jlt : UInt8 := 0xae
def jmp32JleImm : UInt8 := 0xb6
def jmp32Jle : UInt8 := 0xbe
def jmp32JsltImm : UInt8 := 0xc6
def jmp32Jslt : UInt8 := 0xce
def jmp32JsleImm : UInt8 := 0xd6
def jmp32Jsle : UInt8 := 0xde
def atomicW : UInt8 := 0xc3
def atomicDw : UInt8 := 0xdb
def fetch : Int32 := 0x01
def ldAbs : UInt8 := 0x20
def ldAbsH : UInt8 := 0x28
def ldAbsB : UInt8 := 0x30
def ldAbsDw : UInt8 := 0x38
def ldInd : UInt8 := 0x40
def ldIndH : UInt8 := 0x48
def ldIndB : UInt8 := 0x50
def ldIndDw : UInt8 := 0x58

end opcode

/-! ## Slots -/

/-- The eight bytes of an instruction slot. -/
structure Slot where
  b0 : UInt8
  b1 : UInt8
  b2 : UInt8
  b3 : UInt8
  b4 : UInt8
  b5 : UInt8
  b6 : UInt8
  b7 : UInt8
  deriving DecidableEq, Repr

namespace Slot

def bytes (s : Slot) : List UInt8 := [s.b0, s.b1, s.b2, s.b3, s.b4, s.b5, s.b6, s.b7]

/-- A slice as a slot, when it has the right length. -/
def ofBytes? : List UInt8 → Option Slot
  | [b0, b1, b2, b3, b4, b5, b6, b7] => some ⟨b0, b1, b2, b3, b4, b5, b6, b7⟩
  | _ => none

end Slot

/-- `u16::from_le_bytes`. -/
def u16FromLe (b0 b1 : UInt8) : UInt16 := UInt16.ofNat (b0.toNat + 2 ^ 8 * b1.toNat)

/-- `u32::from_le_bytes`. -/
def u32FromLe (b0 b1 b2 b3 : UInt8) : UInt32 :=
  UInt32.ofNat (b0.toNat + 2 ^ 8 * b1.toNat + 2 ^ 16 * b2.toNat + 2 ^ 24 * b3.toNat)

/-- The fields of a slot: opcode, the two register nibbles, offset and immediate. -/
structure Fields where
  code : UInt8
  dst : UInt8
  src : UInt8
  off : Int16
  imm : Int32
  deriving DecidableEq, Repr

def Slot.fields (s : Slot) : Fields :=
  { code := s.b0
    dst := s.b1 &&& 0x0f
    src := (s.b1 >>> 4) &&& 0x0f
    off := (u16FromLe s.b2 s.b3).toInt16
    imm := (u32FromLe s.b4 s.b5 s.b6 s.b7).toInt32 }

/-- The bytes of the fields, as the encoder lays them out. -/
def Fields.slot (f : Fields) : Slot :=
  let off := f.off.toUInt16.toNat
  let imm := f.imm.toUInt32.toNat
  { b0 := f.code
    b1 := (f.src <<< 4) ||| (f.dst &&& 0x0f)
    b2 := UInt8.ofNat off
    b3 := UInt8.ofNat (off / 2 ^ 8)
    b4 := UInt8.ofNat imm
    b5 := UInt8.ofNat (imm / 2 ^ 8)
    b6 := UInt8.ofNat (imm / 2 ^ 16)
    b7 := UInt8.ofNat (imm / 2 ^ 24) }

/-! ## Decoding errors -/

inductive DecodeError where
  | unknownOpcode (op : UInt8)
  | unsupported (op : UInt8) (reason : String)
  | invalidRegister (reg : UInt8)
  | reservedFields (message : String)
  | invalidInstructionLength (actual : Nat)
  | ldImm64Truncated
  | divisionByZero
  deriving DecidableEq, Repr

/-! ## Operation selectors -/

def MulHigh.fromOff (off : Int16) : Option MulHigh :=
  if off = 0 then some .low
  else if off = 1 then some .unsignedHigh
  else if off = 2 then some .signedHigh
  else none

def MulHigh.toOff : MulHigh → Int16
  | .low => 0
  | .unsignedHigh => 1
  | .signedHigh => 2

def AtomicOp.fromImm (imm : Int32) : Option AtomicOp :=
  [((0x00 : Int32), AtomicOp.add), (0x40, .or), (0x50, .and), (0xa0, .xor), (0xe0, .xchg),
    (0xf0, .cmpxchg)].lookup (imm &&& 0xf0)

def AtomicOp.toImm : AtomicOp → Int32
  | .add => 0x00
  | .or => 0x40
  | .and => 0x50
  | .xor => 0xa0
  | .xchg => 0xe0
  | .cmpxchg => 0xf0

/-- Whether the operation requires `BPF_FETCH`. -/
def AtomicOp.requiresFetch : AtomicOp → Bool
  | .xchg | .cmpxchg => true
  | _ => false

/-! ## One instruction -/

/-- The `BPF_SRC` bit: the register form. -/
def isX (op : UInt8) : Bool := op &&& 0x08 != 0

/-- The size selector of a memory opcode, bits 3 and 4. -/
def memSizeOf (op : UInt8) : MemSize :=
  match (op >>> 3) &&& 0x3 with
  | 0x0 => .w
  | 0x1 => .h
  | 0x2 => .b
  | _ => .dw

/-- Reserved operand fields: the immediate of the register form, the source of the
    immediate form. -/
def operandReserved (f : Fields) : Bool := (isX f.code && f.imm != 0) || (!isX f.code && f.src != 0)

/-- The arms of the ALU opcodes. -/
def aluArms (dst src : Reg) (imm : Int32) (high : MulHigh) : List (UInt8 × BpfInsn) :=
  [(opcode.movImm, .movImm dst imm), (opcode.movReg, .movReg dst src),
   (opcode.mov32Imm, .mov32Imm dst imm), (opcode.mov32Reg, .mov32Reg dst src),
   (opcode.addImm, .addImm dst imm), (opcode.addReg, .addReg dst src),
   (opcode.subImm, .subImm dst imm), (opcode.subReg, .subReg dst src),
   (opcode.andImm, .andImm dst imm), (opcode.andReg, .andReg dst src),
   (opcode.orImm, .orImm dst imm), (opcode.orReg, .orReg dst src),
   (opcode.xorImm, .xorImm dst imm), (opcode.xorReg, .xorReg dst src),
   (opcode.lshImm, .lshImm dst imm), (opcode.lshReg, .lshReg dst src),
   (opcode.rshImm, .rshImm dst imm), (opcode.rshReg, .rshReg dst src),
   (opcode.arshImm, .arshImm dst imm), (opcode.arshReg, .arshReg dst src),
   (opcode.add32Imm, .add32Imm dst imm), (opcode.add32Reg, .add32Reg dst src),
   (opcode.sub32Imm, .sub32Imm dst imm), (opcode.sub32Reg, .sub32Reg dst src),
   (opcode.and32Imm, .and32Imm dst imm), (opcode.and32Reg, .and32Reg dst src),
   (opcode.or32Imm, .or32Imm dst imm), (opcode.or32Reg, .or32Reg dst src),
   (opcode.xor32Imm, .xor32Imm dst imm), (opcode.xor32Reg, .xor32Reg dst src),
   (opcode.lsh32Imm, .lsh32Imm dst imm), (opcode.lsh32Reg, .lsh32Reg dst src),
   (opcode.rsh32Imm, .rsh32Imm dst imm), (opcode.rsh32Reg, .rsh32Reg dst src),
   (opcode.arsh32Imm, .arsh32Imm dst imm), (opcode.arsh32Reg, .arsh32Reg dst src),
   (opcode.mulImm, .mulImm dst imm high), (opcode.mulReg, .mulReg dst src high),
   (opcode.divImm, .divImm dst imm), (opcode.divReg, .divReg dst src),
   (opcode.modImm, .modImm dst imm), (opcode.modReg, .modReg dst src),
   (opcode.neg, .neg dst),
   (opcode.mul32Imm, .mul32Imm dst imm), (opcode.mul32Reg, .mul32Reg dst src),
   (opcode.div32Imm, .div32Imm dst imm), (opcode.div32Reg, .div32Reg dst src),
   (opcode.mod32Imm, .mod32Imm dst imm), (opcode.mod32Reg, .mod32Reg dst src),
   (opcode.neg32, .neg32 dst)]

/-- The multiplications that carry a selector in their offset. -/
def isMul64 (op : UInt8) : Bool := op == opcode.mulImm || op == opcode.mulReg

/-- The offset of an ALU instruction: a selector of a 64-bit product, else zero. -/
def aluHigh (f : Fields) : Option MulHigh :=
  if isMul64 f.code then MulHigh.fromOff f.off else if f.off = 0 then some .low else none

def divImmOpcodes : List UInt8 := [opcode.divImm, opcode.modImm, opcode.div32Imm, opcode.mod32Imm]

/-- The ALU arm of the decoder: `none` for the other opcodes. -/
def parseAlu (f : Fields) (dst src : Reg) : Option (Except DecodeError BpfInsn) :=
  match (aluArms dst src f.imm ((aluHigh f).getD .low)).lookup f.code with
  | none => none
  | some insn => some <|
    if operandReserved f ∨ aluHigh f = none then
      .error (.reservedFields (if f.code = opcode.movImm ∨ f.code = opcode.movReg then
        "BPF_MOV uses reserved fields" else "BPF_ALU uses reserved fields"))
    else if f.code ∈ divImmOpcodes ∧ f.imm = 0 then .error .divisionByZero
    else .ok insn

/-- The arms of the 64-bit comparisons. -/
def jumpArms (dst src : Reg) (imm : Int32) (offset : Int16) : List (UInt8 × BpfInsn) :=
  [(opcode.jeq, .jeq dst src offset), (opcode.jne, .jne dst src offset),
   (opcode.jgt, .jgt dst src offset), (opcode.jge, .jge dst src offset),
   (opcode.jlt, .jlt dst src offset), (opcode.jle, .jle dst src offset),
   (opcode.jsgt, .jsgt dst src offset), (opcode.jsge, .jsge dst src offset),
   (opcode.jslt, .jslt dst src offset), (opcode.jsle, .jsle dst src offset),
   (opcode.jeqImm, .jeqImm dst imm offset), (opcode.jneImm, .jneImm dst imm offset),
   (opcode.jgtImm, .jgtImm dst imm offset), (opcode.jgeImm, .jgeImm dst imm offset),
   (opcode.jltImm, .jltImm dst imm offset), (opcode.jleImm, .jleImm dst imm offset),
   (opcode.jsgtImm, .jsgtImm dst imm offset), (opcode.jsgeImm, .jsgeImm dst imm offset),
   (opcode.jsltImm, .jsltImm dst imm offset), (opcode.jsleImm, .jsleImm dst imm offset),
   (opcode.jset, .jset dst src offset), (opcode.jsetImm, .jsetImm dst imm offset)]

/-- The opcodes of the 32-bit comparisons, register form and immediate form. -/
def jmp32Opcodes : Jmp32Op → UInt8 × UInt8
  | .eq => (opcode.jmp32Jeq, opcode.jmp32JeqImm)
  | .ne => (opcode.jmp32Jne, opcode.jmp32JneImm)
  | .gt => (opcode.jmp32Jgt, opcode.jmp32JgtImm)
  | .ge => (opcode.jmp32Jge, opcode.jmp32JgeImm)
  | .lt => (opcode.jmp32Jlt, opcode.jmp32JltImm)
  | .le => (opcode.jmp32Jle, opcode.jmp32JleImm)
  | .sgt => (opcode.jmp32Jsgt, opcode.jmp32JsgtImm)
  | .sge => (opcode.jmp32Jsge, opcode.jmp32JsgeImm)
  | .slt => (opcode.jmp32Jslt, opcode.jmp32JsltImm)
  | .sle => (opcode.jmp32Jsle, opcode.jmp32JsleImm)

/-- The comparison of a 32-bit jump, from the high nibble of its opcode. -/
def jmp32OpOf (op : UInt8) : Option Jmp32Op :=
  [((0x10 : UInt8), Jmp32Op.eq), (0x20, .gt), (0x30, .ge), (0x50, .ne), (0x60, .sgt), (0x70, .sge),
    (0xa0, .lt), (0xb0, .le), (0xc0, .slt), (0xd0, .sle)].lookup (op &&& 0xf0)

/-- The arm of the 32-bit comparisons: their class is 6. -/
def jmp32Arm (f : Fields) (dst src : Reg) : Option BpfInsn :=
  if f.code &&& 0x07 = 0x06 then
    (jmp32OpOf f.code).map fun op =>
      if isX f.code then .jmp32 dst (some src) none f.off op
      else .jmp32 dst none (some f.imm) f.off op
  else none

/-- An arm whose operand fields are checked. -/
def operandArm (f : Fields) (message : String) (insn : BpfInsn) : Except DecodeError BpfInsn :=
  if operandReserved f then .error (.reservedFields message) else .ok insn

/-- The legacy packet loads. -/
def parsePacketLoad (f : Fields) (src : Reg) : Except DecodeError BpfInsn :=
  if f.dst ≠ 0 then .error (.reservedFields "BPF_LD ABS/IND uses reserved fields")
  else if f.code < 0x40 then
    if f.src ≠ 0 then .error (.reservedFields "BPF_LD ABS uses reserved fields")
    else .ok (.ldAbs (memSizeOf f.code) f.imm)
  else .ok (.ldInd src (memSizeOf f.code) f.imm)

def packetOpcodes : List UInt8 :=
  [opcode.ldAbs, opcode.ldAbsH, opcode.ldAbsB, opcode.ldInd, opcode.ldIndH, opcode.ldIndB]

/-- A call: a helper, a subprogram or a kernel function by the source nibble. -/
def parseCall (f : Fields) : Except DecodeError BpfInsn :=
  if f.dst ≠ 0 ∨ f.off ≠ 0 then .error (.reservedFields "BPF_CALL uses reserved fields")
  else if f.src = 0 then .ok (.call f.imm)
  else if f.src = 1 then .ok (.callSub f.imm)
  else if f.src = 2 then .ok (.callKfunc f.imm)
  else .error (.reservedFields "BPF_CALL uses reserved fields")

/-- `BPF_JA` and `BPF_EXIT`: registers and immediate are reserved. -/
def parseBare (f : Fields) (message : String) (insn : BpfInsn) : Except DecodeError BpfInsn :=
  if f.src ≠ 0 ∨ f.dst ≠ 0 ∨ f.imm ≠ 0 then .error (.reservedFields message) else .ok insn

/-- The memory accesses: modes `MEM` of every class and `MEMSX` of loads. -/
def isMemOpcode (op : UInt8) : Bool :=
  (op &&& 0xe0 == 0x60 && (1 ≤ op &&& 0x07 && op &&& 0x07 ≤ 3)) ||
    (op &&& 0xe0 == 0x80 && op &&& 0x07 == 0x01)

def parseMem (f : Fields) (dst src : Reg) : Except DecodeError BpfInsn :=
  let size := memSizeOf f.code
  if f.imm ≠ 0 ∧ f.code &&& 0x07 ≠ 0x02 then
    .error (.reservedFields "memory access uses reserved fields")
  else if f.code &&& 0x07 = 0x01 then .ok (.ldMem dst src f.off size (f.code &&& 0xe0 == 0x80))
  else if f.code &&& 0x07 = 0x02 then .ok (.stMemImm f.imm dst f.off size)
  else if f.code &&& 0x07 = 0x03 then .ok (.stMem src dst f.off size)
  else .error (.unsupported f.code "memory access with an unsupported modifier")

def parseAtomic (f : Fields) (dst src : Reg) : Except DecodeError BpfInsn :=
  let size : MemSize := if f.code = opcode.atomicW then .w else .dw
  if f.imm &&& 0x0e ≠ 0 then .error (.reservedFields "BPF_ATOMIC uses reserved fields")
  else match AtomicOp.fromImm f.imm with
    | none => .error (.unsupported f.code "unknown atomic operation")
    | some atomicOp =>
      let fetch := f.imm &&& opcode.fetch != 0
      if atomicOp.requiresFetch && !fetch then
        .error (.reservedFields "BPF_ATOMIC uses reserved fields")
      else .ok (.atomic dst src f.off size atomicOp fetch)

/-- The reason a valid kernel opcode is not implemented. -/
def unsupportedReason (op : UInt8) : Option String :=
  match op &&& 0x07 with
  | 0x00 => some "BPF_LD legacy absolute/indirect loads are not implemented"
  | 0x02 => some "BPF_ST (store-immediate) is not implemented"
  | 0x06 => some "BPF_JMP32 (32-bit compares) is not implemented"
  | 0x01 => some "only 8-byte loads from the stack frame are implemented"
  | 0x03 => some "only 8-byte stores to the stack frame are implemented"
  | 0x05 =>
    if op = 0x45 ∨ op = 0x4d then some "BPF_JSET is not implemented"
    else if op = 0x0d then some "indirect jumps (BPF_JA|BPF_X) are not implemented"
    else none
  -- 0x04 and 0x07, the ALU classes
  | _ =>
    if op &&& 0xf0 = 0xd0 then some "BPF_END is not implemented"
    else if op &&& 0xf0 = 0xb0 then some "32-bit MOV (BPF_ALU | BPF_MOV) is not implemented"
    else none

/-- The opcode arms, for register fields in range. -/
def parseArms (f : Fields) (dst src : Reg) : Except DecodeError BpfInsn :=
  match parseAlu f dst src with
  | some result => result
  | none => match (jumpArms dst src f.imm f.off).lookup f.code with
    | some insn => operandArm f "BPF_JMP uses reserved fields" insn
    | none => match jmp32Arm f dst src with
      | some insn => operandArm f "BPF_JMP32 uses reserved fields" insn
      | none =>
        if f.code ∈ packetOpcodes then parsePacketLoad f src
        else if f.code = opcode.jmp then parseBare f "BPF_JA uses reserved fields" (.jmp f.off)
        else if f.code = opcode.call then parseCall f
        else if f.code = opcode.exit then parseBare f "BPF_EXIT uses reserved fields" .exit
        else if f.code = opcode.ldImm64 then .error .ldImm64Truncated
        else if isMemOpcode f.code then parseMem f dst src
        else if f.code = opcode.atomicW ∨ f.code = opcode.atomicDw then parseAtomic f dst src
        else match unsupportedReason f.code with
          | some reason => .error (.unsupported f.code reason)
          | none => .error (.unknownOpcode f.code)

/-- A register nibble: R11..R15 are invalid. -/
def regOfNibble (reg : UInt8) : Except DecodeError Reg :=
  if h : reg.toNat < 11 then .ok ⟨reg.toNat, h⟩ else .error (.invalidRegister reg)

/-- `parse_insn` on a slot. -/
def parseFields (f : Fields) : Except DecodeError BpfInsn := do
  let dst ← regOfNibble f.dst
  let src ← regOfNibble f.src
  parseArms f dst src

def parseInsn (bytes : List UInt8) : Except DecodeError BpfInsn :=
  match Slot.ofBytes? bytes with
  | none => .error (.invalidInstructionLength bytes.length)
  | some s => parseFields s.fields

/-! ## Wide loads and programs -/

/-- The 64-bit load that a first slot with register and constant in range stands for. -/
def ldImm64Arm (dst : Reg) (src : UInt8) (immLo immHi : UInt32) : Except DecodeError BpfInsn :=
  if src = 0 then .ok (.ldImm64 dst (immHi.toUInt64 <<< 32 ||| immLo.toUInt64))
  else if src = opcode.pseudoMapFd then
    if immHi ≠ 0 then
      .error (.reservedFields "BPF_PSEUDO_MAP_FD uses the second slot as a reserved field")
    else .ok (.ldMapFd dst immLo.toNat 0 0 0)
  else if src = opcode.pseudoMapValue then .ok (.ldMapValue dst immLo.toNat immHi.toNat 0 0)
  else .error (.unsupported 0x18 "unknown ldimm64 pseudo class")

/-- `parse_ldimm64` on two slots. -/
def parseLdImm64 (first second : Slot) : Except DecodeError BpfInsn := do
  let f := first.fields
  let dst ← regOfNibble f.dst
  if f.off ≠ 0 then .error (.reservedFields "BPF_LD uses reserved fields")
  else if second.b0 ≠ 0 ∨ second.b1 ≠ 0 ∨ second.fields.off ≠ 0 then
    .error (.reservedFields "invalid second part of bpf_ldimm64 insn")
  else ldImm64Arm dst f.src f.imm.toUInt32 second.fields.imm.toUInt32

/-- `as_chunks::<8>`: the slots of a byte string, and what is left. -/
def asChunks : List UInt8 → List Slot × List UInt8
  | b0 :: b1 :: b2 :: b3 :: b4 :: b5 :: b6 :: b7 :: rest =>
    let (chunks, remainder) := asChunks rest
    (⟨b0, b1, b2, b3, b4, b5, b6, b7⟩ :: chunks, remainder)
  | short => ([], short)

/-- The decoding loop; an error carries the index of its slot. -/
def decodeChunks (remainder : List UInt8) :
    Nat → List Slot → Except (Nat × DecodeError) (List BpfInsn)
  | idx, [] =>
    if remainder = [] then .ok [] else .error (idx, .invalidInstructionLength remainder.length)
  | idx, chunk :: chunks =>
    if chunk.b0 = opcode.ldImm64 then
      match chunks with
      | [] => .error (idx, .ldImm64Truncated)
      | second :: rest => do
        let insn ← (parseLdImm64 chunk second).mapError (idx, ·)
        let insns ← decodeChunks remainder (idx + 2) rest
        .ok (insn :: .ldImm64Second second.fields.imm.toUInt32.toNat :: insns)
    else do
      let insn ← (parseFields chunk.fields).mapError (idx, ·)
      let insns ← decodeChunks remainder (idx + 1) chunks
      .ok (insn :: insns)

/-- Decode a whole program. -/
def decodeProgram (bytes : List UInt8) : Except (Nat × DecodeError) (List BpfInsn) :=
  let (chunks, remainder) := asChunks bytes
  decodeChunks remainder 0 chunks

/-! ## The encoder -/

def regField (r : Reg) : UInt8 := UInt8.ofNat r.val

/-- The opcode of a load; `none` for a sign-extending 8-byte load, `unreachable!` in the
    source. -/
def ldMemOpcode (size : MemSize) (signExtend : Bool) : Option UInt8 :=
  match size, signExtend with
  | .w, false => some 0x61
  | .h, false => some 0x69
  | .b, false => some 0x71
  | .dw, false => some 0x79
  | .w, true => some 0x81
  | .h, true => some 0x89
  | .b, true => some 0x91
  | .dw, true => none

def stMemOpcode : MemSize → UInt8
  | .w => 0x63
  | .h => 0x6b
  | .b => 0x73
  | .dw => 0x7b

def stMemImmOpcode : MemSize → UInt8
  | .w => 0x62
  | .h => 0x6a
  | .b => 0x72
  | .dw => 0x7a

def ldAbsOpcode : MemSize → UInt8
  | .w => opcode.ldAbs
  | .h => opcode.ldAbsH
  | .b => opcode.ldAbsB
  | .dw => opcode.ldAbsDw

def ldIndOpcode : MemSize → UInt8
  | .w => opcode.ldInd
  | .h => opcode.ldIndH
  | .b => opcode.ldIndB
  | .dw => opcode.ldIndDw

/-- An immediate operand: the source nibble is zero. -/
def kForm (code : UInt8) (dst : Reg) (off : Int16) (imm : Int32) : Option Fields :=
  some ⟨code, regField dst, 0, off, imm⟩

/-- A register operand: the immediate is zero. -/
def xForm (code : UInt8) (dst src : Reg) (off : Int16) : Option Fields :=
  some ⟨code, regField dst, regField src, off, 0⟩

/-- The fields that `encode` lays out. -/
def encodeFields : BpfInsn → Option Fields
  | .movImm dst imm => kForm opcode.movImm dst 0 imm
  | .movReg dst src => xForm opcode.movReg dst src 0
  | .mov32Imm dst imm => kForm opcode.mov32Imm dst 0 imm
  | .mov32Reg dst src => xForm opcode.mov32Reg dst src 0
  | .jset dst src offset => xForm opcode.jset dst src offset
  | .jsetImm dst imm offset => kForm opcode.jsetImm dst offset imm
  | .jmp32 dst src imm offset op =>
    match src, imm with
    | some s, _ => xForm (jmp32Opcodes op).1 dst s offset
    | none, some i => kForm (jmp32Opcodes op).2 dst offset i
    | none, none => none
  | .atomic dst src offset size op fetch =>
    some ⟨if size = .w then opcode.atomicW else opcode.atomicDw, regField dst, regField src, offset,
      op.toImm ||| (if fetch then 1 else 0)⟩
  | .ldAbs size imm => some ⟨ldAbsOpcode size, 0, 0, 0, imm⟩
  | .ldInd src size imm => some ⟨ldIndOpcode size, 0, regField src, 0, imm⟩
  | .addImm dst imm => kForm opcode.addImm dst 0 imm
  | .addReg dst src => xForm opcode.addReg dst src 0
  | .subImm dst imm => kForm opcode.subImm dst 0 imm
  | .subReg dst src => xForm opcode.subReg dst src 0
  | .andImm dst imm => kForm opcode.andImm dst 0 imm
  | .andReg dst src => xForm opcode.andReg dst src 0
  | .orImm dst imm => kForm opcode.orImm dst 0 imm
  | .orReg dst src => xForm opcode.orReg dst src 0
  | .xorImm dst imm => kForm opcode.xorImm dst 0 imm
  | .xorReg dst src => xForm opcode.xorReg dst src 0
  | .lshImm dst imm => kForm opcode.lshImm dst 0 imm
  | .lshReg dst src => xForm opcode.lshReg dst src 0
  | .rshImm dst imm => kForm opcode.rshImm dst 0 imm
  | .rshReg dst src => xForm opcode.rshReg dst src 0
  | .arshImm dst imm => kForm opcode.arshImm dst 0 imm
  | .arshReg dst src => xForm opcode.arshReg dst src 0
  | .mulImm dst imm high => kForm opcode.mulImm dst high.toOff imm
  | .mulReg dst src high => xForm opcode.mulReg dst src high.toOff
  | .divImm dst imm => kForm opcode.divImm dst 0 imm
  | .divReg dst src => xForm opcode.divReg dst src 0
  | .modImm dst imm => kForm opcode.modImm dst 0 imm
  | .modReg dst src => xForm opcode.modReg dst src 0
  | .neg dst => kForm opcode.neg dst 0 0
  | .add32Imm dst imm => kForm opcode.add32Imm dst 0 imm
  | .add32Reg dst src => xForm opcode.add32Reg dst src 0
  | .sub32Imm dst imm => kForm opcode.sub32Imm dst 0 imm
  | .sub32Reg dst src => xForm opcode.sub32Reg dst src 0
  | .and32Imm dst imm => kForm opcode.and32Imm dst 0 imm
  | .and32Reg dst src => xForm opcode.and32Reg dst src 0
  | .or32Imm dst imm => kForm opcode.or32Imm dst 0 imm
  | .or32Reg dst src => xForm opcode.or32Reg dst src 0
  | .xor32Imm dst imm => kForm opcode.xor32Imm dst 0 imm
  | .xor32Reg dst src => xForm opcode.xor32Reg dst src 0
  | .lsh32Imm dst imm => kForm opcode.lsh32Imm dst 0 imm
  | .lsh32Reg dst src => xForm opcode.lsh32Reg dst src 0
  | .rsh32Imm dst imm => kForm opcode.rsh32Imm dst 0 imm
  | .rsh32Reg dst src => xForm opcode.rsh32Reg dst src 0
  | .arsh32Imm dst imm => kForm opcode.arsh32Imm dst 0 imm
  | .arsh32Reg dst src => xForm opcode.arsh32Reg dst src 0
  | .mul32Imm dst imm => kForm opcode.mul32Imm dst 0 imm
  | .mul32Reg dst src => xForm opcode.mul32Reg dst src 0
  | .div32Imm dst imm => kForm opcode.div32Imm dst 0 imm
  | .div32Reg dst src => xForm opcode.div32Reg dst src 0
  | .mod32Imm dst imm => kForm opcode.mod32Imm dst 0 imm
  | .mod32Reg dst src => xForm opcode.mod32Reg dst src 0
  | .neg32 dst => kForm opcode.neg32 dst 0 0
  | .ldMem dst base offset size signExtend =>
    (ldMemOpcode size signExtend).bind fun code => xForm code dst base offset
  | .stMem src base offset size => xForm (stMemOpcode size) base src offset
  | .stMemImm imm base offset size => kForm (stMemImmOpcode size) base offset imm
  -- each half of a wide load encodes its own slot
  | .ldImm64 dst imm => kForm opcode.ldImm64 dst 0 imm.toUInt32.toInt32
  | .ldMapFd dst fd _ _ _ =>
    some ⟨opcode.ldImm64, regField dst, opcode.pseudoMapFd, 0, (UInt32.ofNat fd).toInt32⟩
  | .ldMapValue dst fd _ _ _ =>
    some ⟨opcode.ldImm64, regField dst, opcode.pseudoMapValue, 0, (UInt32.ofNat fd).toInt32⟩
  | .ldImm64Second immHi => some ⟨0x00, 0, 0, 0, (UInt32.ofNat immHi).toInt32⟩
  | .jeq dst src offset => xForm opcode.jeq dst src offset
  | .jne dst src offset => xForm opcode.jne dst src offset
  | .jgt dst src offset => xForm opcode.jgt dst src offset
  | .jge dst src offset => xForm opcode.jge dst src offset
  | .jlt dst src offset => xForm opcode.jlt dst src offset
  | .jle dst src offset => xForm opcode.jle dst src offset
  | .jsgt dst src offset => xForm opcode.jsgt dst src offset
  | .jsge dst src offset => xForm opcode.jsge dst src offset
  | .jslt dst src offset => xForm opcode.jslt dst src offset
  | .jsle dst src offset => xForm opcode.jsle dst src offset
  | .jeqImm dst imm offset => kForm opcode.jeqImm dst offset imm
  | .jneImm dst imm offset => kForm opcode.jneImm dst offset imm
  | .jgtImm dst imm offset => kForm opcode.jgtImm dst offset imm
  | .jgeImm dst imm offset => kForm opcode.jgeImm dst offset imm
  | .jltImm dst imm offset => kForm opcode.jltImm dst offset imm
  | .jleImm dst imm offset => kForm opcode.jleImm dst offset imm
  | .jsgtImm dst imm offset => kForm opcode.jsgtImm dst offset imm
  | .jsgeImm dst imm offset => kForm opcode.jsgeImm dst offset imm
  | .jsltImm dst imm offset => kForm opcode.jsltImm dst offset imm
  | .jsleImm dst imm offset => kForm opcode.jsleImm dst offset imm
  | .jmp offset => some ⟨opcode.jmp, 0, 0, offset, 0⟩
  | .call imm => some ⟨opcode.call, 0, 0, 0, imm⟩
  | .callSub offset => some ⟨opcode.call, 0, 1, 0, offset⟩
  | .callKfunc btfId => some ⟨opcode.call, 0, 2, 0, btfId⟩
  | .exit => some ⟨opcode.exit, 0, 0, 0, 0⟩

/-- Encode one slot: `none` where the source is `unreachable!`. -/
def encode (insn : BpfInsn) : Option (List UInt8) := (encodeFields insn).map (·.slot.bytes)

/-- The concatenation of the encodings. -/
def encodeProgram (insns : List BpfInsn) : Option (List UInt8) := (insns.mapM encode).map List.flatten

end RandVerifier
