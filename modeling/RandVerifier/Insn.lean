/-
  RandVerifier.Insn — the decoded instructions (`BpfInsn` of `src/insn.rs`).

  A register number is a `Fin 11`: the decoder rejects every register above R10
  (`DecodeError::InvalidRegister`), so the source's `check_reg` cannot fail on a decoded
  instruction. Immediates and offsets keep the source's widths; `fd`, sizes and the
  upper half of a wide load are `u32`s.
-/

import Mathlib.Algebra.GroupWithZero.Nat
import Mathlib.Data.Fin.Basic

namespace RandVerifier

/-- R0..R10. -/
abbrev Reg := Fin 11

instance reg_neZero : NeZero 11 := ⟨by decide⟩

inductive MemSize where
  | b
  | h
  | w
  | dw
  deriving DecidableEq, Repr

def MemSize.bytes : MemSize → Nat
  | .b => 1
  | .h => 2
  | .w => 4
  | .dw => 8

/-- The `off` selector of a 64-bit multiplication. -/
inductive MulHigh where
  | low
  | unsignedHigh
  | signedHigh
  deriving DecidableEq, Repr

inductive AtomicOp where
  | add
  | or
  | and
  | xor
  | xchg
  | cmpxchg
  deriving DecidableEq, Repr

/-- The comparison of a 32-bit jump. -/
inductive Jmp32Op where
  | eq
  | ne
  | gt
  | ge
  | lt
  | le
  | sgt
  | sge
  | slt
  | sle
  deriving DecidableEq, Repr

inductive BpfInsn where
  | movImm (dst : Reg) (imm : Int32)
  | movReg (dst src : Reg)
  | mov32Imm (dst : Reg) (imm : Int32)
  | mov32Reg (dst src : Reg)
  | mulImm (dst : Reg) (imm : Int32) (high : MulHigh)
  | mulReg (dst src : Reg) (high : MulHigh)
  | divImm (dst : Reg) (imm : Int32)
  | divReg (dst src : Reg)
  | modImm (dst : Reg) (imm : Int32)
  | modReg (dst src : Reg)
  | neg (dst : Reg)
  | mul32Imm (dst : Reg) (imm : Int32)
  | mul32Reg (dst src : Reg)
  | div32Imm (dst : Reg) (imm : Int32)
  | div32Reg (dst src : Reg)
  | mod32Imm (dst : Reg) (imm : Int32)
  | mod32Reg (dst src : Reg)
  | neg32 (dst : Reg)
  | addImm (dst : Reg) (imm : Int32)
  | addReg (dst src : Reg)
  | subImm (dst : Reg) (imm : Int32)
  | subReg (dst src : Reg)
  | andImm (dst : Reg) (imm : Int32)
  | andReg (dst src : Reg)
  | orImm (dst : Reg) (imm : Int32)
  | orReg (dst src : Reg)
  | xorImm (dst : Reg) (imm : Int32)
  | xorReg (dst src : Reg)
  | lshImm (dst : Reg) (imm : Int32)
  | lshReg (dst src : Reg)
  | rshImm (dst : Reg) (imm : Int32)
  | rshReg (dst src : Reg)
  | arshImm (dst : Reg) (imm : Int32)
  | arshReg (dst src : Reg)
  | add32Imm (dst : Reg) (imm : Int32)
  | add32Reg (dst src : Reg)
  | sub32Imm (dst : Reg) (imm : Int32)
  | sub32Reg (dst src : Reg)
  | and32Imm (dst : Reg) (imm : Int32)
  | and32Reg (dst src : Reg)
  | or32Imm (dst : Reg) (imm : Int32)
  | or32Reg (dst src : Reg)
  | xor32Imm (dst : Reg) (imm : Int32)
  | xor32Reg (dst src : Reg)
  | lsh32Imm (dst : Reg) (imm : Int32)
  | lsh32Reg (dst src : Reg)
  | rsh32Imm (dst : Reg) (imm : Int32)
  | rsh32Reg (dst src : Reg)
  | arsh32Imm (dst : Reg) (imm : Int32)
  | arsh32Reg (dst src : Reg)
  | ldMem (dst base : Reg) (offset : Int16) (size : MemSize) (signExtend : Bool)
  | stMem (src base : Reg) (offset : Int16) (size : MemSize)
  | stMemImm (imm : Int32) (base : Reg) (offset : Int16) (size : MemSize)
  | ldImm64 (dst : Reg) (imm : UInt64)
  | ldMapFd (dst : Reg) (fd keySize valueSize mapType : Nat)
  | ldMapValue (dst : Reg) (fd offset keySize valueSize : Nat)
  /-- The second slot of a wide load, never executed. -/
  | ldImm64Second (immHi : Nat)
  | jeq (dst src : Reg) (offset : Int16)
  | jne (dst src : Reg) (offset : Int16)
  | jgt (dst src : Reg) (offset : Int16)
  | jge (dst src : Reg) (offset : Int16)
  | jlt (dst src : Reg) (offset : Int16)
  | jle (dst src : Reg) (offset : Int16)
  | jsgt (dst src : Reg) (offset : Int16)
  | jsge (dst src : Reg) (offset : Int16)
  | jslt (dst src : Reg) (offset : Int16)
  | jsle (dst src : Reg) (offset : Int16)
  | jeqImm (dst : Reg) (imm : Int32) (offset : Int16)
  | jneImm (dst : Reg) (imm : Int32) (offset : Int16)
  | jgtImm (dst : Reg) (imm : Int32) (offset : Int16)
  | jgeImm (dst : Reg) (imm : Int32) (offset : Int16)
  | jltImm (dst : Reg) (imm : Int32) (offset : Int16)
  | jleImm (dst : Reg) (imm : Int32) (offset : Int16)
  | jsgtImm (dst : Reg) (imm : Int32) (offset : Int16)
  | jsgeImm (dst : Reg) (imm : Int32) (offset : Int16)
  | jsltImm (dst : Reg) (imm : Int32) (offset : Int16)
  | jsleImm (dst : Reg) (imm : Int32) (offset : Int16)
  | jmp (offset : Int16)
  | jset (dst src : Reg) (offset : Int16)
  | jsetImm (dst : Reg) (imm : Int32) (offset : Int16)
  | jmp32 (dst : Reg) (src : Option Reg) (imm : Option Int32) (offset : Int16) (op : Jmp32Op)
  | atomic (dst src : Reg) (offset : Int16) (size : MemSize) (op : AtomicOp) (fetch : Bool)
  | ldAbs (size : MemSize) (imm : Int32)
  | ldInd (src : Reg) (size : MemSize) (imm : Int32)
  | call (imm : Int32)
  | callSub (offset : Int32)
  | callKfunc (btfId : Int32)
  | exit
  deriving DecidableEq, Repr

namespace BpfInsn

/-- Whether the instruction forks into a taken branch and a fall-through. -/
def isConditionalBranch : BpfInsn → Bool
  | jeq .. | jne .. | jgt .. | jge .. | jlt .. | jle .. | jsgt .. | jsge .. | jslt .. | jsle ..
  | jeqImm .. | jneImm .. | jgtImm .. | jgeImm .. | jltImm .. | jleImm .. | jsgtImm .. | jsgeImm ..
  | jsltImm .. | jsleImm .. | jset .. | jsetImm .. | jmp32 .. => true
  | _ => false

/-- Whether the instruction is expanded by `successors` instead of `step`. -/
def isControlFlow (insn : BpfInsn) : Bool :=
  (match insn with
    | exit | jmp .. => true
    | _ => false) || insn.isConditionalBranch

/-- A call of a subprogram. -/
def isCallSub : BpfInsn → Bool
  | callSub _ => true
  | _ => false

end BpfInsn

end RandVerifier
