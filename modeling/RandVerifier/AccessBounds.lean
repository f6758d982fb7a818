/-
  RandVerifier.AccessBounds — which memory the concrete interpreter touches.

  `attempts` lists the stack accesses that a step comes to check, with the exact 64-bit
  offset from R10 and the 32-bit offset that the interpreter checks in its place. A step is
  `WithinBounds` if it does not panic, checks every offset as it is, refuses what is outside
  the frame as such, and reads and writes the addressed bytes only.

  The sum of a stack pointer and an offset is cut to 32 bits, so an address that is off by
  2^32 passes; a map with keys or values of size 0 is a remainder by zero; a pointer into a
  frame that has returned is an unwrapped `None`; an access through a map pointer takes a
  whole 8-byte cell; and the store of an unwritten register clears a whole slot.

  - `attempt_fails`, `attempt_inactive`, `attempts_of_panic`: an attempt decides its step.
  - `Bounded.stackKept`, `Bounded.mapKept`: bytes that are not addressed keep their value.
  - `access_bounds`: a step is `WithinBounds` exactly if it is `Bounded`.
  - `wrapped_address`: an address 2^32 above the frame reads and writes the frame.
-/

import RandVerifier.ConcreteMemory

namespace RandVerifier.Explorer

/-! ## Accesses -/

/-- An access through a stack pointer. -/
structure StackAccess where
  addr : UInt64
  frameno : Nat
  off : Int16
  size : Nat

namespace StackAccess

/-- The offset from R10. -/
def start (a : StackAccess) : Int := stackOffset a.addr a.off

/-- The offset that the interpreter checks. -/
def checked (a : StackAccess) : Int32 := (a.addr.toInt64 - stackBase.toInt64 + a.off.toInt64).toInt32

def Inside (a : StackAccess) : Prop := -stackSize ≤ a.start ∧ a.start + a.size ≤ 0

/-- The access starts in the frame. -/
def Starts (a : StackAccess) : Prop := -stackSize ≤ a.start ∧ a.start < 0

def Addresses (a : StackAccess) (depth : Nat) (o : Int) : Prop :=
  a.frameno = depth ∧ a.start ≤ o ∧ o < a.start + a.size

end StackAccess

/-- The access through a register, if that holds a stack pointer. -/
def stackAccess (s : ConcreteState) (base : Reg) (off : Int16) (size : Nat) : List StackAccess :=
  match s.regs base with
  | some (.stackPtr addr frameno) => [⟨addr, frameno, off, size⟩]
  | _ => []

/-- The read of a helper's buffer; a larger one than 8 bytes is refused before. -/
def bufferAccess (s : ConcreteState) (r : Reg) (size : Nat) : List StackAccess :=
  if 8 < size then [] else stackAccess s r 0 size

/-- The stack accesses that a step comes to check: an update reads its value buffer only for
    an entry of the map. -/
def attempts (maps : Maps) (pc : Nat) (s : ConcreteState) : BpfInsn → List StackAccess
  | .ldMem _ base off size _ | .stMem _ base off size | .stMemImm _ base off size =>
    stackAccess s base off size.bytes
  | .atomic dst src off size _ _ =>
    if (s.regs src).any (·.isScalar) ∧ off.toInt % size.bytes = 0 then stackAccess s dst off size.bytes
    else []
  | .call imm =>
    match s.regs 1 with
    | some (.mapPtr fd none 0) =>
      match maps fd with
      | none => []
      | some info =>
        if imm = 1 then bufferAccess s 2 info.keySize
        else if imm = 2 then
          bufferAccess s 2 info.keySize ++
            match concreteMapBuffer pc s 2 info.keySize with
            | .ok index => if index.toNat < info.maxEntries then bufferAccess s 3 info.valueSize else []
            | .error _ => []
        else []
    | _ => []
  | _ => []

/-- A sum that the source leaves unchecked, with the width of its type. -/
structure UncheckedSum where
  value : Int
  bits : Nat
  deriving DecidableEq

def UncheckedSum.Fits (x : UncheckedSum) : Prop := -2 ^ (x.bits - 1) ≤ x.value ∧ x.value < 2 ^ (x.bits - 1)

/-- The sums of an address or a target. Moving a stack pointer forms its offset from the
    base and adds that to the base again. -/
def uncheckedSums (maps : Maps) (pc : Nat) (s : ConcreteState) (insn : BpfInsn) : List UncheckedSum :=
  let moved (o : Int) : UncheckedSum := ⟨stackBase.toInt64.toInt + o, 64⟩
  let target (off : Int) : UncheckedSum := ⟨(Int32.ofNat pc).toInt + 1 + off, 32⟩
  (attempts maps pc s insn).flatMap (fun a =>
      [⟨a.addr.toInt64.toInt - stackBase.toInt64.toInt, 64⟩, ⟨a.start, 64⟩]) ++
    match insn with
    | .addImm dst imm =>
      match s.regs dst with
      | some (.stackPtr addr _) =>
        let o := addr.toInt64.toInt - stackBase.toInt64.toInt
        [⟨o, 64⟩, moved (clampI64 (o + imm.toInt))]
      | _ => []
    | .addReg dst src =>
      match s.regs dst, s.regs src with
      | some (.stackPtr addr _), some (.scalar k) | some (.scalar k), some (.stackPtr addr _) =>
        [moved (addr.toInt64 - stackBase.toInt64 + k.toInt64).toInt]
      | _, _ => []
    | .ldMem _ base off _ _ =>
      match s.regs base with
      | some (.ctxPtr addr) => [⟨(addr - ctxBase).toInt64.toInt + off.toInt, 64⟩]
      | _ => []
    | .callSub off => [target off.toInt]
    | .jmp off => [target off.toInt]
    | insn => (insn.branchOffset.map fun off => target off.toInt).toList

/-! ## Bytes -/

/-- A byte of a frame by its offset from R10; an unwritten slot counts as 0. -/
def stackByte (s : ConcreteState) (depth : Nat) (o : Int) : UInt8 :=
  match concreteFrameStack s depth with
  | .ok stack => wordByte (slotWord (stack (slotOf o))) (o % 8).toNat
  | .error _ => 0

/-- Whether a frame is on the call stack. -/
def Active (s : ConcreteState) (depth : Nat) : Prop := depth = s.curframe ∨ s.savedAt depth ≠ none

def stackWord (s : ConcreteState) (depth : Nat) (o : Int) (n : Nat) : UInt64 :=
  compose (fun j => stackByte s depth (o + j)) n

/-- What is read of a buffer: the bytes up to the end of its first slot. -/
def bufferWord (s : ConcreteState) (depth : Nat) (o : Int) (n : Nat) : UInt64 :=
  compose (fun j => if o % 8 + j < 8 then stackByte s depth (o + j) else 0) n

/-- The bytes of a map entry that an instruction may write. -/
def MapAddresses (maps : Maps) (pc : Nat) (s : ConcreteState) (insn : BpfInsn) (c : Cell) (o : Int) : Prop :=
  match insn with
  | .stMem _ base off size => ∃ b, s.regs base = some (.mapPtr c.fd (some c.index) b) ∧
      b.toInt + off.toInt ≤ o ∧ o < b.toInt + off.toInt + size.bytes
  | .call imm => imm = 2 ∧ ∃ info, s.regs 1 = some (.mapPtr c.fd none 0) ∧ maps c.fd = some info ∧
      concreteMapBuffer pc s 2 info.keySize = .ok c.index ∧ 0 ≤ o ∧ o < info.valueSize
  | _ => False

/-! ## The property and its condition -/

/-- A step that never panics, checks each offset as it is, refuses an access outside the
    frame as out of bounds, and touches no byte that it does not address. -/
structure WithinBounds (p : Program) (pc : Nat) (s : ConcreteState) (mem : MapMem) (insn : BpfInsn) : Prop where
  noPanic : itemSuccessors p (pc, s) mem ≠ .error .panic
  noOverflow : ∀ x ∈ uncheckedSums p.maps pc s insn, x.Fits
  exact : ∀ a ∈ attempts p.maps pc s insn, a.checked.toInt = a.start
  exactCtx : ∀ dst base off size se addr, insn = .ldMem dst base off size se →
    s.regs base = some (.ctxPtr addr) →
    ((addr - ctxBase).toInt64 + off.toInt64).toInt32.toInt = (addr - ctxBase).toInt64.toInt + off.toInt
  outside : ∀ a ∈ attempts p.maps pc s insn, ¬ a.Inside →
    itemSuccessors p (pc, s) mem = halt (.stackOutOfFrame pc a.checked)
  -- of the frames that the step neither enters nor leaves
  stackKept : ∀ l mem', itemSuccessors p (pc, s) mem = .ok (l, mem') → ∀ x ∈ l, ∀ (d : Nat) (o : Int),
    -stackSize ≤ o → o < 0 → Active s d → (insn = .exit → d ≠ s.curframe) →
    (insn.isCallSub = true → d ≠ s.curframe + 1) → (∀ a ∈ attempts p.maps pc s insn, ¬ a.Addresses d o) →
    stackByte x.2 d o = stackByte s d o
  mapKept : ∀ l mem', itemSuccessors p (pc, s) mem = .ok (l, mem') → ∀ (c : Cell) (info : MapInfo),
    p.maps c.fd = some info → ∀ j : Nat, j < 8 → c.offset.toInt + j < info.valueSize →
    ¬ MapAddresses p.maps pc s insn c (c.offset.toInt + j) →
    wordByte (mem'.get c) j = wordByte (mem.get c) j
  stackRead : ∀ l mem', itemSuccessors p (pc, s) mem = .ok (l, mem') → ∀ dst base off size se addr d,
    insn = .ldMem dst base off size se → s.regs base = some (.stackPtr addr d) →
    ∃ v, l = [(pc + 1, s.setReg dst v)] ∧
      v.bits = extendWord size se (stackWord s d (stackOffset addr off) size.bytes)
  mapRead : ∀ l mem', itemSuccessors p (pc, s) mem = .ok (l, mem') → ∀ dst base off size se cell,
    insn = .ldMem dst base off size se → mapCell pc p.maps base off s = .ok cell →
    l = [(pc + 1, s.setReg dst (.scalar (extendWord size se (compose (wordByte (mem.get cell)) size.bytes))))]
  atomicRead : ∀ l mem', itemSuccessors p (pc, s) mem = .ok (l, mem') → ∀ dst src off size op fetch,
    insn = .atomic dst src off size op fetch → ∃ old next, l = [(pc + 1, next)] ∧
      next.regs = (if op = .cmpxchg then Function.update s.regs 0 (some old)
        else if fetch then Function.update s.regs src (some old) else s.regs) ∧
      (old = .scalar 0 ∨ ∃ addr d, s.regs dst = some (.stackPtr addr d) ∧ size = .dw ∧
        old.bits = stackWord s d (stackOffset addr off) 8)
  keyRead : ∀ l mem', itemSuccessors p (pc, s) mem = .ok (l, mem') → ∀ imm fd info addr d,
    insn = .call imm → (imm = 1 ∨ imm = 2) → s.regs 1 = some (.mapPtr fd none 0) → p.maps fd = some info →
    s.regs 2 = some (.stackPtr addr d) →
    let index := bufferWord s d (stackOffset addr 0) info.keySize
    l = returnForks pc s (if imm = 1 then lookupSeeds fd index info else [.scalar 0]) ∧
      (mem' = mem ∨ ∃ value vd, s.regs 3 = some (.stackPtr value vd) ∧
        mem' = mem.insert ⟨fd, index, 0⟩ (bufferWord s vd (stackOffset value 0) info.valueSize))

/-- The steps that the interpreter gets right. -/
structure Bounded (p : Program) (pc : Nat) (s : ConcreteState) (mem : MapMem) (insn : BpfInsn) : Prop where
  operand : ∀ dst off op d, insn = .jmp32 dst none none off op → s.regs dst ≠ some (.scalar d)
  sums : ∀ x ∈ uncheckedSums p.maps pc s insn, x.Fits
  near : ∀ a ∈ attempts p.maps pc s insn, -2 ^ 31 ≤ a.start ∧ a.start < 2 ^ 31
  nearCtx : ∀ dst base off size se addr, insn = .ldMem dst base off size se →
    s.regs base = some (.ctxPtr addr) →
    -2 ^ 31 ≤ (addr - ctxBase).toInt64.toInt + off.toInt ∧ (addr - ctxBase).toInt64.toInt + off.toInt < 2 ^ 31
  -- no access starts in the frame and runs past its top
  top : ∀ a ∈ attempts p.maps pc s insn, a.Starts → a.start + a.size ≤ 0
  sized : ∀ a ∈ attempts p.maps pc s insn, a.Starts → a.size ≠ 0
  active : ∀ a ∈ attempts p.maps pc s insn, a.Starts → a.start % a.size = 0 → Active s a.frameno
  -- an unwritten register is stored whole, or next to zeros
  unwritten : ∀ src base off size, insn = .stMem src base off size → s.regs src = none →
    ∀ a ∈ attempts p.maps pc s insn, a.Starts → a.start % a.size = 0 →
    ∀ o : Int, -stackSize ≤ o → o < 0 → slotOf o = slotOf a.start → ¬ a.Addresses a.frameno o →
    stackByte s a.frameno o = 0
  -- a map value is accessed in words, or the rest of the word is as the access makes it
  mapStore : ∀ src base off size cell v, insn = .stMem src base off size →
    mapCell pc p.maps base off s = .ok cell → s.regs src = some v →
    ∀ j : Nat, j < 8 → size.bytes ≤ j → wordByte v.bits j = wordByte (mem.get cell) j
  mapLoad : ∀ dst base off size se cell, insn = .ldMem dst base off size se →
    mapCell pc p.maps base off s = .ok cell →
    mem.get cell = extendWord size se (compose (wordByte (mem.get cell)) size.bytes)

/-! ## An attempt decides its step -/

section Attempts

variable {p : Program} {pc : Nat} {s : ConcreteState} {mem : MapMem} {insn : BpfInsn} {a : StackAccess}
  {maps : Maps}

theorem mem_stackAccess {base : Reg} {off : Int16} {size : Nat} (h : a ∈ stackAccess s base off size) :
    s.regs base = some (.stackPtr a.addr a.frameno) ∧ a.off = off ∧ a.size = size := by
  unfold stackAccess at h
  split at h
  · rename_i addr frameno hbase
    rw [List.mem_singleton.mp h]
    exact ⟨hbase, rfl, rfl⟩
  · cases h

theorem mem_bufferAccess {r : Reg} {size : Nat} (h : a ∈ bufferAccess s r size) :
    s.regs r = some (.stackPtr a.addr a.frameno) ∧ a.off = 0 ∧ a.size = size ∧ size ≤ 8 := by
  unfold bufferAccess at h
  split at h
  · cases h
  · obtain ⟨h1, h2, h3⟩ := mem_stackAccess h
    exact ⟨h1, h2, h3, by omega⟩

theorem readConcreteReg_some {r : Reg} {v : ConcreteValue} (h : s.regs r = some v) :
    readConcreteReg pc s r = .ok v := by
  rw [readConcreteReg, h]

/-- The offset of a buffer is checked as that of an access without displacement. -/
theorem checked_zero (h : a.off = 0) : (a.addr.toInt64 - stackBase.toInt64).toInt32 = a.checked := by
  rw [StackAccess.checked, h]
  rw [show (0 : Int16).toInt64 = 0 from rfl, Int64.add_zero]

/-- The outcome of an access that fails or panics before it touches the frame. -/
def StackAccess.stops (a : StackAccess) (pc : Nat) (s : ConcreteState) : Option Halt :=
  match concreteStackRange pc a.checked a.size with
  | .error e => some e
  | .ok _ =>
    match concreteFrameStack s a.frameno with
    | .error e => some e
    | .ok _ => none

theorem frame_error {d : Nat} {e : Halt} (h : concreteFrameStack s d = .error e) :
    e = .panic ∧ ¬ Active s d := by
  unfold concreteFrameStack at h
  split at h
  · cases h
  · rename_i hcur
    split at h
    · rename_i hat
      cases h
      exact ⟨rfl, fun hactive => hactive.elim hcur fun hne => hne hat⟩
    · cases h

theorem frame_ok {d : Nat} (h : Active s d) : ∃ stack, concreteFrameStack s d = .ok stack := by
  cases hf : concreteFrameStack s d with
  | ok stack => exact ⟨stack, rfl⟩
  | error e => exact absurd h (frame_error hf).2

theorem setFrameSlot_error {d : Nat} {e : Halt} {slot : Fin stackSlots} {v : Option ConcreteValue}
    (h : concreteFrameStack s d = .error e) : setFrameSlot s d slot v = .error e := by
  unfold concreteFrameStack at h
  unfold setFrameSlot
  split at h
  · cases h
  · rename_i hcur
    rw [if_neg hcur]
    split at h
    · cases h
      rfl
    · cases h

theorem setFrameSlot_ok {d : Nat} {stack : ConcreteStack} {slot : Fin stackSlots} {v : Option ConcreteValue}
    (h : concreteFrameStack s d = .ok stack) : ∃ s', setFrameSlot s d slot v = .ok s' := by
  unfold concreteFrameStack at h
  unfold setFrameSlot
  split at h
  · rename_i hcur
    rw [if_pos hcur]
    exact ⟨_, rfl⟩
  · rename_i hcur
    rw [if_neg hcur]
    split at h
    · cases h
    · exact ⟨_, rfl⟩

theorem concreteMerge_ok {d i n : Nat} {stack : ConcreteStack} {slot : Fin stackSlots} {v : ConcreteValue}
    (h : concreteFrameStack s d = .ok stack) : ∃ s', concreteMerge s d slot i n v = .ok s' := by
  rw [concreteMerge, h]
  by_cases hfull : i = 0 ∧ n = 8
  · obtain ⟨s', hs'⟩ := @setFrameSlot_ok s d stack slot (some v) h
    exact ⟨s', (if_pos hfull).trans hs'⟩
  · obtain ⟨s', hs'⟩ := @setFrameSlot_ok s d stack slot _ h
    exact ⟨s', (if_neg hfull).trans hs'⟩

/-- An access that stops ends whatever continues from its range. -/
theorem stops_bind {α : Type} {e : Halt} {k : Fin stackSlots × Nat → Eval α} (h : a.stops pc s = some e)
    (hk : ∀ x e', concreteFrameStack s a.frameno = .error e' → k x = .error e') :
    (concreteStackRange pc a.checked a.size >>= k) = .error e := by
  unfold StackAccess.stops at h
  split at h
  · rename_i e' hrange
    cases h
    rw [hrange]
    rfl
  · rename_i x hrange
    rw [hrange]
    split at h
    · rename_i e' hframe
      cases h
      exact hk x _ hframe
    · cases h

/-- A panic of what continues from the range of an access is that of the access. -/
theorem panic_stops {α : Type} {k : Fin stackSlots × Nat → Eval α}
    (h : (concreteStackRange pc a.checked a.size >>= k) = .error .panic)
    (hk : ∀ x stack, concreteFrameStack s a.frameno = .ok stack → k x ≠ .error .panic) :
    a.stops pc s = some .panic := by
  unfold StackAccess.stops
  cases hrange : concreteStackRange pc a.checked a.size with
  | error e =>
    rw [hrange] at h
    cases h
    rfl
  | ok x =>
    rw [hrange] at h
    dsimp only
    cases hframe : concreteFrameStack s a.frameno with
    | error e => rw [(frame_error hframe).1]
    | ok stack => exact absurd h (hk x stack hframe)

/-! ### One instruction at a time -/

theorem stMem_eq {src base : Reg} {off : Int16} {size : MemSize} (ha : a ∈ stackAccess s base off size.bytes) :
    concreteStMem pc s src base off size = (concreteStackRange pc a.checked a.size >>= fun x =>
      match s.regs src with
      | none => setFrameSlot s a.frameno x.1 none
      | some v => concreteMerge s a.frameno x.1 x.2 size.bytes v) := by
  obtain ⟨hbase, rfl, hsize⟩ := mem_stackAccess ha
  rw [concreteStMem, readConcreteReg_some hbase, hsize]
  rfl

theorem stMemImm_eq {imm : Int32} {base : Reg} {off : Int16} {size : MemSize}
    (ha : a ∈ stackAccess s base off size.bytes) :
    concreteStMemImm pc s imm base off size = (concreteStackRange pc a.checked a.size >>= fun x =>
      concreteMerge s a.frameno x.1 x.2 size.bytes (.scalar imm.toInt64.toUInt64)) := by
  obtain ⟨hbase, rfl, hsize⟩ := mem_stackAccess ha
  rw [concreteStMemImm, readConcreteReg_some hbase, hsize]
  rfl

theorem ldMem_eq {dst base : Reg} {off : Int16} {size : MemSize} {se : Bool}
    (ha : a ∈ stackAccess s base off size.bytes) :
    concreteLdMem pc s dst base off size se = (concreteStackRange pc a.checked a.size >>= fun x =>
      concreteFrameStack s a.frameno >>= fun stack =>
        match stack x.1 with
        | none => halt (.uninitializedStackRead pc a.checked)
        | some v => .ok (s.setReg dst (concreteExtract v x.2 size.bytes se))) := by
  obtain ⟨hbase, rfl, hsize⟩ := mem_stackAccess ha
  rw [concreteLdMem, readConcreteReg_some hbase, hsize]
  rfl

theorem atomicTarget_eq {dst : Reg} {off : Int16} {size : MemSize} (ha : a ∈ stackAccess s dst off size.bytes) :
    atomicTarget pc s dst (.stackPtr a.addr a.frameno) off size =
      (concreteStackRange pc a.checked a.size >>= fun x => concreteFrameStack s a.frameno >>= fun stack =>
        match stack x.1 with
        | none => halt (.uninitializedStackRead pc a.checked)
        | some v => .ok (if size.bytes = 8 ∧ x.2 = 0 then v else .scalar 0, some (a.frameno, x.1, x.2))) := by
  obtain ⟨hbase, rfl, hsize⟩ := mem_stackAccess ha
  rw [atomicTarget, hsize]
  rfl

theorem buffer_eq {r : Reg} {size : Nat} (ha : a ∈ bufferAccess s r size) :
    concreteMapBuffer pc s r size = (concreteStackRange pc a.checked a.size >>= fun x =>
      concreteFrameStack s a.frameno >>= fun stack =>
        match stack x.1 with
        | none => halt (.uninitializedStackRead pc a.checked)
        | some v =>
          match concreteExtract v x.2 size false with
          | .scalar v => .ok v
          | _ => halt (.pointerArithmetic pc r)) := by
  obtain ⟨hbase, hoff, hsize, hle⟩ := mem_bufferAccess ha
  rw [concreteMapBuffer, hbase]
  dsimp only
  rw [if_neg (by omega), checked_zero hoff, hsize] <;> rfl

theorem itemSuccessors_eq (hget : p.insns[pc]? = some insn) (hexit : insn ≠ .exit) :
    itemSuccessors p (pc, s) mem = concreteSuccessors pc insn s p.maps mem := by
  unfold itemSuccessors
  dsimp only
  rw [hget]
  cases insn with
  | exit => exact absurd rfl hexit
  | _ => rfl

/-- The instructions that may go to the map memory. -/
def mayUseMaps : BpfInsn → Bool
  | .ldMem .. | .stMem .. | .call _ => true
  | _ => false

theorem concreteSuccessors_pure (h : mayUseMaps insn = false) :
    concreteSuccessors pc insn s maps mem = (pureSuccessors pc insn s).map (·, mem) := by
  cases insn with
  | ldMem | stMem | call => cases h
  | _ => rfl

theorem isMapPtr_stack {base : Reg} {addr : UInt64} {d : Nat} (h : s.regs base = some (.stackPtr addr d)) :
    s.isMapPtr base = false := by
  rw [ConcreteState.isMapPtr, h]

/-- A stopped instruction stops its step. -/
theorem step_error {e : Halt}
    (hpure : concreteSuccessors pc insn s maps mem = (pureSuccessors pc insn s).map (·, mem))
    (hstep : pureSuccessors pc insn s = (concreteStep pc s insn >>= fun next => .ok [(pc + 1, next)]))
    (h : concreteStep pc s insn = .error e) : concreteSuccessors pc insn s maps mem = .error e := by
  rw [hpure, hstep, h]
  rfl

theorem mapCall_eq {imm : Int32} {fd : Nat} {info : MapInfo} (hr1 : s.regs 1 = some (.mapPtr fd none 0))
    (hinfo : maps fd = some info) :
    concreteMapCall pc imm s maps mem = (concreteMapBuffer pc s 2 info.keySize >>= fun index =>
      if imm = 1 then .ok (returnForks pc s (lookupSeeds fd index info), mem)
      else updateElem pc s fd index info mem >>= fun mem' => .ok (returnForks pc s [.scalar 0], mem')) := by
  unfold concreteMapCall
  split
  · rename_i fd' hr1'
    obtain rfl := (ConcreteValue.mapPtr.inj (Option.some.inj (hr1.symm.trans hr1'))).1
    rw [hinfo]
  · rename_i hno
    exact absurd hr1 (hno fd)

theorem mapCall_error {imm : Int32} {e : Halt} {fd : Nat} {info : MapInfo}
    (hr1 : s.regs 1 = some (.mapPtr fd none 0)) (hinfo : maps fd = some info)
    (h : concreteMapBuffer pc s 2 info.keySize = .error e) : concreteMapCall pc imm s maps mem = .error e := by
  rw [mapCall_eq hr1 hinfo, h]
  rfl

theorem updateCall_error {e : Halt} {fd : Nat} {info : MapInfo} {index : UInt64}
    (hr1 : s.regs 1 = some (.mapPtr fd none 0)) (hinfo : maps fd = some info)
    (hkey : concreteMapBuffer pc s 2 info.keySize = .ok index) (hlt : index.toNat < info.maxEntries)
    (h : concreteMapBuffer pc s 3 info.valueSize = .error e) : concreteMapCall pc 2 s maps mem = .error e := by
  rw [mapCall_eq hr1 hinfo, hkey]
  simp only [bind, Except.bind]
  rw [if_neg (by decide), updateElem, if_pos hlt, h]
  rfl

theorem buffer_stops {r : Reg} {size : Nat} {e : Halt} (ha : a ∈ bufferAccess s r size)
    (h : a.stops pc s = some e) : concreteMapBuffer pc s r size = .error e := by
  rw [buffer_eq ha]
  refine stops_bind h fun x e' hf => ?_
  rw [hf]
  rfl

/-- The accesses of a map helper: its key, and the value of an update. -/
theorem mem_attempts_call {imm : Int32} (ha : a ∈ attempts maps pc s (.call imm)) :
    ∃ fd info, s.regs 1 = some (.mapPtr fd none 0) ∧ maps fd = some info ∧
      ((imm = 1 ∨ imm = 2) ∧ a ∈ bufferAccess s 2 info.keySize ∨
        imm = 2 ∧ ∃ index, concreteMapBuffer pc s 2 info.keySize = .ok index ∧ index.toNat < info.maxEntries ∧
          a ∈ bufferAccess s 3 info.valueSize) := by
  unfold attempts at ha
  dsimp only at ha
  split at ha
  · rename_i fd hr1
    split at ha
    · cases ha
    · rename_i info hinfo
      refine ⟨fd, info, hr1, hinfo, ?_⟩
      split at ha
      · rename_i h1
        exact .inl ⟨.inl h1, ha⟩
      · split at ha
        · rename_i h2
          rcases List.mem_append.mp ha with hkey | hvalue
          · exact .inl ⟨.inr h2, hkey⟩
          · split at hvalue
            · rename_i index hindex
              split at hvalue
              · rename_i hlt
                exact .inr ⟨h2, index, hindex, hlt, hvalue⟩
              · cases hvalue
            · cases hvalue
        · cases ha
  · cases ha

/-- A stopped access stops its step. -/
theorem attempt_stops {e : Halt} (hget : p.insns[pc]? = some insn) (ha : a ∈ attempts p.maps pc s insn)
    (h : a.stops pc s = some e) : itemSuccessors p (pc, s) mem = .error e := by
  have hframe : ∀ {α : Type} (k : ConcreteStack → Eval α) e', concreteFrameStack s a.frameno = .error e' →
      (concreteFrameStack s a.frameno >>= k) = .error e' := by
    intro α k e' hf
    rw [hf]
    rfl
  cases insn with
  | ldMem dst base off size se =>
    rw [itemSuccessors_eq hget (by simp)]
    have hmap := isMapPtr_stack (mem_stackAccess ha).1
    refine step_error (by rw [concreteSuccessors, hmap]; rfl) rfl ?_
    exact (ldMem_eq ha).trans (stops_bind h fun x e' hf => hframe _ e' hf)
  | stMem src base off size =>
    rw [itemSuccessors_eq hget (by simp)]
    have hmap := isMapPtr_stack (mem_stackAccess ha).1
    refine step_error (by rw [concreteSuccessors, hmap]; rfl) rfl ?_
    refine (stMem_eq ha).trans (stops_bind h fun x e' hf => ?_)
    split
    · exact setFrameSlot_error hf
    · exact hframe _ e' hf
  | stMemImm imm base off size =>
    rw [itemSuccessors_eq hget (by simp)]
    refine step_error rfl rfl ?_
    exact (stMemImm_eq ha).trans (stops_bind h fun x e' hf => hframe _ e' hf)
  | atomic dst src off size op fetch =>
    rw [itemSuccessors_eq hget (by simp)]
    refine step_error rfl rfl ?_
    unfold attempts at ha
    dsimp only at ha
    split at ha
    · rename_i hsrc
      obtain ⟨hscalar, hal⟩ := hsrc
      obtain ⟨v, hv, hkind⟩ := (Option.any_eq_true _ _).mp hscalar
      cases v with
      | scalar k =>
        have htarget := (@atomicTarget_eq pc s a dst off size ha).trans
          (stops_bind h fun x e' hf => hframe _ e' hf)
        have hstep : concreteStep pc s (.atomic dst src off size op fetch) =
            concreteAtomic pc s dst src off size op fetch := rfl
        rw [hstep, concreteAtomic, readConcreteReg_some (mem_stackAccess ha).1, readConcreteReg_some hv]
        simp only [bind, Except.bind]
        rw [if_neg (not_not.mpr hal), htarget]
      | _ => cases hkind
    · cases ha
  | call imm =>
    rw [itemSuccessors_eq hget (by simp)]
    obtain ⟨fd, info, hr1, hinfo, hcase⟩ := mem_attempts_call ha
    rcases hcase with ⟨himm, hkey⟩ | ⟨rfl, index, hkey, hlt, hvalue⟩
    · rw [concreteSuccessors, if_pos himm]
      exact mapCall_error hr1 hinfo (buffer_stops hkey h)
    · rw [concreteSuccessors, if_pos (.inr rfl)]
      exact updateCall_error hr1 hinfo hkey hlt (buffer_stops hvalue h)
  | _ => cases ha

end Attempts

/-! ## Panics -/

def Calm {α : Type} (r : Eval α) : Prop := r ≠ .error .panic

namespace Calm

variable {α β : Type}

theorem ok (a : α) : Calm (.ok a : Eval α) := nofun

theorem halt (f : ConcreteFailure) : Calm (Explorer.halt f : Eval α) := nofun

theorem bind {x : Eval α} {k : α → Eval β} (hx : Calm x) (hk : ∀ a, Calm (k a)) : Calm (x >>= k) := by
  cases x with
  | error e => exact fun h => hx (by cases h; rfl)
  | ok a => exact hk a

theorem map {x : Eval α} (f : α → β) (hx : Calm x) : Calm (x.map f) := by
  cases x with
  | error e => exact fun h => hx (by cases h; rfl)
  | ok a => exact nofun

variable {pc : Nat} {s : ConcreteState} {dst src : Reg} {op : AluOp} {width : AluWidth}

theorem readReg (r : Reg) : Calm (readConcreteReg pc s r) := by
  unfold readConcreteReg
  split
  · exact halt _
  · exact ok _

theorem readScalar (r : Reg) (f : ConcreteFailure) : Calm (readConcreteScalar pc s r f) := by
  refine bind (readReg r) fun v => ?_
  split
  · exact ok _
  · exact halt _

theorem mapOffset (o k : Int64) : Calm (mapOffsetAdd pc dst o k) := by
  unfold mapOffsetAdd
  dsimp only
  split
  · exact ok _
  · exact halt _

theorem ctxMove (addr k : UInt64) : Calm (ctxPtrMove pc dst addr k op width) := by
  unfold ctxPtrMove
  split
  · exact halt _
  · split
    · exact ok _
    · exact ok _
    · exact halt _

theorem aluImm {imm : Int32} : Calm (concreteAluImm pc s dst imm op width) := by
  unfold concreteAluImm
  split
  · exact halt _
  · refine bind (readReg dst) fun v => ?_
    split
    · exact ok _
    · split
      · exact halt _
      · exact ok _
    · split
      · exact halt _
      · exact bind (mapOffset _ _) fun _ => ok _
    · exact bind (ctxMove _ _) fun _ => ok _
    · exact halt _

theorem aluValue (a b : ConcreteValue) : Calm (concreteAluValue pc dst op width a b) := by
  unfold concreteAluValue
  split
  · exact ok _
  · split
    · exact halt _
    · exact ok _
  · split
    · exact halt _
    · exact ok _
  · split
    · exact halt _
    · exact bind (mapOffset _ _) fun _ => ok _
  · split
    · exact halt _
    · exact bind (mapOffset _ _) fun _ => ok _
  · exact ctxMove _ _
  · exact ctxMove _ _
  · exact halt _

theorem aluReg : Calm (concreteAluReg pc s dst src op width) :=
  bind (readReg dst) fun _ => bind (readReg src) fun _ => bind (aluValue _ _) fun _ => ok _

theorem mulHigh {imm : Int32} {high : MulHigh} : Calm (concreteMulHigh pc s dst imm high) :=
  bind (readScalar _ _) fun _ => ok _

theorem mulHighReg {high : MulHigh} : Calm (concreteMulHighReg pc s dst src high) := by
  unfold concreteMulHighReg
  split
  · exact aluReg
  · refine bind (readReg dst) fun a => bind (readReg src) fun b => ?_
    split
    · exact ok _
    · exact halt _

theorem neg : Calm (concreteNeg pc s dst width) := bind (readScalar _ _) fun _ => ok _

theorem ctxRead {addr : UInt64} {off : Int16} {size : MemSize} : Calm (concreteCtxRead pc s dst addr off size) := by
  unfold concreteCtxRead
  dsimp only
  split
  · exact ok _
  · exact halt _
  · exact halt _
  · exact halt _

theorem condEq {cond : CondOp} {same : Bool} {f : ConcreteFailure} : Calm (condEqual cond same f) := by
  unfold condEqual
  split
  · exact ok _
  · exact ok _
  · exact halt _

theorem taken {cond : CondOp} {f : ConcreteFailure} (a b : ConcreteValue) : Calm (concreteTaken cond f a b) := by
  unfold concreteTaken
  split
  case h_6 | h_7 | h_8 | h_9 =>
    split
    · exact condEq
    · exact ok _
  all_goals first | exact condEq | exact ok _

theorem takenImm {cond : CondOp} {f : ConcreteFailure} {imm : Int32} (a : ConcreteValue) :
    Calm (concreteTakenImm cond f imm a) := by
  unfold concreteTakenImm
  split
  · exact ok _
  · split
    · exact condEq
    · exact ok _
  · split
    · exact condEq
    · exact ok _
  · exact ok _

theorem cond {off : Int16} {cond : CondOp} : Calm (concreteCond pc dst src off cond s) :=
  bind (readReg _) fun _ => bind (readReg _) fun _ => bind (taken _ _) fun _ => ok _

theorem condImm {imm : Int32} {off : Int16} {cond : CondOp} : Calm (concreteCondImm pc dst imm off cond s) :=
  bind (readReg _) fun _ => bind (takenImm _) fun _ => ok _

theorem checkArgs (args : List ArgType) (r : Reg) : Calm (checkConcreteArgsFrom pc s r args) := by
  induction args generalizing r with
  | nil => exact ok _
  | cons expected rest ih =>
    refine bind (readReg r) fun v => ?_
    split
    · exact ih _
    · exact halt _

theorem call {imm : Int32} : Calm (concreteCall pc imm s) := by
  unfold concreteCall
  split
  · exact halt _
  · refine bind (checkArgs _ _) fun _ => bind ?_ fun _ => ok _
    unfold helperReturnSeeds
    split
    · split
      · exact ok _
      · exact ok _
    · exact ok _
    · exact ok _
    · exact halt _

theorem jmp32 {r : Option Reg} {imm : Option Int32} {off : Int16} {op : Jmp32Op}
    (h : r = none → imm = none → ∀ d, s.regs dst ≠ some (.scalar d)) :
    Calm (concreteJmp32 pc dst r imm off op s) := by
  cases hd : readConcreteScalar pc s dst (.invalidComparisonImm pc dst) with
  | error e =>
    have hcalm := @readScalar pc s dst (.invalidComparisonImm pc dst)
    rw [hd] at hcalm
    intro hpanic
    rw [concreteJmp32, hd] at hpanic
    cases hpanic
    exact hcalm rfl
  | ok d =>
    rw [concreteJmp32, hd]
    change Calm (jmp32Operand pc dst s r imm >>= fun v => .ok (branchTo pc s off (jmp32Holds op d.toUInt32 v)))
    refine bind ?_ fun _ => ok _
    unfold jmp32Operand
    split
    · exact bind (readScalar _ _) fun _ => ok _
    · exact ok _
    · refine absurd ?_ (h rfl rfl d)
      unfold readConcreteScalar readConcreteReg at hd
      cases hreg : s.regs dst with
      | none =>
        rw [hreg] at hd
        cases hd
      | some v =>
        rw [hreg] at hd
        cases v with
        | scalar x =>
          cases hd
          rfl
        | _ => cases hd

def isLoad : BpfInsn → Bool
  | .ldMem .. => true
  | _ => false

/-- The instructions that neither access the stack nor lack an operand. -/
theorem pure {insn : BpfInsn} (hstore : isStackStore insn = false) (hload : isLoad insn = false)
    (hoperand : ∀ dst off op d, insn = .jmp32 dst none none off op → s.regs dst ≠ some (.scalar d)) :
    Calm (pureSuccessors pc insn s) := by
  cases insn with
  | stMem | stMemImm | atomic => cases hstore
  | ldMem => cases hload
  | exit | jmp | ldMapFd | ldMapValue => exact ok _
  | movImm | mov32Imm | ldAbs | ldImm64 | ldImm64Second => exact ok _
  | callKfunc => exact halt _
  | callSub off =>
    refine bind ?_ fun _ => ok _
    unfold ConcreteState.callSubprog
    split
    · exact ok _
    · exact halt _
  | jeq | jne | jgt | jge | jlt | jle | jsgt | jsge | jslt | jsle => exact cond
  | jeqImm | jneImm | jgtImm | jgeImm | jltImm | jleImm | jsgtImm | jsgeImm | jsltImm | jsleImm => exact condImm
  | jset =>
    refine bind (readReg _) fun a => bind (readReg _) fun b => ?_
    split
    · exact ok _
    · exact halt _
  | jsetImm => exact bind (readScalar _ _) fun _ => ok _
  | jmp32 dst r imm off op =>
    refine jmp32 fun hr himm d => ?_
    subst hr himm
    exact hoperand dst off op d rfl
  | call => exact call
  | mov32Reg => exact bind (bind (readScalar _ _) fun _ => ok _) fun _ => ok _
  | movReg | ldInd => exact bind (bind (readReg _) fun _ => ok _) fun _ => ok _
  | addImm | subImm | andImm | orImm | xorImm | lshImm | rshImm | arshImm | add32Imm | sub32Imm
  | and32Imm | or32Imm | xor32Imm | lsh32Imm | rsh32Imm | arsh32Imm | divImm | modImm | mul32Imm
  | div32Imm | mod32Imm => exact bind aluImm fun _ => ok _
  | addReg | subReg | andReg | orReg | xorReg | lshReg | rshReg | arshReg | add32Reg | sub32Reg
  | and32Reg | or32Reg | xor32Reg | lsh32Reg | rsh32Reg | arsh32Reg | divReg | modReg | mul32Reg
  | div32Reg | mod32Reg => exact bind aluReg fun _ => ok _
  | mulImm => exact bind mulHigh fun _ => ok _
  | mulReg => exact bind mulHighReg fun _ => ok _
  | neg | neg32 => exact bind neg fun _ => ok _

theorem cell {maps : Maps} {base : Reg} {off : Int16} : Calm (mapCell pc maps base off s) := by
  unfold mapCell
  split
  · split
    · exact halt _
    · dsimp only
      split
      · exact halt _
      · split
        · exact halt _
        · split
          · exact halt _
          · exact ok _
  · exact halt _

theorem mapAccess {maps : Maps} {mem : MapMem} {access : MapAccess} {base : Reg} {off : Int16} :
    Calm (concreteMapAccess pc access base off s maps mem) := by
  refine bind cell fun c => ?_
  split
  · exact bind (readReg _) fun _ => ok _
  · exact ok _

end Calm

section Steps

variable {p : Program} {pc : Nat} {s : ConcreteState} {mem mem' : MapMem} {insn : BpfInsn} {a : StackAccess}
  {maps : Maps} {l : List ConcreteSucc}

theorem mem_bufferAccess_of {r : Reg} {size : Nat} {addr : UInt64} {d : Nat} (hr : s.regs r = some (.stackPtr addr d))
    (hsize : size ≤ 8) : (⟨addr, d, 0, size⟩ : StackAccess) ∈ bufferAccess s r size := by
  rw [bufferAccess, if_neg (by omega), stackAccess, hr]
  exact List.mem_singleton.mpr rfl

/-- A buffer that panics is read. -/
theorem buffer_panic {r : Reg} {size : Nat} (h : concreteMapBuffer pc s r size = .error .panic) :
    ∃ a ∈ bufferAccess s r size, a.stops pc s = some .panic := by
  by_cases hread : ∃ addr d, s.regs r = some (.stackPtr addr d) ∧ size ≤ 8
  · obtain ⟨addr, d, hr, hsize⟩ := hread
    have ha := mem_bufferAccess_of hr hsize
    refine ⟨_, ha, panic_stops ((buffer_eq ha).symm.trans h) fun x stack hf => ?_⟩
    refine Calm.bind (by rw [hf]; exact Calm.ok _) fun st => ?_
    split
    · exact Calm.halt _
    · split
      · exact Calm.ok _
      · exact Calm.halt _
  · unfold concreteMapBuffer at h
    split at h
    · rename_i addr d hr
      split at h
      · cases h
      · exact absurd ⟨addr, d, hr, by omega⟩ hread
    · cases h

theorem attempts_key {imm : Int32} {fd : Nat} {info : MapInfo} (himm : imm = 1 ∨ imm = 2)
    (hr1 : s.regs 1 = some (.mapPtr fd none 0)) (hinfo : maps fd = some info)
    (ha : a ∈ bufferAccess s 2 info.keySize) : a ∈ attempts maps pc s (.call imm) := by
  unfold attempts
  dsimp only
  split
  · rename_i fd' hr1'
    obtain rfl := (ConcreteValue.mapPtr.inj (Option.some.inj (hr1.symm.trans hr1'))).1
    rw [hinfo]
    dsimp only
    rcases himm with rfl | rfl
    · rw [if_pos rfl]
      exact ha
    · rw [if_neg (by decide), if_pos rfl]
      exact List.mem_append_left _ ha
  · rename_i hno
    exact absurd hr1 (hno fd)

theorem attempts_value {fd : Nat} {info : MapInfo} {index : UInt64} (hr1 : s.regs 1 = some (.mapPtr fd none 0))
    (hinfo : maps fd = some info) (hkey : concreteMapBuffer pc s 2 info.keySize = .ok index)
    (hlt : index.toNat < info.maxEntries) (ha : a ∈ bufferAccess s 3 info.valueSize) :
    a ∈ attempts maps pc s (.call 2) := by
  unfold attempts
  dsimp only
  split
  · rename_i fd' hr1'
    obtain rfl := (ConcreteValue.mapPtr.inj (Option.some.inj (hr1.symm.trans hr1'))).1
    rw [hinfo]
    dsimp only
    rw [if_neg (by decide), if_pos rfl, hkey]
    dsimp only
    rw [if_pos hlt]
    exact List.mem_append_right _ ha
  · rename_i hno
    exact absurd hr1 (hno fd)

theorem mapCall_panic {imm : Int32} (himm : imm = 1 ∨ imm = 2)
    (h : concreteMapCall pc imm s maps mem = .error .panic) :
    ∃ a ∈ attempts maps pc s (.call imm), a.stops pc s = some .panic := by
  by_cases hmap : ∃ fd info, s.regs 1 = some (.mapPtr fd none 0) ∧ maps fd = some info
  · obtain ⟨fd, info, hr1, hinfo⟩ := hmap
    rw [mapCall_eq hr1 hinfo] at h
    cases hkey : concreteMapBuffer pc s 2 info.keySize with
    | error e =>
      rw [hkey] at h
      cases h
      obtain ⟨a, ha, hstops⟩ := buffer_panic hkey
      exact ⟨a, attempts_key himm hr1 hinfo ha, hstops⟩
    | ok index =>
      rw [hkey] at h
      change (if imm = 1 then _ else _) = _ at h
      split at h
      · cases h
      · rename_i hne
        obtain rfl := himm.resolve_left hne
        unfold updateElem at h
        split at h
        · rename_i hlt
          cases hvalue : concreteMapBuffer pc s 3 info.valueSize with
          | error e =>
            rw [hvalue] at h
            cases h
            obtain ⟨a, ha, hstops⟩ := buffer_panic hvalue
            exact ⟨a, attempts_value hr1 hinfo hkey hlt ha, hstops⟩
          | ok v =>
            rw [hvalue] at h
            refine absurd h (Calm.bind ?_ fun _ => Calm.ok _)
            simp only [bind, Except.bind]
            split
            · exact Calm.ok _
            · exact Calm.halt _
        · cases h
  · unfold concreteMapCall at h
    split at h
    · rename_i fd hr1
      split at h
      · cases h
      · rename_i info hinfo
        exact absurd ⟨fd, info, hr1, hinfo⟩ hmap
    · cases h

theorem mem_stackAccess_of {base : Reg} {off : Int16} {size : Nat} {addr : UInt64} {d : Nat}
    (hbase : s.regs base = some (.stackPtr addr d)) :
    (⟨addr, d, off, size⟩ : StackAccess) ∈ stackAccess s base off size := by
  rw [stackAccess, hbase]
  exact List.mem_singleton.mpr rfl

/-- Without a stack pointer in its base an access fails. -/
theorem notStack_calm {α : Type} {base : Reg} {off : Int16} (hno : ∀ addr d, s.regs base ≠ some (.stackPtr addr d))
    (k : Nat × Int32 → Eval α) :
    Calm (readConcreteReg pc s base >>= fun v => stackPtrAccess pc base v off >>= k) := by
  cases hv : s.regs base with
  | none =>
    rw [readConcreteReg, hv]
    exact Calm.halt _
  | some v =>
    rw [readConcreteReg_some hv]
    cases v with
    | stackPtr addr d => exact absurd hv (hno addr d)
    | _ => exact Calm.halt _

theorem stMem_panic {src base : Reg} {off : Int16} {size : MemSize}
    (h : concreteStMem pc s src base off size = .error .panic) :
    ∃ a ∈ stackAccess s base off size.bytes, a.stops pc s = some .panic := by
  by_cases hbase : ∃ addr d, s.regs base = some (.stackPtr addr d)
  · obtain ⟨addr, d, hbase⟩ := hbase
    have ha := @mem_stackAccess_of s base off size.bytes addr d hbase
    refine ⟨_, ha, panic_stops ((stMem_eq ha).symm.trans h) fun x stack hf => ?_⟩
    split
    · obtain ⟨s', hs'⟩ := @setFrameSlot_ok s d stack x.1 none hf
      rw [hs']
      exact Calm.ok _
    · rename_i v hv
      obtain ⟨s', hs'⟩ := @concreteMerge_ok s d x.2 size.bytes stack x.1 v hf
      rw [hs']
      exact Calm.ok _
  · exact absurd h (notStack_calm (fun addr d hb => hbase ⟨addr, d, hb⟩) _)

theorem stMemImm_panic {imm : Int32} {base : Reg} {off : Int16} {size : MemSize}
    (h : concreteStMemImm pc s imm base off size = .error .panic) :
    ∃ a ∈ stackAccess s base off size.bytes, a.stops pc s = some .panic := by
  by_cases hbase : ∃ addr d, s.regs base = some (.stackPtr addr d)
  · obtain ⟨addr, d, hbase⟩ := hbase
    have ha := @mem_stackAccess_of s base off size.bytes addr d hbase
    refine ⟨_, ha, panic_stops ((stMemImm_eq ha).symm.trans h) fun x stack hf => ?_⟩
    obtain ⟨s', hs'⟩ := @concreteMerge_ok s d x.2 size.bytes stack x.1 (.scalar imm.toInt64.toUInt64) hf
    rw [hs']
    exact Calm.ok _
  · exact absurd h (notStack_calm (fun addr d hb => hbase ⟨addr, d, hb⟩) _)

theorem ldMem_panic {dst base : Reg} {off : Int16} {size : MemSize} {se : Bool}
    (h : concreteLdMem pc s dst base off size se = .error .panic) :
    ∃ a ∈ stackAccess s base off size.bytes, a.stops pc s = some .panic := by
  by_cases hbase : ∃ addr d, s.regs base = some (.stackPtr addr d)
  · obtain ⟨addr, d, hbase⟩ := hbase
    have ha := @mem_stackAccess_of s base off size.bytes addr d hbase
    refine ⟨_, ha, panic_stops ((ldMem_eq ha).symm.trans h) fun x stack hf => ?_⟩
    refine Calm.bind (by rw [hf]; exact Calm.ok _) fun st => ?_
    split
    · exact Calm.halt _
    · exact Calm.ok _
  · refine absurd h ?_
    cases hv : s.regs base with
    | none =>
      rw [concreteLdMem, readConcreteReg, hv]
      exact Calm.halt _
    | some v =>
      rw [concreteLdMem, readConcreteReg_some hv]
      cases v with
      | stackPtr addr d => exact absurd ⟨addr, d, hv⟩ hbase
      | ctxPtr addr => exact Calm.ctxRead
      | _ => exact Calm.halt _

theorem atomicStore_calm {target : Option (Nat × Fin stackSlots × Nat)} {size : MemSize} {old : ConcreteValue}
    {result : UInt64} (h : ∀ t, target = some t → Active s t.1) : Calm (atomicStore s target size old result) := by
  unfold atomicStore
  split
  · rename_i frameno slot i x
    split
    · obtain ⟨stack, hf⟩ := frame_ok (h _ rfl)
      obtain ⟨s', hs'⟩ := @setFrameSlot_ok s frameno stack slot (some (.scalar result)) hf
      rw [hs']
      exact Calm.ok _
    · exact Calm.ok _
  · exact Calm.ok _

theorem active_of_frame {d : Nat} {stack : ConcreteStack} (h : concreteFrameStack s d = .ok stack) : Active s d := by
  by_contra hno
  unfold concreteFrameStack at h
  split at h
  · rename_i hcur
    exact hno (.inl hcur)
  · split at h
    · cases h
    · rename_i fr hat
      exact hno (.inr (by rw [hat]; nofun))

theorem atomic_panic {dst src : Reg} {off : Int16} {size : MemSize} {op : AtomicOp} {fetch : Bool}
    (h : concreteAtomic pc s dst src off size op fetch = .error .panic) :
    ∃ a ∈ attempts maps pc s (.atomic dst src off size op fetch), a.stops pc s = some .panic := by
  cases hd : s.regs dst with
  | none =>
    rw [concreteAtomic, readConcreteReg, hd] at h
    cases h
  | some base =>
    cases hv : s.regs src with
    | none =>
      rw [concreteAtomic, readConcreteReg_some hd, readConcreteReg, hv] at h
      cases h
    | some v =>
      rw [concreteAtomic, readConcreteReg_some hd, readConcreteReg_some hv] at h
      simp only [bind, Except.bind] at h
      split at h
      · cases h
      · rename_i k hctx
        split at h
        · cases h
        · rename_i hal
          by_cases hstack : ∃ addr d, base = .stackPtr addr d
          · obtain ⟨addr, d, rfl⟩ := hstack
            have ha := @mem_stackAccess_of s dst off size.bytes addr d hd
            have hmem : (⟨addr, d, off, size.bytes⟩ : StackAccess) ∈
                attempts maps pc s (.atomic dst src off size op fetch) := by
              unfold attempts
              dsimp only
              rw [hv, if_pos ⟨rfl, not_not.mp hal⟩]
              exact ha
            refine ⟨_, hmem, ?_⟩
            refine panic_stops (((@atomicTarget_eq pc s _ dst off size ha).symm).trans ?_) fun x stack hf => ?_
            · cases htarget : atomicTarget pc s dst (.stackPtr addr d) off size with
              | error e =>
                rw [htarget] at h
                cases h
                rfl
              | ok t =>
                rw [htarget] at h
                dsimp only at h
                generalize atomicResult op t.1.scalarBits k _ = result at h
                cases hstore : atomicStore s t.2 size t.1 result with
                | error e =>
                  rw [hstore] at h
                  cases h
                  refine absurd hstore (atomicStore_calm fun t' ht' => ?_)
                  rw [atomicTarget_eq ha] at htarget
                  obtain ⟨x, -, htarget₁⟩ := bind_eq_ok.mp htarget
                  obtain ⟨stack, hf, htarget₂⟩ := bind_eq_ok.mp htarget₁
                  split at htarget₂
                  · cases htarget₂
                  · cases htarget₂
                    cases ht'
                    exact active_of_frame hf
                | ok st =>
                  rw [hstore] at h
                  cases h
            · refine Calm.bind (by rw [hf]; exact Calm.ok _) fun st => ?_
              split
              · exact Calm.halt _
              · exact Calm.ok _
          · refine absurd h ?_
            cases base with
            | stackPtr addr d => exact absurd ⟨addr, d, rfl⟩ hstack
            | _ =>
              intro hpanic
              cases hpanic
      · cases h

/-- A panic is that of an access. -/
theorem attempts_of_panic (hget : p.insns[pc]? = some insn)
    (hoperand : ∀ dst off op d, insn = .jmp32 dst none none off op → s.regs dst ≠ some (.scalar d))
    (h : itemSuccessors p (pc, s) mem = .error .panic) :
    ∃ a ∈ attempts p.maps pc s insn, a.stops pc s = some .panic := by
  have hfall : ∀ {α β : Type} {x : Eval α} {k : α → β}, (x >>= fun v => Except.ok (k v)) = .error .panic →
      x = .error .panic := by
    intro α β x k hx
    cases x with
    | error e =>
      cases hx
      rfl
    | ok v => cases hx
  have hmap : ∀ {α β : Type} {x : Eval α} {k : α → β}, x.map k = .error .panic → x = .error .panic := by
    intro α β x k hx
    cases x with
    | error e =>
      cases hx
      rfl
    | ok v => cases hx
  by_cases hexit : insn = .exit
  · subst hexit
    unfold itemSuccessors at h
    dsimp only at h
    rw [hget] at h
    dsimp only at h
    split at h
    · split at h
      · cases h
      · cases h
    · exact absurd h (Calm.bind (Calm.readReg _) fun _ => Calm.ok _)
  · rw [itemSuccessors_eq hget hexit] at h
    cases insn with
    | ldMem dst base off size se =>
      rw [concreteSuccessors] at h
      split at h
      · exact absurd h Calm.mapAccess
      · exact ldMem_panic (hfall (hmap h))
    | stMem src base off size =>
      rw [concreteSuccessors] at h
      split at h
      · exact absurd h Calm.mapAccess
      · exact stMem_panic (hfall (hmap h))
    | stMemImm imm base off size => exact stMemImm_panic (hfall (hmap h))
    | atomic dst src off size op fetch => exact atomic_panic (hfall (hmap h))
    | call imm =>
      rw [concreteSuccessors] at h
      split at h
      · rename_i himm
        exact mapCall_panic himm h
      · exact absurd h (Calm.map _ Calm.call)
    | exit => exact absurd rfl hexit
    | _ =>
      rw [concreteSuccessors_pure rfl] at h
      exact absurd (hmap h) (Calm.pure rfl rfl hoperand)

end Steps

/-! ## When an access stops -/

namespace StackAccess

variable {a : StackAccess} {pc : Nat} {s : ConcreteState}

theorem checked_of_near (h : -2 ^ 31 ≤ a.start ∧ a.start < 2 ^ 31) : a.checked.toInt = a.start := by
  have hoff : a.off.toInt64.toInt = a.off.toInt := Int16.toInt_toInt64 a.off
  have hint := @toInt32_near a.addr.toInt64 stackBase.toInt64 a.off.toInt64
  rw [hoff] at hint
  exact hint h

theorem near_of_checked (h : a.checked.toInt = a.start) : -2 ^ 31 ≤ a.start ∧ a.start < 2 ^ 31 := by
  rw [← h]
  exact ⟨Int32.le_toInt _, Int32.toInt_lt _⟩

theorem range_outside (hc : a.checked.toInt = a.start) (h : ¬ a.Starts) :
    concreteStackRange pc a.checked a.size = halt (.stackOutOfFrame pc a.checked) := by
  unfold concreteStackRange
  dsimp only
  rw [hc, if_pos]
  unfold Starts at h
  omega

theorem range_unsized (hc : a.checked.toInt = a.start) (h : a.Starts) (hsize : a.size = 0) :
    concreteStackRange pc a.checked a.size = .error .panic := by
  unfold Starts at h
  unfold concreteStackRange
  dsimp only
  rw [hc, if_neg (by omega), if_pos hsize]

theorem range_misaligned (hc : a.checked.toInt = a.start) (h : a.Starts) (hsize : a.size ≠ 0)
    (hal : a.start % a.size ≠ 0) :
    concreteStackRange pc a.checked a.size = halt (.misalignedStackAccess pc a.checked) := by
  unfold Starts at h
  unfold concreteStackRange
  dsimp only
  rw [hc, if_neg (by omega), if_neg hsize, if_pos hal]

/-- An aligned access that starts in the frame ends in it. -/
theorem ends_of_aligned (h : a.Starts) (hal : a.start % a.size = 0) : a.start + a.size ≤ 0 := by
  obtain ⟨k, hk⟩ := Int.dvd_of_emod_eq_zero hal
  obtain ⟨-, hneg⟩ := h
  have hk0 : k < 0 := by
    by_contra hge
    have : 0 ≤ (a.size : Int) * k := Int.mul_nonneg (by omega) (by omega)
    omega
  have : (a.size : Int) * k ≤ a.size * (-1) := Int.mul_le_mul_of_nonneg_left (by omega) (by omega)
  omega

theorem range_aligned (hc : a.checked.toInt = a.start) (h : a.Starts) (hsize : a.size ≠ 0)
    (hal : a.start % a.size = 0) : ∃ x, concreteStackRange pc a.checked a.size = .ok x := by
  have hend := ends_of_aligned h hal
  unfold Starts at h
  unfold concreteStackRange
  dsimp only
  rw [hc, if_neg (by omega), if_neg hsize, if_neg (not_not.mpr hal), if_neg (by omega)]
  exact ⟨_, rfl⟩

theorem stops_of_range {e : Halt} (h : concreteStackRange pc a.checked a.size = .error e) : a.stops pc s = some e := by
  rw [stops, h]

theorem stops_inactive {x : Fin stackSlots × Nat} (h : concreteStackRange pc a.checked a.size = .ok x)
    (hno : ¬ Active s a.frameno) : a.stops pc s = some .panic := by
  rw [stops, h]
  dsimp only
  cases hf : concreteFrameStack s a.frameno with
  | ok stack => exact absurd (active_of_frame hf) hno
  | error e => rw [(frame_error hf).1]

/-- An access panics in the frame only: without a size, or on a frame that is gone. -/
theorem stops_panic (hc : a.checked.toInt = a.start) (h : a.stops pc s = some .panic) :
    a.Starts ∧ (a.size = 0 ∨ a.start % a.size = 0 ∧ ¬ Active s a.frameno) := by
  by_cases hstarts : a.Starts
  · refine ⟨hstarts, ?_⟩
    by_cases hsize : a.size = 0
    · exact .inl hsize
    · by_cases hal : a.start % a.size = 0
      · refine .inr ⟨hal, fun hactive => ?_⟩
        obtain ⟨x, hx⟩ := @range_aligned a pc hc hstarts hsize hal
        obtain ⟨stack, hf⟩ := frame_ok hactive
        rw [stops, hx] at h
        dsimp only at h
        rw [hf] at h
        cases h
      · rw [stops_of_range (range_misaligned hc hstarts hsize hal)] at h
        cases h
  · rw [stops_of_range (range_outside hc hstarts)] at h
    cases h

end StackAccess

/-! ## What a step leaves alone -/

section Bytes

variable {s s' : ConcreteState} {d d' : Nat} {slot : Fin stackSlots} {v : Option ConcreteValue} {o : Int}

theorem stackByte_congr (h : concreteFrameStack s' d = concreteFrameStack s d) : stackByte s' d o = stackByte s d o := by
  rw [stackByte, h, stackByte]

theorem SameMemory.frame (h : SameMemory s s') (d : Nat) : concreteFrameStack s' d = concreteFrameStack s d := by
  unfold concreteFrameStack ConcreteState.savedAt
  rw [h.curframe, h.stack, h.saved]

theorem frame_set (h : setFrameSlot s d slot v = .ok s') :
    ∃ stack, concreteFrameStack s d = .ok stack ∧
      concreteFrameStack s' d = .ok (Function.update stack slot v) ∧
      ∀ d', d' ≠ d → concreteFrameStack s' d' = concreteFrameStack s d' := by
  unfold setFrameSlot at h
  split at h
  · rename_i hcur
    cases h
    refine ⟨s.stack, if_pos hcur, if_pos hcur, fun d' hne => ?_⟩
    unfold concreteFrameStack
    rw [if_neg (by rw [← hcur]; exact hne), if_neg (by rw [← hcur]; exact hne)]
    rfl
  · rename_i hcur
    split at h
    · cases h
    · rename_i fr hat
      cases h
      set next : Fin (maxCallFrames - 1) → Option ConcreteFrame := fun k =>
        if k.val = d then some { fr with stack := Function.update fr.stack slot v } else s.saved k
      have hsaved : ∀ d', d' ≠ d → ConcreteState.savedAt { s with saved := next } d' = s.savedAt d' := by
        intro d' hne
        unfold ConcreteState.savedAt
        split
        · exact if_neg hne
        · rfl
      have hself : ConcreteState.savedAt { s with saved := next } d =
          some { fr with stack := Function.update fr.stack slot v } := by
        unfold ConcreteState.savedAt at hat ⊢
        split at hat
        · rename_i hlt
          rw [dif_pos hlt]
          exact if_pos rfl
        · cases hat
      refine ⟨fr.stack, ?_, ?_, fun d' hne => ?_⟩
      · rw [concreteFrameStack, if_neg hcur, hat]
      · rw [concreteFrameStack, if_neg hcur, hself]
      · unfold concreteFrameStack
        rw [hsaved d' hne]

/-- A slot that is set changes its own bytes only. -/
theorem stackByte_set (h : setFrameSlot s d slot v = .ok s') (d' : Nat) (o : Int) :
    stackByte s' d' o =
      if d' = d ∧ slotOf o = slot then wordByte (slotWord v) (o % 8).toNat else stackByte s d' o := by
  obtain ⟨stack, hf, hself, hother⟩ := frame_set h
  by_cases hd : d' = d
  · subst hd
    rw [stackByte, hself]
    dsimp only
    by_cases hslot : slotOf o = slot
    · rw [if_pos ⟨rfl, hslot⟩, hslot, Function.update_self]
    · rw [if_neg fun hc => hslot hc.2, Function.update_of_ne hslot, stackByte, hf]
  · rw [if_neg fun hc => hd hc.1, stackByte_congr (hother d' hd)]

/-- The offset of a byte, from its slot and its place there. -/
theorem slotOf_place (h : -stackSize ≤ o) (hneg : o < 0) : o = -8 * (slotOf o : Nat) - 8 + (o % 8).toNat := by
  have hsize : (stackSize : Int) = 512 := rfl
  have hval : (slotOf o : Nat) = (-o - 1).toNat / 8 := by
    refine Nat.mod_eq_of_lt ?_
    have hslots : stackSlots = 64 := rfl
    omega
  rw [hval]
  omega

/-- The bytes of a slot. -/
theorem stackByte_at {stack : ConcreteStack} (hf : concreteFrameStack s d = .ok stack) {j : Nat} (hj : j < 8) :
    stackByte s d (-8 * (slot : Nat) - 8 + j) = wordByte (slotWord (stack slot)) j := by
  have hslot : slotOf (-8 * (slot : Nat) - 8 + j) = slot := by
    refine Fin.ext ?_
    have hval : (slotOf (-8 * (slot : Nat) - 8 + j) : Nat) = (8 * (slot : Nat) + 7 - j) / 8 % stackSlots := by
      rw [slotOf, Fin.val_ofNat]
      congr 2
      omega
    have hlt := slot.isLt
    rw [hval, show (8 * (slot : Nat) + 7 - j) / 8 = slot by omega, Nat.mod_eq_of_lt hlt]
  have hplace : ((-8 * (slot : Nat) - 8 + j : Int) % 8).toNat = j := by omega
  rw [stackByte, hf]
  dsimp only
  rw [hslot, hplace]

theorem stackWord_at {stack : ConcreteStack} {x : ConcreteValue} {i n : Nat} {o : Int}
    (hf : concreteFrameStack s d = .ok stack) (hx : stack slot = some x) (ho : o = -8 * (slot : Nat) - 8 + i)
    (hin : i + n ≤ 8) : stackWord s d o n = compose (fun j => wordByte x.bits (i + j)) n := by
  refine compose_congr fun j hj => ?_
  have hbyte := @stackByte_at s d slot stack hf (i + j) (by omega)
  rw [hx] at hbyte
  refine (congrArg _ ?_).trans hbyte
  rw [ho]
  push_cast
  omega

/-- A merged value changes the bytes that it covers. -/
theorem stackByte_merge {i n : Nat} {x : ConcreteValue} (h0 : 0 < n) (hin : i + n ≤ 8)
    (h : concreteMerge s d slot i n x = .ok s') (hlow : -stackSize ≤ o) (hneg : o < 0)
    (hout : ¬ (d' = d ∧ -8 * (slot : Nat) - 8 + (i : Int) ≤ o ∧ o < -8 * (slot : Nat) - 8 + (i : Int) + n)) :
    stackByte s' d' o = stackByte s d' o := by
  obtain ⟨stack, hf, h₁⟩ := bind_eq_ok.mp h
  have hplace := slotOf_place hlow hneg
  have hkeep : ∀ v, setFrameSlot s d slot v = .ok s' →
      (d' = d → slotOf o = slot → wordByte (slotWord v) (o % 8).toNat = stackByte s d' o) →
      stackByte s' d' o = stackByte s d' o := by
    intro v hset hbyte
    rw [stackByte_set hset]
    split
    · rename_i hc
      exact hbyte hc.1 hc.2
    · rfl
  have hj : ¬ (d' = d ∧ slotOf o = slot ∧ i ≤ (o % 8).toNat ∧ (o % 8).toNat < i + n) := by
    rintro ⟨hd, hslot, h1, h2⟩
    rw [hslot] at hplace
    exact hout ⟨hd, by omega, by omega⟩
  dsimp only at h₁
  split at h₁
  · rename_i hfull
    refine hkeep _ h₁ fun hd hslot => absurd ⟨hd, hslot, ?_⟩ hj
    omega
  · refine hkeep _ h₁ fun hd hslot => ?_
    subst hd
    rw [stackByte, hf]
    dsimp only
    rw [hslot]
    refine (wordByte_merge (slotWord (stack slot)) x.bits h0 hin (by omega)).trans (if_neg fun hc => ?_)
    exact hj ⟨rfl, hslot, hc⟩

theorem enter_frame {ret : Nat} (h : s.callSubprog ret = .ok s') (hactive : Active s d) (hne : d ≠ s.curframe + 1) :
    concreteFrameStack s' d = concreteFrameStack s d := by
  unfold ConcreteState.callSubprog at h
  split at h
  · rename_i hlt
    cases h
    unfold concreteFrameStack ConcreteState.savedAt
    dsimp only
    rw [if_neg hne]
    by_cases hcur : d = s.curframe
    · subst hcur
      rw [if_pos rfl, dif_pos hlt, Function.update_self]
    · rw [if_neg hcur]
      by_cases hd : d < maxCallFrames - 1
      · have hother : (⟨d, hd⟩ : Fin (maxCallFrames - 1)) ≠ ⟨s.curframe, hlt⟩ := fun heq =>
          hcur (congrArg Fin.val heq)
        rw [dif_pos hd, dif_pos hd, Function.update_of_ne hother]
      · rw [dif_neg hd, dif_neg hd]
  · cases h

theorem leave_frame (hactive : Active s d) (hne : d ≠ s.curframe) :
    concreteFrameStack s.returnFromSubprog d = concreteFrameStack s d := by
  have hsome : s.savedAt d ≠ none := hactive.resolve_left hne
  unfold ConcreteState.returnFromSubprog
  split
  · rfl
  · dsimp only
    split
    · rename_i hat
      have hd : d ≠ s.curframe - 1 := fun heq => hsome (by rw [heq]; exact hat)
      unfold concreteFrameStack
      rw [if_neg hne, if_neg hd]
      rfl
    · rename_i caller hat
      by_cases hd : d = s.curframe - 1
      · unfold concreteFrameStack
        rw [if_neg hne, hd, hat]
        exact if_pos rfl
      · have hsaved : ∀ k : Fin (maxCallFrames - 1), k.val = d →
            (if k.val = s.curframe - 1 then none else s.saved k) = s.saved k := by
          intro k hk
          rw [if_neg (by rw [hk]; exact hd)]
        unfold concreteFrameStack ConcreteState.savedAt ConcreteState.clobberArgs
        dsimp only
        rw [if_neg hne, if_neg hd]
        by_cases hlt : d < maxCallFrames - 1
        · rw [dif_pos hlt, dif_pos hlt, hsaved ⟨d, hlt⟩ rfl]
        · rw [dif_neg hlt, dif_neg hlt]

end Bytes

section Kept

variable {p : Program} {pc : Nat} {s s' : ConcreteState} {mem mem' : MapMem} {insn : BpfInsn} {a : StackAccess}
  {maps : Maps} {l : List ConcreteSucc} {d : Nat} {o : Int}

/-- Where an accepted access lies. -/
theorem StackAccess.place {x : Fin stackSlots × Nat} (hc : a.checked.toInt = a.start)
    (h : concreteStackRange pc a.checked a.size = .ok x) :
    0 < a.size ∧ a.start % a.size = 0 ∧ a.Starts ∧ a.start = -8 * (x.1 : Nat) - 8 + x.2 ∧ x.1 = slotOf a.start ∧
      x.2 < 8 := by
  obtain ⟨h0, hal, hend, hslot, hin, hpos⟩ := concreteStackRange_ok h
  rw [hc] at hal hend hslot hpos
  refine ⟨h0, hal, ⟨?_, by omega⟩, hpos, hslot, hin⟩
  have hslots := x.1.isLt
  have hsize : (stackSize : Int) = 512 := rfl
  have h64 : stackSlots = 64 := rfl
  omega

theorem StackAccess.place_width {x : Fin stackSlots × Nat} {size : MemSize} (hc : a.checked.toInt = a.start)
    (hsize : a.size = size.bytes) (h : concreteStackRange pc a.checked a.size = .ok x) : x.2 + size.bytes ≤ 8 := by
  obtain ⟨-, hal, -, hpos, -, hin⟩ := place hc h
  have hwidth : size.bytes = 1 ∨ size.bytes = 2 ∨ size.bytes = 4 ∨ size.bytes = 8 := by
    cases size <;> simp [MemSize.bytes]
  rw [hsize] at hal
  rcases hwidth with hw | hw | hw | hw <;> rw [hw] at hal ⊢ <;> omega

theorem merge_kept {x : Fin stackSlots × Nat} {size : MemSize} {v : ConcreteValue}
    (hc : a.checked.toInt = a.start) (hsize : a.size = size.bytes)
    (hrange : concreteStackRange pc a.checked a.size = .ok x)
    (h : concreteMerge s a.frameno x.1 x.2 size.bytes v = .ok s') (hlow : -stackSize ≤ o) (hneg : o < 0)
    (hout : ¬ a.Addresses d o) : stackByte s' d o = stackByte s d o := by
  obtain ⟨h0, -, -, hpos, -, -⟩ := StackAccess.place hc hrange
  refine stackByte_merge (hsize ▸ h0) (StackAccess.place_width hc hsize hrange) h hlow hneg ?_
  rintro ⟨hd, h1, h2⟩
  refine hout ⟨hd.symm, by rw [hpos]; exact h1, ?_⟩
  rw [hpos, hsize]
  exact h2

/-- An access that succeeds has a stack pointer as its base. -/
theorem stack_of_ok {α : Type} {base : Reg} {off : Int16} {size : Nat} {k : Nat × Int32 → Eval α} {r : α}
    (h : (readConcreteReg pc s base >>= fun v => stackPtrAccess pc base v off >>= k) = .ok r) :
    ∃ a, a ∈ stackAccess s base off size := by
  obtain ⟨v, hv, h₁⟩ := bind_eq_ok.mp h
  obtain ⟨y, hy, -⟩ := bind_eq_ok.mp h₁
  cases v with
  | stackPtr addr d => exact ⟨_, mem_stackAccess_of (Mirrors.readConcreteReg_ok hv)⟩
  | _ => cases hy

theorem wordByte_zero (j : Nat) : wordByte 0 j = 0 := by simp [wordByte]

theorem stMem_kept {src base : Reg} {off : Int16} {size : MemSize}
    (hb : Bounded p pc s mem (.stMem src base off size)) (hs : concreteStMem pc s src base off size = .ok s')
    (hlow : -stackSize ≤ o) (hneg : o < 0)
    (hout : ∀ a ∈ attempts p.maps pc s (.stMem src base off size), ¬ a.Addresses d o) :
    stackByte s' d o = stackByte s d o := by
  obtain ⟨a, ha⟩ := @stack_of_ok pc s _ base off size.bytes _ _ hs
  have hsize := (mem_stackAccess ha).2.2
  have hc := StackAccess.checked_of_near (hb.near a ha)
  rw [stMem_eq ha] at hs
  obtain ⟨x, hrange, hs₁⟩ := bind_eq_ok.mp hs
  split at hs₁
  · rename_i hsrc
    obtain ⟨-, hal, hstarts, -, hslot, -⟩ := StackAccess.place hc hrange
    rw [stackByte_set hs₁]
    split
    · rename_i hcov
      obtain ⟨rfl, hsame⟩ := hcov
      have hzero := hb.unwritten src base off size rfl hsrc a ha hstarts hal o hlow hneg (hsame.trans hslot)
        (hout a ha)
      rw [hzero]
      exact wordByte_zero _
    · rfl
  · exact merge_kept hc hsize hrange hs₁ hlow hneg (hout a ha)

theorem stMemImm_kept {imm : Int32} {base : Reg} {off : Int16} {size : MemSize}
    (hb : Bounded p pc s mem (.stMemImm imm base off size)) (hs : concreteStMemImm pc s imm base off size = .ok s')
    (hlow : -stackSize ≤ o) (hneg : o < 0)
    (hout : ∀ a ∈ attempts p.maps pc s (.stMemImm imm base off size), ¬ a.Addresses d o) :
    stackByte s' d o = stackByte s d o := by
  obtain ⟨a, ha⟩ := @stack_of_ok pc s _ base off size.bytes _ _ hs
  have hsize := (mem_stackAccess ha).2.2
  have hc := StackAccess.checked_of_near (hb.near a ha)
  rw [stMemImm_eq ha] at hs
  obtain ⟨x, hrange, hs₁⟩ := bind_eq_ok.mp hs
  exact merge_kept hc hsize hrange hs₁ hlow hneg (hout a ha)

/-- What an atomic leaves behind, and the old value that it fetches: 0, or the word of the
    stack that it addresses. -/
theorem atomic_effect {dst src : Reg} {off : Int16} {size : MemSize} {op : AtomicOp} {fetch : Bool}
    (hb : Bounded p pc s mem (.atomic dst src off size op fetch))
    (hs : concreteAtomic pc s dst src off size op fetch = .ok s') :
    ∃ old stored, s' = fetchOld stored src op fetch old ∧ stored.regs = s.regs ∧
      (∀ (d : Nat) (o : Int), -stackSize ≤ o → o < 0 →
        (∀ a ∈ attempts p.maps pc s (.atomic dst src off size op fetch), ¬ a.Addresses d o) →
        stackByte stored d o = stackByte s d o) ∧
      (old = .scalar 0 ∨ ∃ addr d, s.regs dst = some (.stackPtr addr d) ∧ size = .dw ∧
        old.bits = stackWord s d (stackOffset addr off) 8) := by
  obtain ⟨base, hbase, hs₁⟩ := bind_eq_ok.mp hs
  obtain ⟨srcValue, hsv, hs₂⟩ := bind_eq_ok.mp hs₁
  have hd := Mirrors.readConcreteReg_ok hbase
  have hv := Mirrors.readConcreteReg_ok hsv
  split at hs₂
  · cases hs₂
  · rename_i k hctx
    split at hs₂
    · cases hs₂
    · rename_i hal
      obtain ⟨⟨old, target⟩, htarget, hs₃⟩ := bind_eq_ok.mp hs₂
      obtain ⟨stored, hstored, hs₄⟩ := bind_eq_ok.mp hs₃
      cases hs₄
      refine ⟨old, stored, rfl, ?_⟩
      by_cases hstack : ∃ addr d, base = .stackPtr addr d
      · obtain ⟨addr, f, rfl⟩ := hstack
        have ha := @mem_stackAccess_of s dst off size.bytes addr f hd
        have hmem : (⟨addr, f, off, size.bytes⟩ : StackAccess) ∈
            attempts p.maps pc s (.atomic dst src off size op fetch) := by
          unfold attempts
          dsimp only
          rw [hv, if_pos ⟨rfl, not_not.mp hal⟩]
          exact ha
        have hc := StackAccess.checked_of_near (hb.near _ hmem)
        rw [atomicTarget_eq ha] at htarget
        obtain ⟨x, hrange, ht₁⟩ := bind_eq_ok.mp htarget
        obtain ⟨stack, hf, ht₂⟩ := bind_eq_ok.mp ht₁
        obtain ⟨h0, -, -, hpos, hslot, -⟩ := StackAccess.place hc hrange
        have hin := StackAccess.place_width hc rfl hrange
        have hstart : stackOffset addr off = -8 * (x.1 : Nat) - 8 + x.2 := hpos
        split at ht₂
        · cases ht₂
        · rename_i v hval
          cases ht₂
          by_cases hdw : size = .dw
          · subst hdw
            have hi : x.2 = 0 := by
              have : MemSize.dw.bytes = 8 := rfl
              omega
            have hold : (if MemSize.dw.bytes = 8 ∧ x.2 = 0 then v else .scalar 0) = v := if_pos ⟨rfl, hi⟩
            rw [hold] at hstored ⊢
            have hword : v.bits = stackWord s f (stackOffset addr off) 8 := by
              rw [stackWord_at hf hval hstart (by omega), hi]
              simp only [Nat.zero_add]
              exact (compose_wordByte v.bits).symm
            refine ⟨?_, ?_, .inr ⟨addr, f, hd, rfl, hword⟩⟩
            · unfold atomicStore at hstored
              split at hstored
              · split at hstored
                · exact Mirrors.setFrameSlot_regs hstored
                · cases hstored
                  rfl
              · cases hstored
                rfl
            · intro d o hlow hneg hout
              unfold atomicStore at hstored
              split at hstored
              · rename_i f' slot' i' w hsome
                cases hsome
                split at hstored
                · rw [stackByte_set hstored]
                  split
                  · rename_i hcov
                    have hplace := slotOf_place hlow hneg
                    rw [hcov.2] at hplace
                    refine absurd ⟨hcov.1.symm, ?_, ?_⟩ (hout _ hmem)
                    · change stackOffset addr off ≤ o
                      omega
                    · change o < stackOffset addr off + (8 : Nat)
                      omega
                  · rfl
                · cases hstored
                  rfl
              · cases hstored
                rfl
          · have hne : ¬ (size.bytes = 8 ∧ x.2 = 0) := fun hc8 => hdw (Mirrors.bytes_eq_eight.mp hc8.1)
            rw [if_neg hne] at hstored ⊢
            have hsame : stored = s := by
              simp only [atomicStore, if_neg hne] at hstored
              cases hstored
              rfl
            rw [hsame]
            exact ⟨rfl, fun _ _ _ _ _ => rfl, .inl rfl⟩
      · have hnone : atomicTarget pc s dst base off size = .ok (.scalar 0, none) := by
          cases base with
          | stackPtr addr d => exact absurd ⟨addr, d, rfl⟩ hstack
          | _ => rfl
        cases hnone.symm.trans htarget
        cases hstored
        exact ⟨rfl, fun _ _ _ _ _ => rfl, .inl rfl⟩
  · cases hs₂

/-- The bytes of a word from `i` on, at most up to its end. -/
theorem extract_clipped (v : UInt64) {i n : Nat} (h0 : 0 < n) (hn : n ≤ 8) (hi : i < 8) :
    (v >>> UInt64.ofNat (i * 8)) &&& lowMask n =
      compose (fun j => if i + j < 8 then wordByte v (i + j) else 0) n := by
  rw [← UInt64.toBitVec_inj]
  apply BitVec.eq_of_getLsbD_eq
  intro t ht
  have hmod : i * 8 % 2 ^ 64 % (64 : BitVec 64).toNat = i * 8 := by
    rw [show (64 : BitVec 64).toNat = 64 from rfl]
    omega
  rw [compose_getLsbD hn, UInt64.toBitVec_and, BitVec.getLsbD_and, lowMask_getLsbD h0 hn]
  simp only [UInt64.toBitVec_shiftRight, UInt64.toBitVec_ofNat', BitVec.ushiftRight_eq',
    BitVec.toNat_umod, BitVec.toNat_ofNat, BitVec.getLsbD_ushiftRight, hmod]
  have hbit : i * 8 + t = 8 * (i + t / 8) + t % 8 := by omega
  by_cases hlt : t < 8 * n
  · by_cases hin : i + t / 8 < 8
    · rw [if_pos hin, wordByte_getLsbD _ hin (Nat.mod_lt _ (by decide)), ← hbit]
      simp [hlt]
    · rw [if_neg hin, BitVec.getLsbD_of_ge _ _ (by omega)]
      simp [hlt]
  · simp [hlt]

/-- A buffer is read from the bytes that it addresses. -/
theorem buffer_word {r : Reg} {size : Nat} {w : UInt64} {addr : UInt64} (hr : s.regs r = some (.stackPtr addr d))
    (hnear : ∀ a ∈ bufferAccess s r size, -2 ^ 31 ≤ a.start ∧ a.start < 2 ^ 31)
    (h : concreteMapBuffer pc s r size = .ok w) : w = bufferWord s d (stackOffset addr 0) size := by
  obtain ⟨hsize, -⟩ := Mirrors.buffer_pointer h
  have ha := mem_bufferAccess_of hr hsize
  have hc := StackAccess.checked_of_near (hnear _ ha)
  rw [buffer_eq ha] at h
  obtain ⟨x, hrange, h₁⟩ := bind_eq_ok.mp h
  obtain ⟨stack, hf, h₂⟩ := bind_eq_ok.mp h₁
  obtain ⟨h0, -, -, hpos, -, hin⟩ := StackAccess.place hc hrange
  have hstart : stackOffset addr 0 = -8 * (x.1 : Nat) - 8 + x.2 := hpos
  split at h₂
  · cases h₂
  · rename_i v hv
    have hword : (concreteExtract v x.2 size false).bits = bufferWord s d (stackOffset addr 0) size := by
      have hbytes : bufferWord s d (stackOffset addr 0) size =
          compose (fun j => if x.2 + j < 8 then wordByte v.bits (x.2 + j) else 0) size := by
        refine compose_congr fun j hj => ?_
        by_cases hlt : x.2 + j < 8
        · have hbyte := @stackByte_at s d x.1 stack hf (x.2 + j) hlt
          rw [hv] at hbyte
          rw [if_pos (by omega), if_pos hlt, hstart]
          refine (congrArg _ ?_).trans hbyte
          push_cast
          omega
        · rw [if_neg (by omega), if_neg hlt]
      rw [hbytes]
      by_cases hfull : x.2 = 0 ∧ size = 8
      · rw [concreteExtract, if_pos hfull, hfull.1, hfull.2]
        refine (compose_wordByte v.bits).symm.trans (compose_congr fun j hj => ?_)
        rw [if_pos (by omega), Nat.zero_add]
      · rw [concreteExtract, if_neg hfull]
        simp only [Bool.false_eq_true, false_and, if_false]
        exact extract_clipped v.bits h0 hsize hin
    split at h₂
    · rename_i y hy
      cases h₂
      rw [← hword, hy]
      rfl
    · cases h₂

end Kept

/-! ## A bounded step -/

namespace Bounded

variable {p : Program} {pc : Nat} {s : ConcreteState} {mem mem' : MapMem} {insn : BpfInsn} {a : StackAccess}
  {l : List ConcreteSucc}

theorem checked (h : Bounded p pc s mem insn) (ha : a ∈ attempts p.maps pc s insn) : a.checked.toInt = a.start :=
  StackAccess.checked_of_near (h.near a ha)

theorem noPanic (h : Bounded p pc s mem insn) (hget : p.insns[pc]? = some insn) :
    itemSuccessors p (pc, s) mem ≠ .error .panic := by
  intro hpanic
  obtain ⟨a, ha, hstops⟩ := attempts_of_panic hget h.operand hpanic
  obtain ⟨hstarts, hcase⟩ := StackAccess.stops_panic (h.checked ha) hstops
  rcases hcase with hsize | ⟨hal, hactive⟩
  · exact h.sized a ha hstarts hsize
  · exact hactive (h.active a ha hstarts hal)

theorem outside (h : Bounded p pc s mem insn) (hget : p.insns[pc]? = some insn)
    (ha : a ∈ attempts p.maps pc s insn) (hout : ¬ a.Inside) :
    itemSuccessors p (pc, s) mem = halt (.stackOutOfFrame pc a.checked) := by
  have hstarts : ¬ a.Starts := fun hst => hout ⟨hst.1, h.top a ha hst⟩
  exact attempt_stops hget ha (StackAccess.stops_of_range (StackAccess.range_outside (h.checked ha) hstarts))

theorem stackKept (h : Bounded p pc s mem insn) (hget : p.insns[pc]? = some insn)
    (hs : itemSuccessors p (pc, s) mem = .ok (l, mem')) {x : ConcreteSucc} (hx : x ∈ l) {d : Nat} {o : Int}
    (hlow : -stackSize ≤ o) (hneg : o < 0) (hactive : Active s d) (hexit : insn = .exit → d ≠ s.curframe)
    (hcall : insn.isCallSub = true → d ≠ s.curframe + 1) (hout : ∀ a ∈ attempts p.maps pc s insn, ¬ a.Addresses d o) :
    stackByte x.2 d o = stackByte s d o := by
  have hsame : SameMemory s x.2 → stackByte x.2 d o = stackByte s d o := fun hm => stackByte_congr (hm.frame d)
  by_cases hret : insn = .exit
  · subst hret
    unfold itemSuccessors at hs
    dsimp only at hs
    rw [hget] at hs
    dsimp only at hs
    split at hs
    · split at hs
      · cases hs
      · cases hs
        rw [List.mem_singleton.mp hx]
        exact stackByte_congr (leave_frame hactive (hexit rfl))
    · obtain ⟨v, -, hs₁⟩ := bind_eq_ok.mp hs
      cases hs₁
      cases hx
  · rw [itemSuccessors_eq hget hret] at hs
    have hpure : insn.isCallSub = false → isStackStore insn = false →
        (pureSuccessors pc insn s).map (·, mem) = .ok (l, mem') → stackByte x.2 d o = stackByte s d o := by
      intro hsub hstore hp
      obtain ⟨l', hl', heq⟩ := map_eq_ok.mp hp
      cases heq
      exact hsame (pureSuccessors_same hsub hret hstore hl' hx).1
    cases insn with
    | callSub off =>
      obtain ⟨l', hl', heq⟩ := map_eq_ok.mp hs
      cases heq
      obtain ⟨callee, hcallee, hl₁⟩ := bind_eq_ok.mp hl'
      cases hl₁
      rw [List.mem_singleton.mp hx]
      exact stackByte_congr (enter_frame hcallee hactive (hcall rfl))
    | stMem src base off size =>
      rw [concreteSuccessors] at hs
      split at hs
      · obtain ⟨cell, -, hs₁⟩ := bind_eq_ok.mp hs
        obtain ⟨v, -, hs₂⟩ := bind_eq_ok.mp hs₁
        cases hs₂
        rw [List.mem_singleton.mp hx]
      · obtain ⟨l', hl', heq⟩ := map_eq_ok.mp hs
        cases heq
        obtain ⟨next, hnext, hl₁⟩ := bind_eq_ok.mp hl'
        cases hl₁
        rw [List.mem_singleton.mp hx]
        exact stMem_kept h hnext hlow hneg hout
    | stMemImm imm base off size =>
      obtain ⟨l', hl', heq⟩ := map_eq_ok.mp hs
      cases heq
      obtain ⟨next, hnext, hl₁⟩ := bind_eq_ok.mp hl'
      cases hl₁
      rw [List.mem_singleton.mp hx]
      exact stMemImm_kept h hnext hlow hneg hout
    | atomic dst src off size op fetch =>
      obtain ⟨l', hl', heq⟩ := map_eq_ok.mp hs
      cases heq
      obtain ⟨next, hnext, hl₁⟩ := bind_eq_ok.mp hl'
      cases hl₁
      rw [List.mem_singleton.mp hx]
      obtain ⟨old, stored, rfl, -, hkept, -⟩ := atomic_effect h hnext
      exact (stackByte_congr ((SameMemory.fetchOld stored src op fetch old).frame d)).trans (hkept d o hlow hneg hout)
    | call imm =>
      rw [concreteSuccessors] at hs
      split at hs
      · exact hsame (concreteMapCall_follows hs hx).1
      · exact hpure rfl rfl hs
    | ldMem dst base off size se =>
      rw [concreteSuccessors] at hs
      split at hs
      · obtain ⟨cell, -, hs₁⟩ := bind_eq_ok.mp hs
        cases hs₁
        refine hsame ?_
        rw [List.mem_singleton.mp hx]
        exact (SameMemory.refl s).setReg _ _
      · exact hpure rfl rfl hs
    | exit => exact absurd rfl hret
    | _ =>
      rw [concreteSuccessors_pure rfl] at hs
      exact hpure rfl rfl hs

theorem mapKept (h : Bounded p pc s mem insn) (hget : p.insns[pc]? = some insn)
    (hs : itemSuccessors p (pc, s) mem = .ok (l, mem')) {c : Cell} {info : MapInfo} (hinfo : p.maps c.fd = some info)
    {j : Nat} (hj : j < 8) (hin : c.offset.toInt + j < info.valueSize)
    (hout : ¬ MapAddresses p.maps pc s insn c (c.offset.toInt + j)) :
    wordByte (mem'.get c) j = wordByte (mem.get c) j := by
  have hpure : (pureSuccessors pc insn s).map (·, mem) = .ok (l, mem') → mem' = mem := by
    intro hp
    obtain ⟨l', -, heq⟩ := map_eq_ok.mp hp
    cases heq
    rfl
  by_cases hret : insn = .exit
  · subst hret
    unfold itemSuccessors at hs
    dsimp only at hs
    rw [hget] at hs
    dsimp only at hs
    split at hs
    · split at hs
      · cases hs
      · cases hs
        rfl
    · obtain ⟨v, -, hs₁⟩ := bind_eq_ok.mp hs
      cases hs₁
      rfl
  · rw [itemSuccessors_eq hget hret] at hs
    cases insn with
    | stMem src base off size =>
      rw [concreteSuccessors] at hs
      split at hs
      · obtain ⟨cell, hcell, hs₁⟩ := bind_eq_ok.mp hs
        obtain ⟨v, hv, hs₂⟩ := bind_eq_ok.mp hs₁
        cases hs₂
        rw [MapMem.get_insert]
        split
        · rename_i heq
          subst heq
          obtain ⟨fd, index, o, info', hbase, -, hfd, hindex, hoff, -, -, -⟩ := Mirrors.mapCell_ok hcell
          subst hfd hindex
          -- past the addressed bytes of the cell
          have hrest : size.bytes ≤ j := by
            by_contra hlt
            exact hout ⟨o, hbase, by omega, by omega⟩
          exact h.mapStore src base off size cell v rfl hcell (Mirrors.readConcreteReg_ok hv) j hj hrest
        · rfl
      · rw [hpure hs]
    | call imm =>
      rw [concreteSuccessors] at hs
      split at hs
      · rename_i himm
        by_cases hmap : ∃ fd info, s.regs 1 = some (.mapPtr fd none 0) ∧ p.maps fd = some info
        · obtain ⟨fd, info', hr1, hinfo'⟩ := hmap
          rw [mapCall_eq hr1 hinfo'] at hs
          obtain ⟨index, hkey, hs₁⟩ := bind_eq_ok.mp hs
          split at hs₁
          · cases hs₁
            rfl
          · rename_i hne
            have h2 := himm.resolve_left hne
            obtain ⟨m, hm, hs₂⟩ := bind_eq_ok.mp hs₁
            cases hs₂
            unfold updateElem at hm
            split at hm
            · obtain ⟨v, hv, hm₁⟩ := bind_eq_ok.mp hm
              split at hm₁
              · cases hm₁
                rw [MapMem.get_insert]
                split
                · rename_i heq
                  subst heq
                  obtain rfl := Option.some.inj (hinfo'.symm.trans hinfo)
                  have hzero : (0 : Int64).toInt = 0 := rfl
                  dsimp only at hin hout
                  exact absurd ⟨h2, info', hr1, hinfo', hkey, by omega, by omega⟩ hout
                · rfl
              · cases hm₁
            · cases hm
              rfl
        · unfold concreteMapCall at hs
          split at hs
          · rename_i fd hr1
            split at hs
            · cases hs
            · rename_i info' hinfo'
              exact absurd ⟨fd, info', hr1, hinfo'⟩ hmap
          · cases hs
      · rw [hpure hs]
    | ldMem dst base off size se =>
      rw [concreteSuccessors] at hs
      split at hs
      · obtain ⟨cell, -, hs₁⟩ := bind_eq_ok.mp hs
        cases hs₁
        rfl
      · rw [hpure hs]
    | exit => exact absurd rfl hret
    | _ =>
      rw [concreteSuccessors_pure rfl] at hs
      rw [hpure hs]

theorem stackRead (h : Bounded p pc s mem insn) (hget : p.insns[pc]? = some insn)
    (hs : itemSuccessors p (pc, s) mem = .ok (l, mem')) {dst base : Reg} {off : Int16} {size : MemSize} {se : Bool}
    {addr : UInt64} {d : Nat} (hinsn : insn = .ldMem dst base off size se)
    (hbase : s.regs base = some (.stackPtr addr d)) :
    ∃ v, l = [(pc + 1, s.setReg dst v)] ∧
      v.bits = extendWord size se (stackWord s d (stackOffset addr off) size.bytes) := by
  subst hinsn
  have ha := @mem_stackAccess_of s base off size.bytes addr d hbase
  have hc := h.checked ha
  rw [itemSuccessors_eq hget (by simp), concreteSuccessors, isMapPtr_stack hbase] at hs
  obtain ⟨l', hl', heq⟩ := map_eq_ok.mp hs
  cases heq
  obtain ⟨next, hnext, hl₁⟩ := bind_eq_ok.mp hl'
  cases hl₁
  have hload : concreteLdMem pc s dst base off size se = .ok next := hnext
  rw [ldMem_eq ha] at hload
  obtain ⟨x, hrange, hload₁⟩ := bind_eq_ok.mp hload
  obtain ⟨stack, hf, hload₂⟩ := bind_eq_ok.mp hload₁
  have hin := StackAccess.place_width hc rfl hrange
  obtain ⟨-, -, -, hpos, -, -⟩ := StackAccess.place hc hrange
  split at hload₂
  · cases hload₂
  · rename_i v hv
    cases hload₂
    refine ⟨_, rfl, ?_⟩
    rw [bits_extract v size se hin]
    exact congrArg _ (stackWord_at hf hv hpos hin).symm

theorem mapRead (h : Bounded p pc s mem insn) (hget : p.insns[pc]? = some insn)
    (hs : itemSuccessors p (pc, s) mem = .ok (l, mem')) {dst base : Reg} {off : Int16} {size : MemSize} {se : Bool}
    {cell : Cell} (hinsn : insn = .ldMem dst base off size se) (hcell : mapCell pc p.maps base off s = .ok cell) :
    l = [(pc + 1, s.setReg dst
      (.scalar (extendWord size se (compose (wordByte (mem.get cell)) size.bytes))))] := by
  subst hinsn
  have hmap : s.isMapPtr base = true := by
    obtain ⟨fd, index, o, info, hbase, -⟩ := Mirrors.mapCell_ok hcell
    rw [ConcreteState.isMapPtr, hbase]
  rw [itemSuccessors_eq hget (by simp), concreteSuccessors, hmap] at hs
  obtain ⟨cell', hcell', hs₁⟩ := bind_eq_ok.mp hs
  cases hcell.symm.trans hcell'
  cases hs₁
  rw [← h.mapLoad dst base off size se cell rfl hcell]

theorem atomicRead (h : Bounded p pc s mem insn) (hget : p.insns[pc]? = some insn)
    (hs : itemSuccessors p (pc, s) mem = .ok (l, mem')) {dst src : Reg} {off : Int16} {size : MemSize} {op : AtomicOp}
    {fetch : Bool} (hinsn : insn = .atomic dst src off size op fetch) :
    ∃ old next, l = [(pc + 1, next)] ∧
      next.regs = (if op = .cmpxchg then Function.update s.regs 0 (some old)
        else if fetch then Function.update s.regs src (some old) else s.regs) ∧
      (old = .scalar 0 ∨ ∃ addr d, s.regs dst = some (.stackPtr addr d) ∧ size = .dw ∧
        old.bits = stackWord s d (stackOffset addr off) 8) := by
  subst hinsn
  rw [itemSuccessors_eq hget (by simp)] at hs
  obtain ⟨l', hl', heq⟩ := map_eq_ok.mp hs
  cases heq
  obtain ⟨next, hnext, hl₁⟩ := bind_eq_ok.mp hl'
  cases hl₁
  obtain ⟨old, stored, rfl, hregs, -, hold⟩ := atomic_effect h hnext
  refine ⟨old, _, rfl, ?_, hold⟩
  rw [← hregs]
  unfold fetchOld
  split
  · rfl
  · split <;> rfl

theorem keyRead (h : Bounded p pc s mem insn) (hget : p.insns[pc]? = some insn)
    (hs : itemSuccessors p (pc, s) mem = .ok (l, mem')) {imm : Int32} {fd : Nat} {info : MapInfo} {addr : UInt64}
    {d : Nat} (hinsn : insn = .call imm) (himm : imm = 1 ∨ imm = 2) (hr1 : s.regs 1 = some (.mapPtr fd none 0))
    (hinfo : p.maps fd = some info) (hr2 : s.regs 2 = some (.stackPtr addr d)) :
    let index := bufferWord s d (stackOffset addr 0) info.keySize
    l = returnForks pc s (if imm = 1 then lookupSeeds fd index info else [.scalar 0]) ∧
      (mem' = mem ∨ ∃ value vd, s.regs 3 = some (.stackPtr value vd) ∧
        mem' = mem.insert ⟨fd, index, 0⟩ (bufferWord s vd (stackOffset value 0) info.valueSize)) := by
  subst hinsn
  rw [itemSuccessors_eq hget (by simp), concreteSuccessors, if_pos himm, mapCall_eq hr1 hinfo] at hs
  obtain ⟨index, hkey, hs₁⟩ := bind_eq_ok.mp hs
  have hindex := buffer_word hr2 (fun a ha => h.near a (attempts_key himm hr1 hinfo ha)) hkey
  dsimp only
  rw [← hindex]
  split at hs₁
  · rename_i h1
    cases hs₁
    rw [if_pos h1]
    exact ⟨rfl, .inl rfl⟩
  · rename_i hne
    obtain rfl := himm.resolve_left hne
    obtain ⟨m, hm, hs₂⟩ := bind_eq_ok.mp hs₁
    cases hs₂
    rw [if_neg hne]
    refine ⟨rfl, ?_⟩
    unfold updateElem at hm
    split at hm
    · rename_i hlt
      obtain ⟨v, hv, hm₁⟩ := bind_eq_ok.mp hm
      obtain ⟨-, value, vd, hr3⟩ := Mirrors.buffer_pointer hv
      have hvalue := buffer_word hr3 (fun a ha => h.near a (attempts_value hr1 hinfo hkey hlt ha)) hv
      split at hm₁
      · cases hm₁
        exact .inr ⟨value, vd, hr3, by rw [hvalue]⟩
      · cases hm₁
    · cases hm
      exact .inl rfl

end Bounded

/-! ## A step that is within bounds -/

namespace WithinBounds

variable {p : Program} {pc : Nat} {s : ConcreteState} {mem : MapMem} {insn : BpfInsn} {a : StackAccess}

theorem near (h : WithinBounds p pc s mem insn) (ha : a ∈ attempts p.maps pc s insn) :
    -2 ^ 31 ≤ a.start ∧ a.start < 2 ^ 31 := StackAccess.near_of_checked (h.exact a ha)

theorem operand (h : WithinBounds p pc s mem insn) (hget : p.insns[pc]? = some insn) {dst : Reg} {off : Int16}
    {op : Jmp32Op} {d : UInt64} (hinsn : insn = .jmp32 dst none none off op) : s.regs dst ≠ some (.scalar d) := by
  subst hinsn
  intro hd
  apply h.noPanic
  rw [itemSuccessors_eq hget (by simp), concreteSuccessors_pure rfl]
  have hjump : pureSuccessors pc (.jmp32 dst none none off op) s = concreteJmp32 pc dst none none off op s := rfl
  rw [hjump, concreteJmp32, readConcreteScalar, readConcreteReg_some hd]
  rfl

theorem sized (h : WithinBounds p pc s mem insn) (hget : p.insns[pc]? = some insn)
    (ha : a ∈ attempts p.maps pc s insn) (hst : a.Starts) : a.size ≠ 0 := fun hsize =>
  h.noPanic (attempt_stops hget ha (StackAccess.stops_of_range (StackAccess.range_unsized (h.exact a ha) hst hsize)))

theorem top (h : WithinBounds p pc s mem insn) (hget : p.insns[pc]? = some insn)
    (ha : a ∈ attempts p.maps pc s insn) (hst : a.Starts) : a.start + a.size ≤ 0 := by
  by_contra hpast
  have hout := h.outside a ha fun hin => hpast hin.2
  have hal : a.start % a.size ≠ 0 := fun hal => hpast (StackAccess.ends_of_aligned hst hal)
  have hrange := @StackAccess.range_misaligned a pc (h.exact a ha) hst (h.sized hget ha hst) hal
  rw [attempt_stops hget ha (StackAccess.stops_of_range hrange)] at hout
  cases hout

theorem range (h : WithinBounds p pc s mem insn) (hget : p.insns[pc]? = some insn)
    (ha : a ∈ attempts p.maps pc s insn) (hst : a.Starts) (hal : a.start % a.size = 0) :
    ∃ x, concreteStackRange pc a.checked a.size = .ok x :=
  StackAccess.range_aligned (h.exact a ha) hst (h.sized hget ha hst) hal

theorem active (h : WithinBounds p pc s mem insn) (hget : p.insns[pc]? = some insn)
    (ha : a ∈ attempts p.maps pc s insn) (hst : a.Starts) (hal : a.start % a.size = 0) : Active s a.frameno := by
  by_contra hno
  obtain ⟨x, hx⟩ := h.range hget ha hst hal
  exact h.noPanic (attempt_stops hget ha (StackAccess.stops_inactive hx hno))

theorem unwritten (h : WithinBounds p pc s mem insn) (hget : p.insns[pc]? = some insn) {src base : Reg}
    {off : Int16} {size : MemSize} (hinsn : insn = .stMem src base off size) (hsrc : s.regs src = none)
    (ha : a ∈ attempts p.maps pc s insn) (hst : a.Starts) (hal : a.start % a.size = 0) {o : Int}
    (hlow : -stackSize ≤ o) (hneg : o < 0) (hslot : slotOf o = slotOf a.start)
    (hout : ¬ a.Addresses a.frameno o) : stackByte s a.frameno o = 0 := by
  obtain ⟨x, hrange⟩ := h.range hget ha hst hal
  have hactive := h.active hget ha hst hal
  obtain ⟨stack, hf⟩ := frame_ok hactive
  obtain ⟨s', hset⟩ := @setFrameSlot_ok s a.frameno stack x.1 none hf
  obtain ⟨-, -, -, -, hx, -⟩ := StackAccess.place (h.exact a ha) hrange
  subst hinsn
  obtain ⟨hbase, hoff, hsize⟩ := mem_stackAccess ha
  have hstep : itemSuccessors p (pc, s) mem = .ok ([(pc + 1, s')], mem) := by
    have hstore : concreteStMem pc s src base off size = .ok s' := by
      rw [stMem_eq ha, hrange]
      simp only [bind, Except.bind, hsrc]
      exact hset
    have hpure : pureSuccessors pc (.stMem src base off size) s =
        (concreteStMem pc s src base off size >>= fun next => .ok [(pc + 1, next)]) := rfl
    rw [itemSuccessors_eq hget (by simp), concreteSuccessors, isMapPtr_stack hbase, hpure, hstore]
    rfl
  have hkept := h.stackKept _ _ hstep _ (List.mem_singleton.mpr rfl) a.frameno o hlow hneg hactive (by simp)
    (fun hcall => Bool.noConfusion hcall) ?_
  · rw [← hkept, stackByte_set hset, if_pos ⟨rfl, hslot.trans hx.symm⟩]
    exact wordByte_zero _
  · intro b hb
    obtain ⟨hbase', hoff', hsize'⟩ := mem_stackAccess hb
    have heq : b = a := by
      cases a
      cases b
      cases hbase.symm.trans hbase'
      subst hoff hsize hoff' hsize'
      rfl
    rw [heq]
    exact hout

theorem mapStore (h : WithinBounds p pc s mem insn) (hget : p.insns[pc]? = some insn) {src base : Reg}
    {off : Int16} {size : MemSize} {cell : Cell} {v : ConcreteValue} (hinsn : insn = .stMem src base off size)
    (hcell : mapCell pc p.maps base off s = .ok cell) (hsrc : s.regs src = some v) {j : Nat} (hj : j < 8)
    (hrest : size.bytes ≤ j) : wordByte v.bits j = wordByte (mem.get cell) j := by
  subst hinsn
  obtain ⟨fd, index, o, info, hbase, hinfo, hfd, hindex, hoff, -, -, hmax⟩ := Mirrors.mapCell_ok hcell
  subst hfd hindex
  have hmap : s.isMapPtr base = true := by rw [ConcreteState.isMapPtr, hbase]
  have hstep : itemSuccessors p (pc, s) mem = .ok ([(pc + 1, s)], mem.insert cell v.bits) := by
    rw [itemSuccessors_eq hget (by simp), concreteSuccessors, hmap]
    change concreteMapAccess pc (.store src) base off s p.maps mem = _
    rw [concreteMapAccess, hcell]
    change (readConcreteReg pc s src >>= _) = _
    rw [readConcreteReg_some hsrc]
    rfl
  have hkept := h.mapKept _ _ hstep cell info hinfo j hj (by omega) ?_
  · rw [← hkept, MapMem.get_insert, if_pos rfl]
  · rintro ⟨b, hb, -, hlt⟩
    cases hbase.symm.trans hb
    omega

theorem mapLoad (h : WithinBounds p pc s mem insn) (hget : p.insns[pc]? = some insn) {dst base : Reg}
    {off : Int16} {size : MemSize} {se : Bool} {cell : Cell} (hinsn : insn = .ldMem dst base off size se)
    (hcell : mapCell pc p.maps base off s = .ok cell) :
    mem.get cell = extendWord size se (compose (wordByte (mem.get cell)) size.bytes) := by
  subst hinsn
  obtain ⟨fd, index, o, info, hbase, -⟩ := Mirrors.mapCell_ok hcell
  have hmap : s.isMapPtr base = true := by rw [ConcreteState.isMapPtr, hbase]
  have hstep : itemSuccessors p (pc, s) mem = .ok ([(pc + 1, s.setReg dst (.scalar (mem.get cell)))], mem) := by
    rw [itemSuccessors_eq hget (by simp), concreteSuccessors, hmap]
    change concreteMapAccess pc (.load dst) base off s p.maps mem = _
    rw [concreteMapAccess, hcell]
    rfl
  have hread := h.mapRead _ _ hstep dst base off size se cell rfl hcell
  have hregs := congrArg (fun l : List ConcreteSucc => l.head?.bind (·.2.regs dst)) hread
  simpa [ConcreteState.setReg] using hregs

end WithinBounds

/-- The step of an instruction stays within bounds exactly if every address fits 32 bits, no
    access runs past the top of its frame, its size is not 0 and its frame is still there,
    and a map value or an unwritten register is accessed by the word. -/
theorem access_bounds {p : Program} {pc : Nat} {insn : BpfInsn} (hget : p.insns[pc]? = some insn)
    (s : ConcreteState) (mem : MapMem) : WithinBounds p pc s mem insn ↔ Bounded p pc s mem insn := by
  constructor
  · intro h
    exact {
      operand := fun dst off op d hinsn => h.operand hget hinsn
      sums := h.noOverflow
      near := fun a ha => h.near ha
      nearCtx := fun dst base off size se addr hinsn hbase => by
        rw [← h.exactCtx dst base off size se addr hinsn hbase]
        exact ⟨Int32.le_toInt _, Int32.toInt_lt _⟩
      top := fun a ha hst => h.top hget ha hst
      sized := fun a ha hst => h.sized hget ha hst
      active := fun a ha hst hal => h.active hget ha hst hal
      unwritten := fun src base off size hinsn hsrc a ha hst hal o hlow hneg hslot hout =>
        h.unwritten hget hinsn hsrc ha hst hal hlow hneg hslot hout
      mapStore := fun src base off size cell v hinsn hcell hsrc j hj hrest =>
        h.mapStore hget hinsn hcell hsrc hj hrest
      mapLoad := fun dst base off size se cell hinsn hcell => h.mapLoad hget hinsn hcell }
  · intro h
    exact {
      noPanic := h.noPanic hget
      noOverflow := h.sums
      exact := fun a ha => h.checked ha
      exactCtx := fun dst base off size se addr hinsn hbase => by
        have hnear := h.nearCtx dst base off size se addr hinsn hbase
        have hint := @toInt32_near (addr - ctxBase).toInt64 0 off.toInt64
        rw [Int16.toInt_toInt64, Int64.toInt_zero, Int64.sub_zero] at hint
        simpa using hint (by simpa using hnear)
      outside := fun a ha hout => h.outside hget ha hout
      stackKept := fun l mem' hs x hx d o hlow hneg hactive hexit hcall hout =>
        h.stackKept hget hs hx hlow hneg hactive hexit hcall hout
      mapKept := fun l mem' hs c info hinfo j hj hin hout => h.mapKept hget hs hinfo hj hin hout
      stackRead := fun l mem' hs dst base off size se addr d hinsn hbase => h.stackRead hget hs hinsn hbase
      mapRead := fun l mem' hs dst base off size se cell hinsn hcell => h.mapRead hget hs hinsn hcell
      atomicRead := fun l mem' hs dst src off size op fetch hinsn => h.atomicRead hget hs hinsn
      keyRead := fun l mem' hs imm fd info addr d hinsn himm hr1 hinfo hr2 =>
        h.keyRead hget hs hinsn himm hr1 hinfo hr2 }

/-- A store to the top slot of the frame. -/
theorem access_bounds_store :
    WithinBounds overlapping 0 (follow overlapping 0).2 .empty (.stMemImm 5 10 (-8) .dw) := by
  have hattempts : attempts overlapping.maps 0 (follow overlapping 0).2 (.stMemImm 5 10 (-8) .dw) =
      [⟨stackBase, 0, -8, 8⟩] := rfl
  have hsums : uncheckedSums overlapping.maps 0 (follow overlapping 0).2 (.stMemImm 5 10 (-8) .dw) =
      [⟨0, 64⟩, ⟨-8, 64⟩] := by decide
  have hstart : (⟨stackBase, 0, -8, 8⟩ : StackAccess).start = -8 := by decide
  refine (access_bounds rfl _ _).mpr ⟨nofun, ?_, ?_, nofun, ?_, ?_, ?_, nofun, nofun, nofun⟩
  · rw [hsums]
    simp [UncheckedSum.Fits]
  · rw [hattempts, List.forall_mem_singleton, hstart]
    decide
  · rw [hattempts, List.forall_mem_singleton, hstart]
    exact fun _ => by decide
  · rw [hattempts, List.forall_mem_singleton]
    exact fun _ => by decide
  · rw [hattempts, List.forall_mem_singleton]
    exact fun _ _ => .inl rfl

/-- A load 2^32 - 8 bytes above R10. -/
def wrappedPointer : List BpfInsn :=
  [.stMemImm 7 10 (-8) .dw, .ldImm64 1 0x100000000, .ldImm64Second 1, .addReg 1 10,
    .ldMem 0 1 (-8) .dw false, .exit]

/-- It returns the 7 in the top slot of the frame. -/
theorem wrapped_address :
    ∃ run, runConcreteWithMaps wrappedPointer [] .default (fun _ => none) = .ok run ∧
      run.outcomes.map (fun o => o.state.regs 0) = [some (.scalar 7)] ∧
      ∃ p mem, p.insns = wrappedPointer ∧ (follow p 4).1 = 4 ∧
        ¬ WithinBounds p 4 (follow p 4).2 mem (.ldMem 0 1 (-8) .dw false) := by
  have hrun : (runConcreteWithMaps wrappedPointer [] .default (fun _ => none)).toOption.any (fun run =>
      decide (run.outcomes.map (fun o => o.state.regs 0) = [some (.scalar 7)])) = true := by
    decide
  obtain ⟨run, hok, hat⟩ := (Option.any_eq_true _ _).mp hrun
  refine ⟨run, ?_, of_decide_eq_true hat, withLiveness wrappedPointer, .empty, rfl, by decide, fun h => ?_⟩
  · cases hr : runConcreteWithMaps wrappedPointer [] .default (fun _ => none) with
    | error e =>
      rw [hr] at hok
      cases hok
    | ok r =>
      rw [hr] at hok
      cases hok
      rfl
  · have hbase : (follow (withLiveness wrappedPointer) 4).2.regs 1 = some (.stackPtr 0x100001000 0) := by
      decide
    have ha : (⟨0x100001000, 0, -8, 8⟩ : StackAccess) ∈
        stackAccess (follow (withLiveness wrappedPointer) 4).2 1 (-8) MemSize.dw.bytes := mem_stackAccess_of hbase
    have hnear := h.near ha
    have hstart : (⟨0x100001000, 0, -8, 8⟩ : StackAccess).start = 2 ^ 32 - 8 := by decide
    omega

end RandVerifier.Explorer
