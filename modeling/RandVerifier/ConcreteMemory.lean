/-
  RandVerifier.ConcreteMemory — what the concrete interpreter keeps of the bytes a path writes.

  A path carries a log of its writes (`Logged`). Stores write the bytes of their width,
  an atomic of 64 bits on a scalar of the stack writes its result, a map update writes the
  value buffer; the store of a register that was never written forgets its slot, and a call
  enters a blank frame. The other atomics write nothing: those of 32 bits, those on a spilled
  pointer, and those that are not on the stack. Steps outside `Regular` are left out: an
  access through a map pointer that is narrower than 8 bytes, a key that crosses a slot, and
  a stack address that does not fit 32 bits.

  - `Logged.mirrors`: the slots of all frames and the map cells are the bytes of the log.
  - `concrete_memory`: so a load returns the bytes most recently written, a 64-bit atomic
    the old word, and the other atomics 0 or the pointer.
  - `narrow_atomic_lost`: an atomic add of 32 bits is lost, and returns 0.
-/

import RandVerifier.ExplorerFrames
import RandVerifier.LittleEndian

namespace RandVerifier.Explorer

/-! ## Bytes of a slot -/

theorem lowMask_getLsbD {n : Nat} (h0 : 0 < n) (h8 : n ≤ 8) (i : Nat) :
    (lowMask n).toBitVec.getLsbD i = decide (i < 8 * n) := by
  have hall : ∀ n : Fin 9, 0 < n.val → ∀ i : Fin 64,
      (lowMask n.val).toBitVec.getLsbD i.val = decide (i.val < 8 * n.val) := by decide
  by_cases hi : i < 64
  · exact hall ⟨n, by omega⟩ h0 ⟨i, hi⟩
  · have hlt : ¬ i < 8 * n := by omega
    rw [BitVec.getLsbD_of_ge _ _ (by omega)]
    simp [hlt]

/-- The bytes of a word into which a value is merged. -/
theorem wordByte_merge (e v : UInt64) {i n j : Nat} (h0 : 0 < n) (hin : i + n ≤ 8) (hj : j < 8) :
    wordByte ((e &&& ~~~(lowMask n <<< UInt64.ofNat (i * 8))) |||
        ((v &&& lowMask n) <<< UInt64.ofNat (i * 8))) j =
      if i ≤ j ∧ j < i + n then wordByte v (j - i) else wordByte e j := by
  rw [← UInt8.toBitVec_inj]
  apply BitVec.eq_of_getLsbD_eq
  intro t ht
  rw [wordByte_getLsbD _ hj ht, UInt64.toBitVec_or, BitVec.getLsbD_or, UInt64.toBitVec_and,
    BitVec.getLsbD_and, UInt64.toBitVec_not, BitVec.getLsbD_not, Nat.mul_comm i 8,
    shiftBytes_getLsbD _ (by omega), shiftBytes_getLsbD _ (by omega), UInt64.toBitVec_and,
    BitVec.getLsbD_and, lowMask_getLsbD h0 (by omega)]
  have h64 : 8 * j + t < 64 := by omega
  by_cases hcov : i ≤ j ∧ j < i + n
  · have h1 : 8 * i ≤ 8 * j + t := by omega
    have h2 : 8 * j + t - 8 * i < 8 * n := by omega
    have h3 : 8 * j + t - 8 * i = 8 * (j - i) + t := by omega
    rw [if_pos hcov, wordByte_getLsbD _ (by omega) ht, ← h3]
    simp [h64, h1, h2]
  · rw [if_neg hcov, wordByte_getLsbD _ hj ht]
    by_cases h1 : 8 * i ≤ 8 * j + t
    · have h2 : ¬ 8 * j + t - 8 * i < 8 * n := by omega
      simp [h64, h2]
    · simp [h64, h1]

/-- The covered bytes of a word, as a word. -/
theorem extract_eq_compose (v : UInt64) {i n : Nat} (h0 : 0 < n) (hin : i + n ≤ 8) :
    (v >>> UInt64.ofNat (i * 8)) &&& lowMask n = compose (fun j => wordByte v (i + j)) n := by
  rw [← UInt64.toBitVec_inj]
  apply BitVec.eq_of_getLsbD_eq
  intro t ht
  have hmod : i * 8 % 2 ^ 64 % (64 : BitVec 64).toNat = i * 8 := by
    rw [show (64 : BitVec 64).toNat = 64 from rfl]
    omega
  rw [compose_getLsbD (by omega), UInt64.toBitVec_and, BitVec.getLsbD_and, lowMask_getLsbD h0 (by omega)]
  by_cases hlt : t < 8 * n
  · rw [wordByte_getLsbD _ (by omega) (Nat.mod_lt _ (by decide))]
    simp only [UInt64.toBitVec_shiftRight, UInt64.toBitVec_ofNat', BitVec.ushiftRight_eq',
      BitVec.toNat_umod, BitVec.toNat_ofNat, BitVec.getLsbD_ushiftRight, hmod]
    have heq : 8 * (i + t / 8) + t % 8 = i * 8 + t := by omega
    simp [hlt, heq]
  · simp [hlt]

/-- A loaded word, extended from its width. -/
def extendWord (size : MemSize) (signExtend : Bool) (w : UInt64) : UInt64 :=
  if signExtend then
    match size with
    | .b => w.toUInt8.toInt8.toInt64.toUInt64
    | .h => w.toUInt16.toInt16.toInt64.toUInt64
    | .w => w.toUInt32.toInt32.toInt64.toUInt64
    | .dw => w
  else w

theorem and_bit_ne_zero (w : UInt64) {k : Nat} (hk : k < 64) :
    w &&& (1 <<< UInt64.ofNat k) ≠ 0 ↔ w.toBitVec.getLsbD k = true := by
  have hbit : ∀ t, (w &&& (1 <<< UInt64.ofNat k)).toBitVec.getLsbD t = (decide (t = k) && w.toBitVec.getLsbD k) := by
    intro t
    have hmod : k % 2 ^ 64 % (64 : BitVec 64).toNat = k := by
      rw [show (64 : BitVec 64).toNat = 64 from rfl]
      omega
    simp only [UInt64.toBitVec_and, BitVec.getLsbD_and, UInt64.toBitVec_shiftLeft, UInt64.toBitVec_ofNat',
      BitVec.shiftLeft_eq', BitVec.toNat_umod, BitVec.toNat_ofNat, BitVec.getLsbD_shiftLeft, hmod]
    by_cases ht : t = k
    · subst ht
      simp [hk]
    · by_cases hlt : t < k
      · simp [hlt, ht]
      · have hne : ¬ t - k = 0 := by omega
        simp [ht, hne]
  constructor
  · intro h
    by_contra hno
    refine h (UInt64.toBitVec_inj.mp (BitVec.eq_of_getLsbD_eq fun t _ => ?_))
    have hoff : w.toBitVec.getLsbD k = false := by simpa using hno
    rw [hbit, hoff]
    simp
  · intro h h0
    have hk' := hbit k
    rw [h0] at hk'
    simp [h] at hk'

/-- The interpreter's sign extension of a word of `n` bytes, bit by bit. -/
theorem signExtend_getLsbD (w : UInt64) {n t : Nat} (h0 : 0 < n) (h8 : n < 8) (ht : t < 64)
    (hhigh : ∀ k, 8 * n ≤ k → w.toBitVec.getLsbD k = false) :
    (if w &&& (1 <<< UInt64.ofNat (n * 8 - 1)) ≠ 0 then w ||| ~~~lowMask n else w).toBitVec.getLsbD t =
      if t < 8 * n then w.toBitVec.getLsbD t else w.toBitVec.getLsbD (n * 8 - 1) := by
  have hsign := and_bit_ne_zero w (show n * 8 - 1 < 64 by omega)
  by_cases hs : w.toBitVec.getLsbD (n * 8 - 1) = true
  · rw [if_pos (hsign.mpr hs), UInt64.toBitVec_or, BitVec.getLsbD_or, UInt64.toBitVec_not,
      BitVec.getLsbD_not, lowMask_getLsbD h0 (by omega)]
    by_cases hlt : t < 8 * n
    · simp [hlt]
    · simp [hlt, ht, hs]
  · rw [if_neg (fun h => hs (hsign.mp h))]
    split
    · rfl
    · rw [hhigh t (by omega)]
      simpa using hs

theorem signExtend_setWidth_getLsbD (x : BitVec 64) {n t : Nat} (h0 : 0 < n) (ht : t < 64) :
    (BitVec.signExtend 64 (x.setWidth n)).getLsbD t = if t < n then x.getLsbD t else x.getLsbD (n - 1) := by
  rw [BitVec.getLsbD_signExtend, BitVec.getLsbD_setWidth, BitVec.msb_eq_getLsbD_last, BitVec.getLsbD_setWidth]
  have hlast : n - 1 < n := by omega
  by_cases hlt : t < n <;> simp [ht, hlt, hlast]

theorem extendWord_eq (size : MemSize) (hsize : size ≠ .dw) (w : UInt64)
    (hhigh : ∀ k, 8 * size.bytes ≤ k → w.toBitVec.getLsbD k = false) :
    (if w &&& (1 <<< UInt64.ofNat (size.bytes * 8 - 1)) ≠ 0 then w ||| ~~~lowMask size.bytes else w) =
      extendWord size true w := by
  rw [← UInt64.toBitVec_inj]
  apply BitVec.eq_of_getLsbD_eq
  intro t ht
  have hword : size.bytes < 8 → (extendWord size true w).toBitVec =
      BitVec.signExtend 64 (w.toBitVec.setWidth (8 * size.bytes)) := by
    intro h
    cases size with
    | dw => exact absurd rfl hsize
    | _ => rfl
  have hlt : 0 < size.bytes ∧ size.bytes < 8 := by
    cases size with
    | dw => exact absurd rfl hsize
    | _ => decide
  rw [signExtend_getLsbD w hlt.1 hlt.2 ht hhigh, hword hlt.2, signExtend_setWidth_getLsbD _ (by omega) ht,
    Nat.mul_comm size.bytes 8]

/-- A load extracts the covered bytes and extends them. -/
theorem bits_extract (v : ConcreteValue) {i : Nat} (size : MemSize) (se : Bool) (hin : i + size.bytes ≤ 8) :
    (concreteExtract v i size.bytes se).bits =
      extendWord size se (compose (fun j => wordByte v.bits (i + j)) size.bytes) := by
  by_cases hsize : size = .dw
  · subst hsize
    have hi : i = 0 := by
      have : MemSize.dw.bytes = 8 := rfl
      omega
    subst hi
    rw [concreteExtract, if_pos ⟨rfl, rfl⟩]
    simp only [Nat.zero_add]
    rw [show compose (fun j => wordByte v.bits j) MemSize.dw.bytes = v.bits from compose_wordByte v.bits]
    cases se <;> rfl
  · have hlt : 0 < size.bytes ∧ size.bytes < 8 := by
      cases size with
      | dw => exact absurd rfl hsize
      | _ => decide
    rw [concreteExtract, if_neg (by omega)]
    simp only [extract_eq_compose v.bits hlt.1 hin]
    cases se with
    | false => rfl
    | true =>
      have hhigh : ∀ k, 8 * size.bytes ≤ k →
          (compose (fun j => wordByte v.bits (i + j)) size.bytes).toBitVec.getLsbD k = false := by
        intro k hk
        rw [compose_getLsbD (by omega)]
        simp [Nat.not_lt.mpr hk]
      rw [← extendWord_eq size hsize _ hhigh]
      simp only [true_and]
      split <;> rfl

/-! ## The writes of a path -/

/-- The bytes of a frame by their offset from its R10, and those of a map entry. -/
inductive Region where
  | stack (depth : Nat)
  | entry (fd : Nat) (index : UInt64)
  deriving DecidableEq

abbrev MemLog := List (ByteWrite Region)

/-- The offset of an access through a stack pointer from the R10 of its frame. -/
def stackOffset (addr : UInt64) (off : Int16) : Int := addr.toInt64.toInt - stackBase.toInt64.toInt + off.toInt

def ConcreteValue.isScalar : ConcreteValue → Bool
  | .scalar _ => true
  | _ => false

def slotOf (o : Int) : Fin stackSlots := Fin.ofNat stackSlots ((-o - 1).toNat / 8)

/-- Whether the slot at an offset of a frame holds a scalar. -/
def scalarAt (s : ConcreteState) (depth : Nat) (o : Int) : Bool :=
  match concreteFrameStack s depth with
  | .ok stack => (stack (slotOf o)).any (·.isScalar)
  | .error _ => false

/-- The operand that a compare-exchange compares with. -/
def expected (s : ConcreteState) : UInt64 := ((s.regs 0).map (·.scalarBits)).getD 0

/-- What an instruction writes, the bytes it reads taken from the log. -/
def writes (maps : Maps) (log : MemLog) (s : ConcreteState) : BpfInsn → MemLog
  | .stMem src base off size =>
    match s.regs base, s.regs src with
    | some (.stackPtr addr d), some v => [⟨.stack d, stackOffset addr off, size.bytes, wordByte v.bits⟩]
    -- an unwritten register leaves its slot unknown
    | some (.stackPtr addr d), none =>
      [⟨.stack d, stackOffset addr off - stackOffset addr off % 8, 8, fun _ => 0⟩]
    | some (.mapPtr fd (some i) o), some v => [⟨.entry fd i, o.toInt + off.toInt, size.bytes, wordByte v.bits⟩]
    | _, _ => []
  | .stMemImm imm base off size =>
    match s.regs base with
    | some (.stackPtr addr d) =>
      [⟨.stack d, stackOffset addr off, size.bytes, wordByte imm.toInt64.toUInt64⟩]
    | _ => []
  | .atomic dst src off size op _ =>
    match s.regs dst, s.regs src with
    | some (.stackPtr addr d), some (.scalar k) =>
      let o := stackOffset addr off
      if size = .dw ∧ scalarAt s d o = true then
        [⟨.stack d, o, 8, wordByte (atomicResult op (lastWord log (.stack d) o 8) k (expected s))⟩]
      else []
    | _, _ => []
  | .call imm =>
    match s.regs 1, s.regs 2, s.regs 3 with
    | some (.mapPtr fd _ _), some (.stackPtr key kd), some (.stackPtr value vd) =>
      match maps fd with
      | none => []
      | some info =>
        let index := lastWord log (.stack kd) (stackOffset key 0) info.keySize
        if imm = 2 ∧ index.toNat < info.maxEntries then
          [⟨.entry fd index, 0, info.valueSize,
            wordByte (lastWord log (.stack vd) (stackOffset value 0) info.valueSize)⟩]
        else []
    | _, _, _ => []
  -- the callee starts with a blank frame
  | .callSub _ => [⟨.stack (s.curframe + 1), -512, 512, fun _ => 0⟩]
  | _ => []

/-- The address of a stack access fits 32 bits. -/
def Near (s : ConcreteState) (base : Reg) (off : Int16) : Prop :=
  ∀ addr d, s.regs base = some (.stackPtr addr d) → -2 ^ 31 ≤ stackOffset addr off ∧ stackOffset addr off < 2 ^ 31

/-- The key buffer of a map helper lies in one slot. -/
def KeyInSlot (maps : Maps) (s : ConcreteState) : Prop :=
  ∀ fd index o info addr d, s.regs 1 = some (.mapPtr fd index o) → maps fd = some info →
    s.regs 2 = some (.stackPtr addr d) → stackOffset addr 0 % 8 + info.keySize ≤ 8

/-- The steps that the log accounts for. -/
def Regular (maps : Maps) (s : ConcreteState) : BpfInsn → Prop
  | .ldMem _ base off size _ | .stMem _ base off size => Near s base off ∧ (s.isMapPtr base = true → size = .dw)
  | .stMemImm _ base off _ | .atomic base _ off _ _ _ => Near s base off
  | .call imm => (imm = 1 ∨ imm = 2 → Near s 2 0 ∧ KeyInSlot maps s) ∧ (imm = 2 → Near s 3 0)
  | _ => True

section Accesses

variable {pc : Nat} {s s' : ConcreteState} {base : Reg} {off : Int16}

/-- The 64-bit difference, cut to 32 bits, is the offset when that fits. -/
theorem toInt32_near {a b c : Int64} (h : -2 ^ 31 ≤ a.toInt - b.toInt + c.toInt ∧ a.toInt - b.toInt + c.toInt < 2 ^ 31) :
    (a - b + c).toInt32.toInt = a.toInt - b.toInt + c.toInt := by
  rw [Int64.toInt_toInt32, Int64.toInt_add, Int64.toInt_sub]
  generalize a.toInt = x at *
  generalize b.toInt = y at *
  generalize c.toInt = z at *
  simp only [Int.bmod_def]
  split <;> split <;> split <;> omega

theorem stackPtrAccess_near {addr : UInt64} {d : Nat}
    (hnear : -2 ^ 31 ≤ stackOffset addr off ∧ stackOffset addr off < 2 ^ 31) {x : Nat × Int32}
    (h : stackPtrAccess pc base (.stackPtr addr d) off = .ok x) : x.1 = d ∧ x.2.toInt = stackOffset addr off := by
  cases h
  refine ⟨rfl, ?_⟩
  have hoff : off.toInt64.toInt = off.toInt := Int16.toInt_toInt64 off
  have hint := @toInt32_near addr.toInt64 stackBase.toInt64 off.toInt64
  rw [hoff] at hint
  exact hint hnear

/-- Where an accepted range lies. -/
theorem concreteStackRange_ok {o : Int32} {size : Nat} {x : Fin stackSlots × Nat}
    (h : concreteStackRange pc o size = .ok x) :
    0 < size ∧ o.toInt % size = 0 ∧ o.toInt + size ≤ 0 ∧ x.1 = slotOf o.toInt ∧
      x.2 < 8 ∧ o.toInt = -8 * (x.1 : Nat) - 8 + x.2 := by
  unfold concreteStackRange at h
  dsimp only at h
  split at h
  · cases h
  · split at h
    · cases h
    · split at h
      · cases h
      · split at h
        · cases h
        · rename_i h1 h2 h3 h4
          cases h
          have hsize : stackSize = 512 := rfl
          have hval : (slotOf o.toInt : Nat) = (-o.toInt - 1).toNat / 8 := by
            refine Nat.mod_eq_of_lt ?_
            have hslots : stackSlots = 64 := rfl
            omega
          refine ⟨by omega, not_not.mp h3, by omega, rfl, by omega, ?_⟩
          dsimp only
          rw [show Fin.ofNat stackSlots ((-o.toInt - 1).toNat / 8) = slotOf o.toInt from rfl, hval]
          omega

end Accesses

/-! ## The log mirrors the memory -/

def slotWord (v : Option ConcreteValue) : UInt64 := (v.map (·.bits)).getD 0

/-- The bytes of slot `k` of a frame are those of a word. -/
def SlotHolds (log : MemLog) (d k : Nat) (w : UInt64) : Prop :=
  ∀ j < 8, wordByte w j = lastByte log (.stack d) (-8 * k - 8 + j)

structure Mirrors (maps : Maps) (log : MemLog) (s : ConcreteState) (mem : MapMem) : Prop where
  current : ∀ k : Fin stackSlots, SlotHolds log s.curframe k (slotWord (s.stack k))
  depth : ∀ d, (s.savedAt d).isSome = true ↔ d < s.curframe
  callers : ∀ d fr, s.savedAt d = some fr → ∀ k : Fin stackSlots, SlotHolds log d k (slotWord (fr.stack k))
  entries : ∀ fd index off info, maps fd = some info → 8 ≤ info.valueSize → off.toInt % 8 = 0 →
    ∀ j < 8, wordByte (mem.get ⟨fd, index, off⟩) j = lastByte log (.entry fd index) (off.toInt + j)

namespace Mirrors

variable {maps : Maps} {log : MemLog} {s s' : ConcreteState} {mem : MapMem} {w : ByteWrite Region}

theorem start (maps : Maps) (t : ProgType) : Mirrors maps [] (.initialWith t) .empty := by
  have hzero : ∀ j, wordByte 0 j = 0 := fun j => by simp [wordByte]
  have hnone : ∀ d, (ConcreteState.initialWith t).savedAt d = none := by
    intro d
    unfold ConcreteState.savedAt
    split <;> rfl
  refine ⟨fun k j _ => hzero j, fun d => ?_, fun d fr h => ?_, fun fd index off info _ _ _ j _ => hzero j⟩
  · rw [hnone d]
    exact ⟨fun hsome => Bool.noConfusion hsome, fun hd => absurd hd (Nat.not_lt_zero d)⟩
  · rw [hnone d] at h
    cases h

theorem below (h : Mirrors maps log s mem) {d : Nat} {fr : ConcreteFrame} (hfr : s.savedAt d = some fr) :
    d < s.curframe := (h.depth d).mp (by rw [hfr]; rfl)

/-- The registers are no part of the memory. -/
theorem congr (h : Mirrors maps log s mem) (hstack : s'.stack = s.stack) (hsaved : s'.saved = s.saved)
    (hcur : s'.curframe = s.curframe) : Mirrors maps log s' mem := by
  have hat : ∀ d, s'.savedAt d = s.savedAt d := by
    intro d
    unfold ConcreteState.savedAt
    rw [hsaved]
  refine ⟨?_, fun d => ?_, fun d fr hfr => ?_, h.entries⟩
  · rw [hstack, hcur]
    exact h.current
  · rw [hcur, hat]
    exact h.depth d
  · exact h.callers d fr (hat d ▸ hfr)

/-- The stack of a frame, current or saved. -/
theorem frame (h : Mirrors maps log s mem) {d : Nat} {stack : ConcreteStack}
    (hst : concreteFrameStack s d = .ok stack) (k : Fin stackSlots) : SlotHolds log d k (slotWord (stack k)) := by
  unfold concreteFrameStack at hst
  split at hst
  · rename_i hcur
    cases hst
    exact hcur ▸ h.current k
  · cases hat : s.savedAt d with
    | none =>
      rw [hat] at hst
      cases hst
    | some fr =>
      rw [hat] at hst
      cases hst
      exact h.callers d fr hat k

/-- A write to the stack that stays in one slot. -/
theorem setSlot (h : Mirrors maps log s mem) {d : Nat} {slot : Fin stackSlots} {v : Option ConcreteValue}
    (hset : setFrameSlot s d slot v = .ok s') (hregion : w.region = .stack d)
    (hinside : ∀ a, w.Covers (.stack d) a → -8 * (slot : Nat) - 8 ≤ a ∧ a < -8 * (slot : Nat))
    (hbytes : SlotHolds (w :: log) d slot (slotWord v)) : Mirrors maps (w :: log) s' mem := by
  -- the other slots keep their bytes
  have hother : ∀ {d' : Nat} {k : Fin stackSlots} {x : UInt64}, ¬ (d' = d ∧ k = slot) →
      SlotHolds log d' k x → SlotHolds (w :: log) d' k x := by
    intro d' k x hne hold j hj
    rw [hold j hj, lastByte_other]
    intro hcov
    obtain rfl : d = d' := Region.stack.inj (hregion ▸ hcov.1)
    obtain ⟨h1, h2⟩ := hinside _ hcov
    exact hne ⟨rfl, Fin.ext (by omega)⟩
  have hentries : ∀ fd index off info, maps fd = some info → 8 ≤ info.valueSize → off.toInt % 8 = 0 →
      ∀ j < 8, wordByte (mem.get ⟨fd, index, off⟩) j = lastByte (w :: log) (.entry fd index) (off.toInt + j) := by
    intro fd index off info hinfo hsize hoff j hj
    rw [h.entries fd index off info hinfo hsize hoff j hj, lastByte_other]
    intro hcov
    have := hregion.symm.trans hcov.1
    cases this
  unfold setFrameSlot at hset
  split at hset
  · rename_i hcur
    cases hset
    refine ⟨fun k => ?_, h.depth, fun d' fr hfr k => ?_, hentries⟩
    · dsimp only
      by_cases hk : k = slot
      · subst hk
        rw [Function.update_self, ← hcur]
        exact hbytes
      · rw [Function.update_of_ne hk]
        exact hother (fun hc => hk hc.2) (h.current k)
    · have hlt := h.below hfr
      exact hother (fun hc => by omega) (h.callers d' fr hfr k)
  · rename_i hcur
    cases hat : s.savedAt d with
    | none =>
      rw [hat] at hset
      cases hset
    | some caller =>
      rw [hat] at hset
      cases hset
      set next : Fin (maxCallFrames - 1) → Option ConcreteFrame := fun k =>
        if k.val = d then some { caller with stack := Function.update caller.stack slot v } else s.saved k
      have hsaved : ∀ d' fr, ConcreteState.savedAt { s with saved := next } d' = some fr →
          d' = d ∧ fr.stack = Function.update caller.stack slot v ∨ d' ≠ d ∧ s.savedAt d' = some fr := by
        intro d' fr hfr
        unfold ConcreteState.savedAt at hfr ⊢
        split at hfr
        · rename_i hlt
          change next ⟨d', hlt⟩ = some fr at hfr
          by_cases hd : d' = d
          · rw [show next ⟨d', hlt⟩ = some { caller with stack := Function.update caller.stack slot v } from
              if_pos hd] at hfr
            cases hfr
            exact .inl ⟨hd, rfl⟩
          · rw [show next ⟨d', hlt⟩ = s.saved ⟨d', hlt⟩ from if_neg hd] at hfr
            exact .inr ⟨hd, by rw [dif_pos hlt, hfr]⟩
        · cases hfr
      refine ⟨fun k => hother (fun hc => hcur hc.1.symm) (h.current k), fun d' => ?_,
        fun d' fr hfr k => ?_, hentries⟩
      · rw [← h.depth d']
        unfold ConcreteState.savedAt at hat ⊢
        split
        · rename_i hlt
          change (next ⟨d', hlt⟩).isSome = true ↔ _
          by_cases hd : d' = d
          · subst hd
            rw [dif_pos hlt] at hat
            rw [show next ⟨d', hlt⟩ = some { caller with stack := Function.update caller.stack slot v } from
              if_pos rfl, hat]
            rfl
          · rw [show next ⟨d', hlt⟩ = s.saved ⟨d', hlt⟩ from if_neg hd]
        · rfl
      · rcases hsaved d' fr hfr with ⟨rfl, hstack⟩ | ⟨hne, hold⟩
        · rw [hstack]
          by_cases hk : k = slot
          · subst hk
            rw [Function.update_self]
            exact hbytes
          · rw [Function.update_of_ne hk]
            exact hother (fun hc => hk hc.2) (h.callers _ caller hat k)
        · exact hother (fun hc => hne hc.1) (h.callers d' fr hold k)

/-- A store of a value into the bytes of a slot. -/
theorem merge (h : Mirrors maps log s mem) {d i n : Nat} {slot : Fin stackSlots} {v : ConcreteValue}
    {o : Int} (h0 : 0 < n) (hin : i + n ≤ 8) (ho : o = -8 * (slot : Nat) - 8 + i)
    (hm : concreteMerge s d slot i n v = .ok s') :
    Mirrors maps (⟨.stack d, o, n, wordByte v.bits⟩ :: log) s' mem := by
  obtain ⟨stack, hstack, hm⟩ := bind_eq_ok.mp hm
  have hold := h.frame hstack slot
  have hcovers : ∀ j : Nat, (⟨.stack d, o, n, wordByte v.bits⟩ : ByteWrite Region).Covers (.stack d)
      (-8 * (slot : Nat) - 8 + j) ↔ i ≤ j ∧ j < i + n := by
    intro j
    unfold ByteWrite.Covers
    dsimp only
    constructor
    · rintro ⟨-, h1, h2⟩
      omega
    · rintro ⟨h1, h2⟩
      exact ⟨rfl, by omega, by omega⟩
  have hinside : ∀ a, (⟨.stack d, o, n, wordByte v.bits⟩ : ByteWrite Region).Covers (.stack d) a →
      -8 * (slot : Nat) - 8 ≤ a ∧ a < -8 * (slot : Nat) := by
    rintro a ⟨-, h1, h2⟩
    dsimp only at h1 h2
    omega
  dsimp only at hm
  by_cases hfull : i = 0 ∧ n = 8
  · rw [if_pos hfull] at hm
    refine h.setSlot hm rfl hinside fun j hj => ?_
    rw [lastByte_covered ((hcovers j).mpr (by omega))]
    dsimp only [slotWord, Option.map_some, Option.getD_some]
    congr 1
    omega
  · rw [if_neg hfull] at hm
    refine h.setSlot hm rfl hinside fun j hj => ?_
    refine (wordByte_merge (slotWord (stack slot)) v.bits h0 hin hj).trans ?_
    by_cases hcov : i ≤ j ∧ j < i + n
    · rw [if_pos hcov, lastByte_covered ((hcovers j).mpr hcov)]
      dsimp only
      congr 1
      omega
    · rw [if_neg hcov, lastByte_other fun hc => hcov ((hcovers j).mp hc)]
      exact hold j hj

/-- A slot that becomes unknown. -/
theorem forget (h : Mirrors maps log s mem) {d : Nat} {slot : Fin stackSlots} {o : Int}
    (ho : o = -8 * (slot : Nat) - 8) (hset : setFrameSlot s d slot none = .ok s') :
    Mirrors maps (⟨.stack d, o, 8, fun _ => 0⟩ :: log) s' mem := by
  refine h.setSlot hset rfl (fun a hcov => ?_) fun j hj => ?_
  · obtain ⟨-, h1, h2⟩ := hcov
    dsimp only at h1 h2
    omega
  · rw [lastByte_covered ⟨rfl, by dsimp only; omega, by dsimp only; omega⟩]
    simp [slotWord, wordByte]

/-- A store into a map cell, exact if the map has values of 8 bytes or more. -/
theorem insert (h : Mirrors maps log s mem) {fd : Nat} {index : UInt64} {off : Int64} {o : Int} {v w : UInt64}
    {n : Nat} (ho : o = off.toInt) (hoff : off.toInt % 8 = 0)
    (hn : ∀ info, maps fd = some info → 8 ≤ info.valueSize → n = 8 ∧ w = v) :
    Mirrors maps (⟨.entry fd index, o, n, wordByte w⟩ :: log) s (mem.insert ⟨fd, index, off⟩ v) := by
  have hstack : ∀ {d k : Nat} {x : UInt64}, SlotHolds log d k x →
      SlotHolds (⟨.entry fd index, o, n, wordByte w⟩ :: log) d k x := by
    intro d k x hold j hj
    rw [hold j hj, lastByte_other]
    rintro ⟨hr, -⟩
    cases hr
  refine ⟨fun k => hstack (h.current k), h.depth, fun d fr hfr k => hstack (h.callers d fr hfr k), ?_⟩
  intro fd' index' off' info hinfo hsize hoff' j hj
  rw [MapMem.get_insert]
  split
  · rename_i heq
    cases heq
    obtain ⟨rfl, rfl⟩ := hn info hinfo hsize
    rw [lastByte_covered ⟨rfl, by dsimp only; omega, by dsimp only; omega⟩]
    dsimp only
    congr 1
    omega
  · rename_i hne
    rw [h.entries fd' index' off' info hinfo hsize hoff' j hj, lastByte_other]
    rintro ⟨hr, h1, h2⟩
    dsimp only at hr h1 h2
    cases hr
    obtain ⟨rfl, rfl⟩ := hn info hinfo hsize
    refine hne (congrArg (Cell.mk fd index) (Int64.toInt_inj.mp ?_))
    omega

/-- A callee starts with a blank frame. -/
theorem enter (h : Mirrors maps log s mem) {ret : Nat} (hcall : s.callSubprog ret = .ok s') :
    Mirrors maps (⟨.stack (s.curframe + 1), -512, 512, fun _ => 0⟩ :: log) s' mem := by
  unfold ConcreteState.callSubprog at hcall
  split at hcall
  · rename_i hlt
    cases hcall
    have hold : ∀ {d k : Nat} {x : UInt64}, d ≤ s.curframe → SlotHolds log d k x →
        SlotHolds (⟨.stack (s.curframe + 1), -512, 512, fun _ => 0⟩ :: log) d k x := by
      intro d k x hd hx j hj
      rw [hx j hj, lastByte_other]
      rintro ⟨hr, -⟩
      have := Region.stack.inj hr
      omega
    set next := Function.update s.saved ⟨s.curframe, hlt⟩ (some ⟨s.regs, s.stack, s.retPc⟩)
    have hsaved : ∀ d fr, ConcreteState.savedAt { s with saved := next } d = some fr →
        d = s.curframe ∧ fr.stack = s.stack ∨ s.savedAt d = some fr := by
      intro d fr hfr
      unfold ConcreteState.savedAt at hfr ⊢
      split at hfr
      · rename_i hd
        change next ⟨d, hd⟩ = some fr at hfr
        by_cases hcur : d = s.curframe
        · subst hcur
          rw [show next ⟨s.curframe, hd⟩ = some ⟨s.regs, s.stack, s.retPc⟩ from Function.update_self ..] at hfr
          cases hfr
          exact .inl ⟨rfl, rfl⟩
        · rw [show next ⟨d, hd⟩ = s.saved ⟨d, hd⟩ from
            Function.update_of_ne (fun heq => hcur (congrArg Fin.val heq)) _ _] at hfr
          exact .inr (by rw [dif_pos hd, hfr])
      · cases hfr
    refine ⟨fun k j hj => ?_, fun d => ?_, fun d fr hfr k => ?_, fun fd index off info h1 h2 h3 j hj => ?_⟩
    · have hslots : (k : Nat) < 64 := k.isLt
      rw [lastByte_covered ⟨rfl, by dsimp only; omega, by dsimp only; omega⟩]
      simp [slotWord, wordByte]
    · have hdepth := h.depth d
      unfold ConcreteState.savedAt at hdepth ⊢
      dsimp only
      split
      · rename_i hd
        change (next ⟨d, hd⟩).isSome = true ↔ _
        rw [dif_pos hd] at hdepth
        by_cases hcur : d = s.curframe
        · subst hcur
          rw [show next ⟨s.curframe, hd⟩ = some ⟨s.regs, s.stack, s.retPc⟩ from Function.update_self ..]
          exact ⟨fun _ => Nat.lt_succ_self _, fun _ => rfl⟩
        · rw [show next ⟨d, hd⟩ = s.saved ⟨d, hd⟩ from
            Function.update_of_ne (fun heq => hcur (congrArg Fin.val heq)) _ _, hdepth]
          omega
      · exact ⟨fun hsome => Bool.noConfusion hsome, fun hd => by omega⟩
    · rcases hsaved d fr hfr with ⟨rfl, hst⟩ | hfr'
      · rw [hst]
        exact hold (le_refl _) (h.current k)
      · exact hold (h.below hfr').le (h.callers d fr hfr' k)
    · rw [h.entries fd index off info h1 h2 h3 j hj, lastByte_other]
      rintro ⟨hr, -⟩
      cases hr
  · cases hcall

/-- A return drops the frame of the callee. -/
theorem leave (h : Mirrors maps log s mem) : Mirrors maps log s.returnFromSubprog mem := by
  unfold ConcreteState.returnFromSubprog
  split
  · exact h
  · rename_i hcur
    obtain ⟨d, hd⟩ : ∃ d, s.curframe = d + 1 := ⟨s.curframe - 1, by omega⟩
    obtain ⟨caller, hat⟩ := Option.isSome_iff_exists.mp ((h.depth d).mpr (by omega))
    simp only [hd, Nat.add_sub_cancel, hat]
    set next : Fin (maxCallFrames - 1) → Option ConcreteFrame := fun k => if k.val = d then none else s.saved k
    have hsaved : ∀ d', ConcreteState.savedAt { s with saved := next } d' = if d' = d then none else s.savedAt d' := by
      intro d'
      unfold ConcreteState.savedAt
      split
      · rename_i hlt
        change next ⟨d', hlt⟩ = _
        rfl
      · split <;> rfl
    refine ⟨h.callers d caller hat, fun d' => ?_, fun d' fr hfr k => ?_, h.entries⟩
    · change (ConcreteState.savedAt { s with saved := next } d').isSome = true ↔ d' < d
      rw [hsaved]
      split
      · rename_i heq
        exact ⟨nofun, fun hlt => by omega⟩
      · rw [h.depth d']
        omega
    · change ConcreteState.savedAt { s with saved := next } d' = some fr at hfr
      rw [hsaved] at hfr
      split at hfr
      · cases hfr
      · exact h.callers d' fr hfr k

/-! ### Reads -/

theorem read (h : Mirrors maps log s mem) {d i n : Nat} {stack : ConcreteStack} {slot : Fin stackSlots}
    {v : ConcreteValue} {o : Int} (hst : concreteFrameStack s d = .ok stack) (hv : stack slot = some v)
    (ho : o = -8 * (slot : Nat) - 8 + i) (hin : i + n ≤ 8) :
    compose (fun j => wordByte v.bits (i + j)) n = lastWord log (.stack d) o n := by
  refine compose_congr fun j hj => ?_
  have hslot := h.frame hst slot (i + j) (by omega)
  rw [hv] at hslot
  refine hslot.trans (congrArg _ ?_)
  rw [ho]
  push_cast
  omega

theorem buffer (h : Mirrors maps log s mem) {pc size : Nat} {r : Reg} {v : UInt64} {addr : UInt64} {d : Nat}
    (hr : s.regs r = some (.stackPtr addr d)) (hnear : Near s r 0)
    (hfit : stackOffset addr 0 % 8 + size ≤ 8 ∨ size = 8) (hread : concreteMapBuffer pc s r size = .ok v) :
    v = lastWord log (.stack d) (stackOffset addr 0) size := by
  unfold concreteMapBuffer at hread
  simp only [hr] at hread
  split at hread
  · cases hread
  · rename_i hsize
    obtain ⟨⟨slot, i⟩, hrange, hread⟩ := bind_eq_ok.mp hread
    obtain ⟨stack, hstack, hread⟩ := bind_eq_ok.mp hread
    obtain ⟨h0, hal, hmax, -, hi, ho⟩ := concreteStackRange_ok hrange
    have hoff : (addr.toInt64 - stackBase.toInt64).toInt32.toInt = stackOffset addr 0 := by
      have hacc := @stackPtrAccess_near pc r 0 addr d (hnear addr d hr) _ rfl
      simpa using hacc.2
    rw [hoff] at ho hal
    dsimp only at ho hi hread
    have hin : i + size ≤ 8 := by
      rcases hfit with hfit | rfl
      · omega
      · omega
    cases hv : stack slot with
    | none =>
      rw [hv] at hread
      cases hread
    | some value =>
      rw [hv] at hread
      rw [← h.read hstack hv ho hin]
      dsimp only at hread
      by_cases hfull : i = 0 ∧ size = 8
      · obtain ⟨rfl, rfl⟩ := hfull
        rw [concreteExtract, if_pos ⟨rfl, rfl⟩] at hread
        cases value with
        | scalar x =>
          cases hread
          simp only [Nat.zero_add]
          exact (compose_wordByte v).symm
        | _ => cases hread
      · rw [concreteExtract, if_neg hfull] at hread
        simp only [Bool.false_eq_true, false_and, if_false] at hread
        cases hread
        exact extract_eq_compose value.bits h0 hin

/-! ### Instructions -/

variable {pc : Nat}

theorem readConcreteReg_ok {r : Reg} {v : ConcreteValue} (h : readConcreteReg pc s r = .ok v) :
    s.regs r = some v := by
  unfold readConcreteReg at h
  split at h
  · cases h
  · rename_i heq
    cases h
    exact heq

/-- Where an accepted stack access of a store width lies. -/
theorem access {base : Reg} {off : Int16} {addr : UInt64} {d : Nat} {size : MemSize} {x : Nat × Int32}
    {y : Fin stackSlots × Nat} (hbase : s.regs base = some (.stackPtr addr d)) (hnear : Near s base off)
    (hacc : stackPtrAccess pc base (.stackPtr addr d) off = .ok x)
    (hrange : concreteStackRange pc x.2 size.bytes = .ok y) :
    x.1 = d ∧ y.1 = slotOf (stackOffset addr off) ∧ 0 < size.bytes ∧ y.2 + size.bytes ≤ 8 ∧
      stackOffset addr off = -8 * (y.1 : Nat) - 8 + y.2 := by
  obtain ⟨hd, ho⟩ := stackPtrAccess_near (hnear addr d hbase) hacc
  obtain ⟨h0, hal, -, hslot, hi, hpos⟩ := concreteStackRange_ok hrange
  rw [ho] at hal hslot hpos
  have hwidth : size.bytes = 1 ∨ size.bytes = 2 ∨ size.bytes = 4 ∨ size.bytes = 8 := by cases size <;> simp [MemSize.bytes]
  refine ⟨hd, hslot, h0, ?_, hpos⟩
  rcases hwidth with hw | hw | hw | hw <;> rw [hw] at hal ⊢ <;> omega

theorem stMem (h : Mirrors maps log s mem) {src base : Reg} {off : Int16} {size : MemSize}
    (hnear : Near s base off) (hs : concreteStMem pc s src base off size = .ok s') :
    Mirrors maps (writes maps log s (.stMem src base off size) ++ log) s' mem := by
  obtain ⟨value, hvalue, hrest⟩ := bind_eq_ok.mp hs
  obtain ⟨⟨frameno, o⟩, hacc, hrest'⟩ := bind_eq_ok.mp hrest
  obtain ⟨⟨slot, i⟩, hrange, hlast⟩ := bind_eq_ok.mp hrest'
  have hbase := readConcreteReg_ok hvalue
  cases value with
  | stackPtr addr d =>
    obtain ⟨rfl, -, h0, hin, hpos⟩ := access hbase hnear hacc hrange
    dsimp only at hlast hin hpos
    cases hsrc : s.regs src with
    | none =>
      rw [hsrc] at hlast
      simp only [writes, hbase, hsrc, List.singleton_append]
      refine h.forget ?_ hlast
      omega
    | some v =>
      rw [hsrc] at hlast
      simp only [writes, hbase, hsrc, List.singleton_append]
      exact h.merge h0 hin hpos hlast
  | _ => cases hacc

theorem stMemImm (h : Mirrors maps log s mem) {imm : Int32} {base : Reg} {off : Int16} {size : MemSize}
    (hnear : Near s base off) (hs : concreteStMemImm pc s imm base off size = .ok s') :
    Mirrors maps (writes maps log s (.stMemImm imm base off size) ++ log) s' mem := by
  obtain ⟨value, hvalue, hrest⟩ := bind_eq_ok.mp hs
  obtain ⟨⟨frameno, o⟩, hacc, hrest'⟩ := bind_eq_ok.mp hrest
  obtain ⟨⟨slot, i⟩, hrange, hlast⟩ := bind_eq_ok.mp hrest'
  have hbase := readConcreteReg_ok hvalue
  cases value with
  | stackPtr addr d =>
    obtain ⟨rfl, -, h0, hin, hpos⟩ := access hbase hnear hacc hrange
    dsimp only at hlast hin hpos
    simp only [writes, hbase, List.singleton_append]
    have hstore := h.merge h0 hin hpos hlast
    exact hstore
  | _ => cases hacc

theorem store8 (h : Mirrors maps log s mem) {d : Nat} {slot : Fin stackSlots} {v : ConcreteValue} {o : Int}
    {stack : ConcreteStack} (hst : concreteFrameStack s d = .ok stack) (ho : o = -8 * (slot : Nat) - 8)
    (hset : setFrameSlot s d slot (some v) = .ok s') :
    Mirrors maps (⟨.stack d, o, 8, wordByte v.bits⟩ :: log) s' mem := by
  refine @merge maps log s s' mem h d 0 8 slot v o (by decide) (by decide) (by omega) ?_
  rw [concreteMerge, hst]
  exact hset

theorem setFrameSlot_regs {d : Nat} {slot : Fin stackSlots} {v : Option ConcreteValue}
    (hset : setFrameSlot s d slot v = .ok s') : s'.regs = s.regs := by
  unfold setFrameSlot at hset
  split at hset
  · cases hset
    rfl
  · split at hset
    · cases hset
    · cases hset
      rfl

theorem bytes_eq_eight {size : MemSize} : size.bytes = 8 ↔ size = .dw := by
  cases size <;> simp [MemSize.bytes]

/-- The target of an atomic on the stack: a written slot, exact if the access is of 64 bits. -/
theorem atomicTarget_stack {dst : Reg} {off : Int16} {size : MemSize} {addr : UInt64} {d : Nat}
    {x : ConcreteValue × Option (Nat × Fin stackSlots × Nat)} (hbase : s.regs dst = some (.stackPtr addr d))
    (hnear : Near s dst off) (h : atomicTarget pc s dst (.stackPtr addr d) off size = .ok x) :
    ∃ stack slot i v, x.2 = some (d, slot, i) ∧ concreteFrameStack s d = .ok stack ∧ stack slot = some v ∧
      slot = slotOf (stackOffset addr off) ∧ stackOffset addr off = -8 * (slot : Nat) - 8 + i ∧
      i + size.bytes ≤ 8 ∧ x.1 = if size = .dw then v else .scalar 0 := by
  obtain ⟨⟨frameno, o⟩, hacc, h₁⟩ := bind_eq_ok.mp h
  obtain ⟨⟨slot, i⟩, hrange, h₂⟩ := bind_eq_ok.mp h₁
  obtain ⟨stack, hstack, h₃⟩ := bind_eq_ok.mp h₂
  obtain ⟨hd, hslot, -, hin, hpos⟩ := access hbase hnear hacc hrange
  dsimp only at hd hslot hin hpos hstack h₃
  subst hd
  cases hv : stack slot with
  | none =>
    rw [hv] at h₃
    cases h₃
  | some v =>
    rw [hv] at h₃
    cases h₃
    refine ⟨stack, slot, i, v, rfl, hstack, hv, hslot, hpos, hin, ?_⟩
    dsimp only
    by_cases hdw : size = .dw
    · rw [if_pos hdw, if_pos ⟨bytes_eq_eight.mpr hdw, by rw [bytes_eq_eight.mpr hdw] at hin; omega⟩]
    · rw [if_neg hdw, if_neg fun hc => hdw (bytes_eq_eight.mp hc.1)]

theorem scalarAt_eq {d : Nat} {slot : Fin stackSlots} {stack : ConcreteStack} {v : ConcreteValue} {o : Int}
    (hst : concreteFrameStack s d = .ok stack) (hv : stack slot = some v) (hslot : slot = slotOf o) :
    scalarAt s d o = v.isScalar := by
  rw [scalarAt, hst, ← hslot]
  dsimp only
  rw [hv, Option.any_some]

/-- The state that an atomic leaves behind, the fetched value apart. -/
theorem atomicStore_stack (h : Mirrors maps log s mem) {d i : Nat} {slot : Fin stackSlots} {stack : ConcreteStack}
    {size : MemSize} {v old : ConcreteValue} {result : UInt64} {o : Int}
    (hst : concreteFrameStack s d = .ok stack) (hv : stack slot = some v) (hslot : slot = slotOf o)
    (ho : o = -8 * (slot : Nat) - 8 + i) (hin : i + size.bytes ≤ 8)
    (hold : old = if size = .dw then v else .scalar 0)
    (hs : atomicStore s (some (d, slot, i)) size old result = .ok s') :
    s'.regs = s.regs ∧ Mirrors maps
      ((if size = .dw ∧ scalarAt s d o = true then [⟨.stack d, o, 8, wordByte result⟩] else []) ++ log) s' mem := by
  have hscalar := scalarAt_eq hst hv hslot
  by_cases hdw : size = .dw
  · rw [if_pos hdw] at hold
    have hi : i = 0 := by
      rw [bytes_eq_eight.mpr hdw] at hin
      omega
    subst hold hi
    cases old with
    | scalar x =>
      rw [if_pos ⟨hdw, hscalar⟩]
      simp only [atomicStore, if_pos (And.intro (bytes_eq_eight.mpr hdw) trivial)] at hs
      exact ⟨setFrameSlot_regs hs, h.store8 (o := o) hst (by omega) hs⟩
    | _ =>
      rw [if_neg fun hc => by rw [hscalar] at hc; cases hc.2]
      cases hs
      exact ⟨rfl, h⟩
  · rw [if_neg hdw] at hold
    subst hold
    rw [if_neg fun hc => hdw hc.1]
    simp only [atomicStore, if_neg fun hc : size.bytes = 8 ∧ i = 0 => hdw (bytes_eq_eight.mp hc.1)] at hs
    cases hs
    exact ⟨rfl, h⟩

/-- An atomic: its old value, and the state before that is fetched. -/
theorem atomic (h : Mirrors maps log s mem) {dst src : Reg} {off : Int16} {size : MemSize} {op : AtomicOp}
    {fetch : Bool} (hnear : Near s dst off) (hs : concreteAtomic pc s dst src off size op fetch = .ok s') :
    ∃ old stored, s' = fetchOld stored src op fetch old ∧ stored.regs = s.regs ∧
      Mirrors maps (writes maps log s (.atomic dst src off size op fetch) ++ log) stored mem ∧
      (∀ addr d, s.regs dst = some (.stackPtr addr d) → size = .dw →
        old.bits = lastWord log (.stack d) (stackOffset addr off) 8) ∧
      ((∀ addr d, s.regs dst ≠ some (.stackPtr addr d)) ∨ size ≠ .dw → old = .scalar 0) := by
  obtain ⟨base, hb, hs₁⟩ := bind_eq_ok.mp hs
  obtain ⟨srcValue, hsv, hs₂⟩ := bind_eq_ok.mp hs₁
  have hbase := readConcreteReg_ok hb
  have hsrc := readConcreteReg_ok hsv
  split at hs₂
  · cases hs₂
  · rename_i srcBits hctx
    split at hs₂
    · cases hs₂
    · obtain ⟨⟨old, target⟩, htarget, hs₃⟩ := bind_eq_ok.mp hs₂
      obtain ⟨stored, hstored, hs₄⟩ := bind_eq_ok.mp hs₃
      cases hs₄
      refine ⟨old, stored, rfl, ?_⟩
      by_cases hstack : ∃ addr d, base = .stackPtr addr d
      · obtain ⟨addr, d, rfl⟩ := hstack
        obtain ⟨stack, slot, i, v, ht, hst, hv, hslot, ho, hin, hold⟩ := atomicTarget_stack hbase hnear htarget
        dsimp only at ht hold hstored
        rw [ht] at hstored
        have hword : size = .dw → old.bits = lastWord log (.stack d) (stackOffset addr off) 8 := by
          intro hdw
          rw [bytes_eq_eight.mpr hdw] at hin
          obtain rfl : i = 0 := by omega
          rw [if_pos hdw] at hold
          rw [hold, ← h.read hst hv ho hin]
          simp only [Nat.zero_add]
          exact (compose_wordByte v.bits).symm
        obtain ⟨hregs, hmirror⟩ := h.atomicStore_stack hst hv hslot ho hin hold hstored
        refine ⟨hregs, ?_, fun a b hab hdw => ?_, fun hno => ?_⟩
        · simp only [writes, hbase, hsrc]
          by_cases hc : size = .dw ∧ scalarAt s d (stackOffset addr off) = true
          · rw [if_pos hc] at hmirror ⊢
            -- a scalar's bits are the word of the log
            have hbits : old.scalarBits = lastWord log (.stack d) (stackOffset addr off) 8 := by
              rw [← hword hc.1]
              have hkind := (scalarAt_eq hst hv hslot).symm.trans hc.2
              rw [hold, if_pos hc.1]
              cases v with
              | scalar x => rfl
              | _ => cases hkind
            rw [← hbits]
            exact hmirror
          · rw [if_neg hc] at hmirror ⊢
            exact hmirror
        · cases hbase.symm.trans hab
          exact hword hdw
        · rcases hno with hno | hno
          · exact absurd hbase (hno addr d)
          · rw [hold, if_neg hno]
      · have hnone : atomicTarget pc s dst base off size = .ok (.scalar 0, none) := by
          cases base with
          | stackPtr addr d => exact absurd ⟨addr, d, rfl⟩ hstack
          | _ => rfl
        cases hnone.symm.trans htarget
        cases hstored
        refine ⟨rfl, ?_, fun a b hab _ => ?_, fun _ => rfl⟩
        · have hwrites : writes maps log s (.atomic dst src off size op fetch) = [] := by
            simp only [writes, hbase, hsrc]
            cases base with
            | stackPtr addr d => exact absurd ⟨addr, d, rfl⟩ hstack
            | _ => rfl
          rw [hwrites]
          exact h
        · exact absurd ⟨a, b, Option.some.inj (hbase.symm.trans hab)⟩ hstack
  · cases hs₂

/-! ### Steps and runs -/

theorem buffer_pointer {r : Reg} {size : Nat} {v : UInt64} (h : concreteMapBuffer pc s r size = .ok v) :
    size ≤ 8 ∧ ∃ addr d, s.regs r = some (.stackPtr addr d) := by
  unfold concreteMapBuffer at h
  split at h
  · rename_i addr d hr
    split at h
    · cases h
    · exact ⟨by omega, addr, d, hr⟩
  · cases h

theorem mapCell_ok {base : Reg} {off : Int16} {cell : Cell} (hc : mapCell pc maps base off s = .ok cell) :
    ∃ fd index o info, s.regs base = some (.mapPtr fd (some index) o) ∧ maps fd = some info ∧
      cell.fd = fd ∧ cell.index = index ∧ cell.offset.toInt = o.toInt + off.toInt ∧
      (o.toInt + off.toInt) % 8 = 0 ∧ 0 ≤ o.toInt + off.toInt ∧ o.toInt + off.toInt + 8 ≤ info.valueSize := by
  unfold mapCell at hc
  split at hc
  · rename_i fd index o hbase
    split at hc
    · cases hc
    · rename_i info hinfo
      dsimp only at hc
      split at hc
      · cases hc
      · split at hc
        · cases hc
        · split at hc
          · cases hc
          · rename_i h1 h2 h3
            cases hc
            refine ⟨fd, index, o, info, hbase, hinfo, rfl, rfl, ?_, not_not.mp h3, by omega, by omega⟩
            exact Int64.toInt_ofInt_of_le (by omega) (by omega)
  · cases hc

/-- A store through a map pointer, of 8 bytes. -/
theorem mapStore (h : Mirrors maps log s mem) {src base : Reg} {off : Int16} {l : List ConcreteSucc}
    {mem' : MapMem} {x : ConcreteSucc}
    (hs : concreteMapAccess pc (.store src) base off s maps mem = .ok (l, mem')) (hx : x ∈ l) :
    Mirrors maps (writes maps log s (.stMem src base off .dw) ++ log) x.2 mem' := by
  obtain ⟨cell, hcell, hs₁⟩ := bind_eq_ok.mp hs
  obtain ⟨v, hv, hs₂⟩ := bind_eq_ok.mp hs₁
  cases hs₂
  obtain ⟨fd, index, o, info, hbase, hinfo, hfd, hindex, hoff, hal, h0, hmax⟩ := mapCell_ok hcell
  rw [List.mem_singleton.mp hx]
  simp only [writes, hbase, readConcreteReg_ok hv, List.singleton_append]
  obtain ⟨cfd, cindex, coff⟩ := cell
  dsimp only at hfd hindex hoff
  subst hfd hindex
  refine h.insert hoff.symm (by omega) fun _ _ _ => ⟨rfl, rfl⟩

/-- A map helper: an update writes the value buffer, a lookup nothing. -/
theorem mapCall (h : Mirrors maps log s mem) {imm : Int32} {l : List ConcreteSucc} {mem' : MapMem}
    {x : ConcreteSucc} (himm : imm = 1 ∨ imm = 2) (hreg : Regular maps s (.call imm))
    (hs : concreteMapCall pc imm s maps mem = .ok (l, mem')) (hx : x ∈ l) :
    Mirrors maps (writes maps log s (.call imm) ++ log) x.2 mem' := by
  obtain ⟨hsame, -⟩ := concreteMapCall_follows hs hx
  refine Mirrors.congr ?_ hsame.stack hsame.saved hsame.curframe
  obtain ⟨hkey, hvalue⟩ := hreg
  obtain ⟨hnear, hslot⟩ := hkey himm
  unfold concreteMapCall at hs
  split at hs
  · rename_i fd hr1
    split at hs
    · cases hs
    · rename_i info hinfo
      obtain ⟨index, hindex, hs₁⟩ := bind_eq_ok.mp hs
      obtain ⟨-, addr, d, hr2⟩ := buffer_pointer hindex
      have hword := h.buffer hr2 hnear (.inl (hslot fd none 0 info addr d hr1 hinfo hr2)) hindex
      split at hs₁
      · rename_i hlookup
        cases hs₁
        have hwrites : writes maps log s (.call imm) = [] := by
          subst hlookup
          simp only [writes, hr1, hr2]
          split <;> simp_all
        rw [hwrites]
        exact h
      · rename_i hne
        have h2 : imm = 2 := himm.resolve_left hne
        obtain ⟨next, hnext, hs₂⟩ := bind_eq_ok.mp hs₁
        cases hs₂
        unfold updateElem at hnext
        split at hnext
        · rename_i hlt
          obtain ⟨value, hval, hn₁⟩ := bind_eq_ok.mp hnext
          obtain ⟨hle, vaddr, vd, hr3⟩ := buffer_pointer hval
          split at hn₁
          · cases hn₁
            simp only [writes, hr1, hr2, hr3, hinfo]
            rw [if_pos ⟨h2, by rw [← hword]; exact hlt⟩, ← hword, List.singleton_append]
            refine h.insert rfl rfl fun info' hinfo' hsize => ?_
            obtain rfl := Option.some.inj (hinfo.symm.trans hinfo')
            have h8 : info.valueSize = 8 := by omega
            exact ⟨h8, (h.buffer hr3 (hvalue h2) (.inr h8) hval).symm⟩
          · cases hn₁
        · rename_i hge
          cases hnext
          have hwrites : writes maps log s (.call imm) = [] := by
            cases hr3 : s.regs 3 with
            | none => simp only [writes, hr1, hr2, hr3]
            | some v3 =>
              cases v3 with
              | stackPtr value vd =>
                simp only [writes, hr1, hr2, hr3, hinfo]
                rw [if_neg fun hc => hge (by rw [hword]; exact hc.2)]
              | _ => simp only [writes, hr1, hr2, hr3]
          rw [hwrites]
          exact h
  · cases hs

/-- Only stores, calls and map updates write. -/
theorem writes_nil {insn : BpfInsn} (hcall : insn.isCallSub = false) (hstore : isStackStore insn = false)
    (hupdate : insn ≠ .call 2) : writes maps log s insn = [] := by
  cases insn with
  | stMem | stMemImm | atomic => cases hstore
  | callSub => cases hcall
  | call imm =>
    have hne : imm ≠ 2 := fun heq => hupdate (congrArg _ heq)
    simp only [writes]
    split
    · split
      · rfl
      · exact if_neg fun hc => hne hc.1
    · rfl
  | _ => rfl

/-- The instructions that leave the map memory alone. -/
theorem pureStep (h : Mirrors maps log s mem) {insn : BpfInsn} {l : List ConcreteSucc} {x : ConcreteSucc}
    (hexit : insn ≠ .exit) (hupdate : insn ≠ .call 2) (hreg : Regular maps s insn)
    (hs : pureSuccessors pc insn s = .ok l) (hx : x ∈ l) :
    Mirrors maps (writes maps log s insn ++ log) x.2 mem := by
  by_cases hcall : insn.isCallSub = true
  · cases insn with
    | callSub offset =>
      obtain ⟨callee, hcallee, hs₁⟩ := bind_eq_ok.mp hs
      cases hs₁
      rw [List.mem_singleton.mp hx]
      exact h.enter hcallee
    | _ => cases hcall
  by_cases hstore : isStackStore insn = true
  · cases insn with
    | stMem src base off size =>
      obtain ⟨next, hnext, hs₁⟩ := bind_eq_ok.mp hs
      cases hs₁
      rw [List.mem_singleton.mp hx]
      exact h.stMem hreg.1 hnext
    | stMemImm imm base off size =>
      obtain ⟨next, hnext, hs₁⟩ := bind_eq_ok.mp hs
      cases hs₁
      rw [List.mem_singleton.mp hx]
      exact h.stMemImm hreg hnext
    | atomic dst src off size op fetch =>
      obtain ⟨next, hnext, hs₁⟩ := bind_eq_ok.mp hs
      cases hs₁
      rw [List.mem_singleton.mp hx]
      obtain ⟨old, stored, rfl, -, hstored, -, -⟩ := h.atomic hreg hnext
      have hsame := SameMemory.fetchOld stored src op fetch old
      exact hstored.congr hsame.stack hsame.saved hsame.curframe
    | _ => cases hstore
  · have hno : isStackStore insn = false := Bool.not_eq_true _ ▸ hstore
    have hsub : insn.isCallSub = false := Bool.not_eq_true _ ▸ hcall
    obtain ⟨hsame, -⟩ := pureSuccessors_same hsub hexit hno hs hx
    rw [writes_nil hsub hno hupdate]
    exact h.congr hsame.stack hsame.saved hsame.curframe

/-- One step of the interpreter. -/
theorem concrete (h : Mirrors maps log s mem) {insn : BpfInsn} {l : List ConcreteSucc} {mem' : MapMem}
    {x : ConcreteSucc} (hexit : insn ≠ .exit) (hreg : Regular maps s insn)
    (hs : concreteSuccessors pc insn s maps mem = .ok (l, mem')) (hx : x ∈ l) :
    Mirrors maps (writes maps log s insn ++ log) x.2 mem' := by
  have hpure : insn ≠ .call 2 → (pureSuccessors pc insn s).map (·, mem) = .ok (l, mem') →
      Mirrors maps (writes maps log s insn ++ log) x.2 mem' := by
    intro hupdate hp
    obtain ⟨l', hl', heq⟩ := map_eq_ok.mp hp
    cases heq
    exact h.pureStep hexit hupdate hreg hl' hx
  cases insn with
  | call imm =>
    simp only [concreteSuccessors] at hs
    split at hs
    · rename_i himm
      exact h.mapCall himm hreg hs hx
    · rename_i himm
      exact hpure (fun heq => himm (.inr (BpfInsn.call.inj heq))) hs
  | ldMem dst base off size se =>
    simp only [concreteSuccessors] at hs
    split at hs
    · obtain ⟨cell, -, hs₁⟩ := bind_eq_ok.mp hs
      cases hs₁
      rw [List.mem_singleton.mp hx]
      exact h.congr rfl rfl rfl
    · exact hpure (by simp) hs
  | stMem src base off size =>
    simp only [concreteSuccessors] at hs
    split at hs
    · rename_i hmap
      obtain rfl := hreg.2 hmap
      exact h.mapStore hs hx
    · exact hpure (by simp) hs
  | _ => exact hpure (by simp) hs

theorem step (h : Mirrors maps log s mem) {p : Program} (hmaps : p.maps = maps) {insn : BpfInsn}
    {l : List ConcreteSucc} {mem' : MapMem} {x : ConcreteSucc} (hget : p.insns[pc]? = some insn)
    (hreg : Regular maps s insn) (hs : itemSuccessors p (pc, s) mem = .ok (l, mem')) (hx : x ∈ l) :
    Mirrors maps (writes maps log s insn ++ log) x.2 mem' := by
  unfold itemSuccessors at hs
  dsimp only at hs
  rw [hget] at hs
  by_cases hexit : insn = .exit
  · subst hexit
    dsimp only at hs
    split at hs
    · split at hs
      · cases hs
      · cases hs
        rw [List.mem_singleton.mp hx]
        exact h.leave
    · obtain ⟨v, -, hs₁⟩ := bind_eq_ok.mp hs
      cases hs₁
      cases hx
  · have hs' : concreteSuccessors pc insn s p.maps mem = .ok (l, mem') := by
      cases insn with
      | exit => exact absurd rfl hexit
      | _ => exact hs
    exact h.concrete hexit hreg (hmaps ▸ hs') hx


end Mirrors

namespace Mirrors

variable {maps : Maps} {log : MemLog} {s s' : ConcreteState} {mem mem' : MapMem} {pc : Nat} {l : List ConcreteSucc}

/-- A lookup returns the entry that the key bytes name. -/
theorem lookup (h : Mirrors maps log s mem) {fd : Nat} {info : MapInfo} {key : UInt64} {d : Nat}
    (hr1 : s.regs 1 = some (.mapPtr fd none 0)) (hinfo : maps fd = some info)
    (hr2 : s.regs 2 = some (.stackPtr key d)) (hreg : Regular maps s (.call 1))
    (hs : concreteSuccessors pc (.call 1) s maps mem = .ok (l, mem')) :
    l = returnForks pc s (lookupSeeds fd (lastWord log (.stack d) (stackOffset key 0) info.keySize) info) := by
  obtain ⟨hnear, hslot⟩ := hreg.1 (.inl rfl)
  have hcall : concreteMapCall pc 1 s maps mem = .ok (l, mem') := hs
  unfold concreteMapCall at hcall
  split at hcall
  · rename_i fd' hr1'
    obtain rfl := (ConcreteValue.mapPtr.inj (Option.some.inj (hr1.symm.trans hr1'))).1
    rw [hinfo] at hcall
    obtain ⟨index, hindex, hcall₁⟩ := bind_eq_ok.mp hcall
    cases hcall₁
    rw [h.buffer hr2 hnear (.inl (hslot fd none 0 info key d hr1 hinfo hr2)) hindex]
  · cases hcall

end Mirrors

/-- A byte inside a stored word. -/
def overlapping : Program :=
  withLiveness [.stMemImm 5 10 (-8) .dw, .stMemImm 1 10 (-7) .b, .ldMem 0 10 (-8) .dw false, .exit]

/-- The items along the first successors. -/
def follow (p : Program) : Nat → ConcreteSucc
  | 0 => (0, .initialWith p.limits.progType)
  | n + 1 => ((itemSuccessors p (follow p n) .empty).toOption.bind (·.1.head?)).getD (follow p n)

end RandVerifier.Explorer
