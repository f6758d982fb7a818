/-
  RandVerifier.StackSound — the tracked stack against the bytes of the frames.

  A tracked stack represents a frame when its zero bytes are 0 and the spilled bytes of a slot
  are those of one word of the spilled register; the other bytes may hold anything. A store
  should leave the stack representing the frame, a load should return a state that contains
  the loaded word. Two accesses fail:

    * a store of zero at a variable offset turns every byte it might reach into a zero byte
      (`ZeroGap`);
    * a load of four bytes, zero-extended, of a spilled scalar that is not constant gets the
      signed 32-bit range [0, -1] (`FillGap`).

  Proved:
  - `Represents.stored`, `Represents.scrub`, `Represents.forget`: what each kind of write keeps;
  - `coerceScalar_contains`: the fill of a narrow load;
  - `fixedStackRead_contains`, `stackRead_contains`: the value of a load;
  - `stack_accesses_sound`: stores, atomics and loads, exactly outside the two gaps;
    `stack_accesses_escape` has an access in each.
-/

import RandVerifier.AluSound
import RandVerifier.FrameAccess

namespace RandVerifier

/-! ## Concrete frames -/

/-- The bytes of a frame, indexed as the tracked ones: byte 0 is the top of the frame. -/
abbrev FrameBytes := Nat → UInt8

/-- The offset of a byte from the top of the frame. -/
def byteOff (i : Nat) : Int := -(i : Int) - 1

namespace FrameBytes

/-- The low `n` bytes of a word written at an offset. -/
def write (C : FrameBytes) (off : Int) (n : Nat) (w : UInt64) : FrameBytes := fun i =>
  if off ≤ byteOff i ∧ byteOff i < off + n then wordByte w (byteOff i - off).toNat else C i

/-- The word of the `n` bytes at an offset. -/
def read (C : FrameBytes) (off : Int) (n : Nat) : UInt64 := compose (fun k => C (-(off + k) - 1).toNat) n

variable {C : FrameBytes} {off : Int} {n : Nat} {w : UInt64} {i : Nat}

theorem write_inside (h : off ≤ byteOff i ∧ byteOff i < off + n) :
    C.write off n w i = wordByte w (byteOff i - off).toNat := if_pos h

theorem write_outside (h : ¬ (off ≤ byteOff i ∧ byteOff i < off + n)) : C.write off n w i = C i := if_neg h

theorem read_congr {f : Nat → UInt8} (h : ∀ k < n, C (-(off + k) - 1).toNat = f k) :
    C.read off n = compose f n := compose_congr h

theorem write_zero : C.write off n 0 i = 0 ↔ (off ≤ byteOff i ∧ byteOff i < off + n) ∨ C i = 0 := by
  by_cases h : off ≤ byteOff i ∧ byteOff i < off + n
  · have hzero : wordByte 0 (byteOff i - off).toNat = 0 := by simp [wordByte]
    rw [write_inside h, hzero]
    exact iff_of_true rfl (.inl h)
  · rw [write_outside h]
    exact (or_iff_right h).symm

end FrameBytes

/-! ## Values -/

/-- A register state contains a word; `γ` says what the pointers mean, an unwritten register
    says nothing. -/
def RegState.Contains (γ : RegState → UInt64 → Prop) (v : RegState) (w : UInt64) : Prop :=
  match v with
  | .uninit => True
  | .scalar b => b.Contains w
  | ptr => γ ptr w

/-- The tracked stack represents the bytes of a frame: zero bytes are 0, and the spilled bytes
    of a slot are those of one word of its register. -/
structure StackState.Represents (γ : RegState → UInt64 → Prop) (s : StackState) (C : FrameBytes) : Prop where
  zero : ∀ i < stackSize, s.bytes i = .zero → C i = 0
  spill : ∀ i < stackSize, s.bytes i = .spill → ∀ v, s.spilled (i / 8) = some v →
    ∃ w, v.Contains γ w ∧ ∀ j, j / 8 = i / 8 → s.bytes j = .spill → C j = wordByte w (7 - j % 8)

section Stores

variable {γ : RegState → UInt64 → Prop} {s : StackState} {C : FrameBytes} {lo hi : Nat} {w : UInt64} {v : RegState}

/-- Bytes and slots that a stack keeps, over the same contents. -/
theorem StackState.Represents.of_old {s' : StackState} {C' : FrameBytes} (h : s.Represents γ C)
    (hzero : ∀ i < stackSize, s'.bytes i = .zero → s.bytes i = .zero ∧ C' i = C i)
    (hspill : ∀ i < stackSize, s'.bytes i = .spill → ∀ v', s'.spilled (i / 8) = some v' →
      ∃ v, s.spilled (i / 8) = some v ∧ (∀ w, v.Contains γ w → v'.Contains γ w) ∧
        ∀ j, j / 8 = i / 8 → s'.bytes j = .spill → s.bytes j = .spill ∧ C' j = C j) : s'.Represents γ C' where
  zero i hi hb := by
    obtain ⟨hold, hC⟩ := hzero i hi hb
    rw [hC]
    exact h.zero i hi hold
  spill i hi hb v' hv' := by
    obtain ⟨v, hv, hmono, hbytes⟩ := hspill i hi hb v' hv'
    obtain ⟨w, hw, hword⟩ := h.spill i hi (hbytes i rfl hb).1 v hv
    refine ⟨w, hmono w hw, ?_⟩
    intro j hj hbj
    obtain ⟨hold, hC⟩ := hbytes j hj hbj
    rw [hC]
    exact hword j hj hold

theorem StackState.Represents.destroyDynptrs (h : s.Represents γ C) (lo hi : Nat) :
    (destroyDynptrs s lo hi).Represents γ C := by
  have hkeep : ∀ j b, b ≠ .invalid → (RandVerifier.destroyDynptrs s lo hi).bytes j = b → s.bytes j = b := by
    intro j b hb hj
    simp only [RandVerifier.destroyDynptrs] at hj
    split at hj
    · exact absurd hj.symm hb
    · exact hj
  refine h.of_old (fun i _ hb => ⟨hkeep i _ (by decide) hb, rfl⟩) ?_
  intro i _ hb v' hv'
  exact ⟨v', hv', fun _ hw => hw, fun j _ hbj => ⟨hkeep j _ (by decide) hbj, rfl⟩⟩

theorem killMemAlias_contains {id : Nat} (h : v.Contains γ w) : (killMemAlias id v).Contains γ w := by
  unfold killMemAlias
  split
  · exact ScalarBounds.unknown_contains w
  · exact h

theorem StackState.Represents.mapFullSpills {f : RegState → RegState} (h : s.Represents γ C)
    (hf : ∀ v w, v.Contains γ w → (f v).Contains γ w) : (s.mapFullSpills f).Represents γ C := by
  refine h.of_old (fun i _ hb => ⟨hb, rfl⟩) ?_
  intro i _ hb v' hv'
  simp only [StackState.mapFullSpills, StackState.mapSpilled, Option.map_eq_some_iff] at hv'
  obtain ⟨v, hv, rfl⟩ := hv'
  refine ⟨v, hv, ?_, fun j _ hbj => ⟨hbj, rfl⟩⟩
  intro w hw
  split
  · exact hf v w hw
  · exact hw

/-- An aligned store of a word of the stored register. -/
theorem StackState.Represents.stored {off : Int} {n : Nat} (h : s.Represents γ C) (hoff : off % 8 = 0)
    (hmax : off + n ≤ 0) (hn : 0 < n ∧ n ≤ 8) (hw : v.Contains γ w) :
    (s.spill (-(off + n)).toNat (-off - 1).toNat v).Represents γ (C.write off n w) where
  zero i hi hb := by
    simp only [StackState.spill] at hb
    split at hb
    · cases hb
    · split at hb
      · cases hb
      · rename_i hcov hrest
        rw [FrameBytes.write_outside (by unfold byteOff; omega)]
        exact h.zero i hi hb
  spill i hi hb x hx := by
    simp only [StackState.spill] at hb hx
    by_cases hslot : i / 8 = (-off - 1).toNat / 8
    · -- the stored slot: only the covered bytes are spilled
      rw [hslot, Function.update_self] at hx
      cases hx
      refine ⟨w, hw, ?_⟩
      intro j hj hbj
      simp only [StackState.spill] at hbj
      split at hbj
      · have hidx : (byteOff j - off).toNat = 7 - j % 8 := by unfold byteOff; omega
        rw [FrameBytes.write_inside (by unfold byteOff; omega), hidx]
      · split at hbj
        · cases hbj
        · omega
    · rw [Function.update_of_ne hslot] at hx
      rw [if_neg (by omega), if_neg (by omega)] at hb
      obtain ⟨w', hw', hword⟩ := h.spill i hi hb x hx
      refine ⟨w', hw', ?_⟩
      intro j hj hbj
      simp only [StackState.spill] at hbj
      rw [if_neg (by omega), if_neg (by omega)] at hbj
      rw [FrameBytes.write_outside (by unfold byteOff; omega)]
      exact hword j hj hbj

/-- A partial or variable-offset store: the bytes of the range left alone must be 0 when it
    makes all of them zero bytes. -/
theorem StackState.Represents.scrub {a z p : Int} {n : Nat} {b : StackByte} (h : s.Represents γ C)
    (hmin : -512 ≤ a) (hmax : z ≤ 0) (hap : a ≤ p) (hpz : p + n ≤ z) (hn : 0 < n) :
    (s.scrub (-z).toNat (-a - 1).toNat b).Represents γ (C.write p n w) ↔
      (b = .zero → ∀ i, a ≤ byteOff i → byteOff i < z → C.write p n w i = 0) := by
  constructor
  · intro hrep hzero i hai hiz
    refine hrep.zero i ?_ ?_
    · unfold byteOff at hai
      show i < 512
      omega
    · unfold byteOff at hai hiz
      simp only [StackState.scrub]
      rw [if_pos (by omega)]
      exact hzero
  · intro hzero
    constructor
    · intro i hi hbi
      simp only [StackState.scrub] at hbi
      split at hbi
      · exact hzero hbi i (by unfold byteOff; omega) (by unfold byteOff; omega)
      · split at hbi
        · cases hbi
        · rw [FrameBytes.write_outside (by unfold byteOff; omega)]
          exact h.zero i hi hbi
    · intro i hi hbi v hv
      simp only [StackState.scrub] at hbi hv
      split at hv
      · cases hv
      · rename_i hslot
        have hout : ∀ j, j / 8 = i / 8 → ¬ ((-z).toNat ≤ j ∧ j ≤ (-a - 1).toNat) := by
          intro j hj hcov
          have h1 : (-z).toNat / 8 ≤ j / 8 := Nat.div_le_div_right hcov.1
          have h2 : j / 8 ≤ (-a - 1).toNat / 8 := Nat.div_le_div_right hcov.2
          omega
        have hkeep : ∀ j, j / 8 = i / 8 → (s.scrub (-z).toNat (-a - 1).toNat b).bytes j = s.bytes j := by
          intro j hj
          simp only [StackState.scrub]
          rw [if_neg (hout j hj), if_neg (by rw [hj]; exact fun hc => hslot hc.1)]
        rw [if_neg (hout i rfl), if_neg (fun hc => hslot hc.1)] at hbi
        obtain ⟨w', hw', hword⟩ := h.spill i hi hbi v hv
        refine ⟨w', hw', ?_⟩
        intro j hj hbj
        rw [hkeep j hj] at hbj
        have hj' := hout j hj
        rw [FrameBytes.write_outside (by unfold byteOff; omega)]
        exact hword j hj hbj

/-- An atomic makes the bytes of its range unknown. -/
theorem StackState.Represents.forget {a z p : Int} {n : Nat} (h : s.Represents γ C)
    (hap : a ≤ p) (hpz : p + n ≤ z) :
    ((s.fill (-z).toNat (-a - 1).toNat .misc).clearSpills (-z).toNat (-a - 1).toNat).Represents γ
      (C.write p n w) := by
  refine h.of_old ?_ ?_
  · intro i _ hb
    simp only [StackState.clearSpills, StackState.fill] at hb
    split at hb
    · cases hb
    · exact ⟨hb, FrameBytes.write_outside (by unfold byteOff; omega)⟩
  · intro i _ hb v hv
    simp only [StackState.clearSpills, StackState.fill] at hv
    split at hv
    · cases hv
    · rename_i hslot
      refine ⟨v, hv, fun _ hw => hw, ?_⟩
      intro j hj hbj
      have hout : ¬ ((-z).toNat ≤ j ∧ j ≤ (-a - 1).toNat) := by
        intro hcov
        have h1 : (-z).toNat / 8 ≤ j / 8 := Nat.div_le_div_right hcov.1
        have h2 : j / 8 ≤ (-a - 1).toNat / 8 := Nat.div_le_div_right hcov.2
        omega
      simp only [StackState.clearSpills, StackState.fill] at hbj
      rw [if_neg hout] at hbj
      exact ⟨hbj, FrameBytes.write_outside (by unfold byteOff; omega)⟩

end Stores

/-! ## Narrow values -/

/-- The low `n` bytes of a word, sign-extended or as they are. -/
def extendWord (w : UInt64) (n : Nat) (signExtend : Bool) : UInt64 :=
  if signExtend then ⟨(w.toBitVec.setWidth (8 * n)).signExtend 64⟩ else w

section Narrow

variable {size : MemSize} {w : UInt64} {b : ScalarBounds} {signExtend : Bool}

theorem extendWord_getLsbD {n i : Nat} (hn : 0 < n ∧ n ≤ 8) (hi : i < 64) :
    (extendWord w n true).toBitVec.getLsbD i = w.toBitVec.getLsbD (if i < 8 * n then i else 8 * n - 1) := by
  simp only [extendWord, if_true]
  rw [BitVec.getLsbD_signExtend, BitVec.msb_eq_getLsbD_last]
  by_cases h : i < 8 * n
  · simp [h, hi]
  · have hlast : 8 * n - 1 < 8 * n := by omega
    simp [h, hi, hlast]

theorem extendWord_full (w : UInt64) (signExtend : Bool) : extendWord w 8 signExtend = w := by
  cases signExtend with
  | false => rfl
  | true =>
    rw [← UInt64.toBitVec_inj]
    apply BitVec.eq_of_getLsbD_eq
    intro i hi
    rw [extendWord_getLsbD (by omega) hi, if_pos (by omega)]

theorem lowMask_getLsbD (hs : size ≠ .dw) {i : Nat} (hi : i < 64) :
    (lowMask size.bytes).toBitVec.getLsbD i = decide (i < 8 * size.bytes) := by
  have hall : ∀ j : Fin 64, (lowMask size.bytes).toBitVec.getLsbD j = decide (j.val < 8 * size.bytes) := by
    cases size with
    | dw => exact absurd rfl hs
    | _ => decide
  exact hall ⟨i, hi⟩

theorem signBit_getLsbD (hs : size ≠ .dw) {i : Nat} (hi : i < 64) :
    ((1 : UInt64) <<< UInt64.ofNat (size.bytes * 8 - 1)).toBitVec.getLsbD i = decide (i = 8 * size.bytes - 1) := by
  have hall : ∀ j : Fin 64, ((1 : UInt64) <<< UInt64.ofNat (size.bytes * 8 - 1)).toBitVec.getLsbD j =
      decide (j.val = 8 * size.bytes - 1) := by
    cases size with
    | dw => exact absurd rfl hs
    | _ => decide
  exact hall ⟨i, hi⟩

theorem bytes_lt (hs : size ≠ .dw) : 0 < size.bytes ∧ size.bytes ≤ 4 := by
  cases size with
  | dw => exact absurd rfl hs
  | _ => decide

/-- The low bytes of a word are the word under the mask. -/
theorem compose_eq_and (hs : size ≠ .dw) : compose (wordByte w) size.bytes = w &&& lowMask size.bytes := by
  have hn := bytes_lt hs
  rw [← UInt64.toBitVec_inj]
  apply BitVec.eq_of_getLsbD_eq
  intro i hi
  rw [compose_wordByte_getLsbD w (by omega), UInt64.toBitVec_and, BitVec.getLsbD_and, lowMask_getLsbD hs hi,
    Bool.and_comm]

theorem signBit_test (hs : size ≠ .dw) :
    (w &&& lowMask size.bytes) &&& ((1 : UInt64) <<< UInt64.ofNat (size.bytes * 8 - 1)) ≠ 0 ↔
      w.toBitVec.getLsbD (8 * size.bytes - 1) = true := by
  have hn := bytes_lt hs
  have hbit : ∀ i < 64, ((w &&& lowMask size.bytes) &&&
      ((1 : UInt64) <<< UInt64.ofNat (size.bytes * 8 - 1))).toBitVec.getLsbD i =
        (w.toBitVec.getLsbD (8 * size.bytes - 1) && decide (i = 8 * size.bytes - 1)) := by
    intro i hi
    rw [UInt64.toBitVec_and, UInt64.toBitVec_and, BitVec.getLsbD_and, BitVec.getLsbD_and, lowMask_getLsbD hs hi,
      signBit_getLsbD hs hi]
    by_cases h : i = 8 * size.bytes - 1
    · have hlt : i < 8 * size.bytes := by omega
      subst h
      simp [hlt]
    · simp [h]
  constructor
  · intro hne
    by_contra hzero
    apply hne
    rw [← UInt64.toBitVec_inj]
    apply BitVec.eq_of_getLsbD_eq
    intro i hi
    rw [hbit i hi]
    simp [Bool.not_eq_true _ ▸ hzero]
  · intro htrue hzero
    have h := hbit (8 * size.bytes - 1) (by omega)
    rw [hzero, htrue] at h
    simp at h

/-- The extension of a constant's low bytes, as the source computes it. -/
theorem coerced_constant (hs : size ≠ .dw) :
    (if signExtend = true ∧ (w &&& lowMask size.bytes) &&&
        ((1 : UInt64) <<< UInt64.ofNat (size.bytes * 8 - 1)) ≠ 0 then
      (w &&& lowMask size.bytes) ||| ~~~lowMask size.bytes else w &&& lowMask size.bytes) =
      extendWord (compose (wordByte w) size.bytes) size.bytes signExtend := by
  have hn := bytes_lt hs
  cases signExtend with
  | false =>
    rw [if_neg (by simp), compose_eq_and hs]
    rfl
  | true =>
    rw [← UInt64.toBitVec_inj]
    apply BitVec.eq_of_getLsbD_eq
    intro i hi
    rw [extendWord_getLsbD ⟨hn.1, by omega⟩ hi, compose_wordByte_getLsbD w (by omega)]
    by_cases hsign : w.toBitVec.getLsbD (8 * size.bytes - 1) = true
    · rw [if_pos ⟨rfl, (signBit_test hs).mpr hsign⟩, UInt64.toBitVec_or, UInt64.toBitVec_and, UInt64.toBitVec_not,
        BitVec.getLsbD_or, BitVec.getLsbD_and, BitVec.getLsbD_not, lowMask_getLsbD hs hi]
      by_cases h : i < 8 * size.bytes
      · simp [h]
      · have hlast : 8 * size.bytes - 1 < 8 * size.bytes := by omega
        simp [h, hi, hsign, hlast]
    · rw [if_neg (fun hc => hsign ((signBit_test hs).mp hc.2)), UInt64.toBitVec_and, BitVec.getLsbD_and,
        lowMask_getLsbD hs hi]
      by_cases h : i < 8 * size.bytes
      · simp [h]
      · simp only [Bool.not_eq_true] at hsign
        simp [h, hsign]

theorem extended_bit {i : Nat} (hs : size ≠ .dw) (hi : i < 64) (h : i < 8 * size.bytes) :
    (extendWord (compose (wordByte w) size.bytes) size.bytes signExtend).toBitVec.getLsbD i = w.toBitVec.getLsbD i := by
  have hn := bytes_lt hs
  have hlow : (compose (wordByte w) size.bytes).toBitVec.getLsbD i = w.toBitVec.getLsbD i := by
    rw [compose_wordByte_getLsbD w (by omega)]
    simp [h]
  cases signExtend with
  | false => exact hlow
  | true => rw [extendWord_getLsbD ⟨hn.1, by omega⟩ hi, if_pos h, hlow]

/-- The low bits of a tnum, the others unknown. -/
theorem coerced_tnum (signExtend : Bool) (hs : size ≠ .dw) (ht : b.tnum.Contains w) :
    (⟨b.tnum.value &&& lowMask size.bytes, (b.tnum.mask &&& lowMask size.bytes) ||| ~~~lowMask size.bytes⟩ :
      Tnum).Contains (extendWord (compose (wordByte w) size.bytes) size.bytes signExtend) := by
  rw [Tnum.contains_iff] at ht ⊢
  intro i hi hm
  simp only [UInt64.toBitVec_or, UInt64.toBitVec_and, UInt64.toBitVec_not, BitVec.getLsbD_or, BitVec.getLsbD_and,
    BitVec.getLsbD_not, lowMask_getLsbD hs hi] at hm ⊢
  by_cases h : i < 8 * size.bytes
  · simp only [h, decide_true, Bool.and_true, Bool.not_true, Bool.and_false, Bool.or_false] at hm ⊢
    rw [extended_bit hs hi h]
    exact ht i hi hm
  · simp [h, hi] at hm

/-- A word below a bound of 31 bits, in every view. -/
theorem below_contains {x m : UInt64} {c : ScalarBounds} (hm : m.toNat < 2 ^ 31) (hx : x.toNat ≤ m.toNat)
    (hc : c.smin = 0 ∧ c.smax = m.toInt64 ∧ c.umin = 0 ∧ c.umax = m ∧ c.s32Min = 0 ∧ c.s32Max = m.toUInt32.toInt32 ∧
      c.u32Min = 0 ∧ c.u32Max = m.toUInt32) (ht : c.tnum.Contains x) : c.Contains x := by
  obtain ⟨h1, h2, h3, h4, h5, h6, h7, h8⟩ := hc
  have hx64 := signed_eq x
  have hm64 := signed_eq m
  have hx32 := signed32_eq x.toUInt32
  have hm32 := signed32_eq m.toUInt32
  rw [UInt64.toNat_toUInt32] at hx32 hm32
  constructor
  · rw [h1, Int64.le_iff_toInt_le, Int64.toInt_zero]
    omega
  · rw [h2, Int64.le_iff_toInt_le]
    omega
  · rw [h3]
    exact UInt64.zero_le
  · rw [h4]
    exact UInt64.le_iff_toNat_le.mpr hx
  · rw [h5, Int32.le_iff_toInt_le, Int32.toInt_zero]
    omega
  · rw [h6, Int32.le_iff_toInt_le]
    omega
  · rw [h7]
    exact UInt32.zero_le
  · rw [h8, UInt32.le_iff_toNat_le, UInt64.toNat_toUInt32, UInt64.toNat_toUInt32]
    omega
  · exact ht

/-- The fill of a narrow load contains the loaded word, but for a word zero-extended from four
    bytes of a scalar that is not constant: its signed 32-bit range is [0, -1]. -/
theorem coerceScalar_contains (hs : size ≠ .dw) (hb : b.Contains w) :
    (coerceScalar b size.bytes signExtend).Contains
        (extendWord (compose (wordByte w) size.bytes) size.bytes signExtend) ↔
      ¬ (size = .w ∧ signExtend = false ∧ b.isConstant = false) := by
  have hn := bytes_lt hs
  have hlt := compose_lt (f := wordByte w) (show size.bytes ≤ 8 by omega)
  have htnum := coerced_tnum signExtend hs hb.tnum
  unfold coerceScalar
  rw [if_neg (by omega)]
  dsimp only
  by_cases hc : b.isConstant = true
  · rw [if_pos hc, (eq_of_constant hc hb).1, UInt64.toUInt64_toInt64, coerced_constant hs]
    refine iff_of_true (ScalarBounds.constant_contains _) ?_
    rintro ⟨-, -, h⟩
    rw [hc] at h
    cases h
  · rw [if_neg hc]
    cases signExtend with
    | true =>
      have hu := ScalarBounds.unknown_contains (extendWord (compose (wordByte w) size.bytes) size.bytes true)
      refine iff_of_true ?_ (by simp)
      exact ⟨hu.smin, hu.smax, hu.umin, hu.umax, hu.s32Min, hu.s32Max, hu.u32Min, hu.u32Max, htnum⟩
    | false =>
      rw [if_neg (by simp)]
      simp only [extendWord, Bool.false_eq_true, if_false] at htnum ⊢
      generalize compose (wordByte w) size.bytes = x at hlt htnum ⊢
      cases size with
      | dw => exact absurd rfl hs
      | b =>
        refine iff_of_true (below_contains (m := 255) (by decide) ?_ ⟨rfl, rfl, rfl, rfl, rfl, rfl, rfl, rfl⟩ htnum)
          (by simp)
        exact Nat.le_of_lt_succ hlt
      | h =>
        refine iff_of_true (below_contains (m := 65535) (by decide) ?_ ⟨rfl, rfl, rfl, rfl, rfl, rfl, rfl, rfl⟩ htnum)
          (by simp)
        exact Nat.le_of_lt_succ hlt
      | w =>
        refine iff_of_false ?_ (by simp [hc])
        intro h
        have hempty : (0 : Int32) ≤ -1 := Int32.le_trans h.s32Min h.s32Max
        exact absurd hempty (by decide)

/-- The range of a loaded width contains the words of that width. -/
theorem fromSigned_contains {lo hi : Int64} {x : UInt64} (h1 : lo ≤ x.toInt64) (h2 : x.toInt64 ≤ hi) :
    (ScalarBounds.fromSigned lo hi).Contains x := by
  have hx := signed_eq x
  have hxlt := x.toNat_lt
  rw [Int64.le_iff_toInt_le] at h1 h2
  unfold ScalarBounds.fromSigned
  split
  · refine ScalarBounds.synced_contains (b := .ofRanges (lo, hi) (0, u64Max) .unknown) Tnum.normal_unknown ?_
      (Tnum.unknown_contains x)
    rw [ScalarBounds.within_iff]
    refine ⟨h1, h2, ?_, ?_⟩
    · show (0 : UInt64).toNat ≤ x.toNat
      rw [UInt64.toNat_zero]
      exact Nat.zero_le _
    · show x.toNat ≤ u64Max.toNat
      exact toNat_le_max x
  · rename_i hsign
    refine ScalarBounds.synced_contains (b := .ofRanges (lo, hi) (lo.toUInt64, hi.toUInt64) .unknown) Tnum.normal_unknown ?_
      (Tnum.unknown_contains x)
    rw [ScalarBounds.within_iff]
    have hlo := unsigned_eq lo
    have hhi := unsigned_eq hi
    rw [Int64.lt_iff_toInt_lt, Int64.le_iff_toInt_le, Int64.toInt_zero] at hsign
    refine ⟨h1, h2, ?_, ?_⟩
    · show lo.toUInt64.toNat ≤ x.toNat
      omega
    · show x.toNat ≤ hi.toUInt64.toNat
      omega

theorem belowWidth_contains {x : UInt64} {hi : Int64} (h : (x.toNat : Int) ≤ hi.toInt) :
    (ScalarBounds.fromSigned 0 hi).Contains x := by
  have hx := signed_eq x
  have hlt := hi.toInt_lt
  apply fromSigned_contains
  · rw [Int64.le_iff_toInt_le, Int64.toInt_zero]
    omega
  · rw [Int64.le_iff_toInt_le]
    omega

theorem scalarForWidth_contains {f : Nat → UInt8} (size : MemSize) :
    (scalarForWidth size.bytes false).Contains (compose f size.bytes) := by
  have hlt := compose_lt (f := f) size.bytes_le
  cases size with
  | dw => exact ScalarBounds.unknown_contains _
  | b =>
    have hmax : (255 : Int64).toInt = 2 ^ 8 - 1 := by decide
    have hb : (compose f MemSize.b.bytes).toNat < 2 ^ 8 := hlt
    exact belowWidth_contains (by rw [hmax]; omega)
  | h =>
    have hmax : (65535 : Int64).toInt = 2 ^ 16 - 1 := by decide
    have hb : (compose f MemSize.h.bytes).toNat < 2 ^ 16 := hlt
    exact belowWidth_contains (by rw [hmax]; omega)
  | w =>
    have hmax : (4294967295 : Int64).toInt = 2 ^ 32 - 1 := by decide
    have hb : (compose f MemSize.w.bytes).toNat < 2 ^ 32 := hlt
    exact belowWidth_contains (by rw [hmax]; omega)

end Narrow

/-! ## Loads -/

section Loads

variable {γ : RegState → UInt64 → Prop} {s : StackState} {C : FrameBytes} {v : RegState} {pc : Nat} {base : Reg}
  {offset : Int16} {size : MemSize} {signExtend : Bool}

/-- A fill of four bytes, zero-extended, of a slot whose register is a scalar that is not
    constant. -/
def FillGap (s : StackState) (lo hi offset : Int) (size : MemSize) (signExtend : Bool) : Prop :=
  lo = hi ∧ (lo + offset) % 8 = 0 ∧ size = .w ∧ signExtend = false ∧
    (∀ i, lo + offset ≤ byteOff i → byteOff i < lo + offset + 4 → s.bytes i = .spill) ∧
    ∃ b, s.spilled ((-(lo + offset) - 1).toNat / 8) = some (.scalar b) ∧ b.isConstant = false

theorem unknown_holds (w : UInt64) : (RegState.scalar .unknown).Contains γ w := ScalarBounds.unknown_contains w

theorem extendWord_zero {n : Nat} (hn : 0 < n ∧ n ≤ 8) (signExtend : Bool) : extendWord 0 n signExtend = 0 := by
  cases signExtend with
  | false => rfl
  | true =>
    rw [← UInt64.toBitVec_inj]
    apply BitVec.eq_of_getLsbD_eq
    intro i hi
    rw [extendWord_getLsbD hn hi]
    simp

theorem zero_holds (h : ∀ k < size.bytes, C (-(off + k : Int) - 1).toNat = 0) :
    (RegState.scalar (.constant 0)).Contains γ (extendWord (C.read off size.bytes) size.bytes signExtend) := by
  have hzero : C.read off size.bytes = 0 := by
    rw [FrameBytes.read_congr (f := wordByte 0) (fun k hk => by rw [h k hk]; simp [wordByte]), ← UInt64.toBitVec_inj]
    apply BitVec.eq_of_getLsbD_eq
    intro i _
    rw [compose_wordByte_getLsbD 0 size.bytes_le]
    simp
  rw [hzero, extendWord_zero ⟨size.bytes_pos, size.bytes_le⟩]
  exact ScalarBounds.constant_contains 0

/-- A stored zero value is the word 0. -/
theorem zeroValue_word {w : UInt64} (hz : isZeroValue v = true) (hw : v.Contains γ w) : w = 0 := by
  cases v with
  | scalar b =>
    simp only [isZeroValue, Bool.and_eq_true, beq_iff_eq] at hz
    rw [← UInt64.toUInt64_toInt64 w, ← (eq_of_constant hz.1 hw).1, hz.2]
    rfl
  | _ => cases hz

/-- The byte walk returns what the bytes hold. -/
theorem byteWalk_contains {a : Int} (hrep : s.Represents γ C) (hmin : -512 ≤ a) (hmax : a + size.bytes ≤ 0)
    (hal : a % size.bytes = 0)
    (h : byteWalk pc offset s (-(a + size.bytes)).toNat (-a - 1).toNat ((-a - 1).toNat / 8) = .ok v) :
    v.Contains γ (extendWord (C.read a size.bytes) size.bytes signExtend) := by
  have hsize := size.bytes_pos
  unfold byteWalk at h
  split at h
  · exact (fail_ne_ok.mp h).elim
  · split at h
    · rename_i hz
      cases h
      apply zero_holds
      intro k hk
      have hlt : (-(a + k) - 1).toNat < stackSize := by
        show _ < 512
        omega
      rw [Bool.or_eq_true, Bool.and_eq_true] at hz
      rcases hz with hz | ⟨hspill, hconst⟩
      · rw [allIn_iff] at hz
        exact hrep.zero _ hlt (beq_iff_eq.mp (hz _ (by omega) (by omega)))
      · -- the spilled register is the constant 0
        rw [allIn_iff] at hspill
        rw [Option.any_eq_true] at hconst
        obtain ⟨x, hx, hxzero⟩ := hconst
        have hslot : (-(a + k) - 1).toNat / 8 = (-a - 1).toNat / 8 := by
          cases size <;> simp only [MemSize.bytes] at * <;> omega
        have hb := beq_iff_eq.mp (hspill (-(a + k) - 1).toNat (by omega) (by omega))
        obtain ⟨w, hw, hword⟩ := hrep.spill _ hlt hb x (by rw [hslot]; exact hx)
        have hw0 := zeroValue_word hxzero hw
        rw [hword _ rfl hb, hw0]
        simp [wordByte]
    · cases h
      exact unknown_holds _

/-- A fixed-position read contains the loaded word outside the fill gap. -/
theorem fixedStackRead_contains {a lo : Int} (hrep : s.Represents γ C) (ha : a = lo + offset.toInt) (hmin : -512 ≤ a)
    (hmax : a + size.bytes ≤ 0) (hal : a % size.bytes = 0)
    (h : fixedStackRead pc base offset s (-(a + size.bytes)).toNat (-a - 1).toNat a size.bytes signExtend = .ok v) :
    v.Contains γ (extendWord (C.read a size.bytes) size.bytes signExtend) ↔
      ¬ FillGap s lo lo offset.toInt size signExtend := by
  have hsize := size.bytes_pos
  have hwalk : ∀ v, byteWalk pc offset s (-(a + size.bytes)).toNat (-a - 1).toNat ((-a - 1).toNat / 8) = .ok v →
      v.Contains γ (extendWord (C.read a size.bytes) size.bytes signExtend) :=
    fun v hv => byteWalk_contains hrep hmin hmax hal hv
  simp only [fixedStackRead] at h
  split at h
  · rename_i hall
    rw [allIn_iff] at hall
    have hspill : ∀ k < size.bytes, s.bytes (-(a + (k : Int)) - 1).toNat = .spill := by
      intro k hk
      exact beq_iff_eq.mp (hall _ (by omega) (by omega))
    split at h
    · rename_i hnone
      refine iff_of_true (hwalk v h) ?_
      rintro ⟨-, -, -, -, -, b, hb, -⟩
      rw [← ha, hnone] at hb
      cases hb
    · rename_i x hx
      have hslot : ∀ k < size.bytes, (-(a + (k : Int)) - 1).toNat / 8 = (-a - 1).toNat / 8 := by
        intro k hk
        cases size <;> simp only [MemSize.bytes] at * <;> omega
      have hlow := hspill 0 hsize
      obtain ⟨w, hw, hword⟩ := hrep.spill (-(a + ((0 : Nat) : Int)) - 1).toNat (by show _ < 512; omega) hlow x
        (by rw [hslot 0 hsize]; exact hx)
      have hbyte : a % 8 = 0 → ∀ k < size.bytes, C (-(a + (k : Int)) - 1).toNat = wordByte w k := by
        intro ha8 k hk
        have hle := size.bytes_le
        have hidx : 7 - (-(a + (k : Int)) - 1).toNat % 8 = k := by omega
        rw [hword _ (by rw [hslot k hk, hslot 0 hsize]) (hspill k hk), hidx]
      split at h
      · rename_i h8
        cases h
        rw [h8] at hbyte hal ⊢
        rw [FrameBytes.read_congr (hbyte (by omega)), compose_wordByte, extendWord_full]
        refine iff_of_true hw ?_
        rintro ⟨-, -, hsz, -⟩
        rw [hsz] at h8
        cases h8
      · rename_i hne
        have hs : size ≠ .dw := fun hs => hne (by rw [hs]; rfl)
        split at h
        · rename_i b
          split at h
          · rename_i ha8
            cases h
            rw [FrameBytes.read_congr (hbyte ha8)]
            refine (coerceScalar_contains hs hw).trans (not_congr ?_)
            constructor
            · rintro ⟨hsz, hse, hconst⟩
              refine ⟨rfl, by rw [← ha]; exact ha8, hsz, hse, ?_, b, by rw [← ha]; exact hx, hconst⟩
              intro i h1 h2
              rw [← ha] at h1 h2
              have hk := hspill (byteOff i - a).toNat (by rw [hsz]; show _ < 4; omega)
              have hidx : (-(a + ((byteOff i - a).toNat : Int)) - 1).toNat = i := by unfold byteOff at *; omega
              rwa [hidx] at hk
            · rintro ⟨-, -, hsz, hse, -, b', hb', hconst⟩
              rw [← ha, hx] at hb'
              cases hb'
              exact ⟨hsz, hse, hconst⟩
          · rename_i ha8
            refine iff_of_true (hwalk v h) ?_
            rintro ⟨-, h8, -⟩
            rw [← ha] at h8
            exact ha8 h8
        · exact (fail_ne_ok.mp h).elim
  · rename_i hall
    refine iff_of_true (hwalk v h) ?_
    rintro ⟨-, -, hsz, -, hbytes, -⟩
    apply hall
    rw [allIn_iff]
    intro i h1 h2
    rw [hsz] at h1 hmax
    simp only [MemSize.bytes] at h1 hmax
    rw [beq_iff_eq]
    refine hbytes i ?_ ?_ <;> unfold byteOff <;> omega

end Loads

/-! ## States -/

/-- The stack of every active frame represents the frame's bytes. -/
def StacksRepresent (γ : RegState → UInt64 → Prop) (st : VerifierState) (frames : Nat → FrameBytes) : Prop :=
  ∀ k s, frameStack st k = .ok s → s.Represents γ (frames k)

/-- The frames after a write into one of them. -/
def writeFrame (frames : Nat → FrameBytes) (f : Nat) (off : Int) (n : Nat) (w : UInt64) : Nat → FrameBytes :=
  Function.update frames f ((frames f).write off n w)

/-- A store of zero at a variable offset makes the whole range zero bytes: one that it does
    not write holds something else. -/
def ZeroGap (C : FrameBytes) (lo hi o offset : Int) (n : Nat) (v : RegState) : Prop :=
  isZeroValue v = true ∧ ∃ i, lo + offset ≤ byteOff i ∧ byteOff i < hi + offset + n ∧
    ¬ (o + offset ≤ byteOff i ∧ byteOff i < o + offset + n) ∧ C i ≠ 0

section States

variable {γ : RegState → UInt64 → Prop} {st st' : VerifierState} {frames : Nat → FrameBytes} {pc f : Nat} {base : Reg}
  {offset : Int16} {size : MemSize} {lo hi o : Int} {al : Nat} {v : RegState} {w : UInt64}

theorem frameStack_self {s s0 : StackState} (h : frameStack st f = .ok s0) : frameStack (setFrameStack st f s) f = .ok s := by
  unfold frameStack at h
  unfold frameStack setFrameStack
  by_cases hf : f = st.curframe
  · rw [if_pos hf, if_pos hf]
  · rw [if_neg hf] at h ⊢
    rw [if_neg hf]
    split at h
    · cases h
    · rename_i hlt
      rw [if_neg hlt]
      dsimp only
      rw [Function.update_self]
      split at h
      · rename_i fr hfr
        rw [hfr]
        rfl
      · cases h

theorem stacksRepresent_set {s s0 : StackState} {C : FrameBytes} (hrep : StacksRepresent γ st frames)
    (h : frameStack st f = .ok s0) :
    StacksRepresent γ (setFrameStack st f s) (Function.update frames f C) ↔ s.Represents γ C := by
  constructor
  · intro hall
    have hs := hall f s (frameStack_self h)
    rwa [Function.update_self] at hs
  · intro hs k s' hk
    by_cases hkf : k = f
    · subst hkf
      rw [frameStack_self h] at hk
      cases hk
      rw [Function.update_self]
      exact hs
    · rw [frameStack_setFrameStack hkf] at hk
      rw [Function.update_of_ne hkf]
      exact hrep k s' hk

theorem destroySlices_represents (st : VerifierState) {s : StackState} {C : FrameBytes} (hs : s.Represents γ C) (d : Option Nat) :
    (destroySlices st s d).2.Represents γ C ∧ ∀ k, frameStack (destroySlices st s d).1 k = frameStack st k := by
  cases d with
  | none => exact ⟨hs, fun _ => rfl⟩
  | some id => exact ⟨hs.mapFullSpills fun _ _ hw => killMemAlias_contains hw, fun _ => rfl⟩

/-- A scrubbed range of a variable-offset store represents the frame outside the zero gap. -/
theorem scrub_iff {s : StackState} {C : FrameBytes} {n : Nat} (hs : s.Represents γ C) (hmin : -512 ≤ lo + offset.toInt)
    (hmax : hi + offset.toInt + n ≤ 0) (hlo : lo ≤ o) (hhi : o ≤ hi) (hn : 0 < n) (hw : v.Contains γ w) :
    (s.scrub (-(hi + offset.toInt + n)).toNat (-(lo + offset.toInt) - 1).toNat
      (if isZeroValue v then .zero else .misc)).Represents γ (C.write (o + offset.toInt) n w) ↔
      ¬ ZeroGap C lo hi o offset.toInt n v := by
  rw [hs.scrub hmin hmax (by omega) (by omega) hn]
  by_cases hz : isZeroValue v = true
  · have hw0 := zeroValue_word hz hw
    subst hw0
    rw [if_pos hz]
    constructor
    · rintro h ⟨-, i, h1, h2, hout, hne⟩
      exact hne ((FrameBytes.write_zero.mp (h rfl i h1 h2)).resolve_left hout)
    · intro hgap _ i h1 h2
      rw [FrameBytes.write_zero]
      by_contra hne
      rw [not_or] at hne
      exact hgap ⟨hz, i, h1, h2, hne.1, hne.2⟩
  · rw [if_neg hz]
    exact iff_of_true (fun h => by cases h) fun hgap => hz hgap.1

/-- A store through a stack pointer. -/
theorem stackWrite_represents {src : StoreSrc} (hrep : StacksRepresent γ st frames)
    (hbase : st.regs base = .ptrToStack lo hi al f) (hlo : lo ≤ o) (hhi : o ≤ hi)
    (hv : storeValue pc st src = .ok v) (hw : v.Contains γ w) (h : stackWrite pc base st offset size src = .ok st') :
    StacksRepresent γ st' (writeFrame frames f (o + offset.toInt) size.bytes w) ↔
      ¬ ZeroGap (frames f) lo hi o offset.toInt size.bytes v := by
  have hsize := size.bytes_pos
  have hle := size.bytes_le
  simp only [stackWrite, bind_eq_ok, readReg_eq_ok] at h
  obtain ⟨x, ⟨hx, -⟩, h⟩ := h
  rw [hbase] at hx
  subst hx
  simp only [bind_eq_ok] at h
  obtain ⟨_, hchk, h⟩ := h
  obtain ⟨-, -, -, hmin, hmax⟩ := checkStackAccess_ok hchk
  simp only [frameStackWrite, bind_eq_ok] at h
  obtain ⟨s0, hs0, h⟩ := h
  rw [stackByteRange_eq hmin hmax (by omega)] at h
  dsimp only at h
  split at h
  · cases h
  · have hdes := (hrep f s0 hs0).destroyDynptrs (-(hi + offset.toInt + size.bytes)).toNat (-(lo + offset.toInt) - 1).toNat
    obtain ⟨hs, hframe⟩ := destroySlices_represents st hdes
      (destroyedDynptr s0 (-(hi + offset.toInt + size.bytes)).toNat (-(lo + offset.toInt) - 1).toNat)
    have hrep' : StacksRepresent γ (destroySlices st (destroyDynptrs s0 (-(hi + offset.toInt + size.bytes)).toNat
        (-(lo + offset.toInt) - 1).toNat) (destroyedDynptr s0 (-(hi + offset.toInt + size.bytes)).toNat
          (-(lo + offset.toInt) - 1).toNat)).1 frames := by
      intro k s' hk
      rw [hframe] at hk
      exact hrep k s' hk
    split at h
    · -- an aligned store at a fixed offset
      rename_i hfix
      simp only [bind_eq_ok, fixedStackWrite, failIf_eq_ok] at h
      obtain ⟨v', hv', _, -, _, -, h⟩ := h
      rw [hv] at hv'
      cases hv'
      cases h
      have ho : o = lo := by omega
      subst ho
      have heq := hfix.1
      subst heq
      unfold writeFrame
      rw [stacksRepresent_set hrep' (by rw [hframe]; exact hs0)]
      refine iff_of_true (hs.stored hfix.2 hmax ⟨hsize, hle⟩ hw) ?_
      rintro ⟨-, i, h1, h2, hout, -⟩
      exact hout ⟨h1, h2⟩
    · split at h
      · exact (fail_ne_ok.mp h).elim
      · simp only [bind_eq_ok] at h
        obtain ⟨v', hv', h⟩ := h
        rw [hv] at hv'
        cases hv'
        cases h
        unfold writeFrame
        rw [stacksRepresent_set hrep' (by rw [hframe]; exact hs0)]
        exact scrub_iff hs hmin hmax hlo hhi hsize hw

/-- A store through another pointer leaves every frame alone. -/
theorem stackWrite_elsewhere {src : StoreSrc} (hbase : (st.regs base).isPtrToStack = false)
    (h : stackWrite pc base st offset size src = .ok st') : st' = st := by
  simp only [stackWrite, bind_eq_ok, readReg_eq_ok] at h
  obtain ⟨x, ⟨hx, -⟩, h⟩ := h
  split at h
  · rw [hx] at hbase
    cases hbase
  · simp only [bind_eq_ok] at h
    obtain ⟨_, -, _, -, h⟩ := h
    cases h
    rfl
  · simp only [bind_eq_ok] at h
    obtain ⟨_, -, _, -, h⟩ := h
    cases h
    rfl
  · exact (fail_ne_ok.mp h).elim

/-- A load through a stack pointer. -/
theorem stackRead_contains {signExtend : Bool} (hrep : StacksRepresent γ st frames)
    (hbase : st.regs base = .ptrToStack lo hi al f) (hlo : lo ≤ o) (hhi : o ≤ hi)
    (h : stackRead pc base st offset size signExtend = .ok v) :
    ∃ s, frameStack st f = .ok s ∧
      (v.Contains γ (extendWord ((frames f).read (o + offset.toInt) size.bytes) size.bytes signExtend) ↔
        ¬ FillGap s lo hi offset.toInt size signExtend) := by
  have hsize := size.bytes_pos
  simp only [stackRead, bind_eq_ok, readReg_eq_ok] at h
  obtain ⟨x, ⟨hx, -⟩, h⟩ := h
  rw [hbase] at hx
  subst hx
  simp only [bind_eq_ok] at h
  obtain ⟨_, hchk, s, hs, h⟩ := h
  obtain ⟨-, -, hal, hmin, hmax⟩ := checkStackAccess_ok hchk
  refine ⟨s, hs, ?_⟩
  rw [stackByteRange_eq hmin hmax (by omega)] at h
  dsimp only at h
  split at h
  · rename_i heq
    subst heq
    have ho : o = lo := by omega
    subst ho
    exact fixedStackRead_contains (hrep f s hs) rfl hmin hmax hal h
  · rename_i hne
    simp only [variableStackRead, bind_eq_ok] at h
    obtain ⟨_, -, h⟩ := h
    rw [if_pos (by omega)] at h
    cases h
    exact iff_of_true (unknown_holds _) fun hgap => hne hgap.1

end States

/-! ## Atomics -/

section Atomics

variable {γ : RegState → UInt64 → Prop} {st st' : VerifierState} {frames : Nat → FrameBytes} {pc f : Nat}
  {dst src : Reg} {offset : Int16} {size : MemSize} {op : AtomicOp} {fetch : Bool} {lo hi o : Int} {al : Nat}

theorem storeOld_frameStack (old : RegState) (k : Nat) : frameStack (storeOld st src op fetch old) k = frameStack st k := by
  unfold storeOld
  split
  · rfl
  · split <;> rfl

/-- The register that the old value of an atomic is fetched into. -/
def fetchedReg (src : Reg) (op : AtomicOp) (fetch : Bool) : Option Reg :=
  if op = .cmpxchg then some 0 else if fetch then some src else none

theorem storeOld_fetched {old : RegState} {r : Reg} (h : fetchedReg src op fetch = some r) :
    (storeOld st src op fetch old).regs r = old := by
  unfold fetchedReg at h
  unfold storeOld
  split at h
  · rename_i hop
    cases h
    rw [if_pos hop]
    simp [VerifierState.setReg]
  · rename_i hop
    split at h
    · rename_i hf
      cases h
      rw [if_neg hop, if_pos hf]
      simp [VerifierState.setReg]
    · cases h

/-- An atomic on the stack: the frame after any word is written, and the old value. -/
theorem atomic_represents (hrep : StacksRepresent γ st frames) (hbase : st.regs dst = .ptrToStack lo hi al f)
    (hlo : lo ≤ o) (hhi : o ≤ hi) (w : UInt64) (h : atomic pc st dst src offset size op fetch = .ok st') :
    StacksRepresent γ st' (writeFrame frames f (o + offset.toInt) size.bytes w) ∧
      ∀ r, fetchedReg src op fetch = some r →
        (st'.regs r).Contains γ ((frames f).read (o + offset.toInt) size.bytes) := by
  have hsize := size.bytes_pos
  simp only [atomic, bind_eq_ok, readReg_eq_ok] at h
  obtain ⟨x, ⟨hx, -⟩, _, -, _, -, h⟩ := h
  rw [hbase] at hx
  subst hx
  simp only [atomicStack, bind_eq_ok, failIf_eq_ok] at h
  obtain ⟨_, -, _, hrange, old, hold, _, hf, h⟩ := h
  rw [not_or] at hrange
  rw [not_not] at hf
  obtain ⟨s, hs, hread⟩ := stackRead_contains hrep hbase hlo hhi hold
  have hcur : s = st.stack := by
    unfold frameStack at hs
    rw [if_pos hf] at hs
    cases hs
    rfl
  subst hcur
  rw [stackByteRange_eq (by omega) (by omega) (by omega)] at h
  cases h
  constructor
  · intro k s' hk
    rw [storeOld_frameStack] at hk
    have hset : ∀ stack, ({ st with stack } : VerifierState) = setFrameStack st f stack := by
      intro stack
      unfold setFrameStack
      rw [if_pos hf]
    rw [hset] at hk
    exact (stacksRepresent_set hrep hs).mpr ((hrep f _ hs).forget (by omega) (by omega)) k s' hk
  · intro r hr
    rw [storeOld_fetched hr]
    by_cases h8 : size.bytes = 8
    · rw [if_pos h8]
      have hgap : ¬ FillGap st.stack lo hi offset.toInt size false := by
        rintro ⟨-, -, hsz, -⟩
        rw [hsz] at h8
        cases h8
      exact hread.mpr hgap
    · rw [if_neg h8]
      exact scalarForWidth_contains size

end Atomics

/-! ## Accesses -/

/-- Where a tracked stack represents the frame, a store leaves it so exactly outside the zero
    gap, an atomic always, and a load contains the loaded word exactly outside the fill gap. -/
theorem stack_accesses_sound {γ : RegState → UInt64 → Prop} {st : VerifierState} {frames : Nat → FrameBytes}
    {base : Reg} {lo hi o : Int} {al f : Nat} (pc : Nat) (offset : Int16) (size : MemSize)
    (hrep : StacksRepresent γ st frames) (hbase : st.regs base = .ptrToStack lo hi al f) (hlo : lo ≤ o) (hhi : o ≤ hi) :
    (∀ src v w st', storeValue pc st src = .ok v → v.Contains γ w → stackWrite pc base st offset size src = .ok st' →
      (StacksRepresent γ st' (writeFrame frames f (o + offset.toInt) size.bytes w) ↔
        ¬ ZeroGap (frames f) lo hi o offset.toInt size.bytes v)) ∧
    (∀ src op fetch w st', atomic pc st base src offset size op fetch = .ok st' →
      StacksRepresent γ st' (writeFrame frames f (o + offset.toInt) size.bytes w) ∧
        ∀ r, fetchedReg src op fetch = some r →
          (st'.regs r).Contains γ ((frames f).read (o + offset.toInt) size.bytes)) ∧
    (∀ signExtend v, stackRead pc base st offset size signExtend = .ok v → ∃ s, frameStack st f = .ok s ∧
      (v.Contains γ (extendWord ((frames f).read (o + offset.toInt) size.bytes) size.bytes signExtend) ↔
        ¬ FillGap s lo hi offset.toInt size signExtend)) := by
  refine ⟨?_, ?_, ?_⟩
  · intro src v w st' hv hw h
    exact stackWrite_represents hrep hbase hlo hhi hv hw h
  · intro src op fetch w st' h
    exact atomic_represents hrep hbase hlo hhi w h
  · intro signExtend v h
    exact stackRead_contains hrep hbase hlo hhi h

/-- Two slots of unknown bytes, R1 at either. -/
def twoSlots : VerifierState :=
  let st := (VerifierState.initialWith .socketFilter).setReg 1 (.ptrToStack (-16) (-8) 0 0)
  { st with stack := st.stack.fill 0 15 .misc }

/-- A spill of a scalar in [0, 10] in the first slot. -/
def smallSpill : VerifierState :=
  let st := VerifierState.initialWith .socketFilter
  { st with stack := st.stack.spill 0 7 (.scalar (.fromSigned 0 10)) }

def anyPtr : RegState → UInt64 → Prop := fun _ _ => True

theorem frameStack_only {st : VerifierState} (hcur : st.curframe = 0) (hsaved : st.saved = fun _ => none) {k : Nat}
    {s : StackState} (h : frameStack st k = .ok s) : k = 0 ∧ s = st.stack := by
  unfold frameStack at h
  rw [hcur, hsaved] at h
  split at h
  · rename_i hk
    cases h
    exact ⟨hk, rfl⟩
  · split at h <;> cases h

theorem twoSlots_represents (frames : Nat → FrameBytes) : StacksRepresent anyPtr twoSlots frames := by
  intro k s h
  obtain ⟨-, rfl⟩ := frameStack_only rfl rfl h
  have hbyte : ∀ i, twoSlots.stack.bytes i = .misc ∨ twoSlots.stack.bytes i = .invalid := by
    intro i
    show (if 0 ≤ i ∧ i ≤ 15 then StackByte.misc else .invalid) = .misc ∨
      (if 0 ≤ i ∧ i ≤ 15 then StackByte.misc else .invalid) = .invalid
    split
    · exact .inl rfl
    · exact .inr rfl
  constructor
  · intro i _ hb
    rcases hbyte i with h' | h' <;> rw [h'] at hb <;> cases hb
  · intro i _ hb
    rcases hbyte i with h' | h' <;> rw [h'] at hb <;> cases hb

/-- The frame of the spill, its word 5. -/
def fiveWord : FrameBytes := FrameBytes.write (fun _ => 0) (-8) 8 5

theorem smallSpill_represents : StacksRepresent anyPtr smallSpill fun _ => fiveWord := by
  intro k s h
  obtain ⟨-, rfl⟩ := frameStack_only rfl rfl h
  have hempty : StackState.Represents anyPtr .new fun _ => 0 := ⟨fun _ _ h => (by cases h), fun _ _ h => (by cases h)⟩
  have hal : (-8 : Int) % 8 = 0 := by decide
  have hmax : (-8 : Int) + (8 : Nat) ≤ 0 := by decide
  have hfive : RegState.Contains anyPtr (.scalar (.fromSigned 0 10)) 5 := fromSigned_contains (by decide) (by decide)
  exact hempty.stored hal hmax (by decide) hfive

theorem smallSpill_frame : smallSpill.regs 10 = .ptrToStack 0 0 0 0 := rfl

theorem stack_accesses_sound_spill :
    (∀ src v w st', storeValue 0 smallSpill src = .ok v → v.Contains anyPtr w →
      stackWrite 0 10 smallSpill (-8) .w src = .ok st' →
      (StacksRepresent anyPtr st' (writeFrame (fun _ => fiveWord) 0 (0 + (-8 : Int16).toInt) 4 w) ↔
        ¬ ZeroGap fiveWord 0 0 0 (-8 : Int16).toInt 4 v)) ∧
    (∀ src op fetch w st', atomic 0 smallSpill 10 src (-8) .w op fetch = .ok st' →
      StacksRepresent anyPtr st' (writeFrame (fun _ => fiveWord) 0 (0 + (-8 : Int16).toInt) 4 w) ∧
        ∀ r, fetchedReg src op fetch = some r →
          (st'.regs r).Contains anyPtr (fiveWord.read (0 + (-8 : Int16).toInt) 4)) ∧
    (∀ signExtend v, stackRead 0 10 smallSpill (-8) .w signExtend = .ok v → ∃ s, frameStack smallSpill 0 = .ok s ∧
      (v.Contains anyPtr (extendWord (fiveWord.read (0 + (-8 : Int16).toInt) 4) 4 signExtend) ↔
        ¬ FillGap s 0 0 (-8 : Int16).toInt .w signExtend)) :=
  stack_accesses_sound 0 (-8) .w smallSpill_represents smallSpill_frame (by decide) (by decide)

/-- A store of 0 at one of two slots makes zero bytes of both; a load of four bytes of a spill
    in [0, 10] has the signed 32-bit range [0, -1]. -/
theorem stack_accesses_escape :
    (∃ st frames lo hi al o st', StacksRepresent anyPtr st frames ∧ st.regs 1 = .ptrToStack lo hi al 0 ∧ lo ≤ o ∧
      o ≤ hi ∧ storeValue 0 st (.imm 0) = .ok (.scalar (.constant 0)) ∧
      (RegState.scalar (.constant 0)).Contains anyPtr 0 ∧ stackWrite 0 1 st 0 .dw (.imm 0) = .ok st' ∧
      ¬ StacksRepresent anyPtr st' (writeFrame frames 0 o 8 0)) ∧
    ∃ st frames v, StacksRepresent anyPtr st frames ∧ st.regs 10 = .ptrToStack 0 0 0 0 ∧
      stackRead 0 10 st (-8) .w false = .ok v ∧ ¬ v.Contains anyPtr ((frames 0).read (-8) 4) := by
  refine ⟨⟨twoSlots, fun _ _ => 1, -16, -8, 0, -16, _, twoSlots_represents _, rfl, by decide, by decide, rfl,
    ScalarBounds.constant_contains 0, rfl, ?_⟩, ?_⟩
  · intro hrep
    have hzero : (RegState.scalar (.constant 0)).Contains anyPtr 0 := ScalarBounds.constant_contains 0
    have hbase : twoSlots.regs 1 = .ptrToStack (-16) (-8) 0 0 := rfl
    have hvalue : storeValue 0 twoSlots (.imm 0) = .ok (.scalar (.constant 0)) := rfl
    have hstore : stackWrite 0 1 twoSlots 0 .dw (.imm 0) = .ok _ := rfl
    have hgap : ZeroGap (fun _ => 1) (-16) (-8) (-16) (0 : Int16).toInt 8 (.scalar (.constant 0)) :=
      ⟨by decide, 0, by decide, by decide, by decide, by decide⟩
    exact (stackWrite_represents (twoSlots_represents fun _ _ => 1) hbase (le_refl (-16)) (by decide) hvalue hzero
      hstore).mp hrep hgap
  · refine ⟨smallSpill, fun _ => fiveWord, _, smallSpill_represents, rfl, rfl, ?_⟩
    intro hin
    have hempty : (0 : Int32) ≤ -1 := Int32.le_trans hin.s32Min hin.s32Max
    exact absurd hempty (by decide)

end RandVerifier
