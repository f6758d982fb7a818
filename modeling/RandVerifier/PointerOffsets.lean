/-
  RandVerifier.PointerOffsets — the tracked offset of a pointer against its byte offset.

  A pointer state carries the interval of its byte offset, a bound at the edge of `i32` standing
  for none, and its residue modulo 8 or the unknown mark; a context pointer carries one offset.
  The byte offset of a run is the sum of the signed words and immediates added to a base pointer.
  The tracking survives a run whose moves are `Careful`:

    * the unknown mark 255 is not added to known low bits (the sum modulo 8 passes for a residue);
    * a bound at the edge of `i32` is not moved back inside;

  and a base pointer at a constant offset into a map value has that offset below 2^31 (the source
  casts it to `i32`).

  Proved:
  - `Spans.add`, `Spans.addImm`, `ctx_moved`: the interval and the residue of one move;
  - `PointerMove.tracks`, `PointerRun.tracks`: a careful move, and a careful run;
  - `accepts_inside`: an accepted access through a tracked pointer is aligned and inside;
  - `pointer_offsets_tracked`: both, over every careful run from a base pointer;
    `unknown_residue_escapes` is a run of two moves that gets a misaligned store accepted,
    `lost_bound_escapes` loses each of the bounds.
-/

import RandVerifier.AluSound
import RandVerifier.Exec
import RandVerifier.Flow

namespace RandVerifier

/-! ## Tracked offsets -/

def i32Max : Int := 2 ^ 31 - 1
def i32Min : Int := -2 ^ 31

/-- The offset lies in the tracked interval, a bound at the edge of `i32` standing for none, and
    has the tracked residue. -/
structure Spans (lo hi : Int) (al : Nat) (o : Int) : Prop where
  lower : lo = i32Min ∨ lo ≤ o
  upper : hi = i32Max ∨ o ≤ hi
  residue : Aligned al o

/-- The state of a pointer tracks its byte offset; a context pointer has one offset for both
    bounds and no residue. -/
def RegState.Tracks (v : RegState) (o : Int) : Prop :=
  match v with
  | .ptrToStack lo hi al _ => Spans lo hi al o
  | .ptrToMapValue lo hi al _ _ => Spans lo hi al o
  | .ptrToCtx off => Spans off off alignUnknown o
  | _ => True

/-- What a pointer moves by. -/
def signedAddend (op : AluOp) (k : Int) : Int := if op = .sub then -k else k

/-- An addition that the tracking survives: an unknown residue is not moved by known low bits,
    and a bound that stands for none is not moved back. -/
def Careful (v : RegState) (s : ScalarBounds) (op : AluOp) : Prop :=
  match v with
  | .ptrToStack _ hi al _ | .ptrToMapValue _ hi al _ _ =>
    (al = alignUnknown → s.tnum.mask &&& 7 ≠ 0) ∧ (hi = i32Max → 0 ≤ s.smax.toInt)
  | .ptrToCtx off =>
    (off = i32Max → 0 ≤ signedAddend op s.smin.toInt) ∧ (off = i32Min → signedAddend op s.smin.toInt ≤ 0)
  | _ => True

/-! ## One move -/

section Moves

variable {pc : Nat} {st : VerifierState} {lo hi o : Int} {al : Nat} {s : ScalarBounds} {w : UInt64}

theorem clampI32_clampI64 (v : Int) : clampI32 (clampI64 v) = clampI32 v := by
  unfold clampI32 clampI64
  omega

theorem checkSaneAddend_ok {kind : String} {u : Unit} (h : checkSaneAddend pc kind s = .ok u) :
    -2 ^ 28 < s.smin.toInt ∧ s.smin.toInt < 2 ^ 28 := by
  unfold checkSaneAddend at h
  dsimp only at h
  split at h
  · rw [failIf_eq_ok] at h
    unfold bpfMaxVarOff at h
    omega
  · split at h
    · exact (fail_ne_ok.mp h).elim
    · rw [failIf_eq_ok] at h
      unfold bpfMaxVarOff at h
      omega

theorem checkSaneResultOffset_ok {kind : String} {v : Int} {u : Unit} (h : checkSaneResultOffset pc kind v = .ok u) :
    -2 ^ 28 < v ∧ v < 2 ^ 28 := by
  unfold checkSaneResultOffset bpfMaxVarOff at h
  rw [failIf_eq_ok] at h
  omega

/-- The low three bits of a word as a residue. -/
theorem signed_residue (w : UInt64) : (w.toInt64.toInt - ((w &&& 7).toNat : Int)) % 8 = 0 := by
  have h := signed_eq w
  have hand : (w &&& 7).toNat = w.toNat % 8 := by
    rw [UInt64.toNat_and]
    exact Nat.and_two_pow_sub_one_eq_mod w.toNat 3
  rw [hand]
  omega

theorem known_low_bits (hw : s.Contains w) (hmask : s.tnum.mask &&& 7 = 0) : w &&& 7 = s.tnum.value &&& 7 := by
  have h := hw.tnum
  unfold Tnum.Contains at h
  have hm : ~~~s.tnum.mask &&& 7 = 7 := by
    rw [← UInt64.toBitVec_inj] at hmask ⊢
    apply BitVec.eq_of_getLsbD_eq
    intro i hi
    have hbit := congrArg (·.getLsbD i) hmask
    simp only [UInt64.toBitVec_and, UInt64.toBitVec_not, BitVec.getLsbD_and, BitVec.getLsbD_not, hi, decide_true,
      Bool.true_and, UInt64.toBitVec_zero, BitVec.getLsbD_zero] at hbit ⊢
    revert hbit
    cases s.tnum.mask.toBitVec.getLsbD i <;> simp
  calc w &&& 7 = (w &&& ~~~s.tnum.mask) &&& 7 := by rw [UInt64.and_assoc, hm]
    _ = (s.tnum.value &&& ~~~s.tnum.mask) &&& 7 := by rw [h]
    _ = s.tnum.value &&& 7 := by rw [UInt64.and_assoc, hm]

theorem addAlign_aligned (h : Aligned al o) (hw : s.Contains w) (hc : al = alignUnknown → s.tnum.mask &&& 7 ≠ 0) :
    Aligned (addAlign al s) (o + w.toInt64.toInt) := by
  unfold addAlign
  by_cases hmask : s.tnum.mask &&& 7 = 0
  · rw [if_pos hmask, ← known_low_bits hw hmask]
    have hres := signed_residue w
    refine .inr ?_
    rcases h with hu | h
    · exact absurd hmask (hc hu)
    · push_cast
      omega
  · rw [if_neg hmask]
    exact .inl rfl

/-- The interval and the residue of a pointer plus a scalar. -/
theorem Spans.add (h : Spans lo hi al o) (hw : s.Contains w) (hsane : -2 ^ 28 < s.smin.toInt ∧ s.smin.toInt < 2 ^ 28)
    (hres : -2 ^ 28 < clampI64 (lo + s.smin.toInt) ∧ clampI64 (lo + s.smin.toInt) < 2 ^ 28)
    (hc : (al = alignUnknown → s.tnum.mask &&& 7 ≠ 0) ∧ (hi = i32Max → 0 ≤ s.smax.toInt)) :
    Spans (clampI32 (clampI64 (lo + s.smin.toInt))) (clampI32 (clampI64 (hi + s.smax.toInt))) (addAlign al s)
      (o + w.toInt64.toInt) := by
  have hmin := Int64.le_iff_toInt_le.mp hw.smin
  have hmax := Int64.le_iff_toInt_le.mp hw.smax
  obtain ⟨hlo, hhi, hal⟩ := h
  rw [clampI32_clampI64, clampI32_clampI64]
  refine ⟨?_, ?_, addAlign_aligned hal hw hc.1⟩
  · right
    unfold i32Min at hlo
    unfold clampI64 at hres
    unfold clampI32
    omega
  · have hup := hc.2
    unfold i32Max at *
    unfold clampI32
    omega

/-- An immediate is a constant scalar. -/
theorem addAlignImm_eq (al : Nat) (imm : Int32) : addAlignImm al imm = addAlign al (.constant imm.toInt64) := by
  have hmask : (ScalarBounds.constant imm.toInt64).tnum.mask &&& 7 = 0 := by
    show (0 : UInt64) &&& 7 = 0
    rfl
  have hres := signed_residue imm.toInt64.toUInt64
  rw [Int64.toInt64_toUInt64, Int32.toInt_toInt64] at hres
  unfold addAlign addAlignImm
  rw [if_pos hmask]
  show ((al + imm.toInt % 8) % 8).toNat = (al + (imm.toInt64.toUInt64 &&& 7).toNat) % 8
  omega

variable {v : RegState} {op : AluOp}

theorem addScalarToStackPtr_tracks {f : Nat} (h : Spans lo hi al o) (hw : s.Contains w)
    (hc : Careful (.ptrToStack lo hi al f) s .add) (hv : addScalarToStackPtr pc lo hi al f s = .ok v) :
    v.Tracks (o + w.toInt64.toInt) := by
  simp only [addScalarToStackPtr, bind_eq_ok] at hv
  obtain ⟨_, hsane, _, hres, hv⟩ := hv
  cases hv
  exact h.add hw (checkSaneAddend_ok hsane) (checkSaneResultOffset_ok hres) hc

theorem addScalarToMapValuePtr_tracks {d : RegState} {size id : Nat} (h : Spans lo hi al o) (hw : s.Contains w)
    (hc : Careful (.ptrToMapValue lo hi al size id) s .add)
    (hv : addScalarToMapValuePtr pc d lo hi al size s = .ok v) : v.Tracks (o + w.toInt64.toInt) := by
  simp only [addScalarToMapValuePtr, bind_eq_ok] at hv
  obtain ⟨_, hsane, _, hres, hv⟩ := hv
  cases hv
  exact h.add hw (checkSaneAddend_ok hsane) (checkSaneResultOffset_ok hres) hc

/-- A context pointer moves by a constant, and stops at the edges of `i32`. -/
theorem ctx_moved {off k : Int} (h : Spans off off alignUnknown o) (hup : off = i32Max → 0 ≤ k)
    (hdown : off = i32Min → k ≤ 0) : Spans (clampI32 (off + k)) (clampI32 (off + k)) alignUnknown (o + k) := by
  obtain ⟨hlo, hhi, -⟩ := h
  unfold i32Min at hlo hdown
  unfold i32Max at hhi hup
  refine ⟨?_, ?_, .inl rfl⟩
  · unfold i32Min clampI32
    omega
  · unfold i32Max clampI32
    omega

theorem addScalarToCtxPtr_tracks {off : Int} (h : Spans off off alignUnknown o) (hw : s.Contains w)
    (hop : op = .add ∨ op = .sub) (hc : Careful (.ptrToCtx off) s op)
    (hv : addScalarToCtxPtr pc off op s = .ok v) : v.Tracks (o + signedAddend op w.toInt64.toInt) := by
  simp only [addScalarToCtxPtr, bind_eq_ok, failIf_eq_ok] at hv
  obtain ⟨_, hsane, _, hconst, hv⟩ := hv
  cases hv
  obtain ⟨h1, h2⟩ := checkSaneAddend_ok hsane
  have hk : s.smin = w.toInt64 := (eq_of_constant (by simpa using hconst) hw).1
  have hwrap : wrapI32 s.smin.toInt = s.smin.toInt := Int.bmod_eq_of_le (by omega) (by omega)
  have hsign : (if op = .add then wrapI32 s.smin.toInt else -wrapI32 s.smin.toInt) = signedAddend op s.smin.toInt := by
    rw [hwrap]
    rcases hop with rfl | rfl <;> rfl
  rw [hsign, ← hk]
  exact ctx_moved h hc.1 hc.2

/-- The interval and the residue of a pointer plus an immediate. -/
theorem Spans.addImm {imm : Int32} (h : Spans lo hi al o) (hsane : -2 ^ 28 < imm.toInt ∧ imm.toInt < 2 ^ 28)
    (hres : -2 ^ 28 < lo + imm.toInt ∧ lo + imm.toInt < 2 ^ 28)
    (hc : (al = alignUnknown → (ScalarBounds.constant imm.toInt64).tnum.mask &&& 7 ≠ 0) ∧
      (hi = i32Max → 0 ≤ (ScalarBounds.constant imm.toInt64).smax.toInt)) :
    Spans (clampI32 (lo + imm.toInt)) (clampI32 (hi + imm.toInt)) (addAlignImm al imm) (o + imm.toInt) := by
  have hword := ScalarBounds.constant_contains imm.toInt64.toUInt64
  rw [Int64.toInt64_toUInt64] at hword
  have hsmin : (ScalarBounds.constant imm.toInt64).smin.toInt = imm.toInt := Int32.toInt_toInt64 imm
  have hsmax : (ScalarBounds.constant imm.toInt64).smax.toInt = imm.toInt := Int32.toInt_toInt64 imm
  have hadd := h.add hword (by rw [hsmin]; exact hsane) (by rw [hsmin]; unfold clampI64; omega) hc
  rw [hsmin, hsmax, Int64.toInt64_toUInt64, Int32.toInt_toInt64, clampI32_clampI64, clampI32_clampI64,
    ← addAlignImm_eq] at hadd
  exact hadd

theorem add_of_addOnly {width : AluWidth} (h : ¬ (op ≠ .add ∨ width ≠ .w64)) : op = .add := by
  by_contra hne
  exact h (.inl hne)

/-- An immediate addition or subtraction. -/
theorem aluImmValue_tracks {dst : Reg} {imm : Int32} {width : AluWidth} (h : (st.regs dst).Tracks o)
    (hop : op = .add ∨ op = .sub) (hc : Careful (st.regs dst) (.constant imm.toInt64) op)
    (hv : aluImmValue pc st dst imm op width = .ok v) : v.Tracks (o + signedAddend op imm.toInt) := by
  have hsmin : (ScalarBounds.constant imm.toInt64).smin.toInt = imm.toInt := Int32.toInt_toInt64 imm
  simp only [aluImmValue, bind_eq_ok, readReg_eq_ok] at hv
  obtain ⟨_, -, p, ⟨hp, -⟩, hv⟩ := hv
  rw [hp] at h hc
  split at hv
  · cases hv
    exact trivial
  · simp only [bind_eq_ok, failIf_eq_ok] at hv
    obtain ⟨_, hadd, _, hsane, _, hres, hv⟩ := hv
    cases hv
    rw [add_of_addOnly hadd]
    have hrange := checkSaneAddend_ok hsane
    rw [hsmin] at hrange
    exact Spans.addImm h hrange (checkSaneResultOffset_ok hres) hc
  · simp only [bind_eq_ok, failIf_eq_ok] at hv
    obtain ⟨_, -, _, -, hv⟩ := hv
    cases hv
    have hsign : (if op = .add then imm.toInt else -imm.toInt) = signedAddend op imm.toInt := by
      rcases hop with rfl | rfl <;> rfl
    rw [hsign]
    unfold Careful at hc
    rw [hsmin] at hc
    exact ctx_moved h hc.1 hc.2
  · exact (fail_ne_ok.mp hv).elim
  · simp only [bind_eq_ok, failIf_eq_ok] at hv
    obtain ⟨_, hadd, _, hsane, _, hres, hv⟩ := hv
    cases hv
    rw [add_of_addOnly hadd]
    have hrange := checkSaneAddend_ok hsane
    rw [hsmin] at hrange
    exact Spans.addImm h hrange (checkSaneResultOffset_ok hres) hc
  · exact (fail_ne_ok.mp hv).elim
  · exact (fail_ne_ok.mp hv).elim
  · exact (fail_ne_ok.mp hv).elim
  · exact (fail_ne_ok.mp hv).elim
  · cases hv

/-- A pointer plus or minus a register. -/
theorem aluRegValue_tracks {dst src : Reg} {width : AluWidth} (h : (st.regs dst).Tracks o)
    (hop : op = .add ∨ op = .sub) (hsrc : st.regs src = .scalar s) (hw : s.Contains w) (hc : Careful (st.regs dst) s op)
    (hv : aluRegValue pc st dst src op width = .ok v) : v.Tracks (o + signedAddend op w.toInt64.toInt) := by
  simp only [aluRegValue, bind_eq_ok, readReg_eq_ok] at hv
  obtain ⟨p, ⟨hp, -⟩, hv⟩ := hv
  rw [hp] at h hc
  split at hv
  · simp only [bind_eq_ok, failIf_eq_ok, readScalar_eq_ok] at hv
    obtain ⟨_, hadd, s', hs', hv⟩ := hv
    rw [hsrc] at hs'
    cases hs'
    have hop' := add_of_addOnly hadd
    subst hop'
    exact addScalarToStackPtr_tracks h hw hc hv
  · simp only [bind_eq_ok, failIf_eq_ok, readScalar_eq_ok] at hv
    obtain ⟨_, -, s', hs', hv⟩ := hv
    rw [hsrc] at hs'
    cases hs'
    exact addScalarToCtxPtr_tracks h hw hop hc hv
  · simp only [bind_eq_ok, failIf_eq_ok, readScalar_eq_ok] at hv
    obtain ⟨_, hadd, s', hs', hv⟩ := hv
    rw [hsrc] at hs'
    cases hs'
    have hop' := add_of_addOnly hadd
    subst hop'
    exact addScalarToMapValuePtr_tracks h hw hc hv
  · -- two scalars
    rename_i d
    unfold aluScalarReg at hv
    have hscalar : ∀ v, aluScalars pc st src d op width = .ok v → v.Tracks (o + signedAddend op w.toInt64.toInt) := by
      intro v hv
      simp only [aluScalars, bind_eq_ok] at hv
      obtain ⟨_, -, hv⟩ := hv
      cases hv
      exact trivial
    split at hv
    · simp only [bind_eq_ok, readReg_eq_ok, hsrc] at hv
      obtain ⟨_, ⟨rfl, -⟩, hv⟩ := hv
      exact hscalar v hv
    · exact hscalar v hv
  · exact (fail_ne_ok.mp hv).elim

/-- A scalar plus a pointer: the destination inherits the pointer. -/
theorem aluScalarReg_tracks {src : Reg} {width : AluWidth} (h : (st.regs src).Tracks o) (hw : s.Contains w)
    (hc : Careful (st.regs src) s .add) (hv : aluScalarReg pc st src s .add width = .ok v) :
    v.Tracks (o + w.toInt64.toInt) := by
  have hscalar : ∀ v, aluScalars pc st src s .add width = .ok v → v.Tracks (o + w.toInt64.toInt) := by
    intro v hv
    simp only [aluScalars, bind_eq_ok] at hv
    obtain ⟨_, -, hv⟩ := hv
    cases hv
    exact trivial
  unfold aluScalarReg at hv
  split at hv
  · simp only [bind_eq_ok, readReg_eq_ok] at hv
    obtain ⟨p, ⟨hp, -⟩, hv⟩ := hv
    rw [hp] at h hc
    split at hv
    · simp only [bind_eq_ok] at hv
      obtain ⟨_, -, hv⟩ := hv
      exact addScalarToStackPtr_tracks h hw hc hv
    · exact addScalarToMapValuePtr_tracks h hw hc hv
    · exact addScalarToCtxPtr_tracks h hw (.inl rfl) hc hv
    · exact hscalar v hv
  · exact hscalar v hv

end Moves

/-! ## Runs -/

/-- The pointers a program starts from, with their byte offsets: a frame's top, the context, the
    value of a lookup, and a constant offset into a map value. -/
inductive BasePointer : RegState → Int → Prop
  | frame (f : Nat) : BasePointer (.ptrToStack 0 0 0 f) 0
  | context : BasePointer (.ptrToCtx 0) 0
  | lookup (size id : Nat) : BasePointer (.ptrToMapValue 0 0 0 size id) 0
  | mapValue (offset size : Nat) : offset < 2 ^ 32 → BasePointer (mapValueAt offset size) offset

/-- One accepted addition or subtraction: `ok` says which ones count. The offset moves by the
    immediate, or by the word in the other register. -/
inductive PointerMove (ok : RegState → ScalarBounds → AluOp → Prop) : RegState → Int → RegState → Int → Prop
  | imm {pc st dst imm op width st'} (o : Int) : op = .add ∨ op = .sub → ok (st.regs dst) (.constant imm.toInt64) op →
      aluImm pc st dst imm op width = .ok st' →
      PointerMove ok (st.regs dst) o (st'.regs dst) (o + signedAddend op imm.toInt)
  | reg {pc st dst src op width s w st'} (o : Int) : op = .add ∨ op = .sub → st.regs src = .scalar s →
      ScalarBounds.Contains s w → ok (st.regs dst) s op → aluReg pc st dst src op width = .ok st' →
      PointerMove ok (st.regs dst) o (st'.regs dst) (o + signedAddend op w.toInt64.toInt)
  | inherit {pc st dst src width d w st'} (o : Int) : st.regs dst = .scalar d → ScalarBounds.Contains d w →
      ok (st.regs src) d .add → aluReg pc st dst src .add width = .ok st' →
      PointerMove ok (st.regs src) o (st'.regs dst) (o + w.toInt64.toInt)

inductive PointerRun (ok : RegState → ScalarBounds → AluOp → Prop) (p : RegState) (o : Int) : RegState → Int → Prop
  | refl : PointerRun ok p o p o
  | move {q o' v o''} : PointerRun ok p o q o' → PointerMove ok q o' v o'' → PointerRun ok p o v o''

theorem BasePointer.tracks {v : RegState} {o : Int} (h : BasePointer v o) (hsmall : o < 2 ^ 31) : v.Tracks o := by
  cases h with
  | frame f => exact ⟨.inr (le_refl 0), .inr (le_refl 0), .inr rfl⟩
  | context => exact ⟨.inr (le_refl 0), .inr (le_refl 0), .inl rfl⟩
  | lookup size id => exact ⟨.inr (le_refl 0), .inr (le_refl 0), .inr rfl⟩
  | mapValue offset size hlt =>
    have hwrap : wrapI32 offset = offset := Int.bmod_eq_of_le (by omega) (by omega)
    refine ⟨.inr ?_, .inr ?_, .inr ?_⟩
    · rw [hwrap]
    · rw [hwrap]
    · omega

theorem setReg_self (st : VerifierState) (r : Reg) (v : RegState) : (st.setReg r v).regs r = v := by
  simp [VerifierState.setReg]

/-- A careful move keeps the offset tracked. -/
theorem PointerMove.tracks {p v : RegState} {o o' : Int} (h : PointerMove Careful p o v o') (hp : p.Tracks o) :
    v.Tracks o' := by
  cases h with
  | imm o hop hc hstep =>
    simp only [aluImm, bind_eq_ok] at hstep
    obtain ⟨x, hx, hstep⟩ := hstep
    cases hstep
    rw [setReg_self]
    exact aluImmValue_tracks hp hop hc hx
  | reg o hop hsrc hw hc hstep =>
    simp only [aluReg, bind_eq_ok] at hstep
    obtain ⟨x, hx, hstep⟩ := hstep
    cases hstep
    rw [setReg_self]
    exact aluRegValue_tracks hp hop hsrc hw hc hx
  | inherit o hdst hw hc hstep =>
    simp only [aluReg, bind_eq_ok] at hstep
    obtain ⟨x, hx, hstep⟩ := hstep
    cases hstep
    rw [setReg_self]
    simp only [aluRegValue, bind_eq_ok, readReg_eq_ok, hdst] at hx
    obtain ⟨_, ⟨rfl, -⟩, hx⟩ := hx
    exact aluScalarReg_tracks hp hw hc hx

/-- A careful run keeps the offset tracked. -/
theorem PointerRun.tracks {p v : RegState} {o o' : Int} (h : PointerRun Careful p o v o') (hp : p.Tracks o) :
    v.Tracks o' := by
  induction h with
  | refl => exact hp
  | move _ hmove ih => exact hmove.tracks ih

/-! ## Accesses -/

/-- The executor accepts a load, a store or an atomic through a register. -/
def Accepts (pc : Nat) (st : VerifierState) (base : Reg) (offset : Int16) (size : MemSize) : Prop :=
  (∃ signExtend v, loadValue pc st base offset size signExtend = .ok v) ∨
  (∃ src st', stackWrite pc base st offset size src = .ok st') ∨
  ∃ src op fetch st', atomic pc st base src offset size op fetch = .ok st'

/-- The accessed bytes are aligned and lie inside the object. -/
def Inside (progType : ProgType) (v : RegState) (o : Int) (size : Nat) : Prop :=
  match v with
  | .ptrToStack .. => o % size = 0 ∧ -512 ≤ o ∧ o + size ≤ 0
  | .ptrToMapValue _ _ _ valueSize _ => o % size = 0 ∧ 0 ≤ o ∧ o + size ≤ valueSize
  | .ptrToCtx _ => o % size = 0 ∧ Ctx.read progType o size = .ok .scalar
  | _ => True

/-- A map value is not so large that an offset without a bound passes the check. -/
def Bounded (v : RegState) (offset : Int16) : Prop :=
  match v with
  | .ptrToMapValue _ hi _ valueSize _ => hi = i32Max → (valueSize : Int) < i32Max + offset.toInt + 8
  | _ => True

section Accesses

variable {pc : Nat} {st : VerifierState} {base : Reg} {offset : Int16} {size : MemSize} {lo hi o : Int} {al : Nat}

theorem stack_inside {u : Unit} (h : Spans lo hi al o) (hc : checkStackAccess pc base offset lo hi al size.bytes = .ok u) :
    (o + offset.toInt) % size.bytes = 0 ∧ -512 ≤ o + offset.toInt ∧ o + offset.toInt + size.bytes ≤ 0 := by
  obtain ⟨hal, hres, -, hmin, hmax⟩ := checkStackAccess_ok hc
  obtain ⟨hlo, hhi, halign⟩ := h
  have halign' := halign.resolve_left hal
  have h16 := offset.le_toInt
  have h16' := offset.toInt_lt
  unfold i32Min at hlo
  unfold i32Max at hhi
  refine ⟨?_, by omega, by omega⟩
  cases size <;> simp only [MemSize.bytes] at * <;> omega

theorem mapValueAccessCheck_ok {valueSize : Nat} {u : Unit}
    (h : mapValueAccessCheck pc base offset lo hi al valueSize = .ok u) :
    al ≠ alignUnknown ∧ (al + offset.toInt % 8) % 8 = 0 ∧ 0 ≤ lo + offset.toInt ∧
      hi + offset.toInt + 8 ≤ valueSize := by
  simp only [mapValueAccessCheck, bind_eq_ok, failIf_eq_ok, not_or, not_not, not_lt] at h
  obtain ⟨_, h1, _, h2, h3, h4⟩ := h
  exact ⟨h1, h2, h3, h4⟩

theorem mapValue_inside {valueSize id : Nat} {u : Unit} (h : Spans lo hi al o)
    (hb : Bounded (.ptrToMapValue lo hi al valueSize id) offset)
    (hc : mapValueAccessCheck pc base offset lo hi al valueSize = .ok u) :
    (o + offset.toInt) % size.bytes = 0 ∧ 0 ≤ o + offset.toInt ∧ o + offset.toInt + size.bytes ≤ valueSize := by
  obtain ⟨hal, hres, hmin, hmax⟩ := mapValueAccessCheck_ok hc
  obtain ⟨hlo, hhi, halign⟩ := h
  have halign' := halign.resolve_left hal
  have hsize := size.bytes_le
  have h16' := offset.toInt_lt
  unfold i32Min at hlo
  unfold Bounded at hb
  refine ⟨?_, by omega, by omega⟩
  cases size <;> simp only [MemSize.bytes] at * <;> omega

/-- A resolved context read is aligned and inside the largest context. -/
theorem ctxRead_range {progType : ProgType} {off : Int} {n : Nat} {a : CtxAccess}
    (h : Ctx.read progType off n = .ok a) : 0 ≤ off ∧ off < 8192 ∧ off % n = 0 := by
  have hskb : ∀ b, Ctx.skbRead off n b = .ok a → 0 ≤ off ∧ off < 8192 ∧ off % n = 0 := by
    intro b hb
    unfold Ctx.skbRead Ctx.skBuffSize at hb
    split at hb
    · cases hb
    · rename_i hne
      rw [not_or, not_not, not_or, not_not] at hne
      exact ⟨hne.1.1, by omega, hne.2.2⟩
  unfold Ctx.read at h
  split at h
  · cases h
  · exact hskb true h
  · exact hskb false h
  · unfold Ctx.xdpRead Ctx.xdpMdSize at h
    split at h
    · cases h
    · rename_i hne
      rw [not_or, not_not, not_or, not_not] at hne
      exact ⟨hne.1.1, by omega, hne.2.1⟩
  · unfold Ctx.tracepointRead Ctx.perfMaxTraceSize at h
    dsimp only at h
    split at h
    · cases h
    · rename_i hne
      rw [not_or, not_not, not_or, not_not, not_not] at hne
      exact ⟨by omega, by omega, hne.2.2⟩

theorem ctx_inside {off : Int} {signExtend : Bool} {v : RegState} (h : Spans off off alignUnknown o)
    (hc : ctxRead pc st.progType (clampI32 (off + offset.toInt)) size signExtend = .ok v) :
    (o + offset.toInt) % size.bytes = 0 ∧ Ctx.read st.progType (o + offset.toInt) size.bytes = .ok .scalar := by
  have hread : Ctx.read st.progType (clampI32 (off + offset.toInt)) size.bytes = .ok .scalar := by
    unfold ctxRead at hc
    split at hc
    · assumption
    · exact (fail_ne_ok.mp hc).elim
    · exact (fail_ne_ok.mp hc).elim
    · exact (fail_ne_ok.mp hc).elim
  obtain ⟨h0, h1, hmod⟩ := ctxRead_range hread
  have h16 := offset.le_toInt
  have h16' := offset.toInt_lt
  have ho : clampI32 (off + offset.toInt) = o + offset.toInt := by
    obtain ⟨hlo, hhi, -⟩ := h
    unfold i32Min at hlo
    unfold i32Max at hhi
    unfold clampI32 at *
    omega
  rw [ho] at hread hmod
  exact ⟨hmod, hread⟩

/-- The check that an accepted access through a value has passed. -/
def AccessChecked (pc : Nat) (st : VerifierState) (base : Reg) (offset : Int16) (size : MemSize) : RegState → Prop
  | .ptrToStack lo hi al _ => checkStackAccess pc base offset lo hi al size.bytes = .ok ()
  | .ptrToMapValue lo hi al valueSize _ => mapValueAccessCheck pc base offset lo hi al valueSize = .ok ()
  | .ptrToMem lo hi _ _ _ => memAccessCheck pc base offset lo hi size.bytes = .ok ()
  | .ptrToCtx off => ∃ signExtend v, ctxRead pc st.progType (clampI32 (off + offset.toInt)) size signExtend = .ok v
  | _ => True

theorem accepts_checked (ha : Accepts pc st base offset size) : AccessChecked pc st base offset size (st.regs base) := by
  have hread : ∀ signExtend v, stackRead pc base st offset size signExtend = .ok v →
      (∀ off, st.regs base ≠ .ptrToCtx off) → AccessChecked pc st base offset size (st.regs base) := by
    intro signExtend v hv hctx
    simp only [stackRead, bind_eq_ok, readReg_eq_ok] at hv
    obtain ⟨p, ⟨hp, -⟩, hv⟩ := hv
    rw [hp] at hctx ⊢
    cases p with
    | ptrToStack | ptrToMapValue | ptrToMem =>
      simp only [bind_eq_ok] at hv
      obtain ⟨_, hc, -⟩ := hv
      exact hc
    | ptrToCtx off => exact absurd rfl (hctx off)
    | _ => exact trivial
  rcases ha with ⟨signExtend, v, hv⟩ | ⟨src, st', hv⟩ | ⟨src, op, fetch, st', hv⟩
  · unfold loadValue at hv
    split at hv
    · rename_i off hp
      rw [hp]
      exact ⟨signExtend, v, hv⟩
    · rename_i hne
      exact hread signExtend v hv hne
  · simp only [stackWrite, bind_eq_ok, readReg_eq_ok] at hv
    obtain ⟨p, ⟨hp, -⟩, hv⟩ := hv
    rw [hp]
    cases p with
    | ptrToStack | ptrToMapValue | ptrToMem =>
      simp only [bind_eq_ok] at hv
      obtain ⟨_, hc, -⟩ := hv
      exact hc
    | ptrToCtx off => exact (fail_ne_ok.mp hv).elim
    | _ => exact trivial
  · simp only [atomic, bind_eq_ok, readReg_eq_ok] at hv
    obtain ⟨p, ⟨hp, -⟩, _, -, _, -, hv⟩ := hv
    split at hv
    · simp only [atomicStack, bind_eq_ok] at hv
      obtain ⟨_, -, _, -, x, hx, -⟩ := hv
      exact hread false x hx (by rw [hp]; simp)
    · simp only [bind_eq_ok] at hv
      obtain ⟨_, hc, -⟩ := hv
      rw [hp]
      exact hc
    · exact (fail_ne_ok.mp hv).elim

/-- An accepted access through a tracked pointer is aligned and inside. -/
theorem accepts_inside (h : (st.regs base).Tracks o) (hb : Bounded (st.regs base) offset)
    (ha : Accepts pc st base offset size) : Inside st.progType (st.regs base) (o + offset.toInt) size.bytes := by
  have hc := accepts_checked ha
  cases hp : st.regs base <;> rw [hp] at h hb hc
  case ptrToStack => exact stack_inside h hc
  case ptrToMapValue => exact mapValue_inside h hb hc
  case ptrToCtx =>
    obtain ⟨_, _, hc⟩ := hc
    exact ctx_inside h hc
  all_goals trivial

end Accesses

/-- In a careful run from a base pointer the offset stays tracked, and every accepted access
    through the pointer is aligned and inside its object. -/
theorem pointer_offsets_tracked {p v : RegState} {o₀ o : Int} (hbase : BasePointer p o₀) (hsmall : o₀ < 2 ^ 31)
    (hrun : PointerRun Careful p o₀ v o) :
    v.Tracks o ∧ ∀ pc st base offset size, st.regs base = v → Bounded v offset → Accepts pc st base offset size →
      Inside st.progType v (o + offset.toInt) size.bytes := by
  have h := hrun.tracks (hbase.tracks hsmall)
  refine ⟨h, ?_⟩
  intro pc st base offset size hv hb ha
  subst hv
  exact accepts_inside h hb ha

/-- R1 a pointer to the top of the frame, R2 a scalar in [7, 14]. -/
def pointerAndScalar : VerifierState :=
  ((VerifierState.initialWith .socketFilter).setReg 1 (.ptrToStack 0 0 0 0)).setReg 2 (.scalar (.fromSigned 7 14))

theorem careful_frame : PointerRun Careful (.ptrToStack 0 0 0 0) 0 (.ptrToStack (-16) (-16) 0 0) (-16) := by
  have hstep : aluImm 0 pointerAndScalar 1 (-16) .add .w64 =
      .ok (pointerAndScalar.setReg 1 (.ptrToStack (-16) (-16) 0 0)) := rfl
  have hc : Careful (pointerAndScalar.regs 1) (.constant (-16 : Int32).toInt64) .add :=
    ⟨fun h => absurd h (by decide), fun h => absurd h (by decide)⟩
  exact .move .refl (PointerMove.imm 0 (.inl rfl) hc hstep)

theorem pointer_offsets_tracked_frame :
    (RegState.ptrToStack (-16) (-16) 0 0).Tracks (-16) ∧ ∀ pc st base offset size,
      st.regs base = .ptrToStack (-16) (-16) 0 0 → Bounded (.ptrToStack (-16) (-16) 0 0) offset →
      Accepts pc st base offset size →
      Inside st.progType (.ptrToStack (-16) (-16) 0 0) (-16 + offset.toInt) size.bytes :=
  pointer_offsets_tracked (.frame 0) (by decide) careful_frame

/-- A stack pointer of unknown residue moved by the constant -23 gets the residue 0; the store of
    eight bytes that this lets through is misaligned. -/
theorem unknown_residue_escapes : ∃ (v : RegState) (o : Int) (st : VerifierState),
    PointerRun (fun _ _ _ => True) (.ptrToStack 0 0 0 0) 0 v o ∧ ¬ v.Tracks o ∧ st.regs 1 = v ∧
      Accepts 2 st 1 0 .dw ∧ ¬ Inside st.progType v o 8 := by
  have hfirst : aluReg 0 pointerAndScalar 1 2 .add .w64 =
      .ok (pointerAndScalar.setReg 1 (.ptrToStack 7 14 alignUnknown 0)) := rfl
  have hsecond : aluImm 1 (pointerAndScalar.setReg 1 (.ptrToStack 7 14 alignUnknown 0)) 1 (-23) .add .w64 =
      .ok ((pointerAndScalar.setReg 1 (.ptrToStack 7 14 alignUnknown 0)).setReg 1 (.ptrToStack (-16) (-9) 0 0)) := rfl
  have hword : (ScalarBounds.fromSigned 7 14).Contains 8 := by decide
  refine ⟨.ptrToStack (-16) (-9) 0 0, -15,
    (pointerAndScalar.setReg 1 (.ptrToStack 7 14 alignUnknown 0)).setReg 1 (.ptrToStack (-16) (-9) 0 0), ?_, ?_, rfl,
    .inr (.inl ⟨.imm 0, _, rfl⟩), ?_⟩
  · exact .move (.move .refl (.reg 0 (.inl rfl) rfl hword trivial hfirst)) (.imm 8 (.inl rfl) trivial hsecond)
  · intro h
    exact absurd h.residue (by decide)
  · intro h
    exact absurd h.1 (by decide)

/-- R1 a pointer to the top of the frame, R2 a scalar in [0, 2^40]. -/
def pointerAndLarge : VerifierState :=
  ((VerifierState.initialWith .socketFilter).setReg 1 (.ptrToStack 0 0 0 0)).setReg 2
    (.scalar (.fromSigned 0 0x10000000000))

/-- An upper bound at the edge of `i32` moved back passes for a bound, and a constant offset of
    2^31 or more into a map value turns negative. -/
theorem lost_bound_escapes :
    (∃ (v : RegState) (o : Int), PointerRun (fun _ _ _ => True) (.ptrToStack 0 0 0 0) 0 v o ∧ ¬ v.Tracks o) ∧
    ∃ (v : RegState) (o : Int), BasePointer v o ∧ ¬ v.Tracks o := by
  have hfirst : aluReg 0 pointerAndLarge 1 2 .add .w64 =
      .ok (pointerAndLarge.setReg 1 (.ptrToStack 0 i32Max alignUnknown 0)) := rfl
  have hsecond : aluImm 1 (pointerAndLarge.setReg 1 (.ptrToStack 0 i32Max alignUnknown 0)) 1 (-8) .add .w64 =
      .ok ((pointerAndLarge.setReg 1 (.ptrToStack 0 i32Max alignUnknown 0)).setReg 1
        (.ptrToStack (-8) (i32Max - 8) 7 0)) := rfl
  have hword : (ScalarBounds.fromSigned 0 0x10000000000).Contains 0x10000000000 := by decide
  refine ⟨⟨.ptrToStack (-8) (i32Max - 8) 7 0, 0x10000000000 - 8, ?_, ?_⟩, mapValueAt (2 ^ 32 - 8) 8, (2 ^ 32 - 8 : Nat),
    .mapValue _ _ (by decide), ?_⟩
  · exact .move (.move .refl (.reg 0 (.inl rfl) rfl hword trivial hfirst)) (.imm _ (.inl rfl) trivial hsecond)
  · intro h
    exact absurd h.upper (by decide)
  · intro h
    exact absurd h.upper (by decide)

end RandVerifier
