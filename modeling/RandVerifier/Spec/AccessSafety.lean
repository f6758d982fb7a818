/-
  RandVerifier.Spec.AccessSafety — what the accepted accesses of the safety-spec verifier touch
  (`check_stack_range`, `check_map_range`, `aligned_across`, `check_arg` and `helper_call` of
  `src/spec/runner.rs`).

  An access touches a number of bytes from some offset of its pointer's interval on. The bounds
  are tested for the whole interval. The alignment is tested at the two ends only, which says
  nothing about the words between them, and for widths of 4 and 8 only. Of the buffers of a
  helper, keys, values and dynptrs are inside the frame, but a dynptr need not start at a
  slot; the buffer of `dynptr_read` is checked at a known offset only, with the length read as
  a signed number; that of `dynptr_write` and the memory of `dynptr_from_mem` are not checked.

  Proved, for every state:
  - `direct_safe_iff`, `arg_safe_iff`: when an accepted access is safe at every offset;
  - `access_safety`: the same of an accepted instruction, and the offsets on the paths of a run;
  - `between_the_ends`: an accepted program with a misaligned offset between aligned ends.
-/

import RandVerifier.Spec.Offsets

namespace RandVerifier.Spec

/-! ## What an access touches -/

/-- The bytes an access may touch: from `minLen` to `maxLen` bytes, from an offset in `[lo, hi]`
    on, in a region from `first` to `limit`. -/
structure Touch where
  first : Int
  limit : Int
  lo : Int
  hi : Int
  minLen : Nat
  maxLen : Nat
  align : Nat

namespace Touch

def Inside (t : Touch) : Prop :=
  ∀ o n i : Int, t.lo ≤ o → o ≤ t.hi → t.minLen ≤ n → n ≤ t.maxLen → 0 ≤ i → i < n → t.first ≤ o + i ∧ o + i < t.limit

def Aligned (t : Touch) : Prop := ∀ o, t.lo ≤ o → o ≤ t.hi → o % t.align = 0

/-- At every offset, every byte is in the region and the first one is on the grid. -/
def Safe (t : Touch) : Prop := t.Inside ∧ t.Aligned

/-- Bounds are tested at the ends. -/
theorem inside_of_ends {t : Touch} (h : t.first ≤ t.lo) (h' : t.hi + t.maxLen ≤ t.limit) : t.Inside := by
  intro o n i h1 h2 h3 h4 h5 h6
  omega

theorem inside_iff {t : Touch} : t.Inside ↔
    t.hi < t.lo ∨ t.maxLen < t.minLen ∨ t.maxLen = 0 ∨ t.first ≤ t.lo ∧ t.hi + t.maxLen ≤ t.limit := by
  constructor
  · intro h
    have hfirst := h t.lo t.maxLen 0
    have hlast := h t.hi t.maxLen (t.maxLen - 1)
    omega
  · intro h o n i h1 h2 h3 h4 h5 h6
    omega

theorem aligned_one {t : Touch} (h : t.align = 1) : t.Aligned := by
  intro o _ _
  rw [h]
  omega

/-- Of two neighbours one is off the grid. -/
theorem aligned_iff {t : Touch} (h : 2 ≤ t.align) :
    t.Aligned ↔ t.hi < t.lo ∨ t.lo = t.hi ∧ t.lo % t.align = 0 := by
  constructor
  · intro hall
    by_cases hempty : t.hi < t.lo
    · exact .inl hempty
    · have hlo := hall t.lo (le_refl _) (by omega)
      refine .inr ⟨?_, hlo⟩
      by_contra hne
      have hnext := hall (t.lo + 1) (by omega) (by omega)
      have hpos : (0 : Int) < t.align := by omega
      have hsmall : (1 : Int) % t.align = 1 := Int.emod_eq_of_lt (by omega) (by omega)
      rw [Int.add_emod, hlo, zero_add, Int.emod_emod_of_dvd _ (dvd_refl _), hsmall] at hnext
      omega
  · rintro (hempty | ⟨heq, hlo⟩) o h1 h2
    · omega
    · rw [show o = t.lo by omega]
      exact hlo

end Touch

/-- What an access through a pointer into a frame or a map value touches. -/
def touch (v : SpecValue) (off : Int) (minLen maxLen align : Nat) : Option Touch :=
  match v with
  | .ptrToStack lo hi => some ⟨-specStackSize, 0, lo + off, hi + off, minLen, maxLen, align⟩
  | .ptrToMapValue lo hi size => some ⟨0, size, lo + off, hi + off, minLen, maxLen, align⟩
  | _ => none

/-- A load, a store or an atomic touches its width. -/
def directTouch (s : SpecState) (base : Reg) (off : Int) (size : MemSize) : Option Touch :=
  touch (s.reg base) off size.bytes size.bytes size.bytes

/-- The lengths that the argument after a buffer allows. -/
def lengthRange (v : SpecValue) : Nat × Nat :=
  match v.asScalar with
  | some r => (r.1.toNat, r.2.toNat)
  | none => (0, 0)

/-- What a helper touches through an argument: an initialized buffer, a buffer as long as the
    next argument says, or the two slots of a dynptr. -/
def argTouch (s : SpecState) (id : Int32) (argIdx : Nat) : SpecArg → Option Touch
  | .ptrToStackInit size =>
    touch (s.reg (argReg argIdx)) 0 (initBufferSize s id argIdx size) (initBufferSize s id argIdx size) 1
  | .ptrToStack | .ptrToMapValue =>
    let len := lengthRange (s.reg (argReg (argIdx + 1)))
    touch (s.reg (argReg argIdx)) 0 len.1 len.2 1
  | .ptrToDynptr | .ptrToDynptrW => touch (s.reg (argReg argIdx)) 0 16 16 8
  | _ => none

/-- The arguments of a helper, with their positions. -/
def helperArgs (id : Int32) : List (SpecArg × Nat) :=
  match specHelper id with
  | some proto => proto.args.zipIdx
  | none => []

/-- What an instruction touches of frames and map values. -/
def touches (s : SpecState) : BpfInsn → List Touch
  | .ldMem _ base off size _ | .stMem _ base off size | .stMemImm _ base off size =>
    (directTouch s base off.toInt size).toList
  | .atomic dst _ off size _ _ => (directTouch s dst off.toInt size).toList
  | .call imm => (helperArgs imm).filterMap fun p => argTouch s imm p.2 p.1
  | _ => []

/-! ## Loads, stores and atomics -/

/-- The offsets of a pointer at which an access of a width is on the grid: it is a byte, or
    there is one offset, and a half word is at an even one. -/
def DirectFits (v : SpecValue) (off : Int) (size : MemSize) : Prop :=
  ∀ lo hi, v.offsets = some (lo, hi) → size = .b ∨ hi < lo ∨ lo = hi ∧ (size = .h → (lo + off) % 2 = 0)

section Direct

variable {pc : Nat} {lo hi off b : Int} {size : MemSize}

theorem alignedAcross_self {start align : Int} (h : alignedAcross start start align = true) : start % align = 0 := by
  unfold alignedAcross at h
  rw [if_pos rfl] at h
  exact eq_of_beq h

/-- The tests of an accepted access put every byte into the region, and the start of one at a
    known offset on the grid. -/
theorem checked_safe_iff {t : Touch} (hlo : t.lo = lo + off) (hhi : t.hi = hi + off) (hmin : t.minLen = size.bytes)
    (hmax : t.maxLen = size.bytes) (halign : t.align = size.bytes) (hfirst : -2 ^ 63 < t.first)
    (hfit : hi + off + size.bytes < 2 ^ 63) (hstart : t.first ≤ accessStart lo off)
    (hstop : accessEnd hi off size ≤ t.limit)
    (hgrid : 4 ≤ (size.bytes : Int) →
      alignedAcross (accessStart lo off) (accessEnd hi off size - size.bytes) size.bytes = true) :
    t.Safe ↔ size = .b ∨ hi < lo ∨ lo = hi ∧ (size = .h → (lo + off) % 2 = 0) := by
  have hinside : t.Inside := by
    apply Touch.inside_of_ends
    · unfold accessStart clampI64 at hstart
      omega
    · unfold accessEnd clampI64 at hstop
      omega
  rw [Touch.Safe, and_iff_right hinside]
  by_cases hb : size = .b
  · exact iff_of_true (Touch.aligned_one (by rw [halign, hb]; rfl)) (.inl hb)
  · have htwo : 2 ≤ t.align := by
      rw [halign]
      cases size with
      | b => exact absurd rfl hb
      | _ => decide
    rw [Touch.aligned_iff htwo, hlo, hhi, halign]
    constructor
    · rintro (hempty | ⟨heq, hmod⟩)
      · exact .inr (.inl (by omega))
      · refine .inr (.inr ⟨by omega, ?_⟩)
        rintro rfl
        exact hmod
    · rintro (hbyte | hempty | ⟨rfl, hhalf⟩)
      · exact absurd hbyte hb
      · exact .inl (by omega)
      · refine .inr ⟨rfl, ?_⟩
        have hclamp : accessStart lo off = lo + off := by
          unfold accessStart clampI64 at *
          omega
        have hend : accessEnd lo off size - size.bytes = accessStart lo off := by
          unfold accessEnd accessStart clampI64 at *
          omega
        cases size with
        | b => exact absurd rfl hb
        | h => exact hhalf rfl
        | w | dw =>
          have hwide := hgrid (by decide)
          rw [hend, hclamp] at hwide
          exact alignedAcross_self hwide

/-- The test that an access through a pointer into a frame or a map value passed. -/
def RangeChecked (s : SpecState) (pc : Nat) (base : Reg) (off : Int) (size : MemSize) : Prop :=
  match s.reg base with
  | .ptrToStack lo hi => checkStackRange pc (accessStart lo off) (accessEnd hi off size) size.bytes = .ok ()
  | .ptrToMapValue lo hi bound => checkMapRange pc (accessStart lo off) (accessEnd hi off size) bound size.bytes = .ok ()
  | _ => True

variable {s s' : SpecState} {base : Reg} {v : SpecValue}

theorem store_checked (h : store s pc base off size v = .ok s') : RangeChecked s pc base off size := by
  unfold store at h
  unfold RangeChecked
  split at h
  · rename_i heq
    rw [heq]
    obtain ⟨_, hst, -⟩ := bind_eq_ok.mp h
    obtain ⟨_, hrange, -⟩ := bind_eq_ok.mp hst
    exact hrange
  · rename_i heq
    rw [heq]
    obtain ⟨_, hrange, -⟩ := bind_eq_ok.mp h
    exact hrange
  · rename_i heq
    rw [heq]
    trivial
  · cases h
  · cases h

theorem load_checked {prog : ProgType} {signExtend : Bool} (h : load prog s pc base off size signExtend = .ok v) :
    RangeChecked s pc base off size := by
  unfold load at h
  unfold RangeChecked
  split at h
  · rename_i heq
    rw [heq]
    obtain ⟨_, hrange, -⟩ := bind_eq_ok.mp h
    exact hrange
  · rename_i heq
    rw [heq]
    trivial
  · rename_i heq
    rw [heq]
    obtain ⟨_, hrange, -⟩ := bind_eq_ok.mp h
    exact hrange
  · rename_i heq
    rw [heq]
    trivial
  · cases h
  · cases h
  · cases h

theorem atomic_checked {src : Reg} {op : AtomicOp} {fetch : Bool} (h : atomic s pc base src off size op fetch = .ok s') :
    RangeChecked s pc base off size := by
  obtain ⟨_, -, h⟩ := bind_eq_ok.mp h
  obtain ⟨_, -, h⟩ := bind_eq_ok.mp h
  obtain ⟨_, hacc, -⟩ := bind_eq_ok.mp h
  unfold atomicAccess at hacc
  unfold RangeChecked
  cases hreg : s.reg base with
  | ptrToStack lo hi =>
    rw [hreg] at hacc
    obtain ⟨_, hrange, -⟩ := bind_eq_ok.mp hacc
    exact hrange
  | ptrToMapValue lo hi bound =>
    rw [hreg] at hacc
    obtain ⟨_, hrange, -⟩ := bind_eq_ok.mp hacc
    exact hrange
  | _ =>
    rw [hreg] at hacc
    cases hacc

theorem checkMapRange_ok {start stop bound width : Int} {u : Unit} (h : checkMapRange pc start stop bound width = .ok u) :
    0 ≤ start ∧ stop ≤ bound ∧ (4 ≤ width → alignedAcross start (stop - width) width = true) := by
  unfold checkMapRange failure at h
  split at h
  · cases h
  · split at h
    · cases h
    · rename_i hrange halign
      refine ⟨by omega, by omega, ?_⟩
      intro hsize
      by_contra hne
      exact halign ⟨hsize, by simpa using hne⟩

/-- An accepted load, store or atomic is safe at every offset just when it fits. -/
theorem direct_safe_iff (hcheck : RangeChecked s pc base off size) (hb : (s.reg base).Bounded b)
    (hfit : b + off + 8 < 2 ^ 63) :
    (∀ t ∈ directTouch s base off size, t.Safe) ↔ DirectFits (s.reg base) off size := by
  have hsize : size.bytes ≤ 8 := by cases size <;> decide
  unfold RangeChecked at hcheck
  unfold directTouch DirectFits
  cases hv : s.reg base with
  | ptrToStack lo hi =>
    rw [hv] at hcheck hb
    have hhi := (hb lo hi rfl).2
    obtain ⟨hstart, hstop, hgrid⟩ := checkStackRange_ok hcheck
    have hfirst : (-2 ^ 63 : Int) < -specStackSize := by decide
    have hiff := checked_safe_iff (t := ⟨-specStackSize, 0, lo + off, hi + off, size.bytes, size.bytes, size.bytes⟩)
      rfl rfl rfl rfl rfl hfirst (by omega) hstart hstop hgrid
    constructor
    · intro h lo' hi' heq
      cases heq
      exact hiff.mp (h _ rfl)
    · intro h t ht
      cases ht
      exact hiff.mpr (h lo hi rfl)
  | ptrToMapValue lo hi bound =>
    rw [hv] at hcheck hb
    have hhi := (hb lo hi rfl).2
    obtain ⟨hstart, hstop, hgrid⟩ := checkMapRange_ok hcheck
    have hfirst : (-2 ^ 63 : Int) < 0 := by decide
    have hiff := checked_safe_iff (t := ⟨0, bound, lo + off, hi + off, size.bytes, size.bytes, size.bytes⟩)
      rfl rfl rfl rfl rfl hfirst (by omega) hstart hstop hgrid
    constructor
    · intro h lo' hi' heq
      cases heq
      exact hiff.mp (h _ rfl)
    · intro h t ht
      cases ht
      exact hiff.mpr (h lo hi rfl)
  | _ => exact iff_of_true (fun t ht => by cases ht) (fun lo hi heq => by cases heq)

end Direct

/-! ## The arguments of a helper -/

/-- The ends of a touched range are in the region, or nothing is touched. -/
def Touch.EndsInside (t : Touch) : Prop :=
  t.hi < t.lo ∨ t.maxLen < t.minLen ∨ t.maxLen = 0 ∨ t.first ≤ t.lo ∧ t.hi + t.maxLen ≤ t.limit

/-- The buffer of `dynptr_read` at a known offset is tested with its length as a signed
    number and a sum that wraps; other buffers with a length are not tested. -/
def BufferFits (s : SpecState) (id : Int32) (argIdx : Nat) : Prop :=
  match s.reg (argReg argIdx), (s.reg (argReg (argIdx + 1))).const? with
  | .ptrToStack lo hi, some w =>
    if id = 201 ∧ lo = hi then w = 0 ∨ 0 ≤ w.toInt64.toInt ∧ lo + w.toInt64.toInt < 2 ^ 63
    else w = 0 ∨ hi < lo ∨ -specStackSize ≤ lo ∧ hi + w.toNat ≤ 0
  | ptr, _ =>
    let len := lengthRange (s.reg (argReg (argIdx + 1)))
    ∀ t ∈ touch ptr 0 len.1 len.2 1, t.EndsInside

/-- When the range that a helper touches through an argument is safe. -/
def ArgFits (s : SpecState) (id : Int32) (argIdx : Nat) : SpecArg → Prop
  | .ptrToStack | .ptrToMapValue => BufferFits s id argIdx
  | .ptrToDynptr | .ptrToDynptrW => ∀ lo hi, (s.reg (argReg argIdx)).offsets = some (lo, hi) → lo % 8 = 0
  | _ => True

section Args

variable {pc k n : Nat} {b lo : Int} {s s' : SpecState} {id : Int32} {arg : SpecArg} {args : List SpecArg}

theorem checkArgs_ok {u : Unit} (h : checkArgs s pc id k args = .ok u) :
    ∀ p ∈ args.zipIdx k, argOk s id p.2 p.1 (s.reg (argReg p.2)) = true := by
  induction args generalizing k with
  | nil => exact nofun
  | cons expected rest ih =>
    unfold checkArgs failure at h
    split at h
    · rename_i hok
      intro p hp
      rw [List.zipIdx_cons] at hp
      rcases List.mem_cons.mp hp with rfl | hrest
      · exact hok
      · exact ih h p hrest
    · cases h

theorem dynptrSlotsOf_inside (h : (dynptrSlotsOf lo).isSome = true) : -512 ≤ lo ∧ lo + 16 ≤ 0 := by
  unfold dynptrSlotsOf at h
  simp only at h
  split at h
  · omega
  · cases h

theorem bufferInit_inside {stack : SpecStack} (h : bufferInit stack lo n = true) :
    n = 0 ∨ -specStackSize ≤ lo ∧ lo + n ≤ 0 := by
  unfold bufferInit at h
  rw [List.all_eq_true] at h
  by_cases hn : n = 0
  · exact .inl hn
  · have hfirst := h 0 (List.mem_range.mpr (by omega))
    have hlast := h (n - 1) (List.mem_range.mpr (by omega))
    simp only [decide_eq_true_eq] at hfirst hlast
    unfold specStackSize at *
    omega

theorem lengthRange_const {v : SpecValue} {w : UInt64} (h : v.const? = some w) : lengthRange v = (w.toNat, w.toNat) := by
  cases v with
  | scalar lo hi =>
    simp only [SpecValue.const?] at h
    split at h
    · rename_i heq
      cases h
      subst heq
      rfl
    · cases h
  | _ => cases h

/-- The test of `dynptr_read`. -/
theorem dynptrRead_ok {w : UInt64} (h : dynptrRead s pc = .ok s') (hreg : s.reg 1 = .ptrToStack lo lo)
    (hlen : (s.reg 2).const? = some w) :
    -specStackSize ≤ lo ∧ (Int64.ofInt (lo + w.toInt64.toInt)).toInt ≤ 0 := by
  unfold dynptrRead failure at h
  rw [hreg] at h
  simp only [if_true, hlen] at h
  split at h
  · cases h
  · omega

/-- A signed length that the test lets through is the length, or the sum wrapped. -/
theorem read_length_iff {w : UInt64} (hlo : -specStackSize ≤ lo) (hb : lo < 2 ^ 63)
    (hsum : (Int64.ofInt (lo + w.toInt64.toInt)).toInt ≤ 0) :
    (w.toNat = 0 ∨ lo + w.toNat ≤ 0) ↔ (w = 0 ∨ 0 ≤ w.toInt64.toInt ∧ lo + w.toInt64.toInt < 2 ^ 63) := by
  have hzero : w = 0 ↔ w.toNat = 0 := by
    rw [← UInt64.toNat_inj]
    rfl
  have hlt := w.toNat_lt
  have hsigned := signed_eq w
  rw [Int64.toInt_ofInt, Int.bmod_def, show ((Int64.size : Nat) : Int) = 2 ^ 64 from rfl] at hsum
  rw [hzero]
  unfold specStackSize at *
  split at hsigned <;> split at hsum <;> omega

/-- The buffer of a length that is known. -/
theorem buffer_safe_iff {w : UInt64} {hi : Int} (hreg : s.reg (argReg k) = .ptrToStack lo hi)
    (hlen : (s.reg (argReg (k + 1))).const? = some w) (hb : hi < 2 ^ 63)
    (hread : id = 201 → k = 0 ∧ dynptrRead s pc = .ok s') :
    (⟨-specStackSize, 0, lo + 0, hi + 0, w.toNat, w.toNat, 1⟩ : Touch).EndsInside ↔ BufferFits s id k := by
  have hzero : w = 0 ↔ w.toNat = 0 := by
    rw [← UInt64.toNat_inj]
    rfl
  unfold BufferFits Touch.EndsInside
  rw [hreg, hlen]
  dsimp only
  split
  · rename_i hcase
    obtain ⟨rfl, rfl⟩ := hcase
    obtain ⟨rfl, hrun⟩ := hread rfl
    obtain ⟨hlo, hsum⟩ := dynptrRead_ok hrun hreg hlen
    rw [← read_length_iff hlo hb hsum]
    omega
  · rw [hzero]
    omega

/-- The slots of a dynptr are inside the frame; nothing says that they start at a slot. -/
theorem dynptr_safe_iff {v : SpecValue} (hv : v = .ptrToStack lo lo) (hslots : (dynptrSlotsOf lo).isSome = true) :
    (∀ t ∈ touch v 0 16 16 8, t.Safe) ↔ ∀ lo hi, v.offsets = some (lo, hi) → lo % 8 = 0 := by
  subst hv
  have hin := dynptrSlotsOf_inside hslots
  have hinside : (⟨-specStackSize, 0, lo + 0, lo + 0, 16, 16, 8⟩ : Touch).Inside := by
    rw [Touch.inside_iff]
    dsimp only
    unfold specStackSize
    omega
  have height : 2 ≤ 8 := by decide
  have halign := Touch.aligned_iff (t := ⟨-specStackSize, 0, lo + 0, lo + 0, 16, 16, 8⟩) height
  constructor
  · intro h lo' hi' heq
    cases heq
    have hgrid := halign.mp (h _ rfl).2
    dsimp only at hgrid
    omega
  · intro h t ht
    cases ht
    refine ⟨hinside, halign.mpr (.inr ⟨rfl, ?_⟩)⟩
    have hgrid := h lo lo rfl
    dsimp only
    omega

/-- A range of which only the bytes matter. -/
theorem touch_safe_iff {v : SpecValue} {minLen maxLen : Nat} :
    (∀ t ∈ touch v 0 minLen maxLen 1, t.Safe) ↔ ∀ t ∈ touch v 0 minLen maxLen 1, t.EndsInside := by
  have hone : ∀ t ∈ touch v 0 minLen maxLen 1, t.align = 1 := by
    intro t ht
    cases v with
    | ptrToStack lo hi | ptrToMapValue lo hi size =>
      cases ht
      rfl
    | _ => cases ht
  constructor
  · intro h t ht
    exact Touch.inside_iff.mp (h t ht).1
  · intro h t ht
    exact ⟨Touch.inside_iff.mpr (h t ht), Touch.aligned_one (hone t ht)⟩

/-- An accepted argument is safe at every offset and length just when it fits. -/
theorem arg_safe_iff (hok : argOk s id k arg (s.reg (argReg k)) = true) (hb : (s.reg (argReg k)).Bounded b)
    (hfit : b < 2 ^ 63) (hread : id = 201 → arg = .ptrToStack → k = 0 ∧ dynptrRead s pc = .ok s') :
    (∀ t ∈ argTouch s id k arg, t.Safe) ↔ ArgFits s id k arg := by
  unfold argTouch ArgFits
  cases arg with
  | ptrToStackInit size =>
    refine iff_of_true ?_ trivial
    cases hv : s.reg (argReg k) with
    | ptrToStack lo hi =>
      rw [hv] at hok
      unfold argOk at hok
      rw [Bool.and_eq_true, decide_eq_true_eq] at hok
      obtain ⟨rfl, hinit⟩ := hok
      intro t ht
      cases ht
      refine ⟨?_, Touch.aligned_one rfl⟩
      rw [Touch.inside_iff]
      have hin := bufferInit_inside hinit
      dsimp only
      omega
    | _ =>
      rw [hv] at hok
      cases hok
  | ptrToDynptr =>
    cases hv : s.reg (argReg k) with
    | ptrToStack lo hi =>
      rw [hv] at hok
      unfold argOk at hok
      rw [Bool.and_eq_true, decide_eq_true_eq] at hok
      obtain ⟨rfl, hslots⟩ := hok
      refine dynptr_safe_iff rfl ?_
      cases hd : dynptrSlotsOf lo with
      | some p => rfl
      | none =>
        rw [hd] at hslots
        cases hslots
    | _ =>
      rw [hv] at hok
      cases hok
  | ptrToDynptrW =>
    cases hv : s.reg (argReg k) with
    | ptrToStack lo hi =>
      rw [hv] at hok
      unfold argOk at hok
      rw [Bool.and_eq_true, decide_eq_true_eq] at hok
      obtain ⟨rfl, hslots⟩ := hok
      exact dynptr_safe_iff rfl hslots
    | _ =>
      rw [hv] at hok
      cases hok
  | ptrToStack =>
    dsimp only
    rw [touch_safe_iff]
    obtain ⟨lo, hi, hv⟩ : ∃ lo hi, s.reg (argReg k) = .ptrToStack lo hi := by
      cases hv : s.reg (argReg k) with
      | ptrToStack lo hi => exact ⟨lo, hi, rfl⟩
      | _ =>
        rw [hv] at hok
        cases hok
    cases hlen : (s.reg (argReg (k + 1))).const? with
    | none =>
      unfold BufferFits
      rw [hv, hlen]
    | some w =>
      have hhi : hi < 2 ^ 63 := by
        have := hb lo hi (by rw [hv]; rfl)
        omega
      rw [lengthRange_const hlen, ← buffer_safe_iff hv hlen hhi fun hid => hread hid rfl, hv]
      constructor
      · intro h
        exact h _ rfl
      · intro h t ht
        cases ht
        exact h
  | ptrToMapValue =>
    dsimp only
    rw [touch_safe_iff]
    cases hv : s.reg (argReg k) with
    | ptrToMapValue lo hi size =>
      unfold BufferFits
      rw [hv]
    | _ =>
      rw [hv] at hok
      cases hok
  | _ => exact iff_of_true (fun t ht => by cases ht) trivial

end Args

/-! ## Runs -/

/-- When the accesses of an instruction are safe: those of a load, a store or an atomic at a
    pointer's offsets, those of a helper through its arguments. -/
def InsnFits (s : SpecState) : BpfInsn → Prop
  | .ldMem _ base off size _ | .stMem _ base off size | .stMemImm _ base off size =>
    DirectFits (s.reg base) off.toInt size
  | .atomic dst _ off size _ _ => DirectFits (s.reg dst) off.toInt size
  | .call imm => ∀ p ∈ helperArgs imm, ArgFits s imm p.2 p.1
  | _ => True

/-- A node that a run may pop or has popped within its steps. -/
def Seen (env : Env) (n : Node) : Prop :=
  ∃ k r, k ≤ SpecLimits.default.maxSteps ∧ ExploredIn env k r ∧ (n ∈ r.worklist ∨ n ∈ r.visited)

/-- The offsets that a pointer with a tracked value may have: a known one, or one that an
    accepted addition in an explored state leads to. Moves, spills and fills keep the value. -/
inductive OffsetOf (env : Env) : SpecValue → Int → Prop
  | known {v : SpecValue} {o : Int} : v.offsets = some (o, o) → OffsetOf env v o
  | add {pc pc' c c' : Nat} {s s' : SpecState} {insn : BpfInsn} {nodes : List Node} {dst : Reg} {op : AluOp} {rhs : Rhs}
      {ptr : SpecValue} {delta o : Int} : Seen env (pc, s) → env.program[pc]? = some insn →
      shape env insn = .alu64 dst op rhs .low → step env c pc s insn = .ok (nodes, c') → (pc', s') ∈ nodes →
      Adds op (s.reg dst) (rhs.get s) ptr delta → OffsetOf env ptr o → OffsetOf env (s'.reg dst) (o + delta)

section Run

variable {env : Env} {c c' pc pc' : Nat} {s s' : SpecState} {insn : BpfInsn} {nodes : List Node} {b : Int}

/-- The bound of the explored states. -/
def maxOffset : Int := reach SpecLimits.default.maxSteps

theorem Seen.bounded (hprog : OffsetsFit env.program) {n : Node} (h : Seen env n) :
    n.2.All (SpecValue.Bounded maxOffset) := by
  obtain ⟨k, r, hk, hexp, hmem⟩ := h
  have hall : n.2.All (SpecValue.Bounded (reach k)) := by
    rcases hmem with hwork | hvis
    · exact (hexp.bounded hprog).1 n hwork
    · exact (hexp.bounded hprog).2 n hvis
  refine hall.mono fun v hv lo hi heq => ?_
  have hb := hv lo hi heq
  unfold maxOffset reach bpfMaxVarOff at *
  omega

theorem helperArgs_read {p : SpecArg × Nat} (hp : p ∈ helperArgs 201) (harg : p.1 = .ptrToStack) : p.2 = 0 := by
  revert p
  decide

/-- The accesses of an accepted step are safe just when they fit. -/
theorem touches_safe_iff (hs : s.All (SpecValue.Bounded b)) (hfit : b + 2 ^ 15 + 8 < 2 ^ 63)
    (h : step env c pc s insn = .ok (nodes, c')) : (∀ t ∈ touches s insn, t.Safe) ↔ InsnFits s insn := by
  have hdirect : ∀ {base : Reg} {off : Int16} {size : MemSize}, RangeChecked s pc base off.toInt size →
      ((∀ t ∈ (directTouch s base off.toInt size).toList, t.Safe) ↔ DirectFits (s.reg base) off.toInt size) := by
    intro base off size hcheck
    have hoff := off.toInt_lt
    simp only [Option.mem_toList]
    exact direct_safe_iff hcheck (hs.1.1 base) (by omega)
  cases insn with
  | ldMem dst base off size signExtend =>
    obtain ⟨ns, hns, -⟩ := exceptMap_ok h
    obtain ⟨t, ht, -⟩ := goTo_ok hns
    obtain ⟨v, hv, -⟩ := exceptMap_ok ht
    exact hdirect (load_checked hv)
  | stMem src base off size | stMemImm imm base off size =>
    obtain ⟨ns, hns, -⟩ := exceptMap_ok h
    obtain ⟨t, ht, -⟩ := goTo_ok hns
    exact hdirect (store_checked ht)
  | atomic dst src off size op fetch =>
    obtain ⟨ns, hns, -⟩ := exceptMap_ok h
    obtain ⟨t, ht, -⟩ := goTo_ok hns
    exact hdirect (atomic_checked ht)
  | call imm =>
    obtain ⟨⟨t, k⟩, hrun, -⟩ := exceptMap_ok h
    obtain ⟨proto, s₁, s₂, s₃, hproto, hargs, hbuf, -⟩ := helperCall_ok hrun
    have hlist : helperArgs imm = proto.args.zipIdx := by
      unfold helperArgs
      rw [hproto]
    have harg : ∀ p ∈ helperArgs imm, (∀ t ∈ argTouch s imm p.2 p.1, t.Safe) ↔ ArgFits s imm p.2 p.1 := by
      intro p hp
      have hok := checkArgs_ok hargs p (hlist ▸ hp)
      have hread : imm = 201 → p.1 = .ptrToStack → p.2 = 0 ∧ dynptrRead s pc = .ok s₁ := by
        intro hid hstack
        rw [hid] at hp hbuf
        exact ⟨helperArgs_read hp hstack, hbuf⟩
      exact arg_safe_iff hok (hs.1.1 _) (by omega) hread
    show (∀ t ∈ (helperArgs imm).filterMap fun p => argTouch s imm p.2 p.1, t.Safe) ↔
      ∀ p ∈ helperArgs imm, ArgFits s imm p.2 p.1
    constructor
    · intro hall p hp
      exact (harg p hp).mp fun t ht => hall t (List.mem_filterMap.mpr ⟨p, hp, ht⟩)
    · intro hall t ht
      obtain ⟨p, hp, htouch⟩ := List.mem_filterMap.mp ht
      exact (harg p hp).mpr (hall p hp) t htouch
  | _ => exact iff_of_true (fun t ht => absurd ht List.not_mem_nil) trivial

theorem Adds.operand {op : AluOp} {d r ptr : SpecValue} {delta : Int} (h : Adds op d r ptr delta) : ptr = d ∨ ptr = r := by
  cases h with
  | add _ | sub _ => exact .inl rfl
  | swapped _ => exact .inr rfl

/-- Every offset is in the tracked interval. -/
theorem OffsetOf.tracked (hprog : OffsetsFit env.program) {v : SpecValue} {o : Int} (h : OffsetOf env v o) :
    ∃ lo hi, v.offsets = some (lo, hi) ∧ lo ≤ o ∧ o ≤ hi := by
  induction h with
  | known hv => exact ⟨_, _, hv, le_refl _, le_refl _⟩
  | @add pc pc' c c' s s' insn nodes dst op rhs ptr delta o hseen _ hshape hstep hmem hadds _ ih =>
    obtain ⟨lo, hi, hoff, hlo, hhi⟩ := ih
    have hs := hseen.bounded hprog
    have hrhs : (rhs.get s).Bounded maxOffset := by
      cases rhs with
      | imm i => exact fun lo hi heq => by cases heq
      | reg r => exact hs.1.1 r
    have hb : ptr.Bounded maxOffset := by
      rcases hadds.operand with rfl | rfl
      · exact hs.1.1 dst
      · exact hrhs
    have hdid := step_did hstep hmem
    rw [hshape] at hdid
    cases hdid with
    | alu64 halu =>
      obtain ⟨-, -, v, hval, rfl⟩ := alu64_ok halu
      have hreg : (mulHigh (s.setReg dst v) dst .low).reg dst = v := setReg_reg s dst v
      rw [hreg]
      exact alu64Value_contains hadds hval hoff hb (by decide) hlo hhi

end Run

/-- In every explored state the accesses of an accepted instruction are inside the frame or the
    map value and on the grid, at every offset of their pointers, just when they fit; and the
    offset after any accepted additions is in the tracked interval. -/
theorem access_safety (env : Env) (hprog : OffsetsFit env.program) :
    (∀ pc s insn c nodes c', Seen env (pc, s) → env.program[pc]? = some insn →
      step env c pc s insn = .ok (nodes, c') → ((∀ t ∈ touches s insn, t.Safe) ↔ InsnFits s insn)) ∧
    ∀ v o, OffsetOf env v o → ∃ lo hi, v.offsets = some (lo, hi) ∧ lo ≤ o ∧ o ≤ hi := by
  refine ⟨fun pc s insn c nodes c' hseen _ hstep => ?_, fun v o h => h.tracked hprog⟩
  exact touches_safe_iff (hseen.bounded hprog) (by decide) hstep

/-! ## A run -/

/-- A store of a double word at a random number of bytes, at most 8, above 16 bytes of the
    frame. -/
def randomStore : Env where
  program := [.call 7, .jgtImm 0 8 4, .movReg 2 10, .addImm 2 (-16), .addReg 2 0, .stMemImm 0 2 0 .dw, .movImm 0 0, .exit]
  maps := fun _ => none
  progType := .socketFilter

/-- The runner after a number of pops. -/
def runnerAfter (env : Env) : Nat → Option Runner
  | 0 => some .initial
  | k + 1 => (runnerAfter env k).bind fun r =>
    match r.worklist with
    | [] => none
    | (pc, s) :: rest => (r.visit env pc s rest).toOption

theorem runnerAfter_explored {env : Env} {k : Nat} {r : Runner} (h : runnerAfter env k = some r) : ExploredIn env k r := by
  induction k generalizing r with
  | zero =>
    obtain rfl := Option.some.inj h
    exact .start
  | succ k ih =>
    obtain ⟨prev, hprev, hvisit⟩ := Option.bind_eq_some_iff.mp h
    split at hvisit
    · cases hvisit
    · rename_i pc s rest hpop
      cases hr : prev.visit env pc s rest with
      | error e =>
        rw [hr] at hvisit
        cases hvisit
      | ok r' =>
        rw [hr] at hvisit
        obtain rfl := Option.some.inj hvisit
        exact .pop (ih hprev) hpop hr

/-- The item that is popped after a number of pops. -/
def poppedAfter (env : Env) (k : Nat) : Option Node := (runnerAfter env k).bind (·.worklist.head?)

theorem poppedAfter_seen {env : Env} {k : Nat} {n : Node} (hk : k ≤ SpecLimits.default.maxSteps)
    (h : poppedAfter env k = some n) : Seen env n := by
  obtain ⟨r, hr, hhead⟩ := Option.bind_eq_some_iff.mp h
  exact ⟨k, r, hk, runnerAfter_explored hr, .inl (List.mem_of_mem_head? hhead)⟩

/-- The state of the item that is popped after a number of pops. -/
def stateAfter (k : Nat) : SpecState := ((poppedAfter randomStore k).map (·.2)).getD .initial

/-- The items after the call, the bounded number and the copy of R10. -/
theorem randomStore_seen : Seen randomStore (3, stateAfter 3) ∧ Seen randomStore (4, stateAfter 4) ∧
    Seen randomStore (5, stateAfter 5) := by
  refine ⟨poppedAfter_seen (k := 3) (by decide) ?_, poppedAfter_seen (k := 4) (by decide) ?_,
    poppedAfter_seen (k := 5) (by decide) ?_⟩ <;> decide +kernel

theorem randomStore_steps :
    step randomStore firstRefId 3 (stateAfter 3) (.addImm 2 (-16)) = .ok ([(4, stateAfter 4)], firstRefId) ∧
    step randomStore firstRefId 4 (stateAfter 4) (.addReg 2 0) = .ok ([(5, stateAfter 5)], firstRefId) ∧
    step randomStore firstRefId 5 (stateAfter 5) (.stMemImm 0 2 0 .dw) = .ok ([(6, stateAfter 6)], firstRefId) := by
  refine ⟨ok_of_toOption ?_, ok_of_toOption ?_, ok_of_toOption ?_⟩ <;> decide +kernel

/-- One byte above the lower end. -/
theorem randomStore_offset : OffsetOf randomStore ((stateAfter 5).reg 2) (-15) := by
  have hbase : OffsetOf randomStore ((stateAfter 3).reg 2) 0 := .known (by decide)
  have hlow : OffsetOf randomStore ((stateAfter 4).reg 2) (0 + signedOf (immWord (-16))) := by
    refine .add randomStore_seen.1 rfl rfl randomStore_steps.1 (List.mem_singleton_self _) ?_ hbase
    exact .add (a := (immWord (-16), immWord (-16))) ⟨UInt64.le_refl _, UInt64.le_refl _⟩
  have hnext : OffsetOf randomStore ((stateAfter 5).reg 2) (0 + signedOf (immWord (-16)) + signedOf 1) := by
    refine .add randomStore_seen.2.1 rfl rfl randomStore_steps.2.1 (List.mem_singleton_self _) ?_ hlow
    have hreg : Rhs.get (stateAfter 4) (.reg 0) = SpecValue.ofRange (0, 8) := by decide
    rw [hreg]
    exact .add ⟨by decide, by decide⟩
  have hsum : 0 + signedOf (immWord (-16)) + signedOf 1 = -15 := by decide
  rw [hsum] at hnext
  exact hnext

theorem access_safety_random :
    ((∀ t ∈ touches (stateAfter 5) (.stMemImm 0 2 0 .dw), t.Safe) ↔ InsnFits (stateAfter 5) (.stMemImm 0 2 0 .dw)) ∧
    ∃ lo hi, ((stateAfter 5).reg 2).offsets = some (lo, hi) ∧ lo ≤ -15 ∧ -15 ≤ hi := by
  have hprog : OffsetsFit randomStore.program := by
    intro dst fd offset keySize valueSize hmem
    simp [randomStore] at hmem
  have h := access_safety randomStore hprog
  exact ⟨h.1 5 (stateAfter 5) _ _ _ _ randomStore_seen.2.2 rfl randomStore_steps.2.2, h.2 _ _ randomStore_offset⟩

/-- An accepted program stores a double word at an offset off the grid: both ends of the
    interval are on it. -/
theorem between_the_ends :
    verifySpecWith randomStore = .accept ∧ Seen randomStore (5, stateAfter 5) ∧
      OffsetOf randomStore ((stateAfter 5).reg 2) (-15) ∧
      ∃ t ∈ touches (stateAfter 5) (.stMemImm 0 2 0 .dw), t.lo ≤ -15 ∧ -15 ≤ t.hi ∧ -15 % (t.align : Int) ≠ 0 := by
  have hreg : (stateAfter 5).reg 2 = .ptrToStack (-16) (-8) := by decide
  have htouch : touches (stateAfter 5) (.stMemImm 0 2 0 .dw) = [⟨-specStackSize, 0, -16 + 0, -8 + 0, 8, 8, 8⟩] := by
    show (touch ((stateAfter 5).reg 2) _ _ _ _).toList = _
    rw [hreg]
    rfl
  refine ⟨by decide +kernel, randomStore_seen.2.2, randomStore_offset, ?_⟩
  rw [htouch]
  exact ⟨_, List.mem_singleton_self _, by decide, by decide, by decide⟩

end RandVerifier.Spec
