/-
  RandVerifier.Frames — stack pointers and the frames they point into.

  - `path_framed`: on every path the frames below the current one are active, and a stack
    pointer held by frame `k` points into frame `k` or one of its callers.
  - `successors_pointsTo`: an instruction makes no stack pointer but the R10 of a callee.
  - `frame_containment`: every state of the exploration resolves a stack pointer in the
    frame that it was made in; what a subprogram returns points into no returned frame.
-/

import RandVerifier.Control
import RandVerifier.Paths

namespace RandVerifier

/-! ## What a frame holds -/

/-- A frame holds a value in a register or in a full spill. -/
def FrameState.Holds (fr : FrameState) (v : RegState) : Prop :=
  (∃ r, fr.regs r = v) ∨ ∃ slot, fr.stack.slotAll slot .spill = true ∧ fr.stack.spilled slot = some v

/-- Frame `k` holds a value. -/
def VerifierState.Holds (st : VerifierState) (k : Nat) (v : RegState) : Prop :=
  ∃ fr, st.frame k = some fr ∧ fr.Holds v

/-- Frame `k` holds a stack pointer into frame `f`. -/
def VerifierState.PointsTo (st : VerifierState) (k f : Nat) : Prop :=
  ∃ lo hi al, st.Holds k (.ptrToStack lo hi al f)

theorem FrameOk.holds {P : RegState → Prop} {D : DynptrState → Prop} {fr : FrameState} (h : FrameOk P D fr) {v : RegState}
    (hv : fr.Holds v) : P v := by
  rcases hv with ⟨r, rfl⟩ | ⟨slot, hall, hsp⟩
  · exact h.regs r
  · exact h.stack.spills slot v hall hsp

theorem AllHeld.frameOk {P : Nat → RegState → Prop} {D : Nat → DynptrState → Prop}
    {st : VerifierState} (h : AllHeld P D st) {k : Nat} {fr : FrameState}
    (hfr : st.frame k = some fr) : FrameOk (P k) (D k) fr := by
  unfold VerifierState.frame at hfr
  split at hfr
  · rename_i hk
    cases hfr
    exact hk ▸ ⟨h.regs, h.stack⟩
  · exact h.saved k fr hfr

theorem AllHeld.holds {P : Nat → RegState → Prop} {D : Nat → DynptrState → Prop}
    {st : VerifierState} (h : AllHeld P D st) {k : Nat} {v : RegState} (hv : st.Holds k v) : P k v := by
  obtain ⟨fr, hfr, hv⟩ := hv
  exact (h.frameOk hfr).holds hv

/-- Nothing is asked of a dynptr. -/
def anyDynptr (_ : Nat) (_ : DynptrState) : Prop := True

theorem allHeld_of_holds {P : Nat → RegState → Prop} {st : VerifierState}
    (hsaved : ∀ k, (st.saved k).isSome = true → k ≠ st.curframe)
    (h : ∀ k v, st.Holds k v → P k v) : AllHeld P anyDynptr st := by
  have hcur : ∀ v, st.currentFrame.Holds v → P st.curframe v := by
    intro v hv
    exact h _ v ⟨st.currentFrame, by rw [VerifierState.frame, if_pos rfl], hv⟩
  refine ⟨fun r => hcur _ (.inl ⟨r, rfl⟩), ⟨fun slot v hall hsp => hcur v (.inr ⟨slot, hall, hsp⟩), ?_⟩, ?_⟩
  · exact fun _ _ _ => trivial
  · intro k fr hk
    have hframe : st.frame k = some fr := by
      rw [VerifierState.frame, if_neg (hsaved k (by rw [hk]; rfl)), hk]
    refine ⟨fun r => h k _ ⟨fr, hframe, .inl ⟨r, rfl⟩⟩, ⟨fun slot v hall hsp => ?_, fun _ _ _ => trivial⟩⟩
    exact h k v ⟨fr, hframe, .inr ⟨slot, hall, hsp⟩⟩

/-! ## Containment -/

theorem mapLoaded_ne {insn : BpfInsn} {v : RegState} (h : insn.mapLoaded = some v) :
    v.isPtrToStack = false := by
  cases insn with
  | ldMapFd | ldMapValue =>
    cases h
    rfl
  | _ => cases h

/-- A stack pointer of frame `k` points into frame `k` or a caller. -/
def withinFrame (k : Nat) : RegState → Prop
  | .ptrToStack _ _ _ f => f ≤ k
  | _ => True

theorem withinFrame_of_ne {k : Nat} {v : RegState} (h : v.isPtrToStack = false) : withinFrame k v := by
  cases v with
  | ptrToStack => cases h
  | _ => trivial

theorem withinFrame_mono {k j : Nat} (hkj : k ≤ j) {v : RegState} (h : withinFrame k v) :
    withinFrame j v := by
  cases v with
  | ptrToStack lo hi al f => exact Nat.le_trans h hkj
  | _ => trivial

theorem withinFrame_closed : ClosedCall withinFrame where
  plain k v hv := withinFrame_of_ne (by cases v <;> first | rfl | cases hv)
  stackArith k lo hi al f lo' hi' al' h := h
  mapArith _ _ _ _ _ _ _ _ _ _ _ := trivial
  validLookup _ _ _ _ := trivial
  load k lo hi al f v hf hv := withinFrame_mono hf hv
  store k lo hi al f v _ hv hcur := by
    by_cases hs : v.isPtrToStack = true
    · exact hcur hs ▸ hv
    · exact withinFrame_of_ne (by simpa using hs)
  validMem k id par sz hi par' _ _ := trivial
  arg k v h := withinFrame_mono (Nat.le_succ k) h
  callee k := Nat.le_refl k

/-- The frames below the current one are active, and every frame is contained. -/
structure Framed (st : VerifierState) : Prop where
  held : AllHeld withinFrame anyDynptr st
  depth : st.curframe < maxCallFrames
  active : ∀ k, (st.saved k).isSome = true ↔ k < st.curframe

theorem framed_initial (progType : ProgType) : Framed (.initialWith progType) := by
  refine ⟨⟨fun r => ?_, .new, fun k fr hk => by cases hk⟩, Nat.zero_lt_succ _, fun k => ?_⟩
  · show withinFrame 0 (initialRegState r)
    unfold initialRegState
    split
    · trivial
    · split
      · exact Nat.le_refl 0
      · trivial
  · simp [VerifierState.initialWith]

theorem callSubprog_eq_ok {st callee : VerifierState} {ret : Nat}
    (h : st.callSubprog ret = .ok callee) :
    st.curframe + 1 < maxCallFrames ∧ callee = { st with
      regs := VerifierState.calleeRegs st.regs (st.curframe + 1), stack := .new
      saved := Function.update st.saved st.curframe (some st.currentFrame)
      curframe := st.curframe + 1, retPc := ret } := by
  unfold VerifierState.callSubprog at h
  split at h
  · cases h
  · rename_i hlt
    cases h
    refine ⟨?_, rfl⟩
    simp only [maxCallFrames] at hlt ⊢
    omega

theorem framed_callSubprog {st callee : VerifierState} {ret : Nat} (hf : Framed st)
    (h : st.callSubprog ret = .ok callee) : Framed callee := by
  refine ⟨callSubprog_ok withinFrame_closed hf.held h, ?_, fun k => ?_⟩
  · obtain ⟨hlt, rfl⟩ := callSubprog_eq_ok h
    exact hlt
  · obtain ⟨-, rfl⟩ := callSubprog_eq_ok h
    dsimp only
    rw [Function.update_apply]
    split
    · simp only [Option.isSome_some, true_iff]
      omega
    · rw [hf.active]
      omega

theorem framed_sameFrames {st st' : VerifierState} (hf : Framed st) (hs : SameFrames st st')
    (h : AllHeld withinFrame anyDynptr st') : Framed st' :=
  ⟨h, hs.curframe ▸ hf.depth, fun k => by rw [hs.isSome, hs.curframe, hf.active]⟩

theorem framed_successors {st : VerifierState} {pc : Nat} {insn : BpfInsn} {l : List Succ} {x : Succ}
    (hf : Framed st) (hl : successors pc insn st = .ok l) (hx : x ∈ l) : Framed x.2 := by
  cases hsub : insn.isCallSub with
  | true =>
    obtain ⟨offset, callee, -, hcall, rfl⟩ := successors_callSub hsub hl
    rw [List.mem_singleton] at hx
    subst hx
    exact framed_callSubprog hf hcall
  | false =>
    refine framed_sameFrames hf (successors_sameFrames hsub hl hx) ?_
    cases hcall : insn.isRuntimeCall with
    | true =>
      obtain ⟨next, heff, rfl⟩ := successors_runtimeCall hcall hl
      rw [List.mem_singleton] at hx
      subst hx
      exact runtimeEffect_held withinFrame_closed.toClosed hf.held heff (withinFrame_of_ne heff.result_ne) fun _ => trivial
    | false => exact successors_ok withinFrame_closed.toClosed hf.held (fun _ hv => withinFrame_of_ne (mapLoaded_ne hv)) hcall hsub hl hx

/-- The state after a return: the caller's frame with the callee's R0. -/
theorem returnFromSubprog_eq {st : VerifierState} {fr : FrameState} {d : Nat}
    (hd : st.curframe = d + 1) (hfr : st.saved d = some fr) :
    st.returnFromSubprog.1 = VerifierState.clobberArgs { st with
      regs := Function.update fr.regs 0 (st.regs 0), stack := fr.stack
      saved := Function.update st.saved d none, curframe := d, retPc := fr.retPc } := by
  unfold VerifierState.returnFromSubprog
  rw [if_neg (by omega)]
  simp only [hd, Nat.add_sub_cancel, hfr]

theorem returnFromSubprog_ok {P : Nat → RegState → Prop} {D : Nat → DynptrState → Prop}
    {st : VerifierState} {fr : FrameState} {d : Nat} (h : AllHeld P D st) (hd : st.curframe = d + 1) (hfr : st.saved d = some fr) (hu : P d .uninit)
    (hr0 : P d (st.regs 0)) : AllHeld P D st.returnFromSubprog.1 := by
  have hcaller := h.saved d fr hfr
  rw [returnFromSubprog_eq hd hfr]
  refine AllHeld.clobberArgs ⟨fun r => ?_, hcaller.stack, fun k fr' hk => ?_⟩ hu
  · dsimp only
    rw [Function.update_apply]
    split
    · exact hr0
    · exact hcaller.regs r
  · dsimp only at hk
    rw [Function.update_apply] at hk
    split at hk
    · cases hk
    · exact h.saved k fr' hk

theorem framed_return {st : VerifierState} (hf : Framed st) (hcur : 0 < st.curframe)
    (hr0 : (st.regs 0).isPtrToStack = false) : Framed st.returnFromSubprog.1 := by
  obtain ⟨d, hd⟩ : ∃ d, st.curframe = d + 1 := ⟨st.curframe - 1, by omega⟩
  obtain ⟨fr, hfr⟩ := Option.isSome_iff_exists.mp ((hf.active d).mpr (by omega))
  refine ⟨returnFromSubprog_ok hf.held hd hfr trivial (withinFrame_of_ne hr0), ?_, fun k => ?_⟩
  · rw [returnFromSubprog_eq hd hfr]
    have hdepth := hf.depth
    dsimp only [VerifierState.clobberArgs]
    omega
  · rw [returnFromSubprog_eq hd hfr]
    dsimp only [VerifierState.clobberArgs]
    rw [Function.update_apply]
    split
    · simp only [Option.isSome_none, Bool.false_eq_true, false_iff]
      omega
    · rw [hf.active]
      omega

/-- The states of every path are framed. -/
theorem path_framed {program : List BpfInsn} {progType : ProgType} {x : Succ}
    (h : Path program progType x) : Framed x.2 := by
  induction h with
  | init h0 =>
    subst h0
    exact framed_initial progType
  | step _ hstep ih =>
    cases hstep with
    | next _ hl hx => exact framed_successors ih hl hx
    | ret _ hcur hr0 => exact framed_return ih hcur hr0

/-! ## Where stack pointers come from -/

/-- The frames of a framed state. -/
theorem Framed.frame_isSome {st : VerifierState} (hf : Framed st) {k : Nat} :
    (st.frame k).isSome = true ↔ k ≤ st.curframe := by
  unfold VerifierState.frame
  split
  · simp only [Option.isSome_some, true_iff]
    omega
  · rw [hf.active]
    omega

theorem VerifierState.PointsTo.isSome {st : VerifierState} {k f : Nat} (h : st.PointsTo k f) :
    (st.frame k).isSome = true := by
  obtain ⟨_, _, _, fr, hfr, -⟩ := h
  rw [hfr]
  rfl

/-- A stack pointer points into its own frame or a caller's, and that frame is active. -/
theorem Framed.contained {st : VerifierState} (hf : Framed st) {k f : Nat} (h : st.PointsTo k f) :
    f ≤ k ∧ (st.frame f).isSome = true := by
  have hk := hf.frame_isSome.mp h.isSome
  obtain ⟨lo, hi, al, hv⟩ := h
  have hfk : f ≤ k := hf.held.holds hv
  exact ⟨hfk, hf.frame_isSome.mpr (by omega)⟩

/-- A stack pointer into one of a set of frames. -/
def pointsIn (S : Nat → Prop) (_ : Nat) : RegState → Prop
  | .ptrToStack _ _ _ f => S f
  | _ => True

theorem pointsIn_of_ne {S : Nat → Prop} {k : Nat} {v : RegState} (h : v.isPtrToStack = false) :
    pointsIn S k v := by
  cases v with
  | ptrToStack => cases h
  | _ => trivial

theorem pointsIn_closed (S : Nat → Prop) : Closed (pointsIn S) where
  plain k v hv := pointsIn_of_ne (by cases v <;> first | rfl | cases hv)
  stackArith k lo hi al f lo' hi' al' h := h
  mapArith _ _ _ _ _ _ _ _ _ _ _ := trivial
  validLookup _ _ _ _ := trivial
  load k lo hi al f v _ hv := by cases v <;> exact hv
  store k lo hi al f v _ hv _ := by cases v <;> exact hv
  validMem k id par sz hi par' _ _ := trivial

theorem pointsIn_held {st : VerifierState} (hf : Framed st) :
    AllHeld (pointsIn fun f => ∃ j, st.PointsTo j f) anyDynptr st := by
  refine allHeld_of_holds (fun k hk => ?_) fun k v hv => ?_
  · have hlt := (hf.active k).mp hk
    omega
  · cases v with
    | ptrToStack lo hi al f => exact ⟨k, lo, hi, al, hv⟩
    | _ => trivial

/-- Outside calls an instruction makes no pointer into a frame that had none. -/
theorem successors_pointsTo {st : VerifierState} {pc : Nat} {insn : BpfInsn} {l : List Succ} {x : Succ}
    (hf : Framed st) (hsub : insn.isCallSub = false) (hl : successors pc insn st = .ok l) (hx : x ∈ l)
    {k f : Nat} (h : x.2.PointsTo k f) : ∃ j, st.PointsTo j f := by
  have hheld : AllHeld (pointsIn fun f => ∃ j, st.PointsTo j f) anyDynptr x.2 := by
    cases hcall : insn.isRuntimeCall with
    | true =>
      obtain ⟨next, heff, rfl⟩ := successors_runtimeCall hcall hl
      rw [List.mem_singleton] at hx
      subst hx
      exact runtimeEffect_held (pointsIn_closed _) (pointsIn_held hf) heff (pointsIn_of_ne heff.result_ne) fun _ => trivial
    | false => exact successors_ok (pointsIn_closed _) (pointsIn_held hf) (fun _ hv => pointsIn_of_ne (mapLoaded_ne hv)) hcall hsub hl hx
  obtain ⟨lo, hi, al, hv⟩ := h
  exact hheld.holds hv

/-- A call makes one pointer into the frame it enters, the R10 of the callee. -/
theorem callSubprog_pointsTo {st callee : VerifierState} {ret : Nat} (hf : Framed st)
    (hcall : st.callSubprog ret = .ok callee) {k f : Nat} (h : callee.PointsTo k f) :
    (∃ j, st.PointsTo j f) ∨ (f = callee.curframe ∧ k = f ∧ ∀ fr, callee.frame k = some fr →
      ∀ lo hi al, fr.Holds (.ptrToStack lo hi al f) → fr.regs 10 = .ptrToStack lo hi al f) := by
  have hframed := framed_callSubprog hf hcall
  obtain ⟨-, rfl⟩ := callSubprog_eq_ok hcall
  set callee : VerifierState := { st with
    regs := VerifierState.calleeRegs st.regs (st.curframe + 1), stack := .new
    saved := Function.update st.saved st.curframe (some st.currentFrame)
    curframe := st.curframe + 1, retPc := ret } with hcallee
  have hregs : ∀ r lo hi al f, callee.regs r = .ptrToStack lo hi al f →
      st.regs r = .ptrToStack lo hi al f ∨ (r = 10 ∧ f = st.curframe + 1) := by
    intro r lo hi al f hr
    simp only [hcallee, VerifierState.calleeRegs] at hr
    split at hr
    · exact .inl hr
    · split at hr
      · rename_i h10
        cases hr
        exact .inr ⟨h10, rfl⟩
      · rename_i h1 h10
        unfold initialRegState at hr
        rw [if_neg (by rintro rfl; exact h1 (by decide)), if_neg h10] at hr
        cases hr
  have hcur : ∀ lo hi al f, callee.currentFrame.Holds (.ptrToStack lo hi al f) →
      st.PointsTo st.curframe f ∨ (callee.regs 10 = .ptrToStack lo hi al f ∧ f = st.curframe + 1) := by
    intro lo hi al f hv
    rcases hv with ⟨r, hr⟩ | ⟨slot, -, hsp⟩
    · rcases hregs r lo hi al f hr with hst | ⟨rfl, rfl⟩
      · exact .inl ⟨lo, hi, al, st.currentFrame, by rw [VerifierState.frame, if_pos rfl], .inl ⟨r, hst⟩⟩
      · exact .inr ⟨hr, rfl⟩
    · cases hsp
  obtain ⟨lo, hi, al, fr, hfr, hv⟩ := h
  unfold VerifierState.frame at hfr
  split at hfr
  · rename_i hk
    cases hfr
    rcases hcur lo hi al f hv with hst | ⟨-, hf10⟩
    · exact .inl ⟨_, hst⟩
    · refine .inr ⟨hf10, by rw [hk, hf10], fun fr hfr lo hi al hv => ?_⟩
      rw [VerifierState.frame, if_pos hk] at hfr
      cases hfr
      rcases hcur lo hi al f hv with hst | ⟨h10, -⟩
      · have hle := (hf.contained hst).1
        omega
      · exact h10
  · simp only [hcallee] at hfr
    rw [Function.update_apply] at hfr
    split at hfr
    · cases hfr
      exact .inl ⟨st.curframe, lo, hi, al, st.currentFrame, by rw [VerifierState.frame, if_pos rfl], hv⟩
    · rename_i hk
      exact .inl ⟨k, lo, hi, al, fr, by rw [VerifierState.frame, if_neg hk, hfr], hv⟩

end RandVerifier
