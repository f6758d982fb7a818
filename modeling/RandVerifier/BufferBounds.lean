/-
  RandVerifier.BufferBounds — accesses through buffer and map value pointers against the objects
  a program acquired.

  A program acquires a buffer from `ringbuf_reserve` or `dynptr_data`, with the size it asks for,
  and the value of a map with the map pointer it loads. A buffer pointer does not carry the size:
  the register of a NULL check gets the range [0, 0], a copy the range up to size - 8, and an access
  may end 8 bytes past the range. Inside a buffer of 8 bytes or more that is in bounds; a smaller one
  is overrun, also one whose size is not a known constant.

  Proved:
  - `successors_pointers`, `objectRun_pointers`: every buffer and map pointer a state holds points
    to an object acquired before;
  - `objectRun_sized`: the size that the pointers of a buffer are made from is at most the size
    asked for;
  - `objectRun_of_pathWhere`: every path acquires objects, of any size its calls may ask for;
  - `object_bounds`: where every buffer has at least 8 bytes, every accepted access is inside the
    object; `small_buffer_escapes` stores 8 bytes into a buffer of 4.
-/

import RandVerifier.Frames
import RandVerifier.PointerOffsets

namespace RandVerifier

/-! ## Objects -/

/-- A buffer under its id and its dynptr's, with the size its pointers are made from and the size
    asked for, or the value of a map. -/
inductive Object where
  | buffer (id parentId tracked size : Nat)
  | mapValue (size : Nat)

def Object.size : Object → Nat
  | .buffer _ _ _ size => size
  | .mapValue size => size

/-- The pointers to an object. -/
inductive Object.Names : Object → RegState → Prop
  | nullable {id parentId tracked size : Nat} :
      Names (.buffer id parentId tracked size) (.ptrToMemOrNull id parentId tracked)
  /-- The register of the NULL check. -/
  | checked {id parentId tracked size : Nat} :
      Names (.buffer id parentId tracked size) (.ptrToMem 0 0 0 id 0)
  /-- Another copy, on the valid side of the check. -/
  | copy {id parentId tracked size : Nat} :
      Names (.buffer id parentId tracked size) (.ptrToMem 0 (wrapI32 (tracked - 8 : Nat)) 0 id parentId)
  | map {keySize size mapType : Nat} : Names (.mapValue size) (.ptrToMap keySize size mapType)
  | lookup {size id : Nat} : Names (.mapValue size) (.ptrToMapValueOrNull size id)
  | value {lo hi : Int} {al size id : Nat} : Names (.mapValue size) (.ptrToMapValue lo hi al size id)

theorem Object.Names.valid {o : Object} {id parentId parentId' tracked : Nat} {hi : Int}
    (h : o.Names (.ptrToMemOrNull id parentId tracked))
    (hmax : hi = wrapI32 (tracked - 8 : Nat) ∧ parentId' = parentId ∨ hi = 0 ∧ parentId' = 0) :
    o.Names (.ptrToMem 0 hi 0 id parentId') := by
  cases h
  rcases hmax with ⟨hhi, hpar⟩ | ⟨hhi, hpar⟩ <;> rw [hhi, hpar]
  · exact .copy
  · exact .checked

/-- A pointer to a buffer or a map is one to an object of the list. -/
def PointsInto (objs : List Object) (v : RegState) : Prop :=
  match v with
  | .ptrToMap .. | .ptrToMapValue .. | .ptrToMapValueOrNull .. | .ptrToMem .. | .ptrToMemOrNull .. =>
    ∃ o ∈ objs, o.Names v
  | _ => True

/-- The offsets that the bounds of a pointer allow. -/
def RegState.objectRange : RegState → Option (Int × Int)
  | .ptrToMem minOffset maxOffset _ _ _ => some (minOffset, maxOffset)
  | .ptrToMapValue minOffset maxOffset _ _ _ => some (minOffset, maxOffset)
  | _ => none

/-! ## Acquisitions -/

/-- The register with the size of the buffer that a call hands out. -/
def BpfInsn.sizeReg : BpfInsn → Option Reg
  | .call imm => if imm = 131 then some 2 else if imm = 203 then some 3 else none
  | _ => none

/-- What a size register may hold: the constant it is known to be, else anything. -/
def MayRequest (v : RegState) (n : Nat) : Prop := ∀ c, constSize v = some c → (n : Int) = c

/-- The objects an instruction acquires. -/
inductive Acquires (st next : VerifierState) : BpfInsn → List Object → Prop
  | buffer {insn : BpfInsn} {r : Reg} {n id parentId tracked : Nat} :
      insn.sizeReg = some r → MayRequest (st.regs r) n → next.regs 0 = .ptrToMemOrNull id parentId tracked →
      Acquires st next insn [.buffer id parentId tracked n]
  | mapFd {dst : Reg} {fd keySize valueSize mapType : Nat} :
      Acquires st next (.ldMapFd dst fd keySize valueSize mapType) [.mapValue valueSize]
  | mapValue {dst : Reg} {fd offset keySize valueSize : Nat} :
      Acquires st next (.ldMapValue dst fd offset keySize valueSize) [.mapValue valueSize]
  | other {insn : BpfInsn} : insn.sizeReg = none → insn.mapLoaded = none → Acquires st next insn []

/-- A path with the objects acquired on it. -/
inductive ObjectRun (program : List BpfInsn) (progType : ProgType) : List Object → Succ → Prop
  | init : ObjectRun program progType [] (0, .initialWith progType)
  | next {objs new : List Object} {pc : Nat} {st : VerifierState} {insn : BpfInsn} {l : List Succ} {x : Succ} :
      ObjectRun program progType objs (pc, st) → program[pc]? = some insn → successors pc insn st = .ok l →
      x ∈ l → Acquires st x.2 insn new → ObjectRun program progType (objs ++ new) x
  | ret {objs : List Object} {pc : Nat} {st : VerifierState} :
      ObjectRun program progType objs (pc, st) → program[pc]? = some .exit → 0 < st.curframe →
      (st.regs 0).isPtrToStack = false → ObjectRun program progType objs (st.retPc, st.returnFromSubprog.1)

theorem objectRun_path {program : List BpfInsn} {progType : ProgType} {objs : List Object} {x : Succ}
    (h : ObjectRun program progType objs x) : Path program progType x := by
  induction h with
  | init => exact .init rfl
  | next _ hpc hl hx _ ih => exact .step ih (.next hpc hl hx)
  | ret _ hpc hcur hr0 ih => exact .step ih (.ret hpc hcur hr0)

/-! ## Call results -/

section Results

variable {pc : Nat} {st st' next : VerifierState} {imm : Int32}

/-- The helpers that hand out a buffer make its pointer from the size register. -/
theorem helperCall_buffer {r : Reg} (hr : (BpfInsn.call imm).sizeReg = some r)
    (h : helperCall pc imm st = .ok st') :
    ∃ id parentId, st'.regs 0 = .ptrToMemOrNull id parentId (allocSize (st.regs r)) := by
  unfold helperCall at h
  split at h
  · exact (fail_ne_ok.mp h).elim
  · simp only [bind_eq_ok] at h
    obtain ⟨_, -, next, heff, h⟩ := h
    cases h
    simp only [BpfInsn.sizeReg] at hr
    split at hr
    · rename_i h131
      subst h131
      cases hr
      rw [lookupResult_of_ne (by decide)]
      simp only [helperEffect, show helperAcquiresRef 131 = true from rfl, if_true, bind_eq_ok] at heff
      obtain ⟨⟨id, acquired⟩, -, heff⟩ := heff
      cases heff
      exact ⟨id, 0, rfl⟩
    · split at hr
      · rename_i h203
        subst h203
        cases hr
        rw [lookupResult_of_ne (by decide)]
        simp only [helperEffect, show helperAcquiresRef 203 = false from rfl, Bool.false_eq_true, if_false,
          show isDynptrHelper 203 = true from rfl, if_true, bind_eq_ok] at heff
        obtain ⟨data, hdata, heff⟩ := heff
        cases heff
        change dynptrData pc st = .ok next at hdata
        simp only [dynptrData, bind_eq_ok] at hdata
        obtain ⟨⟨_, ds⟩, -, hdata⟩ := hdata
        cases hdata
        exact ⟨ds.id, ds.id, rfl⟩
      · cases hr

/-- The other helpers return a scalar or look up the map of R1. -/
theorem helperCall_other (hr : (BpfInsn.call imm).sizeReg = none) (h : helperCall pc imm st = .ok st') :
    (∃ b, st'.regs 0 = .scalar b) ∨ ∃ keySize valueSize mapType id,
      st.regs 1 = .ptrToMap keySize valueSize mapType ∧ st'.regs 0 = .ptrToMapValueOrNull valueSize id := by
  simp only [BpfInsn.sizeReg] at hr
  split at hr
  · cases hr
  · split at hr
    · cases hr
    · rename_i h131 h203
      unfold helperCall at h
      split at h
      · exact (fail_ne_ok.mp h).elim
      · rename_i helper hproto
        simp only [bind_eq_ok, checkHelperCall] at h
        obtain ⟨_, ⟨_, htypes, -⟩, next, heff, h⟩ := h
        cases h
        by_cases h1 : imm = 1
        · subst h1
          rw [checkHelperTypes, if_pos (.inl rfl)] at htypes
          obtain ⟨keySize, valueSize, mapType, hmap⟩ := checkMapHelperArgs_map htypes
          refine .inr ⟨keySize, valueSize, mapType, pc + 1, hmap, ?_⟩
          simp only [lookupResult, hmap, if_true, setReg_self]
        · obtain ⟨b, hb⟩ : ∃ b, helper.returnType = .scalar b := by
            rcases helperPrototype_returns hproto with hb | hb | hb | hb
            · exact hb
            · exact absurd hb h1
            · exact absurd (beq_iff_eq.mp hb) h131
            · exact absurd hb h203
          refine .inl ⟨b, ?_⟩
          rw [lookupResult_of_ne h1]
          have hnext : ∃ base : VerifierState, next = base.setReg 0 (.scalar b) := by
            simp only [helperEffect, helperAcquiresRef, beq_iff_eq, h131, if_false, h203, hb] at heff
            split at heff
            · simp only [bind_eq_ok] at heff
              obtain ⟨base, -, heff⟩ := heff
              cases heff
              exact ⟨base, rfl⟩
            · split at heff
              · split at heff
                · exact (fail_ne_ok.mp heff).elim
                · simp only [bind_eq_ok] at heff
                  obtain ⟨base, -, heff⟩ := heff
                  cases heff
                  exact ⟨base, rfl⟩
              · cases heff
                exact ⟨st, rfl⟩
          obtain ⟨base, rfl⟩ := hnext
          rfl

theorem kfuncCall_result {btfId : Int32} (h : kfuncCall pc btfId st = .ok st') :
    (∃ b, st'.regs 0 = .scalar b) ∨ ∃ t id, st'.regs 0 = .ptrToBtfId t id := by
  unfold kfuncCall at h
  split at h
  · exact (fail_ne_ok.mp h).elim
  · rename_i proto hproto
    simp only [bind_eq_ok] at h
    obtain ⟨_, -, next, heff, h⟩ := h
    cases h
    simp only [kfuncEffect] at heff
    split at heff
    · simp only [bind_eq_ok] at heff
      obtain ⟨⟨id, acquired⟩, -, heff⟩ := heff
      cases heff
      exact .inr ⟨_, _, rfl⟩
    · rename_i hacq
      obtain ⟨b, hb⟩ : ∃ b, proto.returnType = .scalar b := by
        rcases kfuncPrototype_returns hproto with hb | hb
        · exact hb
        · exact absurd hb hacq
      rw [hb] at heff
      refine .inl ⟨b, ?_⟩
      split at heff
      · split at heff
        · exact (fail_ne_ok.mp heff).elim
        · simp only [bind_eq_ok] at heff
          obtain ⟨base, -, heff⟩ := heff
          cases heff
          rfl
      · cases heff
        rfl

end Results

/-! ## Held pointers -/

section Pointers

variable {objs objs' new : List Object}

theorem pointsInto_of_plain {v : RegState} (h : v.isPlain = true) : PointsInto objs v := by
  cases v with
  | ptrToMap | ptrToMapValue | ptrToMapValueOrNull | ptrToMem | ptrToMemOrNull => cases h
  | _ => trivial

theorem pointsInto_stack {lo hi : Int} {al f : Nat} : PointsInto objs (.ptrToStack lo hi al f) := trivial

theorem pointsInto_mono {v : RegState} (h : PointsInto objs v) (hsub : ∀ o ∈ objs, o ∈ objs') :
    PointsInto objs' v := by
  cases v with
  | ptrToMap | ptrToMapValue | ptrToMapValueOrNull | ptrToMem | ptrToMemOrNull =>
    obtain ⟨o, ho, hnames⟩ := h
    exact ⟨o, hsub o ho, hnames⟩
  | _ => trivial

theorem pointsInto_closed : ClosedCall fun _ => PointsInto objs where
  plain _ _ h := pointsInto_of_plain h
  stackArith _ _ _ _ _ _ _ _ _ := pointsInto_stack
  mapArith _ _ _ _ _ _ _ _ _ _ h := by
    obtain ⟨o, ho, hnames⟩ := h
    cases hnames
    exact ⟨_, ho, .value⟩
  validLookup _ _ _ h := by
    obtain ⟨o, ho, hnames⟩ := h
    cases hnames
    exact ⟨_, ho, .value⟩
  load _ _ _ _ _ _ _ h := h
  store _ _ _ _ _ _ _ h _ := h
  validMem _ _ _ _ _ _ h hmax := by
    obtain ⟨o, ho, hnames⟩ := h
    exact ⟨o, ho, hnames.valid hmax⟩
  arg _ _ h := h
  callee k := @pointsInto_stack objs 0 0 0 k

/-- Every buffer and map pointer of a state points to an object of the list. -/
def PointersNamed (objs : List Object) (st : VerifierState) : Prop :=
  AllHeld (fun _ => PointsInto objs) anyDynptr st

theorem pointersNamed_initial (progType : ProgType) : PointersNamed [] (.initialWith progType) := by
  refine ⟨fun r => ?_, .new, nofun⟩
  change PointsInto [] (initialRegState r)
  unfold initialRegState
  split
  · trivial
  · split <;> trivial

/-- One instruction: what its successors hold points to an object known before or acquired by it. -/
theorem successors_pointers {pc : Nat} {st : VerifierState} {insn : BpfInsn} {l : List Succ} {x : Succ}
    (h : PointersNamed objs st) (hl : successors pc insn st = .ok l) (hx : x ∈ l)
    (hacq : Acquires st x.2 insn new) : PointersNamed (objs ++ new) x.2 := by
  have hst : PointersNamed (objs ++ new) st :=
    h.imp (fun _ _ hv => pointsInto_mono hv fun _ ho => List.mem_append_left _ ho) fun _ _ hd => hd
  cases hsub : insn.isCallSub with
  | true =>
    obtain ⟨offset, callee, -, hcall, rfl⟩ := successors_callSub hsub hl
    rw [List.mem_singleton] at hx
    subst hx
    exact callSubprog_ok pointsInto_closed hst hcall
  | false =>
    cases hcall : insn.isRuntimeCall with
    | false =>
      refine successors_ok pointsInto_closed.toClosed hst (fun v hv => ?_) hcall hsub hl hx
      have hnew : ∀ o ∈ new, o ∈ objs ++ new := fun o ho => List.mem_append_right _ ho
      cases hacq with
      | buffer hr => cases insn <;> first | cases hr | cases hcall
      | mapFd =>
        cases hv
        exact ⟨_, hnew _ (List.mem_singleton.mpr rfl), .map⟩
      | mapValue =>
        cases hv
        exact ⟨_, hnew _ (List.mem_singleton.mpr rfl), .value⟩
      | other _ hload =>
        rw [hload] at hv
        cases hv
    | true =>
      obtain ⟨next, heff, rfl⟩ := successors_runtimeCall hcall hl
      rw [List.mem_singleton] at hx
      subst hx
      refine runtimeEffect_held pointsInto_closed.toClosed hst heff ?_ fun _ => trivial
      have hr0 : next.clobberArgs.regs 0 = next.regs 0 := rfl
      cases hacq with
      | buffer _ _ hnull =>
        rw [← hr0, hnull]
        exact ⟨_, List.mem_append_right _ (List.mem_singleton.mpr rfl), .nullable⟩
      | mapFd | mapValue => cases hcall
      | other hsize =>
        rw [← hr0]
        cases insn with
        | call imm =>
          simp only [successors, step, bind_eq_ok] at hl
          obtain ⟨_, hs, hl⟩ := hl
          cases hl
          rcases helperCall_other hsize hs with ⟨b, hb⟩ | ⟨keySize, valueSize, mapType, id, hmap, hres⟩
          · rw [hb]
            trivial
          · rw [hres]
            have hv := hst.regs 1
            rw [hmap] at hv
            obtain ⟨o, ho, hnames⟩ := hv
            cases hnames
            exact ⟨_, ho, .lookup⟩
        | callKfunc btfId =>
          simp only [successors, step, bind_eq_ok] at hl
          obtain ⟨_, hs, hl⟩ := hl
          cases hl
          rcases kfuncCall_result hs with ⟨b, hb⟩ | ⟨t, id, hb⟩ <;> rw [hb] <;> trivial
        | _ => cases hcall

theorem return_pointers {st : VerifierState} (hf : Framed st) (hcur : 0 < st.curframe)
    (h : PointersNamed objs st) : PointersNamed objs st.returnFromSubprog.1 := by
  obtain ⟨d, hd⟩ : ∃ d, st.curframe = d + 1 := ⟨st.curframe - 1, by omega⟩
  obtain ⟨fr, hfr⟩ := Option.isSome_iff_exists.mp ((hf.active d).mpr (by omega))
  exact returnFromSubprog_ok h hd hfr trivial (h.regs 0)

variable {program : List BpfInsn} {progType : ProgType} {x : Succ}

theorem objectRun_pointers (h : ObjectRun program progType objs x) : PointersNamed objs x.2 := by
  induction h with
  | init => exact pointersNamed_initial progType
  | next _ _ hl hx hacq ih => exact successors_pointers ih hl hx hacq
  | ret hrun _ hcur _ ih => exact return_pointers (path_framed (objectRun_path hrun)) hcur ih

end Pointers

/-! ## Sizes -/

section Sizes

variable {objs new : List Object} {program : List BpfInsn} {progType : ProgType} {x : Succ}

theorem allocSize_le {v : RegState} {n : Nat} (h : MayRequest v n) : allocSize v ≤ n := by
  unfold allocSize
  split
  · rename_i c hc
    have hn := h c hc
    omega
  · exact Nat.zero_le _

/-- The tracked size of a new buffer is at most the one asked for. -/
theorem acquires_sized {pc : Nat} {st : VerifierState} {insn : BpfInsn} {l : List Succ}
    (hl : successors pc insn st = .ok l) (hx : x ∈ l) (hacq : Acquires st x.2 insn new) :
    ∀ id parentId tracked n, Object.buffer id parentId tracked n ∈ new → tracked ≤ n := by
  intro id parentId tracked n hmem
  cases hacq with
  | buffer hr hreq hres =>
    cases List.mem_singleton.mp hmem
    cases insn with
    | call imm =>
      simp only [successors, step, bind_eq_ok] at hl
      obtain ⟨st', hs, hl⟩ := hl
      cases hl
      rw [List.mem_singleton] at hx
      subst hx
      obtain ⟨_, _, hbuf⟩ := helperCall_buffer hr hs
      rw [hbuf] at hres
      cases hres
      exact allocSize_le hreq
    | _ => cases hr
  | mapFd | mapValue => cases List.mem_singleton.mp hmem
  | other => cases hmem

theorem objectRun_sized (h : ObjectRun program progType objs x) :
    ∀ id parentId tracked n, Object.buffer id parentId tracked n ∈ objs → tracked ≤ n := by
  induction h with
  | init => exact nofun
  | next _ _ hl hx hacq ih =>
    intro id parentId tracked n hmem
    rcases List.mem_append.mp hmem with hmem | hmem
    · exact ih id parentId tracked n hmem
    · exact acquires_sized hl hx hacq id parentId tracked n hmem
  | ret _ _ _ _ ih => exact ih

end Sizes

/-! ## Paths acquire objects -/

section Paths

variable {program : List BpfInsn} {progType : ProgType} {Q : Succ → Prop} {P : Nat → Prop}

/-- A path acquires buffers of any sizes that its calls may ask for. -/
theorem objectRun_of_pathWhere
    (hQ : ∀ pc st insn r, Q (pc, st) → program[pc]? = some insn → insn.sizeReg = some r →
      ∃ n, P n ∧ MayRequest (st.regs r) n) {x : Succ} (h : PathWhere Q program progType x) :
    ∃ objs, ObjectRun program progType objs x ∧
      ∀ id parentId tracked n, Object.buffer id parentId tracked n ∈ objs → P n := by
  induction h with
  | init h0 =>
    subst h0
    exact ⟨[], .init, nofun⟩
  | @step _ t _ hst ih =>
    obtain ⟨objs, hrun, hsizes⟩ := ih
    cases hst.1 with
    | @next pc st insn l _ hpc hl hx =>
      have hnew : ∃ new, Acquires st t.2 insn new ∧
          ∀ id parentId tracked n, Object.buffer id parentId tracked n ∈ new → P n := by
        cases hr : insn.sizeReg with
        | some r =>
          obtain ⟨n, hn, hreq⟩ := hQ pc st insn r hst.2 hpc hr
          cases insn with
          | call imm =>
            simp only [successors, step, bind_eq_ok] at hl
            obtain ⟨st', hs, hl⟩ := hl
            cases hl
            rw [List.mem_singleton] at hx
            subst hx
            obtain ⟨id, parentId, hbuf⟩ := helperCall_buffer hr hs
            refine ⟨_, .buffer hr hreq hbuf, fun _ _ _ m hm => ?_⟩
            cases List.mem_singleton.mp hm
            exact hn
          | _ => cases hr
        | none =>
          cases insn with
          | ldMapFd => exact ⟨_, .mapFd, fun _ _ _ _ hm => by cases List.mem_singleton.mp hm⟩
          | ldMapValue => exact ⟨_, .mapValue, fun _ _ _ _ hm => by cases List.mem_singleton.mp hm⟩
          | _ => exact ⟨[], .other hr rfl, nofun⟩
      obtain ⟨new, hacq, hnew⟩ := hnew
      refine ⟨objs ++ new, hrun.next hpc hl hx hacq, fun id parentId tracked n hm => ?_⟩
      rcases List.mem_append.mp hm with hm | hm
      · exact hsizes id parentId tracked n hm
      · exact hnew id parentId tracked n hm
    | ret hpc hcur hr0 => exact ⟨objs, hrun.ret hpc hcur hr0, hsizes⟩

/-- A size that a register may ask for. -/
theorem exists_request (v : RegState) : ∃ n, MayRequest v n := by
  unfold MayRequest
  cases hc : constSize v with
  | none => exact ⟨0, nofun⟩
  | some c =>
    have h0 : 0 ≤ c := by
      unfold constSize at hc
      split at hc
      · split at hc
        · rename_i h
          cases hc
          exact Int64.le_iff_toInt_le.mp h.2
        · cases hc
      · cases hc
    exact ⟨c.toNat, fun d hd => by cases hd; omega⟩

/-- Every call that hands out a buffer asks for `n` bytes. -/
def requests (program : List BpfInsn) (n : Nat) (x : Succ) : Bool :=
  (program[x.1]?.bind BpfInsn.sizeReg).all fun r => constSize (x.2.regs r) == some (n : Int)

theorem objectRun_of_requests {env : MiniEnv} {s : MiniState} {n : Nat}
    (h : MiniReachWhere env (fun x => requests env.program n x = true) s) {item : WorkItem} (hi : item ∈ s.worklist) :
    ∃ objs, ObjectRun env.program env.limits.progType objs (item.pc, item.state) ∧
      ∀ id parentId tracked size, Object.buffer id parentId tracked size ∈ objs → size = n := by
  refine objectRun_of_pathWhere (P := (· = n)) (fun pc st insn r hq hpc hr => ⟨n, rfl, fun c hc => ?_⟩)
    (mini_pathWhere h item hi)
  simp only [requests, hpc, Option.bind_some, hr, Option.all_some, hc, beq_iff_eq, Option.some.injEq] at hq
  exact hq.symm

end Paths

/-! ## Accesses -/

/-- Every byte of an access, at every offset of an interval, is one of the first `n`. -/
def InBounds (lo hi : Int) (offset : Int16) (size : MemSize) (n : Nat) : Prop :=
  ∀ b, lo ≤ b → b ≤ hi → 0 ≤ b + offset.toInt ∧ b + offset.toInt + size.bytes ≤ n

/-- The object has room for the access that the range of a checked buffer pointer permits. -/
def Object.Roomy : Object → Prop
  | .buffer _ _ _ size => 8 ≤ size
  | .mapValue _ => True

section Accesses

variable {pc : Nat} {st : VerifierState} {base : Reg} {lo hi : Int} {o : Object}

theorem memAccessCheck_ok {offset : Int16} {n : Nat} {u : Unit} (h : memAccessCheck pc base offset lo hi n = .ok u) :
    0 ≤ lo + offset.toInt ∧ offset.toInt + n ≤ 8 := by
  simp only [memAccessCheck, bind_eq_ok, failIf_eq_ok, not_or, not_lt] at h
  omega

/-- The range of a pointer to a buffer is within `tracked - 8`, or empty. -/
theorem Object.Names.range_le {id parentId tracked size bufId bufParent : Nat} {al : Nat}
    (h : (Object.buffer id parentId tracked size).Names (.ptrToMem lo hi al bufId bufParent)) :
    lo = 0 ∧ (hi = 0 ∨ hi < 0 ∧ 8 ≤ tracked ∨ hi + 8 ≤ tracked ∧ 0 ≤ hi) := by
  cases h
  · exact ⟨rfl, .inl rfl⟩
  · unfold wrapI32
    rw [Int.bmod_def]
    refine ⟨rfl, ?_⟩
    split <;> omega

/-- An accepted access through a pointer to a roomy object is in bounds. -/
theorem object_inBounds {offset : Int16} {size : MemSize} (ho : o.Names (st.regs base))
    (hr : (st.regs base).objectRange = some (lo, hi))
    (hsized : ∀ id parentId tracked n, o = .buffer id parentId tracked n → tracked ≤ n) (hroom : o.Roomy)
    (ha : Accepts pc st base offset size) : InBounds lo hi offset size o.size := by
  have hc := accepts_checked ha
  intro b hlo hhi
  cases hp : st.regs base <;> rw [hp] at hr ho hc <;> cases hr
  case ptrToMapValue =>
    obtain ⟨-, -, hmin, hmax⟩ := mapValueAccessCheck_ok hc
    have hsize := size.bytes_le
    cases ho
    simp only [Object.size]
    omega
  case ptrToMem =>
    obtain ⟨hmin, hmax⟩ := memAccessCheck_ok hc
    cases o with
    | mapValue => cases ho
    | buffer id parentId tracked n =>
      have hle := hsized id parentId tracked n rfl
      have hrange := ho.range_le
      simp only [Object.size]
      simp only [Object.Roomy] at hroom
      omega

/-- The first 8 bytes of a checked buffer can be loaded. -/
theorem accepts_first {al id parentId : Nat} (hp : st.regs base = .ptrToMem 0 hi al id parentId) :
    Accepts pc st base 0 .dw := by
  refine .inl ⟨false, .scalar .unknown, ?_⟩
  have hcheck : memAccessCheck pc base 0 0 hi 8 = .ok () := by
    simp [memAccessCheck, failIf, bind, Except.bind]
  unfold loadValue
  split
  · rename_i off hctx
    rw [hp] at hctx
    cases hctx
  · simp only [stackRead, readReg, hp, MemSize.bytes, hcheck, bind, Except.bind]

/-- A pointer to a buffer reaches past the end of one that is not roomy. -/
theorem roomy_of_inBounds (ho : o.Names (st.regs base)) (hr : (st.regs base).objectRange = some (lo, hi))
    (hsized : ∀ id parentId tracked n, o = .buffer id parentId tracked n → tracked ≤ n)
    (h : ∀ offset size, Accepts pc st base offset size → InBounds lo hi offset size o.size) : o.Roomy := by
  cases o with
  | mapValue => trivial
  | buffer id parentId tracked n =>
    have hle := hsized id parentId tracked n rfl
    cases hp : st.regs base <;> rw [hp] at hr ho <;> cases hr
    · cases ho
    · obtain ⟨rfl, hrange⟩ := ho.range_le
      simp only [Object.Roomy]
      rcases hrange with hrange | hrange | hrange
      · have hfirst := h 0 .dw (accepts_first hp) 0 (le_refl 0) hrange.ge
        simp only [Object.size, MemSize.bytes, Int16.toInt_zero] at hfirst
        omega
      · omega
      · omega

end Accesses

/-- Every path acquires objects, and every buffer or map value pointer a state holds is one to an
    object acquired on the path; the accepted accesses through it are in bounds exactly if the
    object has room for 8 bytes or is the value of a map. -/
theorem object_bounds {env : MiniEnv} :
    (∀ s, MiniReach env s → ∀ item ∈ s.worklist,
      ∃ objs, ObjectRun env.program env.limits.progType objs (item.pc, item.state)) ∧
    ∀ objs x, ObjectRun env.program env.limits.progType objs x →
      ∀ base lo hi, (x.2.regs base).objectRange = some (lo, hi) →
        (∃ o ∈ objs, o.Names (x.2.regs base)) ∧
        ∀ o ∈ objs, o.Names (x.2.regs base) →
          ((∀ offset size, Accepts x.1 x.2 base offset size → InBounds lo hi offset size o.size) ↔ o.Roomy) := by
  refine ⟨fun s hs item hi => ?_, fun objs x hrun base lo hi hr => ⟨?_, fun o ho hnames => ?_⟩⟩
  · have hreach : MiniReachWhere env (fun _ => True) s :=
      hs.mono (fun _ h0 => h0) fun _ _ hst => ⟨hst, fun _ _ => trivial⟩
    obtain ⟨objs, hrun, -⟩ := objectRun_of_pathWhere (P := fun _ => True)
      (fun _ st _ r _ _ _ => (exists_request (st.regs r)).imp fun _ h => ⟨trivial, h⟩)
      (mini_pathWhere hreach item hi)
    exact ⟨objs, hrun⟩
  · have hheld := (objectRun_pointers hrun).regs base
    cases hp : x.2.regs base <;> rw [hp] at hr hheld <;> cases hr
    · exact hheld
    · exact hheld
  · have hsized : ∀ id parentId tracked n, o = .buffer id parentId tracked n → tracked ≤ n := by
      intro id parentId tracked n heq
      exact objectRun_sized hrun id parentId tracked n (heq ▸ ho)
    exact ⟨roomy_of_inBounds hnames hr hsized, fun hroom _ _ ha => object_inBounds hnames hr hsized hroom ha⟩

/-- Reserve a buffer and write to a copy of its pointer. -/
def reserveBuffer (size : Int32) : List BpfInsn :=
  [.ldMapFd 1 0 0 0 1, .movImm 2 size, .movImm 3 0, .call 131, .movReg 6 0, .jeqImm 0 0 1,
   .stMemImm 0 6 0 .dw, .exit]

/-- At the write of an exploration of `reserveBuffer`, `r6` is the copy. -/
theorem reserveBuffer_run {size : Int32} {n : Nat} {hi : Int}
    (hrun : ((itemWhere (requests (reserveBuffer size) n) (reserveBuffer size) 7).any fun x =>
      x.1.program == reserveBuffer size && x.2.2.state.regs 6 == .ptrToMem 0 hi 0 (refIdBase + 1) 0) = true) :
    ∃ (env : MiniEnv) (s : MiniState) (item : WorkItem) (objs : List Object),
      miniEnv (reserveBuffer size) [] .default = .ok env ∧ MiniReach env s ∧ item ∈ s.worklist ∧
      ObjectRun env.program env.limits.progType objs (item.pc, item.state) ∧
      item.state.regs 6 = .ptrToMem 0 hi 0 (refIdBase + 1) 0 ∧
      ∀ id parentId tracked size, Object.buffer id parentId tracked size ∈ objs → size = n := by
  obtain ⟨⟨env, s, item⟩, hx, hcheck⟩ := (Option.any_eq_true _ _).mp hrun
  obtain ⟨henv, hreach, hitem⟩ := itemWhere_eq_some hx
  simp only [Bool.and_eq_true, beq_iff_eq] at hcheck
  obtain ⟨hprog, hr6⟩ := hcheck
  rw [← hprog] at hreach
  obtain ⟨objs, hobjs, hsizes⟩ := objectRun_of_requests hreach hitem
  exact ⟨env, s, item, objs, henv, hreach.mono (fun _ h0 => h0) fun _ _ hst => hst.1, hitem, hobjs, hr6, hsizes⟩

theorem object_bounds_reserve :
    ∃ (env : MiniEnv) (s : MiniState) (item : WorkItem) (objs : List Object) (o : Object),
      miniEnv (reserveBuffer 16) [] .default = .ok env ∧ MiniReach env s ∧ item ∈ s.worklist ∧
      ObjectRun env.program env.limits.progType objs (item.pc, item.state) ∧
      o ∈ objs ∧ o.Names (item.state.regs 6) ∧ o.size = 16 ∧
      ∀ offset size, Accepts item.pc item.state 6 offset size → InBounds 0 8 offset size 16 := by
  obtain ⟨env, s, item, objs, henv, hreach, hitem, hrun, hr6, hsizes⟩ :=
    @reserveBuffer_run 16 16 8 (by decide +kernel)
  have hrange : (item.state.regs 6).objectRange = some (0, 8) := by rw [hr6]; rfl
  obtain ⟨⟨o, ho, hnames⟩, hbounds⟩ := (@object_bounds env).2 objs (item.pc, item.state) hrun 6 0 8 hrange
  cases o with
  | mapValue =>
    rw [hr6] at hnames
    cases hnames
  | buffer id parentId tracked n =>
    obtain rfl := hsizes _ _ _ _ ho
    exact ⟨env, s, item, objs, _, henv, hreach, hitem, hrun, ho, hnames, rfl,
      (hbounds _ ho hnames).mpr (by simp [Object.Roomy])⟩

/-- A buffer of 4 bytes takes a store of 8. -/
theorem small_buffer_escapes :
    ∃ (env : MiniEnv) (s : MiniState) (item : WorkItem) (objs : List Object) (o : Object),
      miniEnv (reserveBuffer 4) [] .default = .ok env ∧ MiniReach env s ∧ item ∈ s.worklist ∧
      ObjectRun env.program env.limits.progType objs (item.pc, item.state) ∧
      o ∈ objs ∧ o.Names (item.state.regs 6) ∧ (item.state.regs 6).objectRange = some (0, 0) ∧
      Accepts item.pc item.state 6 0 .dw ∧ ¬ InBounds 0 0 0 .dw o.size := by
  obtain ⟨env, s, item, objs, henv, hreach, hitem, hrun, hr6, hsizes⟩ :=
    @reserveBuffer_run 4 4 0 (by decide +kernel)
  obtain ⟨o, ho, hnames⟩ : PointsInto objs (.ptrToMem 0 0 0 (refIdBase + 1) 0) :=
    hr6 ▸ (objectRun_pointers hrun).regs 6
  cases o with
  | mapValue => cases hnames
  | buffer id parentId tracked n =>
    obtain rfl := hsizes _ _ _ _ ho
    refine ⟨env, s, item, objs, _, henv, hreach, hitem, hrun, ho, hr6 ▸ hnames, by rw [hr6]; rfl,
      accepts_first hr6, fun h => ?_⟩
    have hfirst := (h 0 (le_refl 0) (le_refl 0)).2
    simp [Object.size, MemSize.bytes] at hfirst

end RandVerifier
