/-
  RandVerifier.Spec.CallFrames — whose stack a stack pointer of the safety-spec verifier reaches.

  A stack pointer does not say to which frame it belongs, and every access goes to the
  stack of the current frame. `ownerStep` follows a pointer from the frame that made it
  through moves, spills, fills, calls and returns. Proved, over every path:
  - `owned_related`: the owner of a pointer is the frame that holds it or one of its
    callers; on a path whose calls pass no stack pointer it is the frame that holds it.
  - `call_frames`: on a path whose accesses all go through pointers of the current frame,
    every access acts on the frame that owns its pointer; an access through a pointer of
    a caller, on any path, leaves the caller's stack alone; and every return restores
    R6..R9, R10 and the stack of the caller and goes on after the call.
  `callee_store_hits_callee` stores through a pointer of the caller into the callee.
-/

import RandVerifier.Spec.Cells
import RandVerifier.Spec.Paths

namespace RandVerifier.Spec

/-! ## The saved frames as a stack -/

/-- The callers, innermost first. -/
def callers (saved : Fin 7 → Option SpecFrame) : List SpecFrame := ((List.finRange 7).filterMap saved).reverse

/-- No free slot lies below a slot in use. -/
def Packed (saved : Fin 7 → Option SpecFrame) : Prop :=
  ∀ i j : Fin 7, i < j → (saved j).isSome = true → (saved i).isSome = true

section Saved

variable {saved saved' : Fin 7 → Option SpecFrame} {frame : SpecFrame}

/-- A slot that a list does not name does not matter to it. -/
theorem filterMap_update {l : List (Fin 7)} {i : Fin 7} {v : Option SpecFrame} (h : i ∉ l) :
    l.filterMap (Function.update saved i v) = l.filterMap saved := by
  induction l with
  | nil => rfl
  | cons a rest ih =>
    obtain ⟨hne, hrest⟩ := not_or.mp (List.mem_cons.not.mp h)
    rw [List.filterMap_cons, List.filterMap_cons, Function.update_of_ne (Ne.symm hne), ih hrest]

theorem filterMap_none {l : List (Fin 7)} (h : ∀ a ∈ l, saved a = none) : l.filterMap saved = [] := by
  rw [List.filterMap_eq_nil_iff]
  exact h

/-- A pop takes the innermost caller. -/
theorem popFrame_callers (h : popFrame saved = some (frame, saved')) :
    callers saved = frame :: callers saved' ∧ (Packed saved → Packed saved') := by
  unfold popFrame at h
  obtain ⟨i, hfind, hmap⟩ := Option.bind_eq_some_iff.mp h
  obtain ⟨f, hf, heq⟩ := Option.map_eq_some_iff.mp hmap
  obtain ⟨rfl, rfl⟩ := Prod.mk.inj heq
  obtain ⟨-, as, bs, hl, has⟩ := List.find?_eq_some_iff_append.mp hfind
  have hlast : ∀ a ∈ as, saved a = none := by
    intro a ha
    simpa using has a ha
  have hnd : (as ++ i :: bs).Nodup := hl ▸ List.nodup_reverse.mpr (List.nodup_finRange 7)
  obtain ⟨-, hnd', hdisj⟩ := List.nodup_append.mp hnd
  have hbs : i ∉ bs := (List.nodup_cons.mp hnd').1
  have has' : i ∉ as := fun ha => hdisj i ha i List.mem_cons_self rfl
  refine ⟨?_, ?_⟩
  · unfold callers
    rw [← List.filterMap_reverse, ← List.filterMap_reverse, hl]
    rw [List.filterMap_append, List.filterMap_append, filterMap_update has', filterMap_none hlast,
      List.filterMap_cons_some hf, List.filterMap_cons_none (Function.update_self ..), filterMap_update hbs]
    rfl
  · intro hp a b hab hb
    by_cases hbi : b = i
    · subst hbi
      simp at hb
    · rw [Function.update_of_ne hbi] at hb
      have hai : a ≠ i := by
        rintro rfl
        -- nothing is saved above the slot that was popped
        have hmem : b ∈ as ++ a :: bs := hl ▸ List.mem_reverse.mpr (List.mem_finRange b)
        have hsorted : (as ++ a :: bs).Pairwise (· > ·) := by
          rw [← hl, List.pairwise_reverse]
          exact List.pairwise_lt_finRange 7
        rcases List.mem_append.mp hmem with hin | hin
        · rw [hlast b hin] at hb
          cases hb
        · rcases List.mem_cons.mp hin with rfl | hin
          · exact absurd rfl hbi
          · have hlt := (List.pairwise_cons.mp (List.pairwise_append.mp hsorted).2.1).1 b hin
            exact absurd hab (not_lt_of_gt hlt)
      rw [Function.update_of_ne hai]
      exact hp a b hab hb

/-- A push puts a frame on top of the callers. -/
theorem pushFrame_callers (h : pushFrame saved frame = some saved') (hp : Packed saved) :
    callers saved' = frame :: callers saved ∧ Packed saved' := by
  unfold pushFrame at h
  obtain ⟨i, hfind, rfl⟩ := Option.map_eq_some_iff.mp h
  obtain ⟨hfree, as, bs, hl, has⟩ := List.find?_eq_some_iff_append.mp hfind
  have hi : saved i = none := Option.isNone_iff_eq_none.mp hfree
  have hused : ∀ a ∈ as, (saved a).isSome = true := by
    intro a ha
    simpa [Option.isSome_iff_ne_none, Option.isNone_iff_eq_none] using has a ha
  have hnd : (as ++ i :: bs).Nodup := hl ▸ List.nodup_finRange 7
  obtain ⟨-, hnd', hdisj⟩ := List.nodup_append.mp hnd
  have hbs : i ∉ bs := (List.nodup_cons.mp hnd').1
  have has' : i ∉ as := fun ha => hdisj i ha i List.mem_cons_self rfl
  have hsorted : (as ++ i :: bs).Pairwise (· < ·) := hl ▸ List.pairwise_lt_finRange 7
  have habove : ∀ b ∈ bs, saved b = none := by
    intro b hb
    have hlt := (List.pairwise_cons.mp (List.pairwise_append.mp hsorted).2.1).1 b hb
    by_contra hne
    have hsome := hp i b hlt (Option.isSome_iff_ne_none.mpr hne)
    rw [hi] at hsome
    cases hsome
  refine ⟨?_, ?_⟩
  · unfold callers
    rw [hl, List.filterMap_append, List.filterMap_append, filterMap_update has',
      List.filterMap_cons_some (Function.update_self ..), List.filterMap_cons_none hi, filterMap_update hbs,
      filterMap_none habove, List.append_nil, List.reverse_append]
    rfl
  · intro a b hab hb
    by_cases hai : a = i
    · subst hai
      rw [Function.update_self]
      rfl
    · rw [Function.update_of_ne hai]
      by_cases hbi : b = i
      · subst hbi
        have hmem : a ∈ as ++ b :: bs := hl ▸ List.mem_finRange a
        rcases List.mem_append.mp hmem with hin | hin
        · exact hused a hin
        · rcases List.mem_cons.mp hin with rfl | hin
          · exact absurd rfl hai
          · have hlt := (List.pairwise_cons.mp (List.pairwise_append.mp hsorted).2.1).1 a hin
            exact absurd hab (not_lt_of_gt hlt)
      · rw [Function.update_of_ne hbi] at hb
        exact hp a b hab hb

end Saved

/-- The number of active calls. -/
def depth (s : SpecState) : Nat := (callers s.saved).length

/-- The stack of a frame, the main frame at depth 0. -/
def stackAt (s : SpecState) (d : Nat) : Option SpecStack :=
  ((callers s.saved).reverse ++ [s.cur])[d]?.map (·.stack)

section Frames

variable {s s' : SpecState} {d : Nat}

theorem stackAt_depth (s : SpecState) : stackAt s (depth s) = some s.cur.stack := by
  unfold stackAt depth
  rw [List.getElem?_append_right (by simp)]
  simp

/-- The stacks of the callers are in the saved frames. -/
theorem stackAt_other (hsaved : s'.saved = s.saved) (hd : d ≠ depth s) : stackAt s' d = stackAt s d := by
  unfold stackAt depth at *
  rw [hsaved]
  by_cases hlt : d < (callers s.saved).length
  · rw [List.getElem?_append_left (by simpa using hlt), List.getElem?_append_left (by simpa using hlt)]
  · have hge : (callers s.saved).length < d := by omega
    rw [List.getElem?_eq_none (by simp; omega), List.getElem?_eq_none (by simp; omega)]

end Frames

theorem packed_initial : Packed SpecState.initial.saved := by
  intro i j _ h
  cases h

theorem Did.packed {env : Env} {c c' pc pc' : Nat} {s s' : SpecState} {sh : Shape}
    (h : Did env c pc s sh pc' s' c') (hp : Packed s.saved) : Packed s'.saved := by
  by_cases hcall : ∃ offset, sh = .callSub offset
  · obtain ⟨offset, rfl⟩ := hcall
    cases h with
    | callSub h hmem =>
      obtain ⟨saved, hpush, -, hsaved, -⟩ := callSub_ok h hmem
      rw [hsaved]
      exact (pushFrame_callers hpush hp).2
  · by_cases hexit : sh = .exit
    · subst hexit
      cases h with
      | exit h hmem =>
        rcases (exitStep_ok h).2.2 with ⟨-, rfl⟩ | ⟨-, hret⟩
        · cases hmem
        · obtain ⟨caller, saved, hpop, -, rfl⟩ := exitCallee_ok hret hmem
          exact (popFrame_callers hpop).2 hp
    · rw [(h.saved (fun offset heq => hcall ⟨offset, heq⟩) hexit).1]
      exact hp

theorem Edge.did {env : Env} {p q : Point} {insn : BpfInsn} (h : Edge env p insn q) :
    ∃ c, p.nextId ≤ c ∧ Did env c p.pc p.state (shape env insn) q.pc q.state q.nextId := by
  cases h with
  | step hle _ hstep hmem => exact ⟨_, hle, step_did hstep hmem⟩

theorem Reached.packed {env : Env} {p : Point} (h : Reached env p) : Packed p.state.saved := by
  induction h with
  | start => exact packed_initial
  | edge _ hedge ih =>
    obtain ⟨c, -, hdid⟩ := hedge.did
    exact hdid.packed ih

/-! ## Calls and returns -/

/-- A path from a point on, at depth `n` or deeper. -/
inductive Inside (env : Env) (n : Nat) (p : Point) : Point → Prop
  | refl : n ≤ depth p.state → Inside env n p p
  | edge {q r : Point} {insn : BpfInsn} : Inside env n p q → Edge env q insn r → n ≤ depth r.state →
      Inside env n p r

/-- The frames, innermost first: the current one and its callers. -/
def frameStack (s : SpecState) : List SpecFrame := s.cur :: callers s.saved

/-- The frames below a callee, with the callee's return address. -/
def Above (ret : Nat) (below : List SpecFrame) (s : SpecState) : Prop :=
  ∃ inner f, frameStack s = inner ++ f :: below ∧ f.retPc = ret

section Above

variable {env : Env} {c c' pc pc' ret : Nat} {s s' : SpecState} {sh : Shape} {below : List SpecFrame}

/-- The current frame changes, the rest of the stack stays. -/
theorem Above.replace (h : Above ret below s) (hsaved : s'.saved = s.saved) (hret : s'.cur.retPc = s.cur.retPc) :
    Above ret below s' := by
  obtain ⟨inner, f, hst, hf⟩ := h
  unfold frameStack at hst
  cases inner with
  | nil =>
    obtain ⟨rfl, hcallers⟩ := List.cons.inj hst
    refine ⟨[], s'.cur, ?_, hret.trans hf⟩
    unfold frameStack
    rw [hsaved, hcallers]
    rfl
  | cons g rest =>
    obtain ⟨rfl, hcallers⟩ := List.cons.inj hst
    refine ⟨s'.cur :: rest, f, ?_, hf⟩
    unfold frameStack
    rw [hsaved, hcallers]
    rfl

/-- A step that does not leave the callee keeps the frames below it. -/
theorem Above.step (h : Above ret below s) (hp : Packed s.saved) (hdid : Did env c pc s sh pc' s' c')
    (hdepth : below.length ≤ depth s') : Above ret below s' := by
  by_cases hcall : ∃ offset, sh = .callSub offset
  · obtain ⟨offset, rfl⟩ := hcall
    cases hdid with
    | callSub hc hmem =>
      obtain ⟨saved, hpush, -, hsaved, -⟩ := callSub_ok hc hmem
      obtain ⟨inner, f, hst, hf⟩ := h
      refine ⟨s'.cur :: inner, f, ?_, hf⟩
      unfold frameStack at *
      rw [hsaved, (pushFrame_callers hpush hp).1, hst]
      rfl
  · by_cases hexit : sh = .exit
    · subst hexit
      cases hdid with
      | exit he hmem =>
        rcases (exitStep_ok he).2.2 with ⟨-, rfl⟩ | ⟨-, hretn⟩
        · cases hmem
        · obtain ⟨caller, saved, hpop, -, rfl⟩ := exitCallee_ok hretn hmem
          obtain ⟨inner, f, hst, hf⟩ := h
          have hcallers := (popFrame_callers hpop).1
          unfold frameStack at hst
          rw [hcallers] at hst
          cases inner with
          | nil =>
            -- the callee itself would return
            have hlen := congrArg List.length (List.cons.inj hst).2
            simp only [List.length_cons] at hlen
            unfold depth at hdepth
            dsimp only at hdepth
            omega
          | cons g rest =>
            have htail := (List.cons.inj hst).2
            cases rest with
            | nil =>
              obtain ⟨rfl, hbelow⟩ := List.cons.inj htail
              refine ⟨[], { caller with regs := restoredRegs caller (s.reg 0) }, ?_, hf⟩
              unfold frameStack
              dsimp only
              rw [hbelow]
              rfl
            | cons g' rest' =>
              obtain ⟨rfl, hbelow⟩ := List.cons.inj htail
              refine ⟨{ caller with regs := restoredRegs caller (s.reg 0) } :: rest', f, ?_, hf⟩
              unfold frameStack
              dsimp only
              rw [hbelow]
              rfl
    · obtain ⟨hsaved, hret⟩ := hdid.saved (fun offset heq => hcall ⟨offset, heq⟩) hexit
      exact h.replace hsaved hret

end Above

/-- What a call finds again when its callee has returned. -/
structure Returned (p q : Point) : Prop where
  pc : q.pc = p.pc + 1
  regs : ∀ r, 6 ≤ r → q.state.reg r = p.state.reg r
  stack : q.state.cur.stack = p.state.cur.stack
  callers : callers q.state.saved = callers p.state.saved

theorem Inside.above {env : Env} {n : Nat} {p q : Point} {below : List SpecFrame} {ret : Nat}
    (h : Inside env n p q) (hn : below.length = n) (hp : Packed p.state.saved) (ha : Above ret below p.state) :
    Above ret below q.state ∧ Packed q.state.saved := by
  induction h with
  | refl _ => exact ⟨ha, hp⟩
  | edge _ hedge hdepth ih =>
    obtain ⟨c, -, hdid⟩ := hedge.did
    exact ⟨ih.1.step ih.2 hdid (by omega), hdid.packed ih.2⟩

/-- The return of a call: the caller as it was, after the call. -/
theorem returned {env : Env} {p p₁ p₂ p₃ : Point} {offset : Int32} (hp : Reached env p)
    (hcall : Edge env p (.callSub offset) p₁) (hin : Inside env (depth p₁.state) p₁ p₂)
    (hexit : Edge env p₂ .exit p₃) (hdepth : depth p₃.state < depth p₁.state) : Returned p p₃ := by
  have hpacked := hp.packed
  obtain ⟨c, -, hdid⟩ := hcall.did
  have hpacked₁ := hdid.packed hpacked
  cases hdid with
  | callSub hc hmem =>
    obtain ⟨saved, hpush, -, hsaved, -, hret, -, -, -⟩ := callSub_ok hc hmem
    have hcallers : callers p₁.state.saved = p.state.cur :: callers p.state.saved := by
      rw [hsaved]
      exact (pushFrame_callers hpush hpacked).1
    have hstart : Above (p.pc + 1) (callers p₁.state.saved) p₁.state := ⟨[], p₁.state.cur, rfl, hret⟩
    obtain ⟨⟨inner, f, hst, hf⟩, -⟩ := hin.above rfl hpacked₁ hstart
    obtain ⟨c', -, hdid'⟩ := hexit.did
    obtain ⟨c₃, pc₃, s₃⟩ := p₃
    dsimp only at hdid' hdepth
    cases hdid' with
    | exit he hmem' =>
      rcases (exitStep_ok he).2.2 with ⟨-, rfl⟩ | ⟨-, hretn⟩
      · cases hmem'
      · obtain ⟨caller, saved', hpop, rfl, rfl⟩ := exitCallee_ok hretn hmem'
        have hpopped := (popFrame_callers hpop).1
        unfold frameStack at hst
        rw [hpopped] at hst
        -- nothing is above the callee any more
        have hinner : inner = [] := by
          have hlen := congrArg List.length hst
          unfold depth at hdepth
          dsimp only at hdepth
          simp only [List.length_cons, List.length_append] at hlen
          exact List.eq_nil_of_length_eq_zero (by omega)
        subst hinner
        obtain ⟨hcur, htail⟩ := List.cons.inj hst
        rw [hcallers] at htail
        obtain ⟨hcaller, hrest⟩ := List.cons.inj htail
        subst hcaller
        refine ⟨?_, ?_, rfl, hrest⟩
        · show p₂.state.cur.retPc = p.pc + 1
          rw [hcur, hf]
        · intro r hr
          show restoredRegs p.state.cur (p₂.state.reg 0) r = p.state.reg r
          unfold restoredRegs
          have h0 : r ≠ 0 := by
            rintro rfl
            exact absurd hr (by decide)
          have h5 : ¬ (1 ≤ r ∧ r ≤ 5) := by
            rintro ⟨-, hle⟩
            exact absurd (le_trans hr hle) (by decide)
          rw [if_neg h0, if_neg h5]
          rfl

/-! ## Owners -/

/-- The depth of the frame that made the stack pointer in a cell. -/
abbrev FrameOwners := Cell → Nat

/-- The owners of the current frame, and of its callers, innermost first. -/
structure Owners where
  cur : FrameOwners
  callers : List FrameOwners

/-- Everything belongs to the main frame. -/
def Owners.initial : Owners := ⟨fun _ => 0, []⟩

/-- How a step moves the stack pointers: inside a frame each goes with its value; a callee's
    R10 is its own, and a return brings the pointers of the caller back. -/
def ownerStep (s : SpecState) (O : Owners) : Shape → Owners
  | .callSub _ =>
    ⟨fun cell => if cell = .reg 10 then O.callers.length + 1 else O.cur cell, O.cur :: O.callers⟩
  | .exit =>
    match O.callers with
    | o :: rest => ⟨o, rest⟩
    | [] => O
  | sh => ⟨fun cell => O.cur (sh.origin s cell), O.callers⟩

/-- Whether a helper reads or writes the stack through an argument. -/
def SpecArg.isBuffer : SpecArg → Bool
  | ptrToStack | ptrToStackInit _ | ptrToDynptr | ptrToDynptrW => true
  | _ => false

/-- The registers through which an instruction reads or writes memory. -/
def accessRegs : Shape → List Reg
  | .load _ base _ _ _ => [base]
  | .store base _ _ _ => [base]
  | .atomic dst _ _ _ _ _ => [dst]
  | .helper imm =>
    match specHelper imm with
    | some proto => (proto.args.zipIdx.filter (·.1.isBuffer)).map (argReg ·.2)
    | none => []
  | _ => []

/-- Every stack pointer that the instruction accesses memory through is the current frame's. -/
def OwnAccess (s : SpecState) (O : Owners) (sh : Shape) : Prop :=
  ∀ r ∈ accessRegs sh, IsStackPtr (s.reg r) → O.cur (.reg r) = depth s

/-- A call passes no stack pointer. -/
def PassesNone (s : SpecState) (_ : Owners) (sh : Shape) : Prop :=
  ∀ offset, sh = .callSub offset → ∀ r, 1 ≤ r → r ≤ 9 → ¬ IsStackPtr (s.reg r)

/-- A path with the owners of its pointers, every step within a condition. -/
inductive OwnedRun (env : Env) (cond : SpecState → Owners → Shape → Prop) : Point → Owners → Prop
  | start : OwnedRun env cond .initial .initial
  | edge {p q : Point} {O : Owners} {insn : BpfInsn} : OwnedRun env cond p O → Edge env p insn q →
      cond p.state O (shape env insn) → OwnedRun env cond q (ownerStep p.state O (shape env insn))

section Owned

variable {env : Env} {cond : SpecState → Owners → Shape → Prop} {p q : Point} {O : Owners} {insn : BpfInsn}
  {P : Nat → Prop} {R : Nat → Nat → Prop} {c c' pc pc' : Nat} {s s' : SpecState} {sh : Shape}
  {f : SpecFrame} {o : FrameOwners}

theorem OwnedRun.reached (h : OwnedRun env cond p O) : Reached env p := by
  induction h with
  | start => exact .start
  | edge _ hedge _ ih => exact .edge ih hedge

/-- The stack pointers of a frame have owners with a property. -/
def FrameOwned (P : Nat → Prop) (f : SpecFrame) (o : FrameOwners) : Prop :=
  ∀ cell v, cell.value f = some v → IsStackPtr v → P (o cell)

/-- Every owner is related to the depth of the frame that holds its pointer. -/
def StackOwned (R : Nat → Nat → Prop) : List SpecFrame → List FrameOwners → Prop
  | [], [] => True
  | f :: fs, o :: os => FrameOwned (R · fs.length) f o ∧ StackOwned R fs os
  | _, _ => False

theorem StackOwned.length {fs : List SpecFrame} {os : List FrameOwners} (h : StackOwned R fs os) :
    os.length = fs.length := by
  induction fs generalizing os with
  | nil =>
    cases os with
    | nil => rfl
    | cons o os => exact absurd h id
  | cons f fs ih =>
    cases os with
    | nil => exact absurd h id
    | cons o os => exact congrArg Nat.succ (ih h.2)

theorem not_stackPtr_of_plain {v : SpecValue} (h : v.isPlain = true) : ¬ IsStackPtr v := by
  rintro ⟨lo, hi, rfl⟩
  cases h

/-- Inside a frame a stack pointer comes from a stack pointer of the frame. -/
theorem Derived.stackPtr {v : Option SpecValue} {v' : SpecValue} (h : Derived c sh v v') (hptr : IsStackPtr v') :
    ∃ u, v = some u ∧ IsStackPtr u := by
  obtain ⟨lo, hi, rfl⟩ := hptr
  cases h with
  | plain h => cases h
  | copy => exact ⟨_, rfl, lo, hi, rfl⟩
  | moved hm =>
    cases hm with
    | stack => exact ⟨_, rfl, _, _, rfl⟩

theorem FrameOwned.step (h : FrameOwned P s.cur o) (hdid : Did env c pc s sh pc' s' c') (hsh : shape env insn = sh)
    (hcall : ∀ offset, sh ≠ .callSub offset) (hexit : sh ≠ .exit) :
    FrameOwned P s'.cur fun cell => o (sh.origin s cell) := by
  intro cell v hv hptr
  obtain ⟨u, hu, huptr⟩ := (hdid.origin hsh hcall hexit hv).stackPtr hptr
  exact h _ u hu huptr

theorem ownerStep_local (hcall : ∀ offset, sh ≠ .callSub offset) (hexit : sh ≠ .exit) :
    ownerStep s O sh = ⟨fun cell => O.cur (sh.origin s cell), O.callers⟩ := by
  cases sh with
  | callSub offset => exact absurd rfl (hcall offset)
  | exit => exact absurd rfl hexit
  | _ => rfl

theorem FrameOwned.initial (h : P 0) : FrameOwned P SpecState.initial.cur Owners.initial.cur := fun _ _ _ _ => h

/-- The frame of a callee. -/
theorem FrameOwned.callee {offset : Int32} {nodes : List Node} {d : Nat} (hc : callSub s pc offset = .ok nodes)
    (hmem : (pc', s') ∈ nodes) (hself : P d)
    (hpass : ∀ r, 1 ≤ r → r ≤ 9 → IsStackPtr (s.reg r) → P (o (.reg r))) :
    FrameOwned P s'.cur fun cell => if cell = .reg 10 then d else o cell := by
  obtain ⟨saved, -, -, -, hstack, -, -, -, hregs⟩ := callSub_ok hc hmem
  intro cell v hv hptr
  cases cell with
  | spill slot =>
    rw [value_spill, hstack] at hv
    cases hv
  | reg r =>
    have hval : s'.reg r = v := Option.some.inj hv
    rw [hregs] at hval
    by_cases h10 : r = 10
    · subst h10
      dsimp only
      rw [if_pos rfl]
      exact hself
    · have hne : Cell.reg r ≠ .reg 10 := fun heq => h10 (Cell.reg.inj heq)
      dsimp only
      rw [if_neg hne]
      split at hval
      · rename_i hr
        exact hpass r hr.1 hr.2 (by rw [hval]; exact hptr)
      · rw [← hval] at hptr
        exact absurd hptr (not_stackPtr_of_plain rfl)

/-- The frame of the caller after a return. -/
theorem FrameOwned.restored {ret : SpecValue} (h : FrameOwned P f o) (hret : ret.isScalar = true) :
    FrameOwned P { f with regs := restoredRegs f ret } o := by
  intro cell v hv hptr
  cases cell with
  | spill slot => exact h _ v hv hptr
  | reg r =>
    have hval : restoredRegs f ret r = v := Option.some.inj hv
    unfold restoredRegs at hval
    split at hval
    · rw [← hval] at hptr
      exact absurd hptr (not_stackPtr_of_plain (plain_of_scalar hret))
    · split at hval
      · rw [← hval] at hptr
        exact absurd hptr (not_stackPtr_of_plain rfl)
      · exact h (.reg r) v (congrArg some hval) hptr

/-- The owners along a path. With `≤`: a pointer belongs to the frame that holds it, or to
    a caller. With `=`: to the frame that holds it, when no call passes one. -/
theorem owned_related (hself : ∀ d, R d d)
    (hpass : ∀ (s : SpecState) (O : Owners) (offset : Int32) (r : Reg), cond s O (.callSub offset) → 1 ≤ r →
      r ≤ 9 → IsStackPtr (s.reg r) → R (O.cur (.reg r)) (depth s) → R (O.cur (.reg r)) (depth s + 1))
    (h : OwnedRun env cond p O) : StackOwned R (frameStack p.state) (O.cur :: O.callers) := by
  induction h with
  | start => exact ⟨.initial (hself 0), trivial⟩
  | @edge p q O insn hrun hedge hcond ih =>
    have hpacked := hrun.reached.packed
    obtain ⟨c, -, hdid⟩ := hedge.did
    obtain ⟨hcur, hcallers⟩ := ih
    generalize hsh : shape env insn = sh at hdid hcond
    by_cases hcall : ∃ offset, sh = .callSub offset
    · obtain ⟨offset, rfl⟩ := hcall
      generalize hq : q.state = s' at *
      cases hdid with
      | callSub hc hmem =>
        obtain ⟨saved, hpush, -, hsaved, -⟩ := callSub_ok hc hmem
        unfold frameStack
        rw [hsaved, (pushFrame_callers hpush hpacked).1]
        refine ⟨?_, hcur, hcallers⟩
        have hlen : O.callers.length + 1 = (p.state.cur :: callers p.state.saved).length :=
          congrArg Nat.succ hcallers.length
        refine FrameOwned.callee hc hmem ?_ ?_
        · rw [hlen]
          exact hself _
        · intro r h1 h9 hptr
          exact hpass p.state O offset r hcond h1 h9 hptr (hcur _ _ rfl hptr)
    · by_cases hexit : sh = .exit
      · subst hexit
        generalize hq : q.state = s' at *
        cases hdid with
        | exit he hmem =>
          obtain ⟨hscalar, -, hend⟩ := exitStep_ok he
          rcases hend with ⟨-, rfl⟩ | ⟨-, hret⟩
          · cases hmem
          · obtain ⟨caller, saved, hpop, -, rfl⟩ := exitCallee_ok hret hmem
            rw [(popFrame_callers hpop).1] at hcallers
            unfold ownerStep
            cases hO : O.callers with
            | nil =>
              rw [hO] at hcallers
              exact absurd hcallers id
            | cons o rest =>
              rw [hO] at hcallers
              exact ⟨hcallers.1.restored hscalar, hcallers.2⟩
      · have hcall' : ∀ offset, sh ≠ .callSub offset := fun offset heq => hcall ⟨offset, heq⟩
        rw [ownerStep_local hcall' hexit]
        unfold frameStack
        rw [(hdid.saved hcall' hexit).1]
        exact ⟨hcur.step hdid hsh hcall' hexit, hcallers⟩

/-- A pointer belongs to the current frame or to a caller. -/
theorem owner_le (h : OwnedRun env cond p O) {r : Reg} (hptr : IsStackPtr (p.state.reg r)) :
    O.cur (.reg r) ≤ depth p.state := by
  have hrel := owned_related (R := (· ≤ ·)) le_refl (fun _ _ _ _ _ _ _ _ hle => Nat.le_succ_of_le hle) h
  exact hrel.1 _ _ rfl hptr

/-- Where no call passes a stack pointer, every access is through an own one. -/
theorem own_of_passesNone (h : OwnedRun env PassesNone p O) (sh : Shape) : OwnAccess p.state O sh := by
  have hrel := owned_related (R := (· = ·)) (fun _ => rfl)
    (fun s O offset r hcond h1 h9 hptr _ => absurd hptr (hcond offset rfl r h1 h9)) h
  intro r _ hptr
  exact hrel.1 _ _ rfl hptr

end Owned

/-! ## Accesses -/

/-- An access acts on the frame at depth `d`: it does there, and to the registers, what it
    does when the stack of that frame is the current one, and leaves every other stack. -/
def ActsOn (env : Env) (p : Point) (insn : BpfInsn) (q : Point) (d : Nat) : Prop :=
  ∃ stack c nodes t, stackAt p.state d = some stack ∧
    step env c p.pc (p.state.setStack stack) insn = .ok (nodes, q.nextId) ∧ (q.pc, t) ∈ nodes ∧
    (∀ r, q.state.reg r = t.reg r) ∧ stackAt q.state d = some t.cur.stack ∧
    ∀ k, k ≠ d → stackAt q.state k = stackAt p.state k

section Access

variable {env : Env} {p q : Point} {insn : BpfInsn} {r : Reg}

theorem access_plain {sh : Shape} (h : r ∈ accessRegs sh) :
    (∀ offset, sh ≠ .callSub offset) ∧ sh ≠ .exit := by
  cases sh with
  | callSub _ | exit => cases h
  | _ => exact ⟨nofun, nofun⟩

/-- An access leaves the saved frames. -/
theorem access_saved (h : Edge env p insn q) (hr : r ∈ accessRegs (shape env insn)) :
    q.state.saved = p.state.saved := by
  obtain ⟨hcall, hexit⟩ := access_plain hr
  obtain ⟨c, -, hdid⟩ := h.did
  exact (hdid.saved hcall hexit).1

/-- An access acts on the current frame. -/
theorem actsOn_current (h : Edge env p insn q) (hr : r ∈ accessRegs (shape env insn)) :
    ActsOn env p insn q (depth p.state) := by
  have hsaved := access_saved h hr
  have hdepth : depth q.state = depth p.state := by
    unfold depth
    rw [hsaved]
  cases h with
  | step hle hinsn hstep hmem =>
    refine ⟨_, _, _, _, stackAt_depth _, hstep, hmem, fun _ => rfl, ?_, ?_⟩
    · rw [← hdepth]
      exact stackAt_depth _
    · intro k hk
      exact stackAt_other hsaved hk

end Access

/-- On a path whose accesses go through pointers of the current frame, every access acts on
    the frame that owns its pointer. On every path a stack pointer belongs to the current
    frame or to a caller, and an access through one of a caller leaves the caller's stack
    alone; and a return restores R6..R9, R10 and the stack of the caller and goes on after
    the call. -/
theorem call_frames (env : Env) :
    (∀ p O insn q, OwnedRun env OwnAccess p O → Edge env p insn q → OwnAccess p.state O (shape env insn) →
      ∀ r ∈ accessRegs (shape env insn), IsStackPtr (p.state.reg r) → ActsOn env p insn q (O.cur (.reg r))) ∧
    (∀ p O insn q, OwnedRun env (fun _ _ _ => True) p O → Edge env p insn q →
      ∀ r ∈ accessRegs (shape env insn), IsStackPtr (p.state.reg r) → O.cur (.reg r) = depth p.state ∨
        (O.cur (.reg r) < depth p.state ∧
          stackAt q.state (O.cur (.reg r)) = stackAt p.state (O.cur (.reg r)))) ∧
    (∀ p p₁ p₂ p₃ offset, Reached env p → Edge env p (.callSub offset) p₁ →
      Inside env (depth p₁.state) p₁ p₂ → Edge env p₂ .exit p₃ → depth p₃.state < depth p₁.state →
      Returned p p₃) := by
  refine ⟨?_, ?_, ?_⟩
  · intro p O insn q _ hedge hown r hr hptr
    rw [hown r hr hptr]
    exact actsOn_current hedge hr
  · intro p O insn q hrun hedge r hr hptr
    rcases Nat.lt_or_eq_of_le (owner_le hrun hptr) with hlt | heq
    · exact .inr ⟨hlt, stackAt_other (access_saved hedge hr) (Nat.ne_of_lt hlt)⟩
    · exact .inl heq
  · intro p p₁ p₂ p₃ offset hp hcall hin hexit hdepth
    exact returned hp hcall hin hexit hdepth

/-! ## A subprogram that stores -/

/-- The main program passes R10 in R1; the subprogram stores 2 below a base. -/
def subStores (base : Reg) : Env where
  program := [.movReg 1 10, .callSub 2, .movImm 0 0, .exit, .stMemImm 2 base (-8) .dw, .movImm 0 0, .exit]
  maps _ := none
  progType := .socketFilter

def passed : SpecState := SpecState.initial.setReg 1 (.ptrToStack 0 0)

def inSub : SpecState where
  cur := { SpecFrame.callee with
    regs := fun r => if 1 ≤ r ∧ r ≤ 9 then passed.reg r else SpecFrame.callee.regs r
    retPc := 2 }
  saved := Function.update (fun _ => none) 0 (some passed.cur)
  refs _ := 0
  refsCnt := 0

/-- The stack of the subprogram after its store. -/
def storedStack : SpecStack where
  bytes i := if inSpan (-8) 0 i then wordByte 2 (i.val - 504) else 0
  init i := inSpan (-8) 0 i
  spill := Function.update (fun _ => none) 63 (some (.scalar 2 2))
  dynptr _ := false

def atExit : SpecState := (inSub.setStack storedStack).setReg 0 (.constScalar 0)

def afterCall : SpecState :=
  { SpecState.initial with cur := { passed.cur with regs := restoredRegs passed.cur (.constScalar 0) } }

section SubStores

variable (base : Reg)

theorem passed_edge : Edge (subStores base) .initial (.movReg 1 10) ⟨firstRefId, 1, passed⟩ := by
  have hstep : step (subStores base) firstRefId 0 .initial (.movReg 1 10) = .ok ([(1, passed)], firstRefId) := rfl
  exact .step (le_refl _) rfl hstep (List.mem_singleton_self _)

theorem inSub_edge :
    Edge (subStores base) ⟨firstRefId, 1, passed⟩ (.callSub 2) ⟨firstRefId, 4, inSub⟩ := by
  have hstep : step (subStores base) firstRefId 1 passed (.callSub 2) = .ok ([(4, inSub)], firstRefId) := rfl
  exact .step (le_refl _) rfl hstep (List.mem_singleton_self _)

theorem stored_edge (hb : base = 1 ∨ base = 10) :
    Edge (subStores base) ⟨firstRefId, 4, inSub⟩ (.stMemImm 2 base (-8) .dw)
      ⟨firstRefId, 5, inSub.setStack storedStack⟩ := by
  have hstep : (step (subStores base) firstRefId 4 inSub (.stMemImm 2 base (-8) .dw)).toOption =
      some ([(5, inSub.setStack storedStack)], firstRefId) := by
    rcases hb with rfl | rfl <;> decide +kernel
  exact .step (le_refl _) rfl (ok_of_toOption hstep) (List.mem_singleton_self _)

theorem atExit_edge : Edge (subStores base) ⟨firstRefId, 5, inSub.setStack storedStack⟩ (.movImm 0 0)
    ⟨firstRefId, 6, atExit⟩ := by
  have hstep : step (subStores base) firstRefId 5 (inSub.setStack storedStack) (.movImm 0 0) =
      .ok ([(6, atExit)], firstRefId) := rfl
  exact .step (le_refl _) rfl hstep (List.mem_singleton_self _)

theorem afterCall_edge : Edge (subStores 10) ⟨firstRefId, 6, atExit⟩ .exit ⟨firstRefId, 2, afterCall⟩ := by
  have hstep : (step (subStores 10) firstRefId 6 atExit .exit).toOption = some ([(2, afterCall)], firstRefId) := by
    decide +kernel
  exact .step (le_refl _) rfl (ok_of_toOption hstep) (List.mem_singleton_self _)

/-- The owners in the subprogram: R10 is its own. -/
def subOwners : Owners :=
  ownerStep passed (ownerStep .initial .initial (.mov 1 10)) (.callSub 2)

theorem inSub_run {cond : SpecState → Owners → Shape → Prop} (h0 : cond .initial .initial (.mov 1 10))
    (h1 : cond passed (ownerStep .initial .initial (.mov 1 10)) (.callSub 2)) :
    OwnedRun (subStores base) cond ⟨firstRefId, 4, inSub⟩ subOwners :=
  .edge (.edge .start (passed_edge base) h0) (inSub_edge base) h1

end SubStores

theorem depth_inSub : depth inSub = 1 := by decide

/-- The subprogram stores through its own R10 and returns. -/
theorem call_frames_sub :
    ActsOn (subStores 10) ⟨firstRefId, 4, inSub⟩ (.stMemImm 2 10 (-8) .dw)
      ⟨firstRefId, 5, inSub.setStack storedStack⟩ (subOwners.cur (.reg 10)) ∧
    (subOwners.cur (.reg 10) = depth inSub ∨ (subOwners.cur (.reg 10) < depth inSub ∧
      stackAt (inSub.setStack storedStack) (subOwners.cur (.reg 10)) =
        stackAt inSub (subOwners.cur (.reg 10)))) ∧
    Returned ⟨firstRefId, 1, passed⟩ ⟨firstRefId, 2, afterCall⟩ := by
  have hshape : shape (subStores 10) (.stMemImm 2 10 (-8) .dw) = .store 10 (-8) .dw (immOperand 2) := rfl
  have hmem : (10 : Reg) ∈ accessRegs (shape (subStores 10) (.stMemImm 2 10 (-8) .dw)) := by
    rw [hshape]
    exact List.mem_singleton_self _
  have hptr : IsStackPtr (inSub.reg 10) := ⟨0, 0, rfl⟩
  refine ⟨?_, ?_, ?_⟩
  · refine (call_frames (subStores 10)).1 _ subOwners _ _ ?_ (stored_edge 10 (.inr rfl)) ?_ 10 hmem hptr
    · exact inSub_run 10 (fun _ hr => absurd hr List.not_mem_nil) (fun _ hr => absurd hr List.not_mem_nil)
    · intro r hr _
      rw [hshape] at hr
      rw [List.mem_singleton.mp hr, depth_inSub]
      rfl
  · exact (call_frames (subStores 10)).2.1 _ subOwners _ _ (inSub_run 10 trivial trivial)
      (stored_edge 10 (.inr rfl)) 10 hmem hptr
  · have hin : Inside (subStores 10) (depth inSub) ⟨firstRefId, 4, inSub⟩ ⟨firstRefId, 6, atExit⟩ := by
      refine .edge (.edge (.refl (le_refl _)) (stored_edge 10 (.inr rfl)) ?_) (atExit_edge 10) ?_ <;> decide
    exact (call_frames (subStores 10)).2.2 ⟨firstRefId, 1, passed⟩ ⟨firstRefId, 4, inSub⟩ ⟨firstRefId, 6, atExit⟩ _ 2
      (.edge .start (passed_edge 10)) (inSub_edge 10) hin afterCall_edge (by decide)

/-- The subprogram stores through the pointer of its caller: its own stack changes, the
    stack of the caller does not, and the program is accepted. -/
theorem callee_store_hits_callee :
    verifySpecWith (subStores 1) = .accept ∧
    ∃ p O q, OwnedRun (subStores 1) (fun _ _ _ => True) p O ∧
      Edge (subStores 1) p (.stMemImm 2 1 (-8) .dw) q ∧ IsStackPtr (p.state.reg 1) ∧
      O.cur (.reg 1) = 0 ∧ depth p.state = 1 ∧ stackAt q.state 0 = stackAt p.state 0 ∧
      stackAt q.state 1 ≠ stackAt p.state 1 ∧
      ¬ ActsOn (subStores 1) p (.stMemImm 2 1 (-8) .dw) q (O.cur (.reg 1)) := by
  refine ⟨by decide +kernel, _, subOwners, _, inSub_run 1 trivial trivial, stored_edge 1 (.inl rfl), ⟨0, 0, rfl⟩,
    rfl, depth_inSub, by decide +kernel, by decide +kernel, ?_⟩
  rintro ⟨-, -, -, -, -, -, -, -, -, hother⟩
  exact absurd (hother 1 (by decide)) (by decide +kernel)

end RandVerifier.Spec
