/-
  RandVerifier.StructuralPasses — the arithmetic of the passes before the exploration
  (`add_subprog`, `check_combined_stack_depth` and `check_cfg` of `src/cfg.rs`, and
  `src/liveness.rs`).

  The targets `pc as i32 + 1 + offset` and the stack use `-off as i64 + size` are computed in
  fixed width. The `…Checked` versions are the passes as a build with overflow checks runs
  them: such a sum panics. `verify` runs `add_subprog`, then the depth check and the search
  as long as they accept, and the liveness pass in any case, on an accepted program for the
  exploration and on a rejected one for the concrete cross-check.

  - `analyze_fixed`: the loop of the liveness pass ends, at a fixed point.
  - `visitChain_calm`, `checkCfg_calm`: the walk of the call chains and the search end with
    a result or a failure.
  - `passes_fit`: no pass panics if the calls that are computed stay below `i32::MAX`, no exit
    returns behind the last instruction, and no access at `r10 - 32768` is scanned.
  - `farthest_call`: a call by `i32::MAX`.
-/

import RandVerifier.CallStack
import RandVerifier.Codec
import RandVerifier.Settle

namespace RandVerifier

/-! ## The liveness pass ends -/

section Liveness

variable {program : List BpfInsn} {a b ms : List LiveMasks} {ud : InsnUseDef} {succs : List Nat}

namespace LiveMasks

/-- Only live registers and slots are added. -/
structure Le (x y : LiveMasks) : Prop where
  inRegs : BitsLe x.inRegs y.inRegs
  outRegs : BitsLe x.outRegs y.outRegs
  inSlots : BitsLe x.inSlots y.inSlots
  outSlots : BitsLe x.outSlots y.outSlots

theorem Le.refl (x : LiveMasks) : x.Le x := ⟨.refl _, .refl _, .refl _, .refl _⟩

theorem Le.trans {x y z : LiveMasks} (h : x.Le y) (h' : y.Le z) : x.Le z :=
  ⟨h.inRegs.trans h'.inRegs, h.outRegs.trans h'.outRegs, h.inSlots.trans h'.inSlots, h.outSlots.trans h'.outSlots⟩

theorem Le.empty (y : LiveMasks) : LiveMasks.empty.Le y := ⟨.zero _, .zero _, .zero _, .zero _⟩

def rank (x : LiveMasks) : Nat := bitCount x.inRegs + bitCount x.outRegs + bitCount x.inSlots + bitCount x.outSlots

theorem rank_le (x : LiveMasks) : x.rank ≤ 160 := by
  have h1 := bitCount_le_width x.inRegs
  have h2 := bitCount_le_width x.outRegs
  have h3 := bitCount_le_width x.inSlots
  have h4 := bitCount_le_width x.outSlots
  unfold rank
  omega

theorem Le.rank {x y : LiveMasks} (h : x.Le y) : x.rank ≤ y.rank := by
  have h1 := h.inRegs.count
  have h2 := h.outRegs.count
  have h3 := h.inSlots.count
  have h4 := h.outSlots.count
  unfold LiveMasks.rank
  omega

theorem Le.rank_lt {x y : LiveMasks} (h : x.Le y) (hne : x ≠ y) : x.rank < y.rank := by
  by_contra hge
  have h1 := h.inRegs.count
  have h2 := h.outRegs.count
  have h3 := h.inSlots.count
  have h4 := h.outSlots.count
  unfold LiveMasks.rank at hge
  have hsame : ∀ {w : Nat} {u v : BitVec w}, BitsLe u v → bitCount v ≤ bitCount u → u = v := by
    intro w u v hle hcount
    by_contra huv
    exact absurd (hle.count_lt huv) (by omega)
  refine hne ?_
  cases x
  cases y
  simp only [LiveMasks.mk.injEq]
  exact ⟨hsame h.inRegs (by dsimp only at *; omega), hsame h.outRegs (by dsimp only at *; omega),
    hsame h.inSlots (by dsimp only at *; omega), hsame h.outSlots (by dsimp only at *; omega)⟩

end LiveMasks

theorem union_getLsbD {w : Nat} (f : Nat → BitVec w) (succs : List Nat) (m : BitVec w) (i : Nat) :
    (succs.foldl (fun m s => m ||| f s) m).getLsbD i =
      (m.getLsbD i || succs.any fun s => (f s).getLsbD i) := by
  induction succs generalizing m with
  | nil => simp
  | cons s rest ih =>
    rw [List.foldl_cons, ih, BitVec.getLsbD_or, List.any_cons, Bool.or_assoc]

theorem union_mono {w : Nat} {f g : Nat → BitVec w} (h : ∀ s, BitsLe (f s) (g s)) (succs : List Nat) :
    BitsLe (succs.foldl (fun m s => m ||| f s) 0) (succs.foldl (fun m s => m ||| g s) 0) := by
  intro i hi
  rw [union_getLsbD] at hi ⊢
  rw [Bool.or_eq_true, List.any_eq_true] at hi ⊢
  rcases hi with hi | ⟨s, hs, hbit⟩
  · exact .inl hi
  · exact .inr ⟨s, hs, h s i hbit⟩

theorem defUse_mono {w : Nat} {x y : BitVec w} (h : BitsLe x y) (d u : BitVec w) :
    BitsLe ((x &&& ~~~d) ||| u) ((y &&& ~~~d) ||| u) := by
  intro i hi
  rw [BitVec.getLsbD_or, BitVec.getLsbD_and, Bool.or_eq_true, Bool.and_eq_true] at hi ⊢
  exact hi.imp_left fun hx => ⟨h i hx.1, hx.2⟩

/-- More live masks behind an instruction give more before it. -/
theorem transfer_mono (h : ∀ i, (a.getD i .empty).Le (b.getD i .empty)) :
    (transfer a ud succs).Le (transfer b ud succs) where
  inRegs := defUse_mono (union_mono (fun s => (h s).inRegs) succs) _ _
  outRegs := union_mono (fun s => (h s).inRegs) succs
  inSlots := defUse_mono (union_mono (fun s => (h s).inSlots) succs) _ _
  outSlots := union_mono (fun s => (h s).inSlots) succs

/-- Every mask is at most what its instruction makes of the masks. -/
structure Growing (program : List BpfInsn) (ms : List LiveMasks) : Prop where
  length : ms.length = program.length
  grows : ∀ i insn, program[i]? = some insn →
    (ms.getD i .empty).Le (transfer ms (useDef insn) (staticSuccessors i program))

theorem growing_start (program : List BpfInsn) : Growing program (List.replicate program.length .empty) := by
  refine ⟨List.length_replicate, fun i insn _ => ?_⟩
  have hempty : (List.replicate program.length LiveMasks.empty).getD i .empty = .empty := by
    rw [List.getD_eq_getElem?_getD, List.getElem?_replicate]
    split <;> rfl
  rw [hempty]
  exact .empty _

theorem getD_set_self (x : LiveMasks) {i : Nat} (hlt : i < ms.length) : (ms.set i x).getD i .empty = x := by
  rw [List.getD_eq_getElem?_getD, List.getElem?_set_self hlt]
  rfl

theorem getD_set_ne (x : LiveMasks) {i j : Nat} (hne : i ≠ j) : (ms.set i x).getD j .empty = ms.getD j .empty := by
  rw [List.getD_eq_getElem?_getD, List.getElem?_set_ne hne, ← List.getD_eq_getElem?_getD]

theorem Growing.set (h : Growing program ms) {i : Nat} {insn : BpfInsn} (hget : program[i]? = some insn) :
    Growing program (ms.set i (transfer ms (useDef insn) (staticSuccessors i program))) ∧
      ∀ j, (ms.getD j .empty).Le
        ((ms.set i (transfer ms (useDef insn) (staticSuccessors i program))).getD j .empty) := by
  have hlt : i < ms.length := by
    rw [h.length]
    exact (List.getElem?_eq_some_iff.mp hget).1
  have hle : ∀ j, (ms.getD j .empty).Le
      ((ms.set i (transfer ms (useDef insn) (staticSuccessors i program))).getD j .empty) := by
    intro j
    by_cases hj : i = j
    · subst hj
      rw [getD_set_self _ hlt]
      exact h.grows i insn hget
    · rw [getD_set_ne _ hj]
      exact .refl _
  refine ⟨⟨by rw [List.length_set, h.length], fun j insn' hget' => ?_⟩, hle⟩
  refine LiveMasks.Le.trans ?_ (transfer_mono hle)
  by_cases hj : i = j
  · subst hj
    cases hget.symm.trans hget'
    rw [getD_set_self _ hlt]
    exact .refl _
  · rw [getD_set_ne _ hj]
    exact h.grows j insn' hget'

/-- A pass over the instructions only adds to the masks. -/
theorem Growing.pass (h : Growing program ms) :
    Growing program (livePass program ms) ∧ ∀ j, (ms.getD j .empty).Le ((livePass program ms).getD j .empty) := by
  have hrun : ∀ (l : List (BpfInsn × Nat)), (∀ x ∈ l, program[x.2]? = some x.1) → ∀ ms, Growing program ms →
      Growing program (l.foldl (fun ms x =>
          ms.set x.2 (transfer ms (useDef x.1) (staticSuccessors x.2 program))) ms) ∧
        ∀ j, (ms.getD j .empty).Le ((l.foldl (fun ms x =>
          ms.set x.2 (transfer ms (useDef x.1) (staticSuccessors x.2 program))) ms).getD j .empty) := by
    intro l hl
    induction l with
    | nil => exact fun ms h => ⟨h, fun j => .refl _⟩
    | cons x rest ih =>
      intro ms h
      obtain ⟨hset, hle⟩ := h.set (hl x List.mem_cons_self)
      obtain ⟨hrest, hle'⟩ := ih (fun y hy => hl y (List.mem_cons_of_mem _ hy)) _ hset
      exact ⟨hrest, fun j => (hle j).trans (hle' j)⟩
  exact hrun program.zipIdx (fun x hx => List.mem_zipIdx_iff_getElem?.mp hx) ms h

def liveRank (ms : List LiveMasks) : Nat := (ms.map LiveMasks.rank).sum

theorem liveRank_le (ms : List LiveMasks) : liveRank ms ≤ ms.length * 160 := by
  induction ms with
  | nil => exact Nat.le_refl _
  | cons x rest ih =>
    have hx := x.rank_le
    unfold liveRank at ih ⊢
    rw [List.map_cons, List.sum_cons, List.length_cons]
    omega

theorem liveRank_lt (hlen : a.length = b.length) (h : ∀ j, (a.getD j .empty).Le (b.getD j .empty)) :
    liveRank a ≤ liveRank b ∧ (a ≠ b → liveRank a < liveRank b) := by
  induction a generalizing b with
  | nil =>
    cases b with
    | nil => exact ⟨Nat.le_refl _, fun hne => absurd rfl hne⟩
    | cons y rest' => cases hlen
  | cons x rest ih =>
    cases b with
    | nil => cases hlen
    | cons y rest' =>
      have hx : x.Le y := h 0
      obtain ⟨hle, hlt⟩ := ih (Nat.succ.inj hlen) fun j => h (j + 1)
      have hrank := hx.rank
      unfold liveRank at hle hlt ⊢
      rw [List.map_cons, List.sum_cons, List.map_cons, List.sum_cons]
      refine ⟨by omega, fun hne => ?_⟩
      by_cases hxy : x = y
      · subst hxy
        have := hlt fun heq => hne (by rw [heq])
        omega
      · have := hx.rank_lt hxy
        omega

theorem liveLoop_eq (program : List BpfInsn) (fuel : Nat) (ms : List LiveMasks) :
    liveLoop program fuel ms = settle (livePass program) fuel ms := by
  induction fuel generalizing ms with
  | zero => rfl
  | succ fuel ih =>
    rw [liveLoop, settle, ih]

/-- The loop of the liveness pass ends: one more pass changes nothing. -/
theorem analyze_fixed {l : Liveness} (h : analyze program = .ok l) : livePass program l.masks = l.masks := by
  unfold analyze at h
  dsimp only at h
  split at h
  · cases h
    rw [liveLoop_eq]
    have hrank : ∀ ms, Growing program ms → livePass program ms ≠ ms → liveRank ms < liveRank (livePass program ms) := by
      intro ms hms hne
      obtain ⟨hpass, hle⟩ := hms.pass
      exact (liveRank_lt (hms.length.trans hpass.length.symm) hle).2 (Ne.symm hne)
    have hbound : ∀ ms, Growing program ms → liveRank ms ≤ program.length * 160 := by
      intro ms hms
      rw [← hms.length]
      exact liveRank_le ms
    exact settle_fixed (fun ms hms => hms.pass.1) hrank hbound (growing_start program) (by omega)
  · cases h

end Liveness

/-! ## The passes with overflow checks -/

/-- An `i32` sum of a build with overflow checks. -/
def checkedI32 (x : Int) : Exec Int := if -2 ^ 31 ≤ x ∧ x < 2 ^ 31 then .ok x else .error .panic

/-- `pc as i32 + 1 + offset`. -/
def relative (pc : Nat) (offset : Int) : Exec Int := do
  let next ← checkedI32 (wrapI32 pc + 1)
  checkedI32 (next + offset)

/-- `(pc as i32 + 1 + offset) as u32`. -/
def targetChecked (pc : Nat) (offset : Int) : Exec Nat := do
  let target ← relative pc offset
  .ok (target % 2 ^ 32).toNat

/-- `add_subprog`: the call targets from `pc` on. -/
def addStartsChecked (insnCnt : Nat) : Nat → List BpfInsn → List Nat → Exec (List Nat)
  | _, [], starts => .ok starts
  | pc, .callSub offset :: insns, starts => do
    let target ← targetChecked pc offset.toInt
    if insnCnt ≤ target then fail pc s!"call target {target} is out of the program"
    else addStartsChecked insnCnt (pc + 1) insns (if target ∈ starts then starts else starts ++ [target])
  | pc, _ :: insns, starts => addStartsChecked insnCnt (pc + 1) insns starts

def addSubprogChecked (insns : List BpfInsn) : Exec (List Nat) := do
  let starts ← addStartsChecked insns.length 0 insns [0]
  .ok (starts.insertionSort (· ≤ ·))

/-- The offset of a load or store through R10, which `direct_stack_depths` negates. -/
def frameOffset : BpfInsn → Option Int16
  | .ldMem _ base offset _ _ | .stMem _ base offset _ | .stMemImm _ base offset _ =>
    if base = 10 then some offset else none
  | _ => none

/-- `-off` is an `i16`. -/
def accessDepthChecked (insn : BpfInsn) : Exec Nat :=
  if frameOffset insn = some (-32768) then .error .panic else .ok (accessDepth insn)

def subprogDepthChecked (insns : List BpfInsn) (start stop : Nat) : Exec Nat :=
  (List.range' start (stop - start)).foldlM
    (fun depth pc =>
      match insns[pc]? with
      | none => .error .panic
      | some insn => (accessDepthChecked insn).map (max depth)) 0

def directStackDepthsChecked (insns : List BpfInsn) (subprogs : List Nat) : Exec (List Nat) :=
  subprogs.zipIdx.mapM fun (start, i) => subprogDepthChecked insns start ((subprogs[i + 1]?).getD insns.length)

/-- An element at an index that may be out of range. -/
def indexed (l : List Nat) (i : Nat) : Exec Nat :=
  match l[i]? with
  | none => .error .panic
  | some x => .ok x

/-- `check_stack_call_chains`, its sums and indices checked. -/
def visitChainChecked (insns : List BpfInsn) (subprogs depth : List Nat) : Nat → Nat → List Nat → Exec Unit
  | 0, _, _ => .error .panic
  | fuel + 1, idx, chain => do
    let entry ← indexed subprogs idx
    let (start, stop) := findSubprogRange entry subprogs insns.length
    (List.range' start (stop - start)).forM fun pc =>
      match insns[pc]? with
      | none => .error .panic
      | some (.callSub offset) => do
        let target ← relative pc offset.toInt
        match subprogs.findIdx? fun (start : Nat) => decide (wrapI32 start = target) with
        | none => .ok ()
        | some callee =>
          if callee ∈ chain then
            fail pc s!"recursive subprogram call to entry {subprogs.getD callee 0}"
          else if maxCallFrames < (chain ++ [callee]).length then
            fail pc s!"the call stack of {(chain ++ [callee]).length - 1} frames is too deep"
          else do
            let depths ← (chain ++ [callee]).mapM (indexed depth)
            if stackSize < depths.sum then
              fail pc s!"combined stack size of {(chain ++ [callee]).length} calls is {depths.sum}. Too large"
            else visitChainChecked insns subprogs depth fuel callee (chain ++ [callee])
      | some _ => .ok ()

def checkCombinedStackDepthChecked (insns : List BpfInsn) (subprogs : List Nat) : Exec Unit := do
  let depth ← directStackDepthsChecked insns subprogs
  visitChainChecked insns subprogs depth maxCallFrames 0 [0]

/-- The call sites of a program with their targets. -/
def callSitesFrom : Nat → List BpfInsn → Exec (List (Nat × Nat))
  | _, [] => .ok []
  | pc, .callSub offset :: insns => do
    let target ← targetChecked pc offset.toInt
    let rest ← callSitesFrom (pc + 1) insns
    .ok ((pc, target) :: rest)
  | pc, _ :: insns => callSitesFrom (pc + 1) insns

/-- The successors of an instruction, before the fall-through check of `visit_insn`. -/
def insnNextsChecked (idx start stop : Nat) (insns : List BpfInsn) (subprogs : List Nat) (insn : BpfInsn) :
    Exec (List Nat) :=
  match insn with
  | .exit =>
    if start = 0 then .ok []
    else do
      let sites ← callSitesFrom 0 insns
      .ok ((sites.filter (·.2 = start)).map (·.1 + 1))
  | .jmp offset => do
    let target ← targetChecked idx offset.toInt
    checkTarget idx target start stop "jump" insns
    .ok [target]
  | .callSub offset => do
    let target ← targetChecked idx offset.toInt
    if target ∈ subprogs then .ok [target]
    else fail idx s!"call target {target} is not a subprogram entry {subprogs}"
  | insn =>
    match insn.branchOffset with
    | some offset => do
      let target ← targetChecked idx offset.toInt
      checkTarget idx target start stop "branch" insns
      .ok [target, idx + 1]
    | none => .ok [idx + 1]

def visitInsnChecked (idx : Nat) (insns : List BpfInsn) (subprogs : List Nat) : Exec (List Nat) :=
  let (start, stop) := findSubprogRange idx subprogs insns.length
  match insns[idx]? with
  | none => .error .panic
  | some insn => do
    let nexts ← insnNextsChecked idx start stop insns subprogs insn
    failIf (idx + 1 ∈ nexts ∧ stop ≤ idx + 1) idx
      s!"falls through out of subprogram [{start}, {stop})"
    .ok nexts

/-- Every subprogram ends with an exit or an unconditional jump; `end - 1` is a `u32`. -/
def checkSubprogEndsChecked (insns : List BpfInsn) : List Nat → Exec Unit
  | [] => .ok ()
  | start :: rest =>
    let stop := (rest[0]?).getD insns.length
    if stop = 0 then .error .panic
    else match insns[stop - 1]? with
      | none => .error .panic
      | some insn =>
        if insn.endsSubprog then checkSubprogEndsChecked insns rest
        else fail (stop - 1) s!"subprogram [{start}..{stop}) does not end with exit or jmp"

/-- One round of the search, with the successors that `visit` computes. -/
def cfgIterateWith (visit : Nat → Exec (List Nat)) (insnCnt : Nat) (s : Search Nat) :
    Exec (Option (Search Nat)) :=
  match s.stack with
  | [] => .ok none
  | (idx, child) :: rest => do
    let nexts ← visit idx
    match nexts[child]? with
    | some nxt =>
      if insnCnt ≤ nxt then .error .panic
      else match s.visit nxt with
        | .notVisited =>
          .ok (some ⟨Function.update s.visit nxt .discovering, (nxt, 0) :: (idx, child + 1) :: rest,
            s.heads⟩)
        | .discovering =>
          .ok (some ⟨s.visit, (idx, child + 1) :: rest,
            if nxt ∈ s.heads then s.heads else s.heads ++ [nxt]⟩)
        | .explored => .ok (some ⟨s.visit, (idx, child + 1) :: rest, s.heads⟩)
    | none => .ok (some ⟨Function.update s.visit idx .explored, rest, s.heads⟩)

def cfgLoopWith (visit : Nat → Exec (List Nat)) (insnCnt : Nat) :
    Nat → Search Nat → Option (Exec (Search Nat))
  | 0, _ => none
  | fuel + 1, s =>
    match cfgIterateWith visit insnCnt s with
    | .error e => some (.error e)
    | .ok none => some (.ok s)
    | .ok (some t) => cfgLoopWith visit insnCnt fuel t

def checkCfgChecked (fuel : Nat) (insns : List BpfInsn) (subprogs : List Nat) : Option (Exec (List Nat)) :=
  if insns = [] then some (fail 0 "empty program")
  else match checkSubprogEndsChecked insns subprogs with
    | .error e => some (.error e)
    | .ok () =>
      (cfgLoopWith (visitInsnChecked · insns subprogs) insns.length fuel (.start 0)).map (· >>= cfgResult insns)

/-- `static_successors`: an exit behind the first instruction looks at all calls. -/
def staticSuccessorsChecked (i : Nat) (program : List BpfInsn) : Exec (List Nat) :=
  match program[i]? with
  | some .exit =>
    if i = 0 then .ok []
    else do
      let sites ← callSitesFrom 0 program
      match (((sites.map (·.2)).filter (· ≤ i)).foldl max 0) with
      | 0 => .ok []
      | start => .ok ((sites.filter (·.2 = start)).map (·.1 + 1))
  | _ => .ok (staticSuccessors i program)

/-- The liveness pass: the successors of every instruction, whose masks are looked up. -/
def analyzeChecked (program : List BpfInsn) : Exec Liveness := do
  let succs ← (List.range program.length).mapM (staticSuccessorsChecked · program)
  if succs.all (·.all (· < program.length)) then
    .ok ⟨liveLoop program (program.length * 160 + 1) (List.replicate program.length .empty)⟩
  else .error .panic

/-! ## Sums -/

/-- Programs whose jumps stay below `i32::MAX`. -/
def maxInsns : Nat := 2 ^ 31 - 2 ^ 15

/-- The target of a call is an `i32`. -/
def CallFits (pc : Nat) (offset : Int32) : Prop := (pc : Int) + 1 + offset.toInt < 2 ^ 31

instance (pc : Nat) (offset : Int32) : Decidable (CallFits pc offset) := inferInstanceAs (Decidable (_ < _))

section Sums

variable {pc : Nat} {x y : Int}

theorem checkedI32_ok (h : -2 ^ 31 ≤ x ∧ x < 2 ^ 31) : checkedI32 x = .ok x := if_pos h

theorem relative_eq (hpc : pc < maxInsns) :
    relative pc x = if -2 ^ 31 ≤ (pc : Int) + 1 + x ∧ (pc : Int) + 1 + x < 2 ^ 31 then .ok ((pc : Int) + 1 + x)
      else .error .panic := by
  unfold maxInsns at hpc
  have hwrap : wrapI32 (pc : Int) = pc := by
    unfold wrapI32
    rw [Int.bmod_def]
    split <;> omega
  unfold relative
  rw [hwrap, checkedI32_ok (by omega)]
  rfl

theorem relative_call (hpc : pc < maxInsns) (offset : Int32) :
    relative pc offset.toInt = if CallFits pc offset then .ok ((pc : Int) + 1 + offset.toInt) else .error .panic := by
  have hlo := offset.le_toInt
  rw [relative_eq hpc]
  exact if_congr ⟨fun h => h.2, fun h => ⟨by omega, h⟩⟩ rfl rfl

theorem targetChecked_call (hpc : pc < maxInsns) (offset : Int32) :
    targetChecked pc offset.toInt = if CallFits pc offset then .ok (callTarget pc offset) else .error .panic := by
  unfold targetChecked
  rw [relative_call hpc]
  by_cases hfit : CallFits pc offset
  · rw [if_pos hfit, if_pos hfit]
    rfl
  · rw [if_neg hfit, if_neg hfit]
    rfl

/-- A jump cannot leave the range of `i32`. -/
theorem targetChecked_jump (hpc : pc < maxInsns) (offset : Int16) :
    targetChecked pc offset.toInt = .ok (branchTarget pc offset) := by
  unfold maxInsns at hpc
  have hlo := offset.le_toInt
  have hhi := offset.toInt_lt
  unfold targetChecked
  rw [relative_eq hpc, if_pos (by omega)]
  rfl

/-- A target that is computed is exact if the exact one is in the program. -/
theorem targetChecked_exact {n target : Nat} (hn : n ≤ maxInsns) (hpc : pc < n)
    (hin : 0 ≤ (pc : Int) + 1 + x ∧ (pc : Int) + 1 + x < n) (h : targetChecked pc x = .ok target) :
    (target : Int) = (pc : Int) + 1 + x := by
  unfold maxInsns at hn
  unfold targetChecked at h
  rw [relative_eq (hpc.trans_le hn), if_pos (by omega)] at h
  cases h
  omega

/-- A call into the program has a target that fits. -/
theorem callFits_of_target {n : Nat} {offset : Int32} (hn : n ≤ maxInsns) (hpc : pc < n)
    (h : callTarget pc offset < n) : CallFits pc offset := by
  have hlo := offset.le_toInt
  have hhi := offset.toInt_lt
  unfold maxInsns at hn
  unfold callTarget at h
  unfold CallFits
  omega

end Sums

/-! ## `add_subprog` -/

section Starts

variable {insnCnt pc : Nat} {rest : List BpfInsn} {starts : List Nat}

/-- The first call that leaves the program fits. -/
def StartsFit (insnCnt pc : Nat) (rest : List BpfInsn) : Prop :=
  ∀ i offset, rest[i]? = some (.callSub offset) →
    (∀ j < i, ∀ o, rest[j]? = some (.callSub o) → callTarget (pc + j) o < insnCnt) → CallFits (pc + i) offset

theorem startsFit_call {offset : Int32} :
    StartsFit insnCnt pc (.callSub offset :: rest) ↔
      CallFits pc offset ∧ (callTarget pc offset < insnCnt → StartsFit insnCnt (pc + 1) rest) := by
  constructor
  · intro h
    refine ⟨h 0 offset rfl nofun, fun hin i o hget hbefore => ?_⟩
    have hfit := h (i + 1) o hget fun j hj o' hget' => ?_
    · rwa [show pc + (i + 1) = pc + 1 + i by omega] at hfit
    · cases j with
      | zero =>
        cases hget'
        exact hin
      | succ j =>
        rw [show pc + (j + 1) = pc + 1 + j by omega]
        exact hbefore j (by omega) o' hget'
  · intro h i o hget hbefore
    cases i with
    | zero =>
      cases hget
      exact h.1
    | succ i =>
      rw [show pc + (i + 1) = pc + 1 + i by omega]
      refine h.2 (hbefore 0 (by omega) offset rfl) i o hget fun j hj o' hget' => ?_
      rw [show pc + 1 + j = pc + (j + 1) by omega]
      exact hbefore (j + 1) (by omega) o' hget'

theorem startsFit_other {insn : BpfInsn} (hcall : insn.isCallSub = false) :
    StartsFit insnCnt pc (insn :: rest) ↔ StartsFit insnCnt (pc + 1) rest := by
  have hshift : ∀ i, pc + (i + 1) = pc + 1 + i := fun i => by omega
  constructor
  · intro h i o hget hbefore
    rw [← hshift]
    refine h (i + 1) o hget fun j hj o' hget' => ?_
    cases j with
    | zero =>
      cases hget'
      cases hcall
    | succ j =>
      rw [hshift]
      exact hbefore j (by omega) o' hget'
  · intro h i o hget hbefore
    cases i with
    | zero =>
      cases hget
      cases hcall
    | succ i =>
      rw [hshift]
      refine h i o hget fun j hj o' hget' => ?_
      rw [← hshift]
      exact hbefore (j + 1) (by omega) o' hget'

theorem addStarts_calm : addStarts insnCnt pc rest starts ≠ .error .panic := by
  fun_induction addStarts insnCnt pc rest starts with
  | case1 => simp
  | case2 => simp [fail]
  | case3 pc starts offset rest target hlt ih => exact ih
  | case4 pc insn rest starts hne ih => exact ih

/-- `add_subprog` computes its targets if the first one outside the program fits, and
    panics otherwise. -/
theorem addStartsChecked_eq (hlen : pc + rest.length ≤ maxInsns) :
    (StartsFit insnCnt pc rest → addStartsChecked insnCnt pc rest starts = addStarts insnCnt pc rest starts) ∧
      (¬ StartsFit insnCnt pc rest → addStartsChecked insnCnt pc rest starts = .error .panic) := by
  induction rest generalizing pc starts with
  | nil => exact ⟨fun _ => rfl, fun h => absurd (fun i offset hget => by cases hget) h⟩
  | cons insn rest ih =>
    rw [List.length_cons] at hlen
    by_cases hcall : insn.isCallSub = true
    · cases insn with
      | callSub offset =>
        rw [startsFit_call]
        simp only [addStartsChecked, addStarts]
        rw [targetChecked_call (by omega)]
        by_cases hfit : CallFits pc offset
        · rw [if_pos hfit]
          simp only [bind, Except.bind]
          by_cases hout : insnCnt ≤ callTarget pc offset
          · rw [if_pos hout, if_pos hout]
            exact ⟨fun _ => rfl, fun h => absurd ⟨hfit, fun hin => absurd hin (by omega)⟩ h⟩
          · rw [if_neg hout, if_neg hout]
            have hlen' : pc + 1 + rest.length ≤ maxInsns := by omega
            have hin : callTarget pc offset < insnCnt := by omega
            exact ⟨fun h => (ih hlen').1 (h.2 hin), fun h => (ih hlen').2 fun hrest => h ⟨hfit, fun _ => hrest⟩⟩
        · rw [if_neg hfit]
          exact ⟨fun h => absurd h.1 hfit, fun _ => rfl⟩
      | _ => cases hcall
    · rw [startsFit_other (by simpa using hcall)]
      cases insn with
      | callSub offset => exact absurd rfl hcall
      | _ => exact ih (by omega)

variable {insns : List BpfInsn} {subprogs : List Nat}

theorem addSubprogChecked_eq (hlen : insns.length ≤ maxInsns) (h : StartsFit insns.length 0 insns) :
    addSubprogChecked insns = addSubprog insns := by
  unfold addSubprogChecked addSubprog
  rw [(addStartsChecked_eq (by omega)).1 h]

theorem addSubprogChecked_calm (hlen : insns.length ≤ maxInsns) :
    addSubprogChecked insns ≠ .error .panic ↔ StartsFit insns.length 0 insns := by
  constructor
  · intro h
    by_contra hnot
    refine h ?_
    unfold addSubprogChecked
    rw [(addStartsChecked_eq (by omega)).2 hnot]
    rfl
  · intro h
    rw [addSubprogChecked_eq hlen h]
    unfold addSubprog
    intro hpanic
    cases hstarts : addStarts insns.length 0 insns [0] with
    | error e =>
      rw [hstarts] at hpanic
      cases hpanic
      exact addStarts_calm hstarts
    | ok starts =>
      rw [hstarts] at hpanic
      cases hpanic

/-- With the subprograms found every call leads into the program. -/
theorem addSubprog_calls (h : addSubprog insns = .ok subprogs) {pc : Nat} {offset : Int32}
    (hget : insns[pc]? = some (.callSub offset)) : callTarget pc offset < insns.length := by
  have hne : insns ≠ [] := by
    rintro rfl
    cases hget
  exact (addSubprog_range hne h).1 _ ((mem_addSubprog h _).mpr (.inr ⟨pc, offset, hget, rfl⟩))

theorem addSubprog_fits (hlen : insns.length ≤ maxInsns) (h : addSubprog insns = .ok subprogs) {pc : Nat}
    {offset : Int32} (hget : insns[pc]? = some (.callSub offset)) : CallFits pc offset :=
  callFits_of_target hlen (List.getElem?_eq_some_iff.mp hget).1 (addSubprog_calls h hget)

/-- A target that fits is the one found by wrapping. -/
theorem wrapI32_of_fits {pc : Nat} {offset : Int32} (hfit : CallFits pc offset) :
    wrapI32 ((pc : Int) + 1 + offset.toInt) = (pc : Int) + 1 + offset.toInt := by
  have hlo := offset.le_toInt
  unfold CallFits at hfit
  unfold wrapI32
  rw [Int.bmod_def]
  split <;> omega

/-- The targets of all calls are computed without overflow. -/
def CallsExact (insns : List BpfInsn) : Prop :=
  ∀ pc offset, insns[pc]? = some (.callSub offset) →
    relative pc offset.toInt = .ok (wrapI32 ((pc : Int) + 1 + offset.toInt))

theorem addSubprog_exact (hlen : insns.length ≤ maxInsns) (h : addSubprog insns = .ok subprogs) : CallsExact insns := by
  intro pc offset hget
  have hfit := addSubprog_fits hlen h hget
  rw [relative_call ((List.getElem?_eq_some_iff.mp hget).1.trans_le hlen), if_pos hfit, wrapI32_of_fits hfit]

theorem wrapI32_emod (x : Int) : wrapI32 x % 2 ^ 32 = x % 2 ^ 32 := by
  unfold wrapI32
  rw [Int.bmod_def]
  split <;> omega

theorem wrapI32_unique {x y : Int} (h : y % 2 ^ 32 = x % 2 ^ 32) (hy : -2 ^ 31 ≤ y ∧ y < 2 ^ 31) : y = wrapI32 x := by
  unfold wrapI32
  rw [Int.bmod_def]
  split <;> omega

theorem checkedI32_eq_ok {x y : Int} (h : checkedI32 x = .ok y) : y = x ∧ -2 ^ 31 ≤ x ∧ x < 2 ^ 31 := by
  unfold checkedI32 at h
  split at h
  · cases h
    exact ⟨rfl, by assumption⟩
  · cases h

theorem relative_wrap {pc : Nat} {x t : Int} (h : relative pc x = .ok t) : t = wrapI32 ((pc : Int) + 1 + x) := by
  obtain ⟨next, hnext, ht⟩ := bind_eq_ok.mp h
  obtain ⟨hfirst, -⟩ := checkedI32_eq_ok hnext
  obtain ⟨hsum, hrange⟩ := checkedI32_eq_ok ht
  have hpc := wrapI32_emod (pc : Int)
  rw [← hsum] at hrange
  exact wrapI32_unique (by omega) hrange

/-- A first pass that ends has found the subprograms without overflow. -/
theorem addStartsChecked_ok {insnCnt pc : Nat} {rest : List BpfInsn} {starts starts' : List Nat}
    (h : addStartsChecked insnCnt pc rest starts = .ok starts') :
    addStarts insnCnt pc rest starts = .ok starts' ∧ ∀ i offset, rest[i]? = some (.callSub offset) →
      relative (pc + i) offset.toInt = .ok (wrapI32 (((pc + i : Nat) : Int) + 1 + offset.toInt)) := by
  induction rest generalizing pc starts with
  | nil => exact ⟨h, nofun⟩
  | cons insn rest ih =>
    have htail : ∀ {l}, addStartsChecked insnCnt (pc + 1) rest l = .ok starts' →
        addStarts insnCnt (pc + 1) rest l = .ok starts' ∧ ∀ i offset,
          (insn :: rest)[i + 1]? = some (.callSub offset) → relative (pc + (i + 1)) offset.toInt =
            .ok (wrapI32 (((pc + (i + 1) : Nat) : Int) + 1 + offset.toInt)) := by
      intro l hl
      refine ⟨(ih hl).1, fun i offset hget => ?_⟩
      rw [show pc + (i + 1) = pc + 1 + i by omega]
      exact (ih hl).2 i offset hget
    by_cases hcall : insn.isCallSub = true
    · cases insn with
      | callSub o =>
        simp only [addStartsChecked] at h
        obtain ⟨target, htarget, h₁⟩ := bind_eq_ok.mp h
        obtain ⟨t, ht, hcast⟩ := bind_eq_ok.mp htarget
        have hwrap := relative_wrap ht
        have heq : target = callTarget pc o := by
          cases hcast
          rw [hwrap, wrapI32_emod]
          rfl
        subst heq
        split at h₁
        · exact (fail_ne_ok.mp h₁).elim
        · rename_i hin
          obtain ⟨hok, hrest⟩ := htail h₁
          refine ⟨by simp only [addStarts]; rw [if_neg hin]; exact hok, fun i offset hget => ?_⟩
          cases i with
          | zero =>
            cases hget
            exact hwrap ▸ ht
          | succ i => exact hrest i offset hget
      | _ => cases hcall
    · have hskip : addStartsChecked insnCnt (pc + 1) rest starts = .ok starts' := by
        cases insn with
        | callSub o => exact absurd rfl hcall
        | _ => exact h
      obtain ⟨hok, hrest⟩ := htail hskip
      refine ⟨?_, fun i offset hget => ?_⟩
      · cases insn with
        | callSub o => exact absurd rfl hcall
        | _ => exact hok
      · cases i with
        | zero =>
          cases hget
          exact absurd rfl hcall
        | succ i => exact hrest i offset hget

theorem addSubprogChecked_ok (h : addSubprogChecked insns = .ok subprogs) :
    addSubprog insns = .ok subprogs ∧ CallsExact insns := by
  obtain ⟨starts, hstarts, hsort⟩ := bind_eq_ok.mp h
  obtain ⟨hok, hexact⟩ := addStartsChecked_ok hstarts
  refine ⟨bind_eq_ok.mpr ⟨starts, hok, hsort⟩, fun pc offset hget => ?_⟩
  have h0 := hexact pc offset hget
  rwa [Nat.zero_add] at h0

/-- Every call leads into the program: the subprograms are found. -/
theorem addSubprog_ok (h : ∀ pc offset, insns[pc]? = some (.callSub offset) → callTarget pc offset < insns.length) :
    ∃ subprogs, addSubprog insns = .ok subprogs := by
  have hstarts : ∀ (pc : Nat) (rest : List BpfInsn) (starts : List Nat),
      (∀ i offset, rest[i]? = some (.callSub offset) → callTarget (pc + i) offset < insns.length) →
      ∃ starts', addStarts insns.length pc rest starts = .ok starts' := by
    intro pc rest starts hin
    fun_induction addStarts insns.length pc rest starts with
    | case1 => exact ⟨_, rfl⟩
    | case2 =>
      rename_i hout
      exact absurd (hin 0 _ rfl) (Nat.not_lt.mpr hout)
    | case3 pc starts offset rest target hlt ih =>
      exact ih fun i o hget => by
        rw [show pc + 1 + i = pc + (i + 1) by omega]
        exact hin (i + 1) o hget
    | case4 pc insn rest starts hne ih =>
      exact ih fun i o hget => by
        rw [show pc + 1 + i = pc + (i + 1) by omega]
        exact hin (i + 1) o hget
  obtain ⟨starts, hok⟩ := hstarts 0 insns [0] fun i offset hget => by
    rw [Nat.zero_add]
    exact h i offset hget
  exact ⟨_, bind_eq_ok.mpr ⟨starts, hok, rfl⟩⟩

end Starts

/-! ## Loops that may fail -/

section Loops

variable {α β : Type} {l : List α}

theorem mapM_eq_ok {f : α → Exec β} {g : α → β} (h : ∀ x ∈ l, f x = .ok (g x)) : l.mapM f = .ok (l.map g) := by
  induction l with
  | nil => rfl
  | cons x rest ih =>
    rw [List.mapM_cons, h x List.mem_cons_self, ih fun y hy => h y (List.mem_cons_of_mem _ hy)]
    rfl

theorem mapM_ok_mem {f : α → Exec β} {r : List β} (h : l.mapM f = .ok r) : ∀ x ∈ l, ∃ y ∈ r, f x = .ok y := by
  induction l generalizing r with
  | nil => nofun
  | cons x rest ih =>
    rw [List.mapM_cons] at h
    obtain ⟨y, hy, h₁⟩ := bind_eq_ok.mp h
    obtain ⟨ys, hys, h₂⟩ := bind_eq_ok.mp h₁
    cases h₂
    intro z hz
    rcases List.mem_cons.mp hz with rfl | hz
    · exact ⟨y, List.mem_cons_self, hy⟩
    · obtain ⟨w, hw, hfw⟩ := ih hys z hz
      exact ⟨w, List.mem_cons_of_mem _ hw, hfw⟩

theorem mapM_error {f : α → Exec β} {e : Stop} (h : l.mapM f = .error e) : ∃ x ∈ l, f x = .error e := by
  induction l with
  | nil => cases h
  | cons x rest ih =>
    rw [List.mapM_cons] at h
    cases hx : f x with
    | error e' =>
      rw [hx] at h
      cases h
      exact ⟨x, List.mem_cons_self, hx⟩
    | ok y =>
      rw [hx, ok_bind] at h
      cases hrest : rest.mapM f with
      | error e' =>
        rw [hrest] at h
        cases h
        obtain ⟨z, hz, hfz⟩ := ih hrest
        exact ⟨z, List.mem_cons_of_mem _ hz, hfz⟩
      | ok ys =>
        rw [hrest] at h
        cases h

theorem forM_congr {f g : α → Exec Unit} (h : ∀ x ∈ l, f x = g x) : l.forM f = l.forM g := by
  induction l with
  | nil => rfl
  | cons x rest ih =>
    simp only [List.forM, h x List.mem_cons_self, ih fun y hy => h y (List.mem_cons_of_mem _ hy)]

theorem forM_filterMap (f : α → Option β) (g : β → Exec Unit) :
    (l.filterMap f).forM g = l.forM fun x => match f x with
      | none => .ok ()
      | some y => g y := by
  induction l with
  | nil => rfl
  | cons x rest ih =>
    rw [List.filterMap_cons]
    cases hx : f x with
    | none =>
      simp only [List.forM, hx]
      exact ih
    | some y => simp only [List.forM, hx, ih]

theorem forM_error {f : α → Exec Unit} {e : Stop} (h : l.forM f = .error e) : ∃ x ∈ l, f x = .error e := by
  induction l with
  | nil => cases h
  | cons x rest ih =>
    cases hx : f x with
    | error e' =>
      simp only [List.forM, hx, bind, Except.bind] at h
      cases h
      exact ⟨x, List.mem_cons_self, hx⟩
    | ok u =>
      simp only [List.forM, hx, bind, Except.bind] at h
      obtain ⟨y, hy, hfy⟩ := ih h
      exact ⟨y, List.mem_cons_of_mem _ hy, hfy⟩

end Loops

/-! ## `check_combined_stack_depth` -/

section Depth

variable {insns : List BpfInsn} {subprogs depth : List Nat}

theorem subprogDepthChecked_eq {start stop : Nat} (hstop : stop ≤ insns.length)
    (h : ∀ insn ∈ insns, frameOffset insn ≠ some (-32768)) :
    subprogDepthChecked insns start stop = .ok (subprogDepth insns start stop) := by
  have hfold : ∀ (l : List Nat), (∀ pc ∈ l, pc < insns.length) → ∀ d, l.foldlM
      (fun depth pc =>
        match insns[pc]? with
        | none => (.error .panic : Exec Nat)
        | some insn => (accessDepthChecked insn).map (max depth)) d =
      .ok (l.foldl (fun depth pc => max depth ((insns[pc]?.map accessDepth).getD 0)) d) := by
    intro l hl
    induction l with
    | nil => exact fun d => rfl
    | cons pc rest ih =>
      intro d
      obtain ⟨insn, hget⟩ : ∃ insn, insns[pc]? = some insn :=
        ⟨_, List.getElem?_eq_getElem (hl pc List.mem_cons_self)⟩
      rw [List.foldlM_cons, List.foldl_cons, hget]
      simp only [accessDepthChecked, if_neg (h insn (List.mem_of_getElem? hget)), Except.map, Option.map_some, Option.getD_some]
      exact ih (fun i hi => hl i (List.mem_cons_of_mem _ hi)) _
  refine hfold _ (fun pc hpc => ?_) 0
  rw [List.mem_range'_1] at hpc
  omega

theorem subprogDepthChecked_mem {start stop r : Nat} (h : subprogDepthChecked insns start stop = .ok r) {pc : Nat}
    (hstart : start ≤ pc) (hstop : pc < stop) {insn : BpfInsn} (hget : insns[pc]? = some insn) :
    frameOffset insn ≠ some (-32768) := by
  have hfold : ∀ (l : List Nat) d, l.foldlM
      (fun depth pc =>
        match insns[pc]? with
        | none => (.error .panic : Exec Nat)
        | some insn => (accessDepthChecked insn).map (max depth)) d = .ok r → pc ∈ l →
      frameOffset insn ≠ some (-32768) := by
    intro l
    induction l with
    | nil => nofun
    | cons i rest ih =>
      intro d hd hmem
      rw [List.foldlM_cons] at hd
      obtain ⟨d', hi, hrest⟩ := bind_eq_ok.mp hd
      rcases List.mem_cons.mp hmem with rfl | hmem
      · rw [hget] at hi
        simp only [accessDepthChecked] at hi
        intro hbad
        rw [if_pos hbad] at hi
        cases hi
      · exact ih d' hrest hmem
  refine hfold _ 0 h (List.mem_range'_1.mpr ⟨hstart, by omega⟩)

/-- Every instruction is in the range of a start. -/
theorem start_before {pc n : Nat} (hpc : pc < n) {subprogs : List Nat} {first : Nat}
    (hfirst : subprogs[0]? = some first) (hle : first ≤ pc) :
    ∃ i start, subprogs[i]? = some start ∧ start ≤ pc ∧ pc < (subprogs[i + 1]?).getD n := by
  induction subprogs generalizing first with
  | nil => cases hfirst
  | cons start rest ih =>
    cases hfirst
    cases rest with
    | nil => exact ⟨0, start, rfl, hle, hpc⟩
    | cons next rest =>
      by_cases hnext : next ≤ pc
      · obtain ⟨i, s, hget, hs, hstop⟩ := ih rfl hnext
        exact ⟨i + 1, s, hget, hs, hstop⟩
      · exact ⟨0, start, rfl, hle, by simpa using hnext⟩

/-- The negation in `direct_stack_depths` overflows exactly for an access at -32768. -/
theorem directStackDepthsChecked_eq (hsub : addSubprog insns = .ok subprogs)
    (h : ∀ insn ∈ insns, frameOffset insn ≠ some (-32768)) :
    directStackDepthsChecked insns subprogs = .ok (directStackDepths insns subprogs) := by
  unfold directStackDepthsChecked directStackDepths
  rw [List.mapIdx_eq_zipIdx_map]
  refine mapM_eq_ok fun x hx => subprogDepthChecked_eq ?_ h
  have hat := List.mem_zipIdx_iff_getElem?.mp hx
  cases hnext : subprogs[x.2 + 1]? with
  | none => exact Nat.le_refl _
  | some next =>
    have hne : insns ≠ [] := by
      rintro rfl
      cases hsub
      cases hnext
    exact ((addSubprog_range hne hsub).1 next (List.mem_of_getElem? hnext)).le

theorem directStackDepthsChecked_mem (hsub : addSubprog insns = .ok subprogs) {r : List Nat}
    (h : directStackDepthsChecked insns subprogs = .ok r) {pc : Nat} {insn : BpfInsn} (hget : insns[pc]? = some insn) :
    frameOffset insn ≠ some (-32768) := by
  obtain ⟨hlt, -⟩ := List.getElem?_eq_some_iff.mp hget
  obtain ⟨i, start, hi, hstart, hstop⟩ := start_before hlt (addSubprog_head hsub) (Nat.zero_le pc)
  obtain ⟨d, -, hd⟩ := mapM_ok_mem h (start, i) (List.mem_zipIdx_iff_getElem?.mpr hi)
  exact subprogDepthChecked_mem hd hstart hstop hget

/-- The scan fails by a panic only. -/
theorem directStackDepthsChecked_error {e : Stop} (h : directStackDepthsChecked insns subprogs = .error e) :
    e = .panic := by
  obtain ⟨⟨start, i⟩, -, hx⟩ := mapM_error h
  have hfold : ∀ (l : List Nat) d, l.foldlM
      (fun depth pc =>
        match insns[pc]? with
        | none => (.error .panic : Exec Nat)
        | some insn => (accessDepthChecked insn).map (max depth)) d = .error e → e = .panic := by
    intro l
    induction l with
    | nil => nofun
    | cons pc rest ih =>
      intro d hd
      rw [List.foldlM_cons] at hd
      cases hget : insns[pc]? with
      | none =>
        rw [hget] at hd
        cases hd
        rfl
      | some insn =>
        rw [hget] at hd
        unfold accessDepthChecked at hd
        dsimp only at hd
        split at hd
        · cases hd
          rfl
        · exact ih _ hd
  exact hfold _ 0 hx

theorem indexed_eq {l : List Nat} {i : Nat} (h : i < l.length) : indexed l i = .ok (l.getD i 0) := by
  unfold indexed
  rw [List.getElem?_eq_getElem h, List.getD_eq_getElem?_getD, List.getElem?_eq_getElem h]
  rfl

theorem chain_range {idx : Nat} (hsub : addSubprog insns = .ok subprogs) (hidx : idx < subprogs.length) :
    (findSubprogRange (subprogs.getD idx 0) subprogs insns.length).2 ≤ insns.length := by
  cases insns with
  | nil =>
    cases hsub
    obtain rfl : idx = 0 := by simpa using hidx
    decide
  | cons insn rest => exact findSubprogRange_le (addSubprog_range (List.cons_ne_nil insn rest) hsub).1 _

theorem mem_append_range {n callee : Nat} {chain : List Nat} (hchain : ∀ c ∈ chain, c < n) (hcallee : callee < n) :
    ∀ c ∈ chain ++ [callee], c < n := by
  intro c hc
  rcases List.mem_append.mp hc with hc | hc
  · exact hchain c hc
  · rw [List.mem_singleton.mp hc]
    exact hcallee

/-- The walk computes its targets and stays in its tables. -/
theorem visitChainChecked_eq (hcalls : CallsExact insns) (hsub : addSubprog insns = .ok subprogs)
    (hdepth : depth.length = subprogs.length) {fuel idx : Nat} {chain : List Nat} (hidx : idx < subprogs.length)
    (hchain : ∀ c ∈ chain, c < subprogs.length) :
    visitChainChecked insns subprogs depth fuel idx chain = visitChain insns subprogs depth fuel idx chain := by
  induction fuel generalizing idx chain with
  | zero => rfl
  | succ fuel ih =>
    unfold visitChainChecked visitChain callsIn
    rw [indexed_eq hidx, ok_bind]
    have hle := chain_range hsub hidx
    generalize findSubprogRange (subprogs.getD idx 0) subprogs insns.length = range at hle ⊢
    obtain ⟨start, stop⟩ := range
    simp only at hle ⊢
    rw [forM_filterMap]
    refine forM_congr fun pc hpc => ?_
    have hstop : pc < insns.length := by
      rw [List.mem_range'_1] at hpc
      omega
    have hget := List.getElem?_eq_getElem hstop
    generalize insns[pc] = insn at hget
    rw [hget]
    cases insn with
    | callSub offset =>
      dsimp only
      rw [hcalls pc offset hget, ok_bind]
      cases hfind : subprogs.findIdx? fun (start : Nat) =>
          decide (wrapI32 start = wrapI32 ((pc : Int) + 1 + offset.toInt)) with
      | none => rfl
      | some callee =>
        have hlonger := mem_append_range hchain (List.findIdx?_eq_some_iff_getElem.mp hfind).1
        have hdepths : (chain ++ [callee]).mapM (indexed depth) =
            .ok ((chain ++ [callee]).map fun c => depth.getD c 0) :=
          mapM_eq_ok fun c hc => indexed_eq (by rw [hdepth]; exact hlonger c hc)
        dsimp only
        rw [hdepths, ok_bind, ih (hlonger callee (List.mem_append_right _ (List.mem_singleton.mpr rfl))) hlonger]
    | _ => rfl

/-- The walk ends before its fuel: the chain has at most 16 frames. -/
theorem visitChain_calm {fuel idx : Nat} {chain : List Nat} (hfuel : fuel + chain.length = maxCallFrames + 1)
    (hpos : 0 < fuel) : visitChain insns subprogs depth fuel idx chain ≠ .error .panic := by
  induction fuel generalizing idx chain with
  | zero => cases hpos
  | succ fuel ih =>
    intro h
    unfold visitChain at h
    obtain ⟨⟨pc, target⟩, -, hx⟩ := forM_error h
    simp only at hx
    split at hx
    · cases hx
    · rename_i callee hfind
      split at hx
      · cases hx
      · split at hx
        · cases hx
        · rename_i hframes
          split at hx
          · cases hx
          · rw [List.length_append, List.length_singleton] at hframes
            exact ih (by rw [List.length_append, List.length_singleton]; omega) (by omega) hx

theorem checkCombinedStackDepthChecked_eq (hcalls : CallsExact insns) (hsub : addSubprog insns = .ok subprogs)
    (h : ∀ insn ∈ insns, frameOffset insn ≠ some (-32768)) :
    checkCombinedStackDepthChecked insns subprogs = checkCombinedStackDepth insns subprogs := by
  have hpos : 0 < subprogs.length := (List.getElem?_eq_some_iff.mp (addSubprog_head hsub)).1
  unfold checkCombinedStackDepthChecked checkCombinedStackDepth
  rw [directStackDepthsChecked_eq hsub h]
  refine visitChainChecked_eq hcalls hsub List.length_mapIdx hpos fun (c : Nat) hc => ?_
  rw [List.mem_singleton.mp hc]
  exact hpos

theorem checkCombinedStackDepth_calm : checkCombinedStackDepth insns subprogs ≠ .error .panic :=
  visitChain_calm rfl (by decide)

end Depth

/-! ## `check_cfg` -/

section Cfg

variable {insns : List BpfInsn} {subprogs : List Nat}

theorem callSites_cons {insn : BpfInsn} {rest : List BpfInsn} {pc : Nat} :
    ((insn :: rest).zipIdx pc).filterMap (fun
      | (.callSub offset, pc) => some (pc, callTarget pc offset)
      | _ => none) =
      (match insn with
        | .callSub offset => [(pc, callTarget pc offset)]
        | _ => []) ++ (rest.zipIdx (pc + 1)).filterMap fun
      | (.callSub offset, pc) => some (pc, callTarget pc offset)
      | _ => none := by
  rw [List.zipIdx_cons, List.filterMap_cons]
  cases insn <;> rfl

/-- The calls are looked up as in the release build if all of them fit. -/
theorem callSitesFrom_eq {pc : Nat} {rest : List BpfInsn} (hlen : pc + rest.length ≤ maxInsns)
    (h : ∀ i offset, rest[i]? = some (.callSub offset) → CallFits (pc + i) offset) :
    callSitesFrom pc rest = .ok ((rest.zipIdx pc).filterMap fun
      | (.callSub offset, pc) => some (pc, callTarget pc offset)
      | _ => none) := by
  induction rest generalizing pc with
  | nil => rfl
  | cons insn rest ih =>
    rw [List.length_cons] at hlen
    have hlen' : pc + 1 + rest.length ≤ maxInsns := by omega
    have hrest := ih hlen' fun i offset hget => by
      rw [show pc + 1 + i = pc + (i + 1) by omega]
      exact h (i + 1) offset hget
    rw [callSites_cons]
    cases insn with
    | callSub offset =>
      have hfit : CallFits pc offset := h 0 offset rfl
      simp only [callSitesFrom]
      rw [targetChecked_call (by omega), if_pos hfit, ok_bind, hrest]
      rfl
    | _ => exact hrest

theorem callSitesFrom_fits {pc : Nat} {rest : List BpfInsn} {sites : List (Nat × Nat)}
    (hlen : pc + rest.length ≤ maxInsns) (h : callSitesFrom pc rest = .ok sites) {i : Nat} {offset : Int32}
    (hget : rest[i]? = some (.callSub offset)) : CallFits (pc + i) offset := by
  induction rest generalizing pc i sites with
  | nil => cases hget
  | cons insn rest ih =>
    rw [List.length_cons] at hlen
    have htail : ∀ {sites' i}, callSitesFrom (pc + 1) rest = .ok sites' → rest[i]? = some (.callSub offset) →
        CallFits (pc + (i + 1)) offset := by
      intro sites' i hsites hi
      rw [show pc + (i + 1) = pc + 1 + i by omega]
      exact ih (by omega) hsites hi
    by_cases hcall : insn.isCallSub = true
    · cases insn with
      | callSub o =>
        simp only [callSitesFrom] at h
        rw [targetChecked_call (by omega)] at h
        by_cases hfit : CallFits pc o
        · rw [if_pos hfit, ok_bind] at h
          obtain ⟨sites', hsites, -⟩ := bind_eq_ok.mp h
          cases i with
          | zero =>
            cases hget
            exact hfit
          | succ i => exact htail hsites hget
        · rw [if_neg hfit] at h
          cases h
      | _ => cases hcall
    · have hskip : callSitesFrom (pc + 1) rest = .ok sites := by
        cases insn with
        | callSub o => exact absurd rfl hcall
        | _ => exact h
      cases i with
      | zero =>
        cases hget
        exact absurd rfl hcall
      | succ i => exact htail hskip hget

theorem callSites_eq (hlen : insns.length ≤ maxInsns)
    (h : ∀ pc offset, insns[pc]? = some (.callSub offset) → CallFits pc offset) :
    callSitesFrom 0 insns = .ok (callSites insns) :=
  callSitesFrom_eq (by omega) fun i offset hget => by
    rw [Nat.zero_add]
    exact h i offset hget

theorem insnNextsChecked_eq (hlen : insns.length ≤ maxInsns)
    (h : ∀ pc offset, insns[pc]? = some (.callSub offset) → CallFits pc offset) {idx start stop : Nat}
    {insn : BpfInsn} (hget : insns[idx]? = some insn) :
    insnNextsChecked idx start stop insns subprogs insn = insnNexts idx start stop insns subprogs insn := by
  have hidx : idx < maxInsns := (List.getElem?_eq_some_iff.mp hget).1.trans_le hlen
  cases insn with
  | exit =>
    simp only [insnNextsChecked, insnNexts]
    rw [callSites_eq hlen h]
    split <;> rfl
  | callSub offset =>
    simp only [insnNextsChecked, insnNexts]
    rw [targetChecked_call hidx, if_pos (h idx offset hget), ok_bind]
  | _ => simp only [insnNextsChecked, insnNexts, BpfInsn.branchOffset, targetChecked_jump hidx, ok_bind]

theorem visitInsnChecked_eq (hlen : insns.length ≤ maxInsns) (hsub : addSubprog insns = .ok subprogs) (idx : Nat) :
    visitInsnChecked idx insns subprogs = visitInsn idx insns subprogs := by
  unfold visitInsnChecked visitInsn
  generalize findSubprogRange idx subprogs insns.length = range
  obtain ⟨start, stop⟩ := range
  simp only
  cases hget : insns[idx]? with
  | none => rfl
  | some insn =>
    have hnexts : insnNextsChecked idx start stop insns subprogs insn =
        insnNexts idx start stop insns subprogs insn :=
      insnNextsChecked_eq hlen (fun pc offset hcall => addSubprog_fits hlen hsub hcall) hget
    simp only
    rw [hnexts]

theorem addStarts_nodup {insnCnt pc : Nat} {rest : List BpfInsn} {starts starts' : List Nat}
    (h : addStarts insnCnt pc rest starts = .ok starts') (hs : starts.Nodup) : starts'.Nodup := by
  fun_induction addStarts insnCnt pc rest starts with
  | case1 =>
    cases h
    exact hs
  | case2 => exact (fail_ne_ok.mp h).elim
  | case3 pc starts offset rest target hlt ih =>
    refine ih h ?_
    split
    · exact hs
    · rename_i hfresh
      exact List.nodup_append.mpr ⟨hs, List.nodup_singleton _, fun a ha b hb heq => by
        rw [List.mem_singleton.mp hb] at heq
        exact hfresh (heq ▸ ha)⟩
  | case4 pc insn rest starts hne ih => exact ih h hs

theorem addSubprog_nodup (h : addSubprog insns = .ok subprogs) : subprogs.Nodup := by
  obtain ⟨starts, hstarts, hsort⟩ := bind_eq_ok.mp h
  cases hsort
  exact (List.perm_insertionSort _ _).nodup_iff.mpr (addStarts_nodup hstarts (List.nodup_singleton 0))

/-- Only the main program starts at 0. -/
theorem addSubprog_tail (h : addSubprog insns = .ok subprogs) : ∀ s ∈ subprogs.tail, 0 < s := by
  intro s hs
  have hnodup := addSubprog_nodup h
  have hhead := addSubprog_head h
  cases subprogs with
  | nil => cases hs
  | cons first rest =>
    cases hhead
    refine Nat.pos_of_ne_zero fun h0 => ?_
    subst h0
    exact (List.nodup_cons.mp hnodup).1 hs

theorem checkSubprogEndsChecked_eq (hpos : 0 < insns.length) (h : ∀ s ∈ subprogs.tail, 0 < s) :
    checkSubprogEndsChecked insns subprogs = checkSubprogEnds insns subprogs := by
  induction subprogs with
  | nil => rfl
  | cons start rest ih =>
    have hstop : (rest[0]?).getD insns.length ≠ 0 := by
      cases rest with
      | nil => exact Nat.ne_of_gt hpos
      | cons next rest => exact Nat.ne_of_gt (h next List.mem_cons_self)
    have hrest := ih fun s hs => h s (List.mem_of_mem_tail hs)
    unfold checkSubprogEndsChecked checkSubprogEnds
    dsimp only
    rw [if_neg hstop]
    cases insns[(rest[0]?).getD insns.length - 1]? with
    | none => rfl
    | some insn =>
      dsimp only
      rw [hrest]

theorem checkSubprogEnds_calm (hpos : 0 < insns.length) (h : ∀ s ∈ subprogs, s < insns.length) :
    checkSubprogEnds insns subprogs ≠ .error .panic := by
  fun_induction checkSubprogEnds insns subprogs with
  | case1 => simp
  | case2 start rest stop hnone =>
    rw [List.getElem?_eq_none_iff] at hnone
    have hstop : stop ≤ insns.length := by
      show (rest[0]?).getD insns.length ≤ insns.length
      cases rest with
      | nil => exact Nat.le_refl _
      | cons next rest => exact (h next (List.mem_cons_of_mem _ List.mem_cons_self)).le
    omega
  | case3 start rest stop insn hget hend ih => exact ih fun s hs => h s (List.mem_cons_of_mem _ hs)
  | case4 => simp [fail]

theorem cfgLoopWith_eq (fuel : Nat) (s : Search Nat) :
    cfgLoopWith (visitInsn · insns subprogs) insns.length fuel s = cfgLoop insns subprogs fuel s := by
  induction fuel generalizing s with
  | zero => rfl
  | succ fuel ih =>
    have hiterate : cfgIterateWith (visitInsn · insns subprogs) insns.length s = cfgIterate insns subprogs s := rfl
    unfold cfgLoopWith cfgLoop
    rw [hiterate]
    cases cfgIterate insns subprogs s with
    | error e => rfl
    | ok next =>
      cases next with
      | none => rfl
      | some t => exact ih t

theorem checkCfgChecked_eq (hlen : insns.length ≤ maxInsns) (hsub : addSubprog insns = .ok subprogs) (fuel : Nat) :
    checkCfgChecked fuel insns subprogs = checkCfg fuel insns subprogs := by
  unfold checkCfgChecked checkCfg
  by_cases hnil : insns = []
  · rw [if_pos hnil, if_pos hnil]
  · have hvisit : (visitInsnChecked · insns subprogs) = (visitInsn · insns subprogs) :=
      funext fun idx => visitInsnChecked_eq hlen hsub idx
    rw [if_neg hnil, if_neg hnil, hvisit,
      checkSubprogEndsChecked_eq (List.length_pos_iff.mpr hnil) (addSubprog_tail hsub)]
    cases checkSubprogEnds insns subprogs with
    | error e => rfl
    | ok u => exact congrArg (Option.map _) (cfgLoopWith_eq fuel _)

theorem checkTarget_calm {idx target start stop : Nat} {kind : String} :
    checkTarget idx target start stop kind insns ≠ .error .panic := by
  unfold checkTarget failIf checkLdimm64Target
  split
  · nofun
  · rw [ok_bind]
    split <;> nofun

theorem bind_calm {α β : Type} {x : Exec α} {f : α → Exec β} (hx : x ≠ .error .panic)
    (hf : ∀ a, f a ≠ .error .panic) : (x >>= f) ≠ .error .panic := by
  cases x with
  | error e =>
    intro h
    cases h
    exact hx rfl
  | ok a => exact hf a

theorem visitInsn_calm {idx : Nat} (hidx : idx < insns.length) : visitInsn idx insns subprogs ≠ .error .panic := by
  unfold visitInsn
  rw [List.getElem?_eq_getElem hidx]
  refine bind_calm ?_ fun nexts => ?_
  · unfold insnNexts
    split
    · nofun
    · exact bind_calm checkTarget_calm fun _ => nofun
    · dsimp only
      split <;> nofun
    · split
      · exact bind_calm checkTarget_calm fun _ => nofun
      · nofun
  · unfold failIf
    split <;> nofun

/-- The search ends with its heads or a failure. -/
theorem checkCfg_calm (hsub : addSubprog insns = .ok subprogs) {fuel : Nat} {r : Exec (List Nat)}
    (h : checkCfg fuel insns subprogs = some r) : r ≠ .error .panic := by
  unfold checkCfg at h
  by_cases hnil : insns = []
  · rw [if_pos hnil] at h
    cases h
    simp [fail]
  · rw [if_neg hnil] at h
    have hpos := List.length_pos_iff.mpr hnil
    obtain ⟨hrange, hmain⟩ := addSubprog_range hnil hsub
    have hne : subprogs ≠ [] := List.ne_nil_of_mem hmain
    cases hcheck : checkSubprogEnds insns subprogs with
    | error e =>
      rw [hcheck] at h
      cases h
      intro hpanic
      cases hpanic
      exact checkSubprogEnds_calm hpos hrange hcheck
    | ok u =>
      rw [hcheck] at h
      have hends := checkSubprogEnds_eq_ok.mp hcheck
      obtain ⟨t, ht, hr⟩ := Option.map_eq_some_iff.mp h
      -- a round fails only by a failure of its instruction
      have hloop : ∀ fuel s t, CfgRun insns subprogs s → cfgLoop insns subprogs fuel s = some t →
          t ≠ .error .panic := by
        intro fuel
        induction fuel with
        | zero =>
          intro s t hs ht
          cases ht
        | succ fuel ih =>
          intro s t hs ht
          unfold cfgLoop at ht
          cases hit : cfgIterate insns subprogs s with
          | error e =>
            rw [hit] at ht
            cases ht
            intro hpanic
            cases hpanic
            have hstack := hs.stack_range hrange hne hpos hends
            unfold cfgIterate at hit
            split at hit
            · cases hit
            · rename_i idx child rest hstk
              have hidx : idx < insns.length := hstack idx (by rw [hstk]; exact List.mem_cons_self)
              cases hvisit : visitInsn idx insns subprogs with
              | error e =>
                rw [hvisit] at hit
                cases hit
                exact visitInsn_calm hidx hvisit
              | ok nexts =>
                rw [hvisit, ok_bind] at hit
                split at hit
                · rename_i nxt hnxt
                  have hlt := visitInsn_range hrange hne hends hvisit nxt (List.mem_of_getElem? hnxt)
                  rw [if_neg (by omega)] at hit
                  split at hit <;> cases hit
                · cases hit
          | ok next =>
            rw [hit] at ht
            cases next with
            | none =>
              cases ht
              simp
            | some s' => exact ih s' t (hs.iterate hit) ht
      rw [← hr]
      refine bind_calm (hloop fuel _ t cfgRun_start ht) fun s => ?_
      unfold cfgResult
      split <;> simp [fail]

end Cfg

/-! ## The liveness pass -/

section Successors

variable {program : List BpfInsn}

/-- With an exit behind the first instruction every call fits. -/
def ReturnsFit (program : List BpfInsn) : Prop :=
  ∀ i, i ≠ 0 → program[i]? = some .exit →
    ∀ pc offset, program[pc]? = some (.callSub offset) → CallFits pc offset

/-- No exit returns behind a call that is the last instruction. -/
def ReturnsInside (program : List BpfInsn) : Prop :=
  ∀ i offset, i ≠ 0 → program[i]? = some .exit → program[program.length - 1]? = some (.callSub offset) →
    subprogEntryAt i program ≠ some (callTarget (program.length - 1) offset)

theorem staticSuccessorsChecked_eq (hlen : program.length ≤ maxInsns) (h : ReturnsFit program) (i : Nat) :
    staticSuccessorsChecked i program = .ok (staticSuccessors i program) := by
  unfold staticSuccessorsChecked
  split
  · rename_i hget
    unfold staticSuccessors
    simp only [hget]
    by_cases h0 : i = 0
    · rw [if_pos h0, if_pos h0]
    · rw [if_neg h0, if_neg h0, callSites_eq hlen (h i h0 hget), ok_bind]
      unfold subprogEntryAt
      dsimp only
      split
      · rename_i hlast
        rw [if_pos hlast]
      · rename_i hlast
        rw [if_neg hlast]
  · rfl

theorem staticSuccessorsChecked_fits (hlen : program.length ≤ maxInsns) {i : Nat} {succs : List Nat}
    (h : staticSuccessorsChecked i program = .ok succs) (h0 : i ≠ 0) (hget : program[i]? = some .exit)
    {pc : Nat} {offset : Int32} (hcall : program[pc]? = some (.callSub offset)) : CallFits pc offset := by
  unfold staticSuccessorsChecked at h
  rw [hget] at h
  dsimp only at h
  rw [if_neg h0] at h
  obtain ⟨sites, hsites, -⟩ := bind_eq_ok.mp h
  have hfit := callSitesFrom_fits (by omega) hsites hcall
  rwa [Nat.zero_add] at hfit

theorem inRange_lt {i n s : Nat} {offset : Int} (h : s ∈ inRange i offset n) : s < n := by
  unfold inRange at h
  dsimp only at h
  split at h
  · rw [List.mem_singleton.mp h]
    omega
  · cases h

/-- Only a return may leave the program. -/
theorem staticSuccessors_inside :
    (∀ i < program.length, ∀ s ∈ staticSuccessors i program, s < program.length) ↔ ReturnsInside program := by
  constructor
  · intro h i offset h0 hexit hlast hentry
    have hlt := (List.getElem?_eq_some_iff.mp hexit).1
    have hmem : program.length - 1 + 1 ∈ staticSuccessors i program := by
      unfold staticSuccessors
      simp only [hexit, if_neg h0, hentry]
      refine List.mem_map.mpr ⟨(program.length - 1, callTarget (program.length - 1) offset), ?_, rfl⟩
      exact List.mem_filter.mpr ⟨mem_callSites.mpr ⟨offset, hlast, rfl⟩, decide_eq_true rfl⟩
    have := h i hlt _ hmem
    omega
  · intro h i hlt s hs
    have hfall : s ∈ (if i + 1 < program.length then [i + 1] else []) → s < program.length := by
      intro hs
      split at hs
      · rw [List.mem_singleton.mp hs]
        assumption
      · cases hs
    unfold staticSuccessors at hs
    dsimp only at hs
    split at hs
    · cases hs
    · rename_i hexit
      split at hs
      · cases hs
      · rename_i h0
        split at hs
        · cases hs
        · rename_i start hentry
          obtain ⟨⟨pc, target⟩, hsite, rfl⟩ := List.mem_map.mp hs
          obtain ⟨hmem, htarget⟩ := List.mem_filter.mp hsite
          obtain ⟨offset, hget, rfl⟩ := mem_callSites.mp hmem
          have hpc := (List.getElem?_eq_some_iff.mp hget).1
          by_contra hout
          obtain rfl : pc = program.length - 1 := by
            dsimp only at hout
            omega
          exact h i offset h0 hexit hget (hentry.trans (congrArg some (of_decide_eq_true htarget).symm))
    · exact inRange_lt hs
    · exact inRange_lt hs
    · split at hs
      · rcases List.mem_append.mp hs with hs | hs
        · exact hfall hs
        · exact inRange_lt hs
      · exact hfall hs

theorem analyze_ok (h : ReturnsInside program) : ∃ l, analyze program = .ok l := by
  unfold analyze
  rw [if_pos]
  · exact ⟨_, rfl⟩
  · rw [List.all_eq_true]
    intro i hi
    rw [List.all_eq_true]
    intro s hs
    exact decide_eq_true (staticSuccessors_inside.mpr h i (List.mem_range.mp hi) s hs)

theorem analyzeChecked_eq (hlen : program.length ≤ maxInsns) (h : ReturnsFit program) :
    analyzeChecked program = analyze program := by
  have hsuccs : (List.range program.length).mapM (staticSuccessorsChecked · program) =
      .ok ((List.range program.length).map (staticSuccessors · program)) :=
    mapM_eq_ok fun i _ => staticSuccessorsChecked_eq hlen h i
  unfold analyzeChecked analyze
  rw [hsuccs, ok_bind, List.all_map]
  rfl

theorem analyzeChecked_fits (hlen : program.length ≤ maxInsns) {l : Liveness} (h : analyzeChecked program = .ok l) :
    ReturnsFit program ∧ ReturnsInside program := by
  obtain ⟨succs, hsuccs, hall⟩ := bind_eq_ok.mp h
  have hfit : ReturnsFit program := by
    intro i h0 hexit pc offset hcall
    have hlt := (List.getElem?_eq_some_iff.mp hexit).1
    obtain ⟨out, -, hout⟩ := mapM_ok_mem hsuccs i (List.mem_range.mpr hlt)
    exact staticSuccessorsChecked_fits hlen hout h0 hexit hcall
  refine ⟨hfit, staticSuccessors_inside.mp fun i hlt s hs => ?_⟩
  rw [analyzeChecked_eq hlen hfit] at h
  unfold analyze at h
  dsimp only at h
  split at h
  · rename_i hinside
    rw [List.all_eq_true] at hinside
    exact of_decide_eq_true (List.all_eq_true.mp (hinside i (List.mem_range.mpr hlt)) s hs)
  · cases h

end Successors

/-! ## All passes -/

/-- The passes end without a panic, and a computed target is exact where the exact one is in
    the program. The liveness pass ends at a fixed point. -/
structure PassesOk (insns : List BpfInsn) : Prop where
  targets : ∀ pc offset target, pc < insns.length → targetChecked pc offset = .ok target →
    0 ≤ (pc : Int) + 1 + offset ∧ (pc : Int) + 1 + offset < insns.length → (target : Int) = (pc : Int) + 1 + offset
  subprogs : addSubprogChecked insns ≠ .error .panic
  depth : ∀ subprogs, addSubprogChecked insns = .ok subprogs →
    checkCombinedStackDepthChecked insns subprogs ≠ .error .panic
  cfg : ∀ subprogs, addSubprogChecked insns = .ok subprogs → ∃ r, r ≠ .error .panic ∧
    ∀ fuel, cfgFuel insns subprogs < fuel → checkCfgChecked fuel insns subprogs = some r
  liveness : ∃ l, analyzeChecked insns = .ok l ∧ livePass insns l.masks = l.masks

/-- The condition: the first call that leaves the program fits, all calls do if there is an
    exit behind the first instruction, no exit returns past the end, and if all calls lead
    into the program no access is at `r10 - 32768`. -/
structure PassesFit (insns : List BpfInsn) : Prop where
  length : insns.length ≤ maxInsns
  starts : StartsFit insns.length 0 insns
  returnsFit : ReturnsFit insns
  returnsInside : ReturnsInside insns
  frame : (∀ pc offset, insns[pc]? = some (.callSub offset) → callTarget pc offset < insns.length) →
    ∀ insn ∈ insns, frameOffset insn ≠ some (-32768)

section Passes

variable {insns : List BpfInsn} {subprogs : List Nat}

theorem PassesFit.ok (h : PassesFit insns) : PassesOk insns := by
  have hsub : addSubprogChecked insns = addSubprog insns := addSubprogChecked_eq h.length h.starts
  refine ⟨fun pc offset target hpc htarget hin => targetChecked_exact h.length hpc hin htarget,
    (addSubprogChecked_calm h.length).mpr h.starts, fun subprogs hok => ?_, fun subprogs hok => ?_, ?_⟩
  · rw [hsub] at hok
    have hframe := h.frame fun pc offset hget => addSubprog_calls hok hget
    rw [checkCombinedStackDepthChecked_eq (addSubprog_exact h.length hok) hok hframe]
    exact checkCombinedStackDepth_calm
  · rw [hsub] at hok
    obtain ⟨r, hr, -, -⟩ := check_cfg_correct hok
    refine ⟨r, checkCfg_calm hok (hr _ (Nat.lt_succ_self _)), fun fuel hfuel => ?_⟩
    rw [checkCfgChecked_eq h.length hok]
    exact hr fuel hfuel
  · obtain ⟨l, hl⟩ := analyze_ok h.returnsInside
    exact ⟨l, (analyzeChecked_eq h.length h.returnsFit).trans hl, analyze_fixed hl⟩

theorem PassesOk.fit (hlen : insns.length ≤ maxInsns) (h : PassesOk insns) : PassesFit insns := by
  have hstarts := (addSubprogChecked_calm hlen).mp h.subprogs
  obtain ⟨l, hl, -⟩ := h.liveness
  obtain ⟨hfit, hinside⟩ := analyzeChecked_fits hlen hl
  refine ⟨hlen, hstarts, hfit, hinside, fun hcalls insn hmem hbad => ?_⟩
  obtain ⟨subprogs, hsub⟩ := addSubprog_ok hcalls
  have hdepth := h.depth subprogs ((addSubprogChecked_eq hlen hstarts).trans hsub)
  obtain ⟨pc, hget⟩ := List.mem_iff_getElem?.mp hmem
  -- the negated offset is computed before the walk
  cases hdepths : directStackDepthsChecked insns subprogs with
  | ok depths => exact directStackDepthsChecked_mem hsub hdepths hget hbad
  | error e =>
    unfold checkCombinedStackDepthChecked at hdepth
    rw [hdepths, directStackDepthsChecked_error hdepths] at hdepth
    exact hdepth rfl

/-- The passes are free of overflow and of indices out of range under the condition, and up
    to `maxInsns` instructions only then. -/
theorem passes_fit (insns : List BpfInsn) :
    (PassesFit insns → PassesOk insns) ∧ (insns.length ≤ maxInsns → PassesOk insns → PassesFit insns) :=
  ⟨PassesFit.ok, PassesOk.fit⟩

/-- A call by `i32::MAX` overflows the first pass. -/
theorem farthest_call : ¬ ∀ bytes insns, decodeProgram bytes = .ok insns → PassesOk insns := by
  intro h
  have hok := h [0x85, 0x10, 0, 0, 0xff, 0xff, 0xff, 0x7f, 0x95, 0, 0, 0, 0, 0, 0, 0]
    [.callSub 2147483647, .exit] (by decide)
  exact hok.subprogs (by decide)

end Passes

end RandVerifier
