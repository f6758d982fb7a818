/-
  RandVerifier.CallReturn — calls and returns of the verifier state (`src/state.rs`), and the
  frames they leave behind.

  A sequence of operations calls, changes the registers and the stack of the current frame,
  and returns. In a balanced one every return has its call; between a call and its return
  anything may happen in the callee and in what it calls.

  - `call_round_trip`: a balanced sequence runs to its end if and only if its calls fit the
    frames, and a return gives back the caller's frame, whatever the callee did.
  - `return_addresses`: on every item of the verifier's worklist each frame returns behind the
    call that entered it, in the subprogram of the frame below.
-/

import RandVerifier.Engines

namespace RandVerifier

/-! ## Operations -/

inductive FrameOp where
  | call (returnPc : Nat)
  | change (regs : Regs) (stack : StackState)
  | ret

/-- The state after an operation, and whether it succeeds. -/
def FrameOp.apply : FrameOp → VerifierState → VerifierState × Bool
  | .call returnPc, st =>
    match st.callSubprog returnPc with
    | .ok callee => (callee, true)
    -- the limit is checked before anything is written
    | .error _ => (st, false)
  | .change regs stack, st => ({ st with regs, stack }, true)
  | .ret, st => st.returnFromSubprog

/-- The operations in turn, unless one fails. -/
def runFrames : List FrameOp → VerifierState → Option VerifierState
  | [], st => some st
  | op :: ops, st => if (op.apply st).2 then runFrames ops (op.apply st).1 else none

inductive Balanced : List FrameOp → Prop where
  | nil : Balanced []
  | change {regs : Regs} {stack : StackState} {ops : List FrameOp} :
    Balanced ops → Balanced (.change regs stack :: ops)
  | call {pc : Nat} {body ops : List FrameOp} :
    Balanced body → Balanced ops → Balanced (.call pc :: body ++ .ret :: ops)

/-- The deepest frame of a sequence that starts at a depth. -/
def deepest : List FrameOp → Nat → Nat
  | [], d => d
  | .call _ :: ops, d => deepest ops (d + 1)
  | .change _ _ :: ops, d => deepest ops d
  | .ret :: ops, d => max d (deepest ops (d - 1))

theorem runFrames_append (ops ops' : List FrameOp) (st : VerifierState) :
    runFrames (ops ++ ops') st = (runFrames ops st).bind (runFrames ops') := by
  induction ops generalizing st with
  | nil => rfl
  | cons op ops ih =>
    simp only [List.cons_append, runFrames]
    split
    · exact ih _
    · rfl

/-- What a balanced sequence leaves alone. -/
structure SameOuter (st t : VerifierState) : Prop where
  curframe : t.curframe = st.curframe
  retPc : t.retPc = st.retPc
  saved : ∀ k < st.curframe, t.saved k = st.saved k

/-- A return to a caller that was saved, after the callee ended in `inner`. -/
structure Returned (st inner t : VerifierState) : Prop where
  outer : SameOuter st t
  calleeSaved : ∀ r : Reg, 6 ≤ r → t.regs r = st.regs r
  stack : t.stack = st.stack
  result : t.regs 0 = inner.regs 0
  args : ∀ r : Reg, 1 ≤ r → r ≤ 5 → t.regs r = .uninit
  slot : t.saved st.curframe = none

variable {st callee inner : VerifierState} {pc : Nat}

theorem returnFromSubprog_saved {st : VerifierState} {fr : FrameState} {d : Nat} (hd : st.curframe = d + 1)
    (hfr : st.saved d = some fr) : st.returnFromSubprog.2 = true := by
  unfold VerifierState.returnFromSubprog
  rw [if_neg (by omega)]
  simp only [hd, Nat.add_sub_cancel, hfr]

/-- The return that matches a call. -/
theorem returned_of_call (hcall : st.callSubprog pc = .ok callee) (hin : SameOuter callee inner) :
    inner.retPc = pc ∧ inner.returnFromSubprog.2 = true ∧ Returned st inner inner.returnFromSubprog.1 := by
  obtain ⟨-, rfl⟩ := callSubprog_eq_ok hcall
  obtain ⟨hcur, hret, hsaved⟩ := hin
  dsimp only at hcur hret hsaved
  have hslot : inner.saved st.curframe = some st.currentFrame := by
    rw [hsaved _ (Nat.lt_succ_self _), Function.update_self]
  refine ⟨hret, returnFromSubprog_saved hcur hslot, ?_⟩
  rw [returnFromSubprog_eq hcur hslot]
  refine ⟨⟨rfl, rfl, fun k hk => ?_⟩, fun r hr => ?_, rfl, ?_, fun r h1 h5 => if_pos ⟨h1, h5⟩, ?_⟩
  · dsimp only [VerifierState.clobberArgs]
    rw [Function.update_of_ne (by omega), hsaved k (by omega), Function.update_of_ne (by omega)]
  · have hne : ¬ (1 ≤ r ∧ r ≤ 5) ∧ r ≠ 0 := by
      revert r
      decide
    dsimp only [VerifierState.clobberArgs]
    rw [if_neg hne.1, Function.update_of_ne hne.2]
    rfl
  · dsimp only [VerifierState.clobberArgs]
    rw [if_neg (by decide), Function.update_self]
  · exact Function.update_self _ _ _

theorem callSubprog_full {pc : Nat} {st : VerifierState} (h : maxCallFrames ≤ st.curframe + 1) :
    (FrameOp.call pc).apply st = (st, false) := by
  have hcall : st.callSubprog pc = .error "the call stack of 16 frames is too deep" := if_pos (by omega)
  simp only [FrameOp.apply, hcall]

theorem callSubprog_room {pc : Nat} {st : VerifierState} (h : st.curframe + 1 < maxCallFrames) :
    ∃ callee, st.callSubprog pc = .ok callee ∧ (FrameOp.call pc).apply st = (callee, true) ∧
      callee.curframe = st.curframe + 1 := by
  have hroom : ¬ maxCallFrames - 1 ≤ st.curframe := by omega
  obtain ⟨callee, hcall⟩ : ∃ callee, st.callSubprog pc = .ok callee := ⟨_, if_neg hroom⟩
  refine ⟨callee, hcall, ?_, ?_⟩
  · simp only [FrameOp.apply, hcall]
  · obtain ⟨-, rfl⟩ := callSubprog_eq_ok hcall
    rfl

theorem deepest_ge (ops : List FrameOp) (d : Nat) : d ≤ deepest ops d := by
  induction ops generalizing d with
  | nil => exact Nat.le_refl d
  | cons op ops ih =>
    cases op with
    | call => exact Nat.le_of_succ_le (ih (d + 1))
    | change => exact ih d
    | ret => exact Nat.le_max_left _ _

theorem deepest_balanced {body : List FrameOp} (hb : Balanced body) (ops : List FrameOp) (d : Nat) :
    deepest (body ++ ops) d = max (deepest body d) (deepest ops d) := by
  induction hb generalizing ops d with
  | nil => exact (Nat.max_eq_right (deepest_ge ops d)).symm
  | change _ ih => exact ih ops d
  | @call pc body rest hbody hrest ihbody ihrest =>
    have hsub : d + 1 - 1 = d := rfl
    simp only [List.append_assoc, List.cons_append, deepest, ihbody, ihrest, hsub]
    omega

/-- A balanced sequence runs to its end exactly if its calls fit, and then it leaves the
    frames below alone. -/
theorem balanced_run {body : List FrameOp} (hb : Balanced body) (st : VerifierState) (hst : st.curframe < maxCallFrames) :
    (deepest body st.curframe < maxCallFrames → ∃ inner, runFrames body st = some inner ∧ SameOuter st inner) ∧
    (maxCallFrames ≤ deepest body st.curframe → runFrames body st = none) := by
  induction hb generalizing st with
  | nil =>
    exact ⟨fun _ => ⟨st, rfl, rfl, rfl, fun _ _ => rfl⟩, fun h => by simp only [deepest] at h; omega⟩
  | @change regs stack ops _ ih =>
    obtain ⟨hok, hno⟩ := ih { st with regs, stack } hst
    refine ⟨fun h => ?_, fun h => hno h⟩
    obtain ⟨inner, hrun, houter⟩ := hok h
    exact ⟨inner, hrun, houter.curframe, houter.retPc, houter.saved⟩
  | @call pc body ops hbody hops ihbody ihops =>
    have hdeep : deepest (.call pc :: body ++ .ret :: ops) st.curframe =
        max (deepest body (st.curframe + 1)) (deepest ops st.curframe) := by
      have hsub : st.curframe + 1 - 1 = st.curframe := rfl
      have h1 := deepest_ge body (st.curframe + 1)
      have h2 := deepest_ge ops st.curframe
      simp only [List.cons_append, deepest, deepest_balanced hbody, hsub]
      omega
    rw [hdeep]
    have hge := deepest_ge body (st.curframe + 1)
    by_cases hlim : st.curframe + 1 < maxCallFrames
    · obtain ⟨callee, hcall, happly, hcur⟩ := @callSubprog_room pc st hlim
      obtain ⟨hok, hno⟩ := ihbody callee (by omega)
      rw [hcur] at hok hno
      have hrun : runFrames (.call pc :: body ++ .ret :: ops) st =
          (runFrames body callee).bind (runFrames (.ret :: ops)) := by
        simp only [List.cons_append, runFrames, happly, runFrames_append, if_true]
      rw [hrun]
      by_cases hfit : deepest body (st.curframe + 1) < maxCallFrames
      · obtain ⟨inner, hinner, houter⟩ := hok hfit
        obtain ⟨-, hret, hreturned⟩ := returned_of_call hcall houter
        have hsame := hreturned.outer
        obtain ⟨hok', hno'⟩ := ihops inner.returnFromSubprog.1 (by rw [hsame.curframe]; exact hst)
        rw [hsame.curframe] at hok' hno'
        have hnext : runFrames (.ret :: ops) inner = runFrames ops inner.returnFromSubprog.1 := if_pos hret
        rw [hinner, Option.bind_some, hnext]
        refine ⟨fun h => ?_, fun h => hno' (by omega)⟩
        obtain ⟨last, hlast, hl⟩ := hok' (by omega)
        refine ⟨last, hlast, hl.curframe.trans hsame.curframe, hl.retPc.trans hsame.retPc, fun k hk => ?_⟩
        rw [hl.saved k (by rw [hsame.curframe]; exact hk), hsame.saved k hk]
      · refine ⟨fun h => by omega, fun _ => ?_⟩
        rw [hno (by omega)]
        rfl
    · refine ⟨fun h => by omega, fun _ => ?_⟩
      have hfail := @callSubprog_full pc st (by omega)
      simp only [List.cons_append, runFrames, hfail]
      rfl

/-- A call, a balanced sequence in the callee, and the return: it all runs exactly if the
    frames suffice, and then the caller is back as it was, but for the callee's R0 and the
    argument registers. Without a frame left the call fails and changes nothing. -/
theorem call_round_trip {body : List FrameOp} (hb : Balanced body) (st : VerifierState) (pc : Nat) :
    (deepest body (st.curframe + 1) < maxCallFrames →
      ∃ inner, runFrames (.call pc :: body) st = some inner ∧ inner.retPc = pc ∧
        runFrames (.call pc :: body ++ [.ret]) st = some inner.returnFromSubprog.1 ∧
        Returned st inner inner.returnFromSubprog.1) ∧
    (maxCallFrames ≤ deepest body (st.curframe + 1) → runFrames (.call pc :: body ++ [.ret]) st = none) ∧
    (maxCallFrames ≤ st.curframe + 1 → (FrameOp.call pc).apply st = (st, false)) := by
  have hge := deepest_ge body (st.curframe + 1)
  by_cases hlim : st.curframe + 1 < maxCallFrames
  · obtain ⟨callee, hcall, happly, hcur⟩ := @callSubprog_room pc st hlim
    have hrun : ∀ ops, runFrames (.call pc :: ops) st = runFrames ops callee := by
      intro ops
      simp only [runFrames, happly, if_true]
    have hbody := balanced_run hb callee (by omega)
    rw [hcur] at hbody
    rw [List.cons_append, hrun, hrun, runFrames_append]
    refine ⟨fun hfit => ?_, fun hdeep => ?_, fun h => by omega⟩
    · obtain ⟨inner, hinner, houter⟩ := hbody.1 hfit
      obtain ⟨hpc, hok, hret⟩ := returned_of_call hcall houter
      refine ⟨inner, hinner, hpc, ?_, hret⟩
      rw [hinner, Option.bind_some]
      exact if_pos hok
    · rw [hbody.2 hdeep]
      rfl
  · have hfail := @callSubprog_full pc st (by omega)
    refine ⟨fun h => by omega, fun _ => ?_, fun _ => hfail⟩
    simp only [List.cons_append, runFrames, hfail]
    rfl

/-- Two nested calls from the initial state, R6 overwritten in the inner callee. -/
theorem call_round_trip_nested :
    ∃ inner, runFrames [.call 1, .call 9, .change (fun _ => .uninit) .new, .ret] (.initialWith .socketFilter) =
        some inner ∧
      Returned (.initialWith .socketFilter) inner inner.returnFromSubprog.1 := by
  have hbody : Balanced [.call 9, .change (fun _ => .uninit) .new, .ret] := .call (.change .nil) .nil
  obtain ⟨inner, hrun, -, -, hret⟩ := (call_round_trip hbody (.initialWith .socketFilter) 1).1 (by decide)
  exact ⟨inner, hrun, hret⟩

/-! ## Frames and their subprograms -/

/-- The address a frame returns to. -/
def frameReturn (st : VerifierState) (frameno : Nat) : Option Nat :=
  if frameno = st.curframe then some st.retPc else (st.saved frameno).map (·.retPc)

/-- The subprogram that owns a frame, read off the call before its return address. -/
def frameSubprogEntry (st : VerifierState) (frameno : Nat) (insns : List BpfInsn) : Option Nat :=
  if frameno = 0 then some 0
  else if st.curframe < frameno then none
  else do
    let returnPc ← frameReturn st frameno
    if returnPc = 0 then none
    else
      match insns[returnPc - 1]? with
      | some (.callSub offset) => some (callTarget (returnPc - 1) offset)
      | _ => none

/-- An instruction lies in the subprogram that starts at `entry`. -/
structure InSubprog (insns : List BpfInsn) (subprogs : List Nat) (entry pc : Nat) : Prop where
  start : entryOf insns subprogs pc = entry
  inside : pc < insns.length

/-- Frame `k` executes the subprogram at `entry k`. -/
structure FramesOwned (insns : List BpfInsn) (subprogs : List Nat) (pc : Nat) (st : VerifierState)
    (entry : Nat → Nat) : Prop where
  main : entry 0 = 0
  current : InSubprog insns subprogs (entry st.curframe) pc
  /-- A frame returns behind the call that entered it, into the frame below. -/
  caller : ∀ k < st.curframe, ∃ c offset, frameReturn st (k + 1) = some (c + 1) ∧
    insns[c]? = some (.callSub offset) ∧ callTarget c offset = entry (k + 1) ∧
    InSubprog insns subprogs (entry k) c ∧ InSubprog insns subprogs (entry k) (c + 1)
  owner : ∀ k ≤ st.curframe, frameSubprogEntry st k insns = some (entry k)

variable {insns : List BpfInsn} {subprogs : List Nat}

/-- The accepted programs, whatever fuel the search took. -/
theorem Accepted.of_checkCfg {fuel : Nat} {heads : List Nat} (hsub : addSubprog insns = .ok subprogs)
    (hdepth : checkCombinedStackDepth insns subprogs = .ok ())
    (hcfg : checkCfg fuel insns subprogs = some (.ok heads)) : Accepted insns subprogs := by
  have hmore : checkCfg (max fuel (cfgFuel insns subprogs + 1)) insns subprogs = some (.ok heads) := by
    unfold checkCfg at hcfg ⊢
    split at hcfg
    · rename_i hnil
      rw [if_pos hnil]
      exact hcfg
    · rename_i hnil
      rw [if_neg hnil]
      split at hcfg
      · exact hcfg
      · obtain ⟨r, hr, hheads⟩ := Option.map_eq_some_iff.mp hcfg
        rw [cfgLoop_mono (Nat.le_max_left _ _) hr]
        exact congrArg some hheads
  exact ⟨hsub, hdepth, checkCfg_accepts hsub (by omega) hmore⟩

theorem Accepted.inside (h : Accepted insns subprogs) {pc n : Nat} (hn : n ∈ cfgEdges insns subprogs pc) :
    n < insns.length :=
  have hrange := addSubprog_range h.cfg.nonempty h.sub
  cfgEdges_range hrange.1 h.subprogs_ne_nil h.cfg.ends hn

/-- A program of at most 32767 instructions calls with offsets of 16 bits. -/
theorem Accepted.callsFit (h : Accepted insns subprogs) (hlen : insns.length ≤ 32767) : CallsFit insns := by
  intro pc offset hget
  obtain ⟨hpc, -⟩ := List.getElem?_eq_some_iff.mp hget
  have htarget := (addSubprog_range h.cfg.nonempty h.sub).1 _ (h.target_mem hget)
  have hlo := offset.le_toInt
  have hhi := offset.toInt_lt
  unfold callTarget at htarget
  omega

/-- The verifier stays in the program. -/
theorem path_inside (h : Accepted insns subprogs) (hfit : CallsFit insns) {progType : ProgType} {x : Succ}
    (hx : Path insns progType x) : x.1 < insns.length := by
  induction hx with
  | init h0 =>
    subst h0
    exact List.length_pos_iff.mpr h.cfg.nonempty
  | @step s t hreach hstep ih =>
    cases hstep with
    | @next pc st insn l _ hget hl hx =>
      refine h.inside (h.insn_edge hget ?_)
      have htarget := successors_target hl hx
      by_cases hcall : insn.isCallSub = true
      · cases insn with
        | callSub offset =>
          rw [execTargets, branchTarget_toInt16.mpr (hfit pc offset hget)] at htarget
          exact htarget
        | _ => cases hcall
      · rw [execTargets_eq (by simpa using hcall)] at htarget
        exact htarget
    | ret hget hcur hr0 =>
      have hstack := path_callStack h hfit hreach
      dsimp only at hstack
      rw [returnFromSubprog_returns (path_framed hreach) hcur] at hstack
      exact h.inside (hstack.leave h hget).1

/-- The frames of a call stack, numbered from the main program. -/
theorem CallStack.frames {pc depth ret : Nat} {saved : Nat → Option Nat}
    (hs : CallStack insns subprogs pc (returnsTo saved depth ret)) :
    ∃ entry : Nat → Nat, entry 0 = 0 ∧ entry depth = entryOf insns subprogs pc ∧
      ∀ k < depth, ∃ c offset, (if k + 1 = depth then ret else (saved (k + 1)).getD 0) = c + 1 ∧
        insns[c]? = some (.callSub offset) ∧ callTarget c offset = entry (k + 1) ∧
        entryOf insns subprogs c = entry k := by
  induction depth generalizing pc ret with
  | zero =>
    cases hs with
    | main h0 => exact ⟨fun _ => 0, rfl, h0.symm, nofun⟩
  | succ depth ih =>
    cases hs with
    | @call _ c offset _ hget htarget _ _ hrest =>
      obtain ⟨entry, hmain, hcur, hframes⟩ := ih hrest
      refine ⟨fun k => if k = depth + 1 then entryOf insns subprogs pc else entry k, ?_, if_pos rfl, ?_⟩
      · exact (if_neg (by omega)).trans hmain
      · intro k hk
        dsimp only
        rw [if_neg (show ¬ k = depth + 1 by omega)]
        by_cases hlast : k = depth
        · subst hlast
          exact ⟨c, offset, if_pos rfl, hget, htarget.trans (if_pos rfl).symm, hcur.symm⟩
        · obtain ⟨c', offset', hret, hget', htarget', hentry⟩ := hframes k (by omega)
          refine ⟨c', offset', ?_, hget', ?_, hentry⟩
          · rw [if_neg (by omega), ← hret]
            split
            · rename_i heq
              rw [heq]
            · rfl
          · rw [if_neg (by omega)]
            exact htarget'

/-- In a program of at most 32767 instructions that the passes accept, the frames of every
    item that the verifier explores have their subprograms, and return into those below. -/
theorem return_addresses {fuel : Nat} {heads : List Nat} (hlen : insns.length ≤ 32767)
    (hsub : addSubprog insns = .ok subprogs) (hdepth : checkCombinedStackDepth insns subprogs = .ok ())
    (hcfg : checkCfg fuel insns subprogs = some (.ok heads)) {env : MiniEnv} {s : MiniState}
    (henv : env.program = insns) (hreach : MiniReach env s) {item : WorkItem} (hitem : item ∈ s.worklist) :
    ∃ entry, FramesOwned insns subprogs item.pc item.state entry := by
  subst henv
  have h := Accepted.of_checkCfg hsub hdepth hcfg
  have hfit := h.callsFit hlen
  have hpath := mini_path hreach hitem
  have hframed := path_framed hpath
  obtain ⟨entry, hmain, hcur, hframes⟩ := (path_callStack h hfit hpath).frames
  dsimp only at hframed hcur hframes
  -- the return addresses of the list are those of the frames
  have hret : ∀ k < item.state.curframe, frameReturn item.state (k + 1) =
      some (if k + 1 = item.state.curframe then item.state.retPc
        else ((item.state.saved (k + 1)).map (·.retPc)).getD 0) := by
    intro k hk
    unfold frameReturn
    split
    · rfl
    · obtain ⟨fr, hfr⟩ := Option.isSome_iff_exists.mp ((hframed.active (k + 1)).mpr (by omega))
      rw [hfr]
      rfl
  have hcaller : ∀ k < item.state.curframe, ∃ c offset, frameReturn item.state (k + 1) = some (c + 1) ∧
      env.program[c]? = some (.callSub offset) ∧ callTarget c offset = entry (k + 1) ∧
      InSubprog env.program subprogs (entry k) c ∧ InSubprog env.program subprogs (entry k) (c + 1) := by
    intro k hk
    obtain ⟨c, offset, hc, hget, htarget, hentry⟩ := hframes k hk
    obtain ⟨hlt, -⟩ := List.getElem?_eq_some_iff.mp hget
    have hnext := h.entryOf_return hget
    exact ⟨c, offset, by rw [hret k hk, hc], hget, htarget, ⟨hentry, hlt⟩, hnext.trans hentry,
      callSite_range h.subprogs_ne_nil h.cfg.ends hget⟩
  refine ⟨entry, hmain, ⟨hcur.symm, path_inside h hfit hpath⟩, hcaller, fun k hk => ?_⟩
  cases k with
  | zero => rw [hmain, frameSubprogEntry, if_pos rfl]
  | succ k =>
    obtain ⟨c, offset, hc, hget, htarget, -, -⟩ := hcaller k hk
    rw [frameSubprogEntry, if_neg (Nat.succ_ne_zero k), if_neg (by omega), hc]
    dsimp only [Option.bind_eq_bind, Option.bind_some]
    rw [if_neg (Nat.succ_ne_zero c), Nat.add_sub_cancel, hget]
    exact congrArg some htarget

/-- The main program calls the subprogram at 2. -/
def oneCall : List BpfInsn := [.callSub 1, .exit, .movImm 0 0, .exit]

theorem return_addresses_oneCall :
    ∃ (env : MiniEnv) (s : MiniState) (item : WorkItem) (entry : Nat → Nat), env.program = oneCall ∧
      MiniReach env s ∧ item ∈ s.worklist ∧ item.state.curframe = 1 ∧
      FramesOwned oneCall [0, 2] item.pc item.state entry := by
  have hrun : (itemAfter oneCall 1).any (fun x => x.2.2.state.curframe == 1) = true := by decide +kernel
  obtain ⟨⟨env, s, item⟩, hx, hcur⟩ := (Option.any_eq_true _ _).mp hrun
  obtain ⟨henv, hreach, hitem⟩ := itemAfter_eq_some hx
  have hprog : env.program = oneCall := by
    obtain ⟨liveness, -, hmk⟩ := bind_eq_ok.mp henv
    cases hmk
    rfl
  obtain ⟨entry, howned⟩ := return_addresses (by decide) (by decide : addSubprog oneCall = .ok [0, 2]) (by decide)
    (by decide : checkCfg 40 oneCall [0, 2] = some (.ok [])) hprog hreach hitem
  exact ⟨env, s, item, entry, hprog, hreach, hitem, eq_of_beq hcur, howned⟩

end RandVerifier
