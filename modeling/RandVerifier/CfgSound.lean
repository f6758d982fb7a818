/-
  RandVerifier.CfgSound — what `check_cfg` accepts.

  For the subprograms of a program the search ends, and it accepts exactly the programs
  whose subprograms end with an exit or a jump and whose instructions pass their checks and
  are reachable; then every edge stays in range, only calls and returns leave a subprogram,
  and the loop heads cut every cycle (`check_cfg_correct`).
-/

import RandVerifier.Cfg

namespace RandVerifier

variable {insns : List BpfInsn} {subprogs : List Nat}

/-! ## Subprograms -/

theorem addStarts_range {insnCnt pc : Nat} {rest : List BpfInsn} {starts starts' : List Nat}
    (h : addStarts insnCnt pc rest starts = .ok starts') (hs : ∀ s ∈ starts, s < insnCnt) :
    (∀ s ∈ starts', s < insnCnt) ∧ ∀ s ∈ starts, s ∈ starts' := by
  fun_induction addStarts insnCnt pc rest starts with
  | case1 =>
    cases h
    exact ⟨hs, fun _ h => h⟩
  | case2 => exact (fail_ne_ok.mp h).elim
  | case3 pc starts offset rest target hlt ih =>
    obtain ⟨hrange, hkept⟩ := ih h (by
      intro s hmem
      split at hmem
      · exact hs s hmem
      · rcases List.mem_append.mp hmem with hmem | hmem
        · exact hs s hmem
        · rw [List.mem_singleton.mp hmem]
          omega)
    refine ⟨hrange, fun s hmem => hkept s ?_⟩
    split
    · exact hmem
    · exact List.mem_append_left _ hmem
  | case4 pc insn rest starts hne ih => exact ih h hs

/-- The entries of a program lie in it, and the main program is one of them. -/
theorem addSubprog_range (hne : insns ≠ []) (h : addSubprog insns = .ok subprogs) :
    (∀ s ∈ subprogs, s < insns.length) ∧ 0 ∈ subprogs := by
  obtain ⟨starts, hstarts, h⟩ := bind_eq_ok.mp h
  cases h
  have hpos := List.length_pos_iff.mpr hne
  obtain ⟨hrange, hkept⟩ := addStarts_range hstarts (by simpa using hpos)
  constructor
  · intro s hmem
    exact hrange s ((List.mem_insertionSort _).mp hmem)
  · exact (List.mem_insertionSort _).mpr (hkept 0 (by simp))

theorem findSubprogRange_le (hrange : ∀ s ∈ subprogs, s < insns.length) (idx : Nat) :
    (findSubprogRange idx subprogs insns.length).2 ≤ insns.length := by
  unfold findSubprogRange
  cases hfind : subprogs.find? (idx < ·) with
  | none => exact Nat.le_refl _
  | some s => exact Nat.le_of_lt (hrange s (List.mem_of_find?_eq_some hfind))

/-- Every subprogram ends with an exit or an unconditional jump. -/
def EndsChecked (insns : List BpfInsn) (subprogs : List Nat) : Prop :=
  ∀ i start, subprogs[i]? = some start →
    ∃ insn, insns[(subprogs[i + 1]?).getD insns.length - 1]? = some insn ∧ insn.endsSubprog = true

theorem endsChecked_cons {start : Nat} {rest : List Nat} :
    EndsChecked insns (start :: rest) ↔
      (∃ insn, insns[(rest[0]?).getD insns.length - 1]? = some insn ∧ insn.endsSubprog = true) ∧
        EndsChecked insns rest := by
  constructor
  · intro h
    exact ⟨h 0 start rfl, fun i s hs => h (i + 1) s hs⟩
  · rintro ⟨hfirst, hrest⟩ i s hs
    cases i with
    | zero => exact hfirst
    | succ i => exact hrest i s hs

theorem checkSubprogEnds_eq_ok {u : Unit} :
    checkSubprogEnds insns subprogs = .ok u ↔ EndsChecked insns subprogs := by
  fun_induction checkSubprogEnds insns subprogs with
  | case1 =>
    simp only [true_iff]
    intro i s hs
    cases hs
  | case2 start rest stop hnone =>
    rw [endsChecked_cons]
    simp only [reduceCtorEq, false_iff, not_and]
    rintro ⟨insn, hget, -⟩
    rw [hnone] at hget
    cases hget
  | case3 start rest stop insn hget hend ih =>
    rw [ih, endsChecked_cons]
    exact ⟨fun h => ⟨⟨insn, hget, hend⟩, h⟩, fun h => h.2⟩
  | case4 start rest stop insn hget hend =>
    rw [endsChecked_cons, fail_ne_ok]
    simp only [false_iff, not_and]
    rintro ⟨insn', hget', hend'⟩
    rw [hget] at hget'
    cases hget'
    exact absurd hend' hend

/-- The last instruction of the program ends a subprogram. -/
theorem EndsChecked.last (h : EndsChecked insns subprogs) (hne : subprogs ≠ []) :
    ∃ insn, insns[insns.length - 1]? = some insn ∧ insn.endsSubprog = true := by
  have hlen := List.length_pos_iff.mpr hne
  have hlast : subprogs[subprogs.length - 1]? = some (subprogs.getLast hne) := by
    rw [List.getElem?_eq_getElem (by omega), List.getLast_eq_getElem]
  have hnext : subprogs[subprogs.length - 1 + 1]? = none := by
    rw [List.getElem?_eq_none_iff]
    omega
  have hend := h _ _ hlast
  rw [hnext] at hend
  exact hend

/-! ## Edges -/

theorem mem_callSites {pc target : Nat} :
    (pc, target) ∈ callSites insns ↔
      ∃ offset, insns[pc]? = some (.callSub offset) ∧ target = callTarget pc offset := by
  unfold callSites
  rw [List.mem_filterMap]
  constructor
  · rintro ⟨⟨insn, idx⟩, hmem, hsome⟩
    rw [List.mem_zipIdx_iff_getElem?] at hmem
    split at hsome
    · rename_i offset idx' heq
      cases heq
      cases hsome
      exact ⟨offset, hmem, rfl⟩
    · cases hsome
  · rintro ⟨offset, hget, rfl⟩
    exact ⟨(.callSub offset, pc), List.mem_zipIdx_iff_getElem?.mpr hget, rfl⟩

/-- A call is not the last instruction. -/
theorem callSite_range (hne : subprogs ≠ []) (h : EndsChecked insns subprogs) {pc : Nat} {offset : Int32}
    (hpc : insns[pc]? = some (.callSub offset)) : pc + 1 < insns.length := by
  obtain ⟨insn, hget, hend⟩ := h.last hne
  obtain ⟨hlt, -⟩ := List.getElem?_eq_some_iff.mp hpc
  by_contra hle
  have hlast : pc = insns.length - 1 := by omega
  rw [← hlast, hpc] at hget
  cases hget
  cases hend

theorem checkTarget_range {idx target start stop : Nat} {kind : String} {u : Unit}
    (h : checkTarget idx target start stop kind insns = .ok u) : start ≤ target ∧ target < stop := by
  obtain ⟨_, hrange, -⟩ := bind_eq_ok.mp h
  have hno := failIf_eq_ok.mp hrange
  omega

/-- An edge that is no call and no return stays inside the subprogram. -/
theorem insnNexts_inside {idx start stop : Nat} {insn : BpfInsn} {nexts : List Nat}
    (hcall : insn.isCallSub = false) (hexit : insn ≠ .exit)
    (h : insnNexts idx start stop insns subprogs insn = .ok nexts) :
    ∀ n ∈ nexts, (start ≤ n ∧ n < stop) ∨ n = idx + 1 := by
  intro n hn
  unfold insnNexts at h
  split at h
  · exact absurd rfl hexit
  · obtain ⟨_, htarget, h⟩ := bind_eq_ok.mp h
    cases h
    rw [List.mem_singleton.mp hn]
    exact .inl (checkTarget_range htarget)
  · cases hcall
  · split at h
    · obtain ⟨_, htarget, h⟩ := bind_eq_ok.mp h
      cases h
      rcases List.mem_cons.mp hn with rfl | hn
      · exact .inl (checkTarget_range htarget)
      · exact .inr (List.mem_singleton.mp hn)
    · cases h
      exact .inr (List.mem_singleton.mp hn)

theorem findSubprogRange_start (idx : Nat) : (findSubprogRange idx subprogs insns.length).1 ≤ idx := by
  unfold findSubprogRange
  cases hfind : subprogs.reverse.find? (· ≤ idx) with
  | none => exact Nat.zero_le _
  | some s =>
    have hle := List.find?_some hfind
    simpa using hle

/-- An accepted instruction: its successors, and what was checked. -/
theorem visitInsn_eq_ok {idx : Nat} {nexts : List Nat} (h : visitInsn idx insns subprogs = .ok nexts) :
    ∃ insn, insns[idx]? = some insn ∧
      insnNexts idx (findSubprogRange idx subprogs insns.length).1
        (findSubprogRange idx subprogs insns.length).2 insns subprogs insn = .ok nexts ∧
      (idx + 1 ∈ nexts → idx + 1 < (findSubprogRange idx subprogs insns.length).2) := by
  unfold visitInsn at h
  dsimp only at h
  split at h
  · cases h
  · rename_i insn hget
    obtain ⟨nexts', hnexts, h⟩ := bind_eq_ok.mp h
    obtain ⟨_, hfall, h⟩ := bind_eq_ok.mp h
    cases h
    refine ⟨insn, hget, hnexts, fun hmem => ?_⟩
    have hno := failIf_eq_ok.mp hfall
    by_contra hle
    exact hno ⟨hmem, by omega⟩

theorem mem_cfgEdges {idx n : Nat} :
    n ∈ cfgEdges insns subprogs idx ↔ ∃ nexts, visitInsn idx insns subprogs = .ok nexts ∧ n ∈ nexts := by
  unfold cfgEdges
  cases hvisit : visitInsn idx insns subprogs with
  | error e => simp
  | ok nexts => simp

/-- Only calls and returns leave a subprogram. -/
theorem cfgEdges_inside {idx n : Nat} {insn : BpfInsn} (hget : insns[idx]? = some insn)
    (hcall : insn.isCallSub = false) (hexit : insn ≠ .exit) (hn : n ∈ cfgEdges insns subprogs idx) :
    (findSubprogRange idx subprogs insns.length).1 ≤ n ∧
      n < (findSubprogRange idx subprogs insns.length).2 := by
  obtain ⟨nexts, hvisit, hmem⟩ := mem_cfgEdges.mp hn
  obtain ⟨insn', hget', hnexts, hfall⟩ := visitInsn_eq_ok hvisit
  rw [hget] at hget'
  cases hget'
  rcases insnNexts_inside hcall hexit hnexts n hmem with hin | rfl
  · exact hin
  · exact ⟨(findSubprogRange_start idx).trans (Nat.le_succ _), hfall hmem⟩

/-- The successors of an accepted instruction lie in the program. -/
theorem visitInsn_range (hrange : ∀ s ∈ subprogs, s < insns.length) (hne : subprogs ≠ [])
    (hends : EndsChecked insns subprogs) {idx : Nat} {nexts : List Nat}
    (h : visitInsn idx insns subprogs = .ok nexts) : ∀ n ∈ nexts, n < insns.length := by
  intro n hn
  obtain ⟨insn, hget, hnexts, -⟩ := visitInsn_eq_ok h
  by_cases hcall : insn.isCallSub = true
  · cases insn with
    | callSub offset =>
      simp only [insnNexts] at hnexts
      split at hnexts
      · rename_i hmem
        cases hnexts
        rw [List.mem_singleton.mp hn]
        exact hrange _ hmem
      · exact (fail_ne_ok.mp hnexts).elim
    | _ => cases hcall
  · by_cases hexit : insn = .exit
    · subst hexit
      simp only [insnNexts] at hnexts
      cases hnexts
      split at hn
      · cases hn
      · obtain ⟨⟨pc, target⟩, hsite, rfl⟩ := List.mem_map.mp hn
        obtain ⟨offset, hpc, -⟩ := mem_callSites.mp (List.mem_filter.mp hsite).1
        exact callSite_range hne hends hpc
    · have hmem : n ∈ cfgEdges insns subprogs idx := mem_cfgEdges.mpr ⟨nexts, h, hn⟩
      obtain ⟨-, hlt⟩ := cfgEdges_inside hget (by simpa using hcall) hexit hmem
      exact hlt.trans_le (findSubprogRange_le hrange idx)

/-! ## The search -/

/-- A round that continues is a move of the search, out of an accepted instruction. -/
theorem cfgIterate_move {s t : Search Nat} (h : cfgIterate insns subprogs s = .ok (some t)) :
    Search.Move (cfgEdges insns subprogs) s t ∧
      ∀ u ∈ s.stack.head?, ∃ nexts, visitInsn u.1 insns subprogs = .ok nexts := by
  unfold cfgIterate at h
  split at h
  · cases h
  · rename_i idx child rest hs
    obtain ⟨nexts, hvisit, h⟩ := bind_eq_ok.mp h
    have hedges : cfgEdges insns subprogs idx = nexts := by rw [cfgEdges, hvisit]
    refine ⟨?_, ?_⟩
    · split at h
      · rename_i nxt hnxt
        rw [← hedges] at hnxt
        split at h
        · cases h
        · split at h <;> rename_i hv <;> cases h
          · exact .discover hs hnxt hv
          · exact .back hs hnxt hv
          · exact .cross hs hnxt hv
      · rename_i hnone
        rw [← hedges] at hnone
        cases h
        exact .finish hs hnone
    · intro u hu
      rw [hs, List.head?_cons, Option.mem_some_iff] at hu
      rw [← hu]
      exact ⟨nexts, hvisit⟩

theorem cfgIterate_done {s : Search Nat} (h : cfgIterate insns subprogs s = .ok none) : s.stack = [] := by
  unfold cfgIterate at h
  split at h
  · assumption
  · obtain ⟨nexts, -, h⟩ := bind_eq_ok.mp h
    split at h
    · split at h
      · cases h
      · split at h <;> cases h
    · cases h

/-- With every instruction accepted a round does not fail. -/
theorem cfgIterate_ok (hrange : ∀ s ∈ subprogs, s < insns.length) (hne : subprogs ≠ [])
    (hends : EndsChecked insns subprogs) {s : Search Nat}
    (hvisits : ∀ idx < insns.length, ∃ nexts, visitInsn idx insns subprogs = .ok nexts)
    (hstack : ∀ u ∈ s.stack.map Prod.fst, u < insns.length) :
    ∃ t, cfgIterate insns subprogs s = .ok t := by
  unfold cfgIterate
  split
  · exact ⟨_, rfl⟩
  · rename_i idx child rest hs
    obtain ⟨nexts, hvisit⟩ := hvisits idx (hstack idx (by rw [hs]; simp))
    rw [hvisit]
    simp only [bind, Except.bind]
    split
    · rename_i nxt hnxt
      have hlt := visitInsn_range hrange hne hends hvisit nxt (List.mem_of_getElem? hnxt)
      rw [if_neg (by omega)]
      split <;> exact ⟨_, rfl⟩
    · exact ⟨_, rfl⟩

/-- What the loop keeps: it moves as a search, and what it has finished was accepted. -/
structure CfgRun (insns : List BpfInsn) (subprogs : List Nat) (s : Search Nat) : Prop where
  search : Reach (· = Search.start 0) (Search.Move (cfgEdges insns subprogs)) s
  visits : ∀ u, s.visit u = .explored → ∃ nexts, visitInsn u insns subprogs = .ok nexts

theorem cfgRun_start : CfgRun insns subprogs (.start 0) where
  search := .init rfl
  visits u hu := by
    simp only [Search.start, Function.update_apply] at hu
    split at hu <;> cases hu

theorem CfgRun.iterate {s t : Search Nat} (hs : CfgRun insns subprogs s)
    (h : cfgIterate insns subprogs s = .ok (some t)) : CfgRun insns subprogs t := by
  obtain ⟨hmove, hvisit⟩ := cfgIterate_move h
  refine ⟨.step hs.search hmove, fun u hu => ?_⟩
  cases hmove with
  | discover hstack hedge hv =>
    dsimp only at hu
    rw [Function.update_apply] at hu
    split at hu
    · cases hu
    · exact hs.visits u hu
  | back => exact hs.visits u hu
  | cross => exact hs.visits u hu
  | finish hstack hend =>
    dsimp only at hu
    rw [Function.update_apply] at hu
    split at hu
    · rename_i heq
      rw [heq]
      exact hvisit _ (by rw [hstack]; rfl)
    · exact hs.visits u hu

/-- Nothing is left under way when the stack is empty. -/
theorem CfgRun.all_explored {s : Search Nat} (hs : CfgRun insns subprogs s) (hstack : s.stack = [])
    (hvisited : ∀ idx < insns.length, s.visit idx ≠ .notVisited) :
    ∀ idx < insns.length, s.visit idx = .explored := by
  intro idx hlt
  obtain ⟨done, hi⟩ := Search.inv_reach hs.search
  cases hcase : s.visit idx with
  | notVisited => exact absurd hcase (hvisited idx hlt)
  | discovering =>
    have hmem := (hi.discovering idx).mp hcase
    rw [hstack] at hmem
    cases hmem
  | explored => rfl

section Checked

variable (hrange : ∀ s ∈ subprogs, s < insns.length) (hne : subprogs ≠ []) (hpos : 0 < insns.length)
  (hends : EndsChecked insns subprogs)

include hrange hne hends in
theorem cfgEdges_range {idx n : Nat} (hn : n ∈ cfgEdges insns subprogs idx) : n < insns.length := by
  obtain ⟨nexts, hvisit, hmem⟩ := mem_cfgEdges.mp hn
  exact visitInsn_range hrange hne hends hvisit n hmem

include hrange hne hpos hends in
/-- The search stays in the program. -/
theorem CfgRun.visited_range {s : Search Nat} (hs : CfgRun insns subprogs s) {u : Nat}
    (hu : s.visit u ≠ .notVisited) : u < insns.length := by
  obtain ⟨done, hi⟩ := Search.inv_reach hs.search
  cases (hi.reached u hu).cases_tail with
  | inl h => rw [h]; exact hpos
  | inr h =>
    obtain ⟨v, -, hedge⟩ := h
    exact cfgEdges_range hrange hne hends hedge

include hrange hne hpos hends in
theorem CfgRun.stack_range {s : Search Nat} (hs : CfgRun insns subprogs s) :
    ∀ u ∈ s.stack.map Prod.fst, u < insns.length := by
  intro u hu
  obtain ⟨done, hi⟩ := Search.inv_reach hs.search
  refine hs.visited_range hrange hne hpos hends ?_
  rw [(hi.discovering u).mpr hu]
  nofun

include hrange hne hpos hends in
/-- The loop ends within the work left. -/
theorem cfgLoop_ends {s : Search Nat} (hs : CfgRun insns subprogs s) {fuel : Nat}
    (hfuel : s.work (cfgEdges insns subprogs) (Finset.range insns.length) < fuel) :
    ∃ r, cfgLoop insns subprogs fuel s = some r ∧
      ((∀ idx < insns.length, ∃ nexts, visitInsn idx insns subprogs = .ok nexts) → ∃ t, r = .ok t) ∧
      ∀ t, r = .ok t → CfgRun insns subprogs t ∧ t.stack = [] := by
  induction fuel generalizing s with
  | zero => omega
  | succ fuel ih =>
    have hstack := hs.stack_range hrange hne hpos hends
    unfold cfgLoop
    cases hit : cfgIterate insns subprogs s with
    | error e =>
      refine ⟨_, rfl, fun hvisits => ?_, nofun⟩
      obtain ⟨t, ht⟩ := cfgIterate_ok hrange hne hends hvisits hstack
      rw [hit] at ht
      cases ht
    | ok next =>
      cases next with
      | none =>
        refine ⟨_, rfl, fun _ => ⟨s, rfl⟩, fun t ht => ?_⟩
        cases ht
        exact ⟨hs, cfgIterate_done hit⟩
      | some t =>
        obtain ⟨done, hi⟩ := Search.inv_reach hs.search
        have hclosed : ∀ u ∈ Finset.range insns.length, ∀ v ∈ cfgEdges insns subprogs u,
            v ∈ Finset.range insns.length :=
          fun u _ v hv => Finset.mem_range.mpr (cfgEdges_range hrange hne hends hv)
        have hwork := (cfgIterate_move hit).1.potential hi hclosed
          fun u hu => Finset.mem_range.mpr (hstack u hu)
        exact ih (hs.iterate hit) (by omega)

end Checked

theorem cfgLoop_mono {s : Search Nat} {fuel fuel' : Nat} {r : Exec (Search Nat)} (hle : fuel ≤ fuel')
    (h : cfgLoop insns subprogs fuel s = some r) : cfgLoop insns subprogs fuel' s = some r := by
  induction fuel generalizing s fuel' with
  | zero => cases h
  | succ fuel ih =>
    obtain ⟨fuel', rfl⟩ : ∃ f, fuel' = f + 1 := ⟨fuel' - 1, by omega⟩
    unfold cfgLoop at h ⊢
    split at h
    · exact h
    · exact h
    · exact ih (by omega) h

theorem cfgResult_eq_ok {s : Search Nat} {heads : List Nat} :
    cfgResult insns s = .ok heads ↔
      (∀ idx < insns.length, s.visit idx ≠ .notVisited) ∧ heads = s.heads := by
  unfold cfgResult
  split
  · rename_i i hfind
    have hnot := List.find?_some hfind
    have hmem := List.mem_of_find?_eq_some hfind
    rw [fail_ne_ok, false_iff, not_and]
    intro hall
    exact absurd (of_decide_eq_true hnot) (hall i (List.mem_range.mp hmem))
  · rename_i hfind
    rw [List.find?_eq_none] at hfind
    simp only [Except.ok.injEq, eq_comm]
    constructor
    · rintro rfl
      refine ⟨fun idx hlt heq => ?_, rfl⟩
      exact hfind idx (List.mem_range.mpr hlt) (by simp [heq])
    · exact fun h => h.2

/-! ## The check -/

/-- What `check_cfg` asks of a program and its subprograms. -/
structure CfgAccepts (insns : List BpfInsn) (subprogs : List Nat) : Prop where
  nonempty : insns ≠ []
  ends : EndsChecked insns subprogs
  visits : ∀ idx < insns.length, ∃ nexts, visitInsn idx insns subprogs = .ok nexts
  reachable : ∀ idx < insns.length,
    Relation.ReflTransGen (fun a b => b ∈ cfgEdges insns subprogs a) 0 idx

/-- What holds of the graph and of the loop heads that `check_cfg` returns. -/
structure CfgSound (insns : List BpfInsn) (subprogs heads : List Nat) : Prop where
  inRange : ∀ idx, ∀ n ∈ cfgEdges insns subprogs idx, n < insns.length
  inside : ∀ idx insn, insns[idx]? = some insn → insn.isCallSub = false → insn ≠ .exit →
    ∀ n ∈ cfgEdges insns subprogs idx, (findSubprogRange idx subprogs insns.length).1 ≤ n ∧
      n < (findSubprogRange idx subprogs insns.length).2
  nodup : heads.Nodup
  cycles : ∀ l, Search.IsCycle (cfgEdges insns subprogs) l → ∃ v ∈ l, v ∈ heads

/-- The nodes of a cycle have edges, so they were accepted. -/
theorem isCycle_range {l : List Nat} (hl : Search.IsCycle (cfgEdges insns subprogs) l) :
    ∀ u ∈ l, u < insns.length := by
  intro u hu
  obtain ⟨a, rest, rfl, hchain⟩ := hl
  obtain ⟨pre, post, hsplit⟩ := List.append_of_mem hu
  have hnext : ∃ v, v ∈ cfgEdges insns subprogs u := by
    rw [hsplit, List.append_assoc] at hchain
    have hpost := (List.isChain_append.mp hchain).2.1
    cases post with
    | nil => exact ⟨a, (List.isChain_cons_cons.mp hpost).1⟩
    | cons b post => exact ⟨b, (List.isChain_cons_cons.mp hpost).1⟩
  obtain ⟨v, hv⟩ := hnext
  obtain ⟨nexts, hvisit, -⟩ := mem_cfgEdges.mp hv
  obtain ⟨insn, hget, -, -⟩ := visitInsn_eq_ok hvisit
  exact (List.getElem?_eq_some_iff.mp hget).1

/-- A search with its result accepts exactly the programs that meet the conditions. -/
theorem search_accepts {r : Exec (Search Nat)} (hnil : insns ≠ [])
    (hends : EndsChecked insns subprogs)
    (hokay : (∀ idx < insns.length, ∃ nexts, visitInsn idx insns subprogs = .ok nexts) → ∃ t, r = .ok t)
    (hrun : ∀ t, r = .ok t → CfgRun insns subprogs t ∧ t.stack = []) :
    (∃ heads, r >>= cfgResult insns = .ok heads) ↔ CfgAccepts insns subprogs := by
  constructor
  · rintro ⟨heads, h⟩
    obtain ⟨t, rfl, h⟩ := bind_eq_ok.mp h
    obtain ⟨hrunt, hstack⟩ := hrun t rfl
    obtain ⟨hvisited, -⟩ := cfgResult_eq_ok.mp h
    have hexplored := hrunt.all_explored hstack hvisited
    exact ⟨hnil, hends, fun idx hlt => hrunt.visits idx (hexplored idx hlt), fun idx hlt =>
      (Search.explored_iff hrunt.search hstack).mp (hexplored idx hlt)⟩
  · intro hacc
    obtain ⟨t, rfl⟩ := hokay hacc.visits
    obtain ⟨hrunt, hstack⟩ := hrun t rfl
    refine ⟨t.heads, cfgResult_eq_ok.mpr ⟨fun idx hlt => ?_, rfl⟩⟩
    rw [(Search.explored_iff hrunt.search hstack).mpr (hacc.reachable idx hlt)]
    nofun

/-- With the subprogram ends in order, the check is its search, which ends. -/
theorem checkCfg_search (hsub : addSubprog insns = .ok subprogs) (hnil : insns ≠ [])
    (hends : EndsChecked insns subprogs) :
    ∃ r, (∀ fuel, cfgFuel insns subprogs < fuel →
        checkCfg fuel insns subprogs = some (r >>= cfgResult insns)) ∧
      ((∀ idx < insns.length, ∃ nexts, visitInsn idx insns subprogs = .ok nexts) → ∃ t, r = .ok t) ∧
      ∀ t, r = .ok t → CfgRun insns subprogs t ∧ t.stack = [] := by
  obtain ⟨hrange, hmain⟩ := addSubprog_range hnil hsub
  have hne : subprogs ≠ [] := List.ne_nil_of_mem hmain
  have hpos := List.length_pos_iff.mpr hnil
  have hcheck : checkSubprogEnds insns subprogs = .ok () := checkSubprogEnds_eq_ok.mpr hends
  obtain ⟨r, hloop, hokay, hrun⟩ :=
    cfgLoop_ends hrange hne hpos hends cfgRun_start (Nat.lt_succ_self _)
  have hwork : Search.work (cfgEdges insns subprogs) (Finset.range insns.length) (.start 0) =
      cfgFuel insns subprogs := Search.work_start (Finset.mem_range.mpr hpos)
  refine ⟨r, fun fuel hfuel => ?_, hokay, hrun⟩
  rw [checkCfg, if_neg hnil, hcheck]
  dsimp only
  rw [cfgLoop_mono (by omega) hloop, Option.map_some]

/-- A check that returns its heads has met the conditions. -/
theorem checkCfg_accepts (hsub : addSubprog insns = .ok subprogs) {fuel : Nat} {heads : List Nat}
    (hfuel : cfgFuel insns subprogs < fuel) (h : checkCfg fuel insns subprogs = some (.ok heads)) :
    CfgAccepts insns subprogs := by
  have hnil : insns ≠ [] := by
    rintro rfl
    rw [checkCfg, if_pos rfl] at h
    exact (fail_ne_ok.mp (Option.some.inj h)).elim
  have hends : EndsChecked insns subprogs := by
    cases hcheck : checkSubprogEnds insns subprogs with
    | error e =>
      rw [checkCfg, if_neg hnil, hcheck] at h
      cases h
    | ok u => exact checkSubprogEnds_eq_ok.mp hcheck
  obtain ⟨r, hr, hokay, hrun⟩ := checkCfg_search hsub hnil hends
  rw [hr fuel hfuel] at h
  exact (search_accepts hnil hends hokay hrun).mp ⟨heads, Option.some.inj h⟩

/-- A program that meets the conditions has its heads returned. -/
theorem checkCfg_of_accepts (hsub : addSubprog insns = .ok subprogs) (hacc : CfgAccepts insns subprogs)
    {fuel : Nat} (hfuel : cfgFuel insns subprogs < fuel) :
    ∃ heads, checkCfg fuel insns subprogs = some (.ok heads) := by
  obtain ⟨r, hr, hokay, hrun⟩ := checkCfg_search hsub hacc.nonempty hacc.ends
  obtain ⟨heads, hheads⟩ := (search_accepts hacc.nonempty hacc.ends hokay hrun).mpr hacc
  exact ⟨heads, by rw [hr fuel hfuel, hheads]⟩

/-- For the subprograms of a program the search of `check_cfg` ends. It accepts exactly the
    programs that meet its conditions, and then its heads cut every cycle. -/
theorem check_cfg_correct (hsub : addSubprog insns = .ok subprogs) :
    ∃ r, (∀ fuel, cfgFuel insns subprogs < fuel → checkCfg fuel insns subprogs = some r) ∧
      ((∃ heads, r = .ok heads) ↔ CfgAccepts insns subprogs) ∧
      ∀ heads, r = .ok heads → CfgSound insns subprogs heads := by
  by_cases hnil : insns = []
  · refine ⟨fail 0 "empty program", fun fuel _ => by rw [checkCfg, if_pos hnil], ?_, ?_⟩
    · refine ⟨fun ⟨heads, h⟩ => (fail_ne_ok.mp h).elim, fun h => absurd hnil h.nonempty⟩
    · exact fun heads h => (fail_ne_ok.mp h).elim
  · obtain ⟨hrange, hmain⟩ := addSubprog_range hnil hsub
    have hne : subprogs ≠ [] := List.ne_nil_of_mem hmain
    cases hcheck : checkSubprogEnds insns subprogs with
    | error e =>
      refine ⟨.error e, fun fuel _ => by rw [checkCfg, if_neg hnil, hcheck], ?_, nofun⟩
      refine ⟨nofun, fun h => ?_⟩
      have hok := (checkSubprogEnds_eq_ok.mpr h.ends : checkSubprogEnds insns subprogs = .ok ())
      rw [hcheck] at hok
      cases hok
    | ok u =>
      have hends := checkSubprogEnds_eq_ok.mp hcheck
      obtain ⟨r, hr, hokay, hrun⟩ := checkCfg_search hsub hnil hends
      refine ⟨r >>= cfgResult insns, hr, search_accepts hnil hends hokay hrun, ?_⟩
      intro heads h
      obtain ⟨t, rfl, h⟩ := bind_eq_ok.mp h
      obtain ⟨hrunt, hstack⟩ := hrun t rfl
      obtain ⟨hvisited, rfl⟩ := cfgResult_eq_ok.mp h
      have hexplored := hrunt.all_explored hstack hvisited
      exact ⟨fun idx n hn => cfgEdges_range hrange hne hends hn,
        fun idx insn hget hcall hexit n hn => cfgEdges_inside hget hcall hexit hn,
        Search.heads_nodup hrunt.search,
        fun l hl => Search.cycle_has_head hrunt.search hl fun u hu =>
          hexplored u (isCycle_range hl u hu)⟩

/-- A program with a loop and a subprogram. -/
theorem check_cfg_correct_loop :
    ∃ r, (∀ fuel, cfgFuel [.jeqImm 1 0 1, .jmp (-2), .callSub 1, .exit, .exit] [0, 4] < fuel →
        checkCfg fuel [.jeqImm 1 0 1, .jmp (-2), .callSub 1, .exit, .exit] [0, 4] = some r) ∧
      ((∃ heads, r = .ok heads) ↔
        CfgAccepts [.jeqImm 1 0 1, .jmp (-2), .callSub 1, .exit, .exit] [0, 4]) ∧
      ∀ heads, r = .ok heads →
        CfgSound [.jeqImm 1 0 1, .jmp (-2), .callSub 1, .exit, .exit] [0, 4] heads :=
  check_cfg_correct (by decide)

example : checkCfg 20 [.jeqImm 1 0 1, .jmp (-2), .callSub 1, .exit, .exit] [0, 4] = some (.ok [0]) := by
  decide

end RandVerifier
