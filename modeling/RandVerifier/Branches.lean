/-
  RandVerifier.Branches — the branch counts of the stored checkpoints.

  A checkpoint may prune once its branch count is zero. The invariant `Counted` ties the
  counts to the worklist: a count is the number of items whose parent chain passes the
  checkpoint, and since the worklist is a stack the chain of an item contains the chains of
  all items below it.

  `Lineage` runs carry for each item the checkpoints that the items it descends from have
  stored. It differs from the parent chain in one place: the continuation of a nested exit
  is pushed under the old checkpoint of its item, not under the one the item stored.

  - `branch_accounting`: no count drops below zero, a reported loop is on the current path,
    and a checkpoint that prunes an item elsewhere than at a nested exit has no descendant
    left on the worklist.
  - `nested_exit_prunes_early`: the checkpoint stored at a nested exit prunes while the
    continuation of that exit is pending.
-/

import Mathlib.Data.List.Forall2
import RandVerifier.Ancestry
import RandVerifier.Paths

namespace RandVerifier

/-! ## The tallies of the checkpoints -/

/-- What the accounting reads of a checkpoint. -/
structure Tally where
  parent : Option Nat
  branches : Nat
  curframe : Nat

def Checkpoint.tally (cp : Checkpoint) : Tally := ⟨cp.parent, cp.branches, cp.state.curframe⟩

def tallies (cps : List Checkpoint) : List Tally := cps.map (·.tally)

def parentsOf (cps : List Checkpoint) : List (Option Nat) := cps.map (·.parent)

theorem parentsOf_eq (cps : List Checkpoint) : parentsOf cps = (tallies cps).map (·.parent) := by
  simp only [parentsOf, tallies, List.map_map]
  rfl

theorem tallies_getElem? {cps : List Checkpoint} {i : Nat} :
    (tallies cps)[i]? = (cps[i]?).map (·.tally) := by
  simp only [tallies, List.getElem?_map]

theorem chainFrom_eq (cps : List Checkpoint) (fuel : Nat) (last : Option Nat) :
    chainFrom cps fuel last = ancestorsFrom (parentsOf cps) fuel last := by
  induction fuel generalizing last with
  | zero => rfl
  | succ fuel ih =>
    cases last with
    | none => rfl
    | some i =>
      simp only [chainFrom, ancestorsFrom, parentsOf, List.getElem?_map]
      cases cps[i]? with
      | none => rfl
      | some cp =>
        dsimp only [Option.map]
        rw [ih]
        rfl

theorem chain_eq (cps : List Checkpoint) (last : Option Nat) :
    chain cps last = ancestors (parentsOf cps) last := by
  unfold chain ancestors
  rw [chainFrom_eq, parentsOf, List.length_map]

/-- A change of one checkpoint that keeps its tally. -/
theorem tallies_modify {f : Checkpoint → Checkpoint} (hf : ∀ cp, (f cp).tally = cp.tally)
    (cps : List Checkpoint) (i : Nat) : tallies (cps.modify i f) = tallies cps := by
  refine List.ext_getElem? fun j => ?_
  rw [tallies_getElem?, tallies_getElem?, List.getElem?_modify]
  cases cps[j]? with
  | none => rfl
  | some cp =>
    show some (if i = j then f cp else cp).tally = some cp.tally
    split
    · rw [hf]
    · rfl

/-! ## Visits and marks -/

theorem missScan_tallies (scan : VisitScan) (i : Nat) (add : Bool) :
    tallies (missScan scan i add).checkpoints = tallies scan.checkpoints := by
  unfold missScan
  cases add with
  | true =>
    refine tallies_modify (fun cp => ?_) scan.checkpoints i
    rfl
  | false => rfl

theorem statesEqual_curframe {old cur : VerifierState} {level : ExactLevel} {live : RegMask}
    (h : statesEqual old cur level live = true) : old.curframe = cur.curframe := by
  unfold statesEqual statesEqualMap at h
  split at h
  · cases h
  · rename_i hne
    by_contra hcur
    exact hne (.inl hcur)

/-- How a scan of the checkpoints `l` may end: it keeps the tallies, prunes at a finished
    checkpoint of the arrival's depth, and reports a loop at an unfinished one. -/
def ScanOk (ts : List Tally) (curframe : Nat) (l : List Nat) : VisitResult → Prop
  | .pruned i cps => tallies cps = ts ∧ i ∈ l ∧ ∃ parent, ts[i]? = some ⟨parent, 0, curframe⟩
  | .looping i => i ∈ l ∧ ∃ tally, ts[i]? = some tally ∧ 0 < tally.branches
  | .explored scan => tallies scan.checkpoints = ts

theorem ScanOk.cons {ts : List Tally} {curframe i : Nat} {l : List Nat} {r : VisitResult}
    (h : ScanOk ts curframe l r) : ScanOk ts curframe (i :: l) r := by
  cases r with
  | pruned j cps => exact ⟨h.1, List.mem_cons_of_mem i h.2.1, h.2.2⟩
  | looping j => exact ⟨List.mem_cons_of_mem i h.1, h.2⟩
  | explored scan => exact h

theorem scanVisited_ok {cleaned : VerifierState} {live : RegMask} {dInsn dJmps : Nat} {l : List Nat}
    {scan : VisitScan} {r : VisitResult} (h : scanVisited cleaned live dInsn dJmps l scan = .ok r) :
    ScanOk (tallies scan.checkpoints) cleaned.curframe l r := by
  induction l generalizing scan with
  | nil =>
    cases h
    rfl
  | cons i rest ih =>
    have hmiss : ∀ add, scanVisited cleaned live dInsn dJmps rest (missScan scan i add) = .ok r →
        ScanOk (tallies scan.checkpoints) cleaned.curframe (i :: rest) r := by
      intro add hadd
      have hr := ih hadd
      rw [missScan_tallies] at hr
      exact hr.cons
    simp only [scanVisited] at h
    split at h
    · cases h
    · rename_i cp hcp
      split at h
      · rename_i hbr
        split at h
        · cases h
          exact ⟨List.mem_cons_self, cp.tally, by rw [tallies_getElem?, hcp]; rfl, hbr⟩
        · exact hmiss _ h
      · rename_i hbr
        split at h
        · rename_i heq
          cases h
          refine ⟨tallies_modify (fun _ => by rfl) _ _, List.mem_cons_self, cp.parent, ?_⟩
          rw [tallies_getElem?, hcp, ← statesEqual_curframe heq]
          have hz : cp.branches = 0 := by omega
          simp only [Option.map_some, Checkpoint.tally, hz]
        · exact hmiss _ h

/-- What a visit that does not prune leaves: the old tallies, or one more checkpoint. -/
structure Visited (s : MiniState) (item : WorkItem) (s1 : MiniState) (last : Option Nat)
    (new : List Tally) : Prop where
  tallies : tallies s1.checkpoints = RandVerifier.tallies s.checkpoints ++ new
  stored : (new = [] ∧ last = item.lastCp) ∨
    (new = [⟨item.lastCp, 0, item.state.curframe⟩] ∧ last = some s.checkpoints.length)
  visited : ∀ pc i, i ∈ s1.visited pc →
    i ∈ s.visited pc ∨ (new ≠ [] ∧ pc = item.pc ∧ i = s.checkpoints.length)

theorem visit_visited {env : MiniEnv} {s s1 : MiniState} {item : WorkItem} {last : Option Nat}
    (h : visit env s item (cleanedState env item) = .ok (.inr (s1, last))) :
    ∃ new, Visited s item s1 last new := by
  unfold visit at h
  split at h
  · simp only [bind_eq_ok] at h
    obtain ⟨r, hr, h⟩ := h
    have hok := scanVisited_ok hr
    split at h
    · cases h
    · exact (fail_ne_ok.mp h).elim
    · rename_i scan
      have htal : tallies scan.checkpoints = tallies s.checkpoints := hok
      have hlen : scan.checkpoints.length = s.checkpoints.length := by
        have hcongr := congrArg List.length htal
        simpa only [tallies, List.length_map] using hcongr
      simp only [Except.ok.injEq, Sum.inr.injEq, applyScan] at h
      split at h
      · cases h
        refine ⟨[⟨item.lastCp, 0, item.state.curframe⟩], ?_, .inr ⟨rfl, congrArg some hlen⟩, ?_⟩
        · simp only [storeCheckpoint, tallies, List.map_append, List.map_cons, List.map_nil] at htal ⊢
          rw [htal]
          rfl
        · intro pc i hi
          simp only [storeCheckpoint] at hi
          rw [Function.update_apply] at hi
          split at hi
          · rename_i hpc
            rw [Function.update_self, List.mem_append, List.mem_singleton] at hi
            rcases hi with hi | hi
            · exact .inl (hpc ▸ List.mem_of_mem_filter hi)
            · exact .inr ⟨by simp, hpc, by rw [hi, hlen]⟩
          · rename_i hpc
            rw [Function.update_of_ne hpc] at hi
            exact .inl hi
      · cases h
        refine ⟨[], by rw [List.append_nil]; exact htal, .inl ⟨rfl, rfl⟩, fun pc i hi => .inl ?_⟩
        dsimp only at hi
        rw [Function.update_apply] at hi
        split at hi
        · rename_i hpc
          exact hpc ▸ List.mem_of_mem_filter hi
        · exact hi
  · cases h
    exact ⟨[], by rw [List.append_nil], .inl ⟨rfl, rfl⟩, fun pc i hi => .inl hi⟩

theorem markAllScalarsPrecise_tallies (cps : List Checkpoint) (last : Option Nat) :
    tallies (markAllScalarsPrecise cps last) = tallies cps := by
  unfold markAllScalarsPrecise
  generalize chain cps last = l
  induction l generalizing cps with
  | nil => rfl
  | cons i rest ih =>
    rw [List.foldl_cons, ih]
    exact tallies_modify (fun _ => by rfl) _ _

theorem markSegments_tallies (program : List BpfInsn) (segs : List (List HistEntry))
    (cps : List Checkpoint) (last : Option Nat) (bt : Backtrack) :
    tallies (markSegments program segs cps last bt) = tallies cps := by
  induction segs generalizing cps last bt with
  | nil => exact markAllScalarsPrecise_tallies cps last
  | cons seg rest ih =>
    unfold markSegments
    split
    · rfl
    · exact markAllScalarsPrecise_tallies cps last
    · split
      · exact markAllScalarsPrecise_tallies cps none
      · dsimp only
        split
        · exact tallies_modify (fun _ => by rfl) _ _
        · rw [ih]
          exact tallies_modify (fun _ => by rfl) _ _

theorem markRequired_tallies (env : MiniEnv) (cps : List Checkpoint) (item : WorkItem)
    (last : Option Nat) (regs : RegMask) : tallies (markRequired env cps item last regs) = tallies cps := by
  unfold markRequired
  split
  · rfl
  · split <;>
    · unfold markChainPrecision
      split
      · rfl
      · exact markSegments_tallies _ _ _ _ _

/-! ## Bumps -/

theorem bumpCount_tally {cp cp' : Checkpoint} {up : Bool} (h : bumpCount cp up = .ok cp') :
    cp'.tally = { cp.tally with branches := if up then cp.branches + 1 else cp.branches - 1 } := by
  unfold bumpCount at h
  split at h
  · rename_i hup
    cases h
    simp only [Checkpoint.tally, hup, if_true]
  · rename_i hup
    split at h
    · cases h
    · cases h
      simp only [Checkpoint.tally, hup, Bool.false_eq_true, if_false]

/-- A bump changes the branch counts by the occurrences in the list. -/
theorem bumpAll_tallies {up : Bool} {l : List Nat} {cps cps' : List Checkpoint}
    (h : bumpAll up l cps = .ok cps') (j : Nat) :
    (tallies cps')[j]? = (tallies cps)[j]?.map fun t =>
      { t with branches := if up then t.branches + l.count j else t.branches - l.count j } := by
  induction l generalizing cps with
  | nil =>
    cases h
    cases (tallies cps')[j]? <;> simp
  | cons i rest ih =>
    simp only [bumpAll] at h
    split at h
    · cases h
    · rename_i cp hcp
      simp only [bind_eq_ok] at h
      obtain ⟨cp', hbump, h⟩ := h
      rw [ih h, tallies_getElem?, tallies_getElem?, List.getElem?_set]
      by_cases hij : i = j
      · subst hij
        obtain ⟨hlt, -⟩ := List.getElem?_eq_some_iff.mp hcp
        simp only [if_true, hlt, hcp, Option.map_some, bumpCount_tally hbump, List.count_cons_self,
          Option.some.injEq, Tally.mk.injEq, true_and, and_true]
        cases up <;> simp only [Bool.false_eq_true, if_true, if_false, Checkpoint.tally] <;> omega
      · rw [if_neg hij, List.count_cons_of_ne (by simpa using hij)]

/-- A bump down succeeds when every count covers its occurrences. -/
theorem bumpAll_down_ok {l : List Nat} {cps : List Checkpoint}
    (h : ∀ j, j ∈ l → ∃ t, (tallies cps)[j]? = some t ∧ l.count j ≤ t.branches) :
    ∃ cps', bumpAll false l cps = .ok cps' := by
  induction l generalizing cps with
  | nil => exact ⟨cps, rfl⟩
  | cons i rest ih =>
    obtain ⟨t, ht, hle⟩ := h i List.mem_cons_self
    rw [tallies_getElem?] at ht
    obtain ⟨cp, hcp, rfl⟩ := Option.map_eq_some_iff.mp ht
    rw [List.count_cons_self] at hle
    have hpos : cp.branches ≠ 0 := by
      simp only [Checkpoint.tally] at hle
      omega
    obtain ⟨cps', hcps'⟩ : ∃ cps', bumpAll false rest (cps.set i { cp with branches := cp.branches - 1 }) =
        .ok cps' := by
      refine ih fun j hj => ?_
      obtain ⟨tj, htj, hlej⟩ := h j (List.mem_cons_of_mem i hj)
      rw [tallies_getElem?] at htj ⊢
      rw [List.getElem?_set]
      by_cases hij : i = j
      · subst hij
        obtain ⟨hlt, -⟩ := List.getElem?_eq_some_iff.mp hcp
        refine ⟨_, by rw [if_pos rfl, if_pos hlt]; rfl, ?_⟩
        simp only [Checkpoint.tally] at hle ⊢
        omega
      · rw [List.count_cons_of_ne (by simpa using hij)] at hlej
        exact ⟨tj, by rw [if_neg hij, htj], hlej⟩
    refine ⟨cps', ?_⟩
    simp only [bumpAll, hcp, bumpCount, Bool.false_eq_true, if_false, hpos]
    exact hcps'

theorem parents_of_tallies {cps cps' : List Checkpoint}
    (h : ∀ j : Nat, (tallies cps')[j]?.map (·.parent) = (tallies cps)[j]?.map (·.parent)) :
    parentsOf cps' = parentsOf cps := by
  refine List.ext_getElem? fun j => ?_
  rw [parentsOf_eq, parentsOf_eq, List.getElem?_map, List.getElem?_map, h j]

/-- Pushing items counts each of them on the chain of their checkpoint. -/
theorem pushItems_tallies {s t : MiniState} {last : Option Nat} {items : List WorkItem}
    (h : pushItems s last items = .ok t) :
    (∀ j : Nat, (tallies t.checkpoints)[j]? = (tallies s.checkpoints)[j]?.map fun ty : Tally =>
      { ty with branches := ty.branches + items.length * (chain s.checkpoints last).count j }) ∧
    t.visited = s.visited := by
  simp only [pushItems, bind_eq_ok] at h
  obtain ⟨cps, hcps, h⟩ := h
  cases h
  refine ⟨?_, rfl⟩
  dsimp only
  generalize s.checkpoints = cps0 at hcps
  induction items generalizing cps0 with
  | nil =>
    cases hcps
    intro j
    cases (tallies cps)[j]? <;> simp
  | cons item rest ih =>
    simp only [List.foldlM_cons, bind_eq_ok, bumpBranches] at hcps
    obtain ⟨cps1, h1, hcps⟩ := hcps
    have hb := bumpAll_tallies h1
    have hpar : parentsOf cps1 = parentsOf cps0 :=
      parents_of_tallies fun j => by rw [hb j, Option.map_map]; rfl
    have hchain : chain cps1 last = chain cps0 last := by rw [chain_eq, chain_eq, hpar]
    intro j
    rw [ih cps1 (by simpa only [bumpBranches] using hcps) j, hb j, hchain, Option.map_map]
    congr 1
    funext ty
    simp only [Function.comp, if_true, List.length_cons, Tally.mk.injEq, true_and, and_true]
    rw [Nat.succ_mul]
    omega

/-! ## Handling an item -/

/-- What handling an item does to the worklist and the checkpoints: `new` is the checkpoint
    of a store, `items` are pushed under `last`. -/
structure Moved (item : WorkItem) (insn : BpfInsn) (s mid : MiniState) (new : List Tally)
    (items : List WorkItem) (last : Option Nat) : Prop where
  worklist : mid.worklist = items ++ s.worklist
  lastCp : ∀ i ∈ items, i.lastCp = last
  stored : new = [] ∨ new = [⟨item.lastCp, 0, item.state.curframe⟩]
  under : (last = item.lastCp ∧ (new = [] ∨ items = [] ∨ (insn = .exit ∧ 0 < item.state.curframe))) ∨
    (new ≠ [] ∧ last = some s.checkpoints.length)
  counts : ∀ j : Nat, (tallies mid.checkpoints)[j]? = (tallies s.checkpoints ++ new)[j]?.map fun t =>
    { t with branches := t.branches + items.length *
        (ancestors ((tallies s.checkpoints ++ new).map (·.parent)) last).count j }
  visited : ∀ pc i, i ∈ mid.visited pc →
    i ∈ s.visited pc ∨ (new ≠ [] ∧ pc = item.pc ∧ i = s.checkpoints.length)

/-- A push after a visit. -/
theorem moved_push {item : WorkItem} {insn : BpfInsn} {s s1 s3 mid : MiniState} {new : List Tally}
    {items : List WorkItem} {last last' : Option Nat} (hv : Visited s item s1 last new)
    (htal : tallies s3.checkpoints = tallies s1.checkpoints) (hvis : s3.visited = s1.visited)
    (hw : s3.worklist = s.worklist) (hp : pushItems s3 last' items = .ok mid)
    (hlast : ∀ i ∈ items, i.lastCp = last')
    (hunder : (last' = item.lastCp ∧ (new = [] ∨ items = [] ∨ (insn = .exit ∧ 0 < item.state.curframe))) ∨
      (new ≠ [] ∧ last' = some s.checkpoints.length)) :
    Moved item insn s mid new items last' := by
  obtain ⟨hcounts, hvis'⟩ := pushItems_tallies hp
  refine ⟨by rw [pushItems_worklist hp, hw], hlast, ?_, hunder, fun j => ?_, fun pc i hi => ?_⟩
  · rcases hv.stored with ⟨h, -⟩ | ⟨h, -⟩
    · exact .inl h
    · exact .inr h
  · rw [hcounts j, chain_eq, parentsOf_eq, htal, hv.tallies]
  · rw [hvis', hvis] at hi
    exact hv.visited pc i hi

theorem handled_moved {env : MiniEnv} {item : WorkItem} {insn : BpfInsn} {s mid : MiniState}
    (h : Handled env item insn s mid) : ∃ new items last, Moved item insn s mid new items last := by
  have hnone : ∀ s1 : MiniState, ∀ new last, Visited s item s1 last new → ∀ s3 : MiniState,
      tallies s3.checkpoints = tallies s1.checkpoints → s3.visited = s1.visited →
      s3.worklist = s.worklist → Moved item insn s s3 new [] item.lastCp := by
    intro s1 new last hv s3 htal hvis hw
    have hp : pushItems s3 item.lastCp [] = .ok s3 := rfl
    exact moved_push hv htal hvis hw hp (by simp) (.inl ⟨rfl, .inr (.inl rfl)⟩)
  cases h with
  | pruned hvisit =>
    rename_i cps
    have htal : tallies cps = tallies s.checkpoints := by
      unfold visit at hvisit
      split at hvisit
      · simp only [bind_eq_ok] at hvisit
        obtain ⟨r, hr, hvisit⟩ := hvisit
        have hok := scanVisited_ok hr
        split at hvisit
        · cases hvisit
          exact hok.1
        · exact (fail_ne_ok.mp hvisit).elim
        · cases hvisit
      · cases hvisit
    exact ⟨[], [], item.lastCp, hnone s [] item.lastCp
      ⟨by rw [List.append_nil], .inl ⟨rfl, rfl⟩, fun pc i hi => .inl hi⟩ _ htal rfl rfl⟩
  | main hvisit hc hexit hcur =>
    obtain ⟨new, hv⟩ := visit_visited hvisit
    obtain ⟨hcw, hcc, hcv⟩ := charge_eq hc
    obtain ⟨hkw, hkc, hkv⟩ := counted_eq _ insn
    refine ⟨new, [], item.lastCp, hnone _ new _ hv _ (by rw [hkc, hcc]) (by rw [hkv, hcv]) ?_⟩
    rw [hkw, hcw, visit_worklist hvisit]
  | nested hvisit hc hexit hcur hr0 hp =>
    obtain ⟨new, hv⟩ := visit_visited hvisit
    obtain ⟨hcw, hcc, hcv⟩ := charge_eq hc
    obtain ⟨hkw, hkc, hkv⟩ := counted_eq _ insn
    refine ⟨new, _, item.lastCp, moved_push hv (by rw [hkc, hcc]) (by rw [hkv, hcv]) ?_ hp ?_ ?_⟩
    · rw [hkw, hcw, visit_worklist hvisit]
    · intro i hi
      rw [List.mem_singleton] at hi
      rw [hi]
    · exact .inl ⟨rfl, .inr (.inr ⟨hexit, hcur⟩)⟩
  | @expanded s1 s2 t last nexts hvisit hc hexit hs hp =>
    obtain ⟨new, hv⟩ := visit_visited hvisit
    obtain ⟨hcw, hcc, hcv⟩ := charge_eq hc
    obtain ⟨hkw, hkc, hkv⟩ := counted_eq s2 insn
    refine ⟨new, _, _, moved_push hv ?_ ?_ ?_ hp ?_ ?_⟩
    · rw [← hcc, ← hkc]
      exact markRequired_tallies _ _ _ _ _
    · rw [← hcv, ← hkv]
    · rw [← hkw.trans (hcw.trans (visit_worklist hvisit))]
    · intro i hi
      simp only [nextItems, List.mem_map] at hi
      obtain ⟨x, -, rfl⟩ := hi
      rfl
    · rcases hv.stored with ⟨h1, h2⟩ | ⟨h1, h2⟩
      · exact .inl ⟨h2, .inl h1⟩
      · exact .inr ⟨by simp [h1], h2⟩

/-! ## Lineages -/

/-- An exploration with the lineage of every item of its worklist: the checkpoints that
    the items it descends from have stored. -/
abbrev Lineage := MiniState × List (List Nat)

/-- The checkpoints a round stores. -/
def storedIn (s t : MiniState) : List Nat :=
  List.range' s.checkpoints.length (t.checkpoints.length - s.checkpoints.length)

/-- The items that a round pushes descend from the item it pops. -/
def descend (s t : MiniState) : List (List Nat) → List (List Nat)
  | [] => []
  | a :: rest =>
    List.replicate (t.worklist.length - (s.worklist.length - 1)) (a ++ storedIn s t) ++ rest

def lineageInit (env : MiniEnv) : Lineage := (initialMini env.limits, [[]])

def LineageStep (env : MiniEnv) (x y : Lineage) : Prop :=
  iterate env x.1 = .ok (some y.1) ∧ y.2 = descend x.1 y.1 x.2

abbrev LineageReach (env : MiniEnv) : Lineage → Prop := Reach (· = lineageInit env) (LineageStep env)

/-- The item of a round is at the exit of a subprogram. -/
def AtNestedExit (env : MiniEnv) (item : WorkItem) : Prop :=
  env.program[item.pc]? = some .exit ∧ 0 < item.state.curframe

/-! ## The invariant -/

/-- How often the chains of the pending items pass a checkpoint. -/
def pending (parents : List (Option Nat)) (w : List WorkItem) (j : Nat) : Nat :=
  (w.map fun item => (ancestors parents item.lastCp).count j).sum

theorem pending_append (parents : List (Option Nat)) (a b : List WorkItem) (j : Nat) :
    pending parents (a ++ b) j = pending parents a j + pending parents b j := by
  simp only [pending, List.map_append, List.sum_append]

theorem pending_cons (parents : List (Option Nat)) (a : WorkItem) (b : List WorkItem) (j : Nat) :
    pending parents (a :: b) j = (ancestors parents a.lastCp).count j + pending parents b j := by
  simp only [pending, List.map_cons, List.sum_cons]

theorem pending_of_last {parents : List (Option Nat)} {items : List WorkItem} {last : Option Nat}
    (h : ∀ i ∈ items, i.lastCp = last) (j : Nat) :
    pending parents items j = items.length * (ancestors parents last).count j := by
  induction items with
  | nil => simp [pending]
  | cons item rest ih =>
    rw [pending_cons, ih fun i hi => h i (List.mem_cons_of_mem item hi), h item List.mem_cons_self,
      List.length_cons, Nat.succ_mul]
    omega

theorem pending_congr {a b : List (Option Nat)} {w : List WorkItem}
    (h : ∀ item ∈ w, ancestors a item.lastCp = ancestors b item.lastCp) (j : Nat) :
    pending a w j = pending b w j := by
  unfold pending
  congr 1
  exact List.map_congr_left fun item hi => by rw [h item hi]

theorem pending_eq_zero {parents : List (Option Nat)} {w : List WorkItem} {j : Nat} :
    pending parents w j = 0 ↔ ∀ item ∈ w, j ∉ ancestors parents item.lastCp := by
  induction w with
  | nil => simp [pending]
  | cons item rest ih =>
    rw [pending_cons, Nat.add_eq_zero_iff, List.count_eq_zero, ih, List.forall_mem_cons]

/-- A checkpoint that is only visited from nested exits. -/
def NestedOnly (env : MiniEnv) (s : MiniState) (i : Nat) : Prop :=
  ∀ pc, i ∈ s.visited pc → env.program[pc]? = some .exit ∧
    ∀ t, (tallies s.checkpoints)[i]? = some t → 0 < t.curframe

/-- The accounting of an exploration. -/
structure Accounts (env : MiniEnv) (x : Lineage) : Prop where
  grown : Grown (parentsOf x.1.checkpoints)
  last : ∀ item ∈ x.1.worklist, ∀ p, item.lastCp = some p → p < x.1.checkpoints.length
  visited : ∀ pc i, i ∈ x.1.visited pc → i < x.1.checkpoints.length
  counts : ∀ (j : Nat) t, (tallies x.1.checkpoints)[j]? = some t →
    t.branches = pending (parentsOf x.1.checkpoints) x.1.worklist j
  nested : x.1.worklist.Pairwise fun a b => ∀ j ∈ ancestors (parentsOf x.1.checkpoints) b.lastCp,
    j ∈ ancestors (parentsOf x.1.checkpoints) a.lastCp
  lineage : List.Forall₂ (fun item a => (∀ j ∈ ancestors (parentsOf x.1.checkpoints) item.lastCp, j ∈ a) ∧
    ∀ j ∈ a, j < x.1.checkpoints.length ∧
      (j ∈ ancestors (parentsOf x.1.checkpoints) item.lastCp ∨ NestedOnly env x.1 j)) x.1.worklist x.2

theorem accounts_init (env : MiniEnv) : Accounts env (lineageInit env) where
  grown i p h := by simp [lineageInit, initialMini, parentsOf] at h
  last item hi p hp := by
    simp only [lineageInit, initialMini, List.mem_singleton] at hi
    rw [hi] at hp
    cases hp
  visited pc i hi := by simp [lineageInit, initialMini] at hi
  counts j t h := by simp [lineageInit, initialMini, tallies] at h
  nested := by simp [lineageInit, initialMini]
  lineage := by simp [lineageInit, initialMini]

/-! ## One round -/

theorem forall₂_replicate {α β : Type} {R : α → β → Prop} {l : List α} {b : β} (h : ∀ a ∈ l, R a b) :
    List.Forall₂ R l (List.replicate l.length b) := by
  induction l with
  | nil => exact .nil
  | cons a l ih => exact .cons (h a List.mem_cons_self) (ih fun x hx => h x (List.mem_cons_of_mem a hx))

theorem exists_of_forall₂ {α β : Type} {R : α → β → Prop} {l : List α} {u : List β}
    (h : List.Forall₂ R l u) {b : β} (hb : b ∈ u) : ∃ a ∈ l, R a b := by
  induction h with
  | nil => cases hb
  | @cons a b' l u hab _ ih =>
    rcases List.mem_cons.mp hb with rfl | hb
    · exact ⟨a, List.mem_cons_self, hab⟩
    · obtain ⟨x, hx, hxb⟩ := ih hb
      exact ⟨x, List.mem_cons_of_mem a hx, hxb⟩

section Round

variable {env : MiniEnv} {s mid : MiniState} {anc : List (List Nat)} {item : WorkItem}
  {rest : List WorkItem} {insn : BpfInsn} {new : List Tally} {items : List WorkItem} {last : Option Nat}

/-- The parents after a store. -/
def parentsWith (s : MiniState) (new : List Tally) : List (Option Nat) :=
  (tallies s.checkpoints ++ new).map (·.parent)

theorem parentsWith_cases (hm : Moved item insn s mid new items last) :
    (new = [] ∧ parentsWith s new = parentsOf s.checkpoints) ∨
    (new = [⟨item.lastCp, 0, item.state.curframe⟩] ∧
      parentsWith s new = parentsOf s.checkpoints ++ [item.lastCp]) := by
  rcases hm.stored with h | h
  · exact .inl ⟨h, by rw [h, parentsWith, List.append_nil, parentsOf_eq]⟩
  · exact .inr ⟨h, by rw [h, parentsWith, List.map_append, parentsOf_eq]; rfl⟩

theorem moved_parents (hm : Moved item insn s mid new items last) :
    parentsOf mid.checkpoints = parentsWith s new := by
  refine List.ext_getElem? fun j => ?_
  rw [parentsOf_eq, parentsWith, List.getElem?_map, List.getElem?_map, hm.counts j, Option.map_map]
  rfl

theorem parentsOf_length (cps : List Checkpoint) : (parentsOf cps).length = cps.length :=
  List.length_map _

theorem tallies_length (cps : List Checkpoint) : (tallies cps).length = cps.length := List.length_map _

namespace Accounts

theorem parent_lt (h : Accounts env (s, anc)) (hw : s.worklist = item :: rest) (q : Nat)
    (hq : item.lastCp = some q) : q < (parentsOf s.checkpoints).length := by
  rw [parentsOf_length]
  exact h.last item (by rw [hw]; exact List.mem_cons_self) q hq

theorem grown_new (h : Accounts env (s, anc)) (hw : s.worklist = item :: rest)
    (hm : Moved item insn (popped s rest) mid new items last) :
    Grown (parentsWith (popped s rest) new) := by
  rcases parentsWith_cases hm with ⟨-, hp⟩ | ⟨-, hp⟩ <;> rw [hp]
  · exact h.grown
  · exact grown_append h.grown (h.parent_lt hw)

/-- A store changes no chain of a pending item. -/
theorem ancestors_old (h : Accounts env (s, anc)) (hw : s.worklist = item :: rest)
    (hm : Moved item insn (popped s rest) mid new items last) {it : WorkItem} (hit : it ∈ s.worklist) :
    ancestors (parentsWith (popped s rest) new) it.lastCp =
      ancestors (parentsOf s.checkpoints) it.lastCp := by
  rcases parentsWith_cases hm with ⟨-, hp⟩ | ⟨-, hp⟩
  · rw [hp]
    rfl
  · have hg := h.grown_new hw hm
    rw [hp] at hg ⊢
    refine ancestors_append hg fun i hi => ?_
    have hlt := h.last it hit i hi
    rwa [← parentsOf_length] at hlt

/-- The chain of the pushed items contains the chain of the item. -/
theorem ancestors_last (h : Accounts env (s, anc)) (hw : s.worklist = item :: rest)
    (hm : Moved item insn (popped s rest) mid new items last) {j : Nat}
    (hj : j ∈ ancestors (parentsOf s.checkpoints) item.lastCp) :
    j ∈ ancestors (parentsWith (popped s rest) new) last := by
  have hitem : item ∈ s.worklist := by rw [hw]; exact List.mem_cons_self
  rcases hm.under with ⟨hl, -⟩ | ⟨hne, hl⟩
  · rwa [hl, h.ancestors_old hw hm hitem]
  · rcases parentsWith_cases hm with ⟨hnil, -⟩ | ⟨-, hp⟩
    · exact absurd hnil hne
    · have hnew := ancestors_new h.grown (h.parent_lt hw)
      rw [parentsOf_length] at hnew
      rw [hp, hl]
      show j ∈ ancestors (parentsOf s.checkpoints ++ [item.lastCp]) (some s.checkpoints.length)
      rw [hnew]
      exact List.mem_cons_of_mem _ hj

/-- A new checkpoint is on no chain of a pending item, so its count starts right. -/
theorem base_counts (h : Accounts env (s, anc)) (hm : Moved item insn (popped s rest) mid new items last)
    {j : Nat} {t : Tally} (ht : (tallies s.checkpoints ++ new)[j]? = some t) :
    t.branches = pending (parentsOf s.checkpoints) s.worklist j := by
  rcases Nat.lt_or_ge j s.checkpoints.length with hlt | hge
  · rw [List.getElem?_append_left (by rwa [tallies_length])] at ht
    exact h.counts j t ht
  · have hzero : pending (parentsOf s.checkpoints) s.worklist j = 0 := by
      rw [pending_eq_zero]
      intro it _ hj
      have hlt := lt_length_of_mem_ancestors h.grown hj
      rw [parentsOf_length] at hlt
      exact absurd hlt (Nat.not_lt.mpr hge)
    rw [hzero]
    rw [List.getElem?_append_right (by rwa [tallies_length])] at ht
    rcases hm.stored with hn | hn <;> rw [hn] at ht
    · cases ht
    · obtain ⟨hlen, ht⟩ := List.getElem?_eq_some_iff.mp ht
      have hidx : j - (tallies s.checkpoints).length = 0 := by simpa using hlen
      simp only [hidx, List.getElem_cons_zero] at ht
      rw [← ht]

/-- The counts when an item is consumed cover its chain. -/
theorem mid_counts (h : Accounts env (s, anc)) (hw : s.worklist = item :: rest)
    (hm : Moved item insn (popped s rest) mid new items last) {j : Nat} {t : Tally}
    (ht : (tallies mid.checkpoints)[j]? = some t) :
    t.branches = (ancestors (parentsWith (popped s rest) new) item.lastCp).count j +
      pending (parentsWith (popped s rest) new) (items ++ rest) j := by
  have hitem : item ∈ s.worklist := by rw [hw]; exact List.mem_cons_self
  rw [hm.counts j] at ht
  obtain ⟨t0, ht0, rfl⟩ := Option.map_eq_some_iff.mp ht
  have hbase := h.base_counts hm ht0
  rw [hw, pending_cons] at hbase
  have hrest : pending (parentsWith (popped s rest) new) rest j = pending (parentsOf s.checkpoints) rest j :=
    pending_congr (fun it hit => h.ancestors_old hw hm (by rw [hw]; exact List.mem_cons_of_mem _ hit)) j
  rw [h.ancestors_old hw hm hitem, pending_append, pending_of_last hm.lastCp, hrest]
  dsimp only
  rw [hbase]
  show _ + _ * List.count j (ancestors (parentsWith (popped s rest) new) last) = _
  omega

/-- An item can always be consumed. -/
theorem consume_ok (h : Accounts env (s, anc)) (hw : s.worklist = item :: rest)
    (hm : Moved item insn (popped s rest) mid new items last) : ∃ t, consume mid item = .ok t := by
  have hdown : ∃ cps, bumpAll false (chain mid.checkpoints item.lastCp) mid.checkpoints = .ok cps := by
    refine bumpAll_down_ok fun j hj => ?_
    rw [chain_eq, moved_parents hm] at hj ⊢
    have hlt := lt_length_of_mem_ancestors (h.grown_new hw hm) hj
    rw [← moved_parents hm, parentsOf_length, ← tallies_length] at hlt
    refine ⟨_, List.getElem?_eq_getElem hlt, ?_⟩
    rw [h.mid_counts hw hm (List.getElem?_eq_getElem hlt)]
    omega
  obtain ⟨cps, hcps⟩ := hdown
  refine ⟨{ mid with checkpoints := cps }, ?_⟩
  simp only [consume, bumpBranches, hcps]
  rfl

/-- The state after a round, in the terms of the invariant. -/
structure After (s t : MiniState) (item : WorkItem) (rest : List WorkItem) (new : List Tally)
    (items : List WorkItem) : Prop where
  worklist : t.worklist = items ++ rest
  parents : parentsOf t.checkpoints = parentsWith (popped s rest) new
  counts : ∀ (j : Nat) ty, (tallies t.checkpoints)[j]? = some ty →
    ty.branches = pending (parentsWith (popped s rest) new) (items ++ rest) j
  curframe : ∀ (j : Nat) ty, (tallies t.checkpoints)[j]? = some ty →
    ∃ ty0, (tallies s.checkpoints ++ new)[j]? = some ty0 ∧ ty.curframe = ty0.curframe
  visited : ∀ pc i, i ∈ t.visited pc →
    i ∈ s.visited pc ∨ (new ≠ [] ∧ pc = item.pc ∧ i = s.checkpoints.length)
  length : t.checkpoints.length = s.checkpoints.length + new.length

theorem after (h : Accounts env (s, anc)) (hw : s.worklist = item :: rest)
    (hm : Moved item insn (popped s rest) mid new items last) {t : MiniState}
    (hc : consume mid item = .ok t) : After s t item rest new items := by
  simp only [consume, bind_eq_ok, bumpBranches] at hc
  obtain ⟨cps, hcps, hc⟩ := hc
  cases hc
  have hbump := bumpAll_tallies hcps
  rw [chain_eq, moved_parents hm] at hbump
  have hpar : parentsOf cps = parentsWith (popped s rest) new := by
    rw [← moved_parents hm]
    exact parents_of_tallies fun j => by rw [hbump j, Option.map_map]; rfl
  refine ⟨hm.worklist, hpar, fun j ty hty => ?_, fun j ty hty => ?_, hm.visited, ?_⟩
  · dsimp only at hty
    rw [hbump j] at hty
    obtain ⟨ty0, hty0, rfl⟩ := Option.map_eq_some_iff.mp hty
    have hmid := h.mid_counts hw hm hty0
    simp only [Bool.false_eq_true, if_false]
    omega
  · dsimp only at hty
    rw [hbump j, hm.counts j] at hty
    obtain ⟨ty1, hty1, rfl⟩ := Option.map_eq_some_iff.mp hty
    obtain ⟨ty0, hty0, rfl⟩ := Option.map_eq_some_iff.mp hty1
    exact ⟨ty0, hty0, rfl⟩
  · dsimp only
    rw [← parentsOf_length, hpar, parentsWith, List.length_map, List.length_append, tallies_length]
    rfl

section Step

variable {t : MiniState} (h : Accounts env (s, anc)) (hw : s.worklist = item :: rest)
  (hm : Moved item insn (popped s rest) mid new items last) (ha : After s t item rest new items)

include h hw hm ha

theorem last_step : ∀ it ∈ t.worklist, ∀ p, it.lastCp = some p → p < t.checkpoints.length := by
  intro it hit p hp
  rw [ha.worklist, List.mem_append] at hit
  rw [ha.length]
  have hlt : ∀ it ∈ s.worklist, it.lastCp = some p → p < s.checkpoints.length := fun it hit => h.last it hit p
  rcases hit with hit | hit
  · rw [hm.lastCp it hit] at hp
    rcases hm.under with ⟨hl, -⟩ | ⟨hne, hl⟩
    · have hold := hlt item (by rw [hw]; exact List.mem_cons_self) (hl ▸ hp)
      omega
    · rw [hl] at hp
      cases hp
      have hpos := List.length_pos_of_ne_nil hne
      show s.checkpoints.length < _
      omega
  · have hold := hlt it (by rw [hw]; exact List.mem_cons_of_mem _ hit) hp
    omega

theorem nested_step : t.worklist.Pairwise fun a b => ∀ j ∈ ancestors (parentsOf t.checkpoints) b.lastCp,
    j ∈ ancestors (parentsOf t.checkpoints) a.lastCp := by
  have hold : ∀ it ∈ rest, ancestors (parentsWith (popped s rest) new) it.lastCp =
      ancestors (parentsOf s.checkpoints) it.lastCp :=
    fun it hit => h.ancestors_old hw hm (by rw [hw]; exact List.mem_cons_of_mem _ hit)
  have hnested := h.nested
  rw [hw, List.pairwise_cons] at hnested
  rw [ha.parents, ha.worklist, List.pairwise_append]
  refine ⟨List.pairwise_of_forall_mem_list fun a hma b hmb j hj => ?_, ?_, fun a hma b hmb j hj => ?_⟩
  · rw [hm.lastCp a hma, ← hm.lastCp b hmb]
    exact hj
  · refine hnested.2.imp_of_mem fun {a b} hma hmb hab j hj => ?_
    rw [hold b hmb] at hj
    rw [hold a hma]
    exact hab j hj
  · rw [hold b hmb] at hj
    rw [hm.lastCp a hma]
    exact h.ancestors_last hw hm (hnested.1 b hmb j hj)

end Step

/-- What was visited from nested exits only still is. -/
theorem nestedOnly_step {t : MiniState} (ha : After s t item rest new items) {j : Nat}
    (hj : j < s.checkpoints.length) (hn : NestedOnly env s j) : NestedOnly env t j := by
  intro pc hjpc
  rcases ha.visited pc j hjpc with hjs | ⟨-, -, hjn⟩
  · refine ⟨(hn pc hjs).1, fun ty hty => ?_⟩
    obtain ⟨ty0, hty0, hcur⟩ := ha.curframe j ty hty
    rw [List.getElem?_append_left (by rwa [tallies_length])] at hty0
    rw [hcur]
    exact (hn pc hjs).2 ty0 hty0
  · exact absurd hj (by rw [hjn]; exact Nat.lt_irrefl _)

theorem storedIn_eq (hm : Moved item insn (popped s rest) mid new items last) {t : MiniState}
    (ha : After s t item rest new items) :
    (new = [] ∧ storedIn s t = []) ∨
      (new = [⟨item.lastCp, 0, item.state.curframe⟩] ∧ storedIn s t = [s.checkpoints.length]) := by
  unfold storedIn
  rw [ha.length, Nat.add_sub_cancel_left]
  rcases hm.stored with hn | hn
  · exact .inl ⟨hn, by rw [hn]; rfl⟩
  · exact .inr ⟨hn, by rw [hn]; rfl⟩

/-- A checkpoint stored in a round is on the chain of what the round pushes, unless the
    round is a nested exit. -/
theorem stored_step (h : Accounts env (s, anc)) (hw : s.worklist = item :: rest)
    (hpc : env.program[item.pc]? = some insn)
    (hm : Moved item insn (popped s rest) mid new items last) {t : MiniState}
    (ha : After s t item rest new items) (hne : items ≠ []) {j : Nat} (hj : j ∈ storedIn s t) :
    j < t.checkpoints.length ∧
      (j ∈ ancestors (parentsWith (popped s rest) new) last ∨ NestedOnly env t j) := by
  rcases storedIn_eq hm ha with ⟨-, hst⟩ | ⟨hn, hst⟩
  · rw [hst] at hj
    cases hj
  · rw [hst, List.mem_singleton] at hj
    subst hj
    refine ⟨by rw [ha.length, hn]; exact Nat.lt_succ_self _, ?_⟩
    rcases hm.under with ⟨-, hnil | hnil | ⟨hexit, hcur⟩⟩ | ⟨-, hl⟩
    · rw [hn] at hnil
      cases hnil
    · exact absurd hnil hne
    · refine .inr fun pc hjpc => ?_
      rcases ha.visited pc _ hjpc with hjs | ⟨-, rfl, -⟩
      · exact absurd (h.visited pc _ hjs) (Nat.lt_irrefl _)
      · refine ⟨hexit ▸ hpc, fun ty hty => ?_⟩
        obtain ⟨ty0, hty0, heq⟩ := ha.curframe _ ty hty
        rw [hn, ← tallies_length, List.getElem?_append_right (Nat.le_refl _), Nat.sub_self] at hty0
        cases hty0
        rw [heq]
        exact hcur
    · left
      have hnew := ancestors_new h.grown (h.parent_lt hw)
      rcases parentsWith_cases hm with ⟨hnil, -⟩ | ⟨-, hp⟩
      · rw [hn] at hnil
        cases hnil
      · rw [hp, hl]
        rw [parentsOf_length] at hnew
        show _ ∈ ancestors (parentsOf s.checkpoints ++ [item.lastCp]) (some s.checkpoints.length)
        rw [hnew]
        exact List.mem_cons_self

theorem lineage_step (h : Accounts env (s, anc)) (hw : s.worklist = item :: rest)
    (hpc : env.program[item.pc]? = some insn)
    (hm : Moved item insn (popped s rest) mid new items last) {t : MiniState}
    (ha : After s t item rest new items) :
    List.Forall₂ (fun it a => (∀ j ∈ ancestors (parentsOf t.checkpoints) it.lastCp, j ∈ a) ∧
      ∀ j ∈ a, j < t.checkpoints.length ∧
        (j ∈ ancestors (parentsOf t.checkpoints) it.lastCp ∨ NestedOnly env t j))
      t.worklist (descend s t anc) := by
  have hlin := h.lineage
  have hmem : ∀ it ∈ item :: rest, it ∈ s.worklist := fun it hit => by rw [hw]; exact hit
  rw [hw, List.forall₂_cons_left_iff] at hlin
  obtain ⟨a, ancRest, ⟨hin, hout⟩, hrest, rfl⟩ := hlin
  have hlen : t.worklist.length - (s.worklist.length - 1) = items.length := by
    rw [ha.worklist, hw, List.length_append, List.length_cons]
    omega
  have hle : s.checkpoints.length ≤ t.checkpoints.length := by rw [ha.length]; exact Nat.le_add_right _ _
  rw [descend, hlen, ha.worklist, ha.parents]
  refine List.rel_append (forall₂_replicate fun it hit => ?_) ?_
  · -- the pushed items
    rw [hm.lastCp it hit]
    refine ⟨fun j hj => ?_, fun j hj => ?_⟩
    · rcases hm.under with ⟨hl, -⟩ | ⟨hne, hl⟩
      · rw [hl, h.ancestors_old hw hm (hmem item List.mem_cons_self)] at hj
        exact List.mem_append_left _ (hin j hj)
      · rcases storedIn_eq hm ha with ⟨hnil, -⟩ | ⟨hn, hst⟩
        · exact absurd hnil hne
        · have hnew := ancestors_new h.grown (h.parent_lt hw)
          rw [parentsOf_length] at hnew
          rcases parentsWith_cases hm with ⟨hnil, -⟩ | ⟨-, hp⟩
          · exact absurd hnil hne
          · rw [hp, hl] at hj
            change j ∈ ancestors (parentsOf s.checkpoints ++ [item.lastCp]) (some s.checkpoints.length) at hj
            rw [hnew, List.mem_cons] at hj
            rcases hj with rfl | hj
            · exact List.mem_append_right _ (by rw [hst]; exact List.mem_singleton_self _)
            · exact List.mem_append_left _ (hin j hj)
    · rcases List.mem_append.mp hj with hj | hj
      · obtain ⟨hlt, hcase⟩ := hout j hj
        refine ⟨Nat.lt_of_lt_of_le hlt hle, ?_⟩
        rcases hcase with hc | hc
        · exact .inl (h.ancestors_last hw hm hc)
        · exact .inr (nestedOnly_step ha hlt hc)
      · exact h.stored_step hw hpc hm ha (List.ne_nil_of_mem hit) hj
  · -- the items below
    have hmemRest : ∀ it ∈ rest, it ∈ s.worklist := fun it hit => hmem it (List.mem_cons_of_mem _ hit)
    refine ((List.forall₂_and_left _ _).mpr ⟨hmemRest, hrest⟩).imp fun it b ⟨hit, hin, hout⟩ => ?_
    rw [h.ancestors_old hw hm hit]
    refine ⟨hin, fun j hj => ?_⟩
    obtain ⟨hlt, hcase⟩ := hout j hj
    refine ⟨Nat.lt_of_lt_of_le hlt hle, ?_⟩
    rcases hcase with hc | hc
    · exact .inl hc
    · exact .inr (nestedOnly_step ha hlt hc)

/-- A round keeps the accounting. -/
theorem step (h : Accounts env (s, anc)) {t : MiniState} (hst : iterate env s = .ok (some t)) :
    Accounts env (t, descend s t anc) := by
  obtain ⟨item, rest, insn, mid, hw, hpc, -, hh, hc⟩ := iterate_cases hst
  obtain ⟨new, items, last, hm⟩ := handled_moved hh
  have ha := h.after hw hm hc
  refine ⟨?_, h.last_step hw hm ha, fun pc i hi => ?_, fun j ty hty => ?_, h.nested_step hw hm ha,
    h.lineage_step hw hpc hm ha⟩
  · rw [ha.parents]
    exact h.grown_new hw hm
  · rw [ha.length]
    rcases ha.visited pc i hi with hi | ⟨hne, -, rfl⟩
    · exact Nat.lt_of_lt_of_le (h.visited pc i hi) (Nat.le_add_right _ _)
    · have hpos := List.length_pos_of_ne_nil hne
      omega
  · rw [ha.parents, ha.worklist]
    exact ha.counts j ty hty

end Accounts

end Round

theorem lineage_accounts {env : MiniEnv} {x : Lineage} (h : LineageReach env x) : Accounts env x := by
  induction h with
  | init h0 =>
    subst h0
    exact accounts_init env
  | @step x y _ hst ih =>
    have hstep := Accounts.step ih hst.1
    rw [← hst.2] at hstep
    exact hstep

/-! ## The accounting of a run -/

/-- The visit of an item ends at the checkpoint `i`, which prunes it. -/
def PrunedBy (env : MiniEnv) (s : MiniState) (item : WorkItem) (i : Nat) : Prop :=
  isPrunePoint env.program item.pc = true ∧
    ∃ cps, visitResult env s item (cleanedState env item) = .ok (.pruned i cps)

/-- The visit of an item reports a loop at the checkpoint `i`. -/
def LoopsAt (env : MiniEnv) (s : MiniState) (item : WorkItem) (i : Nat) : Prop :=
  isPrunePoint env.program item.pc = true ∧
    visitResult env s item (cleanedState env item) = .ok (.looping i)

/-- The branch counts of an exploration do what they are for; `ok` limits the items whose
    prunes are considered. -/
structure Accounted (env : MiniEnv) (ok : WorkItem → Prop) (x : Lineage) : Prop where
  /-- A checkpoint that prunes has no descendant left on the worklist. -/
  pruned : ∀ item rest i, x.1.worklist = item :: rest → ok item → PrunedBy env (popped x.1 rest) item i →
    ∀ a ∈ x.2.tail, i ∉ a
  /-- A checkpoint that reports a loop is an ancestor of the current path. -/
  looping : ∀ item rest i, x.1.worklist = item :: rest → LoopsAt env (popped x.1 rest) item i →
    i ∈ chain x.1.checkpoints item.lastCp ∧ ∃ a ∈ x.2.head?, i ∈ a
  /-- The item of a round is consumed without a count below zero. -/
  consumed : ∀ item rest insn mid, x.1.worklist = item :: rest → env.program[item.pc]? = some insn →
    Handled env item insn (popped x.1 rest) mid → ∃ t, consume mid item = .ok t

/-- In every run no branch count drops below zero, a reported loop is on the current path,
    and what prunes an item that is not at a nested exit is fully explored. -/
theorem branch_accounting {env : MiniEnv} {x : Lineage} (h : LineageReach env x) :
    Accounted env (fun item => ¬ AtNestedExit env item) x := by
  obtain ⟨s, anc⟩ := x
  have hacc := lineage_accounts h
  refine ⟨fun item rest i hw hnot hp a ha hia => ?_, fun item rest i hw hl => ?_,
    fun item rest insn mid hw _ hh => ?_⟩
  · obtain ⟨-, cps, hv⟩ := hp
    obtain ⟨-, hi, parent, hti⟩ := scanVisited_ok hv
    have hlin := hacc.lineage
    dsimp only at hw ha
    rw [hw, List.forall₂_cons_left_iff] at hlin
    obtain ⟨a0, ancRest, -, hrest, rfl⟩ := hlin
    obtain ⟨it, hit, -, hout⟩ := exists_of_forall₂ hrest ha
    rcases (hout i hia).2 with hchain | hnested
    · -- a pending descendant on the chain: the count is not zero
      have hcount := hacc.counts i _ hti
      have hzero := pending_eq_zero.mp hcount.symm it (by rw [hw]; exact List.mem_cons_of_mem _ hit)
      exact hzero hchain
    · obtain ⟨hpc, hcur⟩ := hnested item.pc hi
      exact hnot ⟨hpc, hcur _ hti⟩
  · obtain ⟨-, hv⟩ := hl
    obtain ⟨-, ty, hty, hpos⟩ := scanVisited_ok hv
    have hcount := hacc.counts i ty hty
    dsimp only at hw
    have hmem : i ∈ ancestors (parentsOf s.checkpoints) item.lastCp := by
      by_contra hnot
      have hzero : pending (parentsOf s.checkpoints) s.worklist i = 0 := by
        have hnested := hacc.nested
        dsimp only at hnested
        rw [hw, List.pairwise_cons] at hnested
        rw [pending_eq_zero, hw, List.forall_mem_cons]
        exact ⟨hnot, fun it hit hi => hnot (hnested.1 it hit i hi)⟩
      rw [hcount] at hpos
      exact absurd hzero (Nat.ne_of_gt hpos)
    have hlin := hacc.lineage
    dsimp only at hlin
    rw [hw, List.forall₂_cons_left_iff] at hlin
    obtain ⟨a0, ancRest, ⟨hin, -⟩, -, rfl⟩ := hlin
    exact ⟨by rw [chain_eq]; exact hmem, a0, rfl, hin i hmem⟩
  · obtain ⟨new, items, last, hm⟩ := handled_moved hh
    exact hacc.consume_ok hw hm

/-! ## A checkpoint stored at a nested exit -/

def lineageRounds (env : MiniEnv) : Nat → Lineage → Exec Lineage
  | 0, x => .ok x
  | n + 1, x =>
    match iterate env x.1 with
    | .ok (some t) => lineageRounds env n (t, descend x.1 t x.2)
    | .ok none => .error .panic
    | .error e => .error e

theorem lineageRounds_reach {env : MiniEnv} {n : Nat} {x y : Lineage} (h : LineageReach env x)
    (hy : lineageRounds env n x = .ok y) : LineageReach env y := by
  induction n generalizing x with
  | zero =>
    cases hy
    exact h
  | succ n ih =>
    simp only [lineageRounds] at hy
    split at hy
    · exact ih (.step h ⟨by assumption, rfl⟩) hy
    · cases hy
    · cases hy

/-- A program under the default limits, explored for some rounds. -/
def lineageAfter (program : List BpfInsn) (n : Nat) : Option (MiniEnv × Lineage) :=
  match miniEnv program [] .default with
  | .error _ => none
  | .ok env => match lineageRounds env n (lineageInit env) with
    | .error _ => none
    | .ok x => some (env, x)

theorem lineageAfter_eq_some {program : List BpfInsn} {n : Nat} {env : MiniEnv} {x : Lineage}
    (h : lineageAfter program n = some (env, x)) :
    miniEnv program [] .default = .ok env ∧ LineageReach env x := by
  unfold lineageAfter at h
  split at h
  · cases h
  · rename_i env' henv
    split at h
    · cases h
    · rename_i x' hx
      cases h
      exact ⟨henv, lineageRounds_reach (.init rfl) hx⟩

/-- Two calls of a subprogram whose exit is a jump target; between them a branch on an
    unknown scalar. -/
def twoCalls : List BpfInsn :=
  [.call 7, .movReg 6 0, .movImm 7 0, .callSub 5, .jeqImm 6 0 1, .movImm 7 1, .callSub 2, .movImm 0 0,
   .exit, .movImm 0 0, .jmp 0, .jmp 0, .exit]

/-- After the first rounds a checkpoint is stored. -/
theorem branch_accounting_twoCalls : ∃ env x, miniEnv twoCalls [] .default = .ok env ∧
    LineageReach env x ∧ x.1.checkpoints.length = 1 ∧
    Accounted env (fun item => ¬ AtNestedExit env item) x := by
  have hrun : (lineageAfter twoCalls 13).any (fun y => y.2.1.checkpoints.length == 1) = true := by
    decide +kernel
  obtain ⟨⟨env, x⟩, hy, hlen⟩ := (Option.any_eq_true _ _).mp hrun
  obtain ⟨henv, hreach⟩ := lineageAfter_eq_some hy
  exact ⟨env, x, henv, hreach, beq_iff_eq.mp hlen, branch_accounting hreach⟩

/-- The next item is pruned by a checkpoint that a pending path comes from. -/
def prunesPending (y : MiniEnv × Lineage) : Bool :=
  match y.2.1.worklist with
  | [] => false
  | item :: rest => isPrunePoint y.1.program item.pc &&
    match visitResult y.1 (popped y.2.1 rest) item (cleanedState y.1 item) with
    | .ok (.pruned i _) => y.2.2.tail.any (·.contains i)
    | _ => false

/-- The checkpoint that the first return stores has no branches, though its continuation
    is pending: the second return is pruned by it before the other side of the branch is
    explored. -/
theorem nested_exit_prunes_early : ¬ ∀ program loopHeads limits env x,
    miniEnv program loopHeads limits = .ok env → LineageReach env x →
    Accounted env (fun _ => True) x := by
  have hrun : (lineageAfter twoCalls 13).any prunesPending = true := by decide +kernel
  obtain ⟨⟨env, x⟩, hy, hcheck⟩ := (Option.any_eq_true _ _).mp hrun
  obtain ⟨henv, hreach⟩ := lineageAfter_eq_some hy
  intro h
  have hacc := h twoCalls [] .default env x henv hreach
  unfold prunesPending at hcheck
  dsimp only at hcheck
  split at hcheck
  · cases hcheck
  · rename_i item rest hw
    rw [Bool.and_eq_true] at hcheck
    obtain ⟨hpp, hcheck⟩ := hcheck
    split at hcheck
    · rename_i i cps hv
      obtain ⟨a, ha, hia⟩ := List.any_eq_true.mp hcheck
      exact hacc.pruned item rest i hw trivial ⟨hpp, cps, hv⟩ a ha (List.contains_iff_mem.mp hia)
    · cases hcheck

end RandVerifier
