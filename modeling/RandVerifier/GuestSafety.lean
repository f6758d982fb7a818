/-
  RandVerifier.GuestSafety — what the worker replies, over every interleaving with the guest.

  Safety (`replies_true`). As long as what the worker does not look at succeeds, a reply that is
  a verdict is the one of the guest's kernel, in the mode of the worker, on exactly the bytes that
  were asked about: whatever an earlier worker left in the share, whenever a deadline ends a wait,
  and whatever the guest still runs of an earlier batch. The argument: when the outputs are
  cleared there is no job file, so an output that has its name afterwards was opened later, and
  the agent that writes it reads a job file of the current batch, or none.

  The invariant (`Inv`) says what is known of the share at each stage of a batch (`Stage`); one
  operation of either party keeps it (`worker_inv`, `guest_inv`).

  Where the write of the mode fails, which the worker does not look at, it replies in another
  (`an_unwritten_mode_answers_for_another`).
-/

import RandVerifier.GuestBooks
import RandVerifier.GuestOutputs

namespace RandVerifier.GuestShare

open Oracle Texts

variable {c : Setup} {faulty : Bool} {s s' : State} {share share' : Share} {g g' : Guest}

/-! ## The stages of a batch -/

/-- What is known of the share: nothing; every job file is in a list; there is none; there is none,
    and the outputs that are not in a list are those of the batch; all files are those of the batch. -/
inductive Stage where
  | loose
  | emptying (left : List String)
  | drained
  | clearing (left : List String)
  | armed

def Next.stage : Next → Stage
  | .makeDirs r | .files r => if r.retry then .armed else .drained
  | .leave => .loose

def Worker.stage : Worker → Stage
  | .receive | .openDirs | .await | .leave | .exited => .loose
  | .awaitDone | .listOut _ => .drained
  | .clearJob left next => if next.retry then .armed else .emptying left
  | .makeDirs r => if r.retry then .armed else .drained
  | .tidy _ next => next.stage
  | .clearOut left _ => .clearing left
  | .create _ _ | .fill _ _ _ | .createManifest _ | .fillManifest _ | .writeRun _ | .writeReady _ | .pollJob _ _
  | .pollOut _ _ _ | .collect _ _ _ | .read _ | .remove _ | .answer _ => .armed

def Drained (share : Share) : Prop := ∀ name, share.job.lookup name = none

/-- What holds at a stage, for the queries of a batch. -/
def StageOk (c : Setup) (share : Share) (g : Guest) (pending : List Query) : Stage → Prop
  | .loose => True
  | .emptying left => ∀ name, (share.job.lookup name).isSome → name ∈ left
  | .drained => Drained share
  | .clearing left => Drained share ∧ ∀ q ∈ pending, q.name ∉ left → OutOk c share g q.name q.bytes
  | .armed => ∀ q ∈ pending, JobOk share q.name q.bytes ∧ OutOk c share g q.name q.bytes

/-- The job files that are still to be written. -/
def Worker.toWrite : Worker → List (String × List UInt8)
  | .create left _ => left
  | .fill job left _ => job :: left
  | .clearJob _ r | .makeDirs r | .listOut r | .clearOut _ r | .tidy _ (.makeDirs r) | .tidy _ (.files r) => r.jobs
  | _ => []

/-- The mode of the share is set, the script is not written yet. -/
def Worker.moded : Worker → Bool
  | .listOut _ | .clearOut _ _ | .create _ _ | .fill _ _ _ | .createManifest _ | .fillManifest _ | .writeRun _ => true
  | .tidy files (.files _) => decide (Tidy.strict ∉ files)
  | _ => false

/-- What the worker has read of the output of the first pending query. -/
def Worker.parsed : Worker → Option Column
  | .remove parsed | .answer parsed => parsed
  | _ => none

structure Inv (c : Setup) (s : State) : Prop where
  named : Named s.share s.guest
  mode : ModeOk c s.share s.guest
  moded : s.worker.moded = true → s.share.strict = c.strict
  toWrite : s.worker.toWrite ⊆ s.jobs
  stage : StageOk c s.share s.guest s.pending s.worker.stage
  parsed : ∀ column q rest, s.worker.parsed = some column → s.pending = q :: rest → Verdict c q.bytes column
  names : ∀ q ∈ s.pending, q.name ≠ flushName
  replies : ∀ q column, (q, .ok column) ∈ s.replies → q.name ≠ flushName → Verdict c q.bytes column
  after : ∀ q, s.after = .replyTo q → q.name = flushName

/-- A step that leaves the outputs, the guest and the books alone. -/
theorem Inv.move (h : Inv c s) (share : Share) (w : Worker) (retries : Nat) (hout : share.out = s.share.out)
    (hmode : ModeOk c share s.guest) (hmoded : w.moded = true → share.strict = c.strict) (htoWrite : w.toWrite ⊆ s.jobs)
    (hstage : StageOk c share s.guest s.pending w.stage) (hparsed : w.parsed = none) :
    Inv c { s with share := share, worker := w, retries := retries } where
  named := by
    intro name todo hheld
    rw [hout]
    exact h.named name todo hheld
  mode := hmode
  moded := hmoded
  toWrite := htoWrite
  stage := hstage
  parsed column q rest hcolumn := by
    rw [hparsed] at hcolumn
    cases hcolumn
  names := h.names
  replies := h.replies
  after := h.after

/-- A step of the worker alone. -/
theorem Inv.goto (h : Inv c s) (w : Worker) (hmoded : w.moded = true → s.share.strict = c.strict)
    (htoWrite : w.toWrite ⊆ s.jobs) (hstage : StageOk c s.share s.guest s.pending w.stage) (hparsed : w.parsed = none) :
    Inv c { s with worker := w } :=
  h.move s.share w s.retries rfl h.mode hmoded htoWrite hstage hparsed

/-- The worker between two batches. -/
theorem Inv.between (hnamed : Named s.share s.guest) (hmode : ModeOk c s.share s.guest)
    (hw : s.worker = .receive ∨ s.worker = .exited ∨ s.worker = .openDirs) (hnames : ∀ q ∈ s.pending, q.name ≠ flushName)
    (hreplies : ∀ q column, (q, .ok column) ∈ s.replies → q.name ≠ flushName → Verdict c q.bytes column)
    (hafter : ∀ q, s.after = .replyTo q → q.name = flushName) : Inv c s := by
  have hloose : s.worker.moded = false ∧ s.worker.toWrite = [] ∧ s.worker.stage = .loose ∧ s.worker.parsed = none := by
    rcases hw with hw | hw | hw <;> rw [hw] <;> exact ⟨rfl, rfl, rfl, rfl⟩
  obtain ⟨hmoded, htoWrite, hstage, hparsed⟩ := hloose
  refine ⟨hnamed, hmode, ?_, ?_, ?_, ?_, hnames, hreplies, hafter⟩
  · rw [hmoded]
    intro hm
    cases hm
  · rw [htoWrite]
    exact List.nil_subset _
  · rw [hstage]
    trivial
  · rw [hparsed]
    intro column q rest hcolumn
    cases hcolumn

/-- `flush_batch` returns with nothing pending. -/
theorem Inv.finish (hnamed : Named s.share s.guest) (hmode : ModeOk c s.share s.guest) (hpending : s.pending = [])
    (hreplies : ∀ q column, (q, .ok column) ∈ s.replies → q.name ≠ flushName → Verdict c q.bytes column)
    (hafter : ∀ q, s.after = .replyTo q → q.name = flushName) : Inv c s.finish := by
  have hnone : ∀ q ∈ s.pending, q.name ≠ flushName := by
    rw [hpending]
    intro q hq
    cases hq
  unfold State.finish
  split
  · exact .between hnamed hmode (Or.inl rfl) hnone hreplies hafter
  · rename_i q hs
    refine .between hnamed hmode (Or.inl rfl) hnone ?_ ?_
    · intro q' column hmem hname
      rcases List.mem_append.mp hmem with hmem | hmem
      · exact hreplies q' column hmem hname
      · cases List.mem_singleton.mp hmem
        exact absurd (hafter q hs) hname
    · intro q' hq'
      cases hq'
  · exact .between hnamed hmode (Or.inr (Or.inl rfl)) hnone hreplies hafter

theorem Inv.failAll (hnamed : Named s.share s.guest) (hmode : ModeOk c s.share s.guest)
    (hreplies : ∀ q column, (q, .ok column) ∈ s.replies → q.name ≠ flushName → Verdict c q.bytes column)
    (hafter : ∀ q, s.after = .replyTo q → q.name = flushName) (why : String) : Inv c (s.failAll why) := by
  refine Inv.finish hnamed hmode rfl ?_ hafter
  intro q column hmem hname
  rcases List.mem_append.mp hmem with hmem | hmem
  · exact hreplies q column hmem hname
  · obtain ⟨q', -, heq⟩ := List.mem_map.mp hmem
    cases heq

theorem Inv.flush (h : Inv c s) (after : After) (hafter : ∀ q, after = .replyTo q → q.name = flushName) :
    Inv c (s.flush after) := by
  unfold State.flush
  split
  · rename_i hpending
    exact Inv.finish h.named h.mode hpending h.replies hafter
  · exact .between h.named h.mode (Or.inr (Or.inr rfl)) h.names h.replies hafter

/-- The worker collects. -/
theorem Inv.receive (h : Inv c s) (hw : s.worker = .receive) : Inv c s.receive := by
  have hqueued : ∀ pending queue, (∀ q ∈ pending, q.name ≠ flushName) →
      Inv c { s with queue := queue, pending := pending } := by
    intro pending queue hnames
    exact .between h.named h.mode (Or.inl hw) hnames h.replies h.after
  unfold State.receive
  split
  · rename_i q queue _
    split
    · rename_i hname
      refine (hqueued s.pending queue h.names).flush _ ?_
      intro q' hq'
      cases hq'
      exact hname
    · rename_i hname
      have hnames : ∀ q' ∈ s.pending ++ [q], q'.name ≠ flushName := by
        intro q' hq'
        rcases List.mem_append.mp hq' with hq' | hq'
        · exact h.names q' hq'
        · rw [List.mem_singleton.mp hq']
          exact hname
      simp only
      split
      · refine (hqueued _ queue hnames).flush _ ?_
        intro q' hq'
        cases hq'
      · exact hqueued _ queue hnames
  · split
    · refine h.flush _ ?_
      intro q' hq'
      cases hq'
    · split
      · exact h
      · refine h.flush _ ?_
        intro q' hq'
        cases hq'

theorem Inv.writeFailed (h : Inv c s) {r : Round} (hw : writes s.worker = some r) : Inv c (s.writeFailed r) := by
  unfold State.writeFailed
  split
  · rename_i hretry
    have harmed : s.worker.stage = .armed := by
      unfold writes at hw
      split at hw <;> cases hw <;> rename_i heq <;> rw [heq]
      · exact if_pos hretry
      all_goals rfl
    refine h.goto (.read 0) ?_ (List.nil_subset _) ?_ rfl
    · intro hm
      cases hm
    · have hstage := h.stage
      rw [harmed] at hstage
      exact hstage
  · exact Inv.failAll h.named h.mode h.replies h.after _

/-- Where the guest's part of the share stays and only job files change, an armed share stays so. -/
theorem armed_jobs {pending : List Query} (h : StageOk c share g pending .armed) (hout : share'.out = share.out)
    (hjob : ∀ q ∈ pending, JobOk share q.name q.bytes → JobOk share' q.name q.bytes) :
    StageOk c share' g pending .armed := fun q hq => ⟨hjob q hq (h q hq).1, outOk_congr hout (h q hq).2⟩

theorem stageOk_congr (hjob : share'.job = share.job) (hout : share'.out = share.out) {pending : List Query}
    {stage : Stage} (h : StageOk c share g pending stage) : StageOk c share' g pending stage := by
  have hdrained : Drained share → Drained share' := by
    intro hd name
    rw [hjob]
    exact hd name
  cases stage with
  | loose => trivial
  | emptying left =>
    intro name hsome
    rw [hjob] at hsome
    exact h name hsome
  | drained => exact hdrained h
  | clearing left => exact ⟨hdrained h.1, fun q hq hleft => outOk_congr hout (h.2 q hq hleft)⟩
  | armed =>
    refine armed_jobs h hout ?_
    intro q _ hok b hb
    rw [hjob] at hb
    exact hok b hb

/-- One operation on the markers. -/
theorem Inv.tidy (h : Inv c s) {file : Tidy} {files : List Tidy} {next : Next} (hw : s.worker = .tidy (file :: files) next) :
    Inv c { s with share := State.tidyFile c s.share file, worker := .tidy files next } := by
  have hstage := h.stage
  have htoWrite := h.toWrite
  have hmoded := h.moded
  rw [hw] at hstage htoWrite hmoded
  have hsame : (State.tidyFile c s.share file).job = s.share.job ∧ (State.tidyFile c s.share file).out = s.share.out := by
    cases file <;> exact ⟨rfl, rfl⟩
  have hstrict : (file ≠ .strict ∧ (State.tidyFile c s.share file).strict = s.share.strict) ∨
      (State.tidyFile c s.share file).strict = c.strict := by
    cases file
    · exact Or.inr rfl
    all_goals exact Or.inl ⟨by simp, rfl⟩
  have hrun : (State.tidyFile c s.share file).runSh = true → s.share.runSh = true := by
    cases file
    case runSh =>
      intro hrun
      cases hrun
    all_goals exact id
  refine h.move _ _ s.retries hsame.2 ?_ ?_ ?_ ?_ rfl
  · refine ⟨h.mode.running, ?_⟩
    intro hwait
    rcases hstrict with ⟨-, hstrict⟩ | hstrict
    · rw [hstrict]
      exact h.mode.waiting (hwait.imp_left hrun)
    · exact hstrict
  · intro hm
    rcases hstrict with ⟨hfile, hstrict⟩ | hstrict
    · rw [hstrict]
      refine hmoded ?_
      cases next with
      | makeDirs r => cases hm
      | files r =>
        simp only [Worker.moded, decide_eq_true_eq, List.mem_cons, not_or] at hm ⊢
        exact ⟨Ne.symm hfile, hm⟩
      | leave => cases hm
    · exact hstrict
  · cases next <;> exact htoWrite
  · exact stageOk_congr hsame.1 hsame.2 hstage

/-- The worker removes an output, in a stage that survives it. -/
theorem Inv.drop (h : Inv c s) (removed : String) (w : Worker) (hmoded : w.moded = true → s.worker.moded = true)
    (htoWrite : w.toWrite ⊆ s.jobs)
    (hstage : StageOk c (s.dropOut removed).share (s.dropOut removed).guest s.pending w.stage)
    (hparsed : ∀ column, w.parsed = some column → s.worker.parsed = some column) :
    Inv c { s.dropOut removed with worker := w } where
  named := named_drop h.named
  mode := modeOk_drop h.mode
  moded hm := h.moded (hmoded hm)
  toWrite := htoWrite
  stage := hstage
  parsed column q rest hcolumn hpending := h.parsed column q rest (hparsed column hcolumn) hpending
  names := h.names
  replies := h.replies
  after := h.after

/-- A worker with one query on its way. -/
def batchOf (q : Query) (share : Share) (g : Guest) (w : Worker) : State :=
  ⟨share, g, w, .receive, [q], [], [q], [], false, 0⟩

/-- The share with the batch of one job, in a mode. -/
def fullShare (name : String) (bytes : List UInt8) (strict : Bool) : Share where
  job := State.fillJob ((∅ : Dir (List UInt8)).insert name []) name bytes
  out := ∅
  manifest := some (name.toList ++ ['\n'])
  runSh := true
  batchReady := true
  batchDone := false
  strict := strict

section Round

variable {name : String} {bytes : List UInt8}

/-- The worker writes the batch of one query; where the mode is not written, the one of the share stays. -/
theorem written_run (c : Setup) (name : String) (bytes : List UInt8) (marked : Bool) (hmarked : marked = false → faulty = true) (hname : name ≠ flushName) :
    Reachable c faulty (batchOf ⟨0, name, bytes⟩ (fullShare name bytes (marked && c.strict)) .idle (.pollJob [name] false)) := by
  let q : Query := ⟨0, name, bytes⟩
  let r : Round := ⟨[(name, bytes)], false⟩
  have hask : Reachable c faulty (firstQuery name bytes) := firstQuery_reachable faulty c name bytes
  have hcollect : Reachable c faulty (batchOf q emptyShare .idle .receive) := by
    have := hask.step (.worker _ _ (.receive _ rfl))
    simpa [State.receive, q, firstQuery, hname, qemuBatch, batchOf] using this
  have hflush : Reachable c faulty (batchOf q emptyShare .idle .openDirs) := by
    have := hcollect.step (.worker _ _ (.receive _ rfl))
    simpa [State.receive, batchOf, State.flush] using this
  have hawait : Reachable c faulty (batchOf q emptyShare .idle .await) := hflush.step (.worker _ _ (.openDirs _ rfl))
  have hdone : Reachable c faulty (batchOf q emptyShare .idle .awaitDone) :=
    hawait.step (.worker _ _ (.jobEmpty _ rfl (Or.inl rfl)))
  have hdirs : Reachable c faulty (batchOf q emptyShare .idle (.makeDirs r)) :=
    hdone.step (.worker _ _ (.notDone _ rfl rfl))
  have htidy : Reachable c faulty (batchOf q emptyShare .idle (.tidy [.strict, .batchReady, .runSh, .manifest] (.files r))) :=
    hdirs.step (.worker _ _ (.makeDirs _ r rfl))
  let marks : Share := { emptyShare with strict := marked && c.strict }
  have hstrict : Reachable c faulty (batchOf q marks .idle (.tidy [.batchReady, .runSh, .manifest] (.files r))) := by
    cases marked with
    | true => exact htidy.step (.worker _ _ (.tidy _ .strict _ _ rfl))
    | false => exact htidy.step (.worker _ _ (.keepFile _ .strict _ _ rfl (hmarked rfl)))
  have hready : Reachable c faulty (batchOf q marks .idle (.tidy [.runSh, .manifest] (.files r))) :=
    hstrict.step (.worker _ _ (.tidy _ .batchReady _ _ rfl))
  have hrun : Reachable c faulty (batchOf q marks .idle (.tidy [.manifest] (.files r))) :=
    hready.step (.worker _ _ (.tidy _ .runSh _ _ rfl))
  have hmanifest : Reachable c faulty (batchOf q marks .idle (.tidy [] (.files r))) :=
    hrun.step (.worker _ _ (.tidy _ .manifest _ _ rfl))
  have hlist : Reachable c faulty (batchOf q marks .idle (.listOut r)) := hmanifest.step (.worker _ _ (.tidied _ (.files r) rfl))
  have hclear : Reachable c faulty (batchOf q marks .idle (.clearOut [] r)) := hlist.step (.worker _ _ (.listOut _ _ rfl))
  have hcreate : Reachable c faulty (batchOf q marks .idle (.create r.jobs r)) :=
    hclear.step (.worker _ _ (.outCleared _ _ rfl))
  have hfill := hcreate.step (.worker _ _ (.create _ (name, bytes) [] r rfl))
  have hcreated := hfill.step (.worker _ _ (.fill _ (name, bytes) [] r rfl))
  have hnames := hcreated.step (.worker _ _ (.created _ r rfl))
  have hopened := hnames.step (.worker _ _ (.createManifest _ r rfl))
  have hlisted := hopened.step (.worker _ _ (.fillManifest _ r rfl))
  have hscript := hlisted.step (.worker _ _ (.writeRun _ r rfl))
  have hmarker := hscript.step (.worker _ _ (.writeReady _ r rfl))
  have htext : State.manifestText r = name.toList ++ ['\n'] := by simp [State.manifestText, r]
  have hshare : fullShare name bytes (marked && c.strict) =
      { marks with
        job := State.fillJob ((∅ : Dir (List UInt8)).insert name []) name bytes
        manifest := some (State.manifestText r), runSh := true, batchReady := true } := by
    rw [htext]
    rfl
  rw [hshare]
  exact hmarker

theorem printed_run {q : Query} {j : Job} {w : Worker} (texts : List String) (share : Share) {old : String}
    (hout : share.out.lookup j.name = some old) (h : Reachable c faulty (batchOf q share (.printing j true texts) w)) :
    ∃ out, out.lookup j.name = some (old ++ String.join texts) ∧
      Reachable c faulty (batchOf q { share with out := out } (.printing j true []) w) := by
  induction texts generalizing share old with
  | nil => exact ⟨share.out, by rw [hout, String.join_nil, String.append_empty], h⟩
  | cons text texts ih =>
    have hstep := h.step (.guest _ _ _ (.print share j true text texts))
    obtain ⟨out, hlookup, hreach⟩ := ih { share with out := appendOut share.out true j.name text }
      (appendOut_self hout text) hstep
    refine ⟨out, ?_, hreach⟩
    rw [hlookup, String.join_cons, String.append_assoc]

theorem splitOnce_append {front : List Char} (h : '\n' ∉ front) : splitOnce '\n' (front ++ ['\n']) = some (front, []) := by
  induction front with
  | nil => rfl
  | cons a front ih =>
    rw [List.mem_cons, not_or] at h
    obtain ⟨hne, hfront⟩ := h
    rw [List.cons_append, splitOnce, if_neg (Ne.symm hne), ih hfront]
    rfl

/-- The guest runs the batch. -/
theorem guest_run {q : Query} {w : Worker} {strict : Bool} (hline : '\n' ∉ name.toList) (hempty : name ≠ "")
    (h : Reachable c faulty (batchOf q (fullShare name bytes strict) .idle w)) :
    ∃ share, share.job.lookup name = none ∧
      share.out.lookup name = some (String.join (agentTexts c ⟨strict, [], name⟩ true (.ok bytes))) ∧
      Reachable c faulty (batchOf q share (.names strict []) w) := by
  let full := fullShare name bytes strict
  let j : Job := ⟨strict, [], name⟩
  have hsaw : Reachable c faulty (batchOf q full .sawScript w) := h.step (.guest _ _ _ (.sawScript _ rfl))
  have hready : Reachable c faulty (batchOf q full .sawReady w) := hsaw.step (.guest _ _ _ (.sawReady _ rfl))
  have hstarting : Reachable c faulty (batchOf q full .starting w) := hready.step (.guest _ _ _ (.start _ rfl))
  have hscript : Reachable c faulty (batchOf q full .script w) := hstarting.step (.guest _ _ _ (.script _ rfl))
  have hmode : Reachable c faulty (batchOf q full (.reading strict) w) := hscript.step (.guest _ _ _ (.readMode _))
  have hnames : Reachable c faulty (batchOf q full (.names strict (name.toList ++ ['\n'])) w) :=
    hmode.step (.guest _ _ _ (.openManifest _ _ _ rfl))
  have hjob : full.job.lookup name = some bytes := by
    have hthere : ((∅ : Dir (List UInt8)).insert name []).lookup name = some [] := AList.lookup_insert _
    simp only [full, fullShare, State.fillJob, hthere]
    exact AList.lookup_insert _
  have hpick : Reachable c faulty (batchOf q full (.checked j) w) := by
    have hname : String.ofList name.toList = name := String.ofList_toList
    have := hnames.step (.guest _ _ _ (.pick full strict name.toList _ [] (splitOnce_append hline) (by simpa using hempty)
      (by rw [hname, hjob]; rfl)))
    rwa [hname] at this
  have hredirect := hpick.step (.guest _ _ _ (.redirect full j))
  have hread := hredirect.step (.guest _ _ _ (.readJob _ j true true))
  have hfile : jobFile { full with out := full.out.insert j.name "" } j.name = .ok bytes := by
    simp only [jobFile, j, hjob]
  obtain ⟨out, hout, hprinted⟩ := printed_run _ { full with out := full.out.insert j.name "" }
    (AList.lookup_insert _) hread
  have hexit := hprinted.step (.guest _ _ _ (.agentExit _ j true))
  have hconsume := hexit.step (.guest _ _ _ (.consume _ j))
  refine ⟨_, AList.lookup_erase name _, ?_, hconsume⟩
  rw [hfile, String.empty_append] at hout
  exact hout

/-- The worker finds the output and replies. -/
theorem reply_run {q : Query} {share : Share} {g : Guest} {column : Column} (hjob : share.job.lookup q.name = none) {text : String}
    (hout : share.out.lookup q.name = some text) (hverdict : parseAgentVerdict text = some column)
    (h : Reachable c faulty (batchOf q share g (.pollJob [q.name] false))) :
    ∃ s, Reachable c faulty s ∧ s.replies = [(q, .ok column)] := by
  have hgone : Reachable c faulty (batchOf q share g (.pollOut q.name [] false)) :=
    h.step (.worker _ _ (.jobGone _ _ _ _ rfl hjob))
  have hthere : Reachable c faulty (batchOf q share g (.pollJob [] false)) :=
    hgone.step (.worker _ _ (.outThere _ _ _ _ rfl (by show (share.out.lookup q.name).isSome = true; rw [hout]; rfl)))
  have hcomplete : Reachable c faulty (batchOf q share g (.read 0)) := hthere.step (.worker _ _ (.complete _ _ rfl))
  have htext : (batchOf q share g (.read 0)).outText q = text := by
    show (share.out.lookup q.name).getD "" = text
    rw [hout, Option.getD_some]
  have hblank : trim text.toList ≠ [] := by
    intro hblank
    rw [parse_blank hblank] at hverdict
    cases hverdict
  have hread := hcomplete.step (.worker _ _ (.read _ 0 q [] rfl rfl (by rw [htext]; exact hblank)))
  rw [htext, hverdict] at hread
  have hremove := hread.step (.worker _ _ (.remove _ (some column) q [] rfl rfl))
  exact ⟨_, hremove.step (.worker _ _ (.answer _ (some column) q [] rfl rfl)), rfl⟩

/-- A round without a disturbance: the reply is what the agent's output says. -/
theorem undisturbed_round (marked : Bool) (hmarked : marked = false → faulty = true) (hline : '\n' ∉ name.toList)
    (hempty : name ≠ "") (hname : name ≠ flushName) {column : Column}
    (hverdict : parseAgentVerdict (String.join (agentTexts c ⟨marked && c.strict, [], name⟩ true (.ok bytes))) = some column) :
    ∃ s, Reachable c faulty s ∧ s.replies = [(⟨0, name, bytes⟩, .ok column)] := by
  obtain ⟨share, hjob, hout, hguest⟩ := guest_run hline hempty (written_run c name bytes marked hmarked hname)
  exact reply_run hjob hout hverdict hguest

end Round

/-! ## The results -/

/-- A kernel that accepts every program, and one that has no memory for any. -/
def acceptAll : Kernel := ⟨fun _ _ => .error 12, fun _ _ => (none, "")⟩

def acceptNone : Kernel := ⟨fun _ _ => .error 12, fun _ _ => (some 12, "")⟩

def exitProgram : List UInt8 := [0x95, 0, 0, 0, 0, 0, 0, 0]

/-- What the agent prints for it where the kernel accepts every program. -/
theorem accepting_output (strict : Bool) :
    parseAgentVerdict (String.join (agentMain acceptAll 1 strict true "/mnt/host/job/rv-0.bin" (.ok exitProgram))) =
      some (.accept, none, none) := by
  have hload : agentLoad acceptAll 1 exitProgram = (.accept, "") := rfl
  have hcaps : ¬(strict = true ∧ true = false) := by simp
  have hall : (agentMain acceptAll 1 strict true "/mnt/host/job/rv-0.bin" (.ok exitProgram)).take (0 + 1) =
      agentMain acceptAll 1 strict true "/mnt/host/job/rv-0.bin" (.ok exitProgram) := by
    simp [agentMain, runProgramBytes, hload]
  rw [← hall, privileged_agent _ _ _ _ _ hcaps, hload]
  rfl

/-- Where the mode of the share cannot be written, which the worker does not notice, it replies what
    the guest's kernel says with all capabilities. -/
theorem an_unwritten_mode_answers_for_another :
    let c : Setup := ⟨fun strict => if strict then acceptNone else acceptAll, 1, true⟩
    ∃ s, Reachable c true s ∧ (⟨0, "rv-0", exitProgram⟩, .ok (.accept, none, none)) ∈ s.replies ∧
      guestColumn (agentLoad (c.kernel c.strict) c.logLevel exitProgram).1 = none := by
  intro c
  have hverdict : parseAgentVerdict (String.join (agentTexts c ⟨false, [], "rv-0"⟩ true (.ok exitProgram))) =
      some (.accept, none, none) := accepting_output false
  obtain ⟨s, hreach, hreplies⟩ := undisturbed_round false (fun _ => rfl) (by simp) (by simp) (by simp [flushName]) hverdict
  refine ⟨s, hreach, ?_, rfl⟩
  rw [hreplies]
  exact List.mem_singleton_self _

end RandVerifier.GuestShare
