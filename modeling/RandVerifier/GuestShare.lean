/-
  RandVerifier.GuestShare — asking the guest's kernel over a shared directory (`src/fuzz/qemu.rs`,
  the script that it hands to the guest, `tools/qemu/initramfs/init`).

  Parties. A client asks the worker thread and blocks until the reply; the worker collects the
  queries, writes the job files, a manifest, the script and a marker into the share, polls the
  results, sends the jobs without a result once more, and replies. The guest loops: it starts the
  script when the script and the marker are there, the script goes through the manifest and runs
  the agent on each job file, with the output in a file of the same name.

  One step is one operation on the share by one party; a file that is written is emptied first and
  filled later, and an output that the worker removes while it is being written loses its name.
  Every wait may end by its deadline, every operation of the worker may fail, the guest may miss a
  file, its agent may be stopped at any point, and it may start over.
-/

import RandVerifier.KernelColumn
import Mathlib.Data.List.AList

namespace RandVerifier.GuestShare

open Oracle Texts

/-- A directory: what stands under each name. -/
abbrev Dir (α : Type) := AList fun _ : String => α

structure Share where
  job : Dir (List UInt8)
  out : Dir String
  manifest : Option (List Char)
  runSh : Bool
  batchReady : Bool
  batchDone : Bool
  strict : Bool

/-- The guest's kernel without and with the capabilities dropped, the agent's log level, and
    whether the host wants them dropped. -/
structure Setup where
  kernel : Bool → Kernel
  logLevel : Nat
  strict : Bool

/-! ## The guest -/

/-- A job in the loop of the script: the mode that the script read, the rest of the manifest. -/
structure Job where
  strict : Bool
  rest : List Char
  name : String

/-- Where the guest stands. `linked` says that the output it writes still has its name. -/
inductive Guest where
  | idle
  | sawScript
  | sawReady
  | starting
  | script
  | reading (strict : Bool)
  | names (strict : Bool) (rest : List Char)
  | checked (j : Job)
  | agent (j : Job) (linked : Bool)
  | printing (j : Job) (linked : Bool) (texts : List String)
  | stopped (j : Job)
  | marking (j : Job) (linked : Bool)
  | consumed (j : Job)
  | finished

def timeoutMarker : String := "AGENT-TIMEOUT\n"

/-- A write to an output goes to the file that was opened. -/
def appendOut (out : Dir String) (linked : Bool) (name text : String) : Dir String :=
  match out.lookup name with
  | some old => if linked then out.insert name (old ++ text) else out
  | none => out

/-- What the agent prints for a job, given what it reads of the job file. -/
def agentTexts (c : Setup) (j : Job) (capsDropped : Bool) (file : Except Int (List UInt8)) : List String :=
  agentMain (c.kernel j.strict) c.logLevel j.strict capsDropped ("/mnt/host/job/" ++ j.name ++ ".bin") file

/-- What the agent reads. -/
def jobFile (share : Share) (name : String) : Except Int (List UInt8) :=
  match share.job.lookup name with
  | some bytes => .ok bytes
  | none => .error 2

/-- One operation of the guest: the loop of `init`, and the lines of `QEMU_RUN_SCRIPT`. -/
inductive GuestStep (c : Setup) : Share → Guest → Share → Guest → Prop
  | sawScript (share : Share) : share.runSh = true → GuestStep c share .idle share .sawScript
  | sawReady (share : Share) : share.batchReady = true → GuestStep c share .sawScript share .sawReady
  | start (share : Share) : share.batchDone = false → GuestStep c share .sawReady share .starting
  /-- One of the three markers is not as it should be: back to the loop. -/
  | notYet (share : Share) (g : Guest) : g = .sawScript ∨ g = .sawReady ∨ g = .starting → GuestStep c share g share .idle
  | script (share : Share) : share.runSh = true → GuestStep c share .starting share .script
  | readMode (share : Share) : GuestStep c share .script share (.reading share.strict)
  | openManifest (share : Share) (strict : Bool) (text : List Char) : share.manifest = some text →
      GuestStep c share (.reading strict) share (.names strict text)
  | noManifest (share : Share) (strict : Bool) : share.manifest = none →
      GuestStep c share (.reading strict) share .finished
  | endOfManifest (share : Share) (strict : Bool) (rest : List Char) : splitOnce '\n' rest = none →
      GuestStep c share (.names strict rest) share .finished
  /-- An empty line, or a name without a job file (that the guest can see). -/
  | skip (share : Share) (strict : Bool) (line rest rest' : List Char) : splitOnce '\n' rest = some (line, rest') →
      GuestStep c share (.names strict rest) share (.names strict rest')
  | pick (share : Share) (strict : Bool) (line rest rest' : List Char) : splitOnce '\n' rest = some (line, rest') →
      line ≠ [] → (share.job.lookup (String.ofList line)).isSome →
      GuestStep c share (.names strict rest) share (.checked ⟨strict, rest', String.ofList line⟩)
  /-- The redirection empties the output. -/
  | redirect (share : Share) (j : Job) :
      GuestStep c share (.checked j) { share with out := share.out.insert j.name "" } (.agent j true)
  /-- It fails: the agent is not run. -/
  | noRedirect (share : Share) (j : Job) : GuestStep c share (.checked j) share (.consumed j)
  | readJob (share : Share) (j : Job) (linked capsDropped : Bool) :
      GuestStep c share (.agent j linked) share (.printing j linked (agentTexts c j capsDropped (jobFile share j.name)))
  /-- The share does not let the agent have the file. -/
  | unreadable (share : Share) (j : Job) (linked capsDropped : Bool) (errno : Int) :
      GuestStep c share (.agent j linked) share (.printing j linked (agentTexts c j capsDropped (.error errno)))
  | print (share : Share) (j : Job) (linked : Bool) (text : String) (texts : List String) :
      GuestStep c share (.printing j linked (text :: texts))
        { share with out := appendOut share.out linked j.name text } (.printing j linked texts)
  | agentExit (share : Share) (j : Job) (linked : Bool) : GuestStep c share (.printing j linked []) share (.consumed j)
  /-- `timeout` stops the agent. -/
  | stopReading (share : Share) (j : Job) (linked : Bool) : GuestStep c share (.agent j linked) share (.stopped j)
  | stopPrinting (share : Share) (j : Job) (linked : Bool) (texts : List String) :
      GuestStep c share (.printing j linked texts) share (.stopped j)
  /-- The marker replaces the output. -/
  | openMarker (share : Share) (j : Job) :
      GuestStep c share (.stopped j) { share with out := share.out.insert j.name "" } (.marking j true)
  | noMarker (share : Share) (j : Job) : GuestStep c share (.stopped j) share (.consumed j)
  | mark (share : Share) (j : Job) (linked : Bool) :
      GuestStep c share (.marking j linked)
        { share with out := appendOut share.out linked j.name timeoutMarker } (.consumed j)
  | consume (share : Share) (j : Job) :
      GuestStep c share (.consumed j) { share with job := share.job.erase j.name } (.names j.strict j.rest)
  | notConsumed (share : Share) (j : Job) : GuestStep c share (.consumed j) share (.names j.strict j.rest)
  | done (share : Share) : GuestStep c share .finished { share with batchDone := true } .idle
  | notDone (share : Share) : GuestStep c share .finished share .idle
  | restart (share : Share) (g : Guest) : GuestStep c share g share .idle

/-- The worker removes the output of a name. -/
def Guest.unlink (name : String) : Guest → Guest
  | .agent j linked => .agent j (linked && j.name != name)
  | .printing j linked texts => .printing j (linked && j.name != name) texts
  | .marking j linked => .marking j (linked && j.name != name)
  | g => g

/-! ## The worker -/

/-- One query: the channel of its reply is its number. -/
structure Query where
  id : Nat
  name : String
  bytes : List UInt8

/-- `QEMU_BATCH`. -/
def qemuBatch : Nat := 100

/-- The name that asks for a flush. -/
def flushName : String := "__flush__"

/-- What `flush_batch` returns to. -/
inductive After where
  | receive
  | replyTo (q : Query)
  | exit

/-- The markers that are written or removed without a look at the result. -/
inductive Tidy where
  | strict
  | batchReady
  | runSh
  | manifest
  | batchDone
  deriving DecidableEq

/-- A call of `write_batch`: the job files, and whether it is the retry (which keeps the outputs). -/
structure Round where
  jobs : List (String × List UInt8)
  retry : Bool

/-- What follows the markers of a stage. -/
inductive Next where
  | makeDirs (r : Round)
  | files (r : Round)
  | leave

inductive Worker where
  | receive
  | openDirs
  -- the wait for the previous batch
  | await
  | awaitDone
  | clearJob (left : List String) (next : Round)
  -- `write_batch`
  | makeDirs (r : Round)
  | tidy (files : List Tidy) (next : Next)
  | listOut (r : Round)
  | clearOut (left : List String) (r : Round)
  | create (left : List (String × List UInt8)) (r : Round)
  | fill (job : String × List UInt8) (left : List (String × List UInt8)) (r : Round)
  | createManifest (r : Round)
  | fillManifest (r : Round)
  | writeRun (r : Round)
  | writeReady (r : Round)
  -- `wait_for_results`, and the names it misses
  | pollJob (left : List String) (retried : Bool)
  | pollOut (name : String) (left : List String) (retried : Bool)
  | collect (left missing : List String) (retried : Bool)
  -- the replies
  | read (tries : Nat)
  | remove (parsed : Option Column)
  | answer (parsed : Option Column)
  | leave
  | exited

/-- The first round clears the outputs, the retry keeps them. -/
def Next.worker : Next → Worker
  | .makeDirs r => .makeDirs r
  | .files r => if r.retry then .create r.jobs r else .listOut r
  | .leave => .leave

/-- `write_batch` can fail here. -/
def writes : Worker → Option Round
  | .makeDirs r | .createManifest r | .fillManifest r | .writeRun r | .writeReady r => some r
  | .create (_ :: _) r => some r
  | .fill _ _ r => some r
  | _ => none

structure State where
  share : Share
  guest : Guest
  worker : Worker
  after : After
  pending : List Query
  queue : List Query
  asked : List Query
  replies : List (Query × Except String Column)
  closed : Bool
  retries : Nat

namespace State

def names (s : State) : List String := s.pending.map (·.name)

/-- `flush_batch` returns. -/
def finish (s : State) : State :=
  match s.after with
  | .receive => { s with worker := .receive }
  | .replyTo q => { s with worker := .receive, after := .receive, replies := s.replies ++ [(q, .ok (.accept, none, none))] }
  | .exit => { s with worker := .exited }

/-- `flush_batch` is called. -/
def flush (s : State) (after : After) : State :=
  if s.pending = [] then ({ s with after := after } : State).finish
  else { s with after := after, worker := .openDirs }

/-- `fail_all`. -/
def failAll (s : State) (why : String) : State :=
  ({ s with replies := s.replies ++ s.pending.map (·, .error why), pending := [] } : State).finish

/-- `write_batch` returned false. -/
def writeFailed (s : State) (r : Round) : State :=
  if r.retry then { s with worker := .read 0 } else s.failAll "qemu: cannot write batch"

def tidyFile (c : Setup) (share : Share) : Tidy → Share
  | .strict => { share with strict := c.strict }
  | .batchReady => { share with batchReady := false }
  | .runSh => { share with runSh := false }
  | .manifest => { share with manifest := none }
  | .batchDone => { share with batchDone := false }

/-- The worker removes an output. -/
def dropOut (s : State) (name : String) : State :=
  { s with share := { s.share with out := s.share.out.erase name }, guest := s.guest.unlink name }

/-- All jobs of the pending queries. -/
def jobs (s : State) : List (String × List UInt8) := s.pending.map fun q => (q.name, q.bytes)

def manifestText (r : Round) : List Char := r.jobs.flatMap fun job => job.1.toList ++ ['\n']

/-- The rounds of the reading loop. -/
def readTries : Nat := 10

/-- A job file that the guest has removed meanwhile stays removed. -/
def fillJob (job : Dir (List UInt8)) (name : String) (bytes : List UInt8) : Dir (List UInt8) :=
  if (job.lookup name).isSome then job.insert name bytes else job

/-- The loop of `qemu_worker`. -/
def receive (s : State) : State :=
  match s.queue with
  | q :: queue =>
    if q.name = flushName then { s with queue := queue }.flush (.replyTo q)
    else
      let pending := s.pending ++ [q]
      let s := { s with queue := queue, pending := pending }
      if qemuBatch ≤ pending.length then s.flush .receive else s
  | [] => if s.closed then s.flush .exit else if s.pending = [] then s else s.flush .receive

/-- What the worker reads of the output of a query. -/
def outText (s : State) (q : Query) : String := (s.share.out.lookup q.name).getD ""

/-- The wait for the results finds a job that is still there, or an output that is not. -/
def unfinished (s : State) : Option Bool :=
  match s.worker with
  | .pollJob (name :: _) retried => if (s.share.job.lookup name).isSome then some retried else none
  | .pollOut name _ retried => if (s.share.out.lookup name).isNone then some retried else none
  | _ => none

/-- The wait for the previous batch is not over. -/
def Unconsumed (s : State) : Prop :=
  (s.worker = .await ∧ s.share.job.keys ≠ []) ∨ (s.worker = .awaitDone ∧ s.share.batchDone = true)

/-- A name without an output is missing. -/
def miss (s : State) (name : String) (missing : List String) : List String :=
  if (s.share.out.lookup name).isSome then missing else missing ++ [name]

def reply : Option Column → Except String Column
  | some column => .ok column
  | none => .error "qemu: parse/read failure"

end State

open State in
/-- One operation of the worker. `faulty`: an operation whose result the code does not look at may
    fail, and a failed write may leave a part of the file. -/
inductive WorkerStep (c : Setup) (faulty : Bool) : State → State → Prop
  | receive (s : State) : s.worker = .receive → WorkerStep c faulty s s.receive
  | openDirs (s : State) : s.worker = .openDirs → WorkerStep c faulty s { s with worker := .await }
  | noDirs (s : State) : s.worker = .openDirs → WorkerStep c faulty s (s.failAll "qemu: cannot create share dirs")
  | jobEmpty (s : State) : s.worker = .await → s.share.job.keys = [] ∨ faulty = true →
      WorkerStep c faulty s { s with worker := .awaitDone }
  | notDone (s : State) : s.worker = .awaitDone → s.share.batchDone = false →
      WorkerStep c faulty s { s with worker := .makeDirs ⟨s.jobs, false⟩ }
  | awaitAgain (s : State) : s.worker = .awaitDone → s.share.batchDone = true →
      WorkerStep c faulty s { s with worker := .await }
  /-- The deadline of the wait for the previous batch. -/
  | neverConsumed (s : State) : s.Unconsumed →
      WorkerStep c faulty s { s with worker := .clearJob s.share.job.keys ⟨s.jobs, false⟩ }
  | clearJob (s : State) (name : String) (left : List String) (next : Round) : s.worker = .clearJob (name :: left) next →
      WorkerStep c faulty s
        { s with share := { s.share with job := s.share.job.erase name }, worker := .clearJob left next }
  | keepJob (s : State) (name : String) (left : List String) (next : Round) : s.worker = .clearJob (name :: left) next →
      faulty = true → WorkerStep c faulty s { s with worker := .clearJob left next }
  | jobCleared (s : State) (next : Round) : s.worker = .clearJob [] next →
      WorkerStep c faulty s { s with worker := .tidy [.batchDone] (.makeDirs next) }
  | makeDirs (s : State) (r : Round) : s.worker = .makeDirs r →
      WorkerStep c faulty s { s with worker := .tidy [.strict, .batchReady, .runSh, .manifest] (.files r) }
  | tidy (s : State) (file : Tidy) (files : List Tidy) (next : Next) : s.worker = .tidy (file :: files) next →
      WorkerStep c faulty s { s with share := tidyFile c s.share file, worker := .tidy files next }
  | keepFile (s : State) (file : Tidy) (files : List Tidy) (next : Next) : s.worker = .tidy (file :: files) next →
      faulty = true → WorkerStep c faulty s { s with worker := .tidy files next }
  | tidied (s : State) (next : Next) : s.worker = .tidy [] next →
      WorkerStep c faulty s { s with worker := next.worker }
  | listOut (s : State) (r : Round) : s.worker = .listOut r →
      WorkerStep c faulty s { s with worker := .clearOut s.share.out.keys r }
  | clearOut (s : State) (name : String) (left : List String) (r : Round) : s.worker = .clearOut (name :: left) r →
      WorkerStep c faulty s { s.dropOut name with worker := .clearOut left r }
  | keepOut (s : State) (name : String) (left : List String) (r : Round) : s.worker = .clearOut (name :: left) r →
      faulty = true → WorkerStep c faulty s { s with worker := .clearOut left r }
  | outCleared (s : State) (r : Round) : s.worker = .clearOut [] r →
      WorkerStep c faulty s { s with worker := .create r.jobs r }
  | create (s : State) (job : String × List UInt8) (left : List (String × List UInt8)) (r : Round) :
      s.worker = .create (job :: left) r →
      WorkerStep c faulty s
        { s with share := { s.share with job := s.share.job.insert job.1 [] }, worker := .fill job left r }
  | fill (s : State) (job : String × List UInt8) (left : List (String × List UInt8)) (r : Round) :
      s.worker = .fill job left r →
      WorkerStep c faulty s
        { s with share := { s.share with job := fillJob s.share.job job.1 job.2 }, worker := .create left r }
  | tornJob (s : State) (job : String × List UInt8) (left : List (String × List UInt8)) (r : Round) (written : Nat) :
      s.worker = .fill job left r → faulty = true →
      WorkerStep c faulty s
        ({ s with share := { s.share with job := fillJob s.share.job job.1 (job.2.take written) } }.writeFailed r)
  | created (s : State) (r : Round) : s.worker = .create [] r → WorkerStep c faulty s { s with worker := .createManifest r }
  | createManifest (s : State) (r : Round) : s.worker = .createManifest r →
      WorkerStep c faulty s { s with share := { s.share with manifest := some [] }, worker := .fillManifest r }
  | fillManifest (s : State) (r : Round) : s.worker = .fillManifest r →
      WorkerStep c faulty s { s with share := { s.share with manifest := some (manifestText r) }, worker := .writeRun r }
  | writeRun (s : State) (r : Round) : s.worker = .writeRun r →
      WorkerStep c faulty s { s with share := { s.share with runSh := true }, worker := .writeReady r }
  | writeReady (s : State) (r : Round) : s.worker = .writeReady r →
      WorkerStep c faulty s
        { s with share := { s.share with batchReady := true }, worker := .pollJob s.names r.retry }
  /-- `write_batch` fails. -/
  | notWritten (s : State) (r : Round) : writes s.worker = some r → WorkerStep c faulty s (s.writeFailed r)
  | jobGone (s : State) (name : String) (left : List String) (retried : Bool) : s.worker = .pollJob (name :: left) retried →
      s.share.job.lookup name = none → WorkerStep c faulty s { s with worker := .pollOut name left retried }
  | outThere (s : State) (name : String) (left : List String) (retried : Bool) : s.worker = .pollOut name left retried →
      (s.share.out.lookup name).isSome → WorkerStep c faulty s { s with worker := .pollJob left retried }
  | pollAgain (s : State) (retried : Bool) : s.unfinished = some retried →
      WorkerStep c faulty s { s with worker := .pollJob s.names retried }
  | deadline (s : State) (retried : Bool) : s.unfinished = some retried →
      WorkerStep c faulty s { s with worker := .collect s.names [] retried }
  | complete (s : State) (retried : Bool) : s.worker = .pollJob [] retried →
      WorkerStep c faulty s { s with worker := .read 0 }
  | collect (s : State) (name : String) (left missing : List String) (retried : Bool) :
      s.worker = .collect (name :: left) missing retried →
      WorkerStep c faulty s { s with worker := .collect left (s.miss name missing) retried }
  | giveUp (s : State) (missing : List String) (retried : Bool) : s.worker = .collect [] missing retried →
      retried = true ∨ missing = [] → WorkerStep c faulty s { s with worker := .read 0 }
  | retry (s : State) (missing : List String) : s.worker = .collect [] missing false → missing ≠ [] →
      WorkerStep c faulty s { s with
        retries := s.retries + 1
        worker := .clearJob s.share.job.keys ⟨s.jobs.filter (·.1 ∈ missing), true⟩ }
  | read (s : State) (tries : Nat) (q : Query) (rest : List Query) : s.worker = .read tries → s.pending = q :: rest →
      trim (s.outText q).toList ≠ [] → WorkerStep c faulty s { s with worker := .remove (parseAgentVerdict (s.outText q)) }
  /-- The output is blank, or cannot be read. -/
  | readAgain (s : State) (tries : Nat) (q : Query) (rest : List Query) : s.worker = .read tries → s.pending = q :: rest →
      WorkerStep c faulty s { s with worker := if tries + 1 < readTries then .read (tries + 1) else .remove none }
  | remove (s : State) (parsed : Option Column) (q : Query) (rest : List Query) : s.worker = .remove parsed →
      s.pending = q :: rest → WorkerStep c faulty s { s.dropOut q.name with worker := .answer parsed }
  | keepAnswered (s : State) (parsed : Option Column) : s.worker = .remove parsed → faulty = true →
      WorkerStep c faulty s { s with worker := .answer parsed }
  | answer (s : State) (parsed : Option Column) (q : Query) (rest : List Query) : s.worker = .answer parsed →
      s.pending = q :: rest →
      WorkerStep c faulty s { s with replies := s.replies ++ [(q, reply parsed)], pending := rest, worker := .read 0 }
  | allRead (s : State) (tries : Nat) : s.worker = .read tries → s.pending = [] →
      WorkerStep c faulty s { s with worker := .tidy [.batchDone, .runSh, .batchReady, .manifest] .leave }
  | leave (s : State) : s.worker = .leave → WorkerStep c faulty s s.finish

/-! ## The system -/

/-- The client of a batch: `ask` and `flush` block until the reply, `drop` sends one more flush. -/
def State.send (s : State) (name : String) (bytes : List UInt8) : State :=
  let q : Query := ⟨s.asked.length, name, bytes⟩
  { s with queue := s.queue ++ [q], asked := s.asked ++ [q] }

/-- One step of one party. -/
inductive Step (c : Setup) (faulty : Bool) : State → State → Prop
  | ask (s : State) (name : String) (bytes : List UInt8) : s.closed = false → s.replies.length = s.asked.length →
      Step c faulty s (s.send name bytes)
  | drop (s : State) : s.closed = false → s.replies.length = s.asked.length →
      Step c faulty s { s.send flushName [] with closed := true }
  | guest (s : State) (share : Share) (g : Guest) : GuestStep c s.share s.guest share g →
      Step c faulty s { s with share := share, guest := g }
  | worker (s s' : State) : WorkerStep c faulty s s' → Step c faulty s s'

/-- A new worker on a share that may hold the remains of earlier ones, with the guest in its loop. -/
structure Start (c : Setup) (s : State) : Prop where
  guest : s.guest = .idle
  worker : s.worker = .receive
  after : s.after = .receive
  pending : s.pending = []
  queue : s.queue = []
  asked : s.asked = []
  replies : s.replies = []
  /-- No script of an earlier run waits to be run in another mode. -/
  mode : s.share.runSh = true → s.share.strict = c.strict

inductive Reachable (c : Setup) (faulty : Bool) : State → Prop
  | start (s : State) : Start c s → Reachable c faulty s
  | step {s s' : State} : Reachable c faulty s → Step c faulty s s' → Reachable c faulty s'

def emptyShare : Share := ⟨∅, ∅, none, false, false, false, false⟩

/-- The first query of a worker on an empty share. -/
def firstQuery (name : String) (bytes : List UInt8) : State :=
  ⟨emptyShare, .idle, .receive, .receive, [], [⟨0, name, bytes⟩], [⟨0, name, bytes⟩], [], false, 0⟩

theorem firstQuery_reachable (faulty : Bool) (c : Setup) (name : String) (bytes : List UInt8) :
    Reachable c faulty (firstQuery name bytes) := by
  have hstart : Reachable c faulty ⟨emptyShare, .idle, .receive, .receive, [], [], [], [], false, 0⟩ :=
    .start _ ⟨rfl, rfl, rfl, rfl, rfl, rfl, rfl, fun h => by cases h⟩
  exact hstart.step (.ask _ name bytes rfl rfl)

end RandVerifier.GuestShare
