/-
  RandVerifier.Driver — the fixpoint loop of the reducer (`src/fuzz/reduce/driver.rs`).

  A cycle takes the first structural candidate that the oracle accepts, then what `ddmin`
  makes of the program, then the first accepted operand candidate; the loop ends with a cycle
  that accepts nothing. The failure anchor is any function of the program, and a panic of the
  passes ends the reduction.

  - `cycle_steps`: a cycle returns, and every program that it accepts is a step down in the
    measure of `Shrink`;
  - `reduction_terminates`: so the loop ends, at a program of which no candidate is accepted,
    unless the starting program stops the reducer;
  - `reduction_stopped`: a sign-extending 8-byte load stops it.
-/

import RandVerifier.Shrink
import RandVerifier.Ddmin
import Mathlib.Data.List.Chain

namespace RandVerifier

namespace Reduce

open Fixup

/-! ## The loop -/

/-- The passes of the timeline. -/
inductive Pass where
  | cfg
  | ddmin
  | operand
  deriving DecidableEq, Repr

/-- The variables of the loop. The timeline keeps the instruction counts of the accepted
    programs, `insnCount`. -/
structure Reduction where
  current : List UInt8
  cache : OracleCache
  accepted : List (Pass × List UInt8)

def insnCount (bytes : List UInt8) : Nat := bytes.length / 8

def Reduction.timeline (s : Reduction) : List (Pass × Nat) := s.accepted.map fun p => (p.1, insnCount p.2)

def Reduction.start (original : List UInt8) (budget : Nat) : Reduction := ⟨original, .new budget, []⟩

def Reduction.accept (s : Reduction) (pass : Pass) (next : List UInt8) (cache : OracleCache) : Reduction :=
  ⟨next, cache, s.accepted ++ [(pass, next)]⟩

/-- `apply`: a candidate must differ from the current program and satisfy the oracle. -/
def applyCandidate (oracle : Oracle) (current candidate : List UInt8) (cache : OracleCache) :
    Option (List UInt8) × OracleCache :=
  if candidate = current then (none, cache)
  else match cache.check candidate oracle with
    | (some true, cache) => (some candidate, cache)
    | (_, cache) => (none, cache)

/-- The first candidate that is accepted. -/
def firstAccepted (oracle : Oracle) (current : List UInt8) : List (List UInt8) → OracleCache →
    Option (List UInt8) × OracleCache
  | [], cache => (none, cache)
  | candidate :: candidates, cache =>
    match applyCandidate oracle current candidate cache with
    | (some next, cache) => (some next, cache)
    | (none, cache) => firstAccepted oracle current candidates cache

/-- The slice of the program without its dead code, to the anchor of the program itself. -/
def sliceDead (dead : Option (List UInt8)) (anchor : Option Nat) : Except Panic (Option (List UInt8)) :=
  match dead with
  | none => .ok none
  | some d => sliceToAnchor d anchor

/-- Dead code, slice, both, and the branches with a dead side. -/
def cfgCandidates (anchor : Option Nat) (current : List UInt8) : Except Panic (List (List UInt8)) := do
  let dead ← deadCode current
  let slice ← sliceToAnchor current anchor
  let both ← sliceDead dead anchor
  let sides ← simplifyDeadSide current
  .ok ([dead, slice, both].filterMap id ++ sides)

/-- One candidate of a list, if one is accepted. -/
def takeFirst (oracle : Oracle) (pass : Pass) (s : Reduction) (candidates : List (List UInt8)) : Bool × Reduction :=
  match firstAccepted oracle s.current candidates s.cache with
  | (some next, cache) => (true, s.accept pass next cache)
  | (none, cache) => (false, { s with cache })

def cfgStep (anchor : List UInt8 → Option Nat) (oracle : Oracle) (s : Reduction) : Except Panic (Bool × Reduction) :=
  (cfgCandidates (anchor s.current) s.current).map (takeFirst oracle .cfg s)

/-- The panic of a deletion. -/
def panicOf (_ : Fixup.Stop) : Panic := .unreachable

/-- What `ddmin` makes of the program, if it is another one. -/
def takeReduced (s : Reduction) (r : Option (List UInt8) × OracleCache) : Bool × Reduction :=
  match r with
  | (some reduced, cache) => if reduced ≠ s.current then (true, s.accept .ddmin reduced cache) else (false, { s with cache })
  | (none, cache) => (false, { s with cache })

def ddminStep (fuel : Nat) (oracle : Oracle) (s : Reduction) : Option (Except Panic (Bool × Reduction)) :=
  (ddmin fuel s.current s.cache oracle).map fun r => (r.mapError panicOf).map (takeReduced s)

def operandStep (oracle : Oracle) (s : Reduction) : Except Panic (Bool × Reduction) :=
  (operandCandidates s.current).map fun candidates => takeFirst oracle .operand s (candidates.map Prod.snd)

/-- One cycle, and whether it made progress; `none` when the fuel of `ddmin` runs out. -/
def cycle (fuel : Nat) (anchor : List UInt8 → Option Nat) (oracle : Oracle) (s : Reduction) :
    Option (Except Panic (Bool × Reduction)) :=
  match cfgStep anchor oracle s with
  | .error e => some (.error e)
  | .ok (p₁, s₁) =>
    match ddminStep fuel oracle s₁ with
    | none => none
    | some (.error e) => some (.error e)
    | some (.ok (p₂, s₂)) =>
      match operandStep oracle s₂ with
      | .error e => some (.error e)
      | .ok (p₃, s₃) => some (.ok (p₁ || p₂ || p₃, s₃))

/-- The loop, until a cycle makes no progress. -/
def reduceLoop (fuel : Nat) (anchor : List UInt8 → Option Nat) (oracle : Oracle) :
    Nat → Reduction → Option (Except Panic Reduction)
  | 0, _ => none
  | rounds + 1, s =>
    match cycle fuel anchor oracle s with
    | none => none
    | some (.error e) => some (.error e)
    | some (.ok (true, s)) => reduceLoop fuel anchor oracle rounds s
    | some (.ok (false, s)) => some (.ok s)

/-! ## The search of `ddmin` -/

section Search

variable {oracle : Oracle} {bytes out : List UInt8} {cache cache' : OracleCache}

theorem search_mono {fuel : Nat} {s : Search} {r : Except Fixup.Stop (List UInt8 × OracleCache)} (k : Nat)
    (h : search oracle bytes fuel s = some r) : search oracle bytes (fuel + k) s = some r := by
  induction fuel generalizing s with
  | zero => cases h
  | succ fuel ih =>
    rw [Nat.add_right_comm]
    unfold search at h ⊢
    split at h
    · exact h
    · exact h
    · exact ih h

theorem ddmin_mono {fuel : Nat} {r : Except Fixup.Stop (Option (List UInt8) × OracleCache)} (k : Nat)
    (h : ddmin fuel bytes cache oracle = some r) : ddmin (fuel + k) bytes cache oracle = some r := by
  unfold ddmin at h ⊢
  by_cases hshort : bytes.length / 8 < 2
  · rw [if_pos hshort] at h ⊢
    exact h
  · rw [if_neg hshort] at h ⊢
    split at h
    · obtain ⟨p, hp, hr⟩ := Option.map_eq_some_iff.mp h
      exact Option.map_eq_some_iff.mpr ⟨p, search_mono k hp, hr⟩
    · exact h
    · exact h

theorem tryChunks_reduced {keep keep' : List Nat} {granularity : Nat} {chunks : List Nat}
    (h : tryChunks oracle bytes keep granularity chunks cache = .ok (.reduced keep' out, cache')) :
    ∃ removed, deleteInsns bytes removed = .ok out := by
  induction chunks generalizing cache with
  | nil => cases h
  | cons chunk chunks ih =>
    unfold tryChunks at h
    dsimp only at h
    split at h
    · exact ih h
    · split at h
      · cases h
      · exact ih h
      · rename_i candidate hdel
        split at h
        · cases h
          exact ⟨_, hdel⟩
        · exact ih h
        · cases h

theorem search_deletes {fuel : Nat} {s : Search} (h : search oracle bytes fuel s = some (.ok (out, cache')))
    (hs : s.best = bytes ∨ ∃ removed, deleteInsns bytes removed = .ok s.best) :
    out = bytes ∨ ∃ removed, deleteInsns bytes removed = .ok out := by
  induction fuel generalizing s with
  | zero => cases h
  | succ fuel ih =>
    unfold search at h
    split at h
    · cases h
    · rename_i best cache'' hround
      cases h
      unfold round at hround
      split at hround
      · cases hround
        exact hs
      · dsimp only at hround
        split at hround
        · cases hround
        · cases hround
        · cases hround
          exact hs
        · split at hround
          · cases hround
            exact hs
          · cases hround
    · rename_i s' hround
      refine ih h ?_
      unfold round at hround
      split at hround
      · cases hround
      · dsimp only at hround
        split at hround
        · cases hround
        · rename_i hchunks
          cases hround
          exact .inr (tryChunks_reduced hchunks)
        · cases hround
        · split at hround
          · cases hround
          · cases hround
            exact hs

/-- What `ddmin` returns is the program itself or a deletion from it. -/
theorem ddmin_deletes {fuel : Nat} (h : ddmin fuel bytes cache oracle = some (.ok (some out, cache'))) :
    out = bytes ∨ ∃ removed, deleteInsns bytes removed = .ok out := by
  unfold ddmin at h
  split at h
  · cases h
    exact .inl rfl
  · split at h
    · obtain ⟨r, hrun, hr⟩ := Option.map_eq_some_iff.mp h
      rcases r with e | ⟨best, final⟩
      · cases hr
      · cases hr
        exact search_deletes hrun (.inl rfl)
    · cases h
    · cases h
      exact .inl rfl

end Search

/-! ## What a candidate is -/

section Steps

variable {oracle : Oracle} {current out : List UInt8} {cache cache' : OracleCache} {cands : List (List UInt8)}
  {anchor : Option Nat}

/-- A candidate of a program: a step down that stays tame. -/
def StepDown (current out : List UInt8) : Prop := Smaller out current ∧ (Tame current → Tame out)

theorem deletion_stepDown {removed : List Nat} (h : deleteInsns current removed = .ok out)
    (hlt : out.length < current.length) : StepDown current out :=
  ⟨smaller_of_length hlt, (deletion_tame h).2⟩

theorem deadCode_stepDown (h : deadCode current = .ok (some out)) :
    StepDown current out ∧ ∃ insns, decode current = some insns := by
  obtain ⟨insns, hdec, -, hdel⟩ := deadCode_some.mp h
  exact ⟨deletion_stepDown hdel (deadCode_shorter h), insns, hdec⟩

theorem slice_stepDown (h : sliceToAnchor current anchor = .ok (some out)) :
    StepDown current out ∧ ∃ insns, decode current = some insns := by
  obtain ⟨insns, a, hdec, -, -, -, hdel⟩ := sliceToAnchor_some.mp h
  exact ⟨deletion_stepDown hdel (sliceToAnchor_shorter h), insns, hdec⟩

theorem StepDown.trans {a b c : List UInt8} (h : StepDown a b) (h' : StepDown b c) : StepDown a c :=
  ⟨h'.1.trans h.1, fun htame => h'.2 (h.2 htame)⟩

/-- The structural candidates. -/
theorem cfgCandidates_mem (htame : ∀ insns, decode current = some insns → Tame current)
    (h : cfgCandidates anchor current = .ok cands) (hmem : out ∈ cands) :
    Smaller out current ∧ Tame out := by
  obtain ⟨dead, hdead, h⟩ := bind_eq_ok.mp h
  obtain ⟨slice, hslice, h⟩ := bind_eq_ok.mp h
  obtain ⟨both, hboth, h⟩ := bind_eq_ok.mp h
  obtain ⟨sides, hsides, h⟩ := bind_eq_ok.mp h
  cases h
  have hdown : StepDown current out ∧ (∃ insns, decode current = some insns) → Smaller out current ∧ Tame out := by
    rintro ⟨hstep, insns, hdec⟩
    exact ⟨hstep.1, hstep.2 (htame insns hdec)⟩
  rcases List.mem_append.mp hmem with hin | hin
  · obtain ⟨c, hc, hout⟩ := List.mem_filterMap.mp hin
    simp only [List.mem_cons, List.not_mem_nil, or_false] at hc
    cases hout
    rcases hc with rfl | rfl | rfl
    · exact hdown (deadCode_stepDown hdead)
    · exact hdown (slice_stepDown hslice)
    · cases dead with
      | none => cases hboth
      | some d =>
        obtain ⟨hstep, hdec⟩ := deadCode_stepDown hdead
        exact hdown ⟨hstep.trans (slice_stepDown hboth).1, hdec⟩
  · cases hdec : decode current with
    | none =>
      rw [simplifyDeadSide, hdec] at hsides
      cases hsides
      cases hin
    | some insns =>
      exact simplified_smaller hdec (htame insns hdec) (simplifyDeadSide_mem hdec hsides hin)

theorem encodes_of_tame (htame : ∀ insns, decode current = some insns → Tame current) :
    ∀ insns, decodeProgram current = .ok insns → ∀ insn ∈ insns, (encode insn).isSome = true := by
  intro insns hdec insn hin
  have hlen := decodeProgram_length hdec
  have hpos := List.length_pos_of_mem hin
  have hdecode : decode current = some insns := by
    refine decode_some.mpr ⟨fun hnil => ?_, by omega, hdec⟩
    rw [hnil, List.length_nil] at hlen
    omega
  exact (((rewritable_iff hdecode).mpr (htame insns hdecode)) insn hin).1

/-- The structural candidates are computed. -/
theorem cfgCandidates_returns (htame : ∀ insns, decode current = some insns → Tame current) :
    ∃ cands, cfgCandidates anchor current = .ok cands := by
  have henc := encodes_of_tame htame
  obtain ⟨dead, hdead⟩ := deadCode_returns henc
  obtain ⟨slice, hslice⟩ := sliceToAnchor_returns henc anchor
  obtain ⟨sides, hsides⟩ := simplifyDeadSide_returns henc
  obtain ⟨both, hboth⟩ : ∃ both, sliceDead dead anchor = .ok both := by
    cases dead with
    | none => exact ⟨none, rfl⟩
    | some d =>
      obtain ⟨hstep, insns, hdec⟩ := deadCode_stepDown hdead
      exact sliceToAnchor_returns (encodes_of_tame fun _ _ => hstep.2 (htame insns hdec)) anchor
  simp only [cfgCandidates, hdead, hslice, hboth, hsides, bind, Except.bind]
  exact ⟨_, rfl⟩

/-! ## Taking a candidate -/

/-- The cache stays an image of the oracle, and what is taken was accepted. -/
theorem firstAccepted_spec (hagree : cache.Agrees oracle) {r : Option (List UInt8)}
    (h : firstAccepted oracle current cands cache = (r, cache')) :
    cache'.Agrees oracle ∧ cache'.maxChecks = cache.maxChecks ∧
      (∀ next, r = some next → next ∈ cands ∧ oracle next = true) ∧
      (r = none → cache.maxChecks = 0 → ∀ c ∈ cands, c ≠ current → oracle c = false) := by
  induction cands generalizing cache with
  | nil =>
    cases h
    exact ⟨hagree, rfl, nofun, fun _ _ => nofun⟩
  | cons candidate cands ih =>
    unfold firstAccepted applyCandidate at h
    split_ifs at h with heq
    · obtain ⟨h1, h2, h3, h4⟩ := ih hagree h
      refine ⟨h1, h2, fun next hr => ⟨List.mem_cons_of_mem _ (h3 next hr).1, (h3 next hr).2⟩, fun hr hzero => ?_⟩
      exact List.forall_mem_cons.mpr ⟨fun hne => absurd heq hne, h4 hr hzero⟩
    · obtain ⟨result, hresult⟩ : ∃ p, cache.check candidate oracle = p := ⟨_, rfl⟩
      obtain ⟨result, next⟩ := result
      obtain ⟨h1, h2, h3, h4⟩ := check_agrees hagree hresult
      rw [hresult] at h
      rcases result with _ | _ | _
      · obtain ⟨h1', h2', h3', h4'⟩ := ih h1 h
        refine ⟨h1', h2'.trans h2, fun next' hr => ⟨List.mem_cons_of_mem _ (h3' next' hr).1, (h3' next' hr).2⟩,
          fun _ hzero => ?_⟩
        have := h4 rfl
        omega
      · obtain ⟨h1', h2', h3', h4'⟩ := ih h1 h
        refine ⟨h1', h2'.trans h2, fun next' hr => ⟨List.mem_cons_of_mem _ (h3' next' hr).1, (h3' next' hr).2⟩,
          fun hr hzero => ?_⟩
        exact List.forall_mem_cons.mpr ⟨fun _ => h3 false rfl, h4' hr (h2.trans hzero)⟩
      · cases h
        refine ⟨h1, h2, fun next' hr => ?_, nofun⟩
        cases hr
        exact ⟨List.mem_cons_self, h3 true rfl⟩

end Steps

/-! ## Cycles -/

/-- One accepted program after another: a step down in the measure, and no longer. -/
def Descends (a b : List UInt8) : Prop := Smaller b a ∧ b.length ≤ a.length

/-- What holds before every cycle. -/
structure Reduction.Valid (oracle : Oracle) (original : List UInt8) (budget : Nat) (s : Reduction) : Prop where
  holds : oracle s.current = true
  tame : ∀ insns, decode s.current = some insns → Tame s.current
  agrees : s.cache.Agrees oracle
  maxChecks : s.cache.maxChecks = budget
  accepted : ∀ p ∈ s.accepted, oracle p.2 = true
  descends : (original :: s.accepted.map Prod.snd).IsChain Descends
  last : (original :: s.accepted.map Prod.snd).getLast? = some s.current

/-- A step with progress goes down; without, it leaves the program, and what it looked at is
    settled if there is no budget. -/
def Advanced (p : Bool) (s s' : Reduction) (settled : Prop) : Prop :=
  (p = true → Smaller s'.current s.current) ∧
    (p = false → s'.current = s.current ∧ (s.cache.maxChecks = 0 → settled))

section Cycles

variable {oracle : Oracle} {original : List UInt8} {budget : Nat} {s s' : Reduction} {cache : OracleCache}
  {next : List UInt8} {pass : Pass}

theorem Reduction.Valid.accept (h : s.Valid oracle original budget) (hnext : oracle next = true)
    (htame : ∀ insns, decode next = some insns → Tame next) (hsmall : Smaller next s.current)
    (hagree : cache.Agrees oracle) (hmax : cache.maxChecks = s.cache.maxChecks) :
    (s.accept pass next cache).Valid oracle original budget where
  holds := hnext
  tame := htame
  agrees := hagree
  maxChecks := hmax.trans h.maxChecks
  accepted := by
    intro p hp
    rcases List.mem_append.mp hp with hp | hp
    · exact h.accepted p hp
    · rw [List.mem_singleton.mp hp]
      exact hnext
  descends := by
    unfold Reduction.accept
    rw [List.map_append, List.map_singleton, ← List.cons_append]
    refine List.isChain_append.mpr ⟨h.descends, List.isChain_singleton _, fun a ha b hb => ?_⟩
    rw [h.last] at ha
    cases ha
    cases hb
    exact ⟨hsmall, hsmall.length_le⟩
  last := by
    unfold Reduction.accept
    rw [List.map_append, List.map_singleton, ← List.cons_append, List.getLast?_concat]

theorem Reduction.Valid.withCache (h : s.Valid oracle original budget) (hagree : cache.Agrees oracle)
    (hmax : cache.maxChecks = s.cache.maxChecks) : ({ s with cache } : Reduction).Valid oracle original budget :=
  ⟨h.holds, h.tame, hagree, hmax.trans h.maxChecks, h.accepted, h.descends, h.last⟩

/-- No candidate of a list is accepted. -/
def Settled (oracle : Oracle) (current : List UInt8) (cands : List (List UInt8)) : Prop :=
  ∀ c ∈ cands, c ≠ current → oracle c = false

theorem takeFirst_spec (h : s.Valid oracle original budget) {cands : List (List UInt8)}
    (hcands : ∀ c ∈ cands, Smaller c s.current ∧ Tame c) :
    (takeFirst oracle pass s cands).2.Valid oracle original budget ∧
      Advanced (takeFirst oracle pass s cands).1 s (takeFirst oracle pass s cands).2 (Settled oracle s.current cands) := by
  obtain ⟨⟨r, cache'⟩, hr⟩ : ∃ p, firstAccepted oracle s.current cands s.cache = p := ⟨_, rfl⟩
  obtain ⟨h1, h2, h3, h4⟩ := firstAccepted_spec h.agrees hr
  unfold takeFirst
  rw [hr]
  cases r with
  | some next =>
    obtain ⟨hin, haccepted⟩ := h3 next rfl
    obtain ⟨hsmall, htame⟩ := hcands next hin
    exact ⟨h.accept haccepted (fun _ _ => htame) hsmall h1 h2, fun _ => hsmall, nofun⟩
  | none => exact ⟨h.withCache h1 h2, nofun, fun _ => ⟨rfl, h4 rfl⟩⟩

/-- What is settled when the structural passes make no progress. -/
def CfgSettled (anchor : List UInt8 → Option Nat) (oracle : Oracle) (current : List UInt8) : Prop :=
  ∀ cands, cfgCandidates (anchor current) current = .ok cands → Settled oracle current cands

theorem cfgStep_spec (anchor : List UInt8 → Option Nat) (h : s.Valid oracle original budget) :
    ∃ p s', cfgStep anchor oracle s = .ok (p, s') ∧ s'.Valid oracle original budget ∧
      Advanced p s s' (CfgSettled anchor oracle s.current) := by
  obtain ⟨cands, hcands⟩ := @cfgCandidates_returns s.current (anchor s.current) h.tame
  obtain ⟨hvalid, hstep, hstop⟩ := @takeFirst_spec oracle original budget s .cfg h cands
    fun c hc => cfgCandidates_mem h.tame hcands hc
  refine ⟨_, _, by rw [cfgStep, hcands]; rfl, hvalid, hstep, fun hp => ⟨(hstop hp).1, fun hzero cands' hcands' => ?_⟩⟩
  rw [hcands] at hcands'
  cases hcands'
  exact (hstop hp).2 hzero

/-- What is settled when the operand passes make no progress. -/
def OperandSettled (oracle : Oracle) (current : List UInt8) : Prop :=
  ∀ cands, operandCandidates current = .ok cands → Settled oracle current (cands.map Prod.snd)

theorem operandStep_spec (h : s.Valid oracle original budget) :
    ∃ p s', operandStep oracle s = .ok (p, s') ∧ s'.Valid oracle original budget ∧
      Advanced p s s' (OperandSettled oracle s.current) := by
  obtain ⟨cands, hcands⟩ := @operandCandidates_returns s.current fun insns hdec =>
    (rewritable_iff hdec).mpr (h.tame insns hdec)
  obtain ⟨hvalid, hstep, hstop⟩ := @takeFirst_spec oracle original budget s .operand h (cands.map Prod.snd) fun c hc => by
    obtain ⟨⟨t, out⟩, hmem, rfl⟩ := List.mem_map.mp hc
    cases hdec : decode s.current with
    | none =>
      rw [operandCandidates, hdec] at hcands
      cases hcands
      cases hmem
    | some insns => exact proposal_smaller hdec (h.tame insns hdec) (operandCandidates_mem hdec hcands hmem)
  refine ⟨_, _, by rw [operandStep, hcands]; rfl, hvalid, hstep, fun hp => ⟨(hstop hp).1, fun hzero cands' hcands' => ?_⟩⟩
  rw [hcands] at hcands'
  cases hcands'
  exact (hstop hp).2 hzero

/-- What is settled when `ddmin` makes no progress. -/
def DdminSettled (oracle : Oracle) (current : List UInt8) : Prop :=
  2 ≤ current.length / 8 → OneMinimal oracle current

theorem ddminStep_spec (h : s.Valid oracle original budget) :
    ∃ fuel p s', (∀ k, ddminStep (fuel + k) oracle s = some (.ok (p, s'))) ∧ s'.Valid oracle original budget ∧
      Advanced p s s' (DdminSettled oracle s.current) := by
  by_cases hlen : 2 ≤ s.current.length / 8
  · obtain ⟨fuel, out, cache', hrun, hfin⟩ := ddmin_returns (encodes_of_tame h.tame) hlen h.holds h.agrees
    refine ⟨fuel, (takeReduced s (some out, cache')).1, (takeReduced s (some out, cache')).2, fun k => ?_, ?_⟩
    · rw [ddminStep, ddmin_mono k hrun]
      rfl
    · unfold takeReduced
      dsimp only
      split
      · rename_i hne
        have hlt := hfin.shorter.resolve_left hne
        obtain ⟨removed, hdel⟩ := (ddmin_deletes hrun).resolve_left hne
        obtain ⟨⟨insns, hdec⟩, htame⟩ := deletion_tame hdel
        exact ⟨h.accept hfin.holds (fun _ _ => htame (h.tame insns hdec)) (smaller_of_length hlt) hfin.agrees hfin.maxChecks,
          fun _ => smaller_of_length hlt, nofun⟩
      · rename_i heq
        rw [ne_eq, not_not] at heq
        refine ⟨h.withCache hfin.agrees hfin.maxChecks, nofun, fun _ => ⟨rfl, fun hzero hlen => ?_⟩⟩
        rw [← heq] at hlen ⊢
        exact hfin.minimal hzero hlen
  · refine ⟨0, false, s, fun k => ?_, h, nofun, fun _ => ⟨rfl, fun _ hbad => absurd hbad hlen⟩⟩
    have hsame : takeReduced s (some s.current, s.cache) = (false, s) := by
      unfold takeReduced
      exact if_neg (not_not.mpr rfl)
    rw [ddminStep, ddmin, if_pos (by omega), Option.map_some]
    exact congrArg (fun r => some (Except.ok r)) hsame

/-- No candidate of any pass is accepted. -/
structure Fixpoint (anchor : List UInt8 → Option Nat) (oracle : Oracle) (current : List UInt8) : Prop where
  cfg : CfgSettled anchor oracle current
  ddmin : DdminSettled oracle current
  operand : OperandSettled oracle current

theorem Advanced.down {p : Bool} {settled : Prop} (h : Advanced p s s' settled) :
    s'.current = s.current ∨ Smaller s'.current s.current := by
  cases p with
  | true => exact .inr (h.1 rfl)
  | false => exact .inl (h.2 rfl).1

/-- A cycle returns; with progress it ends at a smaller program, and without it at a fixpoint. -/
theorem cycle_steps (anchor : List UInt8 → Option Nat) (h : s.Valid oracle original budget) :
    ∃ fuel p s', (∀ k, cycle (fuel + k) anchor oracle s = some (.ok (p, s'))) ∧ s'.Valid oracle original budget ∧
      Advanced p s s' (Fixpoint anchor oracle s.current) := by
  obtain ⟨p₁, s₁, hrun₁, hvalid₁, hadv₁⟩ := cfgStep_spec anchor h
  obtain ⟨fuel, p₂, s₂, hrun₂, hvalid₂, hadv₂⟩ := ddminStep_spec hvalid₁
  obtain ⟨p₃, s₃, hrun₃, hvalid₃, hadv₃⟩ := operandStep_spec hvalid₂
  refine ⟨fuel, p₁ || p₂ || p₃, s₃, fun k => ?_, hvalid₃, fun hp => ?_, fun hp => ?_⟩
  · rw [cycle, hrun₁]
    dsimp only
    rw [hrun₂ k]
    dsimp only
    rw [hrun₃]
  · -- one of the steps went down, and the others did not go up
    have hdown₁ := hadv₁.down
    have hdown₂ := hadv₂.down
    have hdown₃ := hadv₃.down
    have hone : Smaller s₁.current s.current ∨ Smaller s₂.current s₁.current ∨ Smaller s₃.current s₂.current := by
      rw [Bool.or_eq_true, Bool.or_eq_true] at hp
      rcases hp with (hp | hp) | hp
      · exact .inl (hadv₁.1 hp)
      · exact .inr (.inl (hadv₂.1 hp))
      · exact .inr (.inr (hadv₃.1 hp))
    have htrans : ∀ {a b c : List UInt8}, (b = a ∨ Smaller b a) → Smaller c b → Smaller c a := by
      rintro a b c (rfl | hba) hcb
      · exact hcb
      · exact hcb.trans hba
    have htrans' : ∀ {a b c : List UInt8}, Smaller b a → (c = b ∨ Smaller c b) → Smaller c a := by
      rintro a b c hba (rfl | hcb)
      · exact hba
      · exact hcb.trans hba
    rcases hone with hone | hone | hone
    · exact htrans' (htrans' hone hdown₂) hdown₃
    · exact htrans' (htrans hdown₁ hone) hdown₃
    · exact htrans hdown₁ (htrans hdown₂ hone)
  · rw [Bool.or_eq_false_iff, Bool.or_eq_false_iff] at hp
    obtain ⟨⟨hp₁, hp₂⟩, hp₃⟩ := hp
    obtain ⟨heq₁, hset₁⟩ := hadv₁.2 hp₁
    obtain ⟨heq₂, hset₂⟩ := hadv₂.2 hp₂
    obtain ⟨heq₃, hset₃⟩ := hadv₃.2 hp₃
    rw [heq₁] at heq₂ hset₂
    rw [heq₂] at heq₃ hset₃
    refine ⟨heq₃, fun hzero => ⟨hset₁ hzero, hset₂ ?_, hset₃ ?_⟩⟩
    · rw [hvalid₁.maxChecks, ← h.maxChecks]
      exact hzero
    · rw [hvalid₂.maxChecks, ← h.maxChecks]
      exact hzero

theorem loop_terminates (anchor : List UInt8 → Option Nat) (s : Reduction) (h : s.Valid oracle original budget) :
    ∃ fuel rounds s', (∀ k, reduceLoop (fuel + k) anchor oracle rounds s = some (.ok s')) ∧
      s'.Valid oracle original budget ∧ (budget = 0 → Fixpoint anchor oracle s'.current) := by
  induction hcur : s.current using smaller_wf.induction generalizing s with
  | _ current ih =>
    obtain ⟨fuel, p, s₁, hrun, hvalid, hadv⟩ := cycle_steps anchor h
    cases p with
    | false =>
      obtain ⟨heq, hfix⟩ := hadv.2 rfl
      refine ⟨fuel, 1, s₁, fun k => by rw [reduceLoop, hrun k], hvalid, fun hzero => ?_⟩
      rw [heq]
      exact hfix (h.maxChecks.trans hzero)
    | true =>
      have hsmall := hadv.1 rfl
      rw [hcur] at hsmall
      obtain ⟨fuel', rounds, s', hrest, hvalid', hfix⟩ := ih s₁.current hsmall s₁ hvalid rfl
      refine ⟨fuel + fuel', rounds + 1, s', fun k => ?_, hvalid', hfix⟩
      have hfirst := hrun (fuel' + k)
      have hmore := hrest (fuel + k)
      rw [← Nat.add_assoc] at hfirst hmore
      rw [Nat.add_comm fuel' fuel] at hmore
      rw [reduceLoop, hfirst]
      exact hmore

theorem start_valid {bytes : List UInt8} (hholds : oracle bytes = true)
    (hrw : ∀ insns, decode bytes = some insns → Rewritable insns) :
    (Reduction.start bytes budget).Valid oracle bytes budget where
  holds := hholds
  tame := fun insns hdec => (rewritable_iff hdec).mp (hrw insns hdec)
  agrees := nofun
  maxChecks := rfl
  accepted := nofun
  descends := List.isChain_singleton _
  last := rfl

end Cycles

/-! ## The reduction -/

/-- From a program that satisfies the oracle and does not stop the reducer, the loop ends after
    finitely many cycles. The programs that it accepts satisfy the oracle, each is a step down
    from the one before and not longer; with no budget, the last one is a fixpoint of all passes. -/
theorem reduction_terminates (anchor : List UInt8 → Option Nat) (oracle : Oracle) (bytes : List UInt8) (budget : Nat)
    (hholds : oracle bytes = true) (hrw : ∀ insns, decode bytes = some insns → Rewritable insns) :
    ∃ fuel rounds s, reduceLoop fuel anchor oracle rounds (.start bytes budget) = some (.ok s) ∧
      (∀ p ∈ s.accepted, oracle p.2 = true) ∧ (bytes :: s.accepted.map Prod.snd).IsChain Descends ∧
      (bytes :: s.accepted.map Prod.snd).getLast? = some s.current ∧
      (budget = 0 → Fixpoint anchor oracle s.current) := by
  obtain ⟨fuel, rounds, s, hrun, hvalid, hfix⟩ := loop_terminates anchor _ (@start_valid oracle budget bytes hholds hrw)
  exact ⟨fuel, rounds, s, hrun 0, hvalid.accepted, hvalid.descends, hvalid.last, hfix⟩

/-- The bytes of `r0 = 5; exit`. -/
def constantProgram : List UInt8 := [0xb7, 0, 0, 0, 5, 0, 0, 0] ++ exitBytes

theorem reduction_terminates_constant : ∃ fuel rounds s,
    reduceLoop fuel (fun _ => none) (fun b => decide (b.length = 16)) rounds (.start constantProgram 0) = some (.ok s) ∧
      (∀ p ∈ s.accepted, decide (p.2.length = 16) = true) ∧
      (constantProgram :: s.accepted.map Prod.snd).IsChain Descends ∧
      (constantProgram :: s.accepted.map Prod.snd).getLast? = some s.current ∧
      ((0 : Nat) = 0 → Fixpoint (fun _ => none) (fun b => decide (b.length = 16)) s.current) := by
  refine reduction_terminates (fun _ => none) (fun b => decide (b.length = 16)) constantProgram 0 (by decide)
    fun insns hdec => ?_
  have hdecode : decode constantProgram = some [.movImm 0 5, .exit] := by decide
  rw [hdecode] at hdec
  cases hdec
  intro insn hin
  simp only [List.mem_cons, List.not_mem_nil, or_false] at hin
  rcases hin with rfl | rfl <;> exact ⟨rfl, nofun⟩

/-- A sign-extending 8-byte load stops the reduction, with every fuel, and a load at the offset
    of largest magnitude stops the operand candidates. -/
theorem reduction_stopped :
    (¬ ∃ fuel rounds s, reduceLoop fuel (fun _ => none) (fun b => decide (b = ldsxBytes ++ exitBytes)) rounds
      (.start (ldsxBytes ++ exitBytes) 0) = some (.ok s)) ∧
    operandCandidates ([0x79, 0xa0, 0x00, 0x80, 0, 0, 0, 0] ++ exitBytes) = .error .overflow := by
  refine ⟨?_, rfl⟩
  rintro ⟨fuel, rounds, s, h⟩
  cases rounds with
  | zero => cases h
  | succ rounds =>
    have hstop : cycle fuel (fun _ => none) (fun b => decide (b = ldsxBytes ++ exitBytes))
        (.start (ldsxBytes ++ exitBytes) 0) = none ∨
        cycle fuel (fun _ => none) (fun b => decide (b = ldsxBytes ++ exitBytes))
          (.start (ldsxBytes ++ exitBytes) 0) = some (.error .unreachable) := by
      cases fuel with
      | zero => exact .inl rfl
      | succ fuel => exact .inr rfl
    unfold reduceLoop at h
    rcases hstop with hstop | hstop
    · rw [hstop] at h
      cases h
    · rw [hstop] at h
      cases h

end Reduce

end RandVerifier
