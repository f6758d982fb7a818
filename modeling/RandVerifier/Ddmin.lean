/-
  RandVerifier.Ddmin — delta debugging over instruction deletion
  (`src/fuzz/reduce/ddmin.rs`).

  A round splits the kept positions into `n` chunks and tries the program without each; the
  first that the oracle accepts becomes the best and `n` goes down by one. If none is
  accepted, `n` doubles up to the number of positions, where the chunks are single
  instructions. Deletions are from the original bytes. The search stops with one instruction
  left, or when the budget of checks is used up. A program with a sign-extending 8-byte load
  stops the encoder, which is `Fixup.Stop.unreachable` here.

  Proved:
  - `round_valid`: what a round keeps of the search;
  - `search_terminates`: the search ends, since a round shortens the program or refines the
    chunks;
  - `ddmin_correct`: the result satisfies the oracle and is not longer, and with no budget it
    is 1-minimal while more than one instruction is left;
  - `last_instruction`: a single instruction is left although the oracle accepts the empty
    program, and a load that does not encode stops the search.
-/

import RandVerifier.Deletions

namespace RandVerifier

namespace Reduce

open Fixup

/-! ## The oracle -/

abbrev Oracle := List UInt8 → Bool

/-- `OracleCache`: the results so far, and the checks that made them; a budget of 0 is none. -/
structure OracleCache where
  results : List UInt8 → Option Bool
  maxChecks : Nat
  checks : Nat
  hits : Nat

namespace OracleCache

def new (maxChecks : Nat) : OracleCache := ⟨fun _ => none, maxChecks, 0, 0⟩

def budgetExhausted (cache : OracleCache) : Bool := decide (0 < cache.maxChecks ∧ cache.maxChecks ≤ cache.checks)

/-- Evaluate a program, at most once; `none` when the budget is used up. -/
def check (cache : OracleCache) (bytes : List UInt8) (oracle : Oracle) : Option Bool × OracleCache :=
  match cache.results bytes with
  | some result => (some result, { cache with hits := cache.hits + 1 })
  | none =>
    if cache.budgetExhausted then (none, cache)
    else
      let result := oracle bytes
      (some result, { cache with
        results := Function.update cache.results bytes (some result)
        checks := cache.checks + 1 })

/-- The cached results are those of the oracle. -/
def Agrees (cache : OracleCache) (oracle : Oracle) : Prop :=
  ∀ bytes result, cache.results bytes = some result → oracle bytes = result

end OracleCache

/-! ## The search -/

/-- `keep` without one of its chunks. -/
def withoutChunk (keep : List Nat) (granularity chunk : Nat) : List Nat :=
  (keep.zipIdx.filter fun p => p.2 / granularity ≠ chunk).map Prod.fst

/-- The positions that a candidate does not keep. -/
def removedOf (len : Nat) (candidate : List Nat) : List Nat := (List.range len).filter (· ∉ candidate)

/-- How the chunks of a round end. -/
inductive Chunks where
  | reduced (keep : List Nat) (best : List UInt8)
  | exhausted
  | unchanged

/-- Try the chunks in order. -/
def tryChunks (oracle : Oracle) (bytes : List UInt8) (keep : List Nat) (granularity : Nat) :
    List Nat → OracleCache → Except Fixup.Stop (Chunks × OracleCache)
  | [], cache => .ok (.unchanged, cache)
  | chunk :: chunks, cache =>
    let candidate := withoutChunk keep granularity chunk
    if candidate.length = keep.length then tryChunks oracle bytes keep granularity chunks cache
    else match deleteInsns bytes (removedOf (bytes.length / 8) candidate) with
      | .error .unreachable => .error .unreachable
      | .error .rejected => tryChunks oracle bytes keep granularity chunks cache
      | .ok candidateBytes => match cache.check candidateBytes oracle with
        | (some true, cache) => .ok (.reduced candidate candidateBytes, cache)
        | (some false, cache) => tryChunks oracle bytes keep granularity chunks cache
        | (none, cache) => .ok (.exhausted, cache)

/-- The variables of the loop. -/
structure Search where
  keep : List Nat
  best : List UInt8
  n : Nat
  cache : OracleCache

/-- How a round ends: with the best program found, or with another round. -/
inductive Round where
  | done (best : List UInt8) (cache : OracleCache)
  | next (s : Search)

/-- One round of the loop. -/
def round (oracle : Oracle) (bytes : List UInt8) (s : Search) : Except Fixup.Stop Round :=
  if s.keep.length < 2 ∨ s.cache.budgetExhausted = true then .ok (.done s.best s.cache)
  else
    let granularity := (s.keep.length + s.n - 1) / s.n
    match tryChunks oracle bytes s.keep granularity (List.range s.n) s.cache with
    | .error e => .error e
    | .ok (.reduced keep best, cache) => .ok (.next ⟨keep, best, max (s.n - 1) 2, cache⟩)
    | .ok (.exhausted, cache) => .ok (.done s.best cache)
    | .ok (.unchanged, cache) =>
      if s.keep.length ≤ s.n then .ok (.done s.best cache)
      else .ok (.next { s with n := min (s.n * 2) s.keep.length, cache })

/-- The loop; `none` when the fuel runs out. -/
def search (oracle : Oracle) (bytes : List UInt8) : Nat → Search → Option (Except Fixup.Stop (List UInt8 × OracleCache))
  | 0, _ => none
  | fuel + 1, s =>
    match round oracle bytes s with
    | .error e => some (.error e)
    | .ok (.done best cache) => some (.ok (best, cache))
    | .ok (.next s) => search oracle bytes fuel s

/-- `ddmin`: no program for an input that does not satisfy the oracle. -/
def ddmin (fuel : Nat) (bytes : List UInt8) (cache : OracleCache) (oracle : Oracle) :
    Option (Except Fixup.Stop (Option (List UInt8) × OracleCache)) :=
  if bytes.length / 8 < 2 then some (.ok (some bytes, cache))
  else match cache.check bytes oracle with
    | (some true, cache) =>
      (search oracle bytes fuel ⟨List.range (bytes.length / 8), bytes, 2, cache⟩).map
        (·.map fun p => (some p.1, p.2))
    | (some false, cache) => some (.ok (none, cache))
    | (none, cache) => some (.ok (some bytes, cache))

/-! ## The cache -/

section Cache

variable {cache cache' : OracleCache} {oracle : Oracle} {bytes : List UInt8} {result : Option Bool}

/-- A check agrees with the oracle, and is only refused with a budget. -/
theorem check_agrees (h : cache.Agrees oracle) (hcheck : cache.check bytes oracle = (result, cache')) :
    cache'.Agrees oracle ∧ cache'.maxChecks = cache.maxChecks ∧ (∀ b, result = some b → oracle bytes = b) ∧
      (result = none → 0 < cache.maxChecks) := by
  unfold OracleCache.check at hcheck
  split at hcheck
  · rename_i known hknown
    cases hcheck
    exact ⟨h, rfl, fun b hb => Option.some.inj hb ▸ h bytes known hknown, nofun⟩
  · split at hcheck
    · rename_i hbudget
      cases hcheck
      exact ⟨h, rfl, nofun, fun _ => (of_decide_eq_true hbudget).1⟩
    · cases hcheck
      refine ⟨fun other known hknown => ?_, rfl, fun b hb => Option.some.inj hb, nofun⟩
      dsimp only at hknown
      by_cases heq : other = bytes
      · rw [heq, Function.update_self] at hknown
        rw [heq]
        exact Option.some.inj hknown
      · rw [Function.update_of_ne heq] at hknown
        exact h other known hknown

end Cache

/-! ## A round -/

/-- Every instruction that the program decodes to encodes. -/
def Encodable (bytes : List UInt8) : Prop :=
  ∀ insns, decodeProgram bytes = .ok insns → ∀ insn ∈ insns, (encode insn).isSome = true

section Chunks

variable {oracle : Oracle} {bytes : List UInt8} {keep : List Nat} {granularity : Nat} {chunks : List Nat}
  {cache cache' : OracleCache} {r : Chunks}

/-- A candidate that `tryChunks` evaluates to a program. -/
def Candidate (bytes : List UInt8) (keep : List Nat) (granularity chunk : Nat) (out : List UInt8) : Prop :=
  (withoutChunk keep granularity chunk).length ≠ keep.length ∧
    deleteInsns bytes (removedOf (bytes.length / 8) (withoutChunk keep granularity chunk)) = .ok out

/-- What the chunks of a round did: the first accepted candidate, a refused check, or no
    accepted candidate. -/
def Tried (oracle : Oracle) (bytes : List UInt8) (keep : List Nat) (granularity : Nat) (chunks : List Nat)
    (cache : OracleCache) : Chunks → Prop
  | .reduced keep' best => ∃ chunk ∈ chunks, keep' = withoutChunk keep granularity chunk ∧
      Candidate bytes keep granularity chunk best ∧ oracle best = true
  | .exhausted => 0 < cache.maxChecks
  | .unchanged => ∀ chunk ∈ chunks, ∀ out, Candidate bytes keep granularity chunk out → oracle out = false

theorem Tried.skip {chunk : Nat} (hmax : cache'.maxChecks = cache.maxChecks)
    (hskip : ∀ out, Candidate bytes keep granularity chunk out → oracle out = false)
    (h : Tried oracle bytes keep granularity chunks cache' r) :
    Tried oracle bytes keep granularity (chunk :: chunks) cache r := by
  cases r with
  | reduced keep' best =>
    obtain ⟨c, hc, hrest⟩ := h
    exact ⟨c, List.mem_cons_of_mem _ hc, hrest⟩
  | exhausted =>
    replace h : 0 < cache'.maxChecks := h
    rw [hmax] at h
    exact h
  | unchanged =>
    intro c hc
    rcases List.mem_cons.mp hc with rfl | hrest
    · exact hskip
    · exact h c hrest

theorem tryChunks_ok (hagree : cache.Agrees oracle)
    (h : tryChunks oracle bytes keep granularity chunks cache = .ok (r, cache')) :
    cache'.Agrees oracle ∧ cache'.maxChecks = cache.maxChecks ∧ Tried oracle bytes keep granularity chunks cache r := by
  induction chunks generalizing cache with
  | nil =>
    cases h
    exact ⟨hagree, rfl, nofun⟩
  | cons chunk chunks ih =>
    rw [tryChunks] at h
    split at h
    · rename_i hempty
      obtain ⟨h1, h2, h3⟩ := ih hagree h
      exact ⟨h1, h2, h3.skip rfl fun out hc => absurd hempty hc.1⟩
    · rename_i hlen
      split at h
      · cases h
      · rename_i hrej
        obtain ⟨h1, h2, h3⟩ := ih hagree h
        refine ⟨h1, h2, h3.skip rfl fun out hc => ?_⟩
        have hout := hc.2
        rw [hrej] at hout
        cases hout
      · rename_i out hout
        split at h
        · rename_i next hcheck
          cases h
          obtain ⟨h1, h2, h3, -⟩ := check_agrees hagree hcheck
          exact ⟨h1, h2, chunk, List.mem_cons_self, rfl, ⟨hlen, hout⟩, h3 true rfl⟩
        · rename_i next hcheck
          obtain ⟨h1, h2, h3, -⟩ := check_agrees hagree hcheck
          obtain ⟨h4, h5, h6⟩ := ih h1 h
          refine ⟨h4, h5.trans h2, h6.skip h2 fun out' hc => ?_⟩
          obtain rfl := Except.ok.inj (hout.symm.trans hc.2)
          exact h3 false rfl
        · rename_i next hcheck
          cases h
          obtain ⟨h1, h2, -, h4⟩ := check_agrees hagree hcheck
          exact ⟨h1, h2, h4 rfl⟩

theorem tryChunks_returns (henc : Encodable bytes) : ∃ p, tryChunks oracle bytes keep granularity chunks cache = .ok p := by
  induction chunks generalizing cache with
  | nil => exact ⟨_, rfl⟩
  | cons chunk chunks ih =>
    rw [tryChunks]
    split
    · exact ih
    · split
      · rename_i hstop
        exact absurd hstop (deleteInsns_unreachable henc)
      · exact ih
      · split
        · exact ⟨_, rfl⟩
        · exact ih
        · exact ⟨_, rfl⟩

end Chunks

/-! ## The kept positions -/

section Keep

variable {keep : List Nat} {granularity chunk len i x : Nat}

theorem withoutChunk_sublist : (withoutChunk keep granularity chunk).Sublist keep := by
  have h := (List.filter_sublist (p := fun p : Nat × Nat => decide (p.2 / granularity ≠ chunk))
    (l := keep.zipIdx)).map Prod.fst
  rw [List.zipIdx_map_fst] at h
  exact h

theorem mem_withoutChunk : x ∈ withoutChunk keep granularity chunk ↔
    ∃ j, keep[j]? = some x ∧ j / granularity ≠ chunk := by
  unfold withoutChunk
  simp only [List.mem_map, List.mem_filter, List.mem_zipIdx_iff_getElem?, decide_eq_true_eq]
  constructor
  · rintro ⟨⟨y, j⟩, ⟨hget, hne⟩, rfl⟩
    exact ⟨j, hget, hne⟩
  · rintro ⟨j, hget, hne⟩
    exact ⟨(x, j), ⟨hget, hne⟩, rfl⟩

/-- A chunk of one position is that position. -/
theorem mem_withoutOne (hn : keep.Nodup) {k : Nat} (hk : keep[i]? = some k) :
    x ∈ withoutChunk keep 1 i ↔ x ∈ keep ∧ x ≠ k := by
  rw [mem_withoutChunk]
  constructor
  · rintro ⟨j, hget, hne⟩
    refine ⟨List.mem_of_getElem? hget, ?_⟩
    rintro rfl
    rw [Nat.div_one] at hne
    obtain ⟨hlt, hj⟩ := List.getElem?_eq_some_iff.mp hget
    obtain ⟨hlt', hi⟩ := List.getElem?_eq_some_iff.mp hk
    exact hne ((List.Nodup.getElem_inj_iff hn).mp (hj.trans hi.symm))
  · rintro ⟨hmem, hne⟩
    obtain ⟨j, hget⟩ := List.mem_iff_getElem?.mp hmem
    refine ⟨j, hget, ?_⟩
    rw [Nat.div_one]
    rintro rfl
    exact hne (Option.some.inj (hget.symm.trans hk))

theorem mem_removedOf : x ∈ removedOf len keep ↔ x < len ∧ x ∉ keep := by
  simp [removedOf]

theorem countP_lt_succ (l : List Nat) (n : Nat) :
    l.countP (fun x => decide (x < n + 1)) = l.countP (fun x => decide (x < n)) + l.count n := by
  induction l with
  | nil => rfl
  | cons a l ih =>
    simp only [List.countP_cons, List.count_cons, ih, decide_eq_true_eq, beq_iff_eq]
    split_ifs <;> omega

/-- The new index of a position is the number of kept ones before it. -/
theorem newPos_countP (hn : keep.Nodup) {n : Nat} (hle : n ≤ len) :
    newPos (removedOf len keep) n = keep.countP fun x => decide (x < n) := by
  induction n with
  | zero =>
    rw [List.countP_eq_zero.mpr fun x _ => by simp]
    rfl
  | succ n ih =>
    rw [countP_lt_succ, ← ih (by omega)]
    by_cases hmem : n ∈ keep
    · rw [newPos_kept fun hin => (mem_removedOf.mp hin).2 hmem, List.count_eq_one_of_mem hn hmem]
    · rw [newPos_removed (mem_removedOf.mpr ⟨by omega, hmem⟩), List.count_eq_zero.mpr hmem, Nat.add_zero]

variable (hsub : keep.Sublist (List.range len))
include hsub

theorem keep_lt (hx : x ∈ keep) : x < len := List.mem_range.mp (hsub.subset hx)

theorem keep_nodup : keep.Nodup := hsub.nodup List.nodup_range

theorem newPos_all : newPos (removedOf len keep) len = keep.length := by
  rw [newPos_countP (keep_nodup hsub) (le_refl _), List.countP_eq_length]
  intro x hx
  exact decide_eq_true (keep_lt hsub hx)

/-- The new index of a kept position is its place among the kept ones. -/
theorem newPos_get {k : Nat} (hk : keep[i]? = some k) : newPos (removedOf len keep) k = i := by
  have hsorted : keep.Pairwise (· < ·) := List.pairwise_lt_range.sublist hsub
  obtain ⟨hlt, hget⟩ := List.getElem?_eq_some_iff.mp hk
  have hklt := keep_lt hsub (List.mem_of_getElem? hk)
  rw [newPos_countP (keep_nodup hsub) (by omega)]
  have hsplit : keep = keep.take i ++ k :: keep.drop (i + 1) := by
    rw [← hget, List.cons_getElem_drop_succ, List.take_append_drop]
  rw [hsplit] at hsorted
  obtain ⟨-, hafter, hbefore⟩ := List.pairwise_append.mp hsorted
  rw [hsplit, List.countP_append, List.countP_eq_length.mpr, List.countP_eq_zero.mpr, List.length_take]
  · omega
  · intro x hx
    rcases List.mem_cons.mp hx with rfl | hrest
    · simp
    · have := (List.pairwise_cons.mp hafter).1 x hrest
      simp
      omega
  · intro x hx
    exact decide_eq_true (hbefore x hx k List.mem_cons_self)

end Keep

/-! ## The invariant -/

/-- No deletion of a single instruction gives a program that the oracle accepts. -/
def OneMinimal (oracle : Oracle) (bytes : List UInt8) : Prop :=
  ∀ i small, deleteInsns bytes [i] = .ok small → oracle small = false

/-- The best program is the original, or the original without the positions that are not kept. -/
def IsBest (bytes : List UInt8) (keep : List Nat) (best : List UInt8) : Prop :=
  (keep = List.range (bytes.length / 8) ∧ best = bytes) ∨
    (keep.length < bytes.length / 8 ∧ deleteInsns bytes (removedOf (bytes.length / 8) keep) = .ok best)

/-- What holds before every round. -/
structure Search.Valid (oracle : Oracle) (bytes : List UInt8) (budget : Nat) (s : Search) : Prop where
  sub : s.keep.Sublist (List.range (bytes.length / 8))
  ne : s.keep ≠ []
  best : IsBest bytes s.keep s.best
  holds : oracle s.best = true
  agrees : s.cache.Agrees oracle
  maxChecks : s.cache.maxChecks = budget
  two : 2 ≤ s.n

/-- What holds of the result. -/
structure Finished (oracle : Oracle) (bytes : List UInt8) (budget : Nat) (best : List UInt8) (cache : OracleCache) :
    Prop where
  holds : oracle best = true
  shorter : best = bytes ∨ best.length < bytes.length
  ne : 8 ≤ best.length
  agrees : cache.Agrees oracle
  maxChecks : cache.maxChecks = budget
  minimal : budget = 0 → 2 ≤ best.length / 8 → OneMinimal oracle best

section Rounds

variable {oracle : Oracle} {bytes best : List UInt8} {budget : Nat} {s : Search} {keep : List Nat}

theorem IsBest.length (hsub : keep.Sublist (List.range (bytes.length / 8))) (h : IsBest bytes keep best) :
    best.length / 8 = keep.length ∧ (best = bytes ∨ best.length < bytes.length) := by
  rcases h with ⟨rfl, rfl⟩ | ⟨hlt, hdel⟩
  · exact ⟨List.length_range.symm, .inl rfl⟩
  · have hlen := deleteInsns_length hdel
    rw [newPos_all hsub] at hlen
    exact ⟨by omega, .inr (by omega)⟩

/-- A single deletion from the best program is a candidate for chunks of one position. -/
theorem single_candidate (hsub : keep.Sublist (List.range (bytes.length / 8))) (h : IsBest bytes keep best) {i : Nat}
    {small : List UInt8} (hdel : deleteInsns best [i] = .ok small) :
    i < keep.length ∧ Candidate bytes keep 1 i small := by
  obtain ⟨hlen, -⟩ := h.length hsub
  have hi : i < keep.length := by
    obtain ⟨insns, slots, hd, -⟩ := deleteInsns_ok.mp hdel
    have hin := hd.inside i (List.mem_singleton_self i)
    have := decodeProgram_length hd.decodes
    omega
  obtain ⟨k, hk⟩ : ∃ k, keep[i]? = some k := ⟨_, List.getElem?_eq_getElem hi⟩
  have hkeep := List.mem_of_getElem? hk
  have hn := keep_nodup hsub
  have hklt := keep_lt hsub hkeep
  have hmem : ∀ x, x ∈ removedOf (bytes.length / 8) (withoutChunk keep 1 i) ↔
      x ∈ removedOf (bytes.length / 8) keep ∨ x = k := by
    intro x
    rw [mem_removedOf, mem_removedOf, mem_withoutOne hn hk]
    constructor
    · rintro ⟨hx, hne⟩
      by_cases hxk : x = k
      · exact .inr hxk
      · exact .inl ⟨hx, fun hin => hne ⟨hin, hxk⟩⟩
    · rintro (⟨hx, hne⟩ | rfl)
      · exact ⟨hx, fun hin => hne hin.1⟩
      · exact ⟨hklt, fun hin => hin.2 rfl⟩
  refine ⟨hi, fun heq => ?_, ?_⟩
  · have hall := withoutChunk_sublist.eq_of_length heq
    rw [← hall] at hkeep
    exact ((mem_withoutOne hn hk).mp hkeep).2 rfl
  · rcases h with ⟨rfl, rfl⟩ | ⟨-, hbest⟩
    · have hik : i = k := by
        rw [List.getElem?_range (by simpa using hi)] at hk
        exact Option.some.inj hk
      rw [← hdel]
      refine deleteInsns_congr fun x => ?_
      rw [hmem, mem_removedOf, List.mem_range, List.mem_singleton, hik]
      exact or_iff_right fun hin => hin.2 hin.1
    · have hpos := newPos_get hsub hk
      rw [← hpos] at hdel
      exact delete_again (fun hin => (mem_removedOf.mp hin).2 hkeep) hmem hbest hklt hdel

/-- The first and the last position are in different chunks, so one of them stays. -/
theorem withoutChunk_ne {n chunk : Nat} (hlen : 2 ≤ keep.length) (hn : 2 ≤ n) :
    withoutChunk keep ((keep.length + n - 1) / n) chunk ≠ [] := by
  have hgran : (keep.length + n - 1) / n < keep.length ∧ 0 < (keep.length + n - 1) / n := by
    constructor
    · rw [Nat.div_lt_iff_lt_mul (by omega)]
      have h1 := Nat.mul_le_mul_right n hlen
      have h2 := Nat.mul_le_mul_left keep.length hn
      omega
    · exact Nat.div_pos (by omega) (by omega)
  have hfirst : 0 / ((keep.length + n - 1) / n) = 0 := Nat.zero_div _
  have hlast : 1 ≤ (keep.length - 1) / ((keep.length + n - 1) / n) := Nat.div_pos (by omega) hgran.2
  intro hnil
  have hout : ∀ j, j < keep.length → j / ((keep.length + n - 1) / n) = chunk := by
    intro j hj
    by_contra hne
    have hmem := mem_withoutChunk.mpr ⟨j, List.getElem?_eq_getElem hj, hne⟩
    rw [hnil] at hmem
    cases hmem
  have h0 := hout 0 (by omega)
  have h1 := hout (keep.length - 1) (by omega)
  omega

/-- A round that goes on keeps the invariant and gets closer: fewer positions, or smaller
    chunks. -/
theorem round_valid (h : s.Valid oracle bytes budget) {r : Round} (hr : round oracle bytes s = .ok r) :
    match r with
    | .done best cache => Finished oracle bytes budget best cache
    | .next s' => s'.Valid oracle bytes budget ∧
        (s'.keep.length < s.keep.length ∨ s'.keep.length = s.keep.length ∧ s.n < s'.n ∧ s.n < s.keep.length) := by
  obtain ⟨hlen, hshort⟩ := h.best.length h.sub
  have hpos : 0 < s.keep.length := List.length_pos_of_ne_nil h.ne
  unfold round at hr
  split at hr
  · rename_i hstop
    cases hr
    refine ⟨h.holds, hshort, by omega, h.agrees, h.maxChecks, fun hzero htwo => ?_⟩
    rcases hstop with hone | hbudget
    · omega
    · have := of_decide_eq_true hbudget
      rw [h.maxChecks] at this
      omega
  · rename_i hgo
    rw [not_or] at hgo
    dsimp only at hr
    split at hr
    · cases hr
    · rename_i keep best cache hrun
      cases hr
      obtain ⟨h1, h2, chunk, -, rfl, ⟨hne, hdel⟩, hbest⟩ := tryChunks_ok h.agrees hrun
      have hkept : (withoutChunk s.keep ((s.keep.length + s.n - 1) / s.n) chunk).Sublist s.keep :=
        withoutChunk_sublist
      have hsub := hkept.trans h.sub
      have hle := hkept.length_le
      have hrange := h.sub.length_le
      rw [List.length_range] at hrange
      refine ⟨⟨hsub, withoutChunk_ne (by omega) h.two, .inr ⟨by dsimp only; omega, hdel⟩, hbest, h1,
        h2.trans h.maxChecks, le_max_right _ _⟩, .inl (by dsimp only; omega)⟩
    · rename_i cache hrun
      cases hr
      obtain ⟨h1, h2, h3⟩ := tryChunks_ok h.agrees hrun
      refine ⟨h.holds, hshort, by omega, h1, h2.trans h.maxChecks, fun hzero => ?_⟩
      replace h3 : 0 < s.cache.maxChecks := h3
      rw [h.maxChecks] at h3
      omega
    · rename_i cache hrun
      obtain ⟨h1, h2, h3⟩ := tryChunks_ok h.agrees hrun
      split at hr
      · rename_i hsingle
        cases hr
        refine ⟨h.holds, hshort, by omega, h1, h2.trans h.maxChecks, fun _ _ i small hdel => ?_⟩
        obtain ⟨hi, hcand⟩ := single_candidate h.sub h.best hdel
        -- the chunks are single positions, and each of them was tried
        have hone : (s.keep.length + s.n - 1) / s.n = 1 := by
          rw [Nat.div_eq_iff (by omega)]
          omega
        rw [← hone] at hcand
        exact h3 i (List.mem_range.mpr (by omega)) small hcand
      · rename_i hmore
        cases hr
        have htwo := h.two
        refine ⟨⟨h.sub, h.ne, h.best, h.holds, h1, h2.trans h.maxChecks, by dsimp only; omega⟩,
          .inr ⟨rfl, by dsimp only; omega, by omega⟩⟩

theorem round_returns (henc : Encodable bytes) : ∃ r, round oracle bytes s = .ok r := by
  unfold round
  split
  · exact ⟨_, rfl⟩
  · obtain ⟨⟨r, cache⟩, hrun⟩ := @tryChunks_returns oracle bytes s.keep ((s.keep.length + s.n - 1) / s.n)
      (List.range s.n) s.cache henc
    dsimp only
    rw [hrun]
    cases r with
    | reduced keep best => exact ⟨_, rfl⟩
    | exhausted => exact ⟨_, rfl⟩
    | unchanged =>
      dsimp only
      split <;> exact ⟨_, rfl⟩

/-- The search ends. -/
theorem search_terminates (henc : Encodable bytes) (s : Search) (h : s.Valid oracle bytes budget) :
    ∃ fuel best cache, search oracle bytes fuel s = some (.ok (best, cache)) ∧ Finished oracle bytes budget best cache := by
  obtain ⟨r, hr⟩ := @round_returns oracle bytes s henc
  have hvalid := round_valid h hr
  cases r with
  | done best cache => exact ⟨1, best, cache, by rw [search, hr], hvalid⟩
  | next s' =>
    obtain ⟨hs', hcloser⟩ := hvalid
    obtain ⟨fuel, best, cache, hrun, hfin⟩ := search_terminates henc s' hs'
    exact ⟨fuel + 1, best, cache, by rw [search, hr]; exact hrun, hfin⟩
termination_by (s.keep.length, s.keep.length - s.n)
decreasing_by
  rcases hcloser with hlt | ⟨heq, hn, hle⟩
  · exact Prod.Lex.left _ _ hlt
  · rw [heq]
    exact Prod.Lex.right _ (by omega)

/-- `ddmin` returns, and what holds of its result. -/
theorem ddmin_returns (henc : Encodable bytes) (hlen : 2 ≤ bytes.length / 8) (hholds : oracle bytes = true)
    {cache : OracleCache} (hcache : cache.Agrees oracle) : ∃ fuel out cache',
      ddmin fuel bytes cache oracle = some (.ok (some out, cache')) ∧ Finished oracle bytes cache.maxChecks out cache' := by
  have hgo : ¬ bytes.length / 8 < 2 := by omega
  unfold ddmin
  simp only [if_neg hgo]
  split
  · rename_i next hcheck
    obtain ⟨h1, h2, -, -⟩ := check_agrees hcache hcheck
    have hstart : (⟨List.range (bytes.length / 8), bytes, 2, next⟩ : Search).Valid oracle bytes cache.maxChecks := by
      refine ⟨.refl _, fun hnil => ?_, .inl ⟨rfl, rfl⟩, hholds, h1, h2, le_refl _⟩
      have := congrArg List.length hnil
      simp only [List.length_range, List.length_nil] at this
      omega
    obtain ⟨fuel, best, cache', hrun, hfin⟩ := search_terminates henc _ hstart
    refine ⟨fuel, best, cache', ?_, hfin⟩
    rw [hrun]
    rfl
  · rename_i next hcheck
    have := (check_agrees hcache hcheck).2.2.1 false rfl
    rw [hholds] at this
    cases this
  · rename_i next hcheck
    obtain ⟨h1, h2, -, h4⟩ := check_agrees hcache hcheck
    have hbudget := h4 rfl
    refine ⟨0, bytes, next, rfl, hholds, .inl rfl, by omega, h1, h2, fun hzero => ?_⟩
    omega

end Rounds

/-- From a program of at least two instructions that satisfies the oracle and encodes, with a
    cache of the oracle's results: the search ends with a program that satisfies the oracle and
    is not longer; with no budget, no single deletion from it is accepted while more than one
    instruction is left. -/
theorem ddmin_correct (oracle : Oracle) (bytes : List UInt8) (cache : OracleCache) (hlen : 2 ≤ bytes.length / 8)
    (hholds : oracle bytes = true) (hcache : cache.Agrees oracle) (henc : Encodable bytes) :
    ∃ fuel out cache', ddmin fuel bytes cache oracle = some (.ok (some out, cache')) ∧ oracle out = true ∧
      out.length ≤ bytes.length ∧ (cache.maxChecks = 0 → 2 ≤ out.length / 8 → OneMinimal oracle out) := by
  obtain ⟨fuel, out, cache', hrun, hfin⟩ := ddmin_returns henc hlen hholds hcache
  refine ⟨fuel, out, cache', hrun, hfin.holds, ?_, hfin.minimal⟩
  rcases hfin.shorter with heq | hlt
  · rw [heq]
  · exact le_of_lt hlt

/-! ## Runs -/

def exitBytes : List UInt8 := [0x95, 0, 0, 0, 0, 0, 0, 0]

/-- A sign-extending 8-byte load. -/
def ldsxBytes : List UInt8 := [0x99, 0, 0, 0, 0, 0, 0, 0]

theorem ddmin_correct_exits : ∃ fuel out cache',
    ddmin fuel (exitBytes ++ exitBytes) (.new 0) (fun bytes => decide (bytes ≠ [])) = some (.ok (some out, cache')) ∧
      decide (out ≠ []) = true ∧ out.length ≤ 16 ∧
      ((OracleCache.new 0).maxChecks = 0 → 2 ≤ out.length / 8 → OneMinimal (fun bytes => decide (bytes ≠ [])) out) := by
  refine ddmin_correct _ (exitBytes ++ exitBytes) (.new 0) (by decide) (by decide) nofun fun insns hdec insn hmem => ?_
  have hexits : decodeProgram (exitBytes ++ exitBytes) = .ok [.exit, .exit] := by decide
  rw [hexits] at hdec
  cases hdec
  rw [List.eq_of_mem_replicate (n := 2) hmem]
  rfl

/-- One instruction is left although the oracle accepts the program without it; and a load
    that the encoder calls unreachable stops the search. -/
theorem last_instruction :
    ((ddmin 2 (exitBytes ++ exitBytes) (.new 0) fun _ => true).bind fun r => r.toOption.bind Prod.fst) = some exitBytes ∧
    (deleteInsns exitBytes [0]).toOption = some [] ∧
    (∃ e, ddmin 2 (ldsxBytes ++ exitBytes) (.new 0) (fun bytes => decide (bytes = ldsxBytes ++ exitBytes)) =
      some (.error e)) := by
  exact ⟨by decide, by decide, .unreachable, rfl⟩

end Reduce

end RandVerifier
