/-
  RandVerifier.IdPairs — the ids that an accepted comparison pairs.

  The comparison walks the places of the two states that can carry an id (references,
  registers and spills of every frame) in a fixed order; at each it relates the explored id
  to the current one, an unlinked current scalar standing for the next temporary id. So an
  accepted comparison is one pass of `checkScalarIds` over the places (`walk`), and the map
  it leaves is a partial bijection between explored ids and current or temporary ones.

  - `id_correspondence`: the correspondence is one-to-one and no temporary id occurs in the
    current state exactly if every id of the current state is larger than the number of
    places at which a linked explored scalar meets an unlinked one.
  - `temporary_id_collides`: an unlinked register passes for a linked one.
-/

import RandVerifier.Contain

namespace RandVerifier

/-! ## Places -/

/-- The id a value is linked or tracked by. -/
def RegState.ownId : RegState → Nat
  | .scalar b => b.id
  | .ptrToMapValue _ _ _ _ id => id
  | .ptrToMapValueOrNull _ id => id
  | .ptrToMem _ _ _ id _ => id
  | .ptrToMemOrNull id _ _ => id
  | .ptrToBtfId _ id => id
  | _ => 0

def RegState.parentId : RegState → Nat
  | .ptrToMem _ _ _ _ parent => parent
  | .ptrToMemOrNull _ parent _ => parent
  | _ => 0

/-- The value that a slot spills, as far as its last byte goes. -/
def StackState.spillAt (s : StackState) (slot : Nat) : RegState :=
  if s.bytes (slot * 8 + 7) = .spill then (s.spilled slot).getD .uninit else .uninit

/-- What holds a value in a frame. -/
inductive Holder where
  | reg (r : Reg)
  | slot (k : Nat)
  deriving DecidableEq

def FrameState.held (fr : FrameState) : Holder → RegState
  | .reg r => fr.regs r
  | .slot k => fr.stack.spillAt k

/-- Where a state can carry an id: a reference, or a value of the current frame (`none`) or
    of a saved one, by its own id or its parent's. -/
inductive Place where
  | ref (i : Nat)
  | own (frame : Option Nat) (h : Holder)
  | parent (frame : Option Nat) (h : Holder)
  deriving DecidableEq

def VerifierState.frameAt (st : VerifierState) : Option Nat → Option FrameState
  | none => some st.currentFrame
  | some k => st.saved k

def VerifierState.heldAt (st : VerifierState) (frame : Option Nat) (h : Holder) : RegState :=
  ((st.frameAt frame).map fun fr => fr.held h).getD .uninit

/-- The id at a place; 0 if there is none. -/
def VerifierState.idAt (st : VerifierState) : Place → Nat
  | .ref i => st.refs i
  | .own frame h => (st.heldAt frame h).ownId
  | .parent frame h => (st.heldAt frame h).parentId

def holders : List Holder := (List.finRange 11).map .reg ++ (List.range stackSlots).map .slot

def framePlaces (frame : Option Nat) : List Place := holders.flatMap fun h => [.own frame h, .parent frame h]

/-- The places of a state with `n` references, in the order of the comparison. -/
def places (n : Nat) : List Place :=
  (List.range n).map .ref ++ framePlaces none ++
    (List.range (maxCallFrames - 1)).flatMap fun k => framePlaces (some k)

/-! ## One pass over the places -/

/-- The comparison of the ids at a list of places. -/
def pairIds (old new : VerifierState) (l : List Place) (m : IdMap) : Option IdMap :=
  l.foldlM (fun m p => checkScalarIds m (old.idAt p) (new.idAt p)) m

theorem pairIds_append {old new : VerifierState} {l l' : List Place} {m m1 m2 : IdMap}
    (h : pairIds old new l m = some m1) (h' : pairIds old new l' m1 = some m2) :
    pairIds old new (l ++ l') m = some m2 := by
  rw [pairIds, List.foldlM_append]
  exact Option.bind_eq_some_iff.mpr ⟨m1, h, h'⟩

theorem pairIds_flatMap {α : Type} {old new : VerifierState} {f : α → List Place}
    {step : IdMap → α → Option IdMap} (l : List α) {m m' : IdMap}
    (hstep : ∀ a ∈ l, ∀ m m', step m a = some m' → pairIds old new (f a) m = some m')
    (h : l.foldlM step m = some m') : pairIds old new (l.flatMap f) m = some m' := by
  induction l generalizing m with
  | nil => exact h
  | cons a rest ih =>
    rw [List.foldlM_cons] at h
    obtain ⟨m1, h1, h2⟩ := Option.bind_eq_some_iff.mp h
    rw [List.flatMap_cons]
    exact pairIds_append (hstep a List.mem_cons_self _ _ h1)
      (ih (fun b hb => hstep b (List.mem_cons_of_mem _ hb)) h2)

/-- A nonzero id that passes is never paired with an absent one. -/
theorem checkScalarIds_of_checkIds {m m' : IdMap} {x y : Nat} (h : checkIds m x y = some m') :
    checkScalarIds m x y = some m' := by
  unfold checkScalarIds
  unfold checkIds at h ⊢
  split at h
  · cases h
  · rename_i hzero
    split at h
    · rename_i hx
      rw [if_pos hx, h]
    · rename_i hx
      have hy : y ≠ 0 := by simpa [hx] using hzero
      rw [if_neg hx, if_neg hy, if_neg hzero, if_neg hx, h]

/-- The comparison of the ids of two values. -/
def pairValues (o c : RegState) (m : IdMap) : Option IdMap :=
  (checkScalarIds m o.ownId c.ownId).bind fun m => checkScalarIds m o.parentId c.parentId

theorem checkScalarIds_zero (m : IdMap) (y : Nat) : checkScalarIds m 0 y = some m := by
  rw [checkScalarIds, if_pos rfl]

theorem pairIds_held (old new : VerifierState) (frame : Option Nat) (h : Holder) (m : IdMap) :
    pairIds old new [.own frame h, .parent frame h] m =
      pairValues (old.heldAt frame h) (new.heldAt frame h) m := by
  simp [pairIds, pairValues, VerifierState.idAt]

theorem pairValues_own {o c : RegState} (ho : o.parentId = 0) (m : IdMap) :
    pairValues o c m = checkScalarIds m o.ownId c.ownId := by
  rw [pairValues, ho]
  cases checkScalarIds m o.ownId c.ownId with
  | none => rfl
  | some m1 => exact checkScalarIds_zero m1 _

theorem pairValues_unlinked {o c : RegState} (ho : o.ownId = 0) (hp : o.parentId = 0) (m : IdMap) :
    pairValues o c m = some m := by
  rw [pairValues_own hp, ho, checkScalarIds_zero]

theorem pairValues_both {o c : RegState} {m m' : IdMap}
    (h : ((checkIds m o.ownId c.ownId).bind fun m1 => checkIds m1 o.parentId c.parentId) = some m') :
    pairValues o c m = some m' := by
  obtain ⟨m1, h1, h2⟩ := Option.bind_eq_some_iff.mp h
  rw [pairValues, checkScalarIds_of_checkIds h1, Option.bind_some, checkScalarIds_of_checkIds h2]

/-- An accepted comparison of two values compares their ids. -/
theorem regsafe_pairs {o c : RegState} {m m' : IdMap} (hp : o.isPrecise = true)
    (h : regsafe o c .notExact m = some m') : pairValues o c m = some m' := by
  change regsafeNotExact o c m = some m' at h
  unfold regsafeNotExact at h
  split at h
  case h_1 =>
    cases h
    exact pairValues_unlinked rfl rfl m
  case h_2 a b =>
    rw [if_neg (fun hi => Bool.noConfusion (hi.symm.trans hp))] at h
    exact (pairValues_own rfl m).trans (guardMap_eq_some.mp h).2
  case h_3 =>
    obtain ⟨-, hm⟩ := guardMap_eq_some.mp h
    cases hm
    exact pairValues_unlinked rfl rfl m
  case h_4 =>
    obtain ⟨-, hm⟩ := guardMap_eq_some.mp h
    cases hm
    exact pairValues_unlinked rfl rfl m
  case h_5 =>
    obtain ⟨-, hm⟩ := guardMap_eq_some.mp h
    cases hm
    exact pairValues_unlinked rfl rfl m
  case h_6 => exact (pairValues_own rfl m).trans (checkScalarIds_of_checkIds (guardMap_eq_some.mp h).2)
  case h_7 => exact (pairValues_own rfl m).trans (checkScalarIds_of_checkIds (guardMap_eq_some.mp h).2)
  case h_8 => exact pairValues_both (guardMap_eq_some.mp h).2
  case h_9 => exact pairValues_both (guardMap_eq_some.mp h).2
  case h_10 => exact (pairValues_own rfl m).trans (checkScalarIds_of_checkIds (guardMap_eq_some.mp h).2)
  case h_11 => cases h

/-! ### Stacks -/

section Stacks

variable {old new : StackState} {m m' : IdMap}

theorem spillAt_of_spill {s : StackState} {slot : Nat} {v : RegState}
    (hb : s.bytes (slot * 8 + 7) = .spill) (hv : s.spilled slot = some v) : s.spillAt slot = v := by
  rw [StackState.spillAt, if_pos hb, hv, Option.getD_some]

theorem spillAt_of_ne {s : StackState} {slot : Nat} (hb : s.bytes (slot * 8 + 7) ≠ .spill) :
    s.spillAt slot = .uninit := if_neg hb

/-- A scalar that a slot yields at a boundary is linked as the spill of the slot. -/
theorem fakeScalar_ids {s : StackState} {slot im : Nat} {v : RegState} (him : im < 8)
    (h : fakeScalarForStack s slot im = some v) :
    v.ownId = (s.spillAt slot).ownId ∧ v.parentId = 0 ∧ (s.spillAt slot).parentId = 0 := by
  rcases fakeScalar_cases h with ⟨hspill, b, hb, rfl⟩ | ⟨hmisc, rfl⟩
  · rw [spillAt_of_spill (hspill _ (by omega) (by omega)) hb]
    refine ⟨?_, rfl, rfl⟩
    simp only [RegState.ownId]
    split <;> rfl
  · have hend : s.bytes (slot * 8 + 7) ≠ .spill := by
      rw [hmisc _ (by omega) (by omega)]
      decide
    rw [spillAt_of_ne hend]
    exact ⟨rfl, rfl, rfl⟩

theorem fakePair_pairs {slot im : Nat} {o c : RegState} (him : im < 8)
    (hpair : fakePair old new (slot * 8 + im) = some (o, c))
    (hprec : ∀ r, old.spilled slot = some r → r.isPrecise = true)
    (h : regsafe o c .notExact m = some m') :
    pairValues (old.spillAt slot) (new.spillAt slot) m = some m' := by
  obtain ⟨ho, hc⟩ := fakePair_eq_some him hpair
  obtain ⟨hown, hpar, hpar'⟩ := fakeScalar_ids him ho
  obtain ⟨hown', -, -⟩ := fakeScalar_ids him hc
  rw [pairValues_own hpar', ← hown, ← hown', ← pairValues_own hpar]
  rcases fakeScalar_cases ho with ⟨-, b, hb, rfl⟩ | ⟨-, rfl⟩
  · refine regsafe_pairs ?_ h
    have hpb := hprec _ hb
    split
    · exact hpb
    · exact hpb
  · -- an unbound scalar is imprecise and unlinked
    have hm : m' = m := by
      cases hnew : c with
      | scalar b =>
        rw [hnew] at h
        exact (Option.some.inj h).symm
      | _ =>
        rw [hnew] at h
        cases h
    rw [hm]
    exact pairValues_unlinked rfl rfl m

theorem slotEndSafe_pairs {i : Nat} (h7 : i % 8 = 7) (heq : old.bytes i = new.bytes i)
    (hprec : ∀ r, old.spilled (i / 8) = some r → r.isPrecise = true)
    (h : slotEndSafe old new .notExact i m = some m') :
    pairValues (old.spillAt (i / 8)) (new.spillAt (i / 8)) m = some m' := by
  have hi : i / 8 * 8 + 7 = i := by omega
  unfold slotEndSafe at h
  rw [if_neg (not_not.mpr h7)] at h
  by_cases hspill : old.bytes i = .spill
  · rw [if_neg (by rw [hspill]; decide), if_pos hspill] at h
    split at h
    · rename_i hnone
      cases h
      refine pairValues_unlinked ?_ ?_ m <;>
        rw [StackState.spillAt, hi, if_pos hspill, hnone] <;> rfl
    · cases h
    · rename_i o c ho hc
      have hbo : old.bytes (i / 8 * 8 + 7) = .spill := by rw [hi, hspill]
      have hbc : new.bytes (i / 8 * 8 + 7) = .spill := by rw [hi, ← heq, hspill]
      rw [spillAt_of_spill hbo ho, spillAt_of_spill hbc hc]
      exact regsafe_pairs (hprec _ ho) h
  · have hm : m' = m := by
      split at h
      · exact (Option.some.inj (guardMap_eq_some.mp h).2).symm
      · exact (Option.some.inj h).symm
    have hbo : old.bytes (i / 8 * 8 + 7) ≠ .spill := by rwa [hi]
    rw [hm, spillAt_of_ne hbo]
    exact pairValues_unlinked rfl rfl m

/-- One round of the walk compares the spill of the slot that it finishes. -/
theorem stackByteSafe_pairs {i n : Nat}
    (hprec : ∀ r, old.spilled (i / 8) = some r → r.isPrecise = true)
    (h : stackByteSafe old new .notExact i m = some (m', n)) :
    0 < n ∧ i + n ≤ i / 8 * 8 + 8 ∧
      if i + n = i / 8 * 8 + 8 then pairValues (old.spillAt (i / 8)) (new.spillAt (i / 8)) m = some m'
      else m' = m := by
  unfold stackByteSafe at h
  rw [if_neg (by rintro ⟨⟨⟩, -⟩)] at h
  have hdone (hb : old.bytes i ≠ .spill) : if i + 1 = i / 8 * 8 + 8 then
      pairValues (old.spillAt (i / 8)) (new.spillAt (i / 8)) m = some m else m = m := by
    split
    · rename_i hend
      have hbo : old.bytes (i / 8 * 8 + 7) ≠ .spill := by rwa [show i / 8 * 8 + 7 = i by omega]
      rw [spillAt_of_ne hbo]
      exact pairValues_unlinked rfl rfl m
    · rfl
  split at h
  · rename_i hinv
    cases h
    exact ⟨by decide, by omega, hdone (by rw [hinv]; decide)⟩
  · split at h
    · rename_i o c hpair
      obtain ⟨m1, hm1, he⟩ := Option.map_eq_some_iff.mp h
      cases he
      have him : i % 8 = 0 ∨ i % 8 = 4 := by
        by_contra hno
        rw [fakePair, if_neg hno] at hpair
        cases hpair
      have hi : i / 8 * 8 + i % 8 = i := by omega
      have hend : i + (if i % 8 = 0 then 8 else 4) = i / 8 * 8 + 8 := by split <;> omega
      refine ⟨by split <;> decide, hend.le, ?_⟩
      rw [if_pos hend]
      have hpair' : fakePair old new (i / 8 * 8 + i % 8) = some (o, c) := by rwa [hi]
      exact fakePair_pairs (Nat.mod_lt _ (by decide)) hpair' hprec hm1
    · split at h
      · rename_i hmz
        cases h
        exact ⟨by decide, by omega, hdone (by rw [hmz.1]; decide)⟩
      · split at h
        · cases h
        · rename_i heq
          obtain ⟨m1, hm1, he⟩ := Option.map_eq_some_iff.mp h
          cases he
          refine ⟨by decide, by omega, ?_⟩
          split
          · exact slotEndSafe_pairs (by omega) (not_not.mp heq) hprec hm1
          · rename_i hend
            rw [slotEndSafe, if_pos (by omega)] at hm1
            exact (Option.some.inj hm1).symm

/-- The walk compares the spills in order. Induction on the fuel. -/
theorem stacksafeFrom_pairs {fuel i : Nat} (hfuel : stackSize ≤ i + fuel)
    (hprec : ∀ slot < stackSlots, ∀ r, old.spilled slot = some r → r.isPrecise = true)
    (h : stacksafeFrom old new .notExact fuel i m = some m') :
    (List.range' (i / 8) (stackSlots - i / 8)).foldlM
      (fun m k => pairValues (old.spillAt k) (new.spillAt k) m) m = some m' := by
  have hsizes : stackSize = 512 ∧ stackSlots = 64 := ⟨rfl, rfl⟩
  have hdone (hi : stackSize ≤ i) : stackSlots - i / 8 = 0 := by omega
  induction fuel generalizing i m with
  | zero =>
    rw [hdone (by omega)]
    exact h
  | succ fuel ih =>
    unfold stacksafeFrom at h
    split at h
    · rename_i hend
      rw [hdone hend]
      exact h
    · rename_i hi
      obtain ⟨⟨m1, n⟩, h1, h2⟩ := Option.bind_eq_some_iff.mp h
      obtain ⟨hn, hle, hround⟩ := stackByteSafe_pairs (hprec (i / 8) (by omega)) h1
      have hrest := ih (by omega) h2 (fun hi => by omega)
      split at hround
      · rename_i hend
        rw [show (i + n) / 8 = i / 8 + 1 by omega] at hrest
        rw [show stackSlots - i / 8 = stackSlots - (i / 8 + 1) + 1 by omega, List.range'_succ,
          List.foldlM_cons]
        exact Option.bind_eq_some_iff.mpr ⟨m1, hround, hrest⟩
      · rw [show (i + n) / 8 = i / 8 by omega] at hrest
        rwa [hround] at hrest

theorem stacksafe_pairs (hprec : ∀ slot < stackSlots, ∀ r, old.spilled slot = some r → r.isPrecise = true)
    (h : stacksafe old new .notExact m = some m') :
    (List.range stackSlots).foldlM (fun m k => pairValues (old.spillAt k) (new.spillAt k) m) m = some m' := by
  rw [List.range_eq_range']
  exact stacksafeFrom_pairs (Nat.le_add_left ..) hprec h

end Stacks

/-! ### States -/

section States

variable {old new : VerifierState} {m m' : IdMap}

/-- Every scalar of the state is marked precise, in every frame. -/
def VerifierState.Precise (st : VerifierState) : Prop :=
  ∀ frame fr, st.frameAt frame = some fr → fr.Precise

theorem heldAt_of_frame {st : VerifierState} {frame : Option Nat} {fr : FrameState} (h : Holder)
    (hfr : st.frameAt frame = some fr) : st.heldAt frame h = fr.held h := by
  rw [VerifierState.heldAt, hfr, Option.map_some, Option.getD_some]

/-- Places without an explored id are passed over. -/
theorem pairIds_unlinked (l : List Place) (h : ∀ p ∈ l, old.idAt p = 0) : pairIds old new l m = some m := by
  induction l with
  | nil => rfl
  | cons p rest ih =>
    rw [pairIds, List.foldlM_cons, h p List.mem_cons_self, checkScalarIds_zero]
    exact ih fun q hq => h q (List.mem_cons_of_mem _ hq)

/-- Two frames: the registers, then the stack. -/
theorem framePlaces_pairs {frame : Option Nat} {a b : FrameState} {m1 : IdMap}
    (ha : old.frameAt frame = some a) (hb : new.frameAt frame = some b) (hprec : a.Precise)
    (hregs : regsSafe a.regs b.regs .notExact (fun _ => true) m = some m1)
    (hstack : stacksafe a.stack b.stack .notExact m1 = some m') :
    pairIds old new (framePlaces frame) m = some m' := by
  have hheld : ∀ h m, pairIds old new [.own frame h, .parent frame h] m = pairValues (a.held h) (b.held h) m :=
    fun h m => by rw [pairIds_held, heldAt_of_frame h ha, heldAt_of_frame h hb]
  rw [framePlaces, holders, List.flatMap_append, List.flatMap_map, List.flatMap_map]
  refine pairIds_append (pairIds_flatMap _ (fun r _ m m' h => ?_) hregs)
    (pairIds_flatMap _ (fun k _ m m' h => ?_) (stacksafe_pairs hprec.spills hstack))
  · rw [hheld]
    exact regsafe_pairs (hprec.regs r) h
  · rw [hheld]
    exact h

theorem savedSafe_pairs {k : Nat} (hprec : old.Precise)
    (h : savedSafe (old.saved k) (new.saved k) .notExact m = some m') :
    pairIds old new (framePlaces (some k)) m = some m' := by
  cases ha : old.saved k with
  | none =>
    cases hb : new.saved k with
    | some b =>
      rw [ha, hb] at h
      cases h
    | none =>
      rw [ha, hb] at h
      cases h
      refine pairIds_unlinked (framePlaces (some k)) fun p hp => ?_
      have hheld (h : Holder) : old.heldAt (some k) h = .uninit := by
        rw [VerifierState.heldAt, VerifierState.frameAt, ha, Option.map_none, Option.getD_none]
      simp only [framePlaces, List.mem_flatMap, List.mem_cons, List.not_mem_nil, or_false] at hp
      rcases hp with ⟨h, -, rfl | rfl⟩ <;> rw [VerifierState.idAt, hheld] <;> rfl
  | some a =>
    cases hb : new.saved k with
    | none =>
      rw [ha, hb] at h
      cases h
    | some b =>
      rw [ha, hb] at h
      obtain ⟨m1, h1, h2⟩ := Option.bind_eq_some_iff.mp h
      have ha' : old.frameAt (some k) = some a := ha
      have hb' : new.frameAt (some k) = some b := hb
      exact framePlaces_pairs ha' hb' (hprec (some k) a ha) h1 h2

/-- An accepted comparison is one pass over the places. -/
theorem walk {live : RegMask} (hlive : ∀ r : Reg, live.getLsbD r.val = true) (hprec : old.Precise)
    (h : statesEqualMap old new .notExact live = some m) :
    pairIds old new (places old.refsCnt) .default = some m := by
  unfold statesEqualMap at h
  split at h
  · cases h
  · obtain ⟨m1, h1, h⟩ := Option.bind_eq_some_iff.mp h
    obtain ⟨m2, h2, h⟩ := Option.bind_eq_some_iff.mp h
    obtain ⟨m3, h3, h4⟩ := Option.bind_eq_some_iff.mp h
    have hrefs : pairIds old new ((List.range old.refsCnt).map .ref) .default = some m1 := by
      rw [List.map_eq_flatMap]
      refine pairIds_flatMap _ (fun i _ m m' h => ?_) h1
      rw [pairIds, List.foldlM_cons]
      exact Option.bind_eq_some_iff.mpr ⟨m', checkScalarIds_of_checkIds h, rfl⟩
    have hregs : regsSafe old.regs new.regs .notExact (fun _ => true) m1 = some m2 := by
      simpa only [regsSafe, hlive] using h2
    have hcurrent : pairIds old new (framePlaces none) m1 = some m3 :=
      framePlaces_pairs rfl rfl (hprec none _ rfl) hregs h3
    refine pairIds_append (pairIds_append hrefs hcurrent) (pairIds_flatMap _ (fun k _ m m' h => ?_) h4)
    exact savedSafe_pairs hprec h

end States

/-! ## The map as a partial bijection -/

/-- A current id has one explored id. -/
def IdMap.Injective (m : IdMap) : Prop := ∀ x x' y, (x, y) ∈ m.pairs → (x', y) ∈ m.pairs → x = x'

theorem lookupIds_none_cur {pairs : List (Nat × Nat)} {x y : Nat} (h : lookupIds pairs x y = none) :
    ∀ p ∈ pairs, p.2 ≠ y := by
  induction pairs with
  | nil => nofun
  | cons p rest ih =>
    obtain ⟨a, b⟩ := p
    simp only [lookupIds] at h
    split at h
    · cases h
    · split at h
      · cases h
      · rename_i hy
        intro q hq
        rcases List.mem_cons.mp hq with rfl | hq
        · exact hy
        · exact ih h q hq

theorem checkIds_injective {m m' : IdMap} {x y : Nat} (h : checkIds m x y = some m') (hm : m.Injective) :
    m'.Injective := by
  unfold checkIds at h
  split at h
  · cases h
  · split at h
    · cases h
      exact hm
    · split at h
      · cases h
        exact hm
      · cases h
      · rename_i hl
        cases h
        have hnew := lookupIds_none_cur hl
        intro a a' b hb hb'
        simp only [List.mem_append, List.mem_singleton, Prod.mk.injEq] at hb hb'
        rcases hb with hb | ⟨rfl, rfl⟩
        · rcases hb' with hb' | ⟨rfl, rfl⟩
          · exact hm _ _ _ hb hb'
          · exact absurd rfl (hnew _ hb)
        · rcases hb' with hb' | ⟨rfl, -⟩
          · exact absurd rfl (hnew _ hb')
          · rfl

theorem checkIds_gen {m m' : IdMap} {x y : Nat} (h : checkIds m x y = some m') : m'.tmpIdGen = m.tmpIdGen := by
  unfold checkIds at h
  split at h
  · cases h
  · split at h
    · cases h
      rfl
    · split at h <;> cases h <;> rfl

section Pairs

variable {old new : VerifierState} {m m' : IdMap}

/-- A linked explored scalar meets an unlinked current one; a temporary id stands for it. -/
def unlinkedAt (old new : VerifierState) (p : Place) : Bool := old.idAt p != 0 && new.idAt p == 0

/-- What a pass over the places `l` makes of the map `m`. -/
structure Paired (old new : VerifierState) (l : List Place) (m m' : IdMap) : Prop where
  grows : m.Grows m'
  injective : m.Injective → m'.Injective
  gen : m'.tmpIdGen = m.tmpIdGen + l.countP (unlinkedAt old new)
  linked : ∀ p ∈ l, old.idAt p ≠ 0 → new.idAt p ≠ 0 → (old.idAt p, new.idAt p) ∈ m'.pairs
  fresh : ∀ p ∈ l, old.idAt p ≠ 0 → new.idAt p = 0 →
    ∃ t, m.tmpIdGen < t ∧ t ≤ m'.tmpIdGen ∧ (old.idAt p, t) ∈ m'.pairs

theorem Paired.nil (m : IdMap) : Paired old new [] m m := ⟨.refl m, id, rfl, nofun, nofun⟩

theorem Paired.append {l l' : List Place} {m1 m2 : IdMap} (h : Paired old new l m m1)
    (h' : Paired old new l' m1 m2) : Paired old new (l ++ l') m m2 := by
  refine ⟨h.grows.trans h'.grows, fun hm => h'.injective (h.injective hm), ?_, fun p hp hx hy => ?_,
    fun p hp hx hy => ?_⟩
  · rw [h'.gen, h.gen, List.countP_append, Nat.add_assoc]
  · rcases List.mem_append.mp hp with hp | hp
    · exact h'.grows.pairs (h.linked p hp hx hy)
    · exact h'.linked p hp hx hy
  · have hgen := h.gen
    have hgen' := h'.gen
    rcases List.mem_append.mp hp with hp | hp
    · obtain ⟨t, h1, h2, hmem⟩ := h.fresh p hp hx hy
      exact ⟨t, h1, by omega, h'.grows.pairs hmem⟩
    · obtain ⟨t, h1, h2, hmem⟩ := h'.fresh p hp hx hy
      exact ⟨t, by omega, h2, hmem⟩

theorem paired_place {p : Place} (h : checkScalarIds m (old.idAt p) (new.idAt p) = some m') :
    Paired old new [p] m m' := by
  have hgrows := checkScalarIds_grows h
  have hcount : [p].countP (unlinkedAt old new) = if old.idAt p ≠ 0 ∧ new.idAt p = 0 then 1 else 0 := by
    simp [unlinkedAt]
  unfold checkScalarIds at h
  by_cases hx : old.idAt p = 0
  · rw [if_pos hx] at h
    cases h
    refine ⟨hgrows, id, by simp [hcount, hx], fun q hq hx' => ?_, fun q hq hx' => ?_⟩ <;>
    · cases List.mem_singleton.mp hq
      exact absurd hx hx'
  · rw [if_neg hx] at h
    by_cases hy : new.idAt p = 0
    · rw [if_pos hy] at h
      have hgen : m'.tmpIdGen = m.tmpIdGen + 1 := checkIds_gen h
      obtain ⟨-, ⟨hzero, -⟩ | ⟨-, -, hmem⟩⟩ := checkIds_grows h
      · exact absurd hzero hx
      · refine ⟨hgrows, fun hm => checkIds_injective h hm, by rw [hgen, hcount, if_pos ⟨hx, hy⟩],
          fun q hq _ hy' => ?_, fun q hq _ _ => ?_⟩
        · cases List.mem_singleton.mp hq
          exact absurd hy hy'
        · cases List.mem_singleton.mp hq
          exact ⟨m.tmpIdGen + 1, Nat.lt_succ_self _, hgen.ge, hmem⟩
    · rw [if_neg hy] at h
      obtain ⟨-, ⟨hzero, -⟩ | ⟨-, -, hmem⟩⟩ := checkIds_grows h
      · exact absurd hzero hx
      · refine ⟨hgrows, checkIds_injective h, ?_, fun q hq _ _ => ?_, fun q hq _ hy' => ?_⟩
        · rw [checkIds_gen h, hcount, if_neg fun hc => hy hc.2, Nat.add_zero]
        · cases List.mem_singleton.mp hq
          exact hmem
        · cases List.mem_singleton.mp hq
          exact absurd hy' hy

theorem pairIds_paired {l : List Place} (h : pairIds old new l m = some m') : Paired old new l m m' := by
  induction l generalizing m with
  | nil =>
    cases h
    exact .nil _
  | cons p rest ih =>
    rw [pairIds, List.foldlM_cons] at h
    obtain ⟨m1, h1, h2⟩ := Option.bind_eq_some_iff.mp h
    exact (paired_place h1).append (ih h2)

/-- A pass relates two unlinked current scalars to different explored ids. -/
theorem unlinked_apart {l : List Place} {p q : Place} (h : pairIds old new l m = some m') (hm : m.Functional)
    (hp : p ∈ l) (hq : q ∈ l) (hpq : p ≠ q) (hx : old.idAt p ≠ 0) (hyp : new.idAt p = 0)
    (hyq : new.idAt q = 0) : old.idAt p ≠ old.idAt q := by
  intro heq
  -- the place that comes first
  have hordered : ∀ {p q : Place} {l1 l2 : List Place}, l = l1 ++ p :: l2 → q ∈ l2 → old.idAt p ≠ 0 →
      new.idAt p = 0 → new.idAt q = 0 → old.idAt p ≠ old.idAt q := by
    intro p q l1 l2 hl hq hx hyp hyq heq
    have hfun := (pairIds_paired h).grows.functional hm
    rw [hl, List.append_cons, pairIds, List.foldlM_append] at h
    obtain ⟨m1, h1, h2⟩ := Option.bind_eq_some_iff.mp h
    obtain ⟨t, -, ht, hmem⟩ := (pairIds_paired h1).fresh p (by simp) hx hyp
    obtain ⟨t', ht', -, hmem'⟩ := (pairIds_paired h2).fresh q hq (heq ▸ hx) hyq
    have hsame := hfun _ _ _ ((pairIds_paired h2).grows.pairs hmem) (heq ▸ hmem')
    omega
  obtain ⟨l1, l2, hl⟩ := List.append_of_mem hp
  rw [hl, List.mem_append, List.mem_cons] at hq
  rcases hq with hq | rfl | hq
  · obtain ⟨l3, l4, rfl⟩ := List.append_of_mem hq
    have hsplit : l = l3 ++ q :: (l4 ++ p :: l2) := by simp [hl]
    exact hordered hsplit (by simp) (heq ▸ hx) hyq hyp heq.symm
  · exact hpq rfl
  · exact hordered hl hq hx hyp hyq heq

end Pairs

/-! ## The correspondence -/

/-- Explored ids and current ids correspond one to one: places that share an id share one
    in the current state, and places with different ids never have the same one. -/
structure OneToOne (old new : VerifierState) : Prop where
  shared : ∀ p ∈ places old.refsCnt, ∀ q ∈ places old.refsCnt, p ≠ q → old.idAt p ≠ 0 →
    old.idAt p = old.idAt q → new.idAt p ≠ 0 ∧ new.idAt p = new.idAt q
  distinct : ∀ p ∈ places old.refsCnt, ∀ q ∈ places old.refsCnt, old.idAt p ≠ 0 → old.idAt q ≠ 0 →
    old.idAt p ≠ old.idAt q → new.idAt p ≠ 0 → new.idAt p ≠ new.idAt q

/-- How many linked scalars of the explored state meet an unlinked one. -/
def unlinkedCount (old new : VerifierState) : Nat := (places old.refsCnt).countP (unlinkedAt old new)

section Correspondence

variable {old new : VerifierState} {m : IdMap}

theorem default_functional : IdMap.default.Functional := nofun

theorem default_injective : IdMap.default.Injective := nofun

theorem oneToOne_of_pairIds (h : pairIds old new (places old.refsCnt) .default = some m)
    (hlarge : ∀ p ∈ places old.refsCnt, new.idAt p = 0 ∨ unlinkedCount old new < new.idAt p) :
    OneToOne old new := by
  have hpaired := pairIds_paired h
  have hfun := hpaired.grows.functional default_functional
  have hgen : m.tmpIdGen = unlinkedCount old new := hpaired.gen.trans (Nat.zero_add _)
  have hmixed : ∀ p ∈ places old.refsCnt, ∀ q ∈ places old.refsCnt, old.idAt p ≠ 0 →
      old.idAt p = old.idAt q → new.idAt p = 0 → new.idAt q = 0 := by
    intro p hp q hq hx heq hy
    by_contra hyq
    obtain ⟨t, -, ht, hmem⟩ := hpaired.fresh p hp hx hy
    have hmem' := hpaired.linked q hq (heq ▸ hx) hyq
    have hsame := hfun _ _ _ hmem (heq ▸ hmem')
    have hlt := (hlarge q hq).resolve_left hyq
    omega
  refine ⟨fun p hp q hq hpq hx heq => ?_, fun p hp q hq hx hx' hne hy heq => ?_⟩
  · by_cases hy : new.idAt p = 0
    · have hyq := hmixed p hp q hq hx heq hy
      exact absurd heq (unlinked_apart h default_functional hp hq hpq hx hy hyq)
    · have hyq : new.idAt q ≠ 0 := fun hyq => hy (hmixed q hq p hp (heq ▸ hx) heq.symm hyq)
      exact ⟨hy, hfun _ _ _ (hpaired.linked p hp hx hy) (heq ▸ hpaired.linked q hq (heq ▸ hx) hyq)⟩
  · have hmem := hpaired.linked p hp hx hy
    have hmem' := hpaired.linked q hq hx' (heq ▸ hy)
    exact hne (hpaired.injective default_injective _ _ _ hmem (heq ▸ hmem'))

/-- An accepted comparison of an explored state that is precise, every register live: the
    ids correspond one to one, and no temporary id occurs in the current state, exactly if
    the ids of the current state are larger than the number of unlinked scalars that meet
    linked ones. -/
theorem id_correspondence {live : RegMask} (hlive : ∀ r : Reg, live.getLsbD r.val = true)
    (hprec : old.Precise) (h : statesEqual old new .notExact live = true) :
    (OneToOne old new ∧ ∀ m, statesEqualMap old new .notExact live = some m →
      ∀ t, 0 < t → t ≤ m.tmpIdGen → ∀ p ∈ places new.refsCnt, new.idAt p ≠ t) ↔
    ∀ p ∈ places new.refsCnt, new.idAt p = 0 ∨ unlinkedCount old new < new.idAt p := by
  obtain ⟨m, hm⟩ := Option.isSome_iff_exists.mp h
  have hwalk := walk hlive hprec hm
  have hgen : m.tmpIdGen = unlinkedCount old new := (pairIds_paired hwalk).gen.trans (Nat.zero_add _)
  obtain ⟨m', hcov⟩ := statesEqual_covers hlive h
  rw [← hcov.refsCnt]
  refine ⟨fun ⟨_, hfresh⟩ p hp => ?_, fun hlarge => ⟨oneToOne_of_pairIds hwalk hlarge, ?_⟩⟩
  · by_contra hno
    have hid := not_or.mp hno
    exact hfresh m hm (new.idAt p) (by omega) (by omega) p hp rfl
  · intro m1 hm1 t ht0 ht p hp heq
    cases hm.symm.trans hm1
    rcases hlarge p hp with hz | hlt <;> omega

end Correspondence

/-- R6, R7 and R8 hold unknown precise scalars with the given link ids. -/
def linkedRegs (a b c : Nat) : VerifierState :=
  let linked (id : Nat) : RegState := .scalar { ScalarBounds.unknown with precise := true, id := id }
  (((VerifierState.initialWith .xdp).setReg 6 (linked a)).setReg 7 (linked b)).setReg 8 (linked c)

theorem linkedRegs_precise (a b c : Nat) : (linkedRegs a b c).Precise := by
  intro frame fr hfr
  cases frame with
  | some k => cases hfr
  | none =>
    cases hfr
    have hset : ∀ (regs : Regs) (r : Reg) (v : RegState), (∀ s, (regs s).isPrecise = true) →
        v.isPrecise = true → ∀ s, (Function.update regs r v s).isPrecise = true := by
      intro regs r v hregs hv s
      rw [Function.update_apply]
      split
      · exact hv
      · exact hregs s
    have hstart : ∀ s, (initialRegState s).isPrecise = true := by decide
    exact ⟨hset _ _ _ (hset _ _ _ (hset _ _ _ hstart rfl) rfl) rfl, nofun⟩

theorem id_correspondence_relinked :
    statesEqual (linkedRegs 5 6 6) (linkedRegs 0 9 9) .notExact (BitVec.allOnes 16) = true ∧
    OneToOne (linkedRegs 5 6 6) (linkedRegs 0 9 9) := by
  have hequal : statesEqual (linkedRegs 5 6 6) (linkedRegs 0 9 9) .notExact (BitVec.allOnes 16) = true := by
    decide +kernel
  have hlive : ∀ r : Reg, (BitVec.allOnes 16).getLsbD r.val = true := by decide
  exact ⟨hequal, ((id_correspondence hlive (linkedRegs_precise 5 6 6) hequal).mpr (by decide +kernel)).1⟩

/-- R6 takes the temporary id 1 and R7 the temporary id 2, which is the id of R8. So R7,
    unlinked, passes for linked with R8. -/
theorem temporary_id_collides :
    statesEqual (linkedRegs 5 6 6) (linkedRegs 0 0 2) .notExact (BitVec.allOnes 16) = true ∧
    (linkedRegs 5 6 6).Precise ∧ ¬ OneToOne (linkedRegs 5 6 6) (linkedRegs 0 0 2) := by
  refine ⟨by decide +kernel, linkedRegs_precise 5 6 6, fun h => ?_⟩
  have hplaces : .own none (.reg 7) ∈ places 0 ∧ .own none (.reg 8) ∈ places 0 := by decide +kernel
  exact (h.shared _ hplaces.1 _ hplaces.2 (by decide) (by decide) rfl).1 rfl

end RandVerifier
