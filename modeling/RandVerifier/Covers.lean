/-
  RandVerifier.Covers — what an accepted state comparison says.

  Each check of the comparison is inverted once: which pairs of registers it accepts, how
  the walk over a stack comes past every byte, and what that gives for two frames and two
  states, all under the id map that the comparison ends with.

  - `regsafe_covers`, `stacksafe_examined`, `statesEqual_covers`.
-/

import RandVerifier.StateEq

namespace RandVerifier

/-! ## Id maps -/

namespace IdMap

/-- The explored id and the current id were compared, or are both absent. -/
def Related (m : IdMap) (x y : Nat) : Prop :=
  x = 0 ∧ y = 0 ∨ x ≠ 0 ∧ y ≠ 0 ∧ (x, y) ∈ m.pairs

/-- An explored id has one current id. -/
def Functional (m : IdMap) : Prop := ∀ x y y', (x, y) ∈ m.pairs → (x, y') ∈ m.pairs → y = y'

structure Grows (m m' : IdMap) : Prop where
  pairs : m.pairs ⊆ m'.pairs
  functional : m.Functional → m'.Functional

theorem Grows.refl (m : IdMap) : m.Grows m := ⟨fun _ h => h, id⟩

theorem Grows.trans {a b c : IdMap} (h : a.Grows b) (h' : b.Grows c) : a.Grows c :=
  ⟨fun _ hx => h'.pairs (h.pairs hx), fun hf => h'.functional (h.functional hf)⟩

theorem Related.mono {m m' : IdMap} {x y : Nat} (h : m.Related x y) (hg : m.Grows m') :
    m'.Related x y := by
  rcases h with h | ⟨hx, hy, hp⟩
  · exact .inl h
  · exact .inr ⟨hx, hy, hg.pairs hp⟩

end IdMap

theorem lookupIds_true {pairs : List (Nat × Nat)} {x y : Nat}
    (h : lookupIds pairs x y = some true) : (x, y) ∈ pairs := by
  induction pairs with
  | nil => cases h
  | cons p rest ih =>
    obtain ⟨a, b⟩ := p
    simp only [lookupIds] at h
    split at h
    · rename_i hx
      have hy : b = y := by simpa using h
      subst hx hy
      exact .head _
    · split at h
      · cases h
      · exact .tail _ (ih h)

theorem lookupIds_none {pairs : List (Nat × Nat)} {x y : Nat} (h : lookupIds pairs x y = none) :
    ∀ p ∈ pairs, p.1 ≠ x := by
  induction pairs with
  | nil => nofun
  | cons p rest ih =>
    obtain ⟨a, b⟩ := p
    simp only [lookupIds] at h
    split at h
    · cases h
    · rename_i hx
      split at h
      · cases h
      · intro q hq
        rcases List.mem_cons.mp hq with rfl | hq
        · exact hx
        · exact ih h q hq

theorem checkIds_grows {m m' : IdMap} {x y : Nat} (h : checkIds m x y = some m') :
    m.Grows m' ∧ m'.Related x y := by
  unfold checkIds at h
  split at h
  · cases h
  · rename_i hzero
    split at h
    · rename_i hx
      cases h
      exact ⟨.refl _, .inl ⟨hx, by simpa [hx] using hzero⟩⟩
    · rename_i hx
      have hy : y ≠ 0 := by simpa [hx] using hzero
      split at h
      · rename_i hl
        cases h
        exact ⟨.refl _, .inr ⟨hx, hy, lookupIds_true hl⟩⟩
      · cases h
      · rename_i hl
        cases h
        refine ⟨⟨List.subset_append_left _ _, ?_⟩, .inr ⟨hx, hy, by simp⟩⟩
        intro hf a b b' hb hb'
        have hnew := lookupIds_none hl
        simp only [List.mem_append, List.mem_singleton, Prod.mk.injEq] at hb hb'
        rcases hb with hb | ⟨rfl, rfl⟩
        · rcases hb' with hb' | ⟨rfl, rfl⟩
          · exact hf _ _ _ hb hb'
          · exact absurd rfl (hnew _ hb)
        · rcases hb' with hb' | ⟨-, rfl⟩
          · exact absurd rfl (hnew _ hb')
          · rfl

theorem checkScalarIds_grows {m m' : IdMap} {x y : Nat} (h : checkScalarIds m x y = some m') :
    m.Grows m' := by
  unfold checkScalarIds at h
  split at h
  · cases h
    exact .refl _
  · split at h
    · have hg := (checkIds_grows h).1
      exact ⟨hg.pairs, hg.functional⟩
    · exact (checkIds_grows h).1

theorem foldlM_grows {α : Type} {f : IdMap → α → Option IdMap}
    (hf : ∀ m a m', f m a = some m' → m.Grows m') {l : List α} {m m' : IdMap}
    (h : l.foldlM f m = some m') :
    m.Grows m' ∧ ∀ a ∈ l, ∃ ms mt, f ms a = some mt ∧ mt.Grows m' := by
  induction l generalizing m with
  | nil =>
    cases h
    exact ⟨.refl _, nofun⟩
  | cons a rest ih =>
    rw [List.foldlM_cons] at h
    obtain ⟨m1, h1, h⟩ := Option.bind_eq_some_iff.mp h
    obtain ⟨hg, hrest⟩ := ih h
    refine ⟨(hf _ _ _ h1).trans hg, ?_⟩
    intro b hb
    rcases List.mem_cons.mp hb with rfl | hb
    · exact ⟨m, m1, h1, hg⟩
    · exact hrest b hb

/-! ## Registers -/

theorem guardMap_eq_some {c : Bool} {m : Option IdMap} {m' : IdMap} :
    guardMap c m = some m' ↔ c = true ∧ m = some m' := by
  cases c <;> simp [guardMap]

/-- What an accepted comparison of two registers says. -/
inductive RegCovers (m : IdMap) : RegState → RegState → Prop where
  | uninit (new : RegState) : RegCovers m .uninit new
  | imprecise (a b : ScalarBounds) : a.precise = false → RegCovers m (.scalar a) (.scalar b)
  | scalar (a b : ScalarBounds) : scalarRangeWithin a b = true → RegCovers m (.scalar a) (.scalar b)
  | stack (lo hi : Int) (al fr : Nat) : RegCovers m (.ptrToStack lo hi al fr) (.ptrToStack lo hi al fr)
  | ctx (off : Int) : RegCovers m (.ptrToCtx off) (.ptrToCtx off)
  | map (k v t : Nat) : RegCovers m (.ptrToMap k v t) (.ptrToMap k v t)
  | mapValue (lo hi lo' hi' : Int) (al al' sz id id' : Nat) : lo ≤ lo' → hi' ≤ hi →
    al = al' ∨ al = alignUnknown → m.Related id id' →
    RegCovers m (.ptrToMapValue lo hi al sz id) (.ptrToMapValue lo' hi' al' sz id')
  | mapValueOrNull (sz id id' : Nat) : m.Related id id' →
    RegCovers m (.ptrToMapValueOrNull sz id) (.ptrToMapValueOrNull sz id')
  | mem (lo hi lo' hi' : Int) (al al' id id' par par' : Nat) : lo ≤ lo' → hi' ≤ hi →
    m.Related id id' → m.Related par par' →
    RegCovers m (.ptrToMem lo hi al id par) (.ptrToMem lo' hi' al' id' par')
  | memOrNull (id id' par par' sz : Nat) : m.Related id id' → m.Related par par' →
    RegCovers m (.ptrToMemOrNull id par sz) (.ptrToMemOrNull id' par' sz)
  | btfId (t id id' : Nat) : m.Related id id' → RegCovers m (.ptrToBtfId t id) (.ptrToBtfId t id')

theorem RegCovers.mono {m m' : IdMap} {old new : RegState} (h : RegCovers m old new)
    (hg : m.Grows m') : RegCovers m' old new := by
  cases h with
  | uninit => exact .uninit _
  | imprecise a b hp => exact .imprecise a b hp
  | scalar a b hr => exact .scalar a b hr
  | stack => exact .stack ..
  | ctx => exact .ctx _
  | map => exact .map ..
  | mapValue lo hi lo' hi' al al' sz id id' h1 h2 h3 hid => exact .mapValue _ _ _ _ _ _ _ _ _ h1 h2 h3 (hid.mono hg)
  | mapValueOrNull sz id id' hid => exact .mapValueOrNull _ _ _ (hid.mono hg)
  | mem lo hi lo' hi' al al' id id' par par' h1 h2 hid hpar =>
    exact .mem _ _ _ _ _ _ _ _ _ _ h1 h2 (hid.mono hg) (hpar.mono hg)
  | memOrNull id id' par par' sz hid hpar => exact .memOrNull _ _ _ _ _ (hid.mono hg) (hpar.mono hg)
  | btfId t id id' hid => exact .btfId _ _ _ (hid.mono hg)

/-- Two ids that one comparison relates after another. -/
theorem checkIds_pair {m m' : IdMap} {x y px py : Nat}
    (h : ((checkIds m x y).bind fun m1 => checkIds m1 px py) = some m') :
    m.Grows m' ∧ m'.Related x y ∧ m'.Related px py := by
  obtain ⟨m1, h1, h2⟩ := Option.bind_eq_some_iff.mp h
  obtain ⟨hg1, hr1⟩ := checkIds_grows h1
  obtain ⟨hg2, hr2⟩ := checkIds_grows h2
  exact ⟨hg1.trans hg2, hr1.mono hg2, hr2⟩

theorem regsafe_covers {old new : RegState} {m m' : IdMap}
    (h : regsafe old new .notExact m = some m') : m.Grows m' ∧ RegCovers m' old new := by
  change regsafeNotExact old new m = some m' at h
  unfold regsafeNotExact at h
  split at h
  case h_1 =>
    cases h
    exact ⟨.refl _, .uninit _⟩
  case h_2 a b =>
    split at h
    · rename_i hp
      cases h
      exact ⟨.refl _, .imprecise a b hp⟩
    · obtain ⟨hc, h⟩ := guardMap_eq_some.mp h
      simp only [Bool.and_eq_true] at hc
      exact ⟨checkScalarIds_grows h, .scalar a b hc.2⟩
  case h_3 =>
    obtain ⟨hc, h⟩ := guardMap_eq_some.mp h
    cases h
    cases eq_of_beq hc
    exact ⟨.refl _, .stack ..⟩
  case h_4 =>
    obtain ⟨hc, h⟩ := guardMap_eq_some.mp h
    cases h
    cases eq_of_beq hc
    exact ⟨.refl _, .ctx _⟩
  case h_5 =>
    obtain ⟨hc, h⟩ := guardMap_eq_some.mp h
    cases h
    cases eq_of_beq hc
    exact ⟨.refl _, .map ..⟩
  case h_6 =>
    obtain ⟨hc, hm⟩ := guardMap_eq_some.mp h
    simp only [Bool.and_eq_true, Bool.or_eq_true, beq_iff_eq, decide_eq_true_eq] at hc
    obtain ⟨⟨⟨rfl, hlo⟩, hhi⟩, hal⟩ := hc
    obtain ⟨hg, hr⟩ := checkIds_grows hm
    exact ⟨hg, .mapValue _ _ _ _ _ _ _ _ _ hlo hhi hal hr⟩
  case h_7 =>
    obtain ⟨hc, hm⟩ := guardMap_eq_some.mp h
    cases eq_of_beq hc
    obtain ⟨hg, hr⟩ := checkIds_grows hm
    exact ⟨hg, .mapValueOrNull _ _ _ hr⟩
  case h_8 =>
    obtain ⟨hc, hm⟩ := guardMap_eq_some.mp h
    simp only [Bool.and_eq_true, decide_eq_true_eq] at hc
    obtain ⟨hg, hid, hpar⟩ := checkIds_pair hm
    exact ⟨hg, .mem _ _ _ _ _ _ _ _ _ _ hc.1 hc.2 hid hpar⟩
  case h_9 =>
    obtain ⟨hc, hm⟩ := guardMap_eq_some.mp h
    cases eq_of_beq hc
    obtain ⟨hg, hid, hpar⟩ := checkIds_pair hm
    exact ⟨hg, .memOrNull _ _ _ _ _ hid hpar⟩
  case h_10 =>
    obtain ⟨hc, hm⟩ := guardMap_eq_some.mp h
    cases eq_of_beq hc
    obtain ⟨hg, hr⟩ := checkIds_grows hm
    exact ⟨hg, .btfId _ _ _ hr⟩
  case h_11 => cases h

/-! ## Stacks -/

/-- What the walk leaves open at the last byte of a slot. -/
structure EndCovers (m : IdMap) (old new : StackState) (slot : Nat) : Prop where
  dynptr : old.bytes (slot * 8 + 7) = .dynptr → old.dynptr slot = new.dynptr slot
  spill : old.bytes (slot * 8 + 7) = .spill → ∀ o, old.spilled slot = some o →
    ∃ c, new.spilled slot = some c ∧ RegCovers m o c

/-- A byte that the walk compared by itself. -/
def ByteCovers (m : IdMap) (old new : StackState) (i : Nat) : Prop :=
  old.bytes i = .invalid ∨
  fakePair old new i = none ∧
    (old.bytes i = .misc ∧ new.bytes i = .zero ∨
      old.bytes i = new.bytes i ∧ (i % 8 = 7 → EndCovers m old new (i / 8)))

/-- A boundary at which the walk compared the scalars that both stacks yield. -/
def PairCovers (m : IdMap) (old new : StackState) (i : Nat) : Prop :=
  ∃ o c, fakePair old new i = some (o, c) ∧ RegCovers m o c

theorem EndCovers.mono {m m' : IdMap} {old new : StackState} {slot : Nat}
    (h : EndCovers m old new slot) (hg : m.Grows m') : EndCovers m' old new slot := by
  refine ⟨h.dynptr, fun hb o ho => ?_⟩
  obtain ⟨c, hc, hr⟩ := h.spill hb o ho
  exact ⟨c, hc, hr.mono hg⟩

theorem ByteCovers.mono {m m' : IdMap} {old new : StackState} {i : Nat}
    (h : ByteCovers m old new i) (hg : m.Grows m') : ByteCovers m' old new i := by
  rcases h with h | ⟨hf, h | ⟨he, hend⟩⟩
  · exact .inl h
  · exact .inr ⟨hf, .inl h⟩
  · exact .inr ⟨hf, .inr ⟨he, fun h7 => (hend h7).mono hg⟩⟩

theorem PairCovers.mono {m m' : IdMap} {old new : StackState} {i : Nat}
    (h : PairCovers m old new i) (hg : m.Grows m') : PairCovers m' old new i := by
  obtain ⟨o, c, hf, hr⟩ := h
  exact ⟨o, c, hf, hr.mono hg⟩

/-- How the walk came past byte `j`: by itself, or with its slot or half slot. -/
def Examined (m : IdMap) (old new : StackState) (j : Nat) : Prop :=
  ByteCovers m old new j ∨ PairCovers m old new (j / 8 * 8) ∨
  4 ≤ j % 8 ∧ PairCovers m old new (j / 8 * 8 + 4)

theorem Examined.mono {m m' : IdMap} {old new : StackState} {j : Nat}
    (h : Examined m old new j) (hg : m.Grows m') : Examined m' old new j := by
  rcases h with h | h | ⟨h4, h⟩
  · exact .inl (h.mono hg)
  · exact .inr (.inl (h.mono hg))
  · exact .inr (.inr ⟨h4, h.mono hg⟩)

theorem slotEndSafe_covers {old new : StackState} {i : Nat} {m m' : IdMap}
    (h : slotEndSafe old new .notExact i m = some m') :
    m.Grows m' ∧ (i % 8 = 7 → EndCovers m' old new (i / 8)) := by
  unfold slotEndSafe at h
  split at h
  · rename_i h7
    cases h
    exact ⟨.refl _, fun h => absurd h h7⟩
  · rename_i h7
    have hi : i / 8 * 8 + 7 = i := by omega
    split at h
    · rename_i hd
      obtain ⟨hc, hm⟩ := guardMap_eq_some.mp h
      cases hm
      refine ⟨.refl _, fun _ => ⟨fun _ => eq_of_beq hc, fun hs => ?_⟩⟩
      rw [hi, hd] at hs
      cases hs
    · rename_i hd
      split at h
      · split at h
        · rename_i hnone
          cases h
          refine ⟨.refl _, fun _ => ⟨fun hd' => absurd (hi ▸ hd') hd, fun _ o ho => ?_⟩⟩
          rw [hnone] at ho
          cases ho
        · cases h
        · rename_i o c ho hc
          obtain ⟨hg, hr⟩ := regsafe_covers h
          refine ⟨hg, fun _ => ⟨fun hd' => absurd (hi ▸ hd') hd, fun _ o' ho' => ?_⟩⟩
          rw [ho] at ho'
          cases ho'
          exact ⟨c, hc, hr⟩
      · rename_i hs
        cases h
        exact ⟨.refl _, fun _ => ⟨fun hd' => absurd (hi ▸ hd') hd, fun hs' => absurd (hi ▸ hs') hs⟩⟩

/-- One round of the walk: it consumes a byte, or a slot or half slot that both stacks
    yield a scalar for. -/
theorem stackByteSafe_covers {old new : StackState} {i n : Nat} {m m' : IdMap}
    (h : stackByteSafe old new .notExact i m = some (m', n)) :
    m.Grows m' ∧ (n = 1 ∧ ByteCovers m' old new i ∨
      PairCovers m' old new i ∧ (i % 8 = 0 ∧ n = 8 ∨ i % 8 = 4 ∧ n = 4)) := by
  unfold stackByteSafe at h
  split at h
  · cases h
  · split at h
    · rename_i hinv
      cases h
      exact ⟨.refl _, .inl ⟨rfl, .inl hinv⟩⟩
    · split at h
      · rename_i o c hfake
        obtain ⟨m1, hm1, he⟩ := Option.map_eq_some_iff.mp h
        cases he
        obtain ⟨hg, hr⟩ := regsafe_covers hm1
        refine ⟨hg, .inr ⟨⟨o, c, hfake, hr⟩, ?_⟩⟩
        unfold fakePair at hfake
        split at hfake
        · rename_i hmod
          rcases hmod with h0 | h4
          · exact .inl ⟨h0, by rw [if_pos h0]⟩
          · exact .inr ⟨h4, by rw [if_neg (by omega)]⟩
        · cases hfake
      · rename_i hfake
        split at h
        · rename_i hmz
          cases h
          exact ⟨.refl _, .inl ⟨rfl, .inr ⟨hfake, .inl hmz⟩⟩⟩
        · split at h
          · cases h
          · rename_i heq
            obtain ⟨m1, hm1, he⟩ := Option.map_eq_some_iff.mp h
            cases he
            obtain ⟨hg, hend⟩ := slotEndSafe_covers hm1
            exact ⟨hg, .inl ⟨rfl, .inr ⟨hfake, .inr ⟨not_not.mp heq, hend⟩⟩⟩⟩

/-- The walk comes past every byte. Induction on the fuel, which the bytes left bound. -/
theorem stacksafeFrom_examined {old new : StackState} {fuel i : Nat} {m m' : IdMap}
    (h : stacksafeFrom old new .notExact fuel i m = some m') (hfuel : stackSize ≤ i + fuel) :
    m.Grows m' ∧ ∀ j, i ≤ j → j < stackSize → Examined m' old new j := by
  induction fuel generalizing i m with
  | zero =>
    cases h
    exact ⟨.refl _, fun j hj hlt => absurd hlt (by omega)⟩
  | succ fuel ih =>
    unfold stacksafeFrom at h
    split at h
    · rename_i hend
      cases h
      exact ⟨.refl _, fun j hj hlt => absurd hlt (by omega)⟩
    · obtain ⟨⟨m1, n⟩, h1, h⟩ := Option.bind_eq_some_iff.mp h
      obtain ⟨hg1, hround⟩ := stackByteSafe_covers h1
      have hn : 1 ≤ n := by
        rcases hround with ⟨rfl, -⟩ | ⟨-, ⟨-, rfl⟩ | ⟨-, rfl⟩⟩ <;> omega
      obtain ⟨hg, hrest⟩ := ih h (by omega)
      refine ⟨hg1.trans hg, fun j hj hlt => ?_⟩
      by_cases hin : i + n ≤ j
      · exact hrest j hin hlt
      · rcases hround with ⟨rfl, hbyte⟩ | ⟨hpair, ⟨h0, rfl⟩ | ⟨h4, rfl⟩⟩
        · have hji : j = i := by omega
          subst hji
          exact .inl (hbyte.mono hg)
        · have hji : j / 8 * 8 = i := by omega
          exact .inr (.inl (hji ▸ hpair.mono hg))
        · have hji : j / 8 * 8 + 4 = i := by omega
          exact .inr (.inr ⟨by omega, hji ▸ hpair.mono hg⟩)

theorem stacksafe_examined {old new : StackState} {m m' : IdMap}
    (h : stacksafe old new .notExact m = some m') :
    m.Grows m' ∧ ∀ j < stackSize, Examined m' old new j := by
  obtain ⟨hg, hex⟩ := stacksafeFrom_examined h (by omega)
  exact ⟨hg, fun j hj => hex j (Nat.zero_le _) hj⟩

theorem slotAllFrom_iff {s : StackState} {slot im : Nat} {b : StackByte} :
    s.slotAllFrom slot im b = true ↔
      ∀ i, slot * 8 + im ≤ i → i ≤ slot * 8 + 7 → s.bytes i = b := by
  simp only [StackState.slotAllFrom, allIn_iff, beq_iff_eq]

theorem fakeScalar_cases {s : StackState} {slot im : Nat} {r : RegState}
    (h : fakeScalarForStack s slot im = some r) :
    (∀ i, slot * 8 + im ≤ i → i ≤ slot * 8 + 7 → s.bytes i = .spill) ∧
      (∃ b, s.spilled slot = some (.scalar b) ∧ r = .scalar (if im = 0 then b else b.view32)) ∨
    (∀ i, slot * 8 + im ≤ i → i ≤ slot * 8 + 7 → s.bytes i = .misc) ∧ r = .scalar .unknown := by
  unfold fakeScalarForStack at h
  split at h
  · rename_i hall
    split at h
    · rename_i b hb
      refine .inl ⟨slotAllFrom_iff.mp hall, b, hb, ?_⟩
      cases h
      split <;> rfl
    · cases h
  · split at h
    · rename_i hall
      cases h
      exact .inr ⟨slotAllFrom_iff.mp hall, rfl⟩
    · cases h

theorem fakePair_eq_some {old new : StackState} {slot im : Nat} {o c : RegState} (him : im < 8)
    (h : fakePair old new (slot * 8 + im) = some (o, c)) :
    fakeScalarForStack old slot im = some o ∧ fakeScalarForStack new slot im = some c := by
  have hdiv : (slot * 8 + im) / 8 = slot := by omega
  have hmod : (slot * 8 + im) % 8 = im := by omega
  unfold fakePair at h
  rw [hdiv, hmod] at h
  split at h
  · split at h
    · rename_i ho hc
      cases h
      exact ⟨ho, hc⟩
    · cases h
  · cases h

/-- A byte the walk compared by itself holds the same kind in both stacks, up to a zero
    for an unknown byte. -/
theorem ByteCovers.kind {m : IdMap} {old new : StackState} {i : Nat} (h : ByteCovers m old new i)
    (hinv : old.bytes i ≠ .invalid) :
    new.bytes i = old.bytes i ∨ old.bytes i = .misc ∧ new.bytes i = .zero := by
  rcases h with h | ⟨-, h | ⟨h, -⟩⟩
  · exact absurd h hinv
  · exact .inr h
  · exact .inl h.symm

theorem ByteCovers.same {m : IdMap} {old new : StackState} {i : Nat} {b : StackByte}
    (h : ByteCovers m old new i) (hb : old.bytes i = b) (hinv : b ≠ .invalid) (hmisc : b ≠ .misc) :
    new.bytes i = b := by
  subst hb
  rcases h.kind hinv with h | ⟨h, -⟩
  · exact h
  · exact absurd h hmisc

theorem covers_scalar {m : IdMap} {a b : ScalarBounds} (hp : a.precise = true)
    (h : RegCovers m (.scalar a) (.scalar b)) : scalarRangeWithin a b = true := by
  cases h with
  | imprecise _ _ hi =>
    rw [hi] at hp
    cases hp
  | scalar _ _ hr => exact hr

/-- Two slots spilled in full with scalars are compared at the slot boundary. -/
theorem fakePair_of_full {old new : StackState} {slot : Nat} {a b : ScalarBounds}
    (ho : ∀ i, i / 8 = slot → old.bytes i = .spill) (hn : ∀ i, i / 8 = slot → new.bytes i = .spill)
    (ha : old.spilled slot = some (.scalar a)) (hb : new.spilled slot = some (.scalar b)) :
    fakePair old new (slot * 8) ≠ none := by
  have hdiv : slot * 8 / 8 = slot := by omega
  have hmod : slot * 8 % 8 = 0 := by omega
  have ho' : old.slotAllFrom slot 0 .spill = true :=
    slotAllFrom_iff.mpr fun i h1 h2 => ho i (by omega)
  have hn' : new.slotAllFrom slot 0 .spill = true :=
    slotAllFrom_iff.mpr fun i h1 h2 => hn i (by omega)
  simp [fakePair, fakeScalarForStack, hdiv, hmod, ho', hn', ha, hb]

/-- A 32-bit view is never unbound in the 64-bit fields. -/
theorem not_view32_within (a : ScalarBounds) : ¬ scalarRangeWithin a.view32 .unknown = true := by
  intro h
  simp only [scalarRangeWithin, Bool.and_eq_true, decide_eq_true_eq] at h
  have hmin : a.s32Min.toInt64 ≤ Int64.minValue := h.1.1.1.1.1.1.1.1
  rw [Int64.le_iff_toInt_le, Int32.toInt_toInt64] at hmin
  have hlow := a.s32Min.le_toInt
  have hval : Int64.minValue.toInt = -2 ^ 63 := by decide
  omega

structure FrameCovers (m : IdMap) (old new : FrameState) : Prop where
  regs : ∀ r, RegCovers m (old.regs r) (new.regs r)
  stack : ∀ j < stackSize, Examined m old.stack new.stack j

theorem FrameCovers.mono {m m' : IdMap} {old new : FrameState} (h : FrameCovers m old new)
    (hg : m.Grows m') : FrameCovers m' old new :=
  ⟨fun r => (h.regs r).mono hg, fun j hj => (h.stack j hj).mono hg⟩

/-- What an accepted comparison of two states says, under the id map it ends with. -/
structure StateCovers (m : IdMap) (old new : VerifierState) : Prop where
  functional : m.Functional
  curframe : old.curframe = new.curframe
  refsCnt : old.refsCnt = new.refsCnt
  refs : ∀ i < old.refsCnt, m.Related (old.refs i) (new.refs i)
  frames : ∀ k fr, old.activeFrame k = some fr →
    ∃ fr', new.activeFrame k = some fr' ∧ FrameCovers m fr fr'

theorem regsSafe_covers {old new : Regs} {select : Reg → Bool} {m m' : IdMap}
    (h : regsSafe old new .notExact select m = some m') :
    m.Grows m' ∧ ∀ r, select r = true → RegCovers m' (old r) (new r) := by
  have hstep : ∀ (m1 : IdMap) (r : Reg) (m2 : IdMap),
      (if select r then regsafe (old r) (new r) .notExact m1 else some m1) = some m2 →
      m1.Grows m2 := by
    intro m1 r m2 h2
    split at h2
    · exact (regsafe_covers h2).1
    · cases h2
      exact .refl _
  obtain ⟨hg, hall⟩ := foldlM_grows hstep h
  refine ⟨hg, fun r hr => ?_⟩
  obtain ⟨ms, mt, h1, hmt⟩ := hall r (List.mem_finRange r)
  rw [if_pos hr] at h1
  exact (regsafe_covers h1).2.mono hmt

theorem savedSafe_covers {old new : Option FrameState} {m m' : IdMap}
    (h : savedSafe old new .notExact m = some m') :
    m.Grows m' ∧ ∀ fr, old = some fr → ∃ fr', new = some fr' ∧ FrameCovers m' fr fr' := by
  unfold savedSafe at h
  split at h
  · cases h
    exact ⟨.refl _, nofun⟩
  · rename_i a b
    obtain ⟨m1, h1, h2⟩ := Option.bind_eq_some_iff.mp h
    obtain ⟨hg1, hregs⟩ := regsSafe_covers h1
    obtain ⟨hg2, hstack⟩ := stacksafe_examined h2
    refine ⟨hg1.trans hg2, fun fr hfr => ?_⟩
    cases hfr
    exact ⟨b, rfl, fun r => (hregs r rfl).mono hg2, hstack⟩
  · cases h

theorem refsSafe_related {old new : VerifierState} {m m' : IdMap}
    (h : refsSafe old new m = some m') :
    m.Grows m' ∧ ∀ i < old.refsCnt, m'.Related (old.refs i) (new.refs i) := by
  obtain ⟨hg, hall⟩ := foldlM_grows (fun _ _ _ h => (checkIds_grows h).1) h
  refine ⟨hg, fun i hi => ?_⟩
  obtain ⟨ms, mt, h1, hmt⟩ := hall i (List.mem_range.mpr hi)
  exact (checkIds_grows h1).2.mono hmt

theorem statesEqual_covers {old new : VerifierState} {live : RegMask}
    (hlive : ∀ r : Reg, live.getLsbD r.val = true)
    (h : statesEqual old new .notExact live = true) : ∃ m, StateCovers m old new := by
  obtain ⟨m, hm⟩ := Option.isSome_iff_exists.mp h
  unfold statesEqualMap at hm
  split at hm
  · cases hm
  · rename_i hcounts
    obtain ⟨hcur, hcnt⟩ := not_or.mp hcounts
    obtain ⟨m1, h1, hm⟩ := Option.bind_eq_some_iff.mp hm
    obtain ⟨m2, h2, hm⟩ := Option.bind_eq_some_iff.mp hm
    obtain ⟨m3, h3, h4⟩ := Option.bind_eq_some_iff.mp hm
    obtain ⟨hg1, hrefs⟩ := refsSafe_related h1
    obtain ⟨hg2, hregs⟩ := regsSafe_covers h2
    obtain ⟨hg3, hstack⟩ := stacksafe_examined h3
    obtain ⟨hg4, hsaved⟩ := foldlM_grows (fun _ _ _ h => (savedSafe_covers h).1) h4
    have hdefault : IdMap.default.Functional := nofun
    refine ⟨m, ⟨?_, not_not.mp hcur, not_not.mp hcnt, fun i hi => ?_, fun k fr hfr => ?_⟩⟩
    · exact hg4.functional (hg3.functional (hg2.functional (hg1.functional hdefault)))
    · exact (hrefs i hi).mono (hg2.trans (hg3.trans hg4))
    · unfold VerifierState.activeFrame at hfr ⊢
      rw [← not_not.mp hcur]
      split at hfr
      · cases hfr
        rename_i hk
        rw [if_pos hk]
        exact ⟨_, rfl, fun r => (hregs r (hlive r)).mono (hg3.trans hg4),
          fun j hj => (hstack j hj).mono hg4⟩
      · rename_i hk
        split at hfr
        · rename_i hact
          rw [if_neg hk, if_pos hact]
          obtain ⟨ms, mt, hs, hmt⟩ := hsaved k (List.mem_range.mpr hact.2)
          obtain ⟨fr', hfr', hcov⟩ := (savedSafe_covers hs).2 fr hfr
          exact ⟨fr', hfr', hcov.mono hmt⟩
        · cases hfr

end RandVerifier
