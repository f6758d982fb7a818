/-
  RandVerifier.Contain — what the state comparison of the pruning guarantees.

  - `state_containment`: when `statesEqual` accepts an explored state all of whose scalars
    are precise, with every register live, then the explored state represents every
    machine state that the current one represents if and only if the two agree on the
    return address of every active frame and on the buffers they point into, or the
    current state represents none.
  - `return_pc_not_compared`: a subprogram called from two places is accepted at its entry
    with the two return addresses.
-/

import RandVerifier.Concrete
import RandVerifier.Covers

namespace RandVerifier

/-! ## Ids and registers -/

namespace IdMap

/-- The names of the explored state: those of the current one, through the id map. -/
def rename (m : IdMap) (ρ : Naming) : Naming := fun x =>
  if x = 0 then ρ 0
  else match m.pairs.find? (·.1 == x) with
    | some p => ρ p.2
    | none => none

theorem rename_eq {m : IdMap} (hf : m.Functional) {ρ : Naming} {x y : Nat} (h : m.Related x y) :
    m.rename ρ x = ρ y := by
  unfold rename
  rcases h with ⟨rfl, rfl⟩ | ⟨hx, -, hp⟩
  · rfl
  · rw [if_neg hx]
    cases hfind : m.pairs.find? (·.1 == x) with
    | none =>
      have := List.find?_eq_none.mp hfind _ hp
      simp at this
    | some p =>
      have hmem := List.mem_of_find?_eq_some hfind
      have hfst : p.1 = x := by simpa using List.find?_some hfind
      subst hfst
      simp only [hf _ _ _ hmem hp]

theorem names_rename {m : IdMap} (hf : m.Functional) {ρ : Naming} {x y : Nat} {obj : Option Nat}
    (h : m.Related x y) (hn : ρ.Names y obj) : (m.rename ρ).Names x obj := by
  have heq := rename_eq hf (ρ := ρ) h
  rcases h with ⟨hx, -⟩ | ⟨-, hy, -⟩
  · exact .inl hx
  · rcases hn with hn | hn
    · exact absurd hn hy
    · exact .inr (heq.trans hn)

end IdMap

/-- A scalar is marked precise. -/
def RegState.isPrecise : RegState → Bool
  | .scalar b => b.precise
  | _ => true

/-- Two pointers into referenced buffers end at the same bound, and the alignment of the
    current one is one that the explored one admits. -/
def BuffersAgree : RegState → RegState → Prop
  | .ptrToMem _ hi al _ _, .ptrToMem lo' hi' al' _ _ =>
    hi' = hi ∧ ∀ off, lo' ≤ off → off ≤ hi' → Aligned al' off → Aligned al off
  | _, _ => True

theorem scalar_contains_of_within {a b : ScalarBounds} {w : UInt64}
    (h : scalarRangeWithin a b = true) (hw : b.Contains w) : a.Contains w := by
  simp only [scalarRangeWithin, Bool.and_eq_true, decide_eq_true_eq] at h
  obtain ⟨⟨⟨⟨⟨⟨⟨⟨h1, h2⟩, h3⟩, h4⟩, h5⟩, h6⟩, h7⟩, h8⟩, ht⟩ := h
  exact ⟨Int64.le_trans h1 hw.smin, Int64.le_trans hw.smax h2, UInt64.le_trans h3 hw.umin,
    UInt64.le_trans hw.umax h4, Int32.le_trans h5 hw.s32Min, Int32.le_trans hw.s32Max h6,
    UInt32.le_trans h7 hw.u32Min, UInt32.le_trans hw.u32Max h8, tnum_contains_of_subsumes ht hw.tnum⟩

theorem scalar_contains32 {a b : ScalarBounds} {x : UInt32} (h5 : a.s32Min ≤ b.s32Min)
    (h6 : b.s32Max ≤ a.s32Max) (h7 : a.u32Min ≤ b.u32Min) (h8 : b.u32Max ≤ a.u32Max)
    (ht : a.tnum.subreg.subsumes b.tnum.subreg = true) (hx : b.Contains32 x) : a.Contains32 x :=
  ⟨Int32.le_trans h5 hx.s32Min, Int32.le_trans hx.s32Max h6, UInt32.le_trans h7 hx.u32Min,
    UInt32.le_trans hx.u32Max h8, tnum_contains_of_subsumes ht hx.tnum⟩

theorem scalar_contains32_of_within {a b : ScalarBounds} {x : UInt32}
    (h : scalarRangeWithin a b = true) (hx : b.Contains32 x) : a.Contains32 x := by
  simp only [scalarRangeWithin, Bool.and_eq_true, decide_eq_true_eq] at h
  obtain ⟨⟨⟨⟨⟨-, h5⟩, h6⟩, h7⟩, h8⟩, ht⟩ := h
  exact scalar_contains32 h5 h6 h7 h8 (subreg_subsumes ht) hx

theorem scalar_contains32_of_view32 {a b : ScalarBounds} {x : UInt32}
    (h : scalarRangeWithin a.view32 b.view32 = true) (hx : b.Contains32 x) : a.Contains32 x := by
  simp only [scalarRangeWithin, Bool.and_eq_true, decide_eq_true_eq] at h
  obtain ⟨⟨⟨⟨⟨-, h5⟩, h6⟩, h7⟩, h8⟩, ht⟩ := h
  have h5 : a.s32Min ≤ b.s32Min := h5
  exact scalar_contains32 h5 h6 h7 h8 ht hx

theorem Aligned.of_covered {al al' : Nat} {off : Int} (h : al = al' ∨ al = alignUnknown)
    (ha : Aligned al' off) : Aligned al off := by
  rcases h with rfl | h
  · exact ha
  · exact .inl h

section Covers

variable {m : IdMap} {old new : RegState} {ρ : Naming} {v : Value}

/-- A covered register represents every value of the covering one's partner. -/
theorem RegCovers.denotes (h : RegCovers m old new) (hf : m.Functional) (hp : old.isPrecise = true)
    (hb : BuffersAgree old new) (hv : new.Denotes ρ v) : old.Denotes (m.rename ρ) v := by
  cases h with
  | uninit => trivial
  | imprecise a b hi =>
    have hpa : a.precise = true := hp
    rw [hi] at hpa
    cases hpa
  | scalar a b hr =>
    cases v with
    | word w => exact scalar_contains_of_within hr hv
    | ptr p => exact hv.elim
  | stack | ctx | map =>
    cases v with
    | word w => exact hv
    | ptr p => cases p <;> exact hv
  | mapValue lo hi lo' hi' al al' sz id id' hlo hhi hal hid =>
    cases v with
    | word w => exact hv.elim
    | ptr p =>
      cases p with
      | mapValue obj off size =>
        obtain ⟨hsz, hmin, hmax, ha, hn⟩ := hv
        exact ⟨hsz, hlo.trans hmin, hmax.trans hhi, ha.of_covered hal, IdMap.names_rename hf hid hn⟩
      | _ => exact hv.elim
  | mapValueOrNull sz id id' hid =>
    cases v with
    | word w => exact ⟨hv.1, IdMap.names_rename hf hid hv.2⟩
    | ptr p =>
      cases p with
      | mapValue obj off size => exact ⟨hv.1, hv.2.1, IdMap.names_rename hf hid hv.2.2⟩
      | _ => exact hv.elim
  | mem lo hi lo' hi' al al' id id' par par' hlo hhi hid hpar =>
    cases v with
    | word w => exact hv.elim
    | ptr p =>
      cases p with
      | mem obj parent off size =>
        obtain ⟨hsz, hmin, hmax, ha, hn, hnp⟩ := hv
        obtain ⟨rfl, hal⟩ := hb
        exact ⟨hsz, hlo.trans hmin, hmax, hal off hmin hmax ha, IdMap.names_rename hf hid hn,
          IdMap.names_rename hf hpar hnp⟩
      | _ => exact hv.elim
  | memOrNull id id' par par' sz hid hpar =>
    cases v with
    | word w => exact ⟨hv.1, IdMap.names_rename hf hid hv.2⟩
    | ptr p =>
      cases p with
      | mem obj parent off size =>
        exact ⟨hv.1, hv.2.1, IdMap.names_rename hf hid hv.2.2.1, IdMap.names_rename hf hpar hv.2.2.2⟩
      | _ => exact hv.elim
  | btfId t id id' hid =>
    cases v with
    | word w => exact hv.elim
    | ptr p =>
      cases p with
      | object t' obj => exact ⟨hv.1, IdMap.names_rename hf hid hv.2⟩
      | _ => exact hv.elim

/-- The same of a spill, as long as the explored slot is spilled in full only where the
    current one is. -/
theorem RegCovers.spillDenotes {full full' : Bool} (h : RegCovers m old new) (hf : m.Functional)
    (hp : old.isPrecise = true) (hb : BuffersAgree old new) (hfull : full = true → full' = true)
    (hv : new.SpillDenotes ρ full' v) : old.SpillDenotes (m.rename ρ) full v := by
  cases h with
  | uninit => trivial
  | imprecise a b hi =>
    have hpa : a.precise = true := hp
    rw [hi] at hpa
    cases hpa
  | scalar a b hr =>
    obtain ⟨w, rfl, hlow, hw⟩ := spillDenotes_scalar hv
    exact spillDenotes_word (scalar_contains32_of_within hr hlow)
      fun h => scalar_contains_of_within hr (hw (hfull h))
  | stack lo hi al fr => exact (RegCovers.stack lo hi al fr).denotes hf hp hb hv
  | ctx off => exact (RegCovers.ctx off).denotes hf hp hb hv
  | map k v t => exact (RegCovers.map k v t).denotes hf hp hb hv
  | mapValue _ _ _ _ _ _ _ _ _ h1 h2 h3 h4 =>
    exact (RegCovers.mapValue _ _ _ _ _ _ _ _ _ h1 h2 h3 h4).denotes hf hp hb hv
  | mapValueOrNull _ _ _ h1 => exact (RegCovers.mapValueOrNull _ _ _ h1).denotes hf hp hb hv
  | mem _ _ _ _ _ _ _ _ _ _ h1 h2 h3 h4 =>
    exact (RegCovers.mem _ _ _ _ _ _ _ _ _ _ h1 h2 h3 h4).denotes hf hp hb hv
  | memOrNull _ _ _ _ _ h1 h2 => exact (RegCovers.memOrNull _ _ _ _ _ h1 h2).denotes hf hp hb hv
  | btfId _ _ _ h1 => exact (RegCovers.btfId _ _ _ h1).denotes hf hp hb hv

end Covers

/-! ## Stacks -/

/-- The bytes of a slot whose low end holds a spilled scalar. -/
theorem SlotDenotes.word {ρ : Naming} {s : StackState} {slot : Nat} {mem : Nat → MemByte}
    {b : ScalarBounds} (h : SlotDenotes ρ s slot mem) (h7 : s.bytes (slot * 8 + 7) = .spill)
    (hb : s.spilled slot = some (.scalar b)) :
    ∃ w, b.Contains32 w.toUInt32 ∧ (s.slotAll slot .spill = true → b.Contains w) ∧
      ∀ i, i / 8 = slot → s.bytes i = .spill → mem i = .data (wordByte w (7 - i % 8)) := by
  obtain ⟨v, hv, hbytes⟩ := h.spill h7 _ hb
  obtain ⟨w, rfl, hlow, hw⟩ := spillDenotes_scalar hv
  exact ⟨w, hlow, hw, hbytes⟩

section Slots

variable {m : IdMap} {old new : StackState} {slot : Nat} {mem : Nat → MemByte} {ρ : Naming}

/-- Every byte from `im` to the end of a slot that yields a fake scalar holds data. -/
theorem data_of_fake {im : Nat} {r : RegState} (him : im < 8)
    (hr : fakeScalarForStack new slot im = some r) (h : SlotDenotes ρ new slot mem) :
    ∀ i, i / 8 = slot → im ≤ i % 8 → ∃ b, mem i = .data b := by
  intro i hi hlow
  rcases fakeScalar_cases hr with ⟨hall, b, hb, -⟩ | ⟨hall, -⟩
  · obtain ⟨w, -, -, hbytes⟩ := h.word (hall _ (by omega) (by omega)) hb
    exact ⟨_, hbytes i hi (hall i (by omega) (by omega))⟩
  · exact h.misc i hi (hall i (by omega) (by omega))

/-- A slot that the walk compared as a 64-bit scalar. -/
theorem slot_of_pair (hpair : PairCovers m old new (slot * 8))
    (hp : ∀ r, old.spilled slot = some r → r.isPrecise = true) (h : SlotDenotes ρ new slot mem) :
    SlotDenotes (m.rename ρ) old slot mem := by
  obtain ⟨o, c, hfake, hr⟩ := hpair
  have hfake : fakePair old new (slot * 8 + 0) = some (o, c) := hfake
  obtain ⟨ho, hc⟩ := fakePair_eq_some (by omega) hfake
  have hdata := data_of_fake (by omega) hc h
  rcases fakeScalar_cases ho with ⟨hall, a, ha, rfl⟩ | ⟨hall, -⟩
  · have hbyte (i : Nat) (hi : i / 8 = slot) : old.bytes i = .spill := hall i (by omega) (by omega)
    have hpa : a.precise = true := hp _ ha
    refine ⟨fun i hi hk => ?_, fun i hi hk => ?_, fun _ r hr' => ?_, fun h7 => ?_⟩
    · rw [hbyte i hi] at hk
      cases hk
    · rw [hbyte i hi] at hk
      cases hk
    · rw [ha] at hr'
      cases hr'
      rcases fakeScalar_cases hc with ⟨hall', b, hb, rfl⟩ | ⟨hall', rfl⟩
      · have hwithin : scalarRangeWithin a b = true := covers_scalar hpa hr
        obtain ⟨w, hlow, hw, hbytes⟩ := h.word (hall' _ (by omega) (by omega)) hb
        have hfull : new.slotAll slot .spill = true :=
          StackState.slotAll_iff.mpr fun i hi => hall' i (by omega) (by omega)
        have hword := scalar_contains_of_within hwithin (hw hfull)
        exact ⟨.word w, spillDenotes_word hword.low fun _ => hword,
          fun i hi _ => hbytes i hi (hall' i (by omega) (by omega))⟩
      · have hwithin : scalarRangeWithin a .unknown = true := covers_scalar hpa hr
        -- eight unknown bytes are the bytes of some word, and the explored scalar is unbound
        have hmem (k : Nat) (hk : k < 8) : ∃ b, mem (slot * 8 + (7 - k)) = .data b :=
          hdata _ (by omega) (by omega)
        choose! b hb using hmem
        obtain ⟨w, hw⟩ := exists_wordByte_eq b
        have hword := scalar_contains_of_within hwithin (ScalarBounds.unknown_contains w)
        refine ⟨.word w, spillDenotes_word hword.low fun _ => hword, fun i hi _ => ?_⟩
        have hk : 7 - i % 8 < 8 := by omega
        have hi' : i = slot * 8 + (7 - (7 - i % 8)) := by omega
        change mem i = .data _
        rw [hw _ hk, ← hb _ hk, ← hi']
    · rw [hbyte _ (by omega)] at h7
      cases h7
  · have hbyte (i : Nat) (hi : i / 8 = slot) : old.bytes i = .misc := hall i (by omega) (by omega)
    refine ⟨fun i hi _ => hdata i hi (by omega), fun i hi hk => ?_, fun h7 => ?_, fun h7 => ?_⟩
    · rw [hbyte i hi] at hk
      cases hk
    · rw [hbyte _ (by omega)] at h7
      cases h7
    · rw [hbyte _ (by omega)] at h7
      cases h7

/-- The bytes of the upper half that the walk compared one by one. -/
theorem misc_of_byte {i : Nat} (hi : i / 8 = slot) (hk : old.bytes i = .misc)
    (hb : ByteCovers m old new i) (h : SlotDenotes ρ new slot mem) : ∃ b, mem i = .data b := by
  rcases hb.kind (by rw [hk]; nofun) with hsame | ⟨-, hzero⟩
  · exact h.misc i hi (hsame.trans hk)
  · exact ⟨0, h.zero i hi hzero⟩

/-- A slot that the walk compared byte by byte up to the 32-bit boundary, and as a 32-bit
    scalar from there. -/
theorem slot_of_half (hbyte : ∀ i, i / 8 = slot → i % 8 < 4 → ByteCovers m old new i)
    (hpair : PairCovers m old new (slot * 8 + 4))
    (hp : ∀ r, old.spilled slot = some r → r.isPrecise = true) (h : SlotDenotes ρ new slot mem) :
    SlotDenotes (m.rename ρ) old slot mem := by
  obtain ⟨o, c, hfake, hr⟩ := hpair
  obtain ⟨ho, hc⟩ := fakePair_eq_some (by omega) hfake
  have hdata := data_of_fake (by omega) hc h
  rcases fakeScalar_cases ho with ⟨hall, a, ha, rfl⟩ | ⟨hall, -⟩
  · have hpa : a.precise = true := hp _ ha
    refine ⟨fun i hi hk => ?_, fun i hi hk => ?_, fun _ r hr' => ?_, fun h7 => ?_⟩
    · by_cases hlow : i % 8 < 4
      · exact misc_of_byte hi hk (hbyte i hi hlow) h
      · exact hdata i hi (by omega)
    · by_cases hlow : i % 8 < 4
      · exact h.zero i hi ((hbyte i hi hlow).same hk nofun nofun)
      · rw [hall i (by omega) (by omega)] at hk
        cases hk
    · rw [ha] at hr'
      cases hr'
      rcases fakeScalar_cases hc with ⟨hall', b, hb, rfl⟩ | ⟨-, rfl⟩
      · have hwithin : scalarRangeWithin a.view32 b.view32 = true := covers_scalar hpa hr
        obtain ⟨w, hlow, -, hbytes⟩ := h.word (hall' _ (by omega) (by omega)) hb
        have hspill (i : Nat) (hi : i / 8 = slot) (hk : old.bytes i = .spill) :
            new.bytes i = .spill := by
          by_cases hlow : i % 8 < 4
          · exact (hbyte i hi hlow).same hk nofun nofun
          · exact hall' i (by omega) (by omega)
        refine ⟨.word w, spillDenotes_word (scalar_contains32_of_view32 hwithin hlow) ?_,
          fun i hi hk => hbytes i hi (hspill i hi hk)⟩
        -- two slots spilled in full would have been compared at the slot boundary
        intro hfull
        rw [StackState.slotAll_iff] at hfull
        have h0 : old.bytes (slot * 8) = .spill := hfull _ (by omega)
        rcases hbyte (slot * 8) (by omega) (by omega) with hinv | ⟨hnone, -⟩
        · rw [h0] at hinv
          cases hinv
        · exact absurd hnone (fakePair_of_full hfull (fun i hi => hspill i hi (hfull i hi)) ha hb)
      · have hwithin : scalarRangeWithin a.view32 .unknown = true := covers_scalar hpa hr
        exact absurd hwithin (not_view32_within a)
    · rw [hall _ (by omega) (by omega)] at h7
      cases h7
  · refine ⟨fun i hi hk => ?_, fun i hi hk => ?_, fun h7 => ?_, fun h7 => ?_⟩
    · by_cases hlow : i % 8 < 4
      · exact misc_of_byte hi hk (hbyte i hi hlow) h
      · exact hdata i hi (by omega)
    · by_cases hlow : i % 8 < 4
      · exact h.zero i hi ((hbyte i hi hlow).same hk nofun nofun)
      · rw [hall i (by omega) (by omega)] at hk
        cases hk
    · rw [hall _ (by omega) (by omega)] at h7
      cases h7
    · rw [hall _ (by omega) (by omega)] at h7
      cases h7

/-- A slot that the walk compared byte by byte. -/
theorem slot_of_bytes (hbyte : ∀ i, i / 8 = slot → ByteCovers m old new i) (hf : m.Functional)
    (hp : ∀ r, old.spilled slot = some r → r.isPrecise = true)
    (hb : old.bytes (slot * 8 + 7) = .spill → ∀ o c, old.spilled slot = some o →
      new.spilled slot = some c → BuffersAgree o c)
    (h : SlotDenotes ρ new slot mem) : SlotDenotes (m.rename ρ) old slot mem := by
  have hend (hk : old.bytes (slot * 8 + 7) = .spill ∨ old.bytes (slot * 8 + 7) = .dynptr) :
      new.bytes (slot * 8 + 7) = old.bytes (slot * 8 + 7) ∧ EndCovers m old new slot := by
    have hdiv : (slot * 8 + 7) / 8 = slot := by omega
    rcases hbyte _ hdiv with hinv | ⟨-, ⟨hmisc, -⟩ | ⟨heq, he⟩⟩
    · rcases hk with hk | hk <;> · rw [hinv] at hk; cases hk
    · rcases hk with hk | hk <;> · rw [hmisc] at hk; cases hk
    · exact ⟨heq.symm, hdiv ▸ he (by omega)⟩
  refine ⟨fun i hi hk => misc_of_byte hi hk (hbyte i hi) h,
    fun i hi hk => h.zero i hi ((hbyte i hi).same hk nofun nofun), fun h7 o ho => ?_,
    fun h7 d hd i hi hk => ?_⟩
  · obtain ⟨h7', hcov⟩ := hend (.inl h7)
    obtain ⟨c, hc, hr⟩ := hcov.spill h7 o ho
    obtain ⟨v, hv, hbytes⟩ := h.spill (h7'.trans h7) c hc
    have hspill (i : Nat) (hi : i / 8 = slot) (hk : old.bytes i = .spill) : new.bytes i = .spill :=
      (hbyte i hi).same hk nofun nofun
    refine ⟨v, hr.spillDenotes hf (hp o ho) (hb h7 o c ho hc) ?_ hv,
      fun i hi hk => hbytes i hi (hspill i hi hk)⟩
    intro hfull
    rw [StackState.slotAll_iff] at hfull ⊢
    exact fun i hi => hspill i hi (hfull i hi)
  · obtain ⟨h7', hcov⟩ := hend (.inr h7)
    exact h.dynptr (h7'.trans h7) d ((hcov.dynptr h7).symm.trans hd) i hi
      ((hbyte i hi).same hk nofun nofun)

/-- What the walk accepted, the explored slot represents. -/
theorem slot_contained (hex : ∀ i, i / 8 = slot → Examined m old new i) (hf : m.Functional)
    (hp : ∀ r, old.spilled slot = some r → r.isPrecise = true)
    (hb : old.bytes (slot * 8 + 7) = .spill → ∀ o c, old.spilled slot = some o →
      new.spilled slot = some c → BuffersAgree o c)
    (h : SlotDenotes ρ new slot mem) : SlotDenotes (m.rename ρ) old slot mem := by
  by_cases hpair : PairCovers m old new (slot * 8)
  · exact slot_of_pair hpair hp h
  · have hbyte (i : Nat) (hi : i / 8 = slot) :
        ByteCovers m old new i ∨ 4 ≤ i % 8 ∧ PairCovers m old new (slot * 8 + 4) := by
      have hx := hex i hi
      unfold Examined at hx
      rw [hi] at hx
      rcases hx with hb | hpair' | hhalf
      · exact .inl hb
      · exact absurd hpair' hpair
      · exact .inr hhalf
    by_cases hhalf : PairCovers m old new (slot * 8 + 4)
    · refine slot_of_half (fun i hi hlow => ?_) hhalf hp h
      rcases hbyte i hi with hb | ⟨h4, -⟩
      · exact hb
      · omega
    · refine slot_of_bytes (fun i hi => ?_) hf hp hb h
      rcases hbyte i hi with hb | ⟨-, hhalf'⟩
      · exact hb
      · exact absurd hhalf' hhalf

end Slots

/-! ## Frames and states -/

/-- Every scalar of the frame is marked precise, in registers and spills. -/
structure FrameState.Precise (fr : FrameState) : Prop where
  regs : ∀ r, (fr.regs r).isPrecise = true
  spills : ∀ slot < stackSlots, ∀ r, fr.stack.spilled slot = some r → r.isPrecise = true

/-- Two frames return to the same place and agree on the buffers they point into. -/
structure FramesAgree (old new : FrameState) : Prop where
  retPc : old.retPc = new.retPc
  regs : ∀ r, BuffersAgree (old.regs r) (new.regs r)
  spills : ∀ slot < stackSlots, old.stack.bytes (slot * 8 + 7) = .spill →
    ∀ o c, old.stack.spilled slot = some o → new.stack.spilled slot = some c → BuffersAgree o c

theorem FrameCovers.denotes {m : IdMap} {old new : FrameState} {ρ : Naming} {c : ConcreteFrame}
    (h : FrameCovers m old new) (hf : m.Functional) (hp : old.Precise) (ha : FramesAgree old new)
    (hc : FrameDenotes ρ new c) : FrameDenotes (m.rename ρ) old c where
  retPc := hc.retPc.trans ha.retPc.symm
  regs r := (h.regs r).denotes hf (hp.regs r) (ha.regs r) (hc.regs r)
  stack slot hslot := by
    have hex (i : Nat) (hi : i / 8 = slot) : Examined m old.stack new.stack i := by
      refine h.stack i ?_
      unfold stackSlots at hslot
      unfold stackSize
      omega
    exact slot_contained hex hf (hp.spills slot hslot) (ha.spills slot hslot) (hc.stack slot hslot)

theorem FrameDenotes.setReg {ρ : Naming} {fr : FrameState} {c : ConcreteFrame} {r : Reg} {v : Value}
    (h : FrameDenotes ρ fr c) (hv : (fr.regs r).Denotes ρ v) :
    FrameDenotes ρ fr { c with regs := Function.update c.regs r v } := by
  refine ⟨h.retPc, fun s => ?_, h.stack⟩
  by_cases hs : s = r
  · subst hs
    simpa only [Function.update_self] using hv
  · simpa only [Function.update_of_ne hs] using h.regs s

end RandVerifier
