/-
  RandVerifier.Slices — what dead-code elimination and slicing keep
  (`src/fuzz/reduce/passes.rs`, and the slices that `driver.rs` builds).

  Control goes to the next slot, to the target of a jump of any class and to the entry of a
  called subprogram. The passes know the first and, of the second, `JA` and the 64-bit
  comparisons; a transfer that they forget can make them delete an instruction that runs. And
  the driver slices the program without its dead code to the index that the anchor had before.

  - `dead_keeps`, `slice_keeps`: what the passes keep, exactly when the forgotten transfers
    lead nowhere new;
  - `leadsTo_renumbered`: a deletion of dead code renumbers the known paths;
  - `passes_keep`: all candidates of the driver together;
  - `forgotten_jset`, and in it a stale index.
-/

import RandVerifier.Pairing
import RandVerifier.Passes

namespace RandVerifier

namespace Reduce

open Fixup Relation

/-! ## Control flow -/

/-- Control goes on to the next slot. -/
def fallsThrough : BpfInsn → Bool
  | .exit | .jmp _ => false
  | _ => true

/-- Where control can go. -/
def ControlEdge (insns : List BpfInsn) (i j : Nat) : Prop :=
  j < insns.length ∧ ∃ insn, insns[i]? = some insn ∧
    ((fallsThrough insn = true ∧ j = i + 1) ∨ ∃ o, transferOffset insn = some o ∧ (j : Int) = i + 1 + o)

/-- A transfer that the passes do not know. -/
def Forgotten (insns : List BpfInsn) (i j : Nat) : Prop :=
  j < insns.length ∧ ∃ insn o, insns[i]? = some insn ∧ transferOffset insn = some o ∧
    Fixup.branchOffset insn = none ∧ (j : Int) = i + 1 + o

/-- Reached from the entry. -/
def Entered (insns : List BpfInsn) (i : Nat) : Prop := ReflTransGen (ControlEdge insns) 0 i

/-- A path over known edges. -/
def LeadsTo (insns : List BpfInsn) (i j : Nat) : Prop := ReflTransGen (KnownEdge insns) i j

/-- The anchor, and what lies on a path from the entry to it. -/
def Needed (insns : List BpfInsn) (anchor i : Nat) : Prop :=
  i = anchor ∨ (Entered insns i ∧ ReflTransGen (ControlEdge insns) i anchor)

section Edges

variable {insns : List BpfInsn} {i j : Nat} {insn : BpfInsn}

theorem successors_eq (hget : insns[i]? = some insn) : successors insns i =
    (if fallsThrough insn = true ∧ i + 1 < insns.length then [i + 1] else []) ++
      (match Fixup.branchOffset insn with
        | some o => inRange i o.toInt insns.length
        | none => []) := by
  unfold successors
  rw [hget]
  cases insn <;> simp [fallsThrough, Fixup.branchOffset, BpfInsn.isConditionalBranch]

theorem knownEdge_iff : KnownEdge insns i j ↔ j < insns.length ∧ ∃ insn, insns[i]? = some insn ∧
    ((fallsThrough insn = true ∧ j = i + 1) ∨
      ∃ o, Fixup.branchOffset insn = some o ∧ (j : Int) = i + 1 + o.toInt) := by
  constructor
  · intro h
    have hget := List.getElem?_eq_getElem (knownEdge_left h)
    refine ⟨successors_lt h, _, hget, ?_⟩
    rw [KnownEdge, successors_eq hget] at h
    rcases List.mem_append.mp h with h | h
    · split at h
      · rename_i hfall
        exact .inl ⟨hfall.1, List.mem_singleton.mp h⟩
      · cases h
    · split at h
      · rename_i o ho
        exact .inr ⟨o, ho, (mem_inRange.mp h).1⟩
      · cases h
  · rintro ⟨hj, insn, hget, hedge⟩
    rw [KnownEdge, successors_eq hget, List.mem_append]
    rcases hedge with ⟨hfall, rfl⟩ | ⟨o, ho, ht⟩
    · left
      rw [if_pos ⟨hfall, hj⟩]
      exact List.mem_singleton_self _
    · right
      rw [ho]
      exact mem_inRange.mpr ⟨ht, hj⟩

/-- The passes know every edge but the forgotten ones. -/
theorem controlEdge_iff : ControlEdge insns i j ↔ KnownEdge insns i j ∨ Forgotten insns i j := by
  constructor
  · rintro ⟨hj, insn, hget, hfall | ⟨o, ho, ht⟩⟩
    · exact .inl (knownEdge_iff.mpr ⟨hj, insn, hget, .inl hfall⟩)
    · cases hb : Fixup.branchOffset insn with
      | none => exact .inr ⟨hj, insn, o, hget, ho, hb, ht⟩
      | some b =>
        rw [transferOffset_branch hb] at ho
        cases ho
        exact .inl (knownEdge_iff.mpr ⟨hj, insn, hget, .inr ⟨b, hb, ht⟩⟩)
  · rintro (h | ⟨hj, insn, o, hget, ho, -, ht⟩)
    · obtain ⟨hj, insn, hget, hfall | ⟨o, ho, ht⟩⟩ := knownEdge_iff.mp h
      · exact ⟨hj, insn, hget, .inl hfall⟩
      · exact ⟨hj, insn, hget, .inr ⟨_, transferOffset_branch ho, ht⟩⟩
    · exact ⟨hj, insn, hget, .inr ⟨o, ho, ht⟩⟩

theorem exit_ends (h : insns[i]? = some .exit) : ¬ ControlEdge insns i j := by
  rintro ⟨-, insn, hget, hedge⟩
  rw [h] at hget
  cases hget
  rcases hedge with ⟨hfall, -⟩ | ⟨o, ho, -⟩
  · cases hfall
  · cases ho

theorem LeadsTo.entered (h : LeadsTo insns 0 i) : Entered insns i :=
  ReflTransGen.mono (fun _ _ hedge => controlEdge_iff.mpr (.inl hedge)) _ _ h

theorem LeadsTo.control (h : LeadsTo insns i j) : ReflTransGen (ControlEdge insns) i j :=
  ReflTransGen.mono (fun _ _ hedge => controlEdge_iff.mpr (.inl hedge)) _ _ h

end Edges

/-! ## What the passes keep -/

def deadRemoves (insns : List BpfInsn) : List Nat := others insns.length (live insns)

def sliceRemoves (insns : List BpfInsn) (anchor : Nat) : List Nat := others insns.length (sliceKeeps insns anchor)

section Keeps

variable {insns : List BpfInsn} {i anchor : Nat}

theorem not_mem_deadRemoves (hi : i < insns.length) : i ∉ deadRemoves insns ↔ LeadsTo insns 0 i := by
  have hlive : live insns i = true ↔ LeadsTo insns 0 i := by
    rw [live, decide_eq_true_eq, mem_reachable, LeadsTo]
    exact ⟨fun h => h.2, fun h => ⟨by omega, h⟩⟩
  rw [deadRemoves, mem_others, not_and, ← hlive, Bool.not_eq_false]
  exact ⟨fun h => h hi, fun h _ => h⟩

theorem not_mem_sliceRemoves (hi : i < insns.length) (ha : anchor < insns.length) :
    i ∉ sliceRemoves insns anchor ↔ LeadsTo insns i anchor ∨ insns[i]? = some .exit := by
  have hkeep : sliceKeeps insns anchor i = true ↔ LeadsTo insns i anchor ∨ insns[i]? = some .exit := by
    rw [sliceKeeps, Bool.or_eq_true, decide_eq_true_eq, decide_eq_true_eq, mem_backwardReachable, LeadsTo]
    exact or_congr_left ⟨fun h => h.2, fun h => ⟨ha, h⟩⟩
  rw [sliceRemoves, mem_others, not_and, ← hkeep, Bool.not_eq_false]
  exact ⟨fun h => h hi, fun h _ => h⟩

theorem entered_lt (hpos : 0 < insns.length) (h : Entered insns i) : i < insns.length := by
  cases h with
  | refl => exact hpos
  | tail _ hedge => exact hedge.1

/-- Dead-code elimination keeps all that is reached from the entry exactly if no forgotten
    transfer leads out of what it reaches. -/
theorem dead_keeps (hpos : 0 < insns.length) : (∀ x, Entered insns x → x ∉ deadRemoves insns) ↔
    ∀ i j, LeadsTo insns 0 i → Forgotten insns i j → LeadsTo insns 0 j := by
  constructor
  · intro h i j hi hf
    have hj : Entered insns j := hi.entered.tail (controlEdge_iff.mpr (.inr hf))
    exact (not_mem_deadRemoves hf.1).mp (h j hj)
  · intro h x hx
    rw [not_mem_deadRemoves (entered_lt hpos hx)]
    induction hx with
    | refl => exact .refl
    | tail _ hedge ih =>
      rcases controlEdge_iff.mp hedge with hknown | hf
      · exact ih.tail hknown
      · exact h _ _ ih hf

/-- A slice keeps what lies on a path to the anchor exactly if no forgotten transfer, reached
    from the entry, leads into what it keeps from outside. -/
theorem slice_keeps (hpos : 0 < insns.length) (ha : anchor < insns.length) :
    (∀ x, Needed insns anchor x → x ∉ sliceRemoves insns anchor) ↔
      ∀ i j, Entered insns i → Forgotten insns i j → LeadsTo insns j anchor → LeadsTo insns i anchor := by
  constructor
  · intro h i j hi hf hj
    have hedge : ControlEdge insns i j := controlEdge_iff.mpr (.inr hf)
    rcases (not_mem_sliceRemoves (entered_lt hpos hi) ha).mp (h i (.inr ⟨hi, .head hedge hj.control⟩)) with hi | hexit
    · exact hi
    · exact absurd hedge (exit_ends hexit)
  · rintro h x (rfl | ⟨hx, hpath⟩)
    · exact (not_mem_sliceRemoves ha ha).mpr (.inl .refl)
    · rw [not_mem_sliceRemoves (entered_lt hpos hx) ha]
      refine .inl ?_
      induction hpath using ReflTransGen.head_induction_on with
      | refl => exact .refl
      | head hedge _ ih =>
        have hy := ih (hx.tail hedge)
        rcases controlEdge_iff.mp hedge with hknown | hf
        · exact .head hknown hy
        · exact h _ _ hx hf hy

end Keeps

/-! ## Positions after a deletion -/

section Renumber

variable {insns : List BpfInsn} {R : List Nat} {x y b k n : Nat} {insn : BpfInsn}

theorem newPos_lt (h : x < y) (hx : x ∉ R) : newPos R x < newPos R y := by
  have := @newPos_le R (x + 1) y h
  rw [newPos_kept hx] at this
  omega

/-- Every new position is that of a survivor. -/
theorem newPos_onto (h : k < newPos R n) : ∃ b < n, b ∉ R ∧ newPos R b = k := by
  induction n with
  | zero => exact absurd h (Nat.not_lt_zero k)
  | succ n ih =>
    by_cases hn : n ∈ R
    · rw [newPos_removed hn] at h
      obtain ⟨b, hb, hrest⟩ := ih h
      exact ⟨b, by omega, hrest⟩
    · rw [newPos_kept hn] at h
      rcases Nat.lt_succ_iff_lt_or_eq.mp h with hlt | heq
      · obtain ⟨b, hb, hrest⟩ := ih hlt
        exact ⟨b, by omega, hrest⟩
      · exact ⟨n, Nat.lt_succ_self n, hn, heq.symm⟩

theorem survivors_count (R : List Nat) (insns : List BpfInsn) : (survivors R 0 insns).length = newPos R insns.length := by
  have := survivors_length R 0 insns
  have h0 : newPos R 0 = 0 := rfl
  rw [h0, Nat.zero_add, Nat.zero_add] at this
  exact this.symm

theorem survivor_at (hget : insns[x]? = some insn) (hx : x ∉ R) :
    (survivors R 0 insns)[newPos R x]? = some (fixed R x insn) := by
  rw [← Nat.zero_add x] at hx
  obtain ⟨j, hpos, hj⟩ := survivors_get hget hx
  have h0 : newPos R 0 = 0 := rfl
  rw [h0, Nat.zero_add, Nat.zero_add] at hpos
  rw [hpos, hj, Nat.zero_add]

theorem fallsThrough_fixed : fallsThrough (fixed R x insn) = fallsThrough insn := by
  unfold fixed
  split
  · rfl
  · cases insn <;> rfl

theorem exit_fixed : fixed R x insn = .exit ↔ insn = .exit := by
  unfold fixed
  split
  · rfl
  · rename_i o ho
    cases insn <;> simp_all [withOffset, Fixup.branchOffset]

variable (hclosed : ∀ x y, x ∉ R → KnownEdge insns x y → y ∉ R)
  (hfix : FixableUpTo R insns.length 0 insns.length insns)

include hclosed hfix

/-- The known edges between survivors are those of the program. -/
theorem edge_renumbered (hxn : x < insns.length) (hx : x ∉ R) (hyn : y < insns.length) (hy : y ∉ R) :
    KnownEdge (survivors R 0 insns) (newPos R x) (newPos R y) ↔ KnownEdge insns x y := by
  have hget := List.getElem?_eq_getElem hxn
  have hds := survivor_at hget hx
  have hbranch : ∀ o, Fixup.branchOffset insns[x] = some o → ∃ t o', Fixup.Reaches R insns.length x o.toInt t ∧
      Fixup.branchOffset (fixed R x insns[x]) = some o' ∧ (newPos R t : Int) = newPos R x + 1 + o'.toInt := by
    intro o ho
    have hfixable := hfix x hxn _ hget (by rw [Nat.zero_add]; exact hx)
    rw [Nat.zero_add] at hfixable
    obtain ⟨t, ht⟩ := hfixable.reaches o ho
    have hint := (rebase_ok indexesOf_newIndices ht).2
    refine ⟨t, _, ht, by rw [fixed_of_branch ho ht]; exact branchOffset_withOffset ho _, ?_⟩
    rw [hint]
    omega
  rw [knownEdge_iff, knownEdge_iff, hds, hget]
  constructor
  · rintro ⟨-, insn, hinsn, hedge⟩
    cases hinsn
    refine ⟨hyn, _, rfl, ?_⟩
    rcases hedge with ⟨hfall, hpos⟩ | ⟨o', ho', hpos⟩
    · rw [fallsThrough_fixed] at hfall
      refine .inl ⟨hfall, ?_⟩
      rw [← newPos_kept hx] at hpos
      by_cases hlast : x + 1 < insns.length
      · have hnext := hclosed x (x + 1) hx (knownEdge_iff.mpr ⟨hlast, _, hget, .inl ⟨hfall, rfl⟩⟩)
        exact newPos_inj hy hnext hpos
      · have hend : x + 1 = insns.length := by omega
        have := newPos_lt hyn hy
        rw [hend] at hpos
        omega
    · cases ho : Fixup.branchOffset insns[x] with
      | none =>
        rw [fixed_of_none ho, ho] at ho'
        cases ho'
      | some o =>
        obtain ⟨t, o'', ht, hoff, htpos⟩ := hbranch o ho
        rw [ho'] at hoff
        cases hoff
        have hyt : y = t := newPos_inj hy ht.2.2 (by omega)
        subst hyt
        exact .inr ⟨o, rfl, ht.1⟩
  · rintro ⟨-, insn, hinsn, hedge⟩
    cases hinsn
    refine ⟨?_, _, rfl, ?_⟩
    · rw [survivors_count]
      exact newPos_lt hyn hy
    · rcases hedge with ⟨hfall, rfl⟩ | ⟨o, ho, hpos⟩
      · exact .inl ⟨by rw [fallsThrough_fixed]; exact hfall, newPos_kept hx⟩
      · obtain ⟨t, o', ht, hoff, htpos⟩ := hbranch o ho
        have hyt : y = t := by
          have := ht.1
          omega
        subst hyt
        exact .inr ⟨o', hoff, htpos⟩

/-- A deletion of dead code renumbers the known paths. -/
theorem leadsTo_renumbered (hxn : x < insns.length) (hx : x ∉ R) (hb : b ∉ R) :
    LeadsTo (survivors R 0 insns) (newPos R x) (newPos R b) ↔ LeadsTo insns x b := by
  constructor
  · intro h
    have hall : ∀ p, LeadsTo (survivors R 0 insns) p (newPos R b) →
        ∀ x < insns.length, x ∉ R → newPos R x = p → LeadsTo insns x b := by
      intro p hp
      induction hp using ReflTransGen.head_induction_on with
      | refl =>
        intro x _ hx heq
        rw [newPos_inj hx hb heq]
        exact .refl
      | head hedge _ ih =>
        intro x hxn hx heq
        have hlt := successors_lt hedge
        rw [survivors_count] at hlt
        obtain ⟨y, hyn, hy, rfl⟩ := newPos_onto hlt
        rw [← heq] at hedge
        exact .head ((edge_renumbered hclosed hfix hxn hx hyn hy).mp hedge) (ih y hyn hy rfl)
    exact hall _ h x hxn hx rfl
  · intro h
    induction h using ReflTransGen.head_induction_on with
    | refl => exact .refl
    | @head x y hedge _ ih =>
      have hy := hclosed x y hx hedge
      have hyn := successors_lt hedge
      exact .head ((edge_renumbered hclosed hfix hxn hx hyn hy).mpr hedge) (ih hyn hy)

end Renumber

/-! ## Pairs of slots -/

section Pairs

variable {insns insns' : List BpfInsn} {insn : BpfInsn} {f : Fields} {p : Nat} {c : UInt8} {bytes out : List UInt8}
  {R : List Nat}

/-- The opcode that an instruction is encoded with. -/
def CodeAt (insns : List BpfInsn) (p : Nat) (c : UInt8) : Prop :=
  ∃ insn f, insns[p]? = some insn ∧ encodeFields insn = some f ∧ f.code = c

/-- A second slot follows its first, and only there. -/
theorem pairs {remainder : List UInt8} {idx : Nat} {chunks : List Slot}
    (h : decodeChunks remainder idx chunks = .ok insns) :
    ¬ CodeAt insns 0 0 ∧ ∀ p, CodeAt insns (p + 1) 0 ↔ CodeAt insns p opcode.ldImm64 := by
  fun_induction decodeChunks remainder idx chunks generalizing insns with
  | case1 idx hrem =>
    cases h
    refine ⟨?_, fun p => ⟨?_, ?_⟩⟩ <;> rintro ⟨insn, f, hget, -⟩ <;> cases hget
  | case2 => cases h
  | case3 => cases h
  | case4 idx chunk hcode second rest ih =>
    obtain ⟨insn, hinsn, h₁⟩ := bind_eq_ok.mp h
    obtain ⟨tail, htail, h₂⟩ := bind_eq_ok.mp h₁
    cases h₂
    obtain ⟨hfirst, hsecond, -, -⟩ := encode_wide hcode (mapError_eq_ok.mp hinsn)
    have hf := encode_eq_some.mp hfirst
    obtain ⟨hnone, hrest⟩ := ih htail
    have hcode' : chunk.fields.code = opcode.ldImm64 := hcode
    have hsecond' : encodeFields (.ldImm64Second second.fields.imm.toUInt32.toNat) =
        some ⟨0, 0, 0, 0, (UInt32.ofNat second.fields.imm.toUInt32.toNat).toInt32⟩ := rfl
    refine ⟨?_, fun p => ?_⟩
    · rintro ⟨insn', f, hget, hf', hzero⟩
      cases hget
      rw [hf] at hf'
      cases hf'
      rw [hcode'] at hzero
      exact absurd hzero (by decide)
    · cases p with
      | zero => exact ⟨fun _ => ⟨insn, _, rfl, hf, hcode'⟩, fun _ => ⟨_, _, rfl, hsecond', rfl⟩⟩
      | succ p =>
        cases p with
        | zero =>
          refine ⟨fun hbad => absurd hbad hnone, ?_⟩
          rintro ⟨insn', f, hget, hf', hbad⟩
          cases hget
          rw [hsecond'] at hf'
          cases hf'
          exact absurd hbad (by dsimp only; decide)
        | succ p => exact hrest p
  | case5 idx chunk chunks hcode ih =>
    obtain ⟨insn, hinsn, h₁⟩ := bind_eq_ok.mp h
    obtain ⟨tail, htail, h₂⟩ := bind_eq_ok.mp h₁
    cases h₂
    have hparse := mapError_eq_ok.mp hinsn
    obtain ⟨hnone, hrest⟩ := ih htail
    refine ⟨?_, fun p => ?_⟩
    · rintro ⟨insn', f, hget, hf, hzero⟩
      cases hget
      exact (narrow_code hparse hf).2 hzero
    · cases p with
      | zero =>
        refine ⟨fun hbad => absurd hbad hnone, ?_⟩
        rintro ⟨insn', f, hget, hf, hwide⟩
        cases hget
        exact absurd hwide (narrow_code hparse hf).1
      | succ p => exact hrest p

theorem wide_falls (h : CodeAt insns p opcode.ldImm64) : ∃ insn, insns[p]? = some insn ∧ fallsThrough insn = true := by
  obtain ⟨insn, f, hget, hf, hcode⟩ := h
  refine ⟨insn, hget, ?_⟩
  cases insn with
  | exit =>
    cases hf
    exact absurd hcode (by dsimp only; decide)
  | jmp =>
    cases hf
    exact absurd hcode (by dsimp only; decide)
  | _ => rfl

theorem fixed_wide {x : Nat} (h : encodeFields (fixed R x insn) = some f) (hcode : f.code = opcode.ldImm64) :
    fixed R x insn = insn := by
  cases ho : Fixup.branchOffset insn with
  | none => exact fixed_of_none ho
  | some o =>
    have hsome : Fixup.branchOffset (fixed R x insn) ≠ none := by
      rw [fixed, ho]
      dsimp only
      rw [branchOffset_withOffset ho]
      exact Option.some_ne_none _
    rw [branchOffset_encode h, hcode] at hsome
    exact absurd (if_neg (by decide)) hsome

/-- The program without its dead code decodes to the survivors, if it decodes: if no pair of
    slots is split. -/
theorem decode_deleted (hdec : decode bytes = some insns)
    (hclosed : ∀ x y, x ∉ R → KnownEdge insns x y → y ∉ R) (hdel : deleteInsns bytes R = .ok out)
    (hne : survivors R 0 insns ≠ []) :
    decode out = some insns' ↔ Unsplit R insns ∧ insns' = survivors R 0 insns := by
  obtain ⟨-, -, hprog⟩ := decode_some.mp hdec
  obtain ⟨insns₀, slots, hd, rfl⟩ := deleteInsns_ok.mp hdel
  have hsame := hd.decodes
  rw [hprog] at hsame
  cases hsame
  have hpairs := pairs hprog
  have hfix := hd.fixable
  -- what the survivors are, if no pair is split
  have hsurvive : Unsplit R insns → decodeChunks [] 0 slots = .ok (survivors R 0 insns) := by
    intro hunsplit
    rw [deleteInsns_eq hprog] at hdel
    split at hdel
    · cases hdel
    · obtain ⟨slots', hout, hrun⟩ := decode_fixed (show decodeChunks _ 0 _ = .ok insns from hprog) indexesOf_newIndices
        (Nat.zero_add _) (fun k hi hget => by rw [Nat.zero_add]; exact hunsplit k hi hget) hfix hdel
      have hslots := congrArg asChunks hout
      rw [asChunks_flatten, asChunks_flatten, Prod.mk.injEq] at hslots
      rw [hslots.1]
      exact hrun 0
  have hdecode : decode (slots.map Slot.bytes).flatten = some insns' ↔ decodeChunks [] 0 slots = .ok insns' := by
    rw [decode_some]
    simp only [decodeProgram, asChunks_flatten]
    have hlen := slots_length slots
    have hcount := hd.encodes.length_eq
    have hpos := List.length_pos_iff.mpr hne
    refine ⟨fun h => h.2.2, fun h => ⟨fun hnil => ?_, by omega, h⟩⟩
    rw [hnil, List.length_nil] at hlen
    omega
  rw [hdecode]
  constructor
  · intro hrun
    have hunsplit : Unsplit R insns := by
      intro i hi hget
      have hsecond : CodeAt insns (i + 1) 0 := ⟨_, _, hget, rfl, rfl⟩
      have hfirst := (hpairs.2 i).mp hsecond
      obtain ⟨w, hw, hfall⟩ := wide_falls hfirst
      obtain ⟨hlt, -⟩ := List.getElem?_eq_some_iff.mp hget
      constructor
      · -- a second slot without its first does not decode
        intro hin
        by_contra hout
        obtain ⟨hnone, hnext⟩ := pairs hrun
        have hsame := hd.encodes.same (decode_encodes hrun hd.encodes)
        have hcodes : ∀ q c, CodeAt insns' q c → CodeAt (survivors R 0 insns) q c := by
          rintro q c ⟨x', f, hx', hf, hcode⟩
          obtain ⟨x, hx, heq⟩ := forall₂_get hsame.flip hx'
          exact ⟨x, f, hx, heq.trans hf, hcode⟩
        have hcodes' : ∀ q c, CodeAt (survivors R 0 insns) q c → CodeAt insns' q c := by
          rintro q c ⟨x, f, hx, hf, hcode⟩
          obtain ⟨x', hx', heq⟩ := forall₂_get hsame hx
          exact ⟨x', f, hx', heq.symm.trans hf, hcode⟩
        have hat : CodeAt insns' (newPos R (i + 1)) 0 := hcodes' _ _ ⟨_, _, survivor_at hget hout, rfl, rfl⟩
        cases hq : newPos R (i + 1) with
        | zero =>
          rw [hq] at hat
          exact hnone hat
        | succ q =>
          rw [hq] at hat
          obtain ⟨x, f, hx, hf, hcode⟩ := hcodes _ _ ((hnext q).mp hat)
          obtain ⟨hqlt, -⟩ := List.getElem?_eq_some_iff.mp hx
          rw [survivors_count] at hqlt
          obtain ⟨b, hb, hkept, rfl⟩ := newPos_onto hqlt
          have hgetb := List.getElem?_eq_getElem hb
          rw [survivor_at hgetb hkept] at hx
          cases hx
          rw [fixed_wide hf hcode] at hf
          have hwide : CodeAt insns b opcode.ldImm64 := ⟨_, f, hgetb, hf, hcode⟩
          obtain ⟨w', hw', hfall'⟩ := wide_falls hwide
          obtain ⟨s, g, hs, -⟩ := (hpairs.2 b).mpr hwide
          obtain ⟨hlt', -⟩ := List.getElem?_eq_some_iff.mp hs
          have hkept' := hclosed b (b + 1) hkept (knownEdge_iff.mpr ⟨hlt', w', hw', .inl ⟨hfall', rfl⟩⟩)
          have hbi : b + 1 = i + 1 := newPos_inj hkept' hout (by rw [newPos_kept hkept, hq])
          exact hkept ((Nat.succ.inj hbi) ▸ hin)
      · intro hout
        by_contra hin
        exact hclosed i (i + 1) hin (knownEdge_iff.mpr ⟨hlt, w, hw, .inl ⟨hfall, rfl⟩⟩) hout
    refine ⟨hunsplit, ?_⟩
    rw [hsurvive hunsplit] at hrun
    exact (Except.ok.inj hrun).symm
  · rintro ⟨hunsplit, rfl⟩
    exact hsurvive hunsplit

end Pairs

/-! ## The candidates of the driver -/

/-- A deletion that gives a candidate: of something, and no survivor loses its target or does
    not encode. -/
def Deletable (insns : List BpfInsn) (removed : List Nat) : Prop :=
  removed ≠ [] ∧ FixableUpTo removed insns.length 0 insns.length insns

/-- What the candidates have to keep: all that is reached from the entry without its dead code,
    and the anchor and what lies on a path to it in a slice, also of the program without its
    dead code. -/
structure KeepsNeeded (bytes : List UInt8) (insns : List BpfInsn) (anchor : Nat) : Prop where
  dead : ∀ out, deadCode bytes = .ok (some out) → ∀ x, Entered insns x → x ∉ deadRemoves insns
  slice : ∀ out, sliceToAnchor bytes (some anchor) = .ok (some out) →
    ∀ x, Needed insns anchor x → x ∉ sliceRemoves insns anchor
  both : ∀ d ds out, deadCode bytes = .ok (some d) → decode d = some ds →
    sliceToAnchor d (some anchor) = .ok (some out) →
      ∀ x, Needed insns anchor x → x ∉ deadRemoves insns ∧ newPos (deadRemoves insns) x ∉ sliceRemoves ds anchor

/-- The index of the anchor denotes `b` once the dead code is gone: what leads to the anchor has
    to lead to `b`. -/
structure Restated (insns : List BpfInsn) (anchor b : Nat) : Prop where
  live : LeadsTo insns 0 anchor
  leads : insns[anchor]? = some .exit ∨ LeadsTo insns anchor b
  into : ∀ i, Entered insns i → ControlEdge insns i anchor → LeadsTo insns i b
  forgotten : ∀ i j, Entered insns i → Forgotten insns i j → ReflTransGen (ControlEdge insns) j anchor →
    LeadsTo insns j b → LeadsTo insns i b

/-- When the candidates keep it: for each that exists, the forgotten transfers lead nowhere new. -/
structure KeepCondition (insns : List BpfInsn) (anchor : Nat) : Prop where
  dead : Deletable insns (deadRemoves insns) → ∀ i j, LeadsTo insns 0 i → Forgotten insns i j → LeadsTo insns 0 j
  slice : Deletable insns (sliceRemoves insns anchor) →
    ∀ i j, Entered insns i → Forgotten insns i j → LeadsTo insns j anchor → LeadsTo insns i anchor
  both : Deletable insns (deadRemoves insns) → Unsplit (deadRemoves insns) insns →
    ∀ b < insns.length, b ∉ deadRemoves insns → newPos (deadRemoves insns) b = anchor →
      Deletable (survivors (deadRemoves insns) 0 insns) (sliceRemoves (survivors (deadRemoves insns) 0 insns) anchor) →
        Restated insns anchor b

section Candidates

variable {bytes : List UInt8} {insns : List BpfInsn} {R : List Nat} {anchor b : Nat}

theorem deletes_iff (hdec : decodeProgram bytes = .ok insns) (hpos : 0 < insns.length)
    (hin : ∀ i ∈ R, i < insns.length) :
    (∃ out, deleteInsns bytes R = .ok out) ↔ FixableUpTo R insns.length 0 insns.length insns := by
  constructor
  · rintro ⟨out, h⟩
    obtain ⟨insns', slots, hdel, -⟩ := deleteInsns_ok.mp h
    have hsame := hdel.decodes
    rw [hdec] at hsame
    cases hsame
    exact hdel.fixable
  · intro hfix
    rw [deleteInsns_eq hdec, if_neg]
    · rcases fixChunks_cases (@indexesOf_newIndices R insns.length) (Nat.zero_add _) with
        ⟨-, out, hout⟩ | ⟨k, insn, hget, hkept, -, hend⟩
      · exact ⟨out, hout⟩
      · obtain ⟨hlt, -⟩ := List.getElem?_eq_some_iff.mp hget
        have hfixable := hfix k hlt insn hget hkept
        rcases hend with ⟨o, hoff, hno, -⟩ | ⟨henc, -⟩
        · obtain ⟨t, ht⟩ := hfixable.reaches o hoff
          exact absurd ht (hno t)
        · have := hfixable.encodes
          rw [henc] at this
          cases this
    · rintro (hnil | ⟨i, hi, hge⟩)
      · rw [hnil] at hpos
        exact Nat.lt_irrefl _ hpos
      · have := hin i hi
        omega

theorem deadCode_deletes (hdec : decode bytes = some insns) {d : List UInt8} :
    deadCode bytes = .ok (some d) ↔ deadRemoves insns ≠ [] ∧ deleteInsns bytes (deadRemoves insns) = .ok d := by
  rw [deadCode_some]
  constructor
  · rintro ⟨insns', hdec', hrest⟩
    rw [hdec] at hdec'
    cases hdec'
    exact hrest
  · exact fun h => ⟨insns, hdec, h⟩

theorem slice_deletes (hdec : decode bytes = some insns) {d : List UInt8} :
    sliceToAnchor bytes (some anchor) = .ok (some d) ↔ anchor < insns.length ∧ sliceRemoves insns anchor ≠ [] ∧
      deleteInsns bytes (sliceRemoves insns anchor) = .ok d := by
  rw [sliceToAnchor_some]
  constructor
  · rintro ⟨insns', a, hdec', ha, hrest⟩
    rw [hdec] at hdec'
    cases hdec'
    cases ha
    exact hrest
  · exact fun h => ⟨insns, anchor, hdec, rfl, h⟩

theorem dead_candidate (hdec : decode bytes = some insns) :
    (∃ out, deadCode bytes = .ok (some out)) ↔ Deletable insns (deadRemoves insns) := by
  obtain ⟨hne, hmod, hprog⟩ := decode_some.mp hdec
  have hpos : 0 < insns.length := by
    have := decodeProgram_length hprog
    have := List.length_pos_iff.mpr hne
    omega
  have hin : ∀ i ∈ deadRemoves insns, i < insns.length := fun i hi => (mem_others.mp hi).1
  simp only [deadCode_deletes hdec, exists_and_left, deletes_iff hprog hpos hin, Deletable]

theorem slice_candidate (hdec : decode bytes = some insns) :
    (∃ out, sliceToAnchor bytes (some anchor) = .ok (some out)) ↔
      anchor < insns.length ∧ Deletable insns (sliceRemoves insns anchor) := by
  obtain ⟨hne, hmod, hprog⟩ := decode_some.mp hdec
  have hpos : 0 < insns.length := by
    have := decodeProgram_length hprog
    have := List.length_pos_iff.mpr hne
    omega
  have hin : ∀ i ∈ sliceRemoves insns anchor, i < insns.length := fun i hi => (mem_others.mp hi).1
  simp only [slice_deletes hdec, exists_and_left, deletes_iff hprog hpos hin, Deletable]

/-- A slice to another index keeps what lies on a path to the anchor exactly if all that leads
    to the anchor leads to the instruction with that index. -/
theorem restated_iff (hlive : ∀ x, Entered insns x → LeadsTo insns 0 x) :
    (∀ x, Needed insns anchor x → LeadsTo insns 0 x ∧ (LeadsTo insns x b ∨ insns[x]? = some .exit)) ↔
      Restated insns anchor b := by
  have hleads : (∀ x, Needed insns anchor x → LeadsTo insns 0 x ∧ (LeadsTo insns x b ∨ insns[x]? = some .exit)) →
      ∀ i j, Entered insns i → ControlEdge insns i j → ReflTransGen (ControlEdge insns) j anchor → LeadsTo insns i b := by
    intro h i j hi hedge hj
    rcases (h i (.inr ⟨hi, .head hedge hj⟩)).2 with hb | hexit
    · exact hb
    · exact absurd hedge (exit_ends hexit)
  constructor
  · intro h
    obtain ⟨hanchor, hb⟩ := h anchor (.inl rfl)
    exact ⟨hanchor, hb.symm, fun i hi hedge => hleads h i anchor hi hedge .refl,
      fun i j hi hf hj _ => hleads h i j hi (controlEdge_iff.mpr (.inr hf)) hj⟩
  · rintro h x (rfl | ⟨hx, hpath⟩)
    · exact ⟨h.live, h.leads.symm⟩
    · refine ⟨hlive x hx, ?_⟩
      -- backwards along the path; the last step leads to `b` also from before an exit
      have hstep : ∀ y, ReflTransGen (ControlEdge insns) y anchor → Entered insns y → y = anchor ∨ LeadsTo insns y b := by
        intro y hy
        induction hy using ReflTransGen.head_induction_on with
        | refl => exact fun _ => .inl rfl
        | @head y z hedge hz ih =>
          intro hentered
          rcases ih (hentered.tail hedge) with rfl | hzb
          · exact .inr (h.into y hentered hedge)
          · rcases controlEdge_iff.mp hedge with hknown | hf
            · exact .inr (.head hknown hzb)
            · exact .inr (h.forgotten y z hentered hf hz hzb)
      rcases hstep x hpath hx with rfl | hb
      · exact h.leads.symm
      · exact .inl hb

/-- Every instruction that is reached from the entry survives dead-code elimination, and every
    slice keeps its anchor and what lies on a path to it, exactly if the transfers that the
    passes forget lead nowhere new and the slice of the program without its dead code, which has
    the anchor of the program with it, does not need another anchor. -/
theorem passes_keep (bytes : List UInt8) (insns : List BpfInsn) (anchor : Nat) (hdec : decode bytes = some insns)
    (ha : anchor < insns.length) : KeepsNeeded bytes insns anchor ↔ KeepCondition insns anchor := by
  have hpos : 0 < insns.length := by omega
  have hdead := dead_candidate hdec
  have hslice := @slice_candidate bytes insns anchor hdec
  -- the slice of the program without its dead code
  have hclosed : ∀ x y, x ∉ deadRemoves insns → KnownEdge insns x y → y ∉ deadRemoves insns := by
    intro x y hx hedge
    rw [not_mem_deadRemoves (knownEdge_left hedge)] at hx
    exact (not_mem_deadRemoves (successors_lt hedge)).mpr (hx.tail hedge)
  have hsurvive : survivors (deadRemoves insns) 0 insns ≠ [] := by
    intro hnil
    have h0 : 0 ∉ deadRemoves insns := (not_mem_deadRemoves hpos).mpr .refl
    have := survivor_at (List.getElem?_eq_getElem hpos) h0
    rw [hnil] at this
    cases this
  have hboth : (∃ d ds out, deadCode bytes = .ok (some d) ∧ decode d = some ds ∧
        sliceToAnchor d (some anchor) = .ok (some out)) ↔
      Deletable insns (deadRemoves insns) ∧ Unsplit (deadRemoves insns) insns ∧
        anchor < (survivors (deadRemoves insns) 0 insns).length ∧
        Deletable (survivors (deadRemoves insns) 0 insns) (sliceRemoves (survivors (deadRemoves insns) 0 insns) anchor) := by
    constructor
    · rintro ⟨d, ds, out, hd, hds, hout⟩
      obtain ⟨hne, hdel⟩ := (deadCode_deletes hdec).mp hd
      obtain ⟨hunsplit, rfl⟩ := (decode_deleted hdec hclosed hdel hsurvive).mp hds
      exact ⟨hdead.mp ⟨d, hd⟩, hunsplit, (slice_candidate hds).mp ⟨out, hout⟩⟩
    · rintro ⟨hdeletable, hunsplit, hrest⟩
      obtain ⟨d, hd⟩ := hdead.mpr hdeletable
      obtain ⟨-, hdel⟩ := (deadCode_deletes hdec).mp hd
      have hds := (decode_deleted hdec hclosed hdel hsurvive).mpr ⟨hunsplit, rfl⟩
      obtain ⟨out, hout⟩ := (slice_candidate hds).mpr hrest
      exact ⟨d, _, out, hd, hds, hout⟩
  have hkept : ∀ b < insns.length, b ∉ deadRemoves insns → newPos (deadRemoves insns) b = anchor →
      FixableUpTo (deadRemoves insns) insns.length 0 insns.length insns → ∀ x < insns.length, x ∉ deadRemoves insns →
        (newPos (deadRemoves insns) x ∉ sliceRemoves (survivors (deadRemoves insns) 0 insns) anchor ↔
          LeadsTo insns x b ∨ insns[x]? = some .exit) := by
    intro b hb hbkept hpos hfix x hx hxkept
    have hlt : ∀ y < insns.length, y ∉ deadRemoves insns →
        newPos (deadRemoves insns) y < (survivors (deadRemoves insns) 0 insns).length := by
      intro y hy hykept
      rw [survivors_count]
      exact newPos_lt hy hykept
    have hget := List.getElem?_eq_getElem hx
    rw [not_mem_sliceRemoves (hlt x hx hxkept) (hpos ▸ hlt b hb hbkept), ← hpos,
      leadsTo_renumbered hclosed hfix hx hxkept hbkept, survivor_at hget hxkept, hget, Option.some_inj,
      Option.some_inj, exit_fixed]
  have hneeded : ∀ x, Needed insns anchor x → x < insns.length := by
    rintro x (rfl | ⟨hx, -⟩)
    · exact ha
    · exact entered_lt hpos hx
  have hlive : Deletable insns (deadRemoves insns) → (Deletable insns (deadRemoves insns) →
      ∀ i j, LeadsTo insns 0 i → Forgotten insns i j → LeadsTo insns 0 j) → ∀ x, Entered insns x → LeadsTo insns 0 x :=
    fun hdel h x hx => (not_mem_deadRemoves (entered_lt hpos hx)).mp ((dead_keeps hpos).mpr (h hdel) x hx)
  constructor
  · intro h
    have hforgotten : Deletable insns (deadRemoves insns) →
        ∀ i j, LeadsTo insns 0 i → Forgotten insns i j → LeadsTo insns 0 j := by
      intro hdel
      obtain ⟨out, hout⟩ := hdead.mpr hdel
      exact (dead_keeps hpos).mp (h.dead out hout)
    refine ⟨hforgotten, fun hdel => ?_, fun hdel hunsplit b hb hbkept hbpos hdel' => ?_⟩
    · obtain ⟨out, hout⟩ := hslice.mpr ⟨ha, hdel⟩
      exact (slice_keeps hpos ha).mp (h.slice out hout)
    · have hlt : anchor < (survivors (deadRemoves insns) 0 insns).length := by
        rw [survivors_count, ← hbpos]
        exact newPos_lt hb hbkept
      obtain ⟨d, ds, out, hd, hds, hout⟩ := hboth.mpr ⟨hdel, hunsplit, hlt, hdel'⟩
      obtain ⟨-, hdeleted⟩ := (deadCode_deletes hdec).mp hd
      obtain ⟨-, rfl⟩ := (decode_deleted hdec hclosed hdeleted hsurvive).mp hds
      refine (restated_iff (hlive hdel hforgotten)).mp fun x hx => ?_
      obtain ⟨hxdead, hxslice⟩ := h.both d _ out hd hds hout x hx
      have hxlt := hneeded x hx
      exact ⟨(not_mem_deadRemoves hxlt).mp hxdead, (hkept b hb hbkept hbpos hdel.2 x hxlt hxdead).mp hxslice⟩
  · intro h
    refine ⟨fun out hout => ?_, fun out hout => ?_, fun d ds out hd hds hout x hx => ?_⟩
    · exact (dead_keeps hpos).mpr (h.dead (hdead.mp ⟨out, hout⟩))
    · exact (slice_keeps hpos ha).mpr (h.slice (hslice.mp ⟨out, hout⟩).2)
    · obtain ⟨hdel, hunsplit, hlt, hdel'⟩ := hboth.mp ⟨d, ds, out, hd, hds, hout⟩
      obtain ⟨-, hdeleted⟩ := (deadCode_deletes hdec).mp hd
      obtain ⟨-, rfl⟩ := (decode_deleted hdec hclosed hdeleted hsurvive).mp hds
      rw [survivors_count] at hlt
      obtain ⟨b, hb, hbkept, hbpos⟩ := newPos_onto hlt
      have hrestated := h.both hdel hunsplit b hb hbkept hbpos hdel'
      obtain ⟨hxlive, hxb⟩ := (restated_iff (hlive hdel h.dead)).mpr hrestated x hx
      have hxlt := hneeded x hx
      have hxdead := (not_mem_deadRemoves hxlt).mpr hxlive
      exact ⟨hxdead, (hkept b hb hbkept hbpos hdel.2 x hxlt hxdead).mpr hxb⟩

end Candidates

/-- The bytes of `r0 = 1; exit; exit`. -/
def exitTwice : List UInt8 :=
  [0xb7, 0, 0, 0, 1, 0, 0, 0, 0x95, 0, 0, 0, 0, 0, 0, 0, 0x95, 0, 0, 0, 0, 0, 0, 0]

theorem passes_keep_exits : KeepsNeeded exitTwice [.movImm 0 1, .exit, .exit] 1 ↔
    KeepCondition [.movImm 0 1, .exit, .exit] 1 :=
  passes_keep exitTwice [.movImm 0 1, .exit, .exit] 1 (by decide) (by decide)

/-- The bytes of `r0 = 1; if r0 & 1 goto +1; exit; r0 = 2; exit`. -/
def jsetSkips : List UInt8 :=
  [0xb7, 0, 0, 0, 1, 0, 0, 0, 0x45, 0, 1, 0, 1, 0, 0, 0, 0x95, 0, 0, 0, 0, 0, 0, 0,
    0xb7, 0, 0, 0, 2, 0, 0, 0, 0x95, 0, 0, 0, 0, 0, 0, 0]

def jsetSkipsInsns : List BpfInsn := [.movImm 0 1, .jsetImm 0 1 1, .exit, .movImm 0 2, .exit]

/-- The bytes of `goto +1; exit; if r0 == 0 goto +1; goto +1; r0 = 2; exit`. -/
def deadExit : List UInt8 :=
  [0x05, 0, 1, 0, 0, 0, 0, 0, 0x95, 0, 0, 0, 0, 0, 0, 0, 0x15, 0, 1, 0, 0, 0, 0, 0,
    0x05, 0, 1, 0, 0, 0, 0, 0, 0xb7, 0, 0, 0, 2, 0, 0, 0, 0x95, 0, 0, 0, 0, 0, 0, 0]

def deadExitInsns : List BpfInsn := [.jmp 1, .exit, .jeqImm 0 0 1, .jmp 1, .movImm 0 2, .exit]

/-- Dead-code elimination deletes the target of a `JSET`; and the slice of the program without
    its dead exit, to the index 3 of the second jump, deletes that jump. -/
theorem forgotten_jset :
    (decode jsetSkips = some jsetSkipsInsns ∧ Entered jsetSkipsInsns 3 ∧
      ¬ KeepsNeeded jsetSkips jsetSkipsInsns 0) ∧
    (decode deadExit = some deadExitInsns ∧ ¬ KeepsNeeded deadExit deadExitInsns 3) := by
  have hentered : Entered jsetSkipsInsns 3 := by
    have hfirst : ControlEdge jsetSkipsInsns 0 1 := ⟨by decide, .movImm 0 1, rfl, .inl ⟨rfl, rfl⟩⟩
    have hsecond : ControlEdge jsetSkipsInsns 1 3 := ⟨by decide, .jsetImm 0 1 1, rfl, .inr ⟨1, rfl, rfl⟩⟩
    exact .tail (.tail .refl hfirst) hsecond
  refine ⟨⟨by decide, hentered, fun h => ?_⟩, by decide, fun h => ?_⟩
  · have hout : deadCode jsetSkips = .ok (some (jsetSkips.take 24)) := by decide
    exact h.dead _ hout 3 hentered (by decide)
  · have hdead : deadCode deadExit = .ok (some ([0x05, 0, 0, 0, 0, 0, 0, 0] ++ deadExit.drop 16)) := by decide
    have hdec : decode ([0x05, 0, 0, 0, 0, 0, 0, 0] ++ deadExit.drop 16) =
        some [.jmp 0, .jeqImm 0 0 1, .jmp 1, .movImm 0 2, .exit] := by
      decide
    have hslice : sliceToAnchor ([0x05, 0, 0, 0, 0, 0, 0, 0] ++ deadExit.drop 16) (some 3) =
        .ok (some [0x05, 0, 0, 0, 0, 0, 0, 0, 0x15, 0, 0, 0, 0, 0, 0, 0, 0xb7, 0, 0, 0, 2, 0, 0, 0, 0x95, 0, 0, 0,
          0, 0, 0, 0]) := by
      decide
    exact (h.both _ _ _ hdead hdec hslice 3 (.inl rfl)).2 (by decide)

end Reduce

end RandVerifier
