/-
  RandVerifier.Deletions — deletions one after the other (`delete_insns` of
  `src/fuzz/reduce/fixup.rs`, as the reducer composes it).

  The reducer deletes from the original bytes and grows the set of positions. A deletion from
  the result of a deletion is one from the original: re-based offsets compose, and what is
  written is encoded, so encoding it again changes nothing. This holds even where a deletion
  splits a wide load, as long as the result decodes.

  Proved:
  - `deleted_slots`: the bytes of a deletion are the encodings of the survivors;
  - `delete_again`: a deletion of one more instruction is a deletion from the original;
  - `deleteInsns_unreachable`: the encoder is not stopped in a program that encodes.
-/

import RandVerifier.Fixup

namespace RandVerifier

namespace Fixup

/-! ## Encodings -/

/-- The opcodes of the jumps that are re-based. -/
def branchCodes : List UInt8 :=
  [opcode.jmp, opcode.jeq, opcode.jne, opcode.jgt, opcode.jge, opcode.jlt, opcode.jle, opcode.jsgt, opcode.jsge,
   opcode.jslt, opcode.jsle, opcode.jeqImm, opcode.jneImm, opcode.jgtImm, opcode.jgeImm, opcode.jltImm,
   opcode.jleImm, opcode.jsgtImm, opcode.jsgeImm, opcode.jsltImm, opcode.jsleImm]

section Encodings

variable {insn insn' : BpfInsn} {f : Fields}

/-- Whether a jump is re-based, and its offset, are in its encoding. -/
theorem branchOffset_encode (h : encodeFields insn = some f) :
    branchOffset insn = if f.code ∈ branchCodes then some f.off else none := by
  cases insn with
  | jmp32 dst src imm offset op =>
    have hcodes : (jmp32Opcodes op).1 ∉ branchCodes ∧ (jmp32Opcodes op).2 ∉ branchCodes := by
      cases op <;> decide
    simp only [encodeFields] at h
    split at h
    · cases h
      exact (if_neg hcodes.1).symm
    · cases h
      exact (if_neg hcodes.2).symm
    · cases h
  | ldMem dst base offset size signExtend =>
    obtain ⟨code, hcode, h⟩ := Option.bind_eq_some_iff.mp h
    cases h
    refine (if_neg ?_).symm
    cases size <;> cases signExtend <;> cases hcode <;> dsimp only <;> decide
  | stMem src base offset size =>
    cases h
    refine (if_neg ?_).symm
    dsimp only
    cases size <;> decide
  | stMemImm imm base offset size =>
    cases h
    refine (if_neg ?_).symm
    dsimp only
    cases size <;> decide
  | ldAbs size imm =>
    cases h
    refine (if_neg ?_).symm
    dsimp only
    cases size <;> decide
  | ldInd src size imm =>
    cases h
    refine (if_neg ?_).symm
    dsimp only
    cases size <;> decide
  | atomic dst src offset size op fetch =>
    cases h
    refine (if_neg ?_).symm
    dsimp only
    cases size <;> decide
  | _ =>
    cases h
    rfl

/-- The encoder drops nothing of what it writes. -/
theorem encodeFields_canonical (h : encodeFields insn = some f) : f.Canonical := by
  cases insn with
  | jmp32 dst src imm offset op =>
    have hcodes : (jmp32Opcodes op).1 ∉ lossyOpcodes ∧ (jmp32Opcodes op).2 ∉ lossyOpcodes := by
      cases op <;> decide
    simp only [encodeFields] at h
    split at h
    · cases h
      exact canonical_of_code hcodes.1
    · cases h
      exact canonical_of_code hcodes.2
    · cases h
  | ldMem dst base offset size signExtend =>
    obtain ⟨code, hcode, h⟩ := Option.bind_eq_some_iff.mp h
    cases h
    refine canonical_of_code ?_
    cases size <;> cases signExtend <;> cases hcode <;> dsimp only <;> decide
  | stMem src base offset size =>
    cases h
    refine canonical_of_code ?_
    dsimp only
    cases size <;> decide
  | stMemImm imm base offset size =>
    cases h
    refine (canonical_store ?_).mpr rfl
    dsimp only
    cases size <;> decide
  | ldAbs size imm =>
    cases h
    cases size with
    | dw =>
      refine canonical_of_code ?_
      dsimp only
      decide
    | _ =>
      refine (canonical_packet ?_).mpr rfl
      dsimp only
      decide
  | ldInd src size imm =>
    cases h
    cases size with
    | dw =>
      refine canonical_of_code ?_
      dsimp only
      decide
    | _ =>
      refine (canonical_packet ?_).mpr rfl
      dsimp only
      decide
  | atomic dst src offset size op fetch =>
    cases h
    refine (canonical_atomic ?_).mpr ?_
    · dsimp only
      cases size <;> decide
    · dsimp only
      cases op <;> cases fetch <;> decide
  | neg dst =>
    cases h
    exact (canonical_neg (.inl rfl)).mpr rfl
  | neg32 dst =>
    cases h
    exact (canonical_neg (.inr rfl)).mpr rfl
  | exit =>
    cases h
    exact (canonical_exit rfl).mpr rfl
  | _ =>
    cases h
    refine canonical_of_code ?_
    dsimp only
    decide

end Encodings

/-! ## The bytes of a deletion -/

/-- Slots that are the encodings of a list of instructions. -/
def Encodes (insns : List BpfInsn) (slots : List Slot) : Prop :=
  List.Forall₂ (fun insn s => encodeFields insn = some s.fields) insns slots

/-- Instructions with the same encodings. -/
def SameCode (insns insns' : List BpfInsn) : Prop :=
  List.Forall₂ (fun insn insn' => encodeFields insn = encodeFields insn') insns insns'

section Slots

variable {insns insns' : List BpfInsn} {slots slots' : List Slot} {removed : List Nat}
  {newIndex : List (Option Nat)} {len old : Nat}

theorem fields_inj {s s' : Slot} (h : s.fields = s'.fields) : s = s' := by
  rw [← Slot.fields_slot s, ← Slot.fields_slot s', h]

theorem Encodes.unique (h : Encodes insns slots) (h' : Encodes insns' slots') (hsame : SameCode insns insns') :
    slots = slots' := by
  unfold SameCode at hsame
  induction hsame generalizing slots slots' with
  | nil =>
    cases h
    cases h'
    rfl
  | cons hcode _ ih =>
    cases h with
    | cons hs hrest =>
      cases h' with
      | cons hs' hrest' =>
        rw [ih hrest hrest', fields_inj (Option.some.inj (hs.symm.trans (hcode.trans hs')))]

theorem Encodes.same (h : Encodes insns slots) (h' : Encodes insns' slots) : SameCode insns insns' := by
  unfold Encodes at h
  induction h generalizing insns' with
  | nil =>
    cases h'
    exact .nil
  | cons hs _ ih =>
    cases h' with
    | cons hs' hrest' => exact .cons (hs.trans hs'.symm) (ih hrest')

theorem Encodes.of_same (h : Encodes insns' slots) (hsame : SameCode insns insns') : Encodes insns slots := by
  unfold SameCode at hsame
  induction hsame generalizing slots with
  | nil =>
    cases h
    exact .nil
  | cons hcode _ ih =>
    cases h with
    | cons hs hrest => exact .cons (hcode.trans hs) (ih hrest)

theorem Encodes.canonical (h : Encodes insns slots) : ∀ s ∈ slots, s.fields.Canonical := by
  unfold Encodes at h
  induction h with
  | nil => exact nofun
  | cons hs _ ih =>
    intro s hmem
    rcases List.mem_cons.mp hmem with rfl | hrest
    · exact encodeFields_canonical hs
    · exact ih s hrest

theorem encodes_of_mapM (h : insns.mapM encode = some (slots.map Slot.bytes)) : Encodes insns slots := by
  induction insns generalizing slots with
  | nil =>
    cases slots with
    | nil => exact .nil
    | cons s slots => cases h
  | cons insn insns ih =>
    cases slots with
    | nil =>
      rw [List.mapM_cons] at h
      cases henc : encode insn with
      | none =>
        rw [henc] at h
        cases h
      | some chunk =>
        rw [henc] at h
        cases hrest : insns.mapM encode with
        | none =>
          rw [hrest] at h
          cases h
        | some chunks =>
          rw [hrest] at h
          cases h
    | cons s slots =>
      rw [List.map_cons, mapM_cons_eq_some] at h
      exact .cons (encode_eq_some.mp h.1) (ih h.2)

/-- What decodes from encodings encodes to them. -/
theorem decode_encodes {idx : Nat} (h : decodeChunks [] idx slots = .ok insns') (henc : Encodes insns slots) :
    Encodes insns' slots :=
  encodes_of_mapM ((encode_decodeChunks h).2.mpr henc.canonical)

theorem fixChunks_fixable (hni : IndexesOf newIndex removed len) (hlen : old + insns.length = len) {out : List UInt8}
    (hout : fixChunks len newIndex old insns = .ok out) : FixableUpTo removed len old insns.length insns := by
  rcases fixChunks_cases hni hlen with ⟨hall, -⟩ | ⟨k, insn, -, -, -, ⟨o, -, -, hrun⟩ | ⟨-, hrun⟩⟩
  · exact hall
  · rw [hout] at hrun
    cases hrun
  · rw [hout] at hrun
    cases hrun

/-- The bytes of a deletion are the encodings of the survivors. -/
theorem deleted_slots (hni : IndexesOf newIndex removed len) (hlen : old + insns.length = len)
    (hfix : FixableUpTo removed len old insns.length insns) {out : List UInt8}
    (hout : fixChunks len newIndex old insns = .ok out) :
    ∃ slots, Encodes (survivors removed old insns) slots ∧ out = (slots.map Slot.bytes).flatten := by
  induction insns generalizing old out with
  | nil =>
    cases hout
    exact ⟨[], .nil, rfl⟩
  | cons insn insns ih =>
    rw [List.length_cons] at hlen
    have hrec : ∀ {out'}, fixChunks len newIndex (old + 1) insns = .ok out' → ∃ slots,
        Encodes (survivors removed (old + 1) insns) slots ∧ out' = (slots.map Slot.bytes).flatten := by
      intro out' hout'
      refine ih (by omega) (fun k hk insn' hget hkept => ?_) hout'
      have hshift : old + 1 + k = old + (k + 1) := by omega
      rw [hshift] at hkept ⊢
      exact hfix (k + 1) (by rw [List.length_cons]; omega) insn' hget hkept
    by_cases hold : old ∈ removed
    · rw [fixChunks_removed hni (by omega) hold] at hout
      rw [survivors, if_pos hold]
      exact hrec hout
    · obtain ⟨f, hf, hchunk⟩ := fixChunk_ok hni (hfix 0 (by simp) insn rfl hold)
      obtain ⟨rest, hrest, rfl⟩ := fixChunks_kept hni (by omega) hold hchunk hout
      obtain ⟨slots, henc, rfl⟩ := hrec hrest
      obtain ⟨hd, hs⟩ := encodeFields_nibbles hf
      rw [survivors, if_neg hold]
      exact ⟨f.slot :: slots, .cons (by rw [Fields.slot_fields hd hs]; exact hf) henc, rfl⟩

end Slots

/-! ## Deleting again -/

section Again

variable {removed removed' : List Nat} {k x y : Nat}

/-- Positions that survive stay apart. -/
theorem newPos_inj (hx : x ∉ removed) (hy : y ∉ removed) (h : newPos removed x = newPos removed y) : x = y := by
  rcases Nat.lt_trichotomy x y with hlt | heq | hgt
  · have := @newPos_le removed (x + 1) y hlt
    rw [newPos_kept hx] at this
    omega
  · exact heq
  · have := @newPos_le removed (y + 1) x hgt
    rw [newPos_kept hy] at this
    omega

/-- One more deletion, at the new index of a survivor. -/
theorem newPos_again (hk : k ∉ removed) (hmem : ∀ x, x ∈ removed' ↔ x ∈ removed ∨ x = k) (x : Nat) :
    newPos removed' x = newPos [newPos removed k] (newPos removed x) := by
  induction x with
  | zero => rfl
  | succ x ih =>
    by_cases hx : x ∈ removed
    · rw [newPos_removed hx, newPos_removed ((hmem x).mpr (.inl hx)), ih]
    · rw [newPos_kept hx]
      by_cases hxk : x = k
      · rw [newPos_removed ((hmem x).mpr (.inr hxk)), ih, newPos_removed]
        rw [hxk]
        exact List.mem_singleton_self _
      · rw [newPos_kept fun hin => ((hmem x).mp hin).elim hx hxk, ih, newPos_kept]
        intro hin
        exact hxk (newPos_inj hx hk (List.mem_singleton.mp hin))

variable {len len' old : Nat} {insn insn' : BpfInsn} {insns insns' : List BpfInsn}

theorem fixed_of_branch {o : Int16} {t : Nat} (h : branchOffset insn = some o) (ht : Reaches removed len old o.toInt t) :
    fixed removed old insn = withOffset insn (Int16.ofInt (newPos removed t - newPos removed old - 1)) := by
  rw [fixed, h]
  dsimp only
  rw [← ht.1, Int.toNat_natCast]

/-- The offset that a survivor is written with, and the position it leads to. -/
theorem branch_written (hfix : Fixable removed len old insn) {o : Int16} (h : branchOffset insn = some o)
    (hcode : encodeFields (fixed removed old insn) = encodeFields insn') :
    ∃ t o', Reaches removed len old o.toInt t ∧ branchOffset insn' = some o' ∧
      (newPos removed t : Int) = newPos removed old + 1 + o'.toInt ∧
      ∀ o'', encodeFields (withOffset insn o'') = encodeFields (withOffset insn' o'') := by
  obtain ⟨t, ht⟩ := hfix.reaches o h
  obtain ⟨-, hint⟩ := rebase_ok indexesOf_newIndices ht
  rw [fixed_of_branch h ht] at hcode
  obtain ⟨f, hf, hf'⟩ := encodeFields_withOffset h (Int16.ofInt (newPos removed t - newPos removed old - 1))
  have hoff := branchOffset_withOffset h (Int16.ofInt (newPos removed t - newPos removed old - 1))
  have hb : branchOffset insn' = some (Int16.ofInt (newPos removed t - newPos removed old - 1)) := by
    rw [branchOffset_encode (hcode.symm.trans hf'), ← branchOffset_encode hf', hoff]
  refine ⟨t, _, ht, hb, by omega, fun o'' => ?_⟩
  obtain ⟨f₁, hf₁, hf₁'⟩ := encodeFields_withOffset h o''
  obtain ⟨f₂, hf₂, hf₂'⟩ := encodeFields_withOffset hb o''
  rw [hf₁', hf₂']
  obtain rfl := Option.some.inj (hf.symm.trans hf₁)
  obtain rfl := Option.some.inj (hf'.symm.trans (hcode.trans hf₂))
  rfl

theorem plain_written (hfix : Fixable removed len old insn) (h : branchOffset insn = none)
    (hcode : encodeFields (fixed removed old insn) = encodeFields insn') : branchOffset insn' = none := by
  rw [fixed_of_none h] at hcode
  obtain ⟨chunk, hchunk⟩ := Option.isSome_iff_exists.mp hfix.encodes
  obtain ⟨f, hf, -⟩ := Option.map_eq_some_iff.mp hchunk
  rw [branchOffset_encode (hcode.symm.trans hf), ← branchOffset_encode hf, h]

/-- Re-basing twice is re-basing once. -/
theorem fixed_again (hk : k ∉ removed) (hmem : ∀ x, x ∈ removed' ↔ x ∈ removed ∨ x = k)
    (hfix : Fixable removed len old insn) (hcode : encodeFields (fixed removed old insn) = encodeFields insn') :
    encodeFields (fixed removed' old insn) = encodeFields (fixed [newPos removed k] (newPos removed old) insn') := by
  cases h : branchOffset insn with
  | none =>
    rw [fixed_of_none (plain_written hfix h hcode), ← hcode, fixed_of_none h, fixed_of_none h]
  | some o =>
    obtain ⟨t, o', ht, hb, hpos, hsame⟩ := branch_written hfix h hcode
    rw [fixed, h, fixed, hb]
    dsimp only
    rw [← ht.1, ← hpos, Int.toNat_natCast, Int.toNat_natCast, newPos_again hk hmem t, newPos_again hk hmem old]
    exact hsame _

/-- The survivors of two deletions are those of one. -/
theorem survivors_again (hk : k ∉ removed) (hmem : ∀ x, x ∈ removed' ↔ x ∈ removed ∨ x = k)
    (hfix : FixableUpTo removed len old insns.length insns) (hsame : SameCode (survivors removed old insns) insns') :
    SameCode (survivors removed' old insns) (survivors [newPos removed k] (newPos removed old) insns') := by
  induction insns generalizing old insns' with
  | nil =>
    cases hsame
    exact .nil
  | cons insn insns ih =>
    have htail : FixableUpTo removed len (old + 1) insns.length insns := by
      intro j hj insn' hget hkept
      have hshift : old + 1 + j = old + (j + 1) := by omega
      rw [hshift] at hkept ⊢
      exact hfix (j + 1) (by rw [List.length_cons]; omega) insn' hget hkept
    by_cases hold : old ∈ removed
    · rw [survivors, if_pos hold] at hsame
      rw [survivors, if_pos ((hmem old).mpr (.inl hold)), ← newPos_removed hold]
      exact ih htail hsame
    · rw [survivors, if_neg hold] at hsame
      cases hsame with
      | @cons _ insn' _ rest hcode hrest =>
        have hnext := ih htail hrest
        rw [newPos_kept hold] at hnext
        by_cases holdk : old = k
        · rw [survivors, if_pos ((hmem old).mpr (.inr holdk)), survivors,
            if_pos (by rw [holdk]; exact List.mem_singleton_self _)]
          exact hnext
        · have hold' : old ∉ removed' := fun hin => ((hmem old).mp hin).elim hold holdk
          have hpos : newPos removed old ∉ [newPos removed k] := fun hin =>
            holdk (newPos_inj hold hk (List.mem_singleton.mp hin))
          rw [survivors, if_neg hold', survivors, if_neg hpos]
          exact .cons (fixed_again hk hmem (hfix 0 (by simp) insn rfl hold) hcode) hnext

/-- What survives both deletions can be written at once. -/
theorem fixable_again (hk : k ∉ removed) (hmem : ∀ x, x ∈ removed' ↔ x ∈ removed ∨ x = k)
    (hfix : Fixable removed len old insn) (hcode : encodeFields (fixed removed old insn) = encodeFields insn')
    (hfix' : Fixable [newPos removed k] len' (newPos removed old) insn') : Fixable removed' len old insn := by
  refine ⟨hfix.encodes, fun o h => ?_⟩
  obtain ⟨t, o', ht, hb, hpos, -⟩ := branch_written hfix h hcode
  obtain ⟨t', ht', -, hkept⟩ := hfix'.reaches o' hb
  refine ⟨t, ht.1, ht.2.1, fun hin => ?_⟩
  rcases (hmem t).mp hin with hin | rfl
  · exact ht.2.2 hin
  · refine hkept (List.mem_singleton.mpr ?_)
    omega

theorem fixableUpTo_again (hk : k ∉ removed) (hmem : ∀ x, x ∈ removed' ↔ x ∈ removed ∨ x = k)
    (hfix : FixableUpTo removed len 0 insns.length insns) (hsame : SameCode (survivors removed 0 insns) insns')
    (hfix' : FixableUpTo [newPos removed k] len' 0 insns'.length insns') :
    FixableUpTo removed' len 0 insns.length insns := by
  intro j hj insn hget hkept
  have hold : 0 + j ∉ removed := fun hin => hkept ((hmem _).mpr (.inl hin))
  obtain ⟨i, hpos, hi⟩ := survivors_get hget hold
  have hlen := hsame.length_eq
  obtain ⟨hilt, -⟩ := List.getElem?_eq_some_iff.mp hi
  have hcode := hsame.get hilt (by omega)
  rw [List.getElem?_eq_getElem hilt, Option.some.injEq] at hi
  simp only [List.get_eq_getElem] at hcode
  rw [hi] at hcode
  have hzero : newPos removed 0 = 0 := rfl
  have hposk : 0 + i ∉ [newPos removed k] := by
    intro hin
    rw [← hzero, ← hpos] at hin
    exact hkept ((hmem _).mpr (.inr (newPos_inj hold hk (List.mem_singleton.mp hin))))
  have hfixi := hfix' i (by omega) _ (List.getElem?_eq_getElem (by omega)) hposk
  rw [← hzero, ← hpos] at hfixi
  exact fixable_again hk hmem (hfix j hj insn hget hold) hcode hfixi

end Again

section Delete

variable {bytes out : List UInt8} {removed removed' : List Nat} {k : Nat}

theorem deleteInsns_undecoded (h : ∀ insns, decodeProgram bytes ≠ .ok insns) :
    deleteInsns bytes removed = .error .rejected := by
  unfold deleteInsns
  dsimp only
  cases hd : decodeProgram bytes with
  | error e =>
    split
    · rfl
    · rfl
  | ok insns => exact absurd hd (h insns)

/-- A deletion that returns. -/
structure Deleted (bytes : List UInt8) (removed : List Nat) (insns : List BpfInsn) (slots : List Slot) : Prop where
  decodes : decodeProgram bytes = .ok insns
  ne : insns ≠ []
  inside : ∀ i ∈ removed, i < insns.length
  fixable : FixableUpTo removed insns.length 0 insns.length insns
  encodes : Encodes (survivors removed 0 insns) slots

theorem deleteInsns_ok : deleteInsns bytes removed = .ok out ↔
    ∃ insns slots, Deleted bytes removed insns slots ∧ out = (slots.map Slot.bytes).flatten := by
  constructor
  · intro h
    by_cases hdec : ∃ insns, decodeProgram bytes = .ok insns
    · obtain ⟨insns, hdec⟩ := hdec
      rw [deleteInsns_eq hdec] at h
      split at h
      · cases h
      · rename_i hin
        have hfix := fixChunks_fixable indexesOf_newIndices (Nat.zero_add _) h
        obtain ⟨slots, henc, rfl⟩ := deleted_slots indexesOf_newIndices (Nat.zero_add _) hfix h
        refine ⟨insns, slots, ⟨hdec, fun hnil => hin (.inl hnil), fun i hi => ?_, hfix, henc⟩, rfl⟩
        by_contra hge
        exact hin (.inr ⟨i, hi, by omega⟩)
    · rw [deleteInsns_undecoded fun insns hd => hdec ⟨insns, hd⟩] at h
      cases h
  · rintro ⟨insns, slots, h, rfl⟩
    rw [deleteInsns_eq h.decodes, if_neg]
    · rcases fixChunks_cases (@indexesOf_newIndices removed insns.length) (Nat.zero_add _) with
        ⟨-, out, hout⟩ | ⟨j, insn, hget, hkept, -, hend⟩
      · obtain ⟨slots', henc', rfl⟩ := deleted_slots indexesOf_newIndices (Nat.zero_add _) h.fixable hout
        rw [hout, henc'.unique h.encodes (h.encodes.same h.encodes)]
      · obtain ⟨hlt, -⟩ := List.getElem?_eq_some_iff.mp hget
        have hfix := h.fixable j hlt insn hget hkept
        rcases hend with ⟨o, hoff, hno, -⟩ | ⟨henc, -⟩
        · obtain ⟨t, ht⟩ := hfix.reaches o hoff
          exact absurd ht (hno t)
        · have := hfix.encodes
          rw [henc] at this
          cases this
    · rintro (hnil | ⟨i, hi, hge⟩)
      · exact h.ne hnil
      · have := h.inside i hi
        omega

/-- A deletion from the result of a deletion is one from the original. -/
theorem delete_again {small : List UInt8} (hk : k ∉ removed) (hmem : ∀ x, x ∈ removed' ↔ x ∈ removed ∨ x = k)
    (h : deleteInsns bytes removed = .ok out) (hlt : k < bytes.length / 8)
    (hagain : deleteInsns out [newPos removed k] = .ok small) : deleteInsns bytes removed' = .ok small := by
  obtain ⟨insns, slots, hdel, rfl⟩ := deleteInsns_ok.mp h
  obtain ⟨insns', slots', hdel', rfl⟩ := deleteInsns_ok.mp hagain
  have hdec := hdel'.decodes
  unfold decodeProgram at hdec
  rw [asChunks_flatten] at hdec
  have hsame := hdel.encodes.same (decode_encodes hdec hdel.encodes)
  have hfix := fixableUpTo_again hk hmem hdel.fixable hsame hdel'.fixable
  have hsurvive := survivors_again hk hmem hdel.fixable hsame
  refine deleteInsns_ok.mpr ⟨insns, slots', ⟨hdel.decodes, hdel.ne, fun i hi => ?_, hfix, ?_⟩, rfl⟩
  · rcases (hmem i).mp hi with hin | rfl
    · exact hdel.inside i hin
    · have := decodeProgram_length hdel.decodes
      omega
  · have hzero : newPos removed 0 = 0 := rfl
    rw [hzero] at hsurvive
    exact hdel'.encodes.of_same hsurvive

theorem newIndices_congr (hmem : ∀ x, x ∈ removed ↔ x ∈ removed') (old next n : Nat) :
    newIndices removed old next n = newIndices removed' old next n := by
  induction n generalizing old next with
  | zero => rfl
  | succ n ih => simp only [newIndices, hmem old, ih]

/-- The positions are a set. -/
theorem deleteInsns_congr (hmem : ∀ x, x ∈ removed ↔ x ∈ removed') :
    deleteInsns bytes removed = deleteInsns bytes removed' := by
  have hany : removed.any (fun i => decide (bytes.length / 8 ≤ i)) =
      removed'.any fun i => decide (bytes.length / 8 ≤ i) := by
    rw [Bool.eq_iff_iff, List.any_eq_true, List.any_eq_true]
    simp only [hmem]
  unfold deleteInsns
  simp only [hany, newIndices_congr hmem]

/-- The encoder is only stopped by an instruction that it cannot encode. -/
theorem deleteInsns_unreachable (henc : ∀ insns, decodeProgram bytes = .ok insns → ∀ insn ∈ insns, (encode insn).isSome = true) :
    deleteInsns bytes removed ≠ .error .unreachable := by
  by_cases hdec : ∃ insns, decodeProgram bytes = .ok insns
  · obtain ⟨insns, hdec⟩ := hdec
    rw [deleteInsns_eq hdec]
    split
    · nofun
    · rcases fixChunks_cases (@indexesOf_newIndices removed insns.length) (Nat.zero_add _) with
        ⟨-, out, hout⟩ | ⟨j, insn, hget, -, -, ⟨-, -, -, hrun⟩ | ⟨hnone, -⟩⟩
      · rw [hout]
        nofun
      · rw [hrun]
        nofun
      · have := henc insns hdec insn (List.mem_of_getElem? hget)
        rw [hnone] at this
        cases this
  · rw [deleteInsns_undecoded fun insns hd => hdec ⟨insns, hd⟩]
    nofun

theorem deleteInsns_length (h : deleteInsns bytes removed = .ok out) :
    out.length = 8 * newPos removed (bytes.length / 8) := by
  obtain ⟨insns, slots, hdel, rfl⟩ := deleteInsns_ok.mp h
  have hlen := decodeProgram_length hdel.decodes
  have hcount := survivors_length removed 0 insns
  have hslots := hdel.encodes.length_eq
  have hzero : newPos removed 0 = 0 := rfl
  rw [hzero, Nat.zero_add, Nat.zero_add] at hcount
  rw [show bytes.length / 8 = insns.length by omega, hcount, hslots, slots_length]

end Delete

end Fixup

end RandVerifier
