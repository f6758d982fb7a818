/-
  RandVerifier.MapFds — the map file descriptors of a program's bytes (`patch_map_fds` and
  `referenced_map_fds` of `src/krun.rs`).

  The loader does not decode: it walks the slots, takes two at `0x18` and looks at the source
  nibble of the first. It stops when fewer than two slots are left, so a wide load in the last
  slot is not seen; the decoder rejects that one.

  Proved, for every byte string that the decoder accepts:
  - `referenced_fds`: the collected descriptors are those of the decoded map loads, each once,
    in the order of their first occurrence;
  - `decode_patched`: what is patched decodes to the program with the descriptors replaced;
  - `patched_bytes`: no byte but those of the immediates of such loads changes;
  - `map_fds_agree`: the three together.
-/

import RandVerifier.Fixup
import Mathlib.Data.List.Dedup

namespace RandVerifier

namespace MapFds

/-! ## The scanner -/

/-- A table of live descriptors. -/
abbrev FdTable := UInt32 → Option Int32

/-- `u32::from_le_bytes` of the immediate. -/
def immBits (s : Slot) : UInt32 := u32FromLe s.b4 s.b5 s.b6 s.b7

/-- The source nibble says that the immediate is a descriptor. -/
def isMapPseudo (s : Slot) : Bool :=
  let pseudo := (s.b1 >>> 4) &&& 0x0f
  pseudo == opcode.pseudoMapFd || pseudo == opcode.pseudoMapValue

/-- The immediate of a slot, overwritten with little-endian bytes. -/
def setImm (s : Slot) (real : Int32) : Slot :=
  let imm := real.toUInt32.toNat
  { s with
    b4 := UInt8.ofNat imm
    b5 := UInt8.ofNat (imm / 2 ^ 8)
    b6 := UInt8.ofNat (imm / 2 ^ 16)
    b7 := UInt8.ofNat (imm / 2 ^ 24) }

/-- The first slot of a wide load with its descriptor replaced. -/
def patchFirst (fds : FdTable) (s : Slot) : Slot :=
  if isMapPseudo s then
    match fds (immBits s) with
    | some real => setImm s real
    | none => s
  else s

/-- `patch_map_fds`, over the slots: two at a wide load, while two are left. -/
def patchSlots (fds : FdTable) : List Slot → List Slot
  | first :: second :: rest =>
    if first.b0 = opcode.ldImm64 then patchFirst fds first :: second :: patchSlots fds rest
    else first :: patchSlots fds (second :: rest)
  | short => short

def patchMapFds (insns : List UInt8) (fds : FdTable) : List UInt8 :=
  ((patchSlots fds (asChunks insns).1).map Slot.bytes).flatten ++ (asChunks insns).2

/-- Append a descriptor that is not there yet. -/
def pushFd (fds : List UInt32) (fd : UInt32) : List UInt32 := if fd ∈ fds then fds else fds ++ [fd]

/-- `referenced_map_fds`, over the slots, from the descriptors collected so far. -/
def collectFds : List UInt32 → List Slot → List UInt32
  | fds, first :: second :: rest =>
    if first.b0 = opcode.ldImm64 then
      collectFds (if isMapPseudo first then pushFd fds (immBits first) else fds) rest
    else collectFds fds (second :: rest)
  | fds, _ => fds

def referencedMapFds (insns : List UInt8) : List UInt32 := collectFds [] (asChunks insns).1

/-! ## The decoded program -/

/-- The descriptor of a map load. -/
def fdOf : BpfInsn → Option UInt32
  | .ldMapFd _ fd _ _ _ | .ldMapValue _ fd _ _ _ => some (UInt32.ofNat fd)
  | _ => none

/-- A descriptor after the substitution, as a 32-bit pattern. -/
def newFd (fds : FdTable) (fd : Nat) : Nat :=
  match fds (UInt32.ofNat fd) with
  | some real => real.toUInt32.toNat
  | none => fd

/-- An instruction with the descriptors that the table maps replaced. -/
def replaceFd (fds : FdTable) : BpfInsn → BpfInsn
  | .ldMapFd dst fd keySize valueSize mapType => .ldMapFd dst (newFd fds fd) keySize valueSize mapType
  | .ldMapValue dst fd offset keySize valueSize => .ldMapValue dst (newFd fds fd) offset keySize valueSize
  | insn => insn

section Wide

variable {fds : FdTable} {first second : Slot} {insn : BpfInsn}

theorem setImm_fields (s : Slot) (real : Int32) : (setImm s real).fields = { s.fields with imm := real } := by
  have hreal := real.toUInt32.toNat_lt
  have hbits : u32FromLe (setImm s real).b4 (setImm s real).b5 (setImm s real).b6 (setImm s real).b7 =
      real.toUInt32 := by
    rw [← UInt32.toNat_inj, u32FromLe_toNat]
    simp only [setImm, UInt8.toNat_ofNat']
    omega
  simp only [Slot.fields, hbits, Int32.toInt32_toUInt32]
  rfl

/-- A wide load is a map load just when its first slot has a map pseudo source; its
    descriptor is the immediate of that slot. -/
theorem fdOf_wide (h : parseLdImm64 first second = .ok insn) :
    fdOf insn = if isMapPseudo first then some (immBits first) else none := by
  dsimp only [parseLdImm64] at h
  obtain ⟨dst, -, h⟩ := bind_eq_ok.mp h
  have hpseudo : isMapPseudo first =
      (first.fields.src == opcode.pseudoMapFd || first.fields.src == opcode.pseudoMapValue) := rfl
  have hbits : immBits first = first.fields.imm.toUInt32 := rfl
  rw [hpseudo, hbits]
  unfold ldImm64Arm at h
  split_ifs at h with hoff hsec h0 h1 hhi h2 <;> cases h
  · rw [h0]
    rfl
  · rw [h1]
    simp [fdOf]
  · rw [h2]
    simp [fdOf, opcode.pseudoMapFd, opcode.pseudoMapValue]

theorem replaceFd_of_none (h : ∀ fd, fdOf insn = some fd → fds fd = none) : replaceFd fds insn = insn := by
  cases insn with
  | ldMapFd dst fd keySize valueSize mapType | ldMapValue dst fd offset keySize valueSize =>
    simp only [replaceFd, newFd, h (UInt32.ofNat fd) rfl]
  | _ => rfl

/-- Only the descriptor depends on the immediate of the first slot. -/
theorem ldImm64Arm_replace {dst : Reg} {src : UInt8} {lo hi : UInt32} {real : Int32}
    (hsrc : src = opcode.pseudoMapFd ∨ src = opcode.pseudoMapValue) (hreal : fds lo = some real)
    (h : ldImm64Arm dst src lo hi = .ok insn) : ldImm64Arm dst src real.toUInt32 hi = .ok (replaceFd fds insn) := by
  have hnew : newFd fds lo.toNat = real.toUInt32.toNat := by
    unfold newFd
    rw [UInt32.ofNat_toNat, hreal]
  have hne : ¬ src = 0 := by rcases hsrc with rfl | rfl <;> decide
  unfold ldImm64Arm at h ⊢
  rw [if_neg hne] at h ⊢
  by_cases hfd : src = opcode.pseudoMapFd
  · rw [if_pos hfd] at h ⊢
    split at h
    · cases h
    · rename_i hhi
      cases h
      rw [if_neg hhi, replaceFd, hnew]
  · have hvalue := hsrc.resolve_left hfd
    rw [if_neg hfd, if_pos hvalue] at h ⊢
    cases h
    rw [replaceFd, hnew]

/-- A patched wide load decodes to the load with its descriptor replaced. -/
theorem parse_patchFirst (h : parseLdImm64 first second = .ok insn) :
    parseLdImm64 (patchFirst fds first) second = .ok (replaceFd fds insn) := by
  have hfd := fdOf_wide h
  unfold patchFirst
  by_cases hpseudo : isMapPseudo first = true
  · rw [if_pos hpseudo] at hfd ⊢
    split
    · rename_i real hreal
      have hsrc : first.fields.src = opcode.pseudoMapFd ∨ first.fields.src = opcode.pseudoMapValue := by
        have hsplit := (Bool.or_eq_true _ _).mp hpseudo
        exact hsplit.imp eq_of_beq eq_of_beq
      unfold parseLdImm64 at h ⊢
      obtain ⟨dst, hdst, h⟩ := bind_eq_ok.mp h
      refine bind_eq_ok.mpr ⟨dst, by rw [setImm_fields]; exact hdst, ?_⟩
      split_ifs at h with hoff hsec
      rw [setImm_fields, if_neg hoff, if_neg hsec]
      exact ldImm64Arm_replace hsrc hreal h
    · rename_i hnone
      rw [replaceFd_of_none fun fd hsome => ?_]
      · exact h
      · rw [hfd] at hsome
        obtain rfl := Option.some.inj hsome
        exact hnone
  · rw [if_neg hpseudo] at hfd ⊢
    rw [replaceFd_of_none fun fd hsome => ?_]
    · exact h
    · rw [hfd] at hsome
      cases hsome

theorem patchFirst_code : (patchFirst fds first).b0 = first.b0 := by
  unfold patchFirst
  split
  · split <;> rfl
  · rfl

end Wide

/-! ## Single slots -/

section Program

variable {fds : FdTable} {remainder : List UInt8} {idx : Nat} {chunks : List Slot} {insns : List BpfInsn}
  {f : Fields} {insn : BpfInsn}

/-- A single slot is no map load: the encoding of a load is a wide one. -/
theorem parseFields_fd (h : parseFields f = .ok insn) : fdOf insn = none := by
  cases insn with
  | ldMapFd dst fd keySize valueSize mapType => exact absurd rfl (parseFields_narrow (parse_encode h rfl))
  | ldMapValue dst fd offset keySize valueSize => exact absurd rfl (parseFields_narrow (parse_encode h rfl))
  | _ => rfl

/-! ## The slots of a program -/

theorem collectFds_nodup {known : List UInt32} (h : known.Nodup) :
    (collectFds known chunks).Nodup := by
  fun_induction collectFds known chunks with
  | case1 known first second rest hcode ih =>
    refine ih ?_
    split
    · unfold pushFd
      split
      · exact h
      · rename_i hnew
        exact List.nodup_append.mpr ⟨h, List.nodup_singleton _, fun a ha b hb => by
          rw [List.mem_singleton.mp hb]
          rintro rfl
          exact hnew ha⟩
    · exact h
  | case2 known first second rest hcode ih => exact ih h
  | case3 => exact h

/-- The scanner collects the descriptors of the decoded loads after the known ones. -/
theorem collectFds_eq (h : decodeChunks remainder idx chunks = .ok insns) (known : List UInt32) :
    collectFds known chunks = (insns.filterMap fdOf).foldl pushFd known := by
  fun_induction decodeChunks remainder idx chunks generalizing insns known with
  | case1 idx hrem =>
    cases h
    rfl
  | case2 => cases h
  | case3 => cases h
  | case4 idx chunk hcode second rest ih =>
    obtain ⟨insn, hinsn, h₁⟩ := bind_eq_ok.mp h
    obtain ⟨tail, htail, h₂⟩ := bind_eq_ok.mp h₁
    cases h₂
    have hfd := fdOf_wide (mapError_eq_ok.mp hinsn)
    rw [collectFds, if_pos hcode, ih htail]
    split at hfd
    · rename_i hpseudo
      rw [if_pos hpseudo, List.filterMap_cons_some hfd, List.filterMap_cons_none rfl, List.foldl_cons]
    · rename_i hpseudo
      rw [if_neg hpseudo, List.filterMap_cons_none hfd, List.filterMap_cons_none rfl]
  | case5 idx chunk chunks hcode ih =>
    obtain ⟨insn, hinsn, h₁⟩ := bind_eq_ok.mp h
    obtain ⟨tail, htail, h₂⟩ := bind_eq_ok.mp h₁
    cases h₂
    rw [List.filterMap_cons_none (parseFields_fd (mapError_eq_ok.mp hinsn)), ← ih htail]
    cases chunks with
    | nil => rfl
    | cons second rest => rw [collectFds, if_neg hcode]

/-- Collecting each once in order is dropping the repetitions. -/
theorem foldl_pushFd (fds : List UInt32) : fds.foldl pushFd [] = fds.eraseDups := by
  induction fds using List.reverseRecOn with
  | nil => rfl
  | append_singleton fds fd ih =>
    rw [List.foldl_append, ih, List.eraseDups_append, List.foldl_cons, List.foldl_nil, pushFd]
    by_cases hmem : fd ∈ fds
    · simp [hmem, List.removeAll]
    · simp [hmem, List.removeAll, List.eraseDups_cons]

/-- The descriptors of the loads, each once, in the order of their first occurrence. -/
theorem referenced_fds {bytes : List UInt8} (h : decodeProgram bytes = .ok insns) :
    referencedMapFds bytes = (insns.filterMap fdOf).eraseDups ∧ (referencedMapFds bytes).Nodup := by
  refine ⟨?_, collectFds_nodup List.nodup_nil⟩
  rw [← foldl_pushFd]
  exact collectFds_eq h []

/-- The patched slots decode to the program with its descriptors replaced. -/
theorem decode_patchSlots (h : decodeChunks remainder idx chunks = .ok insns) :
    decodeChunks remainder idx (patchSlots fds chunks) = .ok (insns.map (replaceFd fds)) := by
  fun_induction decodeChunks remainder idx chunks generalizing insns with
  | case1 idx hrem =>
    cases h
    rw [patchSlots, decodeChunks, if_pos hrem]
    · rfl
    · simp
  | case2 => cases h
  | case3 => cases h
  | case4 idx chunk hcode second rest ih =>
    obtain ⟨insn, hinsn, h₁⟩ := bind_eq_ok.mp h
    obtain ⟨tail, htail, h₂⟩ := bind_eq_ok.mp h₁
    cases h₂
    have hwide := @parse_patchFirst fds _ _ _ (mapError_eq_ok.mp hinsn)
    rw [patchSlots, if_pos hcode, decodeChunks, if_pos (patchFirst_code.trans hcode)]
    simp only [hwide, ih htail]
    rfl
  | case5 idx chunk chunks hcode ih =>
    obtain ⟨insn, hinsn, h₁⟩ := bind_eq_ok.mp h
    obtain ⟨tail, htail, h₂⟩ := bind_eq_ok.mp h₁
    cases h₂
    have hparse := mapError_eq_ok.mp hinsn
    have hsame : replaceFd fds insn = insn := replaceFd_of_none fun fd hfd => by
      rw [parseFields_fd hparse] at hfd
      cases hfd
    have hcons : patchSlots fds (chunk :: chunks) = chunk :: patchSlots fds chunks := by
      cases chunks with
      | nil => rfl
      | cons second rest => rw [patchSlots, if_neg hcode]
    rw [hcons, List.map_cons, hsame]
    unfold decodeChunks
    rw [if_neg hcode, hparse, ih htail]
    rfl

theorem patchMapFds_slots {bytes : List UInt8} (h : decodeProgram bytes = .ok insns) :
    bytes = ((asChunks bytes).1.map Slot.bytes).flatten ∧
      patchMapFds bytes fds = ((patchSlots fds (asChunks bytes).1).map Slot.bytes).flatten := by
  have hrem : (asChunks bytes).2 = [] := (encode_decodeChunks h).1
  have hbytes := asChunks_bytes bytes
  unfold patchMapFds
  rw [hrem, List.append_nil] at hbytes ⊢
  exact ⟨hbytes.symm, rfl⟩

theorem decode_patched {bytes : List UInt8} (h : decodeProgram bytes = .ok insns) :
    decodeProgram (patchMapFds bytes fds) = .ok (insns.map (replaceFd fds)) := by
  have hrem : (asChunks bytes).2 = [] := (encode_decodeChunks h).1
  rw [(patchMapFds_slots h).2]
  unfold decodeProgram at h ⊢
  rw [Fixup.asChunks_flatten]
  dsimp only at h ⊢
  rw [hrem] at h
  exact decode_patchSlots h

/-! ## Bytes -/

/-- `i32::to_le_bytes`. -/
def leBytes (real : Int32) : List UInt8 :=
  let imm := real.toUInt32.toNat
  [UInt8.ofNat imm, UInt8.ofNat (imm / 2 ^ 8), UInt8.ofNat (imm / 2 ^ 16), UInt8.ofNat (imm / 2 ^ 24)]

/-- The instruction at a slot loads a descriptor that the table maps. -/
def Mapped (fds : FdTable) (insns : List BpfInsn) (i : Nat) (real : Int32) : Prop :=
  ∃ insn fd, insns[i]? = some insn ∧ fdOf insn = some fd ∧ fds fd = some real

theorem Mapped.cons {i : Nat} {real : Int32} (h : Mapped fds insns i real) : Mapped fds (insn :: insns) (i + 1) real := by
  obtain ⟨insn', fd, hget, hrest⟩ := h
  exact ⟨insn', fd, by rw [List.getElem?_cons_succ]; exact hget, hrest⟩

/-- A patched slot is the old one, or that of a mapped load with another immediate. -/
theorem patchSlots_get (h : decodeChunks remainder idx chunks = .ok insns) (i : Nat) :
    (patchSlots fds chunks)[i]? = chunks[i]? ∨
      ∃ s real, chunks[i]? = some s ∧ Mapped fds insns i real ∧ (patchSlots fds chunks)[i]? = some (setImm s real) := by
  fun_induction decodeChunks remainder idx chunks generalizing insns i with
  | case1 idx hrem => exact .inl rfl
  | case2 => cases h
  | case3 => cases h
  | case4 idx chunk hcode second rest ih =>
    obtain ⟨insn, hinsn, h₁⟩ := bind_eq_ok.mp h
    obtain ⟨tail, htail, h₂⟩ := bind_eq_ok.mp h₁
    cases h₂
    have hfd := fdOf_wide (mapError_eq_ok.mp hinsn)
    rw [patchSlots, if_pos hcode]
    cases i with
    | zero =>
      unfold patchFirst
      split
      · rename_i hpseudo
        rw [if_pos hpseudo] at hfd
        split
        · rename_i real hreal
          exact .inr ⟨chunk, real, rfl, ⟨insn, _, rfl, hfd, hreal⟩, rfl⟩
        · exact .inl rfl
      · exact .inl rfl
    | succ i =>
      cases i with
      | zero => exact .inl rfl
      | succ i =>
        simp only [List.getElem?_cons_succ]
        rcases ih htail i with hsame | ⟨s, real, hget, hmapped, hset⟩
        · exact .inl hsame
        · exact .inr ⟨s, real, hget, hmapped.cons.cons, hset⟩
  | case5 idx chunk chunks hcode ih =>
    obtain ⟨insn, hinsn, h₁⟩ := bind_eq_ok.mp h
    obtain ⟨tail, htail, h₂⟩ := bind_eq_ok.mp h₁
    cases h₂
    have hcons : patchSlots fds (chunk :: chunks) = chunk :: patchSlots fds chunks := by
      cases chunks with
      | nil => rfl
      | cons second rest => rw [patchSlots, if_neg hcode]
    rw [hcons]
    cases i with
    | zero => exact .inl rfl
    | succ i =>
      simp only [List.getElem?_cons_succ]
      rcases ih htail i with hsame | ⟨s, real, hget, hmapped, hset⟩
      · exact .inl hsame
      · exact .inr ⟨s, real, hget, hmapped.cons, hset⟩

end Program

/-- A byte of a slot stream is one of its slot. -/
theorem flatten_get (slots : List Slot) (j : Nat) :
    ((slots.map Slot.bytes).flatten)[j]? = slots[j / 8]?.bind fun s => s.bytes[j % 8]? := by
  induction slots generalizing j with
  | nil => rfl
  | cons s slots ih =>
    have hlen : s.bytes.length = 8 := rfl
    rw [List.map_cons, List.flatten_cons]
    by_cases hj : j < 8
    · rw [List.getElem?_append_left (by omega), Nat.div_eq_of_lt hj, Nat.mod_eq_of_lt hj]
      rfl
    · rw [List.getElem?_append_right (by omega), hlen, ih, show j / 8 = (j - 8) / 8 + 1 by omega,
        show j % 8 = (j - 8) % 8 by omega, List.getElem?_cons_succ]

theorem setImm_low {s : Slot} {real : Int32} {k : Nat} (hk : k < 4) : (setImm s real).bytes[k]? = s.bytes[k]? := by
  match k with
  | 0 | 1 | 2 | 3 => rfl

theorem setImm_high {s : Slot} {real : Int32} {k : Nat} (hk : k < 4) :
    (setImm s real).bytes[k + 4]? = (leBytes real)[k]? := by
  match k with
  | 0 | 1 | 2 | 3 => rfl

/-- A byte stays, or it is one of the new immediate of a mapped load. -/
theorem patched_bytes {fds : FdTable} {bytes : List UInt8} {insns : List BpfInsn} (h : decodeProgram bytes = .ok insns)
    (j : Nat) : (patchMapFds bytes fds)[j]? = bytes[j]? ∨
      ∃ real, Mapped fds insns (j / 8) real ∧ 4 ≤ j % 8 ∧
        (patchMapFds bytes fds)[j]? = (leBytes real)[j % 8 - 4]? := by
  obtain ⟨hbytes, hpatched⟩ := @patchMapFds_slots fds _ _ h
  rw [hpatched]
  conv => lhs; rhs; rw [hbytes]
  rw [flatten_get, flatten_get]
  rcases @patchSlots_get fds _ _ _ _ h (j / 8) with hsame | ⟨s, real, hget, hmapped, hset⟩
  · exact .inl (by rw [hsame])
  · rw [hget, hset]
    by_cases hlow : j % 8 < 4
    · exact .inl (setImm_low hlow)
    · refine .inr ⟨real, hmapped, by omega, ?_⟩
      have hhigh := @setImm_high s real (j % 8 - 4) (by omega)
      rw [show j % 8 - 4 + 4 = j % 8 by omega] at hhigh
      exact hhigh

theorem patched_length {fds : FdTable} (bytes : List UInt8) : (patchMapFds bytes fds).length = bytes.length := by
  have hslots (slots : List Slot) : (patchSlots fds slots).length = slots.length := by
    fun_induction patchSlots fds slots with
    | case1 first second rest hcode ih => simp [ih]
    | case2 first second rest hcode ih => simp [ih]
    | case3 => rfl
  conv => rhs; rw [← asChunks_bytes bytes]
  rw [patchMapFds, List.length_append, List.length_append, Fixup.slots_length, Fixup.slots_length,
    hslots]

/-- On what the decoder accepts, the scanner collects the descriptors of the map loads, each
    once and in order; and what it patches is the program with the mapped descriptors
    replaced, in no byte but those of their immediates. -/
theorem map_fds_agree (bytes : List UInt8) (insns : List BpfInsn) (h : decodeProgram bytes = .ok insns) (fds : FdTable) :
    (referencedMapFds bytes = (insns.filterMap fdOf).eraseDups ∧ (referencedMapFds bytes).Nodup) ∧
    decodeProgram (patchMapFds bytes fds) = .ok (insns.map (replaceFd fds)) ∧
    (patchMapFds bytes fds).length = bytes.length ∧
    ∀ j, (patchMapFds bytes fds)[j]? = bytes[j]? ∨ ∃ real, Mapped fds insns (j / 8) real ∧ 4 ≤ j % 8 ∧
      (patchMapFds bytes fds)[j]? = (leBytes real)[j % 8 - 4]? :=
  ⟨referenced_fds h, decode_patched h, patched_length bytes, patched_bytes h⟩

/-- A map load, a value load whose second slot looks like a wide opcode's offset, and an exit. -/
def twoLoads : List UInt8 :=
  [0x18, 0x11, 0, 0, 3, 0, 0, 0, 0, 0, 0, 0, 0, 0, 0, 0, 0x18, 0x22, 0, 0, 3, 0, 0, 0, 0, 0, 0, 0, 0x18, 0x11, 0, 0,
    0x95, 0, 0, 0, 0, 0, 0, 0]

theorem map_fds_agree_loads :
    referencedMapFds twoLoads = [3] ∧
    decodeProgram (patchMapFds twoLoads fun fd => if fd = 3 then some (-1) else none) =
      .ok [.ldMapFd 1 0xffffffff 0 0 0, .ldImm64Second 0, .ldMapValue 2 0xffffffff 0x1118 0 0, .ldImm64Second 0x1118,
        .exit] := by
  have hdecode : decodeProgram twoLoads = .ok [.ldMapFd 1 3 0 0 0, .ldImm64Second 0, .ldMapValue 2 3 0x1118 0 0,
      .ldImm64Second 0x1118, .exit] := by decide +kernel
  obtain ⟨⟨hfds, -⟩, hpatch, -⟩ := map_fds_agree twoLoads _ hdecode fun fd => if fd = 3 then some (-1) else none
  rw [hfds, hpatch]
  exact ⟨by decide +kernel, by decide +kernel⟩

end MapFds

end RandVerifier
