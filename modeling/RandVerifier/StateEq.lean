/-
  RandVerifier.StateEq — the state comparison of the pruning (`src/state_eq.rs`).

  A comparison threads one id map through every register and spill. The source's
  `&mut IdMap` is an argument and a result here; a failed check ends the comparison, so
  the map it leaves behind is not observed and the result is an `Option`.
-/

import RandVerifier.Liveness

namespace RandVerifier

inductive ExactLevel where
  | notExact
  | exact
  deriving DecidableEq, Repr

/-! ## Ids -/

/-- Pairs (explored id, current id) in the order they were added, and the counter of the
    temporary ids. -/
structure IdMap where
  pairs : List (Nat × Nat)
  tmpIdGen : Nat
  deriving DecidableEq, Repr

def IdMap.default : IdMap := ⟨[], 0⟩

/-- The scan of the pairs: the first one that mentions either id decides. -/
def lookupIds (pairs : List (Nat × Nat)) (oldId curId : Nat) : Option Bool :=
  match pairs with
  | [] => none
  | (old, cur) :: rest =>
    if old = oldId then some (cur == curId)
    else if cur = curId then some false
    else lookupIds rest oldId curId

def checkIds (idmap : IdMap) (oldId curId : Nat) : Option IdMap :=
  if (oldId = 0) ≠ (curId = 0) then none
  else if oldId = 0 then some idmap
  else match lookupIds idmap.pairs oldId curId with
    | some true => some idmap
    | some false => none
    | none => some { idmap with pairs := idmap.pairs ++ [(oldId, curId)] }

/-- An independent old scalar accepts any id; an independent current one gets a temporary
    id. -/
def checkScalarIds (idmap : IdMap) (oldId curId : Nat) : Option IdMap :=
  if oldId = 0 then some idmap
  else if curId = 0 then
    checkIds { idmap with tmpIdGen := idmap.tmpIdGen + 1 } oldId (idmap.tmpIdGen + 1)
  else checkIds idmap oldId curId

/-! ## Registers -/

/-- Whether the explored scalar contains the current one in every view. -/
def scalarRangeWithin (old new : ScalarBounds) : Bool :=
  decide (old.smin ≤ new.smin) && decide (new.smax ≤ old.smax) &&
  decide (old.umin ≤ new.umin) && decide (new.umax ≤ old.umax) &&
  decide (old.s32Min ≤ new.s32Min) && decide (new.s32Max ≤ old.s32Max) &&
  decide (old.u32Min ≤ new.u32Min) && decide (new.u32Max ≤ old.u32Max) &&
  old.tnum.subsumes new.tnum

/-- Scalar equality without the precision bit and the link data. -/
def scalarBoundsExact (a b : ScalarBounds) : Bool :=
  a.smin == b.smin && a.smax == b.smax && a.umin == b.umin && a.umax == b.umax &&
  a.s32Min == b.s32Min && a.s32Max == b.s32Max && a.u32Min == b.u32Min && a.u32Max == b.u32Max &&
  a.tnum == b.tnum

def regsExact (old new : RegState) : Bool :=
  match old, new with
  | .uninit, .uninit => true
  | .scalar a, .scalar b => scalarBoundsExact a b
  | .ptrToStack lo hi al fr, .ptrToStack lo' hi' al' fr' =>
    lo == lo' && hi == hi' && al == al' && fr == fr'
  | .ptrToCtx a, .ptrToCtx b => a == b
  | .ptrToMap k v _, .ptrToMap k' v' _ => k == k' && v == v'
  | .ptrToMapValue lo hi al sz _, .ptrToMapValue lo' hi' al' sz' _ =>
    lo == lo' && hi == hi' && al == al' && sz == sz'
  | .ptrToMapValueOrNull sz _, .ptrToMapValueOrNull sz' _ => sz == sz'
  | _, _ => false

/-- The id part of an exact comparison. -/
def checkRegIds (idmap : IdMap) (old new : RegState) : Option IdMap :=
  match old, new with
  | .scalar a, .scalar b => checkScalarIds idmap a.id b.id
  | .ptrToMapValue _ _ _ _ a, .ptrToMapValue _ _ _ _ b => checkIds idmap a b
  | .ptrToMapValueOrNull _ a, .ptrToMapValueOrNull _ b => checkIds idmap a b
  | .ptrToMem _ _ _ a _, .ptrToMem _ _ _ b _ => checkIds idmap a b
  | .ptrToMemOrNull a ap _, .ptrToMemOrNull b bp _ =>
    (checkIds idmap a b).bind fun m => checkIds m ap bp
  | .ptrToBtfId _ a, .ptrToBtfId _ b => checkIds idmap a b
  | _, _ => some idmap

def guardMap (c : Bool) (idmap : Option IdMap) : Option IdMap := if c then idmap else none

/-- Whether the explored register being safe implies that the current one is, at
    `NotExact`. -/
def regsafeNotExact (old new : RegState) (idmap : IdMap) : Option IdMap :=
  match old, new with
  | .uninit, _ => some idmap
  | .scalar a, .scalar b =>
    -- an imprecise explored scalar matches any current one
    if a.precise = false then some idmap
    else guardMap ((a.delta == b.delta || a.id == 0) && scalarRangeWithin a b)
      (checkScalarIds idmap a.id b.id)
  | .ptrToStack .., .ptrToStack .. => guardMap (old == new) (some idmap)
  | .ptrToCtx a, .ptrToCtx b => guardMap (a == b) (some idmap)
  | .ptrToMap .., .ptrToMap .. => guardMap (old == new) (some idmap)
  | .ptrToMapValue lo hi al sz a, .ptrToMapValue lo' hi' al' sz' b =>
    guardMap (sz == sz' && decide (lo ≤ lo') && decide (hi' ≤ hi) && (al == al' || al == alignUnknown))
      (checkIds idmap a b)
  | .ptrToMapValueOrNull sz a, .ptrToMapValueOrNull sz' b => guardMap (sz == sz') (checkIds idmap a b)
  -- the alignments of two buffers are not compared
  | .ptrToMem lo hi _ a ap, .ptrToMem lo' hi' _ b bp =>
    guardMap (decide (lo ≤ lo') && decide (hi' ≤ hi))
      ((checkIds idmap a b).bind fun m => checkIds m ap bp)
  | .ptrToMemOrNull a ap sz, .ptrToMemOrNull b bp sz' =>
    guardMap (sz == sz') ((checkIds idmap a b).bind fun m => checkIds m ap bp)
  | .ptrToBtfId t a, .ptrToBtfId t' b => guardMap (t == t') (checkIds idmap a b)
  | _, _ => none

def regsafe (old new : RegState) (level : ExactLevel) (idmap : IdMap) : Option IdMap :=
  match level with
  | .exact => guardMap (regsExact old new) (checkRegIds idmap old new)
  | .notExact => regsafeNotExact old new idmap

/-! ## Stacks -/

/-- The 32-bit view of a scalar, as a scalar. -/
def ScalarBounds.view32 (b : ScalarBounds) : ScalarBounds :=
  { b with
    smin := b.s32Min.toInt64, smax := b.s32Max.toInt64
    umin := b.u32Min.toUInt64, umax := b.u32Max.toUInt64
    tnum := b.tnum.subreg }

/-- Whether the bytes of a slot from `im` to its end are all `b`. -/
def StackState.slotAllFrom (s : StackState) (slot im : Nat) (b : StackByte) : Bool :=
  allIn (slot * 8 + im) (slot * 8 + 7) fun i => s.bytes i == b

/-- The scalar a load at the 64-bit (`im = 0`) or 32-bit (`im = 4`) boundary yields: the
    spilled scalar or its 32-bit view, an unbound one for unknown bytes. -/
def fakeScalarForStack (stack : StackState) (spi im : Nat) : Option RegState :=
  if stack.slotAllFrom spi im .spill then
    match stack.spilled spi with
    | some (.scalar b) => some (.scalar (if im = 0 then b else b.view32))
    | _ => none
  else if stack.slotAllFrom spi im .misc then some (.scalar .unknown)
  else none

/-- The scalars both stacks yield at a 64- or 32-bit boundary. -/
def fakePair (old new : StackState) (i : Nat) : Option (RegState × RegState) :=
  if i % 8 = 0 ∨ i % 8 = 4 then
    match fakeScalarForStack old (i / 8) (i % 8), fakeScalarForStack new (i / 8) (i % 8) with
    | some o, some c => some (o, c)
    | _, _ => none
  else none

/-- The comparison at the last byte of a slot: dynptrs agree, spilled registers are safe. -/
def slotEndSafe (old new : StackState) (level : ExactLevel) (i : Nat) (idmap : IdMap) :
    Option IdMap :=
  if i % 8 ≠ 7 then some idmap
  else if old.bytes i = .dynptr then guardMap (old.dynptr (i / 8) == new.dynptr (i / 8)) (some idmap)
  else if old.bytes i = .spill then
    match old.spilled (i / 8), new.spilled (i / 8) with
    | none, _ => some idmap
    | some _, none => none
    | some o, some c => regsafe o c level idmap
  else some idmap

/-- One round of the walk at byte `i`: the map, and how many bytes it consumes. -/
def stackByteSafe (old new : StackState) (level : ExactLevel) (i : Nat) (idmap : IdMap) :
    Option (IdMap × Nat) :=
  if level = .exact ∧ old.bytes i ≠ new.bytes i then none
  -- the explored state never used this byte
  else if old.bytes i = .invalid then some (idmap, 1)
  else match fakePair old new i with
    | some (o, c) => (regsafe o c level idmap).map (·, if i % 8 = 0 then 8 else 4)
    | none =>
      if old.bytes i = .misc ∧ new.bytes i = .zero then some (idmap, 1)
      else if old.bytes i ≠ new.bytes i then none
      else (slotEndSafe old new level i idmap).map (·, 1)

/-- The walk over the bytes from `i`; every round consumes at least one. -/
def stacksafeFrom (old new : StackState) (level : ExactLevel) : Nat → Nat → IdMap → Option IdMap
  | 0, _, idmap => some idmap
  | fuel + 1, i, idmap =>
    if stackSize ≤ i then some idmap
    else (stackByteSafe old new level i idmap).bind fun (m, n) =>
      stacksafeFrom old new level fuel (i + n) m

/-- Whether the explored stack being safe implies that the current one is. -/
def stacksafe (old new : StackState) (level : ExactLevel) (idmap : IdMap) : Option IdMap :=
  stacksafeFrom old new level stackSize 0 idmap

/-! ## States -/

/-- Compare the registers that the mask selects, in order. -/
def regsSafe (old new : Regs) (level : ExactLevel) (select : Reg → Bool) (idmap : IdMap) :
    Option IdMap :=
  (List.finRange 11).foldlM (fun m r =>
    if select r then regsafe (old r) (new r) level m else some m) idmap

/-- Compare the held references, in order. -/
def refsSafe (old new : VerifierState) (idmap : IdMap) : Option IdMap :=
  (List.range old.refsCnt).foldlM (fun m i => checkIds m (old.refs i) (new.refs i)) idmap

/-- Compare the saved frames at one depth; the return addresses are not compared. -/
def savedSafe (old new : Option FrameState) (level : ExactLevel) (idmap : IdMap) : Option IdMap :=
  match old, new with
  | none, none => some idmap
  | some a, some b => do
    let m ← regsSafe a.regs b.regs level (fun _ => true) idmap
    stacksafe a.stack b.stack level m
  | _, _ => none

/-- The comparison with the id map it ends with. -/
def statesEqualMap (old new : VerifierState) (level : ExactLevel) (liveRegs : RegMask) :
    Option IdMap := do
  if old.curframe ≠ new.curframe ∨ old.refsCnt ≠ new.refsCnt then none
  else
    let m ← refsSafe old new .default
    let m ← regsSafe old.regs new.regs level (fun r => liveRegs.getLsbD r.val) m
    let m ← stacksafe old.stack new.stack level m
    (List.range (maxCallFrames - 1)).foldlM (fun m i => savedSafe (old.saved i) (new.saved i) level m) m

def statesEqual (old new : VerifierState) (level : ExactLevel) (liveRegs : RegMask) : Bool :=
  (statesEqualMap old new level liveRegs).isSome

/-- Reset the dead registers, except R10, and the dead stack slots of the current frame. -/
def cleanState (st : VerifierState) (liveRegs : RegMask) (liveStack : SlotMask) : VerifierState :=
  let dead (slot : Nat) : Bool := slot < stackSlots && !liveStack.getLsbD slot
  { st with
    regs := fun r => if r ≠ 10 ∧ liveRegs.getLsbD r.val = false then .uninit else st.regs r
    stack :=
      { bytes := fun i => if dead (i / 8) then .invalid else st.stack.bytes i
        spilled := fun slot => if dead slot then none else st.stack.spilled slot
        dynptr := fun slot => if dead slot then none else st.stack.dynptr slot } }

/-- The prefilter of the infinite-loop detection. -/
def statesMaybeLooping (old new : VerifierState) : Bool :=
  old.refsCnt == new.refsCnt && (List.finRange 11).all fun r => regsExact (old.regs r) (new.regs r)

end RandVerifier
