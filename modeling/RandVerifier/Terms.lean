/-
  RandVerifier.Terms — bit-vector terms and their standard semantics.

  A term has a kind, bits of some width or a truth value. `eval` gives it the value that the
  theory of fixed-size bit vectors gives it under an assignment of its variables: sums and
  products wrap, a shift by the width or more leaves no bit of the word (the sign when
  arithmetic), `extract hi lo` keeps the bits from `lo` to `hi`.

  Here are the semantics, and how the pieces of a word widened by one bit read as numbers
  (`extract_carry`, `extract_low`), which is how a carry is tested.
-/

import Mathlib.Data.Nat.Bitwise

namespace RandVerifier.Terms

inductive Kind where
  | bits (w : Nat)
  | truth

@[reducible]
def Kind.Value : Kind → Type
  | .bits w => BitVec w
  | .truth => Bool

inductive BinOp where
  | add | sub | mul | and | or | xor | shl | lshr | ashr

def BinOp.apply {w : Nat} (op : BinOp) (x y : BitVec w) : BitVec w :=
  match op with
  | .add => x + y
  | .sub => x - y
  | .mul => x * y
  | .and => x &&& y
  | .or => x ||| y
  | .xor => x ^^^ y
  | .shl => x <<< y.toNat
  | .lshr => x >>> y.toNat
  | .ashr => x.sshiftRight y.toNat

inductive CmpOp where
  | eq | ult | ule | ugt | uge

def CmpOp.apply {w : Nat} (op : CmpOp) (x y : BitVec w) : Bool :=
  match op with
  | .eq => x == y
  | .ult => x.toNat < y.toNat
  | .ule => x.toNat ≤ y.toNat
  | .ugt => y.toNat < x.toNat
  | .uge => y.toNat ≤ x.toNat

inductive Term : Kind → Type where
  | const {w : Nat} (v : BitVec w) : Term (.bits w)
  | var (w : Nat) (name : String) : Term (.bits w)
  | bvnot {w : Nat} (x : Term (.bits w)) : Term (.bits w)
  | bin {w : Nat} (op : BinOp) (x y : Term (.bits w)) : Term (.bits w)
  | zeroExt {w : Nat} (x : Term (.bits w)) (k : Nat) : Term (.bits (w + k))
  | extract {w : Nat} (x : Term (.bits w)) (hi lo : Nat) : Term (.bits (hi - lo + 1))
  | cmp {w : Nat} (op : CmpOp) (x y : Term (.bits w)) : Term .truth
  | bool (b : Bool) : Term .truth
  | and (p q : Term .truth) : Term .truth
  | not (p : Term .truth) : Term .truth
  | ite {k : Kind} (p : Term .truth) (x y : Term k) : Term k

/-- An assignment: a word for every variable and width. -/
abbrev Env := (w : Nat) → String → BitVec w

namespace Term

def eval (env : Env) : {k : Kind} → Term k → k.Value
  | _, const v => v
  | _, var w name => env w name
  | _, bvnot x => ~~~(x.eval env)
  | _, bin op x y => op.apply (x.eval env) (y.eval env)
  | _, zeroExt x k => (x.eval env).setWidth (_ + k)
  | _, extract x hi lo => (x.eval env).extractLsb hi lo
  | _, cmp op x y => op.apply (x.eval env) (y.eval env)
  | _, bool b => b
  | _, and p q => p.eval env && q.eval env
  | _, not p => !p.eval env
  | _, ite p x y => if p.eval env = true then x.eval env else y.eval env

/-- The formula holds under the assignment. -/
def Holds (p : Term .truth) (env : Env) : Prop := p.eval env = true

instance (p : Term .truth) (env : Env) : Decidable (p.Holds env) := inferInstanceAs (Decidable (_ = true))

variable {w : Nat}

def bvadd (x y : Term (.bits w)) : Term (.bits w) := bin .add x y

def bvsub (x y : Term (.bits w)) : Term (.bits w) := bin .sub x y

def bvmul (x y : Term (.bits w)) : Term (.bits w) := bin .mul x y

def bvand (x y : Term (.bits w)) : Term (.bits w) := bin .and x y

def bvor (x y : Term (.bits w)) : Term (.bits w) := bin .or x y

def bvxor (x y : Term (.bits w)) : Term (.bits w) := bin .xor x y

def bvshl (x y : Term (.bits w)) : Term (.bits w) := bin .shl x y

def bvlshr (x y : Term (.bits w)) : Term (.bits w) := bin .lshr x y

def bvashr (x y : Term (.bits w)) : Term (.bits w) := bin .ashr x y

def eq (x y : Term (.bits w)) : Term .truth := cmp .eq x y

def bvult (x y : Term (.bits w)) : Term .truth := cmp .ult x y

def bvule (x y : Term (.bits w)) : Term .truth := cmp .ule x y

def bvugt (x y : Term (.bits w)) : Term .truth := cmp .ugt x y

def bvuge (x y : Term (.bits w)) : Term .truth := cmp .uge x y

variable {env : Env} {x y : Term (.bits w)}

@[simp] theorem eval_const (v : BitVec w) : (const v).eval env = v := rfl

@[simp] theorem eval_var (name : String) : (var w name).eval env = env w name := rfl

@[simp] theorem eval_bvnot : x.bvnot.eval env = ~~~(x.eval env) := rfl

@[simp] theorem eval_bvadd : (x.bvadd y).eval env = x.eval env + y.eval env := rfl

@[simp] theorem eval_bvsub : (x.bvsub y).eval env = x.eval env - y.eval env := rfl

@[simp] theorem eval_bvmul : (x.bvmul y).eval env = x.eval env * y.eval env := rfl

@[simp] theorem eval_bvand : (x.bvand y).eval env = x.eval env &&& y.eval env := rfl

@[simp] theorem eval_bvor : (x.bvor y).eval env = x.eval env ||| y.eval env := rfl

@[simp] theorem eval_bvxor : (x.bvxor y).eval env = x.eval env ^^^ y.eval env := rfl

@[simp] theorem eval_bvshl : (x.bvshl y).eval env = x.eval env <<< (y.eval env).toNat := rfl

@[simp] theorem eval_bvlshr : (x.bvlshr y).eval env = x.eval env >>> (y.eval env).toNat := rfl

@[simp] theorem eval_bvashr : (x.bvashr y).eval env = (x.eval env).sshiftRight (y.eval env).toNat := rfl

@[simp] theorem eval_zeroExt (k : Nat) : (x.zeroExt k).eval env = (x.eval env).setWidth (w + k) := rfl

@[simp] theorem eval_extract (hi lo : Nat) : (x.extract hi lo).eval env = (x.eval env).extractLsb hi lo := rfl

@[simp] theorem holds_bool (b : Bool) : (bool b).Holds env ↔ b = true := Iff.rfl

@[simp] theorem holds_eq : (x.eq y).Holds env ↔ x.eval env = y.eval env := beq_iff_eq

@[simp] theorem holds_bvult : (x.bvult y).Holds env ↔ (x.eval env).toNat < (y.eval env).toNat :=
  decide_eq_true_iff

@[simp] theorem holds_bvule : (x.bvule y).Holds env ↔ (x.eval env).toNat ≤ (y.eval env).toNat :=
  decide_eq_true_iff

@[simp] theorem holds_bvugt : (x.bvugt y).Holds env ↔ (y.eval env).toNat < (x.eval env).toNat :=
  decide_eq_true_iff

@[simp] theorem holds_bvuge : (x.bvuge y).Holds env ↔ (y.eval env).toNat ≤ (x.eval env).toNat :=
  decide_eq_true_iff

@[simp] theorem holds_and {p q : Term .truth} : (p.and q).Holds env ↔ p.Holds env ∧ q.Holds env :=
  Bool.and_eq_true_iff

@[simp] theorem holds_not {p : Term .truth} : p.not.Holds env ↔ ¬ p.Holds env := by
  show (!p.eval env) = true ↔ ¬ p.eval env = true
  simp

@[simp] theorem eval_ite {k : Kind} {p : Term .truth} {s t : Term k} :
    (ite p s t).eval env = if p.Holds env then s.eval env else t.eval env := rfl

end Term

/-! ## Satisfiability -/

/-- No assignment meets all the asserted formulas. -/
def Unsat (asserted : List (Term .truth)) : Prop :=
  ¬ ∃ env : Env, ∀ p ∈ asserted, p.Holds env

/-! ## A word widened by one bit -/

variable {w : Nat}

theorem toNat_extract_carry (x : BitVec (w + 1)) : (x.extractLsb w w).toNat = x.toNat / 2 ^ w := by
  have hlt := x.isLt
  rw [BitVec.extractLsb_toNat, Nat.shiftRight_eq_div_pow, Nat.sub_self]
  exact Nat.mod_eq_of_lt (Nat.div_lt_of_lt_mul (by rw [← Nat.pow_succ]; exact hlt))

/-- The top bits of two words agree when their carries do. -/
theorem extract_carry {x y : BitVec (w + 1)} :
    x.extractLsb w w = y.extractLsb w w ↔ x.toNat / 2 ^ w = y.toNat / 2 ^ w := by
  rw [← toNat_extract_carry, ← toNat_extract_carry, BitVec.toNat_inj]

/-- The top bit is clear when there is no carry. -/
theorem extract_no_carry {x : BitVec (w + 1)} : x.extractLsb w w = 0 ↔ x.toNat < 2 ^ w := by
  rw [← BitVec.toNat_inj, toNat_extract_carry, ← Nat.div_eq_zero_iff_lt (Nat.two_pow_pos w)]
  rfl

theorem toNat_widen (x : BitVec w) : (x.setWidth (w + 1)).toNat = x.toNat := by
  rw [BitVec.toNat_setWidth, Nat.mod_eq_of_lt]
  exact Nat.lt_of_lt_of_le x.isLt (Nat.pow_le_pow_right (by omega) (by omega))

/-- A sum of two widened words does not wrap. -/
theorem toNat_widen_add (x y : BitVec w) :
    (x.setWidth (w + 1) + y.setWidth (w + 1)).toNat = x.toNat + y.toNat := by
  have hx := x.isLt
  have hy := y.isLt
  rw [BitVec.toNat_add, toNat_widen, toNat_widen, Nat.mod_eq_of_lt]
  rw [Nat.pow_succ]
  omega

end RandVerifier.Terms
