/-
WireSolve/Field.lean

The prime field the wires take their values in.  An element of `Fp p` is its
canonical residue, a natural number below `p`; every operation reduces its
result, so equality of elements is equality of residues and the decimal text of
an element is the decimal text of that residue.

The only operation that looks at the shape of `p` is `Fp.inverse?`, which raises
to the power `p - 2`: for a prime `p` this is the inverse of every element but
zero.  `powMod` is the modular power it rests on, and the hints that work on
plain integers use it too.
-/
namespace WireSolve

/-- The power `a ^ e` modulo `m`, by repeated squaring of the base. -/
def powMod (m a e : Nat) : Nat :=
  if e = 0 then
    1 % m
  else if e % 2 = 0 then
    powMod m (a * a % m) (e / 2)
  else
    a * powMod m (a * a % m) (e / 2) % m
termination_by e

/-- A number to reduce by: it is not zero. -/
class Modulus (p : Nat) : Prop where
  /-- The number is positive. -/
  pos : 0 < p

instance (n : Nat) : Modulus (n + 1) := ⟨Nat.succ_pos n⟩

/-- An element of the field of order `p`, as its canonical residue. -/
structure Fp (p : Nat) where
  /-- The residue. -/
  val : Nat
  /-- The residue is canonical. -/
  isLt : val < p
  deriving DecidableEq

namespace Fp

variable {p : Nat}

@[ext] theorem ext {a b : Fp p} (h : a.val = b.val) : a = b := by
  cases a; cases b; cases h; rfl

/-- The decimal text of the canonical residue. -/
def text (a : Fp p) : String := toString a.val

variable [Modulus p]

/-- The residue class of a natural number. -/
def ofNat (n : Nat) : Fp p := ⟨n % p, Nat.mod_lt n Modulus.pos⟩

/-- The residue class of an integer. -/
def ofInt (z : Int) : Fp p := ofNat (z % (p : Int)).toNat

/-! ### Arithmetic -/

instance : Zero (Fp p) := ⟨ofNat 0⟩
instance : One (Fp p) := ⟨ofNat 1⟩
instance : Inhabited (Fp p) := ⟨0⟩
instance : Add (Fp p) := ⟨fun a b => ofNat (a.val + b.val)⟩
instance : Mul (Fp p) := ⟨fun a b => ofNat (a.val * b.val)⟩
instance : Neg (Fp p) := ⟨fun a => ofNat (p - a.val)⟩
instance : Sub (Fp p) := ⟨fun a b => ofNat (a.val + (p - b.val))⟩

/-- The inverse of an element other than zero, as its power with exponent `p - 2`. -/
def inverse? (a : Fp p) : Option (Fp p) :=
  if a = 0 then none else some (ofNat (powMod p a.val (p - 2)))

/-- The quotient of two elements; a quotient by zero is zero. -/
instance : Div (Fp p) := ⟨fun a b => a * b.inverse?.getD 0⟩

/-! ### Residues of the results -/

@[simp] theorem val_ofNat (n : Nat) : (ofNat n : Fp p).val = n % p := rfl
@[simp] theorem val_zero : (0 : Fp p).val = 0 := Nat.zero_mod p
@[simp] theorem val_one : (1 : Fp p).val = 1 % p := rfl
@[simp] theorem val_add (a b : Fp p) : (a + b).val = (a.val + b.val) % p := rfl
@[simp] theorem val_mul (a b : Fp p) : (a * b).val = a.val * b.val % p := rfl
@[simp] theorem val_neg (a : Fp p) : (-a).val = (p - a.val) % p := rfl
@[simp] theorem val_sub (a b : Fp p) : (a - b).val = (a.val + (p - b.val)) % p := rfl

@[simp] theorem ofNat_val (a : Fp p) : ofNat a.val = a :=
  Fp.ext (Nat.mod_eq_of_lt a.isLt)

end Fp

end WireSolve
