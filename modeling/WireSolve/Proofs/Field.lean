/-
WireSolve/Proofs/Field.lean

The residues form the field they are named for.

`Fp.toZMod` reads a residue in `ZMod p`; it is injective and commutes with every
operation, so `Fp p` is a commutative ring for every modulus.  For a prime the
power that `Fp.inverse?` computes is the inverse (Fermat), and `Fp p` is a field
whose division is the one that the solve uses.

Main results: `powMod_eq` (repeated squaring computes the power), and
`Fp.inverse?_eq_some_iff` (an element has an inverse exactly when it is not
zero, and then it is the field's inverse).
-/
import Mathlib.FieldTheory.Finite.Basic
import WireSolve.Field

namespace WireSolve

/-! ### Repeated squaring -/

/-- The recursion of `powMod` computes the power. -/
theorem powMod_eq (m a e : Nat) : powMod m a e = a ^ e % m := by
  induction e using Nat.strong_induction_on generalizing a with
  | _ e ih =>
    rw [powMod]
    split
    · next h0 => rw [h0, pow_zero]
    · next h0 =>
      have hlt : e / 2 < e := Nat.div_lt_self (Nat.pos_of_ne_zero h0) Nat.one_lt_two
      have hsquare : (a * a % m) ^ (e / 2) % m = a ^ (2 * (e / 2)) % m := by
        rw [← Nat.pow_mod, ← pow_two, ← pow_mul]
      split
      · next heven =>
        rw [ih _ hlt, hsquare, Nat.mul_div_cancel' (Nat.dvd_of_mod_eq_zero heven)]
      · next hodd =>
        have hsplit : e = 2 * (e / 2) + 1 := by omega
        rw [ih _ hlt, hsquare, ← Nat.mul_mod_mod, Nat.mod_mod, Nat.mul_mod_mod]
        conv_rhs => rw [hsplit, pow_succ']

/-- A power is one in `ZMod m` exactly if its residue is one. -/
theorem pow_eq_one_iff_powMod {m : Nat} (hm : 1 < m) (a e : Nat) :
    (a : ZMod m) ^ e = 1 ↔ powMod m a e = 1 := by
  rw [powMod_eq, ← Nat.cast_pow, ← Nat.cast_one, ZMod.natCast_eq_natCast_iff',
    Nat.mod_eq_of_lt hm]

namespace Fp

variable {p : Nat}

/-! ### Residues in `ZMod p` -/

/-- A residue as an element of `ZMod p`. -/
def toZMod (a : Fp p) : ZMod p := (a.val : ZMod p)

theorem toZMod_injective : Function.Injective (toZMod : Fp p → ZMod p) := by
  intro a b h
  have hmod : a.val % p = b.val % p := (ZMod.natCast_eq_natCast_iff' _ _ _).1 h
  rw [Nat.mod_eq_of_lt a.isLt, Nat.mod_eq_of_lt b.isLt] at hmod
  exact Fp.ext hmod

variable [Modulus p]

@[simp] theorem toZMod_ofNat (n : Nat) : (ofNat n : Fp p).toZMod = (n : ZMod p) :=
  ZMod.natCast_mod n p

@[simp] theorem toZMod_zero : (0 : Fp p).toZMod = 0 :=
  (toZMod_ofNat 0).trans Nat.cast_zero

@[simp] theorem toZMod_one : (1 : Fp p).toZMod = 1 :=
  (toZMod_ofNat 1).trans Nat.cast_one

@[simp] theorem toZMod_add (a b : Fp p) : (a + b).toZMod = a.toZMod + b.toZMod :=
  (toZMod_ofNat _).trans (Nat.cast_add _ _)

@[simp] theorem toZMod_mul (a b : Fp p) : (a * b).toZMod = a.toZMod * b.toZMod :=
  (toZMod_ofNat _).trans (Nat.cast_mul _ _)

@[simp] theorem toZMod_neg (a : Fp p) : (-a).toZMod = -a.toZMod := by
  refine (toZMod_ofNat _).trans ?_
  rw [Nat.cast_sub a.isLt.le, ZMod.natCast_self, zero_sub]
  rfl

@[simp] theorem toZMod_sub (a b : Fp p) : (a - b).toZMod = a.toZMod - b.toZMod := by
  refine (toZMod_ofNat _).trans ?_
  rw [Nat.cast_add, Nat.cast_sub b.isLt.le, ZMod.natCast_self, zero_sub, ← sub_eq_add_neg]
  rfl

/-! ### The ring -/

instance : NatCast (Fp p) := ⟨ofNat⟩
instance : IntCast (Fp p) := ⟨ofInt⟩
instance : SMul ℕ (Fp p) := ⟨fun n a => ofNat n * a⟩
instance : SMul ℤ (Fp p) := ⟨fun z a => ofInt z * a⟩
instance : Pow (Fp p) ℕ := ⟨fun a n => ofNat (a.val ^ n)⟩

@[simp] theorem toZMod_ofInt (z : Int) : (ofInt z : Fp p).toZMod = (z : ZMod p) := by
  have hp : (p : Int) ≠ 0 := Int.natCast_ne_zero.2 (Modulus.pos (p := p)).ne'
  have hcast : (((z % p).toNat : Int) : ZMod p) = ((z % p : Int) : ZMod p) := by
    rw [Int.toNat_of_nonneg (Int.emod_nonneg z hp)]
  refine (toZMod_ofNat _).trans ?_
  rw [← Int.cast_natCast, hcast, ZMod.intCast_mod]

instance : CommRing (Fp p) :=
  toZMod_injective.commRing toZMod toZMod_zero toZMod_one toZMod_add toZMod_mul toZMod_neg
    toZMod_sub
    (fun n a => by
      rw [nsmul_eq_mul, ← toZMod_ofNat]
      exact toZMod_mul _ a)
    (fun z a => by
      rw [zsmul_eq_mul, ← toZMod_ofInt]
      exact toZMod_mul _ a)
    (fun _ _ => (toZMod_ofNat _).trans (Nat.cast_pow _ _))
    toZMod_ofNat toZMod_ofInt

/-! ### The field -/

instance : Inv (Fp p) := ⟨fun a => a.inverse?.getD 0⟩

/-- An element has an inverse exactly when it is not zero. -/
theorem inverse?_eq_some_iff {a b : Fp p} : a.inverse? = some b ↔ a ≠ 0 ∧ b = a⁻¹ := by
  have hinv : a⁻¹ = a.inverse?.getD 0 := rfl
  rw [hinv, inverse?]
  by_cases ha : a = 0
  · simp [ha]
  · simp [ha, eq_comm]

theorem inverse?_eq_none_iff {a : Fp p} : a.inverse? = none ↔ a = 0 := by
  rw [inverse?]
  by_cases ha : a = 0 <;> simp [ha]

variable [Fact p.Prime]

/-- Fermat: for a prime, the computed power is an inverse of every element but zero. -/
theorem mul_ofNat_powMod {a : Fp p} (ha : a ≠ 0) : a * ofNat (powMod p a.val (p - 2)) = 1 := by
  apply toZMod_injective
  have hne : a.toZMod ≠ 0 := fun h => ha (toZMod_injective (h.trans toZMod_zero.symm))
  have htwo : p - 2 + 1 = p - 1 := by
    have := (Fact.out : p.Prime).two_le
    omega
  rw [toZMod_mul, toZMod_ofNat, powMod_eq, ZMod.natCast_mod, Nat.cast_pow, toZMod_one]
  change a.toZMod * a.toZMod ^ (p - 2) = 1
  rw [← pow_succ', htwo, ZMod.pow_card_sub_one_eq_one hne]

instance : Field (Fp p) where
  exists_pair_ne := by
    refine ⟨0, 1, fun h => ?_⟩
    have hzmod : (0 : ZMod p) = 1 := by
      rw [← toZMod_zero (p := p), h, toZMod_one]
    exact zero_ne_one hzmod
  div_eq_mul_inv _ _ := rfl
  mul_inv_cancel a ha := by
    -- the inverse is the power that is computed
    rw [← (inverse?_eq_some_iff.1 (if_neg ha)).2]
    exact mul_ofNat_powMod ha
  inv_zero := by
    change (inverse? (0 : Fp p)).getD 0 = 0
    rw [inverse?_eq_none_iff.2 rfl]
    rfl
  nnqsmul := _
  nnqsmul_def := fun _ _ => rfl
  qsmul := _
  qsmul_def := fun _ _ => rfl

theorem two_ne_zero (hp : p ≠ 2) : (2 : Fp p) ≠ 0 := by
  intro h
  have hmod : (ofNat 2 : Fp p).val = 0 := by
    rw [show (ofNat 2 : Fp p) = 2 from Nat.cast_ofNat, h, val_zero]
  have hdvd : p ∣ 2 := Nat.dvd_of_mod_eq_zero hmod
  exact hp ((Nat.prime_dvd_prime_iff_eq Fact.out Nat.prime_two).1 hdvd)

end Fp

/-! ### The field of order 17, in which the examples are computed -/

instance modulus_seventeen : Modulus 17 := ⟨by decide⟩

instance prime_seventeen : Fact (Nat.Prime 17) := ⟨by decide⟩

end WireSolve
