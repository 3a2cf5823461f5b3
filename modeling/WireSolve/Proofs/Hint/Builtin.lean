/-
WireSolve/Proofs/Hint/Builtin.lean

The hint functions compute in the field.

A quotient of `a` by `b` modulo `p` is a residue whose product with `b` is
congruent to `a`.  For a prime there is exactly one for each `b` that the prime
does not divide, and `div` and `invZero` find it: they multiply by the power with
exponent `p - 2`, which is the inverse by Fermat's little theorem.  The inputs
need not be reduced, and a divisor that is a multiple of the prime is told apart
by its remainder, not by its value.

The subtraction in the exponent needs a modulus of at least two.  It is reached
only with a remainder other than zero, and the modulus one has none.

Main results: `div_call` and `invZero_call` (what a call comes to, for every
modulus), and `fieldRules_and_neverFails`.
-/
import Mathlib.FieldTheory.Finite.Basic
import WireSolve.Hint.Builtin
import WireSolve.Proofs.Field

namespace WireSolve

namespace HintFunction

/-! ### What a call comes to -/

theorem remainder_eq_ok {m : Nat} (hm : 0 < m) (a : Nat) : remainder m a = .ok (a % m) :=
  if_neg hm.ne'

/-- A remainder other than zero leaves room for the exponent. -/
theorem inverse_eq_ok {m a : Nat} (hm : 0 < m) (ha : ¬m ∣ a) :
    inverse m (a % m) = .ok (a ^ (m - 2) % m) := by
  have hone : m ≠ 1 := fun h => ha (h ▸ one_dvd a)
  rw [inverse, if_neg (by omega), powMod_eq, ← Nat.pow_mod]

/-- A quotient is the product with the power; a divisor without an inverse leaves the output
as it is. -/
theorem div_call {m : Nat} (hm : 0 < m) (a b : Nat) (v : Vector Nat 1) :
    div.call m [a, b] v = .ok (if m ∣ b then v else #v[a * b ^ (m - 2) % m]) := by
  simp only [div, decide_true]
  rw [remainder_eq_ok hm]
  change (if b % m = 0 then _ else _) = _
  by_cases hb : m ∣ b
  · rw [if_pos (Nat.mod_eq_zero_of_dvd hb), if_pos hb]
    rfl
  · rw [if_neg (mt Nat.dvd_of_mod_eq_zero hb), if_neg hb, inverse_eq_ok hm hb]
    change (remainder m _).bind _ = _
    rw [remainder_eq_ok hm, Nat.mul_mod_mod]
    rfl

/-- An inverse is the power; a number without an inverse leaves the output as it is. -/
theorem invZero_call {m : Nat} (hm : 0 < m) (a : Nat) (v : Vector Nat 1) :
    invZero.call m [a] v = .ok (if m ∣ a then v else #v[a ^ (m - 2) % m]) := by
  simp only [invZero, decide_true]
  rw [remainder_eq_ok hm]
  change (if a % m = 0 then _ else _) = _
  by_cases ha : m ∣ a
  · rw [if_pos (Nat.mod_eq_zero_of_dvd ha), if_pos ha]
    rfl
  · rw [if_neg (mt Nat.dvd_of_mod_eq_zero ha), if_neg ha, inverse_eq_ok hm ha]
    rfl

theorem isZero_call (m a : Nat) (v : Vector Nat 1) :
    isZero.call m [a] v = .ok #v[if a = 0 then 1 else 0] :=
  rfl

/-! ### Quotients modulo a prime -/

/-- The number `q` is a quotient of `a` by `b` modulo `p`, as a residue. -/
structure IsQuotient (p a b q : Nat) : Prop where
  /-- The quotient is reduced. -/
  lt : q < p
  /-- Its product with the divisor is the dividend. -/
  modEq : q * b ≡ a [MOD p]

section Prime

variable {p : Nat} (hp : p.Prime)

include hp

/-- Fermat's little theorem, with the last factor split off. -/
theorem pow_mul_modEq_one {b : Nat} (hb : ¬p ∣ b) : b ^ (p - 2) * b ≡ 1 [MOD p] := by
  have hcoprime : b.Coprime p := ((Nat.Prime.coprime_iff_not_dvd hp).2 hb).symm
  have hexponent : p - 2 + 1 = p.totient := by
    have htwo := hp.two_le
    rw [Nat.totient_prime hp]
    omega
  rw [← pow_succ, hexponent]
  exact Nat.ModEq.pow_totient hcoprime

/-- The product with the power is a quotient. -/
theorem isQuotient_pow (a : Nat) {b : Nat} (hb : ¬p ∣ b) :
    IsQuotient p a b (a * b ^ (p - 2) % p) where
  lt := Nat.mod_lt _ hp.pos
  modEq := calc
    a * b ^ (p - 2) % p * b ≡ a * b ^ (p - 2) * b [MOD p] := (Nat.mod_modEq _ p).mul_right b
    _ = a * (b ^ (p - 2) * b) := mul_assoc ..
    _ ≡ a * 1 [MOD p] := (pow_mul_modEq_one hp hb).mul_left a
    _ = a := mul_one a

/-- Two quotients of the same numbers are the same. -/
theorem IsQuotient.unique {a b q r : Nat} (hb : ¬p ∣ b) (hq : IsQuotient p a b q)
    (hr : IsQuotient p a b r) : q = r := by
  have hcoprime : p.gcd b = 1 := (Nat.Prime.coprime_iff_not_dvd hp).2 hb
  have hmod : q ≡ r [MOD p] :=
    Nat.ModEq.cancel_right_of_coprime hcoprime (hq.modEq.trans hr.modEq.symm)
  exact hmod.eq_of_lt_of_lt hq.lt hr.lt

/-- There is one quotient by every number that the prime does not divide. -/
theorem isQuotient_iff (a : Nat) {b : Nat} (hb : ¬p ∣ b) (q : Nat) :
    IsQuotient p a b q ↔ q = a * b ^ (p - 2) % p := by
  constructor
  · intro hq
    exact hq.unique hp hb (isQuotient_pow hp a hb)
  · rintro rfl
    exact isQuotient_pow hp a hb

end Prime

/-! ### The field hints -/

/-- What the field hints write over a zero, for inputs of any size. -/
structure FieldRules (p : Nat) : Prop where
  /-- A quotient by a number that the modulus does not divide is the only one there is. -/
  div_of_not_dvd : ∀ a b, ¬p ∣ b → ∃ q, div.call p [a, b] #v[0] = .ok #v[q] ∧
    ∀ r, IsQuotient p a b r ↔ r = q
  /-- A quotient by a multiple of the modulus is zero. -/
  div_of_dvd : ∀ a b, p ∣ b → div.call p [a, b] #v[0] = .ok #v[0]
  /-- The inverse of a number that the modulus does not divide is the only one there is. -/
  invZero_of_not_dvd : ∀ a, ¬p ∣ a → ∃ q, invZero.call p [a] #v[0] = .ok #v[q] ∧
    ∀ r, IsQuotient p 1 a r ↔ r = q
  /-- The inverse of a multiple of the modulus is zero. -/
  invZero_of_dvd : ∀ a, p ∣ a → invZero.call p [a] #v[0] = .ok #v[0]
  /-- The inverse of the inverse is the residue of the number. -/
  invZero_invZero : ∀ a, ∃ q, invZero.call p [a] #v[0] = .ok #v[q] ∧
    invZero.call p [q] #v[0] = .ok #v[a % p]
  /-- A residue is zero or has an inverse. -/
  isZero_add : ∀ x < p, ∃ z q, isZero.call p [x] #v[0] = .ok #v[z] ∧
    invZero.call p [x] #v[0] = .ok #v[q] ∧ z + x * q ≡ 1 [MOD p]

/-- The calls of `div` and `invZero` with the inputs and the output that they expect come to an
end without an error, whatever the output holds before. -/
structure NeverFails (m : Nat) : Prop where
  /-- The quotient of two numbers. -/
  div : ∀ a b v, ∃ w : Vector Nat 1, div.call m [a, b] v = .ok w
  /-- The inverse of a number. -/
  invZero : ∀ a v, ∃ w : Vector Nat 1, invZero.call m [a] v = .ok w

theorem neverFails {m : Nat} (hm : 1 ≤ m) : NeverFails m where
  div a b v := ⟨_, div_call hm a b v⟩
  invZero a v := ⟨_, invZero_call hm a v⟩

section Prime

variable {p : Nat} (hp : p.Prime)

include hp

/-- The inverse is a quotient of one. -/
theorem invZero_call_of_not_dvd {a : Nat} (ha : ¬p ∣ a) :
    invZero.call p [a] #v[0] = .ok #v[1 * a ^ (p - 2) % p] := by
  rw [invZero_call hp.pos, if_neg ha, one_mul]

/-- The residue of a number is the inverse of its inverse. -/
theorem isQuotient_mod {a q : Nat} (hq : IsQuotient p 1 a q) : IsQuotient p 1 q (a % p) where
  lt := Nat.mod_lt _ hp.pos
  modEq := ((Nat.mod_modEq a p).mul_right q).trans (mul_comm a q ▸ hq.modEq)

/-- An inverse has an inverse. -/
theorem IsQuotient.not_dvd {a q : Nat} (hq : IsQuotient p 1 a q) : ¬p ∣ q := by
  intro hdvd
  have hzero : 1 ≡ 0 [MOD p] := hq.modEq.symm.trans ((hdvd.mul_right a).modEq_zero_nat)
  exact hp.one_lt.ne' (Nat.dvd_one.1 ((Nat.modEq_zero_iff_dvd).1 hzero))

theorem invZero_invZero (a : Nat) : ∃ q, invZero.call p [a] #v[0] = .ok #v[q] ∧
    invZero.call p [q] #v[0] = .ok #v[a % p] := by
  by_cases ha : p ∣ a
  · refine ⟨0, ?_, ?_⟩
    · rw [invZero_call hp.pos, if_pos ha]
    · rw [invZero_call hp.pos, if_pos (dvd_zero p), Nat.mod_eq_zero_of_dvd ha]
  · have hq := isQuotient_pow hp 1 ha
    have hback : a % p = _ := (isQuotient_iff hp 1 (hq.not_dvd hp) _).1 (isQuotient_mod hp hq)
    refine ⟨_, invZero_call_of_not_dvd hp ha, ?_⟩
    rw [invZero_call_of_not_dvd hp (hq.not_dvd hp), hback]

theorem isZero_add {x : Nat} (hx : x < p) : ∃ z q, isZero.call p [x] #v[0] = .ok #v[z] ∧
    invZero.call p [x] #v[0] = .ok #v[q] ∧ z + x * q ≡ 1 [MOD p] := by
  by_cases h0 : x = 0
  · subst h0
    refine ⟨1, 0, rfl, ?_, Nat.ModEq.refl 1⟩
    rw [invZero_call hp.pos, if_pos (dvd_zero p)]
  · have hdvd : ¬p ∣ x := Nat.not_dvd_of_pos_of_lt (Nat.pos_of_ne_zero h0) hx
    have hq := isQuotient_pow hp 1 hdvd
    refine ⟨0, _, ?_, invZero_call_of_not_dvd hp hdvd, ?_⟩
    · rw [isZero_call, if_neg h0]
    · rw [zero_add, mul_comm]
      exact hq.modEq

/-- For a prime, the hints are the operations of the field. -/
theorem fieldRules : FieldRules p where
  div_of_not_dvd a b hb := by
    refine ⟨_, ?_, isQuotient_iff hp a hb⟩
    rw [div_call hp.pos, if_neg hb]
  div_of_dvd a b hb := by rw [div_call hp.pos, if_pos hb]
  invZero_of_not_dvd a ha := ⟨_, invZero_call_of_not_dvd hp ha, isQuotient_iff hp 1 ha⟩
  invZero_of_dvd a ha := by rw [invZero_call hp.pos, if_pos ha]
  invZero_invZero := invZero_invZero hp
  isZero_add _ hx := isZero_add hp hx

end Prime

/-- Modulo every prime the hints are the operations of the field, and modulo every number other
than zero they come to an end. -/
theorem fieldRules_and_neverFails :
    (∀ p : Nat, p.Prime → FieldRules p) ∧ ∀ m, 1 ≤ m → NeverFails m :=
  ⟨fun _ => fieldRules, fun _ => neverFails⟩

/-- The theorem at work: thirty divided by unreduced numbers modulo 17, and the modulus one. -/
theorem fieldHints_seventeen : Nat.Prime 17 ∧ ¬17 ∣ 20 ∧
    (∃ q, div.call 17 [30, 20] #v[0] = .ok #v[q] ∧ ∀ r, IsQuotient 17 30 20 r ↔ r = q) ∧
    div.call 17 [30, 34] #v[0] = .ok #v[0] ∧ 1 ≤ 1 ∧
    ∃ w : Vector Nat 1, div.call 1 [30, 20] #v[5] = .ok w := by
  have hprime : Nat.Prime 17 := by decide
  have hrules := fieldRules_and_neverFails.1 17 hprime
  have hfails := fieldRules_and_neverFails.2 1 le_rfl
  exact ⟨hprime, by decide, hrules.div_of_not_dvd 30 20 (by decide),
    hrules.div_of_dvd 30 34 (by decide), le_rfl, hfails.div 30 20 #v[5]⟩

end HintFunction

end WireSolve
