/-
WireSolve/Proofs/Hint/Id.lean

Names that differ in one byte have different numbers.

A step of the hash loses nothing: the multiplier has an inverse modulo `2 ^ 32`, and the
exclusive or with a byte is its own inverse (`HintId.release`).  So as long as the bytes
agree, hashes that differ keep on differing (`HintId.bijective_foldl_absorb`), and at a byte
that does not agree, hashes that were equal come to differ (`HintId.absorb_byte_injective`).

What this is for: a function is bound by number alone, and one that is registered under a
mistyped name must not be found under the right one.

Main result: `HintId.oneByteApart_separates`.
-/
import Mathlib.Logic.Function.Basic
import WireSolve.Hint.Table

namespace WireSolve

namespace HintId

variable {bytes bytes' : List UInt8}

/-! ### One byte -/

/-- Takes a byte out of the hash again: the factor is the inverse of the multiplier. -/
def release (hash : HintId) (byte : UInt8) : HintId := hash * 0x359c449b ^^^ byte.toUInt32

theorem release_absorb (hash : HintId) (byte : UInt8) : release (absorb hash byte) byte = hash := by
  have hinverse : (0x01000193 : UInt32) * 0x359c449b = 1 := by decide
  rw [release, absorb, UInt32.mul_assoc, hinverse, UInt32.mul_one, UInt32.xor_assoc,
    UInt32.xor_self, UInt32.xor_zero]

theorem absorb_release (hash : HintId) (byte : UInt8) : absorb (release hash byte) byte = hash := by
  have hinverse : (0x359c449b : UInt32) * 0x01000193 = 1 := by decide
  rw [release, absorb, UInt32.xor_assoc, UInt32.xor_self, UInt32.xor_zero, UInt32.mul_assoc,
    hinverse, UInt32.mul_one]

/-- For every byte, a step is a bijection of the hashes. -/
theorem bijective_absorb (byte : UInt8) : Function.Bijective fun hash => absorb hash byte :=
  Function.bijective_iff_has_inverse.2
    ⟨(release · byte), (release_absorb · byte), (absorb_release · byte)⟩

/-- From the same hash, different bytes lead to different hashes. -/
theorem absorb_byte_injective (hash : HintId) : Function.Injective (absorb hash) := by
  intro b b' h
  -- a byte may as well be in the hash before the step
  have hbefore (byte : UInt8) : absorb hash byte = absorb (hash ^^^ byte.toUInt32) 0 := by
    rw [absorb, absorb, show (0 : UInt8).toUInt32 = 0 from rfl, UInt32.xor_zero]
  rw [hbefore, hbefore] at h
  have hxor := (bijective_absorb 0).injective h
  exact UInt8.toUInt32_inj.1 ((UInt32.xor_right_inj hash).1 hxor)

/-! ### The bytes that follow -/

/-- Whatever follows, the hash after it is a bijection of the hash before it. -/
theorem bijective_foldl_absorb (rest : List UInt8) :
    Function.Bijective fun hash => rest.foldl absorb hash := by
  induction rest with
  | nil => exact Function.bijective_id
  | cons byte rest ih => exact ih.comp (bijective_absorb byte)

/-- Two sequences of the same length that differ at one place. -/
def OneByteApart (bytes bytes' : List UInt8) : Prop :=
  bytes.length = bytes'.length ∧ (bytes.zip bytes').countP (fun x => x.1 != x.2) = 1

instance (bytes bytes' : List UInt8) : Decidable (OneByteApart bytes bytes') :=
  inferInstanceAs (Decidable (_ ∧ _))

/-- Sequences of the same length that differ nowhere are equal. -/
theorem eq_of_countP_eq_zero (hlength : bytes.length = bytes'.length)
    (hcount : (bytes.zip bytes').countP (fun x => x.1 != x.2) = 0) : bytes = bytes' := by
  induction bytes generalizing bytes' with
  | nil => exact (List.length_eq_zero_iff.1 hlength.symm).symm
  | cons b rest ih =>
    rcases bytes' with - | ⟨b', rest'⟩
    · cases hlength
    · rw [List.zip_cons_cons, List.countP_cons, Nat.add_eq_zero_iff] at hcount
      obtain ⟨hrest, hb⟩ := hcount
      obtain rfl : b = b' := by simpa using hb
      rw [ih (Nat.succ.inj hlength) hrest]

/-- From the same hash, they lead to different ones. -/
theorem OneByteApart.foldl_absorb_ne (h : OneByteApart bytes bytes') (hash : HintId) :
    bytes.foldl absorb hash ≠ bytes'.foldl absorb hash := by
  induction bytes generalizing bytes' hash with
  | nil => exact absurd h.2 (by simp)
  | cons b rest ih =>
    obtain ⟨hlength, hcount⟩ := h
    rcases bytes' with - | ⟨b', rest'⟩
    · cases hlength
    · rw [List.zip_cons_cons, List.countP_cons] at hcount
      by_cases hb : b = b'
      · -- the place is further on
        subst hb
        exact ih ⟨Nat.succ.inj hlength, by simpa using hcount⟩ _
      · -- this is the place, and what follows is the same
        have hrest : rest = rest' :=
          eq_of_countP_eq_zero (Nat.succ.inj hlength) (by simpa [hb] using hcount)
        subst hrest
        intro heq
        exact hb (absorb_byte_injective hash ((bijective_foldl_absorb rest).injective heq))

/-! ### Names -/

/-- Whatever follows, different hashes stay different.  So names with as many bytes, all but one of
them the same, have different numbers, wherever that one is; and a function that is registered under
one of them is not found under the other. -/
theorem oneByteApart_separates :
    (∀ rest : List UInt8, Function.Bijective fun hash => rest.foldl absorb hash) ∧
      ∀ name name' : String, OneByteApart name.toUTF8.data.toList name'.toUTF8.data.toList →
        ofName name ≠ ofName name' ∧
          ∀ (t : HintTable) (f : HintFunction),
            (t.register name' f).get? (ofName name) = t.get? (ofName name) := by
  refine ⟨bijective_foldl_absorb, fun name name' h => ?_⟩
  have hne : ofName name ≠ ofName name' := h.foldl_absorb_ne seed
  exact ⟨hne, fun t f => by rw [HintTable.get?_register, if_neg hne]⟩

/-- Letters of two bytes that share the first: the names differ in the byte before the last. -/
theorem accents_separate :
    OneByteApart "né_".toUTF8.data.toList "nè_".toUTF8.data.toList ∧
      ofName "né_" ≠ ofName "nè_" ∧
      (HintTable.builtins.register "nè_" HintFunction.isZero).get? (ofName "né_")
        = HintTable.builtins.get? (ofName "né_") :=
  have hapart : OneByteApart "né_".toUTF8.data.toList "nè_".toUTF8.data.toList := by
    decide +kernel
  have hseparate := oneByteApart_separates.2 _ _ hapart
  ⟨hapart, hseparate.1, hseparate.2 _ _⟩

end HintId

end WireSolve
