import ChessMate.FeedbackRegister
import Mathlib.Algebra.CharP.Two
import Mathlib.Algebra.Field.ZMod
import Mathlib.Algebra.Polynomial.FieldDivision

/-! # What a feedback register computes

The bits of a word are the coefficients of a polynomial over the field of two elements,
the lowest bit that of the lowest power.  A register of `w` bits that is shifted up, with
the bits of a message added at its top, holds the remainder of a division: the message
with `w` zeros behind it, and the initial contents of the register added in front, divided
by `X ^ w` and the polynomial of the register together (`isRemainder_foldl`).  There is
one such remainder only (`IsRemainder.unique`), so whatever computes it does what the
register does.
-/
namespace FeedbackRegister
open Polynomial

section Words
variable {w : ℕ}

/-- The bits of a word as coefficients. -/
noncomputable def ofWord (c : BitVec w) : (ZMod 2)[X] :=
  ∑ i ∈ Finset.range w, if c.getLsbD i then X ^ i else 0

@[simp] theorem coeff_ofWord (c : BitVec w) (n : ℕ) :
    (ofWord c).coeff n = if c.getLsbD n then 1 else 0 := by
  have hother : ∀ i ∈ Finset.range w, i ≠ n →
      (if c.getLsbD i then X ^ i else 0 : (ZMod 2)[X]).coeff n = 0 := by
    intro i _ hi
    cases c.getLsbD i <;> simp [coeff_X_pow, hi.symm]
  rw [ofWord, finsetSum_coeff]
  by_cases hn : n < w
  · rw [Finset.sum_eq_single_of_mem n (Finset.mem_range.mpr hn) hother]
    cases c.getLsbD n <;> simp
  · rw [Finset.sum_eq_zero fun i hi => hother i hi (by have := Finset.mem_range.mp hi; omega),
      BitVec.getLsbD_of_ge c n (by omega)]
    rfl

theorem ofWord_xor (x y : BitVec w) : ofWord (x ^^^ y) = ofWord x + ofWord y := by
  ext n
  rw [coeff_add, coeff_ofWord, coeff_ofWord, coeff_ofWord, BitVec.getLsbD_xor]
  cases x.getLsbD n <;> cases y.getLsbD n <;> decide

theorem ofWord_injective : Function.Injective (ofWord : BitVec w → (ZMod 2)[X]) := by
  intro x y h
  refine BitVec.eq_of_getLsbD_eq fun i _ => ?_
  have hcoeff := congrArg (fun p => p.coeff i) h
  simp only [coeff_ofWord] at hcoeff
  cases hx : x.getLsbD i <;> cases hy : y.getLsbD i <;> simp [hx, hy] at hcoeff ⊢

theorem degree_ofWord_lt (c : BitVec w) : (ofWord c).degree < w := by
  rw [degree_lt_iff_coeff_zero]
  intro n hn
  rw [coeff_ofWord, BitVec.getLsbD_of_ge c n hn]
  rfl

/-- A shift is a product with `X`, but for the bit that falls out at the top. -/
theorem X_mul_ofWord (c : BitVec w) :
    X * ofWord c = ofWord (c <<< 1) + if c.msb then X ^ w else 0 := by
  ext n
  rw [coeff_add, coeff_ofWord, BitVec.getLsbD_shiftLeft]
  cases n with
  | zero =>
    rw [coeff_X_mul_zero]
    rcases Nat.eq_zero_or_pos w with rfl | hw
    · rw [BitVec.eq_nil c]
      rfl
    · cases c.msb <;> simp [coeff_X_pow, hw.ne]
  | succ n =>
    rw [coeff_X_mul, coeff_ofWord, Nat.add_sub_cancel]
    by_cases htop : n + 1 < w
    · cases c.msb <;> simp [coeff_X_pow, htop, htop.ne]
    · by_cases hlast : n + 1 = w
      · -- the bit that falls out
        have hmsb : c.msb = c.getLsbD n := by
          rw [BitVec.msb_eq_getLsbD_last]
          congr 1
          omega
        rw [hmsb]
        cases c.getLsbD n <;> simp [coeff_X_pow, hlast]
      · rw [BitVec.getLsbD_of_ge c n (by omega)]
        cases c.msb <;> simp [coeff_X_pow, htop, hlast]

/-- The word with its top bit set. -/
theorem ofWord_twoPow (hw : 0 < w) : ofWord (BitVec.twoPow w (w - 1)) = X ^ (w - 1) := by
  ext n
  rw [coeff_ofWord, coeff_X_pow, BitVec.getLsbD_twoPow]
  by_cases hn : n = w - 1
  · simp [hn, hw]
  · simp [hn, Ne.symm hn]

end Words

/-! ## Remainders -/

section Remainder
variable {w : ℕ} (poly : BitVec w)

/-- The divisor of a register: its polynomial and the power above it. -/
noncomputable def divisor : (ZMod 2)[X] := X ^ w + ofWord poly

/-- The bits of a message as coefficients, the last one that of the lowest power. -/
noncomputable def ofBits : List Bool → (ZMod 2)[X]
  | [] => 0
  | bit :: bits => (if bit then X ^ bits.length else 0) + ofBits bits

/-- The word is what is left of the initial contents and the message.  Subtraction is
addition here. -/
def IsRemainder (init : BitVec w) (bits : List Bool) (rem : BitVec w) : Prop :=
  divisor poly ∣ X ^ bits.length * ofWord init + X ^ w * ofBits bits + ofWord rem

variable {poly}

/-- **There is one remainder.** -/
theorem IsRemainder.unique {init rem rem' : BitVec w} {bits : List Bool}
    (h : IsRemainder poly init bits rem) (h' : IsRemainder poly init bits rem') : rem = rem' := by
  have hsum : divisor poly ∣ ofWord (rem ^^^ rem') := by
    have hboth := dvd_add h h'
    rw [add_add_add_comm, CharTwo.add_self_eq_zero, zero_add, ← ofWord_xor] at hboth
    exact hboth
  have hdegree : (ofWord (rem ^^^ rem')).degree < (divisor poly).degree := by
    rw [divisor, degree_add_eq_left_of_degree_lt (by rw [degree_X_pow]; exact degree_ofWord_lt _),
      degree_X_pow]
    exact degree_ofWord_lt _
  have hzero : ofWord (rem ^^^ rem') = ofWord 0#w :=
    (eq_zero_of_dvd_of_degree_lt hsum hdegree).trans (by ext n; simp)
  exact BitVec.xor_eq_zero_iff.mp (ofWord_injective hzero)

/-- One place up is a product with `X`, up to a multiple of the divisor. -/
theorem dvd_stepUp (c : BitVec w) : divisor poly ∣ X * ofWord c + ofWord (stepUp poly c) := by
  rw [X_mul_ofWord]
  unfold stepUp
  split_ifs
  · have hsum : ofWord (c <<< 1) + X ^ w + ofWord (c <<< 1 ^^^ poly) = divisor poly := by
      rw [ofWord_xor, add_add_add_comm, CharTwo.add_self_eq_zero, zero_add, divisor]
    rw [hsum]
  · rw [add_zero, CharTwo.add_self_eq_zero]
    exact dvd_zero _

variable (poly)

/-- A bit is added at the top and shifted out. -/
def feedUp (c : BitVec w) (bit : Bool) : BitVec w :=
  stepUp poly (c ^^^ if bit then BitVec.twoPow w (w - 1) else 0#w)

variable {poly}

theorem dvd_feedUp (hw : 0 < w) (c : BitVec w) (bit : Bool) :
    divisor poly ∣ X * ofWord c + (if bit then X ^ w else 0) + ofWord (feedUp poly c bit) := by
  have htop : X * ofWord (c ^^^ if bit then BitVec.twoPow w (w - 1) else 0#w) =
      X * ofWord c + if bit then X ^ w else 0 := by
    cases bit with
    | false => simp
    | true =>
      have hpow : (X : (ZMod 2)[X]) * X ^ (w - 1) = X ^ w := by
        rw [← pow_succ', Nat.sub_add_cancel hw]
      simp only [if_true, ofWord_xor, ofWord_twoPow hw, mul_add, hpow]
  rw [← htop]
  exact dvd_stepUp _

/-- **A register that is shifted up divides.** -/
theorem isRemainder_foldl (hw : 0 < w) (bits : List Bool) (init : BitVec w) :
    IsRemainder poly init bits (bits.foldl (feedUp poly) init) := by
  induction bits generalizing init with
  | nil =>
    rw [IsRemainder, ofBits, List.length_nil, pow_zero, one_mul, mul_zero, add_zero]
    exact (CharTwo.add_self_eq_zero (ofWord init)) ▸ dvd_zero _
  | cons bit bits ih =>
    -- the first bit leaves `init'` in the register, with which the others come in
    set init' := feedUp poly init bit
    have hfirst := (dvd_feedUp hw init bit : divisor poly ∣ _).mul_left (X ^ bits.length)
    have hsum := dvd_add hfirst (ih init')
    have hbits : X ^ w * (if bit then X ^ bits.length else 0 : (ZMod 2)[X]) =
        X ^ bits.length * (if bit then X ^ w else 0) := by
      cases bit <;> simp [mul_comm]
    have hcancel : ∀ a b c d e : (ZMod 2)[X], a + b + c + (c + d + e) = a + (b + d) + e := by
      intro a b c d e
      calc a + b + c + (c + d + e) = a + (b + d) + e + (c + c) := by ring
        _ = a + (b + d) + e := by rw [CharTwo.add_self_eq_zero, add_zero]
    rw [mul_add, mul_add, hcancel] at hsum
    rw [IsRemainder, List.foldl_cons, List.length_cons, pow_succ, mul_assoc, ofBits, mul_add, hbits]
    exact hsum

/-- The register shifted up is the other one with its bits in the opposite order. -/
theorem reverse_feedUp (hw : 0 < w) (c : BitVec w) (bit : Bool) :
    (feedUp poly c bit).reverse = feed poly.reverse 1 c.reverse (if bit then 1#w else 0#w) := by
  have hbit : (if bit then BitVec.twoPow w (w - 1) else 0#w).reverse =
      if bit then 1#w else 0#w := by
    refine BitVec.eq_of_getLsbD_eq fun i hi => ?_
    rw [BitVec.getLsbD_reverse, BitVec.getMsbD_eq_getLsbD]
    cases bit with
    | false => simp
    | true =>
      simp only [if_true, BitVec.getLsbD_twoPow, BitVec.getLsbD_one]
      by_cases hzero : i = 0
      · simp [hzero, hw]
      · simp [hzero]
        omega
  rw [feedUp, reverse_stepUp, reverse_xor, hbit]
  rfl

theorem reverse_foldl_feedUp (hw : 0 < w) (bits : List Bool) (c : BitVec w) :
    (bits.foldl (feedUp poly) c).reverse =
      checksum poly.reverse 1 c.reverse (bits.map fun bit => if bit then 1#w else 0#w) := by
  induction bits generalizing c with
  | nil => rfl
  | cons bit bits ih =>
    rw [List.foldl_cons, ih, reverse_feedUp hw, List.map_cons, checksum_cons]

/-- **The other register divides too**, the bits of its contents in the opposite order. -/
theorem isRemainder_checksum (hw : 0 < w) (bits : List Bool) (c : BitVec w) :
    IsRemainder poly c.reverse bits
      (checksum poly.reverse 1 c (bits.map fun bit => if bit then 1#w else 0#w)).reverse := by
  have h : IsRemainder poly c.reverse bits _ := isRemainder_foldl hw bits c.reverse
  rw [← BitVec.reverse_reverse_eq (x := bits.foldl (feedUp poly) c.reverse),
    reverse_foldl_feedUp hw, BitVec.reverse_reverse_eq] at h
  exact h

end Remainder
end FeedbackRegister
