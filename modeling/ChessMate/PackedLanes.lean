import Mathlib.Data.Nat.Bitwise
import Mathlib.Tactic.Ring

/-! # Words packed into one number

Words of `w` bits are kept in one number, each in a lane that is one bit wider.  One
operation on the number then works on all the words: `Lanes.xorAll` adds a word to each,
and `Lanes.clear` tests that none of them is zero, by the carry into the free bit.

The functions are those that the kernel evaluates on numbers at once, so that a test of
many thousand words is a few steps.
-/
namespace PackedLanes

/-! ## Lanes -/

section Lane
variable {k a b u v : ℕ}

theorem and_lane (hu : u < 2 ^ k) (hv : v < 2 ^ k) :
    (2 ^ k * a + u) &&& (2 ^ k * b + v) = 2 ^ k * (a &&& b) + (u &&& v) := by
  refine Nat.eq_of_testBit_eq fun i => ?_
  rw [Nat.testBit_and, Nat.testBit_two_pow_mul_add _ hu, Nat.testBit_two_pow_mul_add _ hv,
    Nat.testBit_two_pow_mul_add _ (Nat.and_lt_two_pow _ hv), Nat.testBit_and, Nat.testBit_and]
  split_ifs <;> rfl

theorem xor_lane (hu : u < 2 ^ k) (hv : v < 2 ^ k) :
    (2 ^ k * a + u) ^^^ (2 ^ k * b + v) = 2 ^ k * (a ^^^ b) + (u ^^^ v) := by
  refine Nat.eq_of_testBit_eq fun i => ?_
  rw [Nat.testBit_xor, Nat.testBit_two_pow_mul_add _ hu, Nat.testBit_two_pow_mul_add _ hv,
    Nat.testBit_two_pow_mul_add _ (Nat.xor_lt_two_pow hu hv), Nat.testBit_xor, Nat.testBit_xor]
  split_ifs <;> rfl

theorem lane_inj (hu : u < 2 ^ k) (hv : v < 2 ^ k) (h : 2 ^ k * a + u = 2 ^ k * b + v) :
    a = b ∧ u = v := by
  have hpos : 0 < 2 ^ k := Nat.two_pow_pos k
  have hdiv := congrArg (· / 2 ^ k) h
  have hmod := congrArg (· % 2 ^ k) h
  simp only [Nat.mul_add_div hpos, Nat.div_eq_of_lt hu, Nat.div_eq_of_lt hv, Nat.add_zero] at hdiv
  simp only [Nat.mul_add_mod, Nat.mod_eq_of_lt hu, Nat.mod_eq_of_lt hv] at hmod
  exact ⟨hdiv, hmod⟩

end Lane

/-- The words in lanes, the first in the lowest bits. -/
def pack (w : ℕ) : List ℕ → ℕ
  | [] => 0
  | v :: l => 2 ^ (w + 1) * pack w l + v

theorem pack_append (w : ℕ) (l l' : List ℕ) :
    pack w (l ++ l') = pack w l + 2 ^ ((w + 1) * l.length) * pack w l' := by
  induction l with
  | nil => simp [pack]
  | cons v l ih =>
    rw [List.cons_append, pack, ih, pack, List.length_cons, Nat.mul_succ, Nat.pow_add]
    ring

/-- A one in each of `n` lanes. -/
def ones (w n : ℕ) : ℕ :=
  Nat.div (Nat.sub (Nat.pow 2 (Nat.mul (w + 1) n)) 1) (Nat.sub (Nat.pow 2 (w + 1)) 1)

theorem ones_eq (w n : ℕ) : ones w n = pack w (List.replicate n 1) := by
  have hlane : 1 < 2 ^ (w + 1) := Nat.one_lt_two_pow (Nat.succ_ne_zero w)
  have hsum : (2 ^ (w + 1) - 1) * pack w (List.replicate n 1) = 2 ^ ((w + 1) * n) - 1 := by
    induction n with
    | zero => rfl
    | succ n ih =>
      have hle : 2 ^ (w + 1) ≤ 2 ^ (w + 1) * 2 ^ ((w + 1) * n) :=
        Nat.le_mul_of_pos_right _ (Nat.two_pow_pos _)
      rw [List.replicate_succ, pack, Nat.mul_add, Nat.mul_left_comm, ih, Nat.mul_sub_one,
        Nat.mul_one, Nat.mul_add_one, Nat.add_comm _ (w + 1), Nat.pow_add _ (w + 1)]
      omega
  show (2 ^ ((w + 1) * n) - 1) / (2 ^ (w + 1) - 1) = _
  rw [← hsum, Nat.mul_div_cancel_left _ (by omega)]

theorem ones_succ (w n : ℕ) : ones w (n + 1) = 2 ^ (w + 1) * ones w n + 1 := by
  rw [ones_eq, ones_eq, List.replicate_succ, pack]

/-! ## Operations -/

/-- Words in lanes: how many there are, and the number. -/
structure Lanes where
  count : ℕ
  bits : ℕ

namespace Lanes

def single (v : ℕ) : Lanes := ⟨1, v⟩

def append (w : ℕ) (x y : Lanes) : Lanes :=
  ⟨Nat.add x.count y.count,
    Nat.add x.bits (Nat.mul (Nat.pow 2 (Nat.mul (w + 1) x.count)) y.bits)⟩

/-- The words, each with `v` added. -/
def xorAll (w : ℕ) (x : Lanes) (v : ℕ) : Lanes :=
  ⟨x.count, Nat.xor x.bits (Nat.mul v (ones w x.count))⟩

/-- Every word is carried into the free bit of its lane. -/
def clear (w : ℕ) (x : Lanes) : Bool :=
  Nat.beq
    (Nat.land (Nat.add x.bits (Nat.mul (Nat.sub (Nat.pow 2 w) 1) (ones w x.count)))
      (Nat.mul (Nat.pow 2 w) (ones w x.count)))
    (Nat.mul (Nat.pow 2 w) (ones w x.count))

/-- The lanes hold the words. -/
structure Holds (w : ℕ) (x : Lanes) (l : List ℕ) : Prop where
  count_eq : x.count = l.length
  bits_eq : x.bits = pack w l
  fits : ∀ v ∈ l, v < 2 ^ w

variable {w : ℕ} {x y : Lanes} {l l' : List ℕ}

theorem Holds.empty (w : ℕ) : Holds w ⟨0, 0⟩ [] where
  count_eq := rfl
  bits_eq := rfl
  fits v hv := by cases hv

theorem Holds.single {v : ℕ} (hv : v < 2 ^ w) : Holds w (single v) [v] where
  count_eq := rfl
  bits_eq := by simp [Lanes.single, pack]
  fits u hu := by
    rw [List.mem_singleton] at hu
    exact hu ▸ hv

theorem Holds.append (h : Holds w x l) (h' : Holds w y l') :
    Holds w (x.append w y) (l ++ l') where
  count_eq := by
    rw [List.length_append, ← h.count_eq, ← h'.count_eq]
    rfl
  bits_eq := by
    rw [pack_append, ← h.bits_eq, ← h'.bits_eq, ← h.count_eq]
    rfl
  fits v hv := (List.mem_append.mp hv).elim (h.fits v) (h'.fits v)

theorem pack_xor {v : ℕ} (hv : v < 2 ^ w) (hfits : ∀ u ∈ l, u < 2 ^ w) :
    pack w l ^^^ v * ones w l.length = pack w (l.map (v ^^^ ·)) := by
  have hwide : ∀ {u : ℕ}, u < 2 ^ w → u < 2 ^ (w + 1) :=
    fun hu => hu.trans (Nat.pow_lt_pow_right (by decide) (Nat.lt_succ_self w))
  induction l with
  | nil =>
    rw [List.length_nil, ones_eq]
    simp [pack]
  | cons u l ih =>
    have hu := hwide (hfits u List.mem_cons_self)
    rw [List.length_cons, ones_succ, Nat.mul_add, Nat.mul_one, Nat.mul_left_comm, pack,
      xor_lane hu (hwide hv), ih fun u hu => hfits u (List.mem_cons_of_mem _ hu), List.map_cons,
      pack, Nat.xor_comm u v]

theorem Holds.xorAll {v : ℕ} (h : Holds w x l) (hv : v < 2 ^ w) :
    Holds w (x.xorAll w v) (l.map (v ^^^ ·)) where
  count_eq := by
    rw [List.length_map]
    exact h.count_eq
  bits_eq := by
    rw [← pack_xor hv h.fits, ← h.bits_eq, ← h.count_eq]
    rfl
  fits u hu := by
    obtain ⟨u', hu', rfl⟩ := List.mem_map.mp hu
    exact Nat.xor_lt_two_pow hv (h.fits u' hu')

/-- A sum with all words carries into the free bits only where a word is not zero. -/
theorem ne_zero_of_carries (hfits : ∀ v ∈ l, v < 2 ^ w)
    (h : (pack w l + (2 ^ w - 1) * ones w l.length) &&& 2 ^ w * ones w l.length =
      2 ^ w * ones w l.length) : ∀ v ∈ l, v ≠ 0 := by
  have hpos : 0 < 2 ^ w := Nat.two_pow_pos w
  have hdouble : 2 ^ (w + 1) = 2 ^ w + 2 ^ w := by rw [Nat.pow_succ, Nat.mul_two]
  induction l with
  | nil => exact fun v hv => by cases hv
  | cons v l ih =>
    have hv := hfits v List.mem_cons_self
    rw [List.length_cons, ones_succ, pack, Nat.mul_add, Nat.mul_add, Nat.mul_one, Nat.mul_one,
      Nat.mul_left_comm, Nat.mul_left_comm (2 ^ w), Nat.add_add_add_comm, ← Nat.mul_add,
      and_lane (by omega) (by omega)] at h
    have hand : (v + (2 ^ w - 1)) &&& 2 ^ w < 2 ^ (w + 1) :=
      lt_of_le_of_lt Nat.and_le_right (by omega)
    obtain ⟨hrest, hlane⟩ := lane_inj hand (by omega) h
    intro u hu
    rcases List.mem_cons.mp hu with rfl | hu
    · rintro rfl
      rw [Nat.zero_add, Nat.and_two_pow, Nat.testBit_lt_two_pow (by omega)] at hlane
      rw [Bool.toNat_false, Nat.zero_mul] at hlane
      exact hpos.ne hlane
    · exact ih (fun u hu => hfits u (List.mem_cons_of_mem _ hu)) hrest u hu

/-- **The test tells that no word is zero.** -/
theorem Holds.ne_zero (h : Holds w x l) (hclear : x.clear w = true) : ∀ v ∈ l, v ≠ 0 := by
  refine ne_zero_of_carries h.fits ?_
  rw [← h.bits_eq, ← h.count_eq]
  exact Nat.eq_of_beq_eq_true hclear

end Lanes
end PackedLanes
