import Mathlib.Data.List.Basic
import Mathlib.Data.Nat.Basic
import Mathlib.Order.Basic
import Mathlib.Tactic.Ring

/-! # Feedback registers

The register behind a cyclic redundancy check: a word that is shifted by one place at a
time, and into which a polynomial is added whenever the bit that falls out is set.  Data
comes in as symbols of a few bits, each added to the low end before the shifts that use
it up.

A shift is linear in exclusive or (`step_xor`), so symbols that come in one after another
can be put in at once (`checksum_word`), and what two inputs differ in decides alone
whether their checksums differ (`checksum_eq_iff`).  A register whose polynomial has its
top bit set loses nothing (`step_injective`); then an input that differs from another in
a few symbols has another checksum, as long as fewer symbols than that never leave a
symbol behind in the register (`checksum_inj`), which is a finite matter
(`Trail.exists_symbols`).
-/
namespace FeedbackRegister

section Step
variable {w : ℕ} (poly : BitVec w)

/-- One place down: the bit that falls out feeds the polynomial back. -/
def step (c : BitVec w) : BitVec w := if c.getLsbD 0 then (c >>> 1) ^^^ poly else c >>> 1

def steps : ℕ → BitVec w → BitVec w
  | 0, c => c
  | n + 1, c => steps n (step poly c)

theorem step_xor (x y : BitVec w) : step poly (x ^^^ y) = step poly x ^^^ step poly y := by
  have hcancel : x >>> 1 ^^^ poly ^^^ (y >>> 1 ^^^ poly) = x >>> 1 ^^^ y >>> 1 := by
    refine BitVec.eq_of_getLsbD_eq fun i _ => ?_
    rw [BitVec.getLsbD_xor, BitVec.getLsbD_xor, BitVec.getLsbD_xor, BitVec.getLsbD_xor]
    cases (x >>> 1).getLsbD i <;> cases poly.getLsbD i <;> cases (y >>> 1).getLsbD i <;> rfl
  unfold step
  rw [BitVec.getLsbD_xor, BitVec.ushiftRight_xor_distrib]
  cases x.getLsbD 0 <;> cases y.getLsbD 0
  · rfl
  · exact BitVec.xor_assoc _ _ _
  · show x >>> 1 ^^^ y >>> 1 ^^^ poly = x >>> 1 ^^^ poly ^^^ y >>> 1
    rw [BitVec.xor_assoc, BitVec.xor_comm (y >>> 1), BitVec.xor_assoc]
  · exact hcancel.symm

theorem steps_xor (n : ℕ) (x y : BitVec w) :
    steps poly n (x ^^^ y) = steps poly n x ^^^ steps poly n y := by
  induction n generalizing x y with
  | zero => rfl
  | succ n ih => rw [steps, steps, steps, step_xor, ih]

theorem step_zero : step poly 0#w = 0#w := by
  have h := step_xor poly 0#w 0#w
  rwa [BitVec.xor_self, BitVec.xor_self] at h

theorem steps_zero (n : ℕ) : steps poly n 0#w = 0#w := by
  induction n with
  | zero => rfl
  | succ n ih => rw [steps, step_zero, ih]

theorem steps_add (m n : ℕ) (c : BitVec w) :
    steps poly (m + n) c = steps poly n (steps poly m c) := by
  induction m generalizing c with
  | zero => rw [Nat.zero_add, steps]
  | succ m ih => rw [Nat.succ_add, steps, steps, ih]

/-- **Nothing is lost in a shift**: the top bit of the result is the one that fell out. -/
theorem step_injective (hpoly : poly.msb = true) : Function.Injective (step poly) := by
  have hmsb : ∀ c : BitVec w, (step poly c).msb = c.getLsbD 0 := by
    intro c
    have hw : 0 < w := by
      rcases Nat.eq_zero_or_pos w with rfl | hw
      · rw [BitVec.eq_nil poly] at hpoly
        cases hpoly
      · exact hw
    have hhigh : (c >>> 1).msb = false := by
      rw [BitVec.msb_ushiftRight]
      rfl
    unfold step
    cases c.getLsbD 0
    · exact hhigh
    · show (c >>> 1 ^^^ poly).msb = true
      rw [BitVec.msb_xor, hhigh, hpoly]
      rfl
  intro x y h
  have hlow : x.getLsbD 0 = y.getLsbD 0 := by rw [← hmsb x, ← hmsb y, h]
  have hshift : x >>> 1 = y >>> 1 := by
    unfold step at h
    rw [← hlow] at h
    split_ifs at h
    · exact (BitVec.xor_left_inj poly).mp h
    · exact h
  refine BitVec.eq_of_getLsbD_eq fun i hi => ?_
  cases i with
  | zero => exact hlow
  | succ i =>
    have hbit := congrArg (fun c : BitVec w => c.getLsbD i) hshift
    rw [show i + 1 = 1 + i from Nat.add_comm i 1]
    exact (BitVec.getLsbD_ushiftRight _ _ _).symm.trans
      (hbit.trans (BitVec.getLsbD_ushiftRight _ _ _))

theorem steps_eq_zero_iff (hpoly : poly.msb = true) (n : ℕ) {c : BitVec w} :
    steps poly n c = 0#w ↔ c = 0#w := by
  induction n generalizing c with
  | zero => rfl
  | succ n ih =>
    rw [steps, ih]
    constructor
    · exact fun h => step_injective poly hpoly (h.trans (step_zero poly).symm)
    · rintro rfl
      exact step_zero poly

end Step

/-! ## Data -/

section Data
variable {w : ℕ} (poly : BitVec w) (n : ℕ)

/-- A symbol of `n` bits is added at the low end and shifted out. -/
def feed (c d : BitVec w) : BitVec w := steps poly n (c ^^^ d)

def checksum (c : BitVec w) (data : List (BitVec w)) : BitVec w := data.foldl (feed poly n) c

theorem checksum_nil (c : BitVec w) : checksum poly n c [] = c := rfl

theorem checksum_cons (c d : BitVec w) (data : List (BitVec w)) :
    checksum poly n c (d :: data) = checksum poly n (feed poly n c d) data := rfl

theorem checksum_append (c : BitVec w) (a b : List (BitVec w)) :
    checksum poly n c (a ++ b) = checksum poly n (checksum poly n c a) b :=
  List.foldl_append

/-- Symbols of `n` bits side by side, the first one at the low end. -/
def word : List (BitVec w) → BitVec w
  | [] => 0#w
  | d :: ds => d ||| (word ds <<< n)

variable {n}

/-- A symbol and what lies above it have no bit in common. -/
theorem or_shiftLeft {d : BitVec w} (hd : d.toNat < 2 ^ n) (c : BitVec w) :
    d ||| c <<< n = d ^^^ c <<< n := by
  refine BitVec.eq_of_getLsbD_eq fun i hi => ?_
  rw [BitVec.getLsbD_or, BitVec.getLsbD_xor]
  by_cases hin : i < n
  · rw [BitVec.getLsbD_shiftLeft]
    simp [hin]
  · have hclear : d.getLsbD i = false := by
      refine Nat.testBit_lt_two_pow (hd.trans_le ?_)
      exact Nat.pow_le_pow_right (by decide) (by omega)
    rw [hclear, Bool.false_or, Bool.false_xor]

theorem word_lt {ds : List (BitVec w)} (h : ∀ d ∈ ds, d.toNat < 2 ^ n)
    (hlen : n * ds.length ≤ w) : (word n ds).toNat < 2 ^ (n * ds.length) := by
  induction ds with
  | nil => exact Nat.two_pow_pos _
  | cons d ds ih =>
    obtain ⟨hd, hds⟩ := List.forall_mem_cons.mp h
    rw [List.length_cons, Nat.mul_succ] at hlen ⊢
    have hword := ih hds (by omega)
    have hpow : 2 ^ (n * ds.length + n) = 2 ^ (n * ds.length) * 2 ^ n := Nat.pow_add _ _ _
    rw [word, BitVec.toNat_or, BitVec.toNat_shiftLeft]
    refine Nat.or_lt_two_pow ?_ ?_
    · exact hd.trans_le (Nat.pow_le_pow_right (by decide) (by omega))
    · refine (Nat.mod_le _ _).trans_lt ?_
      rw [Nat.shiftLeft_eq, hpow]
      exact Nat.mul_lt_mul_of_pos_right hword (Nat.two_pow_pos n)

/-- Bits that do not fall out are only moved. -/
theorem steps_shiftLeft {c : BitVec w} (hn : n ≤ w) (hc : c.toNat < 2 ^ (w - n)) :
    steps poly n (c <<< n) = c := by
  induction n with
  | zero => rw [steps, BitVec.shiftLeft_zero]
  | succ n ih =>
    have hmoved : step poly (c <<< (n + 1)) = c <<< n := by
      have hlow : (c <<< (n + 1)).getLsbD 0 = false := by
        rw [BitVec.getLsbD_shiftLeft]
        simp
      rw [step, hlow, if_neg Bool.false_ne_true]
      refine BitVec.eq_of_getLsbD_eq fun i hi => ?_
      rw [BitVec.getLsbD_ushiftRight, BitVec.getLsbD_shiftLeft, BitVec.getLsbD_shiftLeft,
        show 1 + i - (n + 1) = i - n by omega]
      by_cases htop : 1 + i < w
      · rw [decide_eq_true htop, decide_eq_true hi, Nat.add_comm 1 i]
        simp
      · -- the top bit of the result is one that `c` does not have
        have hclear : c.getLsbD (i - n) = false := by
          refine Nat.testBit_lt_two_pow (hc.trans_le ?_)
          exact Nat.pow_le_pow_right (by decide) (by omega)
        rw [hclear, Bool.and_false, Bool.and_false]
    rw [steps, hmoved]
    refine ih (by omega) (hc.trans_le (Nat.pow_le_pow_right (by decide) (by omega)))

/-- **Symbols may come in at once**: one after another they leave the register as their
word does, after all the shifts. -/
theorem checksum_word {ds : List (BitVec w)} (h : ∀ d ∈ ds, d.toNat < 2 ^ n)
    (hlen : n * ds.length ≤ w) (c : BitVec w) :
    checksum poly n c ds = steps poly (n * ds.length) (c ^^^ word n ds) := by
  induction ds generalizing c with
  | nil =>
    rw [checksum_nil, word, BitVec.xor_zero, List.length_nil, Nat.mul_zero, steps]
  | cons d ds ih =>
    obtain ⟨hd, hds⟩ := List.forall_mem_cons.mp h
    rw [List.length_cons, Nat.mul_succ] at hlen ⊢
    have hword : (word n ds).toNat < 2 ^ (w - n) :=
      (word_lt hds (by omega)).trans_le (Nat.pow_le_pow_right (by decide) (by omega))
    rw [checksum_cons, ih hds (by omega), Nat.add_comm, steps_add, word, or_shiftLeft hd,
      ← BitVec.xor_assoc, steps_xor _ n, steps_shiftLeft poly (by omega) hword]
    rfl

end Data

/-! ## Inputs that differ -/

section Differences
variable {w : ℕ} (poly : BitVec w) {n : ℕ}

theorem checksum_xor {s t : BitVec w} {a b : List (BitVec w)} (h : a.length = b.length) :
    checksum poly n (s ^^^ t) (List.zipWith (· ^^^ ·) a b) =
      checksum poly n s a ^^^ checksum poly n t b := by
  induction a generalizing s t b with
  | nil =>
    obtain rfl := List.length_eq_zero_iff.mp h.symm
    rfl
  | cons x a ih =>
    cases b with
    | nil => cases h
    | cons y b =>
      have hfeed : feed poly n (s ^^^ t) (x ^^^ y) = feed poly n s x ^^^ feed poly n t y := by
        unfold feed
        rw [← steps_xor, BitVec.xor_assoc, BitVec.xor_assoc, ← BitVec.xor_assoc t,
          BitVec.xor_comm t x, BitVec.xor_assoc x]
      rw [List.zipWith_cons_cons, checksum_cons, checksum_cons, checksum_cons, hfeed]
      exact ih (Nat.succ.inj h)

/-- **What two inputs differ in decides whether their checksums do.** -/
theorem checksum_eq_iff {c : BitVec w} {a b : List (BitVec w)} (h : a.length = b.length) :
    checksum poly n c a = checksum poly n c b ↔
      checksum poly n 0#w (List.zipWith (· ^^^ ·) a b) = 0#w := by
  rw [← BitVec.xor_eq_zero_iff, ← checksum_xor poly h, BitVec.xor_self]

/-- **What symbols leave behind**: the register after `r` symbols of a set that are not
zero, with zeros in between, the first of them `a` symbols ago. -/
inductive Trail (n : ℕ) (S : BitVec w → Prop) : ℕ → ℕ → BitVec w → Prop
  | start {x : BitVec w} (hx : S x) (hne : x ≠ 0#w) : Trail n S 1 1 (steps poly n x)
  | shift {r a : ℕ} {c : BitVec w} (h : Trail n S r a c) : Trail n S r (a + 1) (steps poly n c)
  | add {r a : ℕ} {c d : BitVec w} (h : Trail n S r a c) (hd : S d) (hne : d ≠ 0#w) :
      Trail n S (r + 1) (a + 1) (steps poly n (c ^^^ d))

/-- Fewer than `t` symbols never leave a symbol of the set behind, for `k` symbols. -/
def Separates (n : ℕ) (S : BitVec w → Prop) (t k : ℕ) : Prop :=
  ∀ r a c, Trail poly n S r a c → r < t → a ≤ k → ¬ S c

variable {poly} {t k : ℕ} {S : BitVec w → Prop}

theorem Trail.pos {r a : ℕ} {c : BitVec w} (h : Trail poly n S r a c) : 0 < r := by
  induction h with
  | start _ _ => exact Nat.one_pos
  | shift _ ih => exact ih
  | add _ _ _ _ => exact Nat.succ_pos _

theorem Trail.ne_zero (hpoly : poly.msb = true) (hsep : Separates poly n S t k) {r a : ℕ}
    {c : BitVec w} (h : Trail poly n S r a c) (hr : r ≤ t) (ha : a ≤ k + 1) : c ≠ 0#w := by
  induction h with
  | start hx hne => exact mt (steps_eq_zero_iff poly hpoly n).mp hne
  | shift h ih => exact mt (steps_eq_zero_iff poly hpoly n).mp (ih hr (by omega))
  | add h hd hne ih =>
    refine mt (steps_eq_zero_iff poly hpoly n).mp fun heq => ?_
    rw [BitVec.xor_eq_zero_iff] at heq
    exact hsep _ _ _ h (by omega) (by omega) (heq ▸ hd)

/-- A trail goes on with the symbols that follow. -/
theorem Trail.checksum {r a : ℕ} {c : BitVec w} (h : Trail poly n S r a c)
    {data : List (BitVec w)} (hS : ∀ d ∈ data, S d) :
    Trail poly n S (r + data.countP (· ≠ 0#w)) (a + data.length) (checksum poly n c data) := by
  induction data generalizing r a c with
  | nil => exact h
  | cons d data ih =>
    obtain ⟨hd, hrest⟩ := List.forall_mem_cons.mp hS
    rw [checksum_cons, feed, List.length_cons, Nat.add_comm data.length, ← Nat.add_assoc]
    by_cases hzero : d = 0#w
    · rw [List.countP_cons_of_neg (by simpa using hzero), hzero, BitVec.xor_zero]
      exact ih h.shift hrest
    · rw [List.countP_cons_of_pos (by simpa using hzero), Nat.add_comm _ 1, ← Nat.add_assoc]
      exact ih (h.add hd hzero) hrest

/-- **What is in an empty register after some data**: nothing, or the trail of the symbols
that are not zero. -/
theorem trail_of_checksum {data : List (BitVec w)} (hS : ∀ d ∈ data, S d) :
    ((∀ d ∈ data, d = 0#w) ∧ checksum poly n 0#w data = 0#w) ∨
      ∃ a ≤ data.length, Trail poly n S (data.countP (· ≠ 0#w)) a (checksum poly n 0#w data) := by
  induction data with
  | nil =>
    refine Or.inl ⟨fun d hd => ?_, rfl⟩
    cases hd
  | cons d data ih =>
    obtain ⟨hd, hrest⟩ := List.forall_mem_cons.mp hS
    rw [checksum_cons, feed, BitVec.zero_xor, List.length_cons]
    by_cases hzero : d = 0#w
    · rw [List.countP_cons_of_neg (by simpa using hzero), hzero, steps_zero]
      rcases ih hrest with ⟨hall, hleft⟩ | ⟨a, ha, htrail⟩
      · exact Or.inl ⟨List.forall_mem_cons.mpr ⟨rfl, hall⟩, hleft⟩
      · exact Or.inr ⟨a, ha.trans (Nat.le_succ _), htrail⟩
    · have htrail : Trail poly n S _ _ (checksum poly n (steps poly n d) data) :=
        (Trail.start hd hzero).checksum hrest
      rw [Nat.add_comm 1 (data.countP _)] at htrail
      rw [List.countP_cons_of_pos (by simpa using hzero)]
      exact Or.inr ⟨1 + data.length, by omega, htrail⟩

theorem eq_zero_of_checksum_zero (hpoly : poly.msb = true) (hsep : Separates poly n S t k)
    {data : List (BitVec w)} (hlen : data.length ≤ k + 1) (hS : ∀ d ∈ data, S d)
    (hcount : data.countP (· ≠ 0#w) ≤ t) (h : checksum poly n 0#w data = 0#w) :
    ∀ d ∈ data, d = 0#w := by
  rcases trail_of_checksum hS with ⟨hall, -⟩ | ⟨a, ha, htrail⟩
  · exact hall
  · exact absurd h (htrail.ne_zero hpoly hsep hcount (ha.trans hlen))

theorem eq_of_zipWith_xor {a b : List (BitVec w)} (hlen : a.length = b.length)
    (h : ∀ d ∈ List.zipWith (· ^^^ ·) a b, d = 0#w) : a = b := by
  induction a generalizing b with
  | nil => exact (List.length_eq_zero_iff.mp hlen.symm).symm
  | cons x a ih =>
    cases b with
    | nil => cases hlen
    | cons y b =>
      obtain ⟨hxy, hrest⟩ := List.forall_mem_cons.mp h
      rw [BitVec.xor_eq_zero_iff.mp hxy, ih (Nat.succ.inj hlen) hrest]

/-- **A few different symbols make a different checksum.** -/
theorem checksum_inj (hpoly : poly.msb = true) (hsep : Separates poly n S t k)
    {c : BitVec w} {a b : List (BitVec w)} (hlen : a.length = b.length) (hk : a.length ≤ k + 1)
    (hS : ∀ d ∈ List.zipWith (· ^^^ ·) a b, S d)
    (hcount : (List.zipWith (· ^^^ ·) a b).countP (· ≠ 0#w) ≤ t)
    (h : checksum poly n c a = checksum poly n c b) : a = b := by
  rw [checksum_eq_iff poly hlen] at h
  have hk' : (List.zipWith (· ^^^ ·) a b).length ≤ k + 1 := by
    rw [List.length_zipWith]
    omega
  exact eq_of_zipWith_xor hlen (eq_zero_of_checksum_zero hpoly hsep hk' hS hcount h)

/-- What symbols of given ages add up to in the register. -/
def leftBehind (poly : BitVec w) (n : ℕ) (l : List (ℕ × BitVec w)) : BitVec w :=
  l.foldr (fun p sum => steps poly (n * p.1) p.2 ^^^ sum) 0#w

/-- The symbols, one symbol later. -/
def older (l : List (ℕ × BitVec w)) : List (ℕ × BitVec w) := l.map fun p => (p.1 + 1, p.2)

theorem leftBehind_cons (p : ℕ × BitVec w) (l : List (ℕ × BitVec w)) :
    leftBehind poly n (p :: l) = steps poly (n * p.1) p.2 ^^^ leftBehind poly n l := rfl

theorem leftBehind_older (l : List (ℕ × BitVec w)) :
    leftBehind poly n (older l) = steps poly n (leftBehind poly n l) := by
  induction l with
  | nil => exact (steps_zero poly n).symm
  | cons p l ih =>
    rw [older, List.map_cons, ← older, leftBehind_cons, leftBehind_cons, ih, steps_xor,
      ← steps_add, Nat.mul_succ]

/-- Symbols of a set that are not zero, the youngest first. -/
structure Symbols (S : BitVec w → Prop) (r a : ℕ) (l : List (ℕ × BitVec w)) : Prop where
  length_eq : l.length = r
  ages : l.Pairwise fun p q => p.1 < q.1
  symbol : ∀ p ∈ l, 1 ≤ p.1 ∧ p.1 ≤ a ∧ S p.2 ∧ p.2 ≠ 0#w

theorem Symbols.older {r a : ℕ} {l : List (ℕ × BitVec w)} (h : Symbols S r a l) :
    Symbols S r (a + 1) (older l) where
  length_eq := by rw [FeedbackRegister.older, List.length_map, h.length_eq]
  ages := List.pairwise_map.mpr (h.ages.imp fun hlt => Nat.succ_lt_succ hlt)
  symbol p hp := by
    obtain ⟨q, hq, rfl⟩ := List.mem_map.mp hp
    obtain ⟨-, h2, h3⟩ := h.symbol q hq
    exact ⟨Nat.le_add_left 1 _, Nat.succ_le_succ h2, h3⟩

theorem Symbols.cons {r a : ℕ} {l : List (ℕ × BitVec w)} (h : Symbols S r a l) {d : BitVec w}
    (hd : S d) (hne : d ≠ 0#w) :
    Symbols S (r + 1) (a + 1) ((1, d) :: FeedbackRegister.older l) where
  length_eq := by rw [List.length_cons, h.older.length_eq]
  ages := by
    refine List.pairwise_cons.mpr ⟨fun p hp => ?_, h.older.ages⟩
    obtain ⟨q, hq, rfl⟩ := List.mem_map.mp hp
    exact Nat.lt_succ_of_le (h.symbol q hq).1
  symbol := List.forall_mem_cons.mpr ⟨⟨le_rfl, Nat.le_add_left 1 a, hd, hne⟩, h.older.symbol⟩

/-- **A trail is a sum** of what its symbols leave behind. -/
theorem Trail.exists_symbols {r a : ℕ} {c : BitVec w} (h : Trail poly n S r a c) :
    ∃ l, Symbols S r a l ∧ c = leftBehind poly n l := by
  induction h with
  | @start x hx hne =>
    refine ⟨[(1, x)], ⟨rfl, List.pairwise_singleton _ _, ?_⟩, ?_⟩
    · rw [List.forall_mem_singleton]
      exact ⟨le_rfl, le_rfl, hx, hne⟩
    · rw [leftBehind_cons, Nat.mul_one]
      exact BitVec.xor_zero.symm
  | shift h ih =>
    obtain ⟨l, hl, rfl⟩ := ih
    exact ⟨older l, hl.older, (leftBehind_older l).symm⟩
  | @add r a c d h hd hne ih =>
    obtain ⟨l, hl, rfl⟩ := ih
    refine ⟨(1, d) :: older l, hl.cons hd hne, ?_⟩
    rw [leftBehind_cons, leftBehind_older, Nat.mul_one, steps_xor, BitVec.xor_comm]

end Differences

/-! ## Wider registers, and registers the other way round -/

section Shapes
variable {w : ℕ} (poly : BitVec w)

theorem setWidth_step {v : ℕ} (hv : w ≤ v) (c : BitVec w) :
    (step poly c).setWidth v = step (poly.setWidth v) (c.setWidth v) := by
  have hshift : (c >>> 1).setWidth v = c.setWidth v >>> 1 := by
    refine BitVec.eq_of_getLsbD_eq fun i hi => ?_
    rw [BitVec.getLsbD_setWidth, BitVec.getLsbD_ushiftRight, BitVec.getLsbD_ushiftRight,
      BitVec.getLsbD_setWidth]
    by_cases htop : 1 + i < v
    · rw [decide_eq_true hi, decide_eq_true htop]
    · rw [BitVec.getLsbD_of_ge c (1 + i) (by omega), Bool.and_false, Bool.and_false]
  have hlow : (c.setWidth v).getLsbD 0 = c.getLsbD 0 := by
    rw [BitVec.getLsbD_setWidth]
    rcases Nat.eq_zero_or_pos v with rfl | hpos
    · rw [BitVec.getLsbD_of_ge c 0 (by omega), Bool.and_false]
    · rw [decide_eq_true hpos, Bool.true_and]
  unfold step
  rw [hlow, ← hshift]
  split_ifs
  · exact BitVec.setWidth_xor
  · rfl

/-- **A wider register does the same**, as long as what is in it fits. -/
theorem setWidth_steps {v : ℕ} (hv : w ≤ v) (n : ℕ) (c : BitVec w) :
    (steps poly n c).setWidth v = steps (poly.setWidth v) n (c.setWidth v) := by
  induction n generalizing c with
  | zero => rfl
  | succ n ih => rw [steps, steps, ih, setWidth_step poly hv]

theorem setWidth_checksum {v : ℕ} (hv : w ≤ v) (n : ℕ) (c : BitVec w) (data : List (BitVec w)) :
    (checksum poly n c data).setWidth v =
      checksum (poly.setWidth v) n (c.setWidth v) (data.map (BitVec.setWidth v)) := by
  induction data generalizing c with
  | nil => rfl
  | cons d data ih =>
    rw [List.map_cons, checksum_cons, checksum_cons, ih, feed, feed, setWidth_steps poly hv,
      BitVec.setWidth_xor]

/-- One place up: the register with its bits in the opposite order. -/
def stepUp (c : BitVec w) : BitVec w := if c.msb then (c <<< 1) ^^^ poly else c <<< 1

theorem reverse_xor (x y : BitVec w) : (x ^^^ y).reverse = x.reverse ^^^ y.reverse := by
  refine BitVec.eq_of_getLsbD_eq fun i _ => ?_
  rw [BitVec.getLsbD_reverse, BitVec.getMsbD_xor, BitVec.getLsbD_xor, BitVec.getLsbD_reverse,
    BitVec.getLsbD_reverse]

theorem reverse_stepUp (c : BitVec w) : (stepUp poly c).reverse = step poly.reverse c.reverse := by
  have hshift : (c <<< 1).reverse = c.reverse >>> 1 := by
    refine BitVec.eq_of_getLsbD_eq fun i _ => ?_
    rw [BitVec.getLsbD_reverse, BitVec.getMsbD_shiftLeft, BitVec.getLsbD_ushiftRight,
      BitVec.getLsbD_reverse, Nat.add_comm]
  have hlow : c.reverse.getLsbD 0 = c.msb := by
    rw [BitVec.getLsbD_reverse]
    rfl
  unfold stepUp step
  rw [hlow, ← hshift]
  split_ifs
  · exact reverse_xor _ _
  · rfl

end Shapes
end FeedbackRegister
