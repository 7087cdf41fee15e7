import Mathlib.Algebra.Group.Prod
import Mathlib.Algebra.Module.Defs
import Mathlib.Tactic.Abel
import Mathlib.Tactic.Module

/-! # Walking along a line, and what can be seen along it

A line of squares is `src + k • step` for `k = 1, 2, …`, in any additive group.
`walk` is the loop that steps along such a line until its body returns, and
`walk_eq_some_iff` says what it returns: the value of the first square at which
the body returns one.  `collect` is the loop that gathers values on its way.

`Sees free src step tgt` is the geometry behind both: `tgt` lies on the line and
every square strictly before it is free.  `Sees.symm` turns a line of sight
around, and `Sees.blocked` is the fact discovered attacks rest on: a line that
is open with one set of free squares and not with another passes through a
square that only the first has.
-/
namespace LineWalk

section Walk
variable {V β : Type*} [Add V]

/-- Step along the line from `pos` until `body` returns, at most `fuel` times. -/
def walk (body : V → Option β) (step : V) : Nat → V → Option β
  | 0, _ => none
  | fuel + 1, pos =>
      match body (pos + step) with
      | some result => some result
      | none => walk body step fuel (pos + step)

/-- Step along the line from `pos` while `inside` holds, emitting `emit` of each
square visited, up to and including the first square at which `stop` holds. -/
def collect (inside stop : V → Bool) (emit : V → List β) (step : V) : Nat → V → List β
  | 0, _ => []
  | fuel + 1, pos =>
      if inside (pos + step) then
        emit (pos + step) ++
          if stop (pos + step) then [] else collect inside stop emit step fuel (pos + step)
      else []

end Walk

section Group
variable {V β : Type*} [AddCommGroup V]

theorem add_succ_smul (src step : V) (k : ℕ) :
    src + (k + 1) • step = src + step + k • step := by
  rw [succ_nsmul]; abel

/-- **What the walk returns**: the value of the body at the first square of the
line at which the body returns. -/
theorem walk_eq_some_iff (body : V → Option β) (step : V) (result : β) :
    ∀ (fuel : ℕ) (src : V), walk body step fuel src = some result ↔
      ∃ k : ℕ, 0 < k ∧ k ≤ fuel ∧ body (src + k • step) = some result ∧
        ∀ j : ℕ, 0 < j → j < k → body (src + j • step) = none := by
  intro fuel
  induction fuel with
  | zero =>
    intro src
    constructor
    · intro h; cases h
    · rintro ⟨k, hk, hk', -⟩; omega
  | succ fuel ih =>
    intro src
    rw [walk]
    cases hb : body (src + step) with
    | some r =>
      constructor
      · intro h
        refine ⟨1, by omega, by omega, ?_, fun j hj hj' => by omega⟩
        rw [one_smul, hb]; exact h
      · rintro ⟨k, hk, -, hk', hfree⟩
        rcases Nat.lt_or_ge 1 k with h1 | h1
        · have := hfree 1 (by omega) h1
          rw [one_smul, hb] at this; cases this
        · obtain rfl : k = 1 := by omega
          rw [one_smul, hb] at hk'; exact hk'
    | none =>
      refine (ih (src + step)).trans ⟨?_, ?_⟩
      · rintro ⟨k, hk, hkf, hk', hfree⟩
        refine ⟨k + 1, by omega, by omega, by rw [add_succ_smul]; exact hk', ?_⟩
        intro j hj hjk
        obtain ⟨i, rfl⟩ : ∃ i, j = i + 1 := ⟨j - 1, by omega⟩
        rw [add_succ_smul]
        rcases Nat.eq_zero_or_pos i with rfl | hi
        · rw [zero_smul, add_zero]; exact hb
        · exact hfree i hi (by omega)
      · rintro ⟨k, hk, hkf, hk', hfree⟩
        obtain ⟨i, rfl⟩ : ∃ i, k = i + 1 := ⟨k - 1, by omega⟩
        rw [add_succ_smul] at hk'
        rcases Nat.eq_zero_or_pos i with rfl | hi
        · rw [zero_smul, add_zero, hb] at hk'; cases hk'
        · refine ⟨i, hi, by omega, hk', fun j hj hji => ?_⟩
          rw [← add_succ_smul]
          exact hfree (j + 1) (by omega) (by omega)

/-- **What the collecting loop gathers**: what is emitted at the squares of the
line that it reaches, those with no stopping and no outside square before them. -/
theorem mem_collect_iff (inside stop : V → Bool) (emit : V → List β) (step : V) (x : β) :
    ∀ (fuel : ℕ) (src : V), x ∈ collect inside stop emit step fuel src ↔
      ∃ k : ℕ, 0 < k ∧ k ≤ fuel ∧ x ∈ emit (src + k • step) ∧
        (∀ j : ℕ, 0 < j → j ≤ k → inside (src + j • step) = true) ∧
        ∀ j : ℕ, 0 < j → j < k → stop (src + j • step) = false := by
  intro fuel
  induction fuel with
  | zero =>
    intro src
    constructor
    · intro h; cases h
    · rintro ⟨k, hk, hk', -⟩; omega
  | succ fuel ih =>
    intro src
    rw [collect]
    constructor
    · intro h
      split at h
      case isFalse => cases h
      case isTrue hin =>
        have hfirst : ∀ j : ℕ, 0 < j → j ≤ 1 → inside (src + j • step) = true := by
          intro j hj hj1
          obtain rfl : j = 1 := by omega
          rw [one_smul]; exact hin
        rcases List.mem_append.mp h with h | h
        · refine ⟨1, by omega, by omega, by rw [one_smul]; exact h, hfirst, fun j hj hj' => by omega⟩
        · split at h
          case isTrue => cases h
          case isFalse hstop =>
            obtain ⟨k, hk, hkf, hx, hins, hst⟩ := (ih (src + step)).mp h
            refine ⟨k + 1, by omega, by omega, by rw [add_succ_smul]; exact hx, ?_, ?_⟩
            · intro j hj hjk
              obtain ⟨i, rfl⟩ : ∃ i, j = i + 1 := ⟨j - 1, by omega⟩
              rcases Nat.eq_zero_or_pos i with rfl | hi
              · exact hfirst 1 (by omega) (by omega)
              · rw [add_succ_smul]; exact hins i hi (by omega)
            · intro j hj hjk
              obtain ⟨i, rfl⟩ : ∃ i, j = i + 1 := ⟨j - 1, by omega⟩
              rw [add_succ_smul]
              rcases Nat.eq_zero_or_pos i with rfl | hi
              · rw [zero_smul, add_zero]; simpa using hstop
              · exact hst i hi (by omega)
    · rintro ⟨k, hk, hkf, hx, hins, hst⟩
      obtain ⟨i, rfl⟩ : ∃ i, k = i + 1 := ⟨k - 1, by omega⟩
      have hin : inside (src + step) = true := by
        have := hins 1 (by omega) (by omega)
        rwa [one_smul] at this
      rw [if_pos hin]
      rw [add_succ_smul] at hx
      rcases Nat.eq_zero_or_pos i with rfl | hi
      · rw [zero_smul, add_zero] at hx
        exact List.mem_append_left _ hx
      · have hstop : stop (src + step) = false := by
          have := hst 1 (by omega) (by omega)
          rwa [one_smul] at this
        refine List.mem_append_right _ ?_
        rw [hstop, if_neg (by decide)]
        refine (ih (src + step)).mpr ⟨i, hi, by omega, hx, ?_, ?_⟩
        · intro j hj hji
          rw [← add_succ_smul]; exact hins (j + 1) (by omega) (by omega)
        · intro j hj hji
          rw [← add_succ_smul]; exact hst (j + 1) (by omega) (by omega)

/-- The loop gathers nothing twice if nothing is emitted twice, at one square or at two. -/
theorem nodup_collect (inside stop : V → Bool) (emit : V → List β) (step : V)
    (hemit : ∀ pos, (emit pos).Nodup) : ∀ (fuel : ℕ) (src : V),
    (∀ j k : ℕ, 0 < j → j < k → (emit (src + j • step)).Disjoint (emit (src + k • step))) →
    (collect inside stop emit step fuel src).Nodup := by
  intro fuel
  induction fuel with
  | zero => intro src _; exact List.nodup_nil
  | succ fuel ih =>
    intro src hdisj
    have hrest : (collect inside stop emit step fuel (src + step)).Nodup := by
      refine ih (src + step) fun j k hj hjk => ?_
      rw [← add_succ_smul, ← add_succ_smul]
      exact hdisj (j + 1) (k + 1) (by omega) (by omega)
    rw [collect]
    split
    case isFalse => exact List.nodup_nil
    case isTrue =>
      split
      case isTrue =>
        rw [List.append_nil]
        exact hemit _
      case isFalse =>
        refine List.nodup_append'.mpr ⟨hemit _, hrest, fun x hx hx' => ?_⟩
        obtain ⟨k, hk, -, hxk, -, -⟩ := (mem_collect_iff _ _ _ _ _ _ _).mp hx'
        rw [← add_succ_smul] at hxk
        have hx1 : x ∈ emit (src + 1 • step) := by rw [one_smul]; exact hx
        exact hdisj 1 (k + 1) (by omega) (by omega) hx1 hxk

/-! ### Lines of sight -/

/-- `tgt` is on the line from `src` and every square strictly between is free. -/
def Sees (free : V → Prop) (src step tgt : V) : Prop :=
  ∃ k : ℕ, 0 < k ∧ tgt = src + k • step ∧ ∀ j : ℕ, 0 < j → j < k → free (src + j • step)

theorem Sees.mono {free free' : V → Prop} {src step tgt : V} (h : Sees free src step tgt)
    (hf : ∀ sq, free sq → free' sq) : Sees free' src step tgt := by
  obtain ⟨k, hk, htgt, hfree⟩ := h
  exact ⟨k, hk, htgt, fun j hj hjk => hf _ (hfree j hj hjk)⟩

/-- A map that takes lines to lines takes lines of sight to lines of sight. -/
theorem Sees.map {free free' : V → Prop} {src step tgt : V} (h : Sees free src step tgt)
    {f : V → V} {step' : V} (hline : ∀ j : ℕ, f (src + j • step) = f src + j • step')
    (hf : ∀ sq, free sq → free' (f sq)) : Sees free' (f src) step' (f tgt) := by
  obtain ⟨k, hk, rfl, hfree⟩ := h
  refine ⟨k, hk, hline k, fun j hj hjk => ?_⟩
  rw [← hline]
  exact hf _ (hfree j hj hjk)

/-- **Sight is mutual**: along the reversed step the target sees the source. -/
theorem Sees.symm {free : V → Prop} {src step tgt : V} (h : Sees free src step tgt) :
    Sees free tgt (-step) src := by
  obtain ⟨k, hk, rfl, hfree⟩ := h
  refine ⟨k, hk, by rw [smul_neg]; abel, fun j hj hjk => ?_⟩
  have hpt : src + k • step + j • -step = src + (k - j) • step := by
    obtain ⟨i, rfl⟩ := Nat.exists_eq_add_of_le (Nat.le_of_lt hjk)
    rw [Nat.add_sub_cancel_left, add_smul, smul_neg]; abel
  rw [hpt]
  exact hfree (k - j) (by omega) (by omega)

/-- **A newly opened line passes through a newly freed square.** -/
theorem Sees.blocked {free free' : V → Prop} {src step tgt : V} (h : Sees free' src step tgt)
    (hn : ¬ Sees free src step tgt) :
    ∃ k j : ℕ, 0 < j ∧ j < k ∧ tgt = src + k • step ∧ free' (src + j • step) ∧
      ¬ free (src + j • step) ∧ ∀ i : ℕ, 0 < i → i < k → free' (src + i • step) := by
  obtain ⟨k, hk, htgt, hfree⟩ := h
  by_contra hall
  refine hn ⟨k, hk, htgt, fun j hj hjk => ?_⟩
  by_contra hj'
  exact hall ⟨k, j, hj, hjk, htgt, hfree j hj hjk, hj', hfree⟩

end Group
end LineWalk
