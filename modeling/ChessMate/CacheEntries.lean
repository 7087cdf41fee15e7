import ChessMate.CacheTransparency

/-! # What the entries of the cache mean

An entry of a score map has two bounds: up to the first no mate was found, and from the
second on there was one.  `getScoreFromCache` asks the first bound before the second, so
an entry whose bounds cross would give answers that depend on the order of the tests.

As long as a key stands for one position, with the same moves, the bounds never cross:
they enclose the number of moves that the mate takes, for every position that was recorded
under the key (`cache_entries_bracket`).  This holds after any number of searches, however
they were ordered and whatever was answered from the cache on the way.  Nothing is asked of
the hash but that it had no collision in the run.
-/
namespace Chess
open ProgramLogic MateGame

/-! ## One position for a key -/

/-- Two rounds that a score map is asked about are about one position: the placements are
the same, and so are the moves. -/
structure OneRound.SamePosition (flags : Flags) (maxOrMin : Bool) (r r' : OneRound) : Prop where
  moves : r.SameMoves flags maxOrMin r'
  placement : if maxOrMin then
      ∀ s s', r.maxStepState = some s → r'.maxStepState = some s' → s.positions = s'.positions
    else r.curBoard.positions = r'.curBoard.positions

/-- **Every lookup that was answered was answered for the position that it asked about.** -/
def World.HitsFaithful {κ : Type} (flags : Flags) (w : World κ) : Prop :=
  w.HitsRelated (OneRound.SamePosition flags) flags

/-- The rounds that were recorded under one key are about one position. -/
def World.UpdatesFaithful {κ : Type} (flags : Flags) (w : World κ) : Prop :=
  ∀ mm sig r r' height height' score score' cache cache',
    Event.update mm r sig height score cache ∈ w.trace →
    Event.update mm r' sig height' score' cache' ∈ w.trace → r.SamePosition flags mm r'

section Verdicts
variable {κ : Type} {hash : (Fin 8 → Fin 8 → PieceType) → κ} {flags : Flags}

/-- **Rounds about one position have the same verdict.** -/
theorem OneRound.SamePosition.mates_iff {mm : Bool} {r r' : OneRound} {sig sig' : κ}
    (hsame : r.SamePosition flags mm r') (h : About hash flags AttackState.Unscored mm r sig)
    (h' : About hash flags AttackState.Unscored mm r' sig') (height : ℕ) :
    Mates flags mm r height ↔ Mates flags mm r' height := by
  obtain ⟨hmoves, hplacement⟩ := hsame
  -- the placements serve as the keys
  cases mm with
  | false =>
    obtain ⟨ha, hparent, -⟩ := h
    obtain ⟨ha', hparent', -⟩ := h'
    have habout : About id flags AttackState.Unscored false r r.curBoard.positions :=
      ⟨ha, hparent, rfl⟩
    exact mates_congr Function.injective_id habout ⟨ha', hparent', hplacement⟩ hmoves height
  | true =>
    obtain ⟨s, hs, -⟩ := h
    obtain ⟨s', hs', -⟩ := h'
    have habout : About id flags AttackState.Unscored true r s.positions := ⟨s, hs, rfl⟩
    have hpos := hplacement s s' hs.maxStepState hs'.maxStepState
    exact mates_congr Function.injective_id habout ⟨s', hs', hpos⟩ hmoves height

/-- Whatever the hash is. -/
theorem samePosition_verdict : SameVerdict hash flags (OneRound.SamePosition flags) :=
  fun _ _ _ _ h h' hsame => hsame.mates_iff h h'

end Verdicts

/-! ## Entries -/

/-- **The bounds enclose the height from which on the property holds.** -/
structure Brackets (entry : Int × Int) (P : ℕ → Prop) : Prop where
  below : ∀ height : ℕ, 1 ≤ height → (height : Int) ≤ entry.1 → ¬ P height
  above : ∀ height : ℕ, (height : Int) < INT_MAX → entry.2 ≤ height → P height

section Entries
variable {κ : Type} {hash : (Fin 8 → Fin 8 → PieceType) → κ} {flags : Flags}
variable {bound : Bool → ℕ} {w : World κ} {mm : Bool} {sig : κ} {entry : Int × Int}
variable (h : w.Transparent (OneRound.SamePosition flags) hash flags bound)
variable (hj : w.Justified flags) (hone : w.UpdatesFaithful flags)
variable (hentry : w.cache.signatures mm sig = some entry)
include h hj hone hentry

/-- **The bounds are right for every round that was recorded under the key.** -/
theorem World.Justified.brackets {r : OneRound} {height : ℕ} {score : Int}
    {cache : SolutionCache κ} (hmem : Event.update mm r sig height score cache ∈ w.trace) :
    Brackets entry (Mates flags mm r) where
  below k hk hle hmate := by
    have hpos : (1 : Int) ≤ entry.1 := le_trans (by exact_mod_cast hk) hle
    obtain ⟨r', height', score', cache', hmem', heq, -, -, hno⟩ := hj.first mm sig entry hentry hpos
    have hsame := hone mm sig r r' _ _ _ _ _ _ hmem hmem'
    rw [← heq] at hle
    refine hno ((hsame.mates_iff (h.update hmem).1 (h.update hmem').1 height').mp ?_)
    exact hmate.mono (by exact_mod_cast hle)
  above k hmax hle := by
    obtain ⟨r', height', cache', hmem', heq, -, hmate⟩ :=
      hj.second mm sig entry hentry (lt_of_le_of_lt hle hmax)
    have hsame := hone mm sig r r' _ _ _ _ _ _ hmem hmem'
    rw [← heq] at hle
    refine Mates.mono (by exact_mod_cast hle) ?_
    exact (hsame.mates_iff (h.update hmem).1 (h.update hmem').1 height').mpr hmate

/-- **The bounds do not cross.** -/
theorem World.Justified.bounds_lt (hb : ∀ mm, (bound mm : Int) < INT_MAX) : entry.1 < entry.2 := by
  by_contra hcross
  rw [not_lt] at hcross
  by_cases hset : entry.2 < INT_MAX
  · obtain ⟨r, height, cache, hmem, heq, -, hmate⟩ := hj.second mm sig entry hentry hset
    have hpos := (h.update hmem).2.1
    refine (World.Justified.brackets h hj hone hentry hmem).below height hpos ?_ hmate
    rw [heq]
    exact hcross
  · have hfirst : (1 : Int) ≤ entry.1 := by
      unfold INT_MAX at hset
      omega
    obtain ⟨r, height, score, cache, hmem, heq, -⟩ := hj.first mm sig entry hentry hfirst
    have hle : (height : Int) ≤ bound mm := by exact_mod_cast (h.update hmem).2.2
    have hlt := hb mm
    omega

end Entries

section Tests
variable {κ : Type} [DecidableEq κ] {flags : Flags}

theorem OneRound.samePosition_iff {mm : Bool} {r r' : OneRound} :
    r.SamePosition flags mm r' ↔ r.SameMoves flags mm r' ∧ if mm then
      ∀ s ∈ r.maxStepState, ∀ s' ∈ r'.maxStepState,
        placementKey s.positions = placementKey s'.positions
    else placementKey r.curBoard.positions = placementKey r'.curBoard.positions := by
  simp only [placementKey_injective.eq_iff]
  constructor
  · intro h
    refine ⟨h.moves, ?_⟩
    cases mm with
    | false => exact h.placement
    | true => exact fun s hs s' hs' => h.placement s s' hs hs'
  · intro h
    refine ⟨h.1, ?_⟩
    cases mm with
    | false => exact h.2
    | true => exact fun s s' hs hs' => h.2 s hs s' hs'

instance (mm : Bool) (r r' : OneRound) : Decidable (r.SamePosition flags mm r') :=
  decidable_of_iff _ OneRound.samePosition_iff.symm

/-- The key and the round of an update. -/
def Event.updateOf : Event κ → Option (Bool × κ × OneRound)
  | .update mm r sig _ _ _ => some (mm, sig, r)
  | _ => none

/-- Are the rounds that were recorded under one key about one position? -/
def World.testUpdates (flags : Flags) (w : World κ) : Bool :=
  let updates := w.trace.filterMap Event.updateOf
  updates.all fun u => updates.all fun u' =>
    decide (u.1 = u'.1 → u.2.1 = u'.2.1 → u.2.2.SamePosition flags u.1 u'.2.2)

theorem World.updatesFaithful_of_test {w : World κ} (h : w.testUpdates flags = true) :
    w.UpdatesFaithful flags := by
  intro mm sig r r' height height' score score' cache cache' hmem hmem'
  have hupdate := List.mem_filterMap.mpr ⟨_, hmem, (rfl : Event.updateOf _ = some (mm, sig, r))⟩
  have hupdate' := List.mem_filterMap.mpr ⟨_, hmem', (rfl : Event.updateOf _ = some (mm, sig, r'))⟩
  have hall := List.all_eq_true.mp (List.all_eq_true.mp h _ hupdate) _ hupdate'
  exact of_decide_eq_true hall rfl rfl

end Tests

end Chess
