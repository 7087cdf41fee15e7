import ChessMate.SearchRun

/-! # The verdict of a search without a cache

From a board that play reaches, every position that the search comes to is one
that play reaches (`region_sound`).  A score map that is never written answers
no lookup (`stable_inactive`), so nothing stands between the score of
`expand_runs` and the verdict of the game.
-/
namespace Chess
open ProgramLogic MateGame Relation

section Verdict
variable {κ : Type} [DecidableEq κ] {hash : (Fin 8 → Fin 8 → PieceType) → κ}
variable {flags : Flags} {order : MoveOrder} {P : AttackState → Prop} {bound : Bool → ℕ}

/-- **The boards that play reaches are a region.** -/
theorem region_sound (flags : Flags) : Region flags AttackState.Sound := by
  intro a ha m hm _ m' hm'
  rw [AttackState.tried_eq ha, Board.mem_legalMoves] at hm
  have hd := played_of_attack ha hm
  rw [hd.replies_eq, Board.mem_legalMoves] at hm'
  exact sound_of_reply hd hm'

/-- No score was ever stored, and no lookup was answered wrongly. -/
structure World.Inactive (flags : Flags) (w : World κ) : Prop where
  noScore : ∀ mm sig, w.cache.signatures mm sig = none
  right : w.LookupsRight flags

omit [DecidableEq κ] in
theorem World.Inactive.initial : (World.initial : World κ).Inactive flags where
  noScore := SolutionCache.signatures_initial
  right _ _ _ _ _ _ h := by cases h

omit [DecidableEq κ] in
/-- An event that is no answered lookup does not matter for rightness. -/
theorem World.LookupsRight.cons {cache : SolutionCache κ} {trace : List (Event κ)} {event : Event κ}
    {c : SolutionCache κ} (h : (⟨c, trace⟩ : World κ).LookupsRight flags)
    (he : ∀ mm r sig height cache' score, event ≠ .lookup mm r sig height cache' (some score)) :
    (⟨cache, event :: trace⟩ : World κ).LookupsRight flags := by
  intro mm r sig height cache' score hmem
  rcases List.mem_cons.mp hmem with hmem | hmem
  · exact absurd hmem.symm (he mm r sig height cache' score)
  · exact h mm r sig height cache' score hmem

/-- **Below the store level the score maps stay empty.** -/
theorem stable_inactive (hb : ∀ mm, (bound mm : Int) < flags.minStoreLevel) :
    Stable (Step hash flags P bound) fun w => w.Inactive flags := by
  intro w w' h hw
  cases h with
  | note event h =>
    refine ⟨hw.noScore, hw.right.cons ?_⟩
    rintro mm r sig height cache score rfl
    exact h
  | lookup mm r sig height ha hp h =>
    refine ⟨hw.noScore, hw.right.cons ?_⟩
    rintro mm' r' sig' height' cache score heq
    have hnone : w.cache.getScoreFromCache mm sig height = none := by
      unfold SolutionCache.getScoreFromCache
      rw [hw.noScore]
    rw [hnone] at heq
    cases heq
  | @update mm r sig height score h hmate =>
    have hlow : (height : Int) < flags.minStoreLevel :=
      lt_of_le_of_lt (by exact_mod_cast h.le_bound) (hb mm)
    refine ⟨fun mm' sig' => ?_, hw.right.cons ?_⟩
    · show (w.cache.updateCache flags mm sig height score).signatures mm' sig' = none
      unfold SolutionCache.updateCache
      rw [if_pos hlow]
      exact hw.noScore mm' sig'
    · rintro mm' r' sig' height' cache score' heq
      cases heq
  | @solved child sig height r s h hstate hs hsolved =>
    have hlow : ¬ flags.minStoreLevel ≤ height :=
      not_le.mpr (lt_of_le_of_lt (by exact_mod_cast h.le_bound) (hb false))
    refine ⟨fun mm' sig' => ?_, ?_⟩
    · rw [(w.recorded_maps flags child sig height r s).1, if_neg hlow]
      exact hw.noScore mm' sig'
    · unfold World.recorded
      rw [if_neg hlow]
      refine hw.right.cons ?_
      rintro mm' r' sig' height' cache score' heq
      cases heq

theorem int_lt_of_lt_storeLevel {n : ℕ} (h : (n : Int) < flags.minStoreLevel) :
    (n : Int) < INT_MAX := lt_of_lt_of_le h flags.minStoreLevel_le

/-- The score that a search reports for its verdict. -/
structure Reports (flags : Flags) (b : Board) (first : Bool) (n : ℕ) (score : Int) : Prop where
  mate_iff : score = CHECKMATE ↔ (prunedGame flags).Wins n ⟨first, b, none⟩
  otherwise : score ≠ CHECKMATE → score =
    if b.legalMoves flags first ≠ [] then NONE
    else if b.isChecked first = true then -CHECKMATE
    else -STALLMATE

omit [DecidableEq κ] in
/-- A search whose lookups were right reports the verdict of the game. -/
theorem ExpandPost.reports {b : Board} {first : Bool} {n : ℕ} (hp : Playable b first)
    {result : Int × OneRound} {w : World κ}
    (h : ExpandPost hash flags n (OneRound.create b first 0 none) result w)
    (hright : w.LookupsRight flags) : Reports flags b first n result.1 := by
  have ha : (⟨first, b, none⟩ : AttackState).Sound := hp
  have htried : (⟨first, b, none⟩ : AttackState).tried flags = b.legalMoves flags first :=
    AttackState.tried_eq ha
  refine ⟨(h.right hright).trans (wins_searchGame_iff ha n), fun hne => ?_⟩
  by_cases hempty : b.legalMoves flags first = []
  · rw [if_neg (not_not.mpr hempty), h.noMoves (htried.trans hempty)]
    have hcheck : (OneRound.create b first 0 none).isChecked = b.isChecked first :=
      AttackState.isMaxChecked_eq ⟨first, b, none⟩
    rw [hcheck]
  · rw [if_pos hempty]
    exact (h.moves fun h' => hempty (htried.symm.trans h')).resolve_left hne

/-- The search of a board of a region with the cache inactive. -/
theorem run_inactive_post (order : MoveOrder) (hash : (Fin 8 → Fin 8 → PieceType) → κ)
    (hreg : Region flags P) {b : Board} {first : Bool} {n : ℕ} (hP : P ⟨first, b, none⟩)
    (h1 : 1 ≤ n) (hstore : (n : Int) < flags.minStoreLevel) :
    ∃ result w, Returns (Search.run flags order hash ⟨b, first, n⟩) World.initial result w ∧
      ExpandPost hash flags n (OneRound.create b first 0 none) result w ∧ w.LookupsRight flags := by
  have hruns : Runs False (Step hash flags P fun _ => n) (fun w => w.cache.Known)
      (Search.run flags order hash ⟨b, first, n⟩)
      (ExpandPost hash flags n (OneRound.create b first 0 none)) :=
    searchRun_runs hreg ⟨hP, le_refl n, Or.inr ⟨h1, int_lt_of_lt_storeLevel hstore⟩⟩
  obtain ⟨result, w, hret, -, hpost, hinactive⟩ :=
    (hruns.frame (stable_inactive fun _ => hstore)).total
      ⟨SolutionCache.known_initial, World.Inactive.initial⟩
  exact ⟨result, w, hret, hpost, hinactive.right⟩

/-- The search of a playable board with the cache inactive. -/
theorem run_inactive (order : MoveOrder) (hash : (Fin 8 → Fin 8 → PieceType) → κ) {b : Board}
    {first : Bool} {n : ℕ} (hp : Playable b first) (h1 : 1 ≤ n)
    (hstore : (n : Int) < flags.minStoreLevel) :
    ∃ result w, Returns (Search.run flags order hash ⟨b, first, n⟩) World.initial result w ∧
      Reports flags b first n result.1 := by
  obtain ⟨result, w, hret, hpost, hright⟩ :=
    run_inactive_post order hash (region_sound flags) hp h1 hstore
  exact ⟨result, w, hret, hpost.reports hp hright⟩

end Verdict

/-- **Exactness without caching**: the search returns `CHECKMATE` exactly when the
first side can force mate within `n` of its moves, none of them rejected by
`isCircularMove`, and otherwise says whether it is mated, stalemated, or neither. -/
theorem expand_exact {κ : Type} [DecidableEq κ] (flags : Flags) (order : MoveOrder)
    (hash : (Fin 8 → Fin 8 → PieceType) → κ) {b : Board} {first : Bool} {n : ℕ}
    (hb : b.FileLoaded) (hsecond : b.isChecked (!first) = false) (h1 : 1 ≤ n)
    (hstore : (n : Int) < flags.minStoreLevel) :
    ∃ result w, Returns (Search.run flags order hash ⟨b, first, n⟩) World.initial result w ∧
      (result.1 = CHECKMATE ↔ (prunedGame flags).Wins n ⟨first, b, none⟩) ∧
      (result.1 ≠ CHECKMATE → result.1 =
        if b.legalMoves flags first ≠ [] then NONE
        else if b.isChecked first = true then -CHECKMATE
        else -STALLMATE) := by
  obtain ⟨result, w, hret, hrep⟩ :=
    run_inactive order hash (hb.playable hsecond) h1 hstore
  exact ⟨result, w, hret, hrep.mate_iff, hrep.otherwise⟩

/-- A board to try the results on: the kings in opposition, and a white rook that
mates in one. -/
def Board.rookMate : Board := ofText "kb6\nrc7\nKa8\n"

theorem Board.rookMate_fileLoaded : rookMate.FileLoaded := fileLoaded_ofText (by decide +kernel)

theorem Board.rookMate_second : rookMate.isChecked true = false := by decide +kernel

/-- White to move mates in two: the pawn leaves black no move but its own pawn's, and
promotes.  On the way white's king moves are taken back, and rejected. -/
def Board.lonePawn : Board := ofText "kb6\npc6\nKa8\nPh4\n"

theorem Board.lonePawn_fileLoaded : lonePawn.FileLoaded := fileLoaded_ofText (by decide +kernel)

theorem Board.lonePawn_second : lonePawn.isChecked true = false := by decide +kernel

/-- White mates in two levels. -/
theorem expand_exact_lone_pawn :
    ∃ result w, Returns (Search.run ⟨false, 3, by decide⟩ .asGenerated placementKey
        ⟨Board.lonePawn, false, 2⟩) World.initial result w ∧ result.1 = CHECKMATE ∧
      (result.1 = CHECKMATE ↔
        (prunedGame ⟨false, 3, by decide⟩).Wins 2 ⟨false, Board.lonePawn, none⟩) ∧
      (result.1 ≠ CHECKMATE → result.1 =
        if Board.lonePawn.legalMoves ⟨false, 3, by decide⟩ false ≠ [] then NONE
        else if Board.lonePawn.isChecked false = true then -CHECKMATE
        else -STALLMATE) := by
  have hrun : test (Search.run ⟨false, 3, by decide⟩ .asGenerated placementKey
      ⟨Board.lonePawn, false, 2⟩) World.initial (fun result _ => result.1 == CHECKMATE) = true := by
    decide +kernel
  have hsecond : Board.lonePawn.isChecked (!false) = false := Board.lonePawn_second
  obtain ⟨result, w, hret, hmate, hotherwise⟩ :=
    expand_exact ⟨false, 3, by decide⟩ .asGenerated placementKey Board.lonePawn_fileLoaded
      hsecond (by decide) (by decide : ((2 : ℕ) : Int) < 3)
  obtain ⟨result', w', hret', hscore⟩ := returns_of_test hrun
  obtain ⟨rfl, -⟩ := hret.unique hret'
  exact ⟨result, w, hret, beq_iff_eq.mp hscore, hmate, hotherwise⟩

end Chess
