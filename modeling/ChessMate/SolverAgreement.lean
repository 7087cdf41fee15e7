import ChessMate.BreadthDepths
import ChessMate.TakeBacks

/-! # The two solvers agree

`dfs.cc` searches depth first, with piece lists, quick tests for checks and legal moves,
a sorted order of moves and a cache; `checkmate.cc` expands whole layers of boards and
scores them backwards.  The two share the moves and nothing else.  Where both play by the
rules they agree on the forced mates (`solvers_agree`): a mate that the depth-first search
finds within `n` moves is found by the breadth-first one at depth `2 * n + 1`, and the
other way round if the first side never comes to take a move back, which is the one kind
of move that the depth-first search does not try.
-/
namespace Chess
open MateGame ProgramLogic

/-- **Play without a move that is taken back**: within `n` rounds the first side has no
legal move that `isCircularMove` rejects. -/
def AttackState.NoTakeBacks (flags : Flags) : ℕ → AttackState → Prop
  | 0, _ => True
  | n + 1, a => ∀ m, a.curBoard.IsLegal flags a.blackFirst m →
      a.round.isCircularMove m = false ∧
      ∀ m', (a.after m).maxStepState.IsLegal flags (!a.blackFirst) m' →
        NoTakeBacks flags n ((a.after m).after m')

section Games
variable {flags : Flags} {first : Bool}

/-- The moves that the depth-first search tries are legal, and so are all replies. -/
theorem simulation_pruned_mate (flags : Flags) (first : Bool) :
    Simulation (prunedGame flags) (mateGame flags first)
      (fun a b => a.curBoard = b ∧ a.blackFirst = first)
      (fun d s => d.maxStepState = s ∧ d.blackFirst = first) where
  attack := by
    rintro a _ d ⟨rfl, rfl⟩ ⟨m, hm, -, rfl⟩
    exact ⟨_, ⟨m, hm, rfl⟩, rfl, rfl⟩
  reply := by
    rintro d _ _ ⟨rfl, rfl⟩ ⟨m, hm, rfl⟩
    exact ⟨d.after m, ⟨m, hm, rfl⟩, rfl, rfl⟩
  hasReply := by
    rintro d _ _ ⟨rfl, rfl⟩ ⟨m, hm, rfl⟩
    exact ⟨_, m, hm, rfl⟩
  check := by
    rintro d _ ⟨rfl, rfl⟩ hcheck
    exact hcheck

/-- Where nothing is rejected there is nothing to answer. -/
theorem AttackState.NoTakeBacks.answered {first : Bool} (n : ℕ) : ∀ {b : Board} {parent},
    NoTakeBacks flags (n + 1) ⟨first, b, parent⟩ → b.TakeBacksAnswered flags first n := by
  induction n with
  | zero => exact fun _ => trivial
  | succ n ih =>
    intro b parent hfree m hm r hr
    have hnext := (hfree m (Board.mem_legalMoves.mp hm)).2 r (Board.mem_legalMoves.mp hr)
    refine ⟨fun m' hm' hcircular => ?_, ih hnext⟩
    exact absurd hcircular (Bool.eq_false_iff.mp (hnext m' (Board.mem_legalMoves.mp hm')).1)

/-- **Where no move is taken back, nothing is lost.** -/
theorem AttackState.NoTakeBacks.wins {first : Bool} {b : Board} {n : ℕ}
    (h : NoTakeBacks flags n ⟨first, b, none⟩) (hb : Playable b first)
    (hwins : (mateGame flags first).Wins n b) : (prunedGame flags).Wins n ⟨first, b, none⟩ := by
  cases n with
  | zero => exact hwins.elim
  | succ n => exact (h.answered n).wins hb hwins

/-- A mated board is called lost at every depth. -/
theorem evaluate_of_mated {b : Board} (h : TreeBoard b first) (hcheck : b.isChecked first = true)
    (hpassant : b.NoWhitePassant flags first) (hnone : b.legalMoves flags first = []) (d : ℕ)
    (tree : List (List TreeNode)) :
    (b.evaluate flags first (d + 1) tree).1 = -CHECKMATE := by
  have hmoves : b.nextBoards flags first 1 = [] := by
    by_contra hne
    have hmade : Pictures (b.nextBoards flags first 1) (b.LeadsTo flags first) :=
      pictures_nextBoards (l := 1) h (.refl b)
    obtain ⟨s, hs⟩ := hmade.ne_nil_iff.mp hne
    obtain ⟨m, hm, -⟩ := hpassant.leadsTo_iff.mp hs
    rw [← Board.mem_legalMoves, hnone] at hm
    cases hm
  rw [evaluate_eq h.notAttacked, nodeScore_first rfl, hmoves, List.foldl_nil, Board.expandScore,
    h.notAttacked, hcheck]
  rfl

end Games

/-- **The solvers agree**, where white cannot take en passant: the mates that the depth-first
search finds are found breadth first if there is no stalemate beside them, those that are
found breadth first are found depth first if no move is taken back, and a mated first side
is called lost by both. -/
theorem solvers_agree {κ : Type} [DecidableEq κ] (flags : Flags) (order : MoveOrder)
    (hash : (Fin 8 → Fin 8 → PieceType) → κ) {b : Board} {first : Bool} {n : ℕ}
    (hb : b.FileLoaded) (hsecond : b.isChecked (!first) = false) (h1 : 1 ≤ n)
    (hstore : (n : Int) < flags.minStoreLevel) (hpassant : b.PassantFree flags first n)
    (tree : List (List TreeNode)) :
    ∃ result w, Returns (Search.run flags order hash ⟨b, first, n⟩) World.initial result w ∧
      (b.StalemateFree flags first n → result.1 = CHECKMATE →
        (b.evaluate flags first (2 * n + 1) tree).1 = CHECKMATE) ∧
      (AttackState.NoTakeBacks flags n ⟨first, b, none⟩ →
        (b.evaluate flags first (2 * n + 1) tree).1 = CHECKMATE → result.1 = CHECKMATE) ∧
      (result.1 = -CHECKMATE → (b.evaluate flags first (2 * n + 1) tree).1 = -CHECKMATE) := by
  obtain ⟨result, w, hret, hrep⟩ := run_inactive order hash (hb.playable hsecond) h1 hstore
  have htree : TreeBoard b first := ⟨hb.kings.1, hb.kings.2.doubleStepOk, hsecond⟩
  have hvalue : (b.evaluate flags first (2 * n + 1) tree).1 = CHECKMATE ↔ OddWins flags first n b := by
    rw [evaluate_eq hsecond]
    exact nodeScore_odd_iff n rfl htree (.refl b)
  refine ⟨result, w, hret, fun hstale hmate => ?_, fun hfree hmate => ?_, fun hlost => ?_⟩
  · refine hvalue.mpr (OddWins.of_wins n hpassant hstale ?_)
    exact (simulation_pruned_mate flags first).wins ⟨rfl, rfl⟩ (hrep.mate_iff.mp hmate)
  · have hwins := OddWins.wins n hpassant (hvalue.mp hmate)
    exact hrep.mate_iff.mpr (hfree.wins (hb.playable hsecond) hwins)
  · have hscore := hrep.otherwise (by rw [hlost]; decide)
    obtain ⟨n, rfl⟩ := Nat.exists_eq_add_one.mpr h1
    have hmated : b.legalMoves flags first = [] ∧ b.isChecked first = true := by
      rw [hlost] at hscore
      split_ifs at hscore with hmoves hcheck
      · exact absurd hscore (by decide)
      · exact ⟨not_not.mp hmoves, hcheck⟩
      · exact absurd hscore (by decide)
    exact evaluate_of_mated htree hmated.2 hpassant.1 hmated.1 _ tree

instance decidableNoTakeBacks (flags : Flags) :
    ∀ n (a : AttackState), Decidable (AttackState.NoTakeBacks flags n a)
  | 0, _ => inferInstanceAs (Decidable True)
  | n + 1, a =>
      have := decidableNoTakeBacks flags n
      inferInstanceAs (Decidable (∀ m, a.curBoard.IsLegal flags a.blackFirst m → _ ∧
        ∀ m', (a.after m).maxStepState.IsLegal flags (!a.blackFirst) m' → _))

/-- Both solvers find the pawn's mate in two. -/
theorem solvers_agree_pawn_step :
    ∃ result w, Returns (Search.run ⟨false, 3, by decide⟩ .asGenerated placementKey
        ⟨Board.pawnStep, false, 2⟩) World.initial result w ∧ result.1 = CHECKMATE ∧
      (Board.pawnStep.evaluate ⟨false, 3, by decide⟩ false 5 []).1 = CHECKMATE := by
  have hloaded : Board.pawnStep.FileLoaded := Board.fileLoaded_ofText (by decide +kernel)
  have hsecond : Board.pawnStep.isChecked (!false) = false := by decide +kernel
  have hfree : Board.pawnStep.PassantFree ⟨false, 3, by decide⟩ false 2 := by decide +kernel
  have hstale : Board.pawnStep.StalemateFree ⟨false, 3, by decide⟩ false 2 := by decide +kernel
  have hback : AttackState.NoTakeBacks ⟨false, 3, by decide⟩ 2 ⟨false, Board.pawnStep, none⟩ := by
    decide +kernel
  have hwins : (mateGame ⟨false, 3, by decide⟩ false).Wins 2 Board.pawnStep := by
    rw [← Board.matesWithin_iff]
    decide +kernel
  have hfound : (Board.pawnStep.evaluate ⟨false, 3, by decide⟩ false 5 []).1 = CHECKMATE := by
    rw [evaluate_eq hsecond]
    refine (nodeScore_odd_iff 2 rfl ⟨hloaded.kings.1, hloaded.kings.2.doubleStepOk, hsecond⟩
      (.refl _)).mpr ?_
    exact OddWins.of_wins 2 hfree hstale hwins
  obtain ⟨result, w, hret, -, hmate, -⟩ := solvers_agree ⟨false, 3, by decide⟩ .asGenerated
    placementKey hloaded hsecond (by decide) (by decide : ((2 : ℕ) : Int) < 3) hfree []
  exact ⟨result, w, hret, hmate hback hfound, hfound⟩

end Chess
