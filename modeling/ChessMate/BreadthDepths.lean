import ChessMate.BreadthLoss

/-! # Which verdicts of the breadth-first solver can be trusted

The boards of the last layer are not expanded: they have the score that the board they
are made from was given.  So the verdicts of the solver depend on whose boards those
are, that is on whether the depth is even or odd.

With an even depth, as `checkmate.cc` has it, the last boards are made by the second
side, with the score of a mate or more.  A win may then be a check and nothing else
(`evaluate_correct_when`), but a loss is one: the first side is checked at each of its
turns until it is mated (`CheckedToMate`, `even_depth_loss`).

With an odd depth it is the other way round.  The last boards are made by the first
side and are worth nothing or a loss.  A loss may then be a check and nothing else
(`loss_correct_when`), but a win is one, and all that can hide a win is a stalemate
beside it (`odd_depth_win`).

Both are up to white's en passant captures, which the solver makes as ordinary moves.
-/
namespace Chess
open LineWalk LayerFold MateGame

/-! ## Wins at odd depths -/

/-- **The wins that the solver finds at odd depths**: forced mates on the way to which
the first side cannot stalemate. -/
def OddWins (flags : Flags) (first : Bool) : ℕ → Board → Prop
  | 0, _ => False
  | n + 1, b =>
      (∀ s, (breadthGame flags first).attack b s →
        (breadthGame flags first).check s ∨ ∃ b', (breadthGame flags first).reply s b') ∧
      ∃ s, (breadthGame flags first).attack b s ∧
        ∀ b', (breadthGame flags first).reply s b' → OddWins flags first n b'

section Wins
variable {flags : Flags} {first : Bool} {b : Board}

/-- **The value of a board of the first side, an odd number of layers above the last.** -/
theorem nodeScore_odd_iff (n : ℕ) : ∀ {l : Nat} {b b' : Board}, l % 2 = 1 → TreeBoard b first →
    b.Alike b' →
    (b.nodeScore flags first (2 * n + 1) l = CHECKMATE ↔ OddWins flags first n b') := by
  induction n with
  | zero =>
    intro l b b' hl h _
    refine iff_of_false (fun heq => ?_) id
    obtain ⟨s, hs, hle⟩ := (checkmate_le_first_iff hl h.notAttacked).mp heq.ge
    -- a board of the last layer has the score with which the board before was expanded
    have hscore : s.nodeScore flags first 0 (l + 1) = b.expandScore first l :=
      score_of_mem_nextBoards hs
    rw [hscore] at hle
    exact absurd (hle.trans (expandScore_first hl h.notAttacked)) (by decide)
  | succ n ih =>
    intro l b b' hl h ha
    have hmover : mover first l = first := if_pos hl
    refine nodeScore_round hl h ha fun s hs s' hs' c hc c' hc' => ih (by omega) ?_ hc'
    have hc₁ := (TreeBoard.next (hmover.symm ▸ h) hs).next hc
    rwa [mover_succ, mover_succ, Bool.not_not, hmover] at hc₁

/-- Such a win is a forced mate. -/
theorem OddWins.wins (n : ℕ) : ∀ {b : Board}, b.PassantFree flags first n →
    OddWins flags first n b → (mateGame flags first).Wins n b := by
  induction n with
  | zero => exact fun _ h => h
  | succ n ih =>
    intro b hfree hwins
    exact wins_of_round hfree (fun s b' hs hb' => ih (hfree.after hs hb')) hwins.1 hwins.2

/-- A forced mate is such a win if there is no stalemate beside it. -/
theorem OddWins.of_wins (n : ℕ) : ∀ {b : Board}, b.PassantFree flags first n →
    b.StalemateFree flags first n → (mateGame flags first).Wins n b → OddWins flags first n b := by
  induction n with
  | zero => exact fun _ _ h => h
  | succ n ih =>
    intro b hfree hstale hwins
    exact round_of_wins hfree hstale
      (fun s b' hs hb' => ih (hfree.after hs hb') (hstale.after hs hb')) hwins

/-- **A win at an odd depth is a forced mate**, where white cannot take en passant, and
every forced mate is found where the first side cannot stalemate either. -/
theorem odd_depth_win (flags : Flags) (hk : KingsOk b) (hlast : b.DoubleStepOk)
    (hsecond : b.isChecked (!first) = false) (n : ℕ) (tree : List (List TreeNode)) :
    ((b.evaluate flags first (2 * n + 1) tree).1 = CHECKMATE ↔ OddWins flags first n b) ∧
    (b.PassantFree flags first n → (b.evaluate flags first (2 * n + 1) tree).1 = CHECKMATE →
      (mateGame flags first).Wins n b) ∧
    (b.PassantFree flags first n → b.StalemateFree flags first n →
      (mateGame flags first).Wins n b →
        (b.evaluate flags first (2 * n + 1) tree).1 = CHECKMATE) := by
  have hvalue : (b.evaluate flags first (2 * n + 1) tree).1 = CHECKMATE ↔ OddWins flags first n b := by
    rw [evaluate_eq hsecond]
    exact nodeScore_odd_iff n rfl ⟨hk, hlast, hsecond⟩ (.refl b)
  refine ⟨hvalue, fun hfree hwin => ?_, fun hfree hstale hwins => ?_⟩
  · exact OddWins.wins n hfree (hvalue.mp hwin)
  · exact hvalue.mpr (OddWins.of_wins n hfree hstale hwins)

end Wins

/-! ## Losses at even depths -/

/-- **The losses that the solver finds at even depths**: the first side is in check at
each of its turns, and has no move at the last of them. -/
def CheckedToMate (flags : Flags) (first : Bool) : ℕ → Board → Prop
  | 0, _ => False
  | n + 1, b => b.isChecked first = true ∧ ∀ s, (breadthGame flags first).attack b s →
      ∃ b', (breadthGame flags first).reply s b' ∧ CheckedToMate flags first n b'

section Losses
variable {flags : Flags} {first : Bool} {b : Board}

/-- **The value of a board of the first side, an even number of layers above the last.** -/
theorem nodeScore_even_lost_iff (n : ℕ) : ∀ {l : Nat} {b b' : Board}, l % 2 = 1 →
    TreeBoard b first → b.Alike b' → (n = 0 → -CHECKMATE < b.score) →
    (b.nodeScore flags first (2 * n) l ≤ -CHECKMATE ↔ CheckedToMate flags first n b') := by
  induction n with
  | zero =>
    intro l b b' _ _ _ hscore
    exact iff_of_false (not_le.mpr (hscore rfl)) id
  | succ n ih =>
    intro l b b' hl h ha _
    have hmover : mover first l = first := if_pos hl
    have hmover' : mover first (l + 1) = !first := mover_of_even (by omega)
    have h' : TreeBoard b (mover first l) := hmover.symm ▸ h
    have hattack : Pictures (b.nextBoards flags first l) (b'.LeadsTo flags first) := by
      have hp : Pictures (b.nextBoards flags first l) (b'.LeadsTo flags (mover first l)) :=
        pictures_nextBoards h' ha
      rwa [hmover] at hp
    rw [show 2 * (n + 1) = 2 * n + 1 + 1 by omega, first_lost_iff hl h.notAttacked, CheckedToMate,
      ha.isChecked]
    refine and_congr_right fun _ => hattack.forall_iff fun s hs s' hs' => ?_
    have hreply : Pictures (s.nextBoards flags first (l + 1)) (s'.LeadsTo flags (!first)) := by
      rw [← hmover']
      exact pictures_nextBoards (h'.next hs) hs'
    rw [second_lost_iff (by omega)]
    refine hreply.exists_iff fun c hc c' hc' => ih (by omega) ?_ hc' fun _ => ?_
    · have hc₁ := (h'.next hs).next hc
      rwa [mover_succ, mover_succ, Bool.not_not, hmover] at hc₁
    · -- what the second side makes has the score of a mate or more
      rw [score_of_mem_nextBoards hc, expandScore_second (by omega)]
      split_ifs <;> decide

/-- Such a loss is one. -/
theorem CheckedToMate.loses (n : ℕ) : ∀ {b : Board}, b.PassantFree flags first (n + 1) →
    CheckedToMate flags first (n + 1) b → (mateGame flags (!first)).Loses n b := by
  induction n with
  | zero =>
    rintro b hfree ⟨hcheck, hall⟩
    refine loses_second_zero.mpr ⟨hcheck, List.eq_nil_iff_forall_not_mem.mpr fun m hm => ?_⟩
    obtain ⟨b', -, hno⟩ := hall _ ((hfree.attack_iff _).mpr ⟨m, Board.mem_legalMoves.mp hm, rfl⟩)
    exact hno
  | succ n ih =>
    rintro b hfree ⟨hcheck, hall⟩
    refine (Game.loses_iff_forall (Or.inl (check_second_iff.mpr hcheck))).mpr fun s hs => ?_
    have hs' : (mateGame flags first).attack b s := reply_second_iff.mp hs
    obtain ⟨b', hb', hlost⟩ := hall s ((hfree.attack_iff s).mpr hs')
    have hb'' := (hfree.reply_iff hs' b').mp hb'
    exact Game.wins_succ.mpr ⟨b', hb'', ih (hfree.after hs' hb'') hlost⟩

/-- **A loss at an even depth is one**, where white cannot take en passant: the second
side mates within one move less than the solver looks ahead. -/
theorem even_depth_loss (flags : Flags) (hk : KingsOk b) (hlast : b.DoubleStepOk)
    (hsecond : b.isChecked (!first) = false) (n : ℕ) (tree : List (List TreeNode)) :
    ((b.evaluate flags first (2 * (n + 1)) tree).1 = -CHECKMATE ↔
      CheckedToMate flags first (n + 1) b) ∧
    (b.PassantFree flags first (n + 1) →
      (b.evaluate flags first (2 * (n + 1)) tree).1 = -CHECKMATE →
        (mateGame flags (!first)).Loses n b) := by
  have hone : 1 % 2 = 1 := rfl
  have hvalue : (b.evaluate flags first (2 * (n + 1)) tree).1 = -CHECKMATE ↔
      CheckedToMate flags first (n + 1) b := by
    rw [evaluate_eq hsecond, ← nodeScore_even_lost_iff (n + 1) hone ⟨hk, hlast, hsecond⟩ (.refl b)
      fun h => absurd h (Nat.succ_ne_zero n)]
    constructor
    · exact fun he => he.le
    · exact fun hle => le_antisymm hle (neg_checkmate_le_first hone hsecond)
  exact ⟨hvalue, fun hfree hlost => CheckedToMate.loses n hfree (hvalue.mp hlost)⟩

end Losses

/-! ## Two boards -/

/-- On the back rank the mate in one is found at depth three. -/
theorem odd_depth_win_back_rank :
    (Board.backRank.evaluate Flags.default false 3 []).1 = CHECKMATE ∧
      (mateGame Flags.default false).Wins 1 Board.backRank := by
  have hkings := Board.backRank_fileLoaded.kings
  have hsecond : Board.backRank.isChecked (!false) = false := by decide +kernel
  have hfree : Board.backRank.PassantFree Flags.default false 1 := by decide +kernel
  have hstale : Board.backRank.StalemateFree Flags.default false 1 := by decide +kernel
  have hwins : (mateGame Flags.default false).Wins 1 Board.backRank := by
    rw [← Board.matesWithin_iff]
    decide +kernel
  obtain ⟨-, hsound, hcomplete⟩ := odd_depth_win Flags.default hkings.1
    hkings.2.doubleStepOk hsecond 1 []
  have hfound := hcomplete hfree hstale hwins
  exact ⟨hfound, hsound hfree hfound⟩

/-- The mated side is called lost at depth two. -/
theorem even_depth_loss_corner_mate :
    (Board.cornerMate.evaluate Flags.default false 2 []).1 = -CHECKMATE ∧
      (mateGame Flags.default (!false)).Loses 0 Board.cornerMate := by
  have hkings := Board.cornerMate_fileLoaded.kings
  have hsecond : Board.cornerMate.isChecked (!false) = false := by decide +kernel
  have hcheck : Board.cornerMate.isChecked false = true := by decide +kernel
  have hno : ∀ p ∈ Board.cornerMate.piecesOf false, ∀ m ∈ p.getMoves Flags.default .cornerMate,
      (Board.cornerMate.makeMove m.asMade).isChecked false = true := by decide +kernel
  have hfree : Board.cornerMate.PassantFree Flags.default false 1 := by decide +kernel
  have hlost : CheckedToMate Flags.default false 1 Board.cornerMate := by
    refine ⟨hcheck, ?_⟩
    rintro s ⟨m, ⟨⟨p, hp, hm⟩, hsafe⟩, -⟩
    rw [hno p hp m hm] at hsafe
    cases hsafe
  obtain ⟨hvalue, hsound⟩ := even_depth_loss Flags.default hkings.1
    hkings.2.doubleStepOk hsecond 0 []
  exact ⟨hvalue.mpr hlost, hsound hfree (hvalue.mpr hlost)⟩

end Chess
