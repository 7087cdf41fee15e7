import ChessMate.BreadthVerdict

/-! # When the breadth-first solver calls a loss

A board of the first side has the score `-CHECKMATE` only if it is in check, since
otherwise `expand` starts it at `NONE` and the backward pass takes maxima.  Its value
stays there if the second side has, against each of its moves, an answer with the
same value.  With an odd depth the last boards of the first side are expanded, but
what is made from them is not: their value is that of the check alone, whether they
have a move or not.

So the solver calls a loss where the second side can give check at each of the first
side's turns (`KeptInCheck`).  That is no mate by force: a mate with a quiet move on
the way is missed, and checks that lead to nothing are taken for one.  Where checks
lead to mates, and a first side that is not in check can keep out of it, the verdict
is right (`loss_correct_when`).
-/
namespace Chess
open LineWalk LayerFold MateGame

/-! ## Scores -/

section Scores
variable {flags : Flags} {first : Bool} {l d : Nat} {b s : Board}

theorem settled_le_neg_checkmate_iff (l : Nat) {score : Int} :
    settled l score ≤ -CHECKMATE ↔ score ≤ -CHECKMATE := by
  have hstall : ¬ STALLMATE ≤ -CHECKMATE := by decide
  have hpos : ¬ (CHECKMATE : Int) ≤ -CHECKMATE := by decide
  unfold settled
  split_ifs with h
  · exact iff_of_false hstall fun hle => hpos (h.2.le.trans hle)
  · rfl

theorem expandScore_first_le_iff (hl : l % 2 = 1) (hb : b.isChecked (!first) = false) :
    b.expandScore first l ≤ -CHECKMATE ↔ b.isChecked first = true := by
  unfold Board.expandScore
  rw [if_neg (by rw [hb]; decide), if_neg (by omega)]
  split_ifs with h
  · exact iff_of_true le_rfl h
  · exact iff_of_false (by decide) h

theorem neg_checkmate_le_first (hl : l % 2 = 1) (hb : b.isChecked (!first) = false) :
    -CHECKMATE ≤ b.nodeScore flags first (d + 1) l := by
  rw [nodeScore_first hl, le_foldl_max_iff]
  left
  unfold Board.expandScore
  rw [if_neg (by rw [hb]; decide), if_neg (by omega)]
  split_ifs <;> decide

/-- A board of the first side is lost exactly if it is in check and every board that is
made from it is lost. -/
theorem first_lost_iff (hl : l % 2 = 1) (hb : b.isChecked (!first) = false) :
    b.nodeScore flags first (d + 1) l ≤ -CHECKMATE ↔ b.isChecked first = true ∧
      ∀ s ∈ b.nextBoards flags first l, s.nodeScore flags first d (l + 1) ≤ -CHECKMATE := by
  rw [nodeScore_first hl, foldl_max_le_iff, expandScore_first_le_iff hl hb]

/-- A board of the second side is lost for the first exactly if one that is made from
it is. -/
theorem second_lost_iff (hl : l % 2 = 0) :
    b.nodeScore flags first (d + 1) l ≤ -CHECKMATE ↔
      ∃ s ∈ b.nextBoards flags first l, s.nodeScore flags first d (l + 1) ≤ -CHECKMATE := by
  have hbase : ¬ b.expandScore first l ≤ -CHECKMATE := by
    rw [expandScore_second hl]
    split_ifs <;> decide
  rw [nodeScore_second hl, foldl_min_le_iff, or_iff_right hbase]
  simp only [settled_le_neg_checkmate_iff l]

end Scores

/-! ## The solver's losses -/

/-- **The second side can keep the first in check**, now and at each of its turns for
`n` more rounds of the moves that the solver makes. -/
def KeptInCheck (flags : Flags) (first : Bool) : ℕ → Board → Prop
  | 0, b => b.isChecked first = true
  | n + 1, b => b.isChecked first = true ∧ ∀ s, (breadthGame flags first).attack b s →
      ∃ b', (breadthGame flags first).reply s b' ∧ KeptInCheck flags first n b'

section Losses
variable {flags : Flags} {first : Bool} {n : ℕ} {b s : Board} {m : Move}

/-- **A board of the first side is lost exactly if it can be kept in check.** -/
theorem nodeScore_lost_iff (n : ℕ) : ∀ {l : Nat} {b b' : Board}, l % 2 = 1 →
    TreeBoard b first → b.Alike b' →
    (b.nodeScore flags first (2 * n + 1) l ≤ -CHECKMATE ↔ KeptInCheck flags first n b') := by
  induction n with
  | zero =>
    intro l b b' hl h ha
    rw [first_lost_iff hl h.notAttacked, KeptInCheck, ha.isChecked]
    refine and_iff_left_of_imp fun hcheck s hs => ?_
    -- a board of the last layer has the score with which the board before was expanded
    show s.score ≤ -CHECKMATE
    rw [score_of_mem_nextBoards hs, expandScore_first_le_iff hl h.notAttacked, ha.isChecked]
    exact hcheck
  | succ n ih =>
    intro l b b' hl h ha
    have hmover : mover first l = first := if_pos hl
    have hmover' : mover first (l + 1) = !first := mover_of_even (by omega)
    have h' : TreeBoard b (mover first l) := hmover.symm ▸ h
    have hattack : Pictures (b.nextBoards flags first l) (b'.LeadsTo flags first) := by
      have hp : Pictures (b.nextBoards flags first l) (b'.LeadsTo flags (mover first l)) :=
        pictures_nextBoards h' ha
      rwa [hmover] at hp
    rw [show 2 * (n + 1) + 1 = 2 * n + 1 + 1 + 1 by omega, first_lost_iff hl h.notAttacked,
      KeptInCheck, ha.isChecked]
    refine and_congr_right fun _ => hattack.forall_iff fun s hs s' hs' => ?_
    have hreply : Pictures (s.nextBoards flags first (l + 1)) (s'.LeadsTo flags (!first)) := by
      rw [← hmover']
      exact pictures_nextBoards (h'.next hs) hs'
    rw [second_lost_iff (by omega)]
    refine hreply.exists_iff fun c hc c' hc' => ih (by omega) ?_ hc'
    have hc₁ := (h'.next hs).next hc
    rwa [mover_succ, mover_succ, Bool.not_not, hmover] at hc₁

/-- **When `evaluate` calls a loss.** -/
theorem evaluate_eq_neg_checkmate_iff (h : TreeBoard b first) (n : ℕ)
    (tree : List (List TreeNode)) :
    (b.evaluate flags first (2 * n + 1) tree).1 = -CHECKMATE ↔ KeptInCheck flags first n b := by
  have hone : 1 % 2 = 1 := rfl
  rw [evaluate_eq h.notAttacked, ← nodeScore_lost_iff n hone h (.refl b)]
  constructor
  · exact fun he => he.le
  · exact fun hle => le_antisymm hle (neg_checkmate_le_first hone h.notAttacked)

end Losses

/-! ## When the losing verdict is right -/

/-- **Checks lead to mates**: on every line of play on which the first side is in check at
each of its turns, the second side can mate with its last move where it can give check. -/
def Board.ChecksLeadToMate (flags : Flags) (first : Bool) : ℕ → Board → Prop
  | 0, b => b.isChecked first = true → b.legalMoves flags first = []
  | 1, b => b.isChecked first = true → ∀ m, b.IsLegal flags first m →
      (∃ m', (b.makeMove m).IsLegal flags (!first) m' ∧
        ((b.makeMove m).makeMove m').isChecked first = true) →
      ∃ m', (b.makeMove m).IsLegal flags (!first) m' ∧
        ((b.makeMove m).makeMove m').Mated flags first
  | n + 2, b => b.isChecked first = true → ∀ m, b.IsLegal flags first m →
      ∀ m', (b.makeMove m).IsLegal flags (!first) m' →
        ChecksLeadToMate flags first (n + 1) ((b.makeMove m).makeMove m')

/-- **Quiet turns are safe**: wherever the first side is to move, is not in check and has a
move, it has one after which no reply gives check; at its last turn but one, after which
none mates. -/
def Board.QuietTurnsSafe (flags : Flags) (first : Bool) : ℕ → Board → Prop
  | 0, _ => True
  | n + 1, b =>
      (b.isChecked first = false → b.legalMoves flags first ≠ [] →
        ∃ m, b.IsLegal flags first m ∧ ∀ m', (b.makeMove m).IsLegal flags (!first) m' →
          ((b.makeMove m).makeMove m').isChecked first = true →
            n = 0 ∧ ((b.makeMove m).makeMove m').legalMoves flags first ≠ []) ∧
      ∀ m, b.IsLegal flags first m → ∀ m', (b.makeMove m).IsLegal flags (!first) m' →
        QuietTurnsSafe flags first n ((b.makeMove m).makeMove m')

/-- **Losses within `n` rounds are plain**: white can never take en passant, checks lead to
mates, and quiet turns are safe. -/
structure Board.PlainLoss (flags : Flags) (first : Bool) (n : ℕ) (b : Board) : Prop where
  passantFree : b.PassantFree flags first n
  checksLeadToMate : b.ChecksLeadToMate flags first n
  quietTurnsSafe : b.QuietTurnsSafe flags first n

section Decide
variable (flags : Flags) (first : Bool)

instance decidableChecksLeadToMate : ∀ n b, Decidable (Board.ChecksLeadToMate flags first n b)
  | 0, b => inferInstanceAs (Decidable (b.isChecked first = true → _))
  | 1, b => inferInstanceAs (Decidable (b.isChecked first = true → ∀ m, b.IsLegal flags first m →
      (∃ m', (b.makeMove m).IsLegal flags (!first) m' ∧ _) →
        ∃ m', (b.makeMove m).IsLegal flags (!first) m' ∧ _))
  | n + 2, b =>
      have := decidableChecksLeadToMate (n + 1)
      inferInstanceAs (Decidable (b.isChecked first = true → ∀ m, b.IsLegal flags first m →
        ∀ m', (b.makeMove m).IsLegal flags (!first) m' → _))

instance decidableQuietTurnsSafe : ∀ n b, Decidable (Board.QuietTurnsSafe flags first n b)
  | 0, _ => inferInstanceAs (Decidable True)
  | n + 1, b =>
      have := decidableQuietTurnsSafe n
      inferInstanceAs (Decidable ((b.isChecked first = false → b.legalMoves flags first ≠ [] →
        ∃ m, b.IsLegal flags first m ∧ ∀ m', (b.makeMove m).IsLegal flags (!first) m' → _) ∧
          ∀ m, b.IsLegal flags first m → ∀ m', (b.makeMove m).IsLegal flags (!first) m' → _))

end Decide

section Right
variable {flags : Flags} {first : Bool} {b : Board}

/-- In the game of the second side's mates the first side has its legal moves. -/
theorem reply_second_iff {s : Board} :
    (mateGame flags (!first)).reply b s ↔ ∃ m, b.IsLegal flags first m ∧ s = b.makeMove m := by
  show (∃ m, b.IsLegal flags (!!first) m ∧ s = b.makeMove m) ↔ _
  rw [Bool.not_not]

theorem check_second_iff : (mateGame flags (!first)).check b ↔ b.isChecked first = true := by
  show b.isChecked (!!first) = true ↔ _
  rw [Bool.not_not]

/-- At the last turn only a mate loses. -/
theorem loses_second_zero :
    (mateGame flags (!first)).Loses 0 b ↔
      b.isChecked first = true ∧ b.legalMoves flags first = [] := by
  have hnone : (∀ s, ¬ (mateGame flags (!first)).reply b s) ↔ b.legalMoves flags first = [] := by
    simp only [reply_second_iff, List.eq_nil_iff_forall_not_mem, Board.mem_legalMoves]
    constructor
    · exact fun h m hm => h _ ⟨m, hm, rfl⟩
    · rintro h s ⟨m, hm, -⟩
      exact h m hm
  constructor
  · rintro (⟨hc, hno⟩ | ⟨⟨s, hs⟩, hall⟩)
    · exact ⟨check_second_iff.mp hc, hnone.mp hno⟩
    · exact (hall s hs).elim
  · rintro ⟨hc, hno⟩
    exact Or.inl ⟨check_second_iff.mpr hc, hnone.mpr hno⟩

/-- A first side with moves loses if there is a reply to each of them after which it
does. -/
theorem loses_second_succ {n : ℕ} (h : b.isChecked first = true ∨ b.legalMoves flags first ≠ []) :
    (mateGame flags (!first)).Loses (n + 1) b ↔ ∀ m, b.IsLegal flags first m →
      ∃ m', (b.makeMove m).IsLegal flags (!first) m' ∧
        (mateGame flags (!first)).Loses n ((b.makeMove m).makeMove m') := by
  rw [Game.loses_iff_forall]
  · constructor
    · intro hall m hm
      obtain ⟨_, ⟨m', hm', rfl⟩, hl⟩ := Game.wins_succ.mp (hall _ (reply_second_iff.mpr ⟨m, hm, rfl⟩))
      exact ⟨m', hm', hl⟩
    · intro hall s hs
      obtain ⟨m, hm, rfl⟩ := reply_second_iff.mp hs
      obtain ⟨m', hm', hl⟩ := hall m hm
      exact Game.wins_succ.mpr ⟨_, ⟨m', hm', rfl⟩, hl⟩
  · refine h.imp check_second_iff.mpr fun hmoves => ?_
    obtain ⟨m, hm⟩ := List.exists_mem_of_ne_nil _ hmoves
    exact ⟨_, reply_second_iff.mpr ⟨m, Board.mem_legalMoves.mp hm, rfl⟩⟩

/-- Without white's en passant the first side is kept in check by legal replies to legal
moves. -/
theorem Board.PassantFree.keptInCheck_succ {n : ℕ} (h : b.PassantFree flags first (n + 1)) :
    KeptInCheck flags first (n + 1) b ↔ b.isChecked first = true ∧
      ∀ m, b.IsLegal flags first m → ∃ m', (b.makeMove m).IsLegal flags (!first) m' ∧
        KeptInCheck flags first n ((b.makeMove m).makeMove m') := by
  rw [KeptInCheck]
  refine and_congr_right fun _ => ?_
  constructor
  · intro hall m hm
    have hs : (mateGame flags first).attack b (b.makeMove m) := ⟨m, hm, rfl⟩
    obtain ⟨b', hb', hkept⟩ := hall _ ((h.attack_iff _).mpr hs)
    obtain ⟨m', hm', rfl⟩ := (h.reply_iff hs b').mp hb'
    exact ⟨m', hm', hkept⟩
  · intro hall s hs
    have hs' := (h.attack_iff s).mp hs
    obtain ⟨m, hm, rfl⟩ := hs'
    obtain ⟨m', hm', hkept⟩ := hall m hm
    exact ⟨_, (h.reply_iff ⟨m, hm, rfl⟩ _).mpr ⟨m', hm', rfl⟩, hkept⟩

/-- **What the solver calls a loss is one**, where checks lead to mates. -/
theorem KeptInCheck.loses (n : ℕ) : ∀ {b : Board}, b.PassantFree flags first n →
    b.ChecksLeadToMate flags first n → KeptInCheck flags first n b →
    (mateGame flags (!first)).Loses n b := by
  induction n with
  | zero => exact fun _ hmate hc => loses_second_zero.mpr ⟨hc, hmate hc⟩
  | succ n ih =>
    intro b hfree hmate hkept
    obtain ⟨hc, hall⟩ := hfree.keptInCheck_succ.mp hkept
    refine (loses_second_succ (Or.inl hc)).mpr fun m hm => ?_
    obtain ⟨m', hm', hkept'⟩ := hall m hm
    cases n with
    | zero =>
      obtain ⟨m'', hm'', hmated⟩ := hmate hc m hm ⟨m', hm', hkept'⟩
      exact ⟨m'', hm'', loses_second_zero.mpr hmated⟩
    | succ n => exact ⟨m', hm', ih ((hfree.2 m hm).2 m' hm') (hmate hc m hm m' hm') hkept'⟩

theorem KeptInCheck.check {n : ℕ} (h : KeptInCheck flags first n b) : b.isChecked first = true := by
  cases n with
  | zero => exact h
  | succ n => exact h.1

/-- **Every forced loss is found**, where quiet turns are safe. -/
theorem KeptInCheck.of_loses (n : ℕ) : ∀ {b : Board}, b.PassantFree flags first n →
    b.QuietTurnsSafe flags first n → (mateGame flags (!first)).Loses n b →
    KeptInCheck flags first n b := by
  induction n with
  | zero => exact fun _ _ hl => (loses_second_zero.mp hl).1
  | succ n ih =>
    intro b hfree hquiet hl
    have hafter : ∀ m, b.IsLegal flags first m → ∀ m', (b.makeMove m).IsLegal flags (!first) m' →
        (mateGame flags (!first)).Loses n ((b.makeMove m).makeMove m') →
        KeptInCheck flags first n ((b.makeMove m).makeMove m') :=
      fun m hm m' hm' => ih ((hfree.2 m hm).2 m' hm') (hquiet.2 m hm m' hm')
    rw [hfree.keptInCheck_succ]
    by_cases hc : b.isChecked first = true
    · refine ⟨hc, fun m hm => ?_⟩
      obtain ⟨m', hm', hl'⟩ := (loses_second_succ (Or.inl hc)).mp hl m hm
      exact ⟨m', hm', hafter m hm m' hm' hl'⟩
    · -- the move after which no reply gives check is an escape
      exfalso
      rw [Bool.not_eq_true] at hc
      have hmoves : b.legalMoves flags first ≠ [] := by
        intro hnone
        rcases hl with ⟨hcheck, -⟩ | ⟨⟨s, hs⟩, -⟩
        · rw [check_second_iff, hc] at hcheck
          cases hcheck
        · obtain ⟨m, hm, -⟩ := reply_second_iff.mp hs
          rw [← Board.mem_legalMoves, hnone] at hm
          cases hm
      obtain ⟨m, hm, hsafe⟩ := hquiet.1 hc hmoves
      obtain ⟨m', hm', hl'⟩ := (loses_second_succ (Or.inr hmoves)).mp hl m hm
      obtain ⟨rfl, hescape⟩ := hsafe m' hm' (hafter m hm m' hm' hl').check
      exact hescape (loses_second_zero.mp hl').2

/-- **When the losing verdict is right**: at depth `2 * n + 1` it is `-CHECKMATE` exactly if
the second side mates by force within `n` rounds, where losses are plain.  A loss needs no
more than that checks lead to mates, and a mate no more than that quiet turns are safe. -/
theorem loss_correct_when (hk : KingsOk b) (hlast : b.DoubleStepOk)
    (hsecond : b.isChecked (!first) = false) (n : ℕ) (tree : List (List TreeNode)) :
    (b.PlainLoss flags first n →
      ((b.evaluate flags first (2 * n + 1) tree).1 = -CHECKMATE ↔
        (mateGame flags (!first)).Loses n b)) ∧
    (b.PassantFree flags first n → b.ChecksLeadToMate flags first n →
      (b.evaluate flags first (2 * n + 1) tree).1 = -CHECKMATE →
        (mateGame flags (!first)).Loses n b) ∧
    (b.PassantFree flags first n → b.QuietTurnsSafe flags first n →
      (mateGame flags (!first)).Loses n b →
        (b.evaluate flags first (2 * n + 1) tree).1 = -CHECKMATE) := by
  rw [evaluate_eq_neg_checkmate_iff ⟨hk, hlast, hsecond⟩ n tree]
  refine ⟨fun hplain => ⟨?_, ?_⟩, fun hfree hmate => KeptInCheck.loses n hfree hmate,
    fun hfree hquiet => KeptInCheck.of_loses n hfree hquiet⟩
  · exact KeptInCheck.loses n hplain.passantFree hplain.checksLeadToMate
  · exact KeptInCheck.of_loses n hplain.passantFree hplain.quietTurnsSafe

end Right

/-- A king mated in its corner. -/
def Board.cornerMate : Board := ofText "ka1\nKb3\nRh1\n"

theorem Board.cornerMate_fileLoaded : cornerMate.FileLoaded := fileLoaded_ofText (by decide +kernel)

/-- A king in check that has to go to the first row, where the other rook mates it. -/
def Board.rookLadder : Board := ofText "ke2\nRa2\nRb3\nKh8\n"

theorem Board.rookLadder_fileLoaded : rookLadder.FileLoaded := fileLoaded_ofText (by decide +kernel)

/-- The mate with the two rooks is called a loss. -/
theorem loss_correct_rook_ladder :
    (Board.rookLadder.evaluate Flags.default false 3 []).1 = -CHECKMATE ∧
      (mateGame Flags.default (!false)).Loses 1 Board.rookLadder := by
  have hkings := Board.rookLadder_fileLoaded.kings
  have hsecond : Board.rookLadder.isChecked (!false) = false := by decide +kernel
  have hcheck : Board.rookLadder.isChecked false = true := by decide +kernel
  have hmates : ∀ m, Board.rookLadder.IsLegal Flags.default false m →
      ∃ m', (Board.rookLadder.makeMove m).IsLegal Flags.default (!false) m' ∧
        ((Board.rookLadder.makeMove m).makeMove m').Mated Flags.default false := by decide +kernel
  have hplain : Board.rookLadder.PlainLoss Flags.default false 1 :=
    ⟨by decide +kernel, by decide +kernel, by decide +kernel⟩
  have hloses : (mateGame Flags.default (!false)).Loses 1 Board.rookLadder := by
    refine (loses_second_succ (Or.inl hcheck)).mpr fun m hm => ?_
    obtain ⟨m', hm', hmated⟩ := hmates m hm
    exact ⟨m', hm', loses_second_zero.mpr hmated⟩
  exact ⟨((loss_correct_when hkings.1 hkings.2.doubleStepOk hsecond 1 []).1 hplain).mpr hloses,
    hloses⟩

/-- White is not in check and has one move, to the back rank, where the rook mates. -/
def Board.quietLoss : Board := ofText "ka1\nKb3\nRh2\n"

/-- The rook gives check, and can do so again, but nothing is lost. -/
def Board.rookChecks : Board := ofText "ka1\nRa8\nKh8\n"

/-- **The losing verdict can be wrong either way**: a mate by force is missed because
the first side is not in check, and two checks are taken for one. -/
theorem loss_not_correct :
    (KingsOk Board.quietLoss ∧ Board.quietLoss.DoubleStepOk ∧
      Board.quietLoss.isChecked (!false) = false ∧
      (Board.quietLoss.evaluate Flags.default false 3 []).1 ≠ -CHECKMATE ∧
      (mateGame Flags.default (!false)).Loses 1 Board.quietLoss) ∧
    (KingsOk Board.rookChecks ∧ Board.rookChecks.DoubleStepOk ∧
      Board.rookChecks.isChecked (!false) = false ∧
      (Board.rookChecks.evaluate Flags.default false 3 []).1 = -CHECKMATE ∧
      ¬ (mateGame Flags.default (!false)).Loses 1 Board.rookChecks) := by
  have hloaded : Board.quietLoss.FileLoaded := Board.fileLoaded_ofText (by decide +kernel)
  have hloaded' : Board.rookChecks.FileLoaded := Board.fileLoaded_ofText (by decide +kernel)
  have hsecond : Board.quietLoss.isChecked (!false) = false := by decide +kernel
  have hsecond' : Board.rookChecks.isChecked (!false) = false := by decide +kernel
  have hquiet : Board.quietLoss.isChecked false = false := by decide +kernel
  have hmates : Board.quietLoss.legalMoves Flags.default false ≠ [] ∧
      ∀ m ∈ Board.quietLoss.legalMoves Flags.default false,
        (Board.quietLoss.makeMove m).matesWithin Flags.default true 1 = true := by decide +kernel
  have hescapes : ∃ m ∈ Board.rookChecks.legalMoves Flags.default false,
      (Board.rookChecks.makeMove m).matesWithin Flags.default true 1 = false := by decide +kernel
  have hchecks : Board.rookChecks.isChecked false = true ∧
      ∀ p ∈ Board.rookChecks.piecesOf false, ∀ m ∈ p.getMoves Flags.default .rookChecks,
        (Board.rookChecks.makeMove m.asMade).isChecked false = false →
        ∃ p' ∈ (Board.rookChecks.makeMove m.asMade).piecesOf true,
          ∃ m' ∈ p'.getMoves Flags.default (Board.rookChecks.makeMove m.asMade),
            ((Board.rookChecks.makeMove m.asMade).makeMove m'.asMade).isChecked true = false ∧
            ((Board.rookChecks.makeMove m.asMade).makeMove m'.asMade).isChecked false = true := by
    decide +kernel
  refine ⟨⟨hloaded.kings.1, hloaded.kings.2.doubleStepOk, hsecond, ?_, ?_⟩,
    hloaded'.kings.1, hloaded'.kings.2.doubleStepOk, hsecond', ?_, ?_⟩
  · intro heq
    have hkept := (evaluate_eq_neg_checkmate_iff
      ⟨hloaded.kings.1, hloaded.kings.2.doubleStepOk, hsecond⟩ 1 []).mp heq
    rw [KeptInCheck, hquiet] at hkept
    cases hkept.1
  · obtain ⟨m, hm⟩ := List.exists_mem_of_ne_nil _ hmates.1
    refine Or.inr ⟨⟨_, m, Board.mem_legalMoves.mp hm, rfl⟩, ?_⟩
    rintro _ ⟨m', hm', rfl⟩
    exact Board.matesWithin_iff.mp (hmates.2 m' (Board.mem_legalMoves.mpr hm'))
  · refine (evaluate_eq_neg_checkmate_iff
      ⟨hloaded'.kings.1, hloaded'.kings.2.doubleStepOk, hsecond'⟩ 1 []).mpr ⟨hchecks.1, ?_⟩
    rintro _ ⟨m, ⟨⟨p, hp, hm⟩, hsafe⟩, rfl⟩
    obtain ⟨p', hp', m', hm', hsafe', hcheck⟩ := hchecks.2 p hp m hm hsafe
    exact ⟨_, ⟨m', ⟨⟨p', hp', hm'⟩, hsafe'⟩, rfl⟩, hcheck⟩
  · obtain ⟨m, hm, hno⟩ := hescapes
    intro hloses
    rw [Game.loses_iff_forall (Or.inl (check_second_iff.mpr hchecks.1))] at hloses
    have hwins := hloses _ (reply_second_iff.mpr ⟨m, Board.mem_legalMoves.mp hm, rfl⟩)
    rw [← Board.matesWithin_iff] at hwins
    exact absurd (hwins.symm.trans hno) (by decide)

end Chess
