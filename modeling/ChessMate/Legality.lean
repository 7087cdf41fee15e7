import ChessMate.BoardInvariant
import ChessMate.OneRound

/-! # The fast legality test agrees with the full scan

`canMove` asks whether a move leaves its own king attacked without scanning the
board.  It looks at the piece that moved last, then either at a list of the
opponent's pieces that may be out of date, or, for a move that is neither out of
check nor of the king, at the one line from the king through the square that the
move leaves.

The list is good enough when it holds every opponent but the one that moved last
(`Covers`).  The single line is good enough because the king was not attacked
before the move: a new attack is along a line through a square the move vacates
(`canAttack_opened`).  An en passant capture vacates a second square; a line
opened there only would run through the square the captured pawn came from and
so through the square between, where the capturing pawn now stands, because the
king was not attacked before the pawn's double step either
(`discovered_line`).
-/
namespace Chess
open LineWalk

/-! ## Lines -/

/-- The steps of a line piece come in opposite pairs. -/
theorem PieceType.neg_mem_slideSteps {type : PieceType} :
    ∀ {step : DeltaMove}, step ∈ type.slideSteps → -step ∈ type.slideSteps := by
  have h : ∀ step ∈ type.slideSteps, -step ∈ type.slideSteps := by cases type <;> decide
  exact fun {step} => h step

/-- `canAttackLine` knows the steps of the line pieces. -/
theorem canAttackLine_iff {type : PieceType} : ∀ {step : DeltaMove}, step ∈ Queen.steps →
    (canAttackLine type step = true ↔ step ∈ type.slideSteps) := by
  have h : ∀ step ∈ Queen.steps, (canAttackLine type step = true ↔ step ∈ type.slideSteps) := by
    cases type <;> decide
  exact fun {step} => h step

theorem unitStep_mul {d : Int} {n : ℕ} (hn : 0 < n) (h1 : -1 ≤ d) (h2 : d ≤ 1) :
    OneRound.unitStep (n * d) = d := by
  have hd : d = -1 ∨ d = 0 ∨ d = 1 := by omega
  unfold OneRound.unitStep
  rcases hd with rfl | rfl | rfl
  · rw [if_pos (by omega), if_neg (by omega)]
  · simp
  · rw [if_pos (by omega), if_pos (by omega)]

theorem unitStep_bounds (d : Int) :
    (-1 ≤ OneRound.unitStep d ∧ OneRound.unitStep d ≤ 1) ∧ (OneRound.unitStep d = 0 → d = 0) := by
  unfold OneRound.unitStep
  split_ifs with h1 h2
  · exact ⟨by decide, fun h => absurd h (by decide)⟩
  · exact ⟨by decide, fun h => absurd h (by decide)⟩
  · have : d = 0 := not_not.mp h1
    exact ⟨by omega, fun _ => this⟩

theorem unitStep_mem {dr dc : Int} (h : ¬ (dr = 0 ∧ dc = 0)) :
    ((OneRound.unitStep dr, OneRound.unitStep dc) : DeltaMove) ∈ Queen.steps := by
  rw [mem_queenSteps]
  obtain ⟨h1, h2⟩ := unitStep_bounds dr
  obtain ⟨h3, h4⟩ := unitStep_bounds dc
  exact ⟨h1, h3, fun h' => h ⟨h2 h'.1, h4 h'.2⟩⟩

/-! ## Discovered attacks -/

section Discovered
variable {b : Board} {c : Bool} {m : Move}

/-- A square that a move made free is one that it vacates. -/
theorem Generated.vacates_of_free (hg : Generated b c m) {sq : Position}
    (h : (m.apply b).Free sq) (hn : ¬ b.Free sq) : m.Vacates sq := by
  by_contra hv
  have hto : sq ≠ m.toPos := by
    rintro rfl
    have h' : (m.apply b).getPieceTypeAtPosition m.toPos = .empty := h
    rw [hg.get_apply_to] at h'
    exact hg.newType_hasColor.1 h'
  refine hn ?_
  show b.getPieceTypeAtPosition sq = .empty
  rw [← hg.get_apply_other hto hv]
  exact h

theorem Board.not_canAttack_king (hn : b.isChecked c = false) {sq : Position}
    (hsq : (b.getPieceTypeAtPosition sq).HasColor (!c)) :
    ¬ Piece.canAttack ⟨b.getPieceTypeAtPosition sq, sq⟩ b (b.kingPosition c) = true := by
  intro ha
  have : b.isChecked c = true := Board.isChecked_iff.mpr ⟨sq, hsq, ha⟩
  rw [hn] at this
  cases this

/-- Before a double step the squares of its column were free, up to the pawn itself. -/
theorem MadeFrom.free_before_double {b₀ : Board} (h : MadeFrom b₀ b c)
    (hg : Generated b c m) (he : EnPassant b c m) {sq : Position} (hf : (m.apply b).Free sq)
    (hn : ¬ b₀.Free sq) : sq = m.fromPos ∨ sq = b.lastMove.fromPos := by
  have hlast := h.generated
  have hrow : b.lastMove.toPos.1 = b.lastMove.fromPos.1 + 2 * pawnDir (!c) := by
    rw [he.lastTo, he.lastFrom]
    cases c <;> rfl
  obtain ⟨hs, -, hempty, -⟩ := hlast.doubleStep he.lastType hrow
  by_contra hcon
  rw [not_or] at hcon
  have hto : sq ≠ b.lastMove.toPos := by
    rintro rfl
    refine hn ?_
    show b₀.getPieceTypeAtPosition _ = .empty
    rw [← hlast.toType_eq]
    exact hempty
  have hv : ¬ b.lastMove.Vacates sq := by
    rintro (hv | ⟨hs', -⟩)
    · exact hcon.2 hv
    · rw [hs] at hs'; cases hs'
  have hb : ¬ b.Free sq := by
    show ¬ b.getPieceTypeAtPosition sq = .empty
    rw [h.madeBy.get_eq, hlast.get_apply_other hto hv]
    exact hn
  rcases hg.vacates_of_free hf hb with hvac | ⟨-, hvac⟩
  · exact hcon.1 hvac
  · rw [he.enPassantPos_eq, ← he.lastTo] at hvac
    exact hto hvac

/-- Two squares of one column that are two rows apart, on a line: the square
between them is on the line too. -/
theorem between_two_rows {src step : Position} {i j k : ℕ} {r d col : Int} (hd : d = 1 ∨ d = -1)
    (hi : src + i • step = (r + 2 * d, col)) (hj : src + j • step = (r, col))
    (hstep : step ∈ Queen.steps) (hi0 : 0 < i) (hj0 : 0 < j) (hik : i < k) (hjk : j < k) :
    ∃ l : ℕ, 0 < l ∧ l < k ∧ src + l • step = (r + d, col) := by
  have h1 := congrArg Prod.fst hi
  have h2 := congrArg Prod.snd hi
  have h3 := congrArg Prod.fst hj
  have h4 := congrArg Prod.snd hj
  simp only [fst_add_smul, snd_add_smul] at h1 h2 h3 h4
  obtain ⟨⟨hr1, hr2⟩, -, -⟩ := mem_queenSteps.mp hstep
  have hrow : ((i : ℤ) - j) * step.1 = 2 * d := by linarith
  have hcol : ((i : ℤ) - j) * step.2 = 0 := by linarith
  have hs2 : step.2 = 0 := by
    rcases mul_eq_zero.mp hcol with h | h
    · rw [h, zero_mul] at hrow
      omega
    · exact h
  have hs1 : step.1 = 1 ∨ step.1 = -1 := by
    have : step.1 = -1 ∨ step.1 = 0 ∨ step.1 = 1 := by omega
    rcases this with h | h | h
    · exact Or.inr h
    · rw [h, mul_zero] at hrow; omega
    · exact Or.inl h
  rw [hs2, mul_zero, add_zero] at h4
  have hl : ∃ l : ℕ, 0 < l ∧ l < k ∧ src.1 + l * step.1 = r + d := by
    rcases hs1 with h | h <;> rcases hd with rfl | rfl <;> rw [h] at h1 h3 hrow ⊢
    · exact ⟨j + 1, by omega, by omega, by push_cast; omega⟩
    · exact ⟨i + 1, by omega, by omega, by push_cast; omega⟩
    · exact ⟨i + 1, by omega, by omega, by push_cast; omega⟩
    · exact ⟨j + 1, by omega, by omega, by push_cast; omega⟩
  obtain ⟨l, hl0, hlk, hl⟩ := hl
  refine ⟨l, hl0, hlk, Prod.ext ?_ ?_⟩
  · rw [fst_add_smul]; exact hl
  · rw [snd_add_smul, hs2, mul_zero, add_zero]; exact h4

/-- **A new attack on a king that has not moved** comes along a line through the
square that the moved piece left. -/
theorem discovered_line (hkings : KingsOk b) (hlast : LastMoveOk b c) (hg : Generated b c m)
    (hking : m.fromType ≠ PieceType.kingOf c) (hn : b.isChecked c = false) {sq : Position}
    (hsq : ((m.apply b).getPieceTypeAtPosition sq).HasColor (!c))
    (ha : Piece.canAttack ⟨(m.apply b).getPieceTypeAtPosition sq, sq⟩ (m.apply b)
      (b.kingPosition c) = true) :
    ∃ step ∈ ((m.apply b).getPieceTypeAtPosition sq).slideSteps, ∃ k j : ℕ, 0 < j ∧ j < k ∧
      b.kingPosition c = sq + k • step ∧ m.fromPos = sq + j • step ∧
      ∀ i : ℕ, 0 < i → i < k → (m.apply b).Free (sq + i • step) := by
  obtain ⟨-, -, hsame⟩ := hg.other_of_apply hsq
  have hvsq : isValidPosition sq = true := Board.valid_of_ne_empty hsq.1
  have hvk := hkings.valid_king c
  have hb : ¬ Piece.canAttack ⟨(m.apply b).getPieceTypeAtPosition sq, sq⟩ b (b.kingPosition c) =
      true := by
    rw [← hsame]
    exact Board.not_canAttack_king hn (hsame ▸ hsq)
  obtain ⟨step, hstep, k, j, hj, hjk, hK, hfj, hnj, hall⟩ := canAttack_opened hvsq hvk ha hb
  have hq := PieceType.slideSteps_subset _ hstep
  refine ⟨step, hstep, k, ?_⟩
  rcases hg.vacates_of_free hfj hnj with hF | ⟨hs, hE⟩
  · exact ⟨j, hj, hjk, hK, hF.symm, hall⟩
  -- the line passes the pawn taken en passant: go back to the board before its double step
  have he := hg.enPassant hs
  rw [he.enPassantPos_eq] at hE
  rcases hlast with hno | ⟨b₀, hmade⟩
  · refine absurd ?_ hno.notValidTo
    rw [he.lastTo, ← he.enPassantPos_eq]
    exact he.valid_enPassantPos
  have hsq₀ : b₀.getPieceTypeAtPosition sq = (m.apply b).getPieceTypeAtPosition sq := by
    rw [← hsame, hmade.madeBy.get_eq]
    have hne : b.getPieceTypeAtPosition sq ≠ .empty := by rw [hsame]; exact hsq.1
    refine (hmade.generated.get_apply_other ?_ ?_).symm
    · rintro rfl
      refine hsq.1 (hg.get_apply_vacated (Or.inr ⟨hs, ?_⟩))
      rw [he.enPassantPos_eq, he.lastTo]
    · intro hv
      rw [hmade.madeBy.get_eq, hmade.generated.get_apply_vacated hv] at hne
      exact hne rfl
  have hb₀ : ¬ Sees b₀.Free sq step (b.kingPosition c) := by
    intro hsees
    refine Board.not_canAttack_king hmade.notAttacked (hsq₀ ▸ hsq) ?_
    rw [hsq₀, ← hmade.kingPosition_eq, canAttack_iff hvsq hvk]
    exact Or.inr ⟨step, hstep, hsees⟩
  have hi : ∃ i : ℕ, 0 < i ∧ i < k ∧ ¬ b₀.Free (sq + i • step) := by
    by_contra hcon
    refine hb₀ ⟨k, by omega, hK, fun i hi hik => ?_⟩
    by_contra hf
    exact hcon ⟨i, hi, hik, hf⟩
  obtain ⟨i, hi0, hik, hni⟩ := hi
  rcases hmade.free_before_double hg he (hall i hi0 hik) hni with hF | hS
  · exact ⟨i, hi0, hik, hK, hF.symm, hall⟩
  · exfalso
    rw [he.lastFrom] at hS
    obtain ⟨l, hl0, hlk, hl⟩ := between_two_rows (by cases c <;> simp [pawnDir]) hS hE hq hi0 hj
      hik hjk
    have hto : m.toPos = sq + l • step := by rw [hl]; exact Prod.ext he.toRow rfl
    have hfree : (m.apply b).getPieceTypeAtPosition m.toPos = .empty := by
      rw [hto]; exact hall l hl0 hlk
    rw [hg.get_apply_to] at hfree
    exact hg.newType_hasColor.1 hfree

/-- The walk of `canMove` from the king: it answers no exactly when the first
piece it meets is an opponent that moves along the walked line. -/
theorem pinWalk_iff (hg : Generated b c m) {king : Position} {step : DeltaMove}
    (hv : isValidPosition king = true) (hstep : step ∈ Queen.steps) :
    (LineWalk.walk (fun pos : Position =>
        if !isValidPosition pos then some true
        else if pos = m.toPos then some true
        else if (m.apply b).isEmpty pos || pos = m.fromPos then none
        else
          let firstPieceType := (m.apply b).getPieceTypeAtPosition pos
          if m.fromType.isSameColor firstPieceType then some true
          else some (!canAttackLine firstPieceType step)) step 8 king).getD true = false ↔
      ∃ sq, ((m.apply b).getPieceTypeAtPosition sq).HasColor (!c) ∧
        step ∈ ((m.apply b).getPieceTypeAtPosition sq).slideSteps ∧
        Sees (m.apply b).Free king step sq := by
  have hgetD : ∀ o : Option Bool, o.getD true = false ↔ o = some false := by
    intro o; cases o <;> simp
  have hfrom : (m.apply b).Free m.fromPos := hg.get_apply_vacated (Or.inl rfl)
  rw [hgetD, walk_eq_some_iff]
  constructor
  · rintro ⟨k, hk, -, hbody, hbefore⟩
    dsimp only at hbody
    split_ifs at hbody with h1 h2 h3 h4
    · cases hbody
    · cases hbody
    · cases hbody
    rw [Bool.or_eq_true, decide_eq_true_eq, not_or, Board.isEmpty_iff] at h3
    rw [hg.mover.isSameColor_iff] at h4
    refine ⟨king + k • step, ?_, ?_, k, hk, rfl, fun j hj hjk => ?_⟩
    · rcases PieceType.hasColor_or ((m.apply b).getPieceTypeAtPosition (king + k • step)) c with
        h | h | h
      · exact absurd h h3.1
      · exact absurd h h4
      · exact h
    · rw [← canAttackLine_iff hstep]
      simpa using hbody
    · have h := hbefore j hj hjk
      dsimp only at h
      split_ifs at h with h1 h2 h3
      rw [Bool.or_eq_true, decide_eq_true_eq] at h3
      rcases h3 with h3 | h3
      · exact Board.isEmpty_iff.mp h3
      · rw [h3]; exact hfrom
  · rintro ⟨sq, hsq, hline, k, hk, rfl, hfree⟩
    have hvs : isValidPosition (king + k • step) = true := Board.valid_of_ne_empty hsq.1
    have hk7 := steps_le_seven hstep hv hvs
    refine ⟨k, hk, by omega, ?_, fun j hj hjk => ?_⟩
    · obtain ⟨hto, hvac, -⟩ := hg.other_of_apply hsq
      rw [if_neg (by rw [hvs]; decide), if_neg hto, if_neg, if_neg]
      · rw [(canAttackLine_iff hstep).mpr hline]; rfl
      · rw [hg.mover.isSameColor_iff]
        exact fun h => h.not_other hsq
      · rw [Bool.or_eq_true, decide_eq_true_eq, Board.isEmpty_iff]
        rintro (h | h)
        · exact hsq.1 h
        · exact hvac (Or.inl h)
    · have hvj := valid_between hv hvs (Nat.le_of_lt hjk)
      have hto : king + j • step ≠ m.toPos := by
        intro h
        have h' : (m.apply b).getPieceTypeAtPosition m.toPos = .empty := h ▸ hfree j hj hjk
        rw [hg.get_apply_to] at h'
        exact hg.newType_hasColor.1 h'
      rw [if_neg (by rw [hvj]; decide), if_neg hto, if_pos]
      rw [Bool.or_eq_true, Board.isEmpty_iff]
      exact Or.inl (hfree j hj hjk)

end Discovered

/-! ## The piece lists -/

namespace OneRound

/-- The piece list that `checkChecked` scans for the king of colour `c`. -/
def enemies (self : OneRound) (c : Bool) : List Piece :=
  if c == self.blackFirst then self.minStepPieces else self.maxStepPieces

/-- The list scanned for the king of colour `c` holds opponents only, and every
opponent on the board but the one that moved last. -/
structure Covers (round : OneRound) (b : Board) (c : Bool) : Prop where
  color : ∀ p ∈ round.enemies c, p.type.HasColor (!c)
  listed : ∀ p, b.getPieceTypeAtPosition p.position = p.type → p.type.HasColor (!c) →
    p.position ≠ b.lastMove.toPos → p ∈ round.enemies c

theorem checkChecked_iff {self : OneRound} {board : Board} {c : Bool} :
    self.checkChecked board (c == self.blackFirst) = true ↔
      ∃ p ∈ self.enemies c, board.getPieceTypeAtPosition p.position = p.type ∧
        p.canAttack board (board.kingPosition c) = true := by
  have hc : ((c == self.blackFirst) == self.blackFirst) = c := by
    cases c <;> cases self.blackFirst <;> rfl
  simp only [checkChecked, hc, List.any_eq_true, enemies]
  constructor
  · rintro ⟨p, hp, h⟩
    split_ifs at h with h1
    exact ⟨p, hp, (not_not.mp h1).symm, h⟩
  · rintro ⟨p, hp, h1, h2⟩
    refine ⟨p, hp, ?_⟩
    rw [if_neg (not_not.mpr h1.symm)]
    exact h2

section CanMove
variable {self : OneRound} {b : Board} {c : Bool} {m : Move}

theorem apply_lastMove (m : Move) (b : Board) : (m.apply b).lastMove = b.lastMove := by
  unfold Move.apply
  cases m.special <;> simp [Move.setupEnPassant, Move.setupCastling]

/-- `canMove`'s first test: does the piece that moved last attack the king now. -/
def lastMoverAttacks (m : Move) (auxBoard : Board) (kingPos : Position) : Bool :=
  isValidPosition auxBoard.lastMove.toPos && auxBoard.lastMove.toPos ≠ m.toPos &&
    (auxBoard.safePiece auxBoard.lastMove.toPos).any fun p => p.canAttack auxBoard kingPos

theorem lastMoverAttacks_iff (hg : Generated b c m) (hl : LastMoveOk b c) {king : Position} :
    lastMoverAttacks m (m.apply b) king = true ↔
      ((m.apply b).getPieceTypeAtPosition b.lastMove.toPos).HasColor (!c) ∧
        Piece.canAttack ⟨(m.apply b).getPieceTypeAtPosition b.lastMove.toPos, b.lastMove.toPos⟩
          (m.apply b) king = true := by
  simp only [lastMoverAttacks, apply_lastMove, Bool.and_eq_true, decide_eq_true_eq,
    Option.any_eq_true, Board.safePiece_eq_some]
  constructor
  · rintro ⟨⟨hv, hto⟩, p, ⟨rfl, hne⟩, ha⟩
    refine ⟨?_, ha⟩
    rcases hl with hno | ⟨b₀, hmade⟩
    · exact absurd hv hno.notValidTo
    · have hvac : ¬ m.Vacates b.lastMove.toPos := fun h => hne (hg.get_apply_vacated h)
      rw [hg.get_apply_other hto hvac, hmade.madeBy.get_to]
      exact hmade.generated.newType_hasColor
  · rintro ⟨hc, ha⟩
    exact ⟨⟨Board.valid_of_ne_empty hc.1, (hg.other_of_apply hc).1⟩, _, ⟨rfl, hc.1⟩, ha⟩

/-- **The piece list and the last mover together see every attacker.** -/
theorem isChecked_apply_iff (hg : Generated b c m) (hl : LastMoveOk b c) (hcov : self.Covers b c) :
    (m.apply b).isChecked c = true ↔
      lastMoverAttacks m (m.apply b) ((m.apply b).kingPosition c) = true ∨
        self.checkChecked (m.apply b) (c == self.blackFirst) = true := by
  rw [Board.isChecked_iff, lastMoverAttacks_iff hg hl, checkChecked_iff]
  constructor
  · rintro ⟨sq, hc, ha⟩
    by_cases hsq : sq = b.lastMove.toPos
    · subst hsq; exact Or.inl ⟨hc, ha⟩
    · obtain ⟨-, -, hsame⟩ := hg.other_of_apply hc
      exact Or.inr ⟨⟨_, sq⟩, hcov.listed ⟨_, sq⟩ hsame hc hsq, rfl, ha⟩
  · rintro (⟨hc, ha⟩ | ⟨p, hp, hon, ha⟩)
    · exact ⟨_, hc, ha⟩
    · refine ⟨p.position, ?_, ?_⟩
      · rw [hon]; exact hcov.color p hp
      · rw [hon]; exact ha

/-- The king test of `canMove` for a move that is neither out of check nor of the
king: the walk from the king through the square the move leaves. -/
theorem pinned_iff (hkings : KingsOk b) (hlast : LastMoveOk b c) (hg : Generated b c m)
    (hking : m.fromType ≠ PieceType.kingOf c)
    (hn : b.isChecked c = false) :
    (m.apply b).isChecked c = true ↔
      ¬ (m.fromPos.1 - (b.kingPosition c).1 ≠ m.fromPos.2 - (b.kingPosition c).2 ∧
        m.fromPos.1 - (b.kingPosition c).1 + (m.fromPos.2 - (b.kingPosition c).2) ≠ 0 ∧
        (m.fromPos.1 - (b.kingPosition c).1) * (m.fromPos.2 - (b.kingPosition c).2) ≠ 0) ∧
      ∃ sq, ((m.apply b).getPieceTypeAtPosition sq).HasColor (!c) ∧
        ((unitStep (m.fromPos.1 - (b.kingPosition c).1),
          unitStep (m.fromPos.2 - (b.kingPosition c).2)) : DeltaMove) ∈
            ((m.apply b).getPieceTypeAtPosition sq).slideSteps ∧
        Sees (m.apply b).Free (b.kingPosition c)
          (unitStep (m.fromPos.1 - (b.kingPosition c).1),
            unitStep (m.fromPos.2 - (b.kingPosition c).2)) sq := by
  have hvk := hkings.valid_king c
  have hk : (m.apply b).kingPosition c = b.kingPosition c := by
    rw [hg.kingPosition_apply, if_neg hking]
  rw [Board.isChecked_iff, hk]
  constructor
  · rintro ⟨sq, hc, ha⟩
    obtain ⟨step, hstep, k, j, hj, hjk, hK, hF, hall⟩ :=
      discovered_line hkings hlast hg hking hn hc ha
    obtain ⟨⟨hr1, hr2⟩, ⟨hc1, hc2⟩, -⟩ :=
      mem_queenSteps.mp (PieceType.slideSteps_subset _ hstep)
    have hsub : ((k - j : ℕ) : ℤ) = (k : ℤ) - j := by omega
    have hdr : m.fromPos.1 - (b.kingPosition c).1 = ((k - j : ℕ) : ℤ) * (-step).1 := by
      rw [hK, hF, fst_add_smul, fst_add_smul, hsub, Prod.fst_neg]; ring
    have hdc : m.fromPos.2 - (b.kingPosition c).2 = ((k - j : ℕ) : ℤ) * (-step).2 := by
      rw [hK, hF, snd_add_smul, snd_add_smul, hsub, Prod.snd_neg]; ring
    have hunit : ((unitStep (m.fromPos.1 - (b.kingPosition c).1),
        unitStep (m.fromPos.2 - (b.kingPosition c).2)) : DeltaMove) = -step := by
      rw [hdr, hdc]
      refine Prod.ext (unitStep_mul (by omega) ?_ ?_) (unitStep_mul (by omega) ?_ ?_) <;>
        simp only [Prod.fst_neg, Prod.snd_neg] <;> omega
    refine ⟨?_, sq, hc, ?_, ?_⟩
    · rintro ⟨h1, h2, h3⟩
      rw [hdr, hdc] at h1 h2 h3
      have hd1 : (-step).1 = -1 ∨ (-step).1 = 0 ∨ (-step).1 = 1 := by rw [Prod.fst_neg]; omega
      have hd2 : (-step).2 = -1 ∨ (-step).2 = 0 ∨ (-step).2 = 1 := by rw [Prod.snd_neg]; omega
      rcases hd1 with e1 | e1 | e1 <;> rcases hd2 with e2 | e2 | e2 <;> rw [e1, e2] at h1 h2 h3 <;>
        first | exact h1 rfl | exact h2 (by ring1) | exact h3 (by ring1)
    · rw [hunit]; exact PieceType.neg_mem_slideSteps hstep
    · rw [hunit]
      exact Sees.symm ⟨k, by omega, hK, hall⟩
  · rintro ⟨-, sq, hc, hstep, hsees⟩
    refine ⟨sq, hc, ?_⟩
    rw [canAttack_iff (Board.valid_of_ne_empty hc.1) hvk]
    exact Or.inr ⟨_, PieceType.neg_mem_slideSteps hstep, hsees.symm⟩

/-- The body of `canMove` on the board with the move made. -/
theorem canMoveApplied_eq (hkings : KingsOk b) (hlast : LastMoveOk b c) (hg : Generated b c m)
    (hcov : self.Covers b c) :
    self.canMoveApplied ⟨m.fromType, m.fromPos⟩ m (b.isChecked c) (m.apply b) =
      !(m.apply b).isChecked c := by
  have hscan := isChecked_apply_iff hg hlast hcov
  have hcast : (m.apply b).lastMove.special ≠ .kingCastling := by
    rw [apply_lastMove]
    rcases hlast with hno | ⟨b₀, hmade⟩
    · exact hno.notCastling
    · exact hmade.generated.notCastling
  have hblack : m.fromType.isBlack = c := hg.mover.2
  simp only [canMoveApplied, hblack]
  change (if lastMoverAttacks m (m.apply b) ((m.apply b).kingPosition c) = true then false else _) = _
  by_cases h1 : lastMoverAttacks m (m.apply b) ((m.apply b).kingPosition c) = true
  · rw [if_pos h1, hscan.mpr (Or.inl h1)]
    rfl
  rw [if_neg h1, if_neg (by simp [hcast])]
  by_cases h2 : (b.isChecked c || m.fromType.isKing) = true
  · -- the full list is scanned
    rw [if_pos h2]
    congr 1
    rw [Bool.eq_iff_iff, hscan]
    exact ⟨Or.inr, fun h => h.resolve_left h1⟩
  · -- only a discovered attack is possible
    rw [if_neg h2]
    rw [Bool.or_eq_true, not_or, Bool.not_eq_true] at h2
    have hking : m.fromType ≠ PieceType.kingOf c := by
      intro he
      refine h2.2 ?_
      rw [he]
      cases c <;> rfl
    have hk : (m.apply b).kingPosition c = b.kingPosition c := by
      rw [hg.kingPosition_apply, if_neg hking]
    have hpin := pinned_iff hkings hlast hg hking h2.1
    have hoff : ¬ (m.fromPos.1 - (b.kingPosition c).1 = 0 ∧ m.fromPos.2 - (b.kingPosition c).2 = 0) := by
      rintro ⟨h3, h4⟩
      refine hking ?_
      have : m.fromPos = b.kingPosition c := Prod.ext (by linarith) (by linarith)
      rw [hg.fromType_eq, this, hkings.get_king]
    rw [hk]
    by_cases h3 : (m.fromPos.1 - (b.kingPosition c).1 ≠ m.fromPos.2 - (b.kingPosition c).2 ∧
        m.fromPos.1 - (b.kingPosition c).1 + (m.fromPos.2 - (b.kingPosition c).2) ≠ 0 ∧
        (m.fromPos.1 - (b.kingPosition c).1) * (m.fromPos.2 - (b.kingPosition c).2) ≠ 0)
    · rw [if_pos]
      · have : ¬ (m.apply b).isChecked c = true := fun h => (hpin.mp h).1 h3
        rw [Bool.not_eq_true] at this
        rw [this]; rfl
      · simpa only [Bool.and_eq_true, decide_eq_true_eq, and_assoc] using h3
    · rw [if_neg (by simpa only [Bool.and_eq_true, decide_eq_true_eq, and_assoc] using h3)]
      have hwalk := pinWalk_iff hg (hkings.valid_king c) (unitStep_mem hoff)
      have hiff := hpin.trans ((and_iff_right h3).trans hwalk.symm)
      have hnot : ∀ w c : Bool, (c = true ↔ w = false) → w = !c := by decide
      exact hnot _ _ hiff

/-- **The fast legality test agrees with the full scan**, and leaves the scratch
board as it found it. -/
theorem canMove_eq {flags : Flags} (hkings : KingsOk b) (hlast : LastMoveOk b c)
    (hcov : self.Covers b c) {p : Piece}
    (hpm : p ∈ b.piecesOf c) (hm : m ∈ p.getMoves flags b) :
    self.canMove p m (b.isChecked c) b = (!(b.makeMove m).isChecked c, b) := by
  have hg := generated_of_mem hlast hpm hm
  have hpos := fromPos_of_mem_getMoves hpm hm
  have hpiece : p = ⟨m.fromType, m.fromPos⟩ := by
    have hon := (Board.mem_piecesOf.mp hpm).1
    rw [hg.fromType_eq, hpos, hon]
  have hcast : ¬ (b.isChecked c && decide (m.special = .kingCastling)) = true := by
    simp [hg.notCastling]
  unfold canMove
  rw [if_neg hcast, hpiece]
  dsimp only
  rw [canMoveApplied_eq hkings hlast hg hcov, hkings.recorded.undo_apply hg, Board.makeMove_isChecked]

end CanMove
end OneRound
end Chess
