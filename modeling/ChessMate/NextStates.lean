import ChessMate.PseudoLegal
import ChessMate.BreadthSearch

/-! # Making a move from its squares

The breadth-first solver does not make the moves that the generators give.  It
takes the two squares of a move and derives the kind again (`Board.moveKind`), and
its test for en passant only knows the black pawn.  So the two overloads of
`makeMove` agree for every generated move but the knight promotions, which are not
asked for, and white en passant (`makeMove_overloads_agree_iff`).

`getNextStates` adds both promoted boards for each of the two generated promotions,
and it makes the wrong board for white en passant.  `nextStates_exact_iff` says for
which pieces it nevertheless gives one board for each legal move, no two alike.

`hasNextStates` makes the same boards and keeps none.  It agrees with `getNextStates`,
and it is wrong about the legal moves only for a white pawn with nothing to play but an
en passant capture, or with nothing at all (`hasNextStates_right_iff`).
-/
namespace Chess
open LineWalk

/-! ## The derived kind -/

/-- The kind that `makeMove(pos, newPos, pawnPromotion)` derives. -/
def Board.moveKind (board : Board) (pos newPos : Position) : SpecialType :=
  let type := board.getPieceTypeAtPosition pos
  if (type = .bPawn && newPos.1 = 0) || (type = .wPawn && newPos.1 = BOARD_SIZE - 1) then
    .queenPromotion
  else if board.isEnpassantMove pos newPos then .pawnEnPassant
  else if board.isCastlingMove pos newPos then .kingCastling
  else .normalMove

theorem Board.makeMoveTo_eq (board : Board) (pos newPos : Position) :
    board.makeMoveTo pos newPos =
      (board.makeMove (Move.ofBoard board (board.moveKind pos newPos) pos newPos),
        decide (board.moveKind pos newPos = .queenPromotion)) := by
  unfold makeMoveTo moveKind
  dsimp only
  split_ifs <;> rfl

theorem Board.isCastlingMove_eq_false (board : Board) (pos newPos : Position) :
    board.isCastlingMove pos newPos = false := by
  unfold isCastlingMove
  dsimp only
  rw [if_pos]
  cases board.getPieceTypeAtPosition pos <;> decide

section Kind
variable {b : Board} {c : Bool} {pos : Position}

theorem moveKind_of_not_pawn {newPos : Position} (hw : b.getPieceTypeAtPosition pos ≠ .wPawn)
    (hb : b.getPieceTypeAtPosition pos ≠ .bPawn) : b.moveKind pos newPos = .normalMove := by
  simp [Board.moveKind, Board.isEnpassantMove, Board.isCastlingMove_eq_false, hw, hb]

/-- The kind that is derived for a pawn. -/
theorem moveKind_of_pawn (hpawn : b.getPieceTypeAtPosition pos = PieceType.pawnOf c)
    (newPos : Position) :
    b.moveKind pos newPos =
      if newPos.1 = lastRow c then .queenPromotion
      else if c = true ∧ newPos.2 ≠ pos.2 ∧ b.isEmpty newPos = true then .pawnEnPassant
      else .normalMove := by
  unfold Board.moveKind
  simp only [Board.isCastlingMove_eq_false, Board.isEnpassantMove, hpawn]
  cases c
  · simp [PieceType.pawnOf, lastRow, BOARD_SIZE]
  · by_cases h1 : newPos.1 = 0 <;> by_cases h2 : newPos.2 = pos.2 <;>
      simp [PieceType.pawnOf, lastRow, h1, h2]

end Kind

/-- The kind that is derived for a move of a given kind: a queen promotion for a
knight promotion, and a normal move for en passant that is not black's. -/
def SpecialType.rederived (type : PieceType) : SpecialType → SpecialType
  | knightPromotion => queenPromotion
  | pawnEnPassant => if type = .bPawn then pawnEnPassant else normalMove
  | special => special

section Derived
variable {flags : Flags} {b : Board} {p : Piece} {m : Move}

/-- A step of a pawn, forward or onto an enemy. -/
theorem moveKind_of_pawnStep {c : Bool} {tgt : Position}
    (hpawn : b.getPieceTypeAtPosition p.position = PieceType.pawnOf c)
    (hm : m ∈ pawnAddMove c p b tgt) (htgt : tgt.2 = p.position.2 ∨ b.isEmpty tgt = false) :
    b.moveKind p.position m.toPos = m.special.rederived p.type := by
  obtain ⟨special, hkind, rfl⟩ := mem_pawnAddMove_iff.mp hm
  have hnot : ¬ (c = true ∧ tgt.2 ≠ p.position.2 ∧ b.isEmpty tgt = true) := by
    rintro ⟨-, h1, h2⟩
    rcases htgt with h | h
    · exact h1 h
    · rw [h] at h2; cases h2
  show b.moveKind p.position tgt = special.rederived p.type
  rw [moveKind_of_pawn hpawn, if_neg hnot]
  cases special with
  | normalMove => exact if_neg hkind
  | queenPromotion | knightPromotion => exact if_pos hkind
  | pawnEnPassant | kingCastling => exact hkind.elim

/-- **The derived kind of a generated move.** -/
theorem moveKind_of_mem (hb : b.DoubleStepOk) (hp : p ∈ b.pieces) (hm : m ∈ p.getMoves flags b) :
    b.moveKind p.position m.toPos = m.special.rederived p.type := by
  have hp' := Board.mem_piecesOf_of_mem hp
  have hgen := hb.generated hp' hm
  obtain ⟨hon, hc⟩ := Board.mem_piecesOf.mp hp'
  by_cases hpawn : p.type = PieceType.pawnOf p.type.isBlack
  · obtain ⟨type, pos⟩ := p
    obtain ⟨c, rfl⟩ : ∃ c, type = PieceType.pawnOf c := ⟨_, hpawn⟩
    rcases mem_getMoves_pawn.mp hm with ⟨-, -, h⟩ | ⟨hrow, -, -, -, rfl⟩ | ⟨col, -, henemy, h⟩ |
      ⟨hrow, -, -, -, hcol, rfl⟩
    · exact moveKind_of_pawnStep hon h (Or.inl rfl)
    · have hlast : pos.1 + 2 * pawnDir c ≠ lastRow c := by
        rw [hrow]
        cases c <;> decide
      have hkind := moveKind_of_pawn hon (pos.1 + 2 * pawnDir c, pos.2)
      rw [if_neg hlast, if_neg (fun h => h.2.1 rfl)] at hkind
      exact hkind
    · refine moveKind_of_pawnStep hon h (Or.inr ?_)
      rw [← Bool.not_eq_true, Board.isEmpty_iff]
      exact henemy.1
    · have hlast : pos.1 + pawnDir c ≠ lastRow c := by
        rw [hrow]
        cases c <;> decide
      have hside : b.lastMove.fromPos.2 ≠ pos.2 := by
        intro h
        rw [h, sub_self] at hcol
        cases hcol
      have hempty := Board.isEmpty_iff.mpr (hgen.enPassant rfl).toEmpty
      have hkind := moveKind_of_pawn hon (pos.1 + pawnDir c, b.lastMove.fromPos.2)
      rw [if_neg hlast] at hkind
      show b.moveKind pos (pos.1 + pawnDir c, b.lastMove.fromPos.2) =
        if PieceType.pawnOf c = .bPawn then .pawnEnPassant else .normalMove
      rw [hkind]
      cases c
      · rfl
      · exact if_pos ⟨rfl, hside, hempty⟩
  · obtain ⟨tgt, -, -, -, rfl⟩ := (mem_getMoves_of_not_pawn hc hon hpawn).mp hm
    refine moveKind_of_not_pawn ?_ ?_ <;>
    · rw [hon]
      intro h
      rw [h] at hpawn
      exact hpawn rfl

/-- The move that the position-based overload makes for a generated one. -/
def Piece.derivedMove (self : Piece) (board : Board) (m : Move) : Move :=
  Move.ofBoard board (board.moveKind self.position m.toPos) self.position m.toPos

@[simp] theorem derivedMove_toPos (p : Piece) (b : Board) (m : Move) :
    (p.derivedMove b m).toPos = m.toPos := rfl

/-- It differs from the generated one in its kind only. -/
theorem derivedMove_eq (hb : b.DoubleStepOk) (hp : p ∈ b.pieces) (hm : m ∈ p.getMoves flags b) :
    p.derivedMove b m = { m with special := m.special.rederived p.type } := by
  have hp' := Board.mem_piecesOf_of_mem hp
  have hgen := hb.generated hp' hm
  have hfrom := fromPos_of_mem_getMoves hp' hm
  rw [Piece.derivedMove, moveKind_of_mem hb hp hm, Move.ofBoard, ← hfrom, ← hgen.fromType_eq,
    ← hgen.toType_eq]

end Derived

/-- **The two overloads of `makeMove` agree** on a generated move that is no knight
promotion exactly if it is not white's en passant. -/
theorem makeMove_overloads_agree_iff {flags : Flags} {b : Board} (hb : b.Reachable flags) {p : Piece}
    (hp : p ∈ b.pieces) {m : Move} (hm : m ∈ p.getMoves flags b)
    (hknight : m.special ≠ .knightPromotion) :
    ((b.makeMoveTo m.fromPos m.toPos).1.positions = (b.makeMove m).positions ∧
        (∀ c, (b.makeMoveTo m.fromPos m.toPos).1.kingPosition c = (b.makeMove m).kingPosition c) ∧
        (b.makeMoveTo m.fromPos m.toPos).1.lastMove = (b.makeMove m).lastMove) ↔
      ¬ (m.special = .pawnEnPassant ∧ m.fromType = .wPawn) := by
  have hp' := Board.mem_piecesOf_of_mem hp
  have hgen := hb.generated hp hm
  have hfrom := fromPos_of_mem_getMoves hp' hm
  have htype : m.fromType = p.type := by
    rw [hgen.fromType_eq, hfrom]
    exact (Board.mem_pieces.mp hp).1
  have hmade : (b.makeMoveTo m.fromPos m.toPos).1 = b.makeMove (p.derivedMove b m) := by
    rw [Board.makeMoveTo_eq, hfrom]
    rfl
  have hderived := derivedMove_eq hb.doubleStepOk hp hm
  rw [hmade]
  constructor
  · rintro ⟨-, -, hlast⟩ ⟨hs, hw⟩
    -- the recorded last moves are of different kinds
    have hspecial := congrArg Move.special hlast
    rw [Board.makeMove_lastMove, Board.makeMove_lastMove, hderived, hs] at hspecial
    rw [← htype, hw] at hspecial
    cases hspecial
  · intro hnot
    have hsame : p.derivedMove b m = m := by
      rw [hderived]
      have hs : m.special.rederived p.type = m.special := by
        cases hs : m.special with
        | normalMove | queenPromotion | kingCastling => rfl
        | knightPromotion => exact absurd hs hknight
        | pawnEnPassant =>
          refine if_pos ?_
          have hpawn := (hgen.enPassant hs).fromType_eq
          rw [← htype, hpawn]
          rw [hpawn] at hnot
          cases hcolor : p.type.isBlack with
          | false => exact absurd ⟨hs, by rw [hcolor]; rfl⟩ hnot
          | true => rfl
      rw [hs]
    rw [hsame]
    exact ⟨rfl, fun _ => rfl, rfl⟩

/-- White could take en passant, once black has stepped twice. -/
def Board.beforeDoubleStep : Board := ofText "ka1\npe5\nPd7\nKh8\n"

/-- Black's double step. -/
def Board.afterDoubleStep : Board :=
  beforeDoubleStep.makeMove (Move.ofBoard beforeDoubleStep .normalMove (6, 3) (4, 3))

theorem Board.afterDoubleStep_reachable : afterDoubleStep.Reachable Flags.default := by
  refine .move (c := true) (.loaded (fileLoaded_ofText (by decide +kernel))) ?_
  exact ⟨⟨.bPawn, (6, 3)⟩, by decide +kernel, by decide +kernel, by decide +kernel⟩

/-- White takes en passant, and the position-based overload leaves the pawn there. -/
theorem makeMove_overloads_disagree :
    Board.afterDoubleStep.Reachable Flags.default ∧
    (⟨.wPawn, (4, 4)⟩ : Piece) ∈ Board.afterDoubleStep.pieces ∧
    Move.ofBoard .afterDoubleStep .pawnEnPassant (4, 4) (5, 3) ∈
      Piece.getMoves Flags.default ⟨.wPawn, (4, 4)⟩ .afterDoubleStep ∧
    (Board.afterDoubleStep.makeMoveTo (4, 4) (5, 3)).1.positions ≠
      (Board.afterDoubleStep.makeMove
        (Move.ofBoard .afterDoubleStep .pawnEnPassant (4, 4) (5, 3))).positions := by
  refine ⟨Board.afterDoubleStep_reachable, by decide +kernel, by decide +kernel, fun h => ?_⟩
  have hpawn : (Board.afterDoubleStep.makeMoveTo (4, 4) (5, 3)).1.getPieceTypeAtPosition (4, 3) =
      .bPawn := by decide +kernel
  have hgone : (Board.afterDoubleStep.makeMove (Move.ofBoard .afterDoubleStep .pawnEnPassant
      (4, 4) (5, 3))).getPieceTypeAtPosition (4, 3) = .empty := by decide +kernel
  rw [Board.get_congr_positions h, hgone] at hpawn
  cases hpawn

/-- A single step of the white pawn is made alike by both. -/
theorem makeMove_overloads_agree_iff_forward :
    (Board.afterDoubleStep.makeMoveTo (4, 4) (5, 4)).1.positions =
      (Board.afterDoubleStep.makeMove
        (Move.ofBoard .afterDoubleStep .normalMove (4, 4) (5, 4))).positions := by
  have hnot : ¬ ((Move.ofBoard .afterDoubleStep .normalMove (4, 4) (5, 4)).special = .pawnEnPassant ∧
      (Move.ofBoard .afterDoubleStep .normalMove (4, 4) (5, 4)).fromType = .wPawn) :=
    fun h => by cases h.1
  exact ((makeMove_overloads_agree_iff Board.afterDoubleStep_reachable
    (p := ⟨.wPawn, (4, 4)⟩) (m := Move.ofBoard .afterDoubleStep .normalMove (4, 4) (5, 4))
    (by decide +kernel) (by decide +kernel) (by decide)).mpr hnot).1

/-! ## The boards that `getNextStates` makes -/

/-- A check stays when squares are freed and no enemy is removed. -/
theorem Board.isChecked_mono {b b' : Board} {c : Bool} (hking : b'.kingPosition c = b.kingPosition c)
    (hv : isValidPosition (b.kingPosition c) = true) (hfree : ∀ sq, b.Free sq → b'.Free sq)
    (henemy : ∀ sq, (b.getPieceTypeAtPosition sq).HasColor (!c) →
      Piece.canAttack ⟨b.getPieceTypeAtPosition sq, sq⟩ b (b.kingPosition c) = true →
      b'.getPieceTypeAtPosition sq = b.getPieceTypeAtPosition sq)
    (h : b.isChecked c = true) : b'.isChecked c = true := by
  rw [isChecked_iff] at h ⊢
  obtain ⟨sq, hc, ha⟩ := h
  have hsame := henemy sq hc ha
  refine ⟨sq, hsame ▸ hc, ?_⟩
  rw [hsame, hking]
  exact canAttack_mono (valid_of_ne_empty hc.1) hv hfree ha

/-- **Two moves of one piece to one square.**  If the second vacates what the first
does, and removes no enemy that attacks after the first, then its own king is in
check after the second when it is after the first. -/
theorem Generated.isChecked_mono {b : Board} {c : Bool} {m m' : Move} (hg : Generated b c m)
    (hg' : Generated b c m') (hto : m'.toPos = m.toPos) (hfrom : m'.fromType = m.fromType)
    (hv : isValidPosition ((m.apply b).kingPosition c) = true)
    (hvac : ∀ sq, m.Vacates sq → m'.Vacates sq)
    (hsafe : ∀ sq, m'.Vacates sq → (b.getPieceTypeAtPosition sq).HasColor (!c) →
      ¬ Piece.canAttack ⟨b.getPieceTypeAtPosition sq, sq⟩ (m.apply b)
        ((m.apply b).kingPosition c) = true)
    (h : (b.makeMove m).isChecked c = true) : (b.makeMove m').isChecked c = true := by
  rw [Board.makeMove_isChecked] at h ⊢
  refine Board.isChecked_mono ?_ hv (fun sq hfree => ?_) (fun sq hc ha => ?_) h
  · rw [hg.kingPosition_apply, hg'.kingPosition_apply, hto, hfrom]
  · have hsq : sq ≠ m.toPos := by
      rintro rfl
      exact hg.newType_hasColor.1 (hg.get_apply_to.symm.trans hfree)
    by_cases h' : m'.Vacates sq
    · exact hg'.get_apply_vacated h'
    · have hold : b.getPieceTypeAtPosition sq = .empty := by
        rw [← hg.get_apply_other hsq fun hm => h' (hvac sq hm)]
        exact hfree
      show (m'.apply b).getPieceTypeAtPosition sq = .empty
      rw [hg'.get_apply_other (hto ▸ hsq) h', hold]
  · obtain ⟨hsq, -, hold⟩ := hg.other_of_apply hc
    have h' : ¬ m'.Vacates sq := by
      intro h'
      exact hsafe sq h' (hold ▸ hc) (hold ▸ ha)
    rw [hg'.get_apply_other (hto ▸ hsq) h', hold]

section NextStates
variable {flags : Flags} {b : Board} {p : Piece} {m : Move}

/-- The derived move is as good as a generated one. -/
theorem Generated.rederived {c : Bool} (h : Generated b c m) (type : PieceType) :
    Generated b c { m with special := m.special.rederived type } := by
  obtain ⟨special, src, tgt, fromType, toType⟩ := m
  cases special with
  | normalMove | queenPromotion | kingCastling => exact h
  | knightPromotion =>
    exact
      { h with
        notCastling := fun h' => by cases h'
        pawnPromoted := fun _ => h.pawnPromoted (Or.inr rfl)
        promoted := fun _ _ => Or.inl rfl
        doubleStep := fun h1 h2 => by cases (h.doubleStep h1 h2).1
        enPassant := fun h' => by cases h' }
  | pawnEnPassant =>
    by_cases hblack : type = .bPawn
    · rw [SpecialType.rederived, if_pos hblack]
      exact h
    · rw [SpecialType.rederived, if_neg hblack]
      exact
        { h with
          notCastling := fun h' => by cases h'
          pawnPromoted := fun h' => by rcases h' with h' | h' <;> cases h'
          promoted := fun h1 h2 => by rcases h.promoted h1 h2 with h' | h' <;> cases h'
          doubleStep := fun h1 h2 => by cases (h.doubleStep h1 h2).1
          enPassant := fun h' => by cases h' }

/-- The board that is made for a move, before a pawn on it is promoted. -/
def Piece.nextBoard (self : Piece) (board : Board) (m : Move) : Board :=
  board.makeMove (self.derivedMove board m)

/-- The boards that are added for one move. -/
theorem nextStatesOf_eq (p : Piece) (b : Board) (m : Move) :
    p.nextStatesOf b m =
      if (p.nextBoard b m).isChecked p.type.isBlack then []
      else if b.moveKind p.position m.toPos = .queenPromotion then
        [(p.nextBoard b m).set
            (if p.type.isBlack then .bQueen else .wQueen) m.toPos,
          (p.nextBoard b m).set
            (if p.type.isBlack then .bKnight else .wKnight) m.toPos]
      else [p.nextBoard b m] := by
  unfold Piece.nextStatesOf
  rw [Board.makeMoveTo_eq]
  simp only [decide_eq_true_eq]
  rfl

/-- The recorded king squares stay on the board. -/
theorem Generated.valid_king_apply {c c' : Bool} (hg : Generated b c m)
    (hv : isValidPosition (b.kingPosition c') = true) :
    isValidPosition ((m.apply b).kingPosition c') = true := by
  rw [hg.kingPosition_apply]
  split
  · exact hg.validTo
  · exact hv

/-- The recorded king squares are on the board. -/
theorem Board.Reachable.valid_king (hb : b.Reachable flags) (c : Bool) :
    isValidPosition (b.kingPosition c) = true := by
  induction hb with
  | loaded h => exact h.kings.1.valid_king c
  | move h hm ih =>
    obtain ⟨q, hq, hgen, -⟩ := hm
    rw [Board.makeMove_kingPosition]
    exact (h.doubleStepOk.generated hq hgen).valid_king_apply ih

omit flags in
theorem promotions_of_mem_pawnAddMove {c : Bool} {tgt : Position} (h : m ∈ pawnAddMove c p b tgt)
    (hs : m.special = .queenPromotion ∨ m.special = .knightPromotion) :
    { m with special := .queenPromotion } ∈ pawnAddMove c p b tgt ∧
      { m with special := .knightPromotion } ∈ pawnAddMove c p b tgt := by
  obtain ⟨special, hkind, rfl⟩ := mem_pawnAddMove_iff.mp h
  have hrow : tgt.1 = lastRow c := by
    rcases hs with hs | hs
    · obtain rfl : special = .queenPromotion := hs
      exact hkind
    · obtain rfl : special = .knightPromotion := hs
      exact hkind
  exact ⟨mem_pawnAddMove_iff.mpr ⟨.queenPromotion, hrow, rfl⟩,
    mem_pawnAddMove_iff.mpr ⟨.knightPromotion, hrow, rfl⟩⟩

/-- A pawn that promotes does so to a queen and to a knight. -/
theorem promotions_of_mem (hp : p ∈ b.pieces) (hm : m ∈ p.getMoves flags b)
    (hs : m.special = .queenPromotion ∨ m.special = .knightPromotion) :
    { m with special := .queenPromotion } ∈ p.getMoves flags b ∧
      { m with special := .knightPromotion } ∈ p.getMoves flags b := by
  obtain ⟨hon, hc⟩ := Board.mem_piecesOf.mp (Board.mem_piecesOf_of_mem hp)
  by_cases hpawn : p.type = PieceType.pawnOf p.type.isBlack
  · obtain ⟨type, pos⟩ := p
    obtain ⟨c, rfl⟩ : ∃ c, type = PieceType.pawnOf c := ⟨_, hpawn⟩
    simp only [mem_getMoves_pawn] at hm ⊢
    rcases hm with ⟨hf, hv, h⟩ | ⟨-, -, -, -, rfl⟩ | ⟨col, hcol, henemy, h⟩ | ⟨-, -, -, -, -, rfl⟩
    · obtain ⟨hq, hn⟩ := promotions_of_mem_pawnAddMove h hs
      exact ⟨Or.inl ⟨hf, hv, hq⟩, Or.inl ⟨hf, hv, hn⟩⟩
    · rcases hs with hs | hs <;> cases hs
    · obtain ⟨hq, hn⟩ := promotions_of_mem_pawnAddMove h hs
      exact ⟨Or.inr (Or.inr (Or.inl ⟨col, hcol, henemy, hq⟩)),
        Or.inr (Or.inr (Or.inl ⟨col, hcol, henemy, hn⟩))⟩
    · rcases hs with hs | hs <;> cases hs
  · obtain ⟨tgt, -, -, -, rfl⟩ := (mem_getMoves_of_not_pawn hc hon hpawn).mp hm
    rcases hs with hs | hs <;> cases hs

/-- The kind is derived as a promotion exactly for the promotions. -/
theorem moveKind_eq_queenPromotion_iff (hb : b.DoubleStepOk) (hp : p ∈ b.pieces)
    (hm : m ∈ p.getMoves flags b) :
    b.moveKind p.position m.toPos = .queenPromotion ↔
      m.special = .queenPromotion ∨ m.special = .knightPromotion := by
  rw [moveKind_of_mem hb hp hm]
  cases m.special with
  | normalMove | queenPromotion | knightPromotion | kingCastling => simp [SpecialType.rederived]
  | pawnEnPassant =>
    rw [SpecialType.rederived]
    split <;> simp

/-- To which piece a pawn is promoted makes no difference for its own king. -/
theorem Generated.isChecked_promoted {c : Bool} (hg : Generated b c m)
    (hv : isValidPosition (b.kingPosition c) = true) (hs : m.special = .knightPromotion) :
    (b.makeMove { m with special := .queenPromotion }).isChecked c = (b.makeMove m).isChecked c := by
  have hg' : Generated b c { m with special := .queenPromotion } := by
    have h := hg.rederived .wPawn
    rw [hs] at h
    exact h
  -- both vacate the pawn's square, which holds no enemy
  have hvac : ∀ sq, Move.Vacates { m with special := .queenPromotion } sq ↔ sq = m.fromPos := by
    intro sq
    simp [Move.Vacates]
  have hvac' : ∀ sq, m.Vacates sq ↔ sq = m.fromPos := by
    intro sq
    simp [Move.Vacates, hs]
  have hown : ¬ (b.getPieceTypeAtPosition m.fromPos).HasColor (!c) := by
    rw [← hg.fromType_eq]
    exact hg.mover.not_other
  rw [Bool.eq_iff_iff]
  constructor
  · refine hg'.isChecked_mono hg rfl rfl (hg'.valid_king_apply hv) (fun sq h => ?_) fun sq h hc => ?_
    · exact (hvac' sq).mpr ((hvac sq).mp h)
    · rw [(hvac' sq).mp h] at hc
      exact absurd hc hown
  · refine hg.isChecked_mono hg' rfl rfl (hg.valid_king_apply hv) (fun sq h => ?_) fun sq h hc => ?_
    · exact (hvac sq).mpr ((hvac' sq).mp h)
    · rw [(hvac sq).mp h] at hc
      exact absurd hc hown

/-- No promotion of the piece is legal. -/
def Piece.NoPromotion (flags : Flags) (self : Piece) (board : Board) : Prop :=
  ∀ m ∈ self.getMoves flags board, m.special = .queenPromotion ∨ m.special = .knightPromotion →
    (board.makeMove m).isChecked self.type.isBlack = true

/-- A move that is no promotion and not white's en passant is made as it was generated. -/
theorem isChecked_nextBoard (hb : b.DoubleStepOk)
    (hv : isValidPosition (b.kingPosition p.type.isBlack) = true) (hp : p ∈ b.pieces)
    (hm : m ∈ p.getMoves flags b) (hpassant : m.special = .pawnEnPassant → p.type ≠ .wPawn) :
    (p.nextBoard b m).isChecked p.type.isBlack = (b.makeMove m).isChecked p.type.isBlack := by
  have hgen := hb.generated (Board.mem_piecesOf_of_mem hp) hm
  rw [Piece.nextBoard, derivedMove_eq hb hp hm]
  obtain ⟨special, src, tgt, fromType, toType⟩ := m
  cases special with
  | normalMove | queenPromotion | kingCastling => rfl
  | knightPromotion => exact hgen.isChecked_promoted hv rfl
  | pawnEnPassant =>
    have hblack : p.type = .bPawn := by
      have hpawn := (hgen.enPassant rfl).fromType_eq
      have hon := (Board.mem_pieces.mp hp).1
      have hfrom := fromPos_of_mem_getMoves (Board.mem_piecesOf_of_mem hp) hm
      rw [hgen.fromType_eq, hfrom, hon] at hpawn
      cases hc : p.type.isBlack with
      | false => rw [hc] at hpawn; exact absurd hpawn (hpassant rfl)
      | true => rw [hc] at hpawn; exact hpawn
    rw [SpecialType.rederived, if_pos hblack]

omit flags b p m in
theorem flatMap_eq_map_filter {α β : Type} {f : α → List β} {q : α → Bool} {g : α → β} {l : List α}
    (h : ∀ x ∈ l, f x = if q x then [g x] else []) : l.flatMap f = (l.filter q).map g := by
  induction l with
  | nil => rfl
  | cons x l ih =>
    rw [List.flatMap_cons, h x List.mem_cons_self, ih fun y hy => h y (List.mem_cons_of_mem x hy)]
    by_cases hx : q x = true <;> simp [hx]

/-- Without legal promotions, one board is made for each move that leaves the king
of the mover unattacked on it. -/
theorem getNextStates_eq (hb : b.Reachable flags) (hp : p ∈ b.pieces)
    (hno : p.NoPromotion flags b) :
    p.getNextStates flags b =
      ((p.getMoves flags b).filter
        fun m => !(p.nextBoard b m).isChecked p.type.isBlack).map (p.nextBoard b) := by
  refine flatMap_eq_map_filter fun m hm => ?_
  rw [nextStatesOf_eq]
  by_cases hkind : b.moveKind p.position m.toPos = .queenPromotion
  · -- a promotion, of which there is no legal one
    have hs := (moveKind_eq_queenPromotion_iff hb.doubleStepOk hp hm).mp hkind
    have hchecked : (p.nextBoard b m).isChecked p.type.isBlack = true := by
      rw [isChecked_nextBoard hb.doubleStepOk (hb.valid_king _) hp hm]
      · exact hno m hm hs
      · intro h
        rcases hs with hs | hs <;> rw [hs] at h <;> cases h
    rw [if_pos hchecked, hchecked]
    rfl
  · rw [if_neg hkind]
    cases hchecked : (p.nextBoard b m).isChecked p.type.isBlack with
    | true => rfl
    | false => rfl

/-- Only en passant goes to the square of an en passant capture. -/
theorem enPassant_of_toPos (hb : b.Reachable flags) (hp : p ∈ b.pieces) {m' : Move}
    (hm : m ∈ p.getMoves flags b) (hm' : m' ∈ p.getMoves flags b) (hto : m.toPos = m'.toPos)
    (hs : m.special = .pawnEnPassant) : m'.special = .pawnEnPassant := by
  have hp' := Board.mem_piecesOf_of_mem hp
  have hgen := hb.generated hp hm
  have hpassant := hgen.enPassant hs
  have hfrom := fromPos_of_mem_getMoves hp' hm
  have htype : p.type = PieceType.pawnOf p.type.isBlack := by
    rw [← hpassant.fromType_eq, hgen.fromType_eq, hfrom]
    exact (Board.mem_pieces.mp hp).1.symm
  have hside : m'.toPos.2 ≠ p.col := by
    intro h
    have hbeside := hpassant.beside
    rw [hto, h, hfrom, sub_self] at hbeside
    cases hbeside
  have hempty := hto ▸ hpassant.toEmpty
  cases ((getMoves_pseudoLegal hb hp).2 m').mp hm' with
  | slide along =>
    rw [htype] at along
    cases hc : p.type.isBlack <;> rw [hc] at along <;> exact along.elim
  | jump leap =>
    rw [htype] at leap
    cases hc : p.type.isBlack <;> rw [hc] at leap <;> exact leap.elim
  | forward | double => exact absurd rfl hside
  | capture pawn beside enemy => exact absurd hempty enemy.1
  | enPassant => rfl

/-- Two moves that are no promotions and go to one square are one move. -/
theorem eq_of_toPos_eq (hb : b.Reachable flags) (hp : p ∈ b.pieces) {m' : Move}
    (hm : m ∈ p.getMoves flags b) (hm' : m' ∈ p.getMoves flags b) (hto : m.toPos = m'.toPos)
    (hs : m.special ≠ .queenPromotion ∧ m.special ≠ .knightPromotion)
    (hs' : m'.special ≠ .queenPromotion ∧ m'.special ≠ .knightPromotion) : m = m' := by
  have hp' := Board.mem_piecesOf_of_mem hp
  have hg := hb.generated hp hm
  have hg' := hb.generated hp hm'
  have hfrom := (fromPos_of_mem_getMoves hp' hm).trans (fromPos_of_mem_getMoves hp' hm').symm
  have hthere := enPassant_of_toPos hb hp hm hm' hto
  have hback := enPassant_of_toPos hb hp hm' hm hto.symm
  have hspecial : m.special = m'.special := by
    have hc := hg.notCastling
    have hc' := hg'.notCastling
    cases h : m.special <;> cases h' : m'.special <;> simp_all
  have hft := hg.fromType_eq.trans ((congrArg _ hfrom).trans hg'.fromType_eq.symm)
  have htt := hg.toType_eq.trans ((congrArg _ hto).trans hg'.toType_eq.symm)
  cases m
  cases m'
  simp_all

/-- Different moves that are no promotions lead to different placements. -/
theorem nextBoard_injOn (hb : b.Reachable flags) (hp : p ∈ b.pieces) {m' : Move}
    (hm : m ∈ p.getMoves flags b) (hm' : m' ∈ p.getMoves flags b)
    (hs : m.special ≠ .queenPromotion ∧ m.special ≠ .knightPromotion)
    (hs' : m'.special ≠ .queenPromotion ∧ m'.special ≠ .knightPromotion)
    (h : (p.nextBoard b m).positions = (p.nextBoard b m').positions) : m = m' := by
  have hderived : ∀ {m : Move}, m ∈ p.getMoves flags b →
      Generated b p.type.isBlack (p.derivedMove b m) := by
    intro m hm
    rw [derivedMove_eq hb.doubleStepOk hp hm]
    exact (hb.generated hp hm).rederived p.type
  by_contra hne
  have hto : m.toPos ≠ m'.toPos := fun hto => hne (eq_of_toPos_eq hb hp hm hm' hto hs hs')
  -- on the first move's target the first board has the piece, and the second has not
  have hget : (p.nextBoard b m).getPieceTypeAtPosition m.toPos =
      (p.nextBoard b m').getPieceTypeAtPosition m.toPos := Board.get_congr_positions h _
  have hown : ((p.nextBoard b m).getPieceTypeAtPosition m.toPos).HasColor p.type.isBlack := by
    have hnew := (hderived hm).get_apply_to
    rw [derivedMove_toPos] at hnew
    rw [Piece.nextBoard, Board.makeMove_getPieceTypeAtPosition, hnew]
    exact (hderived hm).newType_hasColor
  rw [hget, Piece.nextBoard, Board.makeMove_getPieceTypeAtPosition, (hderived hm').get_apply,
    derivedMove_toPos, if_neg hto] at hown
  split at hown
  · exact PieceType.not_hasColor_empty _ hown
  · exact (hb.generated hp hm).target ((hb.generated hp hm).toType_eq ▸ hown)

/-- Without legal promotions, a move that leaves its own king safe is none. -/
theorem not_promotion_of_safe (hb : b.Reachable flags) (hp : p ∈ b.pieces)
    (hno : p.NoPromotion flags b) (hm : m ∈ p.getMoves flags b)
    (hsafe : (!(p.nextBoard b m).isChecked p.type.isBlack) = true) :
    m.special ≠ .queenPromotion ∧ m.special ≠ .knightPromotion := by
  rw [← not_or]
  intro hs
  rw [isChecked_nextBoard hb.doubleStepOk (hb.valid_king _) hp hm, hno m hm hs] at hsafe
  · cases hsafe
  · intro h
    rcases hs with hs | hs <;> rw [hs] at h <;> cases h

/-- A legal promotion is added twice. -/
theorem not_nodup_of_promotion (hb : b.Reachable flags) (hp : p ∈ b.pieces)
    (hno : ¬ p.NoPromotion flags b) : ¬ ((p.getNextStates flags b).map Board.positions).Nodup := by
  intro hnodup
  simp only [Piece.NoPromotion, not_forall] at hno
  obtain ⟨m, hm, hs, hlegal⟩ := hno
  obtain ⟨hq, hn⟩ := promotions_of_mem hp hm hs
  -- the boards depend on the target only, which the two promotions share
  have hsame : p.nextStatesOf b { m with special := .queenPromotion } =
      p.nextStatesOf b { m with special := .knightPromotion } := rfl
  have hne : p.nextStatesOf b { m with special := .queenPromotion } ≠ [] := by
    have hchecked : (p.nextBoard b m).isChecked p.type.isBlack = false := by
      rw [isChecked_nextBoard hb.doubleStepOk (hb.valid_king _) hp hm]
      · exact Bool.eq_false_iff.mpr hlegal
      · intro h
        rcases hs with hs | hs <;> rw [hs] at h <;> cases h
    have hkind := (moveKind_eq_queenPromotion_iff hb.doubleStepOk hp hm).mpr hs
    show p.nextStatesOf b m ≠ []
    rw [nextStatesOf_eq, hchecked, if_neg (by decide), if_pos hkind]
    exact List.cons_ne_nil _ _
  rw [Piece.getNextStates, List.map_flatMap, List.nodup_flatMap] at hnodup
  have hsymm : Std.Symm (Function.onFun List.Disjoint
      fun m => (p.nextStatesOf b m).map Board.positions) := ⟨fun _ _ h => h.symm⟩
  have hdisj := hnodup.2.forall hq hn (by simp)
  obtain ⟨s, hs⟩ := List.exists_mem_of_ne_nil _ hne
  exact hdisj (List.mem_map_of_mem hs) (List.mem_map_of_mem (hsame ▸ hs))

end NextStates

/-- Two tests count alike in a list of different elements in which at most one is
tested differently exactly if they agree on it too. -/
theorem countP_eq_iff_of_unique {α : Type} [DecidableEq α] {q r : α → Bool} {l : List α}
    (hnodup : l.Nodup) {s : α → Prop} (hunique : ∀ x ∈ l, ∀ y ∈ l, s x → s y → x = y)
    (hsame : ∀ x ∈ l, ¬ s x → q x = r x) :
    l.countP q = l.countP r ↔ ∀ x ∈ l, s x → q x = r x := by
  constructor
  · intro h x hx hs
    have hperm := List.perm_cons_erase hx
    have hrest : (l.erase x).countP q = (l.erase x).countP r := by
      refine List.countP_congr fun y hy => ?_
      have hyl := List.mem_of_mem_erase hy
      have hyx : y ≠ x := by
        rintro rfl
        exact (List.Nodup.not_mem_erase hnodup) hy
      rw [hsame y hyl fun hy' => hyx (hunique y hyl x hx hy' hs)]
    rw [hperm.countP_eq, hperm.countP_eq, List.countP_cons, List.countP_cons, hrest] at h
    cases hq : q x <;> cases hr : r x <;> simp [hq, hr] at h ⊢
  · intro h
    refine List.countP_congr fun x hx => ?_
    by_cases hs : s x
    · rw [h x hx hs]
    · rw [hsame x hx hs]

/-- **When next states are enumerated without loss or duplication**: exactly if no
promotion of the piece is legal, and if it is a white pawn that can take en passant,
the pawn it takes makes no difference for its own king. -/
theorem nextStates_exact_iff {flags : Flags} {b : Board} (hb : b.Reachable flags) {p : Piece}
    (hp : p ∈ b.pieces) :
    ((p.getNextStates flags b).length = ((p.getMoves flags b).filter
        fun m => !(b.makeMove m).isChecked p.type.isBlack).length ∧
      ((p.getNextStates flags b).map Board.positions).Nodup) ↔
    p.NoPromotion flags b ∧
      ∀ m ∈ p.getMoves flags b, m.special = .pawnEnPassant → p.type = .wPawn →
        (b.makeMove { m with special := .normalMove }).isChecked p.type.isBlack =
          (b.makeMove m).isChecked p.type.isBlack := by
  have hmoves := (getMoves_pseudoLegal hb hp).1
  by_cases hno : p.NoPromotion flags b
  swap
  · exact iff_of_false (fun h => not_nodup_of_promotion hb hp hno h.2) (fun h => hno h.1)
  -- white's en passant is made as a normal move
  have hwhite : ∀ m ∈ p.getMoves flags b, m.special = .pawnEnPassant → p.type = .wPawn →
      p.nextBoard b m = b.makeMove { m with special := .normalMove } := by
    intro m hm hs hw
    rw [Piece.nextBoard, derivedMove_eq hb.doubleStepOk hp hm, hs, hw]
    rfl
  have hcount := countP_eq_iff_of_unique hmoves
    (q := fun m => !(p.nextBoard b m).isChecked p.type.isBlack)
    (r := fun m => !(b.makeMove m).isChecked p.type.isBlack)
    (s := fun m => m.special = .pawnEnPassant ∧ p.type = .wPawn) ?_ ?_
  · rw [getNextStates_eq hb hp hno, List.length_map, ← List.countP_eq_length_filter,
      ← List.countP_eq_length_filter, hcount]
    constructor
    · rintro ⟨h, -⟩
      refine ⟨hno, fun m hm hs hw => ?_⟩
      rw [← hwhite m hm hs hw]
      exact Bool.not_inj (h m hm ⟨hs, hw⟩)
    · rintro ⟨-, h⟩
      refine ⟨fun m hm ⟨hs, hw⟩ => ?_, ?_⟩
      · rw [hwhite m hm hs hw, h m hm hs hw]
      · rw [List.map_map]
        refine (hmoves.filter _).map_on fun m hm m' hm' h => ?_
        rw [List.mem_filter] at hm hm'
        exact nextBoard_injOn hb hp hm.1 hm'.1 (not_promotion_of_safe hb hp hno hm.1 hm.2)
          (not_promotion_of_safe hb hp hno hm'.1 hm'.2) h
  · -- there is at most one en passant capture
    rintro m hm m' hm' ⟨hs, -⟩ ⟨hs', -⟩
    have he := (hb.generated hp hm).enPassant hs
    have he' := (hb.generated hp hm').enPassant hs'
    refine eq_of_toPos_eq hb hp hm hm' ?_ (by simp [hs]) (by simp [hs'])
    exact Prod.ext (he.toRow.trans he'.toRow.symm)
      (Prod.mk.inj (he.lastTo.symm.trans he'.lastTo)).2
  · intro m hm hs
    rw [isChecked_nextBoard hb.doubleStepOk (hb.valid_king _) hp hm fun h1 h2 => hs ⟨h1, h2⟩]

/-- A pawn on its start row has a board for each of its two moves. -/
theorem nextStates_exact_iff_start_row :
    (Piece.getNextStates Flags.default ⟨.bPawn, (6, 3)⟩ .beforeDoubleStep).length = 2 ∧
      ((Piece.getNextStates Flags.default ⟨.bPawn, (6, 3)⟩ .beforeDoubleStep).map
        Board.positions).Nodup := by
  have hreach : Board.beforeDoubleStep.Reachable Flags.default :=
    .loaded (Board.fileLoaded_ofText (by decide +kernel))
  have hmoves : ∀ m ∈ Piece.getMoves Flags.default ⟨.bPawn, (6, 3)⟩ .beforeDoubleStep,
      m.special = .normalMove := by decide +kernel
  refine ⟨by decide +kernel, ((nextStates_exact_iff hreach (by decide +kernel)).mpr ⟨?_, ?_⟩).2⟩
  · intro m hm hs
    rw [hmoves m hm] at hs
    rcases hs with hs | hs <;> cases hs
  · intro m hm hs
    rw [hmoves m hm] at hs
    cases hs

/-- The pawn about to promote has four legal moves, and eight boards are made. -/
theorem nextStates_not_exact :
    Board.pawnBeforeLastRow.Reachable Flags.default ∧
    (⟨.wPawn, (6, 1)⟩ : Piece) ∈ Board.pawnBeforeLastRow.pieces ∧
    (Piece.getNextStates Flags.default ⟨.wPawn, (6, 1)⟩ .pawnBeforeLastRow).length = 8 ∧
    ((Piece.getMoves Flags.default ⟨.wPawn, (6, 1)⟩ .pawnBeforeLastRow).filter
      fun m => !(Board.pawnBeforeLastRow.makeMove m).isChecked false).length = 4 :=
  ⟨Board.pawnBeforeLastRow_reachable, by decide +kernel, by decide +kernel, by decide +kernel⟩

/-! ## The test without boards -/

section HasNextStates
variable {flags : Flags} {b : Board} {p : Piece} {m : Move}

theorem hasNextStates_iff :
    p.hasNextStates flags b = true ↔
      ∃ m ∈ p.getMoves flags b, (p.nextBoard b m).isChecked p.type.isBlack = false := by
  simp only [Piece.hasNextStates, List.any_eq_true, Board.makeMoveTo_eq, Bool.not_eq_true']
  rfl

/-- A move adds no board exactly if its own king is in check on the board made for it. -/
theorem nextStatesOf_eq_nil_iff :
    p.nextStatesOf b m = [] ↔ (p.nextBoard b m).isChecked p.type.isBlack = true := by
  rw [nextStatesOf_eq]
  split_ifs with h1 h2 <;> simp [h1]

/-- The test says that there is a board exactly if one is generated. -/
theorem hasNextStates_iff_ne_nil :
    p.hasNextStates flags b = true ↔ p.getNextStates flags b ≠ [] := by
  rw [hasNextStates_iff, Ne, Piece.getNextStates, List.flatMap_eq_nil_iff]
  simp only [nextStatesOf_eq_nil_iff, not_forall, exists_prop, Bool.not_eq_true]

/-- A move that is judged differently on the board made for it: white's en passant
capture, if the taken pawn, which is left there, makes a difference for white's king. -/
structure Piece.Misjudges (p : Piece) (board : Board) (m : Move) : Prop where
  special_eq : m.special = .pawnEnPassant
  type_eq : p.type = .wPawn
  differs : (board.makeMove { m with special := .normalMove }).isChecked p.type.isBlack ≠
    (board.makeMove m).isChecked p.type.isBlack

/-- White's en passant capture is made as a normal move. -/
theorem nextBoard_of_enPassant (hb : b.Reachable flags) (hp : p ∈ b.pieces)
    (hm : m ∈ p.getMoves flags b) (hs : m.special = .pawnEnPassant) (hw : p.type = .wPawn) :
    p.nextBoard b m = b.makeMove { m with special := .normalMove } := by
  rw [Piece.nextBoard, derivedMove_eq hb.doubleStepOk hp hm, hs, hw]
  rfl

/-- A pawn has at most one en passant capture to misjudge. -/
theorem Piece.Misjudges.unique (hb : b.Reachable flags) (hp : p ∈ b.pieces) {m' : Move}
    (hm : m ∈ p.getMoves flags b) (hm' : m' ∈ p.getMoves flags b) (h : p.Misjudges b m)
    (h' : p.Misjudges b m') : m = m' := by
  have he := (hb.generated hp hm).enPassant h.special_eq
  have he' := (hb.generated hp hm').enPassant h'.special_eq
  refine eq_of_toPos_eq hb hp hm hm' ?_ (by simp [h.special_eq]) (by simp [h'.special_eq])
  exact Prod.ext (he.toRow.trans he'.toRow.symm)
    (Prod.mk.inj (he.lastTo.symm.trans he'.lastTo)).2

/-- Of the piece's moves, those are legal that leave its king unattacked. -/
theorem isLegal_iff_of_mem (hp : p ∈ b.pieces) (hm : m ∈ p.getMoves flags b) :
    b.IsLegal flags p.type.isBlack m ↔ (b.makeMove m).isChecked p.type.isBlack = false :=
  ⟨fun ⟨_, _, _, hsafe⟩ => hsafe, fun hsafe => ⟨p, Board.mem_piecesOf_of_mem hp, hm, hsafe⟩⟩

/-- A move that is not misjudged is legal exactly if boards are added for it. -/
theorem isLegal_iff_nextBoard (hb : b.Reachable flags) (hp : p ∈ b.pieces)
    (hm : m ∈ p.getMoves flags b) (hright : ¬ p.Misjudges b m) :
    b.IsLegal flags p.type.isBlack m ↔ (p.nextBoard b m).isChecked p.type.isBlack = false := by
  rw [isLegal_iff_of_mem hp hm]
  by_cases hwhite : m.special = .pawnEnPassant ∧ p.type = .wPawn
  · obtain ⟨hs, hw⟩ := hwhite
    have hsame := not_imp_comm.mp (Piece.Misjudges.mk hs hw) hright
    rw [nextBoard_of_enPassant hb hp hm hs hw, hsame]
  · rw [isChecked_nextBoard hb.doubleStepOk (hb.valid_king _) hp hm fun h1 h2 => hwhite ⟨h1, h2⟩]

/-- A misjudged move is legal exactly if no board is added for it. -/
theorem Piece.Misjudges.isLegal_iff (h : p.Misjudges b m) (hb : b.Reachable flags)
    (hp : p ∈ b.pieces) (hm : m ∈ p.getMoves flags b) :
    b.IsLegal flags p.type.isBlack m ↔ (p.nextBoard b m).isChecked p.type.isBlack = true := by
  rw [isLegal_iff_of_mem hp hm, nextBoard_of_enPassant hb hp hm h.special_eq h.type_eq]
  have hdiffers := h.differs
  generalize (b.makeMove { m with special := .normalMove }).isChecked p.type.isBlack = made at *
  cases made <;> simpa using hdiffers.symm

end HasNextStates

/-- **The test agrees with the generator, and with the rules but for one pawn**: it says
that the piece can move exactly if a board is generated for it, and it is right about the
legal moves exactly if a piece that misjudges a move has another legal one. -/
theorem hasNextStates_right_iff {flags : Flags} {b : Board} (hb : b.Reachable flags) {p : Piece}
    (hp : p ∈ b.pieces) :
    (p.hasNextStates flags b = true ↔ p.getNextStates flags b ≠ []) ∧
    ((p.hasNextStates flags b = true ↔
        ∃ m ∈ p.getMoves flags b, b.IsLegal flags p.type.isBlack m) ↔
      ∀ m ∈ p.getMoves flags b, p.Misjudges b m →
        ∃ m' ∈ p.getMoves flags b, m' ≠ m ∧ b.IsLegal flags p.type.isBlack m') := by
  refine ⟨hasNextStates_iff_ne_nil, ?_⟩
  rw [hasNextStates_iff]
  have hjudged : ∀ m ∈ p.getMoves flags b, p.Misjudges b m → ∀ m' ∈ p.getMoves flags b, m' ≠ m →
      (b.IsLegal flags p.type.isBlack m' ↔
        (p.nextBoard b m').isChecked p.type.isBlack = false) := by
    intro m hm hmis m' hm' hne
    exact isLegal_iff_nextBoard hb hp hm' fun h => hne (h.unique hb hp hm' hm hmis)
  constructor
  · intro hright m hm hmis
    by_cases hlegal : b.IsLegal flags p.type.isBlack m
    · -- not judged legal, so that another move is
      obtain ⟨m', hm', hsafe⟩ := hright.mpr ⟨m, hm, hlegal⟩
      have hne : m' ≠ m := by
        rintro rfl
        rw [(hmis.isLegal_iff hb hp hm').mp hlegal] at hsafe
        cases hsafe
      exact ⟨m', hm', hne, (hjudged m hm hmis m' hm' hne).mpr hsafe⟩
    · -- judged legal, so that some other move is legal
      rw [hmis.isLegal_iff hb hp hm, Bool.not_eq_true] at hlegal
      obtain ⟨m', hm', hlegal'⟩ := hright.mp ⟨m, hm, hlegal⟩
      refine ⟨m', hm', ?_, hlegal'⟩
      rintro rfl
      rw [hmis.isLegal_iff hb hp hm', hlegal] at hlegal'
      cases hlegal'
  · intro hother
    by_cases hmis : ∃ m ∈ p.getMoves flags b, p.Misjudges b m
    · obtain ⟨m, hm, hmis⟩ := hmis
      obtain ⟨m', hm', hne, hlegal⟩ := hother m hm hmis
      exact iff_of_true ⟨m', hm', (hjudged m hm hmis m' hm' hne).mp hlegal⟩ ⟨m', hm', hlegal⟩
    · refine exists_congr fun m => and_congr_right fun hm => ?_
      exact (isLegal_iff_nextBoard hb hp hm fun h => hmis ⟨m, hm, h⟩).symm

/-- The white pawn that can take en passant can also step. -/
theorem hasNextStates_right_step :
    Piece.getNextStates Flags.default ⟨.wPawn, (4, 4)⟩ .afterDoubleStep ≠ [] ∧
    ∃ m ∈ Piece.getMoves Flags.default ⟨.wPawn, (4, 4)⟩ .afterDoubleStep,
      Board.afterDoubleStep.IsLegal Flags.default false m := by
  have hp : (⟨.wPawn, (4, 4)⟩ : Piece) ∈ Board.afterDoubleStep.pieces := by decide +kernel
  have htest : Piece.hasNextStates Flags.default ⟨.wPawn, (4, 4)⟩ .afterDoubleStep = true := by
    decide +kernel
  have hstep : Move.ofBoard .afterDoubleStep .normalMove (4, 4) (5, 4) ∈
      Piece.getMoves Flags.default ⟨.wPawn, (4, 4)⟩ .afterDoubleStep := by decide +kernel
  obtain ⟨hboards, hright⟩ := hasNextStates_right_iff Board.afterDoubleStep_reachable hp
  refine ⟨hboards.mp htest, (hright.mpr fun m hm hmis => ⟨_, hstep, ?_, ?_⟩).mp htest⟩
  · rintro rfl
    cases hmis.special_eq
  · exact (isLegal_iff_of_mem hp hstep).mpr (by decide +kernel)

/-- The pawn that gives check could only be taken en passant, and the test finds no move. -/
example :
    let b := Board.ofText "ke4\npe5\nPd7\nKh8\n"
    let b' := b.makeMove (Move.ofBoard b .normalMove (6, 3) (4, 3))
    Piece.hasNextStates Flags.default ⟨.wPawn, (4, 4)⟩ b' = false ∧
      ((Piece.getMoves Flags.default ⟨.wPawn, (4, 4)⟩ b').filter
        fun m => !(b'.makeMove m).isChecked false).length = 1 := by
  decide +kernel

end Chess
