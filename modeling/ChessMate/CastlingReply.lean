import ChessMate.ReachableBoards
import ChessMate.RoundGame

/-! # The legality test after castling

When the opponent has just castled, `canMove` looks at the rook that was moved as
well.  It asks whether the rook attacks the square that the move goes to, not
whether it attacks the king.  Nothing is needed here at all: the piece lists of the
round were filled after the castling, so the rook is in them, and the line from the
king meets it like any other piece.

So the test is the one that would be made had nothing moved before
(`Board.withoutLastMove`), which is exact (`OneRound.canMove_eq`), with a branch in
front that rejects every move, legal or not, to a square that the rook attacks
(`canMove_after_castling_iff`).
-/
namespace Chess
open LineWalk

/-! ## The board after castling -/

namespace CastlingOpen
variable {b : Board} {c smaller : Bool}

/-- Castling keeps one king of each colour, on its recorded square. -/
theorem kingsOk (h : CastlingOpen b c smaller) (hk : KingsOk b) :
    KingsOk (b.makeMove (castlingMove b c smaller)) := by
  intro c' sq
  rw [Board.makeMove_getPieceTypeAtPosition, Board.makeMove_kingPosition, h.get_apply,
    h.kingPosition_apply]
  have hto := h.between (kingToCol smaller) (by cases smaller <;> decide)
  have hrookTo := h.between (rookToCol smaller) (by cases smaller <;> decide)
  have hrookKing : PieceType.rookOf c ≠ PieceType.kingOf c' := by
    cases c <;> cases c' <;> decide
  have hempty : PieceType.empty ≠ PieceType.kingOf c' := by cases c' <;> decide
  by_cases hc : c' = c
  · subst hc
    rw [if_pos rfl]
    by_cases h1 : sq = (homeRow c', kingToCol smaller)
    · rw [if_pos h1]
      exact iff_of_true rfl h1
    · rw [if_neg h1]
      refine iff_of_false ?_ h1
      split_ifs with h2 h3
      · exact hrookKing
      · exact hempty
      · intro hking
        have hsq := (hk c' sq).mp hking
        rw [← (hk c' _).mp h.king] at hsq
        exact h3 (Or.inr hsq)
  · rw [if_neg hc, ← hk c' sq]
    have hother : PieceType.kingOf c ≠ PieceType.kingOf c' := by
      revert hc
      clear * -
      revert c c'
      decide
    -- no square of the castling holds the other king
    split_ifs with h1 h2 h3
    · rw [h1, hto]
      exact iff_of_false hother hempty
    · rw [h2, hrookTo]
      exact iff_of_false hrookKing hempty
    · refine iff_of_false hempty ?_
      rcases h3 with rfl | rfl
      · rw [h.rook]; exact hrookKing
      · rw [h.king]; exact hother
    · exact Iff.rfl

end CastlingOpen

/-! ## The test without a last move -/

/-- The board as if nothing had moved. -/
def Board.withoutLastMove (b : Board) : Board := { b with lastMove := Move.none }

/-- The part of `canMove` after the two tests of the last move. -/
def OneRound.canMoveRest (self : OneRound) (piece : Piece) (move : Move) (isChecked : Bool)
    (auxBoard : Board) : Bool :=
  let type := piece.type
  let kingPos := auxBoard.kingPosition type.isBlack
  if isChecked || type.isKing then
    !self.checkChecked auxBoard (type.isBlack == self.blackFirst)
  else
    let dr := piece.row - kingPos.1
    let dc := piece.col - kingPos.2
    if dr ≠ dc && dr + dc ≠ 0 && dr * dc ≠ 0 then true
    else
      let step : DeltaMove := (OneRound.unitStep dr, OneRound.unitStep dc)
      (LineWalk.walk (fun pos : Position =>
        if !isValidPosition pos then some true
        else if pos = move.toPos then some true
        else if auxBoard.isEmpty pos || pos = piece.position then none
        else
          let firstPieceType := auxBoard.getPieceTypeAtPosition pos
          if type.isSameColor firstPieceType then some true
          else some (!canAttackLine firstPieceType step)) step 8 kingPos).getD true

/-- The test of the rook that has castled. -/
def OneRound.castledRookAttacks (move : Move) (auxBoard : Board) : Bool :=
  auxBoard.lastMove.special = .kingCastling &&
    auxBoard.lastMove.getCastlingRookPos.2 ≠ move.toPos &&
    ((auxBoard.safePiece auxBoard.lastMove.getCastlingRookPos.2).any fun oppRook =>
      oppRook.canAttack auxBoard move.toPos)

theorem OneRound.canMoveApplied_eq_rest (self : OneRound) (piece : Piece) (move : Move)
    (isChecked : Bool) (auxBoard : Board) :
    self.canMoveApplied piece move isChecked auxBoard =
      if lastMoverAttacks move auxBoard (auxBoard.kingPosition piece.type.isBlack) then false
      else if castledRookAttacks move auxBoard then false
      else self.canMoveRest piece move isChecked auxBoard := rfl

/-- The rest of the test reads the squares and the kings only. -/
theorem OneRound.canMoveRest_congr (self : OneRound) (piece : Piece) (move : Move)
    (isChecked : Bool) {aux aux' : Board}
    (hget : ∀ sq, aux.getPieceTypeAtPosition sq = aux'.getPieceTypeAtPosition sq)
    (hking : ∀ c, aux.kingPosition c = aux'.kingPosition c) :
    self.canMoveRest piece move isChecked aux = self.canMoveRest piece move isChecked aux' := by
  have hpos := Board.positions_ext hget
  have hscan : ∀ maxSide, self.checkChecked aux maxSide = self.checkChecked aux' maxSide := by
    intro maxSide
    simp only [checkChecked, hget, hking, canAttack_congr_positions hpos]
  have hempty : ∀ sq, aux.isEmpty sq = aux'.isEmpty sq := by
    intro sq
    rw [Board.isEmpty, Board.isEmpty, hget]
  simp only [canMoveRest, hscan, hking, hempty, hget]

namespace Board
variable {b : Board} {c : Bool}

theorem withoutLastMove_get (sq : Position) :
    b.withoutLastMove.getPieceTypeAtPosition sq = b.getPieceTypeAtPosition sq := rfl

theorem withoutLastMove_kingPosition (c : Bool) :
    b.withoutLastMove.kingPosition c = b.kingPosition c := rfl

theorem withoutLastMove_isChecked (c : Bool) : b.withoutLastMove.isChecked c = b.isChecked c := by
  rw [Bool.eq_iff_iff, isChecked_iff, isChecked_iff]
  have ha : ∀ p tgt, Piece.canAttack p b.withoutLastMove tgt = Piece.canAttack p b tgt :=
    fun p tgt => canAttack_congr_positions rfl p tgt
  simp only [ha, withoutLastMove_get, withoutLastMove_kingPosition]

theorem withoutLastMove_playable (hk : KingsOk b) (hn : b.isChecked (!c) = false) :
    Playable b.withoutLastMove c where
  kings := hk
  notAttacked := (b.withoutLastMove_isChecked (!c)).trans hn
  last := Or.inl
    { fromType_eq := rfl
      notValidTo := fun h => by cases h
      notCastling := fun h => by cases h }

end Board

section AfterCastling
variable {flags : Flags} {b : Board} {c : Bool} {p : Piece} {m : Move}

/-- **The test after a move that was no pawn's**: the two tests of the last move come
first, and the rest is exact. -/
theorem OneRound.canMove_without_eq (hk : KingsOk b) (hn : b.isChecked (!c) = false)
    (hpawn : ∀ c', b.lastMove.fromType ≠ PieceType.pawnOf c') (level : ℕ)
    (parent : Option ParentRound) (hp : p ∈ b.piecesOf c) (hm : m ∈ p.getMoves flags b) :
    ((create b c level parent).canMove p m (create b c level parent).isChecked b).1 =
      if lastMoverAttacks m (m.apply b) ((m.apply b).kingPosition c) then false
      else if castledRookAttacks m (m.apply b) then false
      else !(b.makeMove m).isChecked c := by
  have hdouble : b.DoubleStepOk := fun c' htype => absurd htype (hpawn (!c'))
  have hg := hdouble.generated hp hm
  have hpassant : m.special ≠ .pawnEnPassant := fun hs => hpawn _ (hg.enPassant hs).lastType
  have hsame : b.positions = b.withoutLastMove.positions := rfl
  have hm' : m ∈ p.getMoves flags b.withoutLastMove := mem_getMoves_congr hsame hp hpassant hm
  have hp' : p ∈ b.withoutLastMove.piecesOf c := hp
  have hplay := Board.withoutLastMove_playable hk hn
  have hg' := generated_of_mem hplay.last hp' hm'
  have hblack : p.type.isBlack = c := (Board.mem_piecesOf.mp hp).2.2
  -- the round has listed every opponent
  have henemies : (create b c level parent).enemies c = b.piecesOf (!c) := by
    have h : (c == (create b c level parent).blackFirst) = true := beq_self_eq_true _
    rw [enemies, if_pos h]
    exact create_minStepPieces b c level parent
  have hcov : (create b c level parent).Covers b.withoutLastMove c :=
    { color := fun q hq => by
        rw [henemies] at hq
        exact (Board.mem_piecesOf.mp hq).2
      listed := fun q hon hc _ => by
        rw [henemies]
        exact Board.mem_piecesOf.mpr ⟨hon, hc⟩ }
  have hcheck : (create b c level parent).isChecked = b.isChecked c :=
    (ready_create b c level parent).isChecked_eq.trans (AttackState.isMaxChecked_eq _)
  have hexact := congrArg Prod.fst (canMove_eq hplay.kings hplay.last hcov hp' hm')
  rw [b.withoutLastMove_isChecked] at hexact
  have hget : ∀ sq, (m.apply b).getPieceTypeAtPosition sq =
      (m.apply b.withoutLastMove).getPieceTypeAtPosition sq := by
    intro sq
    rw [hg.get_apply, hg'.get_apply, Board.withoutLastMove_get]
  have hking : ∀ c', (m.apply b).kingPosition c' = (m.apply b.withoutLastMove).kingPosition c' := by
    intro c'
    rw [hg.kingPosition_apply, hg'.kingPosition_apply, Board.withoutLastMove_kingPosition]
  have hafter : (b.withoutLastMove.makeMove m).isChecked c = (b.makeMove m).isChecked c := by
    rw [Board.makeMove_isChecked, Board.makeMove_isChecked, Bool.eq_iff_iff, Board.isChecked_iff,
      Board.isChecked_iff]
    simp only [canAttack_congr_positions (Board.positions_ext hget), hget, hking]
  have hcastling : ¬ (b.isChecked c && decide (m.special = .kingCastling)) = true := by
    simp [hg.notCastling]
  rw [canMove, if_neg hcastling] at hexact
  rw [hcheck, canMove, if_neg hcastling]
  dsimp only at hexact ⊢
  have hlast : (m.apply b.withoutLastMove).lastMove = Move.none := apply_lastMove m _
  have hmover : ∀ king, lastMoverAttacks m (m.apply b.withoutLastMove) king = false := by
    intro king
    rw [lastMoverAttacks, hlast]
    rfl
  have hrook : castledRookAttacks m (m.apply b.withoutLastMove) = false := by
    rw [castledRookAttacks, hlast]
    rfl
  rw [canMoveApplied_eq_rest, hmover, hrook, if_neg (by decide), if_neg (by decide), hafter] at hexact
  rw [canMoveApplied_eq_rest, canMoveRest_congr _ _ _ _ hget hking, hexact, hblack]

end AfterCastling

/-! ## The branch of the castled rook -/

/-- The board after castling. -/
abbrev Board.castled (b : Board) (c smaller : Bool) : Board := b.makeMove (castlingMove b c smaller)

/-- The square on which the rook of a castling ends. -/
def rookToPos (c smaller : Bool) : Position := (homeRow c, rookToCol smaller)

/-- The rook that has castled attacks the square that the move goes to, once the move
is made. -/
def RookAttacksTarget (b : Board) (c smaller : Bool) (m : Move) : Prop :=
  m.toPos ≠ rookToPos c smaller ∧
    Piece.canAttack ⟨PieceType.rookOf c, rookToPos c smaller⟩ (m.apply b) m.toPos = true

instance (b : Board) (c smaller : Bool) (m : Move) : Decidable (RookAttacksTarget b c smaller m) :=
  inferInstanceAs (Decidable (_ ∧ _))

section CastledRook
variable {flags : Flags} {b : Board} {c smaller : Bool} {p : Piece} {m : Move}

/-- A piece of the side that has castled stays where it is, unless it is taken: no pawn
has just stepped twice, so nothing is taken en passant. -/
theorem CastlingOpen.get_apply_other (h : CastlingOpen b c smaller)
    (hg : Generated (b.castled c smaller) (!c) m) {sq : Position} (hto : sq ≠ m.toPos)
    (hsq : ((b.castled c smaller).getPieceTypeAtPosition sq).HasColor c) :
    (m.apply (b.castled c smaller)).getPieceTypeAtPosition sq =
      (b.castled c smaller).getPieceTypeAtPosition sq := by
  refine hg.get_apply_other hto ?_
  rintro (rfl | ⟨hs, -⟩)
  · rw [← hg.fromType_eq] at hsq
    exact hsq.not_other hg.mover
  · have hpawn : (castlingMove b c smaller).fromType = PieceType.pawnOf (!!c) :=
      (hg.enPassant hs).lastType
    have hking : (castlingMove b c smaller).fromType = PieceType.kingOf c := h.king
    rw [hking, Bool.not_not] at hpawn
    cases c <;> cases hpawn

/-- If the king that has castled attacks the other king, that king is in check. -/
theorem CastlingOpen.isChecked_of_lastMover (h : CastlingOpen b c smaller)
    (hg : Generated (b.castled c smaller) (!c) m)
    (ha : OneRound.lastMoverAttacks m (m.apply (b.castled c smaller))
      ((m.apply (b.castled c smaller)).kingPosition (!c)) = true) :
    (m.apply (b.castled c smaller)).isChecked (!c) = true := by
  have hking : ((b.castled c smaller).getPieceTypeAtPosition
      (b.castled c smaller).lastMove.toPos).HasColor c := by
    have hto : (b.castled c smaller).lastMove.toPos = (homeRow c, kingToCol smaller) := rfl
    rw [Board.makeMove_getPieceTypeAtPosition, h.get_apply, if_pos hto]
    exact PieceType.kingOf_hasColor c
  simp only [OneRound.lastMoverAttacks, OneRound.apply_lastMove, Bool.and_eq_true,
    decide_eq_true_eq, Option.any_eq_true, Board.safePiece_eq_some] at ha
  obtain ⟨⟨-, hto⟩, q, ⟨rfl, -⟩, ha⟩ := ha
  rw [Board.isChecked_iff]
  refine ⟨_, ?_, ha⟩
  rw [h.get_apply_other hg hto hking, Bool.not_not]
  exact hking

/-- The branch asks whether the rook attacks the target. -/
theorem CastlingOpen.castledRookAttacks_iff (h : CastlingOpen b c smaller)
    (hg : Generated (b.castled c smaller) (!c) m) :
    OneRound.castledRookAttacks m (m.apply (b.castled c smaller)) = true ↔
      RookAttacksTarget (b.castled c smaller) c smaller m := by
  have hrook : (b.castled c smaller).getPieceTypeAtPosition (rookToPos c smaller) =
      PieceType.rookOf c := by
    rw [rookToPos, Board.makeMove_getPieceTypeAtPosition, h.get_apply, if_neg, if_pos rfl]
    cases c <;> cases smaller <;> decide
  have hcolor : (PieceType.rookOf c).HasColor c := by cases c <;> decide
  have hpos : (castlingMove b c smaller).getCastlingRookPos.2 = rookToPos c smaller := by
    rw [CastlingOpen.getCastlingRookPos_eq]
    rfl
  have hlast : (m.apply (b.castled c smaller)).lastMove = castlingMove b c smaller :=
    OneRound.apply_lastMove m _
  have hstays : m.toPos ≠ rookToPos c smaller →
      (m.apply (b.castled c smaller)).getPieceTypeAtPosition (rookToPos c smaller) =
        PieceType.rookOf c := by
    intro hto
    rw [h.get_apply_other hg (Ne.symm hto) (hrook ▸ hcolor), hrook]
  simp only [OneRound.castledRookAttacks, hlast, hpos, Bool.and_eq_true, decide_eq_true_eq,
    Option.any_eq_true, Board.safePiece_eq_some]
  constructor
  · rintro ⟨⟨-, hto⟩, q, ⟨rfl, -⟩, ha⟩
    rw [hstays (Ne.symm hto)] at ha
    exact ⟨Ne.symm hto, ha⟩
  · rintro ⟨hto, ha⟩
    refine ⟨⟨rfl, Ne.symm hto⟩, _, ⟨rfl, ?_⟩, ?_⟩
    · rw [hstays hto]; exact hcolor.1
    · rw [hstays hto]; exact ha

/-- **When the legality test after castling is right**: exactly unless the move is legal
and the rook that has castled attacks the square that it goes to. -/
theorem canMove_after_castling_iff (hk : KingsOk b) (hopen : CastlingOpen b c smaller)
    (hsafe : (b.castled c smaller).isChecked c = false) (level : ℕ) (parent : Option ParentRound)
    (hp : p ∈ (b.castled c smaller).piecesOf (!c))
    (hm : m ∈ p.getMoves flags (b.castled c smaller)) :
    (((OneRound.create (b.castled c smaller) (!c) level parent).canMove p m
          (OneRound.create (b.castled c smaller) (!c) level parent).isChecked
          (b.castled c smaller)).1 = true ↔
        ((b.castled c smaller).makeMove m).isChecked p.type.isBlack = false) ↔
      (((b.castled c smaller).makeMove m).isChecked p.type.isBlack = true ∨
        ¬ RookAttacksTarget (b.castled c smaller) c smaller m) := by
  have hpawn : ∀ c', (b.castled c smaller).lastMove.fromType ≠ PieceType.pawnOf c' := by
    intro c' htype
    have hking : (castlingMove b c smaller).fromType = PieceType.kingOf c := hopen.king
    have htype' : (castlingMove b c smaller).fromType = PieceType.pawnOf c' := htype
    rw [hking] at htype'
    cases c <;> cases c' <;> cases htype'
  have hdouble : (b.castled c smaller).DoubleStepOk := fun c' htype => absurd htype (hpawn (!c'))
  have hg := hdouble.generated hp hm
  have hn : (b.castled c smaller).isChecked (!!c) = false := by rw [Bool.not_not]; exact hsafe
  have hblack : p.type.isBlack = !c := (Board.mem_piecesOf.mp hp).2.2
  rw [OneRound.canMove_without_eq (hopen.kingsOk hk) hn hpawn level parent hp hm, hblack,
    ← hopen.castledRookAttacks_iff hg]
  have hmover := hopen.isChecked_of_lastMover hg
  rw [← Board.makeMove_isChecked] at hmover
  -- the test of the castled king only rejects moves that the rest rejects too
  cases hcheck : ((b.castled c smaller).makeMove m).isChecked (!c) with
  | true => simp
  | false =>
    rw [if_neg fun ha => by rw [hmover ha] at hcheck; cases hcheck]
    cases OneRound.castledRookAttacks m (m.apply (b.castled c smaller)) <;> simp

end CastledRook

/-- White can castle, and black then has a rook that can move to the file of the
white rook. -/
def Board.castlingFile : Board := ofText "ke1\nrh1\nKa8\nRd8\n"

theorem Board.castlingFile_fileLoaded : castlingFile.FileLoaded :=
  fileLoaded_ofText (by decide +kernel)

theorem Board.castlingFile_open : CastlingOpen castlingFile false false := by
  refine ⟨by decide +kernel, by decide +kernel, fun col hcol => ?_⟩
  have hcases : col = 5 ∨ col = 6 := by
    simp only [Bool.false_eq_true, if_false] at hcol
    omega
  rcases hcases with rfl | rfl <;> decide +kernel

/-- A move of the king that the rook has nothing to do with. -/
theorem canMove_after_castling_king :
    ((OneRound.create (Board.castlingFile.castled false false) true 0 none).canMove
        ⟨.bKing, (7, 0)⟩
        (Move.ofBoard (Board.castlingFile.castled false false) .normalMove (7, 0) (6, 0))
        (OneRound.create (Board.castlingFile.castled false false) true 0 none).isChecked
        (Board.castlingFile.castled false false)).1 = true ↔
      ((Board.castlingFile.castled false false).makeMove
        (Move.ofBoard (Board.castlingFile.castled false false) .normalMove (7, 0) (6, 0))).isChecked
          true = false := by
  have hp : (⟨.bKing, (7, 0)⟩ : Piece) ∈ (Board.castlingFile.castled false false).piecesOf (!false) := by
    decide +kernel
  have hm : Move.ofBoard (Board.castlingFile.castled false false) .normalMove (7, 0) (6, 0) ∈
      Piece.getMoves Flags.default ⟨.bKing, (7, 0)⟩ (Board.castlingFile.castled false false) := by
    decide +kernel
  exact (canMove_after_castling_iff Board.castlingFile_fileLoaded.kings.1 Board.castlingFile_open
    (by decide +kernel) 0 none hp hm).mpr (Or.inr (by decide +kernel))

/-- **A legal move is rejected**: black's rook may not go to the file of the rook that
has castled. -/
theorem canMove_after_castling_rejects :
    (KingsOk Board.castlingFile ∧ CastlingOpen Board.castlingFile false false ∧
      (Board.castlingFile.castled false false).isChecked false = false) ∧
    (⟨.bRook, (7, 3)⟩ : Piece) ∈ (Board.castlingFile.castled false false).piecesOf true ∧
    Move.ofBoard (Board.castlingFile.castled false false) .normalMove (7, 3) (7, 5) ∈
      Piece.getMoves Flags.default ⟨.bRook, (7, 3)⟩ (Board.castlingFile.castled false false) ∧
    ((OneRound.create (Board.castlingFile.castled false false) true 0 none).canMove
        ⟨.bRook, (7, 3)⟩
        (Move.ofBoard (Board.castlingFile.castled false false) .normalMove (7, 3) (7, 5))
        (OneRound.create (Board.castlingFile.castled false false) true 0 none).isChecked
        (Board.castlingFile.castled false false)).1 = false ∧
    ((Board.castlingFile.castled false false).makeMove
      (Move.ofBoard (Board.castlingFile.castled false false) .normalMove (7, 3) (7, 5))).isChecked
        true = false :=
  ⟨⟨Board.castlingFile_fileLoaded.kings.1, Board.castlingFile_open, by decide +kernel⟩,
    by decide +kernel, by decide +kernel, by decide +kernel, by decide +kernel⟩

end Chess
