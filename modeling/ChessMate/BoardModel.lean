import Mathlib.Algebra.Group.Prod
import Mathlib.Tactic.Ring

/-! # Pieces, moves and the board

The data of `piece.h`, `move.h` and `board.h`.  A square is a `(row, column)`
pair and need not be on the board: the generators compute squares first and test
them afterwards, and a board that was loaded from a file has a last move from
and to `(-1, -1)`.  The 8 by 8 array `positions_` is a function on `Fin 8`; a
read outside of it, which the source makes in a few conjunctions whose other
conjunct is then false, gives `empty`, and no result depends on that value.

The king squares `blackKing_` and `whiteKing_` are kept beside the array, as in
the source, and only `set` updates them.  The `CHECK`s of `Move::apply` are
stated by `Move.applyChecks`; `apply` itself is what the code does when they
pass.
-/
namespace Chess

/-! ## Piece types -/

/-- `Piece::Type`. -/
inductive PieceType
  | empty
  | wPawn
  | wRook
  | wKnight
  | wKing
  | wQueen
  | wBishop
  | bPawn
  | bRook
  | bKnight
  | bKing
  | bQueen
  | bBishop
  deriving DecidableEq, Repr

namespace PieceType

/-- The numeric value of the enumerator: a black type is the white one plus 8. -/
def value : PieceType → Nat
  | empty => 0
  | wPawn => 1
  | wRook => 2
  | wKnight => 3
  | wKing => 4
  | wQueen => 5
  | wBishop => 6
  | bPawn => 1 + 8
  | bRook => 2 + 8
  | bKnight => 3 + 8
  | bKing => 4 + 8
  | bQueen => 5 + 8
  | bBishop => 6 + 8

def isBlack (type : PieceType) : Bool := decide (8 < type.value)

def isSameColor (type1 type2 : PieceType) : Bool :=
  if type1 = empty ∨ type2 = empty then false else type1.isBlack == type2.isBlack

def getSameQueenType (type : PieceType) : PieceType := if type.isBlack then bQueen else wQueen

def getSameKnightType (type : PieceType) : PieceType := if type.isBlack then bKnight else wKnight

/-- `isKing` of `one_round.cc`. -/
def isKing (type : PieceType) : Bool := type = bKing || type = wKing

/-- The king of one colour. -/
def kingOf (black : Bool) : PieceType := if black then bKing else wKing

/-- The type is a piece of the given colour. -/
def HasColor (type : PieceType) (black : Bool) : Prop := type ≠ empty ∧ type.isBlack = black

instance (type : PieceType) (black : Bool) : Decidable (type.HasColor black) :=
  inferInstanceAs (Decidable (_ ∧ _))

theorem isSameColor_iff (type1 type2 : PieceType) :
    isSameColor type1 type2 = true ↔
      type1 ≠ empty ∧ type2 ≠ empty ∧ type1.isBlack = type2.isBlack := by
  unfold isSameColor
  by_cases h1 : type1 = empty <;> by_cases h2 : type2 = empty <;> simp [h1, h2]

theorem HasColor.isSameColor_iff {type1 type2 : PieceType} {c : Bool} (h : type1.HasColor c) :
    isSameColor type1 type2 = true ↔ type2.HasColor c := by
  rw [PieceType.isSameColor_iff]
  constructor
  · rintro ⟨-, h2, h3⟩; exact ⟨h2, h3 ▸ h.2⟩
  · rintro ⟨h2, h3⟩; exact ⟨h.1, h2, h.2.trans h3.symm⟩

theorem not_hasColor_empty (c : Bool) : ¬ empty.HasColor c := fun h => h.1 rfl

/-- Every square is empty or holds a piece of exactly one of two opposite colours. -/
theorem HasColor.not_other {type : PieceType} {c : Bool} (h : type.HasColor c) :
    ¬ type.HasColor (!c) := by
  rintro ⟨-, h'⟩
  rw [h.2] at h'
  cases c <;> cases h'

theorem hasColor_or (type : PieceType) (c : Bool) :
    type = empty ∨ type.HasColor c ∨ type.HasColor (!c) := by
  by_cases h : type = empty
  · exact Or.inl h
  · by_cases h' : type.isBlack = c
    · exact Or.inr (Or.inl ⟨h, h'⟩)
    · refine Or.inr (Or.inr ⟨h, ?_⟩)
      cases c <;> simp_all

@[simp] theorem kingOf_hasColor (c : Bool) : (kingOf c).HasColor c := by
  cases c <;> decide

theorem getSameQueenType_hasColor {type : PieceType} {c : Bool} (h : type.HasColor c) :
    type.getSameQueenType.HasColor c := by
  obtain ⟨-, rfl⟩ := h
  cases type <;> decide

theorem getSameKnightType_hasColor {type : PieceType} {c : Bool} (h : type.HasColor c) :
    type.getSameKnightType.HasColor c := by
  obtain ⟨-, rfl⟩ := h
  cases type <;> decide

end PieceType

/-! ## Squares -/

/-- `Position`: row and column. -/
abbrev Position := Int × Int

/-- `DeltaMove`: the row and column offsets `dr`, `dc` of a step. -/
abbrev DeltaMove := Int × Int

/-- `BOARD_SIZE`. -/
abbrev BOARD_SIZE : Int := 8

/-- `Board::isValidPosition`. -/
def isValidPosition (pos : Position) : Bool :=
  decide (pos.1 ≥ 0) && decide (pos.1 < BOARD_SIZE) &&
    decide (pos.2 ≥ 0) && decide (pos.2 < BOARD_SIZE)

theorem isValidPosition_iff {pos : Position} :
    isValidPosition pos = true ↔ (0 ≤ pos.1 ∧ pos.1 < 8) ∧ 0 ≤ pos.2 ∧ pos.2 < 8 := by
  simp only [isValidPosition, Bool.and_eq_true, decide_eq_true_eq, BOARD_SIZE]
  omega

/-- The squares of the board, in the order of the loops over rows and columns. -/
def squares : List Position :=
  (List.range 8).flatMap fun row : Nat => (List.range 8).map fun col : Nat => (↑row, ↑col)

theorem mem_squares {pos : Position} : pos ∈ squares ↔ isValidPosition pos = true := by
  rw [isValidPosition_iff]
  simp only [squares, List.mem_flatMap, List.mem_map, List.mem_range]
  constructor
  · rintro ⟨r, hr, c, hc, rfl⟩
    simp only
    omega
  · rintro ⟨⟨h1, h2⟩, h3, h4⟩
    refine ⟨pos.1.toNat, by omega, pos.2.toNat, by omega, ?_⟩
    ext
    · show ((pos.1.toNat : Nat) : Int) = pos.1
      omega
    · show ((pos.2.toNat : Nat) : Int) = pos.2
      omega

theorem squares_nodup : squares.Nodup := by decide +kernel

/-! ## Moves -/

/-- `Move::SpecialType`. -/
inductive SpecialType
  | normalMove
  | queenPromotion
  | knightPromotion
  | pawnEnPassant
  | kingCastling
  deriving DecidableEq, Repr

/-- `Move`. -/
structure Move where
  special : SpecialType
  fromPos : Position
  toPos : Position
  fromType : PieceType
  toType : PieceType
  deriving DecidableEq, Repr

/-- `Move()`, the last move of a board on which nothing has moved yet. -/
def Move.none : Move := ⟨.normalMove, (-1, -1), (-1, -1), .empty, .empty⟩

/-- `Move::newType`. -/
def Move.newType (move : Move) : PieceType :=
  match move.special with
  | .queenPromotion => move.fromType.getSameQueenType
  | .knightPromotion => move.fromType.getSameKnightType
  | _ => move.fromType

/-! ## The board -/

/-- `Board`. -/
structure Board where
  blackKing : Position
  whiteKing : Position
  positions : Fin 8 → Fin 8 → PieceType
  score : Int
  lastMove : Move

namespace Board

/-- `getPieceTypeAtPosition`. -/
def getPieceTypeAtPosition (board : Board) (pos : Position) : PieceType :=
  if h : isValidPosition pos = true then
    board.positions ⟨pos.1.toNat, by rw [isValidPosition_iff] at h; omega⟩
      ⟨pos.2.toNat, by rw [isValidPosition_iff] at h; omega⟩
  else .empty

def isEmpty (board : Board) (pos : Position) : Bool :=
  board.getPieceTypeAtPosition pos = .empty

def setInternal (board : Board) (type : PieceType) (pos : Position) : Board :=
  { board with positions := fun row col =>
      if (row.val : Int) = pos.1 ∧ (col.val : Int) = pos.2 then type
      else board.positions row col }

def setKingPositionIfNeeded (board : Board) (type : PieceType) (pos : Position) : Board :=
  match type with
  | .bKing => { board with blackKing := pos }
  | .wKing => { board with whiteKing := pos }
  | _ => board

def set (board : Board) (type : PieceType) (pos : Position) : Board :=
  (board.setInternal type pos).setKingPositionIfNeeded type pos

/-- `blackKingPosition` or `whiteKingPosition`. -/
def kingPosition (board : Board) (black : Bool) : Position :=
  if black then board.blackKing else board.whiteKing

/-! ### Reading after writing -/

theorem getPieceTypeAtPosition_of_not_valid (board : Board) {pos : Position}
    (h : ¬ isValidPosition pos = true) : board.getPieceTypeAtPosition pos = .empty :=
  dif_neg h

theorem valid_of_ne_empty {board : Board} {pos : Position}
    (h : board.getPieceTypeAtPosition pos ≠ .empty) : isValidPosition pos = true := by
  by_contra hv
  exact h (board.getPieceTypeAtPosition_of_not_valid hv)

theorem isEmpty_iff {board : Board} {pos : Position} :
    board.isEmpty pos = true ↔ board.getPieceTypeAtPosition pos = .empty := by
  simp [isEmpty]

@[simp] theorem setKing_getPieceTypeAtPosition (board : Board) (type : PieceType)
    (pos sq : Position) :
    (board.setKingPositionIfNeeded type pos).getPieceTypeAtPosition sq =
      board.getPieceTypeAtPosition sq := by
  cases type <;> rfl

@[simp] theorem setKing_lastMove (board : Board) (type : PieceType) (pos : Position) :
    (board.setKingPositionIfNeeded type pos).lastMove = board.lastMove := by
  cases type <;> rfl

@[simp] theorem setKing_score (board : Board) (type : PieceType) (pos : Position) :
    (board.setKingPositionIfNeeded type pos).score = board.score := by
  cases type <;> rfl

theorem getPieceTypeAtPosition_set (board : Board) (type : PieceType) {pos : Position}
    (hpos : isValidPosition pos = true) (sq : Position) :
    (board.set type pos).getPieceTypeAtPosition sq =
      if sq = pos then type else board.getPieceTypeAtPosition sq := by
  rw [set, setKing_getPieceTypeAtPosition]
  unfold getPieceTypeAtPosition
  by_cases hsq : isValidPosition sq = true
  · rw [dif_pos hsq, dif_pos hsq]
    have hsq' := isValidPosition_iff.mp hsq
    show (if ((sq.1.toNat : Nat) : Int) = pos.1 ∧ ((sq.2.toNat : Nat) : Int) = pos.2 then type
      else _) = _
    have hcond : (((sq.1.toNat : Nat) : Int) = pos.1 ∧ ((sq.2.toNat : Nat) : Int) = pos.2) ↔
        sq = pos := by
      rw [Prod.ext_iff]; omega
    by_cases h : sq = pos
    · rw [if_pos h, if_pos (hcond.mpr h)]
    · rw [if_neg h, if_neg (fun h' => h (hcond.mp h'))]
  · rw [dif_neg hsq, dif_neg hsq, if_neg]
    rintro rfl
    exact hsq hpos

@[simp] theorem set_lastMove (board : Board) (type : PieceType) (pos : Position) :
    (board.set type pos).lastMove = board.lastMove := by
  rw [set, setKing_lastMove]; rfl

@[simp] theorem set_score (board : Board) (type : PieceType) (pos : Position) :
    (board.set type pos).score = board.score := by
  rw [set, setKing_score]; rfl

theorem set_kingPosition (board : Board) (type : PieceType) (pos : Position) (c : Bool) :
    (board.set type pos).kingPosition c =
      if type = PieceType.kingOf c then pos else board.kingPosition c := by
  cases c <;> cases type <;> rfl

/-- The squares determine the placement. -/
theorem positions_ext {b b' : Board}
    (h : ∀ sq, b.getPieceTypeAtPosition sq = b'.getPieceTypeAtPosition sq) :
    b.positions = b'.positions := by
  funext row col
  have h := h ((row.val : Int), (col.val : Int))
  have hv : isValidPosition ((row.val : Int), (col.val : Int)) = true := by
    rw [isValidPosition_iff]; simp only; omega
  unfold getPieceTypeAtPosition at h
  rw [dif_pos hv, dif_pos hv] at h
  simpa using h

/-- Two boards are equal when they agree on every square of the board and on the
other fields. -/
theorem ext_get {b b' : Board}
    (hpos : ∀ sq, b.getPieceTypeAtPosition sq = b'.getPieceTypeAtPosition sq)
    (hking : ∀ c, b.kingPosition c = b'.kingPosition c)
    (hscore : b.score = b'.score) (hlast : b.lastMove = b'.lastMove) : b = b' := by
  have hp := positions_ext hpos
  have hb : b.blackKing = b'.blackKing := hking true
  have hw : b.whiteKing = b'.whiteKing := hking false
  cases b; cases b'
  simp_all

end Board

/-! ## Making and taking back moves -/

namespace Move

/-- `Move(board, special, from, to)`: the piece types are read off the board. -/
def ofBoard (board : Board) (special : SpecialType) (fromPos toPos : Position) : Move :=
  ⟨special, fromPos, toPos, board.getPieceTypeAtPosition fromPos,
    board.getPieceTypeAtPosition toPos⟩

/-- The square of the pawn that an en passant capture removes. -/
def enPassantPos (move : Move) : Position :=
  if move.fromType = .bPawn then (move.toPos.1 + 1, move.toPos.2)
  else (move.toPos.1 - 1, move.toPos.2)

/-- `getCastlingRookPos`: the rook's squares before and after castling. -/
def getCastlingRookPos (move : Move) : Position × Position :=
  if move.toPos.2 = 2 then ((move.fromPos.1, 0), (move.fromPos.1, 3))
  else ((move.fromPos.1, 7), (move.fromPos.1, 5))

def setupEnPassant (move : Move) (board : Board) : Board := board.set .empty move.enPassantPos

def undoEnPassant (move : Move) (board : Board) : Board :=
  if move.fromType = .bPawn then board.set .wPawn (move.toPos.1 + 1, move.toPos.2)
  else board.set .bPawn (move.toPos.1 - 1, move.toPos.2)

def setupCastling (move : Move) (board : Board) : Board :=
  let rPos := move.getCastlingRookPos
  let rType := board.getPieceTypeAtPosition rPos.1
  (board.set .empty rPos.1).set rType rPos.2

def undoCastling (move : Move) (board : Board) : Board :=
  let rPos := move.getCastlingRookPos
  let rType := board.getPieceTypeAtPosition rPos.2
  (board.set .empty rPos.2).set rType rPos.1

/-- `Move::apply`: changes the squares and the king squares only. -/
def apply (move : Move) (board : Board) : Board :=
  let board := board.set .empty move.fromPos
  match move.special with
  | .queenPromotion => board.set move.fromType.getSameQueenType move.toPos
  | .knightPromotion => board.set move.fromType.getSameKnightType move.toPos
  | .pawnEnPassant => (move.setupEnPassant board).set move.fromType move.toPos
  | .kingCastling => (move.setupCastling board).set move.fromType move.toPos
  | .normalMove => board.set move.fromType move.toPos

/-- The `CHECK`s that `Move::apply` makes on the board it is given. -/
def applyChecks (move : Move) (board : Board) : Bool :=
  match move.special with
  | .pawnEnPassant =>
      let captured :=
        (board.set .empty move.fromPos).getPieceTypeAtPosition move.enPassantPos
      if move.fromType = .bPawn then captured = .wPawn
      else move.fromType = .wPawn && captured = .bPawn
  | .normalMove => move.fromType ≠ .empty
  | _ => true

/-- `Move::undo`. -/
def undo (move : Move) (board : Board) : Board :=
  let board := (board.set move.toType move.toPos).set move.fromType move.fromPos
  match move.special with
  | .pawnEnPassant => move.undoEnPassant board
  | .kingCastling => move.undoCastling board
  | _ => board

end Move

/-- `Board::makeMove(const Move&)`. -/
def Board.makeMove (board : Board) (move : Move) : Board :=
  { move.apply board with lastMove := move }

@[simp] theorem Board.makeMove_lastMove (board : Board) (move : Move) :
    (board.makeMove move).lastMove = move := rfl

@[simp] theorem Board.makeMove_getPieceTypeAtPosition (board : Board) (move : Move)
    (sq : Position) : (board.makeMove move).getPieceTypeAtPosition sq =
      (move.apply board).getPieceTypeAtPosition sq := rfl

@[simp] theorem Board.makeMove_kingPosition (board : Board) (move : Move) (c : Bool) :
    (board.makeMove move).kingPosition c = (move.apply board).kingPosition c := rfl

theorem Board.makeMove_score (b : Board) (m : Move) : (b.makeMove m).score = b.score := by
  show (m.apply b).score = b.score
  unfold Move.apply Move.setupEnPassant Move.setupCastling
  cases m.special <;> simp only [set_score]

end Chess
