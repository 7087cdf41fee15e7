import ChessMate.BoardModel
import ChessMate.LineWalk

/-! # What a piece attacks and where it moves

`canAttack` and `getMoves` of the seven piece classes, and `Board::isChecked`.
The two line loops of `piece.cc`, `checkCanAttackLine` and `addMovesFromLine`,
are `LineWalk.walk` and `LineWalk.collect`; from a square of the board at most
eight steps are made before the line has left the board, so their fuel never
runs out.  The pawns keep their two separate classes, with the constants and the
order of the moves that each has in the source.
-/
namespace Chess

/-- The command line flags the solver reads. -/
structure Flags where
  /-- `FLAGS_allow_castling`. -/
  allowCastling : Bool
  /-- `FLAGS_min_store_level`, a 32-bit integer. -/
  minStoreLevel : Int
  minStoreLevel_le : minStoreLevel ≤ 2147483647

/-- The default flags. -/
def Flags.default : Flags := ⟨false, 2, by decide⟩

/-- `Piece`: a type and a square. -/
structure Piece where
  type : PieceType
  position : Position
  deriving DecidableEq, Repr

namespace Piece

abbrev row (self : Piece) : Int := self.position.1

abbrev col (self : Piece) : Int := self.position.2

def canPlace (self : Piece) (board : Board) (pos : Position) : Bool :=
  if !isValidPosition pos then false
  else !self.type.isSameColor (board.getPieceTypeAtPosition pos)

/-- `checkCanAttackLine`: is `tgt` the first thing met from `src` along `step`. -/
def checkCanAttackLine (board : Board) (src tgt : Position) (step : DeltaMove) : Bool :=
  (LineWalk.walk (fun pos : Position =>
    if !isValidPosition pos then some false
    else if tgt = pos then some true
    else if !board.isEmpty pos then some false
    else none) step 8 src).getD false

/-- `addMovesFromLine`. -/
def addMovesFromLine (self : Piece) (board : Board) (step : DeltaMove) : List Move :=
  LineWalk.collect isValidPosition (fun newPos => !board.isEmpty newPos)
    (fun newPos =>
      if !self.type.isSameColor (board.getPieceTypeAtPosition newPos) then
        [Move.ofBoard board .normalMove self.position newPos]
      else [])
    step 8 self.position

/-- The moves of a piece that steps by fixed offsets, in the order of the table. -/
def addMovesFromOffsets (self : Piece) (board : Board) (offsets : List DeltaMove) : List Move :=
  offsets.flatMap fun delta =>
    if self.canPlace board (self.position + delta) then
      [Move.ofBoard board .normalMove self.position (self.position + delta)]
    else []

end Piece

/-! ## The piece classes -/

namespace Rook

/-- The steps of `Rook::getMoves`. -/
def steps : List DeltaMove := [(0, 1), (0, -1), (1, 0), (-1, 0)]

def getMoves (self : Piece) (board : Board) : List Move :=
  steps.flatMap (self.addMovesFromLine board)

def canAttack (self : Piece) (board : Board) (target : Position) : Bool :=
  let dr := target.1 - self.row
  let dc := target.2 - self.col
  if dr = 0 then
    Piece.checkCanAttackLine board self.position target (0, if dc > 0 then 1 else -1)
  else if dc = 0 then
    Piece.checkCanAttackLine board self.position target (if dr > 0 then 1 else -1, 0)
  else false

end Rook

namespace Bishop

/-- The steps of `Bishop::getMoves`. -/
def steps : List DeltaMove := [(-1, -1), (-1, 1), (1, -1), (1, 1)]

def getMoves (self : Piece) (board : Board) : List Move :=
  steps.flatMap (self.addMovesFromLine board)

def canAttack (self : Piece) (board : Board) (target : Position) : Bool :=
  let dr := target.1 - self.row
  let dc := target.2 - self.col
  if dr = dc then
    let step := if dr > 0 then 1 else -1
    Piece.checkCanAttackLine board self.position target (step, step)
  else if dr + dc = 0 then
    if dr > 0 then Piece.checkCanAttackLine board self.position target (1, -1)
    else Piece.checkCanAttackLine board self.position target (-1, 1)
  else false

end Bishop

namespace Queen

/-- The steps of `Queen::getMoves`. -/
def steps : List DeltaMove :=
  [(0, 1), (0, -1), (1, 0), (-1, 0), (-1, -1), (-1, 1), (1, -1), (1, 1)]

def getMoves (self : Piece) (board : Board) : List Move :=
  steps.flatMap (self.addMovesFromLine board)

def canAttack (self : Piece) (board : Board) (target : Position) : Bool :=
  let dr := target.1 - self.row
  let dc := target.2 - self.col
  if dr = 0 then
    Piece.checkCanAttackLine board self.position target (0, if dc > 0 then 1 else -1)
  else if dc = 0 then
    Piece.checkCanAttackLine board self.position target (if dr > 0 then 1 else -1, 0)
  else if dr = dc then
    let step := if dr > 0 then 1 else -1
    Piece.checkCanAttackLine board self.position target (step, step)
  else if dr + dc = 0 then
    if dr > 0 then Piece.checkCanAttackLine board self.position target (1, -1)
    else Piece.checkCanAttackLine board self.position target (-1, 1)
  else false

end Queen

namespace Knight

/-- `kMoves`. -/
def kMoves : List DeltaMove :=
  [(-1, -2), (-1, 2), (1, -2), (1, 2), (-2, -1), (-2, 1), (2, -1), (2, 1)]

def getMoves (self : Piece) (board : Board) : List Move := self.addMovesFromOffsets board kMoves

def canAttack (self : Piece) (target : Position) : Bool :=
  let dr := target.1 - self.row
  let dc := target.2 - self.col
  let area := dr * dc
  area = 2 || area = -2

end Knight

namespace King

/-- `kDelta`. -/
def kDelta : List DeltaMove :=
  [(-1, -1), (-1, 0), (-1, 1), (0, -1), (0, 1), (1, -1), (1, 0), (1, 1)]

def origPos (self : Piece) : Position := if self.type = .bKing then (7, 4) else (0, 4)

/-- `canCastle`.  Both loops over the squares towards the rook start at offset 0,
the king's own square. -/
def canCastle (self : Piece) (board : Board) (smaller : Bool) : Bool :=
  if self.position ≠ origPos self then false
  else
    let rookDelta : Int := if smaller then -4 else 3
    let rType := board.getPieceTypeAtPosition (self.row, self.col + rookDelta)
    if rType ≠ .bRook && rType ≠ .bRook && rType.isSameColor self.type then false
    else if smaller then
      (List.range 4).all fun i => board.isEmpty (self.row, self.col - (i : Int))
    else
      (List.range 3).all fun i => board.isEmpty (self.row, self.col + (i : Int))

def getMoves (flags : Flags) (self : Piece) (board : Board) : List Move :=
  self.addMovesFromOffsets board kDelta ++
    if flags.allowCastling then
      (if canCastle self board true then
        [Move.ofBoard board .kingCastling self.position (self.row, self.col - 2)] else []) ++
      (if canCastle self board false then
        [Move.ofBoard board .kingCastling self.position (self.row, self.col + 2)] else [])
    else []

def canAttack (self : Piece) (pos : Position) : Bool :=
  if pos = self.position then false
  else
    let dr := pos.1 - self.row
    let dc := pos.2 - self.col
    (dr ≤ 1 && dr ≥ -1) && (dc ≤ 1 && dc ≥ -1)

end King

namespace BPawn

def addMove (self : Piece) (board : Board) (newPos : Position) : List Move :=
  if newPos.1 ≠ 0 then [Move.ofBoard board .normalMove self.position newPos]
  else
    [Move.ofBoard board .queenPromotion self.position newPos,
      Move.ofBoard board .knightPromotion self.position newPos]

def getMoves (self : Piece) (board : Board) : List Move :=
  let newPos : Position := (self.row - 1, self.col)
  let newPos2 : Position := (self.row - 2, self.col)
  let attackLeft : Position := (self.row - 1, self.col + 1)
  let attackRight : Position := (self.row - 1, self.col - 1)
  (if self.canPlace board newPos && board.isEmpty newPos then
    addMove self board newPos else []) ++
  (if self.row = 6 && board.isEmpty newPos then
    if board.isEmpty newPos2 && self.canPlace board newPos2 then
      [Move.ofBoard board .normalMove self.position newPos2] else []
  else []) ++
  (if !board.isEmpty attackLeft && self.canPlace board attackLeft then
    addMove self board attackLeft else []) ++
  (if !board.isEmpty attackRight && self.canPlace board attackRight then
    addMove self board attackRight else []) ++
  (if self.row = 3 && board.lastMove.fromType = .wPawn && board.lastMove.fromPos.1 = 1 &&
      board.lastMove.toPos.1 = 3 && |board.lastMove.fromPos.2 - self.col| = 1 then
    [Move.ofBoard board .pawnEnPassant self.position
      (self.row - 1, board.lastMove.fromPos.2)] else [])

def canAttack (self : Piece) (pos : Position) : Bool :=
  let dc := self.col - pos.2
  pos.1 = self.row - 1 && (dc = 1 || dc = -1)

end BPawn

namespace WPawn

def addMove (self : Piece) (board : Board) (newPos : Position) : List Move :=
  if newPos.1 ≠ 7 then [Move.ofBoard board .normalMove self.position newPos]
  else
    [Move.ofBoard board .queenPromotion self.position newPos,
      Move.ofBoard board .knightPromotion self.position newPos]

def getMoves (self : Piece) (board : Board) : List Move :=
  let newPos : Position := (self.row + 1, self.col)
  let newPos2 : Position := (self.row + 2, self.col)
  let captureLeft : Position := (self.row + 1, self.col - 1)
  let captureRight : Position := (self.row + 1, self.col + 1)
  (if self.canPlace board newPos && board.isEmpty newPos then
    addMove self board newPos else []) ++
  (if self.row = 1 && board.isEmpty newPos then
    if board.isEmpty newPos2 && self.canPlace board newPos2 then
      [Move.ofBoard board .normalMove self.position newPos2] else []
  else []) ++
  (if !board.isEmpty captureLeft && self.canPlace board captureLeft then
    addMove self board captureLeft else []) ++
  (if !board.isEmpty captureRight && self.canPlace board captureRight then
    addMove self board captureRight else []) ++
  (if self.row = 4 && board.lastMove.fromType = .bPawn && board.lastMove.fromPos.1 = 6 &&
      board.lastMove.toPos.1 = 4 && |board.lastMove.fromPos.2 - self.col| = 1 then
    [Move.ofBoard board .pawnEnPassant self.position
      (self.row + 1, board.lastMove.fromPos.2)] else [])

def canAttack (self : Piece) (pos : Position) : Bool :=
  let dc := self.col - pos.2
  pos.1 = self.row + 1 && (dc = 1 || dc = -1)

end WPawn

/-! ## Dispatch, and the check test -/

/-- The virtual `Piece::canAttack`. -/
def Piece.canAttack (self : Piece) (board : Board) (pos : Position) : Bool :=
  match self.type with
  | .bPawn => BPawn.canAttack self pos
  | .wPawn => WPawn.canAttack self pos
  | .bKing | .wKing => King.canAttack self pos
  | .bQueen | .wQueen => Queen.canAttack self board pos
  | .bRook | .wRook => Rook.canAttack self board pos
  | .bBishop | .wBishop => Bishop.canAttack self board pos
  | .bKnight | .wKnight => Knight.canAttack self pos
  | .empty => false

/-- The virtual `Piece::getMoves`. -/
def Piece.getMoves (flags : Flags) (self : Piece) (board : Board) : List Move :=
  match self.type with
  | .bPawn => BPawn.getMoves self board
  | .wPawn => WPawn.getMoves self board
  | .bKing | .wKing => King.getMoves flags self board
  | .bQueen | .wQueen => Queen.getMoves self board
  | .bRook | .wRook => Rook.getMoves self board
  | .bBishop | .wBishop => Bishop.getMoves self board
  | .bKnight | .wKnight => Knight.getMoves self board
  | .empty => []

/-- `safePiece`: the piece on a square, null on an empty one. -/
def Board.safePiece (board : Board) (pos : Position) : Option Piece :=
  if board.isEmpty pos then none else some ⟨board.getPieceTypeAtPosition pos, pos⟩

/-- `Board::isChecked`: does a piece of the other colour attack this king's square. -/
def Board.isChecked (board : Board) (black : Bool) : Bool :=
  let kingType := PieceType.kingOf black
  let kingPos := board.kingPosition black
  squares.any fun pos =>
    if board.isEmpty pos then false
    else
      let otherType := board.getPieceTypeAtPosition pos
      if kingType.isSameColor otherType then false
      else Piece.canAttack ⟨otherType, pos⟩ board kingPos

/-- The pieces on the board, in the order of the loops over rows and columns. -/
def Board.pieces (board : Board) : List Piece := squares.filterMap board.safePiece

/-- The pieces of one colour, in the same order. -/
def Board.piecesOf (board : Board) (black : Bool) : List Piece :=
  board.pieces.filter fun p => (PieceType.kingOf black).isSameColor p.type

theorem Board.safePiece_eq_some {board : Board} {pos : Position} {p : Piece} :
    board.safePiece pos = some p ↔
      p = ⟨board.getPieceTypeAtPosition pos, pos⟩ ∧ board.getPieceTypeAtPosition pos ≠ .empty := by
  unfold safePiece
  by_cases h : board.isEmpty pos = true
  · rw [if_pos h]
    rw [isEmpty_iff] at h
    simp [h]
  · rw [if_neg h]
    rw [isEmpty_iff] at h
    simp [h, eq_comm]

theorem Board.mem_pieces {board : Board} {p : Piece} :
    p ∈ board.pieces ↔ board.getPieceTypeAtPosition p.position = p.type ∧ p.type ≠ .empty := by
  simp only [pieces, List.mem_filterMap, mem_squares, safePiece_eq_some]
  constructor
  · rintro ⟨pos, -, rfl, hne⟩
    exact ⟨rfl, hne⟩
  · rintro ⟨h1, h2⟩
    refine ⟨p.position, Board.valid_of_ne_empty (h1 ▸ h2), ?_, h1 ▸ h2⟩
    rw [h1]

theorem Board.mem_piecesOf {board : Board} {black : Bool} {p : Piece} :
    p ∈ board.piecesOf black ↔
      board.getPieceTypeAtPosition p.position = p.type ∧ p.type.HasColor black := by
  rw [piecesOf, List.mem_filter, mem_pieces, (PieceType.kingOf_hasColor black).isSameColor_iff]
  constructor
  · rintro ⟨⟨h1, -⟩, h2⟩; exact ⟨h1, h2⟩
  · rintro ⟨h1, h2⟩; exact ⟨⟨h1, h2.1⟩, h2⟩

/-- **What the check test computes**: some piece of the other colour attacks the
king's recorded square. -/
theorem Board.isChecked_iff {board : Board} {black : Bool} :
    board.isChecked black = true ↔
      ∃ pos, (board.getPieceTypeAtPosition pos).HasColor (!black) ∧
        Piece.canAttack ⟨board.getPieceTypeAtPosition pos, pos⟩ board
          (board.kingPosition black) = true := by
  simp only [isChecked, List.any_eq_true, mem_squares]
  constructor
  · rintro ⟨pos, -, h⟩
    split at h
    · cases h
    case isFalse hne =>
      rw [isEmpty_iff] at hne
      split at h
      · cases h
      case isFalse hc =>
        rw [(PieceType.kingOf_hasColor black).isSameColor_iff] at hc
        rcases PieceType.hasColor_or (board.getPieceTypeAtPosition pos) black with he | he | he
        · exact absurd he hne
        · exact absurd he hc
        · exact ⟨pos, he, h⟩
  · rintro ⟨pos, hc, h⟩
    refine ⟨pos, Board.valid_of_ne_empty hc.1, ?_⟩
    rw [if_neg (by rw [isEmpty_iff]; exact hc.1),
      if_neg (by rw [(PieceType.kingOf_hasColor black).isSameColor_iff]
                 intro h'; exact h'.not_other hc)]
    exact h

/-- A legal move of one colour: generated for one of its pieces, and its own king
is not attacked afterwards. -/
def Board.IsLegal (flags : Flags) (board : Board) (black : Bool) (move : Move) : Prop :=
  ∃ p ∈ board.piecesOf black, move ∈ p.getMoves flags board ∧
    (board.makeMove move).isChecked black = false

/-- The legal moves of one colour, in the order in which they are generated. -/
def Board.legalMoves (flags : Flags) (board : Board) (black : Bool) : List Move :=
  (board.piecesOf black).flatMap fun p =>
    (p.getMoves flags board).filter fun m => !(board.makeMove m).isChecked black

theorem Board.mem_legalMoves {flags : Flags} {board : Board} {black : Bool} {move : Move} :
    move ∈ board.legalMoves flags black ↔ board.IsLegal flags black move := by
  simp [legalMoves, IsLegal]

section Decide
variable {flags : Flags} {board : Board} {black : Bool} {P : Move → Prop} [DecidablePred P]

instance : Decidable (∀ move, board.IsLegal flags black move → P move) :=
  decidable_of_iff (∀ move ∈ board.legalMoves flags black, P move)
    (by simp only [Board.mem_legalMoves])

instance : Decidable (∃ move, board.IsLegal flags black move ∧ P move) :=
  decidable_of_iff (∃ move ∈ board.legalMoves flags black, P move)
    (by simp only [Board.mem_legalMoves])

end Decide

end Chess
