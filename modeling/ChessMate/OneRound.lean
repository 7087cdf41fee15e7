import ChessMate.PieceMoves
import Mathlib.Data.List.Perm.Basic

/-! # One round of the search

`OneRound` holds the position before the first side's move, the board after it,
and the boards after the replies.  Two things make it delicate.  The piece lists
are filled once, from `curBoard_`, and are then used on boards that are one move
further; a list entry is skipped when the board no longer holds its type on its
square.  And the legality test `canMove` works on a scratch board, on which it
makes the move and takes it back: here it returns the scratch board it leaves.

The order in which the first side's moves are tried comes from `std::sort` on
floating-point estimates.  It is a parameter, `MoveOrder`: any rearrangement of
the moves, as a function of the round.
-/
namespace Chess

/-- `canAttackLine` of `one_round.cc`. -/
def canAttackLine (type : PieceType) (step : DeltaMove) : Bool :=
  let area := step.1 * step.2
  match type with
  | .bQueen | .wQueen => true
  | .bRook | .wRook => area = 0
  | .bBishop | .wBishop => area = 1 || area = -1
  | _ => false

/-- The fields of `parent_` that a round reads. -/
structure ParentRound where
  curBoard : Board
  maxStepState : Board

/-- `OneRound`. -/
structure OneRound where
  curBoard : Board
  blackFirst : Bool
  level : Nat
  maxStepPieces : List Piece
  minStepPieces : List Piece
  maxMovePiece : Option Piece
  isMaxChecked : Bool
  isMinChecked : Bool
  numMaxMoves : Nat
  maxStepState : Option Board
  minStepStates : List Board
  /-- `minStepSolutionTrees_`: indices of the solution forest. -/
  minStepSolutionTrees : List Nat
  parent : Option ParentRound

/-- The order in which the first side's moves are tried. -/
structure MoveOrder where
  sort : OneRound → List Move → List Move
  perm : ∀ round moves, (sort round moves).Perm moves

/-- The moves are tried as they are generated. -/
def MoveOrder.asGenerated : MoveOrder := ⟨fun _ moves => moves, fun _ moves => List.Perm.refl moves⟩

namespace OneRound

/-- The constructor and `init`.  The fields that `init` does not set are assigned
by `expand` before they are read. -/
def create (curBoard : Board) (blackFirst : Bool) (level : Nat) (parent : Option ParentRound) :
    OneRound :=
  let moveFirst := PieceType.kingOf blackFirst
  { curBoard, blackFirst, level, parent
    maxStepPieces := curBoard.pieces.filter fun p => moveFirst.isSameColor p.type
    minStepPieces := curBoard.pieces.filter fun p => !moveFirst.isSameColor p.type
    maxMovePiece := none
    isMaxChecked := false
    isMinChecked := false
    numMaxMoves := 0
    maxStepState := none
    minStepStates := []
    minStepSolutionTrees := [] }

/-! ## The check tests -/

/-- `checkChecked`.  Entries of the stale piece list that the board contradicts
are skipped. -/
def checkChecked (self : OneRound) (board : Board) (maxSide : Bool) : Bool :=
  let king := board.kingPosition (maxSide == self.blackFirst)
  let pieces := if maxSide then self.minStepPieces else self.maxStepPieces
  pieces.any fun p =>
    if p.type ≠ board.getPieceTypeAtPosition p.position then false
    else p.canAttack board king

/-- `isChecking`, with `*maxStepState_` given. -/
def isChecking (self : OneRound) (maxStepState : Board) : Bool :=
  let king := self.curBoard.kingPosition (!self.blackFirst)
  (match self.maxMovePiece with
    | some piece => piece.canAttack maxStepState king
    | none => false) ||
  self.checkChecked maxStepState false

/-- `isChecked`. -/
def isChecked (self : OneRound) : Bool := self.checkChecked self.curBoard true

/-! ## The legality test -/

/-- The sign of an offset, as `canMove` normalises a step. -/
def unitStep (d : Int) : Int := if d ≠ 0 then (if d > 0 then 1 else -1) else d

/-- The body of `canMove` on the scratch board with the move made. -/
def canMoveApplied (self : OneRound) (piece : Piece) (move : Move) (isChecked : Bool)
    (auxBoard : Board) : Bool :=
  let type := piece.type
  let kingPos := auxBoard.kingPosition type.isBlack
  let lastToPos := auxBoard.lastMove.toPos
  if isValidPosition lastToPos && lastToPos ≠ move.toPos &&
      ((auxBoard.safePiece lastToPos).any fun p => p.canAttack auxBoard kingPos) then false
  else if auxBoard.lastMove.special = .kingCastling &&
      auxBoard.lastMove.getCastlingRookPos.2 ≠ move.toPos &&
      ((auxBoard.safePiece auxBoard.lastMove.getCastlingRookPos.2).any fun oppRook =>
        oppRook.canAttack auxBoard move.toPos) then false
  else if isChecked || type.isKing then
    !self.checkChecked auxBoard (type.isBlack == self.blackFirst)
  else
    let dr := piece.row - kingPos.1
    let dc := piece.col - kingPos.2
    if dr ≠ dc && dr + dc ≠ 0 && dr * dc ≠ 0 then true
    else
      let step : DeltaMove := (unitStep dr, unitStep dc)
      (LineWalk.walk (fun pos : Position =>
        if !isValidPosition pos then some true
        else if pos = move.toPos then some true
        else if auxBoard.isEmpty pos || pos = piece.position then none
        else
          let firstPieceType := auxBoard.getPieceTypeAtPosition pos
          if type.isSameColor firstPieceType then some true
          else some (!canAttackLine firstPieceType step)) step 8 kingPos).getD true

/-- `canMove`, with the scratch board it leaves: `TryMove` makes the move and
takes it back. -/
def canMove (self : OneRound) (piece : Piece) (move : Move) (isChecked : Bool)
    (auxBoard : Board) : Bool × Board :=
  if isChecked && move.special = .kingCastling then (false, auxBoard)
  else
    let applied := move.apply auxBoard
    (self.canMoveApplied piece move isChecked applied, move.undo applied)

/-- `calcMoveHeuristics`, with the scratch board it leaves.  The floating-point
estimate is a parameter: it only reads the board on which the move is made. -/
def calcMoveHeuristics {ε : Type} (estimate : OneRound → Piece → Move → Board → ε)
    (self : OneRound) (auxBoard : Board) (piece : Piece) (move : Move) : ε × Board :=
  let applied := move.apply auxBoard
  (estimate self piece move applied, move.undo applied)

/-- `isCircularMove`: the move takes back the first side's previous move. -/
def isCircularMove (self : OneRound) (move : Move) : Bool :=
  match self.parent with
  | none => false
  | some parent =>
      parent.maxStepState.lastMove.fromPos = move.toPos &&
      parent.maxStepState.lastMove.toPos = move.fromPos &&
      move.toType = .empty &&
      parent.curBoard.isEmpty parent.maxStepState.lastMove.toPos &&
      self.curBoard.lastMove.fromType ≠ .bPawn &&
      self.curBoard.lastMove.fromType ≠ .wPawn

/-! ## Generating the first side's moves -/

/-- The loop of `generateAndSortMaxMoves`, with its scratch board.  An accepted
move is made and taken back once more by `calcMoveHeuristics`. -/
def generateMaxMoves (self : OneRound) : List (Piece × Move) → Board → List Move
  | [], _ => []
  | (p, m) :: rest, auxBoard =>
      let (ok, auxBoard) := self.canMove p m self.isMaxChecked auxBoard
      if ok then m :: self.generateMaxMoves rest (m.undo (m.apply auxBoard))
      else self.generateMaxMoves rest auxBoard

/-- The moves a list of pieces can possibly take, each with its piece. -/
def candidates (flags : Flags) (pieces : List Piece) (board : Board) : List (Piece × Move) :=
  pieces.flatMap fun p => (p.getMoves flags board).map fun m => (p, m)

/-- `generateAndSortMaxMoves`. -/
def generateAndSortMaxMoves (flags : Flags) (order : MoveOrder) (self : OneRound) : List Move :=
  order.sort self
    (self.generateMaxMoves (candidates flags self.maxStepPieces self.curBoard) self.curBoard)

/-- The pieces of the second side that the first side's move did not capture. -/
def uncapturedMinPieces (self : OneRound) (maxStepState : Board) : List Piece :=
  self.minStepPieces.filter fun p => maxStepState.getPieceTypeAtPosition p.position = p.type

/-- `cleanUpForMinStep`. -/
def cleanUpForMinStep (self : OneRound) : OneRound :=
  { self with minStepStates := [], minStepSolutionTrees := [] }

/-- `cleanUp`. -/
def cleanUp (self : OneRound) : OneRound :=
  { self with maxStepPieces := [], minStepPieces := [] }

end OneRound
end Chess
