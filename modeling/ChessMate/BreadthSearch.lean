import ChessMate.SolutionCache

/-! # The breadth-first solver

`Board::evaluate` and what it calls: the position-based `makeMove`, which
derives the kind of the move from the board again, `Piece::getNextStates`,
`Board::expand`, and the forward, backward and re-traversal passes.

A node's parent pointer is the index of the parent in the layer before.  Scores
live in the boards: `expand` sets the score of the board it expands before the
children are cloned from it, so a board that is never expanded keeps the score
its parent had at that moment.  All scores are between -100 and 101, so the
`int8_t` they are stored in does not overflow.
-/
namespace Chess

namespace Board

/-- `isEnpassantMove`, with its condition as it is written. -/
def isEnpassantMove (board : Board) (fromPos toPos : Position) : Bool :=
  let fromType := board.getPieceTypeAtPosition fromPos
  if fromType ≠ .bPawn || fromType = .wPawn then false
  else if toPos.2 = fromPos.2 then false
  else board.isEmpty toPos

/-- `isCastlingMove`, with its condition as it is written. -/
def isCastlingMove (board : Board) (fromPos toPos : Position) : Bool :=
  let fromType := board.getPieceTypeAtPosition fromPos
  if fromType ≠ .wKing || fromType ≠ .bKing then false
  else decide (|toPos.2 - fromPos.2| > 1)

/-- `makeMove(pos, newPos, pawnPromotion)`: the new board and `*pawnPromotion`. -/
def makeMoveTo (board : Board) (pos newPos : Position) : Board × Bool :=
  let type := board.getPieceTypeAtPosition pos
  if (type = .bPawn && newPos.1 = 0) || (type = .wPawn && newPos.1 = BOARD_SIZE - 1) then
    (board.makeMove (Move.ofBoard board .queenPromotion pos newPos), true)
  else if board.isEnpassantMove pos newPos then
    (board.makeMove (Move.ofBoard board .pawnEnPassant pos newPos), false)
  else if board.isCastlingMove pos newPos then
    (board.makeMove (Move.ofBoard board .kingCastling pos newPos), false)
  else (board.makeMove (Move.ofBoard board .normalMove pos newPos), false)

end Board

/-- The boards that `getNextStates` adds for one move. -/
def Piece.nextStatesOf (self : Piece) (board : Board) (m : Move) : List Board :=
  let (next, promotion) := board.makeMoveTo self.position m.toPos
  if next.isChecked self.type.isBlack then []
  else if promotion then
    [next.set (if self.type.isBlack then .bQueen else .wQueen) m.toPos,
      next.set (if self.type.isBlack then .bKnight else .wKnight) m.toPos]
  else [next]

/-- `Piece::getNextStates`. -/
def Piece.getNextStates (flags : Flags) (self : Piece) (board : Board) : List Board :=
  (self.getMoves flags board).flatMap (self.nextStatesOf board)

/-- `Piece::hasNextStates`: the same test, and no board is kept. -/
def Piece.hasNextStates (flags : Flags) (self : Piece) (board : Board) : Bool :=
  (self.getMoves flags board).any fun m =>
    !(board.makeMoveTo self.position m.toPos).1.isChecked self.type.isBlack

/-- `Board::Node`. -/
structure BfsNode where
  parent : Option Nat
  nextState : Board

/-- A node of the solution tree, with its index in its breadth-first layer, which
stands for the address of its board. -/
structure TreeNode where
  index : Nat
  parent : Option Nat
  nextState : Board

namespace Board

/-- The score that `expand` gives the board. -/
def expandScore (board : Board) (blackMoveFirst : Bool) (layerNum : Nat) : Int :=
  if board.isChecked (!blackMoveFirst) then CHECKMATE
  else if layerNum % 2 = 0 then 1 + CHECKMATE
  else if board.isChecked blackMoveFirst then -CHECKMATE
  else NONE

/-- `Board::expand`: the board with its score, and the boards of the next layer. -/
def expand (flags : Flags) (board : Board) (blackMoveFirst : Bool) (layerNum : Nat) :
    Board × List Board :=
  let board := { board with score := board.expandScore blackMoveFirst layerNum }
  let blackMoveCurrent := if layerNum % 2 = 1 then blackMoveFirst else !blackMoveFirst
  (board, (board.piecesOf blackMoveCurrent).flatMap fun p => p.getNextStates flags board)

end Board

section Passes
variable (flags : Flags) (blackMoveFirst : Bool)

/-- The expansion of one layer. -/
def expandLayer (layerNum : Nat) (layer : List BfsNode) : List BfsNode × List BfsNode :=
  let expanded := layer.map fun node => node.nextState.expand flags blackMoveFirst layerNum
  ((layer.zip expanded).map fun x => { x.1 with nextState := x.2.1 },
    expanded.zipIdx.flatMap fun x => x.1.2.map fun next => ⟨some x.2, next⟩)

/-- The forward pass: all layers from this one on, `depth` of them still to come. -/
def forwardPass : Nat → Nat → List BfsNode → List (List BfsNode)
  | 0, _, layer => [layer]
  | depth + 1, layerNum, layer =>
      let (layer, next) := expandLayer flags blackMoveFirst layerNum layer
      layer :: forwardPass depth (layerNum + 1) next

/-- The score of a node when layer `i` is propagated: on even layers a score
above `CHECKMATE` is turned into `STALLMATE` first. -/
def settleScore (i : Nat) (node : BfsNode) : BfsNode :=
  if i % 2 = 0 ∧ node.nextState.score > CHECKMATE then
    { node with nextState := { node.nextState with score := STALLMATE } }
  else node

/-- One node of layer `i` updates its parent's score. -/
def updateParent (i : Nat) (parents : List BfsNode) (node : BfsNode) : List BfsNode :=
  match node.parent with
  | none => parents
  | some k => parents.modify k fun parent =>
      { parent with nextState := { parent.nextState with
          score := if i % 2 = 1 then max parent.nextState.score node.nextState.score
            else min parent.nextState.score node.nextState.score } }

/-- The backward pass over the layers from layer `i` on. -/
def backwardPass : Nat → List (List BfsNode) → List (List BfsNode)
  | _, [] => []
  | i, layer :: deeper =>
      match backwardPass (i + 1) deeper with
      | [] => [layer]
      | children :: rest =>
          let children := children.map (settleScore (i + 1))
          children.foldl (updateParent (i + 1)) layer :: children :: rest

/-- The nodes of layer `i` that are on a min-max path, given the indices of those
of the layer before. -/
def nodesOnPath (i : Nat) (score : Int) (path : List Nat) (layer : List BfsNode) :
    List TreeNode :=
  (layer.zipIdx.filter fun x =>
    (match x.1.parent with
      | some k => path.contains k
      | none => false) &&
    ((i % 2 = 1 && decide (x.1.nextState.score ≥ score)) ||
      (!(i % 2 = 1) && decide (x.1.nextState.score ≤ score)))).map
    fun x => ⟨x.2, x.1.parent, x.1.nextState⟩

/-- The re-traversal from layer `i` on. -/
def retraverse (score : Int) : Nat → List Nat → List (List BfsNode) → List (List TreeNode)
  | _, _, [] => []
  | i, path, layer :: deeper =>
      let nodes := nodesOnPath i score path layer
      nodes :: retraverse score (i + 1) (nodes.map TreeNode.index) deeper

/-- `Board::evaluate`: the score, and the solution tree, which an early return
leaves as it was. -/
def Board.evaluate (board : Board) (maxDepth : Nat) (solutionTree : List (List TreeNode)) :
    Int × List (List TreeNode) :=
  if board.isChecked (!blackMoveFirst) then (CHECKMATE, solutionTree)
  else
    match backwardPass 0 (forwardPass flags blackMoveFirst maxDepth 1 [⟨none, board⟩]) with
    | [root] :: deeper =>
        let score := root.nextState.score
        (score, [⟨0, root.parent, root.nextState⟩] :: retraverse score 1 [0] deeper)
    | _ => (NONE, solutionTree)

end Passes
end Chess
