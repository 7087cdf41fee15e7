import ChessMate.SolutionCache

/-! # Printing solutions

`printPath` of a round and `printSolution`, which it calls for every stored
solution.  The recursion of `printSolution` follows the indices of the forest and
has no bound of its own: here it is given fuel, and `none` is a recursion that
has not come to its end, or a node that is not there.
-/
namespace Chess

/-- `kPieceChar`, indexed by the value of the type. -/
def kPieceChar : String := "xprnkqbxxPRNKQB"

/-- `Piece::printPiece`. -/
def Piece.printPiece (type : PieceType) (pos : Position) : String :=
  String.ofList [kPieceChar.toList.getD type.value '-', Char.ofNat ('a'.toNat + pos.2.toNat),
    Char.ofNat ('1'.toNat + pos.1.toNat)]

/-- The mark that `Move::notation` puts before the piece. -/
def Move.mark (m : Move) : String :=
  match m.special with
  | .pawnEnPassant => "^"
  | .kingCastling => "0"
  | .queenPromotion => "x"
  | .knightPromotion => "x"
  | .normalMove => " "

/-- `Move::notation`. -/
def Move.notationOf (m : Move) : String := m.mark ++ Piece.printPiece m.newType m.toPos

/-- One step of indentation. -/
def indent : String := "      "

/-- `printSolution`. -/
def printSolution (solutions : StaticForest Move) : ℕ → ℕ → String → Option String
  | 0, _, _ => none
  | fuel + 1, root, lead =>
      match solutions.node? root with
      | none => none
      | some node => do
          let subtrees ← node.children.mapM fun c => printSolution solutions fuel c (lead ++ indent)
          let leaf := if node.children = [] then "#\n" else ""
          some (node.data.notationOf ++ "  " ++ leaf ++ (lead ++ indent).intercalate subtrees)

/-- The reply with index `i` in the output of `printPath`. -/
def OneRound.printReply (self : OneRound) (solutions : StaticForest Move) (fuel : ℕ) (lead : String)
    (i : ℕ) (reply : Board) : Option String := do
  let subtree ← match self.minStepSolutionTrees[i]? with
    | none => some ""
    | some t => printSolution solutions fuel t (lead ++ indent)
  some ((if i > 0 then lead else "") ++ reply.lastMove.notationOf ++ "  " ++ subtree)

/-- `printPath`, for a round that has made a first-side move. -/
def OneRound.printPath (self : OneRound) (solutions : StaticForest Move) (fuel : ℕ) :
    Option String := do
  let maxStepState ← self.maxStepState
  let lead := String.join (List.replicate (2 * self.level + 1) indent)
  let replies ← (self.minStepStates.zipIdx).mapM fun x =>
    self.printReply solutions fuel lead x.2 x.1
  some (maxStepState.lastMove.notationOf ++ "  " ++ String.join replies)

end Chess
