import ChessMate.ReachableBoards
import ChessMate.ReadTrace

/-! # The squares that move generation asks for

`getPieceTypeAtPosition` indexes `positions_` without a test of its own, so whether
a generator stays on the board is a matter of what it asks for, not of the moves it
returns.  Here the generators are written once more, statement by statement, as
programs that note each square they ask for (`Traced`); their values are the
generators of the model (`traced_getMoves_value`).

`canPlace` tests the square before it asks, and so do the line loops.  The pawns'
captures ask first: `!board.isEmpty(newPos) && canPlace(board, newPos)`.  A pawn on
an edge column, or on the last row, asks for a square that is not there, and no
other piece ever does (`reads_on_board_iff`).
-/
namespace Chess
open ReadTrace

/-! ## The generators with what they ask for -/

namespace Traced

/-- `getPieceTypeAtPosition`. -/
def getPieceTypeAtPosition (board : Board) (pos : Position) : Reading Position PieceType :=
  ask board.getPieceTypeAtPosition pos

/-- `isEmpty`. -/
def isEmpty (board : Board) (pos : Position) : Reading Position Bool := do
  let type ← getPieceTypeAtPosition board pos
  pure (type = .empty)

/-- `!isEmpty`. -/
def isOccupied (board : Board) (pos : Position) : Reading Position Bool := do
  let empty ← isEmpty board pos
  pure (!empty)

/-- `emplace_back(board, special, from, to)`: the constructor of a move asks for both
of its squares. -/
def emplaceBack (board : Board) (special : SpecialType) (fromPos toPos : Position) :
    Reading Position (List Move) := do
  let fromType ← getPieceTypeAtPosition board fromPos
  let toType ← getPieceTypeAtPosition board toPos
  pure [⟨special, fromPos, toPos, fromType, toType⟩]

/-- `canPlace`. -/
def canPlace (self : Piece) (board : Board) (pos : Position) : Reading Position Bool :=
  if !isValidPosition pos then pure false
  else do
    let type ← getPieceTypeAtPosition board pos
    pure (!self.type.isSameColor type)

/-- `addMovesFromLine`. -/
def addMovesFromLine (self : Piece) (board : Board) (step : DeltaMove) :
    ℕ → Position → Reading Position (List Move)
  | 0, _ => pure []
  | fuel + 1, pos =>
      let newPos := pos + step
      if isValidPosition newPos then do
        let moves ← whenever (do
            let type ← getPieceTypeAtPosition board newPos
            pure (!self.type.isSameColor type))
          (emplaceBack board .normalMove self.position newPos)
        -- the loop breaks at an occupied square
        let rest ← whenever (isEmpty board newPos) (addMovesFromLine self board step fuel newPos)
        pure (moves ++ rest)
      else pure []

/-- The generators of the pieces that move along lines. -/
def slide (self : Piece) (board : Board) (steps : List DeltaMove) : Reading Position (List Move) :=
  gather (fun step => addMovesFromLine self board step 8 self.position) steps

/-- The loop of the pieces that step by fixed offsets. -/
def addMovesFromOffsets (self : Piece) (board : Board) (offsets : List DeltaMove) :
    Reading Position (List Move) :=
  gather (fun delta => whenever (canPlace self board (self.position + delta))
    (emplaceBack board .normalMove self.position (self.position + delta))) offsets

/-- `King::canCastle`. -/
def canCastle (self : Piece) (board : Board) (smaller : Bool) : Reading Position Bool :=
  if self.position ≠ King.origPos self then pure false
  else do
    let rookDelta : Int := if smaller then -4 else 3
    let rType ← getPieceTypeAtPosition board (self.row, self.col + rookDelta)
    if rType ≠ .bRook && rType ≠ .bRook && rType.isSameColor self.type then pure false
    else if smaller then
      every (fun i : ℕ => isEmpty board (self.row, self.col - (i : Int))) (List.range 4)
    else every (fun i : ℕ => isEmpty board (self.row, self.col + (i : Int))) (List.range 3)

/-- `King::getMoves`. -/
def kingMoves (flags : Flags) (self : Piece) (board : Board) : Reading Position (List Move) := do
  let moves ← addMovesFromOffsets self board King.kDelta
  let castling ← whenever (pure flags.allowCastling) (do
    let left ← whenever (canCastle self board true)
      (emplaceBack board .kingCastling self.position (self.row, self.col - 2))
    let right ← whenever (canCastle self board false)
      (emplaceBack board .kingCastling self.position (self.row, self.col + 2))
    pure (left ++ right))
  pure (moves ++ castling)

/-- `addMove` of the pawns. -/
def addMove (c : Bool) (self : Piece) (board : Board) (newPos : Position) :
    Reading Position (List Move) :=
  if newPos.1 ≠ lastRow c then emplaceBack board .normalMove self.position newPos
  else do
    let queen ← emplaceBack board .queenPromotion self.position newPos
    let knight ← emplaceBack board .knightPromotion self.position newPos
    pure (queen ++ knight)

/-- `getMoves` of the pawns of one colour, with the column offset of the capture that
is tried first. -/
def pawnMoves (c : Bool) (side : Int) (self : Piece) (board : Board) :
    Reading Position (List Move) := do
  let newPos : Position := (self.row + pawnDir c, self.col)
  let one ← whenever (both (canPlace self board newPos) (isEmpty board newPos))
    (addMove c self board newPos)
  let newPos2 : Position := (self.row + 2 * pawnDir c, self.col)
  let two ← whenever (both (pure (self.row = pawnStart c)) (isEmpty board newPos))
    (whenever (both (isEmpty board newPos2) (canPlace self board newPos2))
      (emplaceBack board .normalMove self.position newPos2))
  let capture1 : Position := (self.row + pawnDir c, self.col + side)
  let first ← whenever (both (isOccupied board capture1) (canPlace self board capture1))
    (addMove c self board capture1)
  let capture2 : Position := (self.row + pawnDir c, self.col - side)
  let second ← whenever (both (isOccupied board capture2) (canPlace self board capture2))
    (addMove c self board capture2)
  let passant ← whenever (pure (self.row = enPassantRow c &&
      board.lastMove.fromType = PieceType.pawnOf (!c) &&
      board.lastMove.fromPos.1 = pawnStart (!c) && board.lastMove.toPos.1 = enPassantRow c &&
      |board.lastMove.fromPos.2 - self.col| = 1))
    (emplaceBack board .pawnEnPassant self.position
      (self.row + pawnDir c, board.lastMove.fromPos.2))
  pure (one ++ two ++ first ++ second ++ passant)

/-- The virtual `Piece::getMoves`. -/
def getMoves (flags : Flags) (self : Piece) (board : Board) : Reading Position (List Move) :=
  match self.type with
  | .bPawn => pawnMoves true 1 self board
  | .wPawn => pawnMoves false (-1) self board
  | .bKing | .wKing => kingMoves flags self board
  | .bQueen | .wQueen => slide self board Queen.steps
  | .bRook | .wRook => slide self board Rook.steps
  | .bBishop | .wBishop => slide self board Bishop.steps
  | .bKnight | .wKnight => addMovesFromOffsets self board Knight.kMoves
  | .empty => pure []

/-! ## Their values -/

section Values
variable (self : Piece) (board : Board)

@[simp] theorem getPieceTypeAtPosition_value (pos : Position) :
    (getPieceTypeAtPosition board pos).value = board.getPieceTypeAtPosition pos := rfl

@[simp] theorem isEmpty_value (pos : Position) : (isEmpty board pos).value = board.isEmpty pos := rfl

@[simp] theorem isOccupied_value (pos : Position) :
    (isOccupied board pos).value = !board.isEmpty pos := rfl

@[simp] theorem emplaceBack_value (special : SpecialType) (fromPos toPos : Position) :
    (emplaceBack board special fromPos toPos).value = [Move.ofBoard board special fromPos toPos] := rfl

@[simp] theorem canPlace_value (pos : Position) :
    (canPlace self board pos).value = self.canPlace board pos := by
  unfold canPlace Piece.canPlace
  split_ifs <;> rfl

theorem addMovesFromLine_value (step : DeltaMove) : ∀ (fuel : ℕ) (pos : Position),
    (addMovesFromLine self board step fuel pos).value =
      LineWalk.collect isValidPosition (fun newPos => !board.isEmpty newPos)
        (fun newPos =>
          if !self.type.isSameColor (board.getPieceTypeAtPosition newPos) then
            [Move.ofBoard board .normalMove self.position newPos]
          else [])
        step fuel pos := by
  intro fuel
  induction fuel with
  | zero => intro pos; rfl
  | succ fuel ih =>
    intro pos
    rw [addMovesFromLine, LineWalk.collect]
    by_cases hv : isValidPosition (pos + step) = true
    · have hstop : (isEmpty board (pos + step)).value = !!board.isEmpty (pos + step) := by
        rw [Bool.not_not, isEmpty_value]
      rw [if_pos hv, if_pos hv, ← ih, ← value_whenever_of_not hstop]
      rfl
    · rw [if_neg hv, if_neg hv]
      rfl

theorem slide_value (steps : List DeltaMove) :
    (slide self board steps).value = steps.flatMap (self.addMovesFromLine board) := by
  rw [slide, value_gather]
  congr 1
  funext step
  exact addMovesFromLine_value self board step 8 self.position

theorem addMovesFromOffsets_value (offsets : List DeltaMove) :
    (addMovesFromOffsets self board offsets).value = self.addMovesFromOffsets board offsets := by
  rw [addMovesFromOffsets, value_gather, Piece.addMovesFromOffsets]
  simp only [value_whenever, canPlace_value, emplaceBack_value]

theorem canCastle_value (smaller : Bool) :
    (canCastle self board smaller).value = King.canCastle self board smaller := by
  unfold canCastle King.canCastle
  by_cases horig : self.position ≠ King.origPos self
  · rw [if_pos horig, if_pos horig]
    rfl
  · rw [if_neg horig, if_neg horig]
    dsimp only
    rw [value_bind, getPieceTypeAtPosition_value]
    cases smaller with
    | true =>
      simp only [if_true]
      split_ifs
      · rfl
      · exact value_every _ _
    | false =>
      simp only [Bool.false_eq_true, if_false]
      split_ifs
      · rfl
      · exact value_every _ _

theorem kingMoves_value (flags : Flags) :
    (kingMoves flags self board).value = King.getMoves flags self board := by
  unfold kingMoves King.getMoves
  simp only [value_bind, value_pure, value_whenever, addMovesFromOffsets_value, canCastle_value,
    emplaceBack_value]

@[simp] theorem addMove_value (c : Bool) (newPos : Position) :
    (addMove c self board newPos).value = pawnAddMove c self board newPos := by
  unfold addMove pawnAddMove
  split_ifs <;> rfl

theorem wPawnMoves_value : (pawnMoves false (-1) self board).value = WPawn.getMoves self board := by
  unfold pawnMoves
  simp only [value_bind, value_pure, value_whenever, value_both, canPlace_value, isEmpty_value,
    isOccupied_value, emplaceBack_value, addMove_value]
  simp only [sub_neg_eq_add]
  rfl

theorem bPawnMoves_value : (pawnMoves true 1 self board).value = BPawn.getMoves self board := by
  unfold pawnMoves
  simp only [value_bind, value_pure, value_whenever, value_both, canPlace_value, isEmpty_value,
    isOccupied_value, emplaceBack_value, addMove_value]
  rfl

end Values
end Traced

/-- **The traced generators return what the generators return.** -/
theorem traced_getMoves_value (flags : Flags) (p : Piece) (b : Board) :
    (Traced.getMoves flags p b).value = p.getMoves flags b := by
  obtain ⟨type, pos⟩ := p
  cases type with
  | empty => rfl
  | bPawn => exact Traced.bPawnMoves_value _ b
  | wPawn => exact Traced.wPawnMoves_value _ b
  | bKing | wKing => exact Traced.kingMoves_value _ b flags
  | bQueen | wQueen => exact Traced.slide_value _ b Queen.steps
  | bRook | wRook => exact Traced.slide_value _ b Rook.steps
  | bBishop | wBishop => exact Traced.slide_value _ b Bishop.steps
  | bKnight | wKnight => exact Traced.addMovesFromOffsets_value _ b Knight.kMoves

/-! ## What they ask for -/

/-- Everything that was asked for is a square of the board. -/
abbrev OnBoard {β : Type} (x : Reading Position β) : Prop :=
  x.Within fun sq => isValidPosition sq = true

namespace Traced

section Reads
variable {self : Piece} {board : Board}

@[simp] theorem onBoard_get {pos : Position} :
    OnBoard (getPieceTypeAtPosition board pos) ↔ isValidPosition pos = true :=
  within_ask _ _

@[simp] theorem onBoard_isEmpty {pos : Position} :
    OnBoard (isEmpty board pos) ↔ isValidPosition pos = true := by
  simp [isEmpty]

@[simp] theorem onBoard_isOccupied {pos : Position} :
    OnBoard (isOccupied board pos) ↔ isValidPosition pos = true := by
  simp [isOccupied]

@[simp] theorem onBoard_emplaceBack {special : SpecialType} {fromPos toPos : Position} :
    OnBoard (emplaceBack board special fromPos toPos) ↔
      isValidPosition fromPos = true ∧ isValidPosition toPos = true := by
  simp [emplaceBack]

/-- `canPlace` asks for squares of the board only. -/
@[simp] theorem onBoard_canPlace (pos : Position) : OnBoard (canPlace self board pos) := by
  unfold canPlace
  by_cases hv : isValidPosition pos = true
  · simp [hv]
  · simp [hv]

theorem valid_of_canPlace {pos : Position} (h : self.canPlace board pos = true) :
    isValidPosition pos = true := by
  unfold Piece.canPlace at h
  by_contra hv
  rw [if_pos (by rw [Bool.not_eq_true] at hv; rw [hv]; rfl)] at h
  cases h

/-- Each turn of a line loop tests its square first. -/
theorem onBoard_addMovesFromLine (hself : isValidPosition self.position = true) (step : DeltaMove) :
    ∀ (fuel : ℕ) (pos : Position), OnBoard (addMovesFromLine self board step fuel pos) := by
  intro fuel
  induction fuel with
  | zero => intro pos; exact within_pure _
  | succ fuel ih =>
    intro pos
    rw [addMovesFromLine]
    by_cases hv : isValidPosition (pos + step) = true
    · rw [if_pos hv]
      simp [hv, hself, ih]
    · rw [if_neg hv]
      exact within_pure _

theorem onBoard_addMovesFromOffsets (hself : isValidPosition self.position = true)
    (offsets : List DeltaMove) : OnBoard (addMovesFromOffsets self board offsets) := by
  rw [addMovesFromOffsets]
  refine (within_gather _ _).mpr fun delta _ => (within_whenever _ _).mpr ⟨onBoard_canPlace _, ?_⟩
  rw [canPlace_value]
  exact fun h => onBoard_emplaceBack.mpr ⟨hself, valid_of_canPlace h⟩

/-- `canCastle` asks for the corner and for the king's own square, which ends its
loop, and only for a king on its original square. -/
theorem onBoard_canCastle (hself : board.isEmpty self.position = false) (smaller : Bool) :
    OnBoard (canCastle self board smaller) := by
  unfold canCastle
  by_cases horig : self.position ≠ King.origPos self
  · rw [if_pos horig]
    exact within_pure _
  rw [if_neg horig]
  have hposition : self.position = (7, 4) ∨ self.position = (0, 4) := by
    rw [not_not.mp horig, King.origPos]
    split_ifs
    · exact Or.inl rfl
    · exact Or.inr rfl
  have hcorner : isValidPosition (self.row, self.col + if smaller then -4 else 3) = true := by
    rcases hposition with h | h <;> rw [Piece.row, Piece.col, h] <;> cases smaller <;> decide
  have hown : isValidPosition self.position = true := by
    rcases hposition with h | h <;> rw [h] <;> decide
  have hminus : (self.row, self.col - ((0 : ℕ) : Int)) = self.position := by simp
  have hplus : (self.row, self.col + ((0 : ℕ) : Int)) = self.position := by simp
  refine (within_bind _ _).mpr ⟨onBoard_get.mpr hcorner, ?_⟩
  split_ifs
  · exact within_pure _
  · exact within_every_of_first _ (onBoard_isEmpty.mpr (hminus ▸ hown)) (hminus ▸ hself)
  · exact within_pure _
  · exact within_every_of_first _ (onBoard_isEmpty.mpr (hplus ▸ hown)) (hplus ▸ hself)

theorem onBoard_addMove {c : Bool} {newPos : Position} (hself : isValidPosition self.position = true)
    (hnew : isValidPosition newPos = true) : OnBoard (addMove c self board newPos) := by
  unfold addMove
  split_ifs
  · exact onBoard_emplaceBack.mpr ⟨hself, hnew⟩
  · simp [hself, hnew]

/-- A step forward, or two, asks for squares of the board only: `canPlace` comes first,
and on the row where two steps are tried both squares are there. -/
theorem onBoard_steps {c : Bool} (hself : isValidPosition self.position = true) :
    OnBoard (whenever (both (canPlace self board (self.row + pawnDir c, self.col))
        (isEmpty board (self.row + pawnDir c, self.col)))
      (addMove c self board (self.row + pawnDir c, self.col))) ∧
    OnBoard (whenever (both (pure (self.row = pawnStart c))
        (isEmpty board (self.row + pawnDir c, self.col)))
      (whenever (both (isEmpty board (self.row + 2 * pawnDir c, self.col))
          (canPlace self board (self.row + 2 * pawnDir c, self.col)))
        (emplaceBack board .normalMove self.position (self.row + 2 * pawnDir c, self.col)))) := by
  simp only [within_whenever, within_both, value_both, Bool.and_eq_true, canPlace_value,
    isEmpty_value, onBoard_canPlace, onBoard_isEmpty, onBoard_emplaceBack, within_pure, value_pure,
    decide_eq_true_eq, true_and]
  have hrows : self.row = pawnStart c →
      isValidPosition (self.row + pawnDir c, self.col) = true ∧
        isValidPosition (self.row + 2 * pawnDir c, self.col) = true := by
    intro h
    have hcol := (isValidPosition_iff.mp hself).2
    rw [isValidPosition_iff, isValidPosition_iff, h]
    refine ⟨⟨?_, hcol⟩, ?_, hcol⟩
    · show 0 ≤ pawnStart c + pawnDir c ∧ pawnStart c + pawnDir c < 8
      cases c <;> decide
    · show 0 ≤ pawnStart c + 2 * pawnDir c ∧ pawnStart c + 2 * pawnDir c < 8
      cases c <;> decide
  exact ⟨⟨valid_of_canPlace, fun h => onBoard_addMove hself (valid_of_canPlace h.1)⟩,
    ⟨fun h => (hrows h).1, fun h => ⟨⟨(hrows h.1).2, fun _ => trivial⟩,
      fun _ => ⟨hself, (hrows h.1).2⟩⟩⟩⟩

/-- A capture asks for its square before anything tests it. -/
theorem onBoard_capture {c : Bool} {newPos : Position} (hself : isValidPosition self.position = true) :
    OnBoard (whenever (both (isOccupied board newPos) (canPlace self board newPos))
      (addMove c self board newPos)) ↔ isValidPosition newPos = true := by
  rw [OnBoard, within_whenever, within_both]
  constructor
  · exact fun h => onBoard_isOccupied.mp h.1.1
  · exact fun h => ⟨⟨onBoard_isOccupied.mpr h, fun _ => onBoard_canPlace _⟩,
      fun _ => onBoard_addMove hself h⟩

/-- An en passant capture goes beside a pawn that is there. -/
theorem onBoard_passant {c : Bool} (hl : board.DoubleStepOk)
    (hself : isValidPosition self.position = true) :
    OnBoard (whenever (pure (self.row = enPassantRow c &&
        board.lastMove.fromType = PieceType.pawnOf (!c) &&
        board.lastMove.fromPos.1 = pawnStart (!c) && board.lastMove.toPos.1 = enPassantRow c &&
        |board.lastMove.fromPos.2 - self.col| = 1))
      (emplaceBack board .pawnEnPassant self.position
        (self.row + pawnDir c, board.lastMove.fromPos.2))) := by
  rw [OnBoard, within_whenever]
  refine ⟨within_pure _, fun h => onBoard_emplaceBack.mpr ⟨hself, ?_⟩⟩
  simp only [value_pure, Bool.and_eq_true, decide_eq_true_eq] at h
  obtain ⟨⟨⟨⟨hrow, htype⟩, hfrom⟩, hto⟩, -⟩ := h
  obtain ⟨hsame, hpawn, -⟩ := hl c htype hfrom hto
  have hv : isValidPosition board.lastMove.toPos = true :=
    Board.valid_of_ne_empty (hpawn ▸ (pawnOf_hasColor (!c)).1)
  rw [isValidPosition_iff] at hv ⊢
  rw [hrow, ← hsame]
  refine ⟨?_, hv.2⟩
  show 0 ≤ enPassantRow c + pawnDir c ∧ enPassantRow c + pawnDir c < 8
  cases c <;> decide

/-- **What a pawn asks for** is on the board exactly when both capture squares are. -/
theorem onBoard_pawnMoves_iff {c : Bool} {side : Int} (hside : side = 1 ∨ side = -1)
    (hl : board.DoubleStepOk) (hself : isValidPosition self.position = true) :
    OnBoard (pawnMoves c side self board) ↔
      (1 ≤ self.col ∧ self.col ≤ 6) ∧ self.row ≠ lastRow c := by
  have hparts : OnBoard (pawnMoves c side self board) ↔
      isValidPosition (self.row + pawnDir c, self.col + side) = true ∧
        isValidPosition (self.row + pawnDir c, self.col - side) = true := by
    unfold pawnMoves
    simp only [within_bind, within_pure, and_true, onBoard_capture hself, onBoard_passant hl hself,
      onBoard_steps hself, true_and]
  rw [hparts, isValidPosition_iff, isValidPosition_iff]
  rw [isValidPosition_iff] at hself
  dsimp only [Piece.row, Piece.col]
  rcases hside with rfl | rfl <;> cases c <;>
    simp only [pawnDir, lastRow, if_true, Bool.false_eq_true, if_false] <;> omega

end Reads
end Traced

/-- The piece is a pawn from whose square both capture squares are on the board, or no
pawn at all. -/
def Piece.CapturesOnBoard (p : Piece) : Prop :=
  p.type = PieceType.pawnOf p.type.isBlack →
    (1 ≤ p.col ∧ p.col ≤ 6) ∧ p.row ≠ lastRow p.type.isBlack

instance (p : Piece) : Decidable p.CapturesOnBoard := inferInstanceAs (Decidable (_ → _))

/-- **When move generation stays on the board**: on every board that legal moves reach,
and for every piece on it, exactly unless the piece is a pawn on an edge column or on
the last row. -/
theorem reads_on_board_iff {flags : Flags} {b : Board} (hb : b.Reachable flags) {p : Piece}
    (hp : p ∈ b.pieces) :
    (∀ sq ∈ (Traced.getMoves flags p b).reads, isValidPosition sq = true) ↔ p.CapturesOnBoard := by
  obtain ⟨hon, hne⟩ := Board.mem_pieces.mp hp
  have hself : isValidPosition p.position = true := Board.valid_of_ne_empty (hon ▸ hne)
  have hown : b.isEmpty p.position = false := by
    rw [← Bool.not_eq_true, Board.isEmpty_iff, hon]
    exact hne
  have hl := hb.doubleStepOk
  show OnBoard (Traced.getMoves flags p b) ↔ _
  have hslide : ∀ steps, OnBoard (Traced.slide p b steps) := fun steps =>
    (within_gather _ _).mpr fun step _ => Traced.onBoard_addMovesFromLine hself step 8 _
  have hking : OnBoard (Traced.kingMoves flags p b) := by
    have hcastle : ∀ smaller, (Traced.canCastle p b smaller).value = false := by
      intro smaller
      rw [Traced.canCastle_value]
      exact not_canCastle (hon ▸ hne) smaller
    simp [Traced.kingMoves, Traced.onBoard_addMovesFromOffsets hself,
      Traced.onBoard_canCastle hown, hcastle]
  obtain ⟨type, pos⟩ := p
  cases type with
  | empty => exact absurd rfl hne
  | bPawn =>
    refine (Traced.onBoard_pawnMoves_iff (c := true) (Or.inl rfl) hl hself).trans ?_
    exact ⟨fun h _ => h, fun h => h rfl⟩
  | wPawn =>
    refine (Traced.onBoard_pawnMoves_iff (c := false) (Or.inr rfl) hl hself).trans ?_
    exact ⟨fun h _ => h, fun h => h rfl⟩
  | bKing | wKing => exact iff_of_true hking fun h => by cases h
  | bQueen | wQueen => exact iff_of_true (hslide _) fun h => by cases h
  | bRook | wRook => exact iff_of_true (hslide _) fun h => by cases h
  | bBishop | wBishop => exact iff_of_true (hslide _) fun h => by cases h
  | bKnight | wKnight =>
    exact iff_of_true (Traced.onBoard_addMovesFromOffsets hself _) fun h => by cases h

/-- A white pawn in the middle of the board, and one in the corner column. -/
def Board.edgePawn : Board := ofText "ke1\nKe8\npd4\npa4\n"

theorem Board.edgePawn_reachable : edgePawn.Reachable Flags.default :=
  .loaded (fileLoaded_ofText (by decide +kernel))

/-- The pawn in the middle asks for squares of the board only. -/
theorem reads_on_board_middle :
    Piece.CapturesOnBoard ⟨.wPawn, (3, 3)⟩ ∧
      ∀ sq ∈ (Traced.getMoves .default ⟨.wPawn, (3, 3)⟩ .edgePawn).reads,
        isValidPosition sq = true := by
  have hcaptures : Piece.CapturesOnBoard ⟨.wPawn, (3, 3)⟩ := by decide
  exact ⟨hcaptures,
    (reads_on_board_iff Board.edgePawn_reachable (by decide +kernel)).mpr hcaptures⟩

/-- The pawn in the corner column asks for a square in column -1. -/
theorem reads_off_board_edge :
    Board.edgePawn.Reachable Flags.default ∧ (⟨.wPawn, (3, 0)⟩ : Piece) ∈ Board.edgePawn.pieces ∧
      (4, -1) ∈ (Traced.getMoves .default ⟨.wPawn, (3, 0)⟩ .edgePawn).reads ∧
      isValidPosition (4, -1) = false :=
  ⟨Board.edgePawn_reachable, by decide +kernel, by decide +kernel, rfl⟩

end Chess
