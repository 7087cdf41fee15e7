import ChessMate.PieceMoves

/-! # Loading a board from a file

`Board::Board(const string&)`: one piece a line, with comment lines and empty
lines skipped, and a `CHECK` for each way a line can be malformed.  A failed
`CHECK` ends the process; here the loader then returns `none`.
-/
namespace Chess

/-- The lines that `std::getline` reads from a file. -/
def getlines : List UInt8 → List UInt8 → List (List UInt8)
  | [], [] => []
  | [], line => [line.reverse]
  | c :: input, line =>
      if c.toNat = '\n'.toNat then line.reverse :: getlines input []
      else getlines input (c :: line)

/-- `kNotationToPieceType`. -/
def kNotationToPieceType : List (Char × PieceType) :=
  [('p', .wPawn), ('P', .bPawn),
    ('r', .wRook), ('R', .bRook),
    ('n', .wKnight), ('N', .bKnight),
    ('k', .wKing), ('K', .bKing),
    ('q', .wQueen), ('Q', .bQueen),
    ('b', .wBishop), ('B', .bBishop)]

/-- The table's entry for a byte of the file. -/
def pieceTypeOfNotation (c : UInt8) : Option PieceType :=
  (kNotationToPieceType.find? fun entry => entry.1.toNat = c.toNat).map Prod.snd

/-- `int8_t x = c - base`, with `c` a signed `char`. -/
def offsetFrom (base : Char) (c : UInt8) : Int :=
  Int.bmod (Int.bmod c.toNat 256 - base.toNat) 256

namespace Board

/-- The board before anything has been added to it. -/
def cleared : Board := ⟨(-1, -1), (-1, -1), fun _ _ => .empty, 0, Move.none⟩

/-- `Board::add`; its `CHECK` holds for every type of the notation table. -/
def add (board : Board) (type : PieceType) (pos : Position) : Board := board.set type pos

/-- One turn of the loader's loop. -/
def loadLine (board : Board) (line : List UInt8) : Option Board :=
  if line = [] || line.head?.map UInt8.toNat = some '#'.toNat then some board
  else
    match line with
    | [c0, c1, c2] =>
        match pieceTypeOfNotation c0 with
        | none => none
        | some type =>
            let pos : Position := (offsetFrom '1' c2, offsetFrom 'a' c1)
            if !isValidPosition pos then none
            else if !board.isEmpty pos then none
            else if type = .bKing && board.blackKing ≠ (-1, -1) then none
            else if type = .wKing && board.whiteKing ≠ (-1, -1) then none
            else some (board.add type pos)
    | _ => none

/-- `Board::Board(const string&)` on the contents of the file. -/
def load (file : List UInt8) : Option Board :=
  match (getlines file []).foldlM loadLine cleared with
  | none => none
  | some board =>
      if board.blackKing ≠ (-1, -1) && board.whiteKing ≠ (-1, -1) then some board else none

/-- The board is what the loader makes of some file. -/
def FileLoaded (board : Board) : Prop := ∃ file, load file = some board

/-- The bytes of an ASCII text. -/
def bytesOf (text : String) : List UInt8 := text.toList.map fun c => UInt8.ofNat c.toNat

/-- The board that the loader makes of a text, the empty one if it rejects it. -/
def ofText (text : String) : Board := (load (bytesOf text)).getD cleared

theorem fileLoaded_ofText {text : String} (h : (load (bytesOf text)).isSome = true) :
    (ofText text).FileLoaded := by
  obtain ⟨b, hb⟩ := Option.isSome_iff_exists.mp h
  exact ⟨bytesOf text, by rw [ofText, hb]; rfl⟩

end Board

end Chess
