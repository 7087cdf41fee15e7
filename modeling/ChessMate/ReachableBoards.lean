import ChessMate.BoardInvariant
import ChessMate.OneRound

/-! # Boards reached by legal moves

A board loaded from a file may have any side in check, and nothing makes the two
sides take turns, so `Reachable` is wider than `Playable`: a king may even have
been taken.  What is left holds after every move all the same (`kings`,
`doubleStepOk`): a king that is on the board stands on its recorded square, and a
last move that looks like a double step was one.

That is enough for a move to be taken back exactly, whichever side it belongs to
and whatever it captures (`KingsRecorded.undo_apply`), for a castling move as well
(`CastlingOpen.undo_apply`), and for the attack test to agree with the generated
moves on every square that holds an enemy (`canAttack_iff_getMoves`).
-/
namespace Chess
open LineWalk

/-! ## Reachability -/

/-- The board comes from a loaded one by legal moves, of either side in any order. -/
inductive Board.Reachable (flags : Flags) : Board → Prop
  | loaded {b : Board} (h : b.FileLoaded) : Reachable flags b
  | move {b : Board} {c : Bool} {m : Move} (h : Reachable flags b) (hm : b.IsLegal flags c m) :
      Reachable flags (b.makeMove m)

theorem Board.mem_piecesOf_of_mem {b : Board} {p : Piece} (hp : p ∈ b.pieces) :
    p ∈ b.piecesOf p.type.isBlack := by
  obtain ⟨hon, hne⟩ := mem_pieces.mp hp
  exact mem_piecesOf.mpr ⟨hon, hne, rfl⟩

namespace Board.Reachable
variable {flags : Flags} {b : Board}

/-- The last move of a reachable board: none, or one that was generated for a piece
of the board before. -/
theorem last (h : b.Reachable flags) : NoLastMove b ∨
    ∃ (b₀ : Board) (c : Bool), b₀.Reachable flags ∧ b₀.IsLegal flags c b.lastMove ∧ b = b₀.makeMove b.lastMove := by
  cases h with
  | loaded h => exact Or.inl h.kings.2
  | move h hm => exact Or.inr ⟨_, _, h, hm, rfl⟩

theorem doubleStepOk (h : b.Reachable flags) : b.DoubleStepOk := by
  induction h with
  | loaded h => exact h.kings.2.doubleStepOk
  | move _ hm ih =>
    obtain ⟨p, hp, hgen, -⟩ := hm
    exact MadeBy.doubleStepOk ⟨ih.generated hp hgen, rfl⟩

theorem generated (h : b.Reachable flags) {p : Piece} (hp : p ∈ b.pieces) {m : Move}
    (hm : m ∈ p.getMoves flags b) : Generated b p.type.isBlack m :=
  h.doubleStepOk.generated (mem_piecesOf_of_mem hp) hm

theorem kings (h : b.Reachable flags) : KingsRecorded b := by
  induction h with
  | loaded h => exact h.kings.1.recorded
  | move h hm ih =>
    obtain ⟨p, hp, hgen, -⟩ := hm
    intro c' sq hsq
    exact ih.apply (h.doubleStepOk.generated hp hgen) c' sq hsq

end Board.Reachable

/-! ## What the assertions of `apply` rest on -/

/-- The board comes from a loaded one by moves of the generators, the sides taking
turns, with the given side to move.  The moves need not be legal. -/
inductive Board.TurnsTo (flags : Flags) : Board → Bool → Prop
  | loaded {b : Board} (h : b.FileLoaded) (c : Bool) : TurnsTo flags b c
  | move {b : Board} {c : Bool} {p : Piece} {m : Move} (h : TurnsTo flags b c)
      (hp : p ∈ b.piecesOf c) (hm : m ∈ p.getMoves flags b) : TurnsTo flags (b.makeMove m) (!c)

theorem Board.TurnsTo.doubleStepOk {flags : Flags} {b : Board} {c : Bool} (h : b.TurnsTo flags c) :
    b.DoubleStepOk := by
  induction h with
  | loaded h c => exact h.kings.2.doubleStepOk
  | move _ hp hm ih => exact MadeBy.doubleStepOk ⟨ih.generated hp hm, rfl⟩

/-- The pawn that an en passant capture takes is still there when the mover has
been lifted. -/
theorem Generated.applyChecks {b : Board} {c : Bool} {m : Move} (h : Generated b c m) :
    m.applyChecks b = true := by
  unfold Move.applyChecks
  cases hs : m.special with
  | normalMove => exact decide_eq_true h.mover.1
  | queenPromotion | knightPromotion | kingCastling => rfl
  | pawnEnPassant =>
    have he := h.enPassant hs
    have hcap : (b.set .empty m.fromPos).getPieceTypeAtPosition m.enPassantPos =
        PieceType.pawnOf (!c) := by
      rw [Board.getPieceTypeAtPosition_set _ _ h.validFrom, if_neg (h.enPassantPos_ne hs).1,
        he.enPassantPos_eq, he.captured]
    dsimp only
    rw [hcap, he.fromType_eq]
    cases c <;> decide

/-- **The assertions of `apply` never fail**: after any moves of the generators made
in turns from a loaded board, every generated move of the side to move has a piece to
move, an en passant capture has an enemy pawn behind its target, and its target is
empty. -/
theorem apply_checks_pass {flags : Flags} {b : Board} {c : Bool} (hb : b.TurnsTo flags c)
    {p : Piece} (hp : p ∈ b.piecesOf c) {m : Move} (hm : m ∈ p.getMoves flags b) :
    m.applyChecks b = true ∧ m.fromType ≠ .empty ∧
      (m.special = .pawnEnPassant → b.isEmpty m.toPos = true) := by
  have hg := hb.doubleStepOk.generated hp hm
  refine ⟨hg.applyChecks, hg.mover.1, fun hs => ?_⟩
  rw [Board.isEmpty_iff]
  exact (hg.enPassant hs).toEmpty

/-- A white pawn on its first row, and a black pawn that may take it en passant. -/
def Board.besidePawn : Board := ofText "ke1\nKe8\npd2\nPe4\n"

/-- The double step of the white pawn. -/
def Board.besidePawnStep : Move := Move.ofBoard besidePawn .normalMove (1, 3) (3, 3)

theorem Board.besidePawn_turns : (besidePawn.makeMove besidePawnStep).TurnsTo Flags.default true := by
  have hb : besidePawn.FileLoaded := fileLoaded_ofText (by decide +kernel)
  exact .move (p := ⟨.wPawn, (1, 3)⟩) (.loaded hb false) (by decide +kernel) (by decide +kernel)

/-- The pawn that has just stepped twice is taken en passant. -/
theorem apply_checks_pass_en_passant :
    (Move.ofBoard (Board.besidePawn.makeMove Board.besidePawnStep) .pawnEnPassant (3, 4)
      (2, 3)).applyChecks (Board.besidePawn.makeMove Board.besidePawnStep) = true :=
  (apply_checks_pass Board.besidePawn_turns (p := ⟨.bPawn, (3, 4)⟩) (by decide +kernel)
    (by decide +kernel)).1

/-! ## Castling moves -/

/-- The rook of one colour. -/
def PieceType.rookOf (black : Bool) : PieceType := if black then .bRook else .wRook

/-- The row on which the pieces of one colour start. -/
def homeRow (black : Bool) : Int := if black then 7 else 0

/-- The corner column of the rook, when the king castles to the smaller or to the
larger columns. -/
def rookCol (smaller : Bool) : Int := if smaller then 0 else 7

/-- The column to which the rook castles. -/
def rookToCol (smaller : Bool) : Int := if smaller then 3 else 5

/-- The column to which the king castles. -/
def kingToCol (smaller : Bool) : Int := if smaller then 2 else 6

/-- The castling move of a king on its original square. -/
def castlingMove (b : Board) (c smaller : Bool) : Move :=
  Move.ofBoard b .kingCastling (homeRow c, 4) (homeRow c, kingToCol smaller)

/-- The king is on its original square, a rook of its colour is in the corner, and
the squares between are empty. -/
structure CastlingOpen (b : Board) (c smaller : Bool) : Prop where
  king : b.getPieceTypeAtPosition (homeRow c, 4) = PieceType.kingOf c
  rook : b.getPieceTypeAtPosition (homeRow c, rookCol smaller) = PieceType.rookOf c
  between : ∀ col : Int, (if smaller then 0 < col ∧ col < 4 else 4 < col ∧ col < 7) →
    b.getPieceTypeAtPosition (homeRow c, col) = .empty

namespace CastlingOpen
variable {b : Board} {c smaller : Bool}

theorem getCastlingRookPos_eq (b : Board) (c smaller : Bool) :
    (castlingMove b c smaller).getCastlingRookPos =
      ((homeRow c, rookCol smaller), (homeRow c, rookToCol smaller)) := by
  cases smaller <;> rfl

/-- The four squares of castling are squares of the board. -/
theorem squares_valid (c smaller : Bool) :
    isValidPosition (homeRow c, 4) = true ∧ isValidPosition (homeRow c, kingToCol smaller) = true ∧
      isValidPosition (homeRow c, rookCol smaller) = true ∧
      isValidPosition (homeRow c, rookToCol smaller) = true := by
  cases c <;> cases smaller <;> decide

/-- No two of the squares are the same. -/
theorem squares_nodup (c smaller : Bool) :
    [(homeRow c, (4 : Int)), (homeRow c, kingToCol smaller), (homeRow c, rookCol smaller),
      (homeRow c, rookToCol smaller)].Nodup := by
  cases smaller <;> cases c <;> decide

/-- The squares that castling sets, in order. -/
theorem apply_eq (h : CastlingOpen b c smaller) :
    (castlingMove b c smaller).apply b =
      (((b.set .empty (homeRow c, 4)).set .empty (homeRow c, rookCol smaller)).set
        (PieceType.rookOf c) (homeRow c, rookToCol smaller)).set (PieceType.kingOf c)
          (homeRow c, kingToCol smaller) := by
  have hne : (homeRow c, rookCol smaller) ≠ (homeRow c, (4 : Int)) := by
    cases c <;> cases smaller <;> decide
  have hrook : (b.set .empty (homeRow c, 4)).getPieceTypeAtPosition (homeRow c, rookCol smaller) =
      PieceType.rookOf c := by
    rw [Board.getPieceTypeAtPosition_set _ _ (squares_valid c smaller).1, if_neg hne, h.rook]
  show ((castlingMove b c smaller).setupCastling (b.set .empty (homeRow c, 4))).set
    (b.getPieceTypeAtPosition (homeRow c, 4)) (homeRow c, kingToCol smaller) = _
  rw [h.king]
  simp only [Move.setupCastling, getCastlingRookPos_eq, hrook]

/-- **What castling does to the squares.** -/
theorem get_apply (h : CastlingOpen b c smaller) (sq : Position) :
    ((castlingMove b c smaller).apply b).getPieceTypeAtPosition sq =
      if sq = (homeRow c, kingToCol smaller) then PieceType.kingOf c
      else if sq = (homeRow c, rookToCol smaller) then PieceType.rookOf c
      else if sq = (homeRow c, rookCol smaller) ∨ sq = (homeRow c, 4) then .empty
      else b.getPieceTypeAtPosition sq := by
  obtain ⟨vk, vt, vr, vs⟩ := squares_valid c smaller
  rw [h.apply_eq, Board.getPieceTypeAtPosition_set _ _ vt, Board.getPieceTypeAtPosition_set _ _ vs,
    Board.getPieceTypeAtPosition_set _ _ vr, Board.getPieceTypeAtPosition_set _ _ vk]
  split_ifs <;> simp_all

theorem kingPosition_apply (h : CastlingOpen b c smaller) (c' : Bool) :
    ((castlingMove b c smaller).apply b).kingPosition c' =
      if c' = c then (homeRow c, kingToCol smaller) else b.kingPosition c' := by
  have hempty : PieceType.empty ≠ PieceType.kingOf c' := by cases c' <;> decide
  have hrook : PieceType.rookOf c ≠ PieceType.kingOf c' := by cases c <;> cases c' <;> decide
  simp only [h.apply_eq, Board.set_kingPosition, if_neg hempty, if_neg hrook]
  cases c <;> cases c' <;> rfl

/-- **Taking castling back restores the board.** -/
theorem undo_apply (h : CastlingOpen b c smaller) (hk : KingsRecorded b) :
    (castlingMove b c smaller).undo ((castlingMove b c smaller).apply b) = b := by
  obtain ⟨vk, vt, vr, vs⟩ := squares_valid c smaller
  have hne := squares_nodup c smaller
  simp only [List.nodup_cons, List.mem_cons, List.not_mem_nil, or_false, not_or] at hne
  obtain ⟨⟨hkt, hkr, hks⟩, ⟨htr, hts⟩, hrs, -⟩ := hne
  have hto := h.between (kingToCol smaller) (by cases smaller <;> decide)
  have hrookTo := h.between (rookToCol smaller) (by cases smaller <;> decide)
  have hread : ((((castlingMove b c smaller).apply b).set .empty (homeRow c, kingToCol smaller)).set
      (PieceType.kingOf c) (homeRow c, 4)).getPieceTypeAtPosition (homeRow c, rookToCol smaller) =
      PieceType.rookOf c := by
    rw [Board.getPieceTypeAtPosition_set _ _ vk, if_neg (Ne.symm hks),
      Board.getPieceTypeAtPosition_set _ _ vt, if_neg (Ne.symm hts), h.get_apply,
      if_neg (Ne.symm hts), if_pos rfl]
  have hundo : (castlingMove b c smaller).undo ((castlingMove b c smaller).apply b) =
      (((((castlingMove b c smaller).apply b).set .empty (homeRow c, kingToCol smaller)).set
        (PieceType.kingOf c) (homeRow c, 4)).set .empty (homeRow c, rookToCol smaller)).set
          (PieceType.rookOf c) (homeRow c, rookCol smaller) := by
    show (castlingMove b c smaller).undoCastling ((((castlingMove b c smaller).apply b).set
      (b.getPieceTypeAtPosition (homeRow c, kingToCol smaller)) (homeRow c, kingToCol smaller)).set
        (b.getPieceTypeAtPosition (homeRow c, 4)) (homeRow c, 4)) = _
    rw [hto, h.king]
    simp only [Move.undoCastling, getCastlingRookPos_eq, hread]
  rw [hundo]
  refine Board.ext_get (fun sq => ?_) (fun c' => ?_) ?_ ?_
  · rw [Board.getPieceTypeAtPosition_set _ _ vr, Board.getPieceTypeAtPosition_set _ _ vs,
      Board.getPieceTypeAtPosition_set _ _ vk, Board.getPieceTypeAtPosition_set _ _ vt, h.get_apply]
    split_ifs with h1 h2 h3 h4 h5
    · rw [h1, h.rook]
    · rw [h2, hrookTo]
    · rw [h3, h.king]
    · rw [h4, hto]
    · exact absurd h5 (not_or.mpr ⟨h1, h3⟩)
    · rfl
  · have hempty : PieceType.empty ≠ PieceType.kingOf c' := by cases c' <;> decide
    have hrook : PieceType.rookOf c ≠ PieceType.kingOf c' := by cases c <;> cases c' <;> decide
    simp only [Board.set_kingPosition, if_neg hrook, if_neg hempty, h.kingPosition_apply]
    split_ifs with h1 h2
    · obtain rfl : c = c' := by
        clear * - h1
        revert c c'
        decide
      exact hk c _ h.king
    · exact absurd (congrArg PieceType.kingOf h2).symm h1
    · rfl
  · simp [h.apply_eq]
  · simp [h.apply_eq]

end CastlingOpen

/-! ### Generated castling moves -/

/-- The generators contain a castling move of the piece to the smaller or to the
larger columns. -/
def Piece.HasCastling (flags : Flags) (p : Piece) (b : Board) (smaller : Bool) : Prop :=
  ∃ m ∈ p.getMoves flags b, m.special = .kingCastling ∧
    m.toPos = (p.row, if smaller then p.col - 2 else p.col + 2)

instance (flags : Flags) (p : Piece) (b : Board) (smaller : Bool) :
    Decidable (p.HasCastling flags b smaller) :=
  inferInstanceAs (Decidable (∃ m ∈ p.getMoves flags b, _))

/-- No king castles: the loops over the squares towards the rook start at the king's
own square, which is not empty. -/
theorem not_hasCastling (flags : Flags) {b : Board} {p : Piece} {c : Bool} (hp : p ∈ b.pieces)
    (hk : p.type = PieceType.kingOf c) (smaller : Bool) : ¬ p.HasCastling flags b smaller := by
  rintro ⟨m, hm, hs, -⟩
  obtain ⟨hon, hne⟩ := Board.mem_pieces.mp hp
  have hc : p.type.HasColor c := hk ▸ PieceType.kingOf_hasColor c
  have hpawn : p.type ≠ PieceType.pawnOf c := by
    rw [hk]
    cases c <;> decide
  obtain ⟨tgt, -, -, -, rfl⟩ := (mem_getMoves_of_not_pawn hc hon hpawn).mp hm
  cases hs

/-- **When the castling generator is right**: for a king on its original square, the
generated moves contain castling exactly when castling is open, if and only if
castling is not open. -/
theorem castling_generated_iff (flags : Flags) {b : Board} {p : Piece} {c : Bool}
    (hp : p ∈ b.pieces) (hk : p.type = PieceType.kingOf c) (horig : p.position = King.origPos p)
    (smaller : Bool) :
    (p.HasCastling flags b smaller ↔ CastlingOpen b c smaller) ↔
      b.getPieceTypeAtPosition (homeRow c, rookCol smaller) ≠ PieceType.rookOf c ∨
        ∃ col : Int, (if smaller then 0 < col ∧ col < 4 else 4 < col ∧ col < 7) ∧
          b.getPieceTypeAtPosition (homeRow c, col) ≠ .empty := by
  have hhome : p.position = (homeRow c, 4) := by
    rw [horig, King.origPos, hk]
    cases c <;> rfl
  have hking : b.getPieceTypeAtPosition (homeRow c, 4) = PieceType.kingOf c := by
    rw [← hhome, (Board.mem_pieces.mp hp).1, hk]
  have hopen : ¬ CastlingOpen b c smaller ↔
      b.getPieceTypeAtPosition (homeRow c, rookCol smaller) ≠ PieceType.rookOf c ∨
        ∃ col : Int, (if smaller then 0 < col ∧ col < 4 else 4 < col ∧ col < 7) ∧
          b.getPieceTypeAtPosition (homeRow c, col) ≠ .empty := by
    constructor
    · intro hno
      by_contra hcon
      obtain ⟨hrook, hbetween⟩ := not_or.mp hcon
      exact hno ⟨hking, not_not.mp hrook, fun col hcol => by
        by_contra hne
        exact hbetween ⟨col, hcol, hne⟩⟩
    · rintro (hrook | ⟨col, hcol, hne⟩) hopen
      · exact hrook hopen.rook
      · exact hne (hopen.between col hcol)
  rw [iff_false_left (not_hasCastling flags hp hk smaller)]
  exact hopen

/-- Castling is allowed. -/
def Flags.castling : Flags := { Flags.default with allowCastling := true }

/-- A king and a rook of its colour on their original squares, with nothing between
them, and a rook in the other corner with a knight beside it. -/
def Board.castlingSide : Board := ofText "ke1\nra1\nrh1\nng1\nKe8\n"

/-- On the side of the knight nothing is generated, as it should be. -/
theorem castling_generated_iff_knight :
    (⟨.wKing, (0, 4)⟩ : Piece).HasCastling .castling .castlingSide false ↔
      CastlingOpen .castlingSide false false :=
  (castling_generated_iff .castling (c := false) (by decide +kernel) rfl rfl false).mpr
    (Or.inr ⟨6, by decide, by decide +kernel⟩)

/-- On the open side castling is not generated either. -/
theorem castling_not_generated :
    Flags.castling.allowCastling = true ∧
      (⟨.wKing, (0, 4)⟩ : Piece) ∈ Board.castlingSide.pieces ∧
      CastlingOpen .castlingSide false true ∧
      ¬ (⟨.wKing, (0, 4)⟩ : Piece).HasCastling .castling .castlingSide true := by
  refine ⟨rfl, by decide +kernel, ⟨by decide +kernel, by decide +kernel, ?_⟩, by decide +kernel⟩
  intro col hcol
  have hcases : col = 1 ∨ col = 2 ∨ col = 3 := by
    simp only [if_true] at hcol
    omega
  rcases hcases with rfl | rfl | rfl <;> decide +kernel

/-- **Undo reverses apply**, for every generated move of any piece and for castling,
so that the legality test and the move estimate leave the scratch board as it was. -/
theorem undo_reverses_apply {flags : Flags} {b : Board} (hb : b.Reachable flags) {m : Move}
    (hm : (∃ p ∈ b.pieces, m ∈ p.getMoves flags b) ∨
      ∃ c smaller, CastlingOpen b c smaller ∧ m = castlingMove b c smaller) :
    m.undo (m.apply b) = b ∧
      (∀ (round : OneRound) (piece : Piece) (isChecked : Bool),
        (round.canMove piece m isChecked b).2 = b) ∧
      ∀ (ε : Type) (estimate : OneRound → Piece → Move → Board → ε) (round : OneRound)
        (piece : Piece), (round.calcMoveHeuristics estimate b piece m).2 = b := by
  have hundo : m.undo (m.apply b) = b := by
    rcases hm with ⟨p, hp, hgen⟩ | ⟨c, smaller, hopen, rfl⟩
    · exact hb.kings.undo_apply (hb.generated hp hgen)
    · exact hopen.undo_apply hb.kings
  refine ⟨hundo, fun round piece isChecked => ?_, fun _ _ _ _ => hundo⟩
  unfold OneRound.canMove
  split
  · rfl
  · exact hundo

/-- A rook that can take the king, and a king that could castle with another rook. -/
def Board.kingEnPrise : Board := ofText "ke1\nrh1\nra7\nKa8\n"

theorem Board.kingEnPrise_reachable : kingEnPrise.Reachable Flags.default :=
  .loaded (fileLoaded_ofText (by decide +kernel))

/-- The capture of a king is taken back. -/
theorem undo_reverses_apply_king_taken :
    (Move.ofBoard .kingEnPrise .normalMove (6, 0) (7, 0)).toType = .bKing ∧
      (Move.ofBoard .kingEnPrise .normalMove (6, 0) (7, 0)).undo
        ((Move.ofBoard .kingEnPrise .normalMove (6, 0) (7, 0)).apply .kingEnPrise) =
          .kingEnPrise := by
  refine ⟨by decide +kernel, ?_⟩
  exact (undo_reverses_apply Board.kingEnPrise_reachable
    (Or.inl ⟨⟨.wRook, (6, 0)⟩, by decide +kernel, by decide +kernel⟩)).1

/-! ## Attacks and moves -/

theorem exists_mem_pawnAddMove (c : Bool) (p : Piece) (board : Board) (newPos : Position) :
    ∃ m ∈ pawnAddMove c p board newPos, m.toPos = newPos := by
  unfold pawnAddMove
  split <;> exact ⟨_, List.mem_cons_self, rfl⟩

/-- A pawn has a move to every square it attacks that holds an enemy. -/
theorem exists_pawn_capture {flags : Flags} {b : Board} {c : Bool} {pos t : Position}
    (hpos : isValidPosition pos = true) (ht : (b.getPieceTypeAtPosition t).HasColor (!c))
    (ha : Piece.canAttack ⟨PieceType.pawnOf c, pos⟩ b t = true) :
    ∃ m ∈ Piece.getMoves flags ⟨PieceType.pawnOf c, pos⟩ b, m.toPos = t := by
  rw [canAttack_iff hpos (Board.valid_of_ne_empty ht.1), leaps_iff] at ha
  have hrow : t.1 = pos.1 + pawnDir c ∧ (t.2 = pos.2 + 1 ∨ t.2 = pos.2 - 1) := by
    rcases ha with ha | ⟨step, hstep, -⟩
    · cases c <;>
      · simp only [PieceType.leaps, PieceType.pawnOf, pawnDir, List.mem_cons, Prod.mk.injEq,
          List.not_mem_nil, or_false, if_true, Bool.false_eq_true, if_false] at ha ⊢
        omega
    · cases c <;> cases hstep
  obtain ⟨r, col⟩ := t
  obtain ⟨rfl, hcol⟩ : r = pos.1 + pawnDir c ∧ _ := hrow
  obtain ⟨m, hm, hto⟩ :=
    exists_mem_pawnAddMove c ⟨PieceType.pawnOf c, pos⟩ b (pos.1 + pawnDir c, col)
  exact ⟨m, mem_getMoves_pawn.mpr (Or.inr (Or.inr (Or.inl ⟨col, hcol, ht, hm⟩))), hto⟩

/-- **On a square that holds an enemy, attacking and having a move agree.** -/
theorem canAttack_iff_getMoves {flags : Flags} {b : Board} (hb : b.DoubleStepOk) {c : Bool}
    {p : Piece} (hp : p ∈ b.piecesOf c) {t : Position}
    (ht : (b.getPieceTypeAtPosition t).HasColor (!c)) :
    p.canAttack b t = true ↔ ∃ m ∈ p.getMoves flags b, m.toPos = t := by
  obtain ⟨hon, hc⟩ := Board.mem_piecesOf.mp hp
  have hpos : isValidPosition p.position = true := Board.valid_of_ne_empty (hon ▸ hc.1)
  constructor
  · intro ha
    by_cases hpawn : p.type = PieceType.pawnOf c
    · obtain ⟨type, pos⟩ := p
      obtain rfl : type = PieceType.pawnOf c := hpawn
      exact exists_pawn_capture hpos ht ha
    · refine ⟨Move.ofBoard b .normalMove p.position t, ?_, rfl⟩
      refine (mem_getMoves_of_not_pawn hc hon hpawn).mpr ⟨t, ?_, fun h => h.not_other ht, ha, rfl⟩
      exact Board.valid_of_ne_empty ht.1
  · rintro ⟨m, hm, rfl⟩
    have hg := hb.generated hp hm
    have hfrom := fromPos_of_mem_getMoves hp hm
    have ha := hg.attacks (hg.toType_eq ▸ ht.1)
    rw [hg.fromType_eq, hfrom, hon] at ha
    exact ha

/-- **The attack test and the move generator agree** on every square that holds a
piece of the other colour, and so a king that is on the board is in check exactly when
some piece has a generated move onto its square. -/
theorem attacks_are_moves {flags : Flags} {b : Board} (hb : b.Reachable flags) :
    (∀ p ∈ b.pieces, ∀ t, (b.getPieceTypeAtPosition t).HasColor (!p.type.isBlack) →
      (p.canAttack b t = true ↔ ∃ m ∈ p.getMoves flags b, m.toPos = t)) ∧
    ∀ c sq, b.getPieceTypeAtPosition sq = PieceType.kingOf c →
      (b.isChecked c = true ↔
        ∃ p ∈ b.piecesOf (!c), ∃ m ∈ p.getMoves flags b, m.toPos = sq) := by
  refine ⟨fun p hp t ht => ?_, fun c sq hsq => ?_⟩
  · exact canAttack_iff_getMoves hb.doubleStepOk (Board.mem_piecesOf_of_mem hp) ht
  · have hcolor : (b.getPieceTypeAtPosition sq).HasColor (!!c) := by
      rw [Bool.not_not, hsq]
      exact PieceType.kingOf_hasColor c
    obtain rfl : sq = b.kingPosition c := hb.kings c sq hsq
    rw [Board.isChecked_iff]
    constructor
    · rintro ⟨pos, hpos, ha⟩
      have hp : (⟨b.getPieceTypeAtPosition pos, pos⟩ : Piece) ∈ b.piecesOf (!c) :=
        Board.mem_piecesOf.mpr ⟨rfl, hpos⟩
      exact ⟨_, hp, (canAttack_iff_getMoves hb.doubleStepOk hp hcolor).mp ha⟩
    · rintro ⟨p, hp, hm⟩
      obtain ⟨hon, hc⟩ := Board.mem_piecesOf.mp hp
      have ha := (canAttack_iff_getMoves hb.doubleStepOk hp hcolor).mpr hm
      refine ⟨p.position, ?_, ?_⟩
      · rw [hon]; exact hc
      · rw [hon]; exact ha

/-- The rook attacks the king and has the move that takes it. -/
theorem attacks_are_moves_king_taken :
    Board.kingEnPrise.isChecked true = true ∧
      ∃ p ∈ Board.kingEnPrise.piecesOf false, ∃ m ∈ p.getMoves Flags.default .kingEnPrise,
        m.toPos = (7, 0) := by
  have hcheck : Board.kingEnPrise.isChecked true = true := by decide +kernel
  exact ⟨hcheck, ((attacks_are_moves Board.kingEnPrise_reachable).2 true (7, 0)
    (by decide +kernel)).mp hcheck⟩

/-- A rook that can take the king, and a bishop behind it on the long diagonal. -/
def Board.kingGuarded : Board := ofText "ke1\nra7\nbh1\nKa8\n"

/-- The rook has taken the king. -/
def Board.kingTaken : Board :=
  kingGuarded.makeMove (Move.ofBoard kingGuarded .normalMove (6, 0) (7, 0))

/-- **A king that was taken is attacked without a move onto its square**: the recorded
square holds the rook of the side that took it, and the bishop guards it. -/
theorem attacks_without_move :
    Board.kingTaken.Reachable Flags.default ∧ Board.kingTaken.isChecked true = true ∧
      ¬ ∃ p ∈ Board.kingTaken.piecesOf false, ∃ m ∈ p.getMoves Flags.default .kingTaken,
        m.toPos = Board.kingTaken.kingPosition true := by
  refine ⟨.move (c := false) (.loaded (Board.fileLoaded_ofText (by decide +kernel))) ?_,
    by decide +kernel, by decide +kernel⟩
  exact ⟨⟨.wRook, (6, 0)⟩, by decide +kernel, by decide +kernel, by decide +kernel⟩

end Chess
