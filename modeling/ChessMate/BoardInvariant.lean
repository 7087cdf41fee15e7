import ChessMate.MoveGeneration
import ChessMate.BoardLoader

/-! # Boards that play reaches

What holds of a board with one side to move, at the root of a search and after
every legal move: the recorded king squares are the squares of the only two
kings, the side that is not to move is not attacked, and the last move was
really made on a board on which the side to move was not attacked (`Playable`).
The last part is what the en passant rule and the legality test rely on.

`Generated` is what is used of a generated move, and `get_apply`,
`kingPosition_apply` and `undo_apply` say what making and taking back such a
move does to the board.
-/
namespace Chess
open LineWalk

/-! ## Generated moves -/

/-- What an en passant capture is, given that the last move was really made. -/
structure EnPassant (b : Board) (c : Bool) (m : Move) : Prop where
  fromType_eq : m.fromType = PieceType.pawnOf c
  fromRow : m.fromPos.1 = enPassantRow c
  toRow : m.toPos.1 = enPassantRow c + pawnDir c
  beside : |m.toPos.2 - m.fromPos.2| = 1
  toEmpty : b.getPieceTypeAtPosition m.toPos = .empty
  lastType : b.lastMove.fromType = PieceType.pawnOf (!c)
  lastFrom : b.lastMove.fromPos = (enPassantRow c + 2 * pawnDir c, m.toPos.2)
  lastTo : b.lastMove.toPos = (enPassantRow c, m.toPos.2)
  captured : b.getPieceTypeAtPosition (enPassantRow c, m.toPos.2) = PieceType.pawnOf (!c)

/-- What is used of a move that was generated for a piece of colour `c`. -/
structure Generated (b : Board) (c : Bool) (m : Move) : Prop where
  fromType_eq : m.fromType = b.getPieceTypeAtPosition m.fromPos
  toType_eq : m.toType = b.getPieceTypeAtPosition m.toPos
  mover : m.fromType.HasColor c
  target : ¬ m.toType.HasColor c
  validTo : isValidPosition m.toPos = true
  notCastling : m.special ≠ .kingCastling
  pawnPromoted : m.special = .queenPromotion ∨ m.special = .knightPromotion →
    m.fromType = PieceType.pawnOf c
  promoted : m.fromType = PieceType.pawnOf c → m.toPos.1 = lastRow c →
    m.special = .queenPromotion ∨ m.special = .knightPromotion
  attacks : m.toType ≠ .empty → Piece.canAttack ⟨m.fromType, m.fromPos⟩ b m.toPos = true
  doubleStep : m.fromType = PieceType.pawnOf c → m.toPos.1 = m.fromPos.1 + 2 * pawnDir c →
    m.special = .normalMove ∧ m.toPos.2 = m.fromPos.2 ∧ m.toType = .empty ∧
      b.getPieceTypeAtPosition (m.fromPos.1 + pawnDir c, m.fromPos.2) = .empty
  enPassant : m.special = .pawnEnPassant → EnPassant b c m

/-- The squares that a move leaves empty. -/
def Move.Vacates (m : Move) (sq : Position) : Prop :=
  sq = m.fromPos ∨ m.special = .pawnEnPassant ∧ sq = m.enPassantPos

instance (m : Move) (sq : Position) : Decidable (m.Vacates sq) :=
  inferInstanceAs (Decidable (_ ∨ _))

section Effect
variable {b : Board} {c : Bool} {m : Move}

theorem EnPassant.enPassantPos_eq (h : EnPassant b c m) :
    m.enPassantPos = (enPassantRow c, m.toPos.2) := by
  have hr := h.toRow
  unfold Move.enPassantPos
  rw [h.fromType_eq]
  cases c
  · rw [if_neg (by decide), hr]; rfl
  · rw [if_pos (by decide), hr]; rfl

theorem EnPassant.valid_enPassantPos (h : EnPassant b c m) :
    isValidPosition m.enPassantPos = true := by
  rw [h.enPassantPos_eq]
  refine @Board.valid_of_ne_empty b _ ?_
  rw [h.captured]
  exact (pawnOf_hasColor (!c)).1

namespace Generated

theorem validFrom (h : Generated b c m) : isValidPosition m.fromPos = true :=
  Board.valid_of_ne_empty (h.fromType_eq ▸ h.mover.1)

theorem from_ne_to (h : Generated b c m) : m.fromPos ≠ m.toPos := by
  intro he
  refine h.target ?_
  rw [h.toType_eq, ← he, ← h.fromType_eq]
  exact h.mover

theorem newType_hasColor (h : Generated b c m) : m.newType.HasColor c := by
  unfold Move.newType
  split
  · exact PieceType.getSameQueenType_hasColor h.mover
  · exact PieceType.getSameKnightType_hasColor h.mover
  · exact h.mover

/-- Only a king becomes a king. -/
theorem newType_eq_kingOf_iff (h : Generated b c m) (c' : Bool) :
    m.newType = PieceType.kingOf c' ↔ m.fromType = PieceType.kingOf c' := by
  have hp := h.pawnPromoted
  unfold Move.newType
  split
  case h_1 hs => rw [hp (Or.inl hs)]; cases c <;> cases c' <;> decide
  case h_2 hs => rw [hp (Or.inr hs)]; cases c <;> cases c' <;> decide
  case h_3 => exact Iff.rfl

/-- A vacated square held the mover or the pawn taken en passant. -/
theorem vacated (h : Generated b c m) {sq : Position} (hv : m.Vacates sq) :
    sq = m.fromPos ∨ m.special = .pawnEnPassant ∧ sq = m.enPassantPos ∧
      b.getPieceTypeAtPosition sq = PieceType.pawnOf (!c) := by
  rcases hv with hv | ⟨hs, rfl⟩
  · exact Or.inl hv
  · refine Or.inr ⟨hs, rfl, ?_⟩
    rw [(h.enPassant hs).enPassantPos_eq]
    exact (h.enPassant hs).captured

theorem enPassantPos_ne (h : Generated b c m) (hs : m.special = .pawnEnPassant) :
    m.enPassantPos ≠ m.fromPos ∧ m.enPassantPos ≠ m.toPos := by
  have he := h.enPassant hs
  rw [he.enPassantPos_eq]
  constructor
  · intro heq
    have h2 := congrArg Prod.snd heq
    have := he.beside
    simp only at h2
    rw [h2, sub_self] at this
    cases this
  · intro heq
    have h1 : enPassantRow c = m.toPos.1 := congrArg Prod.fst heq
    rw [he.toRow] at h1
    clear * - h1
    revert c
    decide

/-- The moved piece stays on its new square, since nothing vacates it. -/
theorem not_vacates_to (h : Generated b c m) : ¬ m.Vacates m.toPos := by
  rintro (hv | ⟨hs, hv⟩)
  · exact h.from_ne_to hv.symm
  · exact (h.enPassantPos_ne hs).2 hv.symm

/-- **What a move does to the squares.** -/
theorem get_apply (h : Generated b c m) (sq : Position) :
    (m.apply b).getPieceTypeAtPosition sq =
      if sq = m.toPos then m.newType
      else if m.Vacates sq then .empty else b.getPieceTypeAtPosition sq := by
  have hf := h.validFrom
  have ht := h.validTo
  have key : ∀ b' : Board, (∀ sq, b'.getPieceTypeAtPosition sq =
      if m.Vacates sq then .empty else b.getPieceTypeAtPosition sq) →
      ∀ type, (b'.set type m.toPos).getPieceTypeAtPosition sq =
        if sq = m.toPos then type
        else if m.Vacates sq then .empty else b.getPieceTypeAtPosition sq := by
    intro b' hb' type
    rw [Board.getPieceTypeAtPosition_set _ _ ht, hb']
  have hfrom : ∀ sq, (b.set .empty m.fromPos).getPieceTypeAtPosition sq =
      if sq = m.fromPos then .empty else b.getPieceTypeAtPosition sq :=
    fun sq => Board.getPieceTypeAtPosition_set _ _ hf sq
  have hnormal : m.special ≠ .pawnEnPassant → ∀ sq, (b.set .empty m.fromPos).getPieceTypeAtPosition sq =
      if m.Vacates sq then .empty else b.getPieceTypeAtPosition sq := by
    intro hs sq
    rw [hfrom]
    have : m.Vacates sq ↔ sq = m.fromPos := by simp [Move.Vacates, hs]
    simp only [this]
  unfold Move.apply Move.newType
  cases hs : m.special with
  | normalMove | queenPromotion | knightPromotion =>
    exact key _ (hnormal (by rw [hs]; decide)) _
  | kingCastling => exact absurd hs h.notCastling
  | pawnEnPassant =>
    refine key _ (fun sq => ?_) _
    rw [Move.setupEnPassant, Board.getPieceTypeAtPosition_set _ _ (h.enPassant hs).valid_enPassantPos,
      hfrom]
    simp only [Move.Vacates, hs, true_and]
    by_cases h1 : sq = m.fromPos <;> by_cases h2 : sq = m.enPassantPos <;> simp [h1, h2]

theorem get_apply_to (h : Generated b c m) :
    (m.apply b).getPieceTypeAtPosition m.toPos = m.newType := by
  rw [h.get_apply, if_pos rfl]

theorem get_apply_vacated (h : Generated b c m) {sq : Position} (hv : m.Vacates sq) :
    (m.apply b).getPieceTypeAtPosition sq = .empty := by
  rw [h.get_apply, if_neg, if_pos hv]
  rintro rfl
  exact h.not_vacates_to hv

theorem get_apply_other (h : Generated b c m) {sq : Position} (h1 : sq ≠ m.toPos)
    (h2 : ¬ m.Vacates sq) : (m.apply b).getPieceTypeAtPosition sq = b.getPieceTypeAtPosition sq := by
  rw [h.get_apply, if_neg h1, if_neg h2]

/-- **What a move does to the recorded king squares.** -/
theorem kingPosition_apply (h : Generated b c m) (c' : Bool) :
    (m.apply b).kingPosition c' =
      if m.fromType = PieceType.kingOf c' then m.toPos else b.kingPosition c' := by
  have hne : PieceType.empty ≠ PieceType.kingOf c' := by cases c' <;> decide
  have hnew : (m.apply b).kingPosition c' =
      if m.newType = PieceType.kingOf c' then m.toPos else b.kingPosition c' := by
    unfold Move.apply Move.newType
    cases hs : m.special <;> simp only [Board.set_kingPosition, Move.setupEnPassant, if_neg hne]
    exact absurd hs h.notCastling
  rw [hnew]
  simp only [h.newType_eq_kingOf_iff c']

/-- The other side's king square stays recorded. -/
theorem kingPosition_apply_other (h : Generated b c m) :
    (m.apply b).kingPosition (!c) = b.kingPosition (!c) := by
  rw [h.kingPosition_apply, if_neg]
  intro he
  exact h.mover.not_other (he ▸ PieceType.kingOf_hasColor (!c))

/-- A piece of the other side that is there after a move was there before it. -/
theorem other_of_apply (h : Generated b c m) {sq : Position}
    (hc : ((m.apply b).getPieceTypeAtPosition sq).HasColor (!c)) :
    sq ≠ m.toPos ∧ ¬ m.Vacates sq ∧
      b.getPieceTypeAtPosition sq = (m.apply b).getPieceTypeAtPosition sq := by
  have h1 : sq ≠ m.toPos := by
    rintro rfl
    rw [h.get_apply_to] at hc
    exact h.newType_hasColor.not_other hc
  have h2 : ¬ m.Vacates sq := by
    intro hv
    rw [h.get_apply_vacated hv] at hc
    exact PieceType.not_hasColor_empty _ hc
  exact ⟨h1, h2, (h.get_apply_other h1 h2).symm⟩

end Generated
end Effect

/-! ## Kings -/

/-- The recorded king squares are the squares of the only two kings. -/
def KingsOk (b : Board) : Prop :=
  ∀ c sq, b.getPieceTypeAtPosition sq = PieceType.kingOf c ↔ sq = b.kingPosition c

/-- A king that is on the board stands on the square recorded for it. -/
def KingsRecorded (b : Board) : Prop :=
  ∀ c sq, b.getPieceTypeAtPosition sq = PieceType.kingOf c → sq = b.kingPosition c

section Kings
variable {b : Board} {c : Bool} {m : Move}

theorem KingsOk.recorded (h : KingsOk b) : KingsRecorded b := fun c sq => (h c sq).mp

/-- Every move, also one that takes a king, keeps the kings on their recorded squares. -/
theorem KingsRecorded.apply (h : KingsRecorded b) (hg : Generated b c m) :
    KingsRecorded (m.apply b) := by
  intro c' sq hsq
  have hne : PieceType.empty ≠ PieceType.kingOf c' := by cases c' <;> decide
  rw [hg.get_apply] at hsq
  rw [hg.kingPosition_apply]
  by_cases h1 : sq = m.toPos
  · rw [if_pos h1, hg.newType_eq_kingOf_iff] at hsq
    rw [if_pos hsq]
    exact h1
  · rw [if_neg h1] at hsq
    by_cases h2 : m.Vacates sq
    · rw [if_pos h2] at hsq
      exact absurd hsq hne
    · rw [if_neg h2] at hsq
      have hold := h c' sq hsq
      rw [if_neg]
      · exact hold
      · intro hfrom
        have hsrc := h c' m.fromPos (hg.fromType_eq ▸ hfrom)
        exact h2 (Or.inl (hold.trans hsrc.symm))

theorem KingsOk.get_king (h : KingsOk b) (c : Bool) :
    b.getPieceTypeAtPosition (b.kingPosition c) = PieceType.kingOf c := (h c _).mpr rfl

theorem KingsOk.valid_king (h : KingsOk b) (c : Bool) :
    isValidPosition (b.kingPosition c) = true := by
  refine @Board.valid_of_ne_empty b _ ?_
  rw [h.get_king]
  exact (PieceType.kingOf_hasColor c).1

/-- **A move that takes no king keeps the kings where they are recorded.** -/
theorem KingsOk.apply (h : KingsOk b) (hg : Generated b c m)
    (hk : m.toType ≠ PieceType.kingOf (!c)) : KingsOk (m.apply b) := by
  intro c' sq
  have hto : m.toPos ≠ b.kingPosition c' := by
    intro he
    have hking : m.toType = PieceType.kingOf c' := by rw [hg.toType_eq, he, h.get_king]
    by_cases hc : c' = c
    · subst hc
      exact hg.target (hking ▸ PieceType.kingOf_hasColor c')
    · obtain rfl : c' = !c := by cases c <;> cases c' <;> simp_all
      exact hk hking
  have hne : PieceType.empty ≠ PieceType.kingOf c' := by cases c' <;> decide
  rw [hg.kingPosition_apply, hg.get_apply]
  by_cases hfrom : m.fromType = PieceType.kingOf c'
  · -- the king itself moves
    have hsrc : m.fromPos = b.kingPosition c' := (h c' _).mp (hg.fromType_eq ▸ hfrom)
    rw [if_pos hfrom]
    by_cases h1 : sq = m.toPos
    · rw [if_pos h1]
      exact iff_of_true ((hg.newType_eq_kingOf_iff c').mpr hfrom) h1
    · rw [if_neg h1]
      refine iff_of_false ?_ h1
      by_cases h2 : m.Vacates sq
      · rw [if_pos h2]; exact hne
      · rw [if_neg h2, h c' sq, ← hsrc]
        exact fun he => h2 (Or.inl he)
  · rw [if_neg hfrom]
    by_cases h1 : sq = m.toPos
    · rw [if_pos h1]
      refine iff_of_false ?_ (h1 ▸ hto)
      rw [hg.newType_eq_kingOf_iff]
      exact hfrom
    · rw [if_neg h1]
      by_cases h2 : m.Vacates sq
      · rw [if_pos h2]
        refine iff_of_false hne ?_
        rw [← h c' sq]
        rcases hg.vacated h2 with rfl | ⟨-, -, hpawn⟩
        · rw [← hg.fromType_eq]; exact hfrom
        · rw [hpawn]
          clear * -
          revert c c'
          decide
      · rw [if_neg h2]
        exact h c' sq

/-- **Taking a move back restores the board**, with its king squares. -/
theorem KingsRecorded.undo_apply (h : KingsRecorded b) (hg : Generated b c m) :
    m.undo (m.apply b) = b := by
  have hf := hg.validFrom
  have ht := hg.validTo
  -- the squares, before a pawn taken en passant is put back
  have hsq : ∀ sq, (((m.apply b).set m.toType m.toPos).set m.fromType m.fromPos).getPieceTypeAtPosition
      sq = if m.special = .pawnEnPassant ∧ sq = m.enPassantPos then .empty
        else b.getPieceTypeAtPosition sq := by
    intro sq
    rw [Board.getPieceTypeAtPosition_set _ _ hf, Board.getPieceTypeAtPosition_set _ _ ht, hg.get_apply]
    by_cases h1 : sq = m.fromPos
    · rw [if_pos h1, if_neg, h1, hg.fromType_eq]
      rintro ⟨hs, h2⟩
      exact (hg.enPassantPos_ne hs).1 (h2 ▸ h1)
    · rw [if_neg h1]
      by_cases h2 : sq = m.toPos
      · rw [if_pos h2, if_neg, h2, hg.toType_eq]
        rintro ⟨hs, h3⟩
        exact (hg.enPassantPos_ne hs).2 (h3 ▸ h2)
      · rw [if_neg h2, if_neg h2]
        simp only [Move.Vacates, h1, false_or]
  have hking : ∀ c', (((m.apply b).set m.toType m.toPos).set m.fromType m.fromPos).kingPosition c' =
      b.kingPosition c' := by
    intro c'
    rw [Board.set_kingPosition, Board.set_kingPosition, hg.kingPosition_apply]
    by_cases h1 : m.fromType = PieceType.kingOf c'
    · rw [if_pos h1]
      exact h c' _ (hg.fromType_eq ▸ h1)
    · rw [if_neg h1, if_neg h1]
      by_cases h2 : m.toType = PieceType.kingOf c'
      · rw [if_pos h2]
        exact h c' _ (hg.toType_eq ▸ h2)
      · rw [if_neg h2]
  have hrest : (((m.apply b).set m.toType m.toPos).set m.fromType m.fromPos).score = b.score ∧
      (((m.apply b).set m.toType m.toPos).set m.fromType m.fromPos).lastMove = b.lastMove := by
    unfold Move.apply
    cases hs : m.special <;> simp [Move.setupEnPassant, Move.setupCastling]
  unfold Move.undo
  cases hs : m.special with
  | normalMove | queenPromotion | knightPromotion =>
    refine Board.ext_get (fun sq => ?_) hking hrest.1 hrest.2
    rw [hsq, if_neg (by rw [hs]; simp)]
  | kingCastling => exact absurd hs hg.notCastling
  | pawnEnPassant =>
    have he := hg.enPassant hs
    have hpawn : m.undoEnPassant (((m.apply b).set m.toType m.toPos).set m.fromType m.fromPos) =
        (((m.apply b).set m.toType m.toPos).set m.fromType m.fromPos).set (PieceType.pawnOf (!c))
          m.enPassantPos := by
      unfold Move.undoEnPassant Move.enPassantPos
      rw [he.fromType_eq]
      cases c <;> rfl
    show m.undoEnPassant _ = b
    rw [hpawn]
    refine Board.ext_get (fun sq => ?_) (fun c' => ?_) ?_ ?_
    · rw [Board.getPieceTypeAtPosition_set _ _ he.valid_enPassantPos, hsq]
      by_cases h1 : sq = m.enPassantPos
      · rw [if_pos h1, h1, he.enPassantPos_eq, he.captured]
      · rw [if_neg h1, if_neg (fun h2 => h1 h2.2)]
    · rw [Board.set_kingPosition, if_neg, hking]
      clear * -
      revert c c'
      decide
    · rw [Board.set_score, hrest.1]
    · rw [Board.set_lastMove, hrest.2]

end Kings

/-! ## The last move -/

/-- Nothing has moved yet. -/
structure NoLastMove (b : Board) : Prop where
  fromType_eq : b.lastMove.fromType = .empty
  notValidTo : ¬ isValidPosition b.lastMove.toPos = true
  notCastling : b.lastMove.special ≠ .kingCastling

/-- The board came from another one by the last move, on which the side that is
to move now was not attacked. -/
structure MadeFrom (b₀ b : Board) (c : Bool) : Prop where
  generated : Generated b₀ (!c) b.lastMove
  notAttacked : b₀.isChecked c = false
  made : b = b₀.makeMove b.lastMove

/-- With `c` to move, the last move is one that really was made. -/
def LastMoveOk (b : Board) (c : Bool) : Prop := NoLastMove b ∨ ∃ b₀, MadeFrom b₀ b c

/-- The board came from another one by the last move, a move of side `c`. -/
structure MadeBy (b₀ b : Board) (c : Bool) : Prop where
  generated : Generated b₀ c b.lastMove
  made : b = b₀.makeMove b.lastMove

/-- A last move that looks like a double step of a pawn was one: the pawn stands
where it ended, and the square that it skipped is empty. -/
def Board.DoubleStepOk (b : Board) : Prop :=
  ∀ c, b.lastMove.fromType = PieceType.pawnOf (!c) → b.lastMove.fromPos.1 = pawnStart (!c) →
    b.lastMove.toPos.1 = enPassantRow c →
    b.lastMove.toPos.2 = b.lastMove.fromPos.2 ∧
      b.getPieceTypeAtPosition b.lastMove.toPos = PieceType.pawnOf (!c) ∧
      b.getPieceTypeAtPosition (enPassantRow c + pawnDir c, b.lastMove.fromPos.2) = .empty

namespace MadeBy
variable {b₀ b : Board} {c : Bool}

theorem get_eq (h : MadeBy b₀ b c) (sq : Position) :
    b.getPieceTypeAtPosition sq = (b.lastMove.apply b₀).getPieceTypeAtPosition sq := by
  conv_lhs => rw [h.made]
  rw [Board.makeMove_getPieceTypeAtPosition]

theorem get_to (h : MadeBy b₀ b c) :
    b.getPieceTypeAtPosition b.lastMove.toPos = b.lastMove.newType := by
  rw [h.get_eq, h.generated.get_apply_to]

/-- After a double step the pawn stands two rows on, with an empty square behind it. -/
theorem doubleStep (h : MadeBy b₀ b (!c)) (htype : b.lastMove.fromType = PieceType.pawnOf (!c))
    (hfrom : b.lastMove.fromPos.1 = pawnStart (!c)) (hto : b.lastMove.toPos.1 = enPassantRow c) :
    b.lastMove.toPos.2 = b.lastMove.fromPos.2 ∧
      b.getPieceTypeAtPosition b.lastMove.toPos = PieceType.pawnOf (!c) ∧
      b.getPieceTypeAtPosition (enPassantRow c + pawnDir c, b.lastMove.fromPos.2) = .empty := by
  have hrow : enPassantRow c = pawnStart (!c) + 2 * pawnDir (!c) := by cases c <;> rfl
  have hmid : enPassantRow c + pawnDir c = pawnStart (!c) + pawnDir (!c) := by cases c <;> rfl
  obtain ⟨hs, hcol, -, hempty⟩ := h.generated.doubleStep htype (by rw [hto, hfrom, hrow])
  refine ⟨hcol, ?_, ?_⟩
  · rw [h.get_to, Move.newType, hs]
    exact htype
  · rw [hmid, ← hfrom, h.get_eq, h.generated.get_apply_other]
    · exact hempty
    · intro he
      have h1 : b.lastMove.fromPos.1 + pawnDir (!c) = b.lastMove.toPos.1 := congrArg Prod.fst he
      rw [hto, hfrom, ← hmid] at h1
      clear * - h1
      revert c
      decide
    · rintro (he | ⟨hs', -⟩)
      · have h1 : b.lastMove.fromPos.1 + pawnDir (!c) = b.lastMove.fromPos.1 := congrArg Prod.fst he
        clear * - h1
        cases c <;> simp [pawnDir] at h1
      · rw [hs] at hs'; cases hs'

end MadeBy

namespace MadeFrom
variable {b₀ b : Board} {c : Bool}

theorem madeBy (h : MadeFrom b₀ b c) : MadeBy b₀ b (!c) := ⟨h.generated, h.made⟩

theorem kingPosition_eq (h : MadeFrom b₀ b c) : b.kingPosition c = b₀.kingPosition c := by
  have hk := h.generated.kingPosition_apply_other
  rw [Bool.not_not] at hk
  rw [← hk]
  conv_lhs => rw [h.made]
  rw [Board.makeMove_kingPosition]

end MadeFrom

theorem NoLastMove.doubleStepOk {b : Board} (h : NoLastMove b) : b.DoubleStepOk := by
  intro c htype
  rw [h.fromType_eq] at htype
  exact absurd htype.symm (pawnOf_hasColor (!c)).1

theorem MadeBy.doubleStepOk {b₀ b : Board} {c : Bool} (h : MadeBy b₀ b c) : b.DoubleStepOk := by
  intro c' htype hfrom hto
  -- the pawn that stepped twice is of the side that has moved
  obtain rfl : c = !c' := h.generated.mover.2.symm.trans (htype ▸ (pawnOf_hasColor (!c')).2)
  exact h.doubleStep htype hfrom hto

theorem LastMoveOk.doubleStepOk {b : Board} {c : Bool} (h : LastMoveOk b c) : b.DoubleStepOk := by
  rcases h with h | ⟨b₀, h⟩
  · exact h.doubleStepOk
  · exact h.madeBy.doubleStepOk

/-- A one-step pawn move, forward or to a side, is promoted exactly on the last row. -/
theorem exists_of_mem_pawnAddMove {c : Bool} {p : Piece} {b : Board} {newPos : Position} {m : Move}
    (h : m ∈ pawnAddMove c p b newPos) :
    ∃ special, m = Move.ofBoard b special p.position newPos ∧ special ≠ .kingCastling ∧
      special ≠ .pawnEnPassant ∧
      ((special = .queenPromotion ∨ special = .knightPromotion) ↔ newPos.1 = lastRow c) := by
  rcases mem_pawnAddMove.mp h with ⟨hl, rfl⟩ | ⟨hl, rfl | rfl⟩
  · exact ⟨.normalMove, rfl, by decide, by decide, by simp [hl]⟩
  · exact ⟨.queenPromotion, rfl, by decide, by decide, by simp [hl]⟩
  · exact ⟨.knightPromotion, rfl, by decide, by decide, by simp [hl]⟩

section OfMem
variable {b : Board} {c : Bool} {pos : Position}

/-- A move to an attacked or an empty square, of a piece other than a pawn. -/
theorem generated_piece {tgt : Position} (hc : (b.getPieceTypeAtPosition pos).HasColor c)
    (hpawn : b.getPieceTypeAtPosition pos ≠ PieceType.pawnOf c) (hv : isValidPosition tgt = true)
    (ht : ¬ (b.getPieceTypeAtPosition tgt).HasColor c)
    (ha : Piece.canAttack ⟨b.getPieceTypeAtPosition pos, pos⟩ b tgt = true) :
    Generated b c (Move.ofBoard b .normalMove pos tgt) where
  fromType_eq := rfl
  toType_eq := rfl
  mover := hc
  target := ht
  validTo := hv
  notCastling h := by cases h
  pawnPromoted h := by rcases h with h | h <;> cases h
  promoted h := absurd h hpawn
  attacks _ := ha
  doubleStep h := absurd h hpawn
  enPassant h := by cases h

/-- One step of a pawn. -/
theorem generated_pawnStep {col : Int} {m : Move}
    (hpawn : b.getPieceTypeAtPosition pos = PieceType.pawnOf c)
    (hv : isValidPosition (pos.1 + pawnDir c, col) = true)
    (ht : ¬ (b.getPieceTypeAtPosition (pos.1 + pawnDir c, col)).HasColor c)
    (ha : b.getPieceTypeAtPosition (pos.1 + pawnDir c, col) ≠ .empty →
      Piece.canAttack ⟨b.getPieceTypeAtPosition pos, pos⟩ b (pos.1 + pawnDir c, col) = true)
    (hm : m ∈ pawnAddMove c ⟨PieceType.pawnOf c, pos⟩ b (pos.1 + pawnDir c, col)) :
    Generated b c m := by
  obtain ⟨special, rfl, hnc, hne, hprom⟩ := exists_of_mem_pawnAddMove hm
  have hd : pos.1 + pawnDir c ≠ pos.1 + 2 * pawnDir c := by cases c <;> simp [pawnDir]
  exact
    { fromType_eq := rfl
      toType_eq := rfl
      mover := hpawn.symm ▸ pawnOf_hasColor c
      target := ht
      validTo := hv
      notCastling := hnc
      pawnPromoted := fun _ => hpawn
      promoted := fun _ h => hprom.mpr h
      attacks := ha
      doubleStep := fun _ h => absurd h hd
      enPassant := fun h => absurd h hne }

/-- Two steps of a pawn from its first row. -/
theorem generated_pawnDouble (hpawn : b.getPieceTypeAtPosition pos = PieceType.pawnOf c)
    (hrow : pos.1 = pawnStart c) (hmid : b.Free (pos.1 + pawnDir c, pos.2))
    (hto : b.Free (pos.1 + 2 * pawnDir c, pos.2))
    (hv : isValidPosition (pos.1 + 2 * pawnDir c, pos.2) = true) :
    Generated b c (Move.ofBoard b .normalMove pos (pos.1 + 2 * pawnDir c, pos.2)) where
  fromType_eq := rfl
  toType_eq := rfl
  mover := by
    show (b.getPieceTypeAtPosition pos).HasColor c
    rw [hpawn]; exact pawnOf_hasColor c
  target := by
    show ¬ (b.getPieceTypeAtPosition _).HasColor c
    rw [show b.getPieceTypeAtPosition (pos.1 + 2 * pawnDir c, pos.2) = .empty from hto]
    exact PieceType.not_hasColor_empty c
  validTo := hv
  notCastling h := by cases h
  pawnPromoted h := by rcases h with h | h <;> cases h
  promoted _ h := by
    have h' : pos.1 + 2 * pawnDir c = lastRow c := h
    rw [hrow] at h'
    exact absurd h' (by cases c <;> decide)
  attacks h := absurd hto h
  doubleStep _ _ := ⟨rfl, rfl, hto, hmid⟩
  enPassant h := by cases h

/-- An en passant capture, after a double step that was really made. -/
theorem generated_enPassant (hl : b.DoubleStepOk)
    (hpawn : b.getPieceTypeAtPosition pos = PieceType.pawnOf c) (hrow : pos.1 = enPassantRow c)
    (htype : b.lastMove.fromType = PieceType.pawnOf (!c))
    (hfrom : b.lastMove.fromPos.1 = pawnStart (!c)) (hto : b.lastMove.toPos.1 = enPassantRow c)
    (hcol : |b.lastMove.fromPos.2 - pos.2| = 1) :
    Generated b c
      (Move.ofBoard b .pawnEnPassant pos (pos.1 + pawnDir c, b.lastMove.fromPos.2)) := by
  obtain ⟨hsame, hcap, hempty⟩ := hl c htype hfrom hto
  have hlast : b.lastMove.toPos = (enPassantRow c, b.lastMove.fromPos.2) :=
    Prod.ext hto hsame
  have htgt : b.getPieceTypeAtPosition (pos.1 + pawnDir c, b.lastMove.fromPos.2) = .empty := by
    rw [hrow]; exact hempty
  have hvlast : isValidPosition b.lastMove.toPos = true :=
    Board.valid_of_ne_empty (hcap ▸ (pawnOf_hasColor (!c)).1)
  exact
    { fromType_eq := rfl
      toType_eq := rfl
      mover := by
        show (b.getPieceTypeAtPosition pos).HasColor c
        rw [hpawn]; exact pawnOf_hasColor c
      target := by
        show ¬ (b.getPieceTypeAtPosition _).HasColor c
        rw [htgt]; exact PieceType.not_hasColor_empty c
      validTo := by
        rw [hlast, isValidPosition_iff] at hvlast
        show isValidPosition (pos.1 + pawnDir c, b.lastMove.fromPos.2) = true
        rw [hrow, isValidPosition_iff]
        refine ⟨?_, hvlast.2⟩
        show 0 ≤ enPassantRow c + pawnDir c ∧ enPassantRow c + pawnDir c < 8
        cases c <;> decide
      notCastling := fun h => by cases h
      pawnPromoted := fun _ => hpawn
      promoted := fun _ h => by
        have h' : pos.1 + pawnDir c = lastRow c := h
        rw [hrow] at h'
        exact absurd h' (by cases c <;> decide)
      attacks := fun h => absurd htgt h
      doubleStep := fun _ h => by
        have h' : pos.1 + pawnDir c = pos.1 + 2 * pawnDir c := h
        clear * - h'
        cases c <;> simp [pawnDir] at h'
      enPassant := fun _ =>
        { fromType_eq := hpawn
          fromRow := hrow
          toRow := by rw [← hrow]; rfl
          beside := hcol
          toEmpty := htgt
          lastType := htype
          lastFrom := by
            refine Prod.ext ?_ rfl
            rw [hfrom]
            cases c <;> rfl
          lastTo := hlast
          captured := by
            show b.getPieceTypeAtPosition (enPassantRow c, b.lastMove.fromPos.2) = _
            rw [← hlast]; exact hcap } }

end OfMem

/-- **Every move that the generators give is as `Generated` says**, when a last move
that looks like a double step was one. -/
theorem Board.DoubleStepOk.generated {flags : Flags} {b : Board} {c : Bool} (hl : b.DoubleStepOk)
    {p : Piece} (hp : p ∈ b.piecesOf c) {m : Move} (hm : m ∈ p.getMoves flags b) :
    Generated b c m := by
  obtain ⟨hon, hc⟩ := Board.mem_piecesOf.mp hp
  obtain ⟨type, pos⟩ := p
  obtain rfl : type = b.getPieceTypeAtPosition pos := hon.symm
  by_cases hpawn : b.getPieceTypeAtPosition pos = PieceType.pawnOf c
  · rw [hpawn] at hm
    have hpos : isValidPosition pos = true := Board.valid_of_ne_empty hc.1
    rcases mem_getMoves_pawn.mp hm with ⟨hf, hv, hm⟩ | ⟨hr, hf, hf2, hv, rfl⟩ |
      ⟨col, hcol, hcap, hm⟩ | ⟨h1, h2, h3, h4, h5, rfl⟩
    · refine generated_pawnStep hpawn hv ?_ (fun h => absurd hf h) hm
      rw [show b.getPieceTypeAtPosition (pos.1 + pawnDir c, pos.2) = .empty from hf]
      exact PieceType.not_hasColor_empty c
    · exact generated_pawnDouble hpawn hr hf hf2 hv
    · have hv := Board.valid_of_ne_empty hcap.1
      refine generated_pawnStep hpawn hv (fun h => h.not_other hcap) (fun _ => ?_) hm
      rw [canAttack_iff hpos hv, hpawn, leaps_iff]
      left
      rcases hcol with rfl | rfl <;> cases c <;> simp [PieceType.leaps, PieceType.pawnOf, pawnDir]
    · exact generated_enPassant hl hpawn h1 h2 h3 h4 h5
  · obtain ⟨tgt, hv, ht, ha, rfl⟩ := (mem_getMoves_of_not_pawn hc rfl hpawn).mp hm
    exact generated_piece hc hpawn hv ht ha

theorem generated_of_mem {flags : Flags} {b : Board} {c : Bool} (hl : LastMoveOk b c) {p : Piece}
    (hp : p ∈ b.piecesOf c) {m : Move} (hm : m ∈ p.getMoves flags b) : Generated b c m :=
  hl.doubleStepOk.generated hp hm

/-! ## Playable boards -/

theorem Board.get_congr_positions {b b' : Board} (h : b.positions = b'.positions) (sq : Position) :
    b.getPieceTypeAtPosition sq = b'.getPieceTypeAtPosition sq := by
  cases b; cases b'
  cases h
  rfl

/-- What `canAttack` reads of the board is `positions_`. -/
theorem canAttack_congr_positions {b b' : Board} (h : b.positions = b'.positions) (p : Piece)
    (tgt : Position) : p.canAttack b tgt = p.canAttack b' tgt := by
  have hempty : ∀ sq, b.isEmpty sq = b'.isEmpty sq := by
    intro sq
    rw [Board.isEmpty, Board.isEmpty, Board.get_congr_positions h]
  have hline : ∀ src step, Piece.checkCanAttackLine b src tgt step =
      Piece.checkCanAttackLine b' src tgt step := by
    intro src step
    simp only [Piece.checkCanAttackLine, hempty]
  unfold Piece.canAttack
  cases p.type <;>
    simp only [Queen.canAttack, Rook.canAttack, Bishop.canAttack, hline]

section Placement
variable {flags : Flags} {b b' : Board} {c : Bool}

theorem Move.ofBoard_congr (hpos : b.positions = b'.positions) (special : SpecialType)
    (src tgt : Position) : Move.ofBoard b special src tgt = Move.ofBoard b' special src tgt := by
  simp only [Move.ofBoard, Board.get_congr_positions hpos]

/-- What is generated apart from en passant depends on the placement only. -/
theorem mem_getMoves_congr (hpos : b.positions = b'.positions) {p : Piece} (hp : p ∈ b.piecesOf c)
    {m : Move} (hs : m.special ≠ .pawnEnPassant) (hm : m ∈ p.getMoves flags b) :
    m ∈ p.getMoves flags b' := by
  obtain ⟨hon, hc⟩ := Board.mem_piecesOf.mp hp
  have hget := Board.get_congr_positions hpos
  have hfree : ∀ sq, b.Free sq → b'.Free sq := fun sq h => (hget sq).symm.trans h
  by_cases hpawn : p.type = PieceType.pawnOf c
  · obtain ⟨type, pos⟩ := p
    obtain rfl : type = PieceType.pawnOf c := hpawn
    have hadd : ∀ tgt, pawnAddMove c ⟨PieceType.pawnOf c, pos⟩ b tgt =
        pawnAddMove c ⟨PieceType.pawnOf c, pos⟩ b' tgt := by
      intro tgt
      simp only [pawnAddMove, Move.ofBoard_congr hpos]
    rw [mem_getMoves_pawn] at hm ⊢
    rcases hm with ⟨hf, hv, hm⟩ | ⟨hr, hf, hf2, hv, rfl⟩ | ⟨col, hcol, henemy, hm⟩ |
      ⟨-, -, -, -, -, rfl⟩
    · exact Or.inl ⟨hfree _ hf, hv, hadd _ ▸ hm⟩
    · exact Or.inr (Or.inl ⟨hr, hfree _ hf, hfree _ hf2, hv, Move.ofBoard_congr hpos _ _ _⟩)
    · exact Or.inr (Or.inr (Or.inl ⟨col, hcol, hget _ ▸ henemy, hadd _ ▸ hm⟩))
    · exact absurd rfl hs
  · rw [mem_getMoves_of_not_pawn hc hon hpawn] at hm
    rw [mem_getMoves_of_not_pawn hc ((hget _).symm.trans hon) hpawn]
    obtain ⟨tgt, hv, hown, ha, rfl⟩ := hm
    refine ⟨tgt, hv, hget tgt ▸ hown, ?_, Move.ofBoard_congr hpos _ _ _⟩
    rw [← canAttack_congr_positions hpos]
    exact ha

end Placement

theorem Board.makeMove_isChecked (b : Board) (m : Move) (c : Bool) :
    (b.makeMove m).isChecked c = (m.apply b).isChecked c := by
  have ha : ∀ p tgt, Piece.canAttack p (b.makeMove m) tgt = Piece.canAttack p (m.apply b) tgt :=
    fun p tgt => canAttack_congr_positions rfl p tgt
  rw [Bool.eq_iff_iff, isChecked_iff, isChecked_iff]
  simp only [ha, makeMove_getPieceTypeAtPosition, makeMove_kingPosition]

/-- A king that is not attacked is not taken. -/
theorem KingsOk.not_takes_king {b : Board} {c : Bool} {m : Move} (h : KingsOk b)
    (hn : b.isChecked (!c) = false) (hg : Generated b c m) : m.toType ≠ PieceType.kingOf (!c) := by
  intro hk
  have hto : m.toPos = b.kingPosition (!c) := (h (!c) _).mp (hg.toType_eq ▸ hk)
  have hcheck : b.isChecked (!c) = true := by
    rw [Board.isChecked_iff]
    refine ⟨m.fromPos, ?_, ?_⟩
    · rw [Bool.not_not, ← hg.fromType_eq]; exact hg.mover
    · rw [← hg.fromType_eq, ← hto]
      exact hg.attacks (hk ▸ (PieceType.kingOf_hasColor (!c)).1)
  rw [hn] at hcheck
  cases hcheck

/-- **A board that play reaches**, with `c` to move. -/
structure Playable (b : Board) (c : Bool) : Prop where
  kings : KingsOk b
  notAttacked : b.isChecked (!c) = false
  last : LastMoveOk b c

namespace Playable
variable {flags : Flags} {b : Board} {c : Bool} {m : Move}

theorem not_takes_king (h : Playable b c) (hg : Generated b c m) :
    m.toType ≠ PieceType.kingOf (!c) := h.kings.not_takes_king h.notAttacked hg

theorem generated (h : Playable b c) (hl : b.IsLegal flags c m) : Generated b c m := by
  obtain ⟨p, hp, hm, -⟩ := hl
  exact generated_of_mem h.last hp hm

theorem kings_apply (h : Playable b c) (hg : Generated b c m) : KingsOk (m.apply b) :=
  h.kings.apply hg (h.not_takes_king hg)

/-- **A legal move leads from a playable board to a playable board.** -/
theorem makeMove (h : Playable b c) (hl : b.IsLegal flags c m) : Playable (b.makeMove m) (!c) := by
  have hg := h.generated hl
  obtain ⟨-, -, -, hsafe⟩ := hl
  refine ⟨?_, ?_, Or.inr ⟨b, ?_, h.notAttacked, rfl⟩⟩
  · intro c' sq
    exact h.kings_apply hg c' sq
  · rw [Bool.not_not]; exact hsafe
  · rw [Bool.not_not]; exact hg

/-- After a reply the first side is to move again. -/
theorem reply (h : Playable b (!c)) (hl : b.IsLegal flags (!c) m) : Playable (b.makeMove m) c := by
  have hm := h.makeMove hl
  rw [Bool.not_not] at hm
  exact hm

end Playable

/-! ## Boards from a file -/

/-- While lines are read: no last move, and each colour has no king or its recorded one. -/
structure Loading (b : Board) : Prop where
  lastMove_eq : b.lastMove = Move.none
  score_eq : b.score = 0
  kings : ∀ c, (b.kingPosition c = (-1, -1) ∧ ∀ sq, b.getPieceTypeAtPosition sq ≠ PieceType.kingOf c) ∨
    ∀ sq, b.getPieceTypeAtPosition sq = PieceType.kingOf c ↔ sq = b.kingPosition c

theorem Loading.cleared : Loading Board.cleared where
  lastMove_eq := rfl
  score_eq := rfl
  kings c := by
    refine Or.inl ⟨by cases c <;> rfl, fun sq => ?_⟩
    have : Board.cleared.getPieceTypeAtPosition sq = .empty := by
      simp [Board.getPieceTypeAtPosition, Board.cleared]
    rw [this]
    cases c <;> decide

/-- A piece is added to an empty square, and a king only as the first of its colour. -/
theorem Loading.add {b : Board} (h : Loading b) {type : PieceType} {pos : Position}
    (hv : isValidPosition pos = true) (he : b.getPieceTypeAtPosition pos = .empty)
    (hnew : ∀ c, type = PieceType.kingOf c → b.kingPosition c = (-1, -1)) :
    Loading (b.add type pos) := by
  refine ⟨h.lastMove_eq ▸ Board.set_lastMove _ _ _, h.score_eq ▸ Board.set_score _ _ _,
    fun c => ?_⟩
  simp only [Board.add, Board.getPieceTypeAtPosition_set _ _ hv, Board.set_kingPosition]
  have hempty : PieceType.empty ≠ PieceType.kingOf c := by cases c <;> decide
  by_cases ht : type = PieceType.kingOf c
  · right
    intro sq
    rw [if_pos ht]
    by_cases hsq : sq = pos
    · rw [if_pos hsq]; exact iff_of_true ht hsq
    · rw [if_neg hsq]
      refine iff_of_false ?_ hsq
      rcases h.kings c with ⟨-, hk⟩ | hk
      · exact hk sq
      · intro hking
        have hinv := (hk (-1, -1)).mpr (hnew c ht).symm
        exact hempty hinv
  · rw [if_neg ht]
    have hcell : ∀ sq, (if sq = pos then type else b.getPieceTypeAtPosition sq) =
        PieceType.kingOf c ↔ b.getPieceTypeAtPosition sq = PieceType.kingOf c := by
      intro sq
      by_cases hsq : sq = pos
      · rw [if_pos hsq, hsq, he]; exact iff_of_false ht hempty
      · rw [if_neg hsq]
    simp only [ne_eq, hcell]
    exact h.kings c

theorem Loading.loadLine {b b' : Board} {line : List UInt8} (h : Loading b)
    (hl : b.loadLine line = some b') : Loading b' := by
  unfold Board.loadLine at hl
  split_ifs at hl with h0
  · cases hl; exact h
  split at hl
  case h_2 => cases hl
  case h_1 =>
    split at hl
    case h_1 => cases hl
    case h_2 type _ =>
      dsimp only at hl
      split_ifs at hl with h1 h2 h3 h4
      cases hl
      rw [Bool.not_eq_true, Bool.not_eq_false'] at h1 h2
      refine h.add h1 (Board.isEmpty_iff.mp h2) ?_
      rintro c rfl
      rw [Bool.and_eq_true, decide_eq_true_eq, decide_eq_true_eq] at h3 h4
      cases c
      · exact not_not.mp fun hne => h4 ⟨rfl, hne⟩
      · exact not_not.mp fun hne => h3 ⟨rfl, hne⟩

theorem Loading.foldlM : ∀ (lines : List (List UInt8)) {b b' : Board}, Loading b →
    lines.foldlM Board.loadLine b = some b' → Loading b' := by
  intro lines
  induction lines with
  | nil =>
    intro b b' h hl
    cases hl; exact h
  | cons line lines ih =>
    intro b b' h hl
    rw [List.foldlM_cons, Option.bind_eq_bind, Option.bind_eq_some_iff] at hl
    obtain ⟨b₁, h1, h2⟩ := hl
    exact ih (h.loadLine h1) h2

theorem Board.FileLoaded.loading {b : Board} (h : b.FileLoaded) :
    Loading b ∧ b.blackKing ≠ (-1, -1) ∧ b.whiteKing ≠ (-1, -1) := by
  obtain ⟨file, hf⟩ := h
  unfold Board.load at hf
  split at hf
  case h_1 => cases hf
  case h_2 board hb =>
    have hload := Loading.foldlM _ Loading.cleared hb
    split_ifs at hf with hk
    cases hf
    simp only [ne_eq, decide_not, Bool.and_eq_true, Bool.not_eq_eq_eq_not, Bool.not_true,
      decide_eq_false_iff_not] at hk
    exact ⟨hload, hk⟩

/-- **A board loaded from a file** has one king of each colour, on its recorded
square, and no last move. -/
theorem Board.FileLoaded.kings {b : Board} (h : b.FileLoaded) : KingsOk b ∧ NoLastMove b := by
  obtain ⟨hload, hk⟩ := h.loading
  refine ⟨fun c => ?_, ?_⟩
  · rcases hload.kings c with ⟨hno, -⟩ | h
    · cases c
      · exact absurd hno hk.2
      · exact absurd hno hk.1
    · exact h
  · have hl := hload.lastMove_eq
    refine ⟨?_, ?_, ?_⟩ <;> rw [hl] <;> decide

/-- A loaded board is playable for the side that moves first when the other side
is not attacked. -/
theorem Board.FileLoaded.playable {b : Board} (h : b.FileLoaded) {c : Bool}
    (hn : b.isChecked (!c) = false) : Playable b c :=
  ⟨h.kings.1, hn, Or.inl h.kings.2⟩

end Chess
