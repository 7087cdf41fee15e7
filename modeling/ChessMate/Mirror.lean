import ChessMate.SearchVerdict

/-! # Colour symmetry

The mirror image of a board has every piece in the other colour and every row
`r` at `7 - r`.  The two pawn classes, the piece lists and the side flags treat
the colours alike: what a piece attacks, what it moves to, what a move makes of
the board and which moves are rejected as circular are mirrored exactly
(`canAttack_mirror`, `mirror_mem_getMoves`, `Board.makeMove_mirror`,
`isCircularMove_mirror`).  So the game and its mirror image have the same forced
mates, and the two searches return the same score (`expand_mirror`).
-/
namespace Chess
open LineWalk MateGame ProgramLogic

/-! ## Mirror images -/

/-- The square with the row reflected. -/
def mirrorPos (pos : Position) : Position := (7 - pos.1, pos.2)

/-- The piece in the other colour. -/
def PieceType.mirror : PieceType → PieceType
  | empty => empty
  | wPawn => bPawn
  | wRook => bRook
  | wKnight => bKnight
  | wKing => bKing
  | wQueen => bQueen
  | wBishop => bBishop
  | bPawn => wPawn
  | bRook => wRook
  | bKnight => wKnight
  | bKing => wKing
  | bQueen => wQueen
  | bBishop => wBishop

def Piece.mirror (p : Piece) : Piece := ⟨p.type.mirror, mirrorPos p.position⟩

def Move.mirror (m : Move) : Move :=
  ⟨m.special, mirrorPos m.fromPos, mirrorPos m.toPos, m.fromType.mirror, m.toType.mirror⟩

/-- **The mirror image of a board.** -/
def Board.mirror (b : Board) : Board :=
  { blackKing := mirrorPos b.whiteKing
    whiteKing := mirrorPos b.blackKing
    positions := fun row col => (b.positions row.rev col).mirror
    score := b.score
    lastMove := b.lastMove.mirror }

@[simp] theorem mirrorPos_mirrorPos (pos : Position) : mirrorPos (mirrorPos pos) = pos := by
  simp [mirrorPos]

@[simp] theorem mirrorPos_inj {pos pos' : Position} : mirrorPos pos = mirrorPos pos' ↔ pos = pos' := by
  constructor
  · intro h
    rw [← mirrorPos_mirrorPos pos, h, mirrorPos_mirrorPos]
  · exact fun h => h ▸ rfl

@[simp] theorem isValidPosition_mirrorPos (pos : Position) :
    isValidPosition (mirrorPos pos) = isValidPosition pos := by
  rw [Bool.eq_iff_iff, isValidPosition_iff, isValidPosition_iff]
  simp only [mirrorPos]
  omega

/-- A line is mirrored to a line with the row offset turned around. -/
theorem mirrorPos_add_smul (src step : Position) (j : ℕ) :
    mirrorPos (src + j • step) = mirrorPos src + j • ((-step.1, step.2) : Position) := by
  refine Prod.ext ?_ ?_
  · rw [fst_add_smul]
    simp only [mirrorPos, fst_add_smul]
    ring
  · rw [snd_add_smul]
    simp only [mirrorPos, snd_add_smul]

namespace PieceType

@[simp] theorem mirror_mirror (type : PieceType) : type.mirror.mirror = type := by
  cases type <;> rfl

theorem mirror_inj {type type' : PieceType} : type.mirror = type'.mirror ↔ type = type' := by
  constructor
  · intro h
    rw [← mirror_mirror type, h, mirror_mirror]
  · exact fun h => h ▸ rfl

@[simp] theorem mirror_eq_empty {type : PieceType} : type.mirror = empty ↔ type = empty := by
  cases type <;> decide

theorem mirror_hasColor {type : PieceType} {c : Bool} :
    type.mirror.HasColor (!c) ↔ type.HasColor c := by
  cases type <;> cases c <;> decide

@[simp] theorem mirror_kingOf (c : Bool) : (kingOf c).mirror = kingOf (!c) := by cases c <;> rfl

@[simp] theorem mirror_pawnOf (c : Bool) : (pawnOf c).mirror = pawnOf (!c) := by cases c <;> rfl

theorem mirror_slideSteps {type : PieceType} {step : DeltaMove} (h : step ∈ type.slideSteps) :
    (-step.1, step.2) ∈ type.mirror.slideSteps := by
  have hall : ∀ step ∈ type.slideSteps, (-step.1, step.2) ∈ type.mirror.slideSteps := by
    cases type <;> decide
  exact hall step h

theorem mirror_leaps {type : PieceType} {delta : DeltaMove} (h : delta ∈ type.leaps) :
    (-delta.1, delta.2) ∈ type.mirror.leaps := by
  have hall : ∀ delta ∈ type.leaps, (-delta.1, delta.2) ∈ type.mirror.leaps := by
    cases type <;> decide
  exact hall delta h

end PieceType

@[simp] theorem Move.mirror_mirror (m : Move) : m.mirror.mirror = m := by
  simp [Move.mirror]

namespace Board
variable {b : Board}

@[simp] theorem mirror_mirror (b : Board) : b.mirror.mirror = b := by
  simp [mirror]

/-- **A square of the mirror image** holds the mirrored piece. -/
theorem get_mirror (b : Board) (sq : Position) :
    b.mirror.getPieceTypeAtPosition (mirrorPos sq) = (b.getPieceTypeAtPosition sq).mirror := by
  unfold getPieceTypeAtPosition
  by_cases hv : isValidPosition sq = true
  · have hv' : isValidPosition (mirrorPos sq) = true := by rw [isValidPosition_mirrorPos]; exact hv
    rw [dif_pos hv, dif_pos hv']
    rw [isValidPosition_iff] at hv
    show (b.positions _ _).mirror = _
    congr 2
    ext
    simp only [Fin.val_rev, mirrorPos]
    omega
  · have hv' : ¬ isValidPosition (mirrorPos sq) = true := by
      rw [isValidPosition_mirrorPos]; exact hv
    rw [dif_neg hv, dif_neg hv']
    rfl

theorem get_mirror' (b : Board) (sq : Position) :
    b.mirror.getPieceTypeAtPosition sq = (b.getPieceTypeAtPosition (mirrorPos sq)).mirror := by
  rw [← get_mirror, mirrorPos_mirrorPos]

theorem free_mirror {sq : Position} : b.mirror.Free (mirrorPos sq) ↔ b.Free sq := by
  unfold Free
  rw [get_mirror, PieceType.mirror_eq_empty]

theorem isEmpty_mirror (b : Board) (sq : Position) :
    b.mirror.isEmpty (mirrorPos sq) = b.isEmpty sq := by
  rw [Bool.eq_iff_iff, isEmpty_iff, isEmpty_iff]
  exact free_mirror

theorem kingPosition_mirror (b : Board) (c : Bool) :
    b.mirror.kingPosition (!c) = mirrorPos (b.kingPosition c) := by
  cases c <;> rfl

end Board

/-! ## Attacks -/

theorem Leaps.mirror {type : PieceType} {src tgt : Position} (h : Leaps type src tgt) :
    Leaps type.mirror (mirrorPos src) (mirrorPos tgt) := by
  obtain ⟨delta, hd, rfl⟩ := h
  refine ⟨_, PieceType.mirror_leaps hd, ?_⟩
  refine Prod.ext ?_ rfl
  simp only [mirrorPos, Prod.fst_add]
  ring

theorem mirror_canAttack {type : PieceType} {b : Board} {src tgt : Position}
    (hsrc : isValidPosition src = true) (htgt : isValidPosition tgt = true)
    (h : Piece.canAttack ⟨type, src⟩ b tgt = true) :
    Piece.canAttack ⟨type.mirror, mirrorPos src⟩ b.mirror (mirrorPos tgt) = true := by
  rw [canAttack_iff (by rwa [isValidPosition_mirrorPos]) (by rwa [isValidPosition_mirrorPos])]
  rcases (canAttack_iff hsrc htgt).mp h with h | ⟨step, hstep, hs⟩
  · exact Or.inl h.mirror
  · refine Or.inr ⟨_, PieceType.mirror_slideSteps hstep, ?_⟩
    exact hs.map (mirrorPos_add_smul src step) fun sq hfree => Board.free_mirror.mpr hfree

/-- **Attacks are mirrored.** -/
theorem canAttack_mirror {type : PieceType} {b : Board} {src tgt : Position}
    (hsrc : isValidPosition src = true) (htgt : isValidPosition tgt = true) :
    Piece.canAttack ⟨type.mirror, mirrorPos src⟩ b.mirror (mirrorPos tgt) =
      Piece.canAttack ⟨type, src⟩ b tgt := by
  rw [Bool.eq_iff_iff]
  constructor
  · intro h
    have h' := mirror_canAttack (by rwa [isValidPosition_mirrorPos])
      (by rwa [isValidPosition_mirrorPos]) h
    rw [PieceType.mirror_mirror, mirrorPos_mirrorPos, mirrorPos_mirrorPos, Board.mirror_mirror] at h'
    exact h'
  · exact mirror_canAttack hsrc htgt

theorem isChecked_mirror {b : Board} (hk : KingsOk b) (c : Bool) :
    b.mirror.isChecked (!c) = b.isChecked c := by
  rw [Bool.eq_iff_iff, Board.isChecked_iff, Board.isChecked_iff, Board.kingPosition_mirror]
  constructor
  · rintro ⟨pos, hc, ha⟩
    have hpos : isValidPosition (mirrorPos pos) = true := by
      rw [isValidPosition_mirrorPos]; exact Board.valid_of_ne_empty hc.1
    rw [Board.get_mirror'] at hc ha
    refine ⟨mirrorPos pos, PieceType.mirror_hasColor.mp hc, ?_⟩
    rw [← canAttack_mirror hpos (hk.valid_king c), mirrorPos_mirrorPos]
    exact ha
  · rintro ⟨pos, hc, ha⟩
    refine ⟨mirrorPos pos, ?_, ?_⟩
    · rw [Board.get_mirror]
      exact PieceType.mirror_hasColor.mpr hc
    · rw [Board.get_mirror, canAttack_mirror (Board.valid_of_ne_empty hc.1) (hk.valid_king c)]
      exact ha

theorem KingsOk.mirror {b : Board} (h : KingsOk b) : KingsOk b.mirror := by
  intro c sq
  have hc := h (!c) (mirrorPos sq)
  rw [Board.get_mirror', ← Bool.not_not c, ← PieceType.mirror_kingOf, PieceType.mirror_inj,
    Board.kingPosition_mirror, hc]
  constructor
  · intro h
    rw [← h, mirrorPos_mirrorPos]
  · intro h
    rw [h, mirrorPos_mirrorPos]

/-! ## Making a move -/

theorem Board.set_mirror (b : Board) (type : PieceType) (pos : Position) :
    b.mirror.set type.mirror (mirrorPos pos) = (b.set type pos).mirror := by
  have hpos : ∀ row col : Fin 8,
      (if (row.val : Int) = 7 - pos.1 ∧ (col.val : Int) = pos.2 then type.mirror
        else (b.positions row.rev col).mirror) =
      (if ((row.rev).val : Int) = pos.1 ∧ (col.val : Int) = pos.2 then type
        else b.positions row.rev col).mirror := by
    intro row col
    have hrev : ((row.rev).val : Int) = 7 - row.val := by
      rw [Fin.val_rev]; omega
    have hiff : ((row.val : Int) = 7 - pos.1 ∧ (col.val : Int) = pos.2) ↔
        (((row.rev).val : Int) = pos.1 ∧ (col.val : Int) = pos.2) := by
      rw [hrev]; omega
    simp only [hiff]
    split_ifs <;> rfl
  have hinternal : b.mirror.setInternal type.mirror (mirrorPos pos) =
      (b.setInternal type pos).mirror := by
    unfold setInternal mirror
    simp only [Board.mk.injEq, true_and, and_true]
    funext row col
    exact hpos row col
  unfold set
  rw [hinternal]
  cases type <;> rfl

/-- Promotions and captures en passant are pawn moves. -/
def Move.PawnSpecial (m : Move) : Prop :=
  m.special ≠ .normalMove → m.fromType = .bPawn ∨ m.fromType = .wPawn

theorem Move.enPassantPos_mirror {m : Move} (h : m.fromType = .bPawn ∨ m.fromType = .wPawn) :
    m.mirror.enPassantPos = mirrorPos m.enPassantPos := by
  unfold Move.enPassantPos
  rcases h with h | h
  · have hm : m.mirror.fromType ≠ .bPawn := by simp [Move.mirror, h, PieceType.mirror]
    rw [if_pos h, if_neg hm]
    refine Prod.ext ?_ rfl
    simp only [Move.mirror, mirrorPos]
    ring
  · have hm : m.mirror.fromType = .bPawn := by simp [Move.mirror, h, PieceType.mirror]
    have hne : m.fromType ≠ .bPawn := by rw [h]; decide
    rw [if_pos hm, if_neg hne]
    refine Prod.ext ?_ rfl
    simp only [Move.mirror, mirrorPos]
    ring

theorem Move.getCastlingRookPos_mirror (m : Move) :
    m.mirror.getCastlingRookPos =
      (mirrorPos m.getCastlingRookPos.1, mirrorPos m.getCastlingRookPos.2) := by
  unfold Move.getCastlingRookPos
  have hto : m.mirror.toPos.2 = m.toPos.2 := rfl
  rw [hto]
  split_ifs <;> rfl

theorem Move.apply_mirror {m : Move} (hm : m.PawnSpecial) (b : Board) :
    m.mirror.apply b.mirror = (m.apply b).mirror := by
  have hset : ∀ (b : Board) (pos : Position), b.mirror.set .empty (mirrorPos pos) =
      (b.set .empty pos).mirror := fun b pos => b.set_mirror .empty pos
  have hfrom : m.mirror.fromPos = mirrorPos m.fromPos := rfl
  have hto : m.mirror.toPos = mirrorPos m.toPos := rfl
  have htype : m.mirror.fromType = m.fromType.mirror := rfl
  have hspecial : m.mirror.special = m.special := rfl
  unfold Move.apply
  dsimp only
  rw [hspecial, hfrom, hto, hset]
  cases hs : m.special with
  | normalMove => exact Board.set_mirror _ _ _
  | queenPromotion =>
    have hqueen : m.mirror.fromType.getSameQueenType = m.fromType.getSameQueenType.mirror := by
      rw [htype]
      rcases hm (by rw [hs]; decide) with h | h <;> rw [h] <;> rfl
    dsimp only
    rw [hqueen, Board.set_mirror]
  | knightPromotion =>
    have hknight : m.mirror.fromType.getSameKnightType = m.fromType.getSameKnightType.mirror := by
      rw [htype]
      rcases hm (by rw [hs]; decide) with h | h <;> rw [h] <;> rfl
    dsimp only
    rw [hknight, Board.set_mirror]
  | pawnEnPassant =>
    dsimp only
    rw [Move.setupEnPassant, Move.setupEnPassant,
      Move.enPassantPos_mirror (hm (by rw [hs]; decide)), hset, htype, Board.set_mirror]
  | kingCastling =>
    dsimp only
    rw [Move.setupCastling, Move.setupCastling, Move.getCastlingRookPos_mirror]
    dsimp only
    rw [Board.get_mirror, hset, Board.set_mirror, htype, Board.set_mirror]

/-- **A move makes the mirror image of the board it makes.** -/
theorem Board.makeMove_mirror {m : Move} (hm : m.PawnSpecial) (b : Board) :
    b.mirror.makeMove m.mirror = (b.makeMove m).mirror := by
  unfold Board.makeMove
  rw [Move.apply_mirror hm]
  rfl

theorem Generated.pawnSpecial {b : Board} {c : Bool} {m : Move} (h : Generated b c m) :
    m.PawnSpecial := by
  have hpawn : m.fromType = PieceType.pawnOf c → m.fromType = .bPawn ∨ m.fromType = .wPawn := by
    intro h
    cases c
    · exact Or.inr h
    · exact Or.inl h
  intro hs
  cases hsp : m.special with
  | normalMove => exact absurd hsp hs
  | queenPromotion => exact hpawn (h.pawnPromoted (Or.inl hsp))
  | knightPromotion => exact hpawn (h.pawnPromoted (Or.inr hsp))
  | pawnEnPassant => exact hpawn (h.enPassant hsp).fromType_eq
  | kingCastling => exact absurd hsp h.notCastling

/-! ## Generated moves -/

theorem Move.ofBoard_mirror (b : Board) (special : SpecialType) (fromPos toPos : Position) :
    (Move.ofBoard b special fromPos toPos).mirror =
      Move.ofBoard b.mirror special (mirrorPos fromPos) (mirrorPos toPos) := by
  simp only [Move.ofBoard, Move.mirror, Board.get_mirror]

theorem mirror_mem_piecesOf {b : Board} {c : Bool} {p : Piece} (h : p ∈ b.piecesOf c) :
    p.mirror ∈ b.mirror.piecesOf (!c) := by
  obtain ⟨hon, hc⟩ := Board.mem_piecesOf.mp h
  refine Board.mem_piecesOf.mpr ⟨?_, PieceType.mirror_hasColor.mpr hc⟩
  show b.mirror.getPieceTypeAtPosition (mirrorPos p.position) = p.type.mirror
  rw [Board.get_mirror, hon]

theorem mirror_mem_pawnAddMove {c : Bool} {p : Piece} {b : Board} {newPos : Position} {m : Move}
    (h : m ∈ pawnAddMove c p b newPos) :
    m.mirror ∈ pawnAddMove (!c) p.mirror b.mirror (mirrorPos newPos) := by
  have hrow : (mirrorPos newPos).1 = lastRow (!c) ↔ newPos.1 = lastRow c := by
    simp only [mirrorPos, lastRow]
    cases c <;> simp only [Bool.not_false, Bool.not_true, if_true, if_false, Bool.false_eq_true] <;>
      omega
  rw [mem_pawnAddMove, ne_eq, hrow]
  rcases mem_pawnAddMove.mp h with ⟨hne, rfl⟩ | ⟨heq, rfl | rfl⟩
  · exact Or.inl ⟨hne, Move.ofBoard_mirror _ _ _ _⟩
  · exact Or.inr ⟨heq, Or.inl (Move.ofBoard_mirror _ _ _ _)⟩
  · exact Or.inr ⟨heq, Or.inr (Move.ofBoard_mirror _ _ _ _)⟩

theorem mirrorPos_pawn (c : Bool) (k row col : Int) :
    mirrorPos (row + k * pawnDir c, col) = (7 - row + k * pawnDir (!c), col) := by
  have hdir : pawnDir (!c) = -pawnDir c := by cases c <;> rfl
  refine Prod.ext ?_ rfl
  simp only [mirrorPos, hdir]
  ring

theorem mirrorPos_pawn_one (c : Bool) (row col : Int) :
    mirrorPos (row + pawnDir c, col) = (7 - row + pawnDir (!c), col) := by
  have h := mirrorPos_pawn c 1 row col
  rw [one_mul, one_mul] at h
  exact h

/-- A pawn's moves are mirrored: the constants of the two classes correspond. -/
theorem mirror_mem_getMoves_pawn {flags : Flags} {c : Bool} {pos : Position} {b : Board} {m : Move}
    (h : m ∈ Piece.getMoves flags ⟨PieceType.pawnOf c, pos⟩ b) :
    m.mirror ∈ Piece.getMoves flags ⟨PieceType.pawnOf (!c), mirrorPos pos⟩ b.mirror := by
  have hstart : ∀ (c : Bool) (row : Int), row = pawnStart c → 7 - row = pawnStart (!c) := by
    intro c row h
    subst h
    cases c <;> rfl
  have hrow : ∀ row : Int, row = enPassantRow c → 7 - row = enPassantRow (!c) := by
    intro row h
    subst h
    cases c <;> rfl
  have hadd : ∀ row col : Int, m ∈ pawnAddMove c ⟨PieceType.pawnOf c, pos⟩ b (row + pawnDir c, col) →
      m.mirror ∈ pawnAddMove (!c) ⟨PieceType.pawnOf (!c), mirrorPos pos⟩ b.mirror
        (7 - row + pawnDir (!c), col) := by
    intro row col hm
    rw [← PieceType.mirror_pawnOf, ← mirrorPos_pawn_one]
    exact mirror_mem_pawnAddMove hm
  rw [mem_getMoves_pawn]
  rcases mem_getMoves_pawn.mp h with ⟨hf, hv, hm⟩ | ⟨hr, hf, hf2, hv, rfl⟩ | ⟨col, hcol, hcap, hm⟩ |
    ⟨h1, h2, h3, h4, h5, rfl⟩
  · rw [← Board.free_mirror, mirrorPos_pawn_one] at hf
    rw [← isValidPosition_mirrorPos, mirrorPos_pawn_one] at hv
    exact Or.inl ⟨hf, hv, hadd _ _ hm⟩
  · rw [← Board.free_mirror, mirrorPos_pawn_one] at hf
    rw [← Board.free_mirror, mirrorPos_pawn] at hf2
    rw [← isValidPosition_mirrorPos, mirrorPos_pawn] at hv
    refine Or.inr (Or.inl ⟨hstart c _ hr, hf, hf2, hv, ?_⟩)
    rw [Move.ofBoard_mirror, mirrorPos_pawn]
    rfl
  · refine Or.inr (Or.inr (Or.inl ⟨col, hcol, ?_, ?_⟩))
    · rw [← PieceType.mirror_hasColor, ← Board.get_mirror, mirrorPos_pawn_one] at hcap
      exact hcap
    · exact hadd _ _ hm
  · refine Or.inr (Or.inr (Or.inr ⟨hrow _ h1, ?_, hstart (!c) _ h3, hrow _ h4, h5, ?_⟩))
    · show b.lastMove.fromType.mirror = _
      rw [h2, PieceType.mirror_pawnOf]
    · rw [Move.ofBoard_mirror, mirrorPos_pawn_one]
      rfl

/-- **Generated moves are mirrored.** -/
theorem mirror_mem_getMoves {flags : Flags} {b : Board} {c : Bool} {p : Piece} {m : Move}
    (hp : p ∈ b.piecesOf c) (h : m ∈ p.getMoves flags b) :
    m.mirror ∈ p.mirror.getMoves flags b.mirror := by
  obtain ⟨hon, hc⟩ := Board.mem_piecesOf.mp hp
  by_cases hpawn : p.type = PieceType.pawnOf c
  · obtain ⟨type, pos⟩ := p
    obtain rfl : type = PieceType.pawnOf c := hpawn
    have hm := mirror_mem_getMoves_pawn h
    rw [← PieceType.mirror_pawnOf] at hm
    exact hm
  · obtain ⟨hon', hc'⟩ := Board.mem_piecesOf.mp (mirror_mem_piecesOf hp)
    have hpawn' : p.mirror.type ≠ PieceType.pawnOf (!c) := by
      rw [← PieceType.mirror_pawnOf]
      exact fun h => hpawn (PieceType.mirror_inj.mp h)
    have hpos : isValidPosition p.position = true := Board.valid_of_ne_empty (hon ▸ hc.1)
    obtain ⟨tgt, hv, hn, ha, rfl⟩ := (mem_getMoves_of_not_pawn hc hon hpawn).mp h
    refine (mem_getMoves_of_not_pawn hc' hon' hpawn').mpr ⟨mirrorPos tgt, ?_, ?_, ?_, ?_⟩
    · rw [isValidPosition_mirrorPos]; exact hv
    · rw [Board.get_mirror, PieceType.mirror_hasColor]; exact hn
    · exact mirror_canAttack hpos hv ha
    · exact Move.ofBoard_mirror _ _ _ _

theorem Playable.isLegal_mirror {flags : Flags} {b : Board} {c : Bool} {m : Move}
    (hb : Playable b c) (h : b.IsLegal flags c m) : b.mirror.IsLegal flags (!c) m.mirror := by
  obtain ⟨p, hp, hm, hsafe⟩ := h
  have hg := generated_of_mem hb.last hp hm
  refine ⟨p.mirror, mirror_mem_piecesOf hp, mirror_mem_getMoves hp hm, ?_⟩
  rw [Board.makeMove_mirror hg.pawnSpecial, isChecked_mirror]
  · exact hsafe
  · exact hb.kings_apply hg

/-- The mirror image of a legal move of the mirror image is a legal move. -/
theorem Playable.isLegal_of_mirror {flags : Flags} {b : Board} {c : Bool} {m : Move}
    (hb : Playable b c) (h : b.mirror.IsLegal flags (!c) m) : b.IsLegal flags c m.mirror := by
  obtain ⟨p, hp, hm, hsafe⟩ := h
  have hp' := mirror_mem_piecesOf hp
  have hm' := mirror_mem_getMoves hp hm
  rw [Board.mirror_mirror, Bool.not_not] at hp'
  rw [Board.mirror_mirror] at hm'
  have hg := generated_of_mem hb.last hp' hm'
  refine ⟨p.mirror, hp', hm', ?_⟩
  have hboard := Board.makeMove_mirror hg.pawnSpecial b
  rw [Move.mirror_mirror] at hboard
  have hk : KingsOk (b.makeMove m.mirror) := hb.kings_apply hg
  rw [hboard, isChecked_mirror hk] at hsafe
  exact hsafe

/-! ## The mirrored game -/

def ParentRound.mirror (r : ParentRound) : ParentRound := ⟨r.curBoard.mirror, r.maxStepState.mirror⟩

def AttackState.mirror (a : AttackState) : AttackState :=
  ⟨!a.blackFirst, a.curBoard.mirror, a.parent.map ParentRound.mirror⟩

def DefenceState.mirror (d : DefenceState) : DefenceState :=
  ⟨!d.blackFirst, d.curBoard.mirror, d.maxStepState.mirror⟩

theorem isCircularMove_mirror (a : AttackState) (m : Move) :
    a.mirror.round.isCircularMove m.mirror = a.round.isCircularMove m := by
  obtain ⟨first, b, parent⟩ := a
  cases parent with
  | none => rfl
  | some parent =>
    have hpawn : ∀ type : PieceType,
        (type.mirror ≠ .bPawn ∧ type.mirror ≠ .wPawn) ↔ (type ≠ .bPawn ∧ type ≠ .wPawn) := by
      intro type
      cases type <;> decide
    rw [Bool.eq_iff_iff, isCircularMove_iff]
    refine Iff.trans isCircularMove_iff ?_
    refine and_congr mirrorPos_inj (and_congr mirrorPos_inj ?_)
    refine and_congr PieceType.mirror_eq_empty (and_congr ?_ (hpawn _))
    rw [← parent.curBoard.isEmpty_mirror]
    rfl

theorem AttackState.after_mirror {a : AttackState} {m : Move} (hm : m.PawnSpecial) :
    a.mirror.after m.mirror = (a.after m).mirror := by
  simp only [AttackState.after, AttackState.mirror, DefenceState.mirror, Board.makeMove_mirror hm]

theorem DefenceState.after_mirror {d : DefenceState} {m : Move} (hm : m.PawnSpecial) :
    d.mirror.after m.mirror = (d.after m).mirror := by
  simp only [DefenceState.after, AttackState.mirror, DefenceState.mirror, Board.makeMove_mirror hm,
    Option.map_some, ParentRound.mirror]

section Games
variable {flags : Flags} {a : AttackState} {d : DefenceState}

theorem attack_mirror (ha : a.Sound) (h : (prunedGame flags).attack a d) :
    (prunedGame flags).attack a.mirror d.mirror := by
  obtain ⟨m, hl, hc, rfl⟩ := h
  refine ⟨m.mirror, Playable.isLegal_mirror ha hl, ?_, ?_⟩
  · rw [isCircularMove_mirror]; exact hc
  · rw [AttackState.after_mirror (Playable.generated ha hl).pawnSpecial]

theorem attack_of_mirror (ha : a.Sound) {d' : DefenceState}
    (h : (prunedGame flags).attack a.mirror d') :
    ∃ d, (prunedGame flags).attack a d ∧ d' = d.mirror := by
  obtain ⟨m, hl, hc, rfl⟩ := h
  have hl' := Playable.isLegal_of_mirror ha hl
  refine ⟨a.after m.mirror, ⟨m.mirror, hl', ?_, rfl⟩, ?_⟩
  · rw [← isCircularMove_mirror, Move.mirror_mirror]; exact hc
  · rw [← AttackState.after_mirror (Playable.generated ha hl').pawnSpecial, Move.mirror_mirror]

theorem reply_mirror (hd : d.Played flags) (h : (prunedGame flags).reply d a) :
    (prunedGame flags).reply d.mirror a.mirror := by
  obtain ⟨m, hl, rfl⟩ := h
  have hg := hd.playable_after.generated hl
  refine ⟨m.mirror, hd.playable_after.isLegal_mirror hl, ?_⟩
  rw [DefenceState.after_mirror hg.pawnSpecial]

theorem reply_of_mirror (hd : d.Played flags) {a' : AttackState}
    (h : (prunedGame flags).reply d.mirror a') :
    ∃ a, (prunedGame flags).reply d a ∧ a' = a.mirror := by
  obtain ⟨m, hl, rfl⟩ := h
  have hl' := hd.playable_after.isLegal_of_mirror hl
  have hg := hd.playable_after.generated hl'
  refine ⟨d.after m.mirror, ⟨m.mirror, hl', rfl⟩, ?_⟩
  rw [← DefenceState.after_mirror hg.pawnSpecial, Move.mirror_mirror]

theorem check_mirror (hd : d.Played flags) :
    (prunedGame flags).check d.mirror ↔ (prunedGame flags).check d := by
  show d.maxStepState.mirror.isChecked (!!d.blackFirst) = true ↔ _
  rw [isChecked_mirror hd.playable_after.kings]
  exact Iff.rfl

/-- **The mirrored game has the same forced mates.** -/
theorem wins_mirror (ha : a.Sound) (n : ℕ) :
    (prunedGame flags).Wins n a.mirror ↔ (prunedGame flags).Wins n a := by
  have there : Simulation (prunedGame flags) (prunedGame flags)
      (fun a a' => a' = a.mirror ∧ a.Sound) (fun d d' => d' = d.mirror ∧ d.Played flags) :=
    { attack := by
        rintro a _ d ⟨rfl, ha⟩ h
        exact ⟨d.mirror, attack_mirror ha h, rfl, played_of_prunedAttack ha h⟩
      reply := by
        rintro d _ a' ⟨rfl, hd⟩ h
        obtain ⟨a, ha, rfl⟩ := reply_of_mirror hd h
        exact ⟨a, ha, rfl, sound_of_prunedReply hd ha⟩
      hasReply := by
        rintro d _ a ⟨rfl, hd⟩ h
        exact ⟨a.mirror, reply_mirror hd h⟩
      check := by
        rintro d _ ⟨rfl, hd⟩ h
        exact (check_mirror hd).mpr h }
  have back : Simulation (prunedGame flags) (prunedGame flags)
      (fun a' a => a' = a.mirror ∧ a.Sound) (fun d' d => d' = d.mirror ∧ d.Played flags) :=
    { attack := by
        rintro _ a d' ⟨rfl, ha⟩ h
        obtain ⟨d, hd, rfl⟩ := attack_of_mirror ha h
        exact ⟨d, hd, rfl, played_of_prunedAttack ha hd⟩
      reply := by
        rintro _ d a ⟨rfl, hd⟩ h
        exact ⟨a.mirror, reply_mirror hd h, rfl, sound_of_prunedReply hd h⟩
      hasReply := by
        rintro _ d a' ⟨rfl, hd⟩ h
        obtain ⟨a, ha, -⟩ := reply_of_mirror hd h
        exact ⟨a, ha⟩
      check := by
        rintro _ d ⟨rfl, hd⟩ h
        exact (check_mirror hd).mp h }
  exact ⟨back.wins ⟨rfl, ha⟩, there.wins ⟨rfl, ha⟩⟩

end Games

/-- The mirror image of a board on which nothing has moved yet is playable for the
other side. -/
theorem Playable.mirror {b : Board} {c : Bool} (h : Playable b c) (hlast : NoLastMove b) :
    Playable b.mirror (!c) where
  kings := h.kings.mirror
  notAttacked := by
    rw [isChecked_mirror h.kings]
    exact h.notAttacked
  last := by
    refine Or.inl ⟨?_, ?_, hlast.notCastling⟩
    · show b.lastMove.fromType.mirror = .empty
      rw [hlast.fromType_eq]; rfl
    · show ¬ isValidPosition (mirrorPos b.lastMove.toPos) = true
      rw [isValidPosition_mirrorPos]
      exact hlast.notValidTo

theorem legalMoves_mirror_eq_nil {flags : Flags} {b : Board} {c : Bool} (h : Playable b c) :
    b.mirror.legalMoves flags (!c) = [] ↔ b.legalMoves flags c = [] := by
  rw [List.eq_nil_iff_forall_not_mem, List.eq_nil_iff_forall_not_mem]
  simp only [Board.mem_legalMoves]
  constructor
  · exact fun hno m hm => hno m.mirror (h.isLegal_mirror hm)
  · exact fun hno m hm => hno m.mirror (h.isLegal_of_mirror hm)

/-- A verdict has one score. -/
theorem Reports.unique {flags : Flags} {b b' : Board} {first first' : Bool} {n : ℕ}
    {score score' : Int} (h : Reports flags b first n score) (h' : Reports flags b' first' n score')
    (hwins : (prunedGame flags).Wins n ⟨first', b', none⟩ ↔ (prunedGame flags).Wins n ⟨first, b, none⟩)
    (hmoves : b'.legalMoves flags first' = [] ↔ b.legalMoves flags first = [])
    (hchecked : b'.isChecked first' = b.isChecked first) : score = score' := by
  have hmate : score = CHECKMATE ↔ score' = CHECKMATE := by
    rw [h.mate_iff, h'.mate_iff, hwins]
  by_cases hs : score = CHECKMATE
  · rw [hs, hmate.mp hs]
  · rw [h.otherwise hs, h'.otherwise fun hs' => hs (hmate.mpr hs')]
    simp only [ne_eq, hmoves, hchecked]

/-- **Colour symmetry of the solver**: without a cache, a board and its mirror image
with the other side to move first get the same score, in whatever order the moves
are tried. -/
theorem expand_mirror {κ : Type} [DecidableEq κ] (flags : Flags) (order order' : MoveOrder)
    (hash : (Fin 8 → Fin 8 → PieceType) → κ) {b : Board} {first : Bool} {n : ℕ}
    (hb : b.FileLoaded) (hsecond : b.isChecked (!first) = false) (h1 : 1 ≤ n)
    (hstore : (n : Int) < flags.minStoreLevel) :
    ∃ result w result' w', Returns (Search.run flags order hash ⟨b, first, n⟩) World.initial result w ∧
      Returns (Search.run flags order' hash ⟨b.mirror, !first, n⟩) World.initial result' w' ∧
      result.1 = result'.1 := by
  have hp : Playable b first := hb.playable hsecond
  obtain ⟨result, w, hret, hrep⟩ := run_inactive order hash hp h1 hstore
  obtain ⟨result', w', hret', hrep'⟩ :=
    run_inactive order' hash (hp.mirror hb.kings.2) h1 hstore
  refine ⟨result, w, result', w', hret, hret', ?_⟩
  have ha : (⟨first, b, none⟩ : AttackState).Sound := hp
  exact hrep.unique hrep' (wins_mirror ha n) (legalMoves_mirror_eq_nil hp)
    (isChecked_mirror hp.kings first)

/-- The lone pawn's mate in two levels, and black mating with his pawn. -/
theorem expand_mirror_lone_pawn :
    ∃ result w result' w', Returns (Search.run ⟨false, 3, by decide⟩ .asGenerated placementKey
        ⟨Board.lonePawn, false, 2⟩) World.initial result w ∧
      Returns (Search.run ⟨false, 3, by decide⟩ .asGenerated placementKey
        ⟨Board.lonePawn.mirror, true, 2⟩) World.initial result' w' ∧
      result.1 = result'.1 :=
  expand_mirror ⟨false, 3, by decide⟩ .asGenerated .asGenerated placementKey
    Board.lonePawn_fileLoaded Board.lonePawn_second (by decide) (by decide : ((2 : ℕ) : Int) < 3)

end Chess
