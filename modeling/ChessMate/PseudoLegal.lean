import ChessMate.ReachableBoards

/-! # The moves that the rules allow

`PseudoLegal` says, without a word about loops or tables, which moves a piece has
when the safety of its own king is left aside: the geometry of the rooks, bishops,
queens, knights and kings, and the four kinds of pawn moves.  Every move carries
the types that the board has on its two squares.

On a reachable board the generators give exactly these moves, each once
(`getMoves_pseudoLegal`).  What needs the history of the board is en passant: the
code asks where the last move started and ended, the rule asks for a double step
beside the pawn, and they agree because a pawn can only step twice from its own
start row (`Board.Reachable.double_start`).
-/
namespace Chess
open LineWalk

/-! ## The rules -/

/-- The unit steps of the lines along which a piece moves. -/
def PieceType.SlidesAlong (type : PieceType) (step : DeltaMove) : Prop :=
  match type with
  | wRook | bRook => step.1.natAbs + step.2.natAbs = 1
  | wBishop | bBishop => step.1.natAbs = 1 ∧ step.2.natAbs = 1
  | wQueen | bQueen => step.1.natAbs ≤ 1 ∧ step.2.natAbs ≤ 1 ∧ step ≠ 0
  | _ => False

/-- The offsets by which a piece jumps. -/
def PieceType.JumpsBy (type : PieceType) (delta : DeltaMove) : Prop :=
  match type with
  | wKnight | bKnight => (delta.1.natAbs = 1 ∧ delta.2.natAbs = 2) ∨ (delta.1.natAbs = 2 ∧ delta.2.natAbs = 1)
  | wKing | bKing => delta.1.natAbs ≤ 1 ∧ delta.2.natAbs ≤ 1 ∧ delta ≠ 0
  | _ => False

/-- The kinds of a pawn step to a row: on the last row a promotion to a queen and
one to a knight, on every other row a normal move. -/
def PawnKind (c : Bool) (row : Int) (special : SpecialType) : Prop :=
  match special with
  | .normalMove => row ≠ lastRow c
  | .queenPromotion | .knightPromotion => row = lastRow c
  | _ => False

/-- The last move was a double step of the other side's pawn, in this column, that
ended on this row. -/
structure LastDoubleStep (b : Board) (c : Bool) (row col : Int) : Prop where
  pawn : b.lastMove.fromType = PieceType.pawnOf (!c)
  start : b.lastMove.fromPos = (row + 2 * pawnDir c, col)
  finish : b.lastMove.toPos = (row, col)

/-- **The pseudo-legal moves of a piece.** -/
inductive PseudoLegal (b : Board) (p : Piece) : Move → Prop
  /-- Along a line, over empty squares, to a square that is not of the own colour. -/
  | slide {step : DeltaMove} {tgt : Position} (along : p.type.SlidesAlong step)
      (valid : isValidPosition tgt = true) (sees : Sees b.Free p.position step tgt)
      (notOwn : ¬ (b.getPieceTypeAtPosition tgt).HasColor p.type.isBlack) :
      PseudoLegal b p (Move.ofBoard b .normalMove p.position tgt)
  /-- By one of the offsets, to a square that is not of the own colour. -/
  | jump {delta : DeltaMove} (leap : p.type.JumpsBy delta)
      (valid : isValidPosition (p.position + delta) = true)
      (notOwn : ¬ (b.getPieceTypeAtPosition (p.position + delta)).HasColor p.type.isBlack) :
      PseudoLegal b p (Move.ofBoard b .normalMove p.position (p.position + delta))
  /-- One step forward to an empty square. -/
  | forward {c : Bool} {special : SpecialType} (pawn : p.type = PieceType.pawnOf c)
      (valid : isValidPosition (p.row + pawnDir c, p.col) = true)
      (free : b.Free (p.row + pawnDir c, p.col)) (kind : PawnKind c (p.row + pawnDir c) special) :
      PseudoLegal b p (Move.ofBoard b special p.position (p.row + pawnDir c, p.col))
  /-- Two steps from the start row over an empty square to an empty square. -/
  | double {c : Bool} (pawn : p.type = PieceType.pawnOf c) (start : p.row = pawnStart c)
      (free₁ : b.Free (p.row + pawnDir c, p.col)) (free₂ : b.Free (p.row + 2 * pawnDir c, p.col)) :
      PseudoLegal b p (Move.ofBoard b .normalMove p.position (p.row + 2 * pawnDir c, p.col))
  /-- A forward diagonal step onto an enemy. -/
  | capture {c : Bool} {col : Int} {special : SpecialType} (pawn : p.type = PieceType.pawnOf c)
      (beside : |col - p.col| = 1)
      (enemy : (b.getPieceTypeAtPosition (p.row + pawnDir c, col)).HasColor (!c))
      (kind : PawnKind c (p.row + pawnDir c) special) :
      PseudoLegal b p (Move.ofBoard b special p.position (p.row + pawnDir c, col))
  /-- En passant, onto the square that the enemy pawn skipped. -/
  | enPassant {c : Bool} {col : Int} (pawn : p.type = PieceType.pawnOf c)
      (beside : |col - p.col| = 1) (last : LastDoubleStep b c p.row col) :
      PseudoLegal b p (Move.ofBoard b .pawnEnPassant p.position (p.row + pawnDir c, col))

/-! ## The tables of the source -/

theorem natAbs_le_one {d : Int} : d.natAbs ≤ 1 ↔ d = -1 ∨ d = 0 ∨ d = 1 := by omega

theorem natAbs_eq_cases {d : Int} {n : ℕ} : d.natAbs = n ↔ d = n ∨ d = -n := by omega

theorem mem_kDelta {delta : DeltaMove} :
    delta ∈ King.kDelta ↔ delta.1.natAbs ≤ 1 ∧ delta.2.natAbs ≤ 1 ∧ delta ≠ 0 := by
  constructor
  · revert delta
    decide
  · obtain ⟨dr, dc⟩ := delta
    rintro ⟨h1, h2, h0⟩
    obtain rfl | rfl | rfl := natAbs_le_one.mp h1 <;>
    · obtain rfl | rfl | rfl := natAbs_le_one.mp h2 <;> first | decide | exact absurd rfl h0

theorem mem_kMoves {delta : DeltaMove} :
    delta ∈ Knight.kMoves ↔
      (delta.1.natAbs = 1 ∧ delta.2.natAbs = 2) ∨ (delta.1.natAbs = 2 ∧ delta.2.natAbs = 1) := by
  constructor
  · revert delta
    decide
  · obtain ⟨dr, dc⟩ := delta
    rintro (⟨h1, h2⟩ | ⟨h1, h2⟩) <;>
    · obtain rfl | rfl := natAbs_eq_cases.mp h1 <;>
      · obtain rfl | rfl := natAbs_eq_cases.mp h2 <;> decide

theorem PieceType.slidesAlong_iff {type : PieceType} {step : DeltaMove} :
    type.SlidesAlong step ↔ step ∈ type.slideSteps := by
  have hrook : step.1.natAbs + step.2.natAbs = 1 ↔ step ∈ Rook.steps := by
    obtain ⟨dr, dc⟩ := step
    simp only [Rook.steps, List.mem_cons, List.not_mem_nil, Prod.mk.injEq, or_false]
    omega
  have hbishop : step.1.natAbs = 1 ∧ step.2.natAbs = 1 ↔ step ∈ Bishop.steps := by
    obtain ⟨dr, dc⟩ := step
    simp only [Bishop.steps, List.mem_cons, List.not_mem_nil, Prod.mk.injEq, or_false]
    omega
  have hqueen : step.1.natAbs ≤ 1 ∧ step.2.natAbs ≤ 1 ∧ step ≠ 0 ↔ step ∈ Queen.steps := by
    rw [mem_queenSteps, ne_eq, Prod.ext_iff]
    simp only [Prod.fst_zero, Prod.snd_zero]
    omega
  cases type <;> first | exact hrook | exact hbishop | exact hqueen | simp [SlidesAlong, slideSteps]

theorem PieceType.jumpsBy_iff {type : PieceType} {c : Bool} (h : type.HasColor c)
    (hpawn : type ≠ PieceType.pawnOf c) {delta : DeltaMove} :
    type.JumpsBy delta ↔ delta ∈ type.leaps := by
  obtain ⟨-, rfl⟩ := h
  cases type
  case wPawn | bPawn => exact absurd rfl hpawn
  case wKing | bKing => exact mem_kDelta.symm
  case wKnight | bKnight => exact mem_kMoves.symm
  all_goals simp [JumpsBy, leaps]

theorem mem_pawnAddMove_iff {c : Bool} {p : Piece} {b : Board} {newPos : Position} {m : Move} :
    m ∈ pawnAddMove c p b newPos ↔
      ∃ special, PawnKind c newPos.1 special ∧ m = Move.ofBoard b special p.position newPos := by
  rw [mem_pawnAddMove]
  constructor
  · rintro (⟨hl, rfl⟩ | ⟨hl, rfl | rfl⟩)
    · exact ⟨.normalMove, hl, rfl⟩
    · exact ⟨.queenPromotion, hl, rfl⟩
    · exact ⟨.knightPromotion, hl, rfl⟩
  · rintro ⟨special, hk, rfl⟩
    cases special with
    | normalMove => exact Or.inl ⟨hk, rfl⟩
    | queenPromotion => exact Or.inr ⟨hk, Or.inl rfl⟩
    | knightPromotion => exact Or.inr ⟨hk, Or.inr rfl⟩
    | pawnEnPassant | kingCastling => exact hk.elim

/-! ## Pieces other than pawns -/

section NotPawn
variable {flags : Flags} {b : Board} {p : Piece}

theorem mem_getMoves_iff_of_not_pawn (hp : p ∈ b.pieces)
    (hpawn : p.type ≠ PieceType.pawnOf p.type.isBlack) {m : Move} :
    m ∈ p.getMoves flags b ↔ PseudoLegal b p m := by
  obtain ⟨hon, hc⟩ := Board.mem_piecesOf.mp (Board.mem_piecesOf_of_mem hp)
  have hpos : isValidPosition p.position = true := Board.valid_of_ne_empty (hon ▸ hc.1)
  have hnot : ∀ {c : Bool}, p.type ≠ PieceType.pawnOf c := by
    intro c h
    refine hpawn ?_
    rw [h, (pawnOf_hasColor c).2]
  rw [mem_getMoves_of_not_pawn hc hon hpawn]
  constructor
  · rintro ⟨tgt, hv, hown, ha, rfl⟩
    rcases (canAttack_iff hpos hv).mp ha with ⟨delta, hd, rfl⟩ | ⟨step, hstep, hs⟩
    · exact .jump ((PieceType.jumpsBy_iff hc hpawn).mpr hd) hv hown
    · exact .slide (PieceType.slidesAlong_iff.mpr hstep) hv hs hown
  · intro h
    cases h with
    | @slide step tgt along valid hs notOwn =>
      refine ⟨tgt, valid, notOwn, (canAttack_iff hpos valid).mpr (Or.inr ⟨step, ?_, hs⟩), rfl⟩
      exact PieceType.slidesAlong_iff.mp along
    | @jump delta hd valid notOwn =>
      refine ⟨_, valid, notOwn, (canAttack_iff hpos valid).mpr (Or.inl ⟨delta, ?_, rfl⟩), rfl⟩
      exact (PieceType.jumpsBy_iff hc hpawn).mp hd
    | forward pawn | double pawn | capture pawn | enPassant pawn => exact absurd pawn hnot

end NotPawn

/-! ## Pawns -/

/-- **A pawn steps twice only from its start row.** -/
theorem start_of_double {flags : Flags} {b : Board} {c : Bool} {pos : Position} {m : Move}
    (hm : m ∈ Piece.getMoves flags ⟨PieceType.pawnOf c, pos⟩ b)
    (hrow : m.toPos.1 = m.fromPos.1 + 2 * pawnDir c) : m.fromPos.1 = pawnStart c := by
  have hdir : pawnDir c ≠ 2 * pawnDir c := by cases c <;> decide
  have hone : ∀ newPos, m ∈ pawnAddMove c ⟨PieceType.pawnOf c, pos⟩ b newPos →
      newPos.1 = pos.1 + pawnDir c → m.fromPos.1 = pawnStart c := by
    intro newPos h hnew
    obtain ⟨special, -, rfl⟩ := mem_pawnAddMove_iff.mp h
    have hrow' : newPos.1 = pos.1 + 2 * pawnDir c := hrow
    omega
  rcases mem_getMoves_pawn.mp hm with ⟨-, -, h⟩ | ⟨hstart, -, -, -, rfl⟩ | ⟨col, -, -, h⟩ |
    ⟨-, -, -, -, -, rfl⟩
  · exact hone _ h rfl
  · exact hstart
  · exact hone _ h rfl
  · have hrow' : pos.1 + pawnDir c = pos.1 + 2 * pawnDir c := hrow
    omega

/-- On a reachable board the double step that en passant asks for is the one that
the code looks for. -/
theorem Board.Reachable.double_start {flags : Flags} {b : Board} (hb : b.Reachable flags) {c : Bool}
    {row col : Int} (h : LastDoubleStep b c row col) :
    row = enPassantRow c ∧ b.lastMove.fromPos.1 = pawnStart (!c) := by
  rcases hb.last with hno | ⟨b₀, c', hb₀, ⟨q, hq, hgen, -⟩, -⟩
  · have hpawn := h.pawn
    rw [hno.fromType_eq] at hpawn
    exact absurd hpawn.symm (pawnOf_hasColor (!c)).1
  -- the last move was made by a pawn of the other side
  obtain ⟨hon, hq'⟩ := Board.mem_piecesOf.mp hq
  have hfrom := fromPos_of_mem_getMoves hq hgen
  have hg := hb₀.doubleStepOk.generated hq hgen
  have hqtype : q.type = PieceType.pawnOf (!c) := by
    rw [← hon, ← hfrom, ← hg.fromType_eq, h.pawn]
  obtain ⟨type, pos⟩ := q
  obtain rfl : type = PieceType.pawnOf (!c) := hqtype
  have hdir : pawnDir (!c) = - pawnDir c := by cases c <;> rfl
  have hstart : b.lastMove.fromPos.1 = pawnStart (!c) := by
    refine start_of_double hgen ?_
    rw [h.start, h.finish, hdir]
    ring
  refine ⟨?_, hstart⟩
  rw [h.start] at hstart
  have hrow : row + 2 * pawnDir c = pawnStart (!c) := hstart
  clear * - hrow
  cases c
  · have hrow' : row + 2 = 6 := hrow
    show row = 4
    omega
  · have hrow' : row + 2 * -1 = 1 := hrow
    show row = 3
    omega

/-- The double step that the code looks for, in one piece. -/
theorem Board.Reachable.last_double {flags : Flags} {b : Board} (hb : b.Reachable flags) {c : Bool}
    (htype : b.lastMove.fromType = PieceType.pawnOf (!c))
    (hfrom : b.lastMove.fromPos.1 = pawnStart (!c)) (hto : b.lastMove.toPos.1 = enPassantRow c) :
    b.lastMove.fromPos = (enPassantRow c + 2 * pawnDir c, b.lastMove.fromPos.2) ∧
      b.lastMove.toPos = (enPassantRow c, b.lastMove.fromPos.2) := by
  obtain ⟨hsame, -, -⟩ := hb.doubleStepOk c htype hfrom hto
  refine ⟨Prod.ext ?_ rfl, Prod.ext hto hsame⟩
  rw [hfrom]
  cases c <;> rfl

section Pawn
variable {flags : Flags} {b : Board} {c : Bool} {pos : Position}

theorem mem_getMoves_pawn_iff (hb : b.Reachable flags)
    (hpos : isValidPosition pos = true) {m : Move} :
    m ∈ Piece.getMoves flags ⟨PieceType.pawnOf c, pos⟩ b ↔
      PseudoLegal b ⟨PieceType.pawnOf c, pos⟩ m := by
  have hcolor : ∀ {c' : Bool}, PieceType.pawnOf c = PieceType.pawnOf c' → c = c' := by
    intro c' h
    rw [← (pawnOf_hasColor c).2, h, (pawnOf_hasColor c').2]
  rw [mem_getMoves_pawn]
  constructor
  · rintro (⟨hf, hv, hm⟩ | ⟨hrow, hf, hf2, -, rfl⟩ | ⟨col, hcol, henemy, hm⟩ |
      ⟨hrow, htype, hfrom, hto, hcol, rfl⟩)
    · obtain ⟨special, hkind, rfl⟩ := mem_pawnAddMove_iff.mp hm
      exact .forward rfl hv hf hkind
    · exact .double rfl hrow hf hf2
    · obtain ⟨special, hkind, rfl⟩ := mem_pawnAddMove_iff.mp hm
      refine .capture rfl ?_ henemy hkind
      rw [abs_eq (by decide)]
      show col - pos.2 = 1 ∨ col - pos.2 = -1
      omega
    · obtain ⟨hstart, hfinish⟩ := hb.last_double htype hfrom hto
      refine .enPassant rfl hcol ⟨htype, ?_, ?_⟩
      · show b.lastMove.fromPos = (pos.1 + 2 * pawnDir c, b.lastMove.fromPos.2)
        rw [hrow, ← hstart]
      · show b.lastMove.toPos = (pos.1, b.lastMove.fromPos.2)
        rw [hrow, ← hfinish]
  · intro h
    cases h with
    | slide along => cases c <;> exact along.elim
    | jump hd => cases c <;> exact hd.elim
    | forward pawn valid free kind =>
      obtain rfl := hcolor pawn
      exact Or.inl ⟨free, valid, mem_pawnAddMove_iff.mpr ⟨_, kind, rfl⟩⟩
    | double pawn start free₁ free₂ =>
      obtain rfl := hcolor pawn
      refine Or.inr (Or.inl ⟨start, free₁, free₂, ?_, rfl⟩)
      rw [isValidPosition_iff] at hpos ⊢
      refine ⟨?_, hpos.2⟩
      show 0 ≤ pos.1 + 2 * pawnDir c ∧ pos.1 + 2 * pawnDir c < 8
      rw [show pos.1 = pawnStart c from start]
      cases c <;> decide
    | @capture _ col _ pawn beside enemy kind =>
      obtain rfl := hcolor pawn
      refine Or.inr (Or.inr (Or.inl ⟨col, ?_, enemy, mem_pawnAddMove_iff.mpr ⟨_, kind, rfl⟩⟩))
      rw [abs_eq (by decide)] at beside
      have hcol : col - pos.2 = 1 ∨ col - pos.2 = -1 := beside
      omega
    | @enPassant _ col pawn beside last =>
      obtain rfl := hcolor pawn
      obtain ⟨hrow, hstart⟩ := hb.double_start last
      refine Or.inr (Or.inr (Or.inr ⟨hrow, last.pawn, hstart, ?_, ?_, ?_⟩))
      · rw [last.finish]; exact hrow
      · rw [last.start]; exact beside
      · rw [last.start]

end Pawn

/-- **The generators give the pseudo-legal moves**, each exactly once and nothing
else. -/
theorem getMoves_pseudoLegal {flags : Flags} {b : Board} (hb : b.Reachable flags) {p : Piece}
    (hp : p ∈ b.pieces) :
    (p.getMoves flags b).Nodup ∧ ∀ m, m ∈ p.getMoves flags b ↔ PseudoLegal b p m := by
  have hp' := Board.mem_piecesOf_of_mem hp
  refine ⟨nodup_getMoves hp', fun m => ?_⟩
  by_cases hpawn : p.type = PieceType.pawnOf p.type.isBlack
  · obtain ⟨hon, hne⟩ := Board.mem_pieces.mp hp
    have hpos : isValidPosition p.position = true := Board.valid_of_ne_empty (hon ▸ hne)
    obtain ⟨type, pos⟩ := p
    generalize type.isBlack = c at hpawn
    obtain rfl : type = PieceType.pawnOf c := hpawn
    exact mem_getMoves_pawn_iff hb hpos
  · exact mem_getMoves_iff_of_not_pawn hp hpawn

/-- White has a pawn that is about to promote or to capture on the last row. -/
def Board.pawnBeforeLastRow : Board := ofText "ka1\npb7\nRc8\nKh8\n"

theorem Board.pawnBeforeLastRow_reachable : pawnBeforeLastRow.Reachable Flags.default :=
  .loaded (fileLoaded_ofText (by decide +kernel))

/-- The pawn has two promotions forward and two by a capture. -/
theorem getMoves_pseudoLegal_promotions :
    (Piece.getMoves Flags.default ⟨.wPawn, (6, 1)⟩ .pawnBeforeLastRow).length = 4 ∧
      ∀ m, m ∈ Piece.getMoves Flags.default ⟨.wPawn, (6, 1)⟩ .pawnBeforeLastRow ↔
        PseudoLegal .pawnBeforeLastRow ⟨.wPawn, (6, 1)⟩ m :=
  ⟨by decide +kernel, (getMoves_pseudoLegal Board.pawnBeforeLastRow_reachable (by decide +kernel)).2⟩

end Chess
