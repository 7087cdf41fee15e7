import ChessMate.AttackGeometry

/-! # Which moves are generated

`getMoves` read as a set.  A piece that is not a pawn moves to the squares it
attacks that do not hold a piece of its own colour (`mem_getMoves_of_not_pawn`);
castling is never among its moves, since `canCastle` asks the king's own square
to be empty.  The two pawn classes are mirror images, and `mem_getMoves_pawn`
states both at once: one or two steps forward, a capture, or en passant.

`Generated` collects what the rest of the development uses of a generated move.
-/
namespace Chess
open LineWalk

/-! ## The constants of the two pawn classes -/

/-- The pawn of one colour. -/
def PieceType.pawnOf (black : Bool) : PieceType := if black then .bPawn else .wPawn

/-- The row offset of a pawn step. -/
def pawnDir (black : Bool) : Int := if black then -1 else 1

/-- The row from which a pawn may step twice. -/
def pawnStart (black : Bool) : Int := if black then 6 else 1

/-- The row on which a pawn is promoted. -/
def lastRow (black : Bool) : Int := if black then 0 else 7

/-- The row from which a pawn captures en passant. -/
def enPassantRow (black : Bool) : Int := if black then 3 else 4

/-- `addMove` of the two pawn classes. -/
def pawnAddMove (black : Bool) (self : Piece) (board : Board) (newPos : Position) : List Move :=
  if newPos.1 ≠ lastRow black then [Move.ofBoard board .normalMove self.position newPos]
  else
    [Move.ofBoard board .queenPromotion self.position newPos,
      Move.ofBoard board .knightPromotion self.position newPos]

theorem pawnOf_hasColor (c : Bool) : (PieceType.pawnOf c).HasColor c := by cases c <;> decide

/-! ## Targets -/

theorem Piece.canPlace_iff {p : Piece} {c : Bool} (hc : p.type.HasColor c) {board : Board}
    {pos : Position} : p.canPlace board pos = true ↔
      isValidPosition pos = true ∧ ¬ (board.getPieceTypeAtPosition pos).HasColor c := by
  have hs := @PieceType.HasColor.isSameColor_iff p.type (board.getPieceTypeAtPosition pos) c hc
  unfold canPlace
  by_cases hv : isValidPosition pos = true
  · rw [if_neg (by rw [hv]; decide), ← hs]
    simp [hv]
  · rw [if_pos (by simpa using hv)]
    simp [hv]

theorem mem_addMovesFromLine {p : Piece} {c : Bool} (hc : p.type.HasColor c) {board : Board}
    (hpos : isValidPosition p.position = true) {step : DeltaMove} (hstep : step ∈ Queen.steps)
    {m : Move} : m ∈ p.addMovesFromLine board step ↔
      ∃ tgt, isValidPosition tgt = true ∧ ¬ (board.getPieceTypeAtPosition tgt).HasColor c ∧
        Sees board.Free p.position step tgt ∧
        m = Move.ofBoard board .normalMove p.position tgt := by
  rw [Piece.addMovesFromLine, mem_collect_iff]
  constructor
  · rintro ⟨k, hk, -, hm, hins, hst⟩
    split at hm
    case isFalse => cases hm
    case isTrue hsame =>
      rw [Bool.not_eq_true', Bool.eq_false_iff, ne_eq, hc.isSameColor_iff] at hsame
      refine ⟨_, hins k hk le_rfl, hsame, ⟨k, hk, rfl, fun j hj hjk => ?_⟩, List.mem_singleton.mp hm⟩
      exact Board.free_iff.mp (by simpa using hst j hj hjk)
  · rintro ⟨tgt, hv, hsame, ⟨k, hk, rfl, hfree⟩, rfl⟩
    have hk7 := steps_le_seven hstep hpos hv
    refine ⟨k, hk, by omega, ?_, fun j hj hjk => valid_between hpos hv hjk, fun j hj hjk => ?_⟩
    · rw [if_pos]
      · exact List.mem_singleton.mpr rfl
      · rw [Bool.not_eq_true', Bool.eq_false_iff, ne_eq, hc.isSameColor_iff]
        exact hsame
    · rw [Board.free_iff.mpr (hfree j hj hjk)]; rfl

theorem mem_addMovesFromOffsets {p : Piece} {c : Bool} (hc : p.type.HasColor c) {board : Board}
    {offsets : List DeltaMove} {m : Move} : m ∈ p.addMovesFromOffsets board offsets ↔
      ∃ tgt, isValidPosition tgt = true ∧ ¬ (board.getPieceTypeAtPosition tgt).HasColor c ∧
        (∃ delta ∈ offsets, tgt = p.position + delta) ∧
        m = Move.ofBoard board .normalMove p.position tgt := by
  rw [Piece.addMovesFromOffsets, List.mem_flatMap]
  constructor
  · rintro ⟨delta, hd, hm⟩
    split at hm
    case isFalse => cases hm
    case isTrue hp =>
      obtain ⟨hv, hn⟩ := (Piece.canPlace_iff hc).mp hp
      exact ⟨_, hv, hn, ⟨delta, hd, rfl⟩, List.mem_singleton.mp hm⟩
  · rintro ⟨tgt, hv, hn, ⟨delta, hd, rfl⟩, rfl⟩
    refine ⟨delta, hd, ?_⟩
    rw [if_pos ((Piece.canPlace_iff hc).mpr ⟨hv, hn⟩)]
    exact List.mem_singleton.mpr rfl

/-- A king that stands on the board never castles: the loop that asks for empty
squares towards the rook starts at the king's own square. -/
theorem not_canCastle {p : Piece} {board : Board}
    (hon : board.getPieceTypeAtPosition p.position ≠ .empty) (smaller : Bool) :
    King.canCastle p board smaller = false := by
  have hown : board.isEmpty (p.row, p.col) = false := by
    rw [← Bool.not_eq_true, Board.isEmpty_iff]; exact hon
  unfold King.canCastle
  split_ifs <;> simp_all [List.range_succ]

/-! ## Pieces other than pawns -/

/-- **A piece that is not a pawn moves to what it attacks.** -/
theorem mem_getMoves_of_not_pawn {flags : Flags} {p : Piece} {c : Bool} (hc : p.type.HasColor c)
    {board : Board} (hon : board.getPieceTypeAtPosition p.position = p.type)
    (hpawn : p.type ≠ PieceType.pawnOf c) {m : Move} :
    m ∈ p.getMoves flags board ↔
      ∃ tgt, isValidPosition tgt = true ∧ ¬ (board.getPieceTypeAtPosition tgt).HasColor c ∧
        p.canAttack board tgt = true ∧ m = Move.ofBoard board .normalMove p.position tgt := by
  have hne : board.getPieceTypeAtPosition p.position ≠ .empty := hon ▸ hc.1
  have hpos := Board.valid_of_ne_empty hne
  -- the two shapes of generator, each as the set of attacked squares
  have slide : ∀ steps : List DeltaMove, p.type.slideSteps = steps → p.type.leaps = [] →
      (m ∈ steps.flatMap (p.addMovesFromLine board) ↔
        ∃ tgt, isValidPosition tgt = true ∧ ¬ (board.getPieceTypeAtPosition tgt).HasColor c ∧
          p.canAttack board tgt = true ∧ m = Move.ofBoard board .normalMove p.position tgt) := by
    rintro steps rfl hleap
    rw [List.mem_flatMap]
    constructor
    · rintro ⟨step, hstep, hm⟩
      obtain ⟨tgt, hv, hn, hs, rfl⟩ :=
        (mem_addMovesFromLine hc hpos (PieceType.slideSteps_subset _ hstep)).mp hm
      exact ⟨tgt, hv, hn, (canAttack_iff hpos hv).mpr (Or.inr ⟨step, hstep, hs⟩), rfl⟩
    · rintro ⟨tgt, hv, hn, ha, rfl⟩
      rcases (canAttack_iff hpos hv).mp ha with ⟨delta, hd, -⟩ | ⟨step, hstep, hs⟩
      · rw [hleap] at hd; cases hd
      · exact ⟨step, hstep,
          (mem_addMovesFromLine hc hpos (PieceType.slideSteps_subset _ hstep)).mpr
            ⟨tgt, hv, hn, hs, rfl⟩⟩
  have leap : ∀ offsets : List DeltaMove, p.type.leaps = offsets → p.type.slideSteps = [] →
      (m ∈ p.addMovesFromOffsets board offsets ↔
        ∃ tgt, isValidPosition tgt = true ∧ ¬ (board.getPieceTypeAtPosition tgt).HasColor c ∧
          p.canAttack board tgt = true ∧ m = Move.ofBoard board .normalMove p.position tgt) := by
    rintro offsets rfl hslide
    rw [mem_addMovesFromOffsets hc]
    constructor
    · rintro ⟨tgt, hv, hn, hd, rfl⟩
      exact ⟨tgt, hv, hn, (canAttack_iff hpos hv).mpr (Or.inl hd), rfl⟩
    · rintro ⟨tgt, hv, hn, ha, rfl⟩
      rcases (canAttack_iff hpos hv).mp ha with hd | ⟨step, hstep, -⟩
      · exact ⟨tgt, hv, hn, hd, rfl⟩
      · rw [hslide] at hstep; cases hstep
  have king : King.getMoves flags p board = p.addMovesFromOffsets board King.kDelta := by
    simp [King.getMoves, not_canCastle hne]
  obtain ⟨type, pos⟩ := p
  cases type
  case empty => exact absurd rfl hc.1
  case wPawn => exact absurd (by rw [← hc.2]; rfl) hpawn
  case bPawn => exact absurd (by rw [← hc.2]; rfl) hpawn
  case wRook | bRook => exact slide Rook.steps rfl rfl
  case wBishop | bBishop => exact slide Bishop.steps rfl rfl
  case wQueen | bQueen => exact slide Queen.steps rfl rfl
  case wKnight | bKnight => exact leap Knight.kMoves rfl rfl
  case wKing | bKing =>
    rw [Piece.getMoves, king]
    exact leap King.kDelta rfl rfl

/-! ## Pawns -/

/-- The two tests of a capture: there is something to take, and it is not one's own. -/
theorem pawn_captures_iff {c : Bool} {p : Position} {b : Board} (tgt : Position) :
    b.isEmpty tgt = false ∧ Piece.canPlace ⟨PieceType.pawnOf c, p⟩ b tgt = true ↔
      (b.getPieceTypeAtPosition tgt).HasColor (!c) := by
  rw [Piece.canPlace_iff (pawnOf_hasColor c), ← Bool.not_eq_true, Board.isEmpty_iff]
  constructor
  · rintro ⟨hne, -, hn⟩
    rcases PieceType.hasColor_or (b.getPieceTypeAtPosition tgt) c with h | h | h
    · exact absurd h hne
    · exact absurd h hn
    · exact h
  · intro h
    exact ⟨h.1, Board.valid_of_ne_empty h.1, fun h' => h'.not_other h⟩

/-- On a square where nothing stands, only the bounds are tested. -/
theorem canPlace_of_free {c : Bool} {p : Position} {b : Board} (tgt : Position) (hf : b.Free tgt) :
    Piece.canPlace ⟨PieceType.pawnOf c, p⟩ b tgt = true ↔ isValidPosition tgt = true := by
  rw [Piece.canPlace_iff (pawnOf_hasColor c), show b.getPieceTypeAtPosition tgt = .empty from hf]
  exact and_iff_left (PieceType.not_hasColor_empty c)

/-- **What a pawn can do**, for both colours at once. -/
theorem mem_getMoves_pawn {flags : Flags} {c : Bool} {pos : Position} {board : Board} {m : Move} :
    m ∈ Piece.getMoves flags ⟨PieceType.pawnOf c, pos⟩ board ↔
      (board.Free (pos.1 + pawnDir c, pos.2) ∧ isValidPosition (pos.1 + pawnDir c, pos.2) = true ∧
        m ∈ pawnAddMove c ⟨PieceType.pawnOf c, pos⟩ board (pos.1 + pawnDir c, pos.2)) ∨
      (pos.1 = pawnStart c ∧ board.Free (pos.1 + pawnDir c, pos.2) ∧
        board.Free (pos.1 + 2 * pawnDir c, pos.2) ∧
        isValidPosition (pos.1 + 2 * pawnDir c, pos.2) = true ∧
        m = Move.ofBoard board .normalMove pos (pos.1 + 2 * pawnDir c, pos.2)) ∨
      (∃ col : Int, (col = pos.2 + 1 ∨ col = pos.2 - 1) ∧
        (board.getPieceTypeAtPosition (pos.1 + pawnDir c, col)).HasColor (!c) ∧
        m ∈ pawnAddMove c ⟨PieceType.pawnOf c, pos⟩ board (pos.1 + pawnDir c, col)) ∨
      (pos.1 = enPassantRow c ∧ board.lastMove.fromType = PieceType.pawnOf (!c) ∧
        board.lastMove.fromPos.1 = pawnStart (!c) ∧ board.lastMove.toPos.1 = enPassantRow c ∧
        |board.lastMove.fromPos.2 - pos.2| = 1 ∧
        m = Move.ofBoard board .pawnEnPassant pos (pos.1 + pawnDir c, board.lastMove.fromPos.2)) := by
  have hcap := pawn_captures_iff (c := c) (p := pos) (b := board)
  have hfree := canPlace_of_free (c := c) (p := pos) (b := board)
  cases c
  · show m ∈ WPawn.getMoves _ board ↔ _
    simp only [WPawn.getMoves, List.mem_append, List.mem_ite_nil_right, Bool.and_eq_true,
      Bool.not_eq_true', hcap, Board.free_iff, Piece.row, Piece.col, decide_eq_true_eq,
      List.mem_singleton]
    constructor
    · rintro ((((⟨⟨hp, hf⟩, hm⟩ | ⟨⟨hr, hf⟩, ⟨hf2, hp⟩, hm⟩) | ⟨hc, hm⟩) | ⟨hc, hm⟩) |
        ⟨⟨⟨⟨⟨h1, h2⟩, h3⟩, h4⟩, h5⟩, h6⟩)
      · exact Or.inl ⟨hf, (hfree _ hf).mp hp, hm⟩
      · exact Or.inr (Or.inl ⟨hr, hf, hf2, (hfree _ hf2).mp hp, hm⟩)
      · exact Or.inr (Or.inr (Or.inl ⟨_, Or.inr rfl, hc, hm⟩))
      · exact Or.inr (Or.inr (Or.inl ⟨_, Or.inl rfl, hc, hm⟩))
      · exact Or.inr (Or.inr (Or.inr ⟨h1, h2, h3, h4, h5, h6⟩))
    · rintro (⟨hf, hv, hm⟩ | ⟨hr, hf, hf2, hv, hm⟩ | ⟨_, rfl | rfl, hc, hm⟩ | ⟨h1, h2, h3, h4, h5, h6⟩)
      · exact Or.inl (Or.inl (Or.inl (Or.inl ⟨⟨(hfree _ hf).mpr hv, hf⟩, hm⟩)))
      · exact Or.inl (Or.inl (Or.inl (Or.inr ⟨⟨hr, hf⟩, ⟨hf2, (hfree _ hf2).mpr hv⟩, hm⟩)))
      · exact Or.inl (Or.inr ⟨hc, hm⟩)
      · exact Or.inl (Or.inl (Or.inr ⟨hc, hm⟩))
      · exact Or.inr ⟨⟨⟨⟨⟨h1, h2⟩, h3⟩, h4⟩, h5⟩, h6⟩
  · show m ∈ BPawn.getMoves _ board ↔ _
    simp only [BPawn.getMoves, List.mem_append, List.mem_ite_nil_right, Bool.and_eq_true,
      Bool.not_eq_true', hcap, Board.free_iff, Piece.row, Piece.col, decide_eq_true_eq,
      List.mem_singleton]
    constructor
    · rintro ((((⟨⟨hp, hf⟩, hm⟩ | ⟨⟨hr, hf⟩, ⟨hf2, hp⟩, hm⟩) | ⟨hc, hm⟩) | ⟨hc, hm⟩) |
        ⟨⟨⟨⟨⟨h1, h2⟩, h3⟩, h4⟩, h5⟩, h6⟩)
      · exact Or.inl ⟨hf, (hfree _ hf).mp hp, hm⟩
      · exact Or.inr (Or.inl ⟨hr, hf, hf2, (hfree _ hf2).mp hp, hm⟩)
      · exact Or.inr (Or.inr (Or.inl ⟨_, Or.inl rfl, hc, hm⟩))
      · exact Or.inr (Or.inr (Or.inl ⟨_, Or.inr rfl, hc, hm⟩))
      · exact Or.inr (Or.inr (Or.inr ⟨h1, h2, h3, h4, h5, h6⟩))
    · rintro (⟨hf, hv, hm⟩ | ⟨hr, hf, hf2, hv, hm⟩ | ⟨_, rfl | rfl, hc, hm⟩ | ⟨h1, h2, h3, h4, h5, h6⟩)
      · exact Or.inl (Or.inl (Or.inl (Or.inl ⟨⟨(hfree _ hf).mpr hv, hf⟩, hm⟩)))
      · exact Or.inl (Or.inl (Or.inl (Or.inr ⟨⟨hr, hf⟩, ⟨hf2, (hfree _ hf2).mpr hv⟩, hm⟩)))
      · exact Or.inl (Or.inl (Or.inr ⟨hc, hm⟩))
      · exact Or.inl (Or.inr ⟨hc, hm⟩)
      · exact Or.inr ⟨⟨⟨⟨⟨h1, h2⟩, h3⟩, h4⟩, h5⟩, h6⟩

theorem mem_pawnAddMove {c : Bool} {p : Piece} {board : Board} {newPos : Position} {m : Move} :
    m ∈ pawnAddMove c p board newPos ↔
      (newPos.1 ≠ lastRow c ∧ m = Move.ofBoard board .normalMove p.position newPos) ∨
      (newPos.1 = lastRow c ∧ (m = Move.ofBoard board .queenPromotion p.position newPos ∨
        m = Move.ofBoard board .knightPromotion p.position newPos)) := by
  unfold pawnAddMove
  by_cases h : newPos.1 = lastRow c
  · rw [if_neg (not_not.mpr h)]
    simp [h]
  · rw [if_pos h]
    simp [h]

/-- A move starts on the square of the piece it was generated for. -/
theorem fromPos_of_mem_getMoves {flags : Flags} {p : Piece} {c : Bool} {board : Board} {m : Move}
    (hp : p ∈ board.piecesOf c) (hm : m ∈ p.getMoves flags board) : m.fromPos = p.position := by
  obtain ⟨hon, hc⟩ := Board.mem_piecesOf.mp hp
  by_cases hpawn : p.type = PieceType.pawnOf c
  · obtain ⟨type, pos⟩ := p
    obtain rfl : type = PieceType.pawnOf c := hpawn
    have step : ∀ newPos, m ∈ pawnAddMove c ⟨PieceType.pawnOf c, pos⟩ board newPos →
        m.fromPos = pos := by
      intro newPos h
      rcases mem_pawnAddMove.mp h with ⟨-, rfl⟩ | ⟨-, rfl | rfl⟩ <;> rfl
    rcases mem_getMoves_pawn.mp hm with ⟨-, -, h⟩ | ⟨-, -, -, -, rfl⟩ | ⟨_, -, -, h⟩ |
      ⟨-, -, -, -, -, rfl⟩
    · exact step _ h
    · rfl
    · exact step _ h
    · rfl
  · obtain ⟨tgt, -, -, -, rfl⟩ := (mem_getMoves_of_not_pawn hc hon hpawn).mp hm
    rfl

/-! ## Nothing is generated twice -/

theorem nodup_addMovesFromLine (p : Piece) (board : Board) {step : DeltaMove}
    (hstep : step ∈ Queen.steps) : (p.addMovesFromLine board step).Nodup := by
  refine nodup_collect _ _ _ _ (fun pos => ?_) _ _ fun j k _ hjk m hm hm' => ?_
  · split
    · exact List.nodup_singleton _
    · exact List.nodup_nil
  · rw [List.mem_ite_nil_right, List.mem_singleton] at hm hm'
    have hto : p.position + k • step = p.position + j • step :=
      (congrArg Move.toPos hm'.2).symm.trans (congrArg Move.toPos hm.2)
    exact Nat.ne_of_gt hjk (line_injective hstep hto)

theorem nodup_slide {p : Piece} {c : Bool} (hc : p.type.HasColor c) {board : Board}
    (hpos : isValidPosition p.position = true) {steps : List DeltaMove} (hnodup : steps.Nodup)
    (hsub : ∀ step ∈ steps, step ∈ Queen.steps) :
    (steps.flatMap (p.addMovesFromLine board)).Nodup := by
  refine List.nodup_flatMap.mpr ⟨fun step h => nodup_addMovesFromLine p board (hsub step h), ?_⟩
  refine hnodup.imp_of_mem fun {s s'} hs hs' hne m hm hm' => hne ?_
  -- a move on two lines would be to a square where the lines meet
  obtain ⟨t, -, -, ⟨j, hj, ht, -⟩, rfl⟩ := (mem_addMovesFromLine hc hpos (hsub s hs)).mp hm
  obtain ⟨t', -, -, ⟨k, hk, ht', -⟩, heq⟩ := (mem_addMovesFromLine hc hpos (hsub s' hs')).mp hm'
  obtain rfl : t = t' := congrArg Move.toPos heq
  exact lines_meet (hsub s hs) (hsub s' hs') hj hk (ht.symm.trans ht')

theorem nodup_addMovesFromOffsets (p : Piece) (board : Board) {offsets : List DeltaMove}
    (hnodup : offsets.Nodup) : (p.addMovesFromOffsets board offsets).Nodup := by
  refine List.nodup_flatMap.mpr ⟨fun delta _ => ?_, ?_⟩
  · split
    · exact List.nodup_singleton _
    · exact List.nodup_nil
  · refine hnodup.imp fun {d d'} hne m hm hm' => hne ?_
    rw [List.mem_ite_nil_right, List.mem_singleton] at hm hm'
    have hto : p.position + d = p.position + d' :=
      (congrArg Move.toPos hm.2).symm.trans (congrArg Move.toPos hm'.2)
    exact add_left_cancel hto

/-- The moves are pairwise different, and all of them go to one square, not en passant. -/
structure OneTarget (moves : List Move) (tgt : Position) : Prop where
  nodup : moves.Nodup
  toPos_eq : ∀ m ∈ moves, m.toPos = tgt
  notEnPassant : ∀ m ∈ moves, m.special ≠ .pawnEnPassant

theorem OneTarget.ite {moves : List Move} {tgt : Position} (h : OneTarget moves tgt) (c : Prop)
    [Decidable c] : OneTarget (if c then moves else []) tgt := by
  split
  · exact h
  · exact ⟨List.nodup_nil, fun m hm => absurd hm List.not_mem_nil,
      fun m hm => absurd hm List.not_mem_nil⟩

theorem OneTarget.single (board : Board) (src tgt : Position) :
    OneTarget [Move.ofBoard board .normalMove src tgt] tgt := by
  refine ⟨List.nodup_singleton _, fun m hm => ?_, fun m hm => ?_⟩ <;>
  · obtain rfl := List.mem_singleton.mp hm
    simp [Move.ofBoard]

theorem OneTarget.pawnAddMove (c : Bool) (p : Piece) (board : Board) (tgt : Position) :
    OneTarget (pawnAddMove c p board tgt) tgt := by
  refine ⟨?_, fun m hm => ?_, fun m hm => ?_⟩
  · unfold Chess.pawnAddMove
    split <;> simp [Move.ofBoard]
  all_goals
    rcases mem_pawnAddMove.mp hm with ⟨-, rfl⟩ | ⟨-, rfl | rfl⟩ <;> simp [Move.ofBoard]

theorem OneTarget.disjoint {l l' : List Move} {t t' : Position} (h : OneTarget l t)
    (h' : OneTarget l' t') (hne : t ≠ t') : l.Disjoint l' := fun m hm hm' =>
  hne ((h.toPos_eq m hm).symm.trans (h'.toPos_eq m hm'))

/-- The five kinds of pawn moves in a row, with the squares they go to. -/
theorem nodup_pawnParts {one two left right passant : List Move} {t₁ t₂ t₃ t₄ : Position}
    (h₁ : OneTarget one t₁) (h₂ : OneTarget two t₂) (h₃ : OneTarget left t₃)
    (h₄ : OneTarget right t₄) (hne : [t₁, t₂, t₃, t₄].Nodup) (hp : passant.Nodup)
    (hp' : ∀ m ∈ passant, m.special = .pawnEnPassant) :
    (one ++ two ++ left ++ right ++ passant).Nodup := by
  have hpassant : ∀ {l : List Move} {t : Position}, OneTarget l t → l.Disjoint passant :=
    fun h m hm hm' => h.notEnPassant m hm (hp' m hm')
  simp only [List.nodup_cons, List.mem_cons, List.not_mem_nil, or_false, not_or] at hne
  obtain ⟨⟨h12, h13, h14⟩, ⟨h23, h24⟩, h34, -⟩ := hne
  simp only [List.nodup_append', List.disjoint_append_left]
  exact ⟨⟨⟨⟨h₁.nodup, h₂.nodup, h₁.disjoint h₂ h12⟩, h₃.nodup, h₁.disjoint h₃ h13,
    h₂.disjoint h₃ h23⟩, h₄.nodup, ⟨h₁.disjoint h₄ h14, h₂.disjoint h₄ h24⟩, h₃.disjoint h₄ h34⟩,
    hp, ⟨⟨hpassant h₁, hpassant h₂⟩, hpassant h₃⟩, hpassant h₄⟩

theorem nodup_getMoves_pawn (flags : Flags) (c : Bool) (pos : Position) (board : Board) :
    (Piece.getMoves flags ⟨PieceType.pawnOf c, pos⟩ board).Nodup := by
  have hpassant : ∀ (cond : Prop) [Decidable cond] (tgt : Position),
      (if cond then [Move.ofBoard board .pawnEnPassant pos tgt] else []).Nodup ∧
        ∀ m ∈ (if cond then [Move.ofBoard board .pawnEnPassant pos tgt] else []),
          m.special = .pawnEnPassant := by
    intro cond _ tgt
    split <;> simp [Move.ofBoard]
  cases c
  · refine nodup_pawnParts ((OneTarget.pawnAddMove false _ board _).ite _)
      (((OneTarget.single board pos _).ite _).ite _)
      ((OneTarget.pawnAddMove false _ board _).ite _)
      ((OneTarget.pawnAddMove false _ board _).ite _) ?_ (hpassant _ _).1 (hpassant _ _).2
    simp [Piece.row, Piece.col]
    omega
  · refine nodup_pawnParts ((OneTarget.pawnAddMove true _ board _).ite _)
      (((OneTarget.single board pos _).ite _).ite _)
      ((OneTarget.pawnAddMove true _ board _).ite _)
      ((OneTarget.pawnAddMove true _ board _).ite _) ?_ (hpassant _ _).1 (hpassant _ _).2
    simp [Piece.row, Piece.col]
    omega

/-- **No move is generated twice for one piece.** -/
theorem nodup_getMoves {flags : Flags} {p : Piece} {c : Bool} {board : Board}
    (hp : p ∈ board.piecesOf c) : (p.getMoves flags board).Nodup := by
  obtain ⟨hon, hc⟩ := Board.mem_piecesOf.mp hp
  have hne : board.getPieceTypeAtPosition p.position ≠ .empty := hon ▸ hc.1
  have hpos := Board.valid_of_ne_empty hne
  have slide : ∀ type : PieceType, type.slideSteps.Nodup →
      (type.slideSteps.flatMap (p.addMovesFromLine board)).Nodup := fun type h =>
    nodup_slide hc hpos h fun step hs => type.slideSteps_subset hs
  have king : King.getMoves flags p board = p.addMovesFromOffsets board King.kDelta := by
    simp [King.getMoves, not_canCastle hne]
  obtain ⟨type, pos⟩ := p
  cases type
  case empty => exact List.nodup_nil
  case wPawn => exact nodup_getMoves_pawn flags false pos board
  case bPawn => exact nodup_getMoves_pawn flags true pos board
  case wRook | bRook => exact slide .wRook (by decide)
  case wBishop | bBishop => exact slide .wBishop (by decide)
  case wQueen | bQueen => exact slide .wQueen (by decide)
  case wKnight | bKnight => exact nodup_addMovesFromOffsets _ board (by decide)
  case wKing | bKing =>
    rw [Piece.getMoves, king]
    exact nodup_addMovesFromOffsets _ board (by decide)

theorem Board.nodup_pieces (board : Board) : board.pieces.Nodup := by
  refine squares_nodup.filterMap fun sq sq' p hp hp' => ?_
  rw [Option.mem_def, safePiece_eq_some] at hp hp'
  exact congrArg Piece.position (hp.1.symm.trans hp'.1)

/-- **No move of a side is generated twice.** -/
theorem Board.nodup_legalMoves (flags : Flags) (board : Board) (c : Bool) :
    (board.legalMoves flags c).Nodup := by
  refine List.nodup_flatMap.mpr ⟨fun p hp => (nodup_getMoves hp).filter _, ?_⟩
  refine (board.nodup_pieces.filter _).imp_of_mem fun {p q} hp hq hne m hm hm' => hne ?_
  have hpos : p.position = q.position :=
    (fromPos_of_mem_getMoves hp (List.mem_of_mem_filter hm)).symm.trans
      (fromPos_of_mem_getMoves hq (List.mem_of_mem_filter hm'))
  obtain ⟨hp, -⟩ := Board.mem_piecesOf.mp hp
  obtain ⟨hq, -⟩ := Board.mem_piecesOf.mp hq
  obtain ⟨tp, sp⟩ := p
  obtain ⟨tq, sq⟩ := q
  obtain rfl : sp = sq := hpos
  obtain rfl : tp = tq := hp.symm.trans hq
  rfl

end Chess
