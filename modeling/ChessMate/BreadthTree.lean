import ChessMate.NextStates
import ChessMate.BreadthValue

/-! # The boards of the breadth-first tree

The boards that the solver makes differ from those of the generated moves in two
ways.  Both boards of a promotion record the queen promotion as their last move,
which play cannot tell apart (`Board.Alike`), and white takes en passant without
removing the pawn (`Move.asMade`).  Up to this, `expand` makes the boards of the
moves that leave the mover's king safe (`mem_nextBoards`, `exists_mem_nextBoards`).

Each board of the tree has one king of each colour, a last move that was made, and
a side that has just moved which is not attacked (`TreeBoard`).
-/
namespace Chess
open LineWalk

/-! ## Boards that play cannot tell apart -/

/-- The boards agree in what the moves that are generated on them depend on. -/
structure Board.Alike (b b' : Board) : Prop where
  positions : b.positions = b'.positions
  kings : ∀ c, b.kingPosition c = b'.kingPosition c
  lastFrom : b.lastMove.fromPos = b'.lastMove.fromPos
  lastTo : b.lastMove.toPos = b'.lastMove.toPos
  lastType : b.lastMove.fromType = b'.lastMove.fromType

namespace Board.Alike
variable {flags : Flags} {b b' b'' : Board} {c : Bool} {m : Move}

theorem refl (b : Board) : b.Alike b := ⟨rfl, fun _ => rfl, rfl, rfl, rfl⟩

theorem symm (h : b.Alike b') : b'.Alike b :=
  ⟨h.positions.symm, fun c => (h.kings c).symm, h.lastFrom.symm, h.lastTo.symm, h.lastType.symm⟩

theorem trans (h : b.Alike b') (h' : b'.Alike b'') : b.Alike b'' :=
  ⟨h.positions.trans h'.positions, fun c => (h.kings c).trans (h'.kings c),
    h.lastFrom.trans h'.lastFrom, h.lastTo.trans h'.lastTo, h.lastType.trans h'.lastType⟩

theorem withScore (b : Board) (score : Int) : (b.withScore score).Alike b :=
  ⟨rfl, fun c => by cases c <;> rfl, rfl, rfl, rfl⟩

theorem get (h : b.Alike b') (sq : Position) :
    b.getPieceTypeAtPosition sq = b'.getPieceTypeAtPosition sq := get_congr_positions h.positions sq

theorem isChecked (h : b.Alike b') (c : Bool) : b.isChecked c = b'.isChecked c := by
  rw [Bool.eq_iff_iff, isChecked_iff, isChecked_iff]
  simp only [canAttack_congr_positions h.positions, h.get, h.kings]

theorem kingsOk (h : b.Alike b') (hk : KingsOk b) : KingsOk b' := by
  intro c sq
  rw [← h.get, ← h.kings]
  exact hk c sq

theorem doubleStepOk (h : b.Alike b') (hd : b.DoubleStepOk) : b'.DoubleStepOk := by
  intro c htype hfrom hto
  rw [← h.lastType] at htype
  rw [← h.lastFrom] at hfrom ⊢
  rw [← h.lastTo] at hto ⊢
  rw [← h.get, ← h.get]
  exact hd c htype hfrom hto

theorem mem_piecesOf (h : b.Alike b') {p : Piece} (hp : p ∈ b.piecesOf c) : p ∈ b'.piecesOf c := by
  rw [Board.mem_piecesOf] at hp ⊢
  rw [← h.get]
  exact hp

/-- **The same moves are generated on them.** -/
theorem mem_getMoves (h : b.Alike b') {p : Piece} (hp : p ∈ b.piecesOf c)
    (hm : m ∈ p.getMoves flags b) : m ∈ p.getMoves flags b' := by
  by_cases hs : m.special = .pawnEnPassant
  swap
  · exact mem_getMoves_congr h.positions hp hs hm
  obtain ⟨hon, hc⟩ := Board.mem_piecesOf.mp hp
  by_cases hpawn : p.type = PieceType.pawnOf c
  · obtain ⟨type, pos⟩ := p
    obtain rfl : type = PieceType.pawnOf c := hpawn
    rw [mem_getMoves_pawn] at hm ⊢
    rcases hm with ⟨-, -, hm⟩ | ⟨-, -, -, -, rfl⟩ | ⟨col, -, -, hm⟩ |
      ⟨hrow, htype, hfrom, hto, hcol, rfl⟩
    · obtain ⟨special, hk, rfl⟩ := mem_pawnAddMove_iff.mp hm
      obtain rfl : special = .pawnEnPassant := hs
      exact hk.elim
    · cases hs
    · obtain ⟨special, hk, rfl⟩ := mem_pawnAddMove_iff.mp hm
      obtain rfl : special = .pawnEnPassant := hs
      exact hk.elim
    · refine Or.inr (Or.inr (Or.inr ⟨hrow, h.lastType ▸ htype, h.lastFrom ▸ hfrom, h.lastTo ▸ hto,
        h.lastFrom ▸ hcol, ?_⟩))
      rw [← h.lastFrom]
      exact Move.ofBoard_congr h.positions _ _ _
  · obtain ⟨tgt, -, -, -, rfl⟩ := (mem_getMoves_of_not_pawn hc hon hpawn).mp hm
    cases hs

/-- A move leads from boards alike to boards alike. -/
theorem makeMove (h : b.Alike b') (hg : Generated b c m) (hg' : Generated b' c m) :
    (b.makeMove m).Alike (b'.makeMove m) where
  positions := by
    refine positions_ext fun sq => ?_
    rw [makeMove_getPieceTypeAtPosition, makeMove_getPieceTypeAtPosition, hg.get_apply,
      hg'.get_apply, h.get]
  kings c' := by
    rw [makeMove_kingPosition, makeMove_kingPosition, hg.kingPosition_apply, hg'.kingPosition_apply,
      h.kings]
  lastFrom := rfl
  lastTo := rfl
  lastType := rfl

end Board.Alike

/-! ## The moves as they are made -/

/-- The move that the solver makes for a generated one: white's en passant leaves the
pawn where it is. -/
def Move.asMade (m : Move) : Move :=
  if m.special = .pawnEnPassant ∧ m.fromType = .wPawn then { m with special := .normalMove } else m

/-- The piece of the side can move so, its own king aside. -/
def Board.HasMove (flags : Flags) (b : Board) (c : Bool) (m : Move) : Prop :=
  ∃ p ∈ b.piecesOf c, m ∈ p.getMoves flags b

/-- The move, as it is made, leaves the mover's king safe. -/
def Board.SafeMove (flags : Flags) (b : Board) (c : Bool) (m : Move) : Prop :=
  b.HasMove flags c m ∧ (b.makeMove m.asMade).isChecked c = false

section AsMade
variable {flags : Flags} {b b' : Board} {c : Bool} {m : Move} {p : Piece}

theorem Generated.asMade (hg : Generated b c m) : Generated b c m.asMade := by
  unfold Move.asMade
  split
  · rename_i h
    have h' := hg.rederived .wPawn
    rw [h.1] at h'
    exact h'
  · exact hg

theorem Board.HasMove.generated (h : b.HasMove flags c m) (hb : b.DoubleStepOk) :
    Generated b c m := by
  obtain ⟨p, hp, hm⟩ := h
  exact hb.generated hp hm

theorem Board.isLegal_iff_hasMove :
    b.IsLegal flags c m ↔ b.HasMove flags c m ∧ (b.makeMove m).isChecked c = false := by
  constructor
  · rintro ⟨p, hp, hm, hsafe⟩
    exact ⟨⟨p, hp, hm⟩, hsafe⟩
  · rintro ⟨⟨p, hp, hm⟩, hsafe⟩
    exact ⟨p, hp, hm, hsafe⟩

theorem Board.Alike.hasMove (h : b.Alike b') (hm : b.HasMove flags c m) : b'.HasMove flags c m := by
  obtain ⟨p, hp, hm⟩ := hm
  exact ⟨p, h.mem_piecesOf hp, h.mem_getMoves hp hm⟩

/-- The boards alike that a safe move leads to. -/
theorem Board.Alike.safeMove (h : b.Alike b') (hb : b.DoubleStepOk) (hm : b.SafeMove flags c m) :
    b'.SafeMove flags c m ∧ (b.makeMove m.asMade).Alike (b'.makeMove m.asMade) := by
  have hm' := h.hasMove hm.1
  have halike := h.makeMove (hm.1.generated hb).asMade (hm'.generated (h.doubleStepOk hb)).asMade
  exact ⟨⟨hm', (halike.isChecked c).symm.trans hm.2⟩, halike⟩

/-- A move that is no promotion is made as `asMade` says. -/
theorem nextBoard_eq_asMade (hb : b.DoubleStepOk) (hp : p ∈ b.pieces) (hm : m ∈ p.getMoves flags b)
    (hs : m.special ≠ .knightPromotion) : p.nextBoard b m = b.makeMove m.asMade := by
  have hp' := Board.mem_piecesOf_of_mem hp
  have hg := hb.generated hp' hm
  have htype : p.type = m.fromType := by
    rw [hg.fromType_eq, fromPos_of_mem_getMoves hp' hm]
    exact (Board.mem_pieces.mp hp).1.symm
  rw [Piece.nextBoard, derivedMove_eq hb hp hm, htype]
  obtain ⟨special, src, tgt, fromType, toType⟩ := m
  cases special with
  | normalMove | queenPromotion | kingCastling => rfl
  | knightPromotion => exact absurd rfl hs
  | pawnEnPassant =>
    obtain rfl : fromType = PieceType.pawnOf p.type.isBlack := (hg.enPassant rfl).fromType_eq
    cases p.type.isBlack <;> rfl

/-- A promoted board is, up to its last move, the board of that promotion. -/
theorem alike_promoted (hg : Generated b c m) (hs : m.special = .queenPromotion)
    {special : SpecialType} (hg' : Generated b c { m with special := special })
    (hspecial : special = .queenPromotion ∨ special = .knightPromotion) :
    ((b.makeMove m).set (Move.newType { m with special := special }) m.toPos).Alike
      (b.makeMove { m with special := special }) := by
  have hpawn := hg.pawnPromoted (Or.inl hs)
  have hvac : ∀ sq, Move.Vacates { m with special := special } sq ↔ m.Vacates sq := by
    intro sq
    rcases hspecial with rfl | rfl <;> simp [Move.Vacates, hs]
  have hking : ∀ c', m.fromType ≠ PieceType.kingOf c' := by
    intro c' h
    rw [hpawn] at h
    revert h
    cases c <;> cases c' <;> decide
  have hlast : ((b.makeMove m).set (Move.newType { m with special := special }) m.toPos).lastMove = m :=
    Board.set_lastMove _ _ _
  refine ⟨Board.positions_ext fun sq => ?_, fun c' => ?_, by rw [hlast]; rfl, by rw [hlast]; rfl,
    by rw [hlast]; rfl⟩
  · rw [Board.getPieceTypeAtPosition_set _ _ hg.validTo, Board.makeMove_getPieceTypeAtPosition,
      Board.makeMove_getPieceTypeAtPosition, hg.get_apply, hg'.get_apply]
    by_cases h1 : sq = m.toPos
    · rw [if_pos h1, if_pos h1]
    · rw [if_neg h1, if_neg h1, if_neg h1]
      simp only [hvac]
  · rw [Board.set_kingPosition, if_neg, Board.makeMove_kingPosition, Board.makeMove_kingPosition,
      hg.kingPosition_apply, hg'.kingPosition_apply]
    rw [hg'.newType_eq_kingOf_iff]
    exact hking c'

/-- The two boards of a promotion. -/
theorem alike_promotions (hb : b.DoubleStepOk) (hp : p ∈ b.pieces) (hm : m ∈ p.getMoves flags b)
    (hs : m.special = .queenPromotion ∨ m.special = .knightPromotion) :
    p.nextBoard b m = b.makeMove { m with special := .queenPromotion } ∧
      ((p.nextBoard b m).set (if p.type.isBlack then .bQueen else .wQueen) m.toPos).Alike
        (b.makeMove { m with special := .queenPromotion }) ∧
      ((p.nextBoard b m).set (if p.type.isBlack then .bKnight else .wKnight) m.toPos).Alike
        (b.makeMove { m with special := .knightPromotion }) := by
  have hp' := Board.mem_piecesOf_of_mem hp
  obtain ⟨hq, hn⟩ := promotions_of_mem hp hm hs
  have hgq := hb.generated hp' hq
  have htype : m.fromType = p.type := by
    rw [hgq.fromType_eq]
    show b.getPieceTypeAtPosition m.fromPos = p.type
    rw [fromPos_of_mem_getMoves hp' hm]
    exact (Board.mem_pieces.mp hp).1
  have hboard : p.nextBoard b m = b.makeMove { m with special := .queenPromotion } :=
    nextBoard_eq_asMade hb hp hq (by simp)
  have hqueen := alike_promoted hgq rfl hgq (Or.inl rfl)
  have hknight := alike_promoted hgq rfl (hb.generated hp' hn) (Or.inr rfl)
  rw [hboard]
  rw [← htype]
  exact ⟨rfl, hqueen, hknight⟩

/-- The boards that are made for a generated move. -/
theorem mem_nextStatesOf {s : Board} (hb : b.DoubleStepOk)
    (hv : isValidPosition (b.kingPosition p.type.isBlack) = true) (hp : p ∈ b.pieces)
    (hm : m ∈ p.getMoves flags b) (hs : s ∈ p.nextStatesOf b m) :
    ∃ m' ∈ p.getMoves flags b, (b.makeMove m'.asMade).isChecked p.type.isBlack = false ∧
      s.Alike (b.makeMove m'.asMade) := by
  rw [nextStatesOf_eq] at hs
  split at hs
  · cases hs
  rename_i hsafe
  rw [Bool.not_eq_true] at hsafe
  split at hs
  · rename_i hkind
    have hspecial := (moveKind_eq_queenPromotion_iff hb hp hm).mp hkind
    obtain ⟨hq, hn⟩ := promotions_of_mem hp hm hspecial
    obtain ⟨hboard, hqueen, hknight⟩ := alike_promotions hb hp hm hspecial
    rw [hboard] at hsafe
    rw [List.mem_cons, List.mem_singleton] at hs
    rcases hs with rfl | rfl
    · exact ⟨_, hq, hsafe, hqueen⟩
    · refine ⟨_, hn, ?_, hknight⟩
      have hgn := hb.generated (Board.mem_piecesOf_of_mem hp) hn
      exact (hgn.isChecked_promoted hv rfl).symm.trans hsafe
  · rename_i hkind
    rw [List.mem_singleton] at hs
    subst hs
    have hspecial : m.special ≠ .knightPromotion := by
      intro h
      exact hkind ((moveKind_eq_queenPromotion_iff hb hp hm).mpr (Or.inr h))
    rw [nextBoard_eq_asMade hb hp hm hspecial] at hsafe ⊢
    exact ⟨m, hm, hsafe, .refl _⟩

/-- A safe move has its board. -/
theorem exists_mem_nextStatesOf (hb : b.DoubleStepOk)
    (hv : isValidPosition (b.kingPosition p.type.isBlack) = true) (hp : p ∈ b.pieces)
    (hm : m ∈ p.getMoves flags b)
    (hsafe : (b.makeMove m.asMade).isChecked p.type.isBlack = false) :
    ∃ s ∈ p.nextStatesOf b m, s.Alike (b.makeMove m.asMade) := by
  rw [nextStatesOf_eq]
  by_cases hkind : b.moveKind p.position m.toPos = .queenPromotion
  · rw [if_pos hkind]
    have hspecial := (moveKind_eq_queenPromotion_iff hb hp hm).mp hkind
    obtain ⟨hboard, hqueen, hknight⟩ := alike_promotions hb hp hm hspecial
    have hg := hb.generated (Board.mem_piecesOf_of_mem hp) hm
    obtain ⟨special, src, tgt, fromType, toType⟩ := m
    rcases hspecial with h | h
    · obtain rfl : special = .queenPromotion := h
      have hsafe' : (p.nextBoard b _).isChecked p.type.isBlack = false := hboard ▸ hsafe
      rw [if_neg (by rw [hsafe']; decide)]
      exact ⟨_, List.mem_cons_self, hqueen⟩
    · obtain rfl : special = .knightPromotion := h
      have hsafe' : (p.nextBoard b _).isChecked p.type.isBlack = false :=
        hboard ▸ (hg.isChecked_promoted hv rfl).trans hsafe
      rw [if_neg (by rw [hsafe']; decide)]
      exact ⟨_, List.mem_cons_of_mem _ List.mem_cons_self, hknight⟩
  · rw [if_neg hkind]
    have hspecial : m.special ≠ .knightPromotion := by
      intro h
      exact hkind ((moveKind_eq_queenPromotion_iff hb hp hm).mpr (Or.inr h))
    rw [nextBoard_eq_asMade hb hp hm hspecial, if_neg (by rw [hsafe]; decide)]
    exact ⟨_, List.mem_cons_self, .refl _⟩

end AsMade

/-! ## The boards that `expand` makes -/

/-- The side that moves when layer `layerNum` is made. -/
def mover (first : Bool) (layerNum : Nat) : Bool := if layerNum % 2 = 1 then first else !first

theorem mover_succ (first : Bool) (layerNum : Nat) :
    mover first (layerNum + 1) = !mover first layerNum := by
  unfold mover
  rcases Nat.mod_two_eq_zero_or_one layerNum with h | h
  · rw [if_pos (by omega), if_neg (by omega), Bool.not_not]
  · rw [if_neg (by omega), if_pos h]

/-- **A board of the tree**, with `c` to move. -/
structure TreeBoard (b : Board) (c : Bool) : Prop where
  kings : KingsOk b
  last : b.DoubleStepOk
  notAttacked : b.isChecked (!c) = false

section Expand
variable {flags : Flags} {first : Bool} {l : Nat} {b b' s : Board} {c : Bool} {m : Move}

theorem TreeBoard.alike (h : TreeBoard b c) (ha : b.Alike b') : TreeBoard b' c :=
  ⟨ha.kingsOk h.kings, ha.doubleStepOk h.last, (ha.isChecked (!c)).symm.trans h.notAttacked⟩

/-- A safe move leads from a board of the tree to one. -/
theorem TreeBoard.makeMove (h : TreeBoard b c) (hm : b.SafeMove flags c m) :
    TreeBoard (b.makeMove m.asMade) (!c) := by
  have hg := (hm.1.generated h.last).asMade
  refine ⟨?_, ?_, ?_⟩
  · intro c' sq
    exact h.kings.apply hg (h.kings.not_takes_king h.notAttacked hg) c' sq
  · exact MadeBy.doubleStepOk ⟨hg, rfl⟩
  · rw [Bool.not_not]
    exact hm.2

/-- The pieces that are asked for their next states. -/
theorem nextBoards_eq (flags : Flags) (first : Bool) (l : Nat) (b : Board) :
    b.nextBoards flags first l =
      ((b.withScore (b.expandScore first l)).piecesOf (mover first l)).flatMap fun p =>
        p.getNextStates flags (b.withScore (b.expandScore first l)) := rfl

/-- **Every board that is made is that of a safe move.** -/
theorem mem_nextBoards (h : TreeBoard b (mover first l)) (hs : s ∈ b.nextBoards flags first l) :
    ∃ m, b.SafeMove flags (mover first l) m ∧ s.Alike (b.makeMove m.asMade) := by
  have halike := Board.Alike.withScore b (b.expandScore first l)
  have h' := h.alike halike.symm
  rw [nextBoards_eq, List.mem_flatMap] at hs
  obtain ⟨p, hp, hs⟩ := hs
  obtain ⟨m, hm, hs⟩ := List.mem_flatMap.mp hs
  have hcolor : p.type.isBlack = mover first l := (Board.mem_piecesOf.mp hp).2.2
  obtain ⟨m', hm', hsafe, hs⟩ := mem_nextStatesOf h'.last (h'.kings.valid_king _)
    (List.mem_of_mem_filter hp) hm hs
  rw [hcolor] at hsafe
  obtain ⟨hsafe, hmake⟩ := halike.safeMove h'.last ⟨⟨p, hp, hm'⟩, hsafe⟩
  exact ⟨m', hsafe, hs.trans hmake⟩

/-- **Every safe move has its board.** -/
theorem exists_mem_nextBoards (h : TreeBoard b (mover first l))
    (hm : b.SafeMove flags (mover first l) m) :
    ∃ s ∈ b.nextBoards flags first l, s.Alike (b.makeMove m.asMade) := by
  have halike := (Board.Alike.withScore b (b.expandScore first l)).symm
  have h' := h.alike halike
  obtain ⟨⟨⟨p, hp, hm'⟩, hsafe⟩, hmake⟩ := halike.safeMove h.last hm
  have hcolor : p.type.isBlack = mover first l := (Board.mem_piecesOf.mp hp).2.2
  rw [← hcolor] at hsafe
  obtain ⟨s, hs, hsm⟩ := exists_mem_nextStatesOf h'.last (h'.kings.valid_king _)
    (List.mem_of_mem_filter hp) hm' hsafe
  refine ⟨s, ?_, hsm.trans hmake.symm⟩
  rw [nextBoards_eq, List.mem_flatMap]
  exact ⟨p, hp, List.mem_flatMap.mpr ⟨m, hm', hs⟩⟩

/-- The boards of the next layer. -/
theorem TreeBoard.next (h : TreeBoard b (mover first l)) (hs : s ∈ b.nextBoards flags first l) :
    TreeBoard s (mover first (l + 1)) := by
  obtain ⟨m, hm, ha⟩ := mem_nextBoards h hs
  rw [mover_succ]
  exact (h.makeMove hm).alike ha.symm

/-- A board is made with the score of the board that it is made from. -/
theorem score_of_mem_nextBoards (hs : s ∈ b.nextBoards flags first l) :
    s.score = b.expandScore first l := by
  rw [nextBoards_eq, List.mem_flatMap] at hs
  obtain ⟨p, -, hs⟩ := hs
  obtain ⟨m, -, hs⟩ := List.mem_flatMap.mp hs
  have hnext : (p.nextBoard (b.withScore (b.expandScore first l)) m).score = b.expandScore first l :=
    Board.makeMove_score _ _
  rw [nextStatesOf_eq] at hs
  split at hs
  · cases hs
  · split at hs
    · rw [List.mem_cons, List.mem_singleton] at hs
      rcases hs with rfl | rfl <;> rw [Board.set_score, hnext]
    · rw [List.mem_singleton.mp hs, hnext]

/-- Every board of every layer is a board of the tree. -/
theorem treeBoard_of_mem_layerBoards {boards : List Board} {k : Nat}
    (h : ∀ b ∈ boards, TreeBoard b (mover first l)) (hs : s ∈ layerBoards flags first l k boards) :
    TreeBoard s (mover first (l + k)) := by
  induction k generalizing l boards with
  | zero => exact h s hs
  | succ k ih =>
    rw [show l + (k + 1) = l + 1 + k by omega]
    refine ih (fun b' hb' => ?_) hs
    obtain ⟨b, hb, hb'⟩ := List.mem_flatMap.mp hb'
    exact (h b hb).next hb'

end Expand
end Chess
