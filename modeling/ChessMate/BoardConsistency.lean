import ChessMate.SearchTrace
import Mathlib.Data.Finset.Card

/-! # Boards stay consistent over whole searches

The squares of one colour, as a set: a move takes its piece from one square to
another, and takes at most one square from the other colour, the target or the
square of a pawn captured en passant.  Counts follow from the sets.  With the
kings and the pawns this is what every board of a search satisfies, relative to
the board it was made from (`boards_consistent`).
-/
namespace Chess
open ProgramLogic MateGame

/-! ## Counting pieces -/

/-- The squares that hold a piece of the colour. -/
def Board.occupied (b : Board) (c : Bool) : Finset Position :=
  squares.toFinset.filter fun sq => (b.getPieceTypeAtPosition sq).HasColor c

theorem Board.mem_occupied {b : Board} {c : Bool} {sq : Position} :
    sq ∈ b.occupied c ↔ (b.getPieceTypeAtPosition sq).HasColor c := by
  rw [occupied, Finset.mem_filter, List.mem_toFinset, mem_squares]
  exact ⟨fun h => h.2, fun h => ⟨valid_of_ne_empty h.1, h⟩⟩

theorem length_filterMap_ite {α β : Type} (p : α → Prop) [DecidablePred p] (f : α → β) (l : List α) :
    (l.filterMap fun x => if p x then some (f x) else none).length = (l.filter fun x => p x).length := by
  induction l with
  | nil => rfl
  | cons x l ih => by_cases h : p x <;> simp [h, ih]

/-- The number of pieces of a colour is the number of squares they stand on. -/
theorem Board.length_piecesOf (b : Board) (c : Bool) : (b.piecesOf c).length = (b.occupied c).card := by
  have hset : b.occupied c =
      (squares.filter fun sq => decide ((b.getPieceTypeAtPosition sq).HasColor c)).toFinset := by
    rw [List.toFinset_filter]
    simp only [decide_eq_true_eq, occupied]
  rw [piecesOf_eq_filterMap, length_filterMap_ite, hset,
    List.toFinset_card_of_nodup (squares_nodup.filter _)]

namespace Generated
variable {b : Board} {c : Bool} {m : Move}

/-- The mover's squares: one is left, another one is taken. -/
theorem occupied_apply (h : Generated b c m) :
    (m.apply b).occupied c = insert m.toPos ((b.occupied c).erase m.fromPos) := by
  ext sq
  rw [Board.mem_occupied, Finset.mem_insert, Finset.mem_erase, Board.mem_occupied, h.get_apply]
  by_cases h1 : sq = m.toPos
  · rw [if_pos h1]
    exact iff_of_true h.newType_hasColor (Or.inl h1)
  · rw [if_neg h1]
    by_cases h2 : m.Vacates sq
    · rw [if_pos h2]
      refine iff_of_false (PieceType.not_hasColor_empty c) ?_
      rintro (h3 | ⟨h3, h4⟩)
      · exact h1 h3
      · rcases h.vacated h2 with h5 | ⟨-, -, h5⟩
        · exact h3 h5
        · rw [h5] at h4
          exact h4.not_other (pawnOf_hasColor (!c))
    · rw [if_neg h2]
      constructor
      · exact fun h3 => Or.inr ⟨fun h4 => h2 (Or.inl h4), h3⟩
      · rintro (h3 | h3)
        · exact absurd h3 h1
        · exact h3.2

/-- The other side's squares: at most the captured piece's is lost. -/
theorem occupied_apply_other (h : Generated b c m) :
    (m.apply b).occupied (!c) =
      (b.occupied (!c)).erase (if m.special = .pawnEnPassant then m.enPassantPos else m.toPos) := by
  ext sq
  rw [Finset.mem_erase, Board.mem_occupied, Board.mem_occupied]
  constructor
  · intro hc
    obtain ⟨h1, h2, h3⟩ := h.other_of_apply hc
    refine ⟨?_, h3 ▸ hc⟩
    split_ifs with hs
    · exact fun h4 => h2 (Or.inr ⟨hs, h4⟩)
    · exact h1
  · rintro ⟨h1, hc⟩
    have h2 : sq ≠ m.toPos := by
      rintro rfl
      split_ifs at h1 with hs
      · rw [(h.enPassant hs).toEmpty] at hc
        exact PieceType.not_hasColor_empty _ hc
      · exact h1 rfl
    have h3 : ¬ m.Vacates sq := by
      rintro (rfl | ⟨hs, h4⟩)
      · rw [← h.fromType_eq] at hc
        exact h.mover.not_other hc
      · rw [if_pos hs] at h1
        exact h1 h4
    rw [h.get_apply_other h2 h3]
    exact hc

/-- **The mover keeps its pieces.** -/
theorem length_piecesOf (h : Generated b c m) :
    ((m.apply b).piecesOf c).length = (b.piecesOf c).length := by
  have hfrom : m.fromPos ∈ b.occupied c := Board.mem_occupied.mpr (h.fromType_eq ▸ h.mover)
  have hto : m.toPos ∉ (b.occupied c).erase m.fromPos := by
    rw [Finset.mem_erase, Board.mem_occupied, ← h.toType_eq]
    exact fun h' => h.target h'.2
  rw [Board.length_piecesOf, Board.length_piecesOf, h.occupied_apply, Finset.card_insert_of_notMem hto,
    Finset.card_erase_of_mem hfrom]
  have := Finset.card_pos.mpr ⟨_, hfrom⟩
  omega

/-- **A capture, en passant included, takes one piece from the other side, any
other move none.** -/
theorem length_piecesOf_other (h : Generated b c m) :
    ((m.apply b).piecesOf (!c)).length +
      (if m.toType ≠ .empty ∨ m.special = .pawnEnPassant then 1 else 0) =
        (b.piecesOf (!c)).length := by
  rw [Board.length_piecesOf, Board.length_piecesOf, h.occupied_apply_other]
  by_cases hs : m.special = .pawnEnPassant
  · have hmem : m.enPassantPos ∈ b.occupied (!c) := by
      rw [Board.mem_occupied, (h.enPassant hs).enPassantPos_eq, (h.enPassant hs).captured]
      exact pawnOf_hasColor (!c)
    rw [if_pos (Or.inr hs), if_pos hs, Finset.card_erase_of_mem hmem]
    have := Finset.card_pos.mpr ⟨_, hmem⟩
    omega
  · rw [if_neg hs]
    by_cases ht : m.toType = .empty
    · rw [if_neg (by simp [ht, hs]), Finset.erase_eq_of_notMem]
      · rfl
      · rw [Board.mem_occupied, ← h.toType_eq, ht]
        exact PieceType.not_hasColor_empty _
    · have hmem : m.toPos ∈ b.occupied (!c) := by
        rw [Board.mem_occupied, ← h.toType_eq]
        rcases PieceType.hasColor_or m.toType c with h' | h' | h'
        · exact absurd h' ht
        · exact absurd h' h.target
        · exact h'
      rw [if_pos (Or.inl ht), Finset.card_erase_of_mem hmem]
      have := Finset.card_pos.mpr ⟨_, hmem⟩
      omega

end Generated

/-! ## Pawns and the last row -/

/-- No pawn stands on the row on which it would be promoted. -/
def NoPawnOnLastRow (b : Board) : Prop :=
  ∀ c sq, b.getPieceTypeAtPosition sq = PieceType.pawnOf c → sq.1 ≠ lastRow c

theorem NoPawnOnLastRow.apply {b : Board} {c : Bool} {m : Move} (hb : NoPawnOnLastRow b)
    (h : Generated b c m) : NoPawnOnLastRow (m.apply b) := by
  intro c' sq hsq
  have hempty : PieceType.empty ≠ PieceType.pawnOf c' := by cases c' <;> decide
  by_cases h1 : sq = m.toPos
  · subst h1
    rw [h.get_apply_to] at hsq
    obtain rfl : c' = c := by
      have hc := h.newType_hasColor.2
      rw [hsq] at hc
      exact (pawnOf_hasColor c').2.symm.trans hc
    intro hrow
    have hsp : m.special ≠ .queenPromotion ∧ m.special ≠ .knightPromotion := by
      constructor <;> intro hs <;> simp only [Move.newType, hs, PieceType.getSameQueenType,
        PieceType.getSameKnightType] at hsq <;> split_ifs at hsq <;> cases c' <;> cases hsq
    have hfrom : m.fromType = PieceType.pawnOf c' := by
      unfold Move.newType at hsq
      split at hsq
      case h_1 hs => exact absurd hs hsp.1
      case h_2 hs => exact absurd hs hsp.2
      case h_3 => exact hsq
    rcases h.promoted hfrom hrow with hs | hs
    · exact hsp.1 hs
    · exact hsp.2 hs
  · by_cases h2 : m.Vacates sq
    · rw [h.get_apply_vacated h2] at hsq
      exact absurd hsq hempty
    · rw [h.get_apply_other h1 h2] at hsq
      exact hb c' sq hsq

/-! ## Whole searches -/

/-- A board made by a move of one side from another one: the kings, the pieces of
both sides, and the pawns, if the root of the search has none on its last row. -/
structure MadeConsistently (root b : Board) (c : Bool) (m : Move) (b' : Board) : Prop where
  kings : KingsOk b'
  mover : (b'.piecesOf c).length = (b.piecesOf c).length
  other : (b'.piecesOf (!c)).length +
    (if m.toType ≠ .empty ∨ m.special = .pawnEnPassant then 1 else 0) = (b.piecesOf (!c)).length
  pawns : NoPawnOnLastRow root → NoPawnOnLastRow b'

/-- The boards of an event are consistent, and `canMove` accepts no capture of a king. -/
def Event.BoardsConsistent {κ : Type} (flags : Flags) (root : Board) : Event κ → Prop
  | .expand r _ => KingsOk r.curBoard ∧ (NoPawnOnLastRow root → NoPawnOnLastRow r.curBoard) ∧
      ∀ p ∈ r.maxStepPieces, ∀ m ∈ p.getMoves flags r.curBoard,
        (r.canMove p m r.isMaxChecked r.curBoard).1 = true → m.toType.isKing = false
  | .maxMove r m s => MadeConsistently root r.curBoard r.blackFirst m s
  | .minStart r s => ∀ p ∈ r.uncapturedMinPieces s, ∀ m ∈ p.getMoves flags s,
      (r.canMove p m r.isMinChecked s).1 = true → m.toType.isKing = false
  | .minMove r m s next => MadeConsistently root s (!r.blackFirst) m next
  | _ => True

section Searches
variable {flags : Flags} {root : Board}

/-- A playable board without misplaced pawns, if the root has none. -/
def ConsistentWith (root b : Board) (c : Bool) : Prop :=
  Playable b c ∧ (NoPawnOnLastRow root → NoPawnOnLastRow b)

theorem ConsistentWith.makeMove {b : Board} {c : Bool} {m : Move} (h : ConsistentWith root b c)
    (hl : b.IsLegal flags c m) : ConsistentWith root (b.makeMove m) (!c) :=
  ⟨h.1.makeMove hl, fun hr => (h.2 hr).apply (h.1.generated hl)⟩

/-- **One move keeps a board consistent.** -/
theorem ConsistentWith.made {b : Board} {c : Bool} {m : Move} (h : ConsistentWith root b c)
    (hl : b.IsLegal flags c m) : MadeConsistently root b c m (b.makeMove m) where
  kings := (h.1.makeMove hl).kings
  mover := (h.1.generated hl).length_piecesOf
  other := (h.1.generated hl).length_piecesOf_other
  pawns := (h.makeMove hl).2

theorem Playable.not_isKing {b : Board} {c : Bool} {m : Move} (h : Playable b c)
    (hg : Generated b c m) : m.toType.isKing = false := by
  have hking : ∀ type : PieceType, type.isKing = true →
      type = PieceType.kingOf c ∨ type = PieceType.kingOf (!c) := by
    intro type
    cases c <;> cases type <;> decide
  rw [Bool.eq_false_iff]
  intro hk
  rcases hking _ hk with ht | ht
  · exact hg.target (ht ▸ PieceType.kingOf_hasColor c)
  · exact h.not_takes_king hg ht

/-- **The consistent boards are a region.** -/
theorem region_consistent (flags : Flags) (root : Board) :
    Region flags fun a => ConsistentWith root a.curBoard a.blackFirst := by
  intro a ha m hm _ m' hm'
  rw [AttackState.tried_eq ha.1, Board.mem_legalMoves] at hm
  have hd := played_of_attack ha.1 hm
  rw [hd.replies_eq, Board.mem_legalMoves] at hm'
  have h := (ha.makeMove hm).makeMove hm'
  rw [Bool.not_not] at h
  exact h

end Searches

/-- **Boards stay consistent over whole searches** from a loaded board on which the
side moving second is not attacked, whatever was searched before. -/
theorem boards_consistent {κ : Type} [DecidableEq κ] (flags : Flags) (order : MoveOrder)
    (hash : (Fin 8 → Fin 8 → PieceType) → κ) {earlier : List Search} {search : Search}
    {results : List (Int × OneRound)} {result : Int × OneRound} {w₀ w : World κ}
    (h₀ : Returns (runSearches flags order hash earlier) World.initial results w₀)
    (h : Returns (search.run flags order hash) w₀ result w)
    (hb : search.board.FileLoaded) (hsecond : search.board.isChecked (!search.blackFirst) = false) :
    w.Since w₀.trace (Event.BoardsConsistent flags search.board) := by
  have hroot : ConsistentWith search.board search.board search.blackFirst :=
    ⟨hb.playable hsecond, id⟩
  obtain ⟨new, hnew, hall⟩ := events_of_returns (region_consistent flags search.board) h₀ hroot h
  refine ⟨new, hnew, fun event he => ?_⟩
  have hok := hall event he
  cases event with
  | expand r n =>
    obtain ⟨hready, hP, -, -⟩ := hok
    refine ⟨hP.1.kings, hP.2, fun p hp m hm _ => hP.1.not_isKing ?_⟩
    have hpieces : r.maxStepPieces = r.curBoard.piecesOf r.blackFirst := hready.maxStepPieces
    rw [hpieces] at hp
    exact generated_of_mem hP.1.last hp hm
  | maxMove r m s =>
    obtain ⟨hr, hm, -, rfl⟩ := hok
    have hP : ConsistentWith _ r.curBoard r.blackFirst := hr.region
    rw [AttackState.tried_eq hP.1, Board.mem_legalMoves] at hm
    exact hP.made hm
  | minStart r s =>
    have hd := hok.1.played fun a ha => ha.1
    intro p hp m hm _
    have hlist : r.uncapturedMinPieces s = s.piecesOf (!r.blackFirst) :=
      ((hok.1.ready.agrees_defence s).uncapturedMinPieces_eq s).trans hd.uncaptured_eq
    rw [hlist] at hp
    exact hd.playable_after.not_isKing (generated_of_mem hd.playable_after.last hp hm)
  | minMove r m s next =>
    obtain ⟨hr, hm, rfl⟩ := hok
    have hd := hr.played fun a ha => ha.1
    rw [hd.replies_eq, Board.mem_legalMoves] at hm
    obtain ⟨m₁, hm₁, -, hs⟩ := hr.move
    have hP : ConsistentWith _ r.curBoard r.blackFirst := hr.region
    rw [AttackState.tried_eq hP.1, Board.mem_legalMoves] at hm₁
    have hcons : ConsistentWith search.board s (!r.blackFirst) := hs ▸ hP.makeMove hm₁
    exact hcons.made hm
  | _ => trivial

/-- Two levels of search from the rook mate. -/
theorem boards_consistent_rook_mate :
    ∃ result w, Returns (Search.run Flags.default .asGenerated placementKey
        ⟨Board.rookMate, false, 2⟩) World.initial result w ∧
      w.Since [] (Event.BoardsConsistent Flags.default Board.rookMate) := by
  have h₀ : Returns (runSearches Flags.default .asGenerated placementKey []) World.initial []
      World.initial := returns_pure _ _
  obtain ⟨result, w, h⟩ := returns_of_levels ⟨Board.rookMate, false, 2⟩ h₀
    (by decide) (by decide)
  have hall := boards_consistent Flags.default .asGenerated placementKey h₀ h
    Board.rookMate_fileLoaded Board.rookMate_second
  exact ⟨result, w, h, hall⟩

end Chess
