import ChessMate.Legality
import ChessMate.MateGame

/-! # The game that a search plays out

A round is searched from a position of the first side: the board, and the
parent's boards, which `isCircularMove` looks at.  After a first-side move there
is a position of the second side.  `searchGame` is the game between them with
exactly the moves that the loops of the search try: those `canMove` accepts,
less the first-side moves that `isCircularMove` rejects.

For boards that play reaches these are the legal moves (`tried_eq`,
`replies_eq`), so that the game is `prunedGame`, which knows nothing of piece
lists and scratch boards (`wins_searchGame_iff`).
-/
namespace Chess
open LineWalk MateGame

namespace OneRound

/-! ## What a round depends on -/

/-- The two rounds agree in what the move tests read: the board and the piece lists. -/
structure Agrees (r r' : OneRound) : Prop where
  curBoard : r.curBoard = r'.curBoard
  blackFirst : r.blackFirst = r'.blackFirst
  maxStepPieces : r.maxStepPieces = r'.maxStepPieces
  minStepPieces : r.minStepPieces = r'.minStepPieces

namespace Agrees
variable {r r' r'' : OneRound}

theorem trans (h : Agrees r r') (h' : Agrees r' r'') : Agrees r r'' :=
  ⟨h.curBoard.trans h'.curBoard, h.blackFirst.trans h'.blackFirst,
    h.maxStepPieces.trans h'.maxStepPieces, h.minStepPieces.trans h'.minStepPieces⟩

theorem checkChecked_eq (h : Agrees r r') (board : Board) (maxSide : Bool) :
    r.checkChecked board maxSide = r'.checkChecked board maxSide := by
  simp only [checkChecked, h.blackFirst, h.maxStepPieces, h.minStepPieces]

theorem isChecked_eq (h : Agrees r r') : r.isChecked = r'.isChecked := by
  simp only [isChecked, h.checkChecked_eq, h.curBoard]

theorem canMove_eq (h : Agrees r r') (p : Piece) (m : Move) (isChecked : Bool) (board : Board) :
    r.canMove p m isChecked board = r'.canMove p m isChecked board := by
  simp only [canMove, canMoveApplied, h.checkChecked_eq, h.blackFirst]

theorem isChecking_eq (h : Agrees r r') (hp : r.maxMovePiece = r'.maxMovePiece) (s : Board) :
    r.isChecking s = r'.isChecking s := by
  simp only [isChecking, h.curBoard, h.blackFirst, hp, h.checkChecked_eq]

theorem uncapturedMinPieces_eq (h : Agrees r r') (s : Board) :
    r.uncapturedMinPieces s = r'.uncapturedMinPieces s := by
  simp only [uncapturedMinPieces, h.minStepPieces]

theorem generateMaxMoves_eq (h : Agrees r r') (hc : r.isMaxChecked = r'.isMaxChecked) :
    ∀ (l : List (Piece × Move)) (aux : Board), r.generateMaxMoves l aux = r'.generateMaxMoves l aux := by
  intro l
  induction l with
  | nil => intro aux; rfl
  | cons x l ih =>
    intro aux
    simp only [generateMaxMoves, h.canMove_eq, hc, ih]

end Agrees

/-- The moves that a loop over pieces and moves accepts, with its scratch board. -/
def acceptedMoves (self : OneRound) (isChecked : Bool) : List (Piece × Move) → Board → List Move
  | [], _ => []
  | (p, m) :: rest, auxBoard =>
      let (ok, auxBoard) := self.canMove p m isChecked auxBoard
      if ok then m :: self.acceptedMoves isChecked rest auxBoard
      else self.acceptedMoves isChecked rest auxBoard

theorem Agrees.acceptedMoves_eq {r r' : OneRound} (h : Agrees r r') (isChecked : Bool) :
    ∀ (l : List (Piece × Move)) (aux : Board),
      r.acceptedMoves isChecked l aux = r'.acceptedMoves isChecked l aux := by
  intro l
  induction l with
  | nil => intro aux; rfl
  | cons x l ih =>
    intro aux
    simp only [acceptedMoves, h.canMove_eq, ih]

end OneRound

/-! ## Positions and moves -/

/-- The first side is to move. -/
structure AttackState where
  blackFirst : Bool
  curBoard : Board
  parent : Option ParentRound

/-- The first side has moved and the second is to reply. -/
structure DefenceState where
  blackFirst : Bool
  curBoard : Board
  maxStepState : Board

namespace AttackState

/-- A round of this position, as `expand` starts on it. -/
def round (a : AttackState) : OneRound :=
  let r := OneRound.create a.curBoard a.blackFirst 0 a.parent
  { r with isMaxChecked := r.isChecked }

/-- The first-side moves that are generated, in order. -/
def tried (flags : Flags) (a : AttackState) : List Move :=
  a.round.generateMaxMoves (OneRound.candidates flags a.round.maxStepPieces a.curBoard) a.curBoard

/-- The position after a move. -/
def after (a : AttackState) (m : Move) : DefenceState :=
  ⟨a.blackFirst, a.curBoard, a.curBoard.makeMove m⟩

end AttackState

/-- What `isCircularMove` asks, of a round with a parent. -/
theorem isCircularMove_iff {first : Bool} {b : Board} {parent : ParentRound} {m : Move} :
    (⟨first, b, some parent⟩ : AttackState).round.isCircularMove m = true ↔
      parent.maxStepState.lastMove.fromPos = m.toPos ∧
      parent.maxStepState.lastMove.toPos = m.fromPos ∧ m.toType = .empty ∧
      parent.curBoard.isEmpty parent.maxStepState.lastMove.toPos = true ∧
      b.lastMove.fromType ≠ .bPawn ∧ b.lastMove.fromType ≠ .wPawn := by
  show (decide (_ = _) && decide (_ = _) && decide (_ = _) && _ &&
    decide (b.lastMove.fromType ≠ _) && decide (b.lastMove.fromType ≠ _)) = true ↔ _
  simp only [Bool.and_eq_true, decide_eq_true_eq, and_assoc]

namespace DefenceState

/-- A round of this position, as `expandMinStep` starts on it. -/
def round (d : DefenceState) : OneRound :=
  { OneRound.create d.curBoard d.blackFirst 0 none with
    maxStepState := some d.maxStepState
    maxMovePiece := d.maxStepState.safePiece d.maxStepState.lastMove.toPos }

/-- The value of `isMinChecked_`. -/
def checked (d : DefenceState) : Bool := d.round.isChecking d.maxStepState

/-- The replies that are tried, in order. -/
def replies (flags : Flags) (d : DefenceState) : List Move :=
  d.round.acceptedMoves d.checked
    (OneRound.candidates flags (d.round.uncapturedMinPieces d.maxStepState) d.maxStepState)
    d.maxStepState

/-- The position after a reply. -/
def after (d : DefenceState) (m : Move) : AttackState :=
  ⟨d.blackFirst, d.maxStepState.makeMove m, some ⟨d.curBoard, d.maxStepState⟩⟩

end DefenceState

/-- **The game that the search plays out.** -/
def searchGame (flags : Flags) : Game AttackState DefenceState where
  attack a d := ∃ m ∈ a.tried flags, a.round.isCircularMove m = false ∧ d = a.after m
  reply d a := ∃ m ∈ d.replies flags, a = d.after m
  check d := d.checked = true

theorem loses_searchGame_iff {flags : Flags} {n : ℕ} {d : DefenceState} :
    (searchGame flags).Loses n d ↔
      (d.checked = true ∨ d.replies flags ≠ []) ∧
        ∀ m ∈ d.replies flags, (searchGame flags).Wins n (d.after m) := by
  constructor
  · rintro (⟨hc, hno⟩ | ⟨⟨a, m, hm, -⟩, hall⟩)
    · exact ⟨Or.inl hc, fun m hm => absurd ⟨m, hm, rfl⟩ (hno (d.after m))⟩
    · exact ⟨Or.inr (List.ne_nil_of_mem hm), fun m' hm' => hall _ ⟨m', hm', rfl⟩⟩
  · rintro ⟨hc, hall⟩
    by_cases hr : d.replies flags = []
    · refine Or.inl ⟨hc.resolve_right (not_not.mpr hr), ?_⟩
      rintro a ⟨m, hm, -⟩
      rw [hr] at hm
      cases hm
    · obtain ⟨m, hm⟩ := List.exists_mem_of_ne_nil _ hr
      refine Or.inr ⟨⟨_, m, hm, rfl⟩, ?_⟩
      rintro a ⟨m', hm', rfl⟩
      exact hall m' hm'

namespace OneRound

/-! ## Rounds of a position -/

/-- The two rounds are of one position: they agree, and have one parent. -/
structure SameRound (r r' : OneRound) : Prop extends Agrees r r' where
  parent : r.parent = r'.parent

theorem SameRound.refl (r : OneRound) : SameRound r r := ⟨⟨rfl, rfl, rfl, rfl⟩, rfl⟩

/-- The position that a round is about. -/
def attackState (r : OneRound) : AttackState := ⟨r.blackFirst, r.curBoard, r.parent⟩

/-- The position that a round has reached with its first-side move. -/
def defenceState (r : OneRound) (s : Board) : DefenceState := ⟨r.blackFirst, r.curBoard, s⟩

/-- The piece lists are those that `init` has filled. -/
def Ready (r : OneRound) : Prop := Agrees r (create r.curBoard r.blackFirst 0 none)

section Ready
variable {r r' : OneRound} {flags : Flags}

theorem SameRound.attackState_eq (h : SameRound r r') : r.attackState = r'.attackState := by
  simp only [attackState, h.curBoard, h.blackFirst, h.parent]

theorem Agrees.defenceState_eq (h : Agrees r r') (s : Board) :
    r.defenceState s = r'.defenceState s := by
  simp only [defenceState, h.curBoard, h.blackFirst]

theorem ready_create (b : Board) (first : Bool) (level : Nat) (parent : Option ParentRound) :
    (create b first level parent).Ready := ⟨rfl, rfl, rfl, rfl⟩

theorem Ready.of_agrees (h : r.Ready) (ha : Agrees r' r) : r'.Ready := by
  unfold Ready
  rw [ha.curBoard, ha.blackFirst]
  exact ha.trans h

theorem Ready.agrees_attack (h : r.Ready) : Agrees r r.attackState.round :=
  h.trans ⟨rfl, rfl, rfl, rfl⟩

theorem Ready.isChecked_eq (h : r.Ready) : r.isChecked = r.attackState.round.isMaxChecked :=
  h.agrees_attack.isChecked_eq

theorem Ready.generateMaxMoves_eq (h : r.Ready) (hc : r.isMaxChecked = r.isChecked) :
    r.generateMaxMoves (candidates flags r.maxStepPieces r.curBoard) r.curBoard =
      r.attackState.tried flags := by
  rw [h.agrees_attack.generateMaxMoves_eq (hc.trans h.isChecked_eq), h.agrees_attack.maxStepPieces]
  rfl

theorem isCircularMove_eq (r : OneRound) (m : Move) :
    r.isCircularMove m = r.attackState.round.isCircularMove m := rfl

theorem Ready.agrees_defence (h : r.Ready) (s : Board) : Agrees r (r.defenceState s).round :=
  h.trans ⟨rfl, rfl, rfl, rfl⟩

theorem Ready.checked_eq (h : r.Ready) {s : Board}
    (hp : r.maxMovePiece = s.safePiece s.lastMove.toPos) :
    r.isChecking s = (r.defenceState s).checked :=
  (h.agrees_defence s).isChecking_eq hp s

theorem Ready.acceptedMoves_eq (h : r.Ready) {s : Board}
    (hp : r.maxMovePiece = s.safePiece s.lastMove.toPos) :
    r.acceptedMoves (r.isChecking s) (candidates flags (r.uncapturedMinPieces s) s) s =
      (r.defenceState s).replies flags := by
  have ha := h.agrees_defence s
  rw [h.checked_eq hp, ha.acceptedMoves_eq, ha.uncapturedMinPieces_eq s]
  rfl

end Ready

/-! ## Piece lists and check tests on playable boards -/

theorem create_minStepPieces (b : Board) (first : Bool) (level : Nat) (parent : Option ParentRound) :
    (create b first level parent).minStepPieces = b.piecesOf (!first) := by
  unfold create Board.piecesOf
  refine List.filter_congr fun p hp => ?_
  have hne : p.type ≠ .empty := (Board.mem_pieces.mp hp).2
  rw [Bool.eq_iff_iff, Bool.not_eq_true', Bool.eq_false_iff, ne_eq,
    (PieceType.kingOf_hasColor first).isSameColor_iff,
    (PieceType.kingOf_hasColor (!first)).isSameColor_iff]
  constructor
  · intro h
    rcases PieceType.hasColor_or p.type first with he | he | he
    · exact absurd he hne
    · exact absurd he h
    · exact he
  · exact fun h h' => h'.not_other h

/-- The scan of a list that holds all opponents is the check test. -/
theorem checkChecked_eq_isChecked {r : OneRound} {b : Board} {c : Bool}
    (h : r.enemies c = b.piecesOf (!c)) : r.checkChecked b (c == r.blackFirst) = b.isChecked c := by
  rw [Bool.eq_iff_iff, checkChecked_iff, Board.isChecked_iff, h]
  constructor
  · rintro ⟨p, hp, hon, ha⟩
    refine ⟨p.position, ?_, ?_⟩
    · rw [hon]; exact (Board.mem_piecesOf.mp hp).2
    · rw [hon]; exact ha
  · rintro ⟨sq, hc, ha⟩
    exact ⟨⟨_, sq⟩, Board.mem_piecesOf.mpr ⟨rfl, hc⟩, rfl, ha⟩

end OneRound

namespace AttackState
variable {a : AttackState}

theorem enemies_eq (a : AttackState) :
    a.round.enemies a.blackFirst = a.curBoard.piecesOf (!a.blackFirst) := by
  have h : (a.blackFirst == a.round.blackFirst) = true := beq_self_eq_true _
  rw [OneRound.enemies, if_pos h]
  exact OneRound.create_minStepPieces a.curBoard a.blackFirst 0 a.parent

/-- `isMaxChecked_` is the check test on the board. -/
theorem isMaxChecked_eq (a : AttackState) :
    a.round.isMaxChecked = a.curBoard.isChecked a.blackFirst := by
  have h := OneRound.checkChecked_eq_isChecked (a.enemies_eq)
  have hb : (a.blackFirst == a.round.blackFirst) = true := beq_self_eq_true _
  rw [hb] at h
  exact h

theorem covers (a : AttackState) : a.round.Covers a.curBoard a.blackFirst where
  color p hp := by
    rw [enemies_eq] at hp
    exact (Board.mem_piecesOf.mp hp).2
  listed p hon hc _ := by
    rw [enemies_eq]
    exact Board.mem_piecesOf.mpr ⟨hon, hc⟩

end AttackState

/-- The position came from a playable one by a legal move of the first side. -/
structure DefenceState.Played (flags : Flags) (d : DefenceState) : Prop where
  playable : Playable d.curBoard d.blackFirst
  made : ∃ m, d.curBoard.IsLegal flags d.blackFirst m ∧ d.maxStepState = d.curBoard.makeMove m

namespace DefenceState
variable {flags : Flags} {d : DefenceState}

theorem enemies_eq (d : DefenceState) :
    d.round.enemies (!d.blackFirst) = d.curBoard.piecesOf d.blackFirst := by
  have h : ((!d.blackFirst) == d.round.blackFirst) = false := by
    show ((!d.blackFirst) == d.blackFirst) = false
    cases d.blackFirst <;> rfl
  rw [OneRound.enemies, if_neg (by rw [h]; decide)]
  rfl

/-- The first side's pieces after its move: the moved piece and listed ones. -/
theorem Played.mem_enemies (h : d.Played flags) {p : Piece}
    (hon : d.maxStepState.getPieceTypeAtPosition p.position = p.type)
    (hc : p.type.HasColor d.blackFirst) (hto : p.position ≠ d.maxStepState.lastMove.toPos) :
    p ∈ d.round.enemies (!d.blackFirst) := by
  obtain ⟨m, hl, hs⟩ := h.made
  have hg := h.playable.generated hl
  rw [hs, Board.makeMove_lastMove] at hto
  rw [hs, Board.makeMove_getPieceTypeAtPosition] at hon
  have hvac : ¬ m.Vacates p.position := by
    intro hv
    rw [hg.get_apply_vacated hv] at hon
    exact hc.1 hon.symm
  rw [hg.get_apply_other hto hvac] at hon
  rw [enemies_eq]
  exact Board.mem_piecesOf.mpr ⟨hon, hc⟩

theorem Played.covers (h : d.Played flags) :
    d.round.Covers d.maxStepState (!d.blackFirst) where
  color p hp := by
    rw [enemies_eq] at hp
    rw [Bool.not_not]
    exact (Board.mem_piecesOf.mp hp).2
  listed p hon hc hto := by
    rw [Bool.not_not] at hc
    exact h.mem_enemies hon hc hto

theorem Played.playable_after (h : d.Played flags) : Playable d.maxStepState (!d.blackFirst) := by
  obtain ⟨m, hl, hs⟩ := h.made
  rw [hs]
  exact h.playable.makeMove hl

/-- **`isMinChecked_` is the check test on the board**, although the piece list is
one move old: the moved piece is tested by itself. -/
theorem Played.checked_eq (h : d.Played flags) :
    d.checked = d.maxStepState.isChecked (!d.blackFirst) := by
  obtain ⟨m, hl, hs⟩ := h.made
  have hg := h.playable.generated hl
  have hking : d.curBoard.kingPosition (!d.blackFirst) =
      d.maxStepState.kingPosition (!d.blackFirst) := by
    rw [hs, Board.makeMove_kingPosition, hg.kingPosition_apply_other]
  have hside : ((!d.blackFirst) == d.round.blackFirst) = false := by
    show ((!d.blackFirst) == d.blackFirst) = false
    cases d.blackFirst <;> rfl
  have hlist := @OneRound.checkChecked_iff d.round d.maxStepState (!d.blackFirst)
  rw [hside] at hlist
  have hnew : (d.maxStepState.getPieceTypeAtPosition m.toPos).HasColor d.blackFirst := by
    rw [hs, Board.makeMove_getPieceTypeAtPosition, hg.get_apply_to]
    exact hg.newType_hasColor
  have hpiece : d.round.maxMovePiece =
      some ⟨d.maxStepState.getPieceTypeAtPosition m.toPos, m.toPos⟩ := by
    have hlast : d.maxStepState.lastMove.toPos = m.toPos := by rw [hs, Board.makeMove_lastMove]
    show d.maxStepState.safePiece d.maxStepState.lastMove.toPos = _
    rw [hlast, Board.safePiece_eq_some]
    exact ⟨rfl, hnew.1⟩
  have hchecked : d.checked = true ↔
      Piece.canAttack ⟨d.maxStepState.getPieceTypeAtPosition m.toPos, m.toPos⟩ d.maxStepState
          (d.maxStepState.kingPosition (!d.blackFirst)) = true ∨
        d.round.checkChecked d.maxStepState false = true := by
    unfold checked OneRound.isChecking
    rw [hpiece, Bool.or_eq_true]
    show Piece.canAttack _ _ (d.curBoard.kingPosition (!d.blackFirst)) = true ∨ _ ↔ _
    rw [hking]
  rw [Bool.eq_iff_iff, hchecked, hlist, Board.isChecked_iff, Bool.not_not]
  constructor
  · rintro (ha | ⟨p, hp, hon, ha⟩)
    · exact ⟨m.toPos, hnew, ha⟩
    · rw [enemies_eq] at hp
      refine ⟨p.position, ?_, ?_⟩
      · rw [hon]; exact (Board.mem_piecesOf.mp hp).2
      · rw [hon]; exact ha
  · rintro ⟨sq, hc, ha⟩
    by_cases hsq : sq = m.toPos
    · subst hsq; exact Or.inl ha
    · refine Or.inr ⟨⟨_, sq⟩, h.mem_enemies rfl hc ?_, rfl, ha⟩
      rw [hs, Board.makeMove_lastMove]
      exact hsq

end DefenceState

/-! ## The moves tried are the legal moves -/

section Accepted
variable {flags : Flags} {b : Board} {c : Bool}

theorem mem_candidates {pieces : List Piece} {x : Piece × Move} :
    x ∈ OneRound.candidates flags pieces b ↔ x.1 ∈ pieces ∧ x.2 ∈ x.1.getMoves flags b := by
  obtain ⟨p, m⟩ := x
  simp only [OneRound.candidates, List.mem_flatMap, List.mem_map, Prod.mk.injEq]
  constructor
  · rintro ⟨p', hp', m', hm', rfl, rfl⟩
    exact ⟨hp', hm'⟩
  · rintro ⟨hp, hm⟩
    exact ⟨p, hp, m, hm, rfl, rfl⟩

/-- Filtering the candidates of all pieces gives the legal moves, in order. -/
theorem filter_candidates (flags : Flags) (b : Board) (c : Bool) :
    ((OneRound.candidates flags (b.piecesOf c) b).filter
      fun x => !(b.makeMove x.2).isChecked c).map Prod.snd = b.legalMoves flags c := by
  simp only [OneRound.candidates, Board.legalMoves, List.filter_flatMap, List.map_flatMap]
  congr 1
  funext p
  rw [List.filter_map, List.map_map]
  exact List.map_id _

theorem acceptedMoves_eq_filter {r : OneRound} {isChecked : Bool} (ok : Piece × Move → Bool)
    {l : List (Piece × Move)} (h : ∀ x ∈ l, r.canMove x.1 x.2 isChecked b = (ok x, b)) :
    r.acceptedMoves isChecked l b = (l.filter ok).map Prod.snd := by
  induction l with
  | nil => rfl
  | cons x l ih =>
    have hx := h x List.mem_cons_self
    have ih' := ih fun y hy => h y (List.mem_cons_of_mem x hy)
    rw [OneRound.acceptedMoves, hx]
    dsimp only
    rw [ih']
    by_cases hok : ok x = true <;> simp [hok]

theorem generateMaxMoves_eq_filter {r : OneRound} (ok : Piece × Move → Bool)
    {l : List (Piece × Move)} (h : ∀ x ∈ l, r.canMove x.1 x.2 r.isMaxChecked b = (ok x, b))
    (hundo : ∀ x ∈ l, Move.undo x.2 (Move.apply x.2 b) = b) :
    r.generateMaxMoves l b = (l.filter ok).map Prod.snd := by
  induction l with
  | nil => rfl
  | cons x l ih =>
    have hx := h x List.mem_cons_self
    have ih' := ih (fun y hy => h y (List.mem_cons_of_mem x hy))
      fun y hy => hundo y (List.mem_cons_of_mem x hy)
    rw [OneRound.generateMaxMoves, hx]
    dsimp only
    rw [hundo x List.mem_cons_self, ih']
    by_cases hok : ok x = true <;> simp [hok]

end Accepted

/-- **The first-side moves that are tried are the legal ones**, in order, also where the
second side is attacked. -/
theorem AttackState.tried_eq_of_kings {flags : Flags} {a : AttackState} (hkings : KingsOk a.curBoard)
    (hlast : LastMoveOk a.curBoard a.blackFirst) :
    a.tried flags = a.curBoard.legalMoves flags a.blackFirst := by
  rw [← filter_candidates]
  refine generateMaxMoves_eq_filter (r := a.round)
    (fun x => !(a.curBoard.makeMove x.2).isChecked a.blackFirst) (fun x hx => ?_) fun x hx => ?_
  · obtain ⟨hp, hm⟩ := mem_candidates.mp hx
    rw [a.isMaxChecked_eq]
    exact OneRound.canMove_eq hkings hlast a.covers hp hm
  · obtain ⟨hp, hm⟩ := mem_candidates.mp hx
    exact hkings.recorded.undo_apply (generated_of_mem hlast hp hm)

theorem AttackState.tried_eq {flags : Flags} {a : AttackState}
    (h : Playable a.curBoard a.blackFirst) :
    a.tried flags = a.curBoard.legalMoves flags a.blackFirst := tried_eq_of_kings h.kings h.last

theorem piecesOf_eq_filterMap (b : Board) (c : Bool) :
    b.piecesOf c = squares.filterMap fun sq =>
      if (b.getPieceTypeAtPosition sq).HasColor c then some ⟨b.getPieceTypeAtPosition sq, sq⟩
      else none := by
  rw [Board.piecesOf, Board.pieces, List.filter_filterMap]
  refine List.filterMap_congr fun sq _ => ?_
  have hsame := @PieceType.HasColor.isSameColor_iff _ (b.getPieceTypeAtPosition sq) c
    (PieceType.kingOf_hasColor c)
  by_cases hc : (b.getPieceTypeAtPosition sq).HasColor c
  · rw [if_pos hc, Board.safePiece_eq_some.mpr ⟨rfl, hc.1⟩]
    simp [hsame.mpr hc]
  · rw [if_neg hc]
    cases hp : b.safePiece sq with
    | none => rfl
    | some p =>
      obtain ⟨rfl, -⟩ := Board.safePiece_eq_some.mp hp
      simp only [Option.filter_some, ite_eq_right_iff, reduceCtorEq, imp_false]
      exact fun h => hc (hsame.mp h)

/-- After a first-side move the second side's pieces are those that it did not
capture, in the same order. -/
theorem DefenceState.Played.uncaptured_eq {flags : Flags} {d : DefenceState} (h : d.Played flags) :
    d.round.uncapturedMinPieces d.maxStepState = d.maxStepState.piecesOf (!d.blackFirst) := by
  obtain ⟨m, hl, hs⟩ := h.made
  have hg := h.playable.generated hl
  have hmin : d.round.minStepPieces = d.curBoard.piecesOf (!d.blackFirst) :=
    OneRound.create_minStepPieces d.curBoard d.blackFirst 0 none
  have hget : ∀ sq, d.maxStepState.getPieceTypeAtPosition sq =
      (m.apply d.curBoard).getPieceTypeAtPosition sq := by
    intro sq
    rw [hs, Board.makeMove_getPieceTypeAtPosition]
  rw [OneRound.uncapturedMinPieces, hmin, piecesOf_eq_filterMap, piecesOf_eq_filterMap,
    List.filter_filterMap]
  refine List.filterMap_congr fun sq _ => ?_
  by_cases hnew : (d.maxStepState.getPieceTypeAtPosition sq).HasColor (!d.blackFirst)
  · obtain ⟨-, -, hsame⟩ := hg.other_of_apply (hget sq ▸ hnew)
    rw [← hget] at hsame
    rw [if_pos hnew, hsame, if_pos hnew]
    simp
  · rw [if_neg hnew]
    by_cases hold : (d.curBoard.getPieceTypeAtPosition sq).HasColor (!d.blackFirst)
    · rw [if_pos hold]
      simp only [Option.filter_some, ite_eq_right_iff, reduceCtorEq, imp_false, decide_eq_true_eq]
      intro heq
      exact hnew (heq ▸ hold)
    · rw [if_neg hold]; rfl

/-- **The replies that are tried are the legal ones**, in order. -/
theorem DefenceState.Played.replies_eq {flags : Flags} {d : DefenceState} (h : d.Played flags) :
    d.replies flags = d.maxStepState.legalMoves flags (!d.blackFirst) := by
  rw [← filter_candidates, DefenceState.replies, h.uncaptured_eq]
  refine acceptedMoves_eq_filter
    (fun x => !(d.maxStepState.makeMove x.2).isChecked (!d.blackFirst)) fun x hx => ?_
  obtain ⟨hp, hm⟩ := mem_candidates.mp hx
  rw [h.checked_eq]
  exact OneRound.canMove_eq h.playable_after.kings h.playable_after.last h.covers hp hm

/-! ## The game without piece lists -/

/-- **The game of legal moves** in which the first side may not play a move that
`isCircularMove` rejects. -/
def prunedGame (flags : Flags) : Game AttackState DefenceState where
  attack a d := ∃ m, a.curBoard.IsLegal flags a.blackFirst m ∧
    a.round.isCircularMove m = false ∧ d = a.after m
  reply d a := ∃ m, d.maxStepState.IsLegal flags (!d.blackFirst) m ∧ a = d.after m
  check d := d.maxStepState.isChecked (!d.blackFirst) = true

/-- The board of the position is one that play reaches. -/
def AttackState.Sound (a : AttackState) : Prop := Playable a.curBoard a.blackFirst

section Games
variable {flags : Flags} {a : AttackState} {d : DefenceState}

theorem played_of_attack (ha : a.Sound) {m : Move} (hl : a.curBoard.IsLegal flags a.blackFirst m) :
    (a.after m).Played flags := ⟨ha, m, hl, rfl⟩

theorem sound_of_reply (hd : d.Played flags) {m : Move}
    (hl : d.maxStepState.IsLegal flags (!d.blackFirst) m) : (d.after m).Sound :=
  hd.playable_after.reply hl

theorem attack_iff (ha : a.Sound) :
    (searchGame flags).attack a d ↔ (prunedGame flags).attack a d := by
  simp only [searchGame, prunedGame, AttackState.tried_eq ha, Board.mem_legalMoves]

theorem reply_iff (hd : d.Played flags) :
    (searchGame flags).reply d a ↔ (prunedGame flags).reply d a := by
  simp only [searchGame, prunedGame, hd.replies_eq, Board.mem_legalMoves]

theorem check_iff (hd : d.Played flags) :
    (searchGame flags).check d ↔ (prunedGame flags).check d := by
  simp only [searchGame, prunedGame, hd.checked_eq]

theorem played_of_prunedAttack (ha : a.Sound) (h : (prunedGame flags).attack a d) :
    d.Played flags := by
  obtain ⟨m, hl, -, rfl⟩ := h
  exact played_of_attack ha hl

theorem sound_of_prunedReply (hd : d.Played flags) (h : (prunedGame flags).reply d a) : a.Sound := by
  obtain ⟨m, hl, rfl⟩ := h
  exact sound_of_reply hd hl

/-- **On boards that play reaches, the search plays the game of legal moves.** -/
theorem wins_searchGame_iff (ha : a.Sound) (n : ℕ) :
    (searchGame flags).Wins n a ↔ (prunedGame flags).Wins n a := by
  have there : Simulation (searchGame flags) (prunedGame flags)
      (fun a a' => a' = a ∧ a.Sound) (fun d d' => d' = d ∧ d.Played flags) :=
    { attack := by
        rintro a _ d ⟨rfl, ha⟩ h
        have h' := (attack_iff ha).mp h
        exact ⟨d, h', rfl, played_of_prunedAttack ha h'⟩
      reply := by
        rintro d _ a ⟨rfl, hd⟩ h
        exact ⟨a, (reply_iff hd).mpr h, rfl, sound_of_prunedReply hd h⟩
      hasReply := by
        rintro d _ a ⟨rfl, hd⟩ h
        exact ⟨a, (reply_iff hd).mp h⟩
      check := by
        rintro d _ ⟨rfl, hd⟩ h
        exact (check_iff hd).mp h }
  have back : Simulation (prunedGame flags) (searchGame flags)
      (fun a a' => a' = a ∧ a.Sound) (fun d d' => d' = d ∧ d.Played flags) :=
    { attack := by
        rintro a _ d ⟨rfl, ha⟩ h
        exact ⟨d, (attack_iff ha).mpr h, rfl, played_of_prunedAttack ha h⟩
      reply := by
        rintro d _ a ⟨rfl, hd⟩ h
        have h' := (reply_iff hd).mp h
        exact ⟨a, h', rfl, sound_of_prunedReply hd h'⟩
      hasReply := by
        rintro d _ a ⟨rfl, hd⟩ h
        exact ⟨a, (reply_iff hd).mpr h⟩
      check := by
        rintro d _ ⟨rfl, hd⟩ h
        exact (check_iff hd).mpr h }
  exact ⟨there.wins ⟨rfl, ha⟩, back.wins ⟨rfl, ha⟩⟩

end Games

/-! ## The game of the ordinary rules -/

/-- **The game of legal moves**, with nothing but the board. -/
def mateGame (flags : Flags) (first : Bool) : Game Board Board where
  attack b s := ∃ m, b.IsLegal flags first m ∧ s = b.makeMove m
  reply s b := ∃ m, s.IsLegal flags (!first) m ∧ b = s.makeMove m
  check s := s.isChecked (!first) = true

/-- Can the first side mate within so many moves? -/
def Board.matesWithin (flags : Flags) (first : Bool) : ℕ → Board → Bool
  | 0, _ => false
  | n + 1, b => (b.legalMoves flags first).any fun m =>
      let s := b.makeMove m
      let replies := s.legalMoves flags (!first)
      (s.isChecked (!first) || !replies.isEmpty) &&
        replies.all fun m' => matesWithin flags first n (s.makeMove m')

/-- **`matesWithin` decides the game.** -/
theorem Board.matesWithin_iff {flags : Flags} {first : Bool} {n : ℕ} {b : Board} :
    b.matesWithin flags first n = true ↔ (mateGame flags first).Wins n b := by
  induction n generalizing b with
  | zero => exact iff_of_false (by simp [matesWithin]) id
  | succ n ih =>
    rw [matesWithin, List.any_eq_true, Game.wins_succ]
    simp only [Bool.and_eq_true, Bool.or_eq_true, Bool.not_eq_true', List.isEmpty_eq_false_iff,
      List.all_eq_true, ih, mem_legalMoves]
    constructor
    · rintro ⟨m, hm, hc, hall⟩
      refine ⟨_, ⟨m, hm, rfl⟩, ?_⟩
      by_cases hr : (b.makeMove m).legalMoves flags (!first) = []
      · refine Or.inl ⟨hc.resolve_right (not_not.mpr hr), ?_⟩
        rintro _ ⟨m', hm', rfl⟩
        rw [← mem_legalMoves, hr] at hm'
        cases hm'
      · obtain ⟨m', hm'⟩ := List.exists_mem_of_ne_nil _ hr
        refine Or.inr ⟨⟨_, m', mem_legalMoves.mp hm', rfl⟩, ?_⟩
        rintro _ ⟨m'', hm'', rfl⟩
        exact hall m'' hm''
    · rintro ⟨_, ⟨m, hm, rfl⟩, h⟩
      refine ⟨m, hm, ?_⟩
      rcases h with ⟨hc, hno⟩ | ⟨⟨_, m', hm', -⟩, hall⟩
      · exact ⟨Or.inl hc, fun m' hm' => absurd ⟨m', hm', rfl⟩ (hno _)⟩
      · refine ⟨Or.inr (List.ne_nil_of_mem (mem_legalMoves.mpr hm')), fun m'' hm'' => ?_⟩
        exact hall _ ⟨m'', hm'', rfl⟩

/-- Of the flags, the games read whether castling is generated. -/
theorem Board.isLegal_congr_flags {flags flags' : Flags}
    (h : flags.allowCastling = flags'.allowCastling) (b : Board) (c : Bool) (m : Move) :
    b.IsLegal flags c m ↔ b.IsLegal flags' c m := by
  have hmoves : ∀ p : Piece, p.getMoves flags b = p.getMoves flags' b := by
    intro p
    simp only [Piece.getMoves, King.getMoves, h]
  simp only [IsLegal, hmoves]

theorem prunedGame_congr_flags {flags flags' : Flags}
    (h : flags.allowCastling = flags'.allowCastling) : prunedGame flags = prunedGame flags' := by
  simp only [prunedGame, Board.isLegal_congr_flags h]

end Chess
