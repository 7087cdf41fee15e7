import ChessMate.LayerFold
import ChessMate.SearchTrace
import Mathlib.Analysis.Complex.Exponential

/-! # The order in which the first side's moves are tried

`generateAndSortMaxMoves` estimates each move on the scratch board on which it is made.  A
piece that attacks the other king is worth `CHECK_HEURISTIC`, one that does not is worth
less, by its distance to the king; a move is worth the most that the moved piece and the
line pieces of its side are worth after it.  The moves are then sorted by their estimates.

The numbers are floating-point ones.  All that the order of the checks depends on is that
the distance takes something off (`Estimates`).  So whatever the format is, the moves that
are seen to give check are tried before the others (`checks_first`).  What is seen is a
check, and every check is seen except two kinds of discovered ones: those that a capture
en passant opens by the pawn that it takes, and those of a bishop that is not next to the
square that the piece leaves, because `calcMoveHeuristics` hands `canAttackLine` the whole
way from the one to the other where it expects a single step.
-/
namespace Chess
open LineWalk LayerFold ProgramLogic

/-- `deltaMove` of `one_round.cc`. -/
def deltaMove (fromPos toPos : Position) : DeltaMove :=
  (toPos.1 - fromPos.1, toPos.2 - fromPos.2)

/-- **The numbers of the estimates.** -/
structure Estimates (ε : Type) [LinearOrder ε] where
  /-- `CHECK_HEURISTIC`. -/
  check : ε
  /-- `CHECK_HEURISTIC * distanceFactor(pos)`. -/
  distance : Piece → Position → ε
  distance_lt : ∀ p pos, p.position ≠ pos → distance p pos < check

section Model
variable {ε : Type} [LinearOrder ε] (E : Estimates ε)

/-- `Piece::heuristicScore`. -/
def Piece.heuristicScore (self : Piece) (board : Board) : ε :=
  let opponentKingPos := if self.type.isBlack then board.whiteKing else board.blackKing
  if self.canAttack board opponentKingPos then E.check else E.distance self opponentKingPos

/-- `Move::heuristicScore`. -/
def Move.heuristicScore (move : Move) (board : Board) : ε :=
  Piece.heuristicScore E ⟨move.newType, move.toPos⟩ board

namespace OneRound

/-- `sameSidePieces`. -/
def sameSidePieces (self : OneRound) (type : PieceType) : List Piece :=
  if type.isBlack = self.blackFirst then self.maxStepPieces else self.minStepPieces

/-- The estimate of `calcMoveHeuristics`, on the board on which the move is made. -/
def estimate (self : OneRound) (piece : Piece) (move : Move) (auxBoard : Board) : ε :=
  (self.sameSidePieces piece.type).foldl
    (fun heuristics p =>
      if p.position = piece.position then heuristics
      else if canAttackLine p.type (deltaMove piece.position p.position) then
        max heuristics (p.heuristicScore E auxBoard)
      else heuristics)
    (move.heuristicScore E auxBoard)

/-- The loop of `generateAndSortMaxMoves`: `moves` and `estimates`. -/
def estimateMoves (self : OneRound) : List (Piece × Move) → Board → List (Move × ε)
  | [], _ => []
  | (p, m) :: rest, auxBoard =>
      let (ok, auxBoard) := self.canMove p m self.isMaxChecked auxBoard
      if ok then
        let (est, auxBoard) := calcMoveHeuristics (estimate E) self auxBoard p m
        (m, est) :: self.estimateMoves rest auxBoard
      else self.estimateMoves rest auxBoard

/-- The moves of the round with their estimates. -/
def estimates (flags : Flags) (self : OneRound) : List (Move × ε) :=
  self.estimateMoves E (candidates flags self.maxStepPieces self.curBoard) self.curBoard

end OneRound

/-- **The order is what `std::sort` makes of the estimates**: some list of the estimated
moves in which the estimates fall. -/
def MoveOrder.SortsEstimates (flags : Flags) (order : MoveOrder) : Prop :=
  ∀ r : OneRound, ∃ sorted : List (Move × ε), sorted.Perm (r.estimates E flags) ∧
    sorted.Pairwise (fun x y => y.2 ≤ x.2) ∧
    r.generateAndSortMaxMoves flags order = sorted.map Prod.fst

end Model

/-! ## What a move is worth -/

section Worth
variable {ε : Type} [LinearOrder ε] {E : Estimates ε}

/-- A piece is worth a check exactly if it gives one. -/
theorem Piece.check_le_heuristicScore_iff {p : Piece} {b : Board}
    (h : p.position ≠ b.kingPosition (!p.type.isBlack)) :
    E.check ≤ p.heuristicScore E b ↔ p.canAttack b (b.kingPosition (!p.type.isBlack)) = true := by
  have hking : (if p.type.isBlack then b.whiteKing else b.blackKing) =
      b.kingPosition (!p.type.isBlack) := by
    cases hc : p.type.isBlack <;> rfl
  unfold Piece.heuristicScore
  dsimp only
  rw [hking]
  split_ifs with ha
  · exact iff_of_true (le_refl _) ha
  · exact iff_of_false (not_le.mpr (E.distance_lt p _ h)) ha

namespace OneRound

/-- The pieces whose worth is looked up. -/
def revealed (self : OneRound) (piece : Piece) : List Piece :=
  (self.sameSidePieces piece.type).filter fun p =>
    p.position ≠ piece.position && canAttackLine p.type (deltaMove piece.position p.position)

theorem estimate_eq (self : OneRound) (piece : Piece) (move : Move) (auxBoard : Board) :
    self.estimate E piece move auxBoard = (self.revealed piece).foldl
      (fun heuristics p => max heuristics (p.heuristicScore E auxBoard))
      (move.heuristicScore E auxBoard) := by
  unfold estimate revealed
  rw [List.foldl_filter]
  congr 1
  funext heuristics p
  by_cases hpos : p.position = piece.position
  · simp [hpos]
  · by_cases hline : canAttackLine p.type (deltaMove piece.position p.position) = true
    · simp [hpos, hline]
    · simp [hpos, hline]

end OneRound
end Worth

/-! ## The checks that are seen -/

section Checks
variable {ε : Type} [LinearOrder ε] {E : Estimates ε}

/-- **The move is seen to give check**: by the piece that moves, or by one of those that
are looked up. -/
def OneRound.Announces (self : OneRound) (m : Move) : Prop :=
  let applied := m.apply self.curBoard
  let king := applied.kingPosition (!self.blackFirst)
  Piece.canAttack ⟨m.newType, m.toPos⟩ applied king = true ∨
    ∃ p ∈ self.revealed ⟨m.fromType, m.fromPos⟩, p.canAttack applied king = true

/-- A bishop that is two or more squares behind the square that the piece leaves. -/
def Move.OpensFarBishop (m : Move) (b : Board) (c : Bool) : Prop :=
  ∃ (sq : Position) (step : DeltaMove) (j : ℕ), (b.getPieceTypeAtPosition sq).HasColor c ∧
    (b.getPieceTypeAtPosition sq = .bBishop ∨ b.getPieceTypeAtPosition sq = .wBishop) ∧
    step ∈ (b.getPieceTypeAtPosition sq).slideSteps ∧ 2 ≤ j ∧ m.fromPos = sq + j • step

variable {b : Board} {c : Bool} {m : Move}

/-- The moved piece does not land on the other king. -/
theorem Playable.toPos_ne_king (h : Playable b c) (hg : Generated b c m) :
    m.toPos ≠ (m.apply b).kingPosition (!c) := by
  rw [hg.kingPosition_apply_other]
  intro heq
  refine h.not_takes_king hg ?_
  rw [hg.toType_eq, heq]
  exact h.kings.get_king (!c)

/-- A piece of the mover's side that did not move still stands where it stood. -/
theorem Generated.get_apply_own (hg : Generated b c m) {p : Piece} (hp : p ∈ b.piecesOf c)
    (hne : p.position ≠ m.fromPos) : (m.apply b).getPieceTypeAtPosition p.position = p.type := by
  obtain ⟨hon, hc⟩ := Board.mem_piecesOf.mp hp
  rw [← hon]
  refine hg.get_apply_other ?_ ?_
  · intro heq
    rw [← hon, heq, ← hg.toType_eq] at hc
    exact hg.target hc
  · rintro (heq | ⟨hs, heq⟩)
    · exact hne heq
    · have he := hg.enPassant hs
      rw [← hon, heq, he.enPassantPos_eq, he.captured] at hc
      exact hc.not_other (pawnOf_hasColor (!c))

/-- **What is seen is a check.** -/
theorem isChecked_of_attack (hg : Generated b c m) {p : Piece} (hp : p ∈ b.piecesOf c)
    (hne : p.position ≠ m.fromPos)
    (ha : p.canAttack (m.apply b) ((m.apply b).kingPosition (!c)) = true) :
    (m.apply b).isChecked (!c) = true := by
  have hon := hg.get_apply_own hp hne
  refine Board.isChecked_iff.mpr ⟨p.position, ?_, ?_⟩
  · rw [hon, Bool.not_not]
    exact (Board.mem_piecesOf.mp hp).2
  · rw [hon]
    exact ha

/-- **A check by a piece that did not move is discovered**, along a line through the square
that was left or through that of the pawn taken en passant. -/
theorem discovered_check (h : Playable b c) (hg : Generated b c m) {p : Piece}
    (hp : p ∈ b.piecesOf c) (hs : m.special ≠ .pawnEnPassant)
    (ha : p.canAttack (m.apply b) ((m.apply b).kingPosition (!c)) = true) :
    ∃ step ∈ p.type.slideSteps, ∃ j : ℕ, 0 < j ∧ m.fromPos = p.position + j • step := by
  obtain ⟨hon, hc⟩ := Board.mem_piecesOf.mp hp
  have hv : isValidPosition p.position = true := Board.valid_of_ne_empty (hon ▸ hc.1)
  rw [hg.kingPosition_apply_other] at ha
  have hbefore : ¬ Piece.canAttack p b (b.kingPosition (!c)) = true := by
    have hown : (b.getPieceTypeAtPosition p.position).HasColor (!!c) := by
      rw [hon, Bool.not_not]
      exact hc
    have hno := Board.not_canAttack_king h.notAttacked hown
    rwa [hon] at hno
  obtain ⟨step, hstep, k, j, hj, -, -, hfree, hblocked, -⟩ :=
    canAttack_opened hv (h.kings.valid_king (!c)) ha hbefore
  refine ⟨step, hstep, j, hj, ?_⟩
  rcases hg.vacates_of_free hfree hblocked with heq | ⟨hpassant, -⟩
  · exact heq.symm
  · exact absurd hpassant hs

/-- The whole way from the square that was left to a line piece behind it passes for one of
its steps, unless the piece is a bishop and the way is longer than a step. -/
theorem canAttackLine_or_far {type : PieceType} {step : DeltaMove} (hstep : step ∈ type.slideSteps)
    {fromPos sq : Position} {j : ℕ} (hj : 0 < j) (hfrom : fromPos = sq + j • step) :
    canAttackLine type (deltaMove fromPos sq) = true ∨
      (type = .bBishop ∨ type = .wBishop) ∧ 2 ≤ j := by
  have hdelta : deltaMove fromPos sq = (-(j * step.1), -(j * step.2)) := by
    rw [hfrom]
    refine Prod.ext ?_ ?_
    · show sq.1 - (sq + j • step).1 = _
      rw [fst_add_smul]
      ring
    · show sq.2 - (sq + j • step).2 = _
      rw [snd_add_smul]
      ring
  have hrook : ∀ step ∈ Rook.steps, step.1 = 0 ∨ step.2 = 0 := by decide
  rw [hdelta]
  by_cases hone : j = 1
  · left
    have hneg := PieceType.neg_mem_slideSteps hstep
    rw [hone, Nat.cast_one, one_mul, one_mul]
    exact (canAttackLine_iff (PieceType.slideSteps_subset type hneg)).mpr hneg
  · have htwo : 2 ≤ j := by omega
    cases type with
    | bBishop | wBishop => exact Or.inr ⟨by decide, htwo⟩
    | bQueen | wQueen => exact Or.inl rfl
    | bRook | wRook =>
      left
      rcases hrook step hstep with hzero | hzero
      · simp [canAttackLine, hzero]
      · simp [canAttackLine, hzero]
    | _ => cases hstep

variable {flags : Flags} {r : OneRound}

/-- **The estimate tells the moves that are seen to give check.** -/
theorem OneRound.check_le_estimate_iff (hready : r.Ready) (h : Playable r.curBoard r.blackFirst)
    (hg : Generated r.curBoard r.blackFirst m) :
    E.check ≤ r.estimate E ⟨m.fromType, m.fromPos⟩ m (m.apply r.curBoard) ↔ r.Announces m := by
  have hpieces : r.maxStepPieces = r.curBoard.piecesOf r.blackFirst := hready.maxStepPieces
  have hcolor : ∀ {type : PieceType}, type.HasColor r.blackFirst → type.isBlack = r.blackFirst :=
    fun hc => hc.2
  have hside : r.sameSidePieces m.fromType = r.curBoard.piecesOf r.blackFirst := by
    rw [OneRound.sameSidePieces, if_pos (hcolor hg.mover), hpieces]
  rw [OneRound.estimate_eq, le_foldl_max_iff]
  unfold OneRound.Announces
  refine or_congr ?_ (exists_congr fun p => and_congr_right fun hp => ?_)
  · have hnew := hcolor hg.newType_hasColor
    have hne := h.toPos_ne_king hg
    rw [← hnew] at hne ⊢
    exact Piece.check_le_heuristicScore_iff hne
  · obtain ⟨hp, -⟩ := List.mem_filter.mp hp
    have hp' : p ∈ r.curBoard.piecesOf r.blackFirst := hside ▸ hp
    obtain ⟨hon, hc⟩ := Board.mem_piecesOf.mp hp'
    have hne : p.position ≠ (m.apply r.curBoard).kingPosition (!r.blackFirst) := by
      rw [hg.kingPosition_apply_other]
      intro heq
      rw [heq, h.kings.get_king] at hon
      rw [← hon] at hc
      exact hc.not_other (PieceType.kingOf_hasColor (!r.blackFirst))
    rw [← hcolor hc] at hne ⊢
    exact Piece.check_le_heuristicScore_iff hne

/-- What is seen is a check. -/
theorem OneRound.Announces.isChecked (hready : r.Ready)
    (hg : Generated r.curBoard r.blackFirst m) (hseen : r.Announces m) :
    (m.apply r.curBoard).isChecked (!r.blackFirst) = true := by
  have hpieces : r.maxStepPieces = r.curBoard.piecesOf r.blackFirst := hready.maxStepPieces
  rcases hseen with ha | ⟨p, hp, ha⟩
  · refine Board.isChecked_iff.mpr ⟨m.toPos, ?_, ?_⟩
    · rw [hg.get_apply_to, Bool.not_not]
      exact hg.newType_hasColor
    · rw [hg.get_apply_to]
      exact ha
  · obtain ⟨hp, htest⟩ := List.mem_filter.mp hp
    rw [OneRound.sameSidePieces, if_pos hg.mover.2, hpieces] at hp
    rw [Bool.and_eq_true, decide_eq_true_eq] at htest
    exact isChecked_of_attack hg hp htest.1 ha

/-- **Every other check is discovered** by a capture en passant or in front of a far
bishop. -/
theorem OneRound.announces_or (hready : r.Ready) (h : Playable r.curBoard r.blackFirst)
    (hg : Generated r.curBoard r.blackFirst m)
    (hcheck : (m.apply r.curBoard).isChecked (!r.blackFirst) = true) :
    r.Announces m ∨ m.special = .pawnEnPassant ∨ m.OpensFarBishop r.curBoard r.blackFirst := by
  have hpieces : r.maxStepPieces = r.curBoard.piecesOf r.blackFirst := hready.maxStepPieces
  obtain ⟨sq, hc, ha⟩ := Board.isChecked_iff.mp hcheck
  rw [Bool.not_not] at hc
  by_cases hto : sq = m.toPos
  · rw [hto, hg.get_apply_to] at ha
    exact Or.inl (Or.inl ha)
  by_cases hs : m.special = .pawnEnPassant
  · exact Or.inr (Or.inl hs)
  have hvacated : ¬ m.Vacates sq := fun hv => hc.1 (hg.get_apply_vacated hv)
  have hsame := hg.get_apply_other hto hvacated
  have hp : ⟨(m.apply r.curBoard).getPieceTypeAtPosition sq, sq⟩ ∈
      r.curBoard.piecesOf r.blackFirst := Board.mem_piecesOf.mpr ⟨hsame.symm, hc⟩
  obtain ⟨step, hstep, j, hj, hfrom⟩ := discovered_check h hg hp hs ha
  rcases canAttackLine_or_far hstep hj hfrom with hline | ⟨hbishop, hfar⟩
  · refine Or.inl (Or.inr ⟨_, List.mem_filter.mpr ⟨?_, ?_⟩, ha⟩)
    · rw [OneRound.sameSidePieces, if_pos hg.mover.2, hpieces]
      exact hp
    · rw [Bool.and_eq_true, decide_eq_true_eq]
      exact ⟨fun heq => hvacated (Or.inl heq), hline⟩
  · refine Or.inr (Or.inr ⟨sq, step, j, ?_, ?_, ?_, hfar, hfrom⟩)
    · rw [← hsame]
      exact hc
    · rw [← hsame]
      exact hbishop
    · rw [← hsame]
      exact hstep

end Checks

/-! ## The loop and the sort -/

section Loop
variable {ε : Type} [LinearOrder ε] {E : Estimates ε} {flags : Flags} {r : OneRound}

/-- The moves that are estimated are those that are generated. -/
theorem OneRound.estimateMoves_fst (r : OneRound) (l : List (Piece × Move)) (auxBoard : Board) :
    (r.estimateMoves E l auxBoard).map Prod.fst = r.generateMaxMoves l auxBoard := by
  induction l generalizing auxBoard with
  | nil => rfl
  | cons x l ih =>
    obtain ⟨p, m⟩ := x
    rw [OneRound.estimateMoves, OneRound.generateMaxMoves]
    dsimp only
    split_ifs
    · rw [List.map_cons, ih]
      rfl
    · exact ih _

/-- On a scratch board that is always restored, each move is estimated on the board of the
round. -/
theorem OneRound.estimateMoves_eq_filter {b : Board} (ok : Move → Bool) {l : List (Piece × Move)}
    (h : ∀ x ∈ l, r.canMove x.1 x.2 r.isMaxChecked b = (ok x.2, b))
    (hundo : ∀ x ∈ l, Move.undo x.2 (Move.apply x.2 b) = b) :
    r.estimateMoves E l b = (l.filter fun x => ok x.2).map fun x =>
      (x.2, r.estimate E x.1 x.2 (x.2.apply b)) := by
  induction l with
  | nil => rfl
  | cons x l ih =>
    have hx := h x List.mem_cons_self
    have ih' := ih (fun y hy => h y (List.mem_cons_of_mem x hy))
      fun y hy => hundo y (List.mem_cons_of_mem x hy)
    rw [OneRound.estimateMoves, hx]
    dsimp only [OneRound.calcMoveHeuristics]
    rw [hundo x List.mem_cons_self, ih']
    by_cases hok : ok x.2 = true
    · simp [hok]
    · simp [hok]

/-- **A move has the estimate of its piece on the board of the round.** -/
theorem OneRound.mem_estimates (hready : r.Ready) (h : Playable r.curBoard r.blackFirst)
    (hchecked : r.isMaxChecked = r.isChecked) {x : Move × ε} (hx : x ∈ r.estimates E flags) :
    Generated r.curBoard r.blackFirst x.1 ∧
      x.2 = r.estimate E ⟨x.1.fromType, x.1.fromPos⟩ x.1 (x.1.apply r.curBoard) := by
  have hpieces : r.maxStepPieces = r.curBoard.piecesOf r.blackFirst := hready.maxStepPieces
  have hcandidates : ∀ x ∈ OneRound.candidates flags r.maxStepPieces r.curBoard,
      x.1 ∈ r.curBoard.piecesOf r.blackFirst ∧ x.2 ∈ x.1.getMoves flags r.curBoard := by
    intro x hx
    rw [hpieces] at hx
    exact mem_candidates.mp hx
  have hloop := OneRound.estimateMoves_eq_filter (E := E) (r := r)
    (fun m => !(r.curBoard.makeMove m).isChecked r.blackFirst)
    (l := OneRound.candidates flags r.maxStepPieces r.curBoard) (b := r.curBoard)
    (fun x hx => by
      obtain ⟨hp, hm⟩ := hcandidates x hx
      rw [hchecked, hready.isChecked_eq, AttackState.isMaxChecked_eq,
        hready.agrees_attack.canMove_eq]
      exact OneRound.canMove_eq h.kings h.last r.attackState.covers hp hm)
    fun x hx => by
      obtain ⟨hp, hm⟩ := hcandidates x hx
      exact h.kings.recorded.undo_apply (generated_of_mem h.last hp hm)
  rw [OneRound.estimates, hloop] at hx
  obtain ⟨y, hy, rfl⟩ := List.mem_map.mp hx
  obtain ⟨hp, hm⟩ := hcandidates y (List.mem_filter.mp hy).1
  have hg := generated_of_mem h.last hp hm
  have hpiece : y.1 = ⟨y.2.fromType, y.2.fromPos⟩ := by
    have hpos := fromPos_of_mem_getMoves hp hm
    rw [hg.fromType_eq, hpos, (Board.mem_piecesOf.mp hp).1]
  exact ⟨hg, by rw [hpiece]⟩

/-- **The checks that are seen are tried first.** -/
theorem OneRound.announced_first {order : MoveOrder} (horder : order.SortsEstimates E flags)
    (hready : r.Ready) (h : Playable r.curBoard r.blackFirst)
    (hchecked : r.isMaxChecked = r.isChecked) :
    (r.generateAndSortMaxMoves flags order).Pairwise fun m m' => r.Announces m' → r.Announces m := by
  obtain ⟨sorted, hperm, hfalling, hmoves⟩ := horder r
  rw [hmoves, List.pairwise_map]
  refine hfalling.imp_of_mem fun {x y} hx hy hle hseen => ?_
  obtain ⟨hgx, hworthx⟩ := OneRound.mem_estimates hready h hchecked (hperm.mem_iff.mp hx)
  obtain ⟨hgy, hworthy⟩ := OneRound.mem_estimates hready h hchecked (hperm.mem_iff.mp hy)
  rw [← OneRound.check_le_estimate_iff (E := E) hready h hgx, ← hworthx]
  rw [← OneRound.check_le_estimate_iff (E := E) hready h hgy, ← hworthy] at hseen
  exact hseen.trans hle

end Loop

/-- In a round that is searched, the moves that are seen to give check come first, they give
check, and every other check is discovered by a capture en passant or in front of a far
bishop. -/
def Event.ChecksFirst {κ : Type} (flags : Flags) (order : MoveOrder) : Event κ → Prop
  | .expand r _ =>
      ((r.generateAndSortMaxMoves flags order).Pairwise fun m m' => r.Announces m' → r.Announces m) ∧
      ∀ m ∈ r.generateAndSortMaxMoves flags order,
        (r.Announces m → (r.curBoard.makeMove m).isChecked (!r.blackFirst) = true) ∧
        ((r.curBoard.makeMove m).isChecked (!r.blackFirst) = true →
          r.Announces m ∨ m.special = .pawnEnPassant ∨ m.OpensFarBishop r.curBoard r.blackFirst)
  | _ => True

/-- **The first side's checks are tried first in every round of a search** from a loaded
board on which the side moving second is not attacked, whatever was searched before, and
whatever numbers the estimates are. -/
theorem checks_first {κ ε : Type} [DecidableEq κ] [LinearOrder ε] (flags : Flags)
    (E : Estimates ε) {order : MoveOrder} (horder : order.SortsEstimates E flags)
    (hash : (Fin 8 → Fin 8 → PieceType) → κ) {earlier : List Search} {search : Search}
    {results : List (Int × OneRound)} {result : Int × OneRound} {w₀ w : World κ}
    (h₀ : Returns (runSearches flags order hash earlier) World.initial results w₀)
    (h : Returns (search.run flags order hash) w₀ result w)
    (hb : search.board.FileLoaded) (hsecond : search.board.isChecked (!search.blackFirst) = false) :
    w.Since w₀.trace (Event.ChecksFirst flags order) := by
  obtain ⟨new, hnew, hall⟩ := events_of_returns (region_sound flags) h₀ (hb.playable hsecond) h
  refine ⟨new, hnew, fun event he => ?_⟩
  have hok := hall event he
  cases event with
  | expand r n =>
    obtain ⟨hready, hsound, hchecked, -⟩ := hok
    refine ⟨OneRound.announced_first horder hready hsound hchecked, fun m hm => ?_⟩
    obtain ⟨sorted, hperm, -, hmoves⟩ := horder r
    rw [hmoves] at hm
    obtain ⟨x, hx, rfl⟩ := List.mem_map.mp hm
    obtain ⟨hg, -⟩ := OneRound.mem_estimates hready hsound hchecked (hperm.mem_iff.mp hx)
    rw [Board.makeMove_isChecked]
    exact ⟨fun hseen => hseen.isChecked hready hg, OneRound.announces_or hready hsound hg⟩
  | _ => trivial

/-! ## Estimates in the real numbers -/

section Real
open Real

/-- `Piece::distanceFactor`, without the rounding. -/
noncomputable def Piece.distanceFactor (self : Piece) (other : Position) : ℝ :=
  let dx := (other.1 - self.row).natAbs
  let dy := (other.2 - self.col).natAbs
  let distance : ℝ := (dx + dy : ℕ)
  match self.type with
  | .bQueen | .wQueen =>
      exp (-0.05 * distance) * if dx = 0 ∨ dy = 0 ∨ dx = dy then 0.5 else 0.25
  | .bRook | .wRook => exp (-0.1 * distance) * if dx = 0 ∨ dy = 0 then 0.5 else 0.1
  | .bBishop | .wBishop => exp (-0.1 * distance) * if dx = dy then 0.4 else 0.1
  | .bKnight | .wKnight => exp (-0.3 * distance)
  | .bKing | .wKing => exp (-1.0 * distance)
  | .bPawn | .wPawn => exp (-0.5 * distance)
  | .empty => 0

/-- The distance takes something off. -/
theorem Piece.distanceFactor_lt_one (p : Piece) {pos : Position} (h : p.position ≠ pos) :
    p.distanceFactor pos < 1 := by
  obtain ⟨distance, hdistance⟩ : ∃ distance : ℝ, distance =
      ((pos.1 - p.row).natAbs + (pos.2 - p.col).natAbs : ℕ) := ⟨_, rfl⟩
  have hpos : 0 < distance := by
    rw [hdistance, Nat.cast_pos]
    by_contra hzero
    obtain ⟨hrow, hcol⟩ := Nat.add_eq_zero_iff.mp (Nat.eq_zero_of_not_pos hzero)
    rw [Int.natAbs_eq_zero, sub_eq_zero] at hrow hcol
    exact h (Prod.ext hrow.symm hcol.symm)
  have hexp : ∀ a : ℝ, a < 0 → exp (a * distance) < 1 :=
    fun a ha => exp_lt_one_iff.mpr (mul_neg_of_neg_of_pos ha hpos)
  have hscaled : ∀ a t : ℝ, a < 0 → t ≤ 1 → exp (a * distance) * t < 1 := fun a t ha ht =>
    lt_of_le_of_lt (mul_le_of_le_one_right (exp_pos _).le ht) (hexp a ha)
  unfold Piece.distanceFactor
  dsimp only
  rw [← hdistance]
  cases p.type with
  | bQueen | wQueen | bRook | wRook | bBishop | wBishop =>
    refine hscaled _ _ (by norm_num) ?_
    split_ifs <;> norm_num
  | bKnight | wKnight | bKing | wKing | bPawn | wPawn => exact hexp _ (by norm_num)
  | empty => exact one_pos

/-- The estimates in the real numbers. -/
noncomputable def Estimates.real : Estimates ℝ where
  check := 10
  distance p pos := 10 * p.distanceFactor pos
  distance_lt p pos h := by
    have hlt := p.distanceFactor_lt_one h
    linarith

end Real

section Sorted
variable {ε : Type} [LinearOrder ε] (E : Estimates ε) (flags : Flags)

/-- An order by the estimates: a merge sort of the moves that the loop estimates. -/
def MoveOrder.byEstimates : MoveOrder where
  sort r moves :=
    if moves = (r.estimates E flags).map Prod.fst then
      ((r.estimates E flags).mergeSort fun x y => y.2 ≤ x.2).map Prod.fst
    else moves
  perm r moves := by
    split_ifs with h
    · rw [h]
      exact (List.mergeSort_perm _ _).map Prod.fst
    · exact List.Perm.refl _

theorem MoveOrder.byEstimates_sorts : (byEstimates E flags).SortsEstimates E flags := by
  intro r
  refine ⟨(r.estimates E flags).mergeSort fun x y => y.2 ≤ x.2, List.mergeSort_perm _ _, ?_, ?_⟩
  · refine List.Pairwise.imp of_decide_eq_true (List.pairwise_mergeSort ?_ ?_ _)
    · intro x y z hxy hyz
      exact decide_eq_true ((of_decide_eq_true hyz).trans (of_decide_eq_true hxy))
    · intro x y
      rw [Bool.or_eq_true, decide_eq_true_eq, decide_eq_true_eq]
      exact le_total y.2 x.2
  · rw [OneRound.generateAndSortMaxMoves, ← OneRound.estimateMoves_fst (E := E)]
    exact if_pos rfl

end Sorted

/-- The search of the lone pawn's mate in the order of the estimates, two levels deep. -/
theorem checks_first_lone_pawn :
    ∃ result w, Returns (Search.run Flags.default (.byEstimates Estimates.real Flags.default)
        placementKey ⟨Board.lonePawn, false, 2⟩) World.initial result w ∧
      w.Since [] (Event.ChecksFirst Flags.default (.byEstimates Estimates.real Flags.default)) := by
  have h₀ : Returns (runSearches Flags.default (.byEstimates Estimates.real Flags.default)
      placementKey []) World.initial [] World.initial := returns_pure _ _
  obtain ⟨result, w, h⟩ := returns_of_levels ⟨Board.lonePawn, false, 2⟩ h₀ (by decide) (by decide)
  exact ⟨result, w, h, checks_first Flags.default Estimates.real (MoveOrder.byEstimates_sorts _ _)
    placementKey h₀ h Board.lonePawn_fileLoaded Board.lonePawn_second⟩

end Chess
