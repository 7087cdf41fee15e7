import ChessMate.BreadthTree
import ChessMate.RoundGame

/-! # What the breadth-first solver finds

`expand` gives a board of the second side a score above a mate, to be lowered by the
replies, and the backward pass takes such a score for a stalemate on the even layers.
The boards of the second side are in the odd layers.  So a stalemate of the second
side counts for more than a mate (`stalemate_is_no_win_when`): it makes its parent,
on an even layer, a stalemate too, and at the root it is returned.

A board of the last layer has the score of the board it is made from, which is a mate
if that board is in check.  With white's en passant, which leaves the pawn that it
takes, these are the ways in which the solver's game differs from that of the rules
(`BreadthWins`).  Where white cannot take en passant, the first side cannot stalemate
and a check with its last move can be a mate, the verdict is right
(`evaluate_correct_when`).
-/
namespace Chess
open LineWalk LayerFold MateGame

/-! ## Scores -/

section Scores
variable {flags : Flags} {first : Bool} {l d : Nat} {b s : Board}

theorem settled_of_odd (hl : l % 2 = 1) (score : Int) : settled l score = score :=
  if_neg (by omega)

theorem settled_le (hl : l % 2 = 0) (score : Int) : settled l score ≤ CHECKMATE := by
  unfold settled
  split_ifs with h
  · decide
  · omega

/-- On even layers only a mate is worth a mate. -/
theorem checkmate_le_settled_iff (hl : l % 2 = 0) {score : Int} :
    CHECKMATE ≤ settled l score ↔ score = CHECKMATE := by
  unfold settled
  split_ifs with h
  · refine iff_of_false (by decide) (by omega)
  · omega

/-- Before the second side's layer is propagated. -/
theorem nodeScore_second (hl : l % 2 = 0) :
    b.nodeScore flags first (d + 1) l =
      (b.nextBoards flags first l).foldl
        (fun score next => min score (settled l (next.nodeScore flags first d (l + 1))))
        (b.expandScore first l) := by
  rw [Board.nodeScore]
  simp only [if_neg (show ¬ l % 2 = 1 by omega)]

/-- Before the first side's layer is propagated. -/
theorem nodeScore_first (hl : l % 2 = 1) :
    b.nodeScore flags first (d + 1) l =
      (b.nextBoards flags first l).foldl
        (fun score next => max score (next.nodeScore flags first d (l + 1)))
        (b.expandScore first l) := by
  rw [Board.nodeScore]
  simp only [if_pos hl, settled_of_odd hl]

theorem expandScore_second (hl : l % 2 = 0) :
    b.expandScore first l = if b.isChecked (!first) then CHECKMATE else 1 + CHECKMATE := by
  unfold Board.expandScore
  simp only [hl, if_true]

theorem expandScore_first (hl : l % 2 = 1) (hb : b.isChecked (!first) = false) :
    b.expandScore first l ≤ NONE := by
  unfold Board.expandScore
  rw [if_neg (by rw [hb]; decide), if_neg (by omega)]
  split <;> decide

/-- **A board of the second side is worth more than a mate exactly if it is not in
check and nothing is made from it.** -/
theorem checkmate_lt_second_iff (hl : l % 2 = 0) :
    CHECKMATE < b.nodeScore flags first (d + 1) l ↔
      b.isChecked (!first) = false ∧ b.nextBoards flags first l = [] := by
  rw [nodeScore_second hl, Int.lt_iff_add_one_le, le_foldl_min_iff, expandScore_second hl]
  refine and_congr ?_ ?_
  · cases b.isChecked (!first) <;> decide
  · rw [List.eq_nil_iff_forall_not_mem]
    refine forall_congr' fun s => imp_congr_right fun _ => ?_
    refine iff_of_false (fun h => ?_) (by simp)
    have hle := settled_le hl (s.nodeScore flags first d (l + 1))
    omega

/-- A board of the second side is worth a mate at least exactly if every board that is
made from it is worth a mate. -/
theorem checkmate_le_second_iff (hl : l % 2 = 0) :
    CHECKMATE ≤ b.nodeScore flags first (d + 1) l ↔
      ∀ s ∈ b.nextBoards flags first l, s.nodeScore flags first d (l + 1) = CHECKMATE := by
  rw [nodeScore_second hl, le_foldl_min_iff, expandScore_second hl]
  simp only [checkmate_le_settled_iff hl]
  refine and_iff_right ?_
  split <;> decide

/-- A board of the first side is worth more than a mate exactly if a board that is made
from it is. -/
theorem first_le_checkmate_iff (hl : l % 2 = 1) (hb : b.isChecked (!first) = false) :
    b.nodeScore flags first (d + 1) l ≤ CHECKMATE ↔
      ∀ s ∈ b.nextBoards flags first l, s.nodeScore flags first d (l + 1) ≤ CHECKMATE := by
  rw [nodeScore_first hl, foldl_max_le_iff]
  exact and_iff_right ((expandScore_first hl hb).trans (by decide))

theorem checkmate_le_first_iff (hl : l % 2 = 1) (hb : b.isChecked (!first) = false) :
    CHECKMATE ≤ b.nodeScore flags first (d + 1) l ↔
      ∃ s ∈ b.nextBoards flags first l, CHECKMATE ≤ s.nodeScore flags first d (l + 1) := by
  rw [nodeScore_first hl, le_foldl_max_iff]
  refine or_iff_right fun h => ?_
  have hle := h.trans (expandScore_first hl hb)
  exact absurd hle (by decide)

end Scores

/-! ## Stalemates -/

/-- The side is not in check and has no legal move. -/
def Board.Stalemated (flags : Flags) (b : Board) (c : Bool) : Prop :=
  b.isChecked c = false ∧ b.legalMoves flags c = []

instance (flags : Flags) (b : Board) (c : Bool) : Decidable (b.Stalemated flags c) :=
  inferInstanceAs (Decidable (_ ∧ _))

section Stalemate
variable {flags : Flags} {first : Bool} {l : Nat} {b b' s : Board} {c : Bool} {m : Move}

theorem asMade_eq_self (h : ¬ (m.special = .pawnEnPassant ∧ m.fromType = .wPawn)) : m.asMade = m :=
  if_neg h

/-- What a pawn attacks does not depend on the board. -/
theorem canAttack_pawn (c : Bool) (sq tgt : Position) (b b' : Board) :
    Piece.canAttack ⟨PieceType.pawnOf c, sq⟩ b tgt =
      Piece.canAttack ⟨PieceType.pawnOf c, sq⟩ b' tgt := by
  cases c <;> rfl

/-- **Out of check every legal move is safe as it is made**: the pawn that white does
not remove gave no check before. -/
theorem safeMove_of_isLegal (h : TreeBoard b c) (hn : b.isChecked c = false)
    (hm : b.IsLegal flags c m) : b.SafeMove flags c m := by
  obtain ⟨hmove, hsafe⟩ := Board.isLegal_iff_hasMove.mp hm
  refine ⟨hmove, ?_⟩
  by_cases hwhite : m.special = .pawnEnPassant ∧ m.fromType = .wPawn
  swap
  · rw [asMade_eq_self hwhite]
    exact hsafe
  have hg := hmove.generated h.last
  have hpassant := hg.enPassant hwhite.1
  have hmade : m.asMade = { m with special := .normalMove } := if_pos hwhite
  have hking : (m.asMade.apply b).kingPosition c = b.kingPosition c := by
    rw [hg.asMade.kingPosition_apply, if_neg]
    rw [hmade]
    show m.fromType ≠ _
    rw [hpassant.fromType_eq]
    cases c <;> decide
  rw [← Bool.not_eq_true]
  intro hcheck
  have hreal : (b.makeMove m).isChecked c = true := by
    refine hg.asMade.isChecked_mono hg ?_ ?_ ?_ (fun sq hv => ?_) (fun sq hv henemy ha => ?_) hcheck
    · rw [hmade]
    · rw [hmade]
    · exact hg.asMade.valid_king_apply (h.kings.valid_king c)
    · rw [hmade] at hv
      rcases hv with rfl | ⟨hs, -⟩
      · exact Or.inl rfl
      · cases hs
    · rcases hv with rfl | ⟨-, rfl⟩
      · rw [← hg.fromType_eq] at henemy
        exact hg.mover.not_other henemy
      · -- the pawn that is taken would attack the king already
        have hcaptured : b.getPieceTypeAtPosition m.enPassantPos = PieceType.pawnOf (!c) := by
          rw [hpassant.enPassantPos_eq]
          exact hpassant.captured
        refine Board.not_canAttack_king hn henemy ?_
        rw [hcaptured] at ha ⊢
        rw [hking] at ha
        rw [canAttack_pawn _ _ _ b (m.asMade.apply b)]
        exact ha
  rw [hsafe] at hreal
  cases hreal

/-- From a board that is not in check nothing is made only if there is no legal move. -/
theorem stalemated_of_nextBoards (h : TreeBoard b (mover first l))
    (hn : b.isChecked (mover first l) = false) (hnil : b.nextBoards flags first l = []) :
    b.Stalemated flags (mover first l) := by
  refine ⟨hn, List.eq_nil_iff_forall_not_mem.mpr fun m hm => ?_⟩
  have hsafe := safeMove_of_isLegal h hn (Board.mem_legalMoves.mp hm)
  obtain ⟨s, hs, -⟩ := exists_mem_nextBoards h hsafe
  rw [hnil] at hs
  cases hs

/-- A board is made from a stalemate only for an illegal en passant capture of white. -/
theorem passant_of_stalemated (h : TreeBoard b (mover first l))
    (hstale : b.Stalemated flags (mover first l)) (hs : s ∈ b.nextBoards flags first l) :
    mover first l = false ∧ ∃ m, b.SafeMove flags false m ∧ m.special = .pawnEnPassant := by
  obtain ⟨m, hm, -⟩ := mem_nextBoards h hs
  have hwhite : m.special = .pawnEnPassant ∧ m.fromType = .wPawn := by
    by_contra hnot
    have hsafe := hm.2
    rw [asMade_eq_self hnot] at hsafe
    have hlegal := Board.mem_legalMoves.mpr (Board.isLegal_iff_hasMove.mpr ⟨hm.1, hsafe⟩)
    rw [hstale.2] at hlegal
    cases hlegal
  have hcolor : mover first l = false := by
    rw [← (hm.1.generated h.last).mover.2, hwhite.2]
    rfl
  exact ⟨hcolor, m, hcolor ▸ hm, hwhite.1⟩

theorem Board.Alike.isLegal (h : b.Alike b') (hb : b.DoubleStepOk) (hm : b.IsLegal flags c m) :
    b'.IsLegal flags c m := by
  obtain ⟨hmove, hsafe⟩ := Board.isLegal_iff_hasMove.mp hm
  have hmove' := h.hasMove hmove
  have hmake := h.makeMove (hmove.generated hb) (hmove'.generated (h.doubleStepOk hb))
  exact Board.isLegal_iff_hasMove.mpr ⟨hmove', (hmake.isChecked c).symm.trans hsafe⟩

theorem Board.Alike.stalemated (h : b.Alike b') (hb : b.DoubleStepOk)
    (hs : b'.Stalemated flags c) : b.Stalemated flags c := by
  refine ⟨(h.isChecked c).trans hs.1, List.eq_nil_iff_forall_not_mem.mpr fun m hm => ?_⟩
  have hm' := Board.mem_legalMoves.mpr (h.isLegal hb (Board.mem_legalMoves.mp hm))
  rw [hs.2] at hm'
  cases hm'

theorem mover_of_even (hl : l % 2 = 0) : mover first l = !first := if_neg (by omega)

end Stalemate

/-- **A stalemate is no win**: every expanded board on which the second side is
stalemated gives its parent `STALLMATE`, and `evaluate` returns no more than a mate. -/
structure StalemateIsNoWin (flags : Flags) (first : Bool) (b : Board) (d : Nat)
    (tree : List (List TreeNode)) : Prop where
  nodes : ∀ j < d, j % 2 = 1 → ∀ layer, (b.evaluateTree flags first d)[j]? = some layer →
    ∀ node ∈ layer, node.nextState.Stalemated flags (!first) → node.nextState.score = STALLMATE
  result : (b.evaluate flags first d tree).1 ≤ CHECKMATE

section NoWin
variable {flags : Flags} {first : Bool} {b : Board} {d : Nat}

/-- The nodes of a layer in which the second side moves, and their scores. -/
theorem nodes_of_odd (flags : Flags) (first : Bool) (b : Board) {d j : Nat} (hj : j % 2 = 1)
    (hd : j ≤ d) :
    ∃ layer, (b.evaluateTree flags first d)[j]? = some layer ∧
      (∀ node ∈ layer, ∃ s ∈ layerBoards flags first 1 j [b], node.nextState.Alike s) ∧
      ∀ s ∈ layerBoards flags first 1 j [b], ∃ node ∈ layer, node.nextState.Alike s ∧
        node.nextState.score = s.nodeScore flags first (d - j) (j + 1) := by
  have h := evaluateTree_layer flags first b (by omega : 0 < j) hd
  obtain ⟨layer, hlayer, hboards⟩ := Option.map_eq_some_iff.mp h
  refine ⟨layer, hlayer, fun node hnode => ?_, fun s hs => ?_⟩
  · have hmem : node.nextState ∈ layer.map BfsNode.nextState := List.mem_map_of_mem hnode
    rw [hboards] at hmem
    obtain ⟨s, hs, hscored⟩ := List.mem_map.mp hmem
    exact ⟨s, hs, hscored ▸ .withScore s _⟩
  · have hmem : s.withScore (settled j (s.nodeScore flags first (d - j) (j + 1))) ∈
        layer.map BfsNode.nextState := hboards ▸ List.mem_map_of_mem hs
    obtain ⟨node, hnode, hscored⟩ := List.mem_map.mp hmem
    refine ⟨node, hnode, hscored ▸ .withScore s _, ?_⟩
    rw [hscored, settled_of_odd hj]
    rfl

/-- The boards of the tree in the layers where the second side moves. -/
theorem treeBoard_of_odd (h : TreeBoard b first) {j : Nat} (hj : j % 2 = 1) {s : Board}
    (hs : s ∈ layerBoards flags first 1 j [b]) : TreeBoard s (!first) := by
  have hroot : ∀ b' ∈ [b], TreeBoard b' (mover first 1) := by
    intro b' hb'
    rw [List.mem_singleton.mp hb']
    exact h
  have ht := treeBoard_of_mem_layerBoards hroot hs
  rw [mover_of_even (by omega)] at ht
  exact ht

/-- If no stalemated board is expanded, no stalemate is a win. -/
theorem StalemateIsNoWin.of_none (hb : TreeBoard b first) (h2 : 2 ≤ d)
    (hnone : ∀ j < d, j % 2 = 1 → ∀ s ∈ layerBoards flags first 1 j [b],
      ¬ s.Stalemated flags (!first))
    (tree : List (List TreeNode)) : StalemateIsNoWin flags first b d tree where
  nodes j hj hodd layer hlayer node hnode hstale := by
    obtain ⟨layer', hlayer', hboards, -⟩ := nodes_of_odd flags first b hodd hj.le
    obtain rfl : layer' = layer := Option.some.inj (hlayer'.symm.trans hlayer)
    obtain ⟨s, hs, halike⟩ := hboards node hnode
    have hs' := (treeBoard_of_odd hb hodd hs).last
    exact absurd (halike.symm.stalemated hs' hstale) (hnone j hj hodd s hs)
  result := by
    obtain ⟨e, rfl⟩ : ∃ e, d = e + 2 := ⟨d - 2, by omega⟩
    rw [evaluate_eq hb.notAttacked, first_le_checkmate_iff (by decide) hb.notAttacked]
    intro s hs
    by_contra hmore
    obtain ⟨hn, hnil⟩ := (checkmate_lt_second_iff (by decide)).mp (not_le.mp hmore)
    have hs' : s ∈ layerBoards flags first 1 1 [b] := by
      show s ∈ [b].flatMap _
      rw [List.flatMap_singleton]
      exact hs
    refine hnone 1 (by omega) (by decide) s hs' ?_
    exact stalemated_of_nextBoards (l := 2) (treeBoard_of_odd hb (by decide) hs') hn hnil

/-- If no stalemate is a win, something is made from every stalemated board that is
expanded. -/
theorem StalemateIsNoWin.nextBoards_ne_nil (hb : TreeBoard b first) {tree : List (List TreeNode)}
    (hwin : StalemateIsNoWin flags first b d tree) {j : Nat} (hj : j < d) (hodd : j % 2 = 1)
    {s : Board} (hs : s ∈ layerBoards flags first 1 j [b]) (hstale : s.Stalemated flags (!first)) :
    s.nextBoards flags first (j + 1) ≠ [] := by
  intro hnil
  have hs' := (treeBoard_of_odd hb hodd hs).last
  obtain ⟨layer, hlayer, -, hscores⟩ := nodes_of_odd flags first b hodd hj.le
  obtain ⟨node, hnode, halike, hscore⟩ := hscores s hs
  have hstale' := halike.stalemated (halike.symm.doubleStepOk hs') hstale
  rw [hwin.nodes j hj hodd layer hlayer node hnode hstale'] at hscore
  obtain ⟨e, he⟩ : ∃ e, d - j = e + 1 := ⟨d - j - 1, by omega⟩
  rw [he] at hscore
  -- the board keeps the score above a mate that `expand` gave it
  have hmore : CHECKMATE < s.nodeScore flags first (e + 1) (j + 1) :=
    (checkmate_lt_second_iff (by omega)).mpr ⟨hstale.1, hnil⟩
  rw [← hscore] at hmore
  exact absurd hmore (by decide)

/-- **When a stalemate is no win**: if no board on which the second side is stalemated
is expanded, and, as far as a board is made from none of them, only then.  A board is
made from a stalemate only for an illegal en passant capture of white. -/
theorem stalemate_is_no_win_when (hk : KingsOk b) (hlast : b.DoubleStepOk)
    (hsecond : b.isChecked (!first) = false) (h2 : 2 ≤ d) (tree : List (List TreeNode)) :
    ((∀ j < d, j % 2 = 1 → ∀ s ∈ layerBoards flags first 1 j [b], ¬ s.Stalemated flags (!first)) →
      StalemateIsNoWin flags first b d tree) ∧
    (StalemateIsNoWin flags first b d tree →
      ∀ j < d, j % 2 = 1 → ∀ s ∈ layerBoards flags first 1 j [b], s.Stalemated flags (!first) →
        first = true ∧ ∃ m, s.SafeMove flags false m ∧ m.special = .pawnEnPassant) := by
  have hb : TreeBoard b first := ⟨hk, hlast, hsecond⟩
  refine ⟨fun hnone => .of_none hb h2 hnone tree, fun hwin j hj hodd s hs hstale => ?_⟩
  obtain ⟨s', hs''⟩ := List.exists_mem_of_ne_nil _ (hwin.nextBoards_ne_nil hb hj hodd hs hstale)
  have hs' := treeBoard_of_odd hb hodd hs
  have hmover : mover first (j + 1) = !first := mover_of_even (by omega)
  rw [← hmover] at hs' hstale
  obtain ⟨hwhite, hpassant⟩ := passant_of_stalemated hs' hstale hs''
  refine ⟨?_, hpassant⟩
  rw [hmover, Bool.not_eq_false'] at hwhite
  exact hwhite

end NoWin

/-- White can stalemate with the pawn. -/
def Board.pawnStalemate : Board := ofText "kb6\npa6\nKa8\n"

theorem Board.pawnStalemate_fileLoaded : pawnStalemate.FileLoaded :=
  fileLoaded_ofText (by decide +kernel)

/-- **The stalemate counts for more than a mate.** -/
theorem stalemate_counts_as_win :
    KingsOk Board.pawnStalemate ∧ Board.pawnStalemate.DoubleStepOk ∧
    Board.pawnStalemate.isChecked (!false) = false ∧
    (Board.pawnStalemate.evaluate Flags.default false 2 []).1 = 1 + CHECKMATE ∧
    ∃ layer, (Board.pawnStalemate.evaluateTree Flags.default false 2)[1]? = some layer ∧
      ∃ node ∈ layer, node.nextState.Stalemated Flags.default (!false) ∧
        node.nextState.score = 1 + CHECKMATE := by
  have hkings := Board.pawnStalemate_fileLoaded.kings
  have hsecond : Board.pawnStalemate.isChecked (!false) = false := by decide +kernel
  have hresult : (Board.pawnStalemate.evaluate Flags.default false 2 []).1 = 1 + CHECKMATE := by
    decide +kernel
  refine ⟨hkings.1, hkings.2.doubleStepOk, hsecond, hresult, ?_⟩
  have hnode : ((Board.pawnStalemate.evaluateTree Flags.default false 2)[1]?.any fun layer =>
      layer.any fun node => decide (node.nextState.Stalemated Flags.default (!false)) &&
        node.nextState.score == 1 + CHECKMATE) = true := by decide +kernel
  obtain ⟨layer, hlayer, hany⟩ := (Option.any_eq_true _ _).mp hnode
  obtain ⟨node, hmem, h⟩ := List.any_eq_true.mp hany
  rw [Bool.and_eq_true, decide_eq_true_eq, beq_iff_eq] at h
  exact ⟨layer, hlayer, node, hmem, h⟩

/-- White mates on the last row. -/
def Board.backRank : Board := ofText "kc2\nra1\nKh8\nPg7\nPh7\n"

theorem Board.backRank_fileLoaded : backRank.FileLoaded := fileLoaded_ofText (by decide +kernel)

/-- On the back rank nothing stalemates in one move. -/
theorem stalemate_is_no_win_back_rank :
    StalemateIsNoWin Flags.default false Board.backRank 2 [] := by
  have hkings := Board.backRank_fileLoaded.kings
  have hsecond : Board.backRank.isChecked (!false) = false := by decide +kernel
  refine (stalemate_is_no_win_when hkings.1 hkings.2.doubleStepOk hsecond le_rfl []).1
    fun j hj hodd => ?_
  obtain rfl : j = 1 := by omega
  decide +kernel

/-! ## The game that the solver plays -/

/-- The board is made from the other by a safe move of the side. -/
def Board.LeadsTo (flags : Flags) (c : Bool) (b s : Board) : Prop :=
  ∃ m, b.SafeMove flags c m ∧ s = b.makeMove m.asMade

/-- **The game of the moves that the solver makes.** -/
def breadthGame (flags : Flags) (first : Bool) : Game Board Board where
  attack := Board.LeadsTo flags first
  reply := Board.LeadsTo flags (!first)
  check s := s.isChecked (!first) = true

/-- **The wins that the solver finds.**  A board from which the first side can
stalemate is not won, and with the last of its moves a check is enough. -/
def BreadthWins (flags : Flags) (first : Bool) : ℕ → Board → Prop
  | 0, _ => False
  | n + 1, b =>
      (∀ s, (breadthGame flags first).attack b s →
        (breadthGame flags first).check s ∨ ∃ b', (breadthGame flags first).reply s b') ∧
      ∃ s, (breadthGame flags first).attack b s ∧ ∀ b', (breadthGame flags first).reply s b' →
        if n = 0 then (breadthGame flags first).check s else BreadthWins flags first n b'

/-- The boards of the list are, up to likeness, those with the property. -/
structure Pictures (boards : List Board) (R : Board → Prop) : Prop where
  sound : ∀ s ∈ boards, ∃ s', R s' ∧ s.Alike s'
  complete : ∀ s', R s' → ∃ s ∈ boards, s.Alike s'

section Pictures
variable {boards : List Board} {R P P' : Board → Prop}

theorem Pictures.forall_iff (h : Pictures boards R)
    (hP : ∀ s ∈ boards, ∀ s', s.Alike s' → (P s ↔ P' s')) :
    (∀ s ∈ boards, P s) ↔ ∀ s', R s' → P' s' := by
  constructor
  · intro hall s' hs'
    obtain ⟨s, hs, ha⟩ := h.complete s' hs'
    exact (hP s hs s' ha).mp (hall s hs)
  · intro hall s hs
    obtain ⟨s', hs', ha⟩ := h.sound s hs
    exact (hP s hs s' ha).mpr (hall s' hs')

theorem Pictures.exists_iff (h : Pictures boards R)
    (hP : ∀ s ∈ boards, ∀ s', s.Alike s' → (P s ↔ P' s')) :
    (∃ s ∈ boards, P s) ↔ ∃ s', R s' ∧ P' s' := by
  constructor
  · rintro ⟨s, hs, hp⟩
    obtain ⟨s', hs', ha⟩ := h.sound s hs
    exact ⟨s', hs', (hP s hs s' ha).mp hp⟩
  · rintro ⟨s', hs', hp⟩
    obtain ⟨s, hs, ha⟩ := h.complete s' hs'
    exact ⟨s, hs, (hP s hs s' ha).mpr hp⟩

theorem Pictures.ne_nil_iff (h : Pictures boards R) : boards ≠ [] ↔ ∃ s', R s' := by
  constructor
  · intro hne
    obtain ⟨s, hs⟩ := List.exists_mem_of_ne_nil _ hne
    obtain ⟨s', hs', -⟩ := h.sound s hs
    exact ⟨s', hs'⟩
  · rintro ⟨s', hs'⟩
    obtain ⟨s, hs, -⟩ := h.complete s' hs'
    exact List.ne_nil_of_mem hs

end Pictures

section Verdict
variable {flags : Flags} {first : Bool} {l : Nat} {b b' s s' : Board}

/-- The boards that are made are those that the board leads to. -/
theorem pictures_nextBoards (h : TreeBoard b (mover first l)) (ha : b.Alike b') :
    Pictures (b.nextBoards flags first l) (b'.LeadsTo flags (mover first l)) where
  sound s hs := by
    obtain ⟨m, hm, hs⟩ := mem_nextBoards h hs
    obtain ⟨hm', hmake⟩ := ha.safeMove h.last hm
    exact ⟨_, ⟨m, hm', rfl⟩, hs.trans hmake⟩
  complete s' hs' := by
    obtain ⟨m, hm', rfl⟩ := hs'
    obtain ⟨hm, hmake⟩ := ha.symm.safeMove (ha.doubleStepOk h.last) hm'
    obtain ⟨s, hs, hsm⟩ := exists_mem_nextBoards h hm
    exact ⟨s, hs, hsm.trans hmake.symm⟩

/-- **One round of the solver's game**: the values two layers further on decide
whether a board of the first side is worth a mate. -/
theorem nodeScore_round {d : Nat} {Q : Board → Board → Prop} (hl : l % 2 = 1)
    (h : TreeBoard b first) (ha : b.Alike b')
    (hQ : ∀ s ∈ b.nextBoards flags first l, ∀ s', s.Alike s' →
      ∀ c ∈ s.nextBoards flags first (l + 1), ∀ c', c.Alike c' →
        (c.nodeScore flags first d (l + 2) = CHECKMATE ↔ Q s' c')) :
    b.nodeScore flags first (d + 2) l = CHECKMATE ↔
      (∀ s', (breadthGame flags first).attack b' s' →
        (breadthGame flags first).check s' ∨ ∃ c', (breadthGame flags first).reply s' c') ∧
      ∃ s', (breadthGame flags first).attack b' s' ∧
        ∀ c', (breadthGame flags first).reply s' c' → Q s' c' := by
  have hmover : mover first l = first := if_pos hl
  have hmover' : mover first (l + 1) = !first := mover_of_even (by omega)
  have h' : TreeBoard b (mover first l) := hmover.symm ▸ h
  have hattack : Pictures (b.nextBoards flags first l) (b'.LeadsTo flags (mover first l)) :=
    pictures_nextBoards h' ha
  have hreply : ∀ s ∈ b.nextBoards flags first l, ∀ s', s.Alike s' →
      Pictures (s.nextBoards flags first (l + 1)) (s'.LeadsTo flags (!first)) := by
    intro s hs s' hs'
    rw [← hmover']
    exact pictures_nextBoards (h'.next hs) hs'
  rw [hmover] at hattack
  rw [le_antisymm_iff, first_le_checkmate_iff hl h.notAttacked,
    checkmate_le_first_iff hl h.notAttacked]
  refine and_congr (hattack.forall_iff fun s hs s' hs' => ?_)
    (hattack.exists_iff fun s hs s' hs' => ?_)
  · rw [← not_lt, checkmate_lt_second_iff (by omega), not_and_or, Bool.not_eq_false]
    exact or_congr (by rw [hs'.isChecked]; rfl) (hreply s hs s' hs').ne_nil_iff
  · rw [checkmate_le_second_iff (by omega)]
    exact (hreply s hs s' hs').forall_iff fun c hc c' hc' => hQ s hs s' hs' c hc c' hc'

/-- **The value of a board of the first side is a mate exactly if the solver's game is
won from it.** -/
theorem nodeScore_eq_checkmate_iff (n : ℕ) : ∀ {l : Nat} {b b' : Board}, l % 2 = 1 →
    TreeBoard b first → b.Alike b' →
    (b.nodeScore flags first (2 * n + 2) l = CHECKMATE ↔ BreadthWins flags first (n + 1) b') := by
  induction n with
  | zero =>
    intro l b b' hl h ha
    refine nodeScore_round hl h ha fun s hs s' hs' c hc c' hc' => ?_
    -- a board of the last layer has the score with which the board before was expanded
    show c.score = CHECKMATE ↔ s'.isChecked (!first) = true
    rw [score_of_mem_nextBoards hc, expandScore_second (by omega), hs'.isChecked]
    cases s'.isChecked (!first) <;> decide
  | succ n ih =>
    intro l b b' hl h ha
    refine nodeScore_round hl h ha fun s hs s' hs' c hc c' hc' => ?_
    have hmover : mover first l = first := if_pos hl
    have hc₁ := (TreeBoard.next (hmover.symm ▸ h) hs).next hc
    rw [mover_succ, mover_succ, Bool.not_not, hmover] at hc₁
    rw [if_neg (Nat.succ_ne_zero n)]
    exact ih (by omega) hc₁ hc'

/-- **What `evaluate` finds.** -/
theorem evaluate_eq_checkmate_iff {n : ℕ} (h : TreeBoard b first) (h1 : 1 ≤ n)
    (tree : List (List TreeNode)) :
    (b.evaluate flags first (2 * n) tree).1 = CHECKMATE ↔ BreadthWins flags first n b := by
  obtain ⟨n, rfl⟩ := Nat.exists_eq_add_one.mpr h1
  rw [evaluate_eq h.notAttacked]
  exact nodeScore_eq_checkmate_iff n rfl h (.refl b)

end Verdict

/-! ## When the verdict is right -/

/-- White cannot take en passant. -/
def Board.NoWhitePassant (flags : Flags) (b : Board) (c : Bool) : Prop :=
  ∀ m, b.HasMove flags c m → ¬ (m.special = .pawnEnPassant ∧ m.fromType = .wPawn)

/-- The side is mated. -/
def Board.Mated (flags : Flags) (b : Board) (c : Bool) : Prop :=
  b.isChecked c = true ∧ b.legalMoves flags c = []

instance (flags : Flags) (b : Board) (c : Bool) : Decidable (b.Mated flags c) :=
  inferInstanceAs (Decidable (_ ∧ _))

/-- White can never take en passant within `n` rounds from the board. -/
def Board.PassantFree (flags : Flags) (first : Bool) : ℕ → Board → Prop
  | 0, _ => True
  | n + 1, b => b.NoWhitePassant flags first ∧ ∀ m, b.IsLegal flags first m →
      (b.makeMove m).NoWhitePassant flags (!first) ∧
      ∀ m', (b.makeMove m).IsLegal flags (!first) m' →
        PassantFree flags first n ((b.makeMove m).makeMove m')

/-- The first side can never stalemate within `n` rounds from the board. -/
def Board.StalemateFree (flags : Flags) (first : Bool) : ℕ → Board → Prop
  | 0, _ => True
  | n + 1, b => ∀ m, b.IsLegal flags first m → ¬ (b.makeMove m).Stalemated flags (!first) ∧
      ∀ m', (b.makeMove m).IsLegal flags (!first) m' →
        StalemateFree flags first n ((b.makeMove m).makeMove m')

/-- **Last checks are mates** in play from the board: where the first side can give check
with the last of its `n` moves, it can mate. -/
def Board.LastChecksMate (flags : Flags) (first : Bool) : ℕ → Board → Prop
  | 0, _ => True
  | 1, b => (∃ m, b.IsLegal flags first m ∧ (b.makeMove m).isChecked (!first) = true) →
      ∃ m, b.IsLegal flags first m ∧ (b.makeMove m).Mated flags (!first)
  | n + 2, b => ∀ m, b.IsLegal flags first m →
      ∀ m', (b.makeMove m).IsLegal flags (!first) m' →
        LastChecksMate flags first (n + 1) ((b.makeMove m).makeMove m')

/-- **Play from the board within `n` rounds is plain**: white can never take en passant,
the first side can never stalemate, and its last checks are mates. -/
structure Board.Plain (flags : Flags) (first : Bool) (n : ℕ) (b : Board) : Prop where
  passantFree : b.PassantFree flags first n
  stalemateFree : b.StalemateFree flags first n
  lastChecksMate : b.LastChecksMate flags first n

section Decide
variable (flags : Flags) (first : Bool)

instance (b : Board) (c : Bool) : Decidable (b.NoWhitePassant flags c) :=
  decidable_of_iff (∀ p ∈ b.piecesOf c, ∀ m ∈ p.getMoves flags b,
      ¬ (m.special = .pawnEnPassant ∧ m.fromType = .wPawn))
    ⟨fun h m ⟨p, hp, hm⟩ => h p hp m hm, fun h p hp m hm => h m ⟨p, hp, hm⟩⟩

instance decidablePassantFree : ∀ n b, Decidable (Board.PassantFree flags first n b)
  | 0, _ => inferInstanceAs (Decidable True)
  | n + 1, b =>
      have := decidablePassantFree n
      inferInstanceAs (Decidable (b.NoWhitePassant flags first ∧ ∀ m, b.IsLegal flags first m → _ ∧
        ∀ m', (b.makeMove m).IsLegal flags (!first) m' → _))

instance decidableStalemateFree : ∀ n b, Decidable (Board.StalemateFree flags first n b)
  | 0, _ => inferInstanceAs (Decidable True)
  | n + 1, b =>
      have := decidableStalemateFree n
      inferInstanceAs (Decidable (∀ m, b.IsLegal flags first m → ¬ _ ∧
        ∀ m', (b.makeMove m).IsLegal flags (!first) m' → _))

instance decidableLastChecksMate : ∀ n b, Decidable (Board.LastChecksMate flags first n b)
  | 0, _ => inferInstanceAs (Decidable True)
  | 1, b => inferInstanceAs (Decidable ((∃ m, b.IsLegal flags first m ∧ _) →
      ∃ m, b.IsLegal flags first m ∧ _))
  | n + 2, b =>
      have := decidableLastChecksMate (n + 1)
      inferInstanceAs (Decidable (∀ m, b.IsLegal flags first m →
        ∀ m', (b.makeMove m).IsLegal flags (!first) m' → _))

end Decide

section Plain
variable {flags : Flags} {first : Bool} {n : ℕ} {b s : Board} {c : Bool}

/-- Without white's en passant the moves are made as they are generated. -/
theorem Board.NoWhitePassant.leadsTo_iff (h : b.NoWhitePassant flags c) :
    b.LeadsTo flags c s ↔ ∃ m, b.IsLegal flags c m ∧ s = b.makeMove m := by
  refine exists_congr fun m => ?_
  rw [Board.isLegal_iff_hasMove, Board.SafeMove]
  by_cases hm : b.HasMove flags c m
  · rw [asMade_eq_self (h m hm)]
  · simp only [hm, false_and]

/-- Without white's en passant the solver's attacks are the legal moves. -/
theorem Board.PassantFree.attack_iff (h : b.PassantFree flags first (n + 1)) (s : Board) :
    (breadthGame flags first).attack b s ↔ (mateGame flags first).attack b s :=
  h.1.leadsTo_iff

/-- And so are its replies to them. -/
theorem Board.PassantFree.reply_iff (h : b.PassantFree flags first (n + 1)) {s : Board}
    (hs : (mateGame flags first).attack b s) (b' : Board) :
    (breadthGame flags first).reply s b' ↔ (mateGame flags first).reply s b' := by
  obtain ⟨m, hm, rfl⟩ := hs
  exact (h.2 m hm).1.leadsTo_iff

theorem Board.PassantFree.after (h : b.PassantFree flags first (n + 1)) {s b' : Board}
    (hs : (mateGame flags first).attack b s) (hb' : (mateGame flags first).reply s b') :
    b'.PassantFree flags first n := by
  obtain ⟨m, hm, rfl⟩ := hs
  obtain ⟨m', hm', rfl⟩ := hb'
  exact (h.2 m hm).2 m' hm'

/-- A side that has moved and has not stalemated has mated, or is to be answered. -/
theorem Board.StalemateFree.check_or_reply (h : b.StalemateFree flags first (n + 1)) {s : Board}
    (hs : (mateGame flags first).attack b s) :
    (mateGame flags first).check s ∨ ∃ b', (mateGame flags first).reply s b' := by
  obtain ⟨m, hm, rfl⟩ := hs
  by_contra hnot
  obtain ⟨hcheck, hno⟩ := not_or.mp hnot
  refine (h m hm).1 ⟨Bool.eq_false_iff.mpr hcheck, List.eq_nil_iff_forall_not_mem.mpr ?_⟩
  exact fun m' hm' => hno ⟨_, m', Board.mem_legalMoves.mp hm', rfl⟩

theorem Board.StalemateFree.after (h : b.StalemateFree flags first (n + 1)) {s b' : Board}
    (hs : (mateGame flags first).attack b s) (hb' : (mateGame flags first).reply s b') :
    b'.StalemateFree flags first n := by
  obtain ⟨m, hm, rfl⟩ := hs
  obtain ⟨m', hm', rfl⟩ := hb'
  exact (h m hm).2 m' hm'

theorem Board.LastChecksMate.after (h : b.LastChecksMate flags first (n + 2)) {s b' : Board}
    (hs : (mateGame flags first).attack b s) (hb' : (mateGame flags first).reply s b') :
    b'.LastChecksMate flags first (n + 1) := by
  obtain ⟨m, hm, rfl⟩ := hs
  obtain ⟨m', hm', rfl⟩ := hb'
  exact h m hm m' hm'

/-- A mated side has lost, however few moves are left. -/
theorem Board.Mated.loses (h : s.Mated flags (!first)) : (mateGame flags first).Loses n s := by
  refine Or.inl ⟨h.1, fun b' hb' => ?_⟩
  obtain ⟨m, hm, -⟩ := hb'
  rw [← Board.mem_legalMoves, h.2] at hm
  cases hm

/-- **A round of the solver's game that is won** is won in the game of the rules, if what
it leads to is. -/
theorem wins_of_round {Q : Board → Board → Prop} (hfree : b.PassantFree flags first (n + 1))
    (hQ : ∀ s b', (mateGame flags first).attack b s → (mateGame flags first).reply s b' →
      Q s b' → (mateGame flags first).Wins n b')
    (hnone : ∀ s, (breadthGame flags first).attack b s →
      (breadthGame flags first).check s ∨ ∃ b', (breadthGame flags first).reply s b')
    (hround : ∃ s, (breadthGame flags first).attack b s ∧
      ∀ b', (breadthGame flags first).reply s b' → Q s b') :
    (mateGame flags first).Wins (n + 1) b := by
  obtain ⟨s, hs, hall⟩ := hround
  have hs' := (hfree.attack_iff s).mp hs
  refine Game.wins_succ.mpr ⟨s, hs', (Game.loses_iff_forall ?_).mpr fun b' hb' => ?_⟩
  · refine (hnone s hs).imp_right fun hreply => ?_
    obtain ⟨b', hb'⟩ := hreply
    exact ⟨b', (hfree.reply_iff hs' b').mp hb'⟩
  · exact hQ s b' hs' hb' (hall b' ((hfree.reply_iff hs' b').mpr hb'))

/-- **A round that is won** is won in the solver's game, where the first side cannot
stalemate. -/
theorem round_of_wins {Q : Board → Board → Prop} (hfree : b.PassantFree flags first (n + 1))
    (hstale : b.StalemateFree flags first (n + 1))
    (hQ : ∀ s b', (mateGame flags first).attack b s → (mateGame flags first).reply s b' →
      (mateGame flags first).Wins n b' → Q s b')
    (hwins : (mateGame flags first).Wins (n + 1) b) :
    (∀ s, (breadthGame flags first).attack b s →
      (breadthGame flags first).check s ∨ ∃ b', (breadthGame flags first).reply s b') ∧
    ∃ s, (breadthGame flags first).attack b s ∧
      ∀ b', (breadthGame flags first).reply s b' → Q s b' := by
  obtain ⟨s, hs, hloses⟩ := Game.wins_succ.mp hwins
  refine ⟨fun s hs => ?_, s, (hfree.attack_iff s).mpr hs, fun b' hb' => ?_⟩
  · have hs' := (hfree.attack_iff s).mp hs
    refine (hstale.check_or_reply hs').imp_right fun hreply => ?_
    obtain ⟨b', hb'⟩ := hreply
    exact ⟨b', (hfree.reply_iff hs' b').mpr hb'⟩
  · have hb'' := (hfree.reply_iff hs b').mp hb'
    exact hQ s b' hs hb'' ((Game.loses_iff_forall (hstale.check_or_reply hs)).mp hloses b' hb'')

/-- **What the solver calls a win is one**, where last checks are mates. -/
theorem BreadthWins.wins (n : ℕ) : ∀ {b : Board}, b.PassantFree flags first (n + 1) →
    b.LastChecksMate flags first (n + 1) → BreadthWins flags first (n + 1) b →
    (mateGame flags first).Wins (n + 1) b := by
  induction n with
  | zero =>
    intro b hfree hlast hwins
    obtain ⟨hnone, s, hs, hall⟩ := hwins
    -- the solver has found a check, with or without a reply
    have hcheck : s.isChecked (!first) = true := by
      by_cases hreply : ∃ b', (breadthGame flags first).reply s b'
      · obtain ⟨b', hb'⟩ := hreply
        exact hall b' hb'
      · exact (hnone s hs).resolve_right hreply
    obtain ⟨m, hm, rfl⟩ := (hfree.attack_iff s).mp hs
    obtain ⟨m', hm', hmated⟩ := hlast ⟨m, hm, hcheck⟩
    exact Game.wins_succ.mpr ⟨_, ⟨m', hm', rfl⟩, hmated.loses⟩
  | succ n ih =>
    intro b hfree hlast hwins
    obtain ⟨hnone, hround⟩ := hwins
    refine wins_of_round hfree (fun s b' hs hb' hwins' => ?_) hnone hround
    rw [if_neg (Nat.succ_ne_zero n)] at hwins'
    exact ih (hfree.after hs hb') (hlast.after hs hb') hwins'

/-- **Every forced mate is found**, where the first side can never stalemate. -/
theorem BreadthWins.of_wins (n : ℕ) : ∀ {b : Board}, b.PassantFree flags first (n + 1) →
    b.StalemateFree flags first (n + 1) → (mateGame flags first).Wins (n + 1) b →
    BreadthWins flags first (n + 1) b := by
  induction n with
  | zero =>
    intro b hfree hstale hwins
    exact round_of_wins hfree hstale (fun s b' _ _ hno => hno.elim) hwins
  | succ n ih =>
    intro b hfree hstale hwins
    refine round_of_wins hfree hstale (fun s b' hs hb' hwins' => ?_) hwins
    rw [if_neg (Nat.succ_ne_zero n)]
    exact ih (hfree.after hs hb') (hstale.after hs hb') hwins'

/-- **When the verdict of the solver is right**: where play within `n` rounds is plain it is
`CHECKMATE` exactly if there is a forced mate.  A win needs no more than that last checks
are mates, and a mate no more than that there is no stalemate. -/
theorem evaluate_correct_when (hk : KingsOk b) (hlast : b.DoubleStepOk)
    (hsecond : b.isChecked (!first) = false) (h1 : 1 ≤ n) (tree : List (List TreeNode)) :
    (b.Plain flags first n →
      ((b.evaluate flags first (2 * n) tree).1 = CHECKMATE ↔ (mateGame flags first).Wins n b)) ∧
    (b.PassantFree flags first n → b.LastChecksMate flags first n →
      (b.evaluate flags first (2 * n) tree).1 = CHECKMATE → (mateGame flags first).Wins n b) ∧
    (b.PassantFree flags first n → b.StalemateFree flags first n →
      (mateGame flags first).Wins n b → (b.evaluate flags first (2 * n) tree).1 = CHECKMATE) := by
  have hvalue : (b.evaluate flags first (2 * n) tree).1 = CHECKMATE ↔ BreadthWins flags first n b :=
    evaluate_eq_checkmate_iff ⟨hk, hlast, hsecond⟩ h1 tree
  obtain ⟨n, rfl⟩ := Nat.exists_eq_add_one.mpr h1
  have hsound : b.PassantFree flags first (n + 1) → b.LastChecksMate flags first (n + 1) →
      BreadthWins flags first (n + 1) b → (mateGame flags first).Wins (n + 1) b :=
    fun hfree hmate => BreadthWins.wins n hfree hmate
  have hcomplete : b.PassantFree flags first (n + 1) → b.StalemateFree flags first (n + 1) →
      (mateGame flags first).Wins (n + 1) b → BreadthWins flags first (n + 1) b :=
    fun hfree hstale => BreadthWins.of_wins n hfree hstale
  rw [hvalue]
  exact ⟨fun hplain => ⟨hsound hplain.passantFree hplain.lastChecksMate,
    hcomplete hplain.passantFree hplain.stalemateFree⟩, hsound, hcomplete⟩

end Plain

/-- White to move mates in two with the only piece that can move, a pawn, while the black king
walks between its own pawns. -/
def Board.pawnStep : Board :=
  ofText "ka1\npb2\npd6\npf6\nph6\nKh8\nPa2\nPb3\nPf7\nPh7\n"

/-- The mate in two is found. -/
theorem evaluate_correct_pawn_step :
    (Board.pawnStep.evaluate Flags.default false 4 []).1 = CHECKMATE ∧
      (mateGame Flags.default false).Wins 2 Board.pawnStep := by
  have hloaded : Board.pawnStep.FileLoaded := Board.fileLoaded_ofText (by decide +kernel)
  have hsecond : Board.pawnStep.isChecked (!false) = false := by decide +kernel
  have hwins : (mateGame Flags.default false).Wins 2 Board.pawnStep := by
    rw [← Board.matesWithin_iff]
    decide +kernel
  have hplain : Board.pawnStep.Plain Flags.default false 2 :=
    ⟨by decide +kernel, by decide +kernel, by decide +kernel⟩
  have hcorrect := (evaluate_correct_when hloaded.kings.1 hloaded.kings.2.doubleStepOk hsecond
    (by decide : 1 ≤ 2) []).1 hplain
  exact ⟨hcorrect.mpr hwins, hwins⟩

/-- The pawn can only give check. -/
def Board.pawnCheck : Board := ofText "ka1\npg6\nKh8\n"

/-- The pawn mates, and the king stalemates. -/
def Board.mateOrStalemate : Board := ofText "kb6\npc7\nKa8\n"

/-- **The verdict can be wrong either way**: a check is called a mate, and a mate is not
found beside a stalemate. -/
theorem evaluate_not_correct :
    (KingsOk Board.pawnCheck ∧ Board.pawnCheck.DoubleStepOk ∧
      Board.pawnCheck.isChecked (!false) = false ∧
      (Board.pawnCheck.evaluate Flags.default false 2 []).1 = CHECKMATE ∧
      ¬ (mateGame Flags.default false).Wins 1 Board.pawnCheck) ∧
    (KingsOk Board.mateOrStalemate ∧ Board.mateOrStalemate.DoubleStepOk ∧
      Board.mateOrStalemate.isChecked (!false) = false ∧
      (Board.mateOrStalemate.evaluate Flags.default false 2 []).1 ≠ CHECKMATE ∧
      (mateGame Flags.default false).Wins 1 Board.mateOrStalemate) := by
  have hloaded : Board.pawnCheck.FileLoaded := Board.fileLoaded_ofText (by decide +kernel)
  have hloaded' : Board.mateOrStalemate.FileLoaded := Board.fileLoaded_ofText (by decide +kernel)
  refine ⟨⟨hloaded.kings.1, hloaded.kings.2.doubleStepOk, by decide +kernel, by decide +kernel, ?_⟩,
    hloaded'.kings.1, hloaded'.kings.2.doubleStepOk, by decide +kernel, by decide +kernel, ?_⟩
  · rw [← Board.matesWithin_iff]
    decide +kernel
  · rw [← Board.matesWithin_iff]
    decide +kernel

end Chess
