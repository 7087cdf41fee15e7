import ChessMate.BreadthVerdict
import ChessMate.Mirror

/-! # Colour symmetry of the breadth-first solver

A board and its mirror image, with the other side to move first, are worth the same at
every depth, as long as no capture en passant comes up (`evaluate_mirror`).  White's are
made as ordinary moves and leave the pawn, black's remove it, so with one of them the
solver treats the colours differently.

The boards that `expand` makes from the images are not the images of the boards that it
makes: they come in another order, and their last moves may be recorded in another way.
The values only depend on the boards up to likeness (`nodeScore_congr`).
-/
namespace Chess
open LayerFold

/-! ## Values of boards that match -/

section Values
variable {flags : Flags} {first first' : Bool}

/-- Boards with the same scores so far, from which matching boards are made. -/
structure Matching (flags : Flags) (first first' : Bool) (R : ℕ → ℕ → Board → Board → Prop) :
    Prop where
  score : ∀ {d l b b'}, R d l b b' → b.score = b'.score
  expand : ∀ {d l b b'}, R (d + 1) l b b' → b.expandScore first l = b'.expandScore first' l
  there : ∀ {d l b b'}, R (d + 1) l b b' → ∀ s ∈ b.nextBoards flags first l,
    ∃ s' ∈ b'.nextBoards flags first' l, R d (l + 1) s s'
  back : ∀ {d l b b'}, R (d + 1) l b b' → ∀ s' ∈ b'.nextBoards flags first' l,
    ∃ s ∈ b.nextBoards flags first l, R d (l + 1) s s'

/-- **Boards that match have the same value.** -/
theorem Matching.nodeScore_eq {R : ℕ → ℕ → Board → Board → Prop}
    (hR : Matching flags first first' R) (d : ℕ) : ∀ {l : ℕ} {b b' : Board}, R d l b b' →
    b.nodeScore flags first d l = b'.nodeScore flags first' d l := by
  induction d with
  | zero => exact fun h => hR.score h
  | succ d ih =>
    intro l b b' h
    have hthere : ∀ s ∈ b.nextBoards flags first l, ∃ s' ∈ b'.nextBoards flags first' l,
        settled l (s.nodeScore flags first d (l + 1)) =
          settled l (s'.nodeScore flags first' d (l + 1)) := by
      intro s hs
      obtain ⟨s', hs', hmatch⟩ := hR.there h s hs
      exact ⟨s', hs', by rw [ih hmatch]⟩
    have hback : ∀ s' ∈ b'.nextBoards flags first' l, ∃ s ∈ b.nextBoards flags first l,
        settled l (s.nodeScore flags first d (l + 1)) =
          settled l (s'.nodeScore flags first' d (l + 1)) := by
      intro s' hs'
      obtain ⟨s, hs, hmatch⟩ := hR.back h s' hs'
      exact ⟨s, hs, by rw [ih hmatch]⟩
    rw [Board.nodeScore, Board.nodeScore, hR.expand h]
    by_cases hl : l % 2 = 1
    · simp only [if_pos hl]
      exact foldl_max_congr hthere hback
    · simp only [if_neg hl]
      exact foldl_min_congr hthere hback

end Values

/-! ## The mirror image -/

section Image
variable {flags : Flags} {first : Bool} {b b' : Board} {c : Bool} {m : Move}

theorem Board.Alike.mirror (h : b.Alike b') : b.mirror.Alike b'.mirror where
  positions := by
    funext row col
    exact congrArg PieceType.mirror (congrFun (congrFun h.positions row.rev) col)
  kings c := by
    have hc := h.kings (!c)
    rw [← Bool.not_not c, Board.kingPosition_mirror, Board.kingPosition_mirror, hc]
  lastFrom := congrArg mirrorPos h.lastFrom
  lastTo := congrArg mirrorPos h.lastTo
  lastType := congrArg PieceType.mirror h.lastType

theorem Board.DoubleStepOk.mirror (h : b.DoubleStepOk) : b.mirror.DoubleStepOk := by
  intro c hfrom hstart hrow
  have hfrom' : b.lastMove.fromType = PieceType.pawnOf (!!c) := by
    rw [← PieceType.mirror_inj, PieceType.mirror_pawnOf, Bool.not_not]
    exact hfrom
  have hstart' : b.lastMove.fromPos.1 = pawnStart (!!c) := by
    have hsum : 7 - b.lastMove.fromPos.1 = pawnStart (!c) := hstart
    cases c <;> simp only [pawnStart, Bool.not_true, Bool.not_false, if_true, if_false,
      Bool.false_eq_true] at hsum ⊢ <;> omega
  have hrow' : b.lastMove.toPos.1 = enPassantRow (!c) := by
    have hsum : 7 - b.lastMove.toPos.1 = enPassantRow c := hrow
    cases c <;> simp only [enPassantRow, Bool.not_true, Bool.not_false, if_true, if_false,
      Bool.false_eq_true] at hsum ⊢ <;> omega
  obtain ⟨hcol, hpawn, hempty⟩ := h (!c) hfrom' hstart' hrow'
  have hskipped : (enPassantRow c + pawnDir c, b.lastMove.fromPos.2) =
      mirrorPos (enPassantRow (!c) + pawnDir (!c), b.lastMove.fromPos.2) := by
    cases c <;> rfl
  refine ⟨hcol, ?_, ?_⟩
  · show b.mirror.getPieceTypeAtPosition (mirrorPos b.lastMove.toPos) = _
    rw [Board.get_mirror, hpawn, PieceType.mirror_pawnOf, Bool.not_not]
  · show b.mirror.getPieceTypeAtPosition (enPassantRow c + pawnDir c, b.lastMove.fromPos.2) = _
    rw [hskipped, Board.get_mirror, hempty]
    rfl

theorem TreeBoard.mirror (h : TreeBoard b c) : TreeBoard b.mirror (!c) where
  kings := h.kings.mirror
  last := h.last.mirror
  notAttacked := (isChecked_mirror h.kings (!c)).trans h.notAttacked

theorem mover_not (first : Bool) (l : ℕ) : mover (!first) l = !mover first l := by
  unfold mover
  split_ifs <;> rfl

theorem Board.HasMove.mirror (h : b.HasMove flags c m) : b.mirror.HasMove flags (!c) m.mirror := by
  obtain ⟨p, hp, hm⟩ := h
  exact ⟨p.mirror, mirror_mem_piecesOf hp, mirror_mem_getMoves hp hm⟩

/-- **A safe move other than en passant has its image.** -/
theorem Board.SafeMove.mirror (h : TreeBoard b c) (hm : b.SafeMove flags c m)
    (hs : m.special ≠ .pawnEnPassant) :
    b.mirror.SafeMove flags (!c) m.mirror ∧
      b.mirror.makeMove m.mirror.asMade = (b.makeMove m.asMade).mirror := by
  have hmade : m.asMade = m := asMade_eq_self fun h => hs h.1
  have hmade' : m.mirror.asMade = m.mirror := asMade_eq_self fun h => hs h.1
  have hg := hm.1.generated h.last
  have hboard := Board.makeMove_mirror hg.pawnSpecial b
  have hkings := (h.makeMove hm).kings
  rw [hmade] at hkings
  refine ⟨⟨hm.1.mirror, ?_⟩, ?_⟩
  · rw [hmade', hboard, isChecked_mirror hkings, ← hmade]
    exact hm.2
  · rw [hmade', hmade, hboard]

/-! ## The tree of the image -/

/-- **No capture en passant comes up** on the boards that are expanded. -/
def Board.NoPassantWithin (flags : Flags) (first : Bool) (d l : ℕ) (b : Board) : Prop :=
  ∀ k < d, ∀ s ∈ layerBoards flags first l k [b], ∀ m,
    s.HasMove flags (mover first (l + k)) m → m.special ≠ .pawnEnPassant

theorem layerBoards_mono {l k : ℕ} {boards boards' : List Board} (h : boards ⊆ boards') :
    layerBoards flags first l k boards ⊆ layerBoards flags first l k boards' := by
  induction k generalizing l boards boards' with
  | zero => exact h
  | succ k ih =>
    refine ih fun s hs => ?_
    obtain ⟨b, hb, hs⟩ := List.mem_flatMap.mp hs
    exact List.mem_flatMap.mpr ⟨b, h hb, hs⟩

theorem Board.NoPassantWithin.next {d l : ℕ} (h : b.NoPassantWithin flags first (d + 1) l)
    {s : Board} (hs : s ∈ b.nextBoards flags first l) : s.NoPassantWithin flags first d (l + 1) := by
  intro k hk s' hs' m hm
  have hsub : [s] ⊆ [b].flatMap (Board.nextBoards flags first l) := by
    rw [List.flatMap_singleton]
    exact fun t ht => List.mem_singleton.mp ht ▸ hs
  refine h (k + 1) (Nat.succ_lt_succ hk) s' (layerBoards_mono hsub hs') m ?_
  rw [show l + (k + 1) = l + 1 + k by omega]
  exact hm

/-- The second board is an image of the first, a board of the tree. -/
structure Mirrored (flags : Flags) (first : Bool) (d l : ℕ) (b b' : Board) : Prop where
  board : TreeBoard b (mover first l)
  image : b'.Alike b.mirror
  noPassant : b.NoPassantWithin flags first d l
  score : b.score = b'.score

namespace Mirrored
variable {d l : ℕ} {s s' : Board}

theorem image_board (h : Mirrored flags first d l b b') : TreeBoard b' (mover (!first) l) := by
  rw [mover_not]
  exact h.board.mirror.alike h.image.symm

theorem isChecked_eq (h : Mirrored flags first d l b b') (c : Bool) :
    b'.isChecked (!c) = b.isChecked c :=
  (h.image.isChecked (!c)).trans (isChecked_mirror h.board.kings c)

theorem expandScore_eq (h : Mirrored flags first d l b b') :
    b.expandScore first l = b'.expandScore (!first) l := by
  unfold Board.expandScore
  rw [h.isChecked_eq (!first), h.isChecked_eq first]

/-- Of the boards that are made, those of a move and of its image match. -/
theorem of_move (h : Mirrored flags first (d + 1) l b b') (hs : s ∈ b.nextBoards flags first l)
    (hs' : s' ∈ b'.nextBoards flags (!first) l)
    (hmade : s.Alike (b.makeMove m.asMade)) (himage : s'.Alike (b.makeMove m.asMade).mirror) :
    Mirrored flags first d (l + 1) s s' where
  board := h.board.next hs
  image := himage.trans hmade.mirror.symm
  noPassant := h.noPassant.next hs
  score := by rw [score_of_mem_nextBoards hs, score_of_mem_nextBoards hs', h.expandScore_eq]

theorem special_ne (h : Mirrored flags first (d + 1) l b b')
    (hm : b.HasMove flags (mover first l) m) : m.special ≠ .pawnEnPassant :=
  h.noPassant 0 (Nat.succ_pos d) b List.mem_cons_self m hm

end Mirrored

/-- **The tree of an image consists of images.** -/
theorem matching_mirrored (flags : Flags) (first : Bool) :
    Matching flags first (!first) (Mirrored flags first) where
  score h := h.score
  expand h := h.expandScore_eq
  there := by
    intro d l b b' h s hs
    obtain ⟨m, hm, hmade⟩ := mem_nextBoards h.board hs
    obtain ⟨hm', hboard⟩ := Board.SafeMove.mirror h.board hm (h.special_ne hm.1)
    obtain ⟨hm'', halike⟩ := h.image.symm.safeMove h.board.mirror.last hm'
    rw [← mover_not] at hm''
    obtain ⟨s', hs', hsame⟩ := exists_mem_nextBoards h.image_board hm''
    exact ⟨s', hs', h.of_move hs hs' hmade (hboard ▸ hsame.trans halike.symm)⟩
  back := by
    intro d l b b' h s' hs'
    obtain ⟨m', hm', hsame⟩ := mem_nextBoards h.image_board hs'
    obtain ⟨hm'', halike⟩ := h.image.safeMove h.image_board.last hm'
    rw [mover_not] at hm''
    -- the image of the image's move is a move on the board itself
    have hback := hm''.1.mirror
    rw [Board.mirror_mirror, Bool.not_not] at hback
    have hspecial : m'.mirror.special ≠ .pawnEnPassant := h.special_ne hback
    obtain ⟨hm, hboard⟩ := Board.SafeMove.mirror h.board.mirror hm'' hspecial
    rw [Board.mirror_mirror, Bool.not_not] at hm
    rw [Board.mirror_mirror] at hboard
    obtain ⟨s, hs, hmade⟩ := exists_mem_nextBoards h.board hm
    refine ⟨s, hs, h.of_move hs hs' hmade ?_⟩
    rw [hboard, Board.mirror_mirror]
    exact hsame.trans halike

end Image

/-- **Colour symmetry of the breadth-first solver**: a board and its mirror image with the
other side to move first get the same score at every depth, if no capture en passant comes
up. -/
theorem evaluate_mirror (flags : Flags) {first : Bool} {b : Board} (hk : KingsOk b)
    (hlast : b.DoubleStepOk) {d : ℕ} (hquiet : b.NoPassantWithin flags first d 1)
    (tree tree' : List (List TreeNode)) :
    (b.evaluate flags first d tree).1 = (b.mirror.evaluate flags (!first) d tree').1 := by
  have hcheck : b.mirror.isChecked (!!first) = b.isChecked (!first) := isChecked_mirror hk (!first)
  by_cases hsecond : b.isChecked (!first) = false
  · rw [evaluate_eq hsecond, evaluate_eq (hcheck.trans hsecond)]
    refine (matching_mirrored flags first).nodeScore_eq d ?_
    exact ⟨⟨hk, hlast, hsecond⟩, .refl _, hquiet, rfl⟩
  · rw [Bool.not_eq_false] at hsecond
    rw [Board.evaluate, Board.evaluate, hcheck, hsecond]
    rfl

/-- The mate on the back rank, for white and for black. -/
theorem evaluate_mirror_back_rank :
    (Board.backRank.evaluate Flags.default false 2 []).1 = CHECKMATE ∧
      (Board.backRank.mirror.evaluate Flags.default (!false) 2 []).1 = CHECKMATE := by
  have hkings := Board.backRank_fileLoaded.kings
  have hlayers : ∀ k < 2, ∀ s ∈ layerBoards Flags.default false 1 k [Board.backRank],
      ∀ p ∈ s.piecesOf (mover false (1 + k)), ∀ m ∈ p.getMoves Flags.default s,
        m.special ≠ .pawnEnPassant := by decide +kernel
  have hwin : (Board.backRank.evaluate Flags.default false 2 []).1 = CHECKMATE := by decide +kernel
  have hquiet : Board.backRank.NoPassantWithin Flags.default false 2 1 := by
    rintro k hk s hs m ⟨p, hp, hm⟩
    exact hlayers k hk s hs p hp m hm
  have hsame := evaluate_mirror Flags.default hkings.1 hkings.2.doubleStepOk hquiet [] []
  exact ⟨hwin, hsame.symm.trans hwin⟩

end Chess
