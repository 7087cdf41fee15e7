import ChessMate.BoardInvariant
import ChessMate.PathPrinter

/-! # The format of board files

A file lists pieces, one a line: a letter for the type, in lower case for white and
in upper case for black, and the column and the row of the square.  `Piece.line` is
that line.  The loader reads a line back to the piece it is of
(`loadLine_eq`), although it computes the square by a subtraction that is narrowed to
8 bits, and then adds the piece to a board that it has checked for the square and for
a king of that colour (`Board.place`).

`Holds ps b` says what a board holds after the pieces `ps` were added, and says it
without their order.  A run of the loader succeeds exactly if the pieces are on
different squares with at most one king of each colour, and then the board holds them
(`foldlM_place`).  `load_exactly_format` is the format as a whole, and
`load_printed` that printing the pieces of a board and loading them gives the board.
-/
namespace Chess

/-! ## Lines -/

/-- The letter that stands for a type. -/
def PieceType.letter : PieceType → Char
  | empty => 'x'
  | wPawn => 'p'
  | wRook => 'r'
  | wKnight => 'n'
  | wKing => 'k'
  | wQueen => 'q'
  | wBishop => 'b'
  | bPawn => 'P'
  | bRook => 'R'
  | bKnight => 'N'
  | bKing => 'K'
  | bQueen => 'Q'
  | bBishop => 'B'

/-- The line of a piece. -/
def Piece.line (p : Piece) : List UInt8 :=
  [UInt8.ofNat p.type.letter.toNat, UInt8.ofNat ('a'.toNat + p.col.toNat),
    UInt8.ofNat ('1'.toNat + p.row.toNat)]

/-- There is such a piece on some board. -/
structure Piece.Proper (p : Piece) : Prop where
  type_ne : p.type ≠ .empty
  valid : isValidPosition p.position = true

/-- The line is empty or a comment. -/
def isSkipped (line : List UInt8) : Bool :=
  line = [] || line.head?.map UInt8.toNat = some '#'.toNat

/-- The lines that the loader does not skip. -/
def entries (lines : List (List UInt8)) : List (List UInt8) :=
  lines.filter fun line => !isSkipped line

/-- The tests of a line that do not look at the board. -/
def parseLine : List UInt8 → Option Piece
  | [c0, c1, c2] => (pieceTypeOfNotation c0).bind fun type =>
      if isValidPosition (offsetFrom '1' c2, offsetFrom 'a' c1) then
        some ⟨type, (offsetFrom '1' c2, offsetFrom 'a' c1)⟩
      else none
  | _ => none

/-- The tests of a piece that look at the board, and `add`. -/
def Board.place (board : Board) (p : Piece) : Option Board :=
  if !board.isEmpty p.position then none
  else if p.type = .bKing && board.blackKing ≠ (-1, -1) then none
  else if p.type = .wKing && board.whiteKing ≠ (-1, -1) then none
  else some (board.add p.type p.position)

/-- **One turn of the loader's loop** skips the line, or reads a piece and places it. -/
theorem loadLine_eq (b : Board) (line : List UInt8) :
    b.loadLine line = if isSkipped line then some b else (parseLine line).bind b.place := by
  unfold Board.loadLine isSkipped
  by_cases hskip : (line = [] || line.head?.map UInt8.toNat = some '#'.toNat) = true
  · rw [if_pos hskip, if_pos hskip]
  rw [if_neg hskip, if_neg hskip]
  rcases line with _ | ⟨c0, _ | ⟨c1, _ | ⟨c2, _ | ⟨c3, rest⟩⟩⟩⟩
  · rfl
  · rfl
  · rfl
  · dsimp only [parseLine]
    generalize (offsetFrom '1' c2, offsetFrom 'a' c1) = pos
    cases pieceTypeOfNotation c0 with
    | none => rfl
    | some type => cases hv : isValidPosition pos <;> rfl
  · rfl

/-- Both tables give a type its letter. -/
theorem pieceTypeOfNotation_iff {c : UInt8} {type : PieceType} :
    pieceTypeOfNotation c = some type ↔
      type ≠ .empty ∧ c = UInt8.ofNat type.letter.toNat := by
  have htable : ∀ entry ∈ kNotationToPieceType, entry.2 ≠ .empty ∧ entry.1 = entry.2.letter := by
    decide
  constructor
  · intro h
    obtain ⟨entry, hfind, rfl⟩ := Option.map_eq_some_iff.mp h
    obtain ⟨hne, hletter⟩ := htable entry (List.mem_of_find?_eq_some hfind)
    have hbyte : entry.1.toNat = c.toNat := of_decide_eq_true (List.find?_some hfind :)
    refine ⟨hne, ?_⟩
    rw [← hletter, hbyte]
    exact (UInt8.ofNat_toNat (x := c)).symm
  · rintro ⟨hne, rfl⟩
    cases type <;> first | exact absurd rfl hne | decide

/-- The narrowed difference is a row or a column exactly for its own byte. -/
theorem offsetFrom_eq_iff {base : Char} (hbase : base.toNat ≤ 120) {c : UInt8} {k : Int}
    (h0 : 0 ≤ k) (h8 : k < 8) :
    offsetFrom base c = k ↔ c = UInt8.ofNat (base.toNat + k.toNat) := by
  have hc : c.toNat < 256 := c.toNat_lt
  have hbyte : c = UInt8.ofNat (base.toNat + k.toNat) ↔ c.toNat = base.toNat + k.toNat := by
    rw [← UInt8.toNat_inj, UInt8.toNat_ofNat', Nat.mod_eq_of_lt (by omega)]
  rw [hbyte]
  unfold offsetFrom Int.bmod
  dsimp only
  split_ifs <;> omega

/-- **A line is read back to the piece it is of**, and only such lines are read. -/
theorem parseLine_eq_some_iff {line : List UInt8} {p : Piece} :
    parseLine line = some p ↔ p.Proper ∧ line = p.line := by
  obtain ⟨type, row, col⟩ := p
  have hoffsets : ∀ {c1 c2 : UInt8}, isValidPosition (row, col) = true →
      ((offsetFrom '1' c2, offsetFrom 'a' c1) = (row, col) ↔
        c1 = UInt8.ofNat ('a'.toNat + col.toNat) ∧ c2 = UInt8.ofNat ('1'.toNat + row.toNat)) := by
    intro c1 c2 hv
    obtain ⟨⟨h1, h2⟩, h3, h4⟩ := isValidPosition_iff.mp hv
    rw [Prod.mk.injEq, offsetFrom_eq_iff (by decide) h1 h2, offsetFrom_eq_iff (by decide) h3 h4]
    exact and_comm
  constructor
  · intro h
    rcases line with _ | ⟨c0, _ | ⟨c1, _ | ⟨c2, _ | ⟨c3, rest⟩⟩⟩⟩
    · cases h
    · cases h
    · cases h
    · obtain ⟨type', htype, h⟩ := Option.bind_eq_some_iff.mp h
      split_ifs at h with hv
      obtain ⟨rfl, hpos⟩ := Piece.mk.inj (Option.some.inj h)
      rw [hpos] at hv
      obtain ⟨hne, rfl⟩ := pieceTypeOfNotation_iff.mp htype
      obtain ⟨rfl, rfl⟩ := (hoffsets hv).mp hpos
      exact ⟨⟨hne, hv⟩, rfl⟩
    · cases h
  · rintro ⟨⟨hne, hv⟩, rfl⟩
    have hpos := (hoffsets hv).mpr ⟨rfl, rfl⟩
    refine Option.bind_eq_some_iff.mpr ⟨type, pieceTypeOfNotation_iff.mpr ⟨hne, rfl⟩, ?_⟩
    rw [hpos, if_pos hv]

/-- Different pieces have different lines. -/
theorem Piece.Proper.line_injective {p q : Piece} (hp : p.Proper) (hq : q.Proper)
    (h : p.line = q.line) : p = q := by
  have hp' := parseLine_eq_some_iff.mpr ⟨hp, rfl⟩
  have hq' := parseLine_eq_some_iff.mpr ⟨hq, h⟩
  exact Option.some.inj (hp'.symm.trans hq')

/-! ## Pieces -/

/-- The pieces are on different squares, with at most one king of each colour. -/
structure Placeable (ps : List Piece) : Prop where
  squares : (ps.map Piece.position).Nodup
  kings : ∀ c, ∀ p ∈ ps, ∀ q ∈ ps, p.type = PieceType.kingOf c → q.type = PieceType.kingOf c → p = q

/-- **The board holds just these pieces**, in whatever order they were added. -/
structure Holds (ps : List Piece) (b : Board) : Prop where
  pieces : ∀ p : Piece, p.type ≠ .empty → (b.getPieceTypeAtPosition p.position = p.type ↔ p ∈ ps)
  kings : ∀ c, b.kingPosition c = (-1, -1) ∧ (∀ p ∈ ps, p.type ≠ PieceType.kingOf c) ∨
    (⟨PieceType.kingOf c, b.kingPosition c⟩ : Piece) ∈ ps
  score_eq : b.score = 0
  lastMove_eq : b.lastMove = Move.none

theorem Holds.nil : Holds [] Board.cleared where
  pieces p hp := by
    have hempty : Board.cleared.getPieceTypeAtPosition p.position = .empty := by
      simp [Board.getPieceTypeAtPosition, Board.cleared]
    rw [hempty]
    exact iff_of_false hp.symm (List.not_mem_nil)
  kings c := Or.inl ⟨by cases c <;> rfl, fun p hp => by cases hp⟩
  score_eq := rfl
  lastMove_eq := rfl

section Placing
variable {ps qs : List Piece} {p : Piece} {b b' : Board}

theorem Holds.isEmpty_iff (h : Holds ps b) (hps : ∀ p ∈ ps, p.Proper) (pos : Position) :
    b.isEmpty pos = true ↔ pos ∉ ps.map Piece.position := by
  rw [Board.isEmpty_iff, List.mem_map]
  constructor
  · rintro hempty ⟨p, hp, rfl⟩
    have htype := (h.pieces p (hps p hp).type_ne).mpr hp
    exact (hps p hp).type_ne (htype.symm.trans hempty)
  · intro hno
    by_contra hne
    exact hno ⟨⟨_, pos⟩, (h.pieces ⟨_, pos⟩ hne).mp rfl, rfl⟩

/-- A king's square is recorded exactly when the king was added. -/
theorem Holds.kingPosition_iff (h : Holds ps b) (hps : ∀ p ∈ ps, p.Proper) (c : Bool) :
    b.kingPosition c = (-1, -1) ↔ PieceType.kingOf c ∉ ps.map Piece.type := by
  rw [List.mem_map]
  rcases h.kings c with ⟨hnone, hno⟩ | hmem
  · refine iff_of_true hnone ?_
    rintro ⟨p, hp, htype⟩
    exact hno p hp htype
  · refine iff_of_false (fun hnone => ?_) fun hno => hno ⟨_, hmem, rfl⟩
    have hv := (hps _ hmem).valid
    dsimp only at hv
    rw [hnone] at hv
    cases hv

theorem Holds.congr (h : Holds ps b) (hmem : ∀ p, p ∈ ps ↔ p ∈ qs) : Holds qs b where
  pieces p hp := (h.pieces p hp).trans (hmem p)
  kings c := by
    rcases h.kings c with ⟨hnone, hno⟩ | hin
    · exact Or.inl ⟨hnone, fun p hp => hno p ((hmem p).mpr hp)⟩
    · exact Or.inr ((hmem _).mp hin)
  score_eq := h.score_eq
  lastMove_eq := h.lastMove_eq

/-- A board is determined by the pieces that it holds. -/
theorem Holds.unique (h : Holds ps b) (h' : Holds ps b') (hkings : Placeable ps) : b = b' := by
  have hget : ∀ sq, b.getPieceTypeAtPosition sq = b'.getPieceTypeAtPosition sq := by
    intro sq
    by_cases hb : b.getPieceTypeAtPosition sq = .empty
    · by_contra hne
      have hb' : b'.getPieceTypeAtPosition sq ≠ .empty := fun h0 => hne (hb.trans h0.symm)
      have hin := (h'.pieces ⟨_, sq⟩ hb').mp rfl
      have hq : b.getPieceTypeAtPosition sq = b'.getPieceTypeAtPosition sq :=
        (h.pieces ⟨_, sq⟩ hb').mpr hin
      exact hne hq
    · have hin := (h.pieces ⟨_, sq⟩ hb).mp rfl
      exact ((h'.pieces ⟨_, sq⟩ hb).mpr hin).symm
  have hking : ∀ c, b.kingPosition c = b'.kingPosition c := by
    intro c
    rcases h.kings c with ⟨hnone, hno⟩ | hin
    · rcases h'.kings c with ⟨hnone', -⟩ | hin'
      · rw [hnone, hnone']
      · exact absurd rfl (hno _ hin')
    · rcases h'.kings c with ⟨-, hno'⟩ | hin'
      · exact absurd rfl (hno' _ hin)
      · exact congrArg Piece.position (hkings.kings c _ hin _ hin' rfl rfl)
  exact Board.ext_get hget hking (h.score_eq.trans h'.score_eq.symm)
    (h.lastMove_eq.trans h'.lastMove_eq.symm)

/-- The tests that look at the board, in terms of the pieces on it. -/
theorem Holds.place_eq_some_iff (h : Holds ps b) (hps : ∀ p ∈ ps, p.Proper) :
    b.place p = some b' ↔
      (p.position ∉ ps.map Piece.position ∧
        ∀ c, p.type = PieceType.kingOf c → PieceType.kingOf c ∉ ps.map Piece.type) ∧
      b' = b.add p.type p.position := by
  have hking : ∀ c, (p.type = PieceType.kingOf c → PieceType.kingOf c ∉ ps.map Piece.type) ↔
      (p.type = PieceType.kingOf c → b.kingPosition c = (-1, -1)) := by
    intro c
    rw [h.kingPosition_iff hps c]
  simp only [hking, ← h.isEmpty_iff hps, Bool.forall_bool]
  unfold Board.place
  cases hempty : b.isEmpty p.position with
  | false => simp
  | true =>
    have hblack : b.kingPosition true = b.blackKing := rfl
    have hwhite : b.kingPosition false = b.whiteKing := rfl
    have hkb : PieceType.kingOf true = .bKing := rfl
    have hkw : PieceType.kingOf false = .wKing := rfl
    simp only [hblack, hwhite, hkb, hkw, Bool.not_true, Bool.false_eq_true, if_false, true_and,
      Bool.and_eq_true, decide_eq_true_eq]
    split_ifs with h1 h2
    · exact iff_of_false (by simp) fun hall => h1.2 (hall.1.2 h1.1)
    · exact iff_of_false (by simp) fun hall => h2.2 (hall.1.1 h2.1)
    · rw [Option.some.injEq]
      constructor
      · intro he
        exact ⟨⟨fun ht => not_not.mp fun hne => h2 ⟨ht, hne⟩,
          fun ht => not_not.mp fun hne => h1 ⟨ht, hne⟩⟩, he.symm⟩
      · exact fun hall => hall.2.symm

/-- **Placing a piece.** -/
theorem Holds.add (h : Holds ps b) (hp : p.Proper)
    (hnew : p.position ∉ ps.map Piece.position)
    (hkings : ∀ c, p.type = PieceType.kingOf c → PieceType.kingOf c ∉ ps.map Piece.type) :
    Holds (ps ++ [p]) (b.add p.type p.position) where
  pieces q hq := by
    rw [Board.add, Board.getPieceTypeAtPosition_set _ _ hp.valid, List.mem_append,
      List.mem_singleton]
    by_cases hpos : q.position = p.position
    · rw [if_pos hpos]
      have hno : q ∉ ps := fun hq' => hnew (hpos ▸ List.mem_map_of_mem hq')
      rw [or_iff_right hno]
      constructor
      · intro ht
        obtain ⟨type, pos⟩ := q
        obtain ⟨type', pos'⟩ := p
        cases ht
        cases hpos
        rfl
      · rintro rfl
        rfl
    · rw [if_neg hpos, h.pieces q hq]
      refine (or_iff_left ?_).symm
      rintro rfl
      exact hpos rfl
  kings c := by
    rw [Board.add, Board.set_kingPosition]
    by_cases ht : p.type = PieceType.kingOf c
    · rw [if_pos ht]
      refine Or.inr (List.mem_append_right _ (List.mem_singleton.mpr ?_))
      rw [← ht]
    · rw [if_neg ht]
      rcases h.kings c with ⟨hnone, hno⟩ | hin
      · refine Or.inl ⟨hnone, fun q hq => ?_⟩
        rcases List.mem_append.mp hq with hq | hq
        · exact hno q hq
        · rw [List.mem_singleton.mp hq]
          exact ht
      · exact Or.inr (List.mem_append_left _ hin)
  score_eq := (Board.set_score _ _ _).trans h.score_eq
  lastMove_eq := (Board.set_lastMove _ _ _).trans h.lastMove_eq

theorem placeable_append_singleton :
    Placeable (ps ++ [p]) ↔ Placeable ps ∧ p.position ∉ ps.map Piece.position ∧
      ∀ c, p.type = PieceType.kingOf c → PieceType.kingOf c ∉ ps.map Piece.type := by
  constructor
  · intro h
    have hnodup := h.squares
    rw [List.map_append, List.map_singleton, List.nodup_append'] at hnodup
    have hnew : p.position ∉ ps.map Piece.position := fun hin =>
      hnodup.2.2 hin (List.mem_singleton_self _)
    refine ⟨⟨hnodup.1, fun c q hq q' hq' => ?_⟩, hnew, fun c ht hin => ?_⟩
    · exact h.kings c q (List.mem_append_left _ hq) q' (List.mem_append_left _ hq')
    · obtain ⟨q, hq, hqt⟩ := List.mem_map.mp hin
      have heq := h.kings c q (List.mem_append_left _ hq) p
        (List.mem_append_right _ (List.mem_singleton_self p)) hqt ht
      exact hnew (heq ▸ List.mem_map_of_mem hq)
  · rintro ⟨h, hnew, hkings⟩
    refine ⟨?_, fun c q hq q' hq' ht ht' => ?_⟩
    · rw [List.map_append, List.map_singleton, List.nodup_append']
      refine ⟨h.squares, List.nodup_singleton _, fun pos hpos hpos' => ?_⟩
      rw [List.mem_singleton.mp hpos'] at hpos
      exact hnew hpos
    · rcases List.mem_append.mp hq with hq | hq <;> rcases List.mem_append.mp hq' with hq' | hq'
      · exact h.kings c q hq q' hq' ht ht'
      · rw [List.mem_singleton.mp hq'] at ht'
        exact absurd (ht ▸ List.mem_map_of_mem hq) (hkings c ht')
      · rw [List.mem_singleton.mp hq] at ht
        exact absurd (ht' ▸ List.mem_map_of_mem hq') (hkings c ht)
      · rw [List.mem_singleton.mp hq, List.mem_singleton.mp hq']

/-- **A run of the loader over pieces** succeeds exactly if they can be placed, and then
the board holds them. -/
theorem foldlM_place (hb : Holds qs b) (hqs : ∀ p ∈ qs, p.Proper) (hplace : Placeable qs)
    (hps : ∀ p ∈ ps, p.Proper) :
    (Placeable (qs ++ ps) → ∃ b', ps.foldlM Board.place b = some b') ∧
      ∀ b', ps.foldlM Board.place b = some b' → Placeable (qs ++ ps) ∧ Holds (qs ++ ps) b' := by
  induction ps generalizing qs b with
  | nil =>
    rw [List.append_nil]
    refine ⟨fun _ => ⟨b, rfl⟩, fun b' h => ?_⟩
    cases h
    exact ⟨hplace, hb⟩
  | cons p ps ih =>
    obtain ⟨hp, hps⟩ := List.forall_mem_cons.mp hps
    have hqs' : ∀ q ∈ qs ++ [p], q.Proper := by
      intro q hq
      rcases List.mem_append.mp hq with hq | hq
      · exact hqs q hq
      · rw [List.mem_singleton.mp hq]
        exact hp
    rw [List.append_cons, List.foldlM_cons]
    by_cases hnew : Placeable (qs ++ [p])
    · obtain ⟨-, htests⟩ := placeable_append_singleton.mp hnew
      rw [(hb.place_eq_some_iff hqs).mpr ⟨htests, rfl⟩]
      exact ih (hb.add hp htests.1 htests.2) hqs' hnew hps
    · have hno : ∀ b', b.place p ≠ some b' := by
        intro b' hb'
        exact hnew (placeable_append_singleton.mpr ⟨hplace, ((hb.place_eq_some_iff hqs).mp hb').1⟩)
      refine ⟨fun hall => absurd ?_ hnew, fun b' hb' => ?_⟩
      · refine ⟨?_, fun c q hq q' hq' => ?_⟩
        · have hnodup := hall.squares
          rw [List.map_append, List.nodup_append'] at hnodup
          exact hnodup.1
        · exact hall.kings c q (List.mem_append_left _ hq) q' (List.mem_append_left _ hq')
      · obtain ⟨b₁, hb₁, -⟩ := Option.bind_eq_some_iff.mp hb'
        exact absurd hb₁ (hno b₁)

end Placing

/-! ## Files -/

/-- The loop over the lines is the loop over the entries. -/
theorem foldlM_loadLine_entries (lines : List (List UInt8)) (b : Board) :
    lines.foldlM Board.loadLine b =
      (entries lines).foldlM (fun b line => (parseLine line).bind b.place) b := by
  induction lines generalizing b with
  | nil => rfl
  | cons line lines ih =>
    rw [List.foldlM_cons, loadLine_eq, entries, List.filter_cons]
    cases isSkipped line with
    | true => exact ih b
    | false =>
      simp only [Bool.not_false, if_true, Bool.false_eq_true, if_false, List.foldlM_cons]
      exact congrArg _ (funext ih)

/-- The tests of the lines can all be made before those of the board: where one of them
fails, the load fails. -/
theorem foldlM_parse_place (ls : List (List UInt8)) (b : Board) :
    ls.foldlM (fun b line => (parseLine line).bind b.place) b =
      (ls.mapM parseLine).bind fun ps => ps.foldlM Board.place b := by
  induction ls generalizing b with
  | nil => rfl
  | cons line ls ih =>
    rw [List.foldlM_cons, List.mapM_cons]
    cases parseLine line with
    | none => rfl
    | some p =>
      simp only [Option.bind_some, Option.bind_eq_bind, ih]
      cases ls.mapM parseLine with
      | none => cases b.place p <;> rfl
      | some ps => rfl

theorem mapM_parseLine_iff {ls : List (List UInt8)} {ps : List Piece} :
    ls.mapM parseLine = some ps ↔ (∀ p ∈ ps, p.Proper) ∧ ls = ps.map Piece.line := by
  induction ls generalizing ps with
  | nil =>
    rw [List.mapM_nil]
    constructor
    · intro h
      cases h
      exact ⟨fun _ hp => absurd hp List.not_mem_nil, rfl⟩
    · intro h
      rw [List.map_eq_nil_iff.mp h.2.symm]
      rfl
  | cons line ls ih =>
    rw [List.mapM_cons, Option.bind_eq_bind, Option.bind_eq_some_iff]
    constructor
    · rintro ⟨p, hp, h⟩
      obtain ⟨ps', hps', h⟩ := Option.bind_eq_some_iff.mp h
      cases h
      obtain ⟨hproper, rfl⟩ := ih.mp hps'
      obtain ⟨hpp, rfl⟩ := parseLine_eq_some_iff.mp hp
      exact ⟨List.forall_mem_cons.mpr ⟨hpp, hproper⟩, rfl⟩
    · rintro ⟨hproper, h⟩
      cases ps with
      | nil => cases h
      | cons p ps =>
        obtain ⟨rfl, rfl⟩ := List.cons.inj h
        obtain ⟨hpp, hproper⟩ := List.forall_mem_cons.mp hproper
        refine ⟨p, parseLine_eq_some_iff.mpr ⟨hpp, rfl⟩, ?_⟩
        rw [ih.mpr ⟨hproper, rfl⟩]
        rfl

/-- The pieces that the lines list, where the loader accepts them. -/
structure Lists (lines : List (List UInt8)) (ps : List Piece) : Prop where
  entries_eq : entries lines = ps.map Piece.line
  proper : ∀ p ∈ ps, p.Proper
  placeable : Placeable ps
  king : ∀ c, PieceType.kingOf c ∈ ps.map Piece.type

theorem placed_from_cleared {ps : List Piece} (hps : ∀ p ∈ ps, p.Proper) :
    (Placeable ps → ∃ b, ps.foldlM Board.place Board.cleared = some b) ∧
      ∀ b, ps.foldlM Board.place Board.cleared = some b → Placeable ps ∧ Holds ps b := by
  have hnone : Placeable [] := ⟨List.nodup_nil, fun _ _ hp => absurd hp List.not_mem_nil⟩
  exact foldlM_place Holds.nil (fun _ hp => absurd hp List.not_mem_nil) hnone hps

/-- There is a board with the listed pieces. -/
theorem Lists.exists_holds {lines : List (List UInt8)} {ps : List Piece} (h : Lists lines ps) :
    ∃ b, Holds ps b := by
  obtain ⟨b, hb⟩ := (placed_from_cleared h.proper).1 h.placeable
  exact ⟨b, ((placed_from_cleared h.proper).2 b hb).2⟩

/-- **A run of the loader over a file.** -/
theorem load_eq_some_iff {file : List UInt8} {b : Board} :
    Board.load file = some b ↔ ∃ ps, Lists (getlines file []) ps ∧ Holds ps b := by
  have hrun : (getlines file []).foldlM Board.loadLine Board.cleared =
      ((entries (getlines file [])).mapM parseLine).bind fun ps =>
        ps.foldlM Board.place Board.cleared := by
    rw [foldlM_loadLine_entries, foldlM_parse_place]
  have hkings : ∀ {ps : List Piece} {b' : Board}, Holds ps b' → (∀ p ∈ ps, p.Proper) →
      ((b'.blackKing ≠ (-1, -1) && b'.whiteKing ≠ (-1, -1)) = true ↔
        ∀ c, PieceType.kingOf c ∈ ps.map Piece.type) := by
    intro ps b' h hps
    have hblack := h.kingPosition_iff hps true
    have hwhite := h.kingPosition_iff hps false
    rw [Bool.and_eq_true, decide_eq_true_eq, decide_eq_true_eq, Bool.forall_bool, and_comm]
    exact and_congr (not_iff_comm.mp hwhite.symm) (not_iff_comm.mp hblack.symm)
  unfold Board.load
  rw [hrun]
  constructor
  · intro h
    split at h
    case h_1 => cases h
    case h_2 b' hb' =>
      obtain ⟨ps, hparse, hfold⟩ := Option.bind_eq_some_iff.mp hb'
      obtain ⟨hproper, hentries⟩ := mapM_parseLine_iff.mp hparse
      obtain ⟨hplace, hholds⟩ := (placed_from_cleared hproper).2 b' hfold
      split_ifs at h with hk
      cases h
      exact ⟨ps, ⟨hentries, hproper, hplace, (hkings hholds hproper).mp hk⟩, hholds⟩
  · rintro ⟨ps, hlists, hholds⟩
    obtain ⟨b', hfold⟩ := (placed_from_cleared hlists.proper).1 hlists.placeable
    have hholds' := ((placed_from_cleared hlists.proper).2 b' hfold).2
    rw [mapM_parseLine_iff.mpr ⟨hlists.proper, hlists.entries_eq⟩, Option.bind_some, hfold]
    rw [hholds'.unique hholds hlists.placeable]
    exact if_pos ((hkings hholds hlists.proper).mpr hlists.king)

/-! ## The format -/

/-- A letter of a piece, a column and a row. -/
def IsPieceLine (line : List UInt8) : Prop :=
  ∃ c0 ∈ Board.bytesOf "prnkqbPRNKQB", ∃ c1 ∈ Board.bytesOf "abcdefgh",
    ∃ c2 ∈ Board.bytesOf "12345678", line = [c0, c1, c2]

/-- The line starts with the letter. -/
def startsWith (letter : Char) (line : List UInt8) : Bool :=
  line.head? = some (UInt8.ofNat letter.toNat)

/-- **The format of a file**, by its lines. -/
structure WellFormed (lines : List (List UInt8)) : Prop where
  pieceLines : ∀ line ∈ entries lines, IsPieceLine line
  squares : (entries lines).Pairwise fun line line' => line.tail ≠ line'.tail
  whiteKing : (entries lines).countP (startsWith 'k') = 1
  blackKing : (entries lines).countP (startsWith 'K') = 1

theorem mem_letters_iff {c : UInt8} :
    c ∈ Board.bytesOf "prnkqbPRNKQB" ↔
      ∃ type : PieceType, type ≠ .empty ∧ c = UInt8.ofNat type.letter.toNat := by
  constructor
  · have htypes : ∀ c ∈ Board.bytesOf "prnkqbPRNKQB",
        ∃ type ∈ kNotationToPieceType.map Prod.snd,
          type ≠ .empty ∧ c = UInt8.ofNat type.letter.toNat := by
      decide +kernel
    intro hc
    obtain ⟨type, -, h⟩ := htypes c hc
    exact ⟨type, h⟩
  · rintro ⟨type, hne, rfl⟩
    cases type <;> first | exact absurd rfl hne | decide +kernel

theorem mem_columns_iff {c : UInt8} :
    c ∈ Board.bytesOf "abcdefgh" ↔ ∃ k < 8, c = UInt8.ofNat ('a'.toNat + k) := by
  have hbytes : Board.bytesOf "abcdefgh" =
      (List.range 8).map fun k => UInt8.ofNat ('a'.toNat + k) := by
    decide +kernel
  simp only [hbytes, List.mem_map, List.mem_range, eq_comm]

theorem mem_rows_iff {c : UInt8} :
    c ∈ Board.bytesOf "12345678" ↔ ∃ k < 8, c = UInt8.ofNat ('1'.toNat + k) := by
  have hbytes : Board.bytesOf "12345678" =
      (List.range 8).map fun k => UInt8.ofNat ('1'.toNat + k) := by
    decide +kernel
  simp only [hbytes, List.mem_map, List.mem_range, eq_comm]

/-- The lines of the format are the lines of pieces. -/
theorem isPieceLine_iff {line : List UInt8} :
    IsPieceLine line ↔ ∃ p : Piece, p.Proper ∧ line = p.line := by
  constructor
  · rintro ⟨c0, h0, c1, h1, c2, h2, rfl⟩
    obtain ⟨type, hne, rfl⟩ := mem_letters_iff.mp h0
    obtain ⟨col, hcol, rfl⟩ := mem_columns_iff.mp h1
    obtain ⟨row, hrow, rfl⟩ := mem_rows_iff.mp h2
    refine ⟨⟨type, (row, col)⟩, ⟨hne, isValidPosition_iff.mpr ?_⟩, rfl⟩
    dsimp only
    omega
  · rintro ⟨⟨type, row, col⟩, ⟨hne, hv⟩, rfl⟩
    obtain ⟨⟨h1, h2⟩, h3, h4⟩ := isValidPosition_iff.mp hv
    dsimp only at h1 h2 h3 h4
    refine ⟨_, mem_letters_iff.mpr ⟨type, hne, rfl⟩, _, mem_columns_iff.mpr ⟨col.toNat, ?_, rfl⟩,
      _, mem_rows_iff.mpr ⟨row.toNat, ?_, rfl⟩, rfl⟩
    · omega
    · omega

/-- Two lines name one square exactly if their pieces are on one square. -/
theorem Piece.Proper.tail_eq_iff {p q : Piece} (hp : p.Proper) (hq : q.Proper) :
    p.line.tail = q.line.tail ↔ p.position = q.position := by
  constructor
  · intro h
    -- The piece of the type of `p` on the square of `q` has the line of `p`.
    have hq' : (⟨p.type, q.position⟩ : Piece).Proper := ⟨hp.type_ne, hq.valid⟩
    have hline : p.line = (⟨p.type, q.position⟩ : Piece).line := congrArg (_ :: ·) h
    rw [hp.line_injective hq' hline]
  · intro h
    unfold Piece.line Piece.col Piece.row
    rw [h]
    rfl

theorem Piece.Proper.startsWith_iff {p : Piece} (hp : p.Proper) {type : PieceType}
    (htype : type ≠ .empty) : startsWith type.letter p.line = true ↔ p.type = type := by
  have hletter : pieceTypeOfNotation (UInt8.ofNat p.type.letter.toNat) = some p.type :=
    pieceTypeOfNotation_iff.mpr ⟨hp.type_ne, rfl⟩
  rw [startsWith, decide_eq_true_eq, Piece.line, List.head?_cons, Option.some.injEq]
  constructor
  · intro h
    have h' := pieceTypeOfNotation_iff.mpr ⟨htype, h⟩
    exact Option.some.inj (hletter.symm.trans h')
  · rintro rfl
    rfl

theorem countP_king_iff {ps : List Piece} (hsquares : (ps.map Piece.position).Nodup)
    (type : PieceType) :
    ps.countP (fun p => p.type = type) = 1 ↔
      type ∈ ps.map Piece.type ∧ ∀ p ∈ ps, ∀ q ∈ ps, p.type = type → q.type = type → p = q := by
  have hmem : ∀ p, p ∈ ps.filter (fun p => p.type = type) ↔ p ∈ ps ∧ p.type = type := by
    intro p
    rw [List.mem_filter, decide_eq_true_eq]
  rw [List.countP_eq_length_filter, List.length_eq_one_iff]
  constructor
  · rintro ⟨k, hk⟩
    have hone : ∀ p ∈ ps, p.type = type → p = k := by
      intro p hp ht
      have hp' := (hmem p).mpr ⟨hp, ht⟩
      rw [hk] at hp'
      exact List.mem_singleton.mp hp'
    obtain ⟨hin, ht⟩ := (hmem k).mp (hk ▸ List.mem_singleton_self k)
    refine ⟨ht ▸ List.mem_map_of_mem hin, fun p hp q hq hpt hqt => ?_⟩
    rw [hone p hp hpt, hone q hq hqt]
  · rintro ⟨hin, hsame⟩
    obtain ⟨k, hk, ht⟩ := List.mem_map.mp hin
    have hnodup : (ps.filter fun p => p.type = type).Nodup := hsquares.of_map.filter _
    refine ⟨k, List.perm_singleton.mp ?_⟩
    refine (List.perm_ext_iff_of_nodup hnodup (List.nodup_singleton k)).mpr fun p => ?_
    rw [hmem, List.mem_singleton]
    constructor
    · rintro ⟨hp, hpt⟩
      exact hsame p hp k hk hpt ht
    · rintro rfl
      exact ⟨hk, ht⟩

theorem exists_pieces {ls : List (List UInt8)} (h : ∀ line ∈ ls, IsPieceLine line) :
    ∃ ps : List Piece, (∀ p ∈ ps, p.Proper) ∧ ls = ps.map Piece.line := by
  induction ls with
  | nil => exact ⟨[], fun _ hp => absurd hp List.not_mem_nil, rfl⟩
  | cons line ls ih =>
    obtain ⟨hline, hls⟩ := List.forall_mem_cons.mp h
    obtain ⟨p, hp, rfl⟩ := isPieceLine_iff.mp hline
    obtain ⟨ps, hps, rfl⟩ := ih hls
    exact ⟨p :: ps, List.forall_mem_cons.mpr ⟨hp, hps⟩, rfl⟩

/-- **The files of the format are those that list pieces** which can be placed. -/
theorem wellFormed_iff {lines : List (List UInt8)} :
    WellFormed lines ↔ ∃ ps, Lists lines ps := by
  have hcount : ∀ {ps : List Piece}, (∀ p ∈ ps, p.Proper) → ∀ type : PieceType, type ≠ .empty →
      (ps.map Piece.line).countP (startsWith type.letter) =
        ps.countP fun p => p.type = type := by
    intro ps hps type htype
    rw [List.countP_map]
    refine List.countP_congr fun p hp => ?_
    rw [Function.comp_apply, (hps p hp).startsWith_iff htype, decide_eq_true_eq]
  have hsquares : ∀ {ps : List Piece}, (∀ p ∈ ps, p.Proper) →
      ((ps.map Piece.line).Pairwise (fun line line' => line.tail ≠ line'.tail) ↔
        (ps.map Piece.position).Nodup) := by
    intro ps hps
    rw [List.Nodup, List.pairwise_map, List.pairwise_map]
    exact List.Pairwise.iff_of_mem fun hp hq => not_congr ((hps _ hp).tail_eq_iff (hps _ hq))
  constructor
  · intro h
    obtain ⟨ps, hproper, hentries⟩ := exists_pieces h.pieceLines
    have hnodup := (hsquares hproper).mp (hentries ▸ h.squares)
    have hking : ∀ c, ps.countP (fun p => p.type = PieceType.kingOf c) = 1 := by
      intro c
      rw [← hcount hproper _ (by cases c <;> decide), ← hentries]
      cases c
      · exact h.whiteKing
      · exact h.blackKing
    exact ⟨ps, hentries, hproper, ⟨hnodup, fun c => ((countP_king_iff hnodup _).mp (hking c)).2⟩,
      fun c => ((countP_king_iff hnodup _).mp (hking c)).1⟩
  · rintro ⟨ps, h⟩
    have hking : ∀ c, (ps.map Piece.line).countP (startsWith (PieceType.kingOf c).letter) = 1 := by
      intro c
      rw [hcount h.proper _ (by cases c <;> decide), countP_king_iff h.placeable.squares]
      exact ⟨h.king c, h.placeable.kings c⟩
    refine ⟨?_, ?_, ?_, ?_⟩ <;> rw [h.entries_eq]
    · intro line hline
      obtain ⟨p, hp, rfl⟩ := List.mem_map.mp hline
      exact isPieceLine_iff.mpr ⟨p, h.proper p hp, rfl⟩
    · exact (hsquares h.proper).mpr h.placeable.squares
    · exact hking false
    · exact hking true

/-- The format does not depend on the order of the lines. -/
theorem WellFormed.perm {lines lines' : List (List UInt8)} (h : WellFormed lines)
    (hentries : (entries lines').Perm (entries lines)) : WellFormed lines' := by
  refine ⟨fun line hline => h.pieceLines line (hentries.mem_iff.mp hline), ?_, ?_, ?_⟩
  · exact (hentries.pairwise_iff fun hne => hne.symm).mpr h.squares
  · rw [hentries.countP_eq]
    exact h.whiteKing
  · rw [hentries.countP_eq]
    exact h.blackKing

/-- The file lists a piece. -/
def ListsPiece (lines : List (List UInt8)) (p : Piece) : Prop :=
  p.Proper ∧ p.line ∈ entries lines

theorem Lists.mem_iff {lines : List (List UInt8)} {ps : List Piece} (h : Lists lines ps)
    (p : Piece) : p ∈ ps ↔ ListsPiece lines p := by
  rw [ListsPiece, h.entries_eq]
  constructor
  · intro hp
    exact ⟨h.proper p hp, List.mem_map_of_mem hp⟩
  · rintro ⟨hp, hline⟩
    obtain ⟨q, hq, heq⟩ := List.mem_map.mp hline
    rw [← (h.proper q hq).line_injective hp heq]
    exact hq

/-- What is loaded depends neither on the order of the entries nor on the lines between
them. -/
theorem Lists.load_perm {lines : List (List UInt8)} {file : List UInt8} {ps : List Piece}
    {b : Board} (h : Lists lines ps) (hholds : Holds ps b)
    (hentries : (entries (getlines file [])).Perm (entries lines)) :
    Board.load file = some b := by
  have hwell : WellFormed (getlines file []) := (wellFormed_iff.mpr ⟨ps, h⟩).perm hentries
  obtain ⟨ps', h'⟩ := wellFormed_iff.mp hwell
  have hmem : ∀ p, p ∈ ps ↔ p ∈ ps' := by
    intro p
    rw [h.mem_iff, h'.mem_iff, ListsPiece, ListsPiece, hentries.mem_iff]
  exact load_eq_some_iff.mpr ⟨ps', h', hholds.congr hmem⟩

/-- **The loader accepts exactly its format**: it accepts a file if and only if the file is
well formed; the board then has the listed pieces and no others, with the kings where
they are listed; and the order of the lines does not matter. -/
theorem load_exactly_format (file : List UInt8) :
    ((Board.load file).isSome = true ↔ WellFormed (getlines file [])) ∧
    (∀ b, Board.load file = some b →
      (∀ pos, isValidPosition pos = true → ∀ type ≠ PieceType.empty,
        (b.getPieceTypeAtPosition pos = type ↔ ListsPiece (getlines file []) ⟨type, pos⟩)) ∧
      (∀ pos, isValidPosition pos = true → (∀ type, ¬ ListsPiece (getlines file []) ⟨type, pos⟩) →
        b.getPieceTypeAtPosition pos = .empty) ∧
      ListsPiece (getlines file []) ⟨.bKing, b.blackKing⟩ ∧
      ListsPiece (getlines file []) ⟨.wKing, b.whiteKing⟩) ∧
    ∀ file', (getlines file' []).Perm (getlines file []) → Board.load file' = Board.load file := by
  refine ⟨?_, fun b hb => ?_, fun file' hperm => ?_⟩
  · rw [wellFormed_iff, Option.isSome_iff_exists]
    constructor
    · rintro ⟨b, hb⟩
      obtain ⟨ps, hlists, -⟩ := load_eq_some_iff.mp hb
      exact ⟨ps, hlists⟩
    · rintro ⟨ps, hlists⟩
      obtain ⟨b, hholds⟩ := hlists.exists_holds
      exact ⟨b, load_eq_some_iff.mpr ⟨ps, hlists, hholds⟩⟩
  · obtain ⟨ps, hlists, hholds⟩ := load_eq_some_iff.mp hb
    have hpieces : ∀ pos, ∀ type ≠ PieceType.empty,
        (b.getPieceTypeAtPosition pos = type ↔ ListsPiece (getlines file []) ⟨type, pos⟩) := by
      intro pos type htype
      rw [← hlists.mem_iff]
      exact hholds.pieces ⟨type, pos⟩ htype
    have hking : ∀ c, ListsPiece (getlines file []) ⟨PieceType.kingOf c, b.kingPosition c⟩ := by
      intro c
      rw [← hlists.mem_iff]
      rcases hholds.kings c with ⟨-, hno⟩ | hin
      · obtain ⟨p, hp, ht⟩ := List.mem_map.mp (hlists.king c)
        exact absurd ht (hno p hp)
      · exact hin
    refine ⟨fun pos _ => hpieces pos, fun pos _ hno => ?_, hking true, hking false⟩
    by_contra hne
    exact hno _ ((hpieces pos _ hne).mp rfl)
  · refine Option.ext fun b => ⟨fun h => ?_, fun h => ?_⟩
    · obtain ⟨ps, hlists, hholds⟩ := load_eq_some_iff.mp h
      exact hlists.load_perm hholds (hperm.symm.filter _)
    · obtain ⟨ps, hlists, hholds⟩ := load_eq_some_iff.mp h
      exact hlists.load_perm hholds (hperm.filter _)

/-! ## Printing -/

/-- `Piece::print`. -/
def Piece.print (p : Piece) : String := Piece.printPiece p.type p.position

/-- A text of the given lines. -/
def unlines (lines : List (List UInt8)) : List UInt8 :=
  lines.flatMap fun line => line ++ [UInt8.ofNat '\n'.toNat]

/-- The byte is not the end of a line. -/
def Inline (c : UInt8) : Prop := c.toNat ≠ '\n'.toNat

theorem getlines_append {line : List UInt8} (h : ∀ c ∈ line, Inline c) (file read : List UInt8) :
    getlines (line ++ UInt8.ofNat '\n'.toNat :: file) read =
      (read.reverse ++ line) :: getlines file [] := by
  induction line generalizing read with
  | nil => simp [getlines]
  | cons c line ih =>
    obtain ⟨hc, hline⟩ := List.forall_mem_cons.mp h
    rw [List.cons_append, getlines, if_neg hc, ih hline, List.reverse_cons, List.append_assoc]
    rfl

/-- **Reading the lines of a text back.** -/
theorem getlines_unlines {lines : List (List UInt8)} (h : ∀ line ∈ lines, ∀ c ∈ line, Inline c) :
    getlines (unlines lines) [] = lines := by
  induction lines with
  | nil => rfl
  | cons line lines ih =>
    obtain ⟨hline, hlines⟩ := List.forall_mem_cons.mp h
    have happend : unlines (line :: lines) = line ++ UInt8.ofNat '\n'.toNat :: unlines lines := by
      rw [unlines, List.flatMap_cons, List.append_assoc]
      rfl
    rw [happend, getlines_append hline, ih hlines]
    rfl

/-- Two lines that are skipped and one that is not. -/
example : entries (getlines (unlines [Board.bytesOf "# mate", [], Board.bytesOf "Kh8"]) []) =
    [Board.bytesOf "Kh8"] := by
  decide +kernel

/-- The printer's table and offsets are the loader's. -/
theorem Piece.Proper.bytesOf_print {p : Piece} (h : p.Proper) : Board.bytesOf p.print = p.line := by
  obtain ⟨type, row, col⟩ := p
  obtain ⟨⟨h1, h2⟩, h3, h4⟩ := isValidPosition_iff.mp h.valid
  have hchar : kPieceChar.toList.getD type.value '-' = type.letter := by
    cases type <;> rfl
  have hascii : ∀ n < 128, (Char.ofNat n).toNat = n := by decide
  dsimp only at h1 h2 h3 h4
  rw [Board.bytesOf, Piece.print, Piece.printPiece, String.toList_ofList, hchar]
  simp only [List.map_cons, List.map_nil, Piece.line]
  rw [hascii ('a'.toNat + col.toNat), hascii ('1'.toNat + row.toNat)]
  · have h1 : '1'.toNat = 49 := rfl
    omega
  · have h1 : 'a'.toNat = 97 := rfl
    omega

theorem Piece.Proper.not_isSkipped {p : Piece} (h : p.Proper) : isSkipped p.line = false := by
  have hletter : ∀ c0 ∈ Board.bytesOf "prnkqbPRNKQB", c0.toNat ≠ '#'.toNat := by decide +kernel
  have hmem := mem_letters_iff.mpr ⟨p.type, h.type_ne, rfl⟩
  have hne := hletter _ hmem
  rw [isSkipped, Piece.line]
  simpa using hne

theorem Piece.Proper.inline {p : Piece} (h : p.Proper) : ∀ c ∈ p.line, Inline c := by
  have hbytes : ∀ c ∈ Board.bytesOf "prnkqbPRNKQB" ++ Board.bytesOf "abcdefgh" ++
      Board.bytesOf "12345678", c.toNat ≠ '\n'.toNat := by
    decide +kernel
  obtain ⟨c0, h0, c1, h1, c2, h2, hline⟩ := isPieceLine_iff.mpr ⟨p, h, rfl⟩
  intro c hc
  rw [hline, List.mem_cons, List.mem_cons, List.mem_singleton] at hc
  refine hbytes c ?_
  rw [List.mem_append, List.mem_append]
  rcases hc with rfl | rfl | rfl
  · exact Or.inl (Or.inl h0)
  · exact Or.inl (Or.inr h1)
  · exact Or.inr h2

section Printing
variable {b : Board}

theorem Board.proper_of_mem_pieces {p : Piece} (hp : p ∈ b.pieces) : p.Proper := by
  obtain ⟨hon, hne⟩ := Board.mem_pieces.mp hp
  exact ⟨hne, Board.valid_of_ne_empty (hon ▸ hne)⟩

theorem Board.king_mem_pieces (h : KingsOk b) (c : Bool) :
    (⟨PieceType.kingOf c, b.kingPosition c⟩ : Piece) ∈ b.pieces := by
  have hne : PieceType.kingOf c ≠ .empty := by cases c <;> decide
  exact Board.mem_pieces.mpr ⟨(h c _).mpr rfl, hne⟩

/-- The pieces of a board can be placed. -/
theorem Board.placeable_pieces (h : KingsOk b) : Placeable b.pieces := by
  have hsquare : ∀ p ∈ b.pieces, ∀ q ∈ b.pieces, p.position = q.position → p = q := by
    intro p hp q hq hpos
    have hp' := (Board.mem_pieces.mp hp).1
    have hq' := (Board.mem_pieces.mp hq).1
    obtain ⟨tp, sp⟩ := p
    obtain ⟨tq, sq⟩ := q
    obtain rfl : sp = sq := hpos
    obtain rfl : tp = tq := hp'.symm.trans hq'
    rfl
  refine ⟨(List.nodup_map_iff_inj_on b.nodup_pieces).mpr hsquare, fun c p hp q hq hpt hqt => ?_⟩
  have hking : ∀ p ∈ b.pieces, p.type = PieceType.kingOf c → p.position = b.kingPosition c := by
    intro p hp ht
    exact (h c _).mp ((Board.mem_pieces.mp hp).1.trans ht)
  exact hsquare p hp q hq ((hking p hp hpt).trans (hking q hq hqt).symm)

/-- The board without what a file does not say. -/
def Board.fresh (b : Board) : Board := { b with score := 0, lastMove := Move.none }

theorem holds_pieces (h : KingsOk b) : Holds b.pieces b.fresh where
  pieces p hp := by
    rw [Board.mem_pieces, and_iff_left hp]
    rfl
  kings c := Or.inr (Board.king_mem_pieces h c)
  score_eq := rfl
  lastMove_eq := rfl

/-- The printed pieces are a file. -/
theorem lists_printed (h : KingsOk b) : Lists (b.pieces.map Piece.line) b.pieces where
  entries_eq := by
    refine List.filter_eq_self.mpr fun line hline => ?_
    obtain ⟨p, hp, rfl⟩ := List.mem_map.mp hline
    rw [(Board.proper_of_mem_pieces hp).not_isSkipped]
    rfl
  proper _ hp := Board.proper_of_mem_pieces hp
  placeable := Board.placeable_pieces h
  king c := List.mem_map.mpr ⟨_, Board.king_mem_pieces h c, rfl⟩

/-- **Printing and loading are inverse**: the pieces of a board, printed one a line in any
order with comments and empty lines between them, load to that board. -/
theorem load_printed (h : KingsOk b) {skipped lines : List (List UInt8)}
    (hskipped : ∀ line ∈ skipped, isSkipped line = true ∧ ∀ c ∈ line, Inline c)
    (hlines : lines.Perm ((b.pieces.map fun p => Board.bytesOf p.print) ++ skipped)) :
    ∃ b', Board.load (unlines lines) = some b' ∧ b'.positions = b.positions ∧
      b'.blackKing = b.blackKing ∧ b'.whiteKing = b.whiteKing := by
  have hprint : (b.pieces.map fun p => Board.bytesOf p.print) = b.pieces.map Piece.line :=
    List.map_congr_left fun p hp => (Board.proper_of_mem_pieces hp).bytesOf_print
  rw [hprint] at hlines
  have hinline : ∀ line ∈ lines, ∀ c ∈ line, Inline c := by
    intro line hline
    rcases List.mem_append.mp (hlines.mem_iff.mp hline) with hline | hline
    · obtain ⟨p, hp, rfl⟩ := List.mem_map.mp hline
      exact (Board.proper_of_mem_pieces hp).inline
    · exact (hskipped line hline).2
  have hentries : (entries (getlines (unlines lines) [])).Perm
      (entries (b.pieces.map Piece.line)) := by
    have hnone : entries skipped = [] := by
      refine List.filter_eq_nil_iff.mpr fun line hline => ?_
      rw [(hskipped line hline).1]
      decide
    have hsplit : entries (b.pieces.map Piece.line ++ skipped) =
        entries (b.pieces.map Piece.line) := by
      rw [entries, List.filter_append, ← entries, ← entries, hnone, List.append_nil]
    rw [getlines_unlines hinline, ← hsplit]
    exact hlines.filter _
  exact ⟨b.fresh, (lists_printed h).load_perm (holds_pieces h) hentries, rfl, rfl, rfl⟩

theorem load_printed_with_comment :
    ∃ b', Board.load (unlines [Board.bytesOf "# mate", Board.bytesOf "Kh8", [],
        Board.bytesOf "rg1", Board.bytesOf "kf6"]) = some b' ∧
      b'.positions = (Board.ofText "kf6\nrg1\nKh8\n").positions ∧
      b'.blackKing = (Board.ofText "kf6\nrg1\nKh8\n").blackKing ∧
      b'.whiteKing = (Board.ofText "kf6\nrg1\nKh8\n").whiteKing := by
  have hloaded : (Board.ofText "kf6\nrg1\nKh8\n").FileLoaded :=
    Board.fileLoaded_ofText (by decide +kernel)
  have hskipped : ∀ line ∈ [Board.bytesOf "# mate", []],
      isSkipped line = true ∧ ∀ c ∈ line, Inline c := by
    unfold Inline
    decide +kernel
  exact load_printed hloaded.kings.1 hskipped (by decide +kernel)

end Printing

end Chess
