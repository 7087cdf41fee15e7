import ChessMate.KeyDistance
import ChessMate.NextStates

/-! # The keys of a round

The boards that a round looks up are made from one board by one move, or by a move and a
reply.  A move changes two squares, or three if it takes en passant, and two moves differ
in four squares or less if neither takes en passant.  So the checksums of the boards are
different (`moves_told_apart`), but for the captures en passant, which need a look at the
few squares that they are made on.
-/
namespace Chess
open FeedbackRegister

/-! ## Squares that moves change -/

/-- The move stays on the last four rows. -/
def Move.InSecondHalf (m : Move) : Prop := 4 ≤ m.fromPos.1 ∧ 4 ≤ m.toPos.1

section Moves
variable {b b' : Board} {c : Bool} {m m' : Move}

/-- A square of the array. -/
def squareAt (sq : Fin 8 × Fin 8) : Position := ((sq.1.val : Int), (sq.2.val : Int))

theorem squareAt_injective : Function.Injective squareAt := by
  rintro ⟨row, col⟩ ⟨row', col'⟩ h
  obtain ⟨hrow, hcol⟩ := Prod.mk.inj h
  exact Prod.ext (Fin.ext (Int.ofNat_inj.mp hrow)) (Fin.ext (Int.ofNat_inj.mp hcol))

theorem positions_eq_get (b : Board) (sq : Fin 8 × Fin 8) :
    b.positions sq.1 sq.2 = b.getPieceTypeAtPosition (squareAt sq) := by
  have hv : isValidPosition (squareAt sq) = true := by
    rw [isValidPosition_iff]
    have h1 := sq.1.isLt
    have h2 := sq.2.isLt
    simp only [squareAt]
    omega
  unfold Board.getPieceTypeAtPosition
  rw [dif_pos hv]
  rfl

/-- There are not more differences than squares that may differ. -/
theorem length_differences_le {l : List Position}
    (h : ∀ sq, b.getPieceTypeAtPosition sq ≠ b'.getPieceTypeAtPosition sq → sq ∈ l)
    (second : Bool) : (differences second b.positions b'.positions).length ≤ l.length := by
  have hnodup : (halfSquares second).Nodup := by cases second <;> decide
  have hsub : (differences second b.positions b'.positions).map squareAt ⊆ l := by
    intro pos hpos
    obtain ⟨sq, hsq, rfl⟩ := List.mem_map.mp hpos
    refine h _ ?_
    rw [← positions_eq_get, ← positions_eq_get]
    exact of_decide_eq_true (List.mem_filter.mp hsq).2
  rw [← List.length_map squareAt]
  exact (List.subperm_of_subset ((hnodup.filter _).map squareAt_injective) hsub).length_le

theorem differences_first_eq_nil
    (h : ∀ sq : Position, b.getPieceTypeAtPosition sq ≠ b'.getPieceTypeAtPosition sq → 4 ≤ sq.1) :
    differences false b.positions b'.positions = [] := by
  have hrows : ∀ sq ∈ halfSquares false, sq.1.val < 4 := by decide
  refine List.filter_eq_nil_iff.mpr fun sq hsq hne => ?_
  rw [decide_eq_true_eq, positions_eq_get, positions_eq_get] at hne
  have hrow := h _ hne
  have := hrows sq hsq
  simp only [squareAt] at hrow
  omega

/-- The squares that a move leaves empty are on one row. -/
theorem Generated.row_of_vacates (hg : Generated b c m) {sq : Position} (hv : m.Vacates sq) :
    sq.1 = m.fromPos.1 := by
  rcases hv with rfl | ⟨hs, rfl⟩
  · rfl
  · rw [(hg.enPassant hs).enPassantPos_eq, (hg.enPassant hs).fromRow]

/-- The pawn that is taken en passant is the one that moved last. -/
theorem Generated.enPassantPos_eq_lastTo (hg : Generated b c m) (hs : m.special = .pawnEnPassant) :
    m.enPassantPos = b.lastMove.toPos := by
  rw [(hg.enPassant hs).enPassantPos_eq, (hg.enPassant hs).lastTo]

theorem Generated.changed (hg : Generated b c m) {sq : Position}
    (h : (m.apply b).getPieceTypeAtPosition sq ≠ b.getPieceTypeAtPosition sq) :
    sq = m.toPos ∨ m.Vacates sq := by
  by_contra hno
  rw [not_or] at hno
  exact h (hg.get_apply_other hno.1 hno.2)

/-- Two moves change the board differently on their own squares only. -/
theorem Generated.changed_two (hg : Generated b c m) (hg' : Generated b c m')
    (hpassant : m.special = .pawnEnPassant ↔ m'.special = .pawnEnPassant) {sq : Position}
    (h : (m.apply b).getPieceTypeAtPosition sq ≠ (m'.apply b).getPieceTypeAtPosition sq) :
    sq ∈ [m.toPos, m'.toPos, m.fromPos, m'.fromPos] := by
  by_contra hno
  simp only [List.mem_cons, List.not_mem_nil, or_false, not_or] at hno
  obtain ⟨hto, hto', hfrom, hfrom'⟩ := hno
  have hvacates : m.Vacates sq ↔ m'.Vacates sq := by
    unfold Move.Vacates
    rw [or_iff_right hfrom, or_iff_right hfrom', ← hpassant]
    refine and_congr_right fun hs => ?_
    rw [hg.enPassantPos_eq_lastTo hs, hg'.enPassantPos_eq_lastTo (hpassant.mp hs)]
  refine h ?_
  rw [hg.get_apply, hg'.get_apply, if_neg hto, if_neg hto']
  exact if_congr hvacates rfl rfl

theorem Generated.from_occupied (hg : Generated b c m) (hg' : Generated b c m')
    (hne : m.fromPos ≠ m'.fromPos) :
    (m'.apply b).getPieceTypeAtPosition m.fromPos ≠ .empty := by
  have hown : (b.getPieceTypeAtPosition m.fromPos).HasColor c := hg.fromType_eq ▸ hg.mover
  rw [hg'.get_apply]
  split_ifs with hto hv
  · exact hg'.newType_hasColor.1
  · rcases hg'.vacated hv with heq | ⟨-, -, hpawn⟩
    · exact absurd heq hne
    · rw [hpawn] at hown
      exact absurd hown (by cases c <;> decide)
  · exact hown.1

theorem Generated.to_not_own (hg : Generated b c m) (hg' : Generated b c m')
    (hne : m.toPos ≠ m'.toPos) :
    ¬ ((m'.apply b).getPieceTypeAtPosition m.toPos).HasColor c := by
  rw [hg'.get_apply, if_neg hne]
  split_ifs
  · exact PieceType.not_hasColor_empty c
  · exact hg.toType_eq ▸ hg.target

/-- A promotion is known by the piece that it makes. -/
theorem Generated.promotion_eq (hg : Generated b c m)
    (hs : m.special = .queenPromotion ∨ m.special = .knightPromotion)
    (htype : m.fromType = m'.fromType) (hnew : m.newType = m'.newType) :
    m.special = m'.special := by
  have hpawn := hg.pawnPromoted hs
  unfold Move.newType at hnew
  rw [← htype, hpawn] at hnew
  rcases hs with hs | hs <;> rw [hs] at hnew ⊢ <;> cases hs' : m'.special <;> rw [hs'] at hnew <;>
    cases c <;> first | rfl | cases hnew

theorem Generated.special_eq (hg : Generated b c m) (hg' : Generated b c m')
    (hpassant : m.special = .pawnEnPassant ↔ m'.special = .pawnEnPassant)
    (htype : m.fromType = m'.fromType) (hnew : m.newType = m'.newType) :
    m.special = m'.special := by
  cases hs : m.special with
  | queenPromotion => exact hs ▸ hg.promotion_eq (Or.inl hs) htype hnew
  | knightPromotion => exact hs ▸ hg.promotion_eq (Or.inr hs) htype hnew
  | pawnEnPassant => exact (hpassant.mp hs).symm
  | kingCastling => exact absurd hs hg.notCastling
  | normalMove =>
    cases hs' : m'.special with
    | normalMove => rfl
    | queenPromotion =>
      exact hs.symm.trans ((hg'.promotion_eq (Or.inl hs') htype.symm hnew.symm).symm.trans hs')
    | knightPromotion =>
      exact hs.symm.trans ((hg'.promotion_eq (Or.inr hs') htype.symm hnew.symm).symm.trans hs')
    | pawnEnPassant => exact hs.symm.trans (hpassant.mpr hs')
    | kingCastling => exact absurd hs' hg'.notCastling

/-- **Different moves lead to different boards.** -/
theorem Generated.positions_ne (hg : Generated b c m) (hg' : Generated b c m') (hne : m ≠ m')
    (hpassant : m.special = .pawnEnPassant ↔ m'.special = .pawnEnPassant) :
    (m.apply b).positions ≠ (m'.apply b).positions := by
  intro heq
  have hget := Board.get_congr_positions heq
  have hfrom : m.fromPos = m'.fromPos := by
    by_contra hfrom
    refine hg.from_occupied hg' hfrom ?_
    rw [← hget, hg.get_apply_vacated (Or.inl rfl)]
  have hto : m.toPos = m'.toPos := by
    by_contra hto
    refine hg.to_not_own hg' hto ?_
    rw [← hget, hg.get_apply_to]
    exact hg.newType_hasColor
  have htype : m.fromType = m'.fromType := by rw [hg.fromType_eq, hg'.fromType_eq, hfrom]
  have hnew : m.newType = m'.newType := by
    rw [← hg.get_apply_to, hget, hto, hg'.get_apply_to]
  have hspecial := hg.special_eq hg' hpassant htype hnew
  have htarget : m.toType = m'.toType := by rw [hg.toType_eq, hg'.toType_eq, hto]
  refine hne ?_
  cases m
  cases m'
  simp only at hfrom hto htype hspecial htarget
  rw [hfrom, hto, htype, hspecial, htarget]

variable {engine : BitVec 32 → List (BitVec 8) → BitVec 32} {hwSupported : Bool} {mask : ℕ}

theorem Generated.positions_ne_before (hg : Generated b c m) :
    (m.apply b).positions ≠ b.positions := by
  intro heq
  have hfrom := Board.get_congr_positions heq m.fromPos
  rw [hg.get_apply_vacated (Or.inl rfl), ← hg.fromType_eq] at hfrom
  exact hg.mover.1 hfrom.symm

theorem Generated.differences_le (hg : Generated b c m) (second : Bool) :
    (differences second (m.apply b).positions b.positions).length ≤ 4 := by
  have hmem : ∀ sq, (m.apply b).getPieceTypeAtPosition sq ≠ b.getPieceTypeAtPosition sq →
      sq ∈ [m.toPos, m.fromPos, m.enPassantPos] := by
    intro sq hsq
    rcases hg.changed hsq with rfl | rfl | ⟨-, rfl⟩
    · exact List.mem_cons_self
    · exact List.mem_cons_of_mem _ List.mem_cons_self
    · exact List.mem_cons_of_mem _ (List.mem_cons_of_mem _ List.mem_cons_self)
  exact (length_differences_le hmem second).trans (Nat.le_succ 3)

theorem Generated.checksums_ne (hg : Generated b c m) (hengine : Crc32cEngine engine) :
    checksums engine hwSupported mask (m.apply b).positions ≠ checksums engine hwSupported mask b.positions :=
  fun heq => hg.positions_ne_before (eq_of_checksums_eq hengine hg.differences_le heq)

theorem Generated.boardHash_ne (hg : Generated b c m) (hengine : Crc32cEngine engine)
    (hrows : m.InSecondHalf)
    {stdHash : BitVec 32 → BitVec 64} (hinj : Function.Injective stdHash) :
    boardHash engine stdHash hwSupported mask (m.apply b).positions ≠
      boardHash engine stdHash hwSupported mask b.positions := by
  refine fun heq => hg.positions_ne_before
    (eq_of_boardHash_eq hengine hg.differences_le (differences_first_eq_nil fun sq hsq => ?_) hinj heq)
  rcases hg.changed hsq with rfl | hv
  · exact hrows.2
  · rw [hg.row_of_vacates hv]
    exact hrows.1

/-! ## Captures en passant

A capture en passant and another move differ in up to five squares, which is one too many.
There are few captures en passant, though: two squares side by side on one row. -/

/-- What a capture en passant changes, as symbols of the half in which it is made. -/
def passantSymbols (c : Bool) (col col' : Int) : List (BitVec 32) :=
  (halfSquares (!c)).map fun sq =>
    if squareAt sq = (enPassantRow c + pawnDir c, col') then (PieceType.pawnOf c).symbol
    else if squareAt sq = (enPassantRow c, col) then (PieceType.pawnOf c).symbol
    else if squareAt sq = (enPassantRow c, col') then (PieceType.pawnOf (!c)).symbol
    else 0#32

/-- The columns of a capture en passant. -/
def passantColumns : List (Int × Int) :=
  (List.range 7).flatMap fun col : ℕ =>
    [((col : Int), (col : Int) + 1), ((col : Int) + 1, (col : Int))]

def passantsFar (c : Bool) : Bool :=
  passantColumns.all fun x =>
    farFromTwo (checksum CRC32C_POLYNOMIAL.reverse 8 0#32 (passantSymbols c x.1 x.2)).toNat

theorem passantsFar_eq_true (c : Bool) : passantsFar c = true := by
  cases c <;> decide +kernel

/-- A pawn that steps from one square to the next is not far from two symbols. -/
example : farFromTwo (checksum CRC32C_POLYNOMIAL.reverse 8 0#32
    [PieceType.wPawn.symbol, PieceType.wPawn.symbol]).toNat = false := by
  decide +kernel

theorem EnPassant.columns (h : EnPassant b c m) (hfrom : isValidPosition m.fromPos = true)
    (hto : isValidPosition m.toPos = true) : (m.fromPos.2, m.toPos.2) ∈ passantColumns := by
  obtain ⟨-, hf1, hf2⟩ := isValidPosition_iff.mp hfrom
  obtain ⟨-, ht1, ht2⟩ := isValidPosition_iff.mp hto
  rcases (abs_eq (by decide)).mp h.beside with hright | hleft
  · have hlt : m.fromPos.2.toNat < 7 := by omega
    refine List.mem_flatMap.mpr ⟨m.fromPos.2.toNat, List.mem_range.mpr hlt, ?_⟩
    rw [show m.toPos.2 = m.fromPos.2 + 1 by omega, Int.toNat_of_nonneg hf1]
    exact List.mem_cons_self
  · have hlt : m.toPos.2.toNat < 7 := by omega
    refine List.mem_flatMap.mpr ⟨m.toPos.2.toNat, List.mem_range.mpr hlt, ?_⟩
    rw [show m.fromPos.2 = m.toPos.2 + 1 by omega, Int.toNat_of_nonneg ht1]
    exact List.mem_cons_of_mem _ List.mem_cons_self

theorem Generated.differenceSymbols_passant (hg : Generated b c m)
    (hs : m.special = .pawnEnPassant) :
    differenceSymbols (!c) (m.apply b).positions b.positions =
      passantSymbols c m.fromPos.2 m.toPos.2 := by
  have he := hg.enPassant hs
  have hempty : PieceType.symbol .empty = 0#32 := rfl
  have hnew : m.newType = PieceType.pawnOf c := by
    unfold Move.newType
    rw [hs]
    exact he.fromType_eq
  have hto : m.toPos = (enPassantRow c + pawnDir c, m.toPos.2) := by rw [← he.toRow]
  have hfrom : m.fromPos = (enPassantRow c, m.fromPos.2) := by rw [← he.fromRow]
  refine List.map_congr_left fun sq _ => ?_
  rw [positions_eq_get, positions_eq_get, hg.get_apply, ← hto, ← hfrom, ← he.enPassantPos_eq]
  by_cases h1 : squareAt sq = m.toPos
  · rw [if_pos h1, if_pos h1, h1, he.toEmpty, hempty, BitVec.xor_zero, hnew]
  · rw [if_neg h1, if_neg h1]
    by_cases h2 : squareAt sq = m.fromPos
    · have hv : m.Vacates (squareAt sq) := Or.inl h2
      rw [if_pos h2, if_pos hv, h2, ← hg.fromType_eq, he.fromType_eq, hempty, BitVec.zero_xor]
    · rw [if_neg h2]
      by_cases h3 : squareAt sq = m.enPassantPos
      · have hv : m.Vacates (squareAt sq) := Or.inr ⟨hs, h3⟩
        rw [if_pos h3, if_pos hv, h3, he.enPassantPos_eq, he.captured, hempty, BitVec.zero_xor]
      · rw [if_neg h3, if_neg, BitVec.xor_self]
        rintro (hv | ⟨-, hv⟩)
        · exact h2 hv
        · exact h3 hv

/-- **A capture en passant and another move** lead to different checksums. -/
theorem Generated.crc32c_ne_of_passant (hg : Generated b c m)
    (hengine : Crc32cEngine engine) (hs : m.special = .pawnEnPassant)
    (hg' : Generated b c m') (hs' : m'.special ≠ .pawnEnPassant) (start : BitVec 32) :
    crc32c engine hwSupported mask (halfBytes (!c) (m.apply b).positions) start ≠
      crc32c engine hwSupported mask (halfBytes (!c) (m'.apply b).positions) start := by
  intro h
  rw [crc32c_eq hengine, crc32c_eq hengine] at h
  have hsame : checksum CRC32C_POLYNOMIAL.reverse 8 0#32
      (differenceSymbols (!c) (m'.apply b).positions b.positions) =
      checksum CRC32C_POLYNOMIAL.reverse 8 0#32 (passantSymbols c m.fromPos.2 m.toPos.2) := by
    rw [← hg.differenceSymbols_passant hs, checksum_differenceSymbols start, ← h,
      checksum_differenceSymbols start]
  have hmem : ∀ sq, (m'.apply b).getPieceTypeAtPosition sq ≠ b.getPieceTypeAtPosition sq →
      sq ∈ [m'.toPos, m'.fromPos] := by
    intro sq hsq
    rcases hg'.changed hsq with rfl | rfl | ⟨hpassant, -⟩
    · exact List.mem_cons_self
    · exact List.mem_cons_of_mem _ List.mem_cons_self
    · exact absurd hpassant hs'
  have hcount := (countP_differenceSymbols (!c) (m'.apply b).positions b.positions).trans_le
    (length_differences_le hmem (!c))
  have hlen : (differenceSymbols (!c) (m'.apply b).positions b.positions).length ≤ 32 := by
    rw [differenceSymbols, List.length_map, length_halfSquares]
  have hfar := List.all_eq_true.mp (passantsFar_eq_true c) _
    ((hg.enPassant hs).columns hg.validFrom hg.validTo)
  exact checksum_ne_of_farFromTwo hfar hlen toNat_differenceSymbols hcount hsame

section Pairs
variable (hg : Generated b c m) (hg' : Generated b c m')
include hg hg'

theorem Generated.differences_other_le
    (hpassant : m.special = .pawnEnPassant ↔ m'.special = .pawnEnPassant) (second : Bool) :
    (differences second (m.apply b).positions (m'.apply b).positions).length ≤ 4 :=
  length_differences_le (fun _ hsq => hg.changed_two hg' hpassant hsq) second

theorem Generated.checksums_ne_other (hengine : Crc32cEngine engine) (hne : m ≠ m') :
    checksums engine hwSupported mask (m.apply b).positions ≠
      checksums engine hwSupported mask (m'.apply b).positions := by
  intro heq
  have hhalf : ∀ second, crc32c engine hwSupported mask (halfBytes second (m.apply b).positions)
      (BitVec.allOnes 32) = crc32c engine hwSupported mask (halfBytes second (m'.apply b).positions)
      (BitVec.allOnes 32) := by
    intro second
    cases second
    · exact congrArg Prod.fst heq
    · exact congrArg Prod.snd heq
  by_cases hs : m.special = .pawnEnPassant <;> by_cases hs' : m'.special = .pawnEnPassant
  · exact hg.positions_ne hg' hne (iff_of_true hs hs')
      (eq_of_checksums_eq hengine (hg.differences_other_le hg' (iff_of_true hs hs')) heq)
  · exact hg.crc32c_ne_of_passant hengine hs hg' hs' _ (hhalf (!c))
  · exact hg'.crc32c_ne_of_passant hengine hs' hg hs _ (hhalf (!c)).symm
  · exact hg.positions_ne hg' hne (iff_of_false hs hs')
      (eq_of_checksums_eq hengine (hg.differences_other_le hg' (iff_of_false hs hs')) heq)

/-- Moves on the last four rows leave the first half alone. -/
theorem Generated.differences_first_other (hrows : m.InSecondHalf) (hrows' : m'.InSecondHalf) :
    differences false (m.apply b).positions (m'.apply b).positions = [] := by
  refine differences_first_eq_nil fun sq hsq => ?_
  by_contra hlow
  have hsame : ∀ {m : Move}, Generated b c m → m.InSecondHalf →
      (m.apply b).getPieceTypeAtPosition sq = b.getPieceTypeAtPosition sq := by
    intro m hg hrows
    by_contra hchanged
    rcases hg.changed hchanged with rfl | hv
    · exact hlow hrows.2
    · exact hlow (hg.row_of_vacates hv ▸ hrows.1)
  exact hsq ((hsame hg hrows).trans (hsame hg' hrows').symm)

theorem Generated.boardHash_ne_other (hengine : Crc32cEngine engine) (hne : m ≠ m') (hrows : m.InSecondHalf)
    (hrows' : m'.InSecondHalf) {stdHash : BitVec 32 → BitVec 64}
    (hinj : Function.Injective stdHash) :
    boardHash engine stdHash hwSupported mask (m.apply b).positions ≠
      boardHash engine stdHash hwSupported mask (m'.apply b).positions := by
  intro heq
  have hfirst := hg.differences_first_other hg' hrows hrows'
  refine hg.checksums_ne_other hg' hengine hne (Prod.ext ?_ (snd_of_boardHash_eq hfirst hinj heq))
  exact fst_of_differences hfirst

end Pairs
end Moves

/-- **What moves do to the keys** of a board that play reaches: every move changes the
checksums, and two different moves lead to different ones.  Moves on the last four rows
change the key, and lead to different keys. -/
theorem moves_told_apart (flags : Flags)
    {engine : BitVec 32 → List (BitVec 8) → BitVec 32} (hengine : Crc32cEngine engine) {b : Board} (h : b.Reachable flags) (c : Bool)
    (hwSupported : Bool) (mask : ℕ) {stdHash : BitVec 32 → BitVec 64}
    (hinj : Function.Injective stdHash) :
    (∀ p ∈ b.piecesOf c, ∀ m ∈ p.getMoves flags b,
      checksums engine hwSupported mask (b.makeMove m).positions ≠
          checksums engine hwSupported mask b.positions ∧
        (m.InSecondHalf → boardHash engine stdHash hwSupported mask (b.makeMove m).positions ≠
          boardHash engine stdHash hwSupported mask b.positions)) ∧
    (∀ p ∈ b.piecesOf c, ∀ m ∈ p.getMoves flags b, ∀ p' ∈ b.piecesOf c,
      ∀ m' ∈ p'.getMoves flags b, m ≠ m' →
        checksums engine hwSupported mask (b.makeMove m).positions ≠
            checksums engine hwSupported mask (b.makeMove m').positions ∧
          (m.InSecondHalf → m'.InSecondHalf →
            boardHash engine stdHash hwSupported mask (b.makeMove m).positions ≠
              boardHash engine stdHash hwSupported mask (b.makeMove m').positions)) := by
  refine ⟨fun p hp m hm => ?_, fun p hp m hm p' hp' m' hm' hne => ?_⟩
  · have hg := h.doubleStepOk.generated hp hm
    exact ⟨hg.checksums_ne hengine, fun hrows => hg.boardHash_ne hengine hrows hinj⟩
  · have hg := h.doubleStepOk.generated hp hm
    have hg' := h.doubleStepOk.generated hp' hm'
    exact ⟨hg.checksums_ne_other hg' hengine hne,
      fun hrows hrows' => hg.boardHash_ne_other hg' hengine hne hrows hrows' hinj⟩

/-- A capture en passant and the pawn's step forward. -/
theorem moves_told_apart_en_passant :
    boardHash bitwiseEngine wordItself true 4 (Board.afterDoubleStep.makeMove
        (Move.ofBoard .afterDoubleStep .pawnEnPassant (4, 4) (5, 3))).positions ≠
      boardHash bitwiseEngine wordItself true 4 (Board.afterDoubleStep.makeMove
        (Move.ofBoard .afterDoubleStep .normalMove (4, 4) (5, 4))).positions :=
  ((moves_told_apart Flags.default bitwiseEngine_documented Board.afterDoubleStep_reachable false true 4
      wordItself_injective).2 ⟨.wPawn, (4, 4)⟩ (by decide +kernel) _ (by decide +kernel)
    ⟨.wPawn, (4, 4)⟩ (by decide +kernel) _ (by decide +kernel) (by decide +kernel)).2
    ⟨by decide, by decide⟩ ⟨by decide, by decide⟩

end Chess
