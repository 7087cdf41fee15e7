import ChessMate.PieceMoves
import Mathlib.Tactic.Linarith

/-! # What an attack is

`canAttack` of the seven classes, in one form: a piece attacks a square if the
square is one of its leaps away, or if it sees the square along one of its
steps.  A leap does not depend on the board, and a line of sight depends only on
which squares are empty; everything about discovered attacks follows from that
(`canAttack_congr`, `canAttack_opened`).
-/
namespace Chess
open LineWalk

namespace PieceType

/-- The steps of the line pieces. -/
def slideSteps : PieceType → List DeltaMove
  | wRook | bRook => Rook.steps
  | wBishop | bBishop => Bishop.steps
  | wQueen | bQueen => Queen.steps
  | _ => []

/-- The offsets that the other pieces attack. -/
def leaps : PieceType → List DeltaMove
  | wKing | bKing => King.kDelta
  | wKnight | bKnight => Knight.kMoves
  | wPawn => [(1, 1), (1, -1)]
  | bPawn => [(-1, 1), (-1, -1)]
  | _ => []

theorem slideSteps_subset (type : PieceType) {step : DeltaMove} (h : step ∈ type.slideSteps) :
    step ∈ Queen.steps := by
  cases type <;> simp [slideSteps, Rook.steps, Bishop.steps, Queen.steps] at h ⊢ <;> tauto

end PieceType

/-- The eight unit steps are the offsets with both parts in `{-1, 0, 1}`, not both 0. -/
theorem mem_queenSteps {step : DeltaMove} :
    step ∈ Queen.steps ↔
      (-1 ≤ step.1 ∧ step.1 ≤ 1) ∧ (-1 ≤ step.2 ∧ step.2 ≤ 1) ∧ ¬ (step.1 = 0 ∧ step.2 = 0) := by
  obtain ⟨dr, dc⟩ := step
  constructor
  · intro h
    simp only [Queen.steps, List.mem_cons, List.not_mem_nil, Prod.mk.injEq, or_false] at h
    simp only
    omega
  · rintro ⟨⟨h1, h2⟩, ⟨h3, h4⟩, h5⟩
    simp only at h1 h2 h3 h4 h5
    simp only [Queen.steps, List.mem_cons, List.not_mem_nil, Prod.mk.injEq, or_false]
    omega

/-! ## Squares on a line -/

theorem fst_add_smul (src step : Position) (k : ℕ) : (src + k • step).1 = src.1 + k * step.1 := by
  simp

theorem snd_add_smul (src step : Position) (k : ℕ) : (src + k • step).2 = src.2 + k * step.2 := by
  simp

/-- Between two squares of the board a line stays on the board. -/
theorem valid_between {src step : Position} {j k : ℕ} (hsrc : isValidPosition src = true)
    (hk : isValidPosition (src + k • step) = true) (hjk : j ≤ k) :
    isValidPosition (src + j • step) = true := by
  rw [isValidPosition_iff] at *
  simp only [fst_add_smul, snd_add_smul] at *
  have key : ∀ a s : ℤ, 0 ≤ a → a < 8 → 0 ≤ a + k * s → a + k * s < 8 →
      0 ≤ a + j * s ∧ a + j * s < 8 := by
    intro a s h0 h1 h2 h3
    have hj : (0 : ℤ) ≤ j := Int.natCast_nonneg j
    have hjk' : (j : ℤ) ≤ k := by exact_mod_cast hjk
    rcases le_total 0 s with hs | hs
    · have := mul_le_mul_of_nonneg_right hjk' hs
      have := mul_nonneg hj hs
      omega
    · have := mul_le_mul_of_nonpos_right hjk' hs
      have := mul_nonpos_of_nonneg_of_nonpos hj hs
      omega
  obtain ⟨⟨h1, h2⟩, h3, h4⟩ := hsrc
  obtain ⟨⟨h5, h6⟩, h7, h8⟩ := hk
  exact ⟨key _ _ h1 h2 h5 h6, key _ _ h3 h4 h7 h8⟩

/-- A line of unit steps leaves the board within eight of them. -/
theorem steps_le_seven {src step : Position} {k : ℕ} (hstep : step ∈ Queen.steps)
    (hsrc : isValidPosition src = true) (hk : isValidPosition (src + k • step) = true) :
    k ≤ 7 := by
  rw [isValidPosition_iff] at *
  simp only [fst_add_smul, snd_add_smul] at *
  obtain ⟨dr, dc⟩ := step
  simp only [Queen.steps, List.mem_cons, List.not_mem_nil, Prod.mk.injEq, or_false] at hstep
  simp only at hk
  rcases hstep with ⟨rfl, rfl⟩ | ⟨rfl, rfl⟩ | ⟨rfl, rfl⟩ | ⟨rfl, rfl⟩ | ⟨rfl, rfl⟩ | ⟨rfl, rfl⟩ |
    ⟨rfl, rfl⟩ | ⟨rfl, rfl⟩ <;> omega

/-- A line of unit steps does not come back. -/
theorem line_injective {src step : Position} {j k : ℕ} (hstep : step ∈ Queen.steps)
    (h : src + k • step = src + j • step) : k = j := by
  have h1 := congrArg Prod.fst h
  have h2 := congrArg Prod.snd h
  simp only [fst_add_smul, snd_add_smul, add_right_inj] at h1 h2
  obtain ⟨-, -, h0⟩ := mem_queenSteps.mp hstep
  by_contra hne
  have hkj : ((k : ℤ) - j) ≠ 0 := by omega
  have h1' : ((k : ℤ) - j) * step.1 = 0 := by rw [sub_mul, h1, sub_self]
  have h2' : ((k : ℤ) - j) * step.2 = 0 := by rw [sub_mul, h2, sub_self]
  exact h0 ⟨(mul_eq_zero.mp h1').resolve_left hkj, (mul_eq_zero.mp h2').resolve_left hkj⟩

/-- Two lines of unit steps from one square meet nowhere else. -/
theorem lines_meet {src step step' : Position} {j k : ℕ} (hstep : step ∈ Queen.steps)
    (hstep' : step' ∈ Queen.steps) (hj : 0 < j) (hk : 0 < k)
    (h : src + j • step = src + k • step') : step = step' := by
  have h1 := congrArg Prod.fst h
  have h2 := congrArg Prod.snd h
  simp only [fst_add_smul, snd_add_smul, add_right_inj] at h1 h2
  -- positive multiples of two unit numbers agree only if the numbers do
  have key : ∀ d d' : ℤ, -1 ≤ d → d ≤ 1 → -1 ≤ d' → d' ≤ 1 → j * d = k * d' → d = d' := by
    intro d d' h3 h4 h5 h6 h7
    obtain rfl | rfl | rfl : d = -1 ∨ d = 0 ∨ d = 1 := by omega
    all_goals
      obtain rfl | rfl | rfl : d' = -1 ∨ d' = 0 ∨ d' = 1 := by omega
      all_goals omega
  obtain ⟨⟨a1, a2⟩, ⟨a3, a4⟩, -⟩ := mem_queenSteps.mp hstep
  obtain ⟨⟨b1, b2⟩, ⟨b3, b4⟩, -⟩ := mem_queenSteps.mp hstep'
  exact Prod.ext (key _ _ a1 a2 b1 b2 h1) (key _ _ a3 a4 b3 b4 h2)

/-- The squares on which nothing stands, as a set of free squares. -/
def Board.Free (board : Board) (sq : Position) : Prop := board.getPieceTypeAtPosition sq = .empty

theorem Board.free_iff {board : Board} {sq : Position} :
    board.isEmpty sq = true ↔ board.Free sq := Board.isEmpty_iff

/-- **The line test is a line of sight.** -/
theorem checkCanAttackLine_iff {board : Board} {src tgt : Position} {step : DeltaMove}
    (hstep : step ∈ Queen.steps) (hsrc : isValidPosition src = true)
    (htgt : isValidPosition tgt = true) :
    Piece.checkCanAttackLine board src tgt step = true ↔ Sees board.Free src step tgt := by
  have hgetD : ∀ o : Option Bool, o.getD false = true ↔ o = some true := by
    intro o; cases o <;> simp
  rw [Piece.checkCanAttackLine, hgetD, walk_eq_some_iff]
  constructor
  · rintro ⟨k, hk, -, hbody, hbefore⟩
    refine ⟨k, hk, ?_, fun j hj hjk => ?_⟩
    · split at hbody
      · cases hbody
      · split at hbody
        · assumption
        · split at hbody <;> cases hbody
    · have h := hbefore j hj hjk
      split at h
      · cases h
      · split at h
        · cases h
        · split at h
          · cases h
          · rename_i he
            exact Board.free_iff.mp (by simpa using he)
  · rintro ⟨k, hk, rfl, hfree⟩
    have hk7 := steps_le_seven hstep hsrc htgt
    refine ⟨k, hk, by omega, by rw [if_neg (by rw [htgt]; decide), if_pos rfl], ?_⟩
    intro j hj hjk
    have hv := valid_between hsrc htgt (Nat.le_of_lt hjk)
    have hne : src + k • step ≠ src + j • step := fun h =>
      Nat.ne_of_gt hjk (line_injective hstep h)
    have hempty : board.isEmpty (src + j • step) = true := Board.free_iff.mpr (hfree j hj hjk)
    rw [if_neg (by rw [hv]; decide), if_neg hne, if_neg (by rw [hempty]; decide)]

/-! ## Attacks of the piece classes -/

section Slide
variable {board : Board} {src tgt : Position}

/-- **A test that walks along one of the steps**, the one that the offset of the target
goes along, answers whether the target is seen along any. -/
theorem attacks_iff_sees {attacks : Bool} {steps : List DeltaMove} (hsrc : isValidPosition src = true)
    (htgt : isValidPosition tgt = true) (hsteps : ∀ step ∈ steps, step ∈ Queen.steps)
    (hsound : attacks = true →
      ∃ step ∈ steps, Piece.checkCanAttackLine board src tgt step = true)
    (hpick : ∀ step ∈ steps, ∀ k : ℕ, 0 < k → tgt.1 - src.1 = k * step.1 →
      tgt.2 - src.2 = k * step.2 → attacks = Piece.checkCanAttackLine board src tgt step) :
    attacks = true ↔ ∃ step ∈ steps, Sees board.Free src step tgt := by
  constructor
  · intro h
    obtain ⟨step, hstep, hline⟩ := hsound h
    exact ⟨step, hstep, (checkCanAttackLine_iff (hsteps step hstep) hsrc htgt).mp hline⟩
  · rintro ⟨step, hstep, hs⟩
    have hline := (checkCanAttackLine_iff (hsteps step hstep) hsrc htgt).mpr hs
    obtain ⟨k, hk, htgt', -⟩ := hs
    rw [hpick step hstep k hk (by rw [htgt', fst_add_smul]; ring)
      (by rw [htgt', snd_add_smul]; ring)]
    exact hline

theorem queen_canAttack_iff {type : PieceType} (hsrc : isValidPosition src = true)
    (htgt : isValidPosition tgt = true) :
    Queen.canAttack ⟨type, src⟩ board tgt = true ↔
      ∃ step ∈ Queen.steps, Sees board.Free src step tgt := by
  dsimp only [Queen.canAttack]
  refine attacks_iff_sees hsrc htgt (fun _ h => h) (fun h => ?_) fun step hstep k hk h1 h2 => ?_
  · split_ifs at h <;> exact ⟨_, by decide, h⟩
  · obtain ⟨dr, dc⟩ := step
    rw [h1, h2]
    simp only [Queen.steps, List.mem_cons, List.not_mem_nil, Prod.mk.injEq, or_false] at hstep
    rcases hstep with ⟨rfl, rfl⟩ | ⟨rfl, rfl⟩ | ⟨rfl, rfl⟩ | ⟨rfl, rfl⟩ | ⟨rfl, rfl⟩ | ⟨rfl, rfl⟩ |
      ⟨rfl, rfl⟩ | ⟨rfl, rfl⟩ <;> split_ifs <;> first | rfl | omega

theorem rook_canAttack_iff {type : PieceType} (hsrc : isValidPosition src = true)
    (htgt : isValidPosition tgt = true) :
    Rook.canAttack ⟨type, src⟩ board tgt = true ↔
      ∃ step ∈ Rook.steps, Sees board.Free src step tgt := by
  dsimp only [Rook.canAttack]
  refine attacks_iff_sees hsrc htgt (fun _ h => PieceType.slideSteps_subset .wRook h) (fun h => ?_)
    fun step hstep k hk h1 h2 => ?_
  · split_ifs at h <;> exact ⟨_, by decide, h⟩
  · obtain ⟨dr, dc⟩ := step
    rw [h1, h2]
    simp only [Rook.steps, List.mem_cons, List.not_mem_nil, Prod.mk.injEq, or_false] at hstep
    rcases hstep with ⟨rfl, rfl⟩ | ⟨rfl, rfl⟩ | ⟨rfl, rfl⟩ | ⟨rfl, rfl⟩ <;>
      split_ifs <;> first | rfl | omega

theorem bishop_canAttack_iff {type : PieceType} (hsrc : isValidPosition src = true)
    (htgt : isValidPosition tgt = true) :
    Bishop.canAttack ⟨type, src⟩ board tgt = true ↔
      ∃ step ∈ Bishop.steps, Sees board.Free src step tgt := by
  dsimp only [Bishop.canAttack]
  refine attacks_iff_sees hsrc htgt (fun _ h => PieceType.slideSteps_subset .wBishop h) (fun h => ?_)
    fun step hstep k hk h1 h2 => ?_
  · split_ifs at h <;> exact ⟨_, by decide, h⟩
  · obtain ⟨dr, dc⟩ := step
    rw [h1, h2]
    simp only [Bishop.steps, List.mem_cons, List.not_mem_nil, Prod.mk.injEq, or_false] at hstep
    rcases hstep with ⟨rfl, rfl⟩ | ⟨rfl, rfl⟩ | ⟨rfl, rfl⟩ | ⟨rfl, rfl⟩ <;>
      split_ifs <;> first | rfl | omega

end Slide

/-! ## Leaps -/

/-- The target is one of the type's leaps away. -/
def Leaps (type : PieceType) (src tgt : Position) : Prop :=
  ∃ delta ∈ type.leaps, tgt = src + delta

theorem leaps_iff {type : PieceType} {src tgt : Position} :
    Leaps type src tgt ↔ (tgt.1 - src.1, tgt.2 - src.2) ∈ type.leaps := by
  constructor
  · rintro ⟨delta, h, rfl⟩
    simpa using h
  · intro h
    refine ⟨_, h, ?_⟩
    ext <;> simp

theorem king_canAttack_iff {type : PieceType} {src tgt : Position} :
    King.canAttack ⟨type, src⟩ tgt = true ↔ (tgt.1 - src.1, tgt.2 - src.2) ∈ King.kDelta := by
  simp only [King.canAttack, Piece.row, Piece.col, King.kDelta, List.mem_cons, List.not_mem_nil,
    or_false, Prod.ext_iff]
  split_ifs with h
  · simp only [false_iff]
    omega
  · simp only [Bool.and_eq_true, decide_eq_true_eq]
    omega

theorem knight_canAttack_iff {type : PieceType} {src tgt : Position} :
    Knight.canAttack ⟨type, src⟩ tgt = true ↔
      (tgt.1 - src.1, tgt.2 - src.2) ∈ Knight.kMoves := by
  simp only [Knight.canAttack, Knight.kMoves, List.mem_cons, List.not_mem_nil, Prod.mk.injEq, or_false,
    Bool.or_eq_true, decide_eq_true_eq]
  generalize tgt.1 - src.1 = dr
  generalize tgt.2 - src.2 = dc
  constructor
  · intro h
    -- a product of 2 or -2 bounds both factors
    have hdvd : dr ∣ 2 := by
      rcases h with h | h
      · exact ⟨dc, h.symm⟩
      · exact ⟨-dc, by linarith⟩
    have h1 : dr ≤ 2 := Int.le_of_dvd (by norm_num) hdvd
    have h2 : -dr ≤ 2 := Int.le_of_dvd (by norm_num) (neg_dvd.mpr hdvd)
    have h3 : dr = -2 ∨ dr = -1 ∨ dr = 0 ∨ dr = 1 ∨ dr = 2 := by omega
    rcases h3 with rfl | rfl | rfl | rfl | rfl <;> omega
  · rintro (⟨rfl, rfl⟩ | ⟨rfl, rfl⟩ | ⟨rfl, rfl⟩ | ⟨rfl, rfl⟩ | ⟨rfl, rfl⟩ | ⟨rfl, rfl⟩ |
      ⟨rfl, rfl⟩ | ⟨rfl, rfl⟩) <;> decide

/-- **What a piece attacks**: its leaps, and what it sees along its steps. -/
theorem canAttack_iff {type : PieceType} {board : Board} {src tgt : Position}
    (hsrc : isValidPosition src = true) (htgt : isValidPosition tgt = true) :
    Piece.canAttack ⟨type, src⟩ board tgt = true ↔
      Leaps type src tgt ∨ ∃ step ∈ type.slideSteps, Sees board.Free src step tgt := by
  rw [leaps_iff]
  cases type
  case wKing | bKing => simp [Piece.canAttack, king_canAttack_iff, PieceType.leaps,
    PieceType.slideSteps]
  case wKnight | bKnight => simp [Piece.canAttack, knight_canAttack_iff, PieceType.leaps,
    PieceType.slideSteps]
  case wQueen | bQueen => simp [Piece.canAttack, queen_canAttack_iff hsrc htgt, PieceType.leaps,
    PieceType.slideSteps]
  case wRook | bRook => simp [Piece.canAttack, rook_canAttack_iff hsrc htgt, PieceType.leaps,
    PieceType.slideSteps]
  case wBishop | bBishop => simp [Piece.canAttack, bishop_canAttack_iff hsrc htgt, PieceType.leaps,
    PieceType.slideSteps]
  case empty => simp [Piece.canAttack, PieceType.leaps, PieceType.slideSteps]
  case wPawn =>
    simp [Piece.canAttack, WPawn.canAttack, Piece.row, Piece.col, PieceType.leaps,
      PieceType.slideSteps]
    omega
  case bPawn =>
    simp [Piece.canAttack, BPawn.canAttack, Piece.row, Piece.col, PieceType.leaps,
      PieceType.slideSteps]
    omega

/-! ## How attacks change with the board -/

section Change
variable {type : PieceType} {b b' : Board} {src tgt : Position}

/-- More free squares, more attacks. -/
theorem canAttack_mono (hsrc : isValidPosition src = true) (htgt : isValidPosition tgt = true)
    (hfree : ∀ sq, b.Free sq → b'.Free sq)
    (h : Piece.canAttack ⟨type, src⟩ b tgt = true) :
    Piece.canAttack ⟨type, src⟩ b' tgt = true := by
  rw [canAttack_iff hsrc htgt] at h ⊢
  rcases h with h | ⟨step, hstep, h⟩
  · exact Or.inl h
  · exact Or.inr ⟨step, hstep, h.mono hfree⟩

/-- **A discovered attack**: an attack that one board has and another has not is
along a line that passes through a square only the first has free. -/
theorem canAttack_opened (hsrc : isValidPosition src = true) (htgt : isValidPosition tgt = true)
    (h : Piece.canAttack ⟨type, src⟩ b' tgt = true)
    (hn : ¬ Piece.canAttack ⟨type, src⟩ b tgt = true) :
    ∃ step ∈ type.slideSteps, ∃ k j : ℕ, 0 < j ∧ j < k ∧ tgt = src + k • step ∧
      b'.Free (src + j • step) ∧ ¬ b.Free (src + j • step) ∧
      ∀ i : ℕ, 0 < i → i < k → b'.Free (src + i • step) := by
  rw [canAttack_iff hsrc htgt] at h hn
  rcases h with h | ⟨step, hstep, h⟩
  · exact absurd (Or.inl h) hn
  · have hn' : ¬ Sees b.Free src step tgt := fun hs => hn (Or.inr ⟨step, hstep, hs⟩)
    obtain ⟨k, j, hj, hjk, htgt', hf, hnf, hall⟩ := h.blocked hn'
    exact ⟨step, hstep, k, j, hj, hjk, htgt', hf, hnf, hall⟩

end Change

end Chess
