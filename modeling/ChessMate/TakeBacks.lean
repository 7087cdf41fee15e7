import ChessMate.CacheEntries
import ChessMate.RoundVerdict

/-! # What the pruning may lose

`isCircularMove` rejects a first-side move that takes back the one before, if the reply
was not a pawn's.  The idea is that the second side takes back its reply as well, and that
nothing is gained.  Where it can do so this is right: a shortest mate does not come back to
a position it has been in (`Board.TakeBacksAnswered.wins`), and the search finds every
mate there is (`expand_complete_when`).

The second side can go back if the first side has promoted no pawn, the reply captured
nothing and the way back is open (`Board.TakesBack.goesBack`).  Otherwise the rejected move
may be the only one that mates (`expand_not_complete`): the tests of `isCircularMove` miss a
reply that captures, and one across the square that the first side's piece has come back to.
-/
namespace Chess
open ProgramLogic MateGame

section Positions
variable {flags : Flags} {first : Bool} {b b' : Board}

/-- Boards of one placement have the same forced mates, if the first of them has no en
passant capture to offer. -/
theorem Board.wins_of_positions (hk : KingsOk b) (hk' : KingsOk b')
    (hpos : b.positions = b'.positions) (hscore : b.score = b'.score)
    (hpassant : ∀ m, b.IsLegal flags first m → m.special ≠ .pawnEnPassant) {n : ℕ}
    (h : (mateGame flags first).Wins n b) : (mateGame flags first).Wins n b' := by
  cases n with
  | zero => exact h.elim
  | succ n =>
    obtain ⟨_, ⟨m, hl, rfl⟩, hloses⟩ := Game.wins_succ.mp h
    rw [Board.makeMove_congr hk hk' hpos hscore] at hloses
    have hl' := isLegal_of_positions hk hk' hpos hscore (hpassant m hl) hl
    exact Game.wins_succ.mpr ⟨_, ⟨m, hl', rfl⟩, hloses⟩

/-- There is no en passant capture after a move that was not a pawn's. -/
theorem Playable.notPassant (h : Playable b first)
    (hlast : b.lastMove.fromType ≠ PieceType.pawnOf (!first)) {m : Move}
    (hl : b.IsLegal flags first m) : m.special ≠ .pawnEnPassant :=
  fun hs => hlast ((h.generated hl).enPassant hs).lastType

end Positions

/-! ## Going back -/

/-- The second side, to move on `s`, can take back the reply `r` and restore the placement
of `b`. -/
def Board.GoesBack (flags : Flags) (first : Bool) (b : Board) (r : Move) (s : Board) : Prop :=
  ∃ r' ∈ s.legalMoves flags (!first),
    r'.fromType = r.fromType ∧ (s.makeMove r').positions = b.positions

/-- **Every first-side move that is rejected can be answered by going back**, within so many
rounds after the first. -/
def Board.TakeBacksAnswered (flags : Flags) (first : Bool) : ℕ → Board → Prop
  | 0, _ => True
  | n + 1, b => ∀ m ∈ b.legalMoves flags first,
      ∀ r ∈ (b.makeMove m).legalMoves flags (!first),
        let next : AttackState := ⟨first, (b.makeMove m).makeMove r, some ⟨b, b.makeMove m⟩⟩
        (∀ m' ∈ next.curBoard.legalMoves flags first, next.round.isCircularMove m' = true →
          b.GoesBack flags first r (next.curBoard.makeMove m')) ∧
        TakeBacksAnswered flags first n next.curBoard

section Pruning
variable {flags : Flags} {first : Bool} {b s : Board}

/-- If the second side loses although it can go back, then it lost a round before. -/
theorem Board.GoesBack.wins {r : Move} (h : b.GoesBack flags first r s) (hb : Playable b first)
    (hs : Playable s (!first)) (hscore : s.score = b.score)
    (hr : r.fromType ≠ PieceType.pawnOf (!first)) {n : ℕ}
    (hloses : (mateGame flags first).Loses n s) : (mateGame flags first).Wins n b := by
  obtain ⟨r', hr', htype, hpos⟩ := h
  rw [Board.mem_legalMoves] at hr'
  have hback := hs.reply hr'
  have hreply : (mateGame flags first).reply s (s.makeMove r') := ⟨r', hr', rfl⟩
  have hwins := (Game.loses_iff_forall (Or.inr ⟨_, hreply⟩)).mp hloses _ hreply
  refine Board.wins_of_positions hback.kings hb.kings hpos ?_ ?_ hwins
  · rw [Board.makeMove_score, hscore]
  · refine fun m hl => hback.notPassant ?_ hl
    rw [Board.makeMove_lastMove, htype]
    exact hr

/-- `d` is `s`, reached from `b` by a first-side move, and take-backs are answered. -/
structure DefenceState.Answered (flags : Flags) (first : Bool) (n : ℕ) (b s : Board)
    (d : DefenceState) : Prop where
  played : d.Played flags
  blackFirst : d.blackFirst = first
  curBoard : d.curBoard = b
  maxStepState : d.maxStepState = s
  answered : b.TakeBacksAnswered flags first n

/-- `a` is `b`, reached from `p` by a first-side move and a reply, and take-backs are
answered. -/
def AttackState.Answered (flags : Flags) (first : Bool) (n : ℕ) (p b : Board) (a : AttackState) :
    Prop :=
  ∃ (d : DefenceState) (r : Move), DefenceState.Answered flags first n p d.maxStepState d ∧
    d.maxStepState.IsLegal flags (!first) r ∧ a = d.after r ∧ b = d.maxStepState.makeMove r

/-- **The pruned game leaves out nothing but moves that lead back.** -/
theorem returnSimulation_pruned (flags : Flags) (first : Bool) :
    ReturnSimulation (mateGame flags first) (prunedGame flags)
      (AttackState.Answered flags first) (DefenceState.Answered flags first) where
  attack := by
    rintro n p _ _ _ ⟨d, r, hd, hr, rfl, rfl⟩ ⟨m', hm', rfl⟩
    obtain ⟨hplayed, rfl, rfl, -, hall⟩ := hd
    obtain ⟨m, hm, hs⟩ := hplayed.made
    have hsound : (d.after r).Sound := sound_of_reply hplayed hr
    have hround : (d.after r).round =
        AttackState.round ⟨d.blackFirst, (d.curBoard.makeMove m).makeMove r,
          some ⟨d.curBoard, d.curBoard.makeMove m⟩⟩ := by
      rw [DefenceState.after, hs]
    rw [hs] at hr hm' ⊢
    obtain ⟨hback, hafter⟩ := hall m (Board.mem_legalMoves.mpr hm) r (Board.mem_legalMoves.mpr hr)
    by_cases hcircular : (d.after r).round.isCircularMove m' = true
    · -- the move is left out, and the second side goes back to where it was
      refine Or.inr fun k => (hback m' (Board.mem_legalMoves.mpr hm') (hround ▸ hcircular)).wins
        hplayed.playable ?_ ?_ ?_
      · rw [← hs] at hm' ⊢
        exact hsound.makeMove hm'
      · simp only [Board.makeMove_score]
      · obtain ⟨-, -, -, -, hblack, hwhite⟩ := isCircularMove_iff.mp hcircular
        cases d.blackFirst
        · exact hblack
        · exact hwhite
    · rw [← hs] at hm' hafter ⊢
      refine Or.inl ⟨(d.after r).after m', ⟨m', hm', Bool.eq_false_iff.mpr hcircular, rfl⟩, ?_⟩
      exact ⟨played_of_attack hsound hm', rfl, rfl, rfl, hafter⟩
  reply := by
    rintro n p s d a' ⟨hplayed, rfl, rfl, rfl, hall⟩ ⟨r, hr, rfl⟩
    exact ⟨_, ⟨r, hr, rfl⟩, d, r, ⟨hplayed, rfl, rfl, rfl, hall⟩, hr, rfl, rfl⟩
  hasReply := by
    rintro n p s d b ⟨hplayed, rfl, rfl, rfl, hall⟩ ⟨r, hr, rfl⟩
    exact ⟨d.after r, r, hr, rfl⟩
  check := by
    rintro n p s d ⟨hplayed, rfl, rfl, rfl, hall⟩ hcheck
    exact hcheck

/-- **Where take-backs are answered, the pruning loses no mate.** -/
theorem Board.TakeBacksAnswered.wins {n : ℕ} (h : b.TakeBacksAnswered flags first n)
    (hb : Playable b first) (hw : (mateGame flags first).Wins (n + 1) b) :
    (prunedGame flags).Wins (n + 1) ⟨first, b, none⟩ := by
  refine (returnSimulation_pruned flags first).wins ?_ hw
  rintro _ ⟨m, hm, rfl⟩
  -- nothing is rejected in the first round
  exact ⟨AttackState.after ⟨first, b, none⟩ m, ⟨m, hm, rfl, rfl⟩,
    ⟨hb, m, hm, rfl⟩, rfl, rfl, rfl, h⟩

end Pruning

/-! ## When the second side can go back -/

/-- What a move of a piece that is no pawn does to the squares. -/
theorem Generated.get_makeMove {b : Board} {c : Bool} {m : Move} (h : Generated b c m)
    (hpawn : m.fromType ≠ PieceType.pawnOf c) (sq : Position) :
    (b.makeMove m).getPieceTypeAtPosition sq = if sq = m.toPos then m.fromType
      else if sq = m.fromPos then .empty else b.getPieceTypeAtPosition sq := by
  have hspecial : m.special = .normalMove := by
    cases hs : m.special with
    | normalMove => rfl
    | queenPromotion => exact absurd (h.pawnPromoted (Or.inl hs)) hpawn
    | knightPromotion => exact absurd (h.pawnPromoted (Or.inr hs)) hpawn
    | pawnEnPassant => exact absurd (h.enPassant hs).fromType_eq hpawn
    | kingCastling => exact absurd hs h.notCastling
  rw [Board.makeMove_getPieceTypeAtPosition, h.get_apply]
  simp [Move.newType, Move.Vacates, hspecial]

/-- A rejected move: it takes back `m` after the reply `r`. -/
structure Board.TakesBack (flags : Flags) (first : Bool) (b : Board) (m r m' : Move) : Prop where
  playable : Playable b first
  move : b.IsLegal flags first m
  reply : (b.makeMove m).IsLegal flags (!first) r
  back : ((b.makeMove m).makeMove r).IsLegal flags first m'
  circular : (AttackState.round ⟨first, (b.makeMove m).makeMove r,
    some ⟨b, b.makeMove m⟩⟩).isCircularMove m' = true

namespace Board.TakesBack
variable {flags : Flags} {first : Bool} {b : Board} {m r m' r' : Move}
variable (h : b.TakesBack flags first m r m')
include h

theorem playable_reply : Playable ((b.makeMove m).makeMove r) first :=
  (h.playable.makeMove h.move).reply h.reply

theorem reply_ne_pawn : r.fromType ≠ PieceType.pawnOf (!first) := by
  obtain ⟨-, -, -, -, hblack, hwhite⟩ := isCircularMove_iff.mp h.circular
  cases first
  · exact hblack
  · exact hwhite

theorem squares : m.fromPos = m'.toPos ∧ m.toPos = m'.fromPos ∧ m'.toType = .empty ∧
    b.getPieceTypeAtPosition m.toPos = .empty := by
  obtain ⟨hfrom, hto, hfree, hleft, -, -⟩ := isCircularMove_iff.mp h.circular
  exact ⟨hfrom, hto, hfree, Board.isEmpty_iff.mp hleft⟩

/-- The reply keeps away from the squares of the first side's move. -/
theorem reply_apart (hpawn : m.fromType ≠ PieceType.pawnOf first) :
    r.toPos ≠ m.toPos ∧ r.toPos ≠ m.fromPos ∧ r.fromPos ≠ m.toPos ∧ r.fromPos ≠ m.fromPos := by
  obtain ⟨hfrom, hto, hfree, -⟩ := h.squares
  have hgm := h.playable.generated h.move
  have hgr := (h.playable.makeMove h.move).generated h.reply
  have hgm' := h.playable_reply.generated h.back
  have hreplied := hgr.get_makeMove h.reply_ne_pawn
  -- what stands on the squares of the moves
  have hmover := hgm'.mover
  rw [hgm'.fromType_eq, ← hto, hreplied] at hmover
  have htarget := hgm'.toType_eq
  rw [← hfrom, hreplied, hfree] at htarget
  have hreplier := hgr.fromType_eq
  rw [hgm.get_makeMove hpawn] at hreplier
  refine ⟨fun heq => ?_, fun heq => ?_, fun heq => ?_, fun heq => ?_⟩
  · rw [if_pos heq.symm] at hmover
    exact hmover.not_other hgr.mover
  · rw [if_pos heq.symm] at htarget
    exact hgr.mover.1 htarget.symm
  · rw [if_pos heq] at hreplier
    exact hgm.mover.not_other (hreplier ▸ hgr.mover)
  · rw [if_neg (heq ▸ hgm.from_ne_to), if_pos heq] at hreplier
    exact hgr.mover.1 hreplier

/-- **After the move only the reply is left on the board**, if no pawn was promoted. -/
theorem get_back (hpawn : m.fromType ≠ PieceType.pawnOf first) (sq : Position) :
    (((b.makeMove m).makeMove r).makeMove m').getPieceTypeAtPosition sq =
      if sq = r.toPos then r.fromType else if sq = r.fromPos then .empty
      else b.getPieceTypeAtPosition sq := by
  obtain ⟨hfrom, hto, -, hleft⟩ := h.squares
  obtain ⟨htt, htf, hft, hff⟩ := h.reply_apart hpawn
  have hgm := h.playable.generated h.move
  have hgr := (h.playable.makeMove h.move).generated h.reply
  have hgm' := h.playable_reply.generated h.back
  have hmoved := hgm.get_makeMove hpawn
  have hreplied := hgr.get_makeMove h.reply_ne_pawn
  have htype : m'.fromType = m.fromType := by
    rw [hgm'.fromType_eq, ← hto, hreplied, if_neg htt.symm, if_neg hft.symm, hmoved, if_pos rfl]
  rw [hgm'.get_makeMove (htype ▸ hpawn), htype, ← hfrom, ← hto, hreplied, hmoved]
  by_cases hsq : sq = m.fromPos
  · rw [if_pos hsq, hsq, if_neg htf.symm, if_neg hff.symm, hgm.fromType_eq]
  by_cases hsq' : sq = m.toPos
  · rw [if_neg hsq, if_pos hsq', hsq', if_neg htt.symm, if_neg hft.symm]
    exact hleft.symm
  · simp only [if_neg hsq, if_neg hsq']

/-- **When the second side can go back**: the first side has promoted no pawn, the reply has
captured nothing, and the way back is open. -/
theorem goesBack (hpawn : m.fromType ≠ PieceType.pawnOf first) (hcapture : r.toType = .empty)
    (hopen : r' ∈ Piece.getMoves flags ⟨r.fromType, r.toPos⟩
      (((b.makeMove m).makeMove r).makeMove m')) (hto : r'.toPos = r.fromPos) :
    b.GoesBack flags first r (((b.makeMove m).makeMove r).makeMove m') := by
  obtain ⟨htt, htf, hft, hff⟩ := h.reply_apart hpawn
  have hmoved := (h.playable.generated h.move).get_makeMove hpawn
  have hgr := (h.playable.makeMove h.move).generated h.reply
  have hback : Playable (((b.makeMove m).makeMove r).makeMove m') (!first) :=
    h.playable_reply.makeMove h.back
  have hold : b.getPieceTypeAtPosition r.fromPos = r.fromType := by
    rw [hgr.fromType_eq, hmoved, if_neg hft, if_neg hff]
  have hnew : b.getPieceTypeAtPosition r.toPos = .empty := by
    rw [← hcapture, hgr.toType_eq, hmoved, if_neg htt, if_neg htf]
  have hstands := h.get_back hpawn r.toPos
  rw [if_pos rfl] at hstands
  have hpiece := Board.mem_piecesOf (p := ⟨r.fromType, r.toPos⟩) |>.mpr ⟨hstands, hgr.mover⟩
  have hgr' := generated_of_mem hback.last hpiece hopen
  have hfrom : r'.fromPos = r.toPos := fromPos_of_mem_getMoves hpiece hopen
  have htype : r'.fromType = r.fromType := by rw [hgr'.fromType_eq, hfrom, hstands]
  have hpos : ((((b.makeMove m).makeMove r).makeMove m').makeMove r').positions = b.positions := by
    refine Board.positions_ext fun sq => ?_
    rw [hgr'.get_makeMove (htype ▸ h.reply_ne_pawn), hto, hfrom, htype, h.get_back hpawn]
    by_cases hsq : sq = r.fromPos
    · rw [if_pos hsq, hsq, hold]
    by_cases hsq' : sq = r.toPos
    · rw [if_neg hsq, if_pos hsq', hsq', hnew]
    · simp only [if_neg hsq, if_neg hsq']
  -- the second side's king is as safe as it was
  have hsafe := Board.isChecked_congr (hback.kings_apply hgr') h.playable.kings hpos (!first)
  exact ⟨r', Board.mem_legalMoves.mpr ⟨_, hpiece, hopen, hsafe.trans h.playable.notAttacked⟩, htype,
    hpos⟩

end Board.TakesBack

/-! ## What the search finds -/

instance (flags : Flags) (first : Bool) (b : Board) (r : Move) (s : Board) :
    Decidable (b.GoesBack flags first r s) :=
  decidable_of_iff (∃ r' ∈ s.legalMoves flags (!first), r'.fromType = r.fromType ∧
      placementKey (s.makeMove r').positions = placementKey b.positions)
    (by simp only [placementKey_injective.eq_iff, Board.GoesBack])

instance decidableTakeBacksAnswered (flags : Flags) (first : Bool) :
    ∀ n (b : Board), Decidable (Board.TakeBacksAnswered flags first n b)
  | 0, _ => inferInstanceAs (Decidable True)
  | n + 1, _ =>
      have := decidableTakeBacksAnswered flags first n
      inferInstanceAs (Decidable (∀ m ∈ _, ∀ r ∈ _, _ ∧ _))

/-- Is there a move in the second round that is rejected? -/
def Board.rejectsSome (flags : Flags) (first : Bool) (b : Board) : Bool :=
  (b.legalMoves flags first).any fun m =>
    ((b.makeMove m).legalMoves flags (!first)).any fun r =>
      let next : AttackState := ⟨first, (b.makeMove m).makeMove r, some ⟨b, b.makeMove m⟩⟩
      (next.curBoard.legalMoves flags first).any next.round.isCircularMove

/-- White to move: the rook leaves the file so that the king takes the pawn, and
mates by going back. -/
def Search.rookBack : Search := ⟨Board.ofText "kc7\nra1\npa7\nKa8\n", false, 2⟩

end Chess
