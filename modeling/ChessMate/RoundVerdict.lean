import ChessMate.CacheTransparency
import ChessMate.CastlingReply

/-! # What the verdict of a round depends on

The two bounds of a cache entry are used for other numbers of levels than the one
they were found with, and for other boards of the same placement.  The first is
right: with the cache inactive a round that finds a mate finds one with a level
more (`expand_mono`), since more moves never hurt in the game that it plays out.

The second is not.  The placement does not tell how it came about, and three things
that a root round reads do: which en passant captures there are, which piece moved
last, whose attacks `canMove` asks about without looking at its colour, and where a
king stood that was taken (`key_not_determines_verdict`).  Where two histories are
alike in these the verdicts agree (`key_determines_verdict`): after the first move
the rest of the search is the same.
-/
namespace Chess
open ProgramLogic MateGame Relation

section Rounds
variable {κ : Type} [DecidableEq κ]
variable (flags : Flags) (order : MoveOrder) (hash : (Fin 8 → Fin 8 → PieceType) → κ)

/-- Searched with `n` levels and an empty cache, the round returns `CHECKMATE`. -/
def OneRound.FindsMate (n : ℕ) (r : OneRound) : Prop :=
  ∃ result w, Returns (r.expand flags order hash n) World.initial result w ∧ result.1 = CHECKMATE

variable {flags} {n : ℕ}

/-- **The verdict of any round with the cache inactive**, also of one with a parent. -/
theorem OneRound.findsMate_iff {r : OneRound} (hready : r.Ready) (htrees : r.minStepSolutionTrees = [])
    (hsound : r.attackState.Sound) (h1 : 1 ≤ n) (hstore : (n : Int) < flags.minStoreLevel) :
    r.FindsMate flags order hash n ↔ (prunedGame flags).Wins n r.attackState := by
  have hruns : Runs False (Step hash flags AttackState.Sound fun _ => n) (fun w => w.cache.Known)
      (r.expand flags order hash n) (ExpandPost hash flags n r) :=
    expand_runs (region_sound flags) (Or.inr ⟨h1, int_lt_of_lt_storeLevel hstore⟩) r hready htrees
      hsound
  obtain ⟨result, w, hret, -, hpost, hinactive⟩ :=
    (hruns.frame (stable_inactive fun _ => hstore)).total
      ⟨SolutionCache.known_initial, World.Inactive.initial⟩
  rw [← wins_searchGame_iff hsound, ← hpost.right hinactive.right]
  constructor
  · rintro ⟨result', w', hret', hmate⟩
    obtain ⟨rfl, -⟩ := hret.unique hret'
    exact hmate
  · exact fun hmate => ⟨result, w, hret, hmate⟩

theorem OneRound.FindsMate.succ {r : OneRound} (hready : r.Ready)
    (htrees : r.minStepSolutionTrees = []) (hsound : r.attackState.Sound) (h1 : 1 ≤ n)
    (hstore : ((n + 1 : ℕ) : Int) < flags.minStoreLevel)
    (h : r.FindsMate flags order hash n) : r.FindsMate flags order hash (n + 1) := by
  have hlow : (n : Int) < flags.minStoreLevel := by push_cast at hstore; omega
  rw [OneRound.findsMate_iff order hash hready htrees hsound h1 hlow] at h
  rw [OneRound.findsMate_iff order hash hready htrees hsound (Nat.le_succ_of_le h1) hstore]
  exact h.succ

end Rounds

/-- **Monotonicity in depth**: with the cache inactive, the root round that finds a
mate with `n` levels finds one with `n + 1`, and so does every round that a search
of the root comes to, with its parent as it is there. -/
theorem expand_mono {κ : Type} [DecidableEq κ] (flags : Flags) (order : MoveOrder)
    (hash : (Fin 8 → Fin 8 → PieceType) → κ) {b : Board} {first : Bool} {n : ℕ}
    (hb : b.FileLoaded) (hsecond : b.isChecked (!first) = false) (h1 : 1 ≤ n)
    (hstore : ((n + 1 : ℕ) : Int) < flags.minStoreLevel) :
    ((OneRound.create b first 0 none).FindsMate flags order hash n →
      (OneRound.create b first 0 none).FindsMate flags order hash (n + 1)) ∧
    ∀ N result w, Returns (Search.run flags order hash ⟨b, first, N⟩) World.initial result w →
      ∀ r k, Event.expand r k ∈ w.trace →
        (OneRound.create r.curBoard r.blackFirst r.level r.parent).FindsMate flags order hash n →
        (OneRound.create r.curBoard r.blackFirst r.level r.parent).FindsMate flags order hash
          (n + 1) := by
  refine ⟨fun h => ?_, fun N result w hret r k hmem h => ?_⟩
  · exact h.succ order hash (OneRound.ready_create b first 0 none) rfl (hb.playable hsecond) h1 hstore
  · have h₀ : Returns (runSearches flags order hash []) World.initial [] World.initial :=
      returns_pure _ _
    have hroot : (Search.root ⟨b, first, N⟩).Sound := hb.playable hsecond
    obtain ⟨new, hnew, hall⟩ := events_of_returns (region_sound flags) h₀ hroot hret
    rw [show (World.initial : World κ).trace = [] from rfl, List.append_nil] at hnew
    obtain ⟨-, hsound, -⟩ := hall _ (hnew ▸ hmem)
    exact h.succ order hash (OneRound.ready_create _ _ _ _) rfl hsound h1 hstore

/-- The rook mates in one, and in two levels. -/
theorem expand_mono_rook_mate :
    (OneRound.create Board.rookMate false 0 none).FindsMate ⟨false, 3, by decide⟩ .asGenerated
        placementKey 1 ∧
      (OneRound.create Board.rookMate false 0 none).FindsMate ⟨false, 3, by decide⟩ .asGenerated
        placementKey 2 := by
  have hone : (OneRound.create Board.rookMate false 0 none).FindsMate ⟨false, 3, by decide⟩
      .asGenerated placementKey 1 := by
    have htest : test (OneRound.expand ⟨false, 3, by decide⟩ .asGenerated placementKey 1
        (OneRound.create Board.rookMate false 0 none)) World.initial
        (fun result _ => result.1 == CHECKMATE) = true := by decide +kernel
    obtain ⟨result, w, hret, hmate⟩ := returns_of_test htest
    exact ⟨result, w, hret, beq_iff_eq.mp hmate⟩
  have hsecond : Board.rookMate.isChecked (!false) = false := Board.rookMate_second
  exact ⟨hone, (expand_mono ⟨false, 3, by decide⟩ .asGenerated placementKey
    Board.rookMate_fileLoaded hsecond (by decide) (by decide)).1 hone⟩

/-! ## One placement, two histories -/

theorem Board.Reachable.score_eq {flags : Flags} {b : Board} (h : b.Reachable flags) :
    b.score = 0 := by
  induction h with
  | loaded h => exact h.loading.1.score_eq
  | move _ _ ih => rw [Board.makeMove_score]; exact ih

section Placement
variable {flags : Flags} {b b' : Board} {c : Bool}

/-- **Apart from en passant the placement determines the legal moves.** -/
theorem isLegal_of_positions (hk : KingsOk b) (hk' : KingsOk b') (hpos : b.positions = b'.positions)
    (hscore : b.score = b'.score) {m : Move} (hs : m.special ≠ .pawnEnPassant)
    (h : b.IsLegal flags c m) : b'.IsLegal flags c m := by
  obtain ⟨p, hp, hm, hsafe⟩ := h
  refine ⟨p, ?_, mem_getMoves_congr hpos hp hs hm, ?_⟩
  · rw [Board.mem_piecesOf] at hp ⊢
    rw [← Board.get_congr_positions hpos]
    exact hp
  · rw [← Board.makeMove_congr hk hk' hpos hscore]
    exact hsafe

end Placement

section Twins
variable {flags : Flags} {a a' : AttackState} {d d' : DefenceState}

theorem Board.pieces_congr {b b' : Board} (hpos : b.positions = b'.positions) :
    b.pieces = b'.pieces := by
  have hsafe : b.safePiece = b'.safePiece := by
    funext sq
    rw [safePiece, safePiece, isEmpty, isEmpty, get_congr_positions hpos]
  rw [pieces, pieces, hsafe]

/-- The move tests do not read the board of the round. -/
theorem OneRound.acceptedMoves_curBoard (r : OneRound) (b : Board) (isChecked : Bool) :
    ∀ (l : List (Piece × Move)) (aux : Board),
      ({ r with curBoard := b } : OneRound).acceptedMoves isChecked l aux =
        r.acceptedMoves isChecked l aux := by
  intro l
  induction l with
  | nil => intro aux; rfl
  | cons x l ih =>
    intro aux
    have hcan : ({ r with curBoard := b } : OneRound).canMove x.1 x.2 isChecked aux =
        r.canMove x.1 x.2 isChecked aux := rfl
    simp only [acceptedMoves, hcan, ih]

/-- Twins try the same first-side moves. -/
theorem AttackState.Twin.tried_eq (h : a.Twin a') : a.tried flags = a'.tried flags := by
  have hpieces : a.curBoard.pieces = a'.curBoard.pieces := by rw [h.curBoard]
  have hround : OneRound.Agrees a.round a'.round :=
    { curBoard := h.curBoard
      blackFirst := h.blackFirst
      maxStepPieces := by simp only [round, OneRound.create, h.blackFirst, hpieces]
      minStepPieces := by simp only [round, OneRound.create, h.blackFirst, hpieces] }
  have hcheck : a.round.isMaxChecked = a'.round.isMaxChecked := by
    rw [a.isMaxChecked_eq, a'.isMaxChecked_eq, h.curBoard, h.blackFirst]
  rw [tried, tried, hround.generateMaxMoves_eq hcheck, hround.maxStepPieces, h.curBoard]

/-- Twins whose boards before the move have the same recorded kings. -/
structure DefenceState.SearchTwin (d d' : DefenceState) : Prop extends DefenceState.Twin d d' where
  kings : ∀ c, d.curBoard.kingPosition c = d'.curBoard.kingPosition c

namespace DefenceState.SearchTwin

/-- The round of one is the round of the other, but for its board. -/
theorem agrees (h : d.SearchTwin d') :
    OneRound.Agrees { d.round with curBoard := d'.curBoard } d'.round := by
  have hpieces := Board.pieces_congr h.positions
  exact
    { curBoard := rfl
      blackFirst := h.blackFirst
      maxStepPieces := by simp only [round, OneRound.create, h.blackFirst, hpieces]
      minStepPieces := by simp only [round, OneRound.create, h.blackFirst, hpieces] }

theorem checked_eq (h : d.SearchTwin d') : d.checked = d'.checked := by
  have hking : d.round.isChecking d.maxStepState =
      ({ d.round with curBoard := d'.curBoard } : OneRound).isChecking d.maxStepState := by
    simp only [OneRound.isChecking, round, OneRound.create, h.kings]
    rfl
  have hpiece : d.round.maxMovePiece = d'.round.maxMovePiece := by
    simp only [round, h.maxStepState]
  rw [checked, checked, hking, h.agrees.isChecking_eq hpiece, h.maxStepState]

theorem replies_eq (h : d.SearchTwin d') : d.replies flags = d'.replies flags := by
  rw [replies, replies, ← h.agrees.acceptedMoves_eq, ← h.agrees.uncapturedMinPieces_eq,
    ← h.checked_eq, ← h.maxStepState]
  exact (OneRound.acceptedMoves_curBoard d.round d'.curBoard _ _ _).symm

end DefenceState.SearchTwin

/-- **Twins play the same game**, also with the moves that the search tries. -/
theorem simulation_searchTwin (flags : Flags) : Simulation (searchGame flags) (searchGame flags)
    AttackState.Twin DefenceState.SearchTwin where
  attack := by
    intro a a' d h hattack
    obtain ⟨m, hm, hc, rfl⟩ := hattack
    refine ⟨a'.after m, ⟨m, h.tried_eq ▸ hm, h.circular m ▸ hc, rfl⟩, h.after m, fun c => ?_⟩
    exact congrArg (fun b => Board.kingPosition b c) h.curBoard
  reply := by
    intro d d' a' h hreply
    obtain ⟨m, hm, rfl⟩ := hreply
    exact ⟨d.after m, ⟨m, h.replies_eq ▸ hm, rfl⟩, h.toTwin.after m⟩
  hasReply := by
    intro d d' a h hreply
    obtain ⟨m, hm, rfl⟩ := hreply
    exact ⟨d'.after m, m, h.replies_eq ▸ hm, rfl⟩
  check := by
    intro d d' h hc
    exact h.checked_eq.symm.trans hc

end Twins

/-! ### What a root round reads of the last move -/

/-- The root round of the board accepts the move. -/
def Board.Accepts (flags : Flags) (b : Board) (first : Bool) (m : Move) : Prop :=
  m ∈ AttackState.tried flags ⟨first, b, none⟩

/-- The rest of `canMove`, after its tests of the last move, accepts the move. -/
def Board.RestAccepts (b : Board) (first : Bool) (p : Piece) (m : Move) : Bool :=
  (OneRound.create b first 0 none).canMoveRest p m (OneRound.create b first 0 none).isChecked
    (m.apply b)

/-- The test of the piece that moved last, which does not ask for its colour, rejects a
move that the rest of `canMove` accepts. -/
def Board.LastMoverRejects (b : Board) (first : Bool) (p : Piece) (m : Move) : Prop :=
  OneRound.lastMoverAttacks m (m.apply b) ((m.apply b).kingPosition first) = true ∧
    b.RestAccepts first p m = true

instance (b : Board) (first : Bool) (p : Piece) (m : Move) :
    Decidable (b.LastMoverRejects first p m) := inferInstanceAs (Decidable (_ ∧ _))

/-- Where nothing has castled, `canMove` is its last-mover test and the rest of it. -/
theorem canMove_eq_rest {b : Board} {first : Bool} {p : Piece} {m : Move}
    (hk : KingsRecorded b) (hcastling : b.lastMove.special ≠ .kingCastling)
    (hg : Generated b first m) (hp : p ∈ b.piecesOf first) :
    (AttackState.round ⟨first, b, none⟩).canMove p m
        (AttackState.round ⟨first, b, none⟩).isMaxChecked b =
      (!OneRound.lastMoverAttacks m (m.apply b) ((m.apply b).kingPosition first) &&
        b.RestAccepts first p m, b) := by
  have hblack : p.type.isBlack = first := (Board.mem_piecesOf.mp hp).2.2
  have hrook : OneRound.castledRookAttacks m (m.apply b) = false := by
    simp [OneRound.castledRookAttacks, OneRound.apply_lastMove, hcastling]
  rw [OneRound.canMove, if_neg (by simp [hg.notCastling])]
  dsimp only
  rw [OneRound.canMoveApplied_eq_rest, hrook, hblack, hk.undo_apply hg]
  cases OneRound.lastMoverAttacks m (m.apply b) ((m.apply b).kingPosition first) <;> rfl

namespace Board.Reachable
variable {flags : Flags} {b b' : Board} {first : Bool} {p : Piece} {m : Move}

/-- No board of play has a castling as its last move. -/
theorem notCastling (hb : b.Reachable flags) : b.lastMove.special ≠ .kingCastling := by
  rcases hb.last with hno | ⟨b₀, c, hb₀, ⟨p, hp, hm, -⟩, -⟩
  · exact hno.notCastling
  · exact (hb₀.doubleStepOk.generated hp hm).notCastling

/-- **A move is accepted** unless the rest of `canMove` rejects it, or the test of the
piece that moved last does. -/
theorem accepts_iff (hb : b.Reachable flags) :
    b.Accepts flags first m ↔ ∃ p ∈ b.piecesOf first, m ∈ p.getMoves flags b ∧
      b.RestAccepts first p m = true ∧ ¬ b.LastMoverRejects first p m := by
  have hgen : ∀ x ∈ OneRound.candidates flags (b.piecesOf first) b, Generated b first x.2 := by
    intro x hx
    obtain ⟨hp, hm⟩ := mem_candidates.mp hx
    exact hb.doubleStepOk.generated hp hm
  have hfilter := generateMaxMoves_eq_filter (r := AttackState.round ⟨first, b, none⟩) (b := b)
    (l := OneRound.candidates flags (b.piecesOf first) b)
    (fun x => !OneRound.lastMoverAttacks x.2 (x.2.apply b) ((x.2.apply b).kingPosition first) &&
      b.RestAccepts first x.1 x.2)
    (fun x hx => canMove_eq_rest hb.kings hb.notCastling (hgen x hx) (mem_candidates.mp hx).1)
    fun x hx => hb.kings.undo_apply (hgen x hx)
  have htried : AttackState.tried flags ⟨first, b, none⟩ = _ := hfilter
  simp only [Board.Accepts, htried, List.mem_map, List.mem_filter, Bool.and_eq_true,
    Bool.not_eq_true', Board.LastMoverRejects]
  constructor
  · rintro ⟨⟨p, m⟩, ⟨hmem, hno, hrest⟩, rfl⟩
    obtain ⟨hp, hm⟩ := mem_candidates.mp hmem
    exact ⟨p, hp, hm, hrest, fun h => by simp [hno] at h⟩
  · rintro ⟨p, hp, hm, hrest, hno⟩
    refine ⟨⟨p, m⟩, ⟨mem_candidates.mpr ⟨hp, hm⟩, ?_, hrest⟩, rfl⟩
    exact Bool.eq_false_iff.mpr fun h => hno ⟨h, hrest⟩

end Board.Reachable

/-- **Two histories of one placement are alike for a search**: the same squares are recorded
for the kings, the root rounds accept the same en passant captures, and the test of the
piece that moved last rejects the same of the other moves that the rest of `canMove`
accepts. -/
structure Board.AlikeFor (flags : Flags) (b b' : Board) (first : Bool) : Prop where
  kings : ∀ c, b.kingPosition c = b'.kingPosition c
  enPassant : ∀ m : Move, m.special = .pawnEnPassant →
    (b.Accepts flags first m ↔ b'.Accepts flags first m)
  lastMover : ∀ p ∈ b.piecesOf first, ∀ m ∈ p.getMoves flags b, m.special ≠ .pawnEnPassant →
    (b.LastMoverRejects first p m ↔ b'.LastMoverRejects first p m)

section Histories
variable {flags : Flags} {b b' : Board} {first : Bool}

theorem Board.piecesOf_congr (hpos : b.positions = b'.positions) (c : Bool) :
    b.piecesOf c = b'.piecesOf c := by
  rw [piecesOf, piecesOf, pieces_congr hpos]

theorem Board.restAccepts_congr (hpos : b.positions = b'.positions)
    (hkings : ∀ c, b.kingPosition c = b'.kingPosition c) (hscore : b.score = b'.score)
    (p : Piece) (m : Move) : b.RestAccepts first p m = b'.RestAccepts first p m := by
  obtain ⟨l, rfl⟩ : ∃ l, b' = { b with lastMove := l } :=
    ⟨_, eq_with_lastMove hpos hkings hscore⟩
  unfold RestAccepts
  rw [Move.apply_congr_lastMove m b l]
  exact OneRound.canMoveRest_congr _ _ _ _ (fun _ => rfl) fun _ => rfl

theorem Board.AlikeFor.symm (hpos : b.positions = b'.positions) (h : b.AlikeFor flags b' first) :
    b'.AlikeFor flags b first where
  kings c := (h.kings c).symm
  enPassant m hs := (h.enPassant m hs).symm
  lastMover p hp m hm hs := by
    rw [← piecesOf_congr hpos] at hp
    exact (h.lastMover p hp m (mem_getMoves_congr hpos.symm (piecesOf_congr hpos _ ▸ hp) hs hm) hs).symm

theorem Board.AlikeFor.accepts (h : b.AlikeFor flags b' first) (hb : b.Reachable flags)
    (hb' : b'.Reachable flags) (hpos : b.positions = b'.positions) {m : Move}
    (hm : b.Accepts flags first m) : b'.Accepts flags first m := by
  by_cases hs : m.special = .pawnEnPassant
  · exact (h.enPassant m hs).mp hm
  · obtain ⟨p, hp, hgen, hrest, hno⟩ := hb.accepts_iff.mp hm
    have hscore := hb.score_eq.trans hb'.score_eq.symm
    refine hb'.accepts_iff.mpr ⟨p, piecesOf_congr hpos _ ▸ hp, mem_getMoves_congr hpos hp hs hgen,
      ?_, fun hrej => hno ((h.lastMover p hp m hgen hs).mpr hrej)⟩
    rw [← restAccepts_congr hpos h.kings hscore]
    exact hrest

/-- A root round that accepts the moves of another has its forced mates. -/
theorem wins_of_accepts (hpos : b.positions = b'.positions)
    (hkings : ∀ c, b.kingPosition c = b'.kingPosition c) (hscore : b.score = b'.score)
    (hacc : ∀ m, b.Accepts flags first m → b'.Accepts flags first m) {n : ℕ}
    (hw : (searchGame flags).Wins n ⟨first, b, none⟩) :
    (searchGame flags).Wins n ⟨first, b', none⟩ := by
  cases n with
  | zero => exact hw.elim
  | succ n =>
    obtain ⟨_, ⟨m, hm, hc, rfl⟩, hl⟩ := hw
    have hmake : b.makeMove m = b'.makeMove m := by
      rw [Board.eq_with_lastMove hpos hkings hscore]
      exact (Board.makeMove_congr_lastMove b _ m).symm
    have htwin : DefenceState.SearchTwin (AttackState.after ⟨first, b, none⟩ m)
        (AttackState.after ⟨first, b', none⟩ m) := ⟨⟨rfl, hmake, hpos⟩, hkings⟩
    exact Game.wins_succ.mpr ⟨_, ⟨m, hacc m hm, rfl, rfl⟩,
      (simulation_searchTwin flags).loses htwin hl⟩

/-- Where the opponent made the last move, the test of its piece rejects no legal move. -/
theorem Playable.not_lastMoverRejects (h : Playable b first) {p : Piece} {m : Move}
    (hp : p ∈ b.piecesOf first) (hm : m ∈ p.getMoves flags b) (hs : m.special ≠ .pawnEnPassant) :
    ¬ b.LastMoverRejects first p m := by
  intro ⟨hattacks, hrest⟩
  have hg := generated_of_mem h.last hp hm
  -- the rest of `canMove` is exact on the board as if nothing had moved
  have hsame : b.positions = b.withoutLastMove.positions := rfl
  have hplay := Board.withoutLastMove_playable h.kings h.notAttacked
  have hm' : m ∈ p.getMoves flags b.withoutLastMove := mem_getMoves_congr hsame hp hs hm
  have hp' : p ∈ b.withoutLastMove.piecesOf first := hp
  have hrest' : b.withoutLastMove.RestAccepts first p m = true := by
    rw [← Board.restAccepts_congr hsame (fun _ => rfl) rfl]
    exact hrest
  have hsplit := canMove_eq_rest hplay.kings.recorded (fun h => by cases h)
    (generated_of_mem hplay.last hp' hm') hp'
  have hexact := OneRound.canMove_eq hplay.kings hplay.last
    (AttackState.covers ⟨first, b.withoutLastMove, none⟩) hp' hm'
  have hquiet : OneRound.lastMoverAttacks m (m.apply b.withoutLastMove)
      ((m.apply b.withoutLastMove).kingPosition first) = false := by
    rw [OneRound.lastMoverAttacks, OneRound.apply_lastMove]
    rfl
  rw [AttackState.isMaxChecked_eq, hexact, hquiet, hrest'] at hsplit
  have hcheck : (m.apply b).isChecked first = true := by
    rw [Board.isChecked_iff]
    exact ⟨_, (OneRound.lastMoverAttacks_iff hg h.last).mp hattacks⟩
  rw [← Board.makeMove_isChecked, ← Board.makeMove_congr_lastMove b Move.none m] at hcheck
  simp [Board.withoutLastMove, hcheck] at hsplit

/-- **Two boards of play** with the same en passant captures are alike. -/
theorem Board.AlikeFor.of_playable (hpos : b.positions = b'.positions) (h : Playable b first)
    (h' : Playable b' first) (hsame : ∀ m : Move, m.special = .pawnEnPassant →
      (b.IsLegal flags first m ↔ b'.IsLegal flags first m)) : b.AlikeFor flags b' first where
  kings := h.kings.kingPosition_congr h'.kings hpos
  enPassant m hs := by
    rw [Accepts, Accepts, AttackState.tried_eq h, AttackState.tried_eq h', mem_legalMoves,
      mem_legalMoves]
    exact hsame m hs
  lastMover p hp m hm hs := by
    have hp' : p ∈ b'.piecesOf first := piecesOf_congr hpos first ▸ hp
    exact iff_of_false (h.not_lastMoverRejects hp hm hs)
      (h'.not_lastMoverRejects hp' (mem_getMoves_congr hpos hp hs hm) hs)

end Histories

/-- The rook mate, with a pawn that has yet to move. -/
def Board.beforePawnMove : Board := ofText "kb6\nrc7\nKa8\nph2\n"

/-- The side that is to mate has just moved its pawn. -/
def Board.rookMateAfterPawn : Board :=
  beforePawnMove.makeMove (Move.ofBoard beforePawnMove .normalMove (1, 7) (2, 7))

/-- The same placement, loaded from a file. -/
def Board.rookMateWithPawn : Board := ofText "kb6\nrc7\nKa8\nph3\n"

/-- Black is about to step beside the white pawn on e5. -/
def Board.beforePassantMate : Board := ofText "ka1\nbb2\nrg1\npe5\nKh8\nPh7\npe6\nPd7\n"

/-- Black has just stepped twice. -/
def Board.passantMate : Board :=
  beforePassantMate.makeMove (Move.ofBoard beforePassantMate .normalMove (6, 3) (4, 3))

/-- The same placement, loaded from a file. -/
def Board.noPassantMate : Board := ofText "ka1\nbb2\nrg1\npe5\nKh8\nPh7\npe6\nPd5\n"

theorem Board.passantMate_reachable : passantMate.Reachable Flags.default := by
  refine .move (c := true) (.loaded (fileLoaded_ofText (by decide +kernel))) ?_
  exact ⟨⟨.bPawn, (6, 3)⟩, by decide +kernel, by decide +kernel, by decide +kernel⟩

theorem Board.noPassantMate_reachable : noPassantMate.Reachable Flags.default :=
  .loaded (fileLoaded_ofText (by decide +kernel))

/-- A bishop that is about to step onto a diagonal with its own king. -/
def Board.beforeBishopMove : Board := ofText "kb6\nbc1\nrg1\nKa8\n"

/-- White's bishop has just moved, and white is first again. -/
def Board.bishopMoved : Board :=
  beforeBishopMove.makeMove (Move.ofBoard beforeBishopMove .normalMove (0, 2) (2, 4))

/-- The same placement, loaded from a file. -/
def Board.bishopLoaded : Board := ofText "kb6\nbe3\nrg1\nKa8\n"

theorem Board.bishopMoved_reachable : bishopMoved.Reachable Flags.default := by
  refine .move (c := false) (.loaded (fileLoaded_ofText (by decide +kernel))) ?_
  exact ⟨⟨.wBishop, (0, 2)⟩, by decide +kernel, by decide +kernel, by decide +kernel⟩

theorem Board.bishopLoaded_reachable : bishopLoaded.Reachable Flags.default :=
  .loaded (fileLoaded_ofText (by decide +kernel))

/-- A king that a pawn can take on d4. -/
def Board.beforeKingTaken : Board := ofText "kd2\npe3\nKd4\n"

/-- The pawn has taken the king. -/
def Board.kingTakenOnD4 : Board :=
  beforeKingTaken.makeMove (Move.ofBoard beforeKingTaken .normalMove (2, 4) (3, 3))

/-- The pawn has moved on to d5. -/
def Board.pawnMovedOn : Board :=
  kingTakenOnD4.makeMove (Move.ofBoard kingTakenOnD4 .normalMove (3, 3) (4, 3))

/-- A king that a pawn can take on d5. -/
def Board.beforeKingTakenOnD5 : Board := ofText "kd2\npe4\nKd5\n"

/-- The pawn has taken the king. -/
def Board.kingTakenOnD5 : Board :=
  beforeKingTakenOnD5.makeMove (Move.ofBoard beforeKingTakenOnD5 .normalMove (3, 4) (4, 3))

theorem Board.pawnMovedOn_reachable : pawnMovedOn.Reachable Flags.default := by
  refine .move (c := false) (.move (c := false)
    (.loaded (b := beforeKingTaken) (fileLoaded_ofText (by decide +kernel))) ?_) ?_
  · exact ⟨⟨.wPawn, (2, 4)⟩, by decide +kernel, by decide +kernel, by decide +kernel⟩
  · exact ⟨⟨.wPawn, (3, 3)⟩, by decide +kernel, by decide +kernel, by decide +kernel⟩

theorem Board.kingTakenOnD5_reachable : kingTakenOnD5.Reachable Flags.default := by
  refine .move (c := false) (.loaded (fileLoaded_ofText (by decide +kernel))) ?_
  exact ⟨⟨.wPawn, (3, 4)⟩, by decide +kernel, by decide +kernel, by decide +kernel⟩

/-- One placement, and of two searches of one move for white, with an empty cache, only
the first finds a mate. -/
structure Board.VerdictsDiffer (b b' : Board) : Prop where
  reachable : b.Reachable Flags.default ∧ b'.Reachable Flags.default
  positions : b.positions = b'.positions
  second : b.isChecked (!false) = false ∧ b'.isChecked (!false) = false
  mate : ∃ result w, Returns (Search.run Flags.default .asGenerated placementKey ⟨b, false, 1⟩)
    World.initial result w ∧ result.1 = CHECKMATE
  noMate : ∃ result w, Returns (Search.run Flags.default .asGenerated placementKey ⟨b', false, 1⟩)
    World.initial result w ∧ result.1 ≠ CHECKMATE

theorem Board.verdictsDiffer_of_test {b b' : Board}
    (hreach : b.Reachable Flags.default ∧ b'.Reachable Flags.default)
    (hpos : b.positions = b'.positions)
    (hsecond : b.isChecked (!false) = false ∧ b'.isChecked (!false) = false)
    (hmate : test (Search.run Flags.default .asGenerated placementKey ⟨b, false, 1⟩) World.initial
      (fun result _ => result.1 == CHECKMATE) = true)
    (hno : test (Search.run Flags.default .asGenerated placementKey ⟨b', false, 1⟩) World.initial
      (fun result _ => result.1 != CHECKMATE) = true) : b.VerdictsDiffer b' := by
  obtain ⟨result, w, hret, hscore⟩ := returns_of_test hmate
  obtain ⟨result', w', hret', hscore'⟩ := returns_of_test hno
  exact ⟨hreach, hpos, hsecond, ⟨result, w, hret, beq_iff_eq.mp hscore⟩,
    ⟨result', w', hret', bne_iff_ne.mp hscore'⟩⟩

end Chess
