import ChessMate.SearchTrace

/-! # What the cache may change

The score maps are keyed by the placement of the pieces alone.  A position has
more to it: which side moves first, the last move, which decides about en
passant, and the previous round, which `isCircularMove` looks at.  Two positions
of one placement that offer the same moves (`SameMoves`) have the same forced
mates, because after one move the rest of their data is the same too
(`wins_iff`, `loses_iff`).

Each bound of an entry goes back to an `updateCache` call (`World.Justified`).
So as long as every lookup that is answered is answered from bounds that were
written for rounds with the same verdict (`World.HitsRelated`, `SameVerdict`), the
answers are right.  Rounds with the same moves are such rounds (`World.HitsSame`),
and then a sequence of searches gives what each search alone gives without a cache
(`cache_transparent`).  Nothing in the code ensures it (`cache_not_transparent`).
-/
namespace Chess
open ProgramLogic MateGame Relation

/-! ## Boards that differ in the last move -/

theorem KingsOk.kingPosition_congr {b b' : Board} (h : KingsOk b) (h' : KingsOk b')
    (hpos : b.positions = b'.positions) (c : Bool) : b.kingPosition c = b'.kingPosition c := by
  refine (h' c _).mp ?_
  rw [← Board.get_congr_positions hpos]
  exact h.get_king c

theorem Board.set_congr_lastMove (b : Board) (l : Move) (type : PieceType) (pos : Position) :
    ({ b with lastMove := l } : Board).set type pos = { b.set type pos with lastMove := l } := by
  cases type <;> rfl

theorem Move.apply_congr_lastMove (m : Move) (b : Board) (l : Move) :
    m.apply { b with lastMove := l } = { m.apply b with lastMove := l } := by
  unfold Move.apply
  cases m.special <;> simp only [Board.set_congr_lastMove, Move.setupEnPassant, Move.setupCastling]
  rfl

theorem Board.makeMove_congr_lastMove (b : Board) (l m : Move) :
    ({ b with lastMove := l } : Board).makeMove m = b.makeMove m := by
  unfold makeMove
  rw [Move.apply_congr_lastMove]

/-- Boards of one placement with the same recorded kings differ in the last move at most. -/
theorem Board.eq_with_lastMove {b b' : Board} (hpos : b.positions = b'.positions)
    (hkings : ∀ c, b.kingPosition c = b'.kingPosition c) (hscore : b.score = b'.score) :
    b' = { b with lastMove := b'.lastMove } :=
  ext_get (fun sq => (get_congr_positions hpos sq).symm) (fun c => (hkings c).symm) hscore.symm rfl

/-- A move made on two boards that differ in the last move gives one board. -/
theorem Board.makeMove_congr {b b' : Board} (h : KingsOk b) (h' : KingsOk b')
    (hpos : b.positions = b'.positions) (hscore : b.score = b'.score) (m : Move) :
    b.makeMove m = b'.makeMove m := by
  rw [eq_with_lastMove hpos (h.kingPosition_congr h' hpos) hscore]
  exact (makeMove_congr_lastMove b _ m).symm

theorem Board.isChecked_congr {b b' : Board} (h : KingsOk b) (h' : KingsOk b')
    (hpos : b.positions = b'.positions) (c : Bool) : b.isChecked c = b'.isChecked c := by
  rw [Bool.eq_iff_iff, isChecked_iff, isChecked_iff]
  simp only [canAttack_congr_positions hpos, get_congr_positions hpos,
    h.kingPosition_congr h' hpos]

/-! ## Positions that offer the same moves -/

section SameMoves
variable {flags : Flags} {a a' : AttackState} {d d' : DefenceState}

/-- The first-side moves that a search follows: legal and not rejected. -/
def AttackState.Follows (flags : Flags) (a : AttackState) (m : Move) : Prop :=
  a.curBoard.IsLegal flags a.blackFirst m ∧ a.round.isCircularMove m = false

/-- The same side moves first and has the same moves to follow. -/
structure AttackState.SameMoves (flags : Flags) (a a' : AttackState) : Prop where
  blackFirst : a.blackFirst = a'.blackFirst
  moves : ∀ m, a.Follows flags m ↔ a'.Follows flags m

/-- There are the same replies, and after each the same moves to follow. -/
structure DefenceState.SameMoves (flags : Flags) (d d' : DefenceState) : Prop where
  blackFirst : d.blackFirst = d'.blackFirst
  replies : ∀ m, d.maxStepState.IsLegal flags (!d.blackFirst) m ↔
    d'.maxStepState.IsLegal flags (!d'.blackFirst) m
  moves : ∀ m, d.maxStepState.IsLegal flags (!d.blackFirst) m →
    (d.after m).SameMoves flags (d'.after m)

theorem AttackState.SameMoves.symm (h : a.SameMoves flags a') : a'.SameMoves flags a :=
  ⟨h.blackFirst.symm, fun m => (h.moves m).symm⟩

theorem DefenceState.SameMoves.symm (h : d.SameMoves flags d') : d'.SameMoves flags d :=
  ⟨h.blackFirst.symm, fun m => (h.replies m).symm,
    fun m hm => (h.moves m ((h.replies m).mpr hm)).symm⟩

/-- The positions are the same but for parts of the parent that no test reads. -/
structure AttackState.Twin (a a' : AttackState) : Prop where
  blackFirst : a.blackFirst = a'.blackFirst
  curBoard : a.curBoard = a'.curBoard
  circular : ∀ m, a.round.isCircularMove m = a'.round.isCircularMove m

/-- The same after a move: the boards before it have one placement. -/
structure DefenceState.Twin (d d' : DefenceState) : Prop where
  blackFirst : d.blackFirst = d'.blackFirst
  maxStepState : d.maxStepState = d'.maxStepState
  positions : d.curBoard.positions = d'.curBoard.positions

theorem DefenceState.Twin.after (h : d.Twin d') (m : Move) : (d.after m).Twin (d'.after m) where
  blackFirst := h.blackFirst
  curBoard := by
    show d.maxStepState.makeMove m = d'.maxStepState.makeMove m
    rw [h.maxStepState]
  circular m' := by
    have hempty : ∀ sq, d.curBoard.isEmpty sq = d'.curBoard.isEmpty sq := by
      intro sq
      rw [Board.isEmpty, Board.isEmpty, Board.get_congr_positions h.positions]
    simp only [OneRound.isCircularMove, AttackState.round, OneRound.create, DefenceState.after,
      h.maxStepState, hempty]
    rfl

theorem AttackState.Twin.after (h : a.Twin a') (m : Move) : (a.after m).Twin (a'.after m) where
  blackFirst := h.blackFirst
  maxStepState := by
    show a.curBoard.makeMove m = a'.curBoard.makeMove m
    rw [h.curBoard]
  positions := congrArg Board.positions h.curBoard

/-- Twins play the same game. -/
theorem simulation_twin (flags : Flags) : Simulation (prunedGame flags) (prunedGame flags)
    AttackState.Twin DefenceState.Twin where
  attack := by
    rintro a a' _ h ⟨m, hl, hc, rfl⟩
    refine ⟨a'.after m, ⟨m, ?_, h.circular m ▸ hc, rfl⟩, h.after m⟩
    rw [← h.curBoard, ← h.blackFirst]
    exact hl
  reply := by
    rintro d d' _ h ⟨m, hl, rfl⟩
    refine ⟨d.after m, ⟨m, ?_, rfl⟩, h.after m⟩
    rw [h.maxStepState, h.blackFirst]
    exact hl
  hasReply := by
    rintro d d' _ h ⟨m, hl, rfl⟩
    refine ⟨d'.after m, m, ?_, rfl⟩
    rw [← h.maxStepState, ← h.blackFirst]
    exact hl
  check := by
    intro d d' h hc
    show d'.maxStepState.isChecked (!d'.blackFirst) = true
    rw [← h.maxStepState, ← h.blackFirst]
    exact hc

/-- One position, reached in two ways. -/
structure AttackState.OnePlacement (a a' : AttackState) : Prop where
  kings : KingsOk a.curBoard
  kings' : KingsOk a'.curBoard
  positions : a.curBoard.positions = a'.curBoard.positions
  score : a.curBoard.score = a'.curBoard.score

theorem AttackState.SameMoves.wins (h : a.SameMoves flags a') (hp : a.OnePlacement a') {n : ℕ}
    (hw : (prunedGame flags).Wins n a) : (prunedGame flags).Wins n a' := by
  cases n with
  | zero => exact hw.elim
  | succ n =>
    obtain ⟨_, ⟨m, hl, hc, rfl⟩, hloses⟩ := hw
    obtain ⟨hl', hc'⟩ := (h.moves m).mp ⟨hl, hc⟩
    have htwin : (a.after m).Twin (a'.after m) :=
      ⟨h.blackFirst, Board.makeMove_congr hp.kings hp.kings' hp.positions hp.score m, hp.positions⟩
    exact Game.wins_succ.mpr ⟨_, ⟨m, hl', hc', rfl⟩, (simulation_twin flags).loses htwin hloses⟩

theorem AttackState.OnePlacement.symm (h : a.OnePlacement a') : a'.OnePlacement a :=
  ⟨h.kings', h.kings, h.positions.symm, h.score.symm⟩

/-- **Positions of one placement with the same moves have the same forced mates.** -/
theorem AttackState.SameMoves.wins_iff (h : a.SameMoves flags a') (hp : a.OnePlacement a') (n : ℕ) :
    (prunedGame flags).Wins n a ↔ (prunedGame flags).Wins n a' :=
  ⟨h.wins hp, h.symm.wins hp.symm⟩

/-- The same after a first-side move, when the boards have one placement after it. -/
structure DefenceState.OnePlacement (d d' : DefenceState) : Prop where
  kings : KingsOk d.maxStepState
  kings' : KingsOk d'.maxStepState
  positions : d.maxStepState.positions = d'.maxStepState.positions
  score : d.maxStepState.score = d'.maxStepState.score

theorem DefenceState.OnePlacement.symm (h : d.OnePlacement d') : d'.OnePlacement d :=
  ⟨h.kings', h.kings, h.positions.symm, h.score.symm⟩

/-- Replies keep the kings in place. -/
def DefenceState.KeepsKings (flags : Flags) (d : DefenceState) : Prop :=
  ∀ m, d.maxStepState.IsLegal flags (!d.blackFirst) m → KingsOk (d.maxStepState.makeMove m)

theorem DefenceState.Played.keepsKings (h : d.Played flags) : d.KeepsKings flags :=
  fun _ hm => (h.playable_after.makeMove hm).kings

theorem DefenceState.SameMoves.loses (h : d.SameMoves flags d') (hp : d.OnePlacement d')
    (hk : d.KeepsKings flags) {n : ℕ} (hl : (prunedGame flags).Loses n d) :
    (prunedGame flags).Loses n d' := by
  have hmake := Board.makeMove_congr hp.kings hp.kings' hp.positions hp.score
  refine hl.carry (fun hc => ?_) ?_ ?_
  · have hc' : d.maxStepState.isChecked (!d.blackFirst) = true := hc
    rw [Board.isChecked_congr hp.kings hp.kings' hp.positions, h.blackFirst] at hc'
    exact hc'
  · rintro _ ⟨m, hm, rfl⟩
    exact ⟨d'.after m, m, (h.replies m).mp hm, rfl⟩
  · rintro _ ⟨m, hm', rfl⟩
    have hm := (h.replies m).mpr hm'
    have hboard : (d.after m).curBoard = (d'.after m).curBoard := hmake m
    have hkings : KingsOk (d'.after m).curBoard := hboard ▸ hk m hm
    exact ⟨d.after m, ⟨m, hm, rfl⟩, (h.moves m hm).wins
      ⟨hk m hm, hkings, congrArg _ hboard, congrArg _ hboard⟩⟩

/-- **The same for positions after a first-side move.** -/
theorem DefenceState.SameMoves.loses_iff (h : d.SameMoves flags d') (hp : d.OnePlacement d')
    (hd : d.Played flags) (hd' : d'.Played flags) (n : ℕ) :
    (prunedGame flags).Loses n d ↔ (prunedGame flags).Loses n d' :=
  ⟨h.loses hp hd.keepsKings, h.symm.loses hp.symm hd'.keepsKings⟩

end SameMoves

/-! ## Scores of one key -/

/-- Two rounds that a score map is asked about offer the same moves. -/
def OneRound.SameMoves (flags : Flags) (maxOrMin : Bool) (r r' : OneRound) : Prop :=
  if maxOrMin then
    ∀ s s', r.maxStepState = some s → r'.maxStepState = some s' →
      (r.defenceState s).SameMoves flags (r'.defenceState s')
  else r.attackState.SameMoves flags r'.attackState

/-- Positions of play from boards as they are loaded, without a score. -/
def AttackState.Unscored (a : AttackState) : Prop := a.Sound ∧ a.curBoard.score = 0

theorem region_unscored (flags : Flags) : Region flags AttackState.Unscored := by
  intro a ha m hm hc m' hm'
  refine ⟨region_sound flags a ha.1 m hm hc m' hm', ?_⟩
  show ((a.curBoard.makeMove m).makeMove m').score = 0
  rw [Board.makeMove_score, Board.makeMove_score]
  exact ha.2

section Keys
variable {κ : Type} {hash : (Fin 8 → Fin 8 → PieceType) → κ} {flags : Flags}

theorem OneRound.Moved.score {r : OneRound} {s : Board} (h : r.Moved flags AttackState.Unscored s) :
    s.score = 0 := by
  obtain ⟨m, -, -, hs⟩ := h.move
  rw [hs, Board.makeMove_score]
  exact h.region.2

theorem loses_searchGame_iff_pruned {d : DefenceState} (hd : d.Played flags) (n : ℕ) :
    (searchGame flags).Loses n d ↔ (prunedGame flags).Loses n d := by
  unfold Game.Loses
  rw [check_iff hd]
  simp only [reply_iff hd]
  refine or_congr Iff.rfl (and_congr Iff.rfl (forall_congr' fun a => ?_))
  refine imp_congr_right fun hr => ?_
  exact wins_searchGame_iff (sound_of_prunedReply hd hr) n

/-- **Rounds of one key with the same moves have the same verdict.** -/
theorem mates_congr (hinj : Function.Injective hash) {mm : Bool} {r r' : OneRound} {sig : κ}
    (h : About hash flags AttackState.Unscored mm r sig)
    (h' : About hash flags AttackState.Unscored mm r' sig) (hsame : r.SameMoves flags mm r')
    (height : ℕ) : Mates flags mm r height ↔ Mates flags mm r' height := by
  cases mm with
  | false =>
    obtain ⟨ha, -, hsig⟩ := h
    obtain ⟨ha', -, hsig'⟩ := h'
    have hpos : r.curBoard.positions = r'.curBoard.positions := hinj (hsig.symm.trans hsig')
    show (searchGame flags).Wins _ _ ↔ (searchGame flags).Wins _ _
    rw [wins_searchGame_iff ha.1, wins_searchGame_iff ha'.1]
    have hone : r.attackState.OnePlacement r'.attackState :=
      ⟨ha.1.kings, ha'.1.kings, hpos, ha.2.trans ha'.2.symm⟩
    exact AttackState.SameMoves.wins_iff hsame hone _
  | true =>
    obtain ⟨s, hs, hsig⟩ := h
    obtain ⟨s', hs', hsig'⟩ := h'
    have hpos : s.positions = s'.positions := hinj (hsig.symm.trans hsig')
    have hd := hs.played fun a ha => ha.1
    have hd' := hs'.played fun a ha => ha.1
    have hone : (r.defenceState s).OnePlacement (r'.defenceState s') :=
      ⟨hd.playable_after.kings, hd'.playable_after.kings, hpos, hs.score.trans hs'.score.symm⟩
    have hiff := (hsame s s' hs.maxStepState hs'.maxStepState).loses_iff hone hd hd' (height - 1)
    rw [← loses_searchGame_iff_pruned hd, ← loses_searchGame_iff_pruned hd'] at hiff
    simp only [Mates, if_true, hs.maxStepState, hs'.maxStepState, Option.some.injEq,
      exists_eq_left']
    exact hiff

theorem Mates.mono {mm : Bool} {r : OneRound} {m n : ℕ} (hmn : m ≤ n) (h : Mates flags mm r m) :
    Mates flags mm r n := by
  have hle : m - 1 ≤ n - 1 := by omega
  cases mm with
  | false => exact Game.Wins.mono hle h
  | true =>
    obtain ⟨s, hs, hl⟩ := h
    exact ⟨s, hs, hl.mono hle⟩

end Keys

/-! ## Bounds and where they come from -/

section Bounds
variable {κ : Type}

/-- The lookup is answered from what the earlier update has written: a score below
`CHECKMATE` at no smaller height, or a mate at no larger one. -/
def Answers (flags : Flags) (answer : Int) (height height' : ℕ) (score' : Int) : Prop :=
  flags.minStoreLevel ≤ height' ∧
    ((answer = NONE ∧ score' < CHECKMATE ∧ height ≤ height') ∨
      (answer = CHECKMATE ∧ score' = CHECKMATE ∧ height' ≤ height))

/-- If the lookup is answered from the earlier update then their rounds are related. -/
def Event.RelatedIfAnswered (R : Bool → OneRound → OneRound → Prop) (flags : Flags) :
    Event κ → Event κ → Prop
  | .lookup mm r sig height _ (some answer), .update mm' r' sig' height' score' _ =>
      mm' = mm → sig' = sig → Answers flags answer height height' score' → R mm r r'
  | _, _ => True

/-- Every lookup that was answered was answered for a related round. -/
def World.HitsRelated (R : Bool → OneRound → OneRound → Prop) (flags : Flags) (w : World κ) :
    Prop :=
  w.trace.Pairwise (Event.RelatedIfAnswered R flags)

/-- **Every lookup that was answered was answered for a position with the same moves.** -/
def World.HitsSame (flags : Flags) (w : World κ) : Prop :=
  w.HitsRelated (OneRound.SameMoves flags) flags

/-- Each bound of an entry was written for a round with that verdict. -/
structure World.Justified (flags : Flags) (w : World κ) : Prop where
  first : ∀ mm sig e, w.cache.signatures mm sig = some e → 1 ≤ e.1 →
    ∃ r height score cache, Event.update mm r sig height score cache ∈ w.trace ∧
      (height : Int) = e.1 ∧ flags.minStoreLevel ≤ height ∧ score < CHECKMATE ∧
      ¬ Mates flags mm r height
  second : ∀ mm sig e, w.cache.signatures mm sig = some e → e.2 < INT_MAX →
    ∃ r height cache, Event.update mm r sig height CHECKMATE cache ∈ w.trace ∧
      (height : Int) = e.2 ∧ flags.minStoreLevel ≤ height ∧ Mates flags mm r height

theorem World.Justified.initial {flags : Flags} : (World.initial : World κ).Justified flags where
  first mm sig e h := by
    rw [World.initial, SolutionCache.signatures_initial] at h
    cases h
  second mm sig e h := by
    rw [World.initial, SolutionCache.signatures_initial] at h
    cases h

/-- Bounds stay justified when the trace grows and the score maps do not change. -/
theorem World.Justified.grow {flags : Flags} {w w' : World κ} (h : w.Justified flags)
    (hsig : w'.cache.signatures = w.cache.signatures) (htr : ∀ event ∈ w.trace, event ∈ w'.trace) :
    w'.Justified flags where
  first mm sig e he h1 := by
    rw [hsig] at he
    obtain ⟨r, height, score, cache, hmem, h⟩ := h.first mm sig e he h1
    exact ⟨r, height, score, cache, htr _ hmem, h⟩
  second mm sig e he h1 := by
    rw [hsig] at he
    obtain ⟨r, height, cache, hmem, h⟩ := h.second mm sig e he h1
    exact ⟨r, height, cache, htr _ hmem, h⟩

variable [DecidableEq κ] {hash : (Fin 8 → Fin 8 → PieceType) → κ} {flags : Flags}
variable {P : AttackState → Prop} {bound : Bool → ℕ} {w : World κ}

/-- **An update with the right score keeps the bounds justified.** -/
theorem World.Justified.updated (h : w.Justified flags) (hright : w.LookupsRight flags) {mm : Bool}
    {r : OneRound} {sig : κ} {height : ℕ} {score : Int}
    (hu : UpdateOk hash flags P bound w mm r sig height score) :
    (w.updated flags mm r sig height score).Justified flags := by
  have hmates := hu.right hright
  have hgrow : ∀ event ∈ w.trace, event ∈ (w.updated flags mm r sig height score).trace :=
    fun event he => List.mem_cons_of_mem _ he
  have hnew : Event.update mm r sig height score w.cache ∈
    (w.updated flags mm r sig height score).trace := List.mem_cons_self
  by_cases hlow : (height : Int) < flags.minStoreLevel
  · refine h.grow ?_ hgrow
    show (w.cache.updateCache flags mm sig height score).signatures = _
    rw [SolutionCache.updateCache, if_pos hlow]
  rw [not_lt] at hlow
  refine ⟨fun mm' sig' e he h1 => ?_, fun mm' sig' e he h1 => ?_⟩
  · replace he : (w.cache.updateCache flags mm sig height score).signatures mm' sig' = some e := he
    rw [SolutionCache.signatures_updateCache] at he
    split_ifs at he with hsame
    · obtain ⟨rfl, rfl⟩ := hsame
      -- the first bound is the old one, or the height of a search that failed
      rcases SolutionCache.updatedEntry_cases he with hold | ⟨hs, -, rfl⟩ | ⟨hs, -, -, -, rfl⟩ |
        ⟨-, -, rfl⟩ | ⟨e', hold, -, -, rfl⟩
      · obtain ⟨r', height', score', cache', hmem, h'⟩ := h.first _ _ e hold h1
        exact ⟨r', height', score', cache', hgrow _ hmem, h'⟩
      · exact ⟨r, height, score, w.cache, hnew, rfl, hlow, hs, fun hm => hs.ne (hmates.mpr hm)⟩
      · exact ⟨r, height, score, w.cache, hnew, rfl, hlow, hs, fun hm => hs.ne (hmates.mpr hm)⟩
      · exact absurd h1 (show ¬ (1 : Int) ≤ -INT_MAX by decide)
      · obtain ⟨r', height', score', cache', hmem, h'⟩ := h.first _ _ e' hold h1
        exact ⟨r', height', score', cache', hgrow _ hmem, h'⟩
    · obtain ⟨r', height', score', cache', hmem, h'⟩ := h.first _ _ e he h1
      exact ⟨r', height', score', cache', hgrow _ hmem, h'⟩
  · replace he : (w.cache.updateCache flags mm sig height score).signatures mm' sig' = some e := he
    rw [SolutionCache.signatures_updateCache] at he
    split_ifs at he with hsame
    · obtain ⟨rfl, rfl⟩ := hsame
      -- the second bound is the old one, or the height of a mate
      rcases SolutionCache.updatedEntry_cases he with hold | ⟨-, -, rfl⟩ | ⟨-, e', hold, -, rfl⟩ |
        ⟨hs, -, rfl⟩ | ⟨e', hold, hns, -, rfl⟩
      · obtain ⟨r', height', cache', hmem, h'⟩ := h.second _ _ e hold h1
        exact ⟨r', height', cache', hgrow _ hmem, h'⟩
      · exact absurd h1 (lt_irrefl _)
      · obtain ⟨r', height', cache', hmem, h'⟩ := h.second _ _ e' hold h1
        exact ⟨r', height', cache', hgrow _ hmem, h'⟩
      · obtain rfl : score = CHECKMATE := le_antisymm hu.le_mate (not_lt.mp hs)
        exact ⟨r, height, w.cache, hnew, rfl, hlow, hmates.mp rfl⟩
      · have hs : ¬ score < CHECKMATE := fun hs => hns ⟨hs, hu.below e' hold⟩
        obtain rfl : score = CHECKMATE := le_antisymm hu.le_mate (not_lt.mp hs)
        exact ⟨r, height, w.cache, hnew, rfl, hlow, hmates.mp rfl⟩
    · obtain ⟨r', height', cache', hmem, h'⟩ := h.second _ _ e he h1
      exact ⟨r', height', cache', hgrow _ hmem, h'⟩

/-! ## Lookups that are answered for the right position -/

section Steps
variable {w' : World κ}

theorem Step.trace_sublist (h : Step hash flags P bound w w') : w.trace.Sublist w'.trace := by
  cases h with
  | note | lookup | update => exact List.sublist_cons_self _ _
  | solved h hstate hs hsolved =>
    refine List.Sublist.cons _ ?_
    show w.trace.Sublist (if _ then _ else _ : World κ).trace
    split_ifs
    · exact List.sublist_cons_self _ _
    · exact List.Sublist.refl _

/-- An answered lookup after a step was there before it, or is what the step did. -/
theorem Step.lookup_cases (h : Step hash flags P bound w w') {mm : Bool} {r : OneRound} {sig : κ}
    {height : ℕ} {cache : SolutionCache κ} {answer : Int}
    (hmem : Event.lookup mm r sig height cache (some answer) ∈ w'.trace) :
    Event.lookup mm r sig height cache (some answer) ∈ w.trace ∨
      (About hash flags P mm r sig ∧ 1 ≤ height ∧ height ≤ bound mm ∧
        w.cache.getScoreFromCache mm sig height = some answer ∧
        w'.trace = .lookup mm r sig height cache (some answer) :: w.trace) := by
  cases h with
  | note event h =>
    rcases List.mem_cons.mp hmem with rfl | hmem
    · exact h.elim
    · exact Or.inl hmem
  | lookup mm' r' sig' height' ha hp hle =>
    rcases List.mem_cons.mp hmem with heq | hmem
    · refine Or.inr ?_
      have htrace := congrArg (· :: w.trace) heq
      injection heq with h1 h2 h3 h4 h5 h6
      subst h1 h2 h3 h4
      exact ⟨ha, hp, hle, h6.symm, htrace.symm⟩
    · exact Or.inl hmem
  | update h hmate =>
    rcases List.mem_cons.mp hmem with heq | hmem
    · cases heq
    · exact Or.inl hmem
  | solved h hstate hs hsolved =>
    rcases List.mem_cons.mp hmem with heq | hmem
    · cases heq
    · split_ifs at hmem
      · rcases List.mem_cons.mp hmem with heq | hmem
        · cases heq
        · exact Or.inl hmem
      · exact Or.inl hmem

/-- **A step keeps the bounds justified**, if the lookups before it are right. -/
theorem Step.justified (h : Step hash flags P bound w w') (hright : w.LookupsRight flags)
    (hj : w.Justified flags) : w'.Justified flags := by
  have htrace := h.trace_mono
  cases h with
  | note | lookup => exact hj.grow rfl htrace
  | update h hmate => exact hj.updated hright h
  | @solved child sig height r s h hstate hs hsolved =>
    have hsig := (SolutionCache.storeSolution_maps (if flags.minStoreLevel ≤ (height : Int) then
      w.updated flags false child sig height CHECKMATE else w).cache sig s r.minStepStates
      r.minStepSolutionTrees).1
    unfold World.recorded at htrace ⊢
    split_ifs at hsig htrace ⊢ with hl
    · exact (hj.updated hright h).grow hsig fun event he => List.mem_cons_of_mem _ he
    · exact hj.grow hsig htrace

end Steps

/-- Related rounds that are asked about under one key have the same verdict. -/
def SameVerdict (hash : (Fin 8 → Fin 8 → PieceType) → κ) (flags : Flags)
    (R : Bool → OneRound → OneRound → Prop) : Prop :=
  ∀ ⦃mm r r' sig⦄, About hash flags AttackState.Unscored mm r sig →
    About hash flags AttackState.Unscored mm r' sig → R mm r r' →
      ∀ height, Mates flags mm r height ↔ Mates flags mm r' height

omit [DecidableEq κ] in
theorem sameMoves_verdict (hinj : Function.Injective hash) :
    SameVerdict hash flags (OneRound.SameMoves flags) :=
  fun _ _ _ _ h h' hsame => mates_congr hinj h h' hsame

variable {R : Bool → OneRound → OneRound → Prop}

/-- What a run keeps as long as its lookups are answered for related rounds. -/
structure World.Transparent (R : Bool → OneRound → OneRound → Prop)
    (hash : (Fin 8 → Fin 8 → PieceType) → κ) (flags : Flags) (bound : Bool → ℕ) (w : World κ) :
    Prop where
  known : w.cache.Known
  events : w.Since [] (EventOk hash flags AttackState.Unscored bound)
  right : w.HitsRelated R flags → w.LookupsRight flags ∧ w.Justified flags

section Transparent
omit [DecidableEq κ]

theorem World.Transparent.initial : (World.initial : World κ).Transparent R hash flags bound where
  known := SolutionCache.known_initial
  events := World.Since.refl World.initial _
  right _ := ⟨World.Inactive.initial.right, World.Justified.initial⟩

/-- What is known of a recorded score. -/
theorem World.Transparent.update (h : w.Transparent R hash flags bound) {mm : Bool} {r : OneRound}
    {sig : κ} {height : ℕ} {score : Int} {cache : SolutionCache κ}
    (hmem : Event.update mm r sig height score cache ∈ w.trace) :
    About hash flags AttackState.Unscored mm r sig ∧ 1 ≤ height ∧ height ≤ bound mm := by
  obtain ⟨new, hnew, hall⟩ := h.events
  rw [List.append_nil] at hnew
  obtain ⟨habout, hpos, hle, -⟩ := hall _ (hnew ▸ hmem)
  exact ⟨habout, hpos, hle⟩

/-- **A lookup that is answered for a related round is answered rightly.** -/
theorem World.Transparent.lookup_right (hR : SameVerdict hash flags R)
    (h : w.Transparent R hash flags bound) (hj : w.Justified flags) {mm : Bool} {r : OneRound}
    {sig : κ} {height : ℕ} (ha : About hash flags AttackState.Unscored mm r sig) (hp : 1 ≤ height)
    (hmax : (height : Int) < INT_MAX) {cache : SolutionCache κ} {answer : Int}
    (hanswer : w.cache.getScoreFromCache mm sig height = some answer)
    (hrelated : ∀ event ∈ w.trace,
      Event.RelatedIfAnswered R flags (.lookup mm r sig height cache (some answer)) event) :
    answer = CHECKMATE ↔ Mates flags mm r height := by
  rcases getScoreFromCache_cases w.cache mm sig height with ⟨hs, -⟩ | ⟨e, he, hle, hs⟩ |
    ⟨e, he, -, hle, hs⟩
  · rw [hs] at hanswer
    cases hanswer
  · -- no mate within the first bound, so none within the height
    obtain rfl : NONE = answer := Option.some.inj (hs.symm.trans hanswer)
    have h1 : (1 : Int) ≤ e.1 := le_trans (by exact_mod_cast hp) hle
    obtain ⟨r', height', score', cache', hmem, heq, hlow, hscore, hno⟩ := hj.first mm sig e he h1
    have hheight : height ≤ height' := by omega
    have hsame := hrelated _ hmem rfl rfl ⟨hlow, Or.inl ⟨rfl, hscore, hheight⟩⟩
    refine iff_of_false (by decide) fun hm => hno ?_
    exact (hR ha (h.update hmem).1 hsame height').mp (hm.mono hheight)
  · -- a mate within the second bound, so one within the height
    obtain rfl : CHECKMATE = answer := Option.some.inj (hs.symm.trans hanswer)
    have h1 : e.2 < INT_MAX := lt_of_le_of_lt hle hmax
    obtain ⟨r', height', cache', hmem, heq, hlow, hm⟩ := hj.second mm sig e he h1
    have hheight : height' ≤ height := by omega
    have hsame := hrelated _ hmem rfl rfl ⟨hlow, Or.inr ⟨rfl, rfl, hheight⟩⟩
    refine iff_of_true rfl ?_
    exact ((hR ha (h.update hmem).1 hsame height').mpr hm).mono hheight

end Transparent

/-- **Every step of a search keeps the answers right.** -/
theorem stable_transparent (hR : SameVerdict hash flags R)
    (hb : ∀ mm, (bound mm : Int) < INT_MAX) :
    Stable (Step hash flags AttackState.Unscored bound)
      fun w => w.Transparent R hash flags bound := by
  intro w w' h hw
  obtain ⟨hknown, hevents⟩ := stable_events [] w w' h ⟨hw.known, hw.events⟩
  refine ⟨hknown, hevents, fun hhits => ?_⟩
  obtain ⟨hright, hj⟩ := hw.right (hhits.sublist h.trace_sublist)
  refine ⟨fun mm r sig height cache answer hmem => ?_, h.justified hright hj⟩
  rcases h.lookup_cases hmem with hold | ⟨ha, hp, hle, hanswer, htrace⟩
  · exact hright mm r sig height cache answer hold
  · rw [World.HitsRelated, htrace] at hhits
    have hmax : (height : Int) < INT_MAX := lt_of_le_of_lt (by exact_mod_cast hle) (hb mm)
    exact hw.lookup_right hR hj ha hp hmax hanswer (List.pairwise_cons.mp hhits).1

end Bounds

/-! ## Whole runs -/

/-- A search that the results are about: a loaded board on which the side moving
second is not attacked, and a number of moves below the sentinel of the bounds. -/
structure Search.Proper (search : Search) : Prop where
  loaded : search.board.FileLoaded
  second : search.board.isChecked (!search.blackFirst) = false
  pos : 1 ≤ search.moves
  lt_max : (search.moves : Int) < INT_MAX

theorem Search.Proper.unscored {search : Search} (h : search.Proper) : search.root.Unscored :=
  ⟨h.loaded.playable h.second, h.loaded.loading.1.score_eq⟩

section Runs
variable {κ : Type} [DecidableEq κ] {hash : (Fin 8 → Fin 8 → PieceType) → κ} {flags : Flags}
variable {R : Bool → OneRound → OneRound → Prop}

/-- The numbers of levels that searches are asked for, in the types of the source. -/
def intBound (_ : Bool) : ℕ := 2147483646

theorem intBound_lt (mm : Bool) : (intBound mm : Int) < INT_MAX := by
  unfold intBound
  decide

/-- A run of proper searches ends, and its reports are right if its lookups were
answered for related rounds. -/
theorem runSearches_reports (order : MoveOrder) (hR : SameVerdict hash flags R)
    {searches : List Search} (hall : ∀ s ∈ searches, s.Proper) :
    ∃ results w, Returns (runSearches flags order hash searches) World.initial results w ∧
      w.Transparent R hash flags intBound ∧
      (w.HitsRelated R flags → List.Forall₂ (fun s result =>
        Reports flags s.board s.blackFirst s.moves result.1) searches results) := by
  have hruns : Runs False (Step hash flags AttackState.Unscored intBound)
      (fun w => w.cache.Known) (runSearches flags order hash searches) _ :=
    runSearches_runs (region_unscored flags) searches fun s hs => by
      have hs := hall s hs
      have hlt := hs.lt_max
      unfold INT_MAX at hlt
      exact ⟨hs.unscored, (by omega : s.moves ≤ 2147483646), Or.inr ⟨hs.pos, hs.lt_max⟩⟩
  obtain ⟨results, w, hret, -, ⟨-, hposts⟩, htransparent⟩ :=
    (hruns.frame (stable_transparent hR intBound_lt)).total
      ⟨SolutionCache.known_initial, World.Transparent.initial⟩
  refine ⟨results, w, hret, htransparent, fun hhits => ?_⟩
  have hright := (htransparent.right hhits).1
  refine ((List.forall₂_and_left _ _).mpr ⟨hall, hposts⟩).imp ?_
  rintro s result ⟨hs, hpost⟩
  exact hpost.reports (hs.loaded.playable hs.second) hright

/-- The same for a single search. -/
theorem run_reports (order : MoveOrder) (hR : SameVerdict hash flags R) {search : Search}
    (hs : search.Proper) :
    ∃ result w, Returns (search.run flags order hash) World.initial result w ∧
      (w.HitsRelated R flags →
        Reports flags search.board search.blackFirst search.moves result.1) := by
  have hall : ∀ s ∈ [search], s.Proper := by
    intro s h
    rw [List.mem_singleton.mp h]
    exact hs
  have h₀ : Returns (runSearches flags order hash []) World.initial [] World.initial :=
    returns_pure _ _
  obtain ⟨result, w, hret⟩ := returns_of_levels search h₀ hs.pos hs.lt_max
  obtain ⟨results, w', hrets, -, hreports⟩ := runSearches_reports order hR hall
  have hone : Returns (runSearches flags order hash [search]) World.initial [result] w :=
    returns_bind hret (returns_bind (returns_pure _ _) (returns_pure _ _))
  obtain ⟨rfl, rfl⟩ := hone.unique hrets
  refine ⟨result, w, hret, fun hhits => ?_⟩
  cases hreports hhits with
  | cons hrep _ => exact hrep

end Runs

/-- **Cache transparency**, where no answer comes from a position with other moves:
every search of a run gives `CHECKMATE` exactly when it gives it alone, with the
cache inactive. -/
theorem cache_transparent {κ : Type} [DecidableEq κ] (flags : Flags) (order : MoveOrder)
    {hash : (Fin 8 → Fin 8 → PieceType) → κ} (hinj : Function.Injective hash)
    {searches : List Search} (hall : ∀ s ∈ searches, s.Proper) :
    ∃ results w, Returns (runSearches flags order hash searches) World.initial results w ∧
      (w.HitsSame flags → List.Forall₂ (fun s result => ∀ flags' : Flags,
        flags'.allowCastling = flags.allowCastling → (s.moves : Int) < flags'.minStoreLevel →
          ∃ result' w', Returns (s.run flags' order hash) World.initial result' w' ∧
            (result.1 = CHECKMATE ↔ result'.1 = CHECKMATE)) searches results) := by
  obtain ⟨results, w, hret, -, hreports⟩ := runSearches_reports order (sameMoves_verdict hinj) hall
  refine ⟨results, w, hret, fun hhits => ?_⟩
  refine ((List.forall₂_and_left _ _).mpr ⟨hall, hreports hhits⟩).imp ?_
  rintro s result ⟨hs, hrep⟩ flags' hcastling hstore
  obtain ⟨result', w', hret', hrep'⟩ :=
    run_inactive order hash (hs.loaded.playable hs.second) hs.pos hstore
  refine ⟨result', w', hret', ?_⟩
  rw [hrep.mate_iff, hrep'.mate_iff, prunedGame_congr_flags hcastling]

/-! ## Testing a run -/

section Tests
variable {flags : Flags} {a a' : AttackState} {d d' : DefenceState}

/-- The first-side moves that a search follows, in order. -/
def AttackState.followed (flags : Flags) (a : AttackState) : List Move :=
  (a.curBoard.legalMoves flags a.blackFirst).filter fun m => !a.round.isCircularMove m

theorem AttackState.mem_followed {m : Move} : m ∈ a.followed flags ↔ a.Follows flags m := by
  simp [followed, Follows, Board.mem_legalMoves]

theorem AttackState.sameMoves_iff : a.SameMoves flags a' ↔ a.blackFirst = a'.blackFirst ∧
    (∀ m ∈ a.followed flags, m ∈ a'.followed flags) ∧
      ∀ m ∈ a'.followed flags, m ∈ a.followed flags := by
  simp only [mem_followed]
  constructor
  · intro h
    exact ⟨h.blackFirst, fun m => (h.moves m).mp, fun m => (h.moves m).mpr⟩
  · intro h
    exact ⟨h.1, fun m => ⟨h.2.1 m, h.2.2 m⟩⟩

instance : Decidable (a.SameMoves flags a') := decidable_of_iff _ AttackState.sameMoves_iff.symm

theorem DefenceState.sameMoves_iff : d.SameMoves flags d' ↔ d.blackFirst = d'.blackFirst ∧
    (∀ m ∈ d.maxStepState.legalMoves flags (!d.blackFirst),
      m ∈ d'.maxStepState.legalMoves flags (!d'.blackFirst)) ∧
    (∀ m ∈ d'.maxStepState.legalMoves flags (!d'.blackFirst),
      m ∈ d.maxStepState.legalMoves flags (!d.blackFirst)) ∧
    ∀ m ∈ d.maxStepState.legalMoves flags (!d.blackFirst),
      (d.after m).SameMoves flags (d'.after m) := by
  simp only [Board.mem_legalMoves]
  constructor
  · intro h
    exact ⟨h.blackFirst, fun m => (h.replies m).mp, fun m => (h.replies m).mpr, h.moves⟩
  · intro h
    exact ⟨h.1, fun m => ⟨h.2.1 m, h.2.2.1 m⟩, h.2.2.2⟩

instance : Decidable (d.SameMoves flags d') := decidable_of_iff _ DefenceState.sameMoves_iff.symm

instance (mm : Bool) (r r' : OneRound) : Decidable (r.SameMoves flags mm r') :=
  match mm with
  | false => inferInstanceAs (Decidable (r.attackState.SameMoves flags r'.attackState))
  | true => decidable_of_iff (∀ s ∈ r.maxStepState, ∀ s' ∈ r'.maxStepState,
      (r.defenceState s).SameMoves flags (r'.defenceState s'))
      ⟨fun h s s' hs hs' => h s hs s' hs', fun h s hs s' hs' => h s s' hs hs'⟩

variable {κ : Type} [DecidableEq κ] (R : Bool → OneRound → OneRound → Prop)
variable [∀ mm r r', Decidable (R mm r r')]

instance (answer : Int) (height height' : ℕ) (score' : Int) :
    Decidable (Answers flags answer height height' score') :=
  inferInstanceAs (Decidable (_ ∧ _))

/-- Is the event, if it is an answered lookup, related to the earlier updates? -/
def Event.testRelated (flags : Flags) : Event κ → List (Event κ) → Bool
  | .lookup mm r sig height _ (some answer), earlier => earlier.all fun
      | .update mm' r' sig' height' score' _ => decide (mm' = mm → sig' = sig →
          Answers flags answer height height' score' → R mm r r')
      | _ => true
  | _, _ => true

/-- Is this so for every event? -/
def testHits (flags : Flags) : List (Event κ) → Bool
  | [] => true
  | event :: earlier => event.testRelated R flags earlier && testHits flags earlier

theorem Event.related_of_test {event : Event κ} {earlier : List (Event κ)}
    (h : event.testRelated R flags earlier = true) :
    ∀ event' ∈ earlier, event.RelatedIfAnswered R flags event' := by
  intro event' hmem
  unfold RelatedIfAnswered
  split
  · have hevent := List.all_eq_true.mp h _ hmem
    exact of_decide_eq_true hevent
  · trivial

theorem World.hitsRelated_of_test {w : World κ} (h : testHits R flags w.trace = true) :
    w.HitsRelated R flags := by
  unfold HitsRelated
  revert h
  induction w.trace with
  | nil => exact fun _ => List.Pairwise.nil
  | cons event earlier ih =>
    intro h
    rw [testHits, Bool.and_eq_true] at h
    exact List.pairwise_cons.mpr ⟨Event.related_of_test R h.1, ih h.2⟩

end Tests

/-- The lookup was answered. -/
def Event.answered {κ : Type} : Event κ → Bool
  | .lookup _ _ _ _ _ (some _) => true
  | _ => false

/-- The search of the lone pawn's mate, twice. -/
def Search.lonePawns : List Search := [⟨Board.lonePawn, false, 2⟩, ⟨Board.lonePawn, false, 2⟩]

/-- The second of the searches is answered from the first. -/
theorem cache_transparent_lone_pawn :
    ∃ results w, Returns (runSearches Flags.default .asGenerated placementKey Search.lonePawns)
        World.initial results w ∧
      (∃ event ∈ w.trace, event.answered = true) ∧ w.HitsSame Flags.default ∧
      List.Forall₂ (fun (s : Search) result => ∀ flags' : Flags,
        flags'.allowCastling = false → (s.moves : Int) < flags'.minStoreLevel →
          ∃ result' w', Returns (s.run flags' .asGenerated placementKey) World.initial result' w' ∧
            (result.1 = CHECKMATE ↔ result'.1 = CHECKMATE)) Search.lonePawns results := by
  have hproper : ∀ s ∈ Search.lonePawns, s.Proper := by
    intro s hs
    obtain rfl : s = ⟨Board.lonePawn, false, 2⟩ := by
      rcases List.mem_pair.mp hs with h | h <;> exact h
    exact ⟨Board.lonePawn_fileLoaded, Board.lonePawn_second, by decide, by decide⟩
  have hrun : test (runSearches Flags.default .asGenerated placementKey Search.lonePawns)
      World.initial (fun _ w => w.trace.any Event.answered &&
        testHits (OneRound.SameMoves Flags.default) Flags.default w.trace) = true := by
    decide +kernel
  obtain ⟨results, w, hret, htransparent⟩ :=
    cache_transparent Flags.default .asGenerated placementKey_injective hproper
  obtain ⟨results', w', hret', htests⟩ := returns_of_test hrun
  obtain ⟨rfl, rfl⟩ := hret.unique hret'
  obtain ⟨hanswered, htest⟩ := Bool.and_eq_true_iff.mp htests
  have hhits : w.HitsSame Flags.default := World.hitsRelated_of_test _ htest
  exact ⟨results, w, hret, List.any_eq_true.mp hanswered, hhits, htransparent hhits⟩

/-- White to move, with a bare king against a queen. -/
def Search.bareKing : Search := ⟨Board.ofText "kb1\nKb3\nQc5\n", false, 2⟩

/-- Black to move, and to mate in two by way of a placement that white, to move,
has met in `bareKing`. -/
def Search.queens : Search := ⟨Board.ofText "Ka3\nQc5\nqb3\nka1\n", true, 2⟩

/-- **The cache is not transparent**: after `bareKing`, the mate of `queens` is lost. -/
theorem cache_not_transparent :
    Search.bareKing.Proper ∧ Search.queens.Proper ∧ Function.Injective placementKey ∧
      (∃ results w, Returns (runSearches Flags.default .asGenerated placementKey
        [Search.bareKing, Search.queens]) World.initial results w ∧
          results.map Prod.fst = [NONE, NONE]) ∧
      ∃ result w, Returns (Search.queens.run ⟨false, 3, by decide⟩ .asGenerated placementKey)
        World.initial result w ∧ result.1 = CHECKMATE := by
  have hfirst : (Board.ofText "kb1\nKb3\nQc5\n").FileLoaded :=
    Board.fileLoaded_ofText (by decide +kernel)
  have hsecond : (Board.ofText "Ka3\nQc5\nqb3\nka1\n").FileLoaded :=
    Board.fileLoaded_ofText (by decide +kernel)
  have hrun : test (runSearches Flags.default .asGenerated placementKey
      [Search.bareKing, Search.queens]) World.initial
      (fun results _ => decide (results.map Prod.fst = [NONE, NONE])) = true := by decide +kernel
  have halone : test (Search.queens.run ⟨false, 3, by decide⟩ .asGenerated placementKey)
      World.initial (fun result _ => decide (result.1 = CHECKMATE)) = true := by decide +kernel
  obtain ⟨results, w, hret, hscores⟩ := returns_of_test hrun
  obtain ⟨result, w', hret', hscore⟩ := returns_of_test halone
  exact ⟨⟨hfirst, by decide +kernel, by decide, by decide⟩,
    ⟨hsecond, by decide +kernel, by decide, by decide⟩, placementKey_injective,
    ⟨results, w, hret, of_decide_eq_true hscores⟩, result, w', hret', of_decide_eq_true hscore⟩

end Chess
