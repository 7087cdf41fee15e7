import ChessMate.SearchVerdict

/-! # What the trace of a run tells

Each event of a run was noted with what was known at that moment (`EventOk`), and
that is kept (`stable_events`).  So for everything a run did, in any round and at
any depth, the round is one of the region, the cache of that moment is as the
bounds say, and what is stored was solved.

The results of this module are about the legality test, the check tests, the replies
and solutions that a round records, and the two bounds of the cache entries, over
whole runs.
-/
namespace Chess
open ProgramLogic MateGame Relation

section Events
variable {κ : Type}

/-- What is known of an event, with the cache as it was then. -/
def EventOk (hash : (Fin 8 → Fin 8 → PieceType) → κ) (flags : Flags) (P : AttackState → Prop)
    (bound : Bool → ℕ) : Event κ → Prop
  | .lookup mm r sig height cache score => About hash flags P mm r sig ∧ 1 ≤ height ∧
      height ≤ bound mm ∧ cache.Known ∧ score = cache.getScoreFromCache mm sig height
  | .update mm r sig height score cache => About hash flags P mm r sig ∧ 1 ≤ height ∧
      height ≤ bound mm ∧ cache.Below mm sig height ∧ score ≤ CHECKMATE
  | .store sig r cache => P r.attackState ∧ sig = hash r.curBoard.positions ∧
      r.Solved hash flags cache
  | event => NoteOk hash flags P event

theorem EventOk.of_noteOk {hash : (Fin 8 → Fin 8 → PieceType) → κ} {flags : Flags}
    {P : AttackState → Prop} {bound : Bool → ℕ} {event : Event κ}
    (h : NoteOk hash flags P event) : EventOk hash flags P bound event := by
  cases event <;> first | exact h | exact h.elim

/-- The events since a trace was as given. -/
def World.Since (w : World κ) (earlier : List (Event κ)) (Ok : Event κ → Prop) : Prop :=
  ∃ new, w.trace = new ++ earlier ∧ ∀ event ∈ new, Ok event

theorem World.Since.refl (w : World κ) (Ok : Event κ → Prop) : w.Since w.trace Ok :=
  ⟨[], rfl, fun event h => by cases h⟩

theorem World.Since.cons {w : World κ} {earlier : List (Event κ)} {Ok : Event κ → Prop}
    (h : w.Since earlier Ok) {event : Event κ} (he : Ok event) (cache : SolutionCache κ) :
    (⟨cache, event :: w.trace⟩ : World κ).Since earlier Ok := by
  obtain ⟨new, hnew, hall⟩ := h
  refine ⟨event :: new, by rw [hnew]; rfl, fun event' h' => ?_⟩
  rcases List.mem_cons.mp h' with rfl | h'
  · exact he
  · exact hall event' h'

variable [DecidableEq κ] {hash : (Fin 8 → Fin 8 → PieceType) → κ} {flags : Flags}
variable {P : AttackState → Prop} {bound : Bool → ℕ}

theorem OneRound.Solved.updated {r : OneRound} {cache : SolutionCache κ} (h : r.Solved hash flags cache)
    (mm : Bool) (sig : κ) (height score : Int) :
    r.Solved hash flags (cache.updateCache flags mm sig height score) where
  move := h.move
  replies := h.replies
  mated := h.mated
  trees := h.trees.imp fun b t ht => by
    rw [SolutionCache.solutionMap_updateCache]; exact ht

/-- **Every event of a run is as `EventOk` says.** -/
theorem stable_events (earlier : List (Event κ)) :
    Stable (Step hash flags P bound) fun w =>
      w.cache.Known ∧ w.Since earlier (EventOk hash flags P bound) := by
  intro w w' h hw
  refine ⟨stable_known w w' h hw.1, ?_⟩
  obtain ⟨hknown, hsince⟩ := hw
  cases h with
  | note event h => exact hsince.cons (EventOk.of_noteOk h) _
  | lookup mm r sig height ha hp hb =>
    refine hsince.cons ?_ _
    exact ⟨ha, hp, hb, hknown, rfl⟩
  | update h hmate =>
    refine hsince.cons ?_ _
    exact ⟨h.about, h.pos, h.le_bound, h.below, h.le_mate⟩
  | @solved child sig height r s h hstate hs hsolved =>
    have hP : P r.attackState := hstate ▸ h.about.1
    have hsig : sig = hash r.curBoard.positions := by
      have hboard : r.curBoard = child.curBoard := congrArg AttackState.curBoard hstate
      rw [hboard]; exact h.about.2.2
    unfold World.recorded
    split_ifs with hl
    · have hupdated : (w.updated flags false child sig height CHECKMATE).Since earlier
          (EventOk hash flags P bound) := by
        refine hsince.cons ?_ _
        exact ⟨h.about, h.pos, h.le_bound, h.below, h.le_mate⟩
      refine hupdated.cons ?_ _
      exact ⟨hP, hsig, hsolved.updated _ _ _ _⟩
    · refine hsince.cons ?_ _
      exact ⟨hP, hsig, hsolved⟩

end Events

section Runs
variable {κ : Type} [DecidableEq κ] {hash : (Fin 8 → Fin 8 → PieceType) → κ} {flags : Flags}
variable {order : MoveOrder} {P : AttackState → Prop}

/-- Any position at all. -/
theorem region_all (flags : Flags) : Region flags fun _ => True := fun _ _ _ _ _ _ _ => trivial

/-- After any searches that return, the mate bounds have solutions. -/
theorem known_of_returns {searches : List Search} {results : List (Int × OneRound)} {w : World κ}
    (h : Returns (runSearches flags order hash searches) World.initial results w) :
    w.cache.Known := by
  obtain ⟨N, hN⟩ := exists_levels_le searches
  have hruns : Runs True (Step hash flags (fun _ => True) fun _ => N) (fun w => w.cache.Known)
      (runSearches flags order hash searches) _ :=
    runSearches_runs (region_all flags) searches fun s hs => ⟨trivial, hN s hs, Or.inl trivial⟩
  exact (hruns.of_returns SolutionCache.known_initial h).2.1

/-- **The events of one search**, whatever was searched before it. -/
theorem events_of_returns (hreg : Region flags P) {earlier : List Search}
    {results : List (Int × OneRound)} {w₀ w : World κ} {search : Search} {result : Int × OneRound}
    (h₀ : Returns (runSearches flags order hash earlier) World.initial results w₀)
    (hroot : P search.root) (h : Returns (search.run flags order hash) w₀ result w) :
    w.Since w₀.trace (EventOk hash flags P fun _ => search.moves) := by
  have hruns : Runs True (Step hash flags P fun _ => search.moves) (fun w => w.cache.Known)
      (search.run flags order hash) _ :=
    searchRun_runs hreg ⟨hroot, le_refl _, Or.inl trivial⟩
  have hknown := known_of_returns h₀
  exact ((hruns.frame (stable_events w₀.trace)).of_returns
    ⟨hknown, hknown, World.Since.refl w₀ _⟩ h).2.2.2

/-- A search with a proper number of levels returns, whatever was searched before it. -/
theorem returns_of_levels (search : Search) {earlier : List Search}
    {results : List (Int × OneRound)} {w₀ : World κ}
    (h₀ : Returns (runSearches flags order hash earlier) World.initial results w₀)
    (hpos : 1 ≤ search.moves) (hmax : (search.moves : Int) < INT_MAX) :
    ∃ result w, Returns (search.run flags order hash) w₀ result w := by
  have hruns : Runs False (Step hash flags (fun _ => True) fun _ => search.moves)
      (fun w => w.cache.Known) (search.run flags order hash) _ :=
    searchRun_runs (region_all flags) ⟨trivial, le_refl _, Or.inr ⟨hpos, hmax⟩⟩
  obtain ⟨result, w, hret, -⟩ := hruns.total (known_of_returns h₀)
  exact ⟨result, w, hret⟩

/-- The positions a round is in, on boards that play reaches. -/
theorem OneRound.Moved.played {r : OneRound} {s : Board} (h : r.Moved flags P s)
    (hP : ∀ a, P a → a.Sound) : (r.defenceState s).Played flags := by
  obtain ⟨m, hm, -, hs⟩ := h.move
  have ha := hP _ h.region
  rw [AttackState.tried_eq ha, Board.mem_legalMoves] at hm
  exact ⟨ha, m, hm, hs⟩

end Runs

/-! ## The legality test -/

/-- In a round that is searched, `canMove` answers as the full scan does for every
move of every piece that it is called for, and restores the scratch board. -/
def Event.TestsExact {κ : Type} (flags : Flags) : Event κ → Prop
  | .expand r _ => ∀ p ∈ r.maxStepPieces, ∀ m ∈ p.getMoves flags r.curBoard,
      r.canMove p m r.isMaxChecked r.curBoard =
        (!(m.apply r.curBoard).isChecked p.type.isBlack, r.curBoard)
  | .minStart r s => ∀ p ∈ r.uncapturedMinPieces s, ∀ m ∈ p.getMoves flags s,
      r.canMove p m r.isMinChecked s = (!(m.apply s).isChecked p.type.isBlack, s)
  | _ => True

theorem testsExact_expand {κ : Type} {flags : Flags} {r : OneRound} (hready : r.Ready)
    (hsound : r.attackState.Sound) (hcheck : r.isMaxChecked = r.isChecked) (n : ℕ) :
    (Event.expand r n : Event κ).TestsExact flags := by
  intro p hp m hm
  have hpieces : r.maxStepPieces = r.curBoard.piecesOf r.blackFirst := hready.maxStepPieces
  rw [hpieces] at hp
  have hblack : p.type.isBlack = r.blackFirst := (Board.mem_piecesOf.mp hp).2.2
  rw [hcheck, hready.isChecked_eq, AttackState.isMaxChecked_eq, hready.agrees_attack.canMove_eq,
    hblack, ← Board.makeMove_isChecked]
  exact OneRound.canMove_eq hsound.kings hsound.last r.attackState.covers hp hm

theorem testsExact_minStart {κ : Type} {flags : Flags} {P : AttackState → Prop} {r : OneRound}
    {s : Board} (hr : r.Moved flags P s) (hP : ∀ a, P a → a.Sound)
    (hcheck : r.isMinChecked = r.isChecking s) : (Event.minStart r s : Event κ).TestsExact flags := by
  have hd := hr.played hP
  intro p hp m hm
  have hlist : r.uncapturedMinPieces s = s.piecesOf (!r.blackFirst) :=
    ((hr.ready.agrees_defence s).uncapturedMinPieces_eq s).trans hd.uncaptured_eq
  rw [hlist] at hp
  have hblack : p.type.isBlack = !r.blackFirst := (Board.mem_piecesOf.mp hp).2.2
  rw [hcheck, hr.ready.checked_eq hr.maxMovePiece, hd.checked_eq,
    (hr.ready.agrees_defence s).canMove_eq, hblack, ← Board.makeMove_isChecked]
  exact OneRound.canMove_eq hd.playable_after.kings hd.playable_after.last hd.covers hp hm

/-- **The fast legality test agrees with the full scan in every round of a search**
from a loaded board on which the side moving second is not attacked, whatever was
searched before. -/
theorem canMove_agrees {κ : Type} [DecidableEq κ] (flags : Flags) (order : MoveOrder)
    (hash : (Fin 8 → Fin 8 → PieceType) → κ) {earlier : List Search} {search : Search}
    {results : List (Int × OneRound)} {result : Int × OneRound} {w₀ w : World κ}
    (h₀ : Returns (runSearches flags order hash earlier) World.initial results w₀)
    (h : Returns (search.run flags order hash) w₀ result w)
    (hb : search.board.FileLoaded) (hsecond : search.board.isChecked (!search.blackFirst) = false) :
    w.Since w₀.trace (Event.TestsExact flags) := by
  obtain ⟨new, hnew, hall⟩ := events_of_returns (region_sound flags) h₀ (hb.playable hsecond) h
  refine ⟨new, hnew, fun event he => ?_⟩
  have hok := hall event he
  cases event with
  | expand r n => exact testsExact_expand hok.1 hok.2.1 hok.2.2.1 n
  | minStart r s => exact testsExact_minStart hok.1 (fun _ h => h) hok.2
  | _ => trivial

/-- The search of the lone pawn's mate, two levels deep. -/
theorem canMove_agrees_lone_pawn :
    ∃ result w, Returns (Search.run Flags.default .asGenerated placementKey
        ⟨Board.lonePawn, false, 2⟩) World.initial result w ∧
      w.Since [] (Event.TestsExact Flags.default) := by
  have h₀ : Returns (runSearches Flags.default .asGenerated placementKey []) World.initial []
      World.initial := returns_pure _ _
  obtain ⟨result, w, h⟩ := returns_of_levels ⟨Board.lonePawn, false, 2⟩ h₀
    (by decide) (by decide)
  exact ⟨result, w, h, canMove_agrees Flags.default .asGenerated placementKey h₀ h
    Board.lonePawn_fileLoaded Board.lonePawn_second⟩

/-! ## The check tests -/

/-- In a round that is searched, the check tests on the piece lists answer as the
full scan of the board does: before the first side's move, and after each of them. -/
def Event.ChecksExact {κ : Type} : Event κ → Prop
  | .expand r _ => r.isChecked = r.curBoard.isChecked r.blackFirst
  | .maxMove r _ s => r.maxStepState = some s ∧ r.isChecking s = s.isChecked (!r.blackFirst)
  | _ => True

/-- **Check detection from the piece lists agrees with the full scan in every round
of a search** from a loaded board on which the side moving second is not attacked,
whatever was searched before. -/
theorem isChecked_agrees {κ : Type} [DecidableEq κ] (flags : Flags) (order : MoveOrder)
    (hash : (Fin 8 → Fin 8 → PieceType) → κ) {earlier : List Search} {search : Search}
    {results : List (Int × OneRound)} {result : Int × OneRound} {w₀ w : World κ}
    (h₀ : Returns (runSearches flags order hash earlier) World.initial results w₀)
    (h : Returns (search.run flags order hash) w₀ result w)
    (hb : search.board.FileLoaded) (hsecond : search.board.isChecked (!search.blackFirst) = false) :
    w.Since w₀.trace Event.ChecksExact := by
  obtain ⟨new, hnew, hall⟩ := events_of_returns (region_sound flags) h₀ (hb.playable hsecond) h
  refine ⟨new, hnew, fun event he => ?_⟩
  have hok := hall event he
  cases event with
  | expand r n =>
    obtain ⟨hready, -, -, -⟩ := hok
    exact hready.isChecked_eq.trans r.attackState.isMaxChecked_eq
  | maxMove r m s =>
    obtain ⟨hmoved, -, -, -⟩ := hok
    refine ⟨hmoved.maxStepState, ?_⟩
    rw [hmoved.ready.checked_eq hmoved.maxMovePiece]
    exact (hmoved.played fun _ h => h).checked_eq
  | _ => trivial

/-- The search of the lone pawn's mate, two levels deep. -/
theorem isChecked_agrees_lone_pawn :
    ∃ result w, Returns (Search.run Flags.default .asGenerated placementKey
        ⟨Board.lonePawn, false, 2⟩) World.initial result w ∧
      w.Since [] Event.ChecksExact := by
  have h₀ : Returns (runSearches Flags.default .asGenerated placementKey []) World.initial []
      World.initial := returns_pure _ _
  obtain ⟨result, w, h⟩ := returns_of_levels ⟨Board.lonePawn, false, 2⟩ h₀
    (by decide) (by decide)
  exact ⟨result, w, h, isChecked_agrees Flags.default .asGenerated placementKey h₀ h
    Board.lonePawn_fileLoaded Board.lonePawn_second⟩

/-! ## The recorded replies -/

/-- When `expandMinStep` returns a mate, the recorded boards are those after the
legal replies, each once and in the order in which they are generated.  Each has the
solution stored under its hash, at the same index, or there are none at the last level. -/
def Event.RepliesLinedUp {κ : Type} (hash : (Fin 8 → Fin 8 → PieceType) → κ) (flags : Flags) :
    Event κ → Prop
  | .minStep r levelsLeft score cache => score = CHECKMATE →
      ∃ s, r.maxStepState = some s ∧
        r.minStepStates = (s.legalMoves flags (!r.blackFirst)).map s.makeMove ∧
        r.minStepStates.Nodup ∧
        (1 < levelsLeft → r.minStepSolutionTrees.length = r.minStepStates.length ∧
          ∀ (i : ℕ) (next : Board) (t : ℕ), r.minStepStates[i]? = some next →
            r.minStepSolutionTrees[i]? = some t →
            cache.getSolution (hash next.positions) = some t) ∧
        (levelsLeft = 1 → r.minStepStates = [] ∧ r.minStepSolutionTrees = [])
  | _ => True

/-- A made move can be read off the board. -/
theorem Board.makeMove_injective (b : Board) : Function.Injective b.makeMove :=
  fun _ _ h => congrArg Board.lastMove h

theorem OneRound.Trees.getSolution {κ : Type} {hash : (Fin 8 → Fin 8 → PieceType) → κ}
    {r : OneRound} {cache : SolutionCache κ} (h : r.Trees hash cache) (i : ℕ) (next : Board) (t : ℕ)
    (hnext : r.minStepStates[i]? = some next) (ht : r.minStepSolutionTrees[i]? = some t) :
    cache.getSolution (hash next.positions) = some t := by
  obtain ⟨h1, h1'⟩ := List.getElem?_eq_some_iff.mp hnext
  obtain ⟨h2, h2'⟩ := List.getElem?_eq_some_iff.mp ht
  have hi := (List.forall₂_iff_get.mp h).2 i h1 h2
  rw [List.get_eq_getElem, List.get_eq_getElem, h1', h2'] at hi
  exact hi

/-- **Recorded replies and solutions line up** whenever `expandMinStep` returns a
mate, in every round of a search from a loaded board on which the side moving second
is not attacked, whatever was tried and searched before. -/
theorem replies_line_up {κ : Type} [DecidableEq κ] (flags : Flags) (order : MoveOrder)
    (hash : (Fin 8 → Fin 8 → PieceType) → κ) {earlier : List Search} {search : Search}
    {results : List (Int × OneRound)} {result : Int × OneRound} {w₀ w : World κ}
    (h₀ : Returns (runSearches flags order hash earlier) World.initial results w₀)
    (h : Returns (search.run flags order hash) w₀ result w)
    (hb : search.board.FileLoaded) (hsecond : search.board.isChecked (!search.blackFirst) = false) :
    w.Since w₀.trace (Event.RepliesLinedUp hash flags) := by
  obtain ⟨new, hnew, hall⟩ := events_of_returns (region_sound flags) h₀ (hb.playable hsecond) h
  refine ⟨new, hnew, fun event he => ?_⟩
  have hok := hall event he
  cases event with
  | minStep r levelsLeft score cache =>
    obtain ⟨s, hmoved, -, hrecorded⟩ := hok
    intro hmate
    obtain ⟨hstates, htrees, hlast⟩ := hrecorded hmate
    rw [(hmoved.played fun _ h => h).replies_eq] at hstates hlast
    refine ⟨s, hmoved.maxStepState, hstates, ?_, fun _ => ⟨?_, htrees.getSolution⟩, fun hone => ?_⟩
    · rw [hstates]
      exact (Board.nodup_legalMoves flags s (!r.blackFirst)).map s.makeMove_injective
    · exact (List.Forall₂.length_eq htrees).symm
    · have hnil : r.minStepStates = [] := by
        rw [hstates, List.map_eq_nil_iff]
        exact hlast hone
      refine ⟨hnil, List.eq_nil_of_length_eq_zero ?_⟩
      rw [← List.Forall₂.length_eq htrees, hnil]
      rfl
  | _ => trivial

/-- Two levels of search from the rook mate. -/
theorem replies_line_up_rook_mate :
    ∃ result w, Returns (Search.run Flags.default .asGenerated placementKey
        ⟨Board.rookMate, false, 2⟩) World.initial result w ∧
      w.Since [] (Event.RepliesLinedUp placementKey Flags.default) := by
  have h₀ : Returns (runSearches Flags.default .asGenerated placementKey []) World.initial []
      World.initial := returns_pure _ _
  obtain ⟨result, w, h⟩ := returns_of_levels ⟨Board.rookMate, false, 2⟩ h₀
    (by decide) (by decide)
  exact ⟨result, w, h, replies_line_up Flags.default .asGenerated placementKey h₀ h
    Board.rookMate_fileLoaded Board.rookMate_second⟩

/-! ## The bounds of the cache entries -/

/-- **No failed search is recorded as a mate bound, and every cached mate has a
solution**: a search with a score below `CHECKMATE` meets an entry whose first
bound is below its height, and leaves the second bound alone; and wherever the
min cache answers `CHECKMATE` the solution map has the key, so that no assertion
fails and the run returns. -/
theorem cache_bounds {κ : Type} [DecidableEq κ] (flags : Flags) (order : MoveOrder)
    (hash : (Fin 8 → Fin 8 → PieceType) → κ) {searches : List Search}
    (hlevels : ∀ s ∈ searches, 1 ≤ s.moves ∧ (s.moves : Int) < INT_MAX) :
    ∃ results w, Returns (runSearches flags order hash searches) World.initial results w ∧
      (∀ mm r sig height score cache, Event.update mm r sig height score cache ∈ w.trace →
        score < CHECKMATE → ∀ entry, cache.signatures mm sig = some entry →
        entry.1 < height ∧ ∃ first,
          (cache.updateCache flags mm sig height score).signatures mm sig = some (first, entry.2)) ∧
      (∀ r sig height cache, Event.lookup false r sig height cache (some CHECKMATE) ∈ w.trace →
        ∃ t, cache.solutionMap sig = some t) := by
  have hmax : ((2147483646 : ℕ) : Int) < INT_MAX := by decide
  have hruns : Runs False (Step hash flags (fun _ => True) fun _ => 2147483646)
      (fun w => w.cache.Known) (runSearches flags order hash searches) _ :=
    runSearches_runs (region_all flags) searches fun s hs => by
      obtain ⟨h1, h2⟩ := hlevels s hs
      unfold INT_MAX at h2
      exact ⟨trivial, by omega, Or.inr ⟨h1, by unfold INT_MAX; omega⟩⟩
  obtain ⟨results, w, hret, -, -, -, hsince⟩ := (hruns.frame (stable_events [])).total
    ⟨SolutionCache.known_initial, SolutionCache.known_initial, World.Since.refl World.initial _⟩
  obtain ⟨new, hnew, hall⟩ := hsince
  rw [List.append_nil] at hnew
  refine ⟨results, w, hret, ?_, ?_⟩
  · intro mm r sig height score cache hmem hscore entry hentry
    obtain ⟨-, -, -, hbelow, -⟩ := hall _ (hnew ▸ hmem)
    have hlt := hbelow entry hentry
    refine ⟨hlt, ?_⟩
    rw [SolutionCache.signatures_updateCache, if_pos ⟨rfl, rfl⟩, hentry]
    unfold SolutionCache.updatedEntry
    by_cases hlow : (height : Int) < flags.minStoreLevel
    · rw [if_pos hlow]
      exact ⟨entry.1, rfl⟩
    · rw [if_neg hlow]
      dsimp only
      rw [if_pos (by simp [hscore, hlt])]
      exact ⟨_, rfl⟩
  · intro r sig height cache hmem
    obtain ⟨-, -, hle, hknown, hscore⟩ := hall _ (hnew ▸ hmem)
    rcases getScoreFromCache_cases cache false sig height with ⟨hs, -⟩ | ⟨e, -, -, hs⟩ |
      ⟨e, he, -, h2, -⟩
    · rw [hs] at hscore; cases hscore
    · rw [hs] at hscore; cases hscore
    · have hle' : (height : Int) ≤ ((2147483646 : ℕ) : Int) := by exact_mod_cast hle
      exact hknown sig e he (lt_of_le_of_lt (h2.trans hle') hmax)

/-- The flags with which the scores of one move are kept. -/
def Flags.storeAll : Flags := ⟨false, 1, by decide⟩

/-- White mates in three, with the only piece that can move: the pawn walks to the last row
while the black king walks between its pawns. -/
def Board.pawnWalk : Board :=
  ofText "ka1\npb2\npd5\npf6\nph6\nKh8\nPa2\nPb3\nPf7\nPh7\n"

/-- The mate is denied with one move and with two, found with three, and found again. -/
def Search.pawnWalks : List Search := [1, 2, 3, 3].map (⟨Board.pawnWalk, false, ·⟩)

/-- A score below `CHECKMATE` is recorded where there is an entry. -/
def Event.failsAgain {κ : Type} : Event κ → Bool
  | .update mm _ sig _ score cache => score < CHECKMATE && (cache.signatures mm sig).isSome
  | _ => false

/-- The min cache answers with a mate. -/
def Event.answersMate {κ : Type} : Event κ → Bool
  | .lookup false _ _ _ _ (some score) => score == CHECKMATE
  | _ => false

/-- In the searches of the walk both happen. -/
theorem cache_bounds_pawn_walk :
    ∃ results w, Returns (runSearches Flags.storeAll .asGenerated placementKey Search.pawnWalks)
        World.initial results w ∧
      (∃ event ∈ w.trace, event.failsAgain = true) ∧
      (∃ event ∈ w.trace, event.answersMate = true) ∧
      (∀ mm r sig height score cache, Event.update mm r sig height score cache ∈ w.trace →
        score < CHECKMATE → ∀ entry, cache.signatures mm sig = some entry →
        entry.1 < height ∧ ∃ first, (cache.updateCache Flags.storeAll mm sig height
          score).signatures mm sig = some (first, entry.2)) ∧
      (∀ r sig height cache, Event.lookup false r sig height cache (some CHECKMATE) ∈ w.trace →
        ∃ t, cache.solutionMap sig = some t) := by
  have hlevels : ∀ s ∈ Search.pawnWalks, 1 ≤ s.moves ∧ (s.moves : Int) < INT_MAX := by
    intro s hs
    obtain ⟨n, hn, rfl⟩ := List.mem_map.mp hs
    have hmoves : ∀ k ∈ [1, 2, 3, 3], 1 ≤ k ∧ ((k : ℕ) : Int) < INT_MAX := by decide
    exact hmoves n hn
  have hrun : test (runSearches Flags.storeAll .asGenerated placementKey Search.pawnWalks)
      World.initial (fun _ w => w.trace.any Event.failsAgain && w.trace.any Event.answersMate)
        = true := by decide +kernel
  obtain ⟨results, w, hret, hupdates, hanswers⟩ :=
    cache_bounds Flags.storeAll .asGenerated placementKey hlevels
  obtain ⟨results', w', hret', htests⟩ := returns_of_test hrun
  obtain ⟨rfl, rfl⟩ := hret.unique hret'
  obtain ⟨hfails, hmates⟩ := Bool.and_eq_true_iff.mp htests
  exact ⟨results, w, hret, List.any_eq_true.mp hfails, List.any_eq_true.mp hmates, hupdates,
    hanswers⟩

end Chess
