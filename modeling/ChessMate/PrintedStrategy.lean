import ChessMate.PathReader
import ChessMate.RoundVerdict
import ChessMate.ShallowSearch

/-! # A printed path is a strategy

`dfs.cc` searches a board and prints the path of the root round.  When the search has
found a mate, every solution was stored under a new key and no other placement has its
key (`NoCollision`), that text is a complete winning strategy: read back, it is a tree
that gives a legal move, every legal reply to it, a strategy against each, and no reply
only where the move mates.

One reservation comes from the cache.  A solution is stored for a placement, and is
used for every board of the placement, whatever its last move was.  The replies and the
boards after them do not depend on that, but an en passant capture does: such a move of
the tree is legal on a board of the placement that the search has come to, and perhaps
not on the board that the tree has come to (`LegalFirst`).  The printed text marks it
with `^`, so the strategies for which it matters can be told from the text.
-/
namespace Chess
open Outline ProgramLogic MateGame

/-! ## Strategies -/

/-- A move of the first side that a stored solution offers: legal for some last move,
and legal if it is not an en passant capture. -/
structure Board.LegalFirst (flags : Flags) (b : Board) (first : Bool) (m : Move) : Prop where
  somewhere : ∃ last, ({ b with lastMove := last } : Board).IsLegal flags first m
  here : m.special ≠ .pawnEnPassant → b.IsLegal flags first m

mutual

/-- **The tree is a winning strategy on the board**, with the first side to move. -/
def Strategy (flags : Flags) (first : Bool) : Board → RoseTree Move → Prop
  | b, .node m replies => b.LegalFirst flags first m ∧
      (replies.isEmpty = true → (b.makeMove m).isChecked (!first) = true) ∧
      AnswersEach flags first (b.makeMove m) ((b.makeMove m).legalMoves flags (!first)) replies

/-- Every reply has its answer, in order. -/
def AnswersEach (flags : Flags) (first : Bool) : Board → List Move → List (RoseTree Move) → Prop
  | _, ms, [] => ms = []
  | s, ms, t :: ts =>
    ∃ m ms', ms = m :: ms' ∧ AnswersReply flags first s m t ∧ AnswersEach flags first s ms' ts

/-- The tree shows the reply, and a strategy on the board after it. -/
def AnswersReply (flags : Flags) (first : Bool) : Board → Move → RoseTree Move → Prop
  | s, m, .node m' [t] => m' = m ∧ Strategy flags first (s.makeMove m) t
  | _, _, _ => False

end

section Lists
variable {flags : Flags} {first : Bool} {s : Board}

/-- Answers that line up with the replies answer each. -/
theorem answersEach_of_forall₂ {ms : List Move} {ts : List (RoseTree Move)}
    (h : List.Forall₂ (AnswersReply flags first s) ms ts) : AnswersEach flags first s ms ts := by
  induction h with
  | nil => exact rfl
  | cons hhead _ ih => exact ⟨_, _, rfl, hhead, ih⟩

/-- Two lists that line up with a third line up with each other. -/
theorem forall₂_of_common {α β γ : Type} {R : α → β → Prop} {S : α → γ → Prop} {as : List α}
    {bs : List β} {cs : List γ} (hR : List.Forall₂ R as bs) (hS : List.Forall₂ S as cs) :
    List.Forall₂ (fun b c => ∃ a, R a b ∧ S a c) bs cs := by
  induction hR generalizing cs with
  | nil =>
    cases hS
    exact .nil
  | cons hhead _ ih =>
    cases hS with
    | cons hhead' htail' => exact .cons ⟨_, hhead, hhead'⟩ (ih htail')

end Lists

/-! ## A strategy wins -/

/-- No move of the trees is an en passant capture. -/
def NoPassant (moves : List (ℕ × Move)) : Prop := ∀ x ∈ moves, x.2.special ≠ .pawnEnPassant

section Wins
variable {flags : Flags} {first : Bool}

mutual

/-- **A strategy without en passant captures wins**, by the ordinary rules. -/
theorem Strategy.wins (d : ℕ) (t : RoseTree Move) (hno : NoPassant (t.outline d)) {b : Board}
    (h : Strategy flags first b t) : ∃ n, (mateGame flags first).Wins n b := by
  cases t with
  | node m replies =>
    rw [RoseTree.outline] at hno
    obtain ⟨hlegal, hmate, hanswers⟩ := h
    have hm := hlegal.here (hno _ List.mem_cons_self)
    obtain ⟨n, hn⟩ := AnswersEach.wins (d + 1) replies
      (fun x hx => hno x (List.mem_cons_of_mem _ hx)) hanswers
    refine ⟨n + 1, Game.wins_succ.mpr ⟨_, ⟨m, hm, rfl⟩, (Game.loses_iff_forall ?_).mpr ?_⟩⟩
    · cases replies with
      | nil => exact Or.inl (hmate rfl)
      | cons t ts =>
        rw [AnswersEach] at hanswers
        obtain ⟨m', ms, hms, -⟩ := hanswers
        refine Or.inr ⟨_, m', Board.mem_legalMoves.mp ?_, rfl⟩
        rw [hms]
        exact List.mem_cons_self
    · rintro _ ⟨m', hm', rfl⟩
      exact hn m' (Board.mem_legalMoves.mpr hm')

theorem AnswersEach.wins (d : ℕ) (ts : List (RoseTree Move)) (hno : NoPassant (outlineAll d ts))
    {s : Board} {ms : List Move} (h : AnswersEach flags first s ms ts) :
    ∃ n, ∀ m ∈ ms, (mateGame flags first).Wins n (s.makeMove m) := by
  cases ts with
  | nil =>
    rw [AnswersEach] at h
    subst h
    exact ⟨0, fun m hm => by cases hm⟩
  | cons t ts =>
    rw [AnswersEach] at h
    rw [outlineAll] at hno
    obtain ⟨m, ms, rfl, hreply, hrest⟩ := h
    obtain ⟨n, hn⟩ := AnswersReply.wins d t (fun x hx => hno x (List.mem_append_left _ hx)) hreply
    obtain ⟨n', hn'⟩ := AnswersEach.wins d ts (fun x hx => hno x (List.mem_append_right _ hx)) hrest
    refine ⟨max n n', fun m' hm' => ?_⟩
    rcases List.mem_cons.mp hm' with rfl | hm'
    · exact hn.mono (le_max_left n n')
    · exact (hn' m' hm').mono (le_max_right n n')

theorem AnswersReply.wins (d : ℕ) (t : RoseTree Move) (hno : NoPassant (t.outline d)) {s : Board}
    {m : Move} (h : AnswersReply flags first s m t) :
    ∃ n, (mateGame flags first).Wins n (s.makeMove m) := by
  match t, h with
  | .node m' [t], h =>
    rw [AnswersReply] at h
    rw [RoseTree.outline, outlineAll_cons] at hno
    exact Strategy.wins (d + 1) t
      (fun x hx => hno x (List.mem_cons_of_mem _ (List.mem_append_left _ hx))) h.2

end

end Wins

/-! ## The trees of the forest -/

section Trees
variable {f : StaticForest Move}

theorem mapM_mono {α β : Type} {g g' : α → Option β} (hg : ∀ x y, g x = some y → g' x = some y)
    {l : List α} {ys : List β} (h : l.mapM g = some ys) : l.mapM g' = some ys := by
  induction l generalizing ys with
  | nil => exact h
  | cons x l ih =>
    rw [List.mapM_cons] at h
    obtain ⟨y, hy, hrest⟩ := Option.bind_eq_some_iff.mp h
    obtain ⟨ys', hys', hdone⟩ := Option.bind_eq_some_iff.mp hrest
    obtain rfl := Option.some.inj hdone
    rw [List.mapM_cons, hg x y hy, ih hys']
    rfl

theorem solutionTree_succ {fuel i : ℕ} {m : Move} {children : List ℕ}
    (hnode : f.node? i = some ⟨m, children⟩) :
    solutionTree f (fuel + 1) i =
      (children.mapM (solutionTree f fuel)).map (RoseTree.node m) := by
  rw [solutionTree, hnode]
  dsimp only
  cases children.mapM (solutionTree f fuel) <;> rfl

/-- More fuel leaves a tree as it is. -/
theorem solutionTree_add {fuel : ℕ} (more : ℕ) {i : ℕ} {t : RoseTree Move}
    (h : solutionTree f fuel i = some t) : solutionTree f (fuel + more) i = some t := by
  induction fuel generalizing i t with
  | zero => cases h
  | succ fuel ih =>
    cases hnode : f.node? i with
    | none =>
      rw [solutionTree, hnode] at h
      cases h
    | some node =>
      rw [solutionTree_succ hnode] at h
      obtain ⟨ts, hts, rfl⟩ := Option.map_eq_some_iff.mp h
      rw [Nat.add_right_comm, solutionTree_succ hnode, mapM_mono (fun _ _ => ih) hts]
      rfl

/-- **In a grounded forest the nodes have trees.** -/
theorem StaticForest.Grounded.solutionTrees (h : f.Grounded) {cs : List ℕ}
    (hcs : ∀ c ∈ cs, c < f.size) :
    ∃ fuel ts, ∀ more, cs.mapM (solutionTree f (fuel + more)) = some ts := by
  obtain ⟨fuel, hfuel⟩ := exists_prints_all fun c hc => h.prints (hcs c hc)
  obtain ⟨texts, htexts⟩ := hfuel ""
  have htext := htexts 0
  simp only [printSolution_eq] at htext
  rw [mapM_map_option, Option.map_eq_some_iff] at htext
  obtain ⟨ts, hts, -⟩ := htext
  exact ⟨fuel, ts, fun more => mapM_mono (fun _ _ => solutionTree_add more) hts⟩

end Trees

/-! ## Stored solutions are strategies -/

section Stored
variable {κ : Type} {hash : (Fin 8 → Fin 8 → PieceType) → κ} {flags : Flags} {first : Bool}
variable {w : World κ}

/-- Boards of one placement differ in the last move. -/
theorem Board.eq_withLastMove {b b' : Board} (h : KingsOk b) (h' : KingsOk b')
    (hpos : b.positions = b'.positions) (hscore : b.score = b'.score) :
    b' = { b with lastMove := b'.lastMove } := by
  refine ext_get (fun sq => (get_congr_positions hpos sq).symm) (fun c => ?_) hscore.symm rfl
  exact (h.kingPosition_congr h' hpos c).symm

/-- A move that is legal on one board of the placement is offered on every other. -/
theorem Board.LegalFirst.of_placement {b b' : Board} (h : KingsOk b) (h' : KingsOk b')
    (hpos : b.positions = b'.positions) (hscore : b.score = b'.score) {m : Move}
    (hm : b'.IsLegal flags first m) : b.LegalFirst flags first m where
  somewhere := ⟨b'.lastMove, Board.eq_withLastMove h h' hpos hscore ▸ hm⟩
  here hs := isLegal_of_positions h' h hpos.symm hscore.symm hs hm

/-- The rounds of which solutions were stored were about boards of play. -/
def World.StoresUnscored (w : World κ) : Prop :=
  ∀ sig r cache, Event.store sig r cache ∈ w.trace → r.attackState.Unscored

/-- The key of the board is the key of no other placement with a stored solution. -/
def World.ToldApart (w : World κ) (hash : (Fin 8 → Fin 8 → PieceType) → κ) (b : Board) : Prop :=
  ∀ sig r cache, Event.store sig r cache ∈ w.trace →
    hash b.positions = hash r.curBoard.positions → b.positions = r.curBoard.positions

/-- A move and a reply on the board lead to boards that are told apart. -/
def World.RepliesApart (w : World κ) (hash : (Fin 8 → Fin 8 → PieceType) → κ) (flags : Flags)
    (first : Bool) (b : Board) : Prop :=
  ∀ m m', b.IsLegal flags first m → (b.makeMove m).IsLegal flags (!first) m' →
    w.ToldApart hash ((b.makeMove m).makeMove m')

/-- **No collision of keys in the run**, as far as solutions are asked for: after a move
and a reply on a root, or on a board with a stored solution. -/
structure World.NoCollision (w : World κ) (hash : (Fin 8 → Fin 8 → PieceType) → κ) (flags : Flags)
    (first : Bool) (roots : List Board) : Prop where
  root : ∀ b ∈ roots, w.RepliesApart hash flags first b
  stored : ∀ sig r cache, Event.store sig r cache ∈ w.trace →
    w.RepliesApart hash flags first r.curBoard

/-- An injective hash has no collision. -/
theorem World.NoCollision.of_injective (hinj : Function.Injective hash) (roots : List Board) :
    w.NoCollision hash flags first roots where
  root _ _ _ _ _ _ _ _ _ _ hkey := hinj hkey
  stored _ _ _ _ _ _ _ _ _ _ _ _ hkey := hinj hkey

/-- **The tree of a stored solution is a strategy on every board of its placement.** -/
theorem strategy_of_solutionTree {roots : List Board} (hkeys : w.NoCollision hash flags first roots)
    (htrees : w.ProofTrees hash flags first) (hstores : w.StoresUnscored) (fuel : ℕ) :
    ∀ {b : Board} {i : ℕ} {t : RoseTree Move}, KingsOk b → b.score = 0 → w.ToldApart hash b →
      w.cache.solutionMap (hash b.positions) = some i →
      solutionTree w.cache.solutions fuel i = some t → Strategy flags first b t := by
  -- a reply takes one node and its solution another, so the fuel falls by two
  induction fuel using Nat.strong_induction_on with
  | _ fuel ih =>
  intro b i t hk hscore hapart hi ht
  obtain ⟨r, cache, hevent, hsig, rfl, m, children, htree⟩ := htrees _ _ hi
  obtain ⟨hsound, hrscore⟩ := hstores _ _ _ hevent
  have hpos : b.positions = r.curBoard.positions := hapart _ _ _ hevent hsig
  have hsame : b.score = r.curBoard.score := hscore.trans hrscore.symm
  have hmade : b.makeMove m = r.curBoard.makeMove m := Board.makeMove_congr hk hsound.kings hpos hsame m
  have hplay : Playable (b.makeMove m) (!r.blackFirst) := hmade ▸ hsound.makeMove htree.legal
  cases fuel with
  | zero => cases ht
  | succ fuel =>
    rw [solutionTree_succ htree.node] at ht
    obtain ⟨ts, hts, rfl⟩ := Option.map_eq_some_iff.mp ht
    have hnodes := forall₂_of_mapM hts
    have hreplies := htree.replies
    rw [← hmade] at hreplies
    refine ⟨.of_placement hk hsound.kings hpos hsame htree.legal, fun hempty => ?_, ?_⟩
    · have hnone : (r.curBoard.makeMove m).legalMoves flags (!r.blackFirst) = [] := by
        rw [List.isEmpty_iff] at hempty
        rw [← List.length_eq_zero_iff, ← htree.replies.length_eq, hnodes.length_eq, hempty,
          List.length_nil]
      rw [hmade]
      exact htree.mate hnone
    · refine answersEach_of_forall₂ ?_
      have hlined := (List.forall₂_and_left _ _).mpr
        ⟨fun m' hm' => hm', forall₂_of_common hreplies hnodes⟩
      refine hlined.imp ?_
      rintro m' t ⟨hm', child, ⟨i', hchild, hi'⟩, hsolution⟩
      cases fuel with
      | zero => cases hsolution
      | succ fuel =>
        rw [solutionTree_succ hchild] at hsolution
        obtain ⟨ts', hts', rfl⟩ := Option.map_eq_some_iff.mp hsolution
        rw [List.mapM_cons] at hts'
        obtain ⟨t, ht', hrest⟩ := Option.bind_eq_some_iff.mp hts'
        obtain rfl := Option.some.inj hrest
        refine ⟨rfl, ?_⟩
        have hnext := hplay.makeMove (Board.mem_legalMoves.mp hm')
        have hlegal := Board.mem_legalMoves.mp hm'
        rw [hmade] at hlegal
        have hnear := hkeys.stored _ _ _ hevent _ _ htree.legal hlegal
        refine ih fuel (by omega) hnext.kings ?_ (hmade ▸ hnear) (hmade ▸ hi') ht'
        rw [Board.makeMove_score, Board.makeMove_score]
        exact hscore

/-- The solutions of the replies answer them. -/
theorem answers_of_solutions {roots : List Board} (hkeys : w.NoCollision hash flags first roots)
    (htrees : w.ProofTrees hash flags first) (hstores : w.StoresUnscored) {s : Board}
    (hs : Playable s (!first)) (hscore : s.score = 0) {fuel : ℕ} {ms : List Move} {is : List ℕ}
    {ts : List (RoseTree Move)} (hlegal : ∀ m ∈ ms, s.IsLegal flags (!first) m)
    (hapart : ∀ m ∈ ms, w.ToldApart hash (s.makeMove m))
    (hstored : List.Forall₂ (fun m i => w.cache.solutionMap (hash (s.makeMove m).positions) = some i)
      ms is)
    (hnodes : List.Forall₂ (fun i t => solutionTree w.cache.solutions fuel i = some t) is ts) :
    List.Forall₂ (AnswersReply flags first s) ms
      (List.zipWith replyTree (ms.map s.makeMove) ts) := by
  induction hstored generalizing ts with
  | nil => exact .nil
  | @cons m i ms is hi _ ih =>
    cases hnodes with
    | cons ht hts =>
      have hnext := hs.makeMove (hlegal m List.mem_cons_self)
      refine .cons ⟨rfl, ?_⟩ (ih (fun m' hm' => hlegal m' (List.mem_cons_of_mem m hm'))
        (fun m' hm' => hapart m' (List.mem_cons_of_mem m hm')) hts)
      refine strategy_of_solutionTree hkeys htrees hstores fuel hnext.kings ?_
        (hapart m List.mem_cons_self) hi ht
      rw [Board.makeMove_score]
      exact hscore

/-- **The path of a round that has found a mate is a strategy** on the round's board. -/
theorem OneRound.Solved.strategy {roots : List Board} (hkeys : w.NoCollision hash flags first roots)
    (htrees : w.ProofTrees hash flags first) (hstores : w.StoresUnscored) {r : OneRound}
    (hroot : r.curBoard ∈ roots)
    (hsolved : r.Solved hash flags w.cache) (hr : r.attackState.Unscored)
    (hfirst : r.blackFirst = first) {fuel : ℕ} {t : RoseTree Move}
    (ht : r.pathTree w.cache.solutions fuel = some t) : Strategy flags first r.curBoard t := by
  subst hfirst
  obtain ⟨hsound, hscore⟩ := hr
  obtain ⟨m, hm, -, hmade⟩ := hsolved.move
  rw [AttackState.tried_eq hsound, Board.mem_legalMoves] at hm
  have hplayed := played_of_attack hsound hm
  have hplay : Playable (r.curBoard.makeMove m) (!r.blackFirst) := hsound.makeMove hm
  have hreplies : r.minStepStates = ((r.curBoard.makeMove m).legalMoves flags (!r.blackFirst)).map
      (r.curBoard.makeMove m).makeMove := by
    rw [hsolved.replies _ hmade]
    exact congrArg _ hplayed.replies_eq
  have hlined := hsolved.trees
  unfold OneRound.Trees at hlined
  rw [hreplies, List.forall₂_map_left_iff] at hlined
  unfold OneRound.pathTree at ht
  rw [hmade] at ht
  rw [Option.bind_eq_bind, Option.bind_some] at ht
  obtain ⟨ts, hts, hdone⟩ := Option.bind_eq_some_iff.mp ht
  obtain rfl := Option.some.inj hdone
  have hnodes := forall₂_of_mapM hts
  refine ⟨⟨⟨_, hm⟩, fun _ => hm⟩, fun hempty => ?_, ?_⟩
  · have hnil : r.minStepStates = [] := by
      rw [List.isEmpty_iff, List.zipWith_eq_nil_iff] at hempty
      rcases hempty with hnil | hnil
      · exact hnil
      · rw [← List.length_eq_zero_iff, hsolved.trees.length_eq, hnodes.length_eq, hnil]
        rfl
    exact hplayed.checked_eq.symm.trans (hsolved.mated _ hmade hnil)
  · rw [hreplies]
    refine answersEach_of_forall₂
      (answers_of_solutions hkeys htrees hstores hplay ?_ ?_ ?_ hlined hnodes)
    · rw [Board.makeMove_score]
      exact hscore
    · exact fun m' hm' => Board.mem_legalMoves.mp hm'
    · exact fun m' hm' => hkeys.root _ hroot _ _ hm (Board.mem_legalMoves.mp hm')

/-- The path of such a round has a tree. -/
theorem OneRound.Solved.exists_path {r : OneRound} (hsolved : r.Solved hash flags w.cache)
    (hok : w.ForestOk) :
    ∃ fuel t, ∀ more, r.pathTree w.cache.solutions (fuel + more) = some t := by
  have hinside : ∀ i ∈ r.minStepSolutionTrees, i < w.cache.solutions.size := by
    intro i hi
    obtain ⟨sig, hsig⟩ := hsolved.trees.stored i hi
    exact hok.inside sig i hsig
  obtain ⟨fuel, ts, hts⟩ := hok.grounded.solutionTrees hinside
  obtain ⟨m, -, -, hmade⟩ := hsolved.move
  refine ⟨fuel, .node (r.curBoard.makeMove m).lastMove (List.zipWith replyTree r.minStepStates ts),
    fun more => ?_⟩
  unfold OneRound.pathTree
  rw [hmade, hts more]
  rfl

end Stored

/-! ## Whole runs -/

/-- **The path that is printed for a mate is a strategy**: of searches one after another
in one process, for one side from loaded boards on which the other is not attacked, each
that has found a mate prints a text, at the end of the run, and the text shows a winning
strategy on its board, if no solution was stored for two placements under one key.  Where
it marks no en passant capture it proves the mate. -/
theorem printed_paths_are_strategies {κ : Type} [DecidableEq κ] (flags : Flags) (order : MoveOrder)
    {hash : (Fin 8 → Fin 8 → PieceType) → κ} {first : Bool}
    {searches : List Search}
    (hroots : ∀ s ∈ searches, s.board.FileLoaded ∧ s.board.isChecked (!first) = false ∧
      s.blackFirst = first)
    {results : List (Int × OneRound)} {w : World κ}
    (h : Returns (runSearches flags order hash searches) World.initial results w)
    (hfresh : w.FreshStores)
    (hkeys : w.NoCollision hash flags first (searches.map Search.board)) :
    List.Forall₂ (fun s result => result.1 = CHECKMATE →
      ∃ t, Strategy flags first s.board t ∧
        (NoPassant (t.outline 0) → ∃ n, (mateGame flags first).Wins n s.board) ∧ ∃ fuel text,
        (∀ more, result.2.printPath w.cache.solutions (fuel + more) = some text) ∧
        readFrom (2 * result.2.level) text = [t.map Move.notationOf]) searches results := by
  obtain ⟨N, hN⟩ := exists_levels_le searches
  have hunscored : ∀ s ∈ searches, s.root.Unscored := by
    intro s hs
    obtain ⟨hloaded, hsecond, rfl⟩ := hroots s hs
    exact ⟨hloaded.playable hsecond, hloaded.loading.1.score_eq⟩
  have hfirst : ∀ s ∈ searches, s.blackFirst = first := fun s hs => (hroots s hs).2.2
  have hsound : Runs True (Step hash flags (AttackState.SoundFor first) fun _ => N)
      (fun w => w.cache.Known) (runSearches flags order hash searches) _ :=
    runSearches_runs (region_soundFor flags first) searches fun s hs =>
      ⟨⟨(hunscored s hs).1, hfirst s hs⟩, hN s hs, Or.inl trivial⟩
  have hplain : Runs True (Step hash flags AttackState.Unscored fun _ => N)
      (fun w => w.cache.Known) (runSearches flags order hash searches) _ :=
    runSearches_runs (region_unscored flags) searches fun s hs =>
      ⟨hunscored s hs, hN s hs, Or.inl trivial⟩
  have hinitial : (World.initial : World κ).ProofTrees hash flags first := by
    intro sig t ht
    cases ht
  obtain ⟨-, ⟨-, hposts⟩, htrees⟩ := (hsound.frame stable_proofTrees).of_returns
    ⟨SolutionCache.known_initial, fun _ => hinitial⟩ h
  obtain ⟨-, -, hforest⟩ := (hsound.frame stable_forestOk).of_returns
    ⟨SolutionCache.known_initial, fun _ => World.ForestOk.initial⟩ h
  obtain ⟨-, -, -, new, hnew, hevents⟩ := (hplain.frame (stable_events [])).of_returns
    ⟨SolutionCache.known_initial, SolutionCache.known_initial, World.Since.refl _ _⟩ h
  have hstores : w.StoresUnscored := by
    intro sig r cache hmem
    rw [hnew, List.append_nil] at hmem
    exact (hevents _ hmem).1
  refine ((List.forall₂_and_left _ _).mpr ⟨fun s hs => hs, hposts⟩).imp ?_
  rintro s result ⟨hs, hpost⟩ hmate
  obtain ⟨hsolved, hstate⟩ := hpost.solved hmate
  have hboard : result.2.curBoard = s.board := congrArg AttackState.curBoard hstate
  have hside : result.2.blackFirst = first :=
    (congrArg AttackState.blackFirst hstate).trans (hfirst s hs)
  obtain ⟨fuel, t, ht⟩ := hsolved.exists_path (hforest hfresh)
  have hroot : result.2.curBoard ∈ searches.map Search.board :=
    hboard ▸ List.mem_map_of_mem hs
  have hstrategy := hsolved.strategy hkeys (htrees hfresh) hstores hroot
    (hstate ▸ hunscored s hs) hside (ht 0)
  rw [hboard] at hstrategy
  refine ⟨t, hstrategy, fun hno => Strategy.wins 0 t hno hstrategy, fuel, pathText result.2.level t,
    fun more => ?_, readFrom_pathText _ _⟩
  rw [printPath_eq hsolved.trees.length_eq.symm, ht more]
  rfl

/-- The path of the rook mate with two replies. -/
theorem printed_paths_are_strategies_rook_and_pawn :
    ∃ result w t text, Returns (runSearches Flags.default .checksFirst placementKey
        [Search.rookAndPawn]) World.initial [result] w ∧
      Strategy Flags.default false Search.rookAndPawn.board t ∧
      (∃ fuel, result.2.printPath w.cache.solutions fuel = some text) ∧
      readFrom (2 * result.2.level) text = [t.map Move.notationOf] := by
  have hloaded : (Board.ofText "kf7\nra2\nKh7\nPh6\n").FileLoaded :=
    Board.fileLoaded_ofText (by decide +kernel)
  have hsecond : Search.rookAndPawn.board.isChecked (!false) = false := by decide +kernel
  have hrun : test (runSearches Flags.default .checksFirst placementKey [Search.rookAndPawn])
      World.initial (fun results _ => decide (results.map Prod.fst = [CHECKMATE])) = true := by
    decide +kernel
  obtain ⟨results, w, hret, hpost⟩ := returns_of_test hrun
  obtain ⟨result, rfl, hmate⟩ := List.map_eq_singleton_iff.mp (of_decide_eq_true hpost)
  have hshallow := runSearches_keeps (by decide) [Search.rookAndPawn] (by decide) _ _ _ hret
    World.Shallow.initial
  have hall := printed_paths_are_strategies Flags.default .checksFirst
    (fun s hs => by
      obtain rfl := List.mem_singleton.mp hs
      exact ⟨hloaded, hsecond, rfl⟩) hret hshallow.fresh
    (.of_injective placementKey_injective _)
  obtain ⟨hfound, -⟩ := List.forall₂_cons.mp hall
  obtain ⟨t, hstrategy, -, fuel, text, htext, hread⟩ := hfound hmate
  exact ⟨result, w, t, text, hret, hstrategy, ⟨fuel + 0, htext 0⟩, hread⟩

end Chess
