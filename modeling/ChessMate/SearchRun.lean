import ChessMate.SearchSteps

/-! # A search runs to its end, and computes the verdict of its game

For every function of the search, in the order of the calls: no assertion fails,
everything that happens to the process is a `Step`, and the score is the verdict
of `searchGame`, provided that the scores found in the cache were right.
`expand_runs` is the result for a whole search.

The bounds on the heights are where the cache and the recursion meet: a search
with `n` levels updates scores at heights up to `n`, and a lookup that missed at
`n + 1` is not overtaken by the search of the children (`stable_below`).
-/
namespace Chess
open ProgramLogic MateGame Relation

section Run
variable {κ : Type} [DecidableEq κ] {hash : (Fin 8 → Fin 8 → PieceType) → κ}
variable {flags : Flags} {order : MoveOrder} {P : AttackState → Prop} {bound : Bool → ℕ}
variable {mayFail : Prop}

/-! ## Lookups -/

/-- What a lookup gives. -/
def LookupPost (mayFail : Prop) (flags : Flags) (mm : Bool) (r : OneRound) (sig : κ) (height : ℕ) (w : World κ) :
    Option Int → Prop
  | none => w.cache.Below mm sig height
  | some score => (score = CHECKMATE ∨ score = NONE) ∧
      w.Sure flags (score = CHECKMATE ↔ Mates flags mm r height) ∧
      (mm = false → score = CHECKMATE → mayFail ∨ ∃ t, w.cache.solutionMap sig = some t)

omit [DecidableEq κ] in
theorem getScoreFromCache_cases (cache : SolutionCache κ) (mm : Bool) (sig : κ) (height : Int) :
    (cache.getScoreFromCache mm sig height = none ∧
      ∀ e, cache.signatures mm sig = some e → e.1 < height ∧ height < e.2) ∨
    (∃ e, cache.signatures mm sig = some e ∧ height ≤ e.1 ∧
      cache.getScoreFromCache mm sig height = some NONE) ∨
    (∃ e, cache.signatures mm sig = some e ∧ e.1 < height ∧ e.2 ≤ height ∧
      cache.getScoreFromCache mm sig height = some CHECKMATE) := by
  unfold SolutionCache.getScoreFromCache
  cases hs : cache.signatures mm sig with
  | none => exact Or.inl ⟨rfl, fun e he => by cases he⟩
  | some e =>
    dsimp only
    by_cases h1 : e.1 ≥ height
    · exact Or.inr (Or.inl ⟨e, rfl, h1, if_pos h1⟩)
    · rw [if_neg h1]
      by_cases h2 : e.2 ≤ height
      · exact Or.inr (Or.inr ⟨e, rfl, not_le.mp h1, h2, if_pos h2⟩)
      · refine Or.inl ⟨if_neg h2, fun e' he' => ?_⟩
        cases he'
        exact ⟨not_le.mp h1, not_le.mp h2⟩

theorem getScore_runs {mm : Bool} {r : OneRound} {sig : κ} {height : ℕ} 
    (ha : About hash flags P mm r sig) (hp : 1 ≤ height) (hb : height ≤ bound mm) (hn : mayFail ∨ (height : Int) < INT_MAX) :
    Runs mayFail (Step hash flags P bound) (fun w => w.cache.Known) (OneRound.getScore mm r sig height)
      fun score w => w.cache.Known ∧ LookupPost mayFail flags mm r sig height w score := by
  refine Runs.one fun w hknown => ⟨.lookup mm r sig height ha hp hb, hknown, ?_⟩
  dsimp only
  rcases getScoreFromCache_cases w.cache mm sig height with ⟨hs, hb⟩ | ⟨e, -, -, hs⟩ |
    ⟨e, he, -, h2, hs⟩
  · rw [hs]
    exact fun e he => (hb e he).1
  · rw [hs]
    refine ⟨Or.inr rfl, fun hright => ?_, fun _ h => by cases h⟩
    exact hright mm r sig height w.cache NONE List.mem_cons_self
  · rw [hs]
    refine ⟨Or.inl rfl, fun hright => ?_, fun hmm _ => ?_⟩
    · exact hright mm r sig height w.cache CHECKMATE List.mem_cons_self
    · subst hmm
      exact hn.imp_right fun hn => hknown sig e he (lt_of_le_of_lt h2 hn)

/-! ## Replies -/

/-- What the search of a round gives. -/
structure ExpandPost (hash : (Fin 8 → Fin 8 → PieceType) → κ) (flags : Flags) (n : ℕ) (r : OneRound)
    (result : Int × OneRound) (w : World κ) : Prop where
  known : w.cache.Known
  right : w.Sure flags (result.1 = CHECKMATE ↔ (searchGame flags).Wins n r.attackState)
  le_mate : result.1 ≤ CHECKMATE
  solved : result.1 = CHECKMATE →
    result.2.Solved hash flags w.cache ∧ result.2.attackState = r.attackState
  noMoves : r.attackState.tried flags = [] →
    result.1 = if r.isChecked then -CHECKMATE else -STALLMATE
  moves : r.attackState.tried flags ≠ [] → result.1 = CHECKMATE ∨ result.1 = NONE
  stored : result.2.Stored w.cache
  moved : (∃ m ∈ r.attackState.tried flags, r.isCircularMove m = false) →
    result.2.maxStepState ≠ none
  notMoved : r.attackState.tried flags = [] → result.2.maxStepState = r.maxStepState

/-- The search of children with `n` levels does what it should. -/
def ChildOk (mayFail : Prop) (hash : (Fin 8 → Fin 8 → PieceType) → κ) (flags : Flags) (P : AttackState → Prop) (n : ℕ)
    (expandChild : OneRound → SearchM κ (Int × OneRound)) : Prop :=
  ∀ r : OneRound, r.Ready → r.minStepSolutionTrees = [] → P r.attackState →
    Runs mayFail (Step hash flags P fun _ => n) (fun w => w.cache.Known) (expandChild r)
      (ExpandPost hash flags n r)

/-- The heights that occur while the replies are tried with `n + 1` levels left. -/
def minBound (n : ℕ) (mm : Bool) : ℕ := if mm then n else n + 1

/-- What the score of a reply board is. -/
structure ReplyPost (mayFail : Prop) (flags : Flags) (n : ℕ) (a : AttackState) (sig : κ) (result : Int × Option Nat)
    (w : World κ) : Prop where
  known : w.cache.Known
  right : w.Sure flags (result.1 = CHECKMATE ↔ (searchGame flags).Wins n a)
  le_mate : result.1 ≤ CHECKMATE
  solution : result.1 = CHECKMATE → (mayFail ∧ result.2 = none) ∨
    ∃ t, result.2 = some t ∧ w.cache.solutionMap sig = some t

theorem returns_store {r : OneRound} {s : Board} (hs : r.maxStepState = some s) (sig : κ)
    (w : World κ) :
    Returns (OneRound.store r sig) w
      (w.cache.storeSolution sig s r.minStepStates r.minStepSolutionTrees).1 (w.stored sig r s) := by
  unfold OneRound.store
  rw [hs]
  exact returns_act _ w

theorem returns_update_if (r : OneRound) (sig : κ) (height : ℕ) (score : Int) (w : World κ) :
    Returns (if flags.minStoreLevel ≤ height then OneRound.update flags false r sig height score
      else pure ⟨⟩ : SearchM κ PUnit) w ⟨⟩
      (if flags.minStoreLevel ≤ height then w.updated flags false r sig height score else w) := by
  split_ifs
  · exact returns_act _ w
  · exact returns_pure _ w

theorem solveReply_runs {expandChild : OneRound → SearchM κ (Int × OneRound)} {n : ℕ}
    (hchild : ChildOk mayFail hash flags P n expandChild) {r : OneRound} (hr : r.Ready)
    (hnil : r.minStepSolutionTrees = []) {sig : κ} (ha : About hash flags P false r sig) :
    Runs mayFail (Step hash flags P (minBound n))
      (fun w => w.cache.Known ∧ w.cache.Below false sig (n + 1))
      (OneRound.solveReply flags expandChild (n + 1) sig r) (ReplyPost mayFail flags n r.attackState sig) := by
  have hexp : Runs mayFail (Step hash flags P (minBound n))
      (fun w => w.cache.Known ∧ w.cache.Below false sig (n + 1)) (expandChild r)
      fun result w => ExpandPost hash flags n r result w ∧ w.cache.Below false sig (n + 1) := by
    refine Runs.weaken ((hchild r hr hnil ha.1).frame (stable_below (Nat.lt_succ_self n))) fun w w' h => ?_
    exact h.weaken fun mm => by unfold minBound; split_ifs <;> omega
  refine hexp.seq ?_
  rintro ⟨score, child⟩ w ⟨hpost, hbelow⟩
  have hok : UpdateOk hash flags P (minBound n) w false r sig (n + 1) score :=
    { about := ha
      pos := by omega
      le_bound := le_refl _
      below := hbelow
      right := hpost.right
      le_mate := hpost.le_mate }
  by_cases hmate : score = CHECKMATE
  · -- the score and the solution are recorded in one step
    subst hmate
    obtain ⟨hsolved, hstate⟩ := hpost.solved rfl
    obtain ⟨m, -, -, hs⟩ := hsolved.move
    have hstep : Step hash flags P (minBound n) w (w.recorded flags r sig (n + 1) child _) :=
      .solved hok hstate hs hsolved
    let w' := if flags.minStoreLevel ≤ ((n + 1 : ℕ) : Int) then
      w.updated flags false r sig (n + 1) CHECKMATE else w
    refine Or.inl ⟨_, _, returns_bind (returns_update_if r sig (n + 1) CHECKMATE w)
      (returns_bind (returns_store hs sig w') (returns_pure _ _)), .single hstep, ?_⟩
    exact
      { known := stable_known _ _ hstep hpost.known
        right := stable_sure _ _ _ hstep hpost.right
        le_mate := le_refl _
        solution := fun _ => Or.inr ⟨_, rfl, (SolutionCache.storeSolution_maps _ _ _ _ _).2.1⟩ }
  · have hupd : Runs mayFail (Step hash flags P (minBound n))
        (fun w' => w' = w) (if flags.minStoreLevel ≤ ((n + 1 : ℕ) : Int) then
          OneRound.update flags false r sig (n + 1) score else pure ⟨⟩ : SearchM κ PUnit)
        (fun _ w' => w'.cache.Known ∧
          w'.Sure flags (score = CHECKMATE ↔ (searchGame flags).Wins n r.attackState)) := by
      split_ifs
      · refine Runs.one ?_
        rintro _ rfl
        have hstep : Step hash flags P (minBound n) _ _ := .update hok (Or.inr hmate)
        exact ⟨hstep, stable_known _ _ hstep hpost.known, stable_sure _ _ _ hstep hpost.right⟩
      · refine Runs.ret ?_
        rintro _ rfl
        exact ⟨hpost.known, hpost.right⟩
    refine Runs.seq hupd (fun _ => ?_) w rfl
    rw [if_neg hmate]
    refine Runs.ret fun w' h => ?_
    exact
      { known := h.1
        right := h.2
        le_mate := hpost.le_mate
        solution := fun h => absurd h hmate }

/-- The region is closed under a first-side move and a reply. -/
def Region (flags : Flags) (P : AttackState → Prop) : Prop :=
  ∀ a, P a → ∀ m ∈ a.tried flags, a.round.isCircularMove m = false →
    ∀ m' ∈ (a.after m).replies flags, P ((a.after m).after m')

theorem OneRound.Moved.region_after (hreg : Region flags P) {r : OneRound} {s : Board}
    (h : r.Moved flags P s) {m : Move} (hm : m ∈ (r.defenceState s).replies flags) :
    P ((r.defenceState s).after m) := by
  obtain ⟨m₁, hm₁, hcirc, rfl⟩ := h.move
  exact hreg r.attackState h.region m₁ hm₁ hcirc m hm

theorem scoreReply_runs (hreg : Region flags P)
    {expandChild : OneRound → SearchM κ (Int × OneRound)} {n : ℕ}
    (hchild : ChildOk mayFail hash flags P n expandChild) (hn : mayFail ∨ ((n + 1 : ℕ) : Int) < INT_MAX)
    {r : OneRound} {s : Board} (hr : r.Moved flags P s) {m : Move}
    (hm : m ∈ (r.defenceState s).replies flags) :
    Runs mayFail (Step hash flags P (minBound n)) (fun w => w.cache.Known)
      (OneRound.scoreReply flags hash expandChild (n + 1) r s (s.makeMove m))
      (ReplyPost mayFail flags n ((r.defenceState s).after m) (hash (s.makeMove m).positions)) := by
  have habout : About hash flags P false
      (OneRound.create (s.makeMove m) r.blackFirst (r.level + 1) (some ⟨r.curBoard, s⟩))
      (hash (s.makeMove m).positions) :=
    ⟨hr.region_after hreg hm, Option.some_ne_none _, rfl⟩
  refine Runs.seq (getScore_runs habout (by omega) (le_refl _) hn) fun score => ?_
  cases score with
  | none => exact solveReply_runs hchild (OneRound.ready_create _ _ _ _) rfl habout
  | some score =>
    dsimp only
    by_cases hmate : score = CHECKMATE
    · rw [if_pos hmate]
      refine Runs.read ?_
      rintro w ⟨hknown, -, hright, hsol⟩
      exact
        { known := hknown
          right := hright
          le_mate := le_of_eq hmate
          solution := fun _ => by
            cases ht : w.cache.solutionMap (hash (s.makeMove m).positions) with
            | none =>
              rcases hsol rfl hmate with hf | ⟨t, ht'⟩
              · exact Or.inl ⟨hf, ht⟩
              · rw [ht] at ht'; cases ht'
            | some t => exact Or.inr ⟨t, ht, rfl⟩ }
    · rw [if_neg hmate]
      refine Runs.ret ?_
      rintro w ⟨hknown, hcases, hright, -⟩
      exact
        { known := hknown
          right := hright
          le_mate := by
            rcases hcases with h | h
            · exact absurd h hmate
            · rw [h]; decide
          solution := fun h => absurd h hmate }

/-- The round with other recorded replies. -/
abbrev OneRound.withReplies (r : OneRound) (states : List Board) (trees : List ℕ) : OneRound :=
  { r with minStepStates := states, minStepSolutionTrees := trees }

theorem OneRound.withReplies_agrees (r : OneRound) (states : List Board) (trees : List ℕ) :
    (r.withReplies states trees).Agrees r := ⟨rfl, rfl, rfl, rfl⟩

/-- What a reply that was tried leaves in the round. -/
structure HandlePost (hash : (Fin 8 → Fin 8 → PieceType) → κ) (flags : Flags) (n : ℕ) (r : OneRound)
    (s : Board) (m : Move) (result : Int × OneRound) (w : World κ) : Prop where
  known : w.cache.Known
  right : w.Sure flags
    (result.1 = CHECKMATE ↔ (searchGame flags).Wins n ((r.defenceState s).after m))
  le_mate : result.1 ≤ CHECKMATE
  round : ∃ states trees, result.2 = r.withReplies states trees
  stored : r.Stored w.cache → result.2.Stored w.cache
  solution : result.1 = CHECKMATE → ∃ t, w.cache.solutionMap (hash (s.makeMove m).positions) = some t ∧
    result.2 = r.withReplies (r.minStepStates ++ [s.makeMove m]) (r.minStepSolutionTrees ++ [t])
  searched : result.1 = CHECKMATE → n ≠ 0

theorem handleMinStepBoard_runs (hreg : Region flags P)
    {expandChild : OneRound → SearchM κ (Int × OneRound)} {n : ℕ}
    (hchild : 1 ≤ n → ChildOk mayFail hash flags P n expandChild) (hn : mayFail ∨ ((n + 1 : ℕ) : Int) < INT_MAX)
    {r : OneRound} {s : Board} (hr : r.Moved flags P s) {m : Move}
    (hm : m ∈ (r.defenceState s).replies flags) :
    Runs mayFail (Step hash flags P (minBound n)) (fun w => w.cache.Known)
      (OneRound.handleMinStepBoard flags hash expandChild (n + 1) r s (s.makeMove m))
      (HandlePost hash flags n r s m) := by
  unfold OneRound.handleMinStepBoard
  by_cases hlevel : 1 < n + 1
  · rw [if_pos hlevel]
    refine Runs.seq (scoreReply_runs hreg (hchild (by omega)) hn hr hm) ?_
    rintro ⟨score, solution⟩
    dsimp only
    by_cases hmate : score = CHECKMATE
    · rw [if_pos hmate]
      intro w hpost
      rcases hpost.solution hmate with ⟨hf, hsol⟩ | ⟨t, hsol, ht⟩
      · obtain rfl : solution = none := hsol
        exact Or.inr ⟨hf, _, rfl⟩
      obtain rfl : solution = some t := hsol
      refine Or.inl ⟨_, _, returns_pure _ w, .refl, ?_⟩
      exact
        { known := hpost.known
          right := hpost.right
          le_mate := hpost.le_mate
          round := ⟨_, _, rfl⟩
          stored := fun hstored t' ht' => by
            rcases List.mem_append.mp ht' with ht' | ht'
            · exact hstored t' ht'
            · rw [List.mem_singleton.mp ht']
              exact ⟨_, ht⟩
          solution := fun _ => ⟨t, ht, rfl⟩
          searched := fun _ => by omega }
    · rw [if_neg hmate]
      refine Runs.ret fun w hpost => ?_
      exact
        { known := hpost.known
          right := hpost.right
          le_mate := hpost.le_mate
          round := ⟨_, r.minStepSolutionTrees, rfl⟩
          stored := id
          solution := fun h => absurd h hmate
          searched := fun h => absurd h hmate }
  · -- with one level left any reply refutes the move
    rw [if_neg hlevel]
    obtain rfl : n = 0 := by omega
    have hne : NONE ≠ CHECKMATE := by decide
    have hle : NONE ≤ CHECKMATE := by decide
    refine Runs.ret fun w hknown => ?_
    exact
      { known := hknown
        right := fun _ => iff_of_false hne id
        le_mate := hle
        round := ⟨_, r.minStepSolutionTrees, rfl⟩
        stored := id
        solution := fun h => absurd h hne
        searched := fun h => absurd h hne }

theorem OneRound.Moved.of_same {r r' : OneRound} {s : Board} (h : r.Moved flags P s)
    (hs : r'.SameRound r) (h1 : r'.maxStepState = r.maxStepState)
    (h2 : r'.maxMovePiece = r.maxMovePiece) : r'.Moved flags P s where
  ready := h.ready.of_agrees hs.toAgrees
  region := hs.attackState_eq ▸ h.region
  move := by
    obtain ⟨m, hm, hc, hmade⟩ := h.move
    refine ⟨m, hs.attackState_eq ▸ hm, ?_, hs.curBoard ▸ hmade⟩
    rw [OneRound.isCircularMove_eq, hs.attackState_eq]
    exact hc
  maxStepState := h1.trans h.maxStepState
  maxMovePiece := h2.trans h.maxMovePiece

theorem OneRound.Moved.withReplies {r : OneRound} {s : Board} (h : r.Moved flags P s)
    (states : List Board) (trees : List ℕ) : (r.withReplies states trees).Moved flags P s :=
  h.of_same ⟨r.withReplies_agrees states trees, rfl⟩ rfl rfl

theorem makeOneMinMove_runs (hreg : Region flags P)
    {expandChild : OneRound → SearchM κ (Int × OneRound)} {n : ℕ}
    (hchild : 1 ≤ n → ChildOk mayFail hash flags P n expandChild) (hn : mayFail ∨ ((n + 1 : ℕ) : Int) < INT_MAX)
    {r : OneRound} {s : Board} (hr : r.Moved flags P s) {m : Move}
    (hm : m ∈ (r.defenceState s).replies flags) :
    Runs mayFail (Step hash flags P (minBound n)) (fun w => w.cache.Known)
      (OneRound.makeOneMinMove flags hash expandChild (n + 1) r s m)
      (HandlePost hash flags n r s m) := by
  have hnote : Runs mayFail (Step hash flags P (minBound n)) (fun w : World κ => w.cache.Known)
      (OneRound.note fun _ => .minMove r m s (s.makeMove m)) fun _ w => w.cache.Known :=
    Runs.one fun w hknown => ⟨.note _ ⟨hr, hm, rfl⟩, hknown⟩
  exact hnote.seq fun _ => handleMinStepBoard_runs hreg hchild hn hr hm

/-! ## The loop over the replies -/

/-- What the loop over the replies `ms` gives, with `hasNextMove` before it. -/
structure LoopPost (hash : (Fin 8 → Fin 8 → PieceType) → κ) (flags : Flags) (n : ℕ) (s : Board)
    (ms : List Move) (hasNextMove : Bool) (r : OneRound) (result : Int × OneRound) (w : World κ) :
    Prop where
  known : w.cache.Known
  right : w.Sure flags (result.1 = CHECKMATE ↔
    (r.isMinChecked = true ∨ hasNextMove = true ∨ ms ≠ []) ∧
      ∀ m ∈ ms, (searchGame flags).Wins n ((r.defenceState s).after m))
  le_mate : result.1 ≤ CHECKMATE
  mated : result.1 = CHECKMATE → r.isMinChecked = true ∨ hasNextMove = true ∨ ms ≠ []
  round : ∃ states trees, result.2 = r.withReplies states trees
  stored : result.2.Stored w.cache
  recorded : result.1 = CHECKMATE →
    result.2.minStepStates = r.minStepStates ++ ms.map s.makeMove ∧ result.2.Trees hash w.cache
  lastLevel : result.1 = CHECKMATE → n = 0 → ms = []

section LoopPost
variable {n : ℕ} {s : Board} {r : OneRound} {m : Move} {ms : List Move} {hasNextMove : Bool}
variable {result : Int × OneRound} {w : World κ}

omit [DecidableEq κ] in
/-- No reply is left. -/
theorem LoopPost.done (hknown : w.cache.Known) (htrees : r.Trees hash w.cache) :
    LoopPost hash flags n s [] hasNextMove r
      (if r.isMinChecked || hasNextMove then CHECKMATE else STALLMATE, r) w := by
  have hscore : (if (r.isMinChecked || hasNextMove) = true then CHECKMATE else STALLMATE) =
      CHECKMATE ↔ r.isMinChecked = true ∨ hasNextMove = true := by
    rw [← Bool.or_eq_true]
    split_ifs with h
    · exact iff_of_true rfl h
    · exact iff_of_false (by decide) h
  exact
    { known := hknown
      right := fun _ => by
        simp only [hscore, ne_eq, not_true, or_false, List.not_mem_nil, false_imp_iff,
          implies_true, and_true]
      le_mate := by dsimp only; split_ifs <;> decide
      mated := fun h => (hscore.mp h).elim Or.inl fun h => Or.inr (Or.inl h)
      round := ⟨_, _, rfl⟩
      stored := htrees.stored
      recorded := fun _ => ⟨(List.append_nil _).symm, htrees⟩
      lastLevel := fun _ _ => rfl }

omit [DecidableEq κ] in
/-- A reply that does not lose refutes the move, whatever replies are left. -/
theorem HandlePost.refuted (h : HandlePost hash flags n r s m result w)
    (hstored : r.Stored w.cache) (hne : result.1 ≠ CHECKMATE) :
    LoopPost hash flags n s (m :: ms) hasNextMove r result w where
  known := h.known
  right hright := by
    refine iff_of_false hne fun hall => ?_
    exact hne ((h.right hright).mpr (hall.2 m List.mem_cons_self))
  le_mate := h.le_mate
  mated h' := absurd h' hne
  round := h.round
  stored := h.stored hstored
  recorded h' := absurd h' hne
  lastLevel h' := absurd h' hne

omit [DecidableEq κ] in
/-- After a reply that loses, the loop goes on with the others. -/
theorem LoopPost.cons {trees : List ℕ}
    (h : LoopPost hash flags n s ms true (r.withReplies (r.minStepStates ++ [s.makeMove m]) trees)
      result w)
    (hwins : w.Sure flags ((searchGame flags).Wins n ((r.defenceState s).after m))) (hn : n ≠ 0) :
    LoopPost hash flags n s (m :: ms) hasNextMove r result w where
  known := h.known
  right hright := by
    rw [h.right hright]
    constructor
    · rintro ⟨-, hall⟩
      refine ⟨Or.inr (Or.inr (List.cons_ne_nil _ _)), fun m' hm' => ?_⟩
      rcases List.mem_cons.mp hm' with rfl | hm'
      · exact hwins hright
      · exact hall m' hm'
    · rintro ⟨-, hall⟩
      exact ⟨Or.inr (Or.inl rfl), fun m' hm' => hall m' (List.mem_cons_of_mem m hm')⟩
  le_mate := h.le_mate
  mated _ := Or.inr (Or.inr (List.cons_ne_nil _ _))
  round := h.round
  stored := h.stored
  recorded hmate := by
    obtain ⟨h1, h2⟩ := h.recorded hmate
    refine ⟨?_, h2⟩
    rw [h1, List.map_cons, List.append_assoc]
    rfl
  lastLevel _ hzero := absurd hzero hn

end LoopPost

theorem expandMinLoop_runs (hreg : Region flags P)
    {expandChild : OneRound → SearchM κ (Int × OneRound)} {n : ℕ}
    (hchild : 1 ≤ n → ChildOk mayFail hash flags P n expandChild) (hn : mayFail ∨ ((n + 1 : ℕ) : Int) < INT_MAX)
    {s : Board} : ∀ (l : List (Piece × Move)) (auxBoard : Board) (hasNextMove : Bool) (r : OneRound),
    r.Moved flags P s →
    (∀ m ∈ r.acceptedMoves r.isMinChecked l auxBoard, m ∈ (r.defenceState s).replies flags) →
    Runs mayFail (Step hash flags P (minBound n)) (fun w => w.cache.Known ∧ r.Trees hash w.cache)
      (OneRound.expandMinLoop flags hash expandChild (n + 1) s l auxBoard hasNextMove r)
      (LoopPost hash flags n s (r.acceptedMoves r.isMinChecked l auxBoard) hasNextMove r) := by
  intro l
  induction l with
  | nil =>
    intro auxBoard hasNextMove r hr hsub
    exact Runs.ret fun w h => LoopPost.done h.1 h.2
  | cons x l ih =>
    obtain ⟨p, m⟩ := x
    intro auxBoard hasNextMove r hr hsub
    rw [OneRound.acceptedMoves] at hsub ⊢
    rw [OneRound.expandMinLoop]
    rcases hcan : r.canMove p m r.isMinChecked auxBoard with ⟨ok, aux'⟩
    rw [hcan] at hsub
    dsimp only at hsub ⊢
    cases ok with
    | false => exact ih aux' hasNextMove r hr hsub
    | true =>
      rw [if_pos rfl] at hsub
      rw [if_pos rfl, if_pos rfl]
      have hm := hsub m List.mem_cons_self
      refine Runs.seq ((makeOneMinMove_runs hreg hchild hn hr hm).frame (stable_trees r)) ?_
      rintro ⟨score, r'⟩ w ⟨hpost, htrees⟩
      have hle : score ≤ CHECKMATE := hpost.le_mate
      dsimp only
      by_cases hlt : score < CHECKMATE
      · -- the reply refutes the move
        rw [if_pos hlt]
        exact Or.inl ⟨_, _, returns_pure _ w, .refl, hpost.refuted htrees.stored (ne_of_lt hlt)⟩
      · -- the reply loses: go on with the next one
        rw [if_neg hlt]
        have hmate : score = CHECKMATE := le_antisymm hle (not_lt.mp hlt)
        obtain ⟨t, ht, hr'⟩ := hpost.solution hmate
        obtain rfl : r' = _ := hr'
        have hmoves := fun c => (r.withReplies_agrees (r.minStepStates ++ [s.makeMove m])
          (r.minStepSolutionTrees ++ [t])).acceptedMoves_eq c l aux'
        have ih' := ih aux' true _ (hr.withReplies (r.minStepStates ++ [s.makeMove m])
          (r.minStepSolutionTrees ++ [t])) (by
            intro m' hm'
            rw [hmoves] at hm'
            exact hsub m' (List.mem_cons_of_mem m hm'))
        have hwins : w.Sure flags ((searchGame flags).Wins n ((r.defenceState s).after m)) :=
          fun hright => (hpost.right hright).mp hmate
        have htrees' : (r.withReplies (r.minStepStates ++ [s.makeMove m])
            (r.minStepSolutionTrees ++ [t])).Trees hash w.cache :=
          List.rel_append htrees (List.Forall₂.cons ht List.Forall₂.nil)
        refine ((ih'.frame (stable_sure _)) w ⟨⟨hpost.known, htrees'⟩, hwins⟩).imp ?_
        rintro result w' ⟨hloop, hwins'⟩
        rw [hmoves] at hloop
        exact hloop.cons hwins' (hpost.searched hmate)

/-- What trying all replies gives. -/
structure MinStepPost (hash : (Fin 8 → Fin 8 → PieceType) → κ) (flags : Flags)
    (P : AttackState → Prop) (n : ℕ) (s : Board) (r : OneRound) (result : Int × OneRound)
    (w : World κ) : Prop where
  known : w.cache.Known
  right : w.Sure flags (result.1 = CHECKMATE ↔ (searchGame flags).Loses n (r.defenceState s))
  le_mate : result.1 ≤ CHECKMATE
  moved : result.2.Moved flags P s
  same : result.2.SameRound r
  stored : result.2.Stored w.cache
  recorded : result.1 = CHECKMATE →
    result.2.minStepStates = ((r.defenceState s).replies flags).map s.makeMove ∧
      result.2.Trees hash w.cache ∧
      (result.2.minStepStates = [] → (r.defenceState s).checked = true)

theorem expandMinStep_eq (expandChild : OneRound → SearchM κ (Int × OneRound)) (levelsLeft : ℕ)
    {r : OneRound} {s : Board} (h : r.maxStepState = some s) :
    OneRound.expandMinStep flags hash expandChild levelsLeft r = (do
      OneRound.note fun _ => .minStart { r with isMinChecked := r.isChecking s } s
      let result ← OneRound.expandMinLoop flags hash expandChild levelsLeft s
        (OneRound.candidates flags (r.uncapturedMinPieces s) s) s false
        { r with isMinChecked := r.isChecking s }
      OneRound.note (.minStep result.2 levelsLeft result.1)
      pure result) := by
  unfold OneRound.expandMinStep
  split
  case h_1 hs => rw [h] at hs; cases hs
  case h_2 s' hs => rw [h] at hs; cases hs; rfl

theorem expandMinStep_runs (hreg : Region flags P)
    {expandChild : OneRound → SearchM κ (Int × OneRound)} {n : ℕ}
    (hchild : 1 ≤ n → ChildOk mayFail hash flags P n expandChild) (hn : mayFail ∨ ((n + 1 : ℕ) : Int) < INT_MAX)
    {r : OneRound} {s : Board} (hr : r.Moved flags P s) (hstates : r.minStepStates = [])
    (htrees : r.minStepSolutionTrees = []) :
    Runs mayFail (Step hash flags P (minBound n)) (fun w => w.cache.Known)
      (OneRound.expandMinStep flags hash expandChild (n + 1) r) (MinStepPost hash flags P n s r) := by
  rw [expandMinStep_eq expandChild (n + 1) hr.maxStepState]
  have hmin : ({ r with isMinChecked := r.isChecking s } : OneRound).SameRound r :=
    ⟨⟨rfl, rfl, rfl, rfl⟩, rfl⟩
  have hr' := hr.of_same hmin rfl rfl
  have hmoves : OneRound.acceptedMoves { r with isMinChecked := r.isChecking s } (r.isChecking s)
      (OneRound.candidates flags (r.uncapturedMinPieces s) s) s =
      (r.defenceState s).replies flags := by
    rw [hmin.acceptedMoves_eq]
    exact hr.ready.acceptedMoves_eq hr.maxMovePiece
  have hsub : ∀ m ∈ OneRound.acceptedMoves { r with isMinChecked := r.isChecking s } (r.isChecking s)
      (OneRound.candidates flags (r.uncapturedMinPieces s) s) s,
      m ∈ (r.defenceState s).replies flags := fun m hm => hmoves ▸ hm
  have hnil : ∀ w : World κ, OneRound.Trees hash { r with isMinChecked := r.isChecking s } w.cache := by
    intro w
    show List.Forall₂ _ r.minStepStates r.minStepSolutionTrees
    rw [hstates, htrees]
    exact List.Forall₂.nil
  have hnote : Runs mayFail (Step hash flags P (minBound n)) (fun w : World κ => w.cache.Known)
      (OneRound.note fun _ => .minStart { r with isMinChecked := r.isChecking s } s)
      fun _ w => w.cache.Known :=
    Runs.one fun w hknown => ⟨.note _ ⟨hr', rfl⟩, hknown⟩
  refine hnote.seq fun _ => Runs.seq (Runs.conseq
    (expandMinLoop_runs hreg hchild hn _ s false _ hr' hsub)
    (fun w hknown => ⟨hknown, hnil w⟩) fun _ _ h => h) ?_
  rintro ⟨score, r'⟩ w hloop
  have hloop' : LoopPost hash flags n s ((r.defenceState s).replies flags) false
      { r with isMinChecked := r.isChecking s } (score, r') w := hmoves ▸ hloop
  obtain ⟨states, trees, hround⟩ := hloop'.round
  obtain rfl : r' = _ := hround
  have hmoved := hr'.withReplies states trees
  have hpost : MinStepPost hash flags P n s r (score, _) w :=
    { known := hloop'.known
      right := fun hright => by
        rw [hloop'.right hright, loses_searchGame_iff, ← hr.ready.checked_eq hr.maxMovePiece]
        simp only [Bool.false_eq_true, false_or]
        exact Iff.rfl
      le_mate := hloop'.le_mate
      moved := hmoved
      same := ⟨⟨rfl, rfl, rfl, rfl⟩, rfl⟩
      stored := hloop'.stored
      recorded := fun h => by
        obtain ⟨h1, h2⟩ := hloop'.recorded h
        have h1' : states = ((r.defenceState s).replies flags).map s.makeMove := by
          rw [show states = r.minStepStates ++ _ from h1, hstates, List.nil_append]
        refine ⟨h1', h2, fun hempty => ?_⟩
        have hno : (r.defenceState s).replies flags = [] := by
          rw [show states = [] from hempty] at h1'
          exact List.map_eq_nil_iff.mp h1'.symm
        rcases hloop'.mated h with hc | hc | hc
        · rw [← hr.ready.checked_eq hr.maxMovePiece]; exact hc
        · cases hc
        · exact absurd hno hc }
  have hstep : Step hash flags P (minBound n) w (w.log (.minStep _ (n + 1) score w.cache)) :=
    .note _ ⟨s, hmoved, rfl, fun h => ⟨(hpost.recorded h).1, (hpost.recorded h).2.1,
      fun hlast => hloop'.lastLevel h (by omega)⟩⟩
  refine Or.inl ⟨_, _, returns_bind (returns_act _ w) (returns_pure _ _), .single hstep, ?_⟩
  exact { hpost with
    known := stable_known _ _ hstep hpost.known
    right := stable_sure _ _ _ hstep hpost.right }

/-! ## The first side's moves -/

theorem mates_max_iff {r : OneRound} {s : Board} (h : r.maxStepState = some s) (n : ℕ) :
    Mates flags true r (n + 1) ↔ (searchGame flags).Loses n (r.defenceState s) := by
  constructor
  · rintro ⟨s', hs', hl⟩
    rw [h] at hs'
    cases hs'
    exact hl
  · exact fun hl => ⟨s, h, hl⟩

theorem scoreMaxMove_runs (hreg : Region flags P)
    {expandChild : OneRound → SearchM κ (Int × OneRound)} {n : ℕ}
    (hchild : 1 ≤ n → ChildOk mayFail hash flags P n expandChild) (hn : mayFail ∨ ((n + 1 : ℕ) : Int) < INT_MAX)
    {r : OneRound} {s : Board} (hr : r.Moved flags P s) (hstates : r.minStepStates = [])
    (htrees : r.minStepSolutionTrees = []) :
    Runs mayFail (Step hash flags P fun _ => n + 1) (fun w => w.cache.Known)
      (OneRound.scoreMaxMove flags hash expandChild (n + 1) r (hash s.positions))
      (MinStepPost hash flags P n s r) := by
  have habout : About hash flags P true r (hash s.positions) := ⟨s, hr, rfl⟩
  have hwide : ∀ w w' : World κ, Step hash flags P (minBound n) w w' →
      Step hash flags P (fun _ => n + 1) w w' :=
    fun w w' h => h.weaken fun mm => by unfold minBound; split_ifs <;> omega
  have hmin := expandMinStep_runs hreg hchild hn hr hstates htrees
  refine Runs.seq (getScore_runs habout (by omega) (le_refl _) hn) fun score => ?_
  cases score with
  | none =>
    -- a miss: nothing that is searched in between reaches this height of the max cache
    have hframe : Runs mayFail (Step hash flags P fun _ => n + 1)
        (fun w => w.cache.Known ∧ w.cache.Below true (hash s.positions) (n + 1))
        (OneRound.expandMinStep flags hash expandChild (n + 1) r) fun result w =>
          MinStepPost hash flags P n s r result w ∧
            w.cache.Below true (hash s.positions) (n + 1) :=
      Runs.weaken (hmin.frame (stable_below (Nat.lt_succ_self n))) hwide
    refine Runs.seq hframe ?_
    rintro ⟨score, r'⟩ w ⟨hpost, hbelow⟩
    have hstep : Step hash flags P (fun _ => n + 1) w
        (w.updated flags true r (hash s.positions) (n + 1) score) :=
      .update
        { about := habout
          pos := by omega
          le_bound := le_refl _
          below := hbelow
          right := fun hright =>
            (hpost.right hright).trans (mates_max_iff hr.maxStepState n).symm
          le_mate := hpost.le_mate } (Or.inl rfl)
    refine Or.inl ⟨_, _, returns_bind (returns_act _ w) (returns_pure _ _), .single hstep, ?_⟩
    exact { hpost with
      known := stable_known _ _ hstep hpost.known
      right := stable_sure _ _ _ hstep hpost.right
      stored := stable_stored _ _ _ hstep hpost.stored
      recorded := fun h => by
        obtain ⟨h1, h2, h3⟩ := hpost.recorded h
        exact ⟨h1, stable_trees _ _ _ hstep h2, h3⟩ }
  | some score =>
    dsimp only
    by_cases hmate : score = CHECKMATE
    · rw [if_pos hmate]
      exact Runs.conseq (Runs.weaken hmin hwide) (fun w h => h.1) fun _ _ h => h
    · rw [if_neg hmate]
      refine Runs.ret ?_
      rintro w ⟨hknown, hcases, hright, -⟩
      exact
        { known := hknown
          right := fun h => (hright h).trans (mates_max_iff hr.maxStepState n)
          le_mate := by
            rcases hcases with h | h
            · exact absurd h hmate
            · exact h.trans_le (by decide)
          moved := hr
          same := .refl r
          stored := OneRound.stored_of_nil htrees _
          recorded := fun h => absurd h hmate }

/-- What trying the first-side moves `ms` gives. -/
structure MaxStepPost (hash : (Fin 8 → Fin 8 → PieceType) → κ) (flags : Flags)
    (P : AttackState → Prop) (n : ℕ) (ms : List Move) (r : OneRound) (result : Int × OneRound)
    (w : World κ) : Prop where
  known : w.cache.Known
  right : w.Sure flags (result.1 = CHECKMATE ↔ ∃ m ∈ ms, r.isCircularMove m = false ∧
    (searchGame flags).Loses n (r.attackState.after m))
  code : result.1 = CHECKMATE ∨ result.1 = NONE
  stored : result.2.Stored w.cache
  solved : result.1 = CHECKMATE →
    result.2.Solved hash flags w.cache ∧ result.2.attackState = r.attackState
  moved : r.maxStepState ≠ none ∨ (∃ m ∈ ms, r.isCircularMove m = false) →
    result.2.maxStepState ≠ none

omit [DecidableEq κ] in
/-- A round whose replies all lose has found a mate. -/
theorem MinStepPost.solved {n : ℕ} {s : Board} {r : OneRound} {result : Int × OneRound} {w : World κ}
    (h : MinStepPost hash flags P n s r result w) (hmate : result.1 = CHECKMATE) :
    result.2.Solved hash flags w.cache := by
  obtain ⟨h1, h2, h3⟩ := h.recorded hmate
  have hs : ∀ s', result.2.maxStepState = some s' → s' = s := by
    intro s' hs'
    rw [h.moved.maxStepState] at hs'
    exact (Option.some.inj hs').symm
  exact
    { move := by
        obtain ⟨m, hm, hc, hmade⟩ := h.moved.move
        exact ⟨m, hm, hc, hmade ▸ h.moved.maxStepState⟩
      replies := fun s' hs' => by
        rw [hs s' hs', h.same.defenceState_eq]; exact h1
      mated := fun s' hs' hempty => by
        rw [hs s' hs', h.same.defenceState_eq]; exact h3 hempty
      trees := h2 }

section MaxStepPost
variable {n : ℕ} {r : OneRound} {m : Move} {ms : List Move} {result : Int × OneRound} {w : World κ}

omit [DecidableEq κ] in
/-- No move is left. -/
theorem MaxStepPost.done (hknown : w.cache.Known) (hstored : r.Stored w.cache) :
    MaxStepPost hash flags P n [] r (NONE, r) w := by
  have hne : NONE ≠ CHECKMATE := by decide
  exact
    { known := hknown
      right := fun _ => iff_of_false hne (by rintro ⟨m, hm, -⟩; cases hm)
      code := Or.inr rfl
      stored := hstored
      solved := fun h => absurd h hne
      moved := fun h => h.resolve_right (by rintro ⟨m, hm, -⟩; cases hm) }

omit [DecidableEq κ] in
/-- A rejected move is skipped. -/
theorem MaxStepPost.skip (h : MaxStepPost hash flags P n ms r result w)
    (hcirc : r.isCircularMove m = true) : MaxStepPost hash flags P n (m :: ms) r result w := by
  refine { h with
    right := fun hright => (h.right hright).trans ?_
    moved := fun hm => h.moved (hm.imp_right ?_) }
  · constructor
    · rintro ⟨m', hm', h⟩
      exact ⟨m', List.mem_cons_of_mem m hm', h⟩
    · rintro ⟨m', hm', h1, h2⟩
      rcases List.mem_cons.mp hm' with rfl | hm'
      · rw [hcirc] at h1; cases h1
      · exact ⟨m', hm', h1, h2⟩
  · rintro ⟨m', hm', h1⟩
    rcases List.mem_cons.mp hm' with rfl | hm'
    · rw [hcirc] at h1; cases h1
    · exact ⟨m', hm', h1⟩

omit [DecidableEq κ] in
/-- A move whose replies all lose ends the loop. -/
theorem MinStepPost.found {r' : OneRound}
    (h : MinStepPost hash flags P n (r.curBoard.makeMove m) r' result w)
    (hdefence : r'.defenceState (r.curBoard.makeMove m) = r.attackState.after m)
    (hattack : r'.attackState = r.attackState) (hcirc : r.isCircularMove m = false)
    (hmate : result.1 = CHECKMATE) : MaxStepPost hash flags P n (m :: ms) r result w where
  known := h.known
  moved _ := by
    rw [h.moved.maxStepState]
    exact Option.some_ne_none _
  right hright := by
    refine iff_of_true hmate ⟨m, List.mem_cons_self, hcirc, ?_⟩
    rw [← hdefence]
    exact (h.right hright).mp hmate
  code := Or.inl hmate
  stored := h.stored
  solved _ := ⟨h.solved hmate, h.same.attackState_eq.trans hattack⟩

omit [DecidableEq κ] in
/-- After a move that is refuted, the loop goes on with the others. -/
theorem MaxStepPost.cons {r' : OneRound} (h : MaxStepPost hash flags P n ms r' result w)
    (hstate : r'.attackState = r.attackState) (hmade : r'.maxStepState ≠ none)
    (hlost : w.Sure flags (¬ (searchGame flags).Loses n (r.attackState.after m))) :
    MaxStepPost hash flags P n (m :: ms) r result w where
  known := h.known
  moved _ := h.moved (Or.inl hmade)
  right hright := by
    rw [h.right hright, hstate]
    have hsame : ∀ m', r'.isCircularMove m' = r.isCircularMove m' := by
      intro m'
      rw [OneRound.isCircularMove_eq, hstate]
      rfl
    simp only [hsame]
    constructor
    · rintro ⟨m', hm', h⟩
      exact ⟨m', List.mem_cons_of_mem m hm', h⟩
    · rintro ⟨m', hm', h1, h2⟩
      rcases List.mem_cons.mp hm' with rfl | hm'
      · exact absurd h2 (hlost hright)
      · exact ⟨m', hm', h1, h2⟩
  code := h.code
  stored := h.stored
  solved hmate := by
    obtain ⟨h1, h2⟩ := h.solved hmate
    exact ⟨h1, h2.trans hstate⟩

end MaxStepPost

theorem expandMaxStep_runs (hreg : Region flags P)
    {expandChild : OneRound → SearchM κ (Int × OneRound)} {n : ℕ}
    (hchild : 1 ≤ n → ChildOk mayFail hash flags P n expandChild) (hn : mayFail ∨ ((n + 1 : ℕ) : Int) < INT_MAX) :
    ∀ (ms : List Move) (r : OneRound), r.Ready → P r.attackState →
    (∀ m ∈ ms, m ∈ r.attackState.tried flags) →
    Runs mayFail (Step hash flags P fun _ => n + 1) (fun w => w.cache.Known ∧ r.Stored w.cache)
      (OneRound.expandMaxStep flags hash expandChild (n + 1) ms r)
      (MaxStepPost hash flags P n ms r) := by
  intro ms
  induction ms with
  | nil =>
    intro r hr hP hsub
    exact Runs.ret fun w h => MaxStepPost.done h.1 h.2
  | cons m ms ih =>
    intro r hr hP hsub
    have hrest := fun m' hm' => hsub m' (List.mem_cons_of_mem m hm')
    rw [OneRound.expandMaxStep]
    by_cases hcirc : r.isCircularMove m = true
    · rw [if_pos hcirc]
      exact Runs.conseq (ih r hr hP hrest) (fun w h => h) fun result w hpost => hpost.skip hcirc
    · rw [if_neg hcirc]
      rw [Bool.not_eq_true] at hcirc
      have hm := hsub m List.mem_cons_self
      have hmoved : (OneRound.cleanUpForMinStep { r with
          maxStepState := some (r.curBoard.makeMove m)
          maxMovePiece := (r.curBoard.makeMove m).safePiece m.toPos }).Moved flags P
            (r.curBoard.makeMove m) :=
        ⟨hr.of_agrees ⟨rfl, rfl, rfl, rfl⟩, hP, ⟨m, hm, hcirc, rfl⟩, rfl, rfl⟩
      have hnote : Runs mayFail (Step hash flags P fun _ => n + 1)
          (fun w : World κ => w.cache.Known ∧ r.Stored w.cache) (OneRound.note fun _ => .maxMove _ m (r.curBoard.makeMove m))
          fun _ w => w.cache.Known :=
        Runs.one fun w hknown => ⟨.note _ ⟨hmoved, hm, hcirc, rfl⟩, hknown.1⟩
      refine hnote.seq fun _ => Runs.seq (scoreMaxMove_runs hreg hchild hn hmoved rfl rfl) ?_
      rintro ⟨score, r'⟩ w hpost
      dsimp only
      by_cases hmate : score = CHECKMATE
      · rw [if_pos hmate]
        exact Or.inl ⟨_, _, returns_pure _ w, .refl, hpost.found rfl rfl hcirc hmate⟩
      · -- the move is refuted: go on with the next one
        rw [if_neg hmate]
        have hstate : r'.attackState = r.attackState := hpost.same.attackState_eq
        have hmade : r'.maxStepState ≠ none := by
          rw [hpost.moved.maxStepState]
          exact Option.some_ne_none _
        have hlost : w.Sure flags (¬ (searchGame flags).Loses n (r.attackState.after m)) :=
          fun hright hl => hmate ((hpost.right hright).mpr hl)
        have ih' := ih r' hpost.moved.ready hpost.moved.region (by rw [hstate]; exact hrest)
        refine ((ih'.frame (stable_sure _)) w ⟨⟨hpost.known, hpost.stored⟩, hlost⟩).imp ?_
        rintro result w' ⟨hrec, hlost'⟩
        exact hrec.cons hstate hmade hlost'

/-! ## Whole rounds -/

theorem expandRound_runs (hreg : Region flags P)
    {expandChild : OneRound → SearchM κ (Int × OneRound)} {n : ℕ}
    (hchild : 1 ≤ n → ChildOk mayFail hash flags P n expandChild) (hn : mayFail ∨ ((n + 1 : ℕ) : Int) < INT_MAX) :
    ChildOk mayFail hash flags P (n + 1) (OneRound.expandRound flags order hash expandChild (n + 1)) := by
  intro r hr hnil hP
  have hready : ({ r with isMaxChecked := r.isChecked } : OneRound).Ready :=
    hr.of_agrees ⟨rfl, rfl, rfl, rfl⟩
  have hperm : (OneRound.generateAndSortMaxMoves flags order
      { r with isMaxChecked := r.isChecked }).Perm (r.attackState.tried flags) := by
    refine (order.perm _ _).trans (List.Perm.of_eq ?_)
    exact hready.generateMaxMoves_eq rfl
  have hnote : Runs mayFail (Step hash flags P fun _ => n + 1) (fun w : World κ => w.cache.Known)
      (OneRound.note fun _ => .expand { r with isMaxChecked := r.isChecked } (n + 1))
      fun _ w => w.cache.Known :=
    Runs.one fun w hknown => ⟨.note _ ⟨hready, hP, rfl, by omega⟩, hknown⟩
  refine hnote.seq fun _ => ?_
  dsimp only
  generalize OneRound.generateAndSortMaxMoves flags order { r with isMaxChecked := r.isChecked } =
    maxMoves at hperm
  by_cases hempty : maxMoves = []
  · -- no move: mated or stalemated
    rw [if_pos hempty]
    have htried : r.attackState.tried flags = [] := by
      rw [hempty] at hperm
      exact List.nil_perm.mp hperm
    have hcode : ∀ c : Bool, (if c = true then -CHECKMATE else -STALLMATE) ≠ CHECKMATE ∧
        (if c = true then -CHECKMATE else -STALLMATE) ≤ CHECKMATE := by decide
    refine Runs.ret fun w hknown => ?_
    exact
      { known := hknown
        right := fun _ => by
          refine iff_of_false (hcode _).1 ?_
          rintro ⟨d, ⟨m, hm, -⟩, -⟩
          rw [htried] at hm
          cases hm
        le_mate := (hcode _).2
        solved := fun h => absurd h (hcode _).1
        noMoves := fun _ => rfl
        moves := fun h => absurd htried h
        stored := OneRound.stored_of_nil hnil _
        moved := by
          rintro ⟨m, hm, -⟩
          rw [htried] at hm
          cases hm
        notMoved := fun _ => rfl }
  · rw [if_neg hempty]
    have htried : r.attackState.tried flags ≠ [] := by
      intro h
      rw [h] at hperm
      exact hempty (List.perm_nil.mp hperm)
    refine Runs.seq (Runs.conseq (expandMaxStep_runs hreg hchild hn maxMoves
      { r with isMaxChecked := r.isChecked, numMaxMoves := maxMoves.length }
      (hr.of_agrees ⟨rfl, rfl, rfl, rfl⟩) hP fun m hm => hperm.mem_iff.mp hm)
      (fun w hknown => ⟨hknown, OneRound.stored_of_nil hnil _⟩) fun _ _ h => h) ?_
    rintro ⟨score, r'⟩
    refine Runs.ret fun w hpost => ?_
    exact
      { known := hpost.known
        right := fun hright => by
          refine (hpost.right hright).trans ?_
          rw [Game.wins_succ]
          constructor
          · rintro ⟨m, hm, hc, hl⟩
            exact ⟨_, ⟨m, hperm.mem_iff.mp hm, hc, rfl⟩, hl⟩
          · rintro ⟨d, ⟨m, hm, hc, rfl⟩, hl⟩
            exact ⟨m, hperm.mem_iff.mpr hm, hc, hl⟩
        le_mate := by
          rcases hpost.code with h | h
          · exact le_of_eq h
          · exact h.trans_le (by decide)
        solved := fun h => by
          obtain ⟨hs, ha⟩ := hpost.solved h
          exact ⟨⟨hs.move, hs.replies, hs.mated, hs.trees⟩, ha⟩
        noMoves := fun h => absurd h htried
        moves := fun _ => hpost.code
        stored := hpost.stored
        moved := by
          rintro ⟨m, hm, hc⟩
          exact hpost.moved (Or.inr ⟨m, hperm.mem_iff.mpr hm, hc⟩)
        notMoved := fun h => absurd h htried }

/-- **A search of `n` levels**: it runs to its end, by steps at heights up to `n`,
and its score is the verdict of the game if the lookups were right. -/
theorem expand_runs (hreg : Region flags P) : ∀ {n : ℕ},
    mayFail ∨ (1 ≤ n ∧ (n : Int) < INT_MAX) →
    ChildOk mayFail hash flags P n (OneRound.expand flags order hash n) := by
  intro n
  induction n with
  | zero =>
    intro hn r _ _ _ w _
    exact Or.inr ⟨hn.resolve_right fun h => by omega, _, rfl⟩
  | succ n ih =>
    intro hn
    refine expandRound_runs hreg (fun h1 => ih (hn.imp_right fun hn => ⟨h1, ?_⟩))
      (hn.imp_right fun hn => hn.2)
    have h2 := hn.2
    push_cast at h2
    omega

/-! ## Whole runs -/

/-- What a search gives stays true of it while others run. -/
theorem stable_expandPost (n : ℕ) (r : OneRound) (result : Int × OneRound) :
    Stable (Step hash flags P bound) fun w => ExpandPost hash flags n r result w := by
  intro w w' h hpost
  exact { hpost with
    known := stable_known w w' h hpost.known
    right := stable_sure _ w w' h hpost.right
    stored := stable_stored _ w w' h hpost.stored
    solved := fun hmate => by
      obtain ⟨hs, ha⟩ := hpost.solved hmate
      exact ⟨{ hs with trees := stable_trees _ w w' h hs.trees }, ha⟩ }

/-- The position that a search starts from. -/
def Search.root (search : Search) : AttackState := ⟨search.blackFirst, search.board, none⟩

/-- The root round of a search. -/
def Search.rootRound (search : Search) : OneRound :=
  OneRound.create search.board search.blackFirst 0 none

/-- A search of the region with at most `N` levels; without a level, or with as
many as the bound of an unset entry, an assertion may fail. -/
structure Search.Within (mayFail : Prop) (P : AttackState → Prop) (N : ℕ) (search : Search) :
    Prop where
  region : P search.root
  le : search.moves ≤ N
  levels : mayFail ∨ (1 ≤ search.moves ∧ (search.moves : Int) < INT_MAX)

theorem searchRun_runs (hreg : Region flags P) {N : ℕ} {search : Search}
    (hs : search.Within mayFail P N) :
    Runs mayFail (Step hash flags P fun _ => N) (fun w => w.cache.Known)
      (search.run flags order hash) (ExpandPost hash flags search.moves search.rootRound) := by
  refine Runs.weaken (expand_runs hreg hs.levels _ (OneRound.ready_create _ _ _ _) rfl hs.region) ?_
  exact fun w w' h => h.weaken fun _ => hs.le

/-- **A run of searches one after another in one process.** -/
theorem runSearches_runs (hreg : Region flags P) {N : ℕ} :
    ∀ searches : List Search, (∀ s ∈ searches, s.Within mayFail P N) →
    Runs mayFail (Step hash flags P fun _ => N) (fun w => w.cache.Known)
      (runSearches flags order hash searches) fun results w => w.cache.Known ∧
        List.Forall₂ (fun s result => ExpandPost hash flags s.moves s.rootRound result w)
          searches results := by
  intro searches
  induction searches with
  | nil => exact fun _ => Runs.ret fun w hknown => ⟨hknown, List.Forall₂.nil⟩
  | cons search rest ih =>
    intro hall
    refine Runs.seq (searchRun_runs hreg (hall search List.mem_cons_self)) fun result => ?_
    have ih' := (ih fun s hs => hall s (List.mem_cons_of_mem search hs)).frame
      (stable_expandPost search.moves search.rootRound result)
    refine Runs.seq (Runs.conseq ih' (fun w h => ⟨h.known, h⟩) fun _ _ h => h) fun results => ?_
    exact Runs.ret fun w h => ⟨h.1.1, List.Forall₂.cons h.2 h.1.2⟩

/-- A common bound on the levels of some searches. -/
theorem exists_levels_le (searches : List Search) : ∃ N, ∀ s ∈ searches, s.moves ≤ N := by
  induction searches with
  | nil => exact ⟨0, fun s hs => by cases hs⟩
  | cons search rest ih =>
    obtain ⟨N, hN⟩ := ih
    refine ⟨max search.moves N, fun s hs => ?_⟩
    rcases List.mem_cons.mp hs with rfl | hs
    · exact le_max_left _ _
    · exact (hN s hs).trans (le_max_right _ _)

end Run
end Chess
