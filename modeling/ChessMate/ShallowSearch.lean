import ChessMate.SolutionForest

/-! # Searches of two moves

A solution is stored under the key of a reply board, and what is stored under a key that
is there already is mixed into the older solution.  Deeper searches do that: a reply that
was solved with more levels left is searched again with fewer, since its mate bound does
not answer there.

With two moves to look ahead, which is what `dfs.cc` does unless it is told otherwise,
that cannot happen.  Only the replies of the root round are looked up and stored, all with
two levels left; a search of one level stores nothing; and a reply that is solved gets a
mate bound of two, which answers from then on.  So every solution is stored under a new
key (`shallow_stores_fresh`), for any number of searches in one process.
-/
namespace Chess
open ProgramLogic

/-! ## What a round does besides its replies -/

section Rounds
variable {κ : Type} [DecidableEq κ] {hash : (Fin 8 → Fin 8 → PieceType) → κ} {flags : Flags}
variable {order : MoveOrder}

/-- The event is no store. -/
def Event.Quiet : Event κ → Prop
  | .store _ _ _ => False
  | _ => True

/-- What notes, lookups and updates of the max cache keep. -/
structure KeptByRounds (flags : Flags) (I : World κ → Prop) : Prop where
  log : ∀ (w : World κ) event, event.Quiet → I w → I (w.log event)
  updateMax : ∀ (w : World κ) r sig height score, I w → I (w.updated flags true r sig height score)

variable {I : World κ → Prop}

theorem KeptByRounds.note (h : KeptByRounds flags I) {event : SolutionCache κ → Event κ}
    (hquiet : ∀ cache, (event cache).Quiet) : Keeps I (OneRound.note event) :=
  Keeps.one fun w hw => h.log w (event w.cache) (hquiet w.cache) hw

theorem KeptByRounds.getScore (h : KeptByRounds flags I) (mm : Bool) (r : OneRound) (sig : κ)
    (height : ℕ) : Keeps I (OneRound.getScore mm r sig height) :=
  Keeps.one fun w hw => h.log w _ trivial hw

variable {n : ℕ} {expandChild : OneRound → SearchM κ (Int × OneRound)}
variable (hI : KeptByRounds flags I)
variable (hreply : ∀ self s next, Keeps I
  (OneRound.handleMinStepBoard flags hash expandChild n self s next))
include hI hreply

theorem expandMinLoop_keeps (s : Board) (moves : List (Piece × Move)) (aux : Board)
    (hasNext : Bool) (self : OneRound) :
    Keeps I (OneRound.expandMinLoop flags hash expandChild n s moves aux hasNext self) := by
  induction moves generalizing aux hasNext self with
  | nil => exact Keeps.ret _
  | cons x moves ih =>
    obtain ⟨p, m⟩ := x
    unfold OneRound.expandMinLoop
    dsimp only
    split_ifs
    · refine Keeps.seq ?_ fun result => ?_
      · exact Keeps.seq (hI.note fun _ => trivial) fun _ => hreply _ _ _
      · split_ifs
        · exact Keeps.ret _
        · exact ih _ _ _
    · exact ih _ _ _

theorem expandMinStep_keeps (self : OneRound) :
    Keeps I (OneRound.expandMinStep flags hash expandChild n self) := by
  unfold OneRound.expandMinStep
  cases self.maxStepState with
  | none => exact Keeps.failed _
  | some s =>
    refine Keeps.seq (hI.note fun _ => trivial) fun _ => ?_
    refine Keeps.seq (expandMinLoop_keeps hI hreply _ _ _ _ _) fun result => ?_
    exact Keeps.seq (hI.note fun _ => trivial) fun _ => Keeps.ret _

theorem scoreMaxMove_keeps (self : OneRound) (sig : κ) :
    Keeps I (OneRound.scoreMaxMove flags hash expandChild n self sig) := by
  unfold OneRound.scoreMaxMove
  refine Keeps.seq (hI.getScore _ _ _ _) fun cached => ?_
  cases cached with
  | none =>
    refine Keeps.seq (expandMinStep_keeps hI hreply self) fun result => ?_
    refine Keeps.seq (Keeps.one fun w hw => ?_) fun _ => Keeps.ret _
    exact hI.updateMax w self sig n result.1 hw
  | some score =>
    dsimp only
    split_ifs
    · exact expandMinStep_keeps hI hreply self
    · exact Keeps.ret _

theorem expandMaxStep_keeps (moves : List Move) (self : OneRound) :
    Keeps I (OneRound.expandMaxStep flags hash expandChild n moves self) := by
  induction moves generalizing self with
  | nil => exact Keeps.ret _
  | cons m moves ih =>
    unfold OneRound.expandMaxStep
    split_ifs
    · exact ih self
    · refine Keeps.seq (hI.note fun _ => trivial) fun _ => ?_
      refine Keeps.seq (scoreMaxMove_keeps hI hreply _ _) fun result => ?_
      split_ifs
      · exact Keeps.ret _
      · exact ih _

/-- **A round keeps what its replies keep.** -/
theorem expandRound_keeps (self : OneRound) :
    Keeps I (OneRound.expandRound flags order hash expandChild n self) := by
  unfold OneRound.expandRound
  refine Keeps.seq (hI.note fun _ => trivial) fun _ => ?_
  dsimp only
  by_cases hnone : OneRound.generateAndSortMaxMoves flags order
      { self with isMaxChecked := self.isChecked } = []
  · rw [if_pos hnone]
    exact Keeps.ret _
  · rw [if_neg hnone]
    exact Keeps.seq (expandMaxStep_keeps hI hreply _ _) fun result => Keeps.ret _

end Rounds

/-! ## What is kept -/

section Kept
variable {κ : Type} {w₀ w : World κ}

/-- The min cache and the solutions are those of an earlier state, and the stores since
then were new if the earlier ones were. -/
structure World.SameMin (w₀ w : World κ) : Prop where
  entries : ∀ sig, w.cache.signatures false sig = w₀.cache.signatures false sig
  solutions : w.cache.solutionMap = w₀.cache.solutionMap
  fresh : w₀.FreshStores → w.FreshStores

theorem World.SameMin.refl (w : World κ) : w.SameMin w := ⟨fun _ => rfl, rfl, id⟩

/-- **What searches of two moves keep**: every solution was stored under a new key, and
its reply has a mate bound that answers with two levels left. -/
structure World.Shallow (w : World κ) : Prop where
  fresh : w.FreshStores
  answers : ∀ sig t, w.cache.solutionMap sig = some t →
    ∃ entry, w.cache.signatures false sig = some entry ∧ entry.2 ≤ 2

theorem World.Shallow.initial : (World.initial : World κ).Shallow where
  fresh key r cache hmem := by cases hmem
  answers sig t ht := by cases ht

theorem World.SameMin.shallow (h : w₀.SameMin w) (h₀ : w₀.Shallow) : w.Shallow where
  fresh := h.fresh h₀.fresh
  answers sig t ht := by
    rw [h.entries]
    rw [h.solutions] at ht
    exact h₀.answers sig t ht

theorem World.FreshStores.log (h : w.FreshStores) {event : Event κ} (hquiet : event.Quiet)
    (cache : SolutionCache κ) : (⟨cache, event :: w.trace⟩ : World κ).FreshStores := by
  intro key r cache' hmem
  rcases List.mem_cons.mp hmem with rfl | hmem
  · exact hquiet.elim
  · exact h key r cache' hmem

/-- **A reply that has a solution is answered**: where the lookup misses there is none. -/
theorem World.Shallow.solutionMap_of_miss (h : w.Shallow) {sig : κ}
    (hmiss : w.cache.getScoreFromCache false sig 2 = none) : w.cache.solutionMap sig = none := by
  cases hsol : w.cache.solutionMap sig with
  | none => rfl
  | some t =>
    obtain ⟨entry, hentry, hle⟩ := h.answers sig t hsol
    unfold SolutionCache.getScoreFromCache at hmiss
    rw [hentry] at hmiss
    dsimp only at hmiss
    split_ifs at hmiss

variable [DecidableEq κ] {flags : Flags}

variable (flags) in
theorem World.SameMin.updateMax (h : w₀.SameMin w) (r : OneRound) (sig : κ) (height : ℕ)
    (score : Int) : w₀.SameMin (w.updated flags true r sig height score) where
  entries sig' := by
    refine Eq.trans ?_ (h.entries sig')
    exact (w.cache.signatures_updateCache flags true false sig sig' height score).trans
      (if_neg fun hmm => Bool.false_ne_true hmm.1)
  solutions := (w.cache.solutionMap_updateCache flags true sig height score).trans h.solutions
  fresh hfresh :=
    (h.fresh hfresh).log (show (Event.update true r sig height score w.cache).Quiet from trivial) _

theorem keptByRounds_sameMin (w₀ : World κ) : KeptByRounds flags w₀.SameMin where
  log _ _ hquiet h := ⟨h.entries, h.solutions, fun hfresh => (h.fresh hfresh).log hquiet _⟩
  updateMax _ r sig height score h := h.updateMax flags r sig height score

theorem keptByRounds_shallow : KeptByRounds flags (World.Shallow : World κ → Prop) where
  log _ _ hquiet h := ⟨h.fresh.log hquiet _, h.answers⟩
  updateMax w r sig height score h :=
    ((World.SameMin.refl w).updateMax flags r sig height score).shallow h

theorem SolutionCache.solutionMap_storeSolution_of_ne (cache : SolutionCache κ) {key sig : κ}
    (hne : sig ≠ key) (s : Board) (boards : List Board) (trees : List ℕ) :
    (cache.storeSolution key s boards trees).2.solutionMap sig = cache.solutionMap sig := by
  unfold storeSolution addSolutionNode
  cases cache.solutionMap key with
  | some old => exact congrFun (storeReplies_maps old boards trees _).1 sig
  | none =>
    refine (congrFun (storeReplies_maps _ boards trees _).1 sig).trans ?_
    exact Function.update_of_ne hne _ _

/-- The mate bound that a mate with two levels left leaves. -/
theorem SolutionCache.updatedEntry_mate (hlevel : flags.minStoreLevel ≤ 2)
    (old : Option (Int × Int)) :
    ∃ entry, updatedEntry flags old 2 CHECKMATE = some entry ∧ entry.2 ≤ 2 := by
  unfold updatedEntry
  rw [if_neg (Int.not_lt.mpr hlevel)]
  cases old with
  | none => exact ⟨(-INT_MAX, 2), rfl, le_refl 2⟩
  | some entry =>
    by_cases hlow : entry.2 > 2
    · exact ⟨(entry.1, 2), by simp [hlow], le_refl 2⟩
    · exact ⟨entry, by simp [hlow], Int.not_lt.mp hlow⟩

section Store
variable {sig : κ} (h : w.Shallow) (hnew : w.cache.solutionMap sig = none) (child : OneRound)
include h hnew

/-- An update for a reply without a solution does not matter. -/
theorem World.Shallow.updateMin (score : Int) :
    (w.updated flags false child sig 2 score).Shallow where
  fresh := h.fresh.log (show (Event.update false child sig 2 score w.cache).Quiet from trivial) _
  answers sig' t ht := by
    have ht' : w.cache.solutionMap sig' = some t := by
      rw [← w.cache.solutionMap_updateCache flags false sig 2 score]
      exact ht
    have hne : sig' ≠ sig := by
      rintro rfl
      rw [hnew] at ht'
      cases ht'
    obtain ⟨entry, hentry, hle⟩ := h.answers sig' t ht'
    refine ⟨entry, ?_, hle⟩
    rw [← hentry]
    exact (w.cache.signatures_updateCache flags false false sig sig' 2 score).trans
      (if_neg fun hmm => hne hmm.2)

/-- **A reply that is solved gets a mate bound and its first solution.** -/
theorem World.Shallow.recorded (hlevel : flags.minStoreLevel ≤ 2) (r : OneRound) (s : Board) :
    ((w.updated flags false child sig 2 CHECKMATE).stored sig r s).Shallow where
  fresh := by
    intro key r' cache hmem
    rcases List.mem_cons.mp hmem with heq | hmem
    · obtain ⟨rfl, -, rfl⟩ := Event.store.inj heq
      exact (congrFun (w.cache.solutionMap_updateCache flags false _ 2 CHECKMATE) _).trans hnew
    · exact (h.updateMin hnew child CHECKMATE).fresh key r' cache hmem
  answers sig' t ht := by
    have hsigs := (SolutionCache.storeSolution_maps
      (w.updated flags false child sig 2 CHECKMATE).cache sig s r.minStepStates
      r.minStepSolutionTrees).1
    by_cases hsig : sig' = sig
    · obtain ⟨entry, hentry, hle⟩ := SolutionCache.updatedEntry_mate hlevel
        (w.cache.signatures false sig)
      refine ⟨entry, ?_, hle⟩
      rw [hsig, ← hentry]
      refine (congrFun (congrFun hsigs false) sig).trans ?_
      exact (w.cache.signatures_updateCache flags false false sig sig 2 CHECKMATE).trans
        (if_pos ⟨rfl, rfl⟩)
    · obtain ⟨entry, hentry, hle⟩ := (h.updateMin hnew child CHECKMATE).answers sig' t
        ((SolutionCache.solutionMap_storeSolution_of_ne _ hsig _ _ _).symm.trans ht)
      exact ⟨entry, (congrFun (congrFun hsigs false) sig').trans hentry, hle⟩

end Store
end Kept

/-! ## One level and two -/

section Levels
variable {κ : Type} [DecidableEq κ] {hash : (Fin 8 → Fin 8 → PieceType) → κ} {flags : Flags}
variable {order : MoveOrder}

/-- With one level left the replies are not looked at. -/
theorem expand_one_keeps {I : World κ → Prop} (hI : KeptByRounds flags I) (self : OneRound) :
    Keeps I (OneRound.expand flags order hash 1 self) := by
  refine expandRound_keeps hI (fun self s next => ?_) self
  unfold OneRound.handleMinStepBoard
  rw [if_neg (by decide)]
  exact Keeps.ret _

/-- **A reply for which the lookup has missed is solved under a new key.** -/
theorem solveReply_shallow (hlevel : flags.minStoreLevel ≤ 2) {sig : κ} {child : OneRound}
    {w w' : World κ} {result : Int × Option ℕ} (hw : w.Shallow)
    (hmiss : w.cache.getScoreFromCache false sig 2 = none)
    (h : Returns (OneRound.solveReply flags (OneRound.expand flags order hash 1) 2 sig child) w
      result w') : w'.Shallow := by
  unfold OneRound.solveReply at h
  obtain ⟨found, w₁, hchild, h⟩ := returns_bind_iff.mp h
  have hsame := expand_one_keeps (keptByRounds_sameMin w) child w found w₁ hchild (.refl w)
  have hw₁ : w₁.Shallow := hsame.shallow hw
  have hnew : w₁.cache.solutionMap sig = none :=
    (congrFun hsame.solutions sig).trans (hw.solutionMap_of_miss hmiss)
  rw [if_pos (by exact_mod_cast hlevel)] at h
  obtain ⟨_, w₂, hupdate, h⟩ := returns_bind_iff.mp h
  obtain ⟨-, rfl⟩ := hupdate.unique (returns_act _ w₁)
  by_cases hmate : found.1 = CHECKMATE
  · rw [if_pos hmate] at h
    obtain ⟨i, w₃, hstore, h⟩ := returns_bind_iff.mp h
    obtain ⟨-, rfl⟩ := h.unique (returns_pure _ w₃)
    unfold OneRound.store at hstore
    cases hs : found.2.maxStepState with
    | none =>
      rw [hs] at hstore
      cases hstore
    | some s =>
      rw [hs] at hstore
      obtain ⟨-, rfl⟩ := hstore.unique (returns_act _ _)
      rw [hmate]
      exact hw₁.recorded hnew child hlevel found.2 s
  · rw [if_neg hmate] at h
    obtain ⟨-, rfl⟩ := h.unique (returns_pure _ _)
    exact hw₁.updateMin hnew child found.1

/-- The replies of a round with two levels left. -/
theorem handleMinStepBoard_two_keeps (hlevel : flags.minStoreLevel ≤ 2) (self : OneRound)
    (s next : Board) :
    Keeps World.Shallow (OneRound.handleMinStepBoard flags hash (OneRound.expand flags order hash 1) 2
      self s next) := by
  unfold OneRound.handleMinStepBoard
  rw [if_pos (by decide)]
  refine Keeps.seq ?_ fun result => ?_
  · intro w result w' h hw
    unfold OneRound.scoreReply at h
    obtain ⟨cached, w₁, hlookup, h⟩ := returns_bind_iff.mp h
    obtain ⟨event, hquiet, hcached, rfl⟩ : ∃ event : Event κ, event.Quiet ∧
        cached = w.cache.getScoreFromCache false (hash next.positions) 2 ∧ w₁ = w.log event := by
      obtain ⟨hcached, hw₁⟩ := hlookup.unique (returns_act _ w)
      exact ⟨.lookup _ _ _ _ _ _, trivial, hcached, hw₁⟩
    have hlogged : (w.log event).Shallow := ⟨hw.fresh.log hquiet _, hw.answers⟩
    cases cached with
    | none => exact solveReply_shallow hlevel hlogged hcached.symm h
    | some score =>
      dsimp only at h
      split_ifs at h
      · obtain ⟨-, rfl⟩ := h.unique (returns_act _ _)
        exact hlogged
      · obtain ⟨-, rfl⟩ := h.unique (returns_pure _ _)
        exact hlogged
  · split_ifs
    · cases result.2 with
      | none => exact Keeps.failed _
      | some solution => exact Keeps.ret _
    · exact Keeps.ret _

/-- **A search of at most two moves keeps the stores new.** -/
theorem run_keeps (hlevel : flags.minStoreLevel ≤ 2) {search : Search} (hmoves : search.moves ≤ 2) :
    Keeps World.Shallow (search.run flags order hash) := by
  unfold Search.run
  rcases Nat.lt_or_ge search.moves 1 with hzero | hpos
  · rw [Nat.lt_one_iff.mp hzero]
    exact Keeps.failed _
  · rcases Nat.lt_or_ge search.moves 2 with hone | htwo
    · rw [Nat.le_antisymm (Nat.lt_succ_iff.mp hone) hpos]
      exact expand_one_keeps keptByRounds_shallow _
    · rw [Nat.le_antisymm hmoves htwo]
      exact expandRound_keeps keptByRounds_shallow (handleMinStepBoard_two_keeps hlevel) _

theorem runSearches_keeps (hlevel : flags.minStoreLevel ≤ 2) (searches : List Search)
    (hmoves : ∀ s ∈ searches, s.moves ≤ 2) :
    Keeps World.Shallow (runSearches flags order hash searches) := by
  induction searches with
  | nil => exact Keeps.ret _
  | cons s rest ih =>
    refine Keeps.seq (run_keeps hlevel (hmoves s List.mem_cons_self)) fun _ => ?_
    refine Keeps.seq (ih fun s' hs' => hmoves s' (List.mem_cons_of_mem s hs')) fun _ => ?_
    exact Keeps.ret _

end Levels

/-- **Searches of at most two moves store every solution under a new key**, if mates with
two levels left are cached: for any number of searches one after another in one process,
from any boards, for either side, with any hash. -/
theorem shallow_stores_fresh {κ : Type} [DecidableEq κ] (flags : Flags) (order : MoveOrder)
    (hash : (Fin 8 → Fin 8 → PieceType) → κ) (hlevel : flags.minStoreLevel ≤ 2)
    {searches : List Search} (hmoves : ∀ s ∈ searches, s.moves ≤ 2)
    {results : List (Int × OneRound)} {w : World κ}
    (h : Returns (runSearches flags order hash searches) World.initial results w) :
    w.FreshStores :=
  (runSearches_keeps hlevel searches hmoves _ _ _ h World.Shallow.initial).fresh

/-- White to move: the rook checks, and mates whatever the answer is. -/
def Search.rookAndPawn : Search := ⟨Board.ofText "kf7\nra2\nKh7\nPh6\n", false, 2⟩

/-- The event stores a solution under a key that has one in the cache. -/
def Event.storesIn {κ : Type} (cache : SolutionCache κ) : Event κ → Bool
  | .store sig _ _ => (cache.solutionMap sig).isSome
  | _ => false

/-- Two replies are solved, and the second time found in the cache. -/
theorem shallow_stores_fresh_twice :
    ∃ results w, Returns (runSearches Flags.default .checksFirst placementKey
        [Search.rookAndPawn, Search.rookAndPawn]) World.initial results w ∧
      results.map Prod.fst = [CHECKMATE, CHECKMATE] ∧
      (∃ sig t, w.cache.solutionMap sig = some t) ∧ w.FreshStores := by
  have hrun : test (runSearches Flags.default .checksFirst placementKey
      [Search.rookAndPawn, Search.rookAndPawn]) World.initial (fun results w =>
        decide (results.map Prod.fst = [CHECKMATE, CHECKMATE]) &&
          w.trace.any (Event.storesIn w.cache)) = true := by decide +kernel
  obtain ⟨results, w, hret, hpost⟩ := returns_of_test hrun
  obtain ⟨hmates, hany⟩ := Bool.and_eq_true_iff.mp hpost
  refine ⟨results, w, hret, of_decide_eq_true hmates, ?_, ?_⟩
  · obtain ⟨event, -, hevent⟩ := List.any_eq_true.mp hany
    cases event with
    | store sig r cache => exact ⟨sig, Option.isSome_iff_exists.mp hevent⟩
    | _ => cases hevent
  · exact shallow_stores_fresh Flags.default .checksFirst placementKey (by decide) (by decide) hret

end Chess
