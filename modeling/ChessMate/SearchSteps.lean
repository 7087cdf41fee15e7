import ChessMate.DepthSearch
import ChessMate.RoundGame

/-! # What a search does to the process, step by step

Everything that a search does to the cache and to the trace is a sequence of
four kinds of `Step`: it notes where it is, it looks a score up, it updates a
score that is no mate of the min cache, and it records a solved reply, which
updates the min cache and stores the solution in one go.  Each step carries what
is known when it is taken: the round belongs to a position of the region `P` and
the key is that of its board, an entry that is updated has a first bound
below the height, the score is the verdict of the game provided that all lookups
so far were right, and a stored round has its replies and their solutions lined
up.

What holds of whole runs is then a matter of single steps: a property that every
step keeps holds to the end.  This module has those that the search itself rests
on; the modules about the cache and the solution forest add theirs.
-/
namespace Chess
open ProgramLogic MateGame Relation

section Defs
variable {κ : Type}

/-! ## Rightness -/

/-- The verdict that a score is about: after the round's first-side move, for the
max cache, and of the round itself, one level down, for the min cache. -/
def Mates (flags : Flags) (maxOrMin : Bool) (r : OneRound) (height : ℕ) : Prop :=
  if maxOrMin then
    ∃ s, r.maxStepState = some s ∧ (searchGame flags).Loses (height - 1) (r.defenceState s)
  else (searchGame flags).Wins (height - 1) r.attackState

/-- Every score that was found in the cache so far is the verdict of the game. -/
def World.LookupsRight (flags : Flags) (w : World κ) : Prop :=
  ∀ mm r sig height cache score, Event.lookup mm r sig height cache (some score) ∈ w.trace →
    (score = CHECKMATE ↔ Mates flags mm r height)

/-- Provided that the lookups so far were right. -/
def World.Sure (flags : Flags) (w : World κ) (X : Prop) : Prop := w.LookupsRight flags → X

/-! ## What is kept about the cache -/

/-- An entry for the signature has its first bound below the height. -/
def SolutionCache.Below (cache : SolutionCache κ) (mm : Bool) (sig : κ) (height : ℕ) : Prop :=
  ∀ entry, cache.signatures mm sig = some entry → entry.1 < height

/-- Every mate bound of the min cache has a stored solution. -/
def SolutionCache.Known (cache : SolutionCache κ) : Prop :=
  ∀ sig entry, cache.signatures false sig = some entry → entry.2 < INT_MAX →
    ∃ t, cache.solutionMap sig = some t

theorem SolutionCache.signatures_initial (mm : Bool) (sig : κ) :
    (initial : SolutionCache κ).signatures mm sig = none := by
  cases mm <;> rfl

theorem SolutionCache.known_initial : (initial : SolutionCache κ).Known := by
  intro sig entry he
  rw [signatures_initial] at he
  cases he

/-! ## Rounds in the middle of a search -/

/-- The round has made a first-side move that led to `s`. -/
structure OneRound.Moved (flags : Flags) (P : AttackState → Prop) (r : OneRound) (s : Board) :
    Prop where
  ready : r.Ready
  region : P r.attackState
  move : ∃ m ∈ r.attackState.tried flags, r.isCircularMove m = false ∧ s = r.curBoard.makeMove m
  maxStepState : r.maxStepState = some s
  maxMovePiece : r.maxMovePiece = s.safePiece s.lastMove.toPos

variable (hash : (Fin 8 → Fin 8 → PieceType) → κ)

/-- The recorded boards have stored solutions, recorded in the same order. -/
def OneRound.Trees (r : OneRound) (cache : SolutionCache κ) : Prop :=
  List.Forall₂ (fun b t => cache.solutionMap (hash b.positions) = some t) r.minStepStates
    r.minStepSolutionTrees

/-- The recorded solutions are stored ones. -/
def OneRound.Stored (r : OneRound) (cache : SolutionCache κ) : Prop :=
  ∀ t ∈ r.minStepSolutionTrees, ∃ sig, cache.solutionMap sig = some t

theorem OneRound.Trees.stored {hash : (Fin 8 → Fin 8 → PieceType) → κ} {r : OneRound}
    {cache : SolutionCache κ} (h : r.Trees hash cache) : r.Stored cache := by
  have hall : ∀ {states : List Board} {trees : List ℕ},
      List.Forall₂ (fun b t => cache.solutionMap (hash b.positions) = some t) states trees →
      ∀ t ∈ trees, ∃ sig, cache.solutionMap sig = some t := by
    intro states trees h
    induction h with
    | nil => intro t ht; cases ht
    | cons hhead _ ih =>
      intro t ht
      rcases List.mem_cons.mp ht with rfl | ht
      · exact ⟨_, hhead⟩
      · exact ih t ht
  exact hall h

theorem OneRound.stored_of_nil {r : OneRound} (h : r.minStepSolutionTrees = [])
    (cache : SolutionCache κ) : r.Stored cache := by
  intro t ht
  rw [h] at ht
  cases ht

/-- The round has found a mate: its move, all replies to it, and their solutions. -/
structure OneRound.Solved (flags : Flags) (r : OneRound) (cache : SolutionCache κ) : Prop where
  move : ∃ m ∈ r.attackState.tried flags, r.isCircularMove m = false ∧
    r.maxStepState = some (r.curBoard.makeMove m)
  replies : ∀ s, r.maxStepState = some s →
    r.minStepStates = ((r.defenceState s).replies flags).map s.makeMove
  mated : ∀ s, r.maxStepState = some s → r.minStepStates = [] → (r.defenceState s).checked = true
  trees : r.Trees hash cache

/-- The round that a score is about, and the key of its board: a round that has
made its first-side move, for the max cache, or a child round, for the min cache. -/
def About (flags : Flags) (P : AttackState → Prop) (maxOrMin : Bool) (r : OneRound) (sig : κ) :
    Prop :=
  if maxOrMin then ∃ s, r.Moved flags P s ∧ sig = hash s.positions
  else P r.attackState ∧ r.parent ≠ none ∧ sig = hash r.curBoard.positions

/-! ## Steps -/

/-- What is known of the places that a search notes. -/
def NoteOk (flags : Flags) (P : AttackState → Prop) : Event κ → Prop
  | .expand r levelsLeft =>
      r.Ready ∧ P r.attackState ∧ r.isMaxChecked = r.isChecked ∧ 1 ≤ levelsLeft
  | .maxMove r m s => r.Moved flags P s ∧ m ∈ r.attackState.tried flags ∧
      r.isCircularMove m = false ∧ s = r.curBoard.makeMove m
  | .minStart r s => r.Moved flags P s ∧ r.isMinChecked = r.isChecking s
  | .minMove r m s next => r.Moved flags P s ∧ m ∈ (r.defenceState s).replies flags ∧
      next = s.makeMove m
  | .minStep r levelsLeft score cache => ∃ s, r.Moved flags P s ∧ r.isMinChecked = r.isChecking s ∧
      (score = CHECKMATE → r.minStepStates = ((r.defenceState s).replies flags).map s.makeMove ∧
        r.Trees hash cache ∧ (levelsLeft = 1 → (r.defenceState s).replies flags = []))
  | _ => False

/-- What is known when a score is updated. -/
structure UpdateOk (flags : Flags) (P : AttackState → Prop) (bound : Bool → ℕ) (w : World κ)
    (mm : Bool) (r : OneRound) (sig : κ) (height : ℕ) (score : Int) : Prop where
  about : About hash flags P mm r sig
  pos : 1 ≤ height
  le_bound : height ≤ bound mm
  below : w.cache.Below mm sig height
  right : w.Sure flags (score = CHECKMATE ↔ Mates flags mm r height)
  le_mate : score ≤ CHECKMATE

/-- The process after an event was noted. -/
def World.log (w : World κ) (event : Event κ) : World κ := { w with trace := event :: w.trace }

variable [DecidableEq κ]

/-- The process after a call of `updateCache`. -/
def World.updated (flags : Flags) (w : World κ) (mm : Bool) (r : OneRound) (sig : κ) (height : ℕ)
    (score : Int) : World κ :=
  { cache := w.cache.updateCache flags mm sig height score
    trace := .update mm r sig height score w.cache :: w.trace }

/-- The process after a call of `storeSolution`. -/
def World.stored (w : World κ) (sig : κ) (r : OneRound) (s : Board) : World κ :=
  { cache := (w.cache.storeSolution sig s r.minStepStates r.minStepSolutionTrees).2
    trace := .store sig r w.cache :: w.trace }

/-- The process after a reply was found to be a mate: a level that is not cached
leaves the score maps alone. -/
def World.recorded (flags : Flags) (w : World κ) (child : OneRound) (sig : κ) (height : ℕ)
    (r : OneRound) (s : Board) : World κ :=
  (if flags.minStoreLevel ≤ height then w.updated flags false child sig height CHECKMATE
    else w).stored sig r s

/-- **What a search can do**, with heights up to `bound`. -/
inductive Step (flags : Flags) (P : AttackState → Prop) (bound : Bool → ℕ) :
    World κ → World κ → Prop
  | note {w : World κ} (event : Event κ) (h : NoteOk hash flags P event) :
      Step flags P bound w (w.log event)
  | lookup {w : World κ} (mm : Bool) (r : OneRound) (sig : κ) (height : ℕ)
      (about : About hash flags P mm r sig) (pos : 1 ≤ height) (le_bound : height ≤ bound mm) :
      Step flags P bound w (w.log (.lookup mm r sig height w.cache
        (w.cache.getScoreFromCache mm sig height)))
  | update {w : World κ} {mm : Bool} {r : OneRound} {sig : κ} {height : ℕ} {score : Int}
      (h : UpdateOk hash flags P bound w mm r sig height score)
      (hmate : mm = true ∨ score ≠ CHECKMATE) :
      Step flags P bound w (w.updated flags mm r sig height score)
  | solved {w : World κ} {child : OneRound} {sig : κ} {height : ℕ} {r : OneRound} {s : Board}
      (h : UpdateOk hash flags P bound w false child sig height CHECKMATE)
      (hstate : r.attackState = child.attackState) (hs : r.maxStepState = some s)
      (hsolved : r.Solved hash flags w.cache) :
      Step flags P bound w (w.recorded flags child sig height r s)

end Defs

/-! ## What every step keeps -/

section Stable
variable {κ : Type} [DecidableEq κ] {hash : (Fin 8 → Fin 8 → PieceType) → κ}
variable {flags : Flags} {P : AttackState → Prop} {bound : Bool → ℕ}

theorem Step.weaken {bound' : Bool → ℕ} (hb : ∀ mm, bound mm ≤ bound' mm) {w w' : World κ}
    (h : Step hash flags P bound w w') : Step hash flags P bound' w w' := by
  cases h with
  | note event h => exact .note event h
  | lookup mm r sig height ha hp h => exact .lookup mm r sig height ha hp (h.trans (hb mm))
  | update h hmate => exact .update { h with le_bound := h.le_bound.trans (hb _) } hmate
  | solved h hstate hs hsolved =>
    exact .solved { h with le_bound := h.le_bound.trans (hb _) } hstate hs hsolved

/-- The trace only grows. -/
theorem Step.trace_mono {w w' : World κ} (h : Step hash flags P bound w w') :
    ∀ event ∈ w.trace, event ∈ w'.trace := by
  intro event he
  cases h with
  | note event' h => exact List.mem_cons_of_mem _ he
  | lookup mm r sig height ha hp h => exact List.mem_cons_of_mem _ he
  | update h hmate => exact List.mem_cons_of_mem _ he
  | solved h hstate hs hsolved =>
    refine List.mem_cons_of_mem _ ?_
    show event ∈ (if _ then _ else _ : World κ).trace
    split_ifs
    · exact List.mem_cons_of_mem _ he
    · exact he

theorem stable_sure (X : Prop) :
    Stable (Step hash flags P bound) fun w => w.Sure flags X := by
  intro w w' h hX hright
  refine hX fun mm r sig height cache score he => ?_
  exact hright mm r sig height cache score (h.trace_mono _ he)

/-- What `recorded` does to the cache. -/
theorem World.recorded_maps (flags : Flags) (w : World κ) (child : OneRound) (sig : κ) (height : ℕ) (r : OneRound)
    (s : Board) :
    (w.recorded flags child sig height r s).cache.signatures =
        (if flags.minStoreLevel ≤ height then
          (w.cache.updateCache flags false sig height CHECKMATE).signatures
        else w.cache.signatures) ∧
      (∃ t, (w.recorded flags child sig height r s).cache.solutionMap sig = some t) ∧
      ∀ sig' t, w.cache.solutionMap sig' = some t →
        (w.recorded flags child sig height r s).cache.solutionMap sig' = some t := by
  unfold recorded
  by_cases hl : flags.minStoreLevel ≤ height
  · rw [if_pos hl, if_pos hl]
    obtain ⟨h1, h2, h3⟩ := SolutionCache.storeSolution_maps
      (w.cache.updateCache flags false sig height CHECKMATE) sig s r.minStepStates
      r.minStepSolutionTrees
    refine ⟨h1, ⟨_, h2⟩, fun sig' t ht => h3 sig' t ?_⟩
    rw [SolutionCache.solutionMap_updateCache]; exact ht
  · rw [if_neg hl, if_neg hl]
    obtain ⟨h1, h2, h3⟩ := SolutionCache.storeSolution_maps w.cache sig s r.minStepStates
      r.minStepSolutionTrees
    exact ⟨h1, ⟨_, h2⟩, h3⟩

/-- **A stored solution stays the one stored first.** -/
theorem stable_solutionMap (sig : κ) (t : ℕ) :
    Stable (Step hash flags P bound) fun w => w.cache.solutionMap sig = some t := by
  intro w w' h ht
  cases h with
  | note event h => exact ht
  | lookup mm r sig height ha hp h => exact ht
  | update h hmate =>
    show (w.cache.updateCache _ _ _ _ _).solutionMap sig = some t
    rw [SolutionCache.solutionMap_updateCache]
    exact ht
  | solved h hstate hs hsolved => exact (w.recorded_maps flags _ _ _ _ _).2.2 sig t ht

theorem stable_trees (r : OneRound) :
    Stable (Step hash flags P bound) fun w => r.Trees hash w.cache := by
  intro w w' h ht
  exact ht.imp fun b t hb => stable_solutionMap _ _ w w' h hb

theorem stable_stored (r : OneRound) :
    Stable (Step hash flags P bound) fun w => r.Stored w.cache := by
  intro w w' h hr t ht
  obtain ⟨sig, hsig⟩ := hr t ht
  exact ⟨sig, stable_solutionMap sig t w w' h hsig⟩

theorem updatedEntry_below {old : Option (Int × Int)} {height bnd : ℕ} {score : Int}
    (hlt : height < bnd) (h : ∀ e, old = some e → e.1 < bnd) {entry : Int × Int}
    (he : SolutionCache.updatedEntry flags old height score = some entry) : entry.1 < bnd := by
  rcases SolutionCache.updatedEntry_cases he with he | ⟨-, -, rfl⟩ | ⟨-, e, -, -, rfl⟩ |
    ⟨-, -, rfl⟩ | ⟨e, hold, -, -, rfl⟩
  · exact h entry he
  · show (height : Int) < bnd
    exact_mod_cast hlt
  · show (height : Int) < bnd
    exact_mod_cast hlt
  · show -INT_MAX < (bnd : Int)
    unfold INT_MAX; omega
  · exact h e hold

/-- **Deeper searches stay below**: they raise no first bound to their own height. -/
theorem stable_below {mm : Bool} {sig : κ} {height : ℕ} (hb : bound mm < height) :
    Stable (Step hash flags P bound) fun w => w.cache.Below mm sig height := by
  have hupdate : ∀ {w : World κ} {mm' : Bool} {r : OneRound} {sig' : κ} {height' : ℕ} {score : Int},
      UpdateOk hash flags P bound w mm' r sig' height' score → w.cache.Below mm sig height →
      (w.cache.updateCache flags mm' sig' height' score).Below mm sig height := by
    intro w mm' r sig' height' score hok hbelow entry he
    rw [SolutionCache.signatures_updateCache] at he
    split_ifs at he with hsame
    · obtain ⟨rfl, rfl⟩ := hsame
      exact updatedEntry_below (lt_of_le_of_lt hok.le_bound hb) hbelow he
    · exact hbelow entry he
  intro w w' h hbelow
  cases h with
  | note event h => exact hbelow
  | lookup mm r sig height ha hp h => exact hbelow
  | update h hmate => exact hupdate h hbelow
  | solved h hstate hs hsolved =>
    intro entry he
    rw [(w.recorded_maps flags _ _ _ _ _).1] at he
    split_ifs at he with hl
    · exact hupdate h hbelow entry he
    · exact hbelow entry he

/-- **Every mate bound of the min cache keeps having a stored solution.** -/
theorem stable_known :
    Stable (Step hash flags P bound) fun w => w.cache.Known := by
  intro w w' h hknown
  cases h with
  | note event h => exact hknown
  | lookup mm r sig height ha hp h => exact hknown
  | @update mm r sig height score h hmate =>
    intro sig' entry he hlt
    show ∃ t, (w.cache.updateCache _ _ _ _ _).solutionMap sig' = some t
    rw [SolutionCache.solutionMap_updateCache]
    have he' : (w.cache.updateCache flags mm sig height score).signatures false sig' =
        some entry := he
    rw [SolutionCache.signatures_updateCache] at he'
    split_ifs at he' with hsame
    · obtain ⟨rfl, rfl⟩ := hsame
      have hscore : score < CHECKMATE :=
        lt_of_le_of_ne h.le_mate (hmate.resolve_left (by decide))
      -- no mate bound is written: the first bound is below the height
      rcases SolutionCache.updatedEntry_cases he' with hold | ⟨-, -, rfl⟩ | ⟨-, e, hold, -, rfl⟩ |
        ⟨hns, -, -⟩ | ⟨e, hold, hnb, -, -⟩
      · exact hknown _ entry hold hlt
      · exact absurd hlt (lt_irrefl _)
      · exact hknown _ e hold hlt
      · exact absurd hscore hns
      · exact absurd ⟨hscore, h.below e hold⟩ hnb
    · exact hknown _ entry he' hlt
  | @solved child sig height r s h hstate hs hsolved =>
    obtain ⟨hsig, hkey, hmono⟩ := w.recorded_maps flags child sig height r s
    intro sig' entry he hlt
    by_cases hsame : sig' = sig
    · subst hsame
      exact hkey
    · have hold : w.cache.signatures false sig' = some entry := by
        rw [hsig] at he
        split_ifs at he with hl
        · rw [SolutionCache.signatures_updateCache, if_neg (fun h => hsame h.2)] at he
          exact he
        · exact he
      obtain ⟨t, ht⟩ := hknown sig' entry hold hlt
      exact ⟨t, hmono sig' t ht⟩

end Stable
end Chess
