import ChessMate.ProgramLogic
import ChessMate.SolutionCache

/-! # The depth-first mate search

`OneRound::expand` and the functions it calls, with the static cache as the
state of the search.  `levelsLeft` is the number of rounds left; the recursion
goes through `handleMinStepBoard`, which searches a child round with one level
less, so each function takes the search of a child round as an argument and
`expand` ties the knot by recursion on the levels.

A failed `CHECK` ends the process: it is a failed assertion of the program.

The state also carries a trace of what the search did.  Nothing reads it back;
it is how properties of every round, every board and every cache access of a
run are stated.
-/
namespace Chess
open ProgramLogic

/-- The assertions of the search. -/
inductive CheckFailure
  /-- `CHECK_GT(levelsLeft, 0)`. -/
  | levelsLeft
  /-- `CHECK_NOTNULL(child->maxStepState_.get())`, and the dereferences of
  `maxStepState_`. -/
  | maxStepState
  /-- `CHECK_NE(solution, NULL_INDEX)`. -/
  | solution
  deriving DecidableEq, Repr

/-- What a search does, with the round or the cache as it is at that moment. -/
inductive Event (κ : Type)
  /-- `expand(levelsLeft)` has set `isMaxChecked_` of this round. -/
  | expand (round : OneRound) (levelsLeft : Nat)
  /-- `expandMaxStep` has made a first-side move in this round. -/
  | maxMove (round : OneRound) (move : Move) (maxStepState : Board)
  /-- `expandMinStep` has set `isMinChecked_` of this round. -/
  | minStart (round : OneRound) (maxStepState : Board)
  /-- `makeOneMinMove` has made a reply in this round. -/
  | minMove (round : OneRound) (move : Move) (maxStepState nextState : Board)
  /-- `expandMinStep` has returned. -/
  | minStep (round : OneRound) (levelsLeft : Nat) (score : Int) (cache : SolutionCache κ)
  /-- `getScoreFromCache` has been called; `none` is a miss.  The round is the one
  that the score is about: the one that has made its first-side move, for the
  max cache, or the child that would be searched, for the min cache. -/
  | lookup (maxOrMin : Bool) (round : OneRound) (sig : κ) (height : Nat) (cache : SolutionCache κ)
      (score : Option Int)
  /-- `updateCache` is called for this round. -/
  | update (maxOrMin : Bool) (round : OneRound) (sig : κ) (height : Nat) (score : Int)
      (cache : SolutionCache κ)
  /-- `storeSolution` of this round is called. -/
  | store (key : κ) (round : OneRound) (cache : SolutionCache κ)

/-- The state of the process: the static cache, and the trace, latest event first. -/
structure World (κ : Type) where
  cache : SolutionCache κ
  trace : List (Event κ)

/-- The process before the first search. -/
def World.initial {κ : Type} : World κ := ⟨.initial, []⟩

/-- A part of the search. -/
abbrev SearchM (κ : Type) := Program (World κ) CheckFailure

namespace OneRound

section Search
variable {κ : Type} [DecidableEq κ]
variable (flags : Flags) (order : MoveOrder) (hash : (Fin 8 → Fin 8 → PieceType) → κ)

/-- Record an event. -/
def note (event : SolutionCache κ → Event κ) : SearchM κ PUnit :=
  act fun world => (⟨⟩, { world with trace := event world.cache :: world.trace })

/-- `getScoreFromMaxCache`, `getScoreFromMinCache`. -/
def getScore (maxOrMin : Bool) (round : OneRound) (sig : κ) (height : Nat) :
    SearchM κ (Option Int) :=
  act fun world =>
    let score := world.cache.getScoreFromCache maxOrMin sig height
    (score, { world with
      trace := .lookup maxOrMin round sig height world.cache score :: world.trace })

/-- `updateMaxCache`, `updateMinCache`. -/
def update (maxOrMin : Bool) (round : OneRound) (sig : κ) (height : Nat) (score : Int) :
    SearchM κ PUnit :=
  act fun world =>
    (⟨⟩, { cache := world.cache.updateCache flags maxOrMin sig height score
           trace := .update maxOrMin round sig height score world.cache :: world.trace })

/-- `storeSolution`, after the check that the round has made a move. -/
def store (child : OneRound) (sig : κ) : SearchM κ Nat :=
  match child.maxStepState with
  | none => fail .maxStepState
  | some maxStepState =>
      act fun world =>
        let (parent, cache) := world.cache.storeSolution sig maxStepState child.minStepStates
          child.minStepSolutionTrees
        (parent, { cache, trace := .store sig child world.cache :: world.trace })

/-- The branch of `handleMinStepBoard` for a board the cache does not answer:
search it, update the cache, and store the solution of a mate. -/
def solveReply (expandChild : OneRound → SearchM κ (Int × OneRound)) (levelsLeft : Nat)
    (sig : κ) (child : OneRound) : SearchM κ (Int × Option Nat) := do
  let result ← expandChild child
  (if flags.minStoreLevel ≤ levelsLeft then update flags false child sig levelsLeft result.1
    else pure ⟨⟩)
  if result.1 = CHECKMATE then
    let solution ← store result.2 sig
    pure (result.1, some solution)
  else pure (result.1, none)

/-- The score of a reply board and, for a mate, the index of its solution. -/
def scoreReply (expandChild : OneRound → SearchM κ (Int × OneRound)) (levelsLeft : Nat)
    (self : OneRound) (maxStepState nextState : Board) : SearchM κ (Int × Option Nat) := do
  let sig := hash nextState.positions
  let child :=
    create nextState self.blackFirst (self.level + 1) (some ⟨self.curBoard, maxStepState⟩)
  let cached ← getScore false child sig levelsLeft
  match cached with
  | none => solveReply flags expandChild levelsLeft sig child
  | some score =>
      if score = CHECKMATE then
        act fun world => ((score, world.cache.getSolution sig), world)
      else pure (score, none)

/-- `handleMinStepBoard`. -/
def handleMinStepBoard (expandChild : OneRound → SearchM κ (Int × OneRound)) (levelsLeft : Nat)
    (self : OneRound) (maxStepState nextState : Board) : SearchM κ (Int × OneRound) :=
  if 1 < levelsLeft then do
    let result ← scoreReply flags hash expandChild levelsLeft self maxStepState nextState
    if result.1 = CHECKMATE then
      match result.2 with
      | none => fail .solution
      | some solution =>
          pure (result.1, { self with
            minStepStates := self.minStepStates ++ [nextState]
            minStepSolutionTrees := self.minStepSolutionTrees ++ [solution] })
    else pure (result.1, { self with minStepStates := self.minStepStates ++ [nextState] })
  else pure (NONE, { self with minStepStates := self.minStepStates ++ [nextState] })

/-- `makeOneMinMove`. -/
def makeOneMinMove (expandChild : OneRound → SearchM κ (Int × OneRound)) (levelsLeft : Nat)
    (self : OneRound) (maxStepState : Board) (move : Move) : SearchM κ (Int × OneRound) := do
  let next := maxStepState.makeMove move
  note fun _ => .minMove self move maxStepState next
  handleMinStepBoard flags hash expandChild levelsLeft self maxStepState next

/-- The loop of `expandMinStep` over the second side's pieces and their moves, with
its scratch board. -/
def expandMinLoop (expandChild : OneRound → SearchM κ (Int × OneRound)) (levelsLeft : Nat)
    (maxStepState : Board) :
    List (Piece × Move) → Board → Bool → OneRound → SearchM κ (Int × OneRound)
  | [], _, hasNextMove, self =>
      pure (if self.isMinChecked || hasNextMove then CHECKMATE else STALLMATE, self)
  | (p, m) :: rest, auxBoard, hasNextMove, self =>
      let (ok, auxBoard) := self.canMove p m self.isMinChecked auxBoard
      if ok then do
        let result ← makeOneMinMove flags hash expandChild levelsLeft self maxStepState m
        if result.1 < CHECKMATE then pure result
        else expandMinLoop expandChild levelsLeft maxStepState rest auxBoard true result.2
      else expandMinLoop expandChild levelsLeft maxStepState rest auxBoard hasNextMove self

/-- `expandMinStep`. -/
def expandMinStep (expandChild : OneRound → SearchM κ (Int × OneRound)) (levelsLeft : Nat)
    (self : OneRound) : SearchM κ (Int × OneRound) :=
  match self.maxStepState with
  | none => fail .maxStepState
  | some maxStepState => do
      let self := { self with isMinChecked := self.isChecking maxStepState }
      note fun _ => .minStart self maxStepState
      let result ← expandMinLoop flags hash expandChild levelsLeft maxStepState
        (candidates flags (self.uncapturedMinPieces maxStepState) maxStepState)
        maxStepState false self
      note (.minStep result.2 levelsLeft result.1)
      pure result

/-- One first-side move of `expandMaxStep`, after `cleanUpForMinStep`: the score
from the cache or from the replies. -/
def scoreMaxMove (expandChild : OneRound → SearchM κ (Int × OneRound)) (levelsLeft : Nat)
    (self : OneRound) (sig : κ) : SearchM κ (Int × OneRound) := do
  let cached ← getScore true self sig levelsLeft
  match cached with
  | none =>
      let result ← expandMinStep flags hash expandChild levelsLeft self
      update flags true self sig levelsLeft result.1
      pure result
  | some score =>
      -- a mate is expanded again to get the solutions
      if score = CHECKMATE then expandMinStep flags hash expandChild levelsLeft self
      else pure (score, self)

/-- `expandMaxStep`. -/
def expandMaxStep (expandChild : OneRound → SearchM κ (Int × OneRound)) (levelsLeft : Nat) :
    List Move → OneRound → SearchM κ (Int × OneRound)
  | [], self => pure (NONE, self)
  | move :: maxMoves, self =>
      if self.isCircularMove move then expandMaxStep expandChild levelsLeft maxMoves self
      else do
        let maxStepState := self.curBoard.makeMove move
        let self := cleanUpForMinStep { self with
          maxStepState := some maxStepState
          maxMovePiece := maxStepState.safePiece move.toPos }
        note fun _ => .maxMove self move maxStepState
        let result ← scoreMaxMove flags hash expandChild levelsLeft self
          (hash maxStepState.positions)
        if result.1 = CHECKMATE then pure result
        else expandMaxStep expandChild levelsLeft maxMoves result.2

/-- The body of `expand` for at least one level. -/
def expandRound (expandChild : OneRound → SearchM κ (Int × OneRound)) (levelsLeft : Nat)
    (self : OneRound) : SearchM κ (Int × OneRound) := do
  let self := { self with isMaxChecked := self.isChecked }
  note fun _ => .expand self levelsLeft
  let maxMoves := self.generateAndSortMaxMoves flags order
  let self := { self with numMaxMoves := maxMoves.length }
  if maxMoves = [] then
    pure (if self.isMaxChecked then -CHECKMATE else -STALLMATE, self)
  else
    let result ← expandMaxStep flags hash expandChild levelsLeft maxMoves self
    pure (result.1, result.2.cleanUp)

/-- `expand`. -/
def expand : Nat → OneRound → SearchM κ (Int × OneRound)
  | 0, _ => fail .levelsLeft
  | levels + 1, self => expandRound flags order hash (expand levels) (levels + 1) self

end Search
end OneRound

/-! ## Whole runs -/

/-- One search from a root board. -/
structure Search where
  board : Board
  blackFirst : Bool
  moves : Nat

section Run
variable {κ : Type} [DecidableEq κ]
variable (flags : Flags) (order : MoveOrder) (hash : (Fin 8 → Fin 8 → PieceType) → κ)

/-- The root round of a search is made and expanded, as in `dfs.cc`. -/
def Search.run (search : Search) : SearchM κ (Int × OneRound) :=
  OneRound.expand flags order hash search.moves
    (OneRound.create search.board search.blackFirst 0 none)

/-- Searches run one after another in one process. -/
def runSearches : List Search → SearchM κ (List (Int × OneRound))
  | [] => pure []
  | search :: rest => do
      let result ← search.run flags order hash
      let results ← runSearches rest
      pure (result :: results)

end Run
end Chess
