import ChessMate.SolutionForest
import ChessMate.TreePrinter

/-! # What the programs print at their end

`dfs.cc` calls `printPath` after its search and `checkmate.cc` calls `printSolutionTree`
after its own, whatever the result.  Neither looks at how the search ended.

`printPath` dereferences `maxStepState_`, which is null when the first side had no move
to make.  Otherwise it is safe: every stored solution is a node of the forest and so
are all its children (`stable_forestClosed`), also where a solution is stored again
under its old key.

`printSolutionTree` starts at the root of the tree.  `evaluate` leaves the tree empty
when the second side is attacked before the first move, and then there is no root.
Otherwise the printer stays within the tree (`SolutionTree.printed`).

So the two are safe exactly if the first side has a legal move and the second side is
not attacked (`printers_safe_iff`).
-/
namespace Chess
open ProgramLogic Relation

/-! ## Closed forests -/

namespace StaticForest
variable {α : Type} {f : StaticForest α}

/-- All children are nodes. -/
def Closed (f : StaticForest α) : Prop := ∀ i j, f.Child j i → j < f.size

/-- The indices that are followed from one on. -/
def Follows (f : StaticForest α) (t i : ℕ) : Prop := ReflTransGen (fun k l => f.Child l k) t i

theorem closed_clear : (clear : StaticForest α).Closed := by
  rintro i j ⟨node, hnode, -⟩
  cases hnode

/-- In a closed forest every index that is followed is that of a node. -/
theorem Closed.follows (h : f.Closed) {t i : ℕ} (ht : t < f.size) (hi : f.Follows t i) :
    i < f.size := by
  induction hi with
  | refl => exact ht
  | tail _ hchild _ => exact h _ _ hchild

theorem Closed.add (h : f.Closed) (data : α) : (f.add data).2.Closed := by
  rintro i j ⟨node, hnode, hj⟩
  rw [size_add]
  rcases node?_add_cases hnode with hold | ⟨-, rfl⟩
  · exact (h i j ⟨node, hold, hj⟩).trans (Nat.lt_succ_self _)
  · cases hj

theorem Closed.addChild (h : f.Closed) {child : ℕ} (hchild : child < f.size) (parent : ℕ) :
    (f.addChild parent child).Closed := by
  rintro i j ⟨node, hnode, hj⟩
  rw [size_addChild]
  rw [node?_addChild] at hnode
  obtain ⟨old, hold, rfl⟩ := Option.map_eq_some_iff.mp hnode
  split_ifs at hj
  · rcases List.mem_append.mp hj with hj | hj
    · exact h i j ⟨old, hold, hj⟩
    · rw [List.mem_singleton.mp hj]
      exact hchild
  · exact h i j ⟨old, hold, hj⟩

end StaticForest

section Stores
variable {κ : Type}

/-- A reply and its node, before the solution of the board after it is added. -/
def SolutionCache.addReply (self : SolutionCache κ) (parent : ℕ) (board : Board) :
    SolutionCache κ :=
  (self.addReplyNode board).2.addSolutionChild parent (self.addReplyNode board).1

/-- Adding the replies keeps the forest closed. -/
theorem SolutionCache.storeReplies_closed (parent : ℕ) (boards : List Board) (trees : List ℕ)
    (self : SolutionCache κ) (h : self.solutions.Closed)
    (htrees : ∀ t ∈ trees, t < self.solutions.size) :
    (self.storeReplies parent boards trees).solutions.Closed ∧
      self.solutions.size ≤ (self.storeReplies parent boards trees).solutions.size := by
  induction boards generalizing trees self with
  | nil => exact ⟨h, Nat.le_refl _⟩
  | cons board boards ih =>
    have hsize : (self.addReply parent board).solutions.size = self.solutions.size + 1 :=
      (StaticForest.size_addChild _ _ _).trans (StaticForest.size_add _ _)
    have hclosed : (self.addReply parent board).solutions.Closed := by
      refine (h.add board.lastMove).addChild ?_ parent
      rw [StaticForest.size_add]
      exact Nat.lt_succ_self _
    have hold : ∀ t < self.solutions.size, t < (self.addReply parent board).solutions.size := by
      intro t ht
      rw [hsize]
      exact Nat.lt_succ_of_lt ht
    cases trees with
    | nil =>
      obtain ⟨hrest, hle⟩ := ih [] (self.addReply parent board) hclosed fun t ht => by cases ht
      rw [hsize] at hle
      exact ⟨hrest, Nat.le_of_succ_le hle⟩
    | cons t trees =>
      obtain ⟨ht, htrees⟩ := List.forall_mem_cons.mp htrees
      have hsize' : ((self.addReply parent board).addSolutionChild self.solutions.size t
          ).solutions.size = (self.addReply parent board).solutions.size :=
        StaticForest.size_addChild _ _ _
      obtain ⟨hrest, hle⟩ := ih trees _ (hclosed.addChild (hold t ht) self.solutions.size)
        fun t' ht' => hsize'.symm ▸ hold t' (htrees t' ht')
      rw [hsize', hsize] at hle
      exact ⟨hrest, Nat.le_of_succ_le hle⟩

/-- The forest is closed, and the solution map leads into it. -/
structure World.ForestClosed (w : World κ) : Prop where
  closed : w.cache.solutions.Closed
  inside : ∀ sig t, w.cache.solutionMap sig = some t → t < w.cache.solutions.size

theorem World.ForestClosed.initial : (World.initial : World κ).ForestClosed where
  closed := StaticForest.closed_clear
  inside sig t h := by cases h

variable [DecidableEq κ]

/-- **Storing a solution keeps the forest closed**, under a new key or under an old one. -/
theorem SolutionCache.storeSolution_closed (self : SolutionCache κ) (key : κ) (s : Board)
    {boards : List Board} {trees : List ℕ} (h : self.solutions.Closed)
    (hinside : ∀ sig t, self.solutionMap sig = some t → t < self.solutions.size)
    (htrees : ∀ t ∈ trees, t < self.solutions.size) :
    (self.storeSolution key s boards trees).2.solutions.Closed ∧
      ∀ sig t, (self.storeSolution key s boards trees).2.solutionMap sig = some t →
        t < (self.storeSolution key s boards trees).2.solutions.size := by
  have hgrown : ∀ t < self.solutions.size, t < (self.solutions.add s.lastMove).2.size := by
    intro t ht
    rw [StaticForest.size_add]
    exact Nat.lt_succ_of_lt ht
  -- after the node of the move, the replies are added below it or below an older node
  have hreplies : ∀ (added : SolutionCache κ) (parent : ℕ),
      added.solutions = (self.solutions.add s.lastMove).2 →
      (∀ sig t, added.solutionMap sig = some t → t < added.solutions.size) →
      (added.storeReplies parent boards trees).solutions.Closed ∧
        ∀ sig t, (added.storeReplies parent boards trees).solutionMap sig = some t →
          t < (added.storeReplies parent boards trees).solutions.size := by
    intro added parent hsol hmap
    have hclosed : added.solutions.Closed := hsol ▸ h.add s.lastMove
    obtain ⟨hclosed', hle⟩ := storeReplies_closed parent boards trees added hclosed fun t ht =>
      hsol ▸ hgrown t (htrees t ht)
    refine ⟨hclosed', fun sig t ht => ?_⟩
    rw [(storeReplies_maps parent boards trees added).1] at ht
    exact (hmap sig t ht).trans_le hle
  unfold storeSolution addSolutionNode
  cases hkey : self.solutionMap key with
  | some old => exact hreplies _ old rfl fun sig t ht => hgrown t (hinside sig t ht)
  | none =>
    refine hreplies _ _ rfl fun sig t ht => ?_
    by_cases hsig : sig = key
    · subst hsig
      obtain rfl : self.solutions.size = t :=
        Option.some.inj ((Function.update_self sig _ self.solutionMap).symm.trans ht)
      rw [StaticForest.size_add]
      exact Nat.lt_succ_self _
    · exact hgrown t (hinside sig t ((Function.update_of_ne hsig _ _).symm.trans ht))

variable {hash : (Fin 8 → Fin 8 → PieceType) → κ} {flags : Flags} {P : AttackState → Prop}
variable {bound : Bool → ℕ}

/-- **Every step of a search keeps the forest closed.** -/
theorem stable_forestClosed : Stable (Step hash flags P bound) World.ForestClosed := by
  intro w w' h hw
  cases h with
  | note event h => exact ⟨hw.closed, hw.inside⟩
  | lookup mm r sig height ha hp h => exact ⟨hw.closed, hw.inside⟩
  | update h hmate =>
    unfold World.updated
    refine ⟨?_, ?_⟩
    · rw [SolutionCache.solutions_updateCache]
      exact hw.closed
    · rw [SolutionCache.solutions_updateCache, SolutionCache.solutionMap_updateCache]
      exact hw.inside
  | @solved child sig height r s h hstate hs hsolved =>
    obtain ⟨w₁, hw₁, hsol, hmap⟩ := World.recorded_eq_stored flags w child sig height r s
    have htrees : ∀ t ∈ r.minStepSolutionTrees, t < w₁.cache.solutions.size := by
      intro t ht
      obtain ⟨sig, hsig⟩ := hsolved.trees.stored t ht
      exact hsol ▸ hw.inside sig t hsig
    rw [hw₁]
    obtain ⟨hclosed, hinside⟩ := w₁.cache.storeSolution_closed sig s (hsol ▸ hw.closed)
      (by rw [hsol, hmap]; exact hw.inside) htrees
    exact ⟨hclosed, hinside⟩

end Stores

/-! ## The two printers -/

/-- **`printPath` is safe**: the round has made a move, and printing it only follows
indices of nodes. -/
structure OneRound.PrintsSafely (r : OneRound) (solutions : StaticForest Move) : Prop where
  moved : r.maxStepState ≠ none
  inside : ∀ t ∈ r.minStepSolutionTrees, ∀ i, solutions.Follows t i → i < solutions.size

/-- The forest has a way down of this many steps. -/
def StaticForest.Descends {α : Type} (f : StaticForest α) : ℕ → ℕ → Prop
  | 0, _ => True
  | n + 1, i => ∃ j, f.Child j i ∧ f.Descends n j

theorem exists_of_mapM_eq_none {α β : Type} {f : α → Option β} {l : List α}
    (h : l.mapM f = none) : ∃ x ∈ l, f x = none := by
  by_contra hall
  push Not at hall
  obtain ⟨ys, hys, -⟩ := exists_mapM (f := f) (g := fun _ => ([] : List ℕ)) (h := fun _ => [])
    fun x hx => by
      obtain ⟨y, hy⟩ := Option.ne_none_iff_exists'.mp (hall x hx)
      exact ⟨y, hy, rfl⟩
  rw [h] at hys
  cases hys

/-- Where only nodes are followed, printing a solution fails for want of fuel alone. -/
theorem printSolution_eq_none {f : StaticForest Move} (fuel t : ℕ) (lead : String)
    (h : ∀ i, f.Follows t i → i < f.size) (hnone : printSolution f fuel t lead = none) :
    f.Descends fuel t := by
  induction fuel generalizing t lead with
  | zero => trivial
  | succ fuel ih =>
    obtain ⟨node, hnode⟩ : ∃ node, f.node? t = some node :=
      ⟨_, List.getElem?_eq_getElem (h t .refl)⟩
    rw [printSolution, hnode] at hnone
    have hchildren : node.children.mapM (fun c => printSolution f fuel c (lead ++ indent)) = none := by
      cases hall : node.children.mapM fun c => printSolution f fuel c (lead ++ indent) with
      | none => rfl
      | some subtrees => simp [hall] at hnone
    obtain ⟨c, hc, hnone⟩ := exists_of_mapM_eq_none hchildren
    have hchild : f.Child c t := ⟨node, hnode, hc⟩
    exact ⟨c, hchild, ih c _ (fun i hi => h i (ReflTransGen.head hchild hi)) hnone⟩

/-- **A safe `printPath` fails for want of fuel alone.** -/
theorem OneRound.PrintsSafely.printPath_eq_none {r : OneRound} {solutions : StaticForest Move}
    (h : r.PrintsSafely solutions) {fuel : ℕ} (hnone : r.printPath solutions fuel = none) :
    ∃ t ∈ r.minStepSolutionTrees, solutions.Descends fuel t := by
  obtain ⟨s, hs⟩ := Option.ne_none_iff_exists'.mp h.moved
  obtain ⟨lead, hlead⟩ : ∃ lead, lead = String.join (List.replicate (2 * r.level + 1) indent) :=
    ⟨_, rfl⟩
  have hreplies : (r.minStepStates.zipIdx.mapM fun x =>
      r.printReply solutions fuel lead x.2 x.1) = none := by
    cases hall : r.minStepStates.zipIdx.mapM fun x =>
        r.printReply solutions fuel lead x.2 x.1 with
    | none => rfl
    | some replies =>
      rw [hlead] at hall
      simp [OneRound.printPath, hs, hall] at hnone
  obtain ⟨x, -, hx⟩ := exists_of_mapM_eq_none hreplies
  unfold OneRound.printReply at hx
  cases htree : r.minStepSolutionTrees[x.2]? with
  | none => simp [htree] at hx
  | some t =>
    have ht : t ∈ r.minStepSolutionTrees := List.mem_of_getElem? htree
    have hprint : printSolution solutions fuel t (lead ++ indent) = none := by
      cases hprinted : printSolution solutions fuel t (lead ++ indent) with
      | none => rfl
      | some text => simp [htree, hprinted] at hx
    exact ⟨t, ht, printSolution_eq_none fuel t _ (h.inside t ht) hprint⟩

section Safety
variable {κ : Type} [DecidableEq κ] (flags : Flags) (order : MoveOrder)
variable (hash : (Fin 8 → Fin 8 → PieceType) → κ)

/-- After the depth-first search, `printPath` is safe if and only if the first side has a
legal move. -/
theorem printPath_safe_iff {b : Board} (hb : b.FileLoaded) {first : Bool} {moves : ℕ}
    {result : Int × OneRound} {w : World κ}
    (h : Returns (Search.run flags order hash ⟨b, first, moves⟩) World.initial result w) :
    result.2.PrintsSafely w.cache.solutions ↔ b.legalMoves flags first ≠ [] := by
  obtain ⟨hkings, hlast⟩ := hb.kings
  have htried : (⟨first, b, none⟩ : AttackState).tried flags = b.legalMoves flags first :=
    AttackState.tried_eq_of_kings hkings (Or.inl hlast)
  have hruns : Runs True (Step hash flags (fun _ => True) fun _ => moves) (fun w => w.cache.Known)
      (Search.run flags order hash ⟨b, first, moves⟩)
      (ExpandPost hash flags moves (OneRound.create b first 0 none)) :=
    searchRun_runs (region_all flags) ⟨trivial, le_refl _, Or.inl trivial⟩
  obtain ⟨-, hpost, hforest⟩ := (hruns.frame stable_forestClosed).of_returns
    ⟨SolutionCache.known_initial, World.ForestClosed.initial⟩ h
  constructor
  · intro hsafe hempty
    exact hsafe.moved (hpost.notMoved (htried.trans hempty))
  · intro hne
    obtain ⟨m, hm⟩ := List.exists_mem_of_ne_nil _ hne
    refine ⟨hpost.moved ⟨m, ?_, rfl⟩, fun t ht i hi => ?_⟩
    · have hm' : m ∈ (⟨first, b, none⟩ : AttackState).tried flags := htried ▸ hm
      exact hm'
    · obtain ⟨sig, hsig⟩ := hpost.stored t ht
      exact hforest.closed.follows (hforest.inside sig t hsig) hi

/-- After the breadth-first search, the tree is printed if and only if the second side was
not attacked. -/
theorem printSolutionTree_safe_iff {b : Board} {first : Bool} (d : ℕ) :
    (∃ fuel, (printSolutionTree (b.evaluate flags first d []).2 fuel).isSome = true) ↔
      b.isChecked (!first) = false := by
  constructor
  · rintro ⟨fuel, hfuel⟩
    by_contra hchecked
    have hempty : (b.evaluate flags first d []).2 = [] := by
      rw [Board.evaluate, if_pos (Bool.not_eq_false _ ▸ hchecked)]
    rw [hempty] at hfuel
    cases fuel <;> cases hfuel
  · intro h
    obtain ⟨root, deeper, htree, hroot, hshape⟩ := evaluate_solutionTree flags h d []
    obtain ⟨printed, hprinted, -⟩ := hshape.printed hroot (Nat.lt_succ_self deeper.length)
    refine ⟨deeper.length + 1, ?_⟩
    rw [htree, hprinted]
    rfl

/-- **The result printers are safe** after both searches if and only if the first side has
a legal move and the second side is not attacked. -/
theorem printers_safe_iff {b : Board} (hb : b.FileLoaded) {first : Bool} {moves : ℕ}
    {result : Int × OneRound} {w : World κ}
    (h : Returns (Search.run flags order hash ⟨b, first, moves⟩) World.initial result w) :
    (result.2.PrintsSafely w.cache.solutions ∧
        ∃ fuel, (printSolutionTree (b.evaluate flags first (2 * moves) []).2 fuel).isSome = true) ↔
      b.legalMoves flags first ≠ [] ∧ b.isChecked (!first) = false :=
  and_congr (printPath_safe_iff flags order hash hb h) (printSolutionTree_safe_iff flags (2 * moves))

end Safety

theorem printers_safe_rook_mate :
    ∃ result w, Returns (Search.run Flags.default .checksFirst placementKey
        ⟨Board.ofText "kf6\nrg1\nKh8\n", false, 1⟩) World.initial result w ∧
      result.2.PrintsSafely w.cache.solutions ∧
      ∃ fuel, (printSolutionTree ((Board.ofText "kf6\nrg1\nKh8\n").evaluate Flags.default false
        (2 * 1) []).2 fuel).isSome = true := by
  have hloaded : (Board.ofText "kf6\nrg1\nKh8\n").FileLoaded :=
    Board.fileLoaded_ofText (by decide +kernel)
  have hmoves : (Board.ofText "kf6\nrg1\nKh8\n").legalMoves Flags.default false ≠ [] := by
    decide +kernel
  have hn : (Board.ofText "kf6\nrg1\nKh8\n").isChecked true = false := by decide +kernel
  have hstart : Returns (runSearches Flags.default .checksFirst placementKey []) World.initial []
      World.initial := returns_pure _ _
  obtain ⟨result, w, hret⟩ := returns_of_levels
    ⟨Board.ofText "kf6\nrg1\nKh8\n", false, 1⟩ hstart (Nat.le_refl 1) (by decide)
  have hsafe := (printers_safe_iff Flags.default .checksFirst placementKey hloaded hret).mpr
    ⟨hmoves, hn⟩
  exact ⟨result, w, hret, hsafe⟩

/-- Black is stalemated in the corner, and `printPath` dereferences null; the black king is
attacked with white to move, and the printer of the tree has no root. -/
theorem printers_not_safe :
    ((Board.ofText "kc7\npb6\nKa8\n").FileLoaded ∧
      ∃ result w, Returns (Search.run Flags.default .checksFirst placementKey
          ⟨Board.ofText "kc7\npb6\nKa8\n", true, 1⟩) World.initial result w ∧
        ¬ result.2.PrintsSafely w.cache.solutions ∧
        ∀ fuel, result.2.printPath w.cache.solutions fuel = none) ∧
    (Board.ofText "ke1\nra8\nKe8\n").FileLoaded ∧
      ∀ fuel, printSolutionTree ((Board.ofText "ke1\nra8\nKe8\n").evaluate Flags.default false
        (2 * 1) []).2 fuel = none := by
  have hstalemate : (Board.ofText "kc7\npb6\nKa8\n").FileLoaded :=
    Board.fileLoaded_ofText (by decide +kernel)
  have hattacked : (Board.ofText "ke1\nra8\nKe8\n").FileLoaded :=
    Board.fileLoaded_ofText (by decide +kernel)
  have hrun : test (Search.run Flags.default .checksFirst placementKey
      ⟨Board.ofText "kc7\npb6\nKa8\n", true, 1⟩) World.initial
      (fun result _ => result.2.maxStepState.isNone) = true := by
    decide +kernel
  refine ⟨⟨hstalemate, ?_⟩, hattacked, fun fuel => ?_⟩
  · obtain ⟨result, w, hret, hnone⟩ := returns_of_test hrun
    have hstate : result.2.maxStepState = none := Option.isNone_iff_eq_none.mp hnone
    refine ⟨result, w, hret, fun hsafe => hsafe.moved hstate, fun fuel => ?_⟩
    rw [OneRound.printPath, hstate]
    rfl
  · have hchecked : (Board.ofText "ke1\nra8\nKe8\n").isChecked true = true := by decide +kernel
    rw [← Option.not_isSome_iff_eq_none]
    intro hsome
    have hn := (printSolutionTree_safe_iff Flags.default (2 * 1)).mp ⟨fuel, hsome⟩
    rw [Bool.not_false, hchecked] at hn
    cases hn

end Chess
