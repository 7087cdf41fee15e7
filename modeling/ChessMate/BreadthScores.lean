import ChessMate.BreadthVerdict

/-! # The scores of the breadth-first solver

`score_` is one byte, and `expand` writes `1 + CHECKMATE` into it, which the backward pass
then carries up the tree.  Only five values ever occur, on every board of every layer and
as the result (`scores_fit`), so nothing is lost when a score is stored.

The largest of them is a score that `checkmate.cc` does not know: it is neither a win nor
a loss, and is reported as no solution.  It is returned exactly if the first side can
stalemate at once (`scores_fit`), even if it can mate as well.
-/
namespace Chess
open LayerFold MateGame

/-- **The scores that occur.** -/
def scores : List Int := [-CHECKMATE, STALLMATE, NONE, CHECKMATE, 1 + CHECKMATE]

/-- A score that fits into the byte in which it is stored. -/
def FitsScore (score : Int) : Prop := -128 ≤ score ∧ score ≤ 127

theorem fitsScore_of_mem {score : Int} (h : score ∈ scores) : FitsScore score := by
  have hall : ∀ score ∈ scores, -128 ≤ score ∧ score ≤ 127 := by decide
  exact hall score h

section Scores
variable {flags : Flags} {first : Bool} {b : Board}

theorem expandScore_mem (l : ℕ) : b.expandScore first l ∈ scores := by
  unfold Board.expandScore
  split_ifs <;> decide

theorem settled_mem {score : Int} (h : score ∈ scores) (l : ℕ) : settled l score ∈ scores := by
  unfold settled
  split_ifs
  · decide
  · exact h

/-- Taking maxima and minima makes no new scores. -/
theorem foldl_mem_scores {v : Board → Int} {boards : List Board} (h : ∀ s ∈ boards, v s ∈ scores)
    (l : ℕ) {score : Int} (hscore : score ∈ scores) :
    boards.foldl (fun score s => if l % 2 = 1 then max score (v s) else min score (v s)) score ∈
      scores := by
  induction boards generalizing score with
  | nil => exact hscore
  | cons s boards ih =>
    obtain ⟨hs, hboards⟩ := List.forall_mem_cons.mp h
    refine ih hboards ?_
    dsimp only
    split_ifs
    · rcases max_choice score (v s) with heq | heq <;> rw [heq] <;> assumption
    · rcases min_choice score (v s) with heq | heq <;> rw [heq] <;> assumption

/-- **The value of a board is one of the scores.** -/
theorem nodeScore_mem (d : ℕ) : ∀ {l : ℕ} {b : Board}, b.score ∈ scores →
    b.nodeScore flags first d l ∈ scores := by
  induction d with
  | zero => exact fun h => h
  | succ d ih =>
    intro l b _
    rw [Board.nodeScore]
    refine foldl_mem_scores (fun s hs => settled_mem (ih ?_) l) l (expandScore_mem l)
    rw [score_of_mem_nextBoards hs]
    exact expandScore_mem l

theorem score_mem_of_mem_layerBoards {k : ℕ} : ∀ {l : ℕ} {boards : List Board},
    (∀ s ∈ boards, s.score ∈ scores) → ∀ s ∈ layerBoards flags first l k boards, s.score ∈ scores := by
  induction k with
  | zero => exact fun h => h
  | succ k ih =>
    intro l boards _
    refine ih fun s hs => ?_
    obtain ⟨b, -, hs⟩ := List.mem_flatMap.mp hs
    rw [score_of_mem_nextBoards hs]
    exact expandScore_mem l

/-- The scores of the boards of a layer. -/
theorem score_mem_of_layer (hb : b.score ∈ scores) {d j : ℕ} {layer : List BfsNode}
    (hlayer : (b.evaluateTree flags first d)[j]? = some layer) (hj : j ≤ d) :
    ∀ node ∈ layer, node.nextState.score ∈ scores := by
  intro node hnode
  rcases Nat.eq_zero_or_pos j with rfl | hpos
  · obtain ⟨deeper, htree, -⟩ := backward_forward flags first d 0 [⟨none, b⟩]
    rw [Board.evaluateTree, htree] at hlayer
    obtain rfl := Option.some.inj hlayer
    obtain rfl := List.mem_singleton.mp hnode
    exact nodeScore_mem d hb
  · have hboards := evaluateTree_layer flags first b hpos hj
    rw [hlayer, Option.map_some, Option.some.injEq] at hboards
    have hmem : node.nextState ∈ layer.map BfsNode.nextState := List.mem_map_of_mem hnode
    rw [hboards] at hmem
    obtain ⟨s, hs, heq⟩ := List.mem_map.mp hmem
    rw [← heq]
    refine settled_mem (nodeScore_mem _ ?_) j
    exact score_mem_of_mem_layerBoards (List.forall_mem_singleton.mpr hb) s hs

/-- The first side can leave the second without a move and not in check. -/
def Board.CanStall (flags : Flags) (first : Bool) (b : Board) : Prop :=
  ∃ s, (breadthGame flags first).attack b s ∧ ¬ (breadthGame flags first).check s ∧
    ∀ b', ¬ (breadthGame flags first).reply s b'

/-- **More than a mate is returned exactly for a stalemate in one move.** -/
theorem checkmate_lt_evaluate_iff (h : TreeBoard b first) (d : ℕ) (tree : List (List TreeNode)) :
    CHECKMATE < (b.evaluate flags first (d + 2) tree).1 ↔ b.CanStall flags first := by
  have hattack : Pictures (b.nextBoards flags first 1) ((breadthGame flags first).attack b) :=
    pictures_nextBoards (l := 1) h (.refl b)
  rw [evaluate_eq h.notAttacked, ← not_le, first_le_checkmate_iff (by decide) h.notAttacked]
  simp only [not_forall, exists_prop, not_le]
  refine hattack.exists_iff fun s hs s' halike => ?_
  have hreply : Pictures (s.nextBoards flags first 2) ((breadthGame flags first).reply s') :=
    pictures_nextBoards (l := 2) (h.next (l := 1) hs) halike
  rw [checkmate_lt_second_iff (by decide), halike.isChecked]
  refine and_congr (Bool.not_eq_true _).symm.to_iff ?_
  rw [← not_exists, ← hreply.ne_nil_iff, not_not]

end Scores

end Chess
