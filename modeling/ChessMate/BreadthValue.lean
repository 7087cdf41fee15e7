import ChessMate.LayerFold
import ChessMate.BreadthSearch

/-! # The value of a board in the breadth-first solver

The forward pass lays the tree out in layers and the backward pass carries the
scores up from one layer to the one before.  What this comes to for one board is a
recursion on the layers below it (`Board.nodeScore`): the score that `expand` gave
it, and the maximum or the minimum with the scores of the boards made from it.
A board of the last layer has the score that it was made with.

`backward_forward` says that the passes compute this value for every board of every
layer, and `evaluate_eq` that it is what `evaluate` returns.
-/
namespace Chess
open LayerFold

/-- The score of a node as its layer is propagated. -/
def settled (i : Nat) (score : Int) : Int :=
  if i % 2 = 0 ∧ score > CHECKMATE then STALLMATE else score

/-- The board with another score. -/
def Board.withScore (b : Board) (score : Int) : Board := { b with score := score }

/-- The node with another score. -/
def BfsNode.withScore (node : BfsNode) (score : Int) : BfsNode :=
  { node with nextState := node.nextState.withScore score }

theorem settleScore_withScore (i : Nat) (node : BfsNode) (score : Int) :
    settleScore i (node.withScore score) = node.withScore (settled i score) := by
  unfold settleScore settled BfsNode.withScore Board.withScore
  dsimp only
  split_ifs <;> rfl

section Value
variable (flags : Flags) (first : Bool)

/-- The boards that `expand` makes. -/
def Board.nextBoards (layerNum : Nat) (b : Board) : List Board := (b.expand flags first layerNum).2

/-- **The score of a board after the backward pass**, before its own layer is
propagated, with `depth` layers below it. -/
def Board.nodeScore : Nat → Nat → Board → Int
  | 0, _, b => b.score
  | depth + 1, layerNum, b =>
      (b.nextBoards flags first layerNum).foldl
        (fun score next =>
          if layerNum % 2 = 1 then max score (settled layerNum (nodeScore depth (layerNum + 1) next))
          else min score (settled layerNum (nodeScore depth (layerNum + 1) next)))
        (b.expandScore first layerNum)

/-- The boards of the layer `k` layers further on. -/
def layerBoards : Nat → Nat → List Board → List Board
  | _, 0, boards => boards
  | layerNum, k + 1, boards =>
      layerBoards (layerNum + 1) k (boards.flatMap (Board.nextBoards flags first layerNum))

/-- The layers as `evaluate` has them after the backward pass. -/
def Board.evaluateTree (b : Board) (maxDepth : Nat) : List (List BfsNode) :=
  backwardPass 0 (forwardPass flags first maxDepth 1 [⟨none, b⟩])

variable {flags first}

/-- The children of one node update its score. -/
theorem foldl_withScore (l : Nat) (v : Board → Int) (children : List Board) (node : BfsNode) :
    children.foldl (fun p c => p.withScore (if l % 2 = 1 then max p.nextState.score (v c)
        else min p.nextState.score (v c))) node =
      node.withScore (children.foldl (fun score c => if l % 2 = 1 then max score (v c)
        else min score (v c)) node.nextState.score) := by
  induction children generalizing node with
  | nil => rfl
  | cons c children ih =>
    rw [List.foldl_cons, ih, List.foldl_cons]
    rfl

/-- The score that a node has after it was expanded. -/
def BfsNode.scored (flags : Flags) (first : Bool) (depth layerNum : Nat) (node : BfsNode) : BfsNode :=
  node.withScore (node.nextState.nodeScore flags first depth layerNum)

/-- The boards of the next layer are those made from the boards of this one. -/
theorem expandLayer_boards (layerNum : Nat) (layer : List BfsNode) :
    (expandLayer flags first layerNum layer).2.map BfsNode.nextState =
      (layer.map BfsNode.nextState).flatMap (Board.nextBoards flags first layerNum) := by
  simp only [expandLayer, List.map_flatMap, List.map_map, Function.comp_def, List.map_id']
  have hfst : ∀ (l : List (Board × List Board)) (n : Nat),
      (l.zipIdx n).flatMap (fun x => x.1.2) = l.flatMap Prod.snd := by
    intro l
    induction l with
    | nil => intro n; rfl
    | cons x l ih => intro n; rw [List.zipIdx_cons, List.flatMap_cons, List.flatMap_cons, ih]
  rw [hfst, List.flatMap_map, List.flatMap_map]
  rfl

/-- **One layer is propagated**: the scores of the next layer give those of this one. -/
theorem propagate_layer (d l : Nat) (layer : List BfsNode) :
    (((expandLayer flags first l layer).2.map (BfsNode.scored flags first d (l + 1))).map
        (settleScore l)).foldl (updateParent l) (expandLayer flags first l layer).1 =
      layer.map (BfsNode.scored flags first (d + 1) l) := by
  have hlayer : (expandLayer flags first l layer).1 = layer.map fun node =>
      node.withScore (node.nextState.expandScore first l) := by
    simp only [expandLayer, List.zip_map_right, List.map_map]
    induction layer with
    | nil => rfl
    | cons node layer ih => simpa using ⟨rfl, ih⟩
  have hchildren : ((expandLayer flags first l layer).2.map (BfsNode.scored flags first d (l + 1))).map
      (settleScore l) =
      (layer.zipIdx.flatMap fun x => (x.1.nextState.nextBoards flags first l).map fun c =>
        BfsNode.withScore ⟨some x.2, c⟩ (settled l (c.nodeScore flags first d (l + 1)))) := by
    simp only [expandLayer, List.map_flatMap, List.map_map, List.zipIdx_map, List.flatMap_map]
    refine List.flatMap_congr fun x _ => List.map_congr_left fun c _ => ?_
    exact settleScore_withScore l _ _
  rw [hchildren, hlayer]
  have hupdate : ∀ (parents : List BfsNode) (k : Nat) (c : Board),
      updateParent l parents
          (BfsNode.withScore ⟨some k, c⟩ (settled l (c.nodeScore flags first d (l + 1)))) =
        parents.modify k fun p => p.withScore
          (if l % 2 = 1 then max p.nextState.score (settled l (c.nodeScore flags first d (l + 1)))
            else min p.nextState.score (settled l (c.nodeScore flags first d (l + 1)))) :=
    fun _ _ _ => rfl
  have hlen : (layer.map fun node : BfsNode =>
      node.withScore (node.nextState.expandScore first l)).length = layer.length := List.length_map _
  have hfold := foldl_groups hupdate (fun node => node.nextState.nextBoards flags first l) [] hlen
  simp only [List.nil_append, List.length_nil] at hfold
  rw [hfold, List.zipWith_map_left, List.zipWith_self]
  refine List.map_congr_left fun node _ => ?_
  rw [foldl_withScore]
  rfl

variable (flags first) in
/-- **The passes compute the value of every board.** -/
theorem backward_forward (d : Nat) : ∀ (i : Nat) (layer : List BfsNode),
    ∃ deeper, backwardPass i (forwardPass flags first d (i + 1) layer) =
        layer.map (BfsNode.scored flags first d (i + 1)) :: deeper ∧
      ∀ k < d, deeper[k]?.map (List.map BfsNode.nextState) =
        some ((layerBoards flags first (i + 1) (k + 1) (layer.map BfsNode.nextState)).map fun s =>
          s.withScore (settled (i + k + 1) (s.nodeScore flags first (d - (k + 1)) (i + k + 2)))) := by
  induction d with
  | zero =>
    intro i layer
    refine ⟨[], ?_, fun k hk => absurd hk (Nat.not_lt_zero k)⟩
    show [layer] = _
    congr 1
    exact (List.map_id layer).symm
  | succ d ih =>
    intro i layer
    obtain ⟨deeper, hback, hdeeper⟩ := ih (i + 1) (expandLayer flags first (i + 1) layer).2
    have hpass : backwardPass i (forwardPass flags first (d + 1) (i + 1) layer) =
        layer.map (BfsNode.scored flags first (d + 1) (i + 1)) ::
          ((expandLayer flags first (i + 1) layer).2.map
            (BfsNode.scored flags first d (i + 2))).map (settleScore (i + 1)) :: deeper := by
      rw [forwardPass, backwardPass, hback]
      dsimp only
      rw [propagate_layer]
    refine ⟨_, hpass, fun k hk => ?_⟩
    cases k with
    | zero =>
      have hset : ∀ node : BfsNode,
          (settleScore (i + 1) (node.scored flags first d (i + 2))).nextState =
            node.nextState.withScore
              (settled (i + 1) (node.nextState.nodeScore flags first d (i + 2))) := by
        intro node
        rw [BfsNode.scored, settleScore_withScore]
        rfl
      rw [List.getElem?_cons_zero, Option.map_some, layerBoards, layerBoards,
        ← expandLayer_boards, List.map_map, List.map_map, List.map_map]
      simp only [Function.comp_def, hset]
      rfl
    | succ k =>
      have hboards : layerBoards flags first (i + 1) (k + 1 + 1) (layer.map BfsNode.nextState) =
          layerBoards flags first (i + 2) (k + 1)
            ((expandLayer flags first (i + 1) layer).2.map BfsNode.nextState) := by
        rw [layerBoards, ← expandLayer_boards]
      have h1 : i + 1 + k + 1 = i + (k + 1) + 1 := by omega
      have h2 : i + 1 + k + 2 = i + (k + 1) + 2 := by omega
      have h3 : d - (k + 1) = d + 1 - (k + 1 + 1) := by omega
      rw [List.getElem?_cons_succ, hdeeper k (Nat.lt_of_succ_lt_succ hk), hboards, h1, h2, h3]

variable (flags first) in
/-- The scores of the boards in a layer of the tree. -/
theorem evaluateTree_layer (b : Board) {d j : Nat} (hj : 0 < j) (hd : j ≤ d) :
    (b.evaluateTree flags first d)[j]?.map (List.map BfsNode.nextState) =
      some ((layerBoards flags first 1 j [b]).map fun s =>
        s.withScore (settled j (s.nodeScore flags first (d - j) (j + 1)))) := by
  obtain ⟨k, rfl⟩ := Nat.exists_eq_add_one.mpr hj
  obtain ⟨deeper, htree, hdeeper⟩ := backward_forward flags first d 0 [⟨none, b⟩]
  have hlayer := hdeeper k hd
  rw [Nat.zero_add, Nat.zero_add] at hlayer
  rw [Board.evaluateTree, htree, List.getElem?_cons_succ, hlayer]
  rfl

/-- **`evaluate` returns the value of the board.** -/
theorem evaluate_eq {b : Board} (h : b.isChecked (!first) = false) (d : Nat)
    (tree : List (List TreeNode)) :
    (b.evaluate flags first d tree).1 = b.nodeScore flags first d 1 := by
  obtain ⟨deeper, htree, -⟩ := backward_forward flags first d 0 [⟨none, b⟩]
  rw [Board.evaluate, h, htree]
  rfl

end Value
end Chess
