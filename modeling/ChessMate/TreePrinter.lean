import ChessMate.BoardLoader
import ChessMate.BreadthValue
import ChessMate.LayeredTree
import ChessMate.PathPrinter

/-! # Printing the solution tree

`printSolutionTree` prints what `evaluate` leaves in the solution tree, depth first.
The nodes of a layer know their parents by address, and the printer finds the children
of a node from a map that has the first place of every parent address, over all
layers.  An address is a layer and the index of a board there, null for the parent of
the root.

The printer indexes layers and nodes without a test.  Here `none` is an access to a
layer or a node that is not there, or a recursion that has not come to its end.  What
is printed is kept as a list of `Printed` pieces, each with the place of its node, so
that the nodes the printer visits can be told from it.

The forward pass writes each layer parent by parent, and the re-traversal keeps the
order and leaves a node in the tree only with its parent.  So the children of a node
form one run, which starts where the map says, and the printer's walk is that of
`LayeredTree.walk`, which comes to every node once (`solution_tree_printed`).
-/
namespace Chess
open LayeredTree

/-- The address of a board: null, or its layer and its index there. -/
abbrev Address := Option (ℕ × ℕ)

/-- `nextState.get()` of a node of the layer. -/
def TreeNode.address (layerNo : ℕ) (node : TreeNode) : Address := some (layerNo, node.index)

/-- `parent` of a node of the layer. -/
def TreeNode.parentAddress (layerNo : ℕ) (node : TreeNode) : Address :=
  node.parent.map fun k => (layerNo - 1, k)

/-- `Board::printLastMove`. -/
def Board.printLastMove (board : Board) : String :=
  if !isValidPosition board.lastMove.fromPos then "---" else board.lastMove.notationOf

/-- A text at the right of a field of `printf`. -/
def padLeft (width : ℕ) (text : String) : String :=
  String.ofList (List.replicate (width - text.length) ' ') ++ text

/-- A piece of the output of `dfsPrintTree`. -/
inductive Printed
  /-- The indentation and the text of a node. -/
  | entry (layerNo layerOff indent : ℕ) (node : TreeNode) (hasChild : Bool)
  /-- The end of a line. -/
  | newline

/-- The text that is printed. -/
def Printed.text : Printed → String
  | entry layerNo _ indent node hasChild =>
      String.join (List.replicate indent (padLeft 16 "")) ++
        "[" ++ toString layerNo ++ "]" ++ padLeft 3 node.nextState.printLastMove ++
        "(" ++ padLeft 5 (toString node.nextState.score) ++ ")" ++
        (if hasChild then "+" else "|") ++ "  "
  | newline => "\n"

/-- The node that is printed, by its layer and its place there. -/
def Printed.place : Printed → Option (ℕ × ℕ)
  | entry layerNo layerOff _ _ _ => some (layerNo, layerOff)
  | newline => none

/-- `dfsPrintTree`. -/
def dfsPrintTree (tree : List (List TreeNode)) (startPos : Address → Option ℕ) :
    ℕ → ℕ → ℕ → ℕ → Option (List Printed)
  | 0, _, _, _ => none
  | fuel + 1, layerNo, layerOff, indent => do
      let layer ← tree[layerNo]?
      let node ← layer[layerOff]?
      match startPos (node.address layerNo) with
      | none => some [.entry layerNo layerOff indent node false, .newline]
      | some start => do
          let next ← tree[layerNo + 1]?
          let first ← next[start]?
          if first.parentAddress (layerNo + 1) = node.address layerNo then do
            let subtrees ← ((next.zipIdx.drop start).takeWhile fun x =>
                x.1.parentAddress (layerNo + 1) = node.address layerNo).mapM fun x =>
              dfsPrintTree tree startPos fuel (layerNo + 1) x.2
                (if x.2 = start then 0 else layerNo + 1)
            some (.entry layerNo layerOff indent node true :: subtrees.flatten ++ [.newline])
          else some [.entry layerNo layerOff indent node false, .newline]

/-- The step of the loops of `printSolutionTree`: the first place of a parent is kept. -/
def recordStart (layerNo : ℕ) (startPos : Address → Option ℕ) (x : TreeNode × ℕ) :
    Address → Option ℕ :=
  if startPos (x.1.parentAddress layerNo) = none then
    Function.update startPos (x.1.parentAddress layerNo) (some x.2)
  else startPos

/-- `startPos` of `printSolutionTree`. -/
def startPositions (solution : List (List TreeNode)) : Address → Option ℕ :=
  solution.zipIdx.foldl (fun startPos x => x.1.zipIdx.foldl (recordStart x.2) startPos)
    fun _ => none

/-- `printSolutionTree`. -/
def printSolutionTree (solution : List (List TreeNode)) (fuel : ℕ) : Option (List Printed) :=
  dfsPrintTree solution (startPositions solution) fuel 0 0 0

/-! ## The solution tree -/

/-- The parents of a layer are in order. -/
def ParentsSorted (parents : List (Option ℕ)) : Prop :=
  List.Pairwise (fun k l : WithBot ℕ => k ≤ l) parents

/-- The second node is a child of the first, which is of the layer before. -/
def TreeNode.isChild (node child : TreeNode) : Bool := child.parent = some node.index

/-- **The shape of a solution tree.** -/
structure SolutionTree (tree : List (List TreeNode)) : Prop where
  sorted : ∀ layer ∈ tree, ParentsSorted (layer.map TreeNode.parent)
  oneParent : OneParent TreeNode.isChild tree

section Passes
variable {flags : Flags} {first : Bool}

/-- The boards of the next layer are added parent by parent. -/
theorem expandLayer_sorted (layerNum : ℕ) (layer : List BfsNode) :
    ParentsSorted ((expandLayer flags first layerNum layer).2.map BfsNode.parent) := by
  have hplaces : ∀ l : List (Board × List Board), l.zipIdx.Pairwise fun x y => x.2 < y.2 := by
    intro l
    have hrange := List.pairwise_lt_range' (s := 0) (n := l.length)
    rw [← List.zipIdx_map_snd 0 l] at hrange
    exact List.pairwise_map.mp hrange
  simp only [expandLayer, List.map_flatMap, List.map_map]
  refine List.pairwise_flatMap.mpr ⟨fun x _ => ?_, (hplaces _).imp fun {x y} hlt => ?_⟩
  · refine List.pairwise_map.mpr (List.pairwise_of_forall fun _ _ => ?_)
    exact WithBot.coe_le_coe.mpr (Nat.le_refl x.2)
  · intro k hk l hl
    obtain ⟨_, -, rfl⟩ := List.mem_map.mp hk
    obtain ⟨_, -, rfl⟩ := List.mem_map.mp hl
    exact WithBot.coe_le_coe.mpr hlt.le

/-- The scores do not touch the parents. -/
theorem scored_parents (d i : ℕ) (layer : List BfsNode) :
    ((layer.map (BfsNode.scored flags first d (i + 1))).map (settleScore i)).map BfsNode.parent =
      layer.map BfsNode.parent := by
  rw [List.map_map, List.map_map]
  refine List.map_congr_left fun node _ => ?_
  rw [Function.comp_apply, Function.comp_apply, BfsNode.scored, settleScore_withScore]
  rfl

variable (flags first) in
/-- After the passes, the layers below the first one are sorted by parents. -/
theorem passes_sorted (d i : ℕ) (layer : List BfsNode) :
    ∃ deeper, backwardPass i (forwardPass flags first d (i + 1) layer) =
        layer.map (BfsNode.scored flags first d (i + 1)) :: deeper ∧
      ∀ next ∈ deeper, ParentsSorted (next.map BfsNode.parent) := by
  induction d generalizing i layer with
  | zero =>
    obtain ⟨deeper, hback, -⟩ := backward_forward flags first 0 i layer
    obtain rfl : deeper = [] := (List.cons.inj hback).2.symm
    exact ⟨[], hback, fun next hnext => by cases hnext⟩
  | succ d ih =>
    obtain ⟨deeper, hback, hsorted⟩ := ih (i + 1) (expandLayer flags first (i + 1) layer).2
    refine ⟨((expandLayer flags first (i + 1) layer).2.map
      (BfsNode.scored flags first d (i + 2))).map (settleScore (i + 1)) :: deeper, ?_, ?_⟩
    · rw [forwardPass, backwardPass, hback]
      dsimp only
      rw [propagate_layer]
    · refine List.forall_mem_cons.mpr ⟨?_, hsorted⟩
      rw [scored_parents]
      exact expandLayer_sorted (i + 1) layer

end Passes

section Retraversal
variable (score : Int)

/-- What the filter of the re-traversal leaves of a layer. -/
theorem nodesOnPath_facts (i : ℕ) (path : List ℕ) (layer : List BfsNode) :
    (∀ node ∈ nodesOnPath i score path layer, ∃ k ∈ path, node.parent = some k) ∧
      ((nodesOnPath i score path layer).map TreeNode.index).Nodup ∧
      ((nodesOnPath i score path layer).map TreeNode.parent).Sublist (layer.map BfsNode.parent) := by
  unfold nodesOnPath
  refine ⟨fun node hnode => ?_, ?_, ?_⟩
  · obtain ⟨x, hx, rfl⟩ := List.mem_map.mp hnode
    have htest := (Bool.and_eq_true_iff.mp (List.mem_filter.mp hx).2).1
    split at htest
    · rename_i k hk
      exact ⟨k, List.contains_iff_mem.mp htest, hk⟩
    · cases htest
  · have hnodup : (layer.zipIdx.map Prod.snd).Nodup := by
      rw [List.zipIdx_map_snd]
      exact List.nodup_range'
    rw [List.map_map]
    exact hnodup.sublist (List.filter_sublist.map Prod.snd)
  · have hparents : layer.zipIdx.map (fun x => x.1.parent) = layer.map BfsNode.parent := by
      have hmap := congrArg (List.map BfsNode.parent) (List.zipIdx_map_fst 0 layer)
      rw [List.map_map] at hmap
      exact hmap
    rw [List.map_map, ← hparents]
    exact List.filter_sublist.map fun x : BfsNode × ℕ => x.1.parent

/-- **The re-traversal builds a tree below any layer.** -/
theorem retraverse_oneParent (i : ℕ) (layers : List (List BfsNode)) {above : List TreeNode}
    (habove : (above.map TreeNode.index).Nodup) :
    OneParent TreeNode.isChild (above :: retraverse score i (above.map TreeNode.index) layers) := by
  induction layers generalizing i above with
  | nil => trivial
  | cons layer deeper ih =>
    obtain ⟨hparent, hindex, -⟩ := nodesOnPath_facts score i (above.map TreeNode.index) layer
    refine ⟨fun child hchild => ?_, ih (i + 1) hindex⟩
    obtain ⟨k, hk, hparent⟩ := hparent child hchild
    have hcount : above.countP (fun node => node.isChild child) =
        (above.map TreeNode.index).count k := by
      rw [List.count, List.countP_map]
      refine List.countP_congr fun node _ => ?_
      rw [TreeNode.isChild, decide_eq_true_eq, hparent, Function.comp_apply, beq_iff_eq,
        Option.some.injEq]
      exact eq_comm
    rw [hcount]
    exact List.count_eq_one_of_mem habove hk

theorem retraverse_sorted (i : ℕ) (path : List ℕ) {layers : List (List BfsNode)}
    (h : ∀ layer ∈ layers, ParentsSorted (layer.map BfsNode.parent)) :
    ∀ layer ∈ retraverse score i path layers, ParentsSorted (layer.map TreeNode.parent) := by
  induction layers generalizing i path with
  | nil => exact fun layer hlayer => by cases hlayer
  | cons layer deeper ih =>
    obtain ⟨hlayer, hdeeper⟩ := List.forall_mem_cons.mp h
    refine List.forall_mem_cons.mpr ⟨?_, ih (i + 1) _ hdeeper⟩
    exact hlayer.sublist (nodesOnPath_facts score i path layer).2.2

end Retraversal

/-- **`evaluate` leaves a solution tree**, with the board at its root. -/
theorem evaluate_solutionTree (flags : Flags) {first : Bool} {b : Board}
    (h : b.isChecked (!first) = false) (d : ℕ) (old : List (List TreeNode)) :
    ∃ root deeper, (b.evaluate flags first d old).2 = [root] :: deeper ∧ root.parent = none ∧
      SolutionTree ([root] :: deeper) := by
  obtain ⟨deeper, hpasses, hsorted⟩ := passes_sorted flags first d 0 [⟨none, b⟩]
  rw [Board.evaluate, h, hpasses]
  refine ⟨_, _, rfl, rfl, ?_, ?_⟩
  · refine List.forall_mem_cons.mpr ⟨List.pairwise_singleton _ _, retraverse_sorted _ 1 [0] hsorted⟩
  · exact retraverse_oneParent _ 1 deeper (List.nodup_singleton 0)

/-! ## The walk of the printer -/

section Printer

/-- The node has this parent, in the layer before. -/
def hasParent (k : ℕ) (node : TreeNode) : Bool := node.parent = some k

theorem parentAddress_eq_iff (n L k : ℕ) (node : TreeNode) :
    node.parentAddress (n + 1) = some (L, k) ↔ n = L ∧ hasParent k node = true := by
  rw [TreeNode.parentAddress, Option.map_eq_some_iff, hasParent, decide_eq_true_eq]
  constructor
  · rintro ⟨l, hl, h⟩
    obtain ⟨h1, rfl⟩ := Prod.mk.inj h
    exact ⟨h1, hl⟩
  · rintro ⟨rfl, hk⟩
    exact ⟨k, hk, rfl⟩

theorem recordStart_apply (layerNo : ℕ) (startPos : Address → Option ℕ) (x : TreeNode × ℕ)
    (key : Address) :
    recordStart layerNo startPos x key =
      (startPos key).or (if x.1.parentAddress layerNo = key then some x.2 else none) := by
  unfold recordStart
  by_cases hkey : x.1.parentAddress layerNo = key
  · subst hkey
    cases hold : startPos (x.1.parentAddress layerNo) with
    | none => simp
    | some j => simp [hold]
  · rw [if_neg hkey, Option.or_none]
    split
    · exact Function.update_of_ne (Ne.symm hkey) _ _
    · rfl

/-- One layer adds the first places of its parents. -/
theorem foldl_recordStart (layerNo : ℕ) (layer : List TreeNode) (n : ℕ)
    (startPos : Address → Option ℕ) (key : Address) :
    (layer.zipIdx n).foldl (recordStart layerNo) startPos key =
      (startPos key).or ((layer.findIdx? fun node => node.parentAddress layerNo = key).map
        (· + n)) := by
  induction layer generalizing n startPos with
  | nil => simp
  | cons node layer ih =>
    rw [List.zipIdx_cons, List.foldl_cons, ih, recordStart_apply, Option.or_assoc,
      List.findIdx?_cons]
    congr 1
    by_cases hkey : node.parentAddress layerNo = key
    · simp [hkey]
    · simp only [hkey, if_false, decide_false, Option.none_or, Bool.false_eq_true, Option.map_map]
      congr 1
      funext j
      show j + (n + 1) = j + 1 + n
      omega

theorem foldl_layers (layers : List (List TreeNode)) (n L k : ℕ) (startPos : Address → Option ℕ) :
    (layers.zipIdx (n + 1)).foldl (fun startPos x => x.1.zipIdx.foldl (recordStart x.2) startPos)
        startPos (some (L, k)) =
      (startPos (some (L, k))).or (if n ≤ L then
        layers[L - n]?.bind fun layer => layer.findIdx? (hasParent k) else none) := by
  induction layers generalizing n startPos with
  | nil => simp
  | cons layer layers ih =>
    rw [List.zipIdx_cons, List.foldl_cons, ih, foldl_recordStart, Option.or_assoc]
    simp only [parentAddress_eq_iff, Nat.add_zero, Option.map_id']
    congr 1
    -- the layer with the children of layer `L` is this one or one of the others
    rcases lt_trichotomy n L with hlt | rfl | hgt
    · have hnone : (layer.findIdx? fun node => decide (n = L ∧ hasParent k node = true)) = none := by
        refine List.findIdx?_eq_none_iff.mpr fun node _ => ?_
        exact decide_eq_false fun h => hlt.ne h.1
      obtain ⟨j, hj⟩ : ∃ j, L - n = j + 1 := ⟨L - n - 1, by omega⟩
      rw [hnone, Option.none_or, if_pos (Nat.succ_le_of_lt hlt), if_pos hlt.le, hj, List.getElem?_cons_succ,
        show L - (n + 1) = j by omega]
    · rw [if_neg (Nat.not_succ_le_self n), Option.or_none, if_pos (Nat.le_refl n), Nat.sub_self,
        List.getElem?_cons_zero, Option.bind_some]
      congr 1
      funext node
      simp
    · have hnone : (layer.findIdx? fun node => decide (n = L ∧ hasParent k node = true)) = none := by
        refine List.findIdx?_eq_none_iff.mpr fun node _ => ?_
        exact decide_eq_false fun h => hgt.ne' h.1
      rw [hnone, Option.none_or, if_neg (by omega), if_neg (by omega)]

/-- **The map has the first child of every board** of the tree. -/
theorem startPositions_apply {root : TreeNode} (hroot : root.parent = none)
    (deeper : List (List TreeNode)) (L k : ℕ) :
    startPositions ([root] :: deeper) (some (L, k)) =
      deeper[L]?.bind fun layer => layer.findIdx? (hasParent k) := by
  have hnull : root.parentAddress 0 ≠ some (L, k) := by
    rw [TreeNode.parentAddress, hroot]
    intro h
    cases h
  rw [startPositions, List.zipIdx_cons, List.foldl_cons, Nat.zero_add, foldl_layers,
    foldl_recordStart, if_pos (Nat.zero_le L), Nat.sub_zero]
  simp [List.findIdx?_cons, hnull]

theorem exists_mapM {α β γ : Type} {f : α → Option β} {g : β → List γ} {h : α → List γ}
    {l : List α} (hl : ∀ x ∈ l, ∃ y, f x = some y ∧ g y = h x) :
    ∃ ys, l.mapM f = some ys ∧ ys.flatMap g = l.flatMap h := by
  induction l with
  | nil => exact ⟨[], rfl, rfl⟩
  | cons x l ih =>
    obtain ⟨hx, hl⟩ := List.forall_mem_cons.mp hl
    obtain ⟨y, hy, hg⟩ := hx
    obtain ⟨ys, hys, hgs⟩ := ih hl
    refine ⟨y :: ys, ?_, ?_⟩
    · rw [List.mapM_cons, hy, hys]
      rfl
    · rw [List.flatMap_cons, List.flatMap_cons, hg, hgs]

/-- The printer finds the children of a node. -/
theorem takeWhile_children {next : List TreeNode} {node : TreeNode} {L start : ℕ}
    (hrun : IsRun (hasParent node.index) next)
    (hstart : next.findIdx? (hasParent node.index) = some start) :
    ((next.zipIdx.drop start).takeWhile fun x =>
        x.1.parentAddress (L + 1) = node.address L) = children TreeNode.isChild node next := by
  have htest : ∀ x : TreeNode × ℕ, decide (x.1.parentAddress (L + 1) = node.address L) =
      hasParent node.index x.1 := by
    intro x
    rw [Bool.eq_iff_iff, decide_eq_true_eq, TreeNode.address, parentAddress_eq_iff]
    exact and_iff_right rfl
  have hplaced : IsRun (hasParent node.index ∘ Prod.fst) next.zipIdx := by
    refine IsRun.of_map ?_
    rw [List.zipIdx_map_fst]
    exact hrun
  have hstart' : next.zipIdx.findIdx? (hasParent node.index ∘ Prod.fst) = some start := by
    rw [← List.findIdx?_map, List.zipIdx_map_fst]
    exact hstart
  simp only [htest]
  exact hplaced.takeWhile_drop hstart'

theorem getElem?_of_drop {α : Type} {l rest : List α} {n : ℕ} {x : α} (h : l.drop n = x :: rest) :
    l[n]? = some x ∧ l.drop (n + 1) = rest := by
  constructor
  · rw [← List.head?_drop, h]
    rfl
  · rw [← List.tail_drop, h]
    rfl

variable {tree : List (List TreeNode)} {startPos : Address → Option ℕ}

/-- **The printer visits what the walk comes to**, with fuel for one call a layer. -/
theorem dfsPrintTree_walk
    (hstart : ∀ L k, startPos (some (L, k)) =
      tree[L + 1]?.bind fun layer => layer.findIdx? (hasParent k))
    (hruns : ∀ layer ∈ tree, ∀ k, IsRun (hasParent k) layer) :
    ∀ {deeper : List (List TreeNode)} {L off fuel : ℕ} (indent : ℕ) {layer : List TreeNode}
      {node : TreeNode}, tree.drop L = layer :: deeper → layer[off]? = some node →
      deeper.length < fuel →
      ∃ printed, dfsPrintTree tree startPos fuel L off indent = some printed ∧
        printed.filterMap Printed.place = walk TreeNode.isChild deeper L (node, off) := by
  intro deeper
  induction deeper with
  | nil =>
    intro L off fuel indent layer node hdrop hnode hfuel
    obtain ⟨fuel, rfl⟩ := Nat.exists_eq_add_one.mpr hfuel
    obtain ⟨hlayer, hrest⟩ := getElem?_of_drop hdrop
    have hnone : tree[L + 1]? = none := by
      rw [← List.head?_drop, hrest]
      rfl
    have hlast : startPos (node.address L) = none := by
      rw [TreeNode.address, hstart, hnone]
      rfl
    refine ⟨[.entry L off indent node false, .newline], ?_, rfl⟩
    rw [dfsPrintTree, hlayer]
    simp only [Option.bind_eq_bind, Option.bind_some, hnode, hlast]
  | cons next deeper ih =>
    intro L off fuel indent layer node hdrop hnode hfuel
    obtain ⟨fuel, rfl⟩ := Nat.exists_eq_add_one.mpr (Nat.zero_lt_of_lt hfuel)
    obtain ⟨hlayer, hdrop'⟩ := getElem?_of_drop hdrop
    obtain ⟨hnext, -⟩ := getElem?_of_drop hdrop'
    have hmem : next ∈ tree := List.mem_of_getElem? hnext
    have hfirst : startPos (node.address L) = next.findIdx? (hasParent node.index) := by
      rw [TreeNode.address, hstart, hnext]
      rfl
    rw [dfsPrintTree, hlayer]
    simp only [Option.bind_eq_bind, Option.bind_some, hnode, hfirst]
    cases hfind : next.findIdx? (hasParent node.index) with
    | none =>
      have hchildren : children TreeNode.isChild node next = [] := by
        refine List.filter_eq_nil_iff.mpr fun x hx => ?_
        have hno := List.findIdx?_eq_none_iff.mp hfind x.1 (List.fst_mem_of_mem_zipIdx hx)
        exact Bool.eq_false_iff.mp hno
      refine ⟨[.entry L off indent node false, .newline], rfl, ?_⟩
      rw [walk, hchildren]
      rfl
    | some start =>
      obtain ⟨hlt, hchild, -⟩ := List.findIdx?_eq_some_iff_getElem.mp hfind
      have hparent : (next[start]).parentAddress (L + 1) = node.address L :=
        (parentAddress_eq_iff L L _ _).mpr ⟨rfl, hchild⟩
      obtain ⟨subtrees, hsubtrees, hplaces⟩ := exists_mapM
        (f := fun x : TreeNode × ℕ => dfsPrintTree tree startPos fuel (L + 1) x.2
          (if x.2 = start then 0 else L + 1))
        (g := List.filterMap Printed.place) (h := walk TreeNode.isChild deeper (L + 1))
        (l := children TreeNode.isChild node next) fun x hx => by
          have hx' := List.mem_zipIdx_iff_getElem?.mp (List.mem_filter.mp hx).1
          exact ih _ hdrop' hx' (Nat.lt_of_succ_lt_succ hfuel)
      refine ⟨.entry L off indent node true :: subtrees.flatten ++ [.newline], ?_, ?_⟩
      · simp only [hnext, List.getElem?_eq_getElem hlt, Option.bind_some, hparent, if_true,
          takeWhile_children (hruns next hmem node.index) hfind, hsubtrees]
      · rw [walk, ← hplaces]
        simp [Printed.place, List.filterMap_flatten, List.flatMap]

end Printer

/-! ## The printed tree -/

/-- The children of one parent stand side by side. -/
theorem SolutionTree.runs {tree : List (List TreeNode)} (h : SolutionTree tree) :
    ∀ layer ∈ tree, ∀ k, IsRun (hasParent k) layer := by
  intro layer hlayer k
  let parentKey : TreeNode → WithBot ℕ := TreeNode.parent
  have hkeys : layer.Pairwise fun x y => parentKey x ≤ parentKey y :=
    List.pairwise_map.mp (h.sorted layer hlayer)
  have htest : hasParent k = fun node => decide (parentKey node = k) := by
    funext node
    rw [Bool.eq_iff_iff, hasParent, decide_eq_true_eq, decide_eq_true_eq]
    rfl
  rw [htest]
  exact isRun_of_sorted hkeys k

/-- A tree is printed, every node once. -/
theorem SolutionTree.printed {root : TreeNode} {deeper : List (List TreeNode)}
    (h : SolutionTree ([root] :: deeper)) (hroot : root.parent = none) {fuel : ℕ}
    (hfuel : deeper.length < fuel) :
    ∃ printed, printSolutionTree ([root] :: deeper) fuel = some printed ∧
      (printed.filterMap Printed.place).Perm (places ([root] :: deeper) 0) := by
  have hdrop : ([root] :: deeper).drop 0 = [root] :: deeper := rfl
  have hnode : [root][0]? = some root := rfl
  obtain ⟨printed, hprinted, hplaces⟩ := dfsPrintTree_walk
    (startPositions_apply hroot deeper) h.runs 0 hdrop hnode hfuel
  refine ⟨printed, hprinted, ?_⟩
  rw [hplaces]
  have hwalk := walk_perm TreeNode.isChild 0 h.oneParent
  rw [List.zipIdx_singleton, List.flatMap_singleton] at hwalk
  exact hwalk

/-- **The solution tree is printed completely**: if `evaluate` does not return early, every
node has its parent in the layer before, the children of one parent stand side by side, and
the printer visits every node of the tree once. -/
theorem solution_tree_printed (flags : Flags) (first : Bool) {b : Board}
    (h : b.isChecked (!first) = false) (d : ℕ) (old : List (List TreeNode)) :
    (∀ i layer next, (b.evaluate flags first d old).2[i]? = some layer →
      (b.evaluate flags first d old).2[i + 1]? = some next →
      ∀ node ∈ next, ∃ parent ∈ layer, node.parent = some parent.index) ∧
    (∀ layer ∈ (b.evaluate flags first d old).2, ∀ k,
      IsRun (fun node => node.parent = some k) layer) ∧
    ∀ fuel, (b.evaluate flags first d old).2.length ≤ fuel →
      ∃ printed, printSolutionTree (b.evaluate flags first d old).2 fuel = some printed ∧
        (printed.filterMap Printed.place).Nodup ∧
        ∀ i j, (i, j) ∈ printed.filterMap Printed.place ↔
          ∃ layer, (b.evaluate flags first d old).2[i]? = some layer ∧ j < layer.length := by
  obtain ⟨root, deeper, htree, hroot, hshape⟩ := evaluate_solutionTree flags h d old
  rw [htree]
  refine ⟨fun i layer next hlayer hnext node hnode => ?_, hshape.runs, fun fuel hfuel => ?_⟩
  · obtain ⟨parent, hparent, hchild⟩ := hshape.oneParent.exists_parent hlayer hnext hnode
    exact ⟨parent, hparent, of_decide_eq_true hchild⟩
  · obtain ⟨printed, hprinted, hperm⟩ := hshape.printed hroot (Nat.lt_of_succ_le hfuel)
    refine ⟨printed, hprinted, hperm.nodup_iff.mpr (nodup_places _ 0), fun i j => ?_⟩
    rw [hperm.mem_iff, ← mem_places_iff (n := 0), Nat.zero_add]

theorem solution_tree_printed_rook_mate :
    (Board.ofText "kf6\nrg1\nKh8\n").isChecked true = false ∧
      ∃ printed, printSolutionTree
          ((Board.ofText "kf6\nrg1\nKh8\n").evaluate Flags.default false 2 []).2
          ((Board.ofText "kf6\nrg1\nKh8\n").evaluate Flags.default false 2 []).2.length =
            some printed ∧ (printed.filterMap Printed.place).Nodup := by
  have hn : (Board.ofText "kf6\nrg1\nKh8\n").isChecked true = false := by decide +kernel
  obtain ⟨printed, hprinted, hnodup, -⟩ :=
    (solution_tree_printed Flags.default false hn 2 []).2.2 _ (Nat.le_refl _)
  exact ⟨hn, printed, hprinted, hnodup⟩

end Chess
