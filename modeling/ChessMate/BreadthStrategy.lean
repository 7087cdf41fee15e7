import ChessMate.BreadthVerdict

/-! # The solution tree of a win

When `evaluate` returns a mate, the re-traversal keeps a strategy.  Every node that it
keeps is worth exactly a mate.  Below a board on which the first side moves it keeps the
moves that are worth a mate, all of them and at least one; below a board on which the
second side moves it keeps every reply (`solution_tree_strategy`).

The scores with which the nodes are kept are those of the backward pass, so the proof
follows the layers: `Linked` says of each layer that its nodes are the boards made from
the nodes of the layer before, parent by parent, with their values.
-/
namespace Chess
open LayerFold

section Linked
variable (flags : Flags) (first : Bool)

/-- The node of a board that is made from node `k`, with its value, and `d` layers below
it. -/
def childNode (d l k : ℕ) (s : Board) : BfsNode :=
  ⟨some k, s.withScore (settled l (s.nodeScore flags first d (l + 1)))⟩

/-- The nodes of the layer that is made from this one. -/
def childNodes (d l : ℕ) (layer : List BfsNode) : List BfsNode :=
  layer.zipIdx.flatMap fun x =>
    (x.1.nextState.nextBoards flags first l).map (childNode flags first d l x.2)

/-- The layers below a layer, each made from the one before. -/
def Linked : ℕ → ℕ → List BfsNode → List (List BfsNode) → Prop
  | 0, _, _, deeper => deeper = []
  | d + 1, l, layer, deeper => ∃ rest, deeper = childNodes flags first d l layer :: rest ∧
      Linked d (l + 1) (childNodes flags first d l layer) rest

variable {flags first}

/-- The boards that are made from a board do not depend on its score. -/
theorem childNodes_withScore (d l : ℕ) (layer : List BfsNode) (score : BfsNode → Int) :
    childNodes flags first d l (layer.map fun node => node.withScore (score node)) =
      childNodes flags first d l layer := by
  unfold childNodes
  rw [List.zipIdx_map, List.flatMap_map]
  rfl

theorem Linked.of_withScore {d l : ℕ} {layer : List BfsNode} {score : BfsNode → Int}
    {deeper : List (List BfsNode)} (h : Linked flags first d l layer deeper) :
    Linked flags first d l (layer.map fun node => node.withScore (score node)) deeper := by
  cases d with
  | zero => exact h
  | succ d =>
    rw [Linked, childNodes_withScore]
    exact h

/-- The boards that are made, with their values. -/
theorem map_settle_expandLayer (d l : ℕ) (layer : List BfsNode) :
    ((expandLayer flags first l layer).2.map (BfsNode.scored flags first d (l + 1))).map
        (settleScore l) = childNodes flags first d l layer := by
  simp only [expandLayer, childNodes, List.map_flatMap, List.map_map, List.zipIdx_map,
    List.flatMap_map]
  refine List.flatMap_congr fun x _ => List.map_congr_left fun c _ => ?_
  exact settleScore_withScore l _ _

variable (flags first) in
/-- **The layers after the passes are linked.** -/
theorem linked_passes (d : ℕ) : ∀ (i : ℕ) (layer : List BfsNode),
    ∃ deeper, backwardPass i (forwardPass flags first d (i + 1) layer) =
        layer.map (BfsNode.scored flags first d (i + 1)) :: deeper ∧
      Linked flags first d (i + 1) layer deeper := by
  induction d with
  | zero =>
    intro i layer
    obtain ⟨deeper, hback, -⟩ := backward_forward flags first 0 i layer
    exact ⟨deeper, hback, (List.cons.inj hback).2.symm⟩
  | succ d ih =>
    intro i layer
    obtain ⟨deeper, hback, hlinked⟩ := ih (i + 1) (expandLayer flags first (i + 1) layer).2
    have hpass : backwardPass i (forwardPass flags first (d + 1) (i + 1) layer) =
        layer.map (BfsNode.scored flags first (d + 1) (i + 1)) ::
          childNodes flags first d (i + 1) layer :: deeper := by
      rw [forwardPass, backwardPass, hback]
      dsimp only
      rw [propagate_layer, map_settle_expandLayer]
    refine ⟨_, hpass, deeper, rfl, ?_⟩
    rw [← map_settle_expandLayer, List.map_map]
    have hscored : ∀ node : BfsNode, (settleScore (i + 1) ∘ BfsNode.scored flags first d (i + 2)) node =
        node.withScore (settled (i + 1) (node.nextState.nodeScore flags first d (i + 2))) :=
      fun node => settleScore_withScore (i + 1) node _
    rw [List.map_congr_left fun node _ => hscored node]
    exact hlinked.of_withScore

end Linked

/-! ## The children that are kept -/

section Kept
variable {flags : Flags} {first : Bool}

/-- The score with which a node of the layer is kept. -/
def keeps (i : ℕ) (score value : Int) : Bool :=
  (i % 2 = 1 && decide (value ≥ score)) || (!(i % 2 = 1) && decide (value ≤ score))

/-- The boards of the children of one node that are kept. -/
def keptChildren (k : ℕ) (nodes : List TreeNode) : List Board :=
  (nodes.filter fun node => node.parent = some k).map TreeNode.nextState

theorem filter_zipIdx_fst {α β : Type} (p : α → Bool) (f : α → β) (l : List α) (n : ℕ) :
    ((l.zipIdx n).filter fun x => p x.1).map (fun x => f x.1) = (l.filter p).map f := by
  induction l generalizing n with
  | nil => rfl
  | cons x l ih =>
    rw [List.zipIdx_cons]
    cases hp : p x with
    | true => simp [hp, ih]
    | false => simp [hp, ih]

/-- Of the layer below, the children of a node on the path are kept by their scores. -/
theorem keptChildren_nodesOnPath {i k : ℕ} {score : Int} {path : List ℕ} (hk : k ∈ path)
    (layer : List BfsNode) :
    keptChildren k (nodesOnPath i score path layer) =
      ((layer.filter fun node => node.parent = some k).map BfsNode.nextState).filter
        fun s => keeps i score s.score := by
  unfold keptChildren nodesOnPath
  rw [List.filter_map, List.map_map, List.filter_filter, List.filter_map, List.filter_filter]
  refine Eq.trans ?_ (filter_zipIdx_fst (fun node : BfsNode => keeps i score node.nextState.score &&
    decide (node.parent = some k)) BfsNode.nextState layer 0)
  congr 1
  refine List.filter_congr fun x _ => ?_
  show (decide (x.1.parent = some k) && _) = _
  cases hparent : decide (x.1.parent = some k) with
  | false => simp
  | true =>
    have hp := of_decide_eq_true hparent
    simp [hp, hk, keeps]

/-- The children of a node in the layer that is made from its layer. -/
theorem filter_childNodes {d l k : ℕ} {layer : List BfsNode} {node : BfsNode}
    (hnode : layer[k]? = some node) :
    ((childNodes flags first d l layer).filter fun node => node.parent = some k).map
        BfsNode.nextState =
      (node.nextState.nextBoards flags first l).map fun s =>
        s.withScore (settled l (s.nodeScore flags first d (l + 1))) := by
  have hgroups := filter_groups (childNode flags first d l) BfsNode.parent (fun _ _ => rfl)
    (fun node : BfsNode => node.nextState.nextBoards flags first l) 0 hnode
  rw [Nat.zero_add] at hgroups
  rw [childNodes, hgroups, List.map_map]
  rfl

/-- **The children that are kept of a node on the path.** -/
theorem keptChildren_childNodes {d l k : ℕ} {path : List ℕ} (hk : k ∈ path)
    {layer : List BfsNode} {node : BfsNode} (hnode : layer[k]? = some node) (score : Int) :
    keptChildren k (nodesOnPath l score path (childNodes flags first d l layer)) =
      ((node.nextState.nextBoards flags first l).filter fun s =>
          keeps l score (settled l (s.nodeScore flags first d (l + 1)))).map fun s =>
        s.withScore (settled l (s.nodeScore flags first d (l + 1))) := by
  rw [keptChildren_nodesOnPath hk, filter_childNodes hnode, List.filter_map]
  rfl

/-! ## Kept boards are worth a mate -/

/-- The board as it is kept. -/
def Board.mateScored (b : Board) : Board := b.withScore CHECKMATE

/-- **What is kept below a board**, with `d` layers below what is made from it: on the
first side's turn the boards that are worth a mate, and there is one; on the second side's
turn every board. -/
structure KeepsStrategy (flags : Flags) (first : Bool) (d l : ℕ) (b : Board) (kept : List Board) :
    Prop where
  boards : kept = ((b.nextBoards flags first l).filter fun s =>
    s.nodeScore flags first d (l + 1) = CHECKMATE).map Board.mateScored
  attack : l % 2 = 1 → kept ≠ []
  replies : l % 2 = 0 → kept = (b.nextBoards flags first l).map Board.mateScored

/-- Below a board that is worth a mate the scores decide so. -/
theorem keeps_iff_of_mate {d l : ℕ} {b : Board} (hb : TreeBoard b (mover first l))
    (hmate : b.nodeScore flags first (d + 1) l = CHECKMATE) {s : Board}
    (hs : s ∈ b.nextBoards flags first l) :
    (keeps l CHECKMATE (settled l (s.nodeScore flags first d (l + 1))) = true ↔
      s.nodeScore flags first d (l + 1) = CHECKMATE) ∧
    (l % 2 = 0 → s.nodeScore flags first d (l + 1) = CHECKMATE) := by
  rcases Nat.mod_two_eq_zero_or_one l with hl | hl
  · have hall := (checkmate_le_second_iff hl).mp hmate.ge s hs
    have hsettled : settled l CHECKMATE = CHECKMATE := if_neg fun h => absurd h.2 (by decide)
    refine ⟨iff_of_true ?_ hall, fun _ => hall⟩
    rw [hall, hsettled]
    simp [keeps, hl]
  · have hsafe : b.isChecked (!first) = false := by
      have hmover : mover first l = first := if_pos hl
      rw [← hmover]
      exact hb.notAttacked
    have hle := (first_le_checkmate_iff hl hsafe).mp hmate.le s hs
    refine ⟨?_, fun h => by omega⟩
    rw [settled_of_odd hl]
    simp only [keeps, hl, decide_true, Bool.true_and, Bool.not_true, Bool.false_and, Bool.or_false,
      decide_eq_true_eq]
    exact ⟨fun hge => le_antisymm hle hge, fun heq => heq.ge⟩

/-- **Below a board that is worth a mate a strategy is kept.** -/
theorem keepsStrategy_of_mate {d l : ℕ} {b : Board} (hb : TreeBoard b (mover first l))
    (hmate : b.nodeScore flags first (d + 1) l = CHECKMATE) {kept : List Board}
    (hkept : kept = ((b.nextBoards flags first l).filter fun s =>
        keeps l CHECKMATE (settled l (s.nodeScore flags first d (l + 1)))).map fun s =>
      s.withScore (settled l (s.nodeScore flags first d (l + 1)))) :
    KeepsStrategy flags first d l b kept := by
  have hsettled : settled l CHECKMATE = CHECKMATE := if_neg fun h => absurd h.2 (by decide)
  have hboards : kept = ((b.nextBoards flags first l).filter fun s =>
      s.nodeScore flags first d (l + 1) = CHECKMATE).map Board.mateScored := by
    have hfilter : ((b.nextBoards flags first l).filter fun s =>
        keeps l CHECKMATE (settled l (s.nodeScore flags first d (l + 1)))) =
        (b.nextBoards flags first l).filter fun s =>
          s.nodeScore flags first d (l + 1) = CHECKMATE := by
      refine List.filter_congr fun s hs => ?_
      rw [Bool.eq_iff_iff, (keeps_iff_of_mate hb hmate hs).1, decide_eq_true_eq]
    rw [hkept, hfilter]
    refine List.map_congr_left fun s hs => ?_
    rw [of_decide_eq_true (List.mem_filter.mp hs).2, hsettled]
    rfl
  refine ⟨hboards, fun hl => ?_, fun hl => ?_⟩
  · have hsafe : b.isChecked (!first) = false := by
      have hmover : mover first l = first := if_pos hl
      rw [← hmover]
      exact hb.notAttacked
    obtain ⟨s, hs, hge⟩ := (checkmate_le_first_iff hl hsafe).mp hmate.ge
    have hle := (first_le_checkmate_iff hl hsafe).mp hmate.le s hs
    rw [hboards]
    refine List.ne_nil_of_mem (List.mem_map_of_mem (List.mem_filter.mpr ⟨hs, ?_⟩))
    exact decide_eq_true (le_antisymm hle hge)
  · rw [hboards]
    congr 1
    refine List.filter_eq_self.mpr fun s hs => ?_
    exact decide_eq_true ((keeps_iff_of_mate hb hmate hs).2 hl)

/-! ## From layer to layer -/

/-- The kept node is the node of the layer with its index, its board is one of the tree,
and worth a mate. -/
structure OnPath (flags : Flags) (first : Bool) (d l : ℕ) (layer : List BfsNode) (t : TreeNode) :
    Prop where
  node : layer[t.index]? = some ⟨t.parent, t.nextState⟩
  board : TreeBoard t.nextState (mover first l)
  mate : t.nextState.nodeScore flags first d l = CHECKMATE

theorem Board.nodeScore_mateScored {d l : ℕ} {s : Board}
    (h : s.nodeScore flags first d l = CHECKMATE) :
    s.mateScored.nodeScore flags first d l = CHECKMATE := by
  cases d with
  | zero => rfl
  | succ d => exact h

/-- **The nodes that are kept below nodes on the path are on the path.** -/
theorem OnPath.next {d l : ℕ} {layer : List BfsNode} {above : List TreeNode}
    (h : ∀ t ∈ above, OnPath flags first (d + 1) l layer t) {u : TreeNode}
    (hu : u ∈ nodesOnPath l CHECKMATE (above.map TreeNode.index) (childNodes flags first d l layer)) :
    OnPath flags first d (l + 1) (childNodes flags first d l layer) u := by
  have hmem := hu
  unfold nodesOnPath at hu
  obtain ⟨x, hx, rfl⟩ := List.mem_map.mp hu
  obtain ⟨hx, hkeep⟩ := List.mem_filter.mp hx
  have hnode := List.mem_zipIdx_iff_getElem?.mp hx
  obtain ⟨k, hparent, hk⟩ : ∃ k, x.1.parent = some k ∧ k ∈ above.map TreeNode.index := by
    cases hparent : x.1.parent with
    | none => simp [hparent] at hkeep
    | some k =>
      rw [hparent] at hkeep
      exact ⟨k, rfl, by simpa using (Bool.and_eq_true_iff.mp hkeep).1⟩
  obtain ⟨t, ht, rfl⟩ := List.mem_map.mp hk
  have hchild : x.1.nextState ∈ keptChildren t.index (nodesOnPath l CHECKMATE
      (above.map TreeNode.index) (childNodes flags first d l layer)) :=
    List.mem_map_of_mem (f := TreeNode.nextState)
      (List.mem_filter.mpr ⟨hmem, decide_eq_true hparent⟩)
  have hstrategy := keepsStrategy_of_mate (h t ht).board (h t ht).mate
    (keptChildren_childNodes hk (h t ht).node CHECKMATE)
  rw [hstrategy.boards] at hchild
  obtain ⟨s, hs, heq⟩ := List.mem_map.mp hchild
  obtain ⟨hs, hmate⟩ := List.mem_filter.mp hs
  refine ⟨hnode, ?_, ?_⟩
  · show TreeBoard x.1.nextState _
    rw [← heq]
    exact ((h t ht).board.next hs).alike (Board.Alike.withScore s CHECKMATE).symm
  · show x.1.nextState.nodeScore flags first d (l + 1) = CHECKMATE
    rw [← heq]
    exact Board.nodeScore_mateScored (of_decide_eq_true hmate)

/-- **The re-traversal keeps a strategy below every node that it keeps.** -/
theorem retraverse_strategy (d : ℕ) : ∀ {l : ℕ} {layer : List BfsNode}
    {deeper : List (List BfsNode)} {above : List TreeNode}, Linked flags first d l layer deeper →
    (∀ t ∈ above, OnPath flags first d l layer t) → ∀ {j : ℕ} {nodes next : List TreeNode},
    (above :: retraverse CHECKMATE l (above.map TreeNode.index) deeper)[j]? = some nodes →
    (above :: retraverse CHECKMATE l (above.map TreeNode.index) deeper)[j + 1]? = some next →
    ∀ t ∈ nodes, KeepsStrategy flags first (d - (j + 1)) (l + j) t.nextState
      (keptChildren t.index next) := by
  induction d with
  | zero =>
    intro l layer deeper above hlinked habove j nodes next hnodes hnext
    obtain rfl : deeper = [] := hlinked
    cases hnext
  | succ d ih =>
    intro l layer deeper above hlinked habove j nodes next hnodes hnext t ht
    obtain ⟨rest, rfl, hlinked⟩ := hlinked
    cases j with
    | zero =>
      obtain rfl := Option.some.inj hnodes
      obtain rfl := Option.some.inj hnext
      exact keepsStrategy_of_mate (habove t ht).board (habove t ht).mate
        (keptChildren_childNodes (List.mem_map_of_mem ht) (habove t ht).node CHECKMATE)
    | succ j =>
      have hrec := ih hlinked (fun u hu => OnPath.next habove hu) hnodes hnext t ht
      rw [show d + 1 - (j + 1 + 1) = d - (j + 1) by omega, show l + (j + 1) = l + 1 + j by omega]
      exact hrec

end Kept

/-- **The solution tree of a win is a strategy**: every node above the last layer keeps
the boards that are worth a mate, at least one where the first side moves, and all that
are made where the second side does. -/
theorem solution_tree_strategy (flags : Flags) {first : Bool} {b : Board} (hk : KingsOk b)
    (hlast : b.DoubleStepOk) (hsecond : b.isChecked (!first) = false) {d : ℕ}
    (old : List (List TreeNode)) (hwin : (b.evaluate flags first d old).1 = CHECKMATE) {j : ℕ}
    {nodes next : List TreeNode} (hnodes : (b.evaluate flags first d old).2[j]? = some nodes)
    (hnext : (b.evaluate flags first d old).2[j + 1]? = some next) :
    ∀ t ∈ nodes, KeepsStrategy flags first (d - (j + 1)) (j + 1) t.nextState
      (keptChildren t.index next) := by
  obtain ⟨deeper, hpasses, hlinked⟩ := linked_passes flags first d 0 [⟨none, b⟩]
  have hvalue : b.nodeScore flags first d 1 = CHECKMATE := by
    rw [← evaluate_eq hsecond d old]
    exact hwin
  have hresult : (b.evaluate flags first d old).2 = [⟨0, none, b.mateScored⟩] ::
      retraverse CHECKMATE 1 ([⟨0, none, b.mateScored⟩].map TreeNode.index) deeper := by
    rw [Board.evaluate, hsecond, hpasses]
    show [(⟨0, none, b.withScore (b.nodeScore flags first d 1)⟩ : TreeNode)] ::
      retraverse (b.nodeScore flags first d 1) 1 [0] deeper = _
    rw [hvalue]
    rfl
  rw [hresult] at hnodes hnext
  have hroot : ∀ t ∈ [(⟨0, none, b.mateScored⟩ : TreeNode)],
      OnPath flags first d 1 ([⟨none, b⟩].map fun node : BfsNode => node.withScore CHECKMATE) t := by
    intro t ht
    obtain rfl := List.mem_singleton.mp ht
    refine ⟨rfl, ?_, Board.nodeScore_mateScored hvalue⟩
    exact TreeBoard.alike ⟨hk, hlast, hsecond⟩ (Board.Alike.withScore b CHECKMATE).symm
  intro t ht
  rw [Nat.add_comm j 1]
  have hkept := retraverse_strategy d hlinked.of_withScore hroot hnodes hnext t ht
  rwa [Nat.add_comm j 1] at hkept

/-- White mates on the back rank in two ways, or in more moves. -/
theorem solution_tree_strategy_back_rank :
    ∃ root next, (Board.backRank.evaluate Flags.default false 2 []).2[0]? = some [root] ∧
      (Board.backRank.evaluate Flags.default false 2 []).2[1]? = some next ∧
      KeepsStrategy Flags.default false 1 1 root.nextState (keptChildren root.index next) := by
  have hkings := Board.backRank_fileLoaded.kings
  have hsecond : Board.backRank.isChecked (!false) = false := by decide +kernel
  have hwin : (Board.backRank.evaluate Flags.default false 2 []).1 = CHECKMATE := by decide +kernel
  have hlayers : ((Board.backRank.evaluate Flags.default false 2 []).2[0]?.any fun nodes =>
      nodes.length == 1) = true ∧
      (Board.backRank.evaluate Flags.default false 2 []).2[1]?.isSome = true := by decide +kernel
  obtain ⟨nodes, hnodes, hone⟩ := (Option.any_eq_true _ _).mp hlayers.1
  obtain ⟨next, hnext⟩ := Option.isSome_iff_exists.mp hlayers.2
  obtain ⟨root, rfl⟩ := List.length_eq_one_iff.mp (beq_iff_eq.mp hone)
  refine ⟨root, next, hnodes, hnext, ?_⟩
  exact solution_tree_strategy Flags.default hkings.1 hkings.2.doubleStepOk hsecond [] hwin hnodes
    hnext root List.mem_cons_self

end Chess
