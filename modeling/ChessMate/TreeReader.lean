import ChessMate.BreadthStrategy
import ChessMate.PathReader
import ChessMate.TreePrinter

/-! # Reading the printed solution tree

`printSolutionTree` prints each node with the number of its layer, `[layer]move(score)`,
and the nodes in preorder.  The layer is the depth, so the text is an outline of the tree
of the solution, whatever the indentation and the line ends are, and the tree can be read
back from it: cut at the opening brackets, each piece gives a depth and a move.

No other part of the text has an opening bracket, and a move has no opening parenthesis,
if the squares of the moves are on the board; the boards that `evaluate` makes are
such.  The solver's text is read back for every board and depth
(`solution_text_read`).
-/
namespace Chess
open Outline LayeredTree

/-! ## The reader -/

/-- The characters before the first opening bracket, and the pieces that follow one. -/
def cut : List Char → List Char × List (List Char)
  | [] => ([], [])
  | c :: cs => if c = '[' then ([], (cut cs).1 :: (cut cs).2)
      else (c :: (cut cs).1, (cut cs).2)

/-- The layer and the move of a piece. -/
def readEntry (piece : List Char) : ℕ × String :=
  (Nat.ofDigitChars 10 (piece.takeWhile (· != ']')) 0,
    String.ofList (((piece.dropWhile (· != ']')).drop 1).takeWhile (· != '(')))

/-- The trees of moves that a text shows. -/
def readTree (text : String) : List (RoseTree String) := read ((cut text.toList).2.map readEntry)

section Pieces

theorem cut_append {l : List Char} (h : '[' ∉ l) (rest : List Char) :
    cut (l ++ rest) = (l ++ (cut rest).1, (cut rest).2) := by
  induction l with
  | nil => rfl
  | cons c l ih =>
    rw [List.mem_cons, not_or] at h
    rw [List.cons_append, cut, if_neg (Ne.symm h.1), ih h.2]
    rfl

theorem cut_bracket (rest : List Char) :
    cut ('[' :: rest) = ([], (cut rest).1 :: (cut rest).2) := by
  rw [cut, if_pos rfl]

/-- A piece begins with the layer and the move. -/
theorem readEntry_eq (layerNo : ℕ) {move : String} (hmove : '(' ∉ move.toList) (rest : List Char) :
    readEntry ((toString layerNo).toList ++ ']' :: (move.toList ++ '(' :: rest)) =
      (layerNo, move) := by
  have hdigits : (toString layerNo).toList = Nat.toDigits 10 layerNo := Nat.toList_repr
  have hlayer : ∀ c ∈ (toString layerNo).toList, (c != ']') = true := by
    intro c hc
    rw [hdigits] at hc
    have hdigit := Nat.isDigit_of_mem_toDigits (by decide) (by decide) hc
    rw [bne_iff_ne]
    rintro rfl
    exact absurd hdigit (by decide)
  have hchars : ∀ c ∈ move.toList, (c != '(') = true := by
    intro c hc
    rw [bne_iff_ne]
    rintro rfl
    exact hmove hc
  unfold readEntry
  rw [List.takeWhile_append_of_pos hlayer, List.dropWhile_append_of_pos hlayer,
    List.takeWhile_cons_of_neg (by decide), List.dropWhile_cons_of_neg (by decide), List.append_nil,
    hdigits, Nat.ofDigitChars_ten_toDigits]
  show (layerNo, String.ofList ((move.toList ++ '(' :: rest).takeWhile (· != '('))) = _
  rw [List.takeWhile_append_of_pos hchars, List.takeWhile_cons_of_neg (by decide), List.append_nil,
    String.ofList_toList]

end Pieces

/-! ## The text of a node -/

/-- The move of the board can be read from a text. -/
def Board.Printable (b : Board) : Prop :=
  isValidPosition b.lastMove.fromPos = true → isValidPosition b.lastMove.toPos = true

/-- The characters of a square. -/
theorem square_plain {pos : Position} (h : isValidPosition pos = true) :
    ∀ c ∈ [Char.ofNat ('a'.toNat + pos.2.toNat), Char.ofNat ('1'.toNat + pos.1.toNat)],
      c ≠ '[' ∧ c ≠ '(' := by
  obtain ⟨⟨h1, h2⟩, h3, h4⟩ := isValidPosition_iff.mp h
  have hcol : ∀ n < 8, Char.ofNat ('a'.toNat + n) ≠ '[' ∧ Char.ofNat ('a'.toNat + n) ≠ '(' := by
    decide
  have hrow : ∀ n < 8, Char.ofNat ('1'.toNat + n) ≠ '[' ∧ Char.ofNat ('1'.toNat + n) ≠ '(' := by
    decide
  rw [List.forall_mem_cons, List.forall_mem_singleton]
  exact ⟨hcol _ (by omega), hrow _ (by omega)⟩

/-- **The text of a move that can be read has no bracket and no parenthesis.** -/
theorem Board.Printable.plain {b : Board} (h : b.Printable) :
    ∀ c ∈ b.printLastMove.toList, c ≠ '[' ∧ c ≠ '(' := by
  unfold Board.printLastMove
  by_cases hfrom : isValidPosition b.lastMove.fromPos = true
  · obtain ⟨mark, hmark, htext⟩ := b.lastMove.notationOf_toList
    have hmarks : ∀ c ∈ [' ', '^', '0', 'x'], c ≠ '[' ∧ c ≠ '(' := by simp
    have hpieces : ∀ c ∈ kPieceChar.toList, c ≠ '[' ∧ c ≠ '(' := by simp [kPieceChar]
    rw [hfrom, if_neg (by decide), htext, List.forall_mem_cons, List.forall_mem_cons]
    exact ⟨hmarks mark hmark, hpieces _ (kPieceChar_mem _), square_plain (h hfrom)⟩
  · rw [Bool.not_eq_true] at hfrom
    rw [hfrom, if_pos (by decide)]
    simp

/-- A move fills its field. -/
theorem Board.padLeft_printLastMove (b : Board) : padLeft 3 b.printLastMove = b.printLastMove := by
  have hlength : 3 ≤ b.printLastMove.length := by
    unfold Board.printLastMove
    split_ifs
    · decide
    · obtain ⟨mark, -, htext⟩ := b.lastMove.notationOf_toList
      rw [← String.length_toList, htext]
      exact Nat.le_succ 3
  rw [padLeft, Nat.sub_eq_zero_of_le hlength]
  exact String.empty_append

theorem blank_of_mem_padLeft {width : ℕ} {text : String} {c : Char}
    (h : c ∈ (padLeft width text).toList) : c = ' ' ∨ c ∈ text.toList := by
  rw [padLeft, String.toList_append, String.toList_ofList, List.mem_append] at h
  exact h.imp_left List.eq_of_mem_replicate

theorem bracket_not_mem_repr (n : ℕ) : '[' ∉ n.repr.toList := by
  intro hmem
  rw [Nat.toList_repr] at hmem
  exact absurd (Nat.isDigit_of_mem_toDigits (by decide) (by decide) hmem) (by decide)

theorem bracket_not_mem_lead (k : ℕ) :
    '[' ∉ (String.join (List.replicate k (padLeft 16 ""))).toList := by
  induction k with
  | zero => decide
  | succ k ih =>
    rw [List.replicate_succ, String.join_cons, String.toList_append, List.mem_append, not_or]
    exact ⟨by decide, ih⟩

theorem bracket_not_mem_score (score : Int) : '[' ∉ (padLeft 5 (toString score)).toList := by
  intro hmem
  rcases blank_of_mem_padLeft hmem with hblank | hmem
  · exact absurd hblank (by decide)
  · cases score with
    | ofNat n => exact bracket_not_mem_repr n hmem
    | negSucc n =>
      have hneg : (toString (Int.negSucc n)).toList = '-' :: (n + 1).repr.toList := by
        show ("-" ++ (n + 1).repr).toList = _
        rw [String.toList_append]
        rfl
      rw [hneg, List.mem_cons] at hmem
      rcases hmem with hminus | hmem
      · exact absurd hminus (by decide)
      · exact bracket_not_mem_repr (n + 1) hmem

/-- What follows the move in the text of a node. -/
def Printed.tail (node : TreeNode) (hasChild : Bool) : List Char :=
  (padLeft 5 (toString node.nextState.score)).toList ++
    ')' :: (if hasChild then '+' else '|') :: [' ', ' ']

theorem Printed.text_entry (layerNo layerOff indent : ℕ) (node : TreeNode) (hasChild : Bool) :
    (Printed.entry layerNo layerOff indent node hasChild).text.toList =
      (String.join (List.replicate indent (padLeft 16 ""))).toList ++
        '[' :: ((toString layerNo).toList ++
          ']' :: (node.nextState.printLastMove.toList ++ '(' :: Printed.tail node hasChild)) := by
  have hsign : (if hasChild then "+" else "|").toList = [if hasChild then '+' else '|'] := by
    cases hasChild <;> rfl
  rw [Printed.text, node.nextState.padLeft_printLastMove, Printed.tail]
  simp only [String.toList_append, List.append_assoc, hsign]
  rfl

theorem bracket_not_mem_tail (node : TreeNode) (hasChild : Bool) :
    '[' ∉ Printed.tail node hasChild := by
  have hsign : '[' ∉ ')' :: (if hasChild then '+' else '|') :: [' ', ' '] := by
    cases hasChild <;> decide
  rw [Printed.tail, List.mem_append, not_or]
  exact ⟨bracket_not_mem_score _, hsign⟩

/-- **The text of a node is cut into what stands before it and a piece that is read as its
layer and its move.** -/
theorem cut_entry (layerNo layerOff indent : ℕ) {node : TreeNode} (h : node.nextState.Printable)
    (hasChild : Bool) (rest : List Char) :
    ∃ before piece, cut ((Printed.entry layerNo layerOff indent node hasChild).text.toList ++ rest) =
        (before, piece :: (cut rest).2) ∧
      readEntry piece = (layerNo, node.nextState.printLastMove) := by
  have hpiece : '[' ∉ (toString layerNo).toList ++
      ']' :: (node.nextState.printLastMove.toList ++ '(' :: Printed.tail node hasChild) := by
    have hmove : '[' ∉ node.nextState.printLastMove.toList := fun hc => (h.plain _ hc).1 rfl
    rw [List.mem_append, List.mem_cons, List.mem_append, List.mem_cons, not_or, not_or, not_or, not_or]
    exact ⟨bracket_not_mem_repr layerNo, by decide, hmove, by decide, bracket_not_mem_tail node hasChild⟩
  rw [Printed.text_entry, List.append_assoc, cut_append (bracket_not_mem_lead indent),
    List.cons_append, cut_bracket, cut_append hpiece]
  refine ⟨_, _, rfl, ?_⟩
  rw [List.append_assoc, List.cons_append, List.append_assoc, List.cons_append]
  exact readEntry_eq layerNo (fun hc => (h.plain _ hc).2 rfl) _

/-- The nodes that are printed, with their layers. -/
def Printed.item : Printed → Option (ℕ × TreeNode)
  | entry layerNo _ _ node _ => some (layerNo, node)
  | newline => none

/-- **The text of a printed list is read as its nodes.** -/
theorem cut_printed {printed : List Printed}
    (h : ∀ x ∈ printed.filterMap Printed.item, x.2.nextState.Printable) :
    (cut (String.join (printed.map Printed.text)).toList).2.map readEntry =
      (printed.filterMap Printed.item).map fun x => (x.1, x.2.nextState.printLastMove) := by
  induction printed with
  | nil => rfl
  | cons x printed ih =>
    rw [List.map_cons, String.join_cons, String.toList_append]
    cases x with
    | newline =>
      rw [show Printed.newline.text.toList = ['\n'] from rfl, cut_append (by decide)]
      exact ih h
    | entry layerNo layerOff indent node hasChild =>
      rw [show (Printed.entry layerNo layerOff indent node hasChild :: printed).filterMap
        Printed.item = (layerNo, node) :: printed.filterMap Printed.item from rfl] at h ⊢
      obtain ⟨hnode, hrest⟩ := List.forall_mem_cons.mp h
      obtain ⟨before, piece, hcut, hpiece⟩ := cut_entry layerNo layerOff indent hnode hasChild
        (String.join (printed.map Printed.text)).toList
      rw [hcut, List.map_cons, List.map_cons, hpiece, ih hrest]

/-! ## The nodes that are printed -/

section Nodes
variable {tree : List (List TreeNode)} {startPos : Address → Option ℕ}

/-- The node at a place of the tree. -/
def nodeAt (tree : List (List TreeNode)) (place : ℕ × ℕ) : Option TreeNode :=
  tree[place.1]?.bind fun layer => layer[place.2]?

/-- What is printed as a node is the node at its place. -/
def Printed.Placed (tree : List (List TreeNode)) (x : Printed) : Prop :=
  x.item = x.place.bind fun place => (nodeAt tree place).map (Prod.mk place.1)

/-- **The printer prints the nodes of the tree.** -/
theorem dfsPrintTree_placed (fuel : ℕ) : ∀ {layerNo layerOff indent : ℕ} {printed : List Printed},
    dfsPrintTree tree startPos fuel layerNo layerOff indent = some printed →
    ∀ x ∈ printed, x.Placed tree := by
  induction fuel with
  | zero =>
    intro layerNo layerOff indent printed h
    cases h
  | succ fuel ih =>
    intro layerNo layerOff indent printed h
    rw [dfsPrintTree] at h
    obtain ⟨layer, hlayer, h⟩ := Option.bind_eq_some_iff.mp h
    obtain ⟨node, hnode, h⟩ := Option.bind_eq_some_iff.mp h
    have hentry : ∀ hasChild, (Printed.entry layerNo layerOff indent node hasChild).Placed tree := by
      intro hasChild
      have hat : nodeAt tree (layerNo, layerOff) = some node := by
        rw [nodeAt, hlayer]
        exact hnode
      rw [Printed.Placed, Printed.place, Option.bind_some, hat]
      rfl
    have hleaf : ∀ x ∈ [Printed.entry layerNo layerOff indent node false, .newline],
        x.Placed tree :=
      List.forall_mem_cons.mpr ⟨hentry false, List.forall_mem_singleton.mpr rfl⟩
    split at h
    · obtain rfl := Option.some.inj h
      exact hleaf
    · obtain ⟨next, -, h⟩ := Option.bind_eq_some_iff.mp h
      obtain ⟨child, -, h⟩ := Option.bind_eq_some_iff.mp h
      split at h
      · obtain ⟨subtrees, hsubtrees, h⟩ := Option.bind_eq_some_iff.mp h
        obtain rfl := Option.some.inj h
        rw [List.cons_append, List.forall_mem_cons]
        refine ⟨hentry true, fun x hx => ?_⟩
        rcases List.mem_append.mp hx with hx | hx
        · obtain ⟨subtree, hmem, hx⟩ := List.mem_flatten.mp hx
          obtain ⟨j, rfl⟩ := List.mem_iff_get.mp hmem
          have hpairs := forall₂_of_mapM hsubtrees
          exact ih (hpairs.get (hpairs.length_eq.trans_gt j.2) j.2) x hx
        · obtain rfl := List.mem_singleton.mp hx
          rfl
      · obtain rfl := Option.some.inj h
        exact hleaf

theorem filterMap_item {printed : List Printed} (h : ∀ x ∈ printed, x.Placed tree) :
    printed.filterMap Printed.item = (printed.filterMap Printed.place).filterMap fun place =>
      (nodeAt tree place).map (Prod.mk place.1) := by
  rw [List.filterMap_filterMap]
  exact List.filterMap_congr h

end Nodes

/-- The tree of moves below a node. -/
def movesBelow (root : TreeNode) (deeper : List (List TreeNode)) : RoseTree String :=
  (unfoldTree TreeNode.isChild deeper (root, 0)).map fun x => x.1.nextState.printLastMove

/-- **The text of a solution tree is read back.** -/
theorem SolutionTree.read_text {root : TreeNode} {deeper : List (List TreeNode)}
    (h : SolutionTree ([root] :: deeper)) (hroot : root.parent = none)
    (hplain : ∀ layer ∈ [root] :: deeper, ∀ node ∈ layer, node.nextState.Printable) {fuel : ℕ}
    (hfuel : deeper.length < fuel) :
    ∃ printed, printSolutionTree ([root] :: deeper) fuel = some printed ∧
      readTree (String.join (printed.map Printed.text)) = [movesBelow root deeper] := by
  have hdrop : ([root] :: deeper).drop 0 = [root] :: deeper := rfl
  have hnode : [root][(root, 0).2]? = some (root, 0).1 := rfl
  obtain ⟨printed, hprinted, hplaces⟩ := dfsPrintTree_walk
    (startPositions_apply hroot deeper) h.runs 0 hdrop hnode hfuel
  refine ⟨printed, hprinted, ?_⟩
  have hitems : printed.filterMap Printed.item =
      ((unfoldTree TreeNode.isChild deeper (root, 0)).outline 0).map fun y => (y.1, y.2.1) := by
    rw [filterMap_item (dfsPrintTree_placed fuel hprinted), hplaces, walk_eq_outline,
      List.filterMap_map, ← List.filterMap_eq_map]
    refine List.filterMap_congr fun y hy => ?_
    have hat := getElem?_of_mem_outline TreeNode.isChild deeper hdrop hnode hy
    show (nodeAt ([root] :: deeper) (y.1, y.2.2)).map (Prod.mk y.1) = _
    rw [nodeAt, hat]
    rfl
  have hread : ∀ x ∈ printed.filterMap Printed.item, x.2.nextState.Printable := by
    intro x hx
    rw [hitems] at hx
    obtain ⟨y, hy, rfl⟩ := List.mem_map.mp hx
    have hat := getElem?_of_mem_outline TreeNode.isChild deeper hdrop hnode hy
    obtain ⟨layer, hlayer, hmem⟩ := Option.bind_eq_some_iff.mp hat
    exact hplain layer (List.mem_of_getElem? hlayer) _ (List.mem_of_getElem? hmem)
  have houtline : (printed.filterMap Printed.item).map
      (fun x => (x.1, x.2.nextState.printLastMove)) = outlineAll 0 [movesBelow root deeper] := by
    rw [hitems, outlineAll_cons, outlineAll_nil, List.append_nil, movesBelow, RoseTree.outline_map,
      List.map_map]
    rfl
  rw [readTree, cut_printed hread, houtline, read_outlineAll]

/-! ## The boards of the solution tree -/

section Boards
variable {flags : Flags} {first : Bool}

/-- A board that `expand` makes has its move on the board. -/
theorem printable_of_mem_nextBoards {l : ℕ} {b s : Board} (h : TreeBoard b (mover first l))
    (hs : s ∈ b.nextBoards flags first l) : s.Printable := by
  obtain ⟨m, hm, halike⟩ := mem_nextBoards h hs
  intro _
  rw [halike.lastTo]
  exact (hm.1.generated h.last).asMade.validTo

/-- **Every board below the first layer has its move on the board.** -/
theorem Linked.printable (d : ℕ) : ∀ {l : ℕ} {layer : List BfsNode} {deeper : List (List BfsNode)},
    Linked flags first d l layer deeper →
    (∀ node ∈ layer, TreeBoard node.nextState (mover first l)) →
    ∀ next ∈ deeper, ∀ node ∈ next, node.nextState.Printable := by
  induction d with
  | zero =>
    intro l layer deeper h hlayer next hnext
    obtain rfl : deeper = [] := h
    cases hnext
  | succ d ih =>
    intro l layer deeper h hlayer
    obtain ⟨rest, rfl, hrest⟩ := h
    have hmade : ∀ node ∈ childNodes flags first d l layer, ∃ b s, TreeBoard b (mover first l) ∧
        s ∈ b.nextBoards flags first l ∧ node.nextState.Alike s := by
      intro node hnode
      obtain ⟨x, hx, hnode⟩ := List.mem_flatMap.mp hnode
      obtain ⟨s, hs, rfl⟩ := List.mem_map.mp hnode
      exact ⟨x.1.nextState, s, hlayer x.1 (List.fst_mem_of_mem_zipIdx hx), hs, .withScore s _⟩
    refine List.forall_mem_cons.mpr ⟨fun node hnode => ?_, ih hrest fun node hnode => ?_⟩
    · obtain ⟨b, s, hb, hs, halike⟩ := hmade node hnode
      intro hfrom
      rw [halike.lastTo]
      rw [halike.lastFrom] at hfrom
      exact printable_of_mem_nextBoards hb hs hfrom
    · obtain ⟨b, s, hb, hs, halike⟩ := hmade node hnode
      exact (hb.next hs).alike halike.symm

theorem mem_retraverse (score : Int) (i : ℕ) (path : List ℕ) (layers : List (List BfsNode)) :
    ∀ nodes ∈ retraverse score i path layers, ∀ t ∈ nodes,
      ∃ layer ∈ layers, ∃ node ∈ layer, node.nextState = t.nextState := by
  induction layers generalizing i path with
  | nil => exact fun nodes hnodes => by cases hnodes
  | cons layer deeper ih =>
    refine List.forall_mem_cons.mpr ⟨fun t ht => ?_, fun nodes hnodes t ht => ?_⟩
    · obtain ⟨x, hx, rfl⟩ := List.mem_map.mp ht
      exact ⟨layer, List.mem_cons_self, x.1, List.fst_mem_of_mem_zipIdx (List.mem_filter.mp hx).1, rfl⟩
    · obtain ⟨layer', hlayer', hnode⟩ := ih (i + 1) _ nodes hnodes t ht
      exact ⟨layer', List.mem_cons_of_mem layer hlayer', hnode⟩

end Boards

/-- **The text of the solver's solution tree is read back**: from what `printSolutionTree`
prints after `evaluate`, the tree of the moves is read, for every printable board on which
the second side is not attacked and every depth. -/
theorem solution_text_read (flags : Flags) {first : Bool} {b : Board} (hk : KingsOk b)
    (hlast : b.DoubleStepOk) (hsecond : b.isChecked (!first) = false) (hb : b.Printable) (d : ℕ)
    (old : List (List TreeNode)) :
    ∃ root deeper, (b.evaluate flags first d old).2 = [root] :: deeper ∧
      ∀ fuel, (b.evaluate flags first d old).2.length ≤ fuel →
        ∃ printed, printSolutionTree (b.evaluate flags first d old).2 fuel = some printed ∧
          readTree (String.join (printed.map Printed.text)) = [movesBelow root deeper] := by
  obtain ⟨layers, hpasses, hlinked⟩ := linked_passes flags first d 0 [⟨none, b⟩]
  obtain ⟨root, deeper, htree, hroot, hshape⟩ := evaluate_solutionTree flags hsecond d old
  have hpair : [root] :: deeper = [⟨0, none, b.withScore (b.nodeScore flags first d 1)⟩] ::
      retraverse (b.nodeScore flags first d 1) 1 [0] layers := by
    rw [← htree, Board.evaluate, hsecond, hpasses]
    rfl
  obtain ⟨hfirst, rfl⟩ := List.cons.inj hpair
  obtain rfl := List.singleton_inj.mp hfirst
  refine ⟨_, _, htree, fun fuel hfuel => ?_⟩
  rw [htree] at hfuel ⊢
  refine hshape.read_text hroot ?_ (Nat.lt_of_succ_le hfuel)
  refine List.forall_mem_cons.mpr ⟨List.forall_mem_singleton.mpr hb, fun nodes hnodes t ht => ?_⟩
  obtain ⟨layer, hlayer, node, hnode, hsame⟩ := mem_retraverse _ 1 [0] layers nodes hnodes t ht
  rw [← hsame]
  refine hlinked.printable d ?_ layer hlayer node hnode
  exact List.forall_mem_singleton.mpr ⟨hk, hlast, hsecond⟩

theorem solution_text_read_back_rank :
    ∃ root deeper, (Board.backRank.evaluate Flags.default false 2 []).2 = [root] :: deeper ∧
      ∃ printed, printSolutionTree (Board.backRank.evaluate Flags.default false 2 []).2
          (Board.backRank.evaluate Flags.default false 2 []).2.length = some printed ∧
        readTree (String.join (printed.map Printed.text)) = [movesBelow root deeper] := by
  have hkings := Board.backRank_fileLoaded.kings
  have hsecond : Board.backRank.isChecked (!false) = false := by decide +kernel
  have hfrom : ¬ isValidPosition Board.backRank.lastMove.fromPos = true := by decide +kernel
  obtain ⟨root, deeper, htree, hread⟩ := solution_text_read Flags.default hkings.1
    hkings.2.doubleStepOk hsecond (fun h => absurd h hfrom) 2 []
  exact ⟨root, deeper, htree, hread _ (Nat.le_refl _)⟩

end Chess
