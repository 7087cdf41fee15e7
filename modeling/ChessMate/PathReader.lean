import ChessMate.BoardLoader
import ChessMate.Outline
import ChessMate.PathPrinter

/-! # Reading printed paths

What `printPath` prints is a table without a frame.  Every move takes a cell of six
characters, and a cell of blanks stands where the row before already shows the move; a
row ends with the `#` of a mate.  So the column of a move is its depth, the text is an
outline of the printed tree, and the tree can be read back from it (`readFrom`).

The printer is cut in two for that: `solutionTree` follows the indices of the forest,
and `printTree` lays the tree out, which is what `printSolution` does in one recursion
(`printSolution_eq`).

A round that has no solution for a reply prints nothing after it, not even the end of
the row, and its text cannot be told from another.  So the results about `printPath`
are for rounds with a solution for every reply, as a mate leaves them.
-/
namespace Chess
open Outline

/-! ## The printed tree and its layout -/

/-- The tree of moves below a node of the forest. -/
def solutionTree (solutions : StaticForest Move) : ℕ → ℕ → Option (RoseTree Move)
  | 0, _ => none
  | fuel + 1, root =>
      match solutions.node? root with
      | none => none
      | some node => do
          let subtrees ← node.children.mapM (solutionTree solutions fuel)
          some (.node node.data subtrees)

mutual

/-- The text of a tree, with the blanks that stand before its row. -/
def printTree (lead : String) : RoseTree Move → String
  | .node m ts =>
      m.notationOf ++ "  " ++ (if ts.isEmpty then "#\n" else "") ++
        (lead ++ indent).intercalate (printTrees (lead ++ indent) ts)

/-- The texts of trees that stand in one column. -/
def printTrees (lead : String) : List (RoseTree Move) → List String
  | [] => []
  | t :: ts => printTree lead t :: printTrees lead ts

end

theorem printTrees_eq (lead : String) (ts : List (RoseTree Move)) :
    printTrees lead ts = ts.map (printTree lead) := by
  induction ts with
  | nil => rfl
  | cons t ts ih => rw [printTrees, List.map_cons, ih]

theorem mapM_map_option {α β γ : Type} (f : α → Option β) (g : β → γ) (l : List α) :
    l.mapM (fun x => (f x).map g) = (l.mapM f).map (List.map g) := by
  induction l with
  | nil => rfl
  | cons x l ih =>
    rw [List.mapM_cons, List.mapM_cons, ih]
    cases f x with
    | none => rfl
    | some y => cases l.mapM f <;> rfl

theorem forall₂_of_mapM {α β : Type} {f : α → Option β} {l : List α} {ys : List β}
    (h : l.mapM f = some ys) : List.Forall₂ (fun x y => f x = some y) l ys := by
  induction l generalizing ys with
  | nil =>
    obtain rfl := Option.some.inj h
    exact .nil
  | cons x l ih =>
    rw [List.mapM_cons] at h
    obtain ⟨y, hy, hrest⟩ := Option.bind_eq_some_iff.mp h
    obtain ⟨ys', hys', hdone⟩ := Option.bind_eq_some_iff.mp hrest
    obtain rfl := Option.some.inj hdone
    exact .cons hy (ih hys')

/-- **`printSolution` lays out the tree of the node.** -/
theorem printSolution_eq (f : StaticForest Move) (fuel root : ℕ) (lead : String) :
    printSolution f fuel root lead = (solutionTree f fuel root).map (printTree lead) := by
  induction fuel generalizing root lead with
  | zero => rfl
  | succ fuel ih =>
    rw [printSolution, solutionTree]
    cases f.node? root with
    | none => rfl
    | some node =>
      dsimp only
      simp only [ih]
      rw [mapM_map_option]
      cases htrees : node.children.mapM (solutionTree f fuel) with
      | none => rfl
      | some ts =>
        have hempty : (node.children = []) ↔ ts.isEmpty = true := by
          rw [List.isEmpty_iff, ← List.length_eq_zero_iff, ← List.length_eq_zero_iff,
            (forall₂_of_mapM htrees).length_eq]
        show some _ = some (printTree lead (.node node.data ts))
        rw [printTree, printTrees_eq]
        simp only [hempty]

/-! ## The reader -/

/-- The cells of a text that begins in the given column: the columns of the moves and
their notations.  A blank in the second place is a blank cell, and `#` ends a row. -/
def readCells : ℕ → List Char → List (ℕ × String)
  | col, c₁ :: c₂ :: rest =>
      if c₁ = '#' then readCells 0 rest
      else
        match rest with
        | c₃ :: c₄ :: _ :: _ :: rest =>
            if c₂ = ' ' then readCells (col + 1) rest
            else (col, String.ofList [c₁, c₂, c₃, c₄]) :: readCells (col + 1) rest
        | _ => []
  | _, _ => []

/-- The trees of notations that a text shows, from a column on. -/
def readFrom (col : ℕ) (text : String) : List (RoseTree String) := read (readCells col text.toList)

theorem readCells_blank (col : ℕ) (rest : List Char) :
    readCells col (' ' :: ' ' :: ' ' :: ' ' :: ' ' :: ' ' :: rest) = readCells (col + 1) rest :=
  rfl

theorem readCells_end (col : ℕ) (rest : List Char) :
    readCells col ('#' :: '\n' :: rest) = readCells 0 rest := by
  rw [readCells.eq_def]
  rfl

theorem readCells_blanks (col k : ℕ) (rest : List Char) :
    readCells col (List.replicate (6 * k) ' ' ++ rest) = readCells (col + k) rest := by
  induction k generalizing col with
  | zero => rfl
  | succ k ih =>
    have hcount : 6 * (k + 1) = 6 + 6 * k := by omega
    have hsix : List.replicate 6 ' ' = [' ', ' ', ' ', ' ', ' ', ' '] := rfl
    rw [hcount, List.replicate_add, hsix, List.append_assoc]
    calc readCells col (' ' :: ' ' :: ' ' :: ' ' :: ' ' :: ' ' :: (List.replicate (6 * k) ' ' ++ rest))
      _ = readCells (col + 1) (List.replicate (6 * k) ' ' ++ rest) := readCells_blank col _
      _ = readCells (col + (k + 1)) rest := by rw [ih, Nat.add_assoc, Nat.add_comm 1 k]

/-- The characters of a notation: a mark, the piece, and its square. -/
theorem Move.notationOf_toList (m : Move) : ∃ c ∈ [' ', '^', '0', 'x'], m.notationOf.toList =
    [c, kPieceChar.toList.getD m.newType.value '-', Char.ofNat ('a'.toNat + m.toPos.2.toNat),
      Char.ofNat ('1'.toNat + m.toPos.1.toNat)] := by
  obtain ⟨c, hc, hmark⟩ : ∃ c ∈ [' ', '^', '0', 'x'], m.mark.toList = [c] := by
    unfold Move.mark
    cases m.special
    · exact ⟨' ', by decide, rfl⟩
    · exact ⟨'x', by decide, rfl⟩
    · exact ⟨'x', by decide, rfl⟩
    · exact ⟨'^', by decide, rfl⟩
    · exact ⟨'0', by decide, rfl⟩
  refine ⟨c, hc, ?_⟩
  rw [Move.notationOf, String.toList_append, hmark, Piece.printPiece, String.toList_ofList]
  rfl

theorem kPieceChar_mem (type : PieceType) :
    kPieceChar.toList.getD type.value '-' ∈ kPieceChar.toList := by
  cases type <;> decide

/-- **The cell of a move is read as the move.** -/
theorem readCells_move (col : ℕ) (m : Move) (rest : List Char) :
    readCells col (m.notationOf.toList ++ ' ' :: ' ' :: rest) =
      (col, m.notationOf) :: readCells (col + 1) rest := by
  obtain ⟨c, hc, htext⟩ := m.notationOf_toList
  have hmark : ∀ c ∈ [' ', '^', '0', 'x'], c ≠ '#' := by simp
  have hpiece : ∀ c ∈ kPieceChar.toList, c ≠ ' ' := by simp [kPieceChar]
  have hself : String.ofList m.notationOf.toList = m.notationOf := String.ofList_toList
  rw [htext] at hself ⊢
  show readCells col (_ :: _ :: _ :: _ :: ' ' :: ' ' :: rest) = _
  rw [readCells, if_neg (hmark c hc), if_neg (hpiece _ (kPieceChar_mem m.newType)), hself]

/-! ## The text of a tree is read back -/

/-- The text is that many blank cells. -/
def IsLead (k : ℕ) (lead : String) : Prop := lead.toList = List.replicate (6 * k) ' '

theorem IsLead.succ {k : ℕ} {lead : String} (h : IsLead k lead) : IsLead (k + 1) (lead ++ indent) := by
  have hcount : 6 * (k + 1) = 6 * k + 6 := by omega
  have hindent : indent.toList = List.replicate 6 ' ' := rfl
  rw [IsLead, String.toList_append, h, hindent, hcount, List.replicate_add]

theorem isLead_join (k : ℕ) : IsLead k (String.join (List.replicate k indent)) := by
  induction k with
  | zero => rfl
  | succ k ih =>
    have happend : String.join (List.replicate (k + 1) indent) =
        String.join (List.replicate k indent) ++ indent := by
      rw [List.replicate_succ', String.join_append, String.join_cons, String.join_nil,
        String.append_empty]
    rw [happend]
    exact ih.succ

mutual

/-- **The text of a tree shows the tree**, and the next row begins after it. -/
theorem readCells_printTree (k : ℕ) (t : RoseTree Move) {lead : String} (h : IsLead k lead)
    (rest : List Char) :
    readCells k ((printTree lead t).toList ++ rest) =
      (t.map Move.notationOf).outline k ++ readCells 0 rest := by
  cases t with
  | node m ts =>
    have hcell : (printTree lead (.node m ts)).toList ++ rest = m.notationOf.toList ++ ' ' :: ' ' ::
        ((if ts.isEmpty then "#\n" else "").toList ++
          ((lead ++ indent).intercalate (printTrees (lead ++ indent) ts)).toList ++ rest) := by
      rw [printTree, String.toList_append, String.toList_append, String.toList_append,
        List.append_assoc, List.append_assoc, List.append_assoc, List.append_assoc]
      rfl
    rw [hcell, readCells_move, RoseTree.map, RoseTree.outline, List.cons_append]
    congr 1
    cases ts with
    | nil =>
      rw [printTrees, String.intercalate_nil]
      exact readCells_end _ _
    | cons t ts => exact readCells_printTrees (k + 1) (t :: ts) (List.cons_ne_nil _ _) h.succ rest

/-- The same for trees below one another. -/
theorem readCells_printTrees (k : ℕ) (ts : List (RoseTree Move)) (hne : ts ≠ []) {lead : String}
    (h : IsLead k lead) (rest : List Char) :
    readCells k ((lead.intercalate (printTrees lead ts)).toList ++ rest) =
      outlineAll k (mapAll Move.notationOf ts) ++ readCells 0 rest := by
  cases ts with
  | nil => exact absurd rfl hne
  | cons t ts =>
    cases ts with
    | nil =>
      rw [printTrees, printTrees, String.intercalate_singleton, readCells_printTree k t h rest,
        mapAll_cons, outlineAll_cons, mapAll_nil, outlineAll_nil, List.append_nil]
    | cons t' ts =>
      have hrow : readCells 0 (lead.toList ++
            ((lead.intercalate (printTrees lead (t' :: ts))).toList ++ rest)) =
          outlineAll k (mapAll Move.notationOf (t' :: ts)) ++ readCells 0 rest := by
        rw [h, readCells_blanks, Nat.zero_add]
        exact readCells_printTrees k (t' :: ts) (List.cons_ne_nil _ _) h rest
      rw [printTrees, printTrees, String.intercalate_cons_cons, ← printTrees, String.toList_append,
        String.toList_append, List.append_assoc, List.append_assoc,
        readCells_printTree k t h, hrow, mapAll_cons _ t, outlineAll_cons _ (t.map _),
        List.append_assoc]

end

/-! ## The path of a round -/

/-- A reply with the solution of the board after it. -/
def replyTree (reply : Board) (solution : RoseTree Move) : RoseTree Move :=
  .node reply.lastMove [solution]

/-- The tree that `printPath` shows: the round's move, the replies, and their solutions. -/
def OneRound.pathTree (self : OneRound) (solutions : StaticForest Move) (fuel : ℕ) :
    Option (RoseTree Move) := do
  let maxStepState ← self.maxStepState
  let subtrees ← self.minStepSolutionTrees.mapM (solutionTree solutions fuel)
  some (.node maxStepState.lastMove (List.zipWith replyTree self.minStepStates subtrees))

/-- The rows of a list of trees: all but the first begin with blanks. -/
def rows (lead : String) (k : ℕ) (ts : List (RoseTree Move)) : List String :=
  (ts.zipIdx k).map fun x => (if x.2 > 0 then lead else "") ++ printTree lead x.1

section Path
variable {r : OneRound} {f : StaticForest Move} {fuel : ℕ} {lead : String}

theorem printTree_replyTree (lead : String) (reply : Board) (t : RoseTree Move) :
    printTree lead (replyTree reply t) =
      reply.lastMove.notationOf ++ "  " ++ printTree (lead ++ indent) t := by
  rw [replyTree, printTree, printTrees, printTrees, String.intercalate_singleton]
  simp

/-- A reply that has a solution is printed with it. -/
theorem printReply_eq {i t : ℕ} (ht : r.minStepSolutionTrees[i]? = some t) (reply : Board) :
    r.printReply f fuel lead i reply = (solutionTree f fuel t).map fun tree =>
      (if i > 0 then lead else "") ++ printTree lead (replyTree reply tree) := by
  unfold OneRound.printReply
  rw [ht]
  dsimp only
  rw [printSolution_eq]
  cases solutionTree f fuel t with
  | none => rfl
  | some tree =>
    rw [Option.map_some, Option.map_some, printTree_replyTree, ← String.append_assoc,
      ← String.append_assoc]
    rfl

variable (r f fuel lead) in
/-- The replies from one on, with their solutions. -/
theorem mapM_printReply (replies : List Board) (k : ℕ)
    (hlen : (r.minStepSolutionTrees.drop k).length = replies.length) :
    (replies.zipIdx k).mapM (fun x => r.printReply f fuel lead x.2 x.1) =
      ((r.minStepSolutionTrees.drop k).mapM (solutionTree f fuel)).map fun ts =>
        rows lead k (List.zipWith replyTree replies ts) := by
  induction replies generalizing k with
  | nil =>
    rw [List.length_nil, List.length_eq_zero_iff] at hlen
    rw [hlen]
    rfl
  | cons reply replies ih =>
    obtain ⟨t, rest, hdrop⟩ := List.exists_cons_of_length_eq_add_one hlen
    have ht : r.minStepSolutionTrees[k]? = some t := by
      rw [← List.head?_drop, hdrop]
      rfl
    have hrest : r.minStepSolutionTrees.drop (k + 1) = rest := by
      rw [← List.tail_drop, hdrop]
      rfl
    have hrec := ih (k + 1) (by rw [hrest]; rw [hdrop] at hlen; exact Nat.succ.inj hlen)
    rw [hrest] at hrec
    rw [List.zipIdx_cons, List.mapM_cons, hrec, printReply_eq ht, hdrop, List.mapM_cons]
    cases solutionTree f fuel t with
    | none => rfl
    | some tree => cases rest.mapM (solutionTree f fuel) <;> rfl

/-- The rows of all trees are the trees with blanks between them. -/
theorem join_rows (lead : String) (ts : List (RoseTree Move)) :
    String.join (rows lead 0 ts) = lead.intercalate (printTrees lead ts) := by
  have hlater : ∀ (ts : List (RoseTree Move)) (t : RoseTree Move) (k : ℕ),
      printTree lead t ++ String.join (rows lead (k + 1) ts) =
        lead.intercalate (printTrees lead (t :: ts)) := by
    intro ts
    induction ts with
    | nil =>
      intro t k
      rw [printTrees, printTrees, String.intercalate_singleton]
      exact String.append_empty
    | cons t' ts ih =>
      intro t k
      have hrow : rows lead (k + 1) (t' :: ts) =
          (lead ++ printTree lead t') :: rows lead (k + 1 + 1) ts := rfl
      rw [hrow, String.join_cons, String.append_assoc, ih t' (k + 1), printTrees_eq, printTrees_eq]
      simp only [List.map_cons]
      rw [String.intercalate_cons_cons, String.append_assoc]
  cases ts with
  | nil => rfl
  | cons t ts =>
    have hrow : rows lead 0 (t :: ts) = ("" ++ printTree lead t) :: rows lead (0 + 1) ts := rfl
    rw [hrow, String.join_cons, String.empty_append, hlater]

/-- The text of a path: after a first move that mates there is no `#`. -/
def pathText (level : ℕ) : RoseTree Move → String
  | .node m [] => m.notationOf ++ "  "
  | t => printTree (String.join (List.replicate (2 * level) indent)) t

/-- **`printPath` lays out the tree of the round.** -/
theorem printPath_eq (hlen : r.minStepSolutionTrees.length = r.minStepStates.length) :
    r.printPath f fuel = (r.pathTree f fuel).map (pathText r.level) := by
  unfold OneRound.printPath OneRound.pathTree
  cases r.maxStepState with
  | none => rfl
  | some s =>
    obtain ⟨lead, hlead⟩ : ∃ lead, lead = String.join (List.replicate (2 * r.level) indent) :=
      ⟨_, rfl⟩
    have hnext : String.join (List.replicate (2 * r.level + 1) indent) = lead ++ indent := by
      rw [hlead, List.replicate_succ', String.join_append, String.join_cons, String.join_nil,
        String.append_empty]
    have hreplies := mapM_printReply r f fuel (lead ++ indent) r.minStepStates 0
      (by rw [List.drop_zero]; exact hlen)
    rw [List.drop_zero] at hreplies
    simp only [Option.bind_eq_bind, Option.bind_some]
    rw [hnext, hreplies]
    cases r.minStepSolutionTrees.mapM (solutionTree f fuel) with
    | none => rfl
    | some ts =>
      show some (_ ++ String.join (rows (lead ++ indent) 0 _)) = some (pathText _ _)
      rw [join_rows]
      congr 1
      cases List.zipWith replyTree r.minStepStates ts with
      | nil =>
        rw [printTrees, String.intercalate_nil, String.append_empty]
        rfl
      | cons t rest =>
        rw [pathText, ← hlead, printTree]
        · simp
        · exact fun _ h => by cases h

/-- The text of a path is read from the column of its first move. -/
theorem readFrom_pathText (level : ℕ) (t : RoseTree Move) :
    readFrom (2 * level) (pathText level t) = [t.map Move.notationOf] := by
  have htree : ∀ t : RoseTree Move, readFrom (2 * level)
      (printTree (String.join (List.replicate (2 * level) indent)) t) = [t.map Move.notationOf] := by
    intro t
    have hcells := readCells_printTree (2 * level) t (isLead_join (2 * level)) []
    have houtline := read_outlineAll (2 * level) [t.map Move.notationOf]
    rw [outlineAll_cons, outlineAll_nil] at houtline
    rw [List.append_nil] at hcells
    rw [readFrom, hcells]
    exact houtline
  cases t with
  | node m ts =>
    cases ts with
    | nil =>
      have hcells :
          readCells (2 * level) (m.notationOf ++ "  ").toList = [(2 * level, m.notationOf)] := by
        rw [String.toList_append]
        exact readCells_move (2 * level) m []
      rw [pathText, readFrom, hcells]
      rfl
    | cons t ts => exact htree (.node m (t :: ts))

end Path

/-- **What `printPath` prints is read back as the tree of the round**: a text is printed
where there is a tree, and read from the column of the round's move it shows the
notations of the tree's moves, move for move and reply for reply. -/
theorem printPath_read (r : OneRound) (f : StaticForest Move) (fuel : ℕ)
    (hlen : r.minStepSolutionTrees.length = r.minStepStates.length) :
    (r.printPath f fuel).map (readFrom (2 * r.level)) =
      (r.pathTree f fuel).map fun t => [t.map Move.notationOf] := by
  rw [printPath_eq hlen, Option.map_map]
  congr 1
  funext t
  exact readFrom_pathText r.level t

/-- The rook drives the king into the corner, and mates there. -/
def OneRound.oneReply : OneRound :=
  let b := Board.ofText "kf7\nra2\nKh7\n"
  let s := b.makeMove (.ofBoard b .normalMove (1, 0) (1, 6))
  let reply := s.makeMove (.ofBoard s .normalMove (6, 7) (7, 7))
  { OneRound.create b false 0 none with
    maxStepState := some s
    minStepStates := [reply]
    minStepSolutionTrees := [0] }

/-- The solution of the reply. -/
def StaticForest.rookMates : StaticForest Move :=
  ⟨[⟨.ofBoard (Board.ofText "kf7\nrg2\nKh8\n") .normalMove (1, 6) (1, 7), []⟩]⟩

/-- The path of the round is read as a move, a reply and a mate. -/
theorem printPath_read_one_reply :
    (OneRound.oneReply.printPath .rookMates 1).map (readFrom 0) =
      some [.node " rg2" [.node " Kh8" [.node " rh2" []]]] := by
  have hread := printPath_read .oneReply .rookMates 1 rfl
  have htree : (OneRound.oneReply.pathTree .rookMates 1).map (fun t => [t.map Move.notationOf]) =
      some [.node " rg2" [.node " Kh8" [.node " rh2" []]]] := by rfl
  exact hread.trans htree

end Chess
