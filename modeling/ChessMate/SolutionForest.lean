import ChessMate.PathPrinter
import ChessMate.SearchTrace

/-! # The forest of solutions

`storeSolution` adds a node for the first-side move, which the solution map
remembers under the key of the position, and below it a node for each reply,
which gets the solution of the board after it as its only child.  As long as the
key is new, the new nodes come after all others and the old ones stay as they
are (`storeSolution_container`).  Then each stored solution is a proof tree
(`solutions_are_proof_trees`), and every path through the forest ends, because a
reply's solution was there before it (`forest_acyclic`).

When the key is known already, `addSolutionNode` returns the older node, and the
replies are added below that one.  Nothing prevents it: a position that was
solved at a height that is not cached, or at a greater height, is solved and
stored again.  Then a node has the replies of two moves, and a position can come
to lie below itself (`solutions_mixed`, `forest_cyclic`).
-/
namespace Chess
open ProgramLogic Relation

/-! ## Nodes and children -/

namespace StaticForest
variable {α : Type}

/-- The forest has an edge from `i` down to `j`. -/
def Child (f : StaticForest α) (j i : ℕ) : Prop := ∃ node, f.node? i = some node ∧ j ∈ node.children

/-- All children are nodes, and every path downwards ends. -/
structure Grounded (f : StaticForest α) : Prop where
  closed : ∀ {i j}, f.Child j i → j < f.size
  acc : ∀ i, Acc f.Child i

theorem grounded_clear : (clear : StaticForest α).Grounded where
  closed := by
    rintro i j ⟨node, hnode, -⟩
    cases hnode
  acc i := by
    refine ⟨i, ?_⟩
    rintro j ⟨node, hnode, -⟩
    cases hnode

/-- **No node of a grounded forest lies below itself.** -/
theorem Grounded.not_below_self {f : StaticForest α} (h : f.Grounded) (i : ℕ) :
    ¬ TransGen f.Child i i := by
  have hwf : WellFounded (TransGen f.Child) := WellFounded.transGen ⟨h.acc⟩
  exact hwf.irrefl.irrefl i

theorem Grounded.acc_append {C D : List (ForestNode α)} (h : (⟨C⟩ : StaticForest α).Grounded) {i : ℕ}
    (hi : i < C.length) : Acc (⟨C ++ D⟩ : StaticForest α).Child i := by
  induction h.acc i with
  | intro i _ ih =>
    refine ⟨i, ?_⟩
    rintro j ⟨node, hnode, hj⟩
    rw [node?_append_left hi] at hnode
    exact ih j ⟨node, hnode, hj⟩ (h.closed ⟨node, hnode, hj⟩)

end StaticForest

/-! ## What storing a solution adds -/

theorem modify_append_cons {α : Type} (f : α → α) (x : α) (C D : List α) {i : ℕ}
    (hi : i = C.length) : (C ++ x :: D).modify i f = C ++ f x :: D := by
  subst hi
  induction C with
  | nil => rfl
  | cons y C ih => simp [ih]

namespace SolutionCache
variable {κ : Type}

/-- The node of a reply, with the solution of the board after it. -/
def replyNode (b : Board) (t : ℕ) : ForestNode Move := ⟨b.lastMove, [t]⟩

theorem storeReplies_container (m : Move) (C : List (ForestNode Move)) :
    ∀ (boards : List Board) (trees : List ℕ), boards.length = trees.length →
    ∀ (cs : List ℕ) (D : List (ForestNode Move)) (self : SolutionCache κ),
      self.solutions.container = C ++ ⟨m, cs⟩ :: D →
      (self.storeReplies C.length boards trees).solutions.container =
        C ++ ⟨m, cs ++ List.range' (C.length + 1 + D.length) boards.length⟩ ::
          (D ++ List.zipWith replyNode boards trees) := by
  intro boards
  induction boards with
  | nil =>
    intro trees _ cs D self h
    simp only [storeReplies, List.length_nil, List.range'_zero, List.append_nil,
      List.zipWith_nil_left]
    exact h
  | cons b boards ih =>
    intro trees hlen cs D self h
    cases trees with
    | nil => cases hlen
    | cons t trees =>
      have hidx : (self.addReplyNode b).1 = C.length + 1 + D.length := by
        show self.solutions.container.length = _
        rw [h]
        simp only [List.length_append, List.length_cons]
        omega
      -- the node of the reply, as a child of the parent, with its own child
      have hnode : (((self.addReplyNode b).2.addSolutionChild C.length (self.addReplyNode b).1
          ).addSolutionChild (self.addReplyNode b).1 t).solutions.container =
          C ++ ⟨m, cs ++ [C.length + 1 + D.length]⟩ :: (D ++ [replyNode b t]) := by
        have hadd : (self.addReplyNode b).2.solutions.container =
            C ++ ⟨m, cs⟩ :: (D ++ [⟨b.lastMove, []⟩]) := by
          show self.solutions.container ++ [_] = _
          rw [h, List.append_assoc]
          rfl
        simp only [addSolutionChild, StaticForest.addChild, hadd, hidx]
        rw [modify_append_cons _ _ _ _ rfl]
        have hsplit : C ++ ⟨m, cs ++ [C.length + 1 + D.length]⟩ ::
            (D ++ [(⟨b.lastMove, []⟩ : ForestNode Move)]) =
            (C ++ ⟨m, cs ++ [C.length + 1 + D.length]⟩ :: D) ++ ⟨b.lastMove, []⟩ :: [] := by
          rw [List.append_assoc]
          rfl
        have hlength : C.length + 1 + D.length =
            (C ++ (⟨m, cs ++ [C.length + 1 + D.length]⟩ : ForestNode Move) :: D).length := by
          simp only [List.length_append, List.length_cons]
          omega
        rw [hsplit, modify_append_cons _ _ _ _ hlength, List.append_assoc]
        rfl
      have hrec := ih trees (Nat.succ.inj hlen) _ _ _ hnode
      rw [storeReplies]
      refine hrec.trans ?_
      simp only [List.length_append, List.length_cons, List.length_nil, List.append_assoc,
        List.zipWith_cons_cons, List.singleton_append, List.range'_succ, Nat.zero_add,
        Nat.add_assoc]

/-- What a stored solution adds to the forest. -/
def solutionNodes (size : ℕ) (s : Board) (boards : List Board) (trees : List ℕ) :
    List (ForestNode Move) :=
  ⟨s.lastMove, List.range' (size + 1) boards.length⟩ :: List.zipWith replyNode boards trees

variable [DecidableEq κ]

/-- **A solution with a new key** is added after all other nodes. -/
theorem storeSolution_container (self : SolutionCache κ) {key : κ} (hkey : self.solutionMap key = none)
    (s : Board) {boards : List Board} {trees : List ℕ} (hlen : boards.length = trees.length) :
    (self.storeSolution key s boards trees).2.solutions.container =
        self.solutions.container ++ solutionNodes self.solutions.size s boards trees ∧
      (self.storeSolution key s boards trees).2.solutionMap =
        Function.update self.solutionMap key (some self.solutions.size) := by
  have hadd : self.addSolutionNode key s = (self.solutions.size, { self with
      solutions := ⟨self.solutions.container ++ [⟨s.lastMove, []⟩]⟩
      solutionMap := Function.update self.solutionMap key (some self.solutions.size) }) := by
    unfold addSolutionNode
    rw [hkey]
    rfl
  unfold storeSolution
  rw [hadd]
  refine ⟨?_, (storeReplies_maps _ boards trees _).1⟩
  exact storeReplies_container s.lastMove self.solutions.container boards trees hlen [] [] _ rfl

end SolutionCache

/-! ## What a step of a search does to the forest -/

section Steps
variable {κ : Type}

/-- **Every solution was stored under a key that was new.** -/
def World.FreshStores (w : World κ) : Prop :=
  ∀ key r cache, Event.store key r cache ∈ w.trace → cache.solutionMap key = none

variable [DecidableEq κ] {hash : (Fin 8 → Fin 8 → PieceType) → κ}
variable {flags : Flags} {P : AttackState → Prop} {bound : Bool → ℕ} {w w' : World κ}

theorem Step.freshStores (h : Step hash flags P bound w w') (hfresh : w'.FreshStores) :
    w.FreshStores :=
  fun key r cache hmem => hfresh key r cache (h.trace_mono _ hmem)

/-- A round that was solved is stored. -/
structure StoresSolution (hash : (Fin 8 → Fin 8 → PieceType) → κ) (flags : Flags)
    (P : AttackState → Prop) (w w' : World κ) (r : OneRound) (s : Board) : Prop where
  region : P r.attackState
  maxStepState : r.maxStepState = some s
  solved : r.Solved hash flags w.cache
  event : ∃ cache, Event.store (hash r.curBoard.positions) r cache ∈ w'.trace
  container : w'.cache.solutions.container = w.cache.solutions.container ++
    SolutionCache.solutionNodes w.cache.solutions.size s r.minStepStates r.minStepSolutionTrees
  solutionMap : w'.cache.solutionMap = Function.update w.cache.solutionMap
    (hash r.curBoard.positions) (some w.cache.solutions.size)
  fresh : w.cache.solutionMap (hash r.curBoard.positions) = none

theorem StoresSolution.forest_eq {r : OneRound} {s : Board}
    (h : StoresSolution hash flags P w w' r s) :
    w'.cache.solutions = ⟨w.cache.solutions.container ++ SolutionCache.solutionNodes
      w.cache.solutions.container.length s r.minStepStates r.minStepSolutionTrees⟩ :=
  congrArg StaticForest.mk h.container

/-- The score maps are updated first, which leaves the forest alone. -/
theorem World.recorded_eq_stored (flags : Flags) (w : World κ) (child : OneRound) (sig : κ)
    (height : ℕ) (r : OneRound) (s : Board) :
    ∃ w₁ : World κ, w.recorded flags child sig height r s = w₁.stored sig r s ∧
      w₁.cache.solutions = w.cache.solutions ∧ w₁.cache.solutionMap = w.cache.solutionMap := by
  unfold World.recorded
  split_ifs
  · exact ⟨_, rfl, SolutionCache.solutions_updateCache _ _ _ _ _ _,
      SolutionCache.solutionMap_updateCache _ _ _ _ _ _⟩
  · exact ⟨_, rfl, rfl, rfl⟩

/-- **A step leaves the forest alone or stores the solution of a round**, under a
new key if all keys are. -/
theorem Step.forest_cases (h : Step hash flags P bound w w') (hfresh : w'.FreshStores) :
    (w'.cache.solutions = w.cache.solutions ∧ w'.cache.solutionMap = w.cache.solutionMap) ∨
      ∃ r s, StoresSolution hash flags P w w' r s := by
  cases h with
  | note event h => exact Or.inl ⟨rfl, rfl⟩
  | lookup mm r sig height ha hp h => exact Or.inl ⟨rfl, rfl⟩
  | update h hmate =>
    exact Or.inl ⟨SolutionCache.solutions_updateCache _ _ _ _ _ _,
      SolutionCache.solutionMap_updateCache _ _ _ _ _ _⟩
  | @solved child sig height r s h hstate hs hsolved =>
    have hboard : r.curBoard = child.curBoard := congrArg AttackState.curBoard hstate
    obtain rfl : sig = hash r.curBoard.positions := by
      rw [hboard]; exact h.about.2.2
    obtain ⟨w₁, hw₁, hsol, hmap⟩ :=
      World.recorded_eq_stored flags w child (hash r.curBoard.positions) height r s
    rw [hw₁] at hfresh ⊢
    have hevent : Event.store (hash r.curBoard.positions) r w₁.cache ∈
      (w₁.stored (hash r.curBoard.positions) r s).trace := List.mem_cons_self
    have hnew := hfresh _ _ _ hevent
    obtain ⟨hcontainer, hmap'⟩ := SolutionCache.storeSolution_container w₁.cache hnew s
      (hsolved.trees.length_eq)
    refine Or.inr ⟨r, s, ?_⟩
    exact
      { region := hstate ▸ h.about.1
        maxStepState := hs
        solved := hsolved
        event := ⟨_, hevent⟩
        container := by rw [← hsol]; exact hcontainer
        solutionMap := by rw [← hsol, ← hmap]; exact hmap'
        fresh := hmap ▸ hnew }

end Steps

/-! ## Every path ends -/

section Acyclic
variable {C : List (ForestNode Move)} {s : Board} {boards : List Board} {trees : List ℕ}

theorem node?_store_cases {i : ℕ} {node : ForestNode Move}
    (h : (⟨C ++ SolutionCache.solutionNodes C.length s boards trees⟩ : StaticForest Move).node? i =
      some node) :
    (i < C.length ∧ (⟨C⟩ : StaticForest Move).node? i = some node) ∨
      (i = C.length ∧ node = ⟨s.lastMove, List.range' (C.length + 1) boards.length⟩) ∨
      (C.length < i ∧ ∃ b, ∃ t ∈ trees, node = SolutionCache.replyNode b t) := by
  rcases Nat.lt_trichotomy i C.length with hi | hi | hi
  · rw [StaticForest.node?_append_left hi] at h
    exact Or.inl ⟨hi, h⟩
  · subst hi
    refine Or.inr (Or.inl ⟨rfl, ?_⟩)
    unfold StaticForest.node? at h
    rw [List.getElem?_append_right (le_refl _), Nat.sub_self] at h
    exact (Option.some.inj h).symm
  · obtain ⟨q, rfl⟩ : ∃ q, i = C.length + (q + 1) := ⟨i - C.length - 1, by omega⟩
    refine Or.inr (Or.inr ⟨hi, ?_⟩)
    unfold StaticForest.node? at h
    rw [List.getElem?_append_right (Nat.le_add_right _ _), Nat.add_sub_cancel_left] at h
    obtain ⟨b, t, -, ht, hnode⟩ := List.getElem?_zipWith_eq_some.mp h
    exact ⟨b, t, List.mem_of_getElem? ht, hnode.symm⟩

/-- **A stored solution keeps the forest grounded**: its replies lead to nodes that
were there before. -/
theorem StaticForest.Grounded.store (h : (⟨C⟩ : StaticForest Move).Grounded)
    (hlen : boards.length = trees.length) (htrees : ∀ t ∈ trees, t < C.length) :
    (⟨C ++ SolutionCache.solutionNodes C.length s boards trees⟩ : StaticForest Move).Grounded := by
  have hsize : (⟨C ++ SolutionCache.solutionNodes C.length s boards trees⟩ :
      StaticForest Move).size = C.length + 1 + boards.length := by
    simp only [StaticForest.size, SolutionCache.solutionNodes, List.length_append, List.length_cons,
      List.length_zipWith, hlen, Nat.min_self]
    omega
  have hreply : ∀ i, C.length < i →
      Acc (⟨C ++ SolutionCache.solutionNodes C.length s boards trees⟩ : StaticForest Move).Child i := by
    intro i hi
    refine ⟨i, ?_⟩
    rintro j ⟨node, hnode, hj⟩
    rcases node?_store_cases hnode with ⟨hi', -⟩ | ⟨hi', -⟩ | ⟨-, b, t, ht, rfl⟩
    · omega
    · omega
    · rw [List.mem_singleton.mp hj]
      exact h.acc_append (htrees t ht)
  constructor
  · rintro i j ⟨node, hnode, hj⟩
    rw [hsize]
    rcases node?_store_cases hnode with ⟨-, hnode⟩ | ⟨-, rfl⟩ | ⟨-, b, t, ht, rfl⟩
    · have hlt : j < C.length := h.closed ⟨node, hnode, hj⟩
      omega
    · have hrange := List.mem_range'_1.mp hj
      omega
    · rw [List.mem_singleton.mp hj]
      have hlt := htrees t ht
      omega
  · intro i
    rcases Nat.lt_trichotomy i C.length with hi | hi | hi
    · exact h.acc_append hi
    · refine ⟨i, ?_⟩
      rintro j ⟨node, hnode, hj⟩
      rcases node?_store_cases hnode with ⟨hi', -⟩ | ⟨-, rfl⟩ | ⟨hi', -⟩
      · omega
      · exact hreply j (by have := List.mem_range'_1.mp hj; omega)
      · omega
    · exact hreply i hi

variable {κ : Type}

/-- Under new keys the forest is grounded, and the solution map leads into it. -/
structure World.ForestOk (w : World κ) : Prop where
  grounded : w.cache.solutions.Grounded
  inside : ∀ sig t, w.cache.solutionMap sig = some t → t < w.cache.solutions.size

theorem World.ForestOk.initial : (World.initial : World κ).ForestOk where
  grounded := StaticForest.grounded_clear
  inside sig t h := by cases h

variable [DecidableEq κ] {hash : (Fin 8 → Fin 8 → PieceType) → κ}
variable {flags : Flags} {P : AttackState → Prop} {bound : Bool → ℕ}

/-- **Every step of a search keeps the forest grounded**, as long as the keys are new. -/
theorem stable_forestOk :
    Stable (Step hash flags P bound) fun w => w.FreshStores → w.ForestOk := by
  intro w w' h hw hfresh
  obtain ⟨hgrounded, hinside⟩ := hw (h.freshStores hfresh)
  rcases h.forest_cases hfresh with ⟨hsol, hmap⟩ | ⟨r, s, hst⟩
  · refine ⟨hsol ▸ hgrounded, fun sig t ht => ?_⟩
    rw [hsol]
    exact hinside sig t (hmap ▸ ht)
  · have htrees : ∀ t ∈ r.minStepSolutionTrees, t < w.cache.solutions.container.length := by
      intro t ht
      obtain ⟨sig, hsig⟩ := hst.solved.trees.stored t ht
      exact hinside sig t hsig
    refine ⟨?_, fun sig t ht => ?_⟩
    · rw [hst.forest_eq]
      exact hgrounded.store hst.solved.trees.length_eq htrees
    · have hsize : w.cache.solutions.size < w'.cache.solutions.size := by
        rw [hst.forest_eq]
        simp only [StaticForest.size, SolutionCache.solutionNodes, List.length_append,
          List.length_cons]
        omega
      rw [hst.solutionMap, Function.update_apply] at ht
      split_ifs at ht
      · rw [← Option.some.inj ht]
        exact hsize
      · exact lt_trans (hinside sig t ht) hsize

end Acyclic

/-! ## Proof trees -/

section ProofTrees
variable {κ : Type}

/-- **The node is the root of a proof tree for the board**, with the first side to
move: it has a legal move, its children are the legal replies to it, each once, and
if there are none the move mates.  Each reply has one child, the solution that is
stored for the board after it. -/
structure ProofTree (hash : (Fin 8 → Fin 8 → PieceType) → κ) (flags : Flags) (cache : SolutionCache κ)
    (first : Bool) (b : Board) (t : ℕ) (m : Move) (children : List ℕ) : Prop where
  node : cache.solutions.node? t = some ⟨m, children⟩
  legal : b.IsLegal flags first m
  once : children.Nodup ∧ ((b.makeMove m).legalMoves flags (!first)).Nodup
  replies : List.Forall₂ (fun child m' => ∃ t', cache.solutions.node? child = some ⟨m', [t']⟩ ∧
      cache.solutionMap (hash ((b.makeMove m).makeMove m').positions) = some t')
    children ((b.makeMove m).legalMoves flags (!first))
  mate : (b.makeMove m).legalMoves flags (!first) = [] →
    (b.makeMove m).isChecked (!first) = true

/-- Every stored solution is a proof tree for the board that it was stored for. -/
def World.ProofTrees (hash : (Fin 8 → Fin 8 → PieceType) → κ) (flags : Flags) (first : Bool)
    (w : World κ) : Prop :=
  ∀ sig t, w.cache.solutionMap sig = some t →
    ∃ r cache, Event.store sig r cache ∈ w.trace ∧ sig = hash r.curBoard.positions ∧
      r.blackFirst = first ∧ ∃ m children, ProofTree hash flags w.cache first r.curBoard t m children

variable {hash : (Fin 8 → Fin 8 → PieceType) → κ} {flags : Flags} {first : Bool}

/-- A proof tree stays one when nodes and keys are only added. -/
theorem ProofTree.mono {cache cache' : SolutionCache κ} {b : Board} {t : ℕ} {m : Move}
    {children : List ℕ} (h : ProofTree hash flags cache first b t m children)
    (hnode : ∀ i node, cache.solutions.node? i = some node → cache'.solutions.node? i = some node)
    (hmap : ∀ sig t, cache.solutionMap sig = some t → cache'.solutionMap sig = some t) :
    ProofTree hash flags cache' first b t m children where
  node := hnode _ _ h.node
  legal := h.legal
  once := h.once
  replies := h.replies.imp fun _ _ ⟨t', hchild, ht'⟩ => ⟨t', hnode _ _ hchild, hmap _ _ ht'⟩
  mate := h.mate

/-- The nodes of the replies stand in their order, each with its solution. -/
theorem reply_nodes {s : Board} {Q : Board → ℕ → Prop} : ∀ (ms : List Move) {trees : List ℕ}
    (D : List (ForestNode Move)), List.Forall₂ Q (ms.map s.makeMove) trees →
    List.Forall₂ (fun child m' => ∃ t',
        (⟨D ++ List.zipWith SolutionCache.replyNode (ms.map s.makeMove) trees⟩ :
          StaticForest Move).node? child = some ⟨m', [t']⟩ ∧ Q (s.makeMove m') t')
      (List.range' D.length ms.length) ms := by
  intro ms
  induction ms with
  | nil => exact fun D _ => .nil
  | cons m ms ih =>
    intro trees D h
    cases h with
    | @cons _ t _ trees hhead htail =>
      refine .cons ⟨t, ?_, hhead⟩ ?_
      · show (D ++ SolutionCache.replyNode (s.makeMove m) t :: _)[D.length]? = _
        rw [List.getElem?_append_right (le_refl _), Nat.sub_self]
        rfl
      · have hrec := ih (D ++ [SolutionCache.replyNode (s.makeMove m) t]) htail
        rw [List.length_append, List.append_assoc] at hrec
        exact hrec

/-- The positions of one first side, on boards that play reaches. -/
def AttackState.SoundFor (first : Bool) (a : AttackState) : Prop := a.Sound ∧ a.blackFirst = first

theorem region_soundFor (flags : Flags) (first : Bool) :
    Region flags (AttackState.SoundFor first) :=
  fun a ha m hm hc m' hm' => ⟨region_sound flags a ha.1 m hm hc m' hm', ha.2⟩

variable [DecidableEq κ] {bound : Bool → ℕ} {w w' : World κ}

/-- The old nodes stay as they are. -/
theorem StoresSolution.node?_mono {P : AttackState → Prop} {r : OneRound} {s : Board}
    (h : StoresSolution hash flags P w w' r s) {i : ℕ} {node : ForestNode Move}
    (hnode : w.cache.solutions.node? i = some node) : w'.cache.solutions.node? i = some node := by
  rw [h.forest_eq]
  exact StaticForest.node?_append hnode

/-- The old keys keep their solutions. -/
theorem StoresSolution.solutionMap_mono {P : AttackState → Prop} {r : OneRound} {s : Board}
    (h : StoresSolution hash flags P w w' r s) {sig : κ} {t : ℕ}
    (ht : w.cache.solutionMap sig = some t) : w'.cache.solutionMap sig = some t := by
  rw [h.solutionMap, Function.update_of_ne]
  · exact ht
  · rintro rfl
    rw [h.fresh] at ht
    cases ht

/-- **What is stored under a new key is a proof tree.** -/
theorem StoresSolution.proofTree {r : OneRound} {s : Board}
    (h : StoresSolution hash flags (AttackState.SoundFor first) w w' r s) :
    ∃ m children, ProofTree hash flags w'.cache first r.curBoard w.cache.solutions.size m children := by
  obtain ⟨hsound, hfirst⟩ := h.region
  obtain ⟨m, hm, -, hmade⟩ := h.solved.move
  obtain rfl : r.curBoard.makeMove m = s := Option.some.inj (hmade.symm.trans h.maxStepState)
  rw [AttackState.tried_eq hsound, Board.mem_legalMoves] at hm
  have hplayed := played_of_attack hsound hm
  have hreplies := h.solved.replies _ h.maxStepState
  have hlegal : (r.defenceState (r.curBoard.makeMove m)).replies flags =
      (r.curBoard.makeMove m).legalMoves flags (!first) := by
    rw [← hfirst]
    exact hplayed.replies_eq
  rw [hlegal] at hreplies
  have htrees := h.solved.trees
  unfold OneRound.Trees at htrees
  rw [hreplies] at htrees
  have hcontainer := h.container
  rw [hreplies, SolutionCache.solutionNodes, List.append_cons, List.length_map] at hcontainer
  have hnodes := reply_nodes _ (w.cache.solutions.container ++ [⟨m, List.range'
    (w.cache.solutions.size + 1) ((r.curBoard.makeMove m).legalMoves flags (!first)).length⟩]) htrees
  have hforest : w'.cache.solutions = ⟨_⟩ := congrArg StaticForest.mk hcontainer
  refine ⟨m, List.range' (w.cache.solutions.size + 1)
    ((r.curBoard.makeMove m).legalMoves flags (!first)).length, ?_⟩
  exact
    { node := by
        rw [hforest]
        show (_ ++ _)[w.cache.solutions.container.length]? = _
        rw [List.append_assoc, List.getElem?_append_right (le_refl _), Nat.sub_self]
        rfl
      legal := hfirst ▸ hm
      once := ⟨List.nodup_range', Board.nodup_legalMoves _ _ _⟩
      replies := by
        rw [hforest]
        rw [List.length_append] at hnodes
        refine hnodes.imp fun _ _ ⟨t', hchild, ht'⟩ => ⟨t', hchild, h.solutionMap_mono ht'⟩
      mate := by
        intro hnil
        rw [hnil, List.map_nil] at hreplies
        have hmated := h.solved.mated _ h.maxStepState hreplies
        rw [← hfirst]
        exact hplayed.checked_eq.symm.trans hmated }

/-- **Every step of a search keeps the stored solutions proof trees**, as long as the
keys are new. -/
theorem stable_proofTrees :
    Stable (Step hash flags (AttackState.SoundFor first) bound) fun w =>
      w.FreshStores → w.ProofTrees hash flags first := by
  intro w w' h hw hfresh
  have hold := hw (h.freshStores hfresh)
  intro sig t ht
  rcases h.forest_cases hfresh with ⟨hsol, hmap⟩ | ⟨r, s, hst⟩
  · obtain ⟨r, cache, hevent, hsig, hfirst, m, children, htree⟩ := hold sig t (hmap ▸ ht)
    refine ⟨r, cache, h.trace_mono _ hevent, hsig, hfirst, m, children, ?_⟩
    exact htree.mono (fun i node hnode => hsol ▸ hnode) fun sig t ht => hmap ▸ ht
  · by_cases hkey : sig = hash r.curBoard.positions
    · subst hkey
      rw [hst.solutionMap, Function.update_self] at ht
      obtain rfl := Option.some.inj ht
      obtain ⟨cache, hevent⟩ := hst.event
      exact ⟨r, cache, hevent, rfl, hst.region.2, hst.proofTree⟩
    · rw [hst.solutionMap, Function.update_of_ne hkey] at ht
      obtain ⟨r', cache, hevent, hsig, hfirst, m, children, htree⟩ := hold sig t ht
      refine ⟨r', cache, h.trace_mono _ hevent, hsig, hfirst, m, children, ?_⟩
      exact htree.mono (fun i node => hst.node?_mono) fun sig t => hst.solutionMap_mono

end ProofTrees

/-! ## Printing -/

section Printing
variable {f : StaticForest Move}

/-- With this much fuel the solution is printed, and more fuel changes nothing. -/
def Prints (f : StaticForest Move) (fuel i : ℕ) : Prop :=
  ∀ lead, ∃ text, ∀ more, printSolution f (fuel + more) i lead = some text

theorem exists_prints_all : ∀ {cs : List ℕ}, (∀ c ∈ cs, ∃ fuel, Prints f fuel c) →
    ∃ fuel, ∀ lead, ∃ texts, ∀ more,
      cs.mapM (fun c => printSolution f (fuel + more) c lead) = some texts := by
  intro cs
  induction cs with
  | nil => exact fun _ => ⟨0, fun lead => ⟨[], fun more => rfl⟩⟩
  | cons c cs ih =>
    intro hall
    obtain ⟨fuel, hfuel⟩ := hall c List.mem_cons_self
    obtain ⟨fuel', hfuel'⟩ := ih fun c' hc' => hall c' (List.mem_cons_of_mem c hc')
    refine ⟨fuel + fuel', fun lead => ?_⟩
    obtain ⟨text, htext⟩ := hfuel lead
    obtain ⟨texts, htexts⟩ := hfuel' lead
    refine ⟨text :: texts, fun more => ?_⟩
    have h1 := htext (fuel' + more)
    have h2 := htexts (fuel + more)
    rw [← Nat.add_assoc] at h1
    rw [← Nat.add_assoc, Nat.add_comm fuel' fuel] at h2
    rw [List.mapM_cons, h1, h2]
    rfl

/-- **In a grounded forest every solution is printed.** -/
theorem StaticForest.Grounded.prints (h : f.Grounded) {i : ℕ} (hi : i < f.size) :
    ∃ fuel, Prints f fuel i := by
  induction h.acc i with
  | intro i _ ih =>
    obtain ⟨node, hnode⟩ : ∃ node, f.node? i = some node := ⟨_, List.getElem?_eq_getElem hi⟩
    have hall : ∀ c ∈ node.children, ∃ fuel, Prints f fuel c := fun c hc =>
      ih c ⟨node, hnode, hc⟩ (h.closed ⟨node, hnode, hc⟩)
    obtain ⟨fuel, hfuel⟩ := exists_prints_all hall
    refine ⟨fuel + 1, fun lead => ?_⟩
    obtain ⟨texts, htexts⟩ := hfuel (lead ++ indent)
    refine ⟨node.data.notationOf ++ "  " ++ (if node.children = [] then "#\n" else "") ++
      (lead ++ indent).intercalate texts, fun more => ?_⟩
    rw [Nat.add_right_comm, printSolution, hnode]
    dsimp only
    rw [htexts more]
    rfl

theorem mapM_eq_none_of_mem {α β : Type} {g : α → Option β} : ∀ {l : List α} {x : α}, x ∈ l →
    g x = none → l.mapM g = none := by
  intro l
  induction l with
  | nil => intro x hx; cases hx
  | cons y l ih =>
    intro x hx hnone
    rw [List.mapM_cons]
    rcases List.mem_cons.mp hx with rfl | hx
    · rw [hnone]; rfl
    · rw [ih hx hnone]
      cases g y <;> rfl

/-- **A solution that lies below itself is never printed.** -/
theorem printSolution_of_below_self : ∀ (fuel : ℕ) {i : ℕ} (lead : String),
    TransGen f.Child i i → printSolution f fuel i lead = none := by
  intro fuel
  induction fuel with
  | zero => intro i lead _; rfl
  | succ fuel ih =>
    intro i lead hi
    -- the last step of the cycle goes to a child, which lies below itself too
    obtain ⟨c, hc, hbelow⟩ : ∃ c, f.Child c i ∧ TransGen f.Child c c := by
      rcases TransGen.tail'_iff.mp hi with ⟨c, hic, hci⟩
      refine ⟨c, hci, ?_⟩
      exact TransGen.head' hci hic
    obtain ⟨node, hnode, hmem⟩ := hc
    rw [printSolution, hnode]
    dsimp only
    rw [mapM_eq_none_of_mem hmem (ih _ hbelow)]
    rfl

end Printing

/-! ## The forest of a run -/

/-- **The solution forest is acyclic, and printing ends**, if every solution of the
run was stored under a new key. -/
theorem forest_acyclic {κ : Type} [DecidableEq κ] (flags : Flags) (order : MoveOrder)
    (hash : (Fin 8 → Fin 8 → PieceType) → κ) {searches : List Search}
    {results : List (Int × OneRound)} {w : World κ}
    (h : Returns (runSearches flags order hash searches) World.initial results w)
    (hfresh : w.FreshStores) :
    (∀ i, ¬ TransGen w.cache.solutions.Child i i) ∧
      ∀ result ∈ results, ∀ t ∈ result.2.minStepSolutionTrees, ∀ lead, ∃ fuel text, ∀ more,
        printSolution w.cache.solutions (fuel + more) t lead = some text := by
  obtain ⟨N, hN⟩ := exists_levels_le searches
  have hruns : Runs True (Step hash flags (fun _ => True) fun _ => N) (fun w => w.cache.Known)
      (runSearches flags order hash searches) _ :=
    runSearches_runs (region_all flags) searches fun s hs => ⟨trivial, hN s hs, Or.inl trivial⟩
  obtain ⟨-, ⟨-, hposts⟩, hforest⟩ := (hruns.frame stable_forestOk).of_returns
    ⟨SolutionCache.known_initial, fun _ => World.ForestOk.initial⟩ h
  have hok := hforest hfresh
  refine ⟨hok.grounded.not_below_self, fun result hresult t ht lead => ?_⟩
  obtain ⟨search, hpost⟩ : ∃ search : Search,
      ExpandPost hash flags search.moves search.rootRound result w := by
    obtain ⟨i, hi⟩ := List.mem_iff_get.mp hresult
    exact ⟨_, hi ▸ (List.forall₂_iff_get.mp hposts).2 i.1 (by
      rw [hposts.length_eq]; exact i.2) i.2⟩
  obtain ⟨sig, hsig⟩ := hpost.stored t ht
  obtain ⟨fuel, hfuel⟩ := hok.grounded.prints (hok.inside sig t hsig)
  obtain ⟨text, htext⟩ := hfuel lead
  exact ⟨fuel, text, htext⟩

/-- **Stored solutions are proof trees**, if every solution of the run was stored under
a new key. -/
theorem solutions_are_proof_trees {κ : Type} [DecidableEq κ] (flags : Flags) (order : MoveOrder)
    (hash : (Fin 8 → Fin 8 → PieceType) → κ) {first : Bool} {searches : List Search}
    (hroots : ∀ s ∈ searches, s.board.FileLoaded ∧ s.board.isChecked (!first) = false ∧
      s.blackFirst = first)
    {results : List (Int × OneRound)} {w : World κ}
    (h : Returns (runSearches flags order hash searches) World.initial results w)
    (hfresh : w.FreshStores) : w.ProofTrees hash flags first := by
  obtain ⟨N, hN⟩ := exists_levels_le searches
  have hwithin : ∀ s ∈ searches, s.Within True (AttackState.SoundFor first) N := by
    intro s hs
    obtain ⟨hloaded, hsecond, rfl⟩ := hroots s hs
    exact ⟨⟨hloaded.playable hsecond, rfl⟩, hN s hs, Or.inl trivial⟩
  have hruns : Runs True (Step hash flags (AttackState.SoundFor first) fun _ => N)
      (fun w => w.cache.Known) (runSearches flags order hash searches) _ :=
    runSearches_runs (region_soundFor flags first) searches hwithin
  have hinitial : (World.initial : World κ).ProofTrees hash flags first := by
    intro sig t ht
    cases ht
  obtain ⟨-, -, htrees⟩ := (hruns.frame stable_proofTrees).of_returns
    ⟨SolutionCache.known_initial, fun _ => hinitial⟩ h
  exact htrees hfresh

/-- A solution that is stored has a new key. -/
def Event.fresh {κ : Type} : Event κ → Bool
  | .store key _ cache => (cache.solutionMap key).isNone
  | _ => true

theorem World.freshStores_of_all {κ : Type} {w : World κ} (h : w.trace.all Event.fresh = true) :
    w.FreshStores := by
  intro key r cache hmem
  exact Option.isNone_iff_eq_none.mp (List.all_eq_true.mp h _ hmem)

/-- The moved piece gives check. -/
def OneRound.givesCheck (self : OneRound) (m : Move) : Bool :=
  let board := m.apply self.curBoard
  Piece.canAttack ⟨m.newType, m.toPos⟩ board (board.kingPosition (!self.blackFirst))

/-- Checks are tried first, as by the estimates, and equal moves as they are generated. -/
def MoveOrder.checksFirst : MoveOrder where
  sort self moves := moves.filter self.givesCheck ++ moves.filter fun m => !self.givesCheck m
  perm _ _ := List.filter_append_perm _ _

/-- White to move and mate, with the black king in the corner. -/
def Search.corner : Search := ⟨Board.ofText "kb6\nrc7\npd7\nKa8\n", false, 3⟩

/-- The same with the black king beside the corner. -/
def Search.besideCorner : Search := ⟨Board.ofText "kb6\nrc7\npd7\nKb8\n", false, 3⟩

/-- Two positions are solved from the corner, one by way of the other. -/
theorem forest_acyclic_corner :
    ∃ results w, Returns (runSearches Flags.default .checksFirst placementKey [Search.corner])
        World.initial results w ∧ w.FreshStores ∧
      (∀ i, ¬ TransGen w.cache.solutions.Child i i) ∧
      ∀ result ∈ results, ∀ t ∈ result.2.minStepSolutionTrees, ∀ lead, ∃ fuel text, ∀ more,
        printSolution w.cache.solutions (fuel + more) t lead = some text := by
  have hrun : test (runSearches Flags.default .checksFirst placementKey [Search.corner])
      World.initial (fun _ w => w.trace.all Event.fresh) = true := by decide +kernel
  obtain ⟨results, w, hret, hall⟩ := returns_of_test hrun
  have hfresh := World.freshStores_of_all hall
  exact ⟨results, w, hret, hfresh,
    forest_acyclic Flags.default .checksFirst placementKey hret hfresh⟩

/-- The solutions that are stored from the corner are proof trees. -/
theorem solutions_are_proof_trees_corner :
    ∃ results w, Returns (runSearches Flags.default .checksFirst placementKey [Search.corner])
        World.initial results w ∧ w.FreshStores ∧
      (∃ sig t, w.cache.solutionMap sig = some t) ∧ w.ProofTrees placementKey Flags.default false := by
  have hloaded : (Board.ofText "kb6\nrc7\npd7\nKa8\n").FileLoaded :=
    Board.fileLoaded_ofText (by decide +kernel)
  have hsecond : Search.corner.board.isChecked (!false) = false := by decide +kernel
  have hrun : test (runSearches Flags.default .checksFirst placementKey [Search.corner])
      World.initial (fun _ w => w.trace.all Event.fresh &&
        w.trace.any fun event => match event with
          | .store sig _ _ => (w.cache.solutionMap sig).isSome
          | _ => false) = true := by decide +kernel
  obtain ⟨results, w, hret, hpost⟩ := returns_of_test hrun
  obtain ⟨hall, hany⟩ := Bool.and_eq_true_iff.mp hpost
  have hfresh := World.freshStores_of_all hall
  refine ⟨results, w, hret, hfresh, ?_, ?_⟩
  · obtain ⟨event, -, hevent⟩ := List.any_eq_true.mp hany
    cases event with
    | store sig r cache => exact ⟨sig, Option.isSome_iff_exists.mp hevent⟩
    | _ => cases hevent
  · refine solutions_are_proof_trees Flags.default .checksFirst placementKey ?_ hret hfresh
    intro s hs
    obtain rfl := List.mem_singleton.mp hs
    exact ⟨hloaded, hsecond, rfl⟩

theorem StaticForest.child_of_children {α : Type} {f : StaticForest α} {l : List (List ℕ)}
    (h : f.container.map ForestNode.children = l) {i j : ℕ} {cs : List ℕ} (hi : l[i]? = some cs)
    (hj : j ∈ cs) : f.Child j i := by
  rw [← h, List.getElem?_map, Option.map_eq_some_iff] at hi
  obtain ⟨node, hnode, rfl⟩ := hi
  exact ⟨node, hnode, hj⟩

/-- **The forest of a run can have a cycle**: the second search solves two positions
of the first again, and adds the replies of its solution of one of them, which
leads to the other, below the node that the other's solution leads to.  The
solution of its root is never printed. -/
theorem forest_cyclic :
    ∃ results w, Returns (runSearches ⟨false, 3, by decide⟩ .checksFirst placementKey
        [Search.corner, Search.besideCorner]) World.initial results w ∧
      TransGen w.cache.solutions.Child 0 0 ∧
      ∃ result ∈ results, 0 ∈ result.2.minStepSolutionTrees ∧
        ∀ fuel lead, printSolution w.cache.solutions fuel 0 lead = none := by
  have hrun : test (runSearches ⟨false, 3, by decide⟩ .checksFirst placementKey
      [Search.corner, Search.besideCorner]) World.initial (fun results w =>
        decide (results.map (fun result => result.2.minStepSolutionTrees) = [[1], [0]] ∧
          w.cache.solutions.container.map ForestNode.children =
            [[5], [2], [0], [], [], [1]])) = true := by decide +kernel
  obtain ⟨results, w, hret, hpost⟩ := returns_of_test hrun
  obtain ⟨htrees, hforest⟩ := of_decide_eq_true hpost
  have h1 : w.cache.solutions.Child 0 2 :=
    StaticForest.child_of_children hforest rfl List.mem_cons_self
  have h2 : w.cache.solutions.Child 2 1 :=
    StaticForest.child_of_children hforest rfl List.mem_cons_self
  have h3 : w.cache.solutions.Child 1 5 :=
    StaticForest.child_of_children hforest rfl List.mem_cons_self
  have h4 : w.cache.solutions.Child 5 0 :=
    StaticForest.child_of_children hforest rfl List.mem_cons_self
  have hcycle : TransGen w.cache.solutions.Child 0 0 :=
    (((TransGen.single h1).tail h2).tail h3).tail h4
  have hmem : [0] ∈ results.map fun result => result.2.minStepSolutionTrees := by
    rw [htrees]
    exact List.mem_cons_of_mem _ List.mem_cons_self
  obtain ⟨result, hresult, hzero⟩ := List.mem_map.mp hmem
  refine ⟨results, w, hret, hcycle, result, hresult, ?_, fun fuel lead => ?_⟩
  · rw [hzero]
    exact List.mem_cons_self
  · exact printSolution_of_below_self fuel lead hcycle

/-- A solution that is stored under the key of the node has as many children as the
board has replies. -/
def Event.repliesMatch {κ : Type} (flags : Flags) (cache : SolutionCache κ) (t : ℕ) : Event κ → Bool
  | .store sig r _ => cache.solutionMap sig == some t &&
      (cache.solutions.node? t).any fun node => node.children.length ==
        ((r.curBoard.makeMove node.data).legalMoves flags (!r.blackFirst)).length
  | _ => false

/-- In a proof tree there are as many children as replies. -/
theorem World.ProofTrees.repliesMatch {κ : Type} [DecidableEq κ]
    {hash : (Fin 8 → Fin 8 → PieceType) → κ} {flags : Flags} {first : Bool} {w : World κ}
    (h : w.ProofTrees hash flags first) {sig : κ} {t : ℕ} (ht : w.cache.solutionMap sig = some t) :
    w.trace.any (Event.repliesMatch flags w.cache t) = true := by
  obtain ⟨r, cache, hevent, -, rfl, m, children, htree⟩ := h sig t ht
  refine List.any_eq_true.mpr ⟨_, hevent, ?_⟩
  simp only [Event.repliesMatch, ht, htree.node, BEq.rfl, Bool.true_and, Option.any_some, beq_iff_eq]
  exact htree.replies.length_eq

/-- **The solutions of a run can be mixed**: the node that the first search has stored
for a mate has got a reply from the second. -/
theorem solutions_mixed :
    ∃ results w, Returns (runSearches ⟨false, 3, by decide⟩ .checksFirst placementKey
        [Search.corner, Search.besideCorner]) World.initial results w ∧
      ¬ w.ProofTrees placementKey ⟨false, 3, by decide⟩ false := by
  have hrun : test (runSearches ⟨false, 3, by decide⟩ .checksFirst placementKey
      [Search.corner, Search.besideCorner]) World.initial (fun _ w =>
        !w.trace.any (Event.repliesMatch ⟨false, 3, by decide⟩ w.cache 0) &&
          w.trace.any fun event => match event with
            | .store sig _ _ => w.cache.solutionMap sig == some 0
            | _ => false) = true := by decide +kernel
  obtain ⟨results, w, hret, hpost⟩ := returns_of_test hrun
  obtain ⟨hmixed, hany⟩ := Bool.and_eq_true_iff.mp hpost
  refine ⟨results, w, hret, fun htrees => ?_⟩
  obtain ⟨event, -, hevent⟩ := List.any_eq_true.mp hany
  cases event with
  | store sig r cache =>
    rw [htrees.repliesMatch (beq_iff_eq.mp hevent)] at hmixed
    cases hmixed
  | _ => cases hevent

end Chess
