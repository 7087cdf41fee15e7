import ChessMate.Outline
import Mathlib.Data.List.Nodup
import Mathlib.Data.List.Perm.Basic
import Mathlib.Order.Lattice

/-! # Depth-first walks over trees kept as layers

A tree can be kept as a list of layers, where only the nodes of the next layer know
their parents.  A walk that goes depth first then has to find the children of a node
in the next layer.  Where the layer is sorted by parents they form one run
(`isRun_of_sorted`), and it is enough to know where the run starts and to stop where
it ends (`IsRun.takeWhile_drop`).

`walk` is the walk in terms of the children alone, as a list of places.  If every node
has one parent in the layer before, the walks from the nodes of a layer together come
to every place of this layer and of those below it once (`walk_perm`).  The order in
which a walk comes to them is that of an outline: `unfoldTree` is the tree below a node,
and the walk is its outline (`walk_eq_outline`).
-/
namespace LayeredTree

/-! ## Runs -/

section Runs
variable {α β : Type*} {p : α → Bool} {l : List α}

/-- The elements with the property stand side by side. -/
def IsRun (p : α → Bool) (l : List α) : Prop :=
  ∃ before run after, l = before ++ run ++ after ∧ (∀ x ∈ before, p x = false) ∧
    (∀ x ∈ run, p x = true) ∧ ∀ x ∈ after, p x = false

/-- In a sorted list the elements with one key stand side by side. -/
theorem isRun_of_sorted {κ : Type*} [LinearOrder κ] {key : α → κ}
    (h : l.Pairwise fun x y => key x ≤ key y) (k : κ) : IsRun (fun x => key x = k) l := by
  refine ⟨l.filter fun x => key x < k, l.filter fun x => key x = k, l.filter fun x => k < key x,
    ?_, ?_, ?_, ?_⟩
  · induction l with
    | nil => rfl
    | cons x l ih =>
      obtain ⟨hx, hl⟩ := List.pairwise_cons.mp h
      have hlow : k ≤ key x → (l.filter fun y => key y < k) = [] := by
        intro hk
        refine List.filter_eq_nil_iff.mpr fun y hy => ?_
        rw [decide_eq_true_eq]
        exact not_lt_of_ge (hk.trans (hx y hy))
      rcases lt_trichotomy (key x) k with hk | hk | hk
      · simpa [hk, hk.ne, hk.not_gt] using ih hl
      · simpa [hk, hlow hk.ge] using ih hl
      · have hmid : (l.filter fun y => key y = k) = [] := by
          refine List.filter_eq_nil_iff.mpr fun y hy => ?_
          rw [decide_eq_true_eq]
          exact (hk.trans_le (hx y hy)).ne'
        simpa [hk, hk.ne', hk.not_gt, hlow hk.le, hmid] using ih hl
  · intro x hx
    have hk := of_decide_eq_true (List.mem_filter.mp hx).2
    exact decide_eq_false hk.ne
  · intro x hx
    exact (List.mem_filter.mp hx).2
  · intro x hx
    have hk := of_decide_eq_true (List.mem_filter.mp hx).2
    exact decide_eq_false hk.ne'

theorem IsRun.of_map {f : β → α} {l : List β} (h : IsRun p (l.map f)) : IsRun (p ∘ f) l := by
  obtain ⟨before, run, after, hl, hbefore, hrun, hafter⟩ := h
  obtain ⟨l₁, after', rfl, h₁, rfl⟩ := List.map_eq_append_iff.mp hl
  obtain ⟨before', run', rfl, rfl, rfl⟩ := List.map_eq_append_iff.mp h₁
  refine ⟨before', run', after', rfl, ?_, ?_, ?_⟩
  · exact fun x hx => hbefore _ (List.mem_map_of_mem hx)
  · exact fun x hx => hrun _ (List.mem_map_of_mem hx)
  · exact fun x hx => hafter _ (List.mem_map_of_mem hx)

/-- **A run is read from its first element on**, up to an element that is not in it. -/
theorem IsRun.takeWhile_drop (h : IsRun p l) {n : ℕ} (hn : l.findIdx? p = some n) :
    (l.drop n).takeWhile p = l.filter p := by
  obtain ⟨before, run, after, rfl, hbefore, hrun, hafter⟩ := h
  have hnone : ∀ {l : List α}, (∀ x ∈ l, p x = false) → l.findIdx? p = none ∧ l.filter p = [] ∧
      l.takeWhile p = [] := by
    intro l hl
    refine ⟨List.findIdx?_eq_none_iff.mpr hl, ?_, ?_⟩
    · exact List.filter_eq_nil_iff.mpr fun x hx => by rw [hl x hx]; decide
    · cases l with
      | nil => rfl
      | cons x l => exact List.takeWhile_cons_of_neg (by rw [hl x List.mem_cons_self]; decide)
  have hstart : n = before.length := by
    rw [List.append_assoc, List.findIdx?_append, (hnone hbefore).1, Option.none_or,
      Option.map_eq_some_iff] at hn
    obtain ⟨k, hk, rfl⟩ := hn
    cases run with
    | nil =>
      rw [List.nil_append, (hnone hafter).1] at hk
      cases hk
    | cons x run =>
      rw [List.cons_append, List.findIdx?_cons, hrun x List.mem_cons_self] at hk
      cases hk
      exact Nat.zero_add _
  rw [hstart, List.append_assoc, List.drop_left, List.takeWhile_append_of_pos hrun,
    List.filter_append, List.filter_append, (hnone hbefore).2.1, (hnone hafter).2.1,
    (hnone hafter).2.2, List.filter_eq_self.mpr hrun, List.nil_append]

end Runs

/-! ## Walks -/

section Walks
variable {α β : Type*}

/-- Where each element of a list is related to one of the keys, the elements related to
the keys make up the list. -/
theorem flatMap_filter_perm {keys : List β} {l : List α} (r : β → α → Bool)
    (h : ∀ y ∈ l, keys.countP (fun x => r x y) = 1) :
    (keys.flatMap fun x => l.filter (r x)).Perm l := by
  have hone : ∀ y, (keys.flatMap fun x => if r x y = true then [y] else []) =
      List.replicate (keys.countP fun x => r x y) y := by
    intro y
    clear h
    induction keys with
    | nil => rfl
    | cons x keys ih =>
      rw [List.flatMap_cons, ih, List.countP_cons]
      cases r x y <;> simp [List.replicate_succ]
  induction l with
  | nil => simp
  | cons y l ih =>
    obtain ⟨hy, hl⟩ := List.forall_mem_cons.mp h
    have hsplit : (keys.flatMap fun x => (y :: l).filter (r x)) =
        keys.flatMap fun x => (if r x y = true then [y] else []) ++ l.filter (r x) := by
      refine List.flatMap_congr fun x _ => ?_
      rw [List.filter_cons]
      split <;> rfl
    rw [hsplit]
    refine (List.flatMap_append_perm keys _ _).symm.trans ?_
    rw [hone, hy]
    exact (ih hl).cons y

variable (isChild : α → α → Bool)

/-- The children of a node in the next layer, with their places. -/
def children (x : α) (next : List α) : List (α × ℕ) :=
  next.zipIdx.filter fun y => isChild x y.1

/-- The places that a depth-first walk from a node of layer `n` comes to, in its order. -/
def walk : List (List α) → ℕ → α × ℕ → List (ℕ × ℕ)
  | [], n, x => [(n, x.2)]
  | next :: deeper, n, x => (n, x.2) :: (children isChild x.1 next).flatMap (walk deeper (n + 1))

/-- All places, from layer `n` on. -/
def places : List (List α) → ℕ → List (ℕ × ℕ)
  | [], _ => []
  | layer :: deeper, n => (List.range layer.length).map (fun j => (n, j)) ++ places deeper (n + 1)

/-- Every node of a layer has one parent in the layer before. -/
def OneParent : List (List α) → Prop
  | layer :: next :: deeper =>
      (∀ y ∈ next, layer.countP (fun x => isChild x y) = 1) ∧ OneParent (next :: deeper)
  | _ => True

variable {isChild} in
theorem OneParent.exists_parent {layers : List (List α)} (h : OneParent isChild layers) {i : ℕ}
    {layer next : List α} (hlayer : layers[i]? = some layer) (hnext : layers[i + 1]? = some next)
    {y : α} (hy : y ∈ next) : ∃ x ∈ layer, isChild x y = true := by
  induction layers generalizing i with
  | nil => cases hlayer
  | cons first deeper ih =>
    cases deeper with
    | nil => cases hnext
    | cons second deeper =>
      cases i with
      | zero =>
        obtain rfl : first = layer := Option.some.inj hlayer
        obtain rfl : second = next := Option.some.inj hnext
        have hpos : 0 < first.countP fun x => isChild x y := by
          rw [h.1 y hy]
          exact Nat.zero_lt_one
        exact List.countP_pos_iff.mp hpos
      | succ i => exact ih h.2 hlayer hnext

theorem flatMap_place (layer : List α) (n : ℕ) :
    (layer.zipIdx.flatMap fun x => [(n, x.2)]) =
      (List.range layer.length).map fun j => (n, j) := by
  rw [List.range_eq_range', ← List.zipIdx_map_snd 0 layer, List.map_map]
  exact List.flatMap_pure_eq_map _ _

/-- **The walks from the nodes of a layer come to every place once.** -/
theorem walk_perm {layer : List α} {deeper : List (List α)} (n : ℕ)
    (h : OneParent isChild (layer :: deeper)) :
    (layer.zipIdx.flatMap (walk isChild deeper n)).Perm (places (layer :: deeper) n) := by
  induction deeper generalizing layer n with
  | nil =>
    simp only [walk, places, List.append_nil]
    exact List.Perm.of_eq (flatMap_place layer n)
  | cons next deeper ih =>
    have hchildren : (layer.zipIdx.flatMap fun x => children isChild x.1 next).Perm next.zipIdx := by
      refine flatMap_filter_perm (fun (x y : α × ℕ) => isChild x.1 y.1) fun y hy => ?_
      have hcount := h.1 y.1 (List.fst_mem_of_mem_zipIdx hy)
      rw [← List.zipIdx_map_fst 0 layer, List.countP_map] at hcount
      exact hcount
    simp only [walk]
    refine (List.flatMap_append_perm layer.zipIdx (fun x => [(n, x.2)]) _).symm.trans ?_
    refine (List.Perm.of_eq (flatMap_place layer n)).append ?_
    have hassoc := List.flatMap_assoc (l := layer.zipIdx)
      (f := fun x => children isChild x.1 next) (g := walk isChild deeper (n + 1))
    exact (List.Perm.of_eq hassoc.symm).trans ((hchildren.flatMap_right _).trans (ih (n + 1) h.2))

theorem le_of_mem_places {layers : List (List α)} {n : ℕ} {place : ℕ × ℕ}
    (h : place ∈ places layers n) : n ≤ place.1 := by
  induction layers generalizing n with
  | nil => cases h
  | cons layer deeper ih =>
    rcases List.mem_append.mp h with h | h
    · obtain ⟨x, -, rfl⟩ := List.mem_map.mp h
      exact Nat.le_refl n
    · exact Nat.le_of_succ_le (ih h)

theorem mem_places_iff {layers : List (List α)} {n i j : ℕ} :
    (n + i, j) ∈ places layers n ↔ ∃ layer, layers[i]? = some layer ∧ j < layer.length := by
  induction layers generalizing n i with
  | nil => simp [places]
  | cons layer deeper ih =>
    rw [places, List.mem_append]
    cases i with
    | zero =>
      have hdeeper : (n + 0, j) ∉ places deeper (n + 1) := fun h => by
        have hle := le_of_mem_places h
        omega
      rw [or_iff_left hdeeper]
      simp
    | succ i =>
      have hlayer : (n + (i + 1), j) ∉ (List.range layer.length).map fun j => (n, j) := by
        intro h
        obtain ⟨k, -, hx⟩ := List.mem_map.mp h
        have hfst := congrArg Prod.fst hx
        omega
      rw [or_iff_right hlayer, List.getElem?_cons_succ, ← ih (n := n + 1)]
      rw [show n + (i + 1) = n + 1 + i by omega]

theorem nodup_places (layers : List (List α)) (n : ℕ) : (places layers n).Nodup := by
  induction layers generalizing n with
  | nil => exact List.nodup_nil
  | cons layer deeper ih =>
    rw [places, List.nodup_append]
    refine ⟨?_, ih (n + 1), ?_⟩
    · exact List.nodup_range.map fun j j' h => congrArg Prod.snd h
    · rintro place hplace place' hplace' rfl
      obtain ⟨x, -, rfl⟩ := List.mem_map.mp hplace
      have hle := le_of_mem_places hplace'
      dsimp only at hle
      omega

/-! ## The tree of a walk -/

/-- The tree below a node, labelled with the nodes and their places in their layers. -/
def unfoldTree : List (List α) → α × ℕ → Outline.RoseTree (α × ℕ)
  | [], x => .node x []
  | next :: deeper, x => .node x ((children isChild x.1 next).map (unfoldTree deeper))

/-- **A walk is the outline of the tree below its node.** -/
theorem walk_eq_outline (deeper : List (List α)) (n : ℕ) (x : α × ℕ) :
    walk isChild deeper n x =
      ((unfoldTree isChild deeper x).outline n).map fun y => (y.1, y.2.2) := by
  induction deeper generalizing n x with
  | nil => rfl
  | cons next deeper ih =>
    rw [walk, unfoldTree, Outline.RoseTree.outline, Outline.outlineAll_eq_flatMap, List.map_cons,
      List.flatMap_map, List.map_flatMap]
    congr 1
    exact List.flatMap_congr fun y _ => ih (n + 1) y

/-- The labels of the tree are the nodes at their places. -/
theorem getElem?_of_mem_outline {layers : List (List α)} (deeper : List (List α)) {n : ℕ}
    {layer : List α}
    {x : α × ℕ} (hdrop : layers.drop n = layer :: deeper) (hx : layer[x.2]? = some x.1)
    {y : ℕ × α × ℕ} (hy : y ∈ (unfoldTree isChild deeper x).outline n) :
    (layers[y.1]?.bind fun layer => layer[y.2.2]?) = some y.2.1 := by
  have hlayer : layers[n]? = some layer := by
    rw [← List.head?_drop, hdrop]
    rfl
  induction deeper generalizing n layer x with
  | nil =>
    obtain rfl := List.mem_singleton.mp hy
    rw [hlayer]
    exact hx
  | cons next deeper ih =>
    rw [unfoldTree, Outline.RoseTree.outline, Outline.outlineAll_eq_flatMap, List.flatMap_map] at hy
    rcases List.mem_cons.mp hy with rfl | hy
    · rw [hlayer]
      exact hx
    · obtain ⟨z, hz, hy⟩ := List.mem_flatMap.mp hy
      have hdrop' : layers.drop (n + 1) = next :: deeper := by
        rw [← List.tail_drop, hdrop]
        rfl
      have hz' := List.mem_zipIdx_iff_getElem?.mp (List.mem_filter.mp hz).1
      refine ih hdrop' hz' hy ?_
      rw [← List.head?_drop, hdrop']
      rfl

end Walks
end LayeredTree
