import Mathlib.Data.List.Basic

/-! # Trees as outlines

The outline of a tree lists its labels in preorder, each with its depth.  It says
everything about the tree: read from the end, a label takes as its children the trees
that were read just before it at a greater depth (`read_outlineAll`).

A text that shows a tree by indentation is an outline of it, so a text format of that
kind is inverted by reading the depths off the text and the tree off the depths.
-/
namespace Outline

/-- A tree with labels, the children in order. -/
inductive RoseTree (α : Type*)
  | node (label : α) (children : List (RoseTree α))

section Write
variable {α β : Type*}

mutual

/-- The labels of a tree in preorder, with their depths. -/
def RoseTree.outline : ℕ → RoseTree α → List (ℕ × α)
  | d, .node a ts => (d, a) :: outlineAll (d + 1) ts

/-- The outlines of trees that stand at one depth. -/
def outlineAll : ℕ → List (RoseTree α) → List (ℕ × α)
  | _, [] => []
  | d, t :: ts => t.outline d ++ outlineAll d ts

end

mutual

/-- Other labels on the same tree. -/
def RoseTree.map (f : α → β) : RoseTree α → RoseTree β
  | .node a ts => .node (f a) (mapAll f ts)

/-- Other labels on the same trees. -/
def mapAll (f : α → β) : List (RoseTree α) → List (RoseTree β)
  | [] => []
  | t :: ts => t.map f :: mapAll f ts

end

theorem outlineAll_nil (d : ℕ) : outlineAll d ([] : List (RoseTree α)) = [] := by
  rw [outlineAll]

theorem outlineAll_cons (d : ℕ) (t : RoseTree α) (ts : List (RoseTree α)) :
    outlineAll d (t :: ts) = t.outline d ++ outlineAll d ts := by
  rw [outlineAll]

theorem outlineAll_eq_flatMap (d : ℕ) (ts : List (RoseTree α)) :
    outlineAll d ts = ts.flatMap (RoseTree.outline d) := by
  induction ts with
  | nil => rw [outlineAll_nil, List.flatMap_nil]
  | cons t ts ih => rw [outlineAll_cons, List.flatMap_cons, ih]

theorem mapAll_nil (f : α → β) : mapAll f [] = [] := by
  rw [mapAll]

theorem mapAll_cons (f : α → β) (t : RoseTree α) (ts : List (RoseTree α)) :
    mapAll f (t :: ts) = t.map f :: mapAll f ts := by
  rw [mapAll]

mutual

/-- Other labels give another outline of the same shape. -/
theorem RoseTree.outline_map (f : α → β) (d : ℕ) (t : RoseTree α) :
    (t.map f).outline d = (t.outline d).map (Prod.map id f) := by
  cases t with
  | node a ts =>
    rw [RoseTree.map, RoseTree.outline, RoseTree.outline, List.map_cons, outlineAll_mapAll f (d + 1) ts]
    rfl

theorem outlineAll_mapAll (f : α → β) (d : ℕ) (ts : List (RoseTree α)) :
    outlineAll d (mapAll f ts) = (outlineAll d ts).map (Prod.map id f) := by
  cases ts with
  | nil => rfl
  | cons t ts =>
    rw [mapAll_cons, outlineAll_cons, outlineAll_cons, List.map_append, RoseTree.outline_map f d t,
      outlineAll_mapAll f d ts]

end

end Write

section Read
variable {α : Type*}

/-- One label, before what was read after it: the trees that stand deeper, up to the
first that does not, become its children. -/
def grow : ℕ × α → List (ℕ × RoseTree α) → List (ℕ × RoseTree α)
  | (d, a), pending =>
      (d, .node a ((pending.takeWhile fun x => d < x.1).map Prod.snd)) ::
        pending.dropWhile fun x => d < x.1

/-- The trees of an outline. -/
def read (items : List (ℕ × α)) : List (RoseTree α) := (items.foldr grow []).map Prod.snd

/-- What was read after trees of this depth does not belong below them. -/
def Above (d : ℕ) (pending : List (ℕ × RoseTree α)) : Prop := ∀ x ∈ pending.head?, x.1 ≤ d

theorem Above.siblings {d : ℕ} {pending : List (ℕ × RoseTree α)} (h : Above d pending)
    (ts : List (RoseTree α)) : Above d (ts.map (Prod.mk d) ++ pending) := by
  cases ts with
  | nil => exact h
  | cons t ts =>
    intro x hx
    obtain rfl := Option.mem_some.mp hx
    exact Nat.le_refl d

/-- A label takes exactly the trees one step deeper. -/
theorem grow_children {d : ℕ} {pending : List (ℕ × RoseTree α)} (h : Above d pending) (a : α)
    (ts : List (RoseTree α)) :
    grow (d, a) (ts.map (Prod.mk (d + 1)) ++ pending) = (d, .node a ts) :: pending := by
  have hdeeper : ∀ x ∈ ts.map (Prod.mk (d + 1)), decide (d < x.1) = true := by
    intro x hx
    obtain ⟨t, -, rfl⟩ := List.mem_map.mp hx
    exact decide_eq_true (Nat.lt_succ_self d)
  have hstop : pending.takeWhile (fun x => d < x.1) = [] ∧
      pending.dropWhile (fun x => d < x.1) = pending := by
    cases pending with
    | nil => exact ⟨rfl, rfl⟩
    | cons x pending =>
      have hx : ¬ d < x.1 := Nat.not_lt.mpr (h x rfl)
      constructor
      · rw [List.takeWhile_cons_of_neg]
        simpa using hx
      · rw [List.dropWhile_cons_of_neg]
        simpa using hx
  rw [grow, List.takeWhile_append_of_pos hdeeper, List.dropWhile_append_of_pos hdeeper,
    hstop.1, hstop.2,
    List.append_nil, List.map_map]
  simp only [Function.comp_def, List.map_id']

mutual

theorem foldr_grow_outline (d : ℕ) (t : RoseTree α) {pending : List (ℕ × RoseTree α)}
    (h : Above d pending) : (t.outline d).foldr grow pending = (d, t) :: pending := by
  cases t with
  | node a ts =>
    have hdeeper : Above (d + 1) pending := fun x hx => Nat.le_succ_of_le (h x hx)
    rw [RoseTree.outline, List.foldr_cons, foldr_grow_outlineAll (d + 1) ts hdeeper]
    exact grow_children h a ts

theorem foldr_grow_outlineAll (d : ℕ) (ts : List (RoseTree α)) {pending : List (ℕ × RoseTree α)}
    (h : Above d pending) :
    (outlineAll d ts).foldr grow pending = ts.map (Prod.mk d) ++ pending := by
  cases ts with
  | nil => rfl
  | cons t ts =>
    rw [outlineAll, List.foldr_append, foldr_grow_outlineAll d ts h,
      foldr_grow_outline d t (h.siblings ts)]
    rfl

end

/-- **The trees of an outline are read back from it.** -/
theorem read_outlineAll (d : ℕ) (ts : List (RoseTree α)) : read (outlineAll d ts) = ts := by
  have hnil : Above d ([] : List (ℕ × RoseTree α)) := fun x hx => by cases hx
  rw [read, foldr_grow_outlineAll d ts hnil, List.append_nil, List.map_map]
  simp only [Function.comp_def, List.map_id']

end Read
end Outline
