import Mathlib.Order.MinMax

/-! # Trees kept as layers

A tree can be kept as a list of layers, each node with the place of its parent in
the layer before.  The children of a layer then stand parent by parent, and a pass
over them in which each child updates its parent is a fold for each parent over its
own children (`foldl_groups`); and the children of a parent are those that know it
(`filter_groups`).

The other lemmas say what the folds of a minimax pass come to: when a maximum or a
minimum over a list, taken from a starting value, reaches a bound.
-/
namespace LayerFold

section Groups
variable {α β γ ν : Type*} {update : List α → ν → List α} {f : α → β → α} {node : ℕ → β → ν}

/-- The children of one parent. -/
theorem foldl_group (hupdate : ∀ parents k c, update parents (node k c) = parents.modify k (f · c))
    (done rest : List α) (children : List β) (p : α) :
    (children.map (node done.length)).foldl update (done ++ p :: rest) =
      done ++ children.foldl f p :: rest := by
  induction children generalizing p with
  | nil => rfl
  | cons c children ih =>
    rw [List.map_cons, List.foldl_cons, hupdate, List.foldl_cons, ← ih]
    congr 1
    simp [List.modify_eq_take_cons_drop]

/-- **Children that stand parent by parent update each parent on its own.** -/
theorem foldl_groups (hupdate : ∀ parents k c, update parents (node k c) = parents.modify k (f · c))
    (children : γ → List β) {sources : List γ} :
    ∀ (done : List α) {parents : List α}, parents.length = sources.length →
    ((sources.zipIdx done.length).flatMap fun x => (children x.1).map (node x.2)).foldl update
        (done ++ parents) =
      done ++ List.zipWith (fun p x => (children x).foldl f p) parents sources := by
  induction sources with
  | nil =>
    intro done parents h
    rw [List.length_nil, List.length_eq_zero_iff] at h
    subst h
    rfl
  | cons x sources ih =>
    intro done parents h
    obtain ⟨p, rest, rfl⟩ := List.exists_cons_of_length_eq_add_one h
    have hlen : done.length + 1 = (done ++ [(children x).foldl f p]).length := by simp
    rw [List.zipIdx_cons, List.flatMap_cons, List.foldl_append, foldl_group hupdate, hlen,
      List.append_cons, ih _ (Nat.succ.inj h), List.zipWith_cons_cons, ← List.append_cons]

/-- Children of other parents. -/
theorem filter_group_of_ne {key : ν → Option ℕ} (hkey : ∀ k c, key (node k c) = some k)
    {k l : ℕ} (hne : l ≠ k) (children : List β) :
    ((children.map (node l)).filter fun v => key v = some k) = [] := by
  refine List.filter_eq_nil_iff.mpr fun v hv => ?_
  obtain ⟨c, -, rfl⟩ := List.mem_map.mp hv
  rw [hkey, decide_eq_true_eq]
  exact fun h => hne (Option.some.inj h)

variable (node) in
/-- **The children of one parent**, out of all that stand parent by parent. -/
theorem filter_groups (key : ν → Option ℕ) (hkey : ∀ k c, key (node k c) = some k)
    (children : γ → List β) {sources : List γ} :
    ∀ (n : ℕ) {k : ℕ} {x : γ}, sources[k]? = some x →
    (((sources.zipIdx n).flatMap fun y => (children y.1).map (node y.2)).filter fun v =>
        key v = some (n + k)) = (children x).map (node (n + k)) := by
  induction sources with
  | nil =>
    intro n k x h
    cases h
  | cons y sources ih =>
    intro n k x h
    rw [List.zipIdx_cons, List.flatMap_cons, List.filter_append]
    cases k with
    | zero =>
      obtain rfl := Option.some.inj h
      have hrest : (((sources.zipIdx (n + 1)).flatMap fun y => (children y.1).map (node y.2)).filter
          fun v => key v = some (n + 0)) = [] := by
        rw [List.filter_flatMap, List.flatMap_eq_nil_iff]
        intro z hz
        refine filter_group_of_ne hkey ?_ _
        have hle := List.le_snd_of_mem_zipIdx hz
        omega
      rw [hrest, List.append_nil]
      refine List.filter_eq_self.mpr fun v hv => ?_
      obtain ⟨c, -, rfl⟩ := List.mem_map.mp hv
      rw [hkey]
      exact decide_eq_true rfl
    | succ k =>
      rw [filter_group_of_ne hkey (show n ≠ n + (k + 1) by omega), List.nil_append,
        show n + (k + 1) = n + 1 + k by omega]
      exact ih (n + 1) h

end Groups

section Bounds
variable {α β : Type*} [LinearOrder α] {f : β → α} {l : List β} {s t : α}

theorem foldl_max_le_iff : l.foldl (fun s x => max s (f x)) s ≤ t ↔ s ≤ t ∧ ∀ x ∈ l, f x ≤ t := by
  induction l generalizing s with
  | nil => simp
  | cons x l ih => rw [List.foldl_cons, ih, max_le_iff, List.forall_mem_cons, and_assoc]

theorem le_foldl_max_iff : t ≤ l.foldl (fun s x => max s (f x)) s ↔ t ≤ s ∨ ∃ x ∈ l, t ≤ f x := by
  induction l generalizing s with
  | nil => simp
  | cons x l ih =>
    rw [List.foldl_cons, ih, le_max_iff, or_assoc]
    simp

theorem le_foldl_min_iff : t ≤ l.foldl (fun s x => min s (f x)) s ↔ t ≤ s ∧ ∀ x ∈ l, t ≤ f x := by
  induction l generalizing s with
  | nil => simp
  | cons x l ih => rw [List.foldl_cons, ih, le_min_iff, List.forall_mem_cons, and_assoc]

theorem foldl_min_le_iff : l.foldl (fun s x => min s (f x)) s ≤ t ↔ s ≤ t ∨ ∃ x ∈ l, f x ≤ t := by
  induction l generalizing s with
  | nil => simp
  | cons x l ih =>
    rw [List.foldl_cons, ih, min_le_iff, or_assoc]
    simp

variable {γ : Type*} {g : γ → α} {l' : List γ}

/-- Two lists with the same values have the same maximum. -/
theorem foldl_max_congr (h : ∀ x ∈ l, ∃ y ∈ l', f x = g y) (h' : ∀ y ∈ l', ∃ x ∈ l, f x = g y) :
    l.foldl (fun s x => max s (f x)) s = l'.foldl (fun s y => max s (g y)) s := by
  refine eq_of_forall_ge_iff fun t => ?_
  rw [foldl_max_le_iff, foldl_max_le_iff]
  refine and_congr_right fun _ => ⟨fun hall y hy => ?_, fun hall x hx => ?_⟩
  · obtain ⟨x, hx, heq⟩ := h' y hy
    exact heq ▸ hall x hx
  · obtain ⟨y, hy, heq⟩ := h x hx
    exact heq ▸ hall y hy

/-- And the same minimum. -/
theorem foldl_min_congr (h : ∀ x ∈ l, ∃ y ∈ l', f x = g y) (h' : ∀ y ∈ l', ∃ x ∈ l, f x = g y) :
    l.foldl (fun s x => min s (f x)) s = l'.foldl (fun s y => min s (g y)) s :=
  foldl_max_congr (α := αᵒᵈ) h h'

end Bounds
end LayerFold
