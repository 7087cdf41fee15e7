import ChessMate.SolutionCache

/-! # The forest as a store

`StaticForest` is a template over the type of the data, and its indices have 32 bits.
Its users may call `add(data)`, `add(data, parent)` and `addChild` in any order.  A
`Session` is a forest with a ledger of these calls: what each `add` was given and
returned, and what was attached to what.

The store should have one node for each `add`.  `add(data, parent)` appends two: one
`emplace_back` forwards the data, and another copies what is left of it.  The call
returns the second node and attaches it, so that its index is as good as any other and
the children are right (`Session.Indexed.run`).  But the first one stays in the forest,
so that the size is no longer the number of `add`s, and the second one does not have
the data when the first has moved it away (`addWithParent_data`).

So the laws of the store hold exactly of the sequences without `add(data, parent)`
(`store_laws_iff`).
-/
namespace Chess

/-! ## The calls -/

namespace StaticForest
variable {α : Type}

/-- `Index`. -/
abbrev Index := UInt32

/-- `NULL_INDEX`. -/
def NULL_INDEX : Index := 4294967295

/-- How the data is passed to an `add`, which forwards it. -/
inductive Passing
  /-- The data is copied. -/
  | lvalue
  /-- The data is moved. -/
  | rvalue
  deriving DecidableEq, Repr

/-- What is left of the data after it was forwarded once.  It depends on the type of the
data what a move leaves behind. -/
def Passing.left (moved : α → α) (data : α) : Passing → α
  | lvalue => data
  | rvalue => moved data

/-- `container.size() - 1`, as it is returned. -/
def lastIndex (self : StaticForest α) : Index := UInt32.ofNat (self.container.length - 1)

/-- `add(data)` with the index of 32 bits. -/
def addOne (self : StaticForest α) (data : α) : Index × StaticForest α :=
  let self := (self.add data).2
  (self.lastIndex, self)

/-- `add(data, parent)`: `none` where `CHECK_LT` fails. -/
def addWithParent (moved : α → α) (self : StaticForest α) (passing : Passing) (data : α)
    (parent : Index) : Option (Index × StaticForest α) :=
  let self := (self.add data).2
  -- the second `emplace_back`, from the argument that was forwarded to the first
  let self := (self.add (passing.left moved data)).2
  let idx := self.lastIndex
  if parent ≠ NULL_INDEX then
    if parent < idx then some (idx, self.addChild parent.toNat idx.toNat) else none
  else some (idx, self)

/-- As long as there are indices, they are those of a forest without bounds. -/
theorem toNat_lastIndex_add {f : StaticForest α} (h : f.size < 2 ^ 32) (data : α) :
    (f.add data).2.lastIndex.toNat = f.size := by
  have hlength : (f.add data).2.container.length = f.size + 1 := size_add f data
  rw [lastIndex, hlength, Nat.add_sub_cancel]
  exact UInt32.toNat_ofNat_of_lt' h

section WithParent
variable {moved : α → α} {f f' : StaticForest α} {passing : Passing} {data : α} {parent idx : Index}

/-- The two nodes of `add(data, parent)`. -/
def growTwice (moved : α → α) (f : StaticForest α) (passing : Passing) (data : α) :
    StaticForest α :=
  ((f.add data).2.add (passing.left moved data)).2

theorem size_growTwice (moved : α → α) (f : StaticForest α) (passing : Passing) (data : α) :
    (f.growTwice moved passing data).size = f.size + 2 :=
  (size_add _ _).trans (congrArg (· + 1) (size_add f data))

theorem toNat_lastIndex_growTwice (hsize : f.size + 2 ≤ 2 ^ 32) :
    (f.growTwice moved passing data).lastIndex.toNat = f.size + 1 := by
  unfold growTwice
  rw [toNat_lastIndex_add (by rw [size_add]; omega), size_add]

theorem addWithParent_cases (h : f.addWithParent moved passing data parent = some (idx, f')) :
    idx = (f.growTwice moved passing data).lastIndex ∧
      (parent = NULL_INDEX ∧ f' = f.growTwice moved passing data ∨
        parent ≠ NULL_INDEX ∧ parent < idx ∧
          f' = (f.growTwice moved passing data).addChild parent.toNat idx.toNat) := by
  unfold addWithParent at h
  by_cases hnull : parent = NULL_INDEX
  · simp only [ne_eq, hnull, not_true_eq_false, if_false] at h
    cases h
    exact ⟨rfl, .inl ⟨hnull, rfl⟩⟩
  · simp only [ne_eq, hnull, not_false_eq_true, if_true] at h
    split_ifs at h with hlt
    cases h
    exact ⟨rfl, .inr ⟨hnull, hlt, rfl⟩⟩

/-- A parent that exists comes before the node that is attached to it. -/
theorem exists_addWithParent (hparent : parent = NULL_INDEX ∨ parent.toNat < f.size)
    (hsize : f.size + 2 ≤ 2 ^ 32) :
    ∃ idx f', f.addWithParent moved passing data parent = some (idx, f') := by
  unfold addWithParent
  by_cases hnull : parent = NULL_INDEX
  · subst hnull
    exact ⟨_, _, rfl⟩
  · have hlt : parent < (f.growTwice moved passing data).lastIndex := by
      rw [UInt32.lt_iff_toNat_lt, toNat_lastIndex_growTwice hsize]
      exact Nat.lt_succ_of_lt (hparent.resolve_left hnull)
    exact ⟨_, _, (if_pos hnull).trans (if_pos hlt)⟩

/-- At the index that `add(data, parent)` returns there is what was left of the data. -/
theorem addWithParent_data (h : f.addWithParent moved passing data parent = some (idx, f'))
    (hsize : f.size + 2 ≤ 2 ^ 32) :
    ∃ node, f'.node? idx.toNat = some node ∧ node.data = passing.left moved data := by
  have hnode : (f.growTwice moved passing data).node? (f.size + 1) =
      some ⟨passing.left moved data, []⟩ := by
    rw [← size_add f data]
    exact node?_add_self _ _
  obtain ⟨rfl, ⟨-, rfl⟩ | ⟨-, -, rfl⟩⟩ := addWithParent_cases h
  · rw [toNat_lastIndex_growTwice hsize]
    exact ⟨_, hnode, rfl⟩
  · rw [toNat_lastIndex_growTwice hsize, node?_addChild, hnode]
    refine ⟨_, rfl, ?_⟩
    split_ifs
    · rfl
    · rfl

end WithParent

/-- The calls that change a forest. -/
inductive Call (α : Type)
  | add (data : α)
  | addWithParent (passing : Passing) (data : α) (parent : Index)
  | addChild (parent child : Index)

namespace Call

/-- The call is one of the two `add`s. -/
def isAdd : Call α → Bool
  | add _ | addWithParent _ _ _ => true
  | addChild _ _ => false

/-- The call is the `add` with a parent. -/
def hasParent : Call α → Bool
  | addWithParent _ _ _ => true
  | add _ | addChild _ _ => false

/-- The call stores the data that it is given: it moves nothing, or the move leaves the
data as it is. -/
def KeepsData (moved : α → α) : Call α → Prop
  | addWithParent passing data _ => passing.left moved data = data
  | add _ | addChild _ _ => True

end Call

/-- A forest and the ledger of the calls that made it. -/
structure Session (α : Type) where
  forest : StaticForest α
  /-- For each `add` the index that it returned and the data that it was given. -/
  added : List (Index × α)
  /-- The parent and the child of each attachment. -/
  attached : List (Index × Index)

namespace Session

/-- A new forest. -/
def start : Session α := ⟨.clear, [], []⟩

/-- One call. -/
def call (moved : α → α) (s : Session α) : Call α → Option (Session α)
  | .add data =>
      let (idx, forest) := s.forest.addOne data
      some ⟨forest, s.added ++ [(idx, data)], s.attached⟩
  | .addWithParent passing data parent =>
      match s.forest.addWithParent moved passing data parent with
      | none => none
      | some (idx, forest) =>
          some ⟨forest, s.added ++ [(idx, data)],
            if parent = NULL_INDEX then s.attached else s.attached ++ [(parent, idx)]⟩
  | .addChild parent child =>
      some ⟨s.forest.addChild parent.toNat child.toNat, s.added, s.attached ++ [(parent, child)]⟩

/-- The calls in a row. -/
def run (moved : α → α) : Session α → List (Call α) → Option (Session α)
  | s, [] => some s
  | s, c :: calls => (s.call moved c).bind fun s' => run moved s' calls

/-- What the caller owes: a parent is `NULL_INDEX` or an existing index, and `addChild`
has existing indices. -/
def Allowed (s : Session α) : Call α → Prop
  | .add _ => True
  | .addWithParent _ _ parent => parent = NULL_INDEX ∨ parent.toNat < s.forest.size
  | .addChild parent child => parent.toNat < s.forest.size ∧ child.toNat < s.forest.size

instance (s : Session α) : ∀ c, Decidable (s.Allowed c)
  | .add _ => inferInstanceAs (Decidable True)
  | .addWithParent _ _ parent =>
      inferInstanceAs (Decidable (parent = NULL_INDEX ∨ parent.toNat < s.forest.size))
  | .addChild parent child =>
      inferInstanceAs (Decidable (parent.toNat < s.forest.size ∧ child.toNat < s.forest.size))

/-- Each call is allowed at the time it is made. -/
def AllowedRun (moved : α → α) : Session α → List (Call α) → Prop
  | _, [] => True
  | s, c :: calls => s.Allowed c ∧ ∀ s', s.call moved c = some s' → AllowedRun moved s' calls

/-- The children that were attached to a node, in this order. -/
def childrenOf (s : Session α) (i : ℕ) : List ℕ :=
  (s.attached.filter fun e => e.1.toNat = i).map fun e => e.2.toNat

/-- **The laws of the store.** -/
structure StoreLaws (s : Session α) : Prop where
  /-- There are as many nodes as there were `add`s. -/
  size : s.forest.size = s.added.length
  /-- No index was returned twice. -/
  distinct : (s.added.map Prod.fst).Nodup
  /-- At each index that was returned there is the data that was given. -/
  data : ∀ e ∈ s.added, ∃ node, s.forest.node? e.1.toNat = some node ∧ node.data = e.2
  /-- The children are those that were attached. -/
  children : ∀ i node, s.forest.node? i = some node → node.children = s.childrenOf i

/-! ## What a call does -/

/-- The session with a new node, which no call has returned yet. -/
def grow (s : Session α) (data : α) : Session α := { s with forest := (s.forest.add data).2 }

/-- The last node is returned to a caller who gave `data`. -/
def returned (s : Session α) (data : α) : Session α :=
  { s with added := s.added ++ [(s.forest.lastIndex, data)] }

def attach (s : Session α) (parent child : Index) : Session α :=
  ⟨s.forest.addChild parent.toNat child.toNat, s.added, s.attached ++ [(parent, child)]⟩

/-- The two nodes of `add(data, parent)`, of which the second is returned. -/
def twice (moved : α → α) (s : Session α) (passing : Passing) (data : α) : Session α :=
  ((s.grow data).grow (passing.left moved data)).returned data

section Steps
variable {moved : α → α} {s s' : Session α} {c : Call α} {calls : List (Call α)}

theorem call_cases (h : s.call moved c = some s') :
    (∃ data, c = .add data ∧ s' = (s.grow data).returned data) ∨
    (∃ passing data, c = .addWithParent passing data NULL_INDEX ∧
      s' = s.twice moved passing data) ∨
    (∃ passing data parent, c = .addWithParent passing data parent ∧ parent ≠ NULL_INDEX ∧
      parent < (s.twice moved passing data).forest.lastIndex ∧
      s' = (s.twice moved passing data).attach parent (s.twice moved passing data).forest.lastIndex) ∨
    ∃ parent child, c = .addChild parent child ∧ s' = s.attach parent child := by
  cases c with
  | add data => exact .inl ⟨data, rfl, (Option.some.inj h).symm⟩
  | addWithParent passing data parent =>
    simp only [call] at h
    split at h
    · cases h
    · next idx forest hadd =>
      obtain ⟨rfl, ⟨rfl, rfl⟩ | ⟨hnull, hlt, rfl⟩⟩ := addWithParent_cases hadd
      · exact .inr (.inl ⟨passing, data, rfl, (Option.some.inj h).symm⟩)
      · rw [if_neg hnull] at h
        exact .inr (.inr (.inl
          ⟨passing, data, parent, rfl, hnull, hlt, (Option.some.inj h).symm⟩))
  | addChild parent child =>
    exact .inr (.inr (.inr ⟨parent, child, rfl, (Option.some.inj h).symm⟩))

theorem exists_call (hallowed : s.Allowed c) (hsize : s.forest.size + 2 ≤ 2 ^ 32) :
    ∃ s', s.call moved c = some s' := by
  cases c with
  | add data => exact ⟨_, rfl⟩
  | addChild parent child => exact ⟨_, rfl⟩
  | addWithParent passing data parent =>
    obtain ⟨idx, forest, hadd⟩ : ∃ idx forest,
        s.forest.addWithParent moved passing data parent = some (idx, forest) :=
      exists_addWithParent hallowed hsize
    simp only [call, hadd]
    exact ⟨_, rfl⟩

/-- **The sizes.**  An `add` with a parent makes two nodes. -/
theorem size_call (h : s.call moved c = some s') :
    s'.forest.size = s.forest.size + (if c.isAdd then 1 else 0) + if c.hasParent then 1 else 0 := by
  obtain ⟨data, rfl, rfl⟩ | ⟨passing, data, rfl, rfl⟩ |
    ⟨passing, data, parent, rfl, -, -, rfl⟩ | ⟨parent, child, rfl, rfl⟩ := call_cases h
  · exact size_add _ _
  · exact size_growTwice moved s.forest passing data
  · exact (size_addChild _ _ _).trans (size_growTwice moved s.forest passing data)
  · exact size_addChild _ _ _

theorem length_added_call (h : s.call moved c = some s') :
    s'.added.length = s.added.length + if c.isAdd then 1 else 0 := by
  obtain ⟨data, rfl, rfl⟩ | ⟨passing, data, rfl, rfl⟩ |
    ⟨passing, data, parent, rfl, -, -, rfl⟩ | ⟨parent, child, rfl, rfl⟩ := call_cases h
  · exact List.length_append
  · exact List.length_append
  · exact List.length_append
  · rfl

theorem size_run (h : s.run moved calls = some s') :
    s'.forest.size = s.forest.size + calls.countP Call.isAdd + calls.countP Call.hasParent := by
  induction calls generalizing s with
  | nil =>
    cases h
    rfl
  | cons c calls ih =>
    obtain ⟨t, hcall, hrun⟩ := Option.bind_eq_some_iff.mp h
    rw [ih hrun, size_call hcall, List.countP_cons, List.countP_cons]
    omega

theorem length_added_run (h : s.run moved calls = some s') :
    s'.added.length = s.added.length + calls.countP Call.isAdd := by
  induction calls generalizing s with
  | nil =>
    cases h
    rfl
  | cons c calls ih =>
    obtain ⟨t, hcall, hrun⟩ := Option.bind_eq_some_iff.mp h
    rw [ih hrun, length_added_call hcall, List.countP_cons]
    omega

/-- **Allowed calls return**, as long as there are indices. -/
theorem exists_run (hallowed : s.AllowedRun moved calls)
    (hsize : s.forest.size + calls.countP Call.isAdd + calls.countP Call.hasParent + 2 ≤ 2 ^ 32) :
    ∃ s', s.run moved calls = some s' := by
  induction calls generalizing s with
  | nil => exact ⟨s, rfl⟩
  | cons c calls ih =>
    rw [List.countP_cons, List.countP_cons] at hsize
    obtain ⟨t, hcall⟩ : ∃ t, s.call moved c = some t := exists_call hallowed.1 (by omega)
    have hgrown := size_call hcall
    obtain ⟨s', hrun⟩ := ih (hallowed.2 t hcall) (by omega)
    exact ⟨s', Option.bind_eq_some_iff.mpr ⟨t, hcall, hrun⟩⟩

end Steps

/-! ## Indices and children -/

/-- **What holds whichever `add` is used**: the laws of the store but for the size, and
nothing is attached to a node that is not there. -/
structure Indexed (s : Session α) : Prop where
  distinct : (s.added.map Prod.fst).Nodup
  data : ∀ e ∈ s.added, ∃ node, s.forest.node? e.1.toNat = some node ∧ node.data = e.2
  children : ∀ i node, s.forest.node? i = some node → node.children = s.childrenOf i
  parents : ∀ e ∈ s.attached, e.1.toNat < s.forest.size

namespace Indexed
variable {moved : α → α} {s s' : Session α} {c : Call α} {calls : List (Call α)}

theorem start : (start : Session α).Indexed where
  distinct := List.nodup_nil
  data := by
    intro e he
    cases he
  children := by
    intro i node hnode
    cases hnode
  parents := by
    intro e he
    cases he

theorem grow (h : s.Indexed) (data : α) : (s.grow data).Indexed where
  distinct := h.distinct
  data := by
    intro e he
    obtain ⟨node, hnode, hdata⟩ := h.data e he
    exact ⟨node, node?_append hnode, hdata⟩
  children := by
    intro i node hnode
    rcases node?_add_cases hnode with hold | ⟨rfl, rfl⟩
    · exact h.children i node hold
    · -- nothing was attached to the new node yet
      have hnone : s.attached.filter (fun e => e.1.toNat = s.forest.size) = [] := by
        refine List.filter_eq_nil_iff.mpr fun e he => ?_
        rw [decide_eq_true_eq]
        exact (h.parents e he).ne
      exact (congrArg (List.map fun e => e.2.toNat) hnone).symm
  parents := by
    intro e he
    exact (h.parents e he).trans (size_add s.forest data ▸ Nat.lt_succ_self _)

/-- An `add` returns an index that no `add` has returned before. -/
theorem add (h : s.Indexed) (hsize : s.forest.size < 2 ^ 32) (data : α) :
    ((s.grow data).returned data).Indexed := by
  have hlast : (s.grow data).forest.lastIndex.toNat = s.forest.size :=
    toNat_lastIndex_add hsize data
  obtain ⟨hdistinct, hdata, hchildren, hparents⟩ := h.grow data
  refine ⟨?_, ?_, hchildren, hparents⟩
  · have hfresh : (s.grow data).forest.lastIndex ∉ s.added.map Prod.fst := by
      intro hmem
      obtain ⟨e, he, heq⟩ := List.mem_map.mp hmem
      obtain ⟨node, hnode, -⟩ := h.data e he
      have hlt := lt_size hnode
      rw [heq, hlast] at hlt
      exact Nat.lt_irrefl _ hlt
    show ((s.added ++ [_]).map Prod.fst).Nodup
    rw [List.map_append]
    exact List.nodup_append_comm.mp (List.nodup_cons.mpr ⟨hfresh, hdistinct⟩)
  · intro e he
    rcases List.mem_append.mp he with he | he
    · exact hdata e he
    · obtain rfl := List.mem_singleton.mp he
      refine ⟨⟨data, []⟩, ?_, rfl⟩
      rw [hlast]
      exact node?_add_self s.forest data

theorem attach (h : s.Indexed) {parent : Index} (hparent : parent.toNat < s.forest.size)
    (child : Index) : (s.attach parent child).Indexed where
  distinct := h.distinct
  data := by
    intro e he
    obtain ⟨node, hnode, hdata⟩ := h.data e he
    refine ⟨_, (node?_addChild _ _ _ _).trans (congrArg _ hnode), ?_⟩
    split_ifs
    · exact hdata
    · exact hdata
  children := by
    intro i node hnode
    have hmap := (node?_addChild _ _ _ _).symm.trans hnode
    obtain ⟨old, hold, rfl⟩ := Option.map_eq_some_iff.mp hmap
    have hrest : (s.attach parent child).childrenOf i = s.childrenOf i ++
        if parent.toNat = i then [child.toNat] else [] := by
      simp only [childrenOf, Session.attach, List.filter_append, List.map_append]
      congr 1
      by_cases hi : parent.toNat = i
      · simp [hi]
      · simp [hi]
    rw [hrest, ← h.children i old hold]
    split_ifs
    · rfl
    · exact (List.append_nil _).symm
  parents := by
    intro e he
    show e.1.toNat < (s.forest.addChild _ _).size
    rw [size_addChild]
    rcases List.mem_append.mp he with he | he
    · exact h.parents e he
    · rw [List.mem_singleton.mp he]
      exact hparent

/-- `add(data, parent)` returns the second of its nodes. -/
theorem twice (h : s.Indexed) (hsize : s.forest.size + 2 ≤ 2 ^ 32) {passing : Passing} {data : α}
    (hkeeps : passing.left moved data = data) : (s.twice moved passing data).Indexed := by
  unfold Session.twice
  rw [hkeeps]
  refine (h.grow data).add ?_ data
  show (s.forest.add data).2.size < 2 ^ 32
  rw [size_add]
  omega

theorem call (h : s.Indexed) (hallowed : s.Allowed c) (hkeeps : c.KeepsData moved)
    (hcall : s.call moved c = some s') (hsize : s'.forest.size ≤ 2 ^ 32) : s'.Indexed := by
  rw [size_call hcall] at hsize
  obtain ⟨data, rfl, rfl⟩ | ⟨passing, data, rfl, rfl⟩ |
    ⟨passing, data, parent, rfl, hnull, -, rfl⟩ | ⟨parent, child, rfl, rfl⟩ := call_cases hcall
  · exact h.add hsize data
  · exact h.twice hsize hkeeps
  · refine (h.twice hsize hkeeps).attach ?_ _
    refine (hallowed.resolve_left hnull).trans_le ?_
    exact (size_growTwice moved s.forest passing data).symm ▸ Nat.le_add_right _ 2
  · exact h.attach hallowed.1 child

/-- **The run lemma.** -/
theorem run (h : s.Indexed) (hallowed : s.AllowedRun moved calls)
    (hkeeps : ∀ c ∈ calls, c.KeepsData moved) (hrun : s.run moved calls = some s')
    (hsize : s'.forest.size ≤ 2 ^ 32) : s'.Indexed := by
  induction calls generalizing s with
  | nil =>
    cases hrun
    exact h
  | cons c calls ih =>
    obtain ⟨t, hcall, hrest⟩ := Option.bind_eq_some_iff.mp hrun
    obtain ⟨hkeep, hkeeps⟩ := List.forall_mem_cons.mp hkeeps
    have hle : t.forest.size ≤ 2 ^ 32 := by
      have hgrown := size_run hrest
      omega
    exact ih (h.call hallowed.1 hkeep hcall hle) (hallowed.2 t hcall) hkeeps hrest

end Indexed

section Laws
variable {moved : α → α} {s : Session α} {calls : List (Call α)}

theorem AllowedRun.of_append {pre rest : List (Call α)}
    (h : s.AllowedRun moved (pre ++ rest)) : s.AllowedRun moved pre := by
  induction pre generalizing s with
  | nil => trivial
  | cons c pre ih => exact ⟨h.1, fun t hcall => ih (h.2 t hcall)⟩

/-- An `add` without a parent stores what it is given. -/
theorem keepsData_of_not_hasParent {c : Call α} (h : c.hasParent = false) : c.KeepsData moved := by
  cases c with
  | add data => trivial
  | addWithParent passing data parent => cases h
  | addChild parent child => trivial

/-- **Without `add(data, parent)` the laws hold.** -/
theorem exists_storeLaws (hallowed : (start : Session α).AllowedRun moved calls)
    (hfew : calls.countP Call.isAdd < 2 ^ 32 - 1) (hno : ∀ c ∈ calls, c.hasParent = false) :
    ∃ s, start.run moved calls = some s ∧ s.StoreLaws := by
  have hnone : calls.countP Call.hasParent = 0 := by
    refine List.countP_eq_zero.mpr fun c hc => ?_
    rw [hno c hc]
    exact Bool.false_ne_true
  have hempty : (start : Session α).forest.size = 0 := rfl
  obtain ⟨s, hrun⟩ := exists_run hallowed (by omega)
  have hsize := size_run hrun
  have hadded := length_added_run hrun
  have hindexed := Indexed.start.run hallowed
    (fun c hc => keepsData_of_not_hasParent (hno c hc)) hrun (by omega)
  refine ⟨s, hrun, ?_, hindexed.distinct, hindexed.data, hindexed.children⟩
  rw [hsize, hadded, hnone]
  rfl

end Laws

end Session

/-- **When the forest is a store**: in every state of a run, exactly if none of the calls
is an `add` with a parent. -/
theorem store_laws_iff {α : Type} (moved : α → α) {calls : List (Call α)}
    (hallowed : Session.start.AllowedRun moved calls)
    (hfew : calls.countP Call.isAdd < 2 ^ 32 - 1) :
    (∀ pre, pre <+: calls → ∃ s, Session.start.run moved pre = some s ∧ s.StoreLaws) ↔
      ∀ c ∈ calls, c.hasParent = false := by
  constructor
  · intro h
    obtain ⟨s, hrun, hlaws⟩ := h calls ⟨[], List.append_nil calls⟩
    have hsize : s.forest.size = s.added.length := hlaws.size
    rw [Session.size_run hrun, Session.length_added_run hrun] at hsize
    have hnone : calls.countP Call.hasParent = 0 := by
      have hempty : (Session.start : Session α).forest.size = 0 := rfl
      have hadded : (Session.start : Session α).added.length = 0 := rfl
      omega
    intro c hc
    exact Bool.eq_false_iff.mpr (List.countP_eq_zero.mp hnone c hc)
  · rintro hno pre ⟨rest, rfl⟩
    rw [List.countP_append] at hfew
    exact Session.exists_storeLaws hallowed.of_append (by omega)
      fun c hc => hno c (List.mem_append_left rest hc)

/-- A move and a reply that is attached to it. -/
def replyCalls : List (Call Move) := [.add Move.none, .add Move.none, .addChild 0 1]

/-- The reply is the second node.  (A `Move` is copied also where it could be moved.) -/
theorem store_laws_iff_reply :
    ∃ s, Session.start.run id replyCalls = some s ∧ s.StoreLaws := by
  have hallowed : Session.start.AllowedRun id replyCalls := by
    refine ⟨trivial, fun s hs => ⟨trivial, fun t ht => ⟨?_, fun _ _ => trivial⟩⟩⟩
    cases hs
    cases ht
    decide
  have hno : ∀ c ∈ replyCalls, c.hasParent = false := by decide
  exact (store_laws_iff id hallowed (by decide)).mpr hno replyCalls ⟨[], rfl⟩

/-- The same in two calls. -/
def replyWithParent : List (Call Move) := [.add Move.none, .addWithParent .lvalue Move.none 0]

/-- **The forest is not always a store**: here two `add`s make three nodes. -/
theorem store_laws_fail :
    Session.start.AllowedRun id replyWithParent ∧
      replyWithParent.countP Call.isAdd < 2 ^ 32 - 1 ∧
      ¬ ∀ pre, pre <+: replyWithParent →
        ∃ s, Session.start.run id pre = some s ∧ s.StoreLaws := by
  refine ⟨⟨trivial, fun s hs => ⟨?_, fun _ _ => trivial⟩⟩, by decide, fun h => ?_⟩
  · cases hs
    decide
  · obtain ⟨s, hrun, hlaws⟩ := h replyWithParent ⟨[], rfl⟩
    have hsize : s.forest.size = s.added.length := hlaws.size
    rw [Session.size_run hrun, Session.length_added_run hrun] at hsize
    revert hsize
    decide

end StaticForest

end Chess
