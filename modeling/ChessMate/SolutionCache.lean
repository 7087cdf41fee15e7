import ChessMate.OneRound

/-! # The solution cache

`StaticForest`, the two score maps and the solution map.  The maps are finite
maps (`google::dense_hash_map`) from keys to values, here functions into
`Option`; the key type is arbitrary, since the properties of the cache depend on
the hash function only through which boards it tells apart.  Indices of the
forest do not wrap around.  The statistics counters are left out: nothing but
`stats` reads them.
-/
namespace Chess

/-! ## Scores -/

/-- `NONE`. -/
def NONE : Int := 0

/-- `STALLMATE`. -/
def STALLMATE : Int := -2

/-- `CHECKMATE`. -/
def CHECKMATE : Int := 100

/-- `numeric_limits<int>::max()`, the bound of an entry that has none. -/
def INT_MAX : Int := 2147483647

/-- A key that tells all placements apart: the squares in order. -/
def placementKey (positions : Fin 8 → Fin 8 → PieceType) : List PieceType :=
  (List.finRange 8).flatMap fun row => (List.finRange 8).map (positions row)

theorem flatMap_inj_of_length {α β : Type} {f g : α → List β} : ∀ {l : List α},
    (∀ x ∈ l, (f x).length = (g x).length) → l.flatMap f = l.flatMap g → ∀ x ∈ l, f x = g x := by
  intro l
  induction l with
  | nil => intro _ _ x hx; cases hx
  | cons y l ih =>
    intro hlen heq x hx
    rw [List.flatMap_cons, List.flatMap_cons] at heq
    obtain ⟨hhead, htail⟩ := List.append_inj heq (hlen y List.mem_cons_self)
    rcases List.mem_cons.mp hx with rfl | hx
    · exact hhead
    · exact ih (fun z hz => hlen z (List.mem_cons_of_mem y hz)) htail x hx

theorem placementKey_injective : Function.Injective placementKey := by
  intro p q h
  funext row col
  have hlen : ∀ x ∈ List.finRange 8,
      ((List.finRange 8).map (p x)).length = ((List.finRange 8).map (q x)).length := by simp
  have hrow := flatMap_inj_of_length hlen h row (List.mem_finRange row)
  exact List.map_inj_left.mp hrow col (List.mem_finRange col)

/-! ## The forest -/

/-- `StaticForest::Node`. -/
structure ForestNode (α : Type) where
  data : α
  children : List Nat

/-- `StaticForest`: nodes in one vector, children as indices into it. -/
structure StaticForest (α : Type) where
  container : List (ForestNode α)

namespace StaticForest
variable {α : Type}

def clear : StaticForest α := ⟨[]⟩

def size (self : StaticForest α) : Nat := self.container.length

/-- `add`: the index of the new node and the forest with it. -/
def add (self : StaticForest α) (data : α) : Nat × StaticForest α :=
  (self.container.length, ⟨self.container ++ [⟨data, []⟩]⟩)

def addChild (self : StaticForest α) (parent child : Nat) : StaticForest α :=
  ⟨self.container.modify parent fun node => { node with children := node.children ++ [child] }⟩

/-- `node`. -/
def node? (self : StaticForest α) (idx : Nat) : Option (ForestNode α) := self.container[idx]?

section Nodes
variable {f : StaticForest α} {i : Nat} {node : ForestNode α}

theorem lt_size (h : f.node? i = some node) : i < f.size := (List.getElem?_eq_some_iff.mp h).1

@[simp] theorem size_add (f : StaticForest α) (data : α) : (f.add data).2.size = f.size + 1 := by
  simp [add, size]

@[simp] theorem size_addChild (f : StaticForest α) (parent child : Nat) :
    (f.addChild parent child).size = f.size := List.length_modify _ _ _

theorem node?_append_left {C D : List (ForestNode α)} (h : i < C.length) :
    (⟨C ++ D⟩ : StaticForest α).node? i = (⟨C⟩ : StaticForest α).node? i :=
  List.getElem?_append_left h

/-- Nodes that are added at the end leave the old ones as they are. -/
theorem node?_append {C D : List (ForestNode α)} (h : (⟨C⟩ : StaticForest α).node? i = some node) :
    (⟨C ++ D⟩ : StaticForest α).node? i = some node := by
  rw [node?_append_left (lt_size h)]
  exact h

theorem node?_add_self (f : StaticForest α) (data : α) :
    (f.add data).2.node? f.size = some ⟨data, []⟩ := List.getElem?_concat_length

/-- A node of the forest after `add` was there before, or it is the new one. -/
theorem node?_add_cases {data : α} (h : (f.add data).2.node? i = some node) :
    f.node? i = some node ∨ i = f.size ∧ node = ⟨data, []⟩ := by
  rcases Nat.lt_or_ge i f.size with hi | hi
  · left
    rw [← h]
    exact (node?_append_left hi).symm
  · right
    have hlt := lt_size h
    rw [size_add] at hlt
    obtain rfl := Nat.le_antisymm (Nat.le_of_lt_succ hlt) hi
    rw [node?_add_self] at h
    exact ⟨rfl, (Option.some.inj h).symm⟩

theorem node?_addChild (f : StaticForest α) (parent child i : Nat) :
    (f.addChild parent child).node? i = (f.node? i).map fun node =>
      if parent = i then { node with children := node.children ++ [child] } else node :=
  List.getElem?_modify _ _ _ _

end Nodes

end StaticForest

/-! ## The cache -/

/-- `SolutionCache`. -/
structure SolutionCache (κ : Type) where
  solutions : StaticForest Move
  solutionMap : κ → Option Nat
  maxSignatures : κ → Option (Int × Int)
  minSignatures : κ → Option (Int × Int)

namespace SolutionCache
variable {κ : Type}

/-- The cache before the first search. -/
def initial : SolutionCache κ := ⟨.clear, fun _ => none, fun _ => none, fun _ => none⟩

/-- The score map that a call uses. -/
def signatures (self : SolutionCache κ) (maxOrMin : Bool) : κ → Option (Int × Int) :=
  if maxOrMin then self.maxSignatures else self.minSignatures

/-- `getScoreFromCache`: the score it stores when it returns true. -/
def getScoreFromCache (self : SolutionCache κ) (maxOrMin : Bool) (sig : κ) (height : Int) :
    Option Int :=
  match self.signatures maxOrMin sig with
  | none => none
  | some entry =>
      if entry.1 ≥ height then some NONE
      else if entry.2 ≤ height then some CHECKMATE
      else none

/-- `getSolution`, with `none` for `NULL_INDEX`. -/
def getSolution (self : SolutionCache κ) (sig : κ) : Option Nat := self.solutionMap sig

variable [DecidableEq κ]

/-- One score map after an entry is written. -/
def setEntry (self : SolutionCache κ) (maxOrMin : Bool) (sig : κ) (entry : Int × Int) :
    SolutionCache κ :=
  if maxOrMin then { self with maxSignatures := Function.update self.maxSignatures sig (some entry) }
  else { self with minSignatures := Function.update self.minSignatures sig (some entry) }

/-- `updateCache`. -/
def updateCache (flags : Flags) (self : SolutionCache κ) (maxOrMin : Bool) (sig : κ)
    (height score : Int) : SolutionCache κ :=
  if height < flags.minStoreLevel then self
  else
    match self.signatures maxOrMin sig with
    | some entry =>
        if score < CHECKMATE && entry.1 < height then
          self.setEntry maxOrMin sig (height, entry.2)
        else if entry.2 > height then self.setEntry maxOrMin sig (entry.1, height)
        else self
    | none =>
        if score < CHECKMATE then self.setEntry maxOrMin sig (height, INT_MAX)
        else self.setEntry maxOrMin sig (-INT_MAX, height)

/-- `addSolutionNode(key, board)`: a node is added in any case, and the map's
index is returned, which is an older node's when the key was there already. -/
def addSolutionNode (self : SolutionCache κ) (key : κ) (board : Board) : Nat × SolutionCache κ :=
  let (idx, solutions) := self.solutions.add board.lastMove
  match self.solutionMap key with
  | some old => (old, { self with solutions })
  | none =>
      (idx, { self with solutions, solutionMap := Function.update self.solutionMap key (some idx) })

/-- `addSolutionNode(board)`. -/
def addReplyNode (self : SolutionCache κ) (board : Board) : Nat × SolutionCache κ :=
  let (idx, solutions) := self.solutions.add board.lastMove
  (idx, { self with solutions })

def addSolutionChild (self : SolutionCache κ) (parent child : Nat) : SolutionCache κ :=
  { self with solutions := self.solutions.addChild parent child }

/-- The loop of `storeSolution` over the replies. -/
def storeReplies (parent : Nat) : List Board → List Nat → SolutionCache κ → SolutionCache κ
  | [], _, self => self
  | board :: boards, trees, self =>
      let (idx, self) := self.addReplyNode board
      let self := self.addSolutionChild parent idx
      match trees with
      | [] => storeReplies parent boards [] self
      | subTree :: trees => storeReplies parent boards trees (self.addSolutionChild idx subTree)

/-- `storeSolution` of a round whose first-side move led to `maxStepState`. -/
def storeSolution (self : SolutionCache κ) (key : κ) (maxStepState : Board)
    (minStepStates : List Board) (minStepSolutionTrees : List Nat) : Nat × SolutionCache κ :=
  let (parent, self) := self.addSolutionNode key maxStepState
  (parent, self.storeReplies parent minStepStates minStepSolutionTrees)


/-! ## What the operations change -/

section Changes
variable (self : SolutionCache κ)

theorem signatures_setEntry (mm mm' : Bool) (sig sig' : κ) (entry : Int × Int) :
    (self.setEntry mm sig entry).signatures mm' sig' =
      if mm' = mm ∧ sig' = sig then some entry else self.signatures mm' sig' := by
  unfold setEntry signatures
  cases mm <;> cases mm' <;> by_cases h : sig' = sig <;> simp [h]

@[simp] theorem solutionMap_setEntry (mm : Bool) (sig : κ) (entry : Int × Int) :
    (self.setEntry mm sig entry).solutionMap = self.solutionMap := by
  unfold setEntry; split_ifs <;> rfl

@[simp] theorem solutions_setEntry (mm : Bool) (sig : κ) (entry : Int × Int) :
    (self.setEntry mm sig entry).solutions = self.solutions := by
  unfold setEntry; split_ifs <;> rfl

/-- The entry that `updateCache` leaves for the signature it is called with. -/
def updatedEntry (flags : Flags) (old : Option (Int × Int)) (height score : Int) :
    Option (Int × Int) :=
  if height < flags.minStoreLevel then old
  else
    match old with
    | some entry =>
        if score < CHECKMATE && entry.1 < height then some (height, entry.2)
        else if entry.2 > height then some (entry.1, height)
        else some entry
    | none => if score < CHECKMATE then some (height, INT_MAX) else some (-INT_MAX, height)

omit [DecidableEq κ] in
/-- The ways in which an entry comes about. -/
theorem updatedEntry_cases {flags : Flags} {old : Option (Int × Int)} {height score : Int}
    {entry : Int × Int} (h : updatedEntry flags old height score = some entry) :
    old = some entry ∨
    (score < CHECKMATE ∧ old = none ∧ entry = (height, INT_MAX)) ∨
    (score < CHECKMATE ∧ ∃ e, old = some e ∧ e.1 < height ∧ entry = (height, e.2)) ∨
    (¬ score < CHECKMATE ∧ old = none ∧ entry = (-INT_MAX, height)) ∨
    ∃ e, old = some e ∧ ¬ (score < CHECKMATE ∧ e.1 < height) ∧ height < e.2 ∧
      entry = (e.1, height) := by
  unfold updatedEntry at h
  by_cases hlow : height < flags.minStoreLevel
  · rw [if_pos hlow] at h
    exact Or.inl h
  rw [if_neg hlow] at h
  cases old with
  | none =>
    by_cases hs : score < CHECKMATE
    · simp only [if_pos hs, Option.some.injEq] at h
      exact Or.inr (Or.inl ⟨hs, rfl, h.symm⟩)
    · simp only [if_neg hs, Option.some.injEq] at h
      exact Or.inr (Or.inr (Or.inr (Or.inl ⟨hs, rfl, h.symm⟩)))
  | some e =>
    simp only [Bool.and_eq_true, decide_eq_true_eq] at h
    split_ifs at h with h1 h2
    · exact Or.inr (Or.inr (Or.inl ⟨h1.1, e, rfl, h1.2, (Option.some.inj h).symm⟩))
    · exact Or.inr (Or.inr (Or.inr (Or.inr ⟨e, rfl, h1, h2, (Option.some.inj h).symm⟩)))
    · exact Or.inl h

/-- **`updateCache` writes one entry of one score map.** -/
theorem signatures_updateCache (flags : Flags) (mm mm' : Bool) (sig sig' : κ) (height score : Int) :
    (self.updateCache flags mm sig height score).signatures mm' sig' =
      if mm' = mm ∧ sig' = sig then updatedEntry flags (self.signatures mm sig) height score
      else self.signatures mm' sig' := by
  have hsame : ∀ old, self.signatures mm sig = old →
      self.signatures mm' sig' = if mm' = mm ∧ sig' = sig then old else self.signatures mm' sig' := by
    intro old hold
    split_ifs with h
    · rw [h.1, h.2, hold]
    · rfl
  unfold updateCache updatedEntry
  by_cases hlow : height < flags.minStoreLevel
  · rw [if_pos hlow, if_pos hlow]
    exact hsame _ rfl
  · rw [if_neg hlow, if_neg hlow]
    cases he : self.signatures mm sig with
    | none => dsimp only; split_ifs <;> simp_all [signatures_setEntry]
    | some entry =>
      dsimp only
      split_ifs <;> simp_all [signatures_setEntry]

theorem updateCache_cases (flags : Flags) (mm : Bool) (sig : κ) (height score : Int) :
    self.updateCache flags mm sig height score = self ∨
      ∃ entry, self.updateCache flags mm sig height score = self.setEntry mm sig entry := by
  unfold updateCache
  by_cases hlow : height < flags.minStoreLevel
  · exact Or.inl (if_pos hlow)
  · rw [if_neg hlow]
    cases self.signatures mm sig with
    | none => dsimp only; split_ifs <;> exact Or.inr ⟨_, rfl⟩
    | some entry =>
      dsimp only
      split_ifs
      · exact Or.inr ⟨_, rfl⟩
      · exact Or.inr ⟨_, rfl⟩
      · exact Or.inl rfl

@[simp] theorem solutionMap_updateCache (flags : Flags) (mm : Bool) (sig : κ) (height score : Int) :
    (self.updateCache flags mm sig height score).solutionMap = self.solutionMap := by
  rcases self.updateCache_cases flags mm sig height score with h | ⟨_, h⟩ <;> rw [h]
  exact self.solutionMap_setEntry mm sig _

@[simp] theorem solutions_updateCache (flags : Flags) (mm : Bool) (sig : κ) (height score : Int) :
    (self.updateCache flags mm sig height score).solutions = self.solutions := by
  rcases self.updateCache_cases flags mm sig height score with h | ⟨_, h⟩ <;> rw [h]
  exact self.solutions_setEntry mm sig _

omit [DecidableEq κ] in
theorem storeReplies_maps (parent : Nat) : ∀ (boards : List Board) (trees : List Nat)
    (self : SolutionCache κ),
    (self.storeReplies parent boards trees).solutionMap = self.solutionMap ∧
      (self.storeReplies parent boards trees).signatures = self.signatures := by
  intro boards
  induction boards with
  | nil => intro trees self; exact ⟨rfl, rfl⟩
  | cons board boards ih =>
    intro trees self
    cases trees with
    | nil => exact ih [] _
    | cons t trees => exact ih trees _

/-- **`storeSolution` enters its key if it is not there**, and touches no score. -/
theorem storeSolution_maps (key : κ) (s : Board) (boards : List Board) (trees : List Nat) :
    (self.storeSolution key s boards trees).2.signatures = self.signatures ∧
      (self.storeSolution key s boards trees).2.solutionMap key =
        some (self.storeSolution key s boards trees).1 ∧
      ∀ sig t, self.solutionMap sig = some t →
        (self.storeSolution key s boards trees).2.solutionMap sig = some t := by
  unfold storeSolution addSolutionNode
  cases hk : self.solutionMap key with
  | some old =>
    obtain ⟨h1, h2⟩ := storeReplies_maps old boards trees
      { self with solutions := (self.solutions.add s.lastMove).2 }
    refine ⟨h2, ?_, fun sig t ht => ?_⟩
    · show (SolutionCache.storeReplies old boards trees _).solutionMap key = some old
      rw [h1]; exact hk
    · show (SolutionCache.storeReplies old boards trees _).solutionMap sig = some t
      rw [h1]; exact ht
  | none =>
    obtain ⟨h1, h2⟩ := storeReplies_maps (self.solutions.add s.lastMove).1 boards trees
      { self with
        solutions := (self.solutions.add s.lastMove).2
        solutionMap := Function.update self.solutionMap key (some (self.solutions.add s.lastMove).1) }
    refine ⟨h2, ?_, fun sig t ht => ?_⟩
    · show (SolutionCache.storeReplies _ boards trees _).solutionMap key = some _
      rw [h1]; exact Function.update_self _ _ _
    · show (SolutionCache.storeReplies _ boards trees _).solutionMap sig = some t
      rw [h1]
      have hne : sig ≠ key := by
        rintro rfl
        rw [hk] at ht; cases ht
      show Function.update self.solutionMap key _ sig = some t
      rw [Function.update_of_ne hne]
      exact ht

end Changes

/-! ## What a score map answers after any calls -/

/-- A call of `updateCache` on one score map. -/
structure Update (κ : Type) where
  sig : κ
  height : Int
  score : Int

/-- The cache after a sequence of calls on one score map, the latest call first. -/
def updates (flags : Flags) (maxOrMin : Bool) : List (Update κ) → SolutionCache κ
  | [] => initial
  | u :: earlier =>
      (updates flags maxOrMin earlier).updateCache flags maxOrMin u.sig u.height u.score

/-- The call lowers the mate bound of its signature: its score is no failure, or a
failure that does not raise the failure bound. -/
def LowersMateBound (cache : SolutionCache κ) (maxOrMin : Bool) (u : Update κ) : Prop :=
  match cache.signatures maxOrMin u.sig with
  | none => ¬ u.score < CHECKMATE
  | some entry => ¬ (u.score < CHECKMATE ∧ entry.1 < u.height) ∧ u.height < entry.2

/-- Only mates lower the mate bound of a signature. -/
def MateBoundsAreMates (flags : Flags) (maxOrMin : Bool) (sig : κ) : List (Update κ) → Prop
  | [] => True
  | u :: earlier => MateBoundsAreMates flags maxOrMin sig earlier ∧
      (u.sig = sig → (updates flags maxOrMin earlier).LowersMateBound maxOrMin u →
        u.score = CHECKMATE)

section Contract
variable {flags : Flags} {mm : Bool}

theorem signatures_updates_cons (u : Update κ) (earlier : List (Update κ)) (sig : κ) :
    (updates flags mm (u :: earlier)).signatures mm sig =
      if sig = u.sig then
        updatedEntry flags ((updates flags mm earlier).signatures mm u.sig) u.height u.score
      else (updates flags mm earlier).signatures mm sig := by
  rw [updates, signatures_updateCache]
  simp only [true_and]

/-- The failure bound of an entry comes from a failure. -/
theorem failureBound_of_updates : ∀ {us : List (Update κ)} {sig : κ} {entry : Int × Int},
    (updates flags mm us).signatures mm sig = some entry → -INT_MAX < entry.1 →
    ∃ u ∈ us, u.sig = sig ∧ u.score < CHECKMATE ∧ u.height = entry.1 := by
  intro us
  induction us with
  | nil => intro sig entry h; cases mm <;> cases h
  | cons u earlier ih =>
    intro sig entry h hbound
    have old : ∀ e : Int × Int, (updates flags mm earlier).signatures mm sig = some e →
        -INT_MAX < e.1 → ∃ u' ∈ u :: earlier, u'.sig = sig ∧ u'.score < CHECKMATE ∧
          u'.height = e.1 := by
      intro e he hb
      obtain ⟨u', hu', h'⟩ := ih he hb
      exact ⟨u', List.mem_cons_of_mem u hu', h'⟩
    rw [signatures_updates_cons] at h
    split_ifs at h with hsig
    · subst hsig
      rcases updatedEntry_cases h with h | ⟨hs, -, rfl⟩ | ⟨hs, e, -, -, rfl⟩ | ⟨-, -, rfl⟩ |
        ⟨e, he, -, -, rfl⟩
      · exact old entry h hbound
      · exact ⟨u, List.mem_cons_self, rfl, hs, rfl⟩
      · exact ⟨u, List.mem_cons_self, rfl, hs, rfl⟩
      · exact absurd hbound (lt_irrefl _)
      · exact old e he hbound
    · exact old entry h hbound

/-- The mate bound of an entry comes from a mate, if only mates lower it. -/
theorem mateBound_of_updates : ∀ {us : List (Update κ)} {sig : κ} {entry : Int × Int},
    MateBoundsAreMates flags mm sig us → (updates flags mm us).signatures mm sig = some entry →
    entry.2 < INT_MAX → ∃ u ∈ us, u.sig = sig ∧ u.score = CHECKMATE ∧ u.height = entry.2 := by
  intro us
  induction us with
  | nil => intro sig entry _ h; cases mm <;> cases h
  | cons u earlier ih =>
    intro sig entry hmates h hbound
    obtain ⟨hearlier, hu⟩ := hmates
    have old : ∀ e : Int × Int, (updates flags mm earlier).signatures mm sig = some e →
        e.2 < INT_MAX → ∃ u' ∈ u :: earlier, u'.sig = sig ∧ u'.score = CHECKMATE ∧
          u'.height = e.2 := by
      intro e he hb
      obtain ⟨u', hu', h'⟩ := ih hearlier he hb
      exact ⟨u', List.mem_cons_of_mem u hu', h'⟩
    rw [signatures_updates_cons] at h
    split_ifs at h with hsig
    · subst hsig
      rcases updatedEntry_cases h with h | ⟨-, -, rfl⟩ | ⟨-, e, he, -, rfl⟩ | ⟨hs, hnone, rfl⟩ |
        ⟨e, he, hs, hlt, rfl⟩
      · exact old entry h hbound
      · exact absurd hbound (lt_irrefl _)
      · exact old e he hbound
      · -- the first result of the signature, and no failure
        refine ⟨u, List.mem_cons_self, rfl, hu rfl ?_, rfl⟩
        rw [LowersMateBound, hnone]
        exact hs
      · -- the branch that a failure may take as well
        refine ⟨u, List.mem_cons_self, rfl, hu rfl ?_, rfl⟩
        rw [LowersMateBound, he]
        exact ⟨hs, hlt⟩
    · exact old entry h hbound

omit [DecidableEq κ] in
/-- What an answer says about the entry. -/
theorem getScoreFromCache_eq_some {cache : SolutionCache κ} {sig : κ} {h score : Int}
    (hget : cache.getScoreFromCache mm sig h = some score) :
    ∃ entry, cache.signatures mm sig = some entry ∧
      ((score = NONE ∧ h ≤ entry.1) ∨ (score = CHECKMATE ∧ entry.2 ≤ h)) := by
  unfold getScoreFromCache at hget
  cases hentry : cache.signatures mm sig with
  | none => rw [hentry] at hget; cases hget
  | some entry =>
    rw [hentry] at hget
    dsimp only at hget
    split_ifs at hget with h1 h2
    · exact ⟨entry, rfl, Or.inl ⟨(Option.some.inj hget).symm, h1⟩⟩
    · exact ⟨entry, rfl, Or.inr ⟨(Option.some.inj hget).symm, h2⟩⟩

end Contract

/-- **The contract of a score map.**  After any calls, an answer `NONE` for a height
comes from a failure at that height or above, and the calls for one signature leave
the answers for the others alone.  An answer `CHECKMATE` comes from a mate at that
height or below, provided that no call with another score has lowered the mate
bound of the signature. -/
theorem score_contract (flags : Flags) (mm : Bool) (us : List (Update κ)) (sig : κ) {h : Int}
    (h1 : 1 ≤ h) (hmax : h < INT_MAX) :
    (MateBoundsAreMates flags mm sig us →
      (updates flags mm us).getScoreFromCache mm sig h = some CHECKMATE →
      ∃ u ∈ us, u.sig = sig ∧ u.score = CHECKMATE ∧ u.height ≤ h) ∧
    ((updates flags mm us).getScoreFromCache mm sig h = some NONE →
      ∃ u ∈ us, u.sig = sig ∧ u.score < CHECKMATE ∧ h ≤ u.height) ∧
    ∀ u : Update κ, u.sig ≠ sig →
      (updates flags mm (u :: us)).getScoreFromCache mm sig h =
        (updates flags mm us).getScoreFromCache mm sig h := by
  refine ⟨fun hmates hget => ?_, fun hget => ?_, fun u hu => ?_⟩
  · obtain ⟨entry, hentry, ⟨hs, -⟩ | ⟨-, hle⟩⟩ := getScoreFromCache_eq_some hget
    · cases hs
    · obtain ⟨u, hmem, hsig, hs, hheight⟩ :=
        mateBound_of_updates hmates hentry (lt_of_le_of_lt hle hmax)
      exact ⟨u, hmem, hsig, hs, hheight ▸ hle⟩
  · obtain ⟨entry, hentry, ⟨-, hle⟩ | ⟨hs, -⟩⟩ := getScoreFromCache_eq_some hget
    · have hlow : -INT_MAX < entry.1 := lt_of_lt_of_le (by decide) (h1.trans hle)
      obtain ⟨u, hmem, hsig, hs, hheight⟩ := failureBound_of_updates hentry hlow
      exact ⟨u, hmem, hsig, hs, hheight ▸ hle⟩
    · cases hs
  · unfold getScoreFromCache
    rw [signatures_updates_cons, if_neg (Ne.symm hu)]

/-- A failure at height 3 and then a mate at height 4: the answers are right. -/
theorem score_contract_mate :
    (updates Flags.default true [⟨0, 4, CHECKMATE⟩, ⟨0, 3, NONE⟩]).getScoreFromCache true 0 4 =
        some CHECKMATE ∧
      ∃ u ∈ ([⟨0, 4, CHECKMATE⟩, ⟨0, 3, NONE⟩] : List (Update ℕ)),
        u.sig = 0 ∧ u.score = CHECKMATE ∧ u.height ≤ 4 := by
  have hget : (updates Flags.default true
      [⟨(0 : ℕ), 4, CHECKMATE⟩, ⟨0, 3, NONE⟩]).getScoreFromCache true 0 4 = some CHECKMATE := by
    decide
  have hmates : MateBoundsAreMates Flags.default true (0 : ℕ)
      [⟨0, 4, CHECKMATE⟩, ⟨0, 3, NONE⟩] := by
    refine ⟨⟨trivial, fun _ hlow => ?_⟩, fun _ _ => rfl⟩
    exact absurd (by decide : NONE < CHECKMATE) hlow
  exact ⟨hget, (score_contract Flags.default true _ 0 (by decide) (by decide)).1 hmates hget⟩

/-- A failure at height 5 and then one at height 3: from height 6 on the map answers
`CHECKMATE`, and no call had that score. -/
theorem score_contract_fails :
    (∀ u ∈ ([⟨0, 3, NONE⟩, ⟨0, 5, NONE⟩] : List (Update ℕ)),
      Flags.default.minStoreLevel ≤ u.height ∧ u.height < INT_MAX) ∧
    (updates Flags.default true [⟨(0 : ℕ), 3, NONE⟩, ⟨0, 5, NONE⟩]).getScoreFromCache true 0 6 =
      some CHECKMATE ∧
    ¬ ∃ u ∈ ([⟨0, 3, NONE⟩, ⟨0, 5, NONE⟩] : List (Update ℕ)),
      u.sig = 0 ∧ u.score = CHECKMATE ∧ u.height ≤ 6 := by
  refine ⟨by decide, by decide, by decide⟩

end SolutionCache
end Chess
