import Mathlib.Data.List.Basic

/-! # Programs that read a table, with what they read

A program that reads a table may be faulty only in what it asks for: a read
outside of the table that is not used later changes no result.  `Reading ι β` is
the result of such a program together with the indices it has asked for, in
order.  `ask` reads one index, `both` is the conjunction that evaluates its second
part only if the first is true, `every` is the loop that leaves at the first
failure, and `gather` is the loop that collects.

`Within P x` says that everything that was read satisfies `P`.  Sequencing is an
equivalence (`within_bind`): what comes later is asked about the values that came
before, so a proof follows the text of the program and needs only the values of
its parts.
-/
namespace ReadTrace

variable {ι α β : Type}

/-- A result, and the indices that were read for it. -/
structure Reading (ι β : Type) where
  value : β
  reads : List ι

instance : Monad (Reading ι) where
  pure value := ⟨value, []⟩
  bind x f := ⟨(f x.value).value, x.reads ++ (f x.value).reads⟩

/-- Read one entry of a table. -/
def ask (table : ι → β) (i : ι) : Reading ι β := ⟨table i, [i]⟩

/-- `x && y`: the second part is evaluated only if the first is true. -/
def both (x y : Reading ι Bool) : Reading ι Bool := ⟨x.value && y.value,
  x.reads ++ if x.value then y.reads else []⟩

/-- Run `yes` if the test gives true. -/
def whenever (test : Reading ι Bool) (yes : Reading ι (List β)) : Reading ι (List β) :=
  ⟨if test.value then yes.value else [], test.reads ++ if test.value then yes.reads else []⟩

/-- A loop that ends with false at the first element for which the test gives false. -/
def every (test : α → Reading ι Bool) : List α → Reading ι Bool
  | [] => ⟨true, []⟩
  | x :: xs => both (test x) (every test xs)

/-- A loop that collects what its body gives. -/
def gather (body : α → Reading ι (List β)) : List α → Reading ι (List β)
  | [] => ⟨[], []⟩
  | x :: xs => ⟨(body x).value ++ (gather body xs).value, (body x).reads ++ (gather body xs).reads⟩

/-! ## Values -/

@[simp] theorem value_pure (v : β) : (pure v : Reading ι β).value = v := rfl

@[simp] theorem value_bind (x : Reading ι α) (f : α → Reading ι β) :
    (x >>= f).value = (f x.value).value := rfl

@[simp] theorem value_ask (table : ι → β) (i : ι) : (ask table i).value = table i := rfl

@[simp] theorem value_both (x y : Reading ι Bool) : (both x y).value = (x.value && y.value) := rfl

@[simp] theorem value_whenever (test : Reading ι Bool) (yes : Reading ι (List β)) :
    (whenever test yes).value = if test.value then yes.value else [] := rfl

/-- The test is often the negation of a condition that ends a loop. -/
theorem value_whenever_of_not {test : Reading ι Bool} {stop : Bool} (h : test.value = !stop)
    (yes : Reading ι (List β)) :
    (whenever test yes).value = if stop then [] else yes.value := by
  rw [value_whenever, h]
  cases stop <;> rfl

@[simp] theorem value_every (test : α → Reading ι Bool) (xs : List α) :
    (every test xs).value = xs.all fun x => (test x).value := by
  induction xs with
  | nil => rfl
  | cons x xs ih => rw [every, value_both, ih, List.all_cons]

@[simp] theorem value_gather (body : α → Reading ι (List β)) (xs : List α) :
    (gather body xs).value = xs.flatMap fun x => (body x).value := by
  induction xs with
  | nil => rfl
  | cons x xs ih =>
    rw [List.flatMap_cons, ← ih]
    rfl

/-! ## What is read -/

/-- Everything that was read satisfies `P`. -/
def Reading.Within (P : ι → Prop) (x : Reading ι β) : Prop := ∀ i ∈ x.reads, P i

variable {P : ι → Prop}

@[simp] theorem within_pure (v : β) : (pure v : Reading ι β).Within P := by
  intro i hi
  cases hi

@[simp] theorem within_bind (x : Reading ι α) (f : α → Reading ι β) :
    (x >>= f).Within P ↔ x.Within P ∧ (f x.value).Within P :=
  List.forall_mem_append

@[simp] theorem within_ask (table : ι → β) (i : ι) : (ask table i).Within P ↔ P i :=
  List.forall_mem_singleton

theorem forall_mem_append_ite {xs ys : List ι} {c : Bool} :
    (∀ i ∈ xs ++ (if c then ys else []), P i) ↔ (∀ i ∈ xs, P i) ∧ (c = true → ∀ i ∈ ys, P i) := by
  rw [List.forall_mem_append]
  cases c
  · simp
  · simp

@[simp] theorem within_both (x y : Reading ι Bool) :
    (both x y).Within P ↔ x.Within P ∧ (x.value = true → y.Within P) :=
  forall_mem_append_ite

@[simp] theorem within_whenever (test : Reading ι Bool) (yes : Reading ι (List β)) :
    (whenever test yes).Within P ↔ test.Within P ∧ (test.value = true → yes.Within P) :=
  forall_mem_append_ite

/-- A loop whose first test fails asks for nothing more. -/
theorem within_every_of_first {test : α → Reading ι Bool} {x : α} (xs : List α)
    (hread : (test x).Within P) (hstop : (test x).value = false) :
    (every test (x :: xs)).Within P := by
  refine (within_both _ _).mpr ⟨hread, fun h => ?_⟩
  rw [hstop] at h
  cases h

@[simp] theorem within_gather (body : α → Reading ι (List β)) (xs : List α) :
    (gather body xs).Within P ↔ ∀ x ∈ xs, (body x).Within P := by
  induction xs with
  | nil =>
    constructor
    · intro _ x hx
      cases hx
    · intro _ i hi
      cases hi
  | cons x xs ih =>
    rw [List.forall_mem_cons, ← ih]
    exact List.forall_mem_append

end ReadTrace
