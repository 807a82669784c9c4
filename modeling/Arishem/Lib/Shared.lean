import Mathlib.Logic.Function.Basic

/-!
# Components that share a cell

Components of one kind, each with a state of its own, run interleaved and read and write one cell.
A component alone keeps in the cell a value that its state determines, its own one. If every step of
an interleaving does what it would have done with its component's own value in the cell, then each
component produces what it produces alone.
-/

/-- A kind of component: the step on an input, from the component's state and the cell, with the new
state, what is left in the cell and the output. -/
structure Sharing (I S C O : Type*) where
  /-- The step. -/
  step : I → S → C → S × C × O

namespace Sharing

variable {ι I S C O : Type*} (M : Sharing I S C O)

/-- A component alone: the outputs of its steps, its state and the cell behind them. -/
def alone : List I → S → C → List O × S × C
  | [], s, c => ([], s, c)
  | x :: xs, s, c =>
    let r := M.step x s c
    let rest := alone xs r.1 r.2.1
    (r.2.2 :: rest.1, rest.2)

section
variable [DecidableEq ι]

/-- An interleaving: the outputs with the component each is of, the states and the cell. -/
def interleaved : List (ι × I) → (ι → S) → C → List (ι × O) × (ι → S) × C
  | [], s, c => ([], s, c)
  | (i, x) :: xs, s, c =>
    let r := M.step x (s i) c
    let rest := interleaved xs (Function.update s i r.1) r.2.1
    ((i, r.2.2) :: rest.1, rest.2)

/-- What is `i`'s in an interleaving. -/
def of {α : Type*} (i : ι) (xs : List (ι × α)) : List α :=
  (xs.filter (·.1 = i)).map (·.2)

@[simp] theorem of_nil {α : Type*} (i : ι) : of i ([] : List (ι × α)) = [] := rfl

@[simp] theorem of_cons_self {α : Type*} (i : ι) (x : α) (xs : List (ι × α)) :
    of i ((i, x) :: xs) = x :: of i xs := by simp [of]

theorem of_cons_ne {α : Type*} {i j : ι} (h : j ≠ i) (x : α) (xs : List (ι × α)) :
    of i ((j, x) :: xs) = of i xs := by simp [of, h]

/-- A relation between the component, its input, the states and the cell holds before every step of
an interleaving. -/
def Along (P : ι → I → (ι → S) → C → Prop) : List (ι × I) → (ι → S) → C → Prop
  | [], _, _ => True
  | (i, x) :: xs, s, c =>
    P i x s c ∧ Along P xs (Function.update s i (M.step x (s i) c).1) (M.step x (s i) c).2.1

variable {M}

theorem Along.mono {P Q : ι → I → (ι → S) → C → Prop} (hPQ : ∀ i x s c, P i x s c → Q i x s c)
    {xs : List (ι × I)} {s : ι → S} {c : C} (h : M.Along P xs s c) : M.Along Q xs s c := by
  induction xs generalizing s c with
  | nil => trivial
  | cons x xs ih => exact ⟨hPQ _ _ _ _ h.1, ih h.2⟩

variable (own : S → C)

/-- The step does to the component what it does with the component's own value in the cell. -/
def AsOwn (i : ι) (x : I) (s : ι → S) (c : C) : Prop :=
  (M.step x (s i) c).1 = (M.step x (s i) (own (s i))).1 ∧
    (M.step x (s i) c).2.2 = (M.step x (s i) (own (s i))).2.2

variable {own}

/-- Steps that all act as with the own value produce, for each component, what it produces alone. -/
theorem interleaved_eq_alone (hown : ∀ x s, (M.step x s (own s)).2.1 = own (M.step x s (own s)).1)
    {xs : List (ι × I)} {s : ι → S} {c : C} (h : M.Along (M.AsOwn own) xs s c) (i : ι) :
    of i (M.interleaved xs s c).1 = (M.alone (of i xs) (s i) (own (s i))).1 ∧
      (M.interleaved xs s c).2.1 i = (M.alone (of i xs) (s i) (own (s i))).2.1 := by
  induction xs generalizing s c with
  | nil => exact ⟨rfl, rfl⟩
  | cons x xs ih =>
    obtain ⟨j, x⟩ := x
    obtain ⟨⟨hstate, hout⟩, hrest⟩ := h
    have hih := ih hrest
    by_cases hj : j = i
    · subst hj
      simp only [Function.update_self] at hih
      simp only [interleaved, of_cons_self, alone, hown]
      rw [hout, hih.1, hih.2, hstate]
      exact ⟨rfl, rfl⟩
    · rw [Function.update_of_ne (Ne.symm hj)] at hih
      simp only [interleaved, of_cons_ne hj]
      exact hih

end

end Sharing
