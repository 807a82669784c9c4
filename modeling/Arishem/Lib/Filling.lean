import Mathlib.Data.List.FinRange
import Mathlib.Logic.Function.Basic

/-!
# Arrays that are filled from the front

An array of fixed size whose free slots hold a default; an element goes to the first free slot, if
there is one. The array then has the first elements that came, in their order.
-/

namespace Filling

section
variable {α β : Type*} {n : ℕ} {d : β} {f : α → β} {l : List α}

/-- The array with the elements of a list, as far as there is room. -/
def fill (n : ℕ) (d : β) (f : α → β) (l : List α) : Fin n → β := fun i => (l[(i : ℕ)]?).elim d f

/-- The first free slot. -/
def firstFree [DecidableEq β] (d : β) (s : Fin n → β) : Option (Fin n) :=
  (List.finRange n).find? fun i => s i = d

theorem fill_apply {i : Fin n} {a : α} (h : l[(i : ℕ)]? = some a) : fill n d f l i = f a := by
  rw [fill, h]
  rfl

theorem fill_congr {g : α → β} (h : ∀ a ∈ l, f a = g a) : fill n d f l = fill n d g l := by
  funext i
  rw [fill, fill]
  cases hi : l[(i : ℕ)]? with
  | none => rfl
  | some a => exact h a (List.mem_of_getElem? hi)

/-- The slot behind the elements is free. -/
theorem fill_length (h : l.length < n) : fill n d f l ⟨l.length, h⟩ = d := by
  rw [fill, List.getElem?_eq_none (Nat.le_refl _)]
  rfl

theorem firstFree_fill [DecidableEq β] (hl : ∀ a ∈ l, f a ≠ d) (h : l.length < n) :
    firstFree d (fill n d f l) = some ⟨l.length, h⟩ := by
  refine List.find?_eq_some_iff_getElem.2 ⟨decide_eq_true (fill_length h), l.length, by simpa using h,
    by simp, fun j hj => ?_⟩
  have hget : fill n d f l ⟨j, hj.trans h⟩ = f l[j] :=
    fill_apply (List.getElem?_eq_getElem hj)
  simpa [hget] using hl _ (List.getElem_mem hj)

theorem firstFree_full [DecidableEq β] (hl : ∀ a ∈ l, f a ≠ d) (h : n ≤ l.length) :
    firstFree d (fill n d f l) = none := by
  refine List.find?_eq_none.2 fun i _ => ?_
  have hi : (i : ℕ) < l.length := i.isLt.trans_le h
  have hget : fill n d f l i = f l[(i : ℕ)] := fill_apply (List.getElem?_eq_getElem hi)
  simpa [hget] using hl _ (List.getElem_mem hi)

/-- An element goes behind the others. -/
theorem update_fill (h : l.length < n) (a : α) :
    Function.update (fill n d f l) ⟨l.length, h⟩ (f a) = fill n d f (l ++ [a]) := by
  funext i
  rcases eq_or_ne i ⟨l.length, h⟩ with rfl | hne
  · rw [Function.update_self]
    exact (fill_apply (by simp)).symm
  · have hlen : (i : ℕ) ≠ l.length := fun heq => hne (Fin.ext heq)
    rw [Function.update_of_ne hne, fill, fill]
    rcases Nat.lt_or_gt_of_ne hlen with hlt | hgt
    · rw [List.getElem?_append_left hlt]
    · rw [List.getElem?_eq_none (Nat.le_of_lt hgt), List.getElem?_eq_none]
      rw [List.length_append, List.length_singleton]
      exact hgt

/-- An element that finds no room is lost. -/
theorem fill_append_of_le (h : n ≤ l.length) (l' : List α) : fill n d f (l ++ l') = fill n d f l := by
  funext i
  rw [fill, fill, List.getElem?_append_left (i.isLt.trans_le h)]

/-- One slot is overwritten when the value of its element changes, and of no other. -/
theorem update_fill_congr {g : α → β} {i : Fin n} {a : α} (ha : l[(i : ℕ)]? = some a)
    (h : ∀ j < l.length, ∀ b, l[j]? = some b → j ≠ i → g b = f b) :
    Function.update (fill n d f l) i (g a) = fill n d g l := by
  funext j
  rcases eq_or_ne j i with rfl | hne
  · rw [Function.update_self, fill_apply ha]
  · rw [Function.update_of_ne hne, fill, fill]
    cases hj : l[(j : ℕ)]? with
    | none => rfl
    | some b =>
      obtain ⟨hlt, -⟩ := List.getElem?_eq_some_iff.1 hj
      exact (h _ hlt b hj fun heq => hne (Fin.ext heq)).symm

end

end Filling
