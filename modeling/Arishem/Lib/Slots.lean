import Mathlib.Algebra.GroupWithZero.Nat
import Mathlib.Algebra.BigOperators.Group.List.Basic
import Mathlib.Algebra.Order.Group.Nat
import Mathlib.Order.Basic

/-!
# Slot tables

A table of fixed size is a list whose slots are overwritten in place (`List.set`). The facts here
are those a bookkeeping invariant over such a table needs: how a sum over the slots changes when one
slot is overwritten, that the keys of the occupied slots stay distinct, and what a left-to-right
scan for the first minimum returns.
-/

namespace Slots

section
variable {α β κ : Type*}

/-- Overwriting a slot exchanges its contribution to a sum. -/
theorem sum_map_set [AddCommMonoid β] (f : α → β) (a : α) :
    ∀ (l : List α) (i : ℕ) (h : i < l.length),
      ((l.set i a).map f).sum + f l[i] = (l.map f).sum + f a
  | x :: l, 0, _ => by
    simp only [List.set_cons_zero, List.map_cons, List.sum_cons, List.getElem_cons_zero]
    rw [add_right_comm, add_comm (f a), add_right_comm]
  | x :: l, i + 1, h => by
    have ih := sum_map_set f a l i (Nat.lt_of_succ_lt_succ h)
    simp only [List.set_cons_succ, List.map_cons, List.sum_cons, List.getElem_cons_succ]
    rw [add_assoc, ih, add_assoc]

/-- Overwriting a slot that fails a test adds the new content's answer. -/
theorem any_set_of_not (f : α → Bool) (a : α) :
    ∀ (l : List α) (i : ℕ) (h : i < l.length), f l[i] = false → (l.set i a).any f = (l.any f || f a)
  | x :: l, 0, _, hf => by
    simp only [List.getElem_cons_zero] at hf
    simp [hf, Bool.or_comm]
  | x :: l, i + 1, h, hf => by
    have ih := any_set_of_not f a l i (Nat.lt_of_succ_lt_succ h) (by simpa using hf)
    simp only [List.set_cons_succ, List.any_cons, ih, Bool.or_assoc]

/-- Overwriting a slot by one with the same answer to a test. -/
theorem any_set_of_eq (f : α → Bool) (a : α) :
    ∀ (l : List α) (i : ℕ) (h : i < l.length), f a = f l[i] → (l.set i a).any f = l.any f
  | x :: l, 0, _, hf => by
    simp only [List.getElem_cons_zero] at hf
    simp [hf]
  | x :: l, i + 1, h, hf => by
    have ih := any_set_of_eq f a l i (Nat.lt_of_succ_lt_succ h) (by simpa using hf)
    simp only [List.set_cons_succ, List.any_cons, ih]

/-- The first element that satisfies a test, with its position. -/
def lookup (p : α → Bool) : List α → Option (ℕ × α)
  | [] => none
  | a :: l => if p a then some (0, a) else (lookup p l).map fun r => (r.1 + 1, r.2)

/-- A successful lookup names an element that satisfies the test. -/
theorem lookup_some {p : α → Bool} : ∀ {l : List α} {i : ℕ} {a : α}, lookup p l = some (i, a) →
    ∃ h : i < l.length, l[i] = a ∧ p a = true
  | x :: l, i, a, h => by
    rw [lookup] at h
    split at h
    · rename_i hx
      obtain ⟨rfl, rfl⟩ : 0 = i ∧ x = a := by simpa using h
      exact ⟨by simp, by simp, hx⟩
    · obtain ⟨⟨j, b⟩, hj, hij⟩ := Option.map_eq_some_iff.1 h
      obtain ⟨rfl, rfl⟩ : j + 1 = i ∧ b = a := by simpa using hij
      obtain ⟨hlt, he, hp⟩ := lookup_some hj
      exact ⟨by simpa using hlt, by simpa using he, hp⟩

/-- A lookup fails when no element satisfies the test. -/
theorem lookup_none {p : α → Bool} : ∀ {l : List α}, lookup p l = none ↔ ∀ a ∈ l, p a = false
  | [] => by simp [lookup]
  | x :: l => by
    rw [lookup]
    by_cases hx : p x = true
    · simp [hx]
    · simp [hx, lookup_none]

/-- The position a lookup gives. -/
theorem findIdx?_eq_lookup {p : α → Bool} :
    ∀ {l : List α}, l.findIdx? p = (lookup p l).map Prod.fst
  | [] => rfl
  | x :: l => by
    rw [List.findIdx?_cons, lookup]
    split
    · rfl
    · rw [findIdx?_eq_lookup, Option.map_map, Option.map_map]
      rfl

/-- What a lookup finds is a member. -/
theorem mem_of_lookup {p : α → Bool} {l : List α} {i : ℕ} {a : α} (h : lookup p l = some (i, a)) :
    a ∈ l := by
  obtain ⟨hi, rfl, _⟩ := lookup_some h
  exact List.getElem_mem hi

/-- Overwriting a slot keeps the elements it does not hold. -/
theorem mem_set_of_ne {l : List α} {i : ℕ} (hi : i < l.length) {a b : α} (h : b ∈ l)
    (hne : l[i] ≠ b) : b ∈ l.set i a := by
  obtain ⟨j, hj, rfl⟩ := List.getElem_of_mem h
  have hij : i ≠ j := fun hij => hne (by subst hij; rfl)
  rw [List.mem_iff_getElem]
  exact ⟨j, by simpa using hj, by rw [List.getElem_set_ne hij]⟩

/-- The occupied slots of a table have distinct keys. -/
def Keyed (occ : α → Prop) (key : α → κ) (l : List α) : Prop :=
  ∀ i j (hi : i < l.length) (hj : j < l.length),
    occ l[i] → occ l[j] → key l[i] = key l[j] → i = j

/-- Overwriting a slot keeps the keys distinct when the new content is free or its key is at no
other slot. -/
theorem Keyed.set {occ : α → Prop} {key : α → κ} {l : List α} (h : Keyed occ key l) {k : ℕ} {a : α}
    (ha : occ a → ∀ j (hj : j < l.length), j ≠ k → occ l[j] → key l[j] ≠ key a) :
    Keyed occ key (l.set k a) := by
  intro i j hi hj oi oj hij
  rw [List.length_set] at hi hj
  rw [List.getElem_set] at oi oj hij
  rw [List.getElem_set] at hij
  by_cases hki : k = i <;> by_cases hkj : k = j
  · omega
  · simp only [if_pos hki] at oi hij
    simp only [if_neg hkj] at oj hij
    exact absurd hij.symm (ha oi j hj (Ne.symm hkj) oj)
  · simp only [if_neg hki] at oi hij
    simp only [if_pos hkj] at oj hij
    exact absurd hij (ha oj i hi (Ne.symm hki) oi)
  · simp only [if_neg hki] at oi hij
    simp only [if_neg hkj] at oj hij
    exact h i j hi hj oi oj hij

/-- Two occupied members with one key are the same. -/
theorem Keyed.eq_of_mem {occ : α → Prop} {key : α → κ} {l : List α} (h : Keyed occ key l)
    {x y : α} (hx : x ∈ l) (hy : y ∈ l) (ox : occ x) (oy : occ y) (hk : key x = key y) :
    x = y := by
  obtain ⟨i, hi, rfl⟩ := List.getElem_of_mem hx
  obtain ⟨j, hj, rfl⟩ := List.getElem_of_mem hy
  obtain rfl := h i j hi hj ox oy hk
  rfl

/-- The keys of the occupied slots, listed, are distinct. -/
theorem Keyed.nodup {occ : α → Prop} [DecidablePred occ] {key : α → κ} {l : List α}
    (h : Keyed occ key l) : ((l.filter (fun a => decide (occ a))).map key).Nodup := by
  rw [List.Nodup, List.pairwise_map, List.pairwise_filter, List.pairwise_iff_getElem]
  intro i j hi hj hij oi oj hk
  have := h i j hi hj (by simpa using oi) (by simpa using oj) hk
  omega

end

section
variable {α κ : Type*} [LinearOrder κ] (sel : α → Bool) (key : α → κ)

/-- Scan a table from slot `i` on for the first selected slot whose key is below every earlier one;
`acc` is the best key and slot so far. -/
def firstMin : List α → ℕ → κ × ℕ → κ × ℕ
  | [], _, acc => acc
  | a :: l, i, acc =>
    firstMin l (i + 1) (if sel a = true ∧ key a < acc.1 then (key a, i) else acc)

variable {sel key}

/-- The scan never raises the key it started from. -/
theorem firstMin_le_acc : ∀ (l : List α) (i : ℕ) (acc : κ × ℕ),
    (firstMin sel key l i acc).1 ≤ acc.1
  | [], _, _ => le_refl _
  | a :: l, i, acc => by
    refine (firstMin_le_acc l _ _).trans ?_
    split
    · exact le_of_lt (by assumption : _ ∧ _).2
    · exact le_refl _

/-- The scan's key is a lower bound of the selected keys. -/
theorem firstMin_le : ∀ (l : List α) (i : ℕ) (acc : κ × ℕ) (a : α), a ∈ l → sel a = true →
    (firstMin sel key l i acc).1 ≤ key a
  | x :: l, i, acc, a, ha, hs => by
    rcases List.mem_cons.1 ha with rfl | ha
    · refine (firstMin_le_acc l _ _).trans ?_
      split
      · exact le_refl _
      · rename_i hn
        exact not_lt.1 fun hlt => hn ⟨hs, hlt⟩
    · exact firstMin_le l _ _ a ha hs

/-- The scan returns what it started from, or a selected slot that attains its key. -/
theorem firstMin_attained (sel : α → Bool) (key : α → κ) : ∀ (l : List α) (i : ℕ) (acc : κ × ℕ),
    firstMin sel key l i acc = acc ∨
      ∃ j, ∃ h : j < l.length, (firstMin sel key l i acc).2 = i + j ∧ sel l[j] = true ∧
        key l[j] = (firstMin sel key l i acc).1 ∧ (firstMin sel key l i acc).1 < acc.1
  | [], _, _ => .inl rfl
  | a :: l, i, acc => by
    rw [firstMin]
    split
    · rename_i hc
      refine .inr ?_
      rcases firstMin_attained sel key l (i + 1) (key a, i) with h | ⟨j, hj, h1, h2, h3, h4⟩
      · rw [h]
        exact ⟨0, by simp, by simp, by simpa using hc.1, by simp, hc.2⟩
      · exact ⟨j + 1, by simpa using hj, by omega, by simpa using h2, by simpa using h3,
          h4.trans hc.2⟩
    · rcases firstMin_attained sel key l (i + 1) acc with h | ⟨j, hj, h1, h2, h3, h4⟩
      · exact .inl h
      · exact .inr ⟨j + 1, by simpa using hj, by omega, by simpa using h2, by simpa using h3, h4⟩

/-- A slot that is not selected may be overwritten by another one that is not. -/
theorem firstMin_set (a : α) (ha : sel a = false) : ∀ (l : List α) (i j : ℕ) (acc : κ × ℕ)
    (h : j < l.length), sel l[j] = false →
      firstMin sel key (l.set j a) i acc = firstMin sel key l i acc
  | x :: l, i, 0, acc, _, hx => by
    have hx : sel x = false := hx
    rw [List.set_cons_zero, firstMin, firstMin]
    simp [ha, hx]
  | x :: l, i, j + 1, acc, h, hx => by
    rw [List.set_cons_succ, firstMin, firstMin]
    exact firstMin_set a ha l (i + 1) j _ (Nat.lt_of_succ_lt_succ h) hx

end

end Slots
