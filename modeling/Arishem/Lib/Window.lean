import Mathlib.Data.List.Basic
import Mathlib.Order.Basic

/-!
# The last elements of a list

A queue of bounded length that drops its oldest element keeps the last elements of what was pushed.
A fold whose result does not depend on where it started, once it has taken some number of steps, can
be computed from these.
-/

namespace Window

section
variable {α β : Type*} {n m : ℕ}

/-- The last `n` elements. -/
def last (n : ℕ) (l : List α) : List α := l.drop (l.length - n)

/-- Push an element, and drop the oldest one when there are `n` already. -/
def push (n : ℕ) (l : List α) (x : α) : List α := (if n ≤ l.length then l.drop 1 else l) ++ [x]

theorem length_last (n : ℕ) (l : List α) : (last n l).length = min n l.length := by
  rw [last, List.length_drop]
  omega

/-- A list that is short enough is kept. -/
theorem last_of_length_le {l : List α} (h : l.length ≤ n) : last n l = l := by
  rw [last, Nat.sub_eq_zero_of_le h, List.drop_zero]

/-- The last elements of the last elements. -/
theorem last_last (h : m ≤ n) (l : List α) : last m (last n l) = last m l := by
  rw [last, length_last, last, List.drop_drop, last]
  congr 1
  omega

/-- Pushing keeps the last elements. -/
theorem push_last (hn : 0 < n) (l : List α) (x : α) :
    push n (last n l) x = last n (l ++ [x]) := by
  have hpast : l.length + 1 - n ≤ l.length := by omega
  rw [push, length_last, last, last, List.length_append, List.length_singleton,
    List.drop_append_of_le_length hpast]
  congr 1
  split
  · rw [List.drop_drop]
    congr 1
    omega
  · congr 1
    omega

/-- Where a fold started makes no difference after `n` steps. -/
def Forgets (f : β → α → β) (n : ℕ) : Prop :=
  ∀ (b b' : β) (l : List α), l.length = n → l.foldl f b = l.foldl f b'

/-- A fold that forgets is the fold over the last elements. -/
theorem Forgets.foldl_last {f : β → α → β} (h : Forgets f n) (b : β) (l : List α) :
    (last n l).foldl f b = l.foldl f b := by
  rcases Nat.lt_or_ge l.length n with hlt | hle
  · rw [last_of_length_le (Nat.le_of_lt hlt)]
  · have hlen : (last n l).length = n := by
      rw [length_last, Nat.min_eq_left hle]
    calc (last n l).foldl f b
        = (last n l).foldl f ((l.take (l.length - n)).foldl f b) := h _ _ _ hlen
      _ = (l.take (l.length - n) ++ l.drop (l.length - n)).foldl f b := by
          rw [List.foldl_append, last]
      _ = l.foldl f b := by rw [List.take_append_drop]

end

end Window
