import Arishem.Lib.Window
import Mathlib.Data.List.Dedup
import Mathlib.Data.List.Induction

/-!
# The most recent values

A least-recently-used list of `n` values holds the last `n` different values of a sequence, in the
order of their last occurrence. Each value carries a count of its repeats since it last entered the
list. The list is computed value by value: one that is in it moves to the back, and a new one evicts
the front when the list is full.
-/

namespace Recency

section
variable {α : Type*} [DecidableEq α] {n : ℕ} {l : List α} {x y : α}

/-- The last `n` different values, the least recent first. -/
def recent (n : ℕ) (l : List α) : List α := Window.last n l.dedup

/-- How often a value was repeated since it last entered, the last value first. -/
def repeatsFrom (n : ℕ) (x : α) : List α → ℕ
  | [] => 0
  | y :: past =>
    if y ≠ x then repeatsFrom n x past
    else if x ∈ recent n past.reverse then repeatsFrom n x past + 1
    else 0

/-- How often a value was repeated since it last entered. -/
def repeats (n : ℕ) (x : α) (l : List α) : ℕ := repeatsFrom n x l.reverse

/-- The next value of the sequence. -/
def call (n : ℕ) (entries : List (α × ℕ)) (x : α) : List (α × ℕ) :=
  match entries.lookup x with
  | some c => entries.filter (·.1 ≠ x) ++ [(x, c + 1)]
  | none => Window.push n entries (x, 0)

/-- The list behind a sequence. -/
def lru (n : ℕ) (l : List α) : List (α × ℕ) := l.foldl (call n) []

theorem nodup_recent (n : ℕ) (l : List α) : (recent n l).Nodup :=
  (List.nodup_dedup l).sublist (List.drop_sublist _ _)

theorem length_recent_le (n : ℕ) (l : List α) : (recent n l).length ≤ n := by
  rw [recent, Window.length_last]
  exact Nat.min_le_left _ _

/-- The last value moves to the back. -/
theorem dedup_snoc (l : List α) (x : α) : (l ++ [x]).dedup = l.dedup.erase x ++ [x] := by
  induction l with
  | nil => rfl
  | cons y l ih =>
    rw [List.cons_append]
    by_cases hy : y ∈ l
    · rw [List.dedup_cons_of_mem (List.mem_append_left _ hy), List.dedup_cons_of_mem hy, ih]
    · by_cases hyx : y = x
      · subst hyx
        have hnot : y ∉ l.dedup := fun h => hy (List.mem_dedup.1 h)
        rw [List.dedup_cons_of_mem (List.mem_append_right _ (List.mem_singleton_self y)),
          List.dedup_cons_of_notMem hy, ih, List.erase_of_not_mem hnot, List.erase_cons_head]
      · have hnot : y ∉ l ++ [x] := by
          rw [List.mem_append, List.mem_singleton]
          exact not_or.2 ⟨hy, hyx⟩
        rw [List.dedup_cons_of_notMem hnot, List.dedup_cons_of_notMem hy, ih,
          List.erase_cons_tail (by simpa using hyx), List.cons_append]

/-- The different values split into those that are too old and the recent ones. -/
theorem dedup_eq_append (n : ℕ) (l : List α) :
    l.dedup = l.dedup.take (l.dedup.length - n) ++ recent n l :=
  (List.take_append_drop _ _).symm

/-- A recent value moves to the back. -/
theorem recent_snoc_of_mem (hn : 0 < n) (h : x ∈ recent n l) :
    recent n (l ++ [x]) = (recent n l).erase x ++ [x] := by
  have hnodup := List.nodup_dedup l
  rw [dedup_eq_append n l, List.nodup_append] at hnodup
  have hold : x ∉ l.dedup.take (l.dedup.length - n) := fun hx => hnodup.2.2 x hx x h rfl
  have hmem : x ∈ l.dedup := by
    rw [dedup_eq_append n l]
    exact List.mem_append_right _ h
  have hpos := List.length_pos_of_mem hmem
  have hlen := List.length_erase_of_mem hmem
  have htake : (l.dedup.take (l.dedup.length - n)).length = l.dedup.length - n := by
    rw [List.length_take]
    omega
  have herase : l.dedup.erase x =
      l.dedup.take (l.dedup.length - n) ++ (recent n l).erase x := by
    conv_lhs => rw [dedup_eq_append n l, List.erase_append_right _ hold]
  rw [recent, dedup_snoc, Window.last, List.length_append, List.length_singleton, hlen,
    Nat.sub_add_cancel hpos, List.drop_append_of_le_length (by omega), herase,
    List.drop_append_of_le_length (by omega), List.drop_of_length_le (by omega), List.nil_append]

/-- A value that is not recent is pushed. -/
theorem recent_snoc_of_not_mem (hn : 0 < n) (h : x ∉ recent n l) :
    recent n (l ++ [x]) = Window.push n (recent n l) x := by
  by_cases hmem : x ∈ l.dedup
  · have hold : x ∈ l.dedup.take (l.dedup.length - n) := by
      rw [dedup_eq_append n l] at hmem
      exact (List.mem_append.1 hmem).resolve_right h
    have hpos := List.length_pos_of_mem hold
    rw [List.length_take] at hpos
    have hlen : (recent n l).length = n := by
      rw [recent, Window.length_last]
      omega
    have hlen' := List.length_erase_of_mem hold
    rw [List.length_take] at hlen'
    have herase : l.dedup.erase x =
        (l.dedup.take (l.dedup.length - n)).erase x ++ recent n l := by
      conv_lhs => rw [dedup_eq_append n l, List.erase_append_left _ hold]
    have hdrop : ((l.dedup.take (l.dedup.length - n)).erase x ++ recent n l ++ [x]).length - n =
        ((l.dedup.take (l.dedup.length - n)).erase x).length + 1 := by
      simp only [List.length_append, List.length_singleton, hlen]
      omega
    rw [recent, dedup_snoc, herase, Window.last, hdrop, ← List.drop_drop, List.append_assoc,
      List.drop_left, Window.push, if_pos (Nat.le_of_eq hlen.symm),
      List.drop_append_of_le_length (by omega)]
  · rw [recent, dedup_snoc, List.erase_of_not_mem hmem, ← Window.push_last hn]
    rfl

/-- The value is repeated, or it enters. -/
theorem repeats_snoc_self (n : ℕ) (l : List α) (x : α) :
    repeats n x (l ++ [x]) = if x ∈ recent n l then repeats n x l + 1 else 0 := by
  simp [repeats, repeatsFrom]

theorem repeats_snoc_of_ne (n : ℕ) (l : List α) (h : y ≠ x) :
    repeats n x (l ++ [y]) = repeats n x l := by
  simp [repeats, repeatsFrom, h]

theorem lru_snoc (n : ℕ) (l : List α) (x : α) : lru n (l ++ [x]) = call n (lru n l) x := by
  simp [lru]

theorem lookup_map (f : α → ℕ) (l : List α) (x : α) :
    (l.map fun y => (y, f y)).lookup x = if x ∈ l then some (f x) else none := by
  induction l with
  | nil => rfl
  | cons y l ih =>
    rw [List.map_cons, List.lookup_cons, ih]
    by_cases hxy : x = y
    · subst hxy
      simp
    · have hbeq : (x == y) = false := by simpa using hxy
      simp [hbeq, hxy]

theorem call_of_some {entries : List (α × ℕ)} {c : ℕ} (h : entries.lookup x = some c) :
    call n entries x = entries.filter (·.1 ≠ x) ++ [(x, c + 1)] := by
  rw [call, h]

theorem call_of_none {entries : List (α × ℕ)} (h : entries.lookup x = none) :
    call n entries x = Window.push n entries (x, 0) := by
  rw [call, h]

/-- The list holds the recent values with their repeats. -/
theorem lru_eq (hn : 0 < n) (l : List α) :
    lru n l = (recent n l).map fun x => (x, repeats n x l) := by
  induction l using List.reverseRecOn with
  | nil => simp [lru, recent, Window.last]
  | append_singleton l x ih =>
    have hlookup := lookup_map (fun y => repeats n y l) (recent n l) x
    -- the other values keep their counts
    have hkeep : ∀ r : List α, x ∉ r →
        r.map (fun y => (y, repeats n y (l ++ [x]))) = r.map fun y => (y, repeats n y l) := by
      intro r hr
      refine List.map_congr_left fun y hy => ?_
      rw [repeats_snoc_of_ne n l]
      rintro rfl
      exact hr hy
    rw [lru_snoc, ih]
    by_cases hx : x ∈ recent n l
    · have hnot : x ∉ (recent n l).erase x := (nodup_recent n l).not_mem_erase
      rw [if_pos hx] at hlookup
      rw [call_of_some hlookup, recent_snoc_of_mem hn hx, List.map_append, List.map_singleton,
        hkeep _ hnot, repeats_snoc_self, if_pos hx, (nodup_recent n l).erase_eq_filter,
        List.filter_map]
      congr 2
      refine List.filter_congr fun y _ => ?_
      by_cases hy : y = x <;> simp [hy]
    · rw [if_neg hx] at hlookup
      rw [call_of_none hlookup, recent_snoc_of_not_mem hn hx, Window.push, Window.push,
        List.map_append, List.map_singleton, repeats_snoc_self, if_neg hx, List.length_map]
      congr 1
      split
      · rw [hkeep _ fun h => hx (List.mem_of_mem_drop h), List.map_drop]
      · rw [hkeep _ hx]

end

end Recency
