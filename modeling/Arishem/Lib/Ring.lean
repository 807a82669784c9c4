import Mathlib.Data.List.Nodup
import Mathlib.Data.List.Perm.Subperm
import Mathlib.Data.Nat.Basic
import Mathlib.Logic.Function.Basic
import Mathlib.Order.Basic

/-!
# Rings

A ring of `n` slots that starts at `head` holds its `k`-th element at the slot `index n head k`: the
slots are numbered from the head on and the numbers start again at the end of the array. A scan of
the ring visits the slots from the head to the end of the array and then those from its start. A ring
in which the free slots are marked holds the list of the elements from its head to its tail.
-/

namespace Ring

variable {n head k k' : ℕ}

/-- The slot `k` places after the head. -/
def index (n head k : ℕ) : ℕ := if head + k < n then head + k else head + k - n

/-- The next slot. -/
def next (n i : ℕ) : ℕ := if i + 1 = n then 0 else i + 1

/-- The slots from the head up to a limit, in the order of a scan: up to the limit when it comes
after the head, and otherwise to the end of the array and from its start to the limit. -/
def scan (n head limit : ℕ) : List ℕ :=
  if head < limit then List.range' head (limit - head)
  else List.range' head (n - head) ++ List.range limit

/-- The number of slots a scan visits. -/
def span (n head limit : ℕ) : ℕ := if head < limit then limit - head else n - head + limit

/-- How many places after the head a slot lies. -/
def place (n head i : ℕ) : ℕ := if head ≤ i then i - head else i + n - head

theorem index_lt (hh : head < n) (hk : k < n) : index n head k < n := by
  rw [index]
  split <;> omega

/-- The slot by its remainder. -/
theorem index_eq_mod (hh : head < n) (hk : k ≤ n) : index n head k = (head + k) % n := by
  rw [index]
  split
  · rename_i hlt
    rw [Nat.mod_eq_of_lt hlt]
  · rename_i hge
    rw [Nat.mod_eq_sub_mod (by omega), Nat.mod_eq_of_lt (by omega)]

@[simp] theorem index_zero (hh : head < n) : index n head 0 = head := by simp [index, hh]

/-- Different places are different slots. -/
theorem index_inj (hk : k < n) (hk' : k' < n)
    (h : index n head k = index n head k') : k = k' := by
  rw [index, index] at h
  split at h <;> split at h <;> omega

theorem next_lt (hh : head < n) : next n head < n := by
  rw [next]
  split <;> omega

/-- The places as seen from the next slot. -/
theorem index_next (hk : k + 1 < n) :
    index n (next n head) k = index n head (k + 1) := by
  rw [index, index, next]
  split <;> split <;> split <;> omega

/-- The slot after the `k`-th. -/
theorem next_index (hh : head < n) (hk : k + 1 ≤ n) :
    next n (index n head k) = index n head (k + 1) := by
  rw [next, index, index]
  split <;> split <;> split <;> omega

/-! ## Places -/

theorem place_lt {i : ℕ} (hi : i < n) : place n head i < n := by
  rw [place]
  split <;> omega

@[simp] theorem place_head : place n head head = 0 := by simp [place]

theorem index_place {i : ℕ} (hh : head < n) (hi : i < n) : index n head (place n head i) = i := by
  rw [index, place]
  split <;> split <;> omega

theorem place_index (hh : head < n) (hk : k < n) : place n head (index n head k) = k := by
  rw [place, index]
  split <;> split <;> omega

theorem place_inj {i i' : ℕ} (hh : head < n) (hi : i < n) (hi' : i' < n)
    (h : place n head i = place n head i') : i = i' := by
  rw [← index_place hh hi, h, index_place hh hi']

/-- Seen from the next slot, all others are one place nearer. -/
theorem place_next {i : ℕ} (hh : head < n) (hi : i < n) (hne : i ≠ head) :
    place n (next n head) i + 1 = place n head i := by
  rw [place, place, next]
  split <;> split <;> split <;> omega

/-- Seen from the next slot, a slot is the last. -/
theorem place_next_self (hh : head < n) : place n (next n head) head + 1 = n := by
  rw [place, next]
  split <;> split <;> omega

/-- A scan visits the places from the head on, one after the other. -/
theorem scan_eq {limit : ℕ} (hh : head < n) (hl : limit ≤ n) :
    scan n head limit = (List.range (span n head limit)).map (index n head) := by
  refine List.ext_getElem ?_ fun i h₁ h₂ => ?_
  · rw [scan, span]
    split <;> simp
  · rw [List.getElem_map, List.getElem_range]
    simp only [List.length_map, List.length_range, span] at h₂
    simp only [scan, index]
    by_cases hlt : head < limit
    · simp only [if_pos hlt] at h₂ ⊢
      rw [List.getElem_range', if_pos (by omega)]
      omega
    · simp only [if_neg hlt] at h₂ ⊢
      rw [List.getElem_append]
      split
      · rename_i hi
        rw [List.length_range'] at hi
        rw [List.getElem_range', if_pos (by omega)]
        omega
      · rename_i hi
        rw [List.length_range'] at hi
        rw [List.getElem_range, List.length_range', if_neg (by omega)]
        omega

/-- A scan visits no more slots than there are. -/
theorem span_le {limit : ℕ} (hh : head < n) (hl : limit ≤ n) : span n head limit ≤ n := by
  rw [span]
  split <;> omega

/-- A scan up to the slot `k` places after the head visits `k` slots, but for `k = 0`. -/
theorem span_index (hh : head < n) (hpos : 0 < k) (hk : k ≤ n) :
    span n head (index n head k) = k := by
  rw [span, index]
  split <;> split <;> omega

/-! ## Queues in rings -/

section
variable {α : Type*} {slots : ℕ → Option α} {tail : ℕ} {l : List α} {x : α}

/-- The slots hold the list, from the head on, and the slots after it are free. -/
structure Holds (n : ℕ) (slots : ℕ → Option α) (head tail : ℕ) (l : List α) : Prop where
  head_lt : head < n
  length_le : l.length ≤ n
  tail_eq : tail = index n head l.length
  slots_eq : ∀ k, k < n → slots (index n head k) = l[k]?

/-- The slot at the head of the list. -/
theorem Holds.slot_head (h : Holds n slots head tail l) : slots head = l.head? := by
  have h₀ := h.slots_eq 0 (Nat.zero_lt_of_lt h.head_lt)
  rwa [index_zero h.head_lt, ← List.head?_eq_getElem?] at h₀

/-- A queue that is not full has a free slot at its tail. -/
theorem Holds.slot_tail (h : Holds n slots head tail l) (hl : l.length < n) :
    slots tail = none := by
  rw [h.tail_eq, h.slots_eq _ hl]
  exact List.getElem?_eq_none (le_refl _)

/-- Store an element at the tail. -/
theorem Holds.push (h : Holds n slots head tail l) (hl : l.length < n) :
    Holds n (Function.update slots tail (some x)) head (next n tail) (l ++ [x]) := by
  refine ⟨h.head_lt, by simpa using Nat.succ_le_of_lt hl, ?_, fun k hk => ?_⟩
  · rw [h.tail_eq, next_index h.head_lt hl, List.length_append, List.length_singleton]
  · rw [h.tail_eq]
    rcases lt_trichotomy k l.length with hlt | rfl | hlt
    · have hne : index n head k ≠ index n head l.length := fun heq =>
        absurd (index_inj hk hl heq) hlt.ne
      rw [Function.update_of_ne hne, h.slots_eq k hk, List.getElem?_append_left hlt]
    · simp
    · have hne : index n head k ≠ index n head l.length := fun heq =>
        absurd (index_inj hk hl heq) hlt.ne'
      rw [Function.update_of_ne hne, h.slots_eq k hk, List.getElem?_eq_none hlt.le,
        List.getElem?_eq_none]
      simpa using Nat.succ_le_of_lt hlt

/-- Free the slot at the head. -/
theorem Holds.pop (h : Holds n slots head tail (x :: l)) :
    Holds n (Function.update slots head none) (next n head) tail l := by
  have hlen : l.length + 1 ≤ n := by simpa using h.length_le
  have hh := h.head_lt
  refine ⟨next_lt hh, by omega, ?_, fun k hk => ?_⟩
  · rw [h.tail_eq, List.length_cons, index, index, next]
    split <;> split <;> split <;> omega
  · by_cases hk' : k + 1 < n
    · have hne : index n (next n head) k ≠ head := by
        rw [index_next hk']
        intro heq
        have hzero := index_inj hk' (Nat.zero_lt_of_lt hh) (heq.trans (index_zero hh).symm)
        omega
      rw [Function.update_of_ne hne, index_next hk', h.slots_eq _ hk', List.getElem?_cons_succ]
    · -- the last slot is the one that became free
      have hself : index n (next n head) k = head := by
        rw [index, next]
        split <;> split <;> omega
      rw [hself, Function.update_self, List.getElem?_eq_none (by omega)]

/-- A queue of different slot numbers that lacks one is not full. -/
theorem length_lt_of_nodup {l : List ℕ} {i : ℕ} (hn : l.Nodup) (hi : i < n) (hil : i ∉ l)
    (hl : ∀ j ∈ l, j < n) : l.length < n := by
  have hsub : (i :: l) ⊆ List.range n := by
    intro j hj
    rcases List.mem_cons.1 hj with rfl | hj
    · exact List.mem_range.2 hi
    · exact List.mem_range.2 (hl j hj)
  have hle := ((List.nodup_cons.2 ⟨hil, hn⟩).subperm hsub).length_le
  rw [List.length_cons, List.length_range] at hle
  omega

end

end Ring
