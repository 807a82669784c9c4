import Arishem.Lib.Ranks
import Arishem.Lib.Recency

/-!
# Tables that replace the least recently used key

A table of `n` ways gives each way in use a key. An access touches the way of its key, or takes a way
that is free or, when all are in use, the one that was touched longest ago. Such a table holds the `n`
most recent keys. The ways in use are listed in the order of their last touch; how a table knows this
order is left open: by ranks, or by the time of the last touch.
-/

namespace LruTable

section
variable {κ : Type*} [DecidableEq κ] {n w : ℕ} {tag : ℕ → κ} {order : List ℕ} {keys : List κ}
  {key : κ}

/-- The ways in use, the least recently touched first, hold the most recent keys. -/
structure Holds (n : ℕ) (tag : ℕ → κ) (order : List ℕ) (keys : List κ) : Prop where
  nodup : order.Nodup
  lt : ∀ w ∈ order, w < n
  tags : order.map tag = Recency.recent n keys

/-- The order after a touch. -/
def touched (order : List ℕ) (w : ℕ) : List ℕ := order.erase w ++ [w]

theorem mem_touched {v : ℕ} : v ∈ touched order w ↔ v ∈ order ∨ v = w := by
  rw [touched, List.mem_append, List.mem_singleton]
  rcases eq_or_ne v w with rfl | hne
  · simp
  · rw [List.mem_erase_of_ne hne]

theorem nodup_touched (h : order.Nodup) : (touched order w).Nodup := by
  rw [touched, List.nodup_append]
  refine ⟨h.erase w, List.nodup_singleton w, ?_⟩
  rintro a ha b hb rfl
  obtain rfl := List.mem_singleton.1 hb
  exact h.not_mem_erase ha

theorem Holds.nil (n : ℕ) (tag : ℕ → κ) : Holds n tag [] [] :=
  ⟨List.nodup_nil, fun _ hw => absurd hw List.not_mem_nil, by simp [Recency.recent, Window.last]⟩

/-- No key is in two ways. -/
theorem Holds.injOn (h : Holds n tag order keys) : ∀ v ∈ order, ∀ w ∈ order, tag v = tag w → v = w :=
  List.inj_on_of_nodup_map (h.tags ▸ Recency.nodup_recent n keys)

/-- The ways in use have the recent keys. -/
theorem Holds.mem_recent (h : Holds n tag order keys) :
    key ∈ Recency.recent n keys ↔ ∃ w ∈ order, tag w = key := by
  rw [← h.tags, List.mem_map]

theorem Holds.length_le (h : Holds n tag order keys) : order.length ≤ n := by
  have hlen := Recency.length_recent_le n keys
  rwa [← h.tags, List.length_map] at hlen

/-- All ways are in use when there are as many as ways. -/
theorem Holds.length_eq (h : Holds n tag order keys) (hall : ∀ w < n, w ∈ order) :
    order.length = n := by
  have hsub : List.range n ⊆ order := fun w hw => hall w (List.mem_range.1 hw)
  have hlen := (List.nodup_range.subperm hsub).length_le
  rw [List.length_range] at hlen
  exact Nat.le_antisymm h.length_le hlen

/-- An access to a key that is held. -/
theorem Holds.hit (h : Holds n tag order keys) (hw : w ∈ order) :
    Holds n tag (touched order w) (keys ++ [tag w]) := by
  have hn : 0 < n := Nat.zero_lt_of_lt (h.lt w hw)
  refine ⟨nodup_touched h.nodup, fun v hv => ?_, ?_⟩
  · rcases mem_touched.1 hv with hv | rfl
    · exact h.lt v hv
    · exact h.lt v hw
  · have hnodup : (order.map tag).Nodup := h.tags ▸ Recency.nodup_recent n keys
    rw [Recency.recent_snoc_of_mem hn (h.mem_recent.2 ⟨w, hw, rfl⟩), ← h.tags, touched,
      List.map_append, List.map_singleton, hnodup.erase_eq_filter, h.nodup.erase_eq_filter,
      List.filter_map]
    congr 2
    refine List.filter_congr fun v hv => ?_
    by_cases hvw : v = w
    · simp [hvw]
    · have hne : tag v ≠ tag w := fun htag => hvw (h.injOn v hv w hw htag)
      exact (bne_iff_ne.2 hvw).trans (bne_iff_ne.2 hne).symm

/-- An access to a key that is not held takes a free way, or the first one when all are in use. -/
theorem Holds.replace (h : Holds n tag order keys) (hwn : w < n)
    (hkey : key ∉ Recency.recent n keys)
    (hfull : w ∈ order → order.length = n ∧ order.head? = some w) :
    Holds n (Function.update tag w key) (touched order w) (keys ++ [key]) := by
  refine ⟨nodup_touched h.nodup, fun v hv => ?_, ?_⟩
  · rcases mem_touched.1 hv with hv | rfl
    · exact h.lt v hv
    · exact hwn
  have hkeep : ∀ l : List ℕ, w ∉ l → l.map (Function.update tag w key) = l.map tag := by
    intro l hl
    refine List.map_congr_left fun v hv => Function.update_of_ne ?_ key tag
    rintro rfl
    exact hl hv
  rw [touched, List.map_append, hkeep _ h.nodup.not_mem_erase, List.map_singleton,
    Function.update_self, Recency.recent_snoc_of_not_mem (Nat.zero_lt_of_lt hwn) hkey, Window.push]
  congr 1
  by_cases hw : w ∈ order
  · obtain ⟨hlen, hhead⟩ := hfull hw
    obtain ⟨rest, rfl⟩ := List.head?_eq_some_iff.1 hhead
    rw [← h.tags, List.length_map, if_pos (Nat.le_of_eq hlen.symm), List.erase_cons_head]
    rfl
  · have hnodup : (w :: order).Nodup := List.nodup_cons.2 ⟨hw, h.nodup⟩
    have hsub : w :: order ⊆ List.range n := by
      intro v hv
      rcases List.mem_cons.1 hv with rfl | hv
      · exact List.mem_range.2 hwn
      · exact List.mem_range.2 (h.lt v hv)
    have hlen := (hnodup.subperm hsub).length_le
    rw [List.length_cons, List.length_range] at hlen
    rw [List.erase_of_not_mem hw, ← h.tags, List.length_map, if_neg (by omega)]

/-! ## The stay of a key -/

/-- What the accesses to a key brought since the key last entered, the last access first. -/
def stayFrom {β : Type*} (n : ℕ) (key : κ) : List (κ × β) → List β
  | [] => []
  | (k, b) :: past =>
    if k ≠ key then stayFrom n key past
    else if key ∈ Recency.recent n (past.reverse.map Prod.fst) then b :: stayFrom n key past
    else [b]

/-- What the accesses to a key brought since the key last entered. -/
def stay {β : Type*} (n : ℕ) (key : κ) (accesses : List (κ × β)) : List β :=
  (stayFrom n key accesses.reverse).reverse

section
variable {β : Type*} {accesses : List (κ × β)} {b : β}

theorem stay_hit (h : key ∈ Recency.recent n (accesses.map Prod.fst)) :
    stay n key (accesses ++ [(key, b)]) = stay n key accesses ++ [b] := by
  simp [stay, stayFrom, h]

theorem stay_enter (h : key ∉ Recency.recent n (accesses.map Prod.fst)) :
    stay n key (accesses ++ [(key, b)]) = [b] := by
  simp [stay, stayFrom, h]

theorem stay_other {k : κ} (h : k ≠ key) :
    stay n key (accesses ++ [(k, b)]) = stay n key accesses := by
  simp [stay, stayFrom, h]

end

end

/-! ## The order by ranks -/

section
variable {n w : ℕ} {rank : ℕ → ℕ} {order : List ℕ}

/-- The ways in use are listed by falling rank, and those of smaller rank are in use too. -/
structure ByRank (n : ℕ) (rank : ℕ → ℕ) (order : List ℕ) : Prop where
  ranked : Ranks.Ranked n rank
  sorted : order.Pairwise fun v w => rank w < rank v
  closed : ∀ w ∈ order, ∀ v < n, rank v < rank w → v ∈ order

theorem ByRank.nil (h : Ranks.Ranked n rank) : ByRank n rank [] :=
  ⟨h, .nil, fun _ hw => absurd hw List.not_mem_nil⟩

/-- A touch keeps the order of the other ways. -/
theorem ByRank.touch_lt (h : ByRank n rank order) (hw : w < n) {u v : ℕ} (hu : u < n) (hv : v < n)
    (huw : u ≠ w) (hvw : v ≠ w) :
    Ranks.touch n w rank u < Ranks.touch n w rank v ↔ rank u < rank v := by
  have hu' : rank u ≠ rank w := fun he => huw (h.ranked.inj u hu w hw he)
  have hv' : rank v ≠ rank w := fun he => hvw (h.ranked.inj v hv w hw he)
  rw [Ranks.touch_of_ne hu huw, Ranks.touch_of_ne hv hvw]
  split <;> split <;> omega

/-- The touched way comes before all others. -/
theorem ByRank.touch_pos (h : ByRank n rank order) (hw : w < n) {v : ℕ} (hv : v < n) (hvw : v ≠ w) :
    0 < Ranks.touch n w rank v := by
  have hv' : rank v ≠ rank w := fun he => hvw (h.ranked.inj v hv w hw he)
  rw [Ranks.touch_of_ne hv hvw]
  split <;> omega

/-- A touch moves its way to the end of the order. -/
theorem ByRank.touch (h : ByRank n rank order) (hlt : ∀ v ∈ order, v < n) (hnodup : order.Nodup)
    (hw : w < n) : ByRank n (Ranks.touch n w rank) (touched order w) := by
  have hne : ∀ v ∈ order.erase w, v ≠ w := by
    rintro v hv rfl
    exact hnodup.not_mem_erase hv
  have hmem : ∀ v ∈ order.erase w, v < n := fun v hv => hlt v (List.mem_of_mem_erase hv)
  refine ⟨h.ranked.touch hw, ?_, fun v hv u hu hlt' => ?_⟩
  · rw [touched, List.pairwise_append]
    refine ⟨?_, List.pairwise_singleton _ _, fun v hv u hu => ?_⟩
    · refine (h.sorted.sublist List.erase_sublist).imp_of_mem fun ha hb hab => ?_
      exact (h.touch_lt hw (hmem _ hb) (hmem _ ha) (hne _ hb) (hne _ ha)).2 hab
    · obtain rfl := List.mem_singleton.1 hu
      rw [Ranks.touch_self]
      exact h.touch_pos hw (hmem v hv) (hne v hv)
  · rw [mem_touched]
    rcases eq_or_ne u w with rfl | huw
    · exact .inr rfl
    rcases eq_or_ne v w with rfl | hvw
    · rw [Ranks.touch_self] at hlt'
      exact absurd hlt' (Nat.not_lt_zero _)
    · have hv : v ∈ order := (mem_touched.1 hv).resolve_right hvw
      exact .inl (h.closed v hv u hu ((h.touch_lt hw hu (hlt v hv) huw hvw).1 hlt'))

/-- When all ways are in use, the one of the largest rank is the first. -/
theorem ByRank.head (h : ByRank n rank order) (hlt : ∀ v ∈ order, v < n) (hw : w ∈ order)
    (hrank : rank w = n - 1) : order.head? = some w := by
  cases order with
  | nil => exact absurd hw List.not_mem_nil
  | cons v rest =>
    rcases List.mem_cons.1 hw with rfl | hw
    · rfl
    · have hv := h.ranked.lt v (hlt v (List.mem_cons_self ..))
      have hwv := List.rel_of_pairwise_cons h.sorted hw
      omega

end

end LruTable
