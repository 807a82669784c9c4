import Arishem.Prefetchers.Lives
import Mathlib.Data.List.Nodup

/-!
# The training pipeline

The entries that are in the tracker, and the one that left it last, are those whose lives are not
closed: each agrees with its life, and each refers to a state of its own.
-/

namespace Arishem

namespace Scooby

variable {σ : Type}

/-- The entries that are not deleted, in their order. -/
def held (s : Scooby σ) : List PTEntry := s.lastEvictedTracker.toList ++ s.prefetchTracker

/-- The states they refer to. -/
def refs (s : Scooby σ) : List ℕ := s.held.map (·.state)

/-- The entries made that are no longer in the tracker. -/
def gone (s : Scooby σ) : ℕ := s.made - s.prefetchTracker.length

/-- An entry agrees with its life. -/
structure Tracks (s : Scooby σ) (e : PTEntry) (l : Life σ) : Prop where
  address : l.address = e.address
  state : s.states[e.state]? = some (some l.state)
  actionIndex : l.actionIndex = e.actionIndex
  rewards : l.rewards = if e.hasReward then [(e.rewardType, e.reward)] else []
  demanded : l.alone = true → Touch.demand ∈ l.touches → e.hasReward = true
  filled : l.alone = true → e.isFilled = true → Touch.fill ∈ l.touches
  fair : l.Fair

/-- The invariant of the pipeline. -/
structure Inv (k : Knobs σ) (s : Scooby σ) : Prop where
  size : s.prefetchTracker.length ≤ k.ptSize
  made : (lives s.log).length = s.made
  fits : s.prefetchTracker.length ≤ s.made
  ids : s.prefetchTracker.map (·.id) = List.range' s.gone s.prefetchTracker.length
  tracked : ∀ e ∈ s.prefetchTracker, ∃ l, (lives s.log)[e.id]? = some l ∧ l.evicted = false ∧
    Tracks s e l
  blameless : ∀ e ∈ s.prefetchTracker, e.rewardType ≠ .incorrect
  departed : ∀ n l, (lives s.log)[n]? = some l → n < s.gone → l.evicted = true
  last_none : s.lastEvictedTracker = none → s.gone = 0
  last_some : ∀ e, s.lastEvictedTracker = some e → e.id + 1 = s.gone ∧
    ∃ l, (lives s.log)[e.id]? = some l ∧ Tracks s e l
  trained : ∀ n l, (lives s.log)[n]? = some l → n + 1 < s.gone → l.rewards.length = 1 ∧ l.Fair
  learns_length : (learns s.log).length = s.gone - 1
  alone : ∀ e ∈ s.prefetchTracker, ∀ e' ∈ s.prefetchTracker, e.id ≠ e'.id →
    e.address = e'.address → ∀ l, (lives s.log)[e.id]? = some l → l.alone = false
  learned : ∀ before call after, s.log = before ++ .learned call :: after →
    Learns k (lives before) (learns before).length call
  refs_nodup : s.refs.Nodup

section
variable {k : Knobs σ} {s s' : Scooby σ} {e : PTEntry}

/-! ## What the invariant says -/

theorem Inv.ids_nodup (h : Inv k s) : (s.prefetchTracker.map (·.id)).Nodup := by
  rw [h.ids]
  exact List.nodup_range'

theorem Inv.eq_of_id (h : Inv k s) {e' : PTEntry} (he : e ∈ s.prefetchTracker)
    (he' : e' ∈ s.prefetchTracker) (hid : e.id = e'.id) : e = e' :=
  List.inj_on_of_nodup_map h.ids_nodup he he' hid

/-- The entry that a pointer names. -/
theorem find_of_nodup (hids : (s.prefetchTracker.map (·.id)).Nodup) (he : e ∈ s.prefetchTracker) :
    s.prefetchTracker.find? (·.id = e.id) = some e := by
  cases hfind : s.prefetchTracker.find? (·.id = e.id) with
  | none =>
    have hnone := List.find?_eq_none.1 hfind e he
    simp at hnone
  | some e' =>
    have hid : e'.id = e.id := by simpa using List.find?_some hfind
    rw [List.inj_on_of_nodup_map hids (List.mem_of_find?_eq_some hfind) he hid]

theorem Inv.find (h : Inv k s) (he : e ∈ s.prefetchTracker) :
    s.prefetchTracker.find? (·.id = e.id) = some e := find_of_nodup h.ids_nodup he

/-- A life that is not in the tracker any more is over, one in it is not. -/
theorem Inv.evicted_iff (h : Inv k s) {n : ℕ} {l : Life σ} (hl : (lives s.log)[n]? = some l) :
    l.evicted = true ↔ n < s.gone := by
  refine ⟨fun hev => ?_, h.departed n l hl⟩
  by_contra hn
  have hlt : n < s.made := by
    rw [← h.made]
    exact (List.getElem?_eq_some_iff.1 hl).1
  have hmem : n ∈ s.prefetchTracker.map (·.id) := by
    rw [h.ids, List.mem_range'_1]
    have hfits := h.fits
    unfold gone at hn ⊢
    omega
  obtain ⟨e, he, rfl⟩ := List.mem_map.1 hmem
  obtain ⟨l', hl', hlive, -⟩ := h.tracked e he
  rw [hl] at hl'
  cases hl'
  rw [hev] at hlive
  cases hlive

/-- Every life is of the tracker, of the entry that left it last or closed. -/
theorem Inv.cases (h : Inv k s) {n : ℕ} {l : Life σ} (hl : (lives s.log)[n]? = some l) :
    (∃ e, e.id = n ∧ Tracks s e l) ∨ (l.rewards.length = 1 ∧ l.Fair) := by
  have hlt : n < s.made := by
    rw [← h.made]
    exact (List.getElem?_eq_some_iff.1 hl).1
  by_cases hgone : n < s.gone
  · by_cases htrained : n + 1 < s.gone
    · exact .inr (h.trained n l hl htrained)
    · cases hlast : s.lastEvictedTracker with
      | none =>
        have hzero := h.last_none hlast
        omega
      | some e =>
        obtain ⟨hid, l', hl', htracks⟩ := h.last_some e hlast
        obtain rfl : e.id = n := by omega
        rw [hl] at hl'
        cases hl'
        exact .inl ⟨e, rfl, htracks⟩
  · have hmem : n ∈ s.prefetchTracker.map (·.id) := by
      rw [h.ids, List.mem_range'_1]
      have hfits := h.fits
      unfold gone at hgone ⊢
      omega
    obtain ⟨e, he, rfl⟩ := List.mem_map.1 hmem
    obtain ⟨l', hl', -, htracks⟩ := h.tracked e he
    rw [hl] at hl'
    cases hl'
    exact .inl ⟨e, rfl, htracks⟩

theorem Tracks.rewards_le {l : Life σ} (h : Tracks s e l) : l.rewards.length ≤ 1 := by
  rw [h.rewards]
  split <;> simp

/-- The invariant says that the pipeline is right. -/
theorem Inv.sound (h : Inv k s) : Sound k s where
  size := h.size
  learned := h.learned
  learns_iff n := by
    rw [h.learns_length]
    constructor
    · intro hn
      have hlt : n + 1 < (lives s.log).length := by
        rw [h.made]
        unfold gone at hn
        omega
      obtain ⟨l, hl⟩ : ∃ l, (lives s.log)[n]? = some l :=
        ⟨_, List.getElem?_eq_getElem (by omega)⟩
      obtain ⟨l', hl'⟩ : ∃ l', (lives s.log)[n + 1]? = some l' :=
        ⟨_, List.getElem?_eq_getElem hlt⟩
      exact ⟨l, l', hl, hl', h.departed _ _ hl (by omega), h.departed _ _ hl' (by omega)⟩
    · rintro ⟨l, l', -, hl', -, hev⟩
      have hgone := (h.evicted_iff hl').1 hev
      omega
  rewards_le l hl := by
    obtain ⟨n, hn⟩ := List.mem_iff_getElem?.1 hl
    rcases h.cases hn with ⟨e, -, htracks⟩ | ⟨hlen, -⟩
    · exact htracks.rewards_le
    · exact Nat.le_of_eq hlen
  fair l hl := by
    obtain ⟨n, hn⟩ := List.mem_iff_getElem?.1 hl
    rcases h.cases hn with ⟨e, -, htracks⟩ | ⟨-, hfair⟩
    · exact htracks.fair
    · exact hfair

theorem inv_init (k : Knobs σ) : Inv k (init : Scooby σ) where
  size := Nat.zero_le _
  made := rfl
  fits := Nat.zero_le _
  ids := rfl
  tracked _ he := absurd he List.not_mem_nil
  blameless _ he := absurd he List.not_mem_nil
  departed n l hl := by simp [init, lives] at hl
  last_none _ := rfl
  last_some e he := by simp [init] at he
  trained n l hl := by simp [init, lives] at hl
  learns_length := rfl
  alone _ he := absurd he List.not_mem_nil
  learned before call after hlog := by simp [init] at hlog
  refs_nodup := .nil

end

end Scooby

end Arishem
