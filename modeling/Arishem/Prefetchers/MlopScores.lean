import Arishem.Prefetchers.Mlop
import Mathlib.Data.Int.Order.Basic
import Mathlib.Data.List.Nodup
import Mathlib.Data.List.Range

/-!
# The scores and their selection

An update gives each offset of a degree at most one point, and an offset that gets a point for some
number of accesses ahead also gets it for one access less. The selection goes through the degrees from
the last to the first, so that an offset belongs to the largest degree that it is best for.
-/

namespace Arishem

namespace Mlop

open SetAssociativeCache

section
variable {k : Knobs} {accessMap : ℕ → BlockState} {scores : ℤ → ℕ} {zoneOffset d n : ℕ} {o : ℤ}

/-! ## Points -/

/-- An offset leads to the trigger from one of the first `n` blocks, which was accessed. -/
def Gains (zoneOffset : ℕ) (accessMap : ℕ → BlockState) (o : ℤ) (n : ℕ) : Prop :=
  ∃ i < n, accessMap i = .access ∧ (zoneOffset : ℤ) - i = o ∧ -63 ≤ o ∧ o ≤ 63 ∧ o ≠ 0

instance decidableGains (zoneOffset : ℕ) (accessMap : ℕ → BlockState) (o : ℤ) (n : ℕ) :
    Decidable (Gains zoneOffset accessMap o n) :=
  inferInstanceAs (Decidable (∃ i < n, _))

/-- One block of the loop. -/
theorem gains_succ : Gains zoneOffset accessMap o (n + 1) ↔ Gains zoneOffset accessMap o n ∨
    (accessMap n = .access ∧ (zoneOffset : ℤ) - n = o ∧ -63 ≤ o ∧ o ≤ 63 ∧ o ≠ 0) := by
  constructor
  · rintro ⟨i, hi, hrest⟩
    rcases Nat.lt_succ_iff_lt_or_eq.1 hi with hi | rfl
    · exact .inl ⟨i, hi, hrest⟩
    · exact .inr hrest
  · rintro (⟨i, hi, hrest⟩ | hrest)
    · exact ⟨i, Nat.lt_succ_of_lt hi, hrest⟩
    · exact ⟨n, Nat.lt_succ_self n, hrest⟩

/-- The points of an update. -/
theorem addScores_eq (zoneOffset : ℕ) (accessMap : ℕ → BlockState) (scores : ℤ → ℕ) (o : ℤ) :
    addScores zoneOffset accessMap scores o =
      scores o + if Gains zoneOffset accessMap o blocksInZone then 1 else 0 := by
  unfold addScores
  generalize blocksInZone = n
  induction n with
  | zero => simp [Gains]
  | succ n ih =>
    rw [List.range_succ, List.foldl_append, List.foldl_cons, List.foldl_nil]
    -- different blocks lead to the trigger by different offsets
    have hnew : (zoneOffset : ℤ) - n = o → ¬Gains zoneOffset accessMap o n := by
      rintro rfl ⟨i, hi, -, heq, -⟩
      omega
    by_cases hpoint :
        accessMap n = .access ∧ (zoneOffset : ℤ) - n = o ∧ -63 ≤ o ∧ o ≤ 63 ∧ o ≠ 0
    · obtain ⟨hstate, rfl, hrange⟩ := hpoint
      rw [if_neg (hnew rfl)] at ih
      rw [if_pos (gains_succ.2 (.inr ⟨hstate, rfl, hrange⟩)), if_pos hstate, if_pos hrange,
        Function.update_self, ih]
    · have hgains : Gains zoneOffset accessMap o (n + 1) ↔ Gains zoneOffset accessMap o n :=
        gains_succ.trans (or_iff_left hpoint)
      rw [if_congr hgains rfl rfl, ← ih]
      split
      · dsimp only
        split
        · refine Function.update_of_ne ?_ _ _
          rintro rfl
          exact hpoint ⟨by assumption, rfl, by assumption⟩
        · rfl
      · rfl

/-- An access that is unmarked gives no points. -/
theorem Gains.unmark {queue : List ℕ}
    (h : Gains zoneOffset (unmark queue accessMap (d + 1)) o n) :
    Gains zoneOffset (unmark queue accessMap d) o n := by
  obtain ⟨i, hi, hstate, hrest⟩ := h
  refine ⟨i, hi, ?_, hrest⟩
  rw [Mlop.unmark] at hstate
  rcases eq_or_ne i (queue.getD d 0) with rfl | hne
  · rw [Function.update_self] at hstate
    exact absurd hstate (by simp)
  · rwa [Function.update_of_ne hne] at hstate

/-- The loop changes the scores of the degrees up to the length of the queue. -/
theorem updateScores_eq (zoneOffset : ℕ) (data : AccessMapData) (scores : ℕ → ℤ → ℕ) (d : ℕ) :
    updateScores zoneOffset data scores d =
      if d ≤ data.histQueue.length then
        addScores zoneOffset (unmark data.histQueue data.accessMap d) (scores d)
      else scores d := by
  have hle : d ≤ data.histQueue.length ↔ d < data.histQueue.length + 1 := Nat.lt_add_one_iff.symm
  rw [updateScores, if_congr hle rfl rfl]
  generalize data.histQueue.length + 1 = n
  induction n with
  | zero => rfl
  | succ n ih =>
    rw [List.range_succ, List.foldl_append, List.foldl_cons, List.foldl_nil]
    rcases eq_or_ne d n with rfl | hne
    · rw [if_neg (Nat.lt_irrefl d)] at ih
      rw [Function.update_self, ih, if_pos (Nat.lt_succ_self d)]
    · rw [Function.update_of_ne hne, ih]
      have hlt : d < n + 1 ↔ d < n := by omega
      rw [if_congr hlt rfl rfl]

/-! ## Maxima -/

theorem mem_offsets : o ∈ offsets ↔ -63 ≤ o ∧ o ≤ 63 := by
  rw [offsets, List.mem_map]
  constructor
  · rintro ⟨i, hi, rfl⟩
    have hlt := List.mem_range.1 hi
    omega
  · rintro ⟨hle, hge⟩
    exact ⟨(o + 63).toNat, List.mem_range.2 (by omega), by omega⟩

theorem nodup_offsets : offsets.Nodup :=
  List.nodup_range.map fun i j h => by omega

theorem maxScore_le_iff : maxScore scores ≤ n ↔ ∀ o ∈ offsets, scores o ≤ n := by
  have hfold : ∀ (l : List ℤ) (m : ℕ),
      (l.map scores).foldl max m ≤ n ↔ m ≤ n ∧ ∀ o ∈ l, scores o ≤ n := by
    intro l
    induction l with
    | nil => simp
    | cons o l ih =>
      intro m
      rw [List.map_cons, List.foldl_cons, ih, max_le_iff, List.forall_mem_cons, and_assoc]
  rw [maxScore, hfold]
  exact and_iff_right (Nat.zero_le n)

theorem le_maxScore (scores : ℤ → ℕ) (ho : o ∈ offsets) : scores o ≤ maxScore scores :=
  maxScore_le_iff.1 (Nat.le_refl _) o ho

theorem maxScore_mono {scores' : ℤ → ℕ} (h : ∀ o, scores' o ≤ scores o) :
    maxScore scores' ≤ maxScore scores :=
  maxScore_le_iff.2 fun o ho => (h o).trans (le_maxScore scores ho)

/-! ## Selection -/

/-- The maximum of a degree reaches a threshold. -/
def Chosen (k : Knobs) (scores : ℕ → ℤ → ℕ) (d : ℕ) : Prop :=
  k.l2cThresh ≤ maxScore (scores d) ∨ k.llcThresh ≤ maxScore (scores d)

instance decidableChosen (k : Knobs) (scores : ℕ → ℤ → ℕ) (d : ℕ) : Decidable (Chosen k scores d) :=
  inferInstanceAs (Decidable (_ ∨ _))

/-- The level of a degree. -/
def levelOf (k : Knobs) (scores : ℕ → ℤ → ℕ) (d : ℕ) : ℕ :=
  if k.l2cThresh ≤ maxScore (scores d) then fillL2 else fillLlc

/-- The degrees from `n` on are selected. -/
structure Selects (k : Knobs) (scores : ℕ → ℤ → ℕ) (n : ℕ) (r : Selection) : Prop where
  none : ∀ d, d < n ∨ k.prefDegree ≤ d → r.pfLevel d = 0 ∧ r.pfOffset d = []
  map_iff : ∀ i, r.pfOffsetMap i = true ↔ ∃ d, n ≤ d ∧ i ∈ r.pfOffset d
  level : ∀ d, n ≤ d → d < k.prefDegree →
    r.pfLevel d = if Chosen k scores d then levelOf k scores d else 0
  mem_iff : ∀ d, n ≤ d → d < k.prefDegree → ∀ i, i ∈ r.pfOffset d ↔
    Chosen k scores d ∧ i ∈ offsets ∧ scores d i = maxScore (scores d) ∧
      ∀ d', d < d' → i ∉ r.pfOffset d'
  nodup : ∀ d, (r.pfOffset d).Nodup

section
variable {scores : ℕ → ℤ → ℕ} {r : Selection}

/-- A degree whose maximum reaches no threshold. -/
theorem Selects.skip (h : Selects k scores (n + 1) r) (hchosen : ¬ Chosen k scores n) :
    Selects k scores n (r.step k scores n) := by
  have hold := h.none n (.inl (Nat.lt_succ_self n))
  have hstep : r.step k scores n = r := by
    rw [Selection.step]
    exact if_neg hchosen
  rw [hstep]
  refine ⟨fun d hd => h.none d (hd.imp_left Nat.lt_succ_of_lt), fun i => ?_, fun d hd hlt => ?_,
    fun d hd hlt i => ?_, h.nodup⟩
  · rw [h.map_iff]
    constructor
    · rintro ⟨d, hd, hi⟩
      exact ⟨d, Nat.le_of_succ_le hd, hi⟩
    · rintro ⟨d, hd, hi⟩
      rcases Nat.eq_or_lt_of_le hd with rfl | hd
      · rw [hold.2] at hi
        exact absurd hi List.not_mem_nil
      · exact ⟨d, hd, hi⟩
  · rcases Nat.eq_or_lt_of_le hd with rfl | hd
    · rw [if_neg hchosen, hold.1]
    · exact h.level d hd hlt
  · rcases Nat.eq_or_lt_of_le hd with rfl | hd
    · rw [hold.2]
      exact ⟨fun hi => absurd hi List.not_mem_nil, fun hi => absurd hi.1 hchosen⟩
    · exact h.mem_iff d hd hlt i

/-- The offsets of a degree whose maximum reaches a threshold: those with the maximum that no later
degree has. -/
def best (scores : ℕ → ℤ → ℕ) (r : Selection) (n : ℕ) : List ℤ :=
  offsets.filter fun i => scores n i = maxScore (scores n) && !r.pfOffsetMap i

theorem step_of_chosen (hchosen : Chosen k scores n) : r.step k scores n =
    { pfLevel := Function.update r.pfLevel n (levelOf k scores n)
      pfOffset := Function.update r.pfOffset n (best scores r n)
      pfOffsetMap := fun i => r.pfOffsetMap i || (best scores r n).contains i } := by
  rw [Selection.step]
  exact if_pos hchosen

theorem pfOffset_step_self (hchosen : Chosen k scores n) :
    (r.step k scores n).pfOffset n = best scores r n := by
  rw [step_of_chosen hchosen]
  exact Function.update_self _ _ _

theorem pfOffset_step_of_ne (hchosen : Chosen k scores n) {d : ℕ} (hd : d ≠ n) :
    (r.step k scores n).pfOffset d = r.pfOffset d := by
  rw [step_of_chosen hchosen]
  exact Function.update_of_ne hd _ _

theorem pfLevel_step_of_ne (hchosen : Chosen k scores n) {d : ℕ} (hd : d ≠ n) :
    (r.step k scores n).pfLevel d = r.pfLevel d := by
  rw [step_of_chosen hchosen]
  exact Function.update_of_ne hd _ _

/-- The degree gets the offsets that no later degree has. -/
theorem Selects.mem_step (h : Selects k scores (n + 1) r) (hchosen : Chosen k scores n) (i : ℤ) :
    i ∈ (r.step k scores n).pfOffset n ↔ i ∈ offsets ∧ scores n i = maxScore (scores n) ∧
      ∀ d', n < d' → i ∉ (r.step k scores n).pfOffset d' := by
  have hmap : r.pfOffsetMap i = false ↔ ∀ d', n < d' → i ∉ (r.step k scores n).pfOffset d' := by
    rw [← Bool.not_eq_true, h.map_iff, not_exists]
    constructor
    · intro hall d' hd' hi
      rw [pfOffset_step_of_ne hchosen hd'.ne'] at hi
      exact hall d' ⟨hd', hi⟩
    · rintro hall d' ⟨hd', hi⟩
      exact hall d' hd' (pfOffset_step_of_ne (r := r) hchosen (Nat.lt_of_succ_le hd').ne' ▸ hi)
  rw [pfOffset_step_self hchosen, best, List.mem_filter, ← hmap]
  simp

/-- The map covers the degree too. -/
theorem Selects.map_step (h : Selects k scores (n + 1) r) (hchosen : Chosen k scores n) (i : ℤ) :
    (r.step k scores n).pfOffsetMap i = true ↔
      ∃ d, n ≤ d ∧ i ∈ (r.step k scores n).pfOffset d := by
  have hmap : (r.step k scores n).pfOffsetMap i = true ↔
      r.pfOffsetMap i = true ∨ i ∈ (r.step k scores n).pfOffset n := by
    rw [pfOffset_step_self hchosen, step_of_chosen hchosen]
    simp
  rw [hmap, h.map_iff]
  constructor
  · rintro (⟨d, hd, hi⟩ | hi)
    · refine ⟨d, Nat.le_of_succ_le hd, ?_⟩
      rwa [pfOffset_step_of_ne hchosen (Nat.lt_of_succ_le hd).ne']
    · exact ⟨n, Nat.le_refl n, hi⟩
  · rintro ⟨d, hd, hi⟩
    rcases Nat.eq_or_lt_of_le hd with rfl | hd
    · exact .inr hi
    · rw [pfOffset_step_of_ne hchosen hd.ne'] at hi
      exact .inl ⟨d, hd, hi⟩

/-- A degree whose maximum reaches a threshold. -/
theorem Selects.choose (h : Selects k scores (n + 1) r) (hchosen : Chosen k scores n)
    (hn : n < k.prefDegree) : Selects k scores n (r.step k scores n) := by
  refine ⟨fun d hd => ?_, h.map_step hchosen, fun d hd hlt => ?_, fun d hd hlt i => ?_,
    fun d => ?_⟩
  · have hne : d ≠ n := by omega
    rw [pfLevel_step_of_ne hchosen hne, pfOffset_step_of_ne hchosen hne]
    exact h.none d (hd.imp_left Nat.lt_succ_of_lt)
  · rcases Nat.eq_or_lt_of_le hd with rfl | hd
    · rw [if_pos hchosen, step_of_chosen hchosen]
      exact Function.update_self _ _ _
    · rw [pfLevel_step_of_ne hchosen hd.ne']
      exact h.level d hd hlt
  · rcases Nat.eq_or_lt_of_le hd with rfl | hd
    · rw [h.mem_step hchosen]
      exact (and_iff_right hchosen).symm
    · rw [pfOffset_step_of_ne hchosen hd.ne', h.mem_iff d hd hlt]
      refine and_congr_right fun _ => and_congr_right fun _ => and_congr_right fun _ => ?_
      refine forall₂_congr fun d' hd' => ?_
      rw [pfOffset_step_of_ne hchosen (hd.trans hd').ne']
  · rcases eq_or_ne d n with rfl | hne
    · rw [pfOffset_step_self hchosen]
      exact nodup_offsets.filter _
    · rw [pfOffset_step_of_ne hchosen hne]
      exact h.nodup d

/-- One degree. -/
theorem Selects.step (h : Selects k scores (n + 1) r) (hn : n < k.prefDegree) :
    Selects k scores n (r.step k scores n) := by
  by_cases hchosen : Chosen k scores n
  · exact h.choose hchosen hn
  · exact h.skip hchosen

end

/-- All degrees. -/
theorem selects_select (k : Knobs) (scores : ℕ → ℤ → ℕ) :
    Selects k scores 0 (select k scores) := by
  have hloop : ∀ n r, n ≤ k.prefDegree → Selects k scores n r →
      Selects k scores 0 ((List.range n).reverse.foldl (Selection.step k scores) r) := by
    intro n
    induction n with
    | zero => exact fun r _ h => h
    | succ n ih =>
      intro r hn h
      rw [List.range_succ, List.reverse_append, List.reverse_singleton, List.singleton_append,
        List.foldl_cons]
      exact ih _ (Nat.le_of_succ_le hn) (h.step hn)
  refine hloop k.prefDegree _ (Nat.le_refl _) ⟨fun d _ => ⟨rfl, rfl⟩, fun i => ?_,
    fun d hd hlt => absurd hlt (Nat.not_lt.2 hd), fun d hd hlt => absurd hlt (Nat.not_lt.2 hd),
    fun d => List.nodup_nil⟩
  simp

/-! ## The invariants -/

/-- What the scores of a round keep. -/
structure Scored (k : Knobs) (s : Mlop) : Prop where
  cnt_lt : s.updateCnt < k.numUpdates
  le_cnt : ∀ d o, s.offsetScores d o ≤ s.updateCnt
  anti : ∀ d o, s.offsetScores (d + 1) o ≤ s.offsetScores d o
  origin : ∀ d, s.offsetScores d 0 = 0
  outside : ∀ d, k.prefDegree ≤ d → ∀ o, s.offsetScores d o = 0

/-- What the offsets of the last round keep. -/
structure Selected (k : Knobs) (s : Mlop) : Prop where
  disjoint : ∀ d d', d < d' → ∀ i ∈ s.pfOffset d, i ∉ s.pfOffset d'
  nodup : ∀ d, (s.pfOffset d).Nodup
  mem : ∀ d, ∀ i ∈ s.pfOffset d, d < k.prefDegree ∧ -63 ≤ i ∧ i ≤ 63 ∧
    (s.pfLevel d = fillL2 ∨ s.pfLevel d = fillLlc)
  nonzero : 0 < k.l2cThresh → 0 < k.llcThresh → ∀ d, 0 ∉ s.pfOffset d
  level_le : k.llcThresh ≤ k.l2cThresh → ∀ d d', d ≤ d' → s.pfLevel d' ≠ 0 →
    s.pfLevel d ≠ 0 ∧ s.pfLevel d ≤ s.pfLevel d'

/-- The initial state. -/
theorem Scored.init (k : Knobs) : Scored k init where
  cnt_lt := k.numUpdates_pos
  le_cnt _ _ := Nat.le_refl 0
  anti _ _ := Nat.le_refl 0
  origin _ := rfl
  outside _ _ _ := rfl

theorem Selected.init (k : Knobs) : Selected k init where
  disjoint _ _ _ _ hi := absurd hi List.not_mem_nil
  nodup _ := List.nodup_nil
  mem _ _ hi := absurd hi List.not_mem_nil
  nonzero _ _ _ := List.not_mem_nil
  level_le _ _ _ _ hne := absurd rfl hne

section
variable {s : Mlop} {data : AccessMapData}

/-- The scores after an update. -/
theorem offsetScores_update (h : Scored k s) (hlength : data.histQueue.length < k.prefDegree)
    (zoneOffset : ℕ) :
    (∀ d o, updateScores zoneOffset data s.offsetScores d o ≤ s.updateCnt + 1) ∧
      (∀ d o, updateScores zoneOffset data s.offsetScores (d + 1) o ≤
        updateScores zoneOffset data s.offsetScores d o) ∧
      (∀ d, updateScores zoneOffset data s.offsetScores d 0 = 0) ∧
      ∀ d, k.prefDegree ≤ d → ∀ o, updateScores zoneOffset data s.offsetScores d o = 0 := by
  refine ⟨fun d o => ?_, fun d o => ?_, fun d => ?_, fun d hd o => ?_⟩
  · rw [updateScores_eq]
    have hle := h.le_cnt d o
    split
    · rw [addScores_eq]
      split <;> omega
    · omega
  · rw [updateScores_eq, updateScores_eq]
    have hanti := h.anti d o
    by_cases hd : d + 1 ≤ data.histQueue.length
    · rw [if_pos hd, if_pos (Nat.le_of_succ_le hd), addScores_eq, addScores_eq]
      refine Nat.add_le_add hanti ?_
      by_cases hgains : Gains zoneOffset (unmark data.histQueue data.accessMap (d + 1)) o blocksInZone
      · rw [if_pos hgains, if_pos hgains.unmark]
      · rw [if_neg hgains]
        exact Nat.zero_le _
    · rw [if_neg hd]
      split
      · rw [addScores_eq]
        omega
      · exact hanti
  · rw [updateScores_eq]
    split
    · rw [addScores_eq, h.origin d, if_neg]
      rintro ⟨i, -, -, -, -, -, hne⟩
      exact hne rfl
    · exact h.origin d
  · rw [updateScores_eq, if_neg (by omega)]
    exact h.outside d hd o

/-- The scores of a larger degree are not larger. -/
theorem offsetScores_le {scores : ℕ → ℤ → ℕ} (hanti : ∀ d o, scores (d + 1) o ≤ scores d o)
    {d d' : ℕ} (hd : d ≤ d') (o : ℤ) : scores d' o ≤ scores d o := by
  induction d', hd using Nat.le_induction with
  | base => exact Nat.le_refl _
  | succ d' _ ih => exact (hanti d' o).trans ih

/-- The offsets that are selected from scores that fall with the degree. -/
theorem selected_select {scores : ℕ → ℤ → ℕ} (hanti : ∀ d o, scores (d + 1) o ≤ scores d o)
    (horigin : ∀ d, scores d 0 = 0) (hoffset : s.pfOffset = (select k scores).pfOffset)
    (hlevel : s.pfLevel = (select k scores).pfLevel) : Selected k s := by
  have h := selects_select k scores
  have hdegree : ∀ d i, i ∈ (select k scores).pfOffset d → d < k.prefDegree := by
    intro d i hi
    by_contra hd
    rw [(h.none d (.inr (Nat.not_lt.1 hd))).2] at hi
    exact List.not_mem_nil hi
  refine ⟨fun d d' hd i hi => ?_, fun d => ?_, fun d i hi => ?_, fun hl2c hllc d hi => ?_,
    fun hthresh d d' hd hne => ?_⟩
  · rw [hoffset] at hi ⊢
    exact ((h.mem_iff d (Nat.zero_le d) (hdegree d i hi) i).1 hi).2.2.2 d' hd
  · rw [hoffset]
    exact h.nodup d
  · rw [hoffset] at hi
    have hd := hdegree d i hi
    obtain ⟨hchosen, hrange, -⟩ := (h.mem_iff d (Nat.zero_le d) hd i).1 hi
    obtain ⟨hle, hge⟩ := mem_offsets.1 hrange
    refine ⟨hd, hle, hge, ?_⟩
    rw [hlevel, h.level d (Nat.zero_le d) hd, if_pos hchosen, levelOf]
    split
    · exact .inl rfl
    · exact .inr rfl
  · rw [hoffset] at hi
    obtain ⟨hchosen, -, hmax, -⟩ := (h.mem_iff d (Nat.zero_le d) (hdegree d 0 hi) 0).1 hi
    rw [horigin] at hmax
    rw [Chosen, ← hmax] at hchosen
    omega
  · rw [hlevel] at hne ⊢
    have hd' : d' < k.prefDegree := by
      by_contra hge
      exact hne (h.none d' (.inr (Nat.not_lt.1 hge))).1
    rw [h.level d' (Nat.zero_le d') hd'] at hne ⊢
    rw [h.level d (Nat.zero_le d) (Nat.lt_of_le_of_lt hd hd')]
    have hmax := maxScore_mono (offsetScores_le hanti hd)
    have hchosen' : Chosen k scores d' := by
      by_contra hnot
      exact hne (if_neg hnot)
    have hchosen : Chosen k scores d := hchosen'.imp hmax.trans' hmax.trans'
    rw [if_pos hchosen, if_pos hchosen', levelOf, levelOf]
    refine ⟨by split <;> decide, ?_⟩
    split
    · split <;> decide
    · rw [if_neg (by omega)]

/-- `access` keeps the invariants, and leaves the table. -/
theorem Scored.access (h : Scored k s) (hsel : Selected k s) (blockNumber : ℕ)
    (hlength : ∀ data, s.accessMapTable.data? k.shape (buildKey k (blockNumber / blocksInZone)) =
      some data → data.histQueue.length < k.prefDegree) :
    Scored k (s.access k blockNumber) ∧ Selected k (s.access k blockNumber) ∧
      (s.access k blockNumber).accessMapTable = s.accessMapTable := by
  rw [Mlop.access]
  cases hdata : s.accessMapTable.data? k.shape (buildKey k (blockNumber / blocksInZone)) with
  | none => exact ⟨h, hsel, rfl⟩
  | some data =>
    obtain ⟨hle, hanti, horigin, houtside⟩ :=
      offsetScores_update h (hlength data hdata) (blockNumber % blocksInZone)
    have hlt := h.cnt_lt
    dsimp only
    split
    · exact ⟨h, hsel, rfl⟩
    · split
      · exact ⟨⟨k.numUpdates_pos, fun _ _ => Nat.le_refl 0, fun _ _ => Nat.le_refl 0, fun _ => rfl,
          fun _ _ _ => rfl⟩, selected_select hanti horigin rfl rfl, rfl⟩
      · exact ⟨⟨by dsimp only; omega, hle, hanti, horigin, houtside⟩,
          ⟨hsel.disjoint, hsel.nodup, hsel.mem, hsel.nonzero, hsel.level_le⟩, rfl⟩

end

end

end Mlop

end Arishem
