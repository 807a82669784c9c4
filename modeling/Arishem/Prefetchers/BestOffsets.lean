import Arishem.Lib.Passes
import Arishem.Prefetchers.Bop

/-!
# The best offsets

What `phase_end` keeps. Each of its passes looks for a score below the one that the last pass found,
so that of several candidates with one score only the last is found, and a pass that finds none falls
back to the first candidate. The best offsets are the ones with the highest scores as long as no score
that is shared stands above the lowest one kept.
-/

namespace Arishem

namespace Bop

section
variable (k : Knobs) (s : Bop)

/-- The best offsets are as many different candidates, none of the others has a higher score, and an
access asks for no line twice. -/
structure KeepsBest : Prop where
  size : (s.phaseEnd k).bestOffsets.length = k.topN
  mem : ∀ o ∈ (s.phaseEnd k).bestOffsets, o ∈ k.candidates
  distinct : (s.phaseEnd k).bestOffsets.Nodup
  best : ∀ i j, i < k.candidates.length → j < k.candidates.length →
    k.candidates.getD i 0 ∈ (s.phaseEnd k).bestOffsets →
    k.candidates.getD j 0 ∉ (s.phaseEnd k).bestOffsets →
    s.scores.getD j 0 ≤ s.scores.getD i 0
  once : ∀ address, ((s.phaseEnd k).prefetches address).Nodup

/-- The different scores below `UINT32_MAX`. -/
def differentScores (scores : List ℕ) : Finset ℕ := Passes.below scores (2 ^ 32 - 1)

/-- The candidate is one that no pass looks for: its score comes again, or is `UINT32_MAX`. -/
def Hidden (scores : List ℕ) (j : ℕ) : Prop :=
  scores.getD j 0 = 2 ^ 32 - 1 ∨
    ∃ i, j < i ∧ i < scores.length ∧ scores.getD i 0 = scores.getD j 0

/-- How many different scores are at least that of a candidate. -/
def scoresFrom (scores : List ℕ) (j : ℕ) : ℕ :=
  ((differentScores scores).filter (scores.getD j 0 ≤ ·)).card

/-- There are as many different scores as offsets are kept, and a candidate that is hidden has at most
the lowest of these; or one score is lacking, the first candidate is hidden, and the others that are
hidden have the lowest score of all. -/
def SharesLow (n : ℕ) (scores : List ℕ) : Prop :=
  (n ≤ (differentScores scores).card ∧
    ∀ j < scores.length, Hidden scores j → n ≤ scoresFrom scores j) ∨
  (n = (differentScores scores).card + 1 ∧ Hidden scores 0 ∧
    ∀ j < scores.length, 0 < j → Hidden scores j →
      (differentScores scores).card ≤ scoresFrom scores j)

end

section
variable {k : Knobs} {s : Bop}

theorem bestOffsetsFrom_eq (k : Knobs) (scores : List ℕ) (n max : ℕ) :
    bestOffsetsFrom k scores n max =
      (Passes.picks scores n max).map fun p => k.candidates.getD p 0 := by
  induction n generalizing max with
  | zero => rfl
  | succ n ih =>
    rw [bestOffsetsFrom, Passes.picks, List.map_cons, ih]
    rfl

/-- Different offsets are different blocks. -/
theorem nodup_prefetches (h : s.bestOffsets.Nodup) (address : UInt64) :
    (s.prefetches address).Nodup := by
  refine h.filterMap fun a b x ha hb => ?_
  simp only [Option.mem_def, Option.ite_none_right_eq_some, Option.some.injEq] at ha hb
  have heq := blockAddr_inj ha.1 hb.1 (ha.2.trans hb.2.symm)
  rw [UInt32.toInt32_add, UInt32.toInt32_add, Int32.toInt32_toUInt32, Int32.toInt32_toUInt32] at heq
  exact (Int32.add_right_inj _).1 heq

theorem mem_different {scores : List ℕ} {j : ℕ} :
    j ∈ differentScores scores ↔ j ∈ scores ∧ j < 2 ^ 32 - 1 := Passes.mem_below

/-- The candidates that passes look for. -/
theorem hidden_iff {scores : List ℕ} {j : ℕ} (hj : j < scores.length)
    (hlt : ∀ x ∈ scores, x < 2 ^ 32) : Hidden scores j ↔
      ¬ (Passes.IsLast scores j ∧ scores.getD j 0 < 2 ^ 32 - 1) := by
  have hscore : scores.getD j 0 < 2 ^ 32 := hlt _ (Passes.value_mem hj)
  constructor
  · rintro (hmax | ⟨i, hji, hi, heq⟩) ⟨hlast, hsmall⟩
    · omega
    · exact hlast.last i hji hi heq
  · intro h
    by_cases hsmall : scores.getD j 0 < 2 ^ 32 - 1
    · refine .inr ?_
      by_contra hnone
      refine h ⟨⟨hj, fun i hji hi heq => hnone ⟨i, hji, hi, heq⟩⟩, hsmall⟩
    · exact .inl (by omega)

/-! ## Places -/

/-- The places are different, and none of the others has a higher score. -/
structure PlacesBest (scores : List ℕ) (picks : List ℕ) : Prop where
  distinct : picks.Nodup
  best : ∀ i ∈ picks, ∀ j < scores.length, j ∉ picks → scores.getD j 0 ≤ scores.getD i 0

section
variable {scores : List ℕ} {n : ℕ}

/-- Where there are enough different scores. -/
theorem placesBest_of_le (hlt : ∀ x ∈ scores, x < 2 ^ 32)
    (hn : n ≤ (differentScores scores).card) :
    PlacesBest scores (Passes.picks scores n (2 ^ 32 - 1)) ↔
      ∀ j < scores.length, Hidden scores j → n ≤ scoresFrom scores j := by
  obtain ⟨hnodup, hmem⟩ := Passes.picks_of_le (l := scores) n hn
  constructor
  · intro h j hj hhidden
    have hout : j ∉ Passes.picks scores n (2 ^ 32 - 1) := fun hp =>
      (hidden_iff hj hlt).1 hhidden ⟨((hmem j).1 hp).1, ((hmem j).1 hp).2.1⟩
    -- the scores of the picks are as many different ones
    have hcard : (Passes.picks scores n (2 ^ 32 - 1)).toFinset.card = n := by
      rw [List.toFinset_card_of_nodup hnodup, Passes.length_picks]
    rw [← hcard, scoresFrom]
    refine Finset.card_le_card_of_injOn (fun p => scores.getD p 0) (fun p hp => ?_)
      fun p hp q hq heq => ?_
    · have hp := List.mem_toFinset.1 hp
      rw [Finset.mem_coe, Finset.mem_filter, mem_different]
      obtain ⟨hlast, hsmall, -⟩ := (hmem p).1 hp
      exact ⟨⟨Passes.value_mem hlast.lt, hsmall⟩, h.best p hp j hj hout⟩
    · have hp := (hmem p).1 (List.mem_toFinset.1 hp)
      have hq := (hmem q).1 (List.mem_toFinset.1 hq)
      exact hp.1.unique hq.1 heq
  · intro h
    refine ⟨hnodup, fun i hi j hj hout => ?_⟩
    obtain ⟨-, -, habove⟩ := (hmem i).1 hi
    by_contra hnot
    rw [Nat.not_le] at hnot
    by_cases hhidden : Hidden scores j
    · have hle := h j hj hhidden
      refine absurd (hle.trans (Finset.card_le_card fun x hx => ?_)) (Nat.not_le.2 habove)
      rw [Finset.mem_filter] at hx
      exact Finset.mem_filter.2 ⟨hx.1, hnot.trans_le hx.2⟩
    · have hfound := not_not.1 fun hnone => hhidden ((hidden_iff hj hlt).2 hnone)
      have hle : n ≤ (Passes.above scores (2 ^ 32 - 1) (scores.getD j 0)).card := by
        by_contra hfew
        exact hout ((hmem j).2 ⟨hfound.1, hfound.2, Nat.not_le.1 hfew⟩)
      refine absurd (hle.trans (Finset.card_le_card fun x hx => ?_)) (Nat.not_le.2 habove)
      obtain ⟨hx, hjx⟩ := Passes.mem_above.1 hx
      exact Passes.mem_above.2 ⟨hx, hnot.trans hjx⟩

/-- Where one score is lacking. -/
theorem placesBest_of_succ (hlt : ∀ x ∈ scores, x < 2 ^ 32) (hne : 0 < scores.length) :
    PlacesBest scores (Passes.picks scores ((differentScores scores).card + 1) (2 ^ 32 - 1)) ↔
      Hidden scores 0 ∧ ∀ j < scores.length, 0 < j → Hidden scores j →
        (differentScores scores).card ≤ scoresFrom scores j := by
  obtain ⟨hnodup, hmem⟩ :=
    Passes.picks_of_le (l := scores) (differentScores scores).card (Nat.le_refl _)
  -- the passes find every candidate that is not hidden
  have hfound : ∀ j < scores.length,
      j ∈ Passes.picks scores (differentScores scores).card (2 ^ 32 - 1) ↔ ¬ Hidden scores j := by
    intro j hj
    rw [hmem, hidden_iff hj hlt, not_not, ← and_assoc, and_iff_left_iff_imp]
    rintro ⟨hlast, hsmall⟩
    refine Finset.card_lt_card ⟨Finset.filter_subset _ _, fun hsub => ?_⟩
    have hself := hsub (mem_different.2 ⟨Passes.value_mem hlast.lt, hsmall⟩)
    exact lt_irrefl _ (Passes.mem_above.1 hself).2
  have hsplit : Passes.picks scores ((differentScores scores).card + 1) (2 ^ 32 - 1) =
      Passes.picks scores (differentScores scores).card (2 ^ 32 - 1) ++ [0] := Passes.picks_add 1
  rw [hsplit]
  constructor
  · intro h
    have hzero : Hidden scores 0 := by
      by_contra hshown
      have hdisjoint := (List.nodup_append.1 h.distinct).2.2
      exact hdisjoint 0 ((hfound 0 hne).2 hshown) 0 (List.mem_singleton_self 0) rfl
    refine ⟨hzero, fun j hj hpos hhidden => ?_⟩
    have hout : j ∉ Passes.picks scores (differentScores scores).card (2 ^ 32 - 1) ++ [0] := by
      rw [List.mem_append, List.mem_singleton, hfound j hj, not_or, not_not]
      exact ⟨hhidden, hpos.ne'⟩
    refine Finset.card_le_card fun x hx => Finset.mem_filter.2 ⟨hx, ?_⟩
    obtain ⟨hxs, hsmall⟩ := mem_different.1 hx
    obtain ⟨p, hlast, rfl⟩ := Passes.exists_isLast hxs
    have hp : p ∈ Passes.picks scores (differentScores scores).card (2 ^ 32 - 1) :=
      (hfound p hlast.lt).2 fun hh => (hidden_iff hlast.lt hlt).1 hh ⟨hlast, hsmall⟩
    exact h.best p (List.mem_append_left _ hp) j hj hout
  · rintro ⟨hzero, h⟩
    refine ⟨?_, fun i hi j hj hout => ?_⟩
    · refine List.nodup_append.2 ⟨hnodup, List.nodup_singleton 0, fun p hp q hq heq => ?_⟩
      rw [List.mem_singleton.1 hq] at heq
      subst heq
      exact (hfound 0 hne).1 hp hzero
    · rw [List.mem_append, not_or, List.mem_singleton, hfound j hj, not_not] at hout
      have hall := h j hj (Nat.pos_of_ne_zero hout.2) hout.1
      -- every different score is at least that of the candidate
      have hle : ∀ x ∈ differentScores scores, scores.getD j 0 ≤ x := by
        have heq := Finset.eq_of_subset_of_card_le (Finset.filter_subset _ _) hall
        intro x hx
        rw [← heq] at hx
        exact (Finset.mem_filter.1 hx).2
      have hi' : i < scores.length := by
        rcases List.mem_append.1 hi with hi | hi
        · exact ((hmem i).1 hi).1.lt
        · rwa [List.mem_singleton.1 hi]
      by_cases hsmall : scores.getD i 0 < 2 ^ 32 - 1
      · exact hle _ (mem_different.2 ⟨Passes.value_mem hi', hsmall⟩)
      · have hj' : scores.getD j 0 < 2 ^ 32 := hlt _ (Passes.value_mem hj)
        omega

theorem placesBest_iff (hlt : ∀ x ∈ scores, x < 2 ^ 32) (hn : n ≤ scores.length) :
    PlacesBest scores (Passes.picks scores n (2 ^ 32 - 1)) ↔ SharesLow n scores := by
  rw [SharesLow]
  rcases Nat.lt_trichotomy n ((differentScores scores).card + 1) with hfew | rfl | hmany
  · rw [placesBest_of_le hlt (Nat.le_of_lt_succ hfew)]
    exact ⟨fun h => .inl ⟨Nat.le_of_lt_succ hfew, h⟩, fun h => (h.resolve_right fun h => by
      omega).2⟩
  · rw [placesBest_of_succ hlt (by omega)]
    exact ⟨fun h => .inr ⟨rfl, h⟩, fun h => (h.resolve_left fun h => by omega).2⟩
  · -- the first candidate is kept twice
    obtain ⟨d, rfl⟩ : ∃ d, n = (differentScores scores).card + (d + 2) :=
      ⟨n - (differentScores scores).card - 2, by omega⟩
    refine iff_of_false (fun h => ?_) fun h => by omega
    have hsplit : Passes.picks scores ((differentScores scores).card + (d + 2)) (2 ^ 32 - 1) =
        Passes.picks scores (differentScores scores).card (2 ^ 32 - 1) ++
          List.replicate (d + 2) 0 := Passes.picks_add (d + 2)
    have hnodup := h.distinct
    rw [hsplit] at hnodup
    have htwice := (List.nodup_append.1 hnodup).2.1
    exact absurd (List.nodup_replicate.1 htwice) (by omega)

end

/-! ## Offsets -/

/-- `phase_end` keeps the best offsets exactly when scores are shared low enough. -/
theorem keepsBest_iff (k : Knobs) (hnodup : k.candidates.Nodup) (s : Bop)
    (hlen : s.scores.length = k.candidates.length) (hlt : ∀ x ∈ s.scores, x < 2 ^ 32)
    (htop : k.topN ≤ s.scores.length) : s.KeepsBest k ↔ SharesLow k.topN s.scores := by
  have hne : s.scores ≠ [] := by
    rw [← List.length_pos_iff, hlen]
    exact List.length_pos_iff.2 k.candidates_ne
  have hbest : (s.phaseEnd k).bestOffsets =
      (Passes.picks s.scores k.topN (2 ^ 32 - 1)).map fun p => k.candidates.getD p 0 :=
    bestOffsetsFrom_eq k s.scores k.topN (2 ^ 32 - 1)
  have hplace : ∀ p ∈ Passes.picks s.scores k.topN (2 ^ 32 - 1), p < k.candidates.length :=
    fun p hp => hlen ▸ Passes.lt_of_mem_picks hne hp
  -- different places have different candidates
  have hinj : ∀ p q, p < k.candidates.length → q < k.candidates.length →
      k.candidates.getD p 0 = k.candidates.getD q 0 → p = q := by
    intro p q hp hq heq
    rw [List.getD_eq_getElem _ _ hp, List.getD_eq_getElem _ _ hq] at heq
    exact (hnodup.getElem_inj_iff).1 heq
  have hmem : ∀ j < k.candidates.length, k.candidates.getD j 0 ∈ (s.phaseEnd k).bestOffsets ↔
      j ∈ Passes.picks s.scores k.topN (2 ^ 32 - 1) := by
    intro j hj
    rw [hbest, List.mem_map]
    constructor
    · rintro ⟨p, hp, heq⟩
      rwa [← hinj p j (hplace p hp) hj heq]
    · exact fun hp => ⟨j, hp, rfl⟩
  have hdistinct : (s.phaseEnd k).bestOffsets.Nodup ↔
      (Passes.picks s.scores k.topN (2 ^ 32 - 1)).Nodup := by
    rw [hbest]
    constructor
    · exact List.Nodup.of_map _
    · intro h
      exact h.map_on fun p hp q hq heq => hinj p q (hplace p hp) (hplace q hq) heq
  rw [← placesBest_iff hlt htop]
  constructor
  · intro h
    refine ⟨hdistinct.1 h.distinct, fun i hi j hj hout => ?_⟩
    have hi' := hplace i hi
    rw [hlen] at hj
    exact h.best i j hi' hj ((hmem i hi').2 hi) fun hj' => hout ((hmem j hj).1 hj')
  · intro h
    refine ⟨?_, fun o ho => ?_, hdistinct.2 h.distinct, fun i j hi hj hin hout => ?_, ?_⟩
    · rw [hbest, List.length_map, Passes.length_picks]
    · rw [hbest, List.mem_map] at ho
      obtain ⟨p, hp, rfl⟩ := ho
      rw [List.getD_eq_getElem _ _ (hplace p hp)]
      exact List.getElem_mem _
    · refine h.best i ((hmem i hi).1 hin) j (hlen ▸ hj) fun hj' => hout ((hmem j hj).2 hj')
    · exact nodup_prefetches (hdistinct.2 h.distinct)

/-- Three candidates, of which some are kept. -/
def threeCandidates (topN : ℕ) : Knobs where
  candidates := [1, 2, 3]
  candidates_ne := List.cons_ne_nil _ _
  maxRounds := 100
  maxScore := 31
  topN := topN
  enablePrefBuffer := false
  prefBufferSize := 256
  prefDegree := 4
  rrSize := 256

/-- The end of a phase with these scores. -/
def scored (scores : List ℕ) : Bop := ⟨[], scores, [], 0, 0, [1], 0⟩

/-- The best of three candidates, of which two share a score. -/
theorem keepsBest_iff_threeCandidates : (scored [0, 2, 2]).KeepsBest (threeCandidates 1) := by
  have hall : ∀ j < 3, 1 ≤ scoresFrom [0, 2, 2] j := by decide
  exact (keepsBest_iff (threeCandidates 1) (by decide) (scored [0, 2, 2]) rfl (by decide)
    (by decide)).2 (.inl ⟨by decide, fun j hj _ => hall j hj⟩)

/-- After a phase without a hit the first candidate is kept twice. -/
theorem first_kept_twice : ¬ ∀ (k : Knobs) (s : Bop), k.candidates.Nodup →
    s.scores.length = k.candidates.length → (∀ x ∈ s.scores, x < 2 ^ 32) →
    k.topN ≤ s.scores.length → s.KeepsBest k := by
  intro h
  have hbest := h (threeCandidates 3) (scored [0, 0, 0]) (by decide) rfl (by decide) (by decide)
  exact absurd hbest.distinct (by decide)

end

end Bop

end Arishem
