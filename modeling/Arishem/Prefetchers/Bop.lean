import Arishem.Prefetchers.Page
import Mathlib.Algebra.GroupWithZero.Nat
import Mathlib.Data.List.Induction
import Mathlib.Data.Nat.Basic
import Mathlib.Order.MinMax

/-!
# BOP

The best-offset prefetcher scores its candidate offsets, one at each access, against the recent
requests, and takes the best ones when a phase ends. The scan of `check_end_of_phase` keeps the place
of a score where it is meant to keep the score, so what ends a phase early is a candidate far down the
list. The counters stay below `bop_max_rounds` and are natural numbers; the statistics are left out,
but for the number of phases.
-/

namespace Arishem

namespace Bop

/-- The knobs. There is a candidate, as the first access reads one. -/
structure Knobs where
  candidates : List Int32
  candidates_ne : candidates ≠ []
  maxRounds : ℕ
  maxScore : ℕ
  topN : ℕ
  enablePrefBuffer : Bool
  prefBufferSize : ℕ
  prefDegree : ℕ
  rrSize : ℕ

end Bop

/-- The prefetcher. -/
structure Bop where
  rr : List UInt64
  scores : List ℕ
  prefBuffer : List UInt64
  roundCounter : ℕ
  candidatePtr : ℕ
  bestOffsets : List Int32
  totalPhases : ℕ

namespace Bop

section
variable (k : Knobs)

/-- The constructor. -/
def init : Bop where
  rr := []
  scores := List.replicate k.candidates.length 0
  prefBuffer := []
  roundCounter := 0
  candidatePtr := 0
  bestOffsets := [1]
  totalPhases := 0

/-! ## Recent requests -/

/-- `search_rr`. -/
def searchRr (s : Bop) (address : UInt64) : Bool := s.rr.contains address

/-- `insert_rr`. -/
def insertRr (s : Bop) (address : UInt64) : Bop :=
  if s.searchRr address then s
  else { s with rr := (if k.rrSize ≤ s.rr.length then s.rr.drop 1 else s.rr) ++ [address] }

/-- `register_fill`. -/
def registerFill (s : Bop) (address : UInt64) : Bop :=
  s.bestOffsets.foldl (fun s best =>
    if inPage (offsetOf address - best.toUInt32).toInt32 then
      s.insertRr k ((address >>> 6) - best.toInt64.toUInt64)
    else s) s

/-! ## Phases -/

/-- The loop of `check_end_of_phase`: `max_score` becomes the place of the score. -/
def scanScores : ℕ → ℕ → List ℕ → ℕ
  | _, maxScore, [] => maxScore
  | index, maxScore, score :: scores =>
    scanScores (index + 1) (if maxScore ≤ score then index else maxScore) scores

/-- `check_end_of_phase`. -/
def checkEndOfPhase (s : Bop) : Bool :=
  k.maxRounds ≤ s.roundCounter || k.maxScore ≤ scanScores 0 0 s.scores

/-- The inner loop of `phase_end`: the largest score below `max` and its place. -/
def bestBelow (max : ℕ) (scores : List ℕ) : ℕ × ℕ :=
  scores.zipIdx.foldl (fun curr score =>
    if curr.1 ≤ score.1 ∧ score.1 < max then score else curr) (0, 0)

/-- The outer loop of `phase_end`. -/
def bestOffsetsFrom (scores : List ℕ) : ℕ → ℕ → List Int32
  | 0, _ => []
  | n + 1, max =>
    k.candidates.getD (bestBelow max scores).2 0 ::
      bestOffsetsFrom scores n (bestBelow max scores).1

/-- `phase_end`. -/
def phaseEnd (s : Bop) : Bop :=
  { s with
    totalPhases := s.totalPhases + 1
    bestOffsets := bestOffsetsFrom k s.scores k.topN (2 ^ 32 - 1)
    scores := List.replicate k.candidates.length 0
    roundCounter := 0
    candidatePtr := 0 }

/-! ## Accesses -/

/-- Evaluate the next candidate. -/
def evaluate (s : Bop) (address : UInt64) : Bop :=
  let offset := k.candidates.getD s.candidatePtr 0
  { s with
    scores :=
      if s.searchRr ((address >>> 6) - offset.toInt64.toUInt64) then
        s.scores.modify s.candidatePtr (· + 1)
      else s.scores
    candidatePtr := (s.candidatePtr + 1) % k.candidates.length
    roundCounter := s.roundCounter + 1 }

/-- The prefetches of the best offsets, inside the page. -/
def prefetches (s : Bop) (address : UInt64) : List UInt64 :=
  s.bestOffsets.filterMap fun best =>
    let pfOffset := (offsetOf address + best.toUInt32).toInt32
    if inPage pfOffset then some (blockAddr (pageOf address) pfOffset) else none

/-- `buffer_prefetch`. -/
def bufferPrefetch (s : Bop) (prefAddr : List UInt64) : Bop :=
  { s with
    prefBuffer := s.prefBuffer ++ prefAddr.take (k.prefBufferSize - s.prefBuffer.length) }

/-- `issue_prefetch`. -/
def issuePrefetch (s : Bop) : Bop × List UInt64 :=
  ({ s with prefBuffer := s.prefBuffer.drop k.prefDegree }, s.prefBuffer.take k.prefDegree)

/-- `invoke_prefetcher`, with the prefetches. -/
def invokePrefetcher (s : Bop) (address : UInt64) : Bop × List UInt64 :=
  let s := s.evaluate k address
  let s := if s.checkEndOfPhase k then s.phaseEnd k else s
  let prefAddr := s.prefetches address
  if k.enablePrefBuffer then (s.bufferPrefetch k prefAddr).issuePrefetch k else (s, prefAddr)

/-- A call of the prefetcher. -/
inductive Call
  | invokePrefetcher (address : UInt64)
  | registerFill (address : UInt64)

/-- A call. -/
def call (s : Bop) : Call → Bop
  | .invokePrefetcher address => (s.invokePrefetcher k address).1
  | .registerFill address => s.registerFill k address

/-- A run, from the start. -/
def run (calls : List Call) : Bop := calls.foldl (call k) (init k)

/-! ## The end of a phase -/

/-- The access ends the phase. -/
def EndsPhase (s : Bop) (address : UInt64) : Prop :=
  (s.invokePrefetcher k address).1.totalPhases = s.totalPhases + 1

/-- The largest entry. -/
def largest (scores : List ℕ) : ℕ := scores.foldr max 0

/-- The access ends the phase exactly when the rounds are over or the best candidate has a score of
`bop_max_score`. -/
def EndsOnScore (s : Bop) (address : UInt64) : Prop :=
  s.EndsPhase k address ↔ k.maxRounds ≤ (s.evaluate k address).roundCounter ∨
    k.maxScore ≤ largest (s.evaluate k address).scores

/-- The score of a candidate is at least the place of every candidate before it that is a leader
itself. -/
def Leader (scores : List ℕ) (i : ℕ) : Prop :=
  ∀ j, j < i → Leader scores j → j ≤ scores.getD i 0
termination_by i

/-- The rounds are over with the access; or all scores are below `bop_max_score`, and each candidate from
that place on has a score below the place of a leader before it; or a score has reached `bop_max_score`,
and a candidate from that place on has a score of at least the place of each leader before it. -/
def LeadersAgree (s : Bop) (address : UInt64) : Prop :=
  let t := s.evaluate k address
  k.maxRounds ≤ t.roundCounter ∨
    ((∀ x ∈ t.scores, x < k.maxScore) ∧
      ∀ i < t.scores.length, k.maxScore ≤ i → ∃ j < i, Leader t.scores j ∧ t.scores.getD i 0 < j) ∨
    (∃ x ∈ t.scores, k.maxScore ≤ x) ∧
      ∃ i < t.scores.length, k.maxScore ≤ i ∧ ∀ j < i, Leader t.scores j → j ≤ t.scores.getD i 0

end

section
variable {k : Knobs} {s : Bop}

/-- The scan ends at the last leader. -/
theorem scanScores_spec (scores before : List ℕ) (m : ℕ) (hm : m = 0 ∨ m < before.length)
    (hlead : before ≠ [] → Leader (before ++ scores) m)
    (hmax : ∀ j < before.length, Leader (before ++ scores) j → j ≤ m)
    (hne : before ++ scores ≠ []) :
    Leader (before ++ scores) (scanScores before.length m scores) ∧
      scanScores before.length m scores < (before ++ scores).length ∧
      ∀ j < (before ++ scores).length, Leader (before ++ scores) j →
        j ≤ scanScores before.length m scores := by
  induction scores generalizing before m with
  | nil =>
    rw [List.append_nil] at *
    refine ⟨hlead hne, ?_, hmax⟩
    rcases hm with rfl | hm
    · exact List.length_pos_iff.2 hne
    · exact hm
  | cons score scores ih =>
    have hsplit : before ++ score :: scores = before ++ [score] ++ scores := by simp
    have hscore : (before ++ score :: scores).getD before.length 0 = score := by simp
    -- the candidate leads when its score reaches the last leader
    have hiff : Leader (before ++ score :: scores) before.length ↔ m ≤ score := by
      rw [Leader, hscore]
      constructor
      · intro h
        rcases List.eq_nil_or_concat before with rfl | ⟨_, _, rfl⟩
        · rcases hm with rfl | hm
          · exact Nat.zero_le _
          · exact absurd hm (Nat.not_lt_zero _)
        · rcases hm with rfl | hm
          · exact Nat.zero_le _
          · exact h m hm (hlead (by simp))
      · intro h j hj hlj
        exact (hmax j hj hlj).trans h
    have hlen : (before ++ [score]).length = before.length + 1 := by simp
    rw [scanScores, hsplit, ← hlen]
    rw [hsplit] at hiff hlead hmax
    split
    · rename_i hle
      refine ih (before ++ [score]) before.length (.inr (by simp)) (fun _ => hiff.2 hle)
        (fun j hj _ => ?_) (by simp)
      rw [hlen] at hj
      omega
    · rename_i hle
      have hne' : before ≠ [] := by
        rintro rfl
        rcases hm with rfl | hm
        · exact hle (Nat.zero_le _)
        · exact absurd hm (Nat.not_lt_zero _)
      refine ih (before ++ [score]) m ?_ (fun _ => hlead hne') (fun j hj hlj => ?_) (by simp)
      · rcases hm with rfl | hm
        · exact .inl rfl
        · exact .inr (by rw [hlen]; omega)
      · rw [hlen] at hj
        rcases (Nat.lt_succ_iff.1 hj).lt_or_eq with hlt | rfl
        · exact hmax j hlt hlj
        · exact absurd (hiff.1 hlj) hle

/-- The scan reaches a place when there is a leader from it on. -/
theorem le_scanScores_iff {scores : List ℕ} (hne : scores ≠ []) (n : ℕ) :
    n ≤ scanScores 0 0 scores ↔ ∃ i < scores.length, n ≤ i ∧ Leader scores i := by
  obtain ⟨hlead, hlt, hmax⟩ := scanScores_spec scores [] 0 (.inl rfl) (by simp) (by simp) hne
  constructor
  · intro h
    exact ⟨_, hlt, h, hlead⟩
  · rintro ⟨i, hi, hni, hli⟩
    exact hni.trans (hmax i hi hli)

theorem le_largest_iff {scores : List ℕ} (hne : scores ≠ []) (n : ℕ) :
    n ≤ largest scores ↔ ∃ x ∈ scores, n ≤ x := by
  induction scores with
  | nil => exact absurd rfl hne
  | cons x xs ih =>
    simp only [largest, List.foldr_cons, le_max_iff, List.mem_cons, exists_eq_or_imp]
    by_cases hxs : xs = []
    · subst hxs
      simp only [List.foldr_nil, List.not_mem_nil, false_and, exists_false, or_false]
      exact or_iff_left_of_imp fun h => h.trans (Nat.zero_le x)
    · exact or_congr_right (ih hxs)

/-! ## Runs -/

/-- Every candidate has a score. -/
def Scored (k : Knobs) (s : Bop) : Prop := s.scores.length = k.candidates.length

theorem Scored.insertRr (h : Scored k s) (address : UInt64) : Scored k (s.insertRr k address) := by
  unfold Bop.insertRr
  split
  · exact h
  · exact h

theorem Scored.registerFill (h : Scored k s) (address : UInt64) :
    Scored k (s.registerFill k address) := by
  unfold Bop.registerFill
  generalize s.bestOffsets = l
  induction l generalizing s with
  | nil => exact h
  | cons best l ih =>
    rw [List.foldl_cons]
    split
    · exact ih (h.insertRr _)
    · exact ih h

theorem Scored.evaluate (h : Scored k s) (address : UInt64) : Scored k (s.evaluate k address) := by
  unfold Bop.evaluate Scored
  dsimp only
  split
  · rw [List.length_modify]
    exact h
  · exact h

/-- The phase ends with the access when `check_end_of_phase` says so. -/
theorem endsPhase_iff (s : Bop) (address : UInt64) :
    s.EndsPhase k address ↔ (s.evaluate k address).checkEndOfPhase k = true := by
  have hphases : (s.invokePrefetcher k address).1.totalPhases =
      if (s.evaluate k address).checkEndOfPhase k then s.totalPhases + 1 else s.totalPhases := by
    unfold invokePrefetcher
    dsimp only
    cases k.enablePrefBuffer <;> cases (s.evaluate k address).checkEndOfPhase k <;> rfl
  rw [EndsPhase, hphases]
  split
  · rename_i hend
    simp [hend]
  · rename_i hend
    simp [hend]

theorem Scored.invokePrefetcher (h : Scored k s) (address : UInt64) :
    Scored k (s.invokePrefetcher k address).1 := by
  have hs := h.evaluate address
  have hend : Scored k (if (s.evaluate k address).checkEndOfPhase k then
      (s.evaluate k address).phaseEnd k else s.evaluate k address) := by
    split
    · exact List.length_replicate
    · exact hs
  unfold Bop.invokePrefetcher
  dsimp only
  cases k.enablePrefBuffer
  · exact hend
  · exact hend

/-- A run keeps a score for every candidate. -/
theorem scored_run (calls : List Call) : Scored k (run k calls) := by
  induction calls using List.reverseRecOn with
  | nil => exact List.length_replicate
  | append_singleton calls c ih =>
    rw [run, List.foldl_append]
    cases c with
    | invokePrefetcher address => exact ih.invokePrefetcher address
    | registerFill address => exact ih.registerFill address

/-- A candidate that is no leader has one before it whose place its score does not reach. -/
theorem not_leader_iff {scores : List ℕ} {i : ℕ} :
    ¬ Leader scores i ↔ ∃ j < i, Leader scores j ∧ scores.getD i 0 < j := by
  rw [Leader]
  constructor
  · intro h
    by_contra hnone
    exact h fun j hj hlead => not_lt.1 fun hlt => hnone ⟨j, hj, hlead, hlt⟩
  · rintro ⟨j, hj, hlead, hlt⟩ h
    exact absurd (h j hj hlead) (not_le.2 hlt)

/-- The last leader and the largest score are on the same side of `bop_max_score` exactly when the
leaders agree with the scores. -/
theorem leaders_agree_iff (scores : List ℕ) (maxScore : ℕ) :
    ((∃ i < scores.length, maxScore ≤ i ∧ Leader scores i) ↔ ∃ x ∈ scores, maxScore ≤ x) ↔
      ((∀ x ∈ scores, x < maxScore) ∧
        ∀ i < scores.length, maxScore ≤ i → ∃ j < i, Leader scores j ∧ scores.getD i 0 < j) ∨
      (∃ x ∈ scores, maxScore ≤ x) ∧
        ∃ i < scores.length, maxScore ≤ i ∧ ∀ j < i, Leader scores j → j ≤ scores.getD i 0 := by
  have hlead : (∃ i < scores.length, maxScore ≤ i ∧ ∀ j < i, Leader scores j →
      j ≤ scores.getD i 0) ↔ ∃ i < scores.length, maxScore ≤ i ∧ Leader scores i :=
    exists_congr fun i => and_congr_right fun _ => and_congr_right fun _ => by rw [Leader]
  have hnone : (∀ i < scores.length, maxScore ≤ i → ∃ j < i, Leader scores j ∧
      scores.getD i 0 < j) ↔ ¬ ∃ i < scores.length, maxScore ≤ i ∧ Leader scores i := by
    simp only [← not_leader_iff, not_exists, not_and]
  have hsmall : (∀ x ∈ scores, x < maxScore) ↔ ¬ ∃ x ∈ scores, maxScore ≤ x := by
    simp only [not_exists, not_and, not_le]
  rw [hlead, hnone, hsmall]
  exact iff_iff_and_or_not_and_not.trans (or_comm.trans (or_congr and_comm and_comm))

/-- In every run, an access ends the phase on the score exactly when the leaders agree with the
scores. -/
theorem endsOnScore_iff (k : Knobs) (calls : List Call) (address : UInt64) :
    (run k calls).EndsOnScore k address ↔ (run k calls).LeadersAgree k address := by
  have hscored := (scored_run calls).evaluate (k := k) address
  have hne : ((run k calls).evaluate k address).scores ≠ [] := by
    rw [← List.length_pos_iff, hscored]
    exact List.length_pos_iff.2 k.candidates_ne
  rw [EndsOnScore, LeadersAgree, endsPhase_iff, checkEndOfPhase, Bool.or_eq_true, decide_eq_true_eq,
    decide_eq_true_eq, le_scanScores_iff hne, le_largest_iff hne]
  by_cases hround : k.maxRounds ≤ ((run k calls).evaluate k address).roundCounter
  · simp [hround]
  · simp only [hround, false_or]
    exact leaders_agree_iff _ _

/-- With no more candidates than `bop_max_score`, as in `bop.ini`, no score ends a phase before
`bop_max_rounds` rounds. -/
theorem not_endsPhase (hmany : k.candidates.length ≤ k.maxScore) (calls : List Call)
    (address : UInt64) (hround : ((run k calls).evaluate k address).roundCounter < k.maxRounds) :
    ¬ (run k calls).EndsPhase k address := by
  have hscored := (scored_run calls).evaluate (k := k) address
  have hne : ((run k calls).evaluate k address).scores ≠ [] := by
    rw [← List.length_pos_iff, hscored]
    exact List.length_pos_iff.2 k.candidates_ne
  rw [endsPhase_iff, checkEndOfPhase, Bool.or_eq_true, decide_eq_true_eq, decide_eq_true_eq,
    le_scanScores_iff hne]
  rintro (h | ⟨i, hi, hmax, -⟩)
  · omega
  · rw [hscored] at hi
    omega

/-- Two candidates and a phase that ends with the score one. -/
def twoCandidates : Knobs where
  candidates := [1, 2]
  candidates_ne := by decide
  maxRounds := 100
  maxScore := 1
  topN := 1
  enablePrefBuffer := false
  prefBufferSize := 256
  prefDegree := 4
  rrSize := 256

/-- The first access ends the phase although no candidate has a score. -/
theorem phase_ends_without_score : ¬ (run twoCandidates []).EndsOnScore twoCandidates 0 := by
  rw [EndsOnScore, EndsPhase]
  decide

end

end Bop

end Arishem
