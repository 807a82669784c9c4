import Arishem.Prefetchers.Rounds
import Mathlib.Algebra.Order.Ring.Nat

/-!
# Phases

A score counts the hits of its offset since it came in, however many phases that were: an offset that
stays in a round after its phase goes on from where it was. So the score measures the most recent
phase only as long as the phases before it had no hits. The numbers of hits are read off the turns of
a run, the last one first.
-/

namespace Arishem

namespace Sandbox

section

/-- The hits in the most recent phase of an offset. -/
def recentHits (o : Int32) : List Turn → ℕ
  | [] => 0
  | t :: turns =>
    if t.offset = o then t.hits + (if t.first then 0 else recentHits o turns)
    else recentHits o turns

/-- The hits of an offset since it came in. -/
def stayHits (o : Int32) : List Turn → ℕ
  | [] => 0
  | t :: turns => if o ∈ t.cameIn then 0 else (if t.offset = o then t.hits else 0) + stayHits o turns

/-- The hits of an offset since it came in, but for its most recent phase. -/
def earlierHits (o : Int32) : List Turn → ℕ
  | [] => 0
  | t :: turns =>
    if o ∈ t.cameIn then 0 else if t.offset = o ∧ t.first then stayHits o turns
    else earlierHits o turns

/-- The offset was evaluated since it came in. -/
def EvaluatedSince (o : Int32) : List Turn → Prop
  | [] => False
  | t :: turns => o ∉ t.cameIn ∧ (t.offset = o ∨ EvaluatedSince o turns)

end

section
variable {F : Type} (k : Knobs) (s : Sandbox F) (turns : List Turn)

/-- The scores measure a phase: each counts the hits of the most recent one, is no higher than a
phase can have hits, and reaches a multiple of the accesses of a phase when the hits do. -/
def MeasuresPhase : Prop :=
  ∀ x ∈ s.evaluatedOffsets, x.score.toNat = recentHits x.offset turns ∧
    x.score.toNat ≤ k.numAccessInPhase.toNat * (1 + k.streamDetectLength.toNat) ∧
    ∀ lookahead ∈ lookaheads k, lookahead * k.numAccessInPhase ≤ x.score ↔
      lookahead.toNat * k.numAccessInPhase.toNat ≤ recentHits x.offset turns

/-- An offset that was evaluated since it came in had no hits before its most recent phase, and one
that was not had none in that phase either; the hits are counted in 32 bits, and no multiple that is
too large for these is taken for one that was reached. -/
def FreshPhases : Prop :=
  ∀ x ∈ s.evaluatedOffsets,
    (EvaluatedSince x.offset turns →
      2 ^ 32 ∣ earlierHits x.offset turns ∧ recentHits x.offset turns < 2 ^ 32) ∧
    (¬ EvaluatedSince x.offset turns → recentHits x.offset turns = 0) ∧
    ∀ lookahead ∈ lookaheads k, 2 ^ 32 ≤ lookahead.toNat * k.numAccessInPhase.toNat →
      recentHits x.offset turns < lookahead.toNat * k.numAccessInPhase.toNat % 2 ^ 32

end

section
variable {F : Type} {k : Knobs} {b : BloomFilter F} {sort : Sorting}
variable {s s' : Sandbox F} {address : UInt64} {turns : List Turn} {prefetches : Prefetches}
variable {o : Int32}

/-! ## Hits -/

/-- An access counts a hit, and one more for each stride back. -/
theorem filterHits_le (s : Sandbox F) (address : UInt64) :
    s.filterHits k b address ≤ 1 + k.streamDetectLength.toNat := by
  rw [filterHits]
  split
  · refine Nat.add_le_add_left (Nat.le_trans List.countP_le_length ?_) 1
    rw [streamIndices]
    split
    · rw [List.length_map, List.length_range']
    · exact Nat.zero_le _
  · exact Nat.zero_le _

/-- Without an evaluation there are no hits. -/
theorem stayHits_of_not (h : ¬ EvaluatedSince o turns) : stayHits o turns = 0 := by
  induction turns with
  | nil => rfl
  | cons t turns ih =>
    rw [EvaluatedSince, not_and_or, not_not, not_or] at h
    rw [stayHits]
    split
    · rfl
    · rename_i hout
      have hrest := h.resolve_left hout
      rw [if_neg hrest.1, ih hrest.2]

/-- The offset that an access evaluates depends on the offsets only. -/
theorem evaluates_eq (s : Sandbox F) :
    s.evaluates = (s.evaluatedOffsets.map (·.offset)).getD s.currPtr 0 := by
  rw [evaluates, List.getD_eq_getElem?_getD, List.getD_eq_getElem?_getD, List.getElem?_map]
  cases s.evaluatedOffsets[s.currPtr]? <;> rfl

/-- What step 1 does to a score. -/
theorem mem_counted (hnodup : (s.evaluatedOffsets.map (·.offset)).Nodup)
    (hptr : s.currPtr < s.evaluatedOffsets.length) {x : Score}
    (hx : x ∈ (s.counted k b address).evaluatedOffsets) :
    ∃ y ∈ s.evaluatedOffsets, y.offset = x.offset ∧ x.score =
      y.score + .ofNat (if s.evaluates = x.offset then s.filterHits k b address else 0) := by
  obtain ⟨i, hi⟩ := List.mem_iff_getElem?.1 hx
  rw [counted, List.getElem?_modify, Option.map_eq_map, Option.map_eq_some_iff] at hi
  obtain ⟨y, hy, hyx⟩ := hi
  have hoffset : y.offset = x.offset := by
    rw [← hyx]
    split <;> rfl
  refine ⟨y, List.mem_of_getElem? hy, hoffset, ?_⟩
  have hcurr := getElem?_evaluates hptr
  have hith : (s.evaluatedOffsets.map (·.offset))[i]? = some x.offset := by
    rw [List.getElem?_map, hy, Option.map_some, hoffset]
  have heq : s.evaluates = x.offset ↔ s.currPtr = i := by
    constructor
    · intro h
      rw [← h, ← hcurr] at hith
      exact ((List.getElem?_inj (by rwa [List.length_map]) hnodup).1 hith.symm)
    · rintro rfl
      rw [hcurr] at hith
      exact Option.some.inj hith
  simp only [heq]
  by_cases hi : s.currPtr = i
  · rw [if_pos hi] at hyx ⊢
    rw [← hyx]
  · rw [if_neg hi] at hyx ⊢
    rw [← hyx]
    exact (UInt32.add_zero _).symm

/-! ## Runs -/

/-- What the scores of a run have counted. -/
structure Counts (k : Knobs) (turns : List Turn) (s : Sandbox F) : Prop where
  demand : s.totalDemand < k.numAccessInPhase.toNat
  score : ∀ x ∈ s.evaluatedOffsets, x.score = .ofNat (stayHits x.offset turns)
  current : s.totalDemand ≠ 0 → EvaluatedSince s.evaluates turns ∧
    recentHits s.evaluates turns ≤ s.totalDemand * (1 + k.streamDetectLength.toNat)
  recent : ∀ o, recentHits o turns ≤ k.numAccessInPhase.toNat * (1 + k.streamDetectLength.toNat)
  split : ∀ o, EvaluatedSince o turns →
    stayHits o turns = earlierHits o turns + recentHits o turns

/-- The hits of a phase after one more access. -/
theorem Counts.recent_turn (h : Counts k turns s) :
    recentHits s.evaluates (s.turn k b sort address :: turns) ≤
      (s.totalDemand + 1) * (1 + k.streamDetectLength.toNat) := by
  have hhits := filterHits_le (k := k) (b := b) s address
  rw [recentHits, turn]
  dsimp only
  rw [if_pos rfl, Nat.succ_mul]
  by_cases hfirst : s.totalDemand = 0
  · rw [decide_eq_true hfirst, if_pos rfl]
    omega
  · rw [decide_eq_false hfirst, if_neg Bool.false_ne_true]
    have hrecent := (h.current hfirst).2
    omega

theorem Counts.recent_le (h : Counts k turns s) (o : Int32) :
    recentHits o (s.turn k b sort address :: turns) ≤
      k.numAccessInPhase.toNat * (1 + k.streamDetectLength.toNat) := by
  by_cases ho : s.evaluates = o
  · subst ho
    exact Nat.le_trans h.recent_turn (Nat.mul_le_mul_right _ (Nat.succ_le_of_lt h.demand))
  · rw [recentHits, if_neg (by exact ho)]
    exact h.recent o

/-- The hits of a stay are those of the most recent phase and those before it. -/
theorem Counts.split_turn (h : Counts k turns s) (o : Int32)
    (hsince : EvaluatedSince o (s.turn k b sort address :: turns)) :
    stayHits o (s.turn k b sort address :: turns) =
      earlierHits o (s.turn k b sort address :: turns) +
        recentHits o (s.turn k b sort address :: turns) := by
  rw [EvaluatedSince] at hsince
  rw [stayHits, earlierHits, recentHits, if_neg hsince.1, if_neg hsince.1]
  by_cases ho : (s.turn k b sort address).offset = o
  · rw [if_pos ho, if_pos ho]
    by_cases hfirst : s.totalDemand = 0
    · have hturn : (s.turn k b sort address).first = true := decide_eq_true hfirst
      rw [hturn, if_pos rfl, if_pos ⟨ho, rfl⟩]
      omega
    · have hturn : (s.turn k b sort address).first = false := decide_eq_false hfirst
      have hcurrent := (h.current hfirst).1
      have hsame : s.evaluates = o := ho
      rw [hsame] at hcurrent
      rw [hturn, if_neg Bool.false_ne_true, if_neg fun h => Bool.false_ne_true h.2, h.split o hcurrent]
      omega
  · rw [if_neg ho, if_neg ho, if_neg fun h => ho h.1, h.split o (hsince.2.resolve_left ho)]
    omega

/-- The scores after step 1 have counted the access. -/
theorem Counts.score_turn (h : Counts k turns s)
    (hnodup : (s.evaluatedOffsets.map (·.offset)).Nodup)
    (hptr : s.currPtr < s.evaluatedOffsets.length) (b : BloomFilter F) (sort : Sorting)
    (address : UInt64) (x : Score)
    (hx : x ∈ (s.counted k b address).evaluatedOffsets)
    (hout : x.offset ∉ (s.turn k b sort address).cameIn) :
    x.score = .ofNat (stayHits x.offset (s.turn k b sort address :: turns)) := by
  obtain ⟨y, hy, hoffset, hscore⟩ := mem_counted hnodup hptr hx
  rw [hscore, h.score y hy, hoffset, ← UInt32.ofNat_add, stayHits, if_neg hout, Nat.add_comm]
  rfl

theorem Counts.step (h : Counts k turns s) (hrun : Run k b sort turns s)
    (hs : s.invokePrefetcher k b sort address = .ok (s', prefetches)) :
    Counts k (s.turn k b sort address :: turns) s' := by
  have hpos : 0 < k.numAccessInPhase.toNat := UInt32.lt_iff_toNat_lt.1 k.numAccessInPhase_pos
  have hdemand := h.demand
  have hnodup' := (hrun.access hs).nodup
  obtain ⟨hsize, hptr, hgoes, -⟩ := goes_of_invoke hs
  have hlen := length_counted (k := k) (b := b) s address
  have hscore := h.score_turn (List.nodup_append.1 hrun.nodup).1 (hsize ▸ hptr) b sort address
  generalize hc : s.counted k b address = c at hgoes hlen hscore
  have hcptr : c.currPtr = s.currPtr := by rw [← hc]; rfl
  have hcdemand : c.totalDemand = s.totalDemand + 1 := by rw [← hc]; rfl
  cases hgoes with
  | on hN =>
    have hnone : (s.turn k b sort address).cameIn = [] :=
      if_neg fun hround => hN (hcdemand.trans hround.1)
    rw [hnone] at hscore
    refine ⟨by rw [hcdemand] at hN ⊢; omega, fun x hx => hscore x hx List.not_mem_nil,
      fun _ => ?_, h.recent_le, h.split_turn⟩
    have hsame : c.evaluates = s.evaluates := by
      rw [evaluates_eq, evaluates_eq, ← hc, counted_offsets]
      rfl
    have hcurrent : ∀ bf, ({ c with bf := bf } : Sandbox F).evaluates = s.evaluates := fun _ => hsame
    rw [hcurrent]
    refine ⟨⟨?_, .inl rfl⟩, ?_⟩
    · rw [hnone]
      exact List.not_mem_nil
    · dsimp only
      rw [hcdemand]
      exact h.recent_turn
  | next hN hnext =>
    have hnone : (s.turn k b sort address).cameIn = [] :=
      if_neg fun hround => absurd hround.2 (by rw [← hlen, ← hcptr]; omega)
    rw [hnone] at hscore
    exact ⟨hpos, fun x hx => hscore x hx List.not_mem_nil, fun hne => absurd rfl hne, h.recent_le,
      h.split_turn⟩
  | around hN hlast =>
    have hin : (s.turn k b sort address).cameIn = c.cycledIn k sort := by
      rw [← hc]
      exact if_pos ⟨hcdemand.symm.trans hN, by omega⟩
    refine ⟨hpos, fun x hx => ?_, fun hne => absurd rfl hne, h.recent_le, h.split_turn⟩
    rcases List.mem_append.1 hx with hx | hx
    · have hmem := (sort.byScore_perm _).mem_iff.1 (List.mem_of_mem_take hx)
      refine hscore x hmem fun hcame => ?_
      -- an offset that stays does not come in
      rw [hin] at hcame
      have hnodup := (List.nodup_append.1 hnodup').1
      dsimp only at hnodup
      rw [List.map_append, List.map_map, Function.comp_def, List.map_id'] at hnodup
      exact (List.nodup_append.1 hnodup).2.2 _ (List.mem_map_of_mem hx) _ hcame rfl
    · obtain ⟨o, ho, rfl⟩ := List.mem_map.1 hx
      rw [stayHits, if_pos (by rw [hin]; exact ho)]
      rfl

theorem Run.counts (h : Run k b sort turns s) : Counts k turns s := by
  induction h with
  | init =>
    have hpos : 0 < k.numAccessInPhase.toNat := UInt32.lt_iff_toNat_lt.1 k.numAccessInPhase_pos
    refine ⟨hpos, fun x hx => ?_, fun hne => absurd rfl hne, fun _ => Nat.zero_le _,
      fun _ h => h.elim⟩
    obtain ⟨o, -, rfl⟩ := List.mem_map.1 hx
    rfl
  | access hrun hs ih => exact ih.step hrun hs

/-! ## Scores -/

/-- When the score of an offset is the number of hits of its most recent phase. -/
theorem score_eq_iff (h : Counts k turns s) {x : Score} (hx : x ∈ s.evaluatedOffsets) :
    x.score.toNat = recentHits x.offset turns ↔
      (EvaluatedSince x.offset turns →
        2 ^ 32 ∣ earlierHits x.offset turns ∧ recentHits x.offset turns < 2 ^ 32) ∧
      (¬ EvaluatedSince x.offset turns → recentHits x.offset turns = 0) := by
  rw [h.score x hx, UInt32.toNat_ofNat']
  by_cases hsince : EvaluatedSince x.offset turns
  · rw [h.split _ hsince]
    constructor
    · intro heq
      exact ⟨fun _ => by omega, fun hnot => absurd hsince hnot⟩
    · rintro ⟨hfresh, -⟩
      have hmod := hfresh hsince
      omega
  · rw [stayHits_of_not hsince]
    constructor
    · exact fun heq => ⟨fun h => absurd h hsince, fun _ => heq.symm⟩
    · exact fun hnone => (hnone.2 hsince).symm

/-- Where the hits fit into 32 bits, only a multiple that does not can be taken for another. -/
theorem reaches_iff {lookahead N score : UInt32} {hits : ℕ} (hscore : score.toNat = hits) :
    (lookahead * N ≤ score ↔ lookahead.toNat * N.toNat ≤ hits) ↔
      (2 ^ 32 ≤ lookahead.toNat * N.toNat → hits < lookahead.toNat * N.toNat % 2 ^ 32) := by
  have hlt := score.toNat_lt
  rw [UInt32.le_iff_toNat_le, UInt32.toNat_mul, hscore]
  generalize lookahead.toNat * N.toNat = m
  omega

/-- In every state of every run, the scores measure a phase exactly when the phases before the most
recent ones had no hits. -/
theorem measuresPhase_iff (k : Knobs) (b : BloomFilter F) (sort : Sorting) {turns : List Turn}
    {s : Sandbox F} (h : Run k b sort turns s) :
    s.MeasuresPhase k turns ↔ s.FreshPhases k turns := by
  refine forall₂_congr fun x hx => ?_
  have heq := score_eq_iff h.counts hx
  constructor
  · rintro ⟨hscore, -, hreach⟩
    exact ⟨(heq.1 hscore).1, (heq.1 hscore).2,
      fun lookahead hla => (reaches_iff hscore).1 (hreach lookahead hla)⟩
  · rintro ⟨hsince, hnot, hreach⟩
    have hscore := heq.2 ⟨hsince, hnot⟩
    exact ⟨hscore, hscore ▸ h.counts.recent x.offset,
      fun lookahead hla => (reaches_iff hscore).2 (hreach lookahead hla)⟩

/-- One phase. -/
theorem measuresPhase_iff_one : ∃ turns s,
    run twoAccesses exactFilter insertionSorting [0x1140, 0x1180] = .ok (turns, s) ∧
      (s.MeasuresPhase twoAccesses turns ↔ s.FreshPhases twoAccesses turns) := by
  obtain ⟨⟨turns, s⟩, hrun⟩ : ∃ r, run twoAccesses exactFilter insertionSorting
      [0x1140, 0x1180] = .ok r := ⟨_, rfl⟩
  exact ⟨turns, s, hrun, measuresPhase_iff twoAccesses exactFilter insertionSorting
    ((run_sound _).of_ok hrun)⟩

/-! ## A score of two phases -/

/-- The filter has no false negatives. -/
def BloomFilter.NoFalseNegatives (b : BloomFilter F) : Prop :=
  ∀ addresses : List UInt64, ∀ address ∈ addresses,
    b.lookup (addresses.foldl b.add b.clear) address = true

theorem noFalseNegatives_exactFilter : exactFilter.NoFalseNegatives := by
  have hfold : ∀ addresses bf : List UInt64,
      addresses.foldl exactFilter.add bf = addresses.reverse ++ bf := by
    intro addresses
    induction addresses with
    | nil => exact fun _ => rfl
    | cons address addresses ih =>
      intro bf
      rw [List.foldl_cons, ih, List.reverse_cons, List.append_assoc]
      rfl
  intro addresses address h
  rw [hfold]
  exact List.contains_iff_mem.2 (List.mem_append_left _ (List.mem_reverse.2 h))

/-- Two blocks in turn, so that the phases of the offset 1 have a hit each. -/
def twoBlocks (n : ℕ) : List UInt64 := (List.replicate n [0x1140, 0x1180]).flatten

/-- The second phase of the offset 1 goes on from the score of the first. -/
theorem score_of_two_phases : ¬ ∀ (k : Knobs) (b : BloomFilter (List UInt64)) (sort : Sorting),
    b.NoFalseNegatives → ∀ turns s, Run k b sort turns s → s.MeasuresPhase k turns := by
  intro h
  have hcheck : (match run twoAccesses exactFilter insertionSorting (twoBlocks 17) with
      | .ok r => r.2.evaluatedOffsets.any fun x => x.score.toNat ≠ recentHits x.offset r.1
      | .error _ => false) = true := by decide +kernel
  split at hcheck
  · rename_i r hrun
    obtain ⟨x, hx, hne⟩ := List.any_eq_true.1 hcheck
    have hmeasures := h twoAccesses exactFilter insertionSorting noFalseNegatives_exactFilter
      r.1 r.2 ((run_sound _).of_ok hrun)
    exact of_decide_eq_true hne (hmeasures x hx).1
  · cases hcheck

end

end Sandbox

end Arishem
