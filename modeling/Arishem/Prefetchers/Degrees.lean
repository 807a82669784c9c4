import Arishem.Prefetchers.Rounds
import Mathlib.Data.List.Nodup

/-!
# The degree

`generate_prefetch` counts its prefetches against the degree after an offset is done, with all its
lookaheads, and goes on as long as the degree is not exceeded. Several offsets reach the same block
with different lookaheads. So an access keeps to the degree only when the offsets ask for no more than
that, and for different blocks.
-/

namespace Arishem

namespace Sandbox

section
variable (k : Knobs) (address : UInt64)

/-- The degree is kept, in the page of the demand, and no block is asked for twice. -/
structure RespectsDegree (prefetches : Prefetches) : Prop where
  pos : prefetches.pos.length ≤ k.prefDegree.toNat
  neg : prefetches.neg.length ≤ k.prefDegree.toNat
  page : ∀ x ∈ prefetches.pos ++ prefetches.neg, pageOf x = pageOf address
  distinct : (prefetches.pos ++ prefetches.neg).Nodup

/-- The block that an offset and a lookahead lead to. -/
def target (offset : Int32) (lookahead : UInt32) : Int32 :=
  (offsetOf address + offset.toUInt32 * lookahead).toInt32

/-- An offset with the lookaheads that its score allows, as far as they stay in the page. -/
def askedBy (x : Score) : List (Score × UInt32) :=
  ((lookaheads k).filter fun lookahead =>
    lookahead * k.numAccessInPhase ≤ x.score ∧ inPage (target address x.offset lookahead)).map
      (Prod.mk x)

/-- What the offsets ask for. -/
def asked (scores : List Score) : List (Score × UInt32) := scores.flatMap (askedBy k address)

/-- The offsets of neither sign ask for more than the degree, and all of them for different blocks. -/
structure FitsDegree (scores : List Score) : Prop where
  pos : (asked k address scores).countP (0 < ·.1.offset) ≤ k.prefDegree.toNat
  neg : (asked k address scores).countP (¬ 0 < ·.1.offset) ≤ k.prefDegree.toNat
  distinct : ((asked k address scores).map fun x => x.1.offset.toUInt32 * x.2).Nodup

instance (scores : List Score) : Decidable (FitsDegree k address scores) :=
  decidable_of_iff (_ ∧ _ ∧ _) ⟨fun h => ⟨h.1, h.2.1, h.2.2⟩, fun h => ⟨h.pos, h.neg, h.distinct⟩⟩

/-- What steps 1 to 3 of an access leave for step 4. -/
def untilStep4 {F : Type} (b : BloomFilter F) (sort : Sorting) (s : Sandbox F) :
    Except Stop (Sandbox F) := do
  let s ← s.step1 k b address
  (s.step2 b address).step3 k b sort

end

section
variable {F : Type} {k : Knobs} {b : BloomFilter F} {sort : Sorting}
variable {s s' : Sandbox F} {address : UInt64} {prefetches : Prefetches}
variable {scores : List Score}

/-! ## The prefetches of the offsets -/

/-- The block address behind an offset and a lookahead. -/
def addressOf (address : UInt64) (x : Score × UInt32) : UInt64 :=
  blockAddr (pageOf address) (target address x.1.offset x.2)

/-- No block has the address for none. -/
theorem blockAddr_ne_none (page : UInt64) {prefOffset : Int32} (h : inPage prefOffset) :
    blockAddr page prefOffset ≠ 0xdeadbeef := by
  intro heq
  have hmod := blockAddr_mod page h
  rw [heq] at hmod
  exact absurd hmod (by decide)

theorem asked_cons (x : Score) (scores : List Score) :
    asked k address (x :: scores) = askedBy k address x ++ asked k address scores :=
  List.flatMap_cons

/-- What one offset is prefetched for. -/
theorem offsetPrefetches_eq (x : Score) :
    offsetPrefetches k (pageOf address) (offsetOf address) x =
      (askedBy k address x).map (addressOf address) := by
  rw [offsetPrefetches, askedBy, List.map_map]
  induction lookaheads k with
  | nil => rfl
  | cons lookahead lookaheads ih =>
    by_cases hscore : lookahead * k.numAccessInPhase ≤ x.score
    · by_cases hpage : inPage (target address x.offset lookahead)
      · have haddr : generateAddress (pageOf address) (offsetOf address) x.offset lookahead =
          blockAddr (pageOf address) (target address x.offset lookahead) := if_pos hpage
        rw [List.filter_cons_of_pos (by simpa using hscore), List.map_cons,
          List.filter_cons_of_pos (by simpa [haddr] using blockAddr_ne_none _ hpage), ih,
          List.filter_cons_of_pos (by simpa using ⟨hscore, hpage⟩), List.map_cons, haddr]
        rfl
      · have haddr : generateAddress (pageOf address) (offsetOf address) x.offset lookahead =
          0xdeadbeef := if_neg hpage
        rw [List.filter_cons_of_pos (by simpa using hscore), List.map_cons,
          List.filter_cons_of_neg (by simp [haddr]), ih,
          List.filter_cons_of_neg (by simpa using fun _ => hpage)]
    · rw [List.filter_cons_of_neg (by simpa using hscore), ih,
        List.filter_cons_of_neg (by simpa using fun h => absurd h hscore)]

/-- All that the offsets ask for. -/
theorem flatMap_offsetPrefetches (scores : List Score) :
    scores.flatMap (offsetPrefetches k (pageOf address) (offsetOf address)) =
      (asked k address scores).map (addressOf address) := by
  induction scores with
  | nil => rfl
  | cons x scores ih =>
    rw [List.flatMap_cons, ih, offsetPrefetches_eq, asked_cons, List.map_append]

/-! ## The count -/

/-- What `generate_prefetch` gives is where all of it begins. -/
theorem generatePrefetch_begins (page : UInt64) (offset count : UInt32) (scores : List Score) :
    generatePrefetch k page offset count scores <+: scores.flatMap (offsetPrefetches k page offset)
    := by
  induction scores generalizing count with
  | nil => exact List.prefix_rfl
  | cons x scores ih =>
    rw [generatePrefetch, List.flatMap_cons]
    refine (List.prefix_append_right_inj _).2 ?_
    split
    · exact List.nil_prefix
    · exact ih _

/-- While the degree is not exceeded, nothing is left out. -/
theorem generatePrefetch_eq (page : UInt64) (offset count : UInt32) (scores : List Score)
    (h : count.toNat + (generatePrefetch k page offset count scores).length ≤ k.prefDegree.toNat) :
    generatePrefetch k page offset count scores =
      scores.flatMap (offsetPrefetches k page offset) := by
  induction scores generalizing count with
  | nil => rfl
  | cons x scores ih =>
    rw [generatePrefetch] at h ⊢
    rw [List.length_append] at h
    have hlt := k.prefDegree.toNat_lt
    -- the count has not come around
    have hcount : (count + .ofNat (offsetPrefetches k page offset x).length).toNat =
        count.toNat + (offsetPrefetches k page offset x).length := by
      rw [UInt32.toNat_add, UInt32.toNat_ofNat']
      omega
    have hgo : ¬ k.prefDegree < count + .ofNat (offsetPrefetches k page offset x).length := by
      rw [UInt32.lt_iff_toNat_lt, hcount]
      omega
    rw [if_neg hgo] at h ⊢
    rw [List.flatMap_cons, ih _ (by omega)]

/-- The degree is kept when there is no more to prefetch. -/
theorem length_generatePrefetch_le_iff (k : Knobs) (address : UInt64) (scores : List Score) :
    (generatePrefetch k (pageOf address) (offsetOf address) 0 scores).length ≤ k.prefDegree.toNat ↔
      (asked k address scores).length ≤ k.prefDegree.toNat := by
  have hzero : (0 : UInt32).toNat = 0 := rfl
  have hall : (asked k address scores).length =
      (scores.flatMap (offsetPrefetches k (pageOf address) (offsetOf address))).length := by
    rw [flatMap_offsetPrefetches, List.length_map]
  constructor
  · intro h
    rw [hall, ← generatePrefetch_eq _ _ 0 scores (by omega)]
    exact h
  · intro h
    rw [hall] at h
    exact Nat.le_trans (generatePrefetch_begins _ _ 0 scores).length_le h

/-! ## Both signs -/

theorem asked_filter (p : Score → Bool) (scores : List Score) :
    asked k address (scores.filter p) = (asked k address scores).filter fun x => p x.1 := by
  induction scores with
  | nil => rfl
  | cons x scores ih =>
    have hone : ∀ y ∈ askedBy k address x, y.1 = x := by
      intro y hy
      obtain ⟨lookahead, -, rfl⟩ := List.mem_map.1 hy
      rfl
    rw [asked_cons, List.filter_append, ← ih]
    by_cases hp : p x
    · have hall : (askedBy k address x).filter (fun y => p y.1) = askedBy k address x :=
        List.filter_eq_self.2 fun y hy => by rwa [hone y hy]
      rw [List.filter_cons_of_pos hp, asked_cons, hall]
    · have hnone : (askedBy k address x).filter (fun y => p y.1) = [] :=
        List.filter_eq_nil_iff.2 fun y hy => by rwa [hone y hy]
      rw [List.filter_cons_of_neg hp, hnone, List.nil_append]

theorem asked_perm {scores' : List Score} (h : scores.Perm scores') :
    (asked k address scores).Perm (asked k address scores') := h.flatMap_right _

/-- What the offsets of one sign ask for. -/
theorem length_asked_sorted (sort : Sorting) (p : Score → Bool) (scores : List Score) :
    (asked k address (sort.byOffset (scores.filter p))).length =
      (asked k address scores).countP fun x => p x.1 := by
  rw [(asked_perm (sort.byOffset_perm _)).length_eq, asked_filter, List.countP_eq_length_filter]

/-- Both signs together ask for all. -/
theorem asked_signs (sort : Sorting) (scores : List Score) :
    (asked k address (sort.byOffset (scores.filter fun x => 0 < x.offset)) ++
      asked k address (sort.byOffset (scores.filter fun x => ¬ 0 < x.offset))).Perm
        (asked k address scores) := by
  refine ((asked_perm (sort.byOffset_perm _)).append (asked_perm (sort.byOffset_perm _))).trans ?_
  rw [asked_filter, asked_filter]
  have hsigns := List.filter_append_perm (fun x : Score × UInt32 => decide (0 < x.1.offset))
    (asked k address scores)
  simpa only [decide_not] using hsigns

/-- What is asked for stays in the page. -/
theorem inPage_of_mem_asked {x : Score × UInt32} (hx : x ∈ asked k address scores) :
    inPage (target address x.1.offset x.2) := by
  obtain ⟨y, -, hy⟩ := List.mem_flatMap.1 hx
  obtain ⟨lookahead, hla, rfl⟩ := List.mem_map.1 hy
  exact (of_decide_eq_true (List.mem_filter.1 hla).2).2

/-- Different products lead to different blocks. -/
theorem nodup_addressOf (scores : List Score) :
    ((asked k address scores).map (addressOf address)).Nodup ↔
      ((asked k address scores).map fun x => x.1.offset.toUInt32 * x.2).Nodup := by
  rw [List.Nodup, List.Nodup, List.pairwise_map, List.pairwise_map]
  refine List.Pairwise.iff_of_mem fun {x y} hx hy => not_congr ?_
  constructor
  · intro heq
    have hblock := blockAddr_inj (inPage_of_mem_asked hx) (inPage_of_mem_asked hy) heq
    have hword : offsetOf address + x.1.offset.toUInt32 * x.2 =
      offsetOf address + y.1.offset.toUInt32 * y.2 := congrArg Int32.toUInt32 hblock
    exact (UInt32.add_right_inj _).1 hword
  · intro heq
    rw [addressOf, addressOf, target, target, heq]

/-- All prefetches are inside the page. -/
theorem pageOf_generatePrefetch {count : UInt32} {x : UInt64}
    (hx : x ∈ generatePrefetch k (pageOf address) (offsetOf address) count scores) :
    pageOf x = pageOf address := by
  have hmem := (generatePrefetch_begins _ _ count scores).subset hx
  rw [flatMap_offsetPrefetches] at hmem
  obtain ⟨y, hy, rfl⟩ := List.mem_map.1 hmem
  exact pageOf_blockAddr address (inPage_of_mem_asked hy)

/-- What step 4 gives. -/
theorem step4_eq (h : s.step4 k sort address = .ok prefetches) :
    prefetches.pos = generatePrefetch k (pageOf address) (offsetOf address) 0
        (sort.byOffset (s.evaluatedOffsets.filter fun x => 0 < x.offset)) ∧
      prefetches.neg = generatePrefetch k (pageOf address) (offsetOf address) 0
        (sort.byOffset (s.evaluatedOffsets.filter fun x => ¬ 0 < x.offset)) := by
  unfold step4 at h
  split at h
  · cases h
  · split at h
    · cases h
    · cases h
      exact ⟨rfl, rfl⟩

/-- Step 4 keeps to the degree exactly when the offsets ask for no more than that and for different
blocks. -/
theorem respectsDegree_of_step4 (h : s.step4 k sort address = .ok prefetches) :
    RespectsDegree k address prefetches ↔ FitsDegree k address s.evaluatedOffsets := by
  have hzero : (0 : UInt32).toNat = 0 := rfl
  obtain ⟨hpos, hneg⟩ := step4_eq h
  have hpos_le := length_generatePrefetch_le_iff k address
    (sort.byOffset (s.evaluatedOffsets.filter fun x => 0 < x.offset))
  have hneg_le := length_generatePrefetch_le_iff k address
    (sort.byOffset (s.evaluatedOffsets.filter fun x => ¬ 0 < x.offset))
  rw [← hpos, length_asked_sorted] at hpos_le
  rw [← hneg, length_asked_sorted] at hneg_le
  -- within the degree, all that is asked for is issued
  have hall (hp : prefetches.pos.length ≤ k.prefDegree.toNat)
      (hn : prefetches.neg.length ≤ k.prefDegree.toNat) :
      (prefetches.pos ++ prefetches.neg).Perm
        ((asked k address s.evaluatedOffsets).map (addressOf address)) := by
    rw [hpos] at hp
    rw [hneg] at hn
    rw [hpos, hneg, generatePrefetch_eq _ _ 0 _ (by omega), generatePrefetch_eq _ _ 0 _ (by omega),
      flatMap_offsetPrefetches, flatMap_offsetPrefetches, ← List.map_append]
    exact (asked_signs sort s.evaluatedOffsets).map _
  constructor
  · intro hr
    refine ⟨hpos_le.1 hr.pos, hneg_le.1 hr.neg, ?_⟩
    rw [← nodup_addressOf, ← (hall hr.pos hr.neg).nodup_iff]
    exact hr.distinct
  · intro hf
    have hp := hpos_le.2 hf.pos
    have hn := hneg_le.2 hf.neg
    refine ⟨hp, hn, fun x hx => ?_, ?_⟩
    · rw [hpos, hneg] at hx
      rcases List.mem_append.1 hx with hx | hx <;> exact pageOf_generatePrefetch hx
    · rw [(hall hp hn).nodup_iff, nodup_addressOf]
      exact hf.distinct

/-- An access is steps 1 to 3, and then step 4. -/
theorem untilStep4_of_invoke (h : s.invokePrefetcher k b sort address = .ok (s', prefetches)) :
    s.untilStep4 k address b sort = .ok s' ∧ s'.step4 k sort address = .ok prefetches := by
  unfold invokePrefetcher at h
  split at h <;> [cases h; skip]
  cases h1 : s.step1 k b address with
  | error stop =>
    rw [h1] at h
    cases h
  | ok s1 =>
    rw [h1] at h
    cases h3 : (s1.step2 b address).step3 k b sort with
    | error stop =>
      simp only [bind, Except.bind, h3] at h
      cases h
    | ok s3 =>
      cases h4 : s3.step4 k sort address with
      | error stop =>
        simp only [bind, Except.bind, h3, h4] at h
        cases h
      | ok p =>
        simp only [bind, Except.bind, h3, h4] at h
        cases h
        refine ⟨?_, h4⟩
        simp only [untilStep4, bind, Except.bind, h1, h3]

/-- An access keeps to the degree exactly when the offsets, with the scores that steps 1 to 3 leave, ask
for no more than that and for different blocks. -/
theorem respectsDegree_iff (k : Knobs) (b : BloomFilter F) (sort : Sorting) (s : Sandbox F)
    (address : UInt64) {s' : Sandbox F} {prefetches : Prefetches}
    (h : s.invokePrefetcher k b sort address = .ok (s', prefetches)) :
    ∃ t, s.untilStep4 k address b sort = .ok t ∧
      (RespectsDegree k address prefetches ↔ FitsDegree k address t.evaluatedOffsets) := by
  obtain ⟨hrun, hstep⟩ := untilStep4_of_invoke h
  exact ⟨s', hrun, respectsDegree_of_step4 hstep⟩

/-- A degree of two, and lookaheads up to five. -/
def degreeTwo : Knobs where
  prefDegree := 2
  enableStreamDetect := true
  streamDetectLength := 4
  numAccessInPhase := 8
  numAccessInPhase_pos := UInt32.lt_iff_toNat_lt.2 (Nat.zero_lt_succ 7)
  numCycleOffsets := 4

/-- A degree of four. -/
def degreeFour : Knobs := { degreeTwo with prefDegree := 4 }

/-- The access that ends a phase which walks up a page, with three prefetches within the degree. -/
theorem respectsDegree_iff_upwards : ∃ turns s s' prefetches,
    run degreeFour exactFilter insertionSorting (upwards 7) = .ok (turns, s) ∧
    s.invokePrefetcher degreeFour exactFilter insertionSorting 0x11c0 = .ok (s', prefetches) ∧
    prefetches.pos = [0x1200, 0x1240, 0x1280] ∧ RespectsDegree degreeFour 0x11c0 prefetches := by
  have hcheck : (run degreeFour exactFilter insertionSorting (upwards 7)).toOption.any (fun r =>
      (r.2.invokePrefetcher degreeFour exactFilter insertionSorting 0x11c0).toOption.any (fun n =>
        n.2.pos = [0x1200, 0x1240, 0x1280]) ∧
      (r.2.untilStep4 degreeFour 0x11c0 exactFilter insertionSorting).toOption.any (fun t =>
        FitsDegree degreeFour 0x11c0 t.evaluatedOffsets)) = true := by decide +kernel
  obtain ⟨⟨turns, s⟩, hrun, hrest⟩ := exists_ok_of_any hcheck
  obtain ⟨hinvoke, huntil⟩ := of_decide_eq_true hrest
  obtain ⟨⟨s', prefetches⟩, hs, hpos⟩ := exists_ok_of_any hinvoke
  obtain ⟨t, ht, hfits⟩ := exists_ok_of_any huntil
  obtain ⟨t', ht', hiff⟩ := respectsDegree_iff degreeFour exactFilter insertionSorting s 0x11c0 hs
  rw [ht] at ht'
  cases ht'
  exact ⟨turns, s, s', prefetches, hrun, hs, of_decide_eq_true hpos,
    hiff.2 (of_decide_eq_true hfits)⟩

/-- At the end of a phase that walks up a page, the offset 1 has three prefetches. -/
theorem degree_exceeded : ¬ ∀ (k : Knobs) (b : BloomFilter (List UInt64)) (sort : Sorting)
    (s : Sandbox (List UInt64)) address s' prefetches,
    s.invokePrefetcher k b sort address = .ok (s', prefetches) →
      RespectsDegree k address prefetches := by
  intro h
  have hcheck : (match run degreeTwo exactFilter insertionSorting (upwards 7) with
      | .ok r =>
        match r.2.invokePrefetcher degreeTwo exactFilter insertionSorting 0x11c0 with
        | .ok next => 2 < next.2.pos.length
        | .error _ => false
      | .error _ => false) = true := by decide +kernel
  split at hcheck
  · split at hcheck
    · rename_i next hnext
      have hrespects := h degreeTwo exactFilter insertionSorting _ 0x11c0 next.1 next.2 hnext
      exact absurd hrespects.pos (Nat.not_le.2 (of_decide_eq_true hcheck))
    · cases hcheck
  · cases hcheck

end

end Sandbox

end Arishem
