import Arishem.Lib.Outcome
import Arishem.Prefetchers.Page
import Mathlib.Algebra.GroupWithZero.Nat
import Mathlib.Data.List.Sort

/-!
# Sandbox

The sandbox prefetcher evaluates sixteen offsets in turn, each for a phase of accesses: every access
that hits the filter of pseudo prefetches raises the score of the offset. When all of them had their
phase, the round ends, and the offsets with the lowest scores make way for others. The filter is any
filter, and a sort may order equal keys as it likes. The statistics are left out.
-/

namespace Arishem

namespace Sandbox

/-- The knobs. The constructor divides by `num_access_in_phase`. -/
structure Knobs where
  prefDegree : UInt32
  enableStreamDetect : Bool
  streamDetectLength : UInt32
  numAccessInPhase : UInt32
  numAccessInPhase_pos : 0 < numAccessInPhase
  numCycleOffsets : ℕ

/-- `Score`. -/
structure Score where
  offset : Int32
  score : UInt32
deriving DecidableEq

/-- The Bloom filter. -/
structure BloomFilter (F : Type) where
  clear : F
  add : F → UInt64 → F
  lookup : F → UInt64 → Bool

/-- `std::sort` by the score and by the absolute offset. -/
structure Sorting where
  byScore : List Score → List Score
  byScore_perm : ∀ l, (byScore l).Perm l
  byScore_sorted : ∀ l, (byScore l).Pairwise fun x y => y.score ≤ x.score
  byOffset : List Score → List Score
  byOffset_perm : ∀ l, (byOffset l).Perm l
  byOffset_sorted : ∀ l, (byOffset l).Pairwise fun x y =>
    x.offset.toInt.natAbs ≤ y.offset.toInt.natAbs

/-- Why a call does not return. -/
inductive Stop
  | assertion
  | undefined
  | endless
deriving DecidableEq

/-- What `generate_prefetch` is called twice for. -/
structure Prefetches where
  pos : List UInt64
  neg : List UInt64
deriving DecidableEq

end Sandbox

/-- The prefetcher. -/
structure Sandbox (F : Type) where
  evaluatedOffsets : List Sandbox.Score
  nonEvaluatedOffsets : List Int32
  currPtr : ℕ
  totalDemand : ℕ
  bf : F

namespace Sandbox

section
variable {F : Type} (k : Knobs) (b : BloomFilter F) (sort : Sorting)

/-- The offsets from one to another. -/
def offsetsFrom (low : ℤ) (n : ℕ) : List Int32 :=
  (List.range n).map fun i : ℕ => .ofInt (low + i)

/-- The constructor. -/
def init : Sandbox F where
  evaluatedOffsets := (offsetsFrom 1 8 ++ offsetsFrom (-8) 8).map fun offset => ⟨offset, 0⟩
  nonEvaluatedOffsets := offsetsFrom 9 8 ++ offsetsFrom (-16) 8
  currPtr := 0
  totalDemand := 0
  bf := b.clear

/-! ## Evaluation -/

/-- The offset that an access evaluates. -/
def evaluates (s : Sandbox F) : Int32 := (s.evaluatedOffsets.getD s.currPtr ⟨0, 0⟩).offset

/-- The strides back that step 1 looks at. -/
def streamIndices : List UInt32 :=
  if k.enableStreamDetect then (List.range' 1 k.streamDetectLength.toNat).map .ofNat else []

/-- How often step 1 raises the score. -/
def filterHits (s : Sandbox F) (address : UInt64) : ℕ :=
  if b.lookup s.bf address then
    1 + (streamIndices k).countP fun index =>
      let streamOffset := (offsetOf address - s.evaluates.toUInt32 * index).toInt32
      inPage streamOffset ∧ b.lookup s.bf (blockAddr (pageOf address) streamOffset)
  else 0

/-- What step 1 counts. -/
def counted (s : Sandbox F) (address : UInt64) : Sandbox F :=
  { s with
    totalDemand := s.totalDemand + 1
    evaluatedOffsets := s.evaluatedOffsets.modify s.currPtr fun x =>
      { x with score := x.score + .ofNat (s.filterHits k b address) } }

/-- Step 1. No index is above the largest one. -/
def step1 (s : Sandbox F) (address : UInt64) : Except Stop (Sandbox F) :=
  if b.lookup s.bf address ∧ k.enableStreamDetect ∧ k.streamDetectLength = .ofNat (2 ^ 32 - 1) then
    .error .endless
  else .ok (s.counted k b address)

/-- Step 2. -/
def step2 (s : Sandbox F) (address : UInt64) : Sandbox F :=
  let prefOffset := offsetOf address + s.evaluates.toUInt32
  if prefOffset < 64 then
    { s with bf := b.add s.bf ((pageOf address <<< 12) + (prefOffset <<< 6).toUInt64) }
  else s

/-! ## Rounds -/

/-- `reset_eval` and what follows it. -/
def resetEval (s : Sandbox F) (currPtr : ℕ) : Sandbox F :=
  { s with currPtr := currPtr, totalDemand := 0, bf := b.clear }

/-- The offsets that are cycled out, the lowest score first. -/
def cycledOut (s : Sandbox F) : List Int32 :=
  (((sort.byScore s.evaluatedOffsets).reverse.take k.numCycleOffsets).map (·.offset))

/-- The offsets that are cycled in. -/
def cycledIn (s : Sandbox F) : List Int32 :=
  (s.nonEvaluatedOffsets ++ s.cycledOut k sort).take k.numCycleOffsets

/-- `end_of_round`. An empty queue has no front. -/
def endOfRound (s : Sandbox F) : Except Stop (Sandbox F) :=
  if (s.nonEvaluatedOffsets ++ s.cycledOut k sort).length < k.numCycleOffsets then .error .undefined
  else .ok { s with
    evaluatedOffsets :=
      (sort.byScore s.evaluatedOffsets).take (s.evaluatedOffsets.length - k.numCycleOffsets) ++
        (s.cycledIn k sort).map fun offset => ⟨offset, 0⟩
    nonEvaluatedOffsets :=
      (s.nonEvaluatedOffsets ++ s.cycledOut k sort).drop k.numCycleOffsets }

/-- Step 3. -/
def step3 (s : Sandbox F) : Except Stop (Sandbox F) :=
  if s.totalDemand = k.numAccessInPhase.toNat then
    if s.currPtr + 1 < s.evaluatedOffsets.length then .ok (s.resetEval b (s.currPtr + 1))
    else (s.endOfRound k sort).map fun s => s.resetEval b 0
  else .ok s

/-! ## Prefetches -/

/-- `generate_address`. -/
def generateAddress (page : UInt64) (offset : UInt32) (delta : Int32) (lookahead : UInt32) :
    UInt64 :=
  let prefOffset := (offset + delta.toUInt32 * lookahead).toInt32
  if inPage prefOffset then blockAddr page prefOffset else 0xdeadbeef

/-- The lookaheads of the inner loop of `generate_prefetch`. -/
def lookaheads : List UInt32 :=
  if k.enableStreamDetect then (List.range' 1 (k.streamDetectLength + 1).toNat).map .ofNat
  else if k.streamDetectLength + 1 = 0 then [] else [1]

/-- The inner loop of `generate_prefetch`. -/
def offsetPrefetches (page : UInt64) (offset : UInt32) (x : Score) : List UInt64 :=
  ((lookaheads k).filter fun lookahead => lookahead * k.numAccessInPhase ≤ x.score).map
    (generateAddress page offset x.offset) |>.filter (· ≠ 0xdeadbeef)

/-- `generate_prefetch`: the degree is checked after each offset. -/
def generatePrefetch (page : UInt64) (offset : UInt32) : UInt32 → List Score → List UInt64
  | _, [] => []
  | count, x :: offsetList =>
    let prefs := offsetPrefetches k page offset x
    let count := count + .ofNat prefs.length
    prefs ++ if k.prefDegree < count then [] else generatePrefetch page offset count offsetList

/-- Step 4. The lookaheads do not end when they come to the largest number. -/
def step4 (s : Sandbox F) (address : UInt64) : Except Stop Prefetches :=
  if ∃ x ∈ s.evaluatedOffsets, x.offset = 0 then .error .assertion
  else if k.enableStreamDetect ∧ k.streamDetectLength + 1 = .ofNat (2 ^ 32 - 1) then .error .endless
  else .ok
    { pos := generatePrefetch k (pageOf address) (offsetOf address) 0
        (sort.byOffset (s.evaluatedOffsets.filter fun x => 0 < x.offset))
      neg := generatePrefetch k (pageOf address) (offsetOf address) 0
        (sort.byOffset (s.evaluatedOffsets.filter fun x => ¬ 0 < x.offset)) }

/-- `invoke_prefetcher`. -/
def invokePrefetcher (s : Sandbox F) (address : UInt64) :
    Except Stop (Sandbox F × Prefetches) :=
  if s.evaluatedOffsets.length ≠ 16 ∨ s.evaluatedOffsets.length ≤ s.currPtr then .error .assertion
  else do
    let s ← s.step1 k b address
    let s ← (s.step2 b address).step3 k b sort
    let prefetches ← s.step4 k sort address
    return (s, prefetches)

end

end Sandbox

end Arishem
