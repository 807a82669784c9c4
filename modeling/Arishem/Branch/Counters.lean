import Arishem.Core.Branches
import Mathlib.Algebra.Order.Ring.Int

/-!
# The predictors with saturating counters

The bimodal predictor has a counter for each entry of a table; gshare chooses the entry with the
outcomes of the last branches. In a run of branches a counter has counted the outcomes of exactly the
branches that used its entry.
-/

namespace Arishem

namespace BranchPredictor

/-- A run of branches: each is predicted, and then its outcome is seen. -/
def run {π : Type} (bp : BranchPredictor π) (s : π) : List (Addr × Bool) → List UInt8 × π
  | [] => ([], s)
  | (ip, taken) :: rest =>
    let (prediction, s) := bp.predictBranch s ip
    let (predictions, s) := run bp (bp.lastBranchResult s ip taken.toUInt8) rest
    (prediction :: predictions, s)

end BranchPredictor

namespace Bimodal

/-- `BIMODAL_TABLE_SIZE`. -/
abbrev bimodalTableSize : ℕ := 16384

/-- `BIMODAL_PRIME`. -/
abbrev bimodalPrime : ℕ := 16381

/-- `MAX_COUNTER`. -/
def maxCounter : ℤ := 3

/-- The table of a core. -/
abbrev Table := Fin bimodalTableSize → ℤ

/-- `initialize_branch_predictor`. -/
def init : Table := fun _ => 0

/-- The entry of a branch. -/
def hash (ip : Addr) : Fin bimodalTableSize :=
  ⟨ip.toNat % bimodalPrime, (Nat.mod_lt _ (by decide)).trans (by decide)⟩

/-- `predict_branch`. -/
def predictBranch (table : Table) (ip : Addr) : UInt8 × Table :=
  ((decide ((maxCounter + 1) / 2 ≤ table (hash ip))).toUInt8, table)

/-- `last_branch_result`. -/
def lastBranchResult (table : Table) (ip : Addr) (taken : UInt8) : Table :=
  if taken ≠ 0 ∧ table (hash ip) < maxCounter then
    Function.update table (hash ip) (table (hash ip) + 1)
  else if taken = 0 ∧ 0 < table (hash ip) then
    Function.update table (hash ip) (table (hash ip) - 1)
  else table

/-- The predictor as the core uses it. -/
def predictor : BranchPredictor Table where
  predictBranch := predictBranch
  lastBranchResult := lastBranchResult

end Bimodal

namespace Gshare

/-- `GLOBAL_HISTORY_LENGTH`. -/
abbrev globalHistoryLength : ℕ := 14

/-- `GLOBAL_HISTORY_MASK`. -/
def globalHistoryMask : BitVec 32 := (1 <<< globalHistoryLength) - 1

/-- `GS_HISTORY_TABLE_SIZE`. -/
abbrev gsHistoryTableSize : ℕ := 16384

/-- The state of the predictor. -/
structure Predictor where
  branchHistoryVector : BitVec 32
  gsHistoryTable : Fin gsHistoryTableSize → ℤ
  myLastPrediction : Bool

/-- `initialize_branch_predictor`. -/
def init : Predictor where
  branchHistoryVector := 0
  gsHistoryTable := fun _ => 2
  myLastPrediction := false

/-- `gs_table_hash`. -/
def gsTableHash (ip : Addr) (bhVector : BitVec 32) : Fin gsHistoryTableSize :=
  let hash := ip.toBitVec ^^^ (ip.toBitVec >>> globalHistoryLength) ^^^
    (ip.toBitVec >>> (globalHistoryLength * 2)) ^^^ bhVector.signExtend 64
  ⟨(hash.setWidth 32).toNat % gsHistoryTableSize, Nat.mod_lt _ (by decide)⟩

/-- `predict_branch`. -/
def predictBranch (s : Predictor) (ip : Addr) : UInt8 × Predictor :=
  let prediction := decide (2 ≤ s.gsHistoryTable (gsTableHash ip s.branchHistoryVector))
  (prediction.toUInt8, { s with myLastPrediction := prediction })

/-- `last_branch_result`. -/
def lastBranchResult (s : Predictor) (ip : Addr) (taken : UInt8) : Predictor :=
  let gsHash := gsTableHash ip s.branchHistoryVector
  let counter := s.gsHistoryTable gsHash
  let counter :=
    if taken = 1 then if counter < 3 then counter + 1 else counter
    else if 0 < counter then counter - 1 else counter
  { s with
    gsHistoryTable := Function.update s.gsHistoryTable gsHash counter
    branchHistoryVector :=
      s.branchHistoryVector <<< 1 &&& globalHistoryMask ||| taken.toBitVec.setWidth 32 }

/-- The predictor as the core uses it. -/
def predictor : BranchPredictor Predictor where
  predictBranch := predictBranch
  lastBranchResult := lastBranchResult

end Gshare

namespace Counters

/-! ## What the counters count -/

/-- A counter of two bits that has counted some outcomes, the last one first. -/
def count (start : ℤ) : List Bool → ℤ
  | [] => start
  | true :: outcomes => min 3 (count start outcomes + 1)
  | false :: outcomes => max 0 (count start outcomes - 1)

section
variable {ε : Type} [DecidableEq ε] (entry : Addr → List Bool → ε)

/-- The outcomes of the past branches that used an entry, the last one first. A branch chooses its
entry by its address and the outcomes of the branches before it. -/
def seen (e : ε) : List (Addr × Bool) → List Bool
  | [] => []
  | (ip, taken) :: past =>
    if entry ip (past.map Prod.snd) = e then taken :: seen e past else seen e past

/-- The prediction for a branch: the counter of its entry is in the upper half. -/
def prediction (start : ℤ) (past : List (Addr × Bool)) (ip : Addr) : Bool :=
  decide (2 ≤ count start (seen entry (entry ip (past.map Prod.snd)) past))

/-- The predictions in a run of branches. -/
def predictions (start : ℤ) (past : List (Addr × Bool)) : List (Addr × Bool) → List Bool
  | [] => []
  | branch :: rest =>
    prediction entry start past branch.1 :: predictions start (branch :: past) rest

/-- The counters of a table have counted what was seen. -/
def Counted (start : ℤ) (past : List (Addr × Bool)) (table : ε → ℤ) : Prop :=
  ∀ e, table e = count start (seen entry e past)

end

section
variable {ε : Type} [DecidableEq ε] {entry : Addr → List Bool → ε} {start : ℤ}
  {past : List (Addr × Bool)} {table : ε → ℤ}

theorem count_bounds (hstart : 0 ≤ start ∧ start ≤ 3) (outcomes : List Bool) :
    0 ≤ count start outcomes ∧ count start outcomes ≤ 3 := by
  induction outcomes with
  | nil => exact hstart
  | cons taken outcomes ih =>
    cases taken <;> rw [count] <;> omega

/-- A counter that has seen the same outcome twice predicts it. -/
theorem count_twice (hstart : 0 ≤ start ∧ start ≤ 3) (taken : Bool) (outcomes : List Bool) :
    decide (2 ≤ count start (taken :: taken :: outcomes)) = taken := by
  have hbounds := count_bounds hstart outcomes
  cases taken with
  | true =>
    rw [count, count]
    exact decide_eq_true (by omega)
  | false =>
    rw [count, count]
    exact decide_eq_false (by omega)

/-- A branch is counted at its entry, and at no other. -/
theorem Counted.step (h : Counted entry start past table) (ip : Addr) (taken : Bool) {e : ε}
    (he : entry ip (past.map Prod.snd) = e) {c : ℤ}
    (hc : c = if taken then min 3 (table e + 1) else max 0 (table e - 1)) :
    Counted entry start ((ip, taken) :: past) (Function.update table e c) := by
  intro e'
  rw [seen]
  rcases eq_or_ne e' e with rfl | hne
  · rw [Function.update_self, if_pos he, hc, h e']
    cases taken <;> rfl
  · rw [Function.update_of_ne hne, if_neg fun heq => hne (heq.symm.trans he), h e']

/-- A predictor whose state follows the counters. -/
theorem run_eq {π : Type} {bp : BranchPredictor π} {R : List (Addr × Bool) → π → Prop}
    (hpredict : ∀ past s ip, R past s →
      (bp.predictBranch s ip).1 = (prediction entry start past ip).toUInt8)
    (hstep : ∀ past s ip taken, R past s →
      R ((ip, taken) :: past) (bp.lastBranchResult (bp.predictBranch s ip).2 ip taken.toUInt8))
    {s : π} (h : R past s) (branches : List (Addr × Bool)) :
    (bp.run s branches).1 = (predictions entry start past branches).map Bool.toUInt8 ∧
      R (branches.reverse ++ past) (bp.run s branches).2 := by
  induction branches generalizing past s with
  | nil => exact ⟨rfl, h⟩
  | cons branch branches ih =>
    obtain ⟨ip, taken⟩ := branch
    obtain ⟨hpredictions, hR⟩ := ih (hstep past s ip taken h)
    rw [BranchPredictor.run, predictions, List.reverse_cons, List.append_assoc]
    exact ⟨congrArg₂ List.cons (hpredict past s ip h) hpredictions, hR⟩

/-- The predictions in any run of branches are those of the counters. After it a branch is predicted as
the last two branches with its entry went, where these two agree. -/
def PredictsByCounting {π : Type} (bp : BranchPredictor π) (s : π) (entry : Addr → List Bool → ε)
    (start : ℤ) : Prop :=
  ∀ branches, (bp.run s branches).1 = (predictions entry start [] branches).map Bool.toUInt8 ∧
    ∀ ip taken outcomes,
      seen entry (entry ip (branches.reverse.map Prod.snd)) branches.reverse =
        taken :: taken :: outcomes →
      (bp.predictBranch (bp.run s branches).2 ip).1 = taken.toUInt8

/-- A predictor whose state follows the counters predicts by counting. -/
theorem predictsByCounting_of {π : Type} {bp : BranchPredictor π} {R : List (Addr × Bool) → π → Prop}
    (hstart : 0 ≤ start ∧ start ≤ 3)
    (hpredict : ∀ past s ip, R past s →
      (bp.predictBranch s ip).1 = (prediction entry start past ip).toUInt8)
    (hstep : ∀ past s ip taken, R past s →
      R ((ip, taken) :: past) (bp.lastBranchResult (bp.predictBranch s ip).2 ip taken.toUInt8))
    {s : π} (h : R [] s) : PredictsByCounting bp s entry start := by
  intro branches
  obtain ⟨hpredictions, hR⟩ := run_eq hpredict hstep h branches
  rw [List.append_nil] at hR
  refine ⟨hpredictions, fun ip taken outcomes hseen => ?_⟩
  rw [hpredict _ _ ip hR, prediction, hseen, count_twice hstart]

end

end Counters

namespace Bimodal

open Counters

/-- A branch uses the entry of its address, whatever came before. -/
def entry (ip : Addr) (_ : List Bool) : Fin bimodalTableSize := hash ip

section
variable {table : Table} {past : List (Addr × Bool)}

theorem lastBranchResult_eq (table : Table) {ip : Addr} {taken : Bool}
    (hbounds : 0 ≤ table (hash ip) ∧ table (hash ip) ≤ 3) :
    lastBranchResult table ip taken.toUInt8 = Function.update table (hash ip)
      (if taken then min 3 (table (hash ip) + 1) else max 0 (table (hash ip) - 1)) := by
  have hzero : taken.toUInt8 = 0 ↔ taken = false := by
    cases taken <;> decide
  rw [lastBranchResult, maxCounter]
  simp only [hzero, ne_eq]
  cases taken with
  | true =>
    by_cases hfull : table (hash ip) < 3
    · rw [if_pos ⟨by decide, hfull⟩, if_pos rfl, min_eq_right (by omega)]
    · have hthree : table (hash ip) = 3 := by omega
      rw [if_neg fun hand => hfull hand.2, if_neg (by simp), if_pos rfl, min_eq_left (by omega),
        ← hthree, Function.update_eq_self]
  | false =>
    rw [if_neg (by simp)]
    by_cases hpos : 0 < table (hash ip)
    · rw [if_pos ⟨rfl, hpos⟩, if_neg (by simp), max_eq_right (by omega)]
    · have hnull : table (hash ip) = 0 := by omega
      rw [if_neg fun hand => hpos hand.2, if_neg (by simp), max_eq_left (by omega), ← hnull,
        Function.update_eq_self]

theorem predict_eq (h : Counted entry 0 past table) (ip : Addr) :
    (predictBranch table ip).1 = (prediction entry 0 past ip).toUInt8 := by
  rw [prediction, ← h]
  rfl

theorem step (h : Counted entry 0 past table) (ip : Addr) (taken : Bool) :
    Counted entry 0 ((ip, taken) :: past) (lastBranchResult table ip taken.toUInt8) := by
  have hbounds : 0 ≤ table (hash ip) ∧ table (hash ip) ≤ 3 := by
    rw [h (hash ip)]
    exact count_bounds (by decide) _
  rw [lastBranchResult_eq table hbounds]
  exact h.step ip taken rfl rfl

end

end Bimodal

namespace Gshare

open Counters

/-- The history that some outcomes leave: the last ones. -/
def vector (outcomes : List Bool) : BitVec 32 :=
  (BitVec.ofBoolListLE (outcomes.take globalHistoryLength)).setWidth 32

/-- A branch uses the entry of its address with the last outcomes. -/
def entry (ip : Addr) (outcomes : List Bool) : Fin gsHistoryTableSize :=
  gsTableHash ip (vector outcomes)

/-- The predictor after some branches. -/
structure Follows (past : List (Addr × Bool)) (s : Predictor) : Prop where
  history : s.branchHistoryVector = vector (past.map Prod.snd)
  counts : Counted entry 2 past s.gsHistoryTable

section
variable {s : Predictor} {past : List (Addr × Bool)}

theorem getLsbD_vector (outcomes : List Bool) (i : ℕ) :
    (vector outcomes).getLsbD i = (decide (i < globalHistoryLength) && outcomes.getD i false) := by
  rw [vector, BitVec.getLsbD_setWidth, BitVec.getLsbD_ofBoolListLE, List.getD_eq_getElem?_getD,
    List.getD_eq_getElem?_getD, List.getElem?_take]
  by_cases hi : i < globalHistoryLength
  · rw [if_pos hi, decide_eq_true hi, decide_eq_true (hi.trans (by decide))]
  · rw [if_neg hi, decide_eq_false hi]
    simp

theorem vector_cons (outcomes : List Bool) (taken : Bool) :
    vector outcomes <<< 1 &&& globalHistoryMask ||| taken.toUInt8.toBitVec.setWidth 32 =
      vector (taken :: outcomes) := by
  refine BitVec.eq_of_getLsbD_eq fun i hi => ?_
  have hmask : ∀ i < 32, globalHistoryMask.getLsbD i = decide (i < globalHistoryLength) := by decide
  have hbit : taken.toUInt8.toBitVec.setWidth 32 = (BitVec.ofBool taken).setWidth 32 := by
    cases taken <;> rfl
  rw [BitVec.getLsbD_or, BitVec.getLsbD_and, hmask i hi, BitVec.getLsbD_shiftLeft, getLsbD_vector,
    getLsbD_vector, hbit, BitVec.getLsbD_setWidth, decide_eq_true hi]
  cases i with
  | zero => cases taken <;> simp
  | succ i =>
    have hlt : i + 1 < globalHistoryLength → i < globalHistoryLength := Nat.lt_of_succ_lt
    by_cases hi' : i + 1 < globalHistoryLength
    · simp [hi', hlt hi']
    · simp [hi']

theorem lastBranchResult_eq (s : Predictor) {ip : Addr} {taken : Bool} {e : Fin gsHistoryTableSize}
    (he : gsTableHash ip s.branchHistoryVector = e)
    (hbounds : 0 ≤ s.gsHistoryTable e ∧ s.gsHistoryTable e ≤ 3) :
    (lastBranchResult s ip taken.toUInt8).gsHistoryTable = Function.update s.gsHistoryTable e
      (if taken then min 3 (s.gsHistoryTable e + 1) else max 0 (s.gsHistoryTable e - 1)) := by
  have hone : taken.toUInt8 = 1 ↔ taken = true := by
    cases taken <;> decide
  rw [lastBranchResult, he]
  simp only [hone]
  congr 1
  split <;> split <;> omega

theorem Follows.predict_eq (h : Follows past s) (ip : Addr) :
    (predictBranch s ip).1 = (prediction entry 2 past ip).toUInt8 := by
  rw [prediction, ← h.counts, entry, ← h.history]
  rfl

theorem Follows.predicted {ip : Addr} (h : Follows past s) : Follows past (predictBranch s ip).2 :=
  ⟨h.history, h.counts⟩

theorem Follows.step (h : Follows past s) (ip : Addr) (taken : Bool) :
    Follows ((ip, taken) :: past) (lastBranchResult s ip taken.toUInt8) := by
  have hentry : gsTableHash ip s.branchHistoryVector = entry ip (past.map Prod.snd) := by
    rw [h.history, entry]
  have hbounds : 0 ≤ s.gsHistoryTable (entry ip (past.map Prod.snd)) ∧
      s.gsHistoryTable (entry ip (past.map Prod.snd)) ≤ 3 := by
    rw [h.counts]
    exact count_bounds (by decide) _
  refine ⟨?_, ?_⟩
  · rw [lastBranchResult, h.history]
    exact vector_cons _ taken
  · rw [lastBranchResult_eq s hentry hbounds]
    exact h.counts.step ip taken rfl rfl

end

end Gshare

namespace Counters

/-- The bimodal predictor and gshare predict by counting, whatever the branches. -/
theorem predictors_count : PredictsByCounting Bimodal.predictor Bimodal.init Bimodal.entry 0 ∧
    PredictsByCounting Gshare.predictor Gshare.init Gshare.entry 2 := by
  constructor
  · exact predictsByCounting_of (R := Counted Bimodal.entry 0) (by decide)
      (fun _ _ ip h => Bimodal.predict_eq h ip) (fun _ _ ip taken h => Bimodal.step h ip taken)
      fun _ => rfl
  · exact predictsByCounting_of (R := Gshare.Follows) (by decide)
      (fun _ _ ip h => h.predict_eq ip) (fun _ _ ip taken h => h.predicted.step ip taken)
      ⟨rfl, fun _ => rfl⟩

end Counters

end Arishem
