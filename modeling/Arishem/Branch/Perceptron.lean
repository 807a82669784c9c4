import Arishem.Branch.Counters
import Arishem.Lib.ShiftRegister
import Mathlib.Algebra.BigOperators.Fin
import Mathlib.Algebra.Order.BigOperators.Group.Finset
import Mathlib.Algebra.Order.Ring.Abs
import Mathlib.Algebra.Order.Ring.Int

/-!
# The perceptron branch predictor

A table of perceptrons with weights of 8 bits. `predict_branch` shifts its prediction into a
speculative history, and `last_branch_result` repairs that history after a misprediction. A run of
branches makes the same predictions as perceptrons that see the outcomes of the last branches
themselves.
-/

namespace Arishem

namespace Perceptron

open ShiftRegister

/-- `PERCEPTRON_HISTORY`. -/
abbrev perceptronHistory : ℕ := 24

/-- `NUM_PERCEPTRONS`. -/
abbrev numPerceptrons : ℕ := 163

/-- `MAX_WEIGHT`. -/
def maxWeight : ℤ := 127

/-- `MIN_WEIGHT`. -/
def minWeight : ℤ := -128

/-- `THETA`. -/
def theta : ℤ := 60

/-- `NUM_UPDATE_ENTRIES`. -/
abbrev numUpdateEntries : ℕ := 100

/-- The weights of a perceptron, the bias first. -/
abbrev Weights := Fin (perceptronHistory + 1) → ℤ

/-- `perceptron_state`: what a prediction leaves for its update. -/
structure PerceptronState where
  prediction : Bool
  output : ℤ
  history : BitVec 64
  perc : Fin numPerceptrons

/-- The state of the predictor; `u` is the entry of the last prediction. -/
structure Predictor where
  perceptrons : Fin numPerceptrons → Weights
  perceptronStateBuf : Fin numUpdateEntries → PerceptronState
  perceptronStateBufCtr : Fin numUpdateEntries
  specGlobalHistory : BitVec 64
  globalHistory : BitVec 64
  u : Option (Fin numUpdateEntries)

/-- `initialize_branch_predictor`. -/
def init : Predictor where
  perceptrons := fun _ _ => 0
  perceptronStateBuf := fun _ => ⟨false, 0, 0, 0⟩
  perceptronStateBufCtr := 0
  specGlobalHistory := 0
  globalHistory := 0
  u := none

/-- The loop over the history of `predict_branch`. -/
def output (w : Weights) (history : BitVec 64) : ℤ :=
  (List.finRange perceptronHistory).foldl (fun out (i : Fin perceptronHistory) =>
    if history.getLsbD i then out + w i.succ else out + -w i.succ) (w 0)

/-- `predict_branch`. -/
def predictBranch (s : Predictor) (ip : Addr) : UInt8 × Predictor :=
  let u := s.perceptronStateBufCtr
  let ctr := if h : (u : ℕ) + 1 < numUpdateEntries then ⟨u + 1, h⟩ else 0
  let index : Fin numPerceptrons := ⟨ip.toNat % numPerceptrons, Nat.mod_lt _ (by decide)⟩
  let output := output (s.perceptrons index) s.specGlobalHistory
  let prediction := decide (0 ≤ output)
  (prediction.toUInt8,
    { s with
      perceptronStateBuf := Function.update s.perceptronStateBuf u
        ⟨prediction, output, s.specGlobalHistory, index⟩
      perceptronStateBufCtr := ctr
      specGlobalHistory := s.specGlobalHistory <<< 1 ||| prediction.toUInt8.toBitVec.setWidth 64
      u := some u })

/-- The update of the bias weight. -/
def trainBias (taken : UInt8) (w : ℤ) : ℤ :=
  let w := if taken ≠ 0 then w + 1 else w - 1
  let w := if maxWeight < w then maxWeight else w
  if w < minWeight then minWeight else w

/-- The update of a weight with its bit of the history. -/
def trainWeight (taken : UInt8) (bit : Bool) (w : ℤ) : ℤ :=
  if bit.toUInt8 = taken then if maxWeight < w + 1 then maxWeight else w + 1
  else if w - 1 < minWeight then minWeight else w - 1

/-- The loop over the weights of `last_branch_result`. -/
def train (taken : UInt8) (history : BitVec 64) (w : Weights) : Weights :=
  Fin.cases (trainBias taken (w 0)) fun i => trainWeight taken (history.getLsbD i) (w i.succ)

/-- `last_branch_result`. Without a prediction `u` is null, and nothing is said of what the code does. -/
def lastBranchResult (s : Predictor) (_ip : Addr) (taken : UInt8) : Predictor :=
  match s.u with
  | none => s
  | some u =>
    let entry := s.perceptronStateBuf u
    let globalHistory := s.globalHistory <<< 1 ||| taken.toBitVec.setWidth 64
    let s := { s with
      globalHistory := globalHistory
      specGlobalHistory :=
        if entry.prediction.toUInt8 ≠ taken then globalHistory else s.specGlobalHistory }
    if theta < entry.output ∧ taken ≠ 0 then s
    else if entry.output < -theta ∧ taken = 0 then s
    else
      { s with
        perceptrons := Function.update s.perceptrons entry.perc
          (train taken entry.history (s.perceptrons entry.perc)) }

/-- The predictor as the core uses it. -/
def predictor : BranchPredictor Predictor where
  predictBranch := predictBranch
  lastBranchResult := lastBranchResult

/-! ## Perceptrons over the last outcomes -/

/-- An outcome as a sign. -/
def sign (taken : Bool) : ℤ := if taken then 1 else -1

/-- The inputs of a perceptron: 1 for the bias, and the last outcomes, the last one first. Before the
first branch nothing was taken. -/
def inputs (outcomes : List Bool) : Fin (perceptronHistory + 1) → ℤ :=
  Fin.cases 1 fun i => sign (outcomes.getD i false)

/-- A weight as near as 8 bits allow. -/
def clamp (w : ℤ) : ℤ := max minWeight (min maxWeight w)

/-- Perceptrons that see the outcomes. -/
structure Learner where
  weights : Fin numPerceptrons → Weights
  outcomes : List Bool

namespace Learner

/-- The perceptron of a branch. -/
def perc (ip : Addr) : Fin numPerceptrons := ⟨ip.toNat % numPerceptrons, Nat.mod_lt _ (by decide)⟩

/-- The weighted sum of the inputs. -/
def sum (l : Learner) (ip : Addr) : ℤ := ∑ i, l.weights (perc ip) i * inputs l.outcomes i

/-- The perceptron learns from a branch, unless its sum is on the right side by more than `THETA`. -/
def learn (l : Learner) (ip : Addr) (taken : Bool) : Learner where
  weights :=
    if theta < sign taken * l.sum ip then l.weights
    else Function.update l.weights (perc ip) fun i =>
      clamp (l.weights (perc ip) i + sign taken * inputs l.outcomes i)
  outcomes := taken :: l.outcomes

/-- The predictions in a run of branches, and what was learned. -/
def run (l : Learner) : List (Addr × Bool) → List Bool × Learner
  | [] => ([], l)
  | (ip, taken) :: rest =>
    let (predictions, l') := run (l.learn ip taken) rest
    (decide (0 ≤ l.sum ip) :: predictions, l')

end Learner

/-! ## The predictor refines the perceptrons -/

/-- The predictor has the weights of the perceptrons, and both its histories have the outcomes. -/
structure Refines (s : Predictor) (l : Learner) : Prop where
  weights : s.perceptrons = l.weights
  spec : s.specGlobalHistory = s.globalHistory
  history : Holds perceptronHistory s.globalHistory l.outcomes
  bounds : ∀ k i, minWeight ≤ l.weights k i ∧ l.weights k i ≤ maxWeight

section
variable {s : Predictor} {l : Learner}

/-- The loop of `predict_branch` computes the weighted sum. -/
theorem output_eq {w : Weights} {history : BitVec 64} {outcomes : List Bool}
    (h : Holds perceptronHistory history outcomes) :
    output w history = ∑ i, w i * inputs outcomes i := by
  have hloop : ∀ (is : List (Fin perceptronHistory)) (out : ℤ),
      is.foldl (fun out (i : Fin perceptronHistory) =>
        if history.getLsbD i then out + w i.succ else out + -w i.succ) out =
      out + (is.map fun i => w i.succ * inputs outcomes i.succ).sum := by
    intro is
    induction is with
    | nil => exact fun out => (add_zero out).symm
    | cons i is ih =>
      intro out
      have hterm : (if history.getLsbD i then out + w i.succ else out + -w i.succ) =
          out + w i.succ * inputs outcomes i.succ := by
        rw [inputs, Fin.cases_succ, sign, h i i.isLt]
        cases outcomes.getD i false <;> simp
      rw [List.foldl_cons, ih, hterm, List.map_cons, List.sum_cons, add_assoc]
  rw [output, hloop, Fin.sum_univ_succ, ← List.sum_ofFn, List.ofFn_eq_map]
  congr 1
  exact (mul_one (w 0)).symm

/-- The update of a weight, when it was in its bounds. -/
theorem trainWeight_eq {w : ℤ} (hw : minWeight ≤ w ∧ w ≤ maxWeight) (taken bit : Bool) :
    trainWeight taken.toUInt8 bit w = clamp (w + sign taken * sign bit) := by
  obtain ⟨hmin, hmax⟩ := hw
  rw [minWeight] at hmin
  rw [maxWeight] at hmax
  have hbit : bit.toUInt8 = taken.toUInt8 ↔ bit = taken := by
    cases bit <;> cases taken <;> decide
  rw [trainWeight, clamp, minWeight, maxWeight]
  simp only [hbit]
  cases bit <;> cases taken <;> simp only [sign, if_true, Bool.false_eq_true, if_false,
    reduceCtorEq] <;> split <;> omega

theorem trainBias_eq {w : ℤ} (hw : minWeight ≤ w ∧ w ≤ maxWeight) (taken : Bool) :
    trainBias taken.toUInt8 w = clamp (w + sign taken * 1) := by
  obtain ⟨hmin, hmax⟩ := hw
  rw [minWeight] at hmin
  rw [maxWeight] at hmax
  have htaken : taken.toUInt8 ≠ 0 ↔ taken = true := by
    cases taken <;> decide
  rw [trainBias, clamp, minWeight, maxWeight]
  simp only [htaken]
  cases taken <;> simp only [sign, if_true, Bool.false_eq_true, if_false] <;> split <;> split <;>
    omega

/-- All weights are updated from their inputs. -/
theorem train_eq {w : Weights} (hw : ∀ i, minWeight ≤ w i ∧ w i ≤ maxWeight) {history : BitVec 64}
    {outcomes : List Bool} (h : Holds perceptronHistory history outcomes) (taken : Bool) :
    train taken.toUInt8 history w = fun i => clamp (w i + sign taken * inputs outcomes i) := by
  funext i
  refine Fin.cases ?_ (fun i => ?_) i
  · exact trainBias_eq (hw 0) taken
  · rw [train, Fin.cases_succ, h i i.isLt, trainWeight_eq (hw i.succ), inputs, Fin.cases_succ]

theorem clamp_bounds (w : ℤ) : minWeight ≤ clamp w ∧ clamp w ≤ maxWeight := by
  rw [clamp, minWeight, maxWeight]
  omega

theorem toUInt8_push (x : BitVec 64) (b : Bool) :
    x <<< 1 ||| b.toUInt8.toBitVec.setWidth 64 = push x b := by
  cases b <;> rfl

theorem Refines.init : Refines init ⟨fun _ _ => 0, []⟩ :=
  ⟨rfl, rfl, holds_zero _, fun _ _ => ⟨(by decide : minWeight ≤ 0), (by decide : 0 ≤ maxWeight)⟩⟩

/-- The prediction is the sign of the weighted sum. -/
theorem Refines.predict (h : Refines s l) (ip : Addr) :
    (predictBranch s ip).1 = (decide (0 ≤ l.sum ip)).toUInt8 := by
  rw [predictBranch, Learner.sum, ← output_eq h.history, h.weights]
  rw [h.spec]
  rfl

/-- The speculative history agrees with the outcomes again. -/
theorem spec_repaired (x : BitVec 64) (prediction taken : Bool) :
    (if prediction.toUInt8 ≠ taken.toUInt8 then push x taken
      else x <<< 1 ||| prediction.toUInt8.toBitVec.setWidth 64) = push x taken := by
  have hiff : prediction.toUInt8 = taken.toUInt8 ↔ prediction = taken := by
    cases prediction <;> cases taken <;> decide
  split
  · rfl
  · rename_i heq
    rw [hiff.1 (not_not.1 heq), toUInt8_push]

/-- When the weights are not updated. -/
theorem kept_iff (sum : ℤ) (taken : Bool) :
    theta < sign taken * sum ↔
      theta < sum ∧ taken.toUInt8 ≠ 0 ∨ sum < -theta ∧ taken.toUInt8 = 0 := by
  have htaken : taken.toUInt8 = 0 ↔ taken = false := by
    cases taken <;> decide
  simp only [htaken, ne_eq, sign]
  cases taken with
  | true => simp
  | false =>
    simp only [Bool.false_eq_true, if_false, not_true_eq_false, and_false, false_or, and_true]
    omega

/-- What `last_branch_result` does with the entry of the last prediction. -/
theorem lastBranchResult_spec {u : Fin numUpdateEntries} {entry : PerceptronState} (hu : s.u = some u)
    (hentry : s.perceptronStateBuf u = entry) (ip : Addr) (taken : UInt8) :
    (lastBranchResult s ip taken).globalHistory =
        s.globalHistory <<< 1 ||| taken.toBitVec.setWidth 64 ∧
    (lastBranchResult s ip taken).specGlobalHistory =
        (if entry.prediction.toUInt8 ≠ taken then s.globalHistory <<< 1 ||| taken.toBitVec.setWidth 64
          else s.specGlobalHistory) ∧
    (lastBranchResult s ip taken).perceptrons =
      if theta < entry.output ∧ taken ≠ 0 ∨ entry.output < -theta ∧ taken = 0 then s.perceptrons
      else Function.update s.perceptrons entry.perc
        (train taken entry.history (s.perceptrons entry.perc)) := by
  subst hentry
  rw [lastBranchResult, hu]
  dsimp only
  by_cases htaken : theta < (s.perceptronStateBuf u).output ∧ taken ≠ 0
  · rw [if_pos htaken]
    exact ⟨rfl, rfl, (if_pos (.inl htaken)).symm⟩
  · rw [if_neg htaken]
    by_cases hnot : (s.perceptronStateBuf u).output < -theta ∧ taken = 0
    · rw [if_pos hnot]
      exact ⟨rfl, rfl, (if_pos (.inr hnot)).symm⟩
    · rw [if_neg hnot]
      exact ⟨rfl, rfl, (if_neg (not_or.2 ⟨htaken, hnot⟩)).symm⟩

/-- What `predict_branch` leaves for the update. -/
theorem predictBranch_entry (s : Predictor) (ip : Addr) :
    (predictBranch s ip).2.perceptronStateBuf s.perceptronStateBufCtr =
      ⟨decide (0 ≤ output (s.perceptrons (Learner.perc ip)) s.specGlobalHistory),
        output (s.perceptrons (Learner.perc ip)) s.specGlobalHistory, s.specGlobalHistory,
        Learner.perc ip⟩ :=
  Function.update_self ..

/-- A branch is predicted and then its outcome is seen. -/
theorem Refines.step (h : Refines s l) (ip : Addr) (taken : Bool) :
    Refines (lastBranchResult (predictBranch s ip).2 ip taken.toUInt8) (l.learn ip taken) := by
  have hsum : output (s.perceptrons (Learner.perc ip)) s.specGlobalHistory = l.sum ip := by
    rw [h.weights, h.spec, output_eq h.history, Learner.sum]
  have hentry := predictBranch_entry s ip
  rw [hsum, h.spec] at hentry
  obtain ⟨hglobal, hspec, hweights⟩ := lastBranchResult_spec rfl hentry ip taken.toUInt8
  have hmoved : (lastBranchResult (predictBranch s ip).2 ip taken.toUInt8).globalHistory =
      push s.globalHistory taken := hglobal.trans (toUInt8_push ..)
  have hperceptrons : (predictBranch s ip).2.perceptrons = l.weights := h.weights
  refine ⟨?_, ?_, ?_, fun k i => ?_⟩
  · rw [hweights, hperceptrons, Learner.learn, train_eq (h.bounds _) h.history]
    simp only [kept_iff]
  · have hpredicted : (predictBranch s ip).2.specGlobalHistory =
        s.globalHistory <<< 1 ||| (decide (0 ≤ l.sum ip)).toUInt8.toBitVec.setWidth 64 := by
      rw [← hsum, ← h.spec]
      rfl
    rw [hspec, hmoved, hpredicted]
    exact (congrArg (ite _ · _) (toUInt8_push ..)).trans (spec_repaired ..)
  · rw [hmoved]
    exact h.history.push (by decide) taken
  · rw [Learner.learn]
    dsimp only
    split
    · exact h.bounds k i
    · rcases eq_or_ne k (Learner.perc ip) with rfl | hne
      · rw [Function.update_self]
        exact clamp_bounds _
      · rw [Function.update_of_ne hne]
        exact h.bounds k i

/-- The predictor and the perceptrons in a run of branches. -/
theorem Refines.run (h : Refines s l) (branches : List (Addr × Bool)) :
    (predictor.run s branches).1 = (l.run branches).1.map Bool.toUInt8 ∧
      Refines (predictor.run s branches).2 (l.run branches).2 := by
  induction branches generalizing s l with
  | nil => exact ⟨rfl, h⟩
  | cons branch branches ih =>
    obtain ⟨ip, taken⟩ := branch
    obtain ⟨hpredictions, hrefines⟩ := ih (h.step ip taken)
    rw [BranchPredictor.run, Learner.run]
    exact ⟨congrArg₂ List.cons (h.predict ip) hpredictions, hrefines⟩

theorem abs_inputs (outcomes : List Bool) (i : Fin (perceptronHistory + 1)) :
    |inputs outcomes i| = 1 := by
  refine Fin.cases rfl (fun i => ?_) i
  rw [inputs, Fin.cases_succ, sign]
  split <;> rfl

/-- No sum leaves the range of an `int`. -/
theorem Refines.output_le (h : Refines s l) (ip : Addr) :
    |output (s.perceptrons (Learner.perc ip)) s.specGlobalHistory| ≤ 3200 := by
  rw [h.weights, h.spec, output_eq h.history]
  calc |∑ i, l.weights (Learner.perc ip) i * inputs l.outcomes i|
      ≤ ∑ i, |l.weights (Learner.perc ip) i * inputs l.outcomes i| := Finset.abs_sum_le_sum_abs _ _
    _ ≤ ∑ _i : Fin (perceptronHistory + 1), 128 := by
      refine Finset.sum_le_sum fun i _ => ?_
      rw [abs_mul, abs_inputs, mul_one, abs_le]
      obtain ⟨hmin, hmax⟩ := h.bounds (Learner.perc ip) i
      exact ⟨hmin, hmax.trans (by decide)⟩
    _ = 3200 := by simp

end

/-- In every run of branches the predictor predicts as perceptrons do that see the outcomes of the last
branches and learn from each with weights of 8 bits. After any run the two histories agree, and the
sums stay in the range of an `int`. -/
theorem predictions_refine (branches : List (Addr × Bool)) :
    (predictor.run init branches).1 =
      (Learner.run ⟨fun _ _ => 0, []⟩ branches).1.map Bool.toUInt8 ∧
    (predictor.run init branches).2.perceptrons =
      (Learner.run ⟨fun _ _ => 0, []⟩ branches).2.weights ∧
    (predictor.run init branches).2.specGlobalHistory =
      (predictor.run init branches).2.globalHistory ∧
    ∀ ip, |output ((predictor.run init branches).2.perceptrons (Learner.perc ip))
      (predictor.run init branches).2.specGlobalHistory| ≤ 3200 := by
  obtain ⟨hpredictions, hrefines⟩ := Refines.init.run branches
  exact ⟨hpredictions, hrefines.weights, hrefines.spec, hrefines.output_le⟩

end Perceptron

end Arishem
