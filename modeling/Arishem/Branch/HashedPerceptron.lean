import Arishem.Branch.Perceptron
import Mathlib.Data.Fin.VecNotation

/-!
# The hashed perceptron branch predictor

Sixteen tables of weights, each with an index that hashes the address of the branch with the outcomes
of the last branches, of a length that grows from table to table. The history is kept in words of 12
bits; the threshold of the training adapts to the mispredictions.
-/

namespace Arishem

namespace HashedPerceptron

open Perceptron (sign)

/-- `NTABLES`. -/
abbrev nTables : ℕ := 16

/-- `LOG_TABLE_SIZE`. -/
abbrev logTableSize : ℕ := 12

/-- `TABLE_SIZE`. -/
abbrev tableSize : ℕ := 4096

/-- `NGHIST_WORDS`. -/
abbrev nghistWords : ℕ := 20

/-- `SPEED`. -/
def speed : ℤ := 18

/-- `history_lengths`. -/
def historyLengths : Fin nTables → ℕ :=
  ![0, 3, 4, 6, 8, 10, 14, 19, 26, 36, 49, 67, 91, 125, 170, 232]

/-- An index of a table. -/
abbrev Index := BitVec logTableSize

/-- The state of the predictor. -/
structure Predictor where
  tables : Fin nTables → Index → ℤ
  ghistWords : Fin nghistWords → BitVec 32
  indices : Fin nTables → Index
  theta : ℤ
  tc : ℤ
  yout : ℤ

/-- `initialize_branch_predictor`; the globals that it leaves are zero. -/
def init : Predictor where
  tables := fun _ _ => 0
  ghistWords := fun _ => 0
  indices := fun _ => 0
  theta := 10
  tc := 0
  yout := 0

/-- A word of the history, by its number. -/
def word (ghistWords : Fin nghistWords → BitVec 32) (j : ℕ) : BitVec 32 :=
  if h : j < nghistWords then ghistWords ⟨j, h⟩ else 0

/-- The index of a table, as `predict_branch` computes it. -/
def index (ghistWords : Fin nghistWords → BitVec 32) (n : ℕ) (pc : Addr) : Index :=
  let mostWords := n / logTableSize
  let lastWord := n % logTableSize
  let x := (List.range mostWords).foldl (fun x j => x ^^^ word ghistWords j) 0
  let x := x ^^^ (word ghistWords mostWords &&& ((1 <<< lastWord) - 1))
  let x := x ^^^ pc.toBitVec.setWidth 32
  (x &&& (tableSize - 1)).setWidth logTableSize

/-- `predict_branch`. -/
def predictBranch (s : Predictor) (pc : Addr) : UInt8 × Predictor :=
  let indices := fun i => index s.ghistWords (historyLengths i) pc
  let yout := (List.finRange nTables).foldl (fun y i => y + s.tables i (indices i)) 0
  ((decide (1 ≤ yout)).toUInt8, { s with indices := indices, yout := yout })

/-- The loop over the words of the history: the bit that enters each word leaves the one before. -/
def shiftWords (b : Bool) : List (BitVec 32) → List (BitVec 32)
  | [] => []
  | x :: xs =>
    let x := x <<< 1 ||| (BitVec.ofBool b).setWidth 32
    (x &&& (tableSize - 1)) :: shiftWords (x &&& tableSize != 0) xs

/-- The update of a weight. -/
def trainWeight (taken : UInt8) (c : ℤ) : ℤ :=
  if taken ≠ 0 then if c < 127 then c + 1 else c else if -128 < c then c - 1 else c

/-- `last_branch_result`. -/
def lastBranchResult (s : Predictor) (_pc : Addr) (taken : UInt8) : Predictor :=
  let correct := taken == (decide (1 ≤ s.yout)).toUInt8
  let words := shiftWords (taken != 0) (List.ofFn s.ghistWords)
  let s := { s with ghistWords := fun j => words.getD j 0 }
  let a := if s.yout < 0 then -s.yout else s.yout
  if correct = false ∨ a < s.theta then
    let s := { s with
      tables := fun i => Function.update (s.tables i) (s.indices i)
        (trainWeight taken (s.tables i (s.indices i))) }
    if correct = false then
      let tc := s.tc + 1
      if speed ≤ tc then { s with theta := s.theta + 1, tc := 0 } else { s with tc := tc }
    else if a < s.theta then
      let tc := s.tc - 1
      if tc ≤ -speed then { s with theta := s.theta - 1, tc := 0 } else { s with tc := tc }
    else s
  else s

/-- The predictor as the core uses it. -/
def predictor : BranchPredictor Predictor where
  predictBranch := predictBranch
  lastBranchResult := lastBranchResult

/-! ## Weights that are chosen by the last outcomes -/

/-- A bit of an index: the bit of the address, and every twelfth of the last outcomes. -/
def folded (n : ℕ) (outcomes : List Bool) (pc : Addr) (b : ℕ) : Bool :=
  (List.range n).foldl
    (fun x k => if k % logTableSize = b then x ^^ outcomes.getD k false else x)
    (pc.toBitVec.getLsbD b)

/-- The index of a branch in a table that looks at the last `n` outcomes. -/
def hash (n : ℕ) (outcomes : List Bool) (pc : Addr) : Index :=
  (BitVec.ofBoolListLE ((List.range logTableSize).map (folded n outcomes pc))).setWidth _

/-- Tables of weights, with the threshold of their training, that see the outcomes. -/
structure Learner where
  tables : Fin nTables → Index → ℤ
  theta : ℤ
  tc : ℤ
  outcomes : List Bool

namespace Learner

/-- The weight of a branch in a table. -/
def weight (l : Learner) (pc : Addr) (i : Fin nTables) : ℤ :=
  l.tables i (hash (historyLengths i) l.outcomes pc)

/-- The sum of the weights of a branch. -/
def sum (l : Learner) (pc : Addr) : ℤ := ∑ i, l.weight pc i

/-- The prediction was right. -/
def correct (l : Learner) (pc : Addr) (taken : Bool) : Prop := decide (1 ≤ l.sum pc) = taken

instance (l : Learner) (pc : Addr) (taken : Bool) : Decidable (l.correct pc taken) :=
  inferInstanceAs (Decidable (_ = _))

/-- The threshold and its counter after a branch: mispredictions raise it, and right predictions by
less than it lower it. -/
def threshold (l : Learner) (pc : Addr) (taken : Bool) : ℤ × ℤ :=
  if ¬ l.correct pc taken then
    if speed ≤ l.tc + 1 then (l.theta + 1, 0) else (l.theta, l.tc + 1)
  else if |l.sum pc| < l.theta then
    if l.tc - 1 ≤ -speed then (l.theta - 1, 0) else (l.theta, l.tc - 1)
  else (l.theta, l.tc)

/-- The weights of a branch learn from its outcome, when the prediction was wrong or its sum was below
the threshold. -/
def learn (l : Learner) (pc : Addr) (taken : Bool) : Learner where
  tables := fun i =>
    if ¬ l.correct pc taken ∨ |l.sum pc| < l.theta then
      Function.update (l.tables i) (hash (historyLengths i) l.outcomes pc)
        (Perceptron.clamp (l.weight pc i + sign taken))
    else l.tables i
  theta := (l.threshold pc taken).1
  tc := (l.threshold pc taken).2
  outcomes := taken :: l.outcomes

/-- The predictions in a run of branches, and what was learned. -/
def run (l : Learner) : List (Addr × Bool) → List Bool × Learner
  | [] => ([], l)
  | (pc, taken) :: rest =>
    let (predictions, l') := run (l.learn pc taken) rest
    (decide (1 ≤ l.sum pc) :: predictions, l')

end Learner

/-! ## The words of the history -/

/-- The words have the outcomes, twelve each. -/
def Segments (xs : List (BitVec 32)) (outcomes : List Bool) : Prop :=
  ∀ (j : ℕ) (x : BitVec 32), xs[j]? = some x → ∀ i,
    x.getLsbD i = (decide (i < logTableSize) && outcomes.getD (logTableSize * j + i) false)

theorem getLsbD_tableMask (i : ℕ) :
    ((tableSize - 1 : BitVec 32)).getLsbD i = decide (i < logTableSize) := by
  rcases Nat.lt_or_ge i 32 with hlt | hge
  · have hall : ∀ i < 32, ((tableSize - 1 : BitVec 32)).getLsbD i = decide (i < logTableSize) := by
      decide
    exact hall i hlt
  · rw [BitVec.getLsbD_of_ge _ _ hge, decide_eq_false (by rw [logTableSize]; omega)]

/-- The bit that leaves a word. -/
theorem carry_eq (x : BitVec 32) : (x &&& tableSize != 0) = x.getLsbD logTableSize := by
  have hsize : ((tableSize : ℕ) : BitVec 32) = BitVec.twoPow 32 logTableSize := by decide
  rw [hsize, BitVec.and_twoPow]
  cases x.getLsbD logTableSize <;> decide

/-- The outcomes from the twelfth on, behind the bit that enters. -/
theorem getD_next (b : Bool) (outcomes : List Bool) (m : ℕ) :
    ((b :: outcomes).getD logTableSize false :: outcomes.drop logTableSize).getD m false =
      (b :: outcomes).getD (logTableSize + m) false := by
  cases m with
  | zero => rfl
  | succ m =>
    rw [← Nat.add_assoc, List.getD_cons_succ, List.getD_cons_succ, List.getD_eq_getElem?_getD,
      List.getD_eq_getElem?_getD, List.getElem?_drop]

/-- An outcome is shifted through all words. -/
theorem Segments.shift {xs : List (BitVec 32)} {outcomes : List Bool} (h : Segments xs outcomes)
    (b : Bool) : Segments (shiftWords b xs) (b :: outcomes) := by
  induction xs generalizing b outcomes with
  | nil => exact fun j x hx => by simp [shiftWords] at hx
  | cons x xs ih =>
    have hx := h 0 x rfl
    have htail : Segments xs (outcomes.drop logTableSize) := by
      intro j y hy i
      rw [h (j + 1) y hy i, List.getD_eq_getElem?_getD, List.getD_eq_getElem?_getD,
        List.getElem?_drop, Nat.mul_succ, Nat.add_comm (logTableSize * j), Nat.add_assoc]
    have hbit : ∀ i, (x <<< 1 ||| (BitVec.ofBool b).setWidth 32).getLsbD i =
        (decide (i < logTableSize + 1) && (b :: outcomes).getD i false) := by
      intro i
      refine (ShiftRegister.getLsbD_push x b i).trans ?_
      cases i with
      | zero => rfl
      | succ i =>
        have hxi := hx i
        rw [Nat.mul_zero, Nat.zero_add] at hxi
        rw [if_neg (Nat.succ_ne_zero i), Nat.add_sub_cancel, hxi]
        by_cases hi : i < logTableSize
        · have hlt : i + 1 < 32 := Nat.lt_of_lt_of_le (Nat.succ_lt_succ hi) (by decide)
          simp [hi, hlt]
        · simp [hi]
    rw [shiftWords]
    intro j y hy i
    cases j with
    | zero =>
      obtain rfl := Option.some.inj hy
      rw [BitVec.getLsbD_and, getLsbD_tableMask, hbit, Nat.mul_zero, Nat.zero_add]
      by_cases hi : i < logTableSize
      · rw [decide_eq_true hi, decide_eq_true (Nat.lt_succ_of_lt hi), Bool.true_and, Bool.and_true]
      · rw [decide_eq_false hi, Bool.and_false, Bool.false_and]
    | succ j =>
      have hcarry := ih htail _ j y hy i
      have hplace : logTableSize * (j + 1) + i = logTableSize + (logTableSize * j + i) := by
        rw [Nat.mul_succ, Nat.add_comm (logTableSize * j), Nat.add_assoc]
      rw [hcarry, carry_eq, hbit, decide_eq_true (Nat.lt_succ_self _), Bool.true_and, hplace,
        getD_next]

/-! ## The indices -/

/-- One bit of a block of the history is folded in. -/
theorem foldl_block (f : ℕ → Bool) {b m : ℕ} (hb : b < logTableSize) (t : ℕ) (ht : t ≤ logTableSize)
    (x : Bool) :
    ((List.range t).map (logTableSize * m + ·)).foldl
        (fun x k => if k % logTableSize = b then x ^^ f k else x) x =
      if b < t then x ^^ f (logTableSize * m + b) else x := by
  induction t with
  | zero => rfl
  | succ t ih =>
    have hmod : (logTableSize * m + t) % logTableSize = t := by
      rw [Nat.mul_add_mod]
      exact Nat.mod_eq_of_lt ht
    rw [List.range_succ, List.map_append, List.foldl_append, ih (Nat.le_of_succ_le ht),
      List.map_singleton, List.foldl_cons, List.foldl_nil, hmod]
    rcases Nat.lt_trichotomy t b with hlt | rfl | hgt
    · rw [if_neg (by omega), if_neg (by omega), if_neg (by omega)]
    · rw [if_pos rfl, if_neg (Nat.lt_irrefl _), if_pos (Nat.lt_succ_self _)]
    · rw [if_neg (by omega), if_pos hgt, if_pos (by omega)]

/-- The whole blocks of the history. -/
theorem foldl_blocks (f : ℕ → Bool) {b : ℕ} (hb : b < logTableSize) (m : ℕ) (x : Bool) :
    (List.range (logTableSize * m)).foldl
        (fun x k => if k % logTableSize = b then x ^^ f k else x) x =
      (List.range m).foldl (fun x j => x ^^ f (logTableSize * j + b)) x := by
  induction m with
  | zero => rfl
  | succ m ih =>
    rw [Nat.mul_succ, List.range_add, List.foldl_append, ih, foldl_block f hb _ (Nat.le_refl _),
      if_pos hb, List.range_succ, List.foldl_append]
    rfl

/-- What a fold of exclusive disjunctions starts from can be added at its end. -/
theorem foldl_xor (g : ℕ → Bool) (js : List ℕ) (x : Bool) :
    js.foldl (fun x j => x ^^ g j) x = (js.foldl (fun x j => x ^^ g j) false ^^ x) := by
  induction js generalizing x with
  | nil => simp
  | cons j js ih =>
    rw [List.foldl_cons, List.foldl_cons, ih, ih (false ^^ g j)]
    simp [Bool.xor_comm]

theorem getLsbD_foldl_xor (g : ℕ → BitVec 32) (b : ℕ) (js : List ℕ) (x : BitVec 32) :
    (js.foldl (fun x j => x ^^^ g j) x).getLsbD b =
      js.foldl (fun x j => x ^^ (g j).getLsbD b) (x.getLsbD b) := by
  induction js generalizing x with
  | nil => rfl
  | cons j js ih => rw [List.foldl_cons, List.foldl_cons, ih, BitVec.getLsbD_xor]

theorem getLsbD_word {ghistWords : Fin nghistWords → BitVec 32} {outcomes : List Bool}
    (h : Segments (List.ofFn ghistWords) outcomes) {j b : ℕ} (hj : j < nghistWords)
    (hb : b < logTableSize) :
    (word ghistWords j).getLsbD b = outcomes.getD (logTableSize * j + b) false := by
  have hget : (List.ofFn ghistWords)[j]? = some (word ghistWords j) := by
    rw [word, dif_pos hj, List.getElem?_ofFn, dif_pos hj]
  rw [h j _ hget b, decide_eq_true hb, Bool.true_and]

theorem getLsbD_hash (n : ℕ) (outcomes : List Bool) (pc : Addr) {b : ℕ} (hb : b < logTableSize) :
    (hash n outcomes pc).getLsbD b = folded n outcomes pc b := by
  rw [hash, BitVec.getLsbD_setWidth, BitVec.getLsbD_ofBoolListLE, decide_eq_true hb, Bool.true_and,
    List.getD_eq_getElem?_getD, List.getElem?_map, List.getElem?_range hb]
  rfl

theorem folded_eq (n : ℕ) (outcomes : List Bool) (pc : Addr) {b : ℕ} (hb : b < logTableSize) :
    folded n outcomes pc b =
      ((List.range (n / logTableSize)).foldl
          (fun x j => x ^^ outcomes.getD (logTableSize * j + b) false) false ^^
        (outcomes.getD (logTableSize * (n / logTableSize) + b) false &&
          decide (b < n % logTableSize)) ^^ pc.toBitVec.getLsbD b) := by
  have hrest : n % logTableSize ≤ logTableSize := (Nat.mod_lt _ (by decide)).le
  rw [folded]
  nth_rewrite 1 [← Nat.div_add_mod n logTableSize]
  rw [List.range_add, List.foldl_append, foldl_blocks _ hb, foldl_block _ hb _ hrest, foldl_xor]
  by_cases hlt : b < n % logTableSize
  · rw [if_pos hlt, decide_eq_true hlt, Bool.and_true, Bool.xor_assoc, Bool.xor_assoc,
      Bool.xor_comm (pc.toBitVec.getLsbD b)]
  · rw [if_neg hlt, decide_eq_false hlt, Bool.and_false, Bool.xor_false]

/-- An index of the predictor is the hash of the last outcomes. -/
theorem index_eq {ghistWords : Fin nghistWords → BitVec 32} {outcomes : List Bool}
    (h : Segments (List.ofFn ghistWords) outcomes) {n : ℕ} (hn : n < logTableSize * nghistWords)
    (pc : Addr) : index ghistWords n pc = hash n outcomes pc := by
  have hmost : n / logTableSize < nghistWords := Nat.div_lt_of_lt_mul hn
  have hmask : ∀ last < logTableSize, ∀ b < logTableSize,
      ((1 <<< last) - 1 : BitVec 32).getLsbD b = decide (b < last) := by decide
  refine BitVec.eq_of_getLsbD_eq fun b hb => ?_
  have hzero : (0 : BitVec 32).getLsbD b = false := BitVec.getLsbD_zero
  have hpc : (pc.toBitVec.setWidth 32).getLsbD b = pc.toBitVec.getLsbD b := by
    rw [BitVec.getLsbD_setWidth, decide_eq_true (hb.trans (by decide)), Bool.true_and]
  have hblocks : (List.range (n / logTableSize)).foldl
        (fun x j => x ^^ (word ghistWords j).getLsbD b) false =
      (List.range (n / logTableSize)).foldl
        (fun x j => x ^^ outcomes.getD (logTableSize * j + b) false) false := by
    refine List.foldl_ext _ _ _ fun x j hj => ?_
    rw [getLsbD_word h ((List.mem_range.1 hj).trans hmost) hb]
  rw [getLsbD_hash n outcomes pc hb, folded_eq n outcomes pc hb, ← hblocks,
    ← getLsbD_word h hmost hb, ← hmask _ (Nat.mod_lt _ (by decide)) b hb, ← hpc, index,
    BitVec.getLsbD_setWidth, decide_eq_true hb, Bool.true_and, BitVec.getLsbD_and,
    getLsbD_tableMask, decide_eq_true hb, Bool.and_true, BitVec.getLsbD_xor, BitVec.getLsbD_xor,
    BitVec.getLsbD_and, getLsbD_foldl_xor, hzero]

/-! ## The predictor refines the tables -/

/-- The predictor has the tables and their threshold, and its words have the outcomes. -/
structure Refines (s : Predictor) (l : Learner) : Prop where
  tables : s.tables = l.tables
  theta : s.theta = l.theta
  tc : s.tc = l.tc
  words : Segments (List.ofFn s.ghistWords) l.outcomes
  bounds : ∀ i x, Perceptron.minWeight ≤ l.tables i x ∧ l.tables i x ≤ Perceptron.maxWeight
  thetaBound : 0 ≤ l.theta
  tcBound : |l.tc| < speed

section
variable {s : Predictor} {l : Learner}

theorem historyLengths_lt : ∀ i, historyLengths i < logTableSize * nghistWords := by decide

theorem Refines.indices (h : Refines s l) (pc : Addr) :
    (predictBranch s pc).2.indices = fun i => hash (historyLengths i) l.outcomes pc :=
  funext fun i => index_eq h.words (historyLengths_lt i) pc

theorem foldl_add (f : Fin nTables → ℤ) (is : List (Fin nTables)) (y : ℤ) :
    is.foldl (fun y i => y + f i) y = y + (is.map f).sum := by
  induction is generalizing y with
  | nil => exact (add_zero y).symm
  | cons i is ih => rw [List.foldl_cons, ih, List.map_cons, List.sum_cons, add_assoc]

theorem Refines.yout (h : Refines s l) (pc : Addr) : (predictBranch s pc).2.yout = l.sum pc := by
  have hloop : (predictBranch s pc).2.yout = (List.finRange nTables).foldl
      (fun y i => y + s.tables i ((predictBranch s pc).2.indices i)) 0 := rfl
  rw [hloop, foldl_add (fun i => s.tables i ((predictBranch s pc).2.indices i)), h.indices,
    h.tables, zero_add, ← List.ofFn_eq_map, List.sum_ofFn]
  rfl

theorem Refines.predict (h : Refines s l) (pc : Addr) :
    (predictBranch s pc).1 = (decide (1 ≤ l.sum pc)).toUInt8 := by
  rw [← h.yout pc]
  rfl

theorem trainWeight_eq {c : ℤ} (hc : Perceptron.minWeight ≤ c ∧ c ≤ Perceptron.maxWeight)
    (taken : Bool) : trainWeight taken.toUInt8 c = Perceptron.clamp (c + sign taken) := by
  obtain ⟨hmin, hmax⟩ := hc
  rw [Perceptron.minWeight] at hmin
  rw [Perceptron.maxWeight] at hmax
  have htaken : taken.toUInt8 ≠ 0 ↔ taken = true := by
    cases taken <;> decide
  rw [trainWeight, Perceptron.clamp, Perceptron.minWeight, Perceptron.maxWeight]
  simp only [htaken]
  cases taken <;> simp only [sign, if_true, Bool.false_eq_true, if_false] <;> split <;> omega

theorem length_shiftWords (b : Bool) (xs : List (BitVec 32)) :
    (shiftWords b xs).length = xs.length := by
  induction xs generalizing b with
  | nil => rfl
  | cons x xs ih => rw [shiftWords, List.length_cons, List.length_cons, ih]

theorem ofFn_getD {n : ℕ} {xs : List (BitVec 32)} (h : xs.length = n) :
    List.ofFn (fun j : Fin n => xs.getD j 0) = xs := by
  refine List.ext_getElem (by simp [h]) fun j hj hj' => ?_
  rw [List.getElem_ofFn, List.getD_eq_getElem?_getD, List.getElem?_eq_getElem hj', Option.getD_some]

theorem abs_eq (y : ℤ) : (if y < 0 then -y else y) = |y| := by
  split
  · rename_i hneg
    exact (abs_of_neg hneg).symm
  · rename_i hpos
    exact (abs_of_nonneg (not_lt.1 hpos)).symm

/-- What `last_branch_result` does, field by field. -/
theorem lastBranchResult_spec (s : Predictor) (pc : Addr) (taken : Bool) :
    ((lastBranchResult s pc taken.toUInt8).ghistWords = fun j : Fin nghistWords =>
      (shiftWords taken (List.ofFn s.ghistWords)).getD j 0) ∧
    ((lastBranchResult s pc taken.toUInt8).tables = fun i =>
      if ¬ decide (1 ≤ s.yout) = taken ∨ |s.yout| < s.theta then
        Function.update (s.tables i) (s.indices i)
          (trainWeight taken.toUInt8 (s.tables i (s.indices i)))
      else s.tables i) ∧
    ((lastBranchResult s pc taken.toUInt8).theta, (lastBranchResult s pc taken.toUInt8).tc) =
      if ¬ decide (1 ≤ s.yout) = taken then
        if speed ≤ s.tc + 1 then (s.theta + 1, 0) else (s.theta, s.tc + 1)
      else if |s.yout| < s.theta then
        if s.tc - 1 ≤ -speed then (s.theta - 1, 0) else (s.theta, s.tc - 1)
      else (s.theta, s.tc) := by
  have hbit : (taken.toUInt8 != 0) = taken := by
    cases taken <;> rfl
  have hcorrect : ∀ p : Bool, (taken.toUInt8 == p.toUInt8) = false ↔ ¬ p = taken := by
    intro p
    cases taken <;> cases p <;> decide
  rw [lastBranchResult]
  simp only [abs_eq, hbit, hcorrect]
  by_cases hwrong : decide (1 ≤ s.yout) = taken
  · by_cases hweak : |s.yout| < s.theta
    · by_cases hlow : s.tc - 1 ≤ -speed <;> simp [hwrong, hweak, hlow]
    · simp [hwrong, hweak]
  · by_cases hhigh : speed ≤ s.tc + 1 <;> simp [hwrong, hhigh]

/-- The threshold stays at least 0, and its counter within bounds. -/
theorem Learner.threshold_bounds (pc : Addr) (taken : Bool) (htheta : 0 ≤ l.theta)
    (htc : |l.tc| < speed) :
    0 ≤ (l.threshold pc taken).1 ∧ |(l.threshold pc taken).2| < speed := by
  have hspeed : speed = 18 := rfl
  have hsum := abs_nonneg (l.sum pc)
  obtain ⟨hlow, hhigh⟩ := abs_lt.1 htc
  rw [Learner.threshold]
  split
  · split
    · exact ⟨by dsimp only; omega, (by decide : |(0 : ℤ)| < speed)⟩
    · exact ⟨htheta, abs_lt.2 (by dsimp only; omega)⟩
  · split
    · split
      · exact ⟨by dsimp only; omega, (by decide : |(0 : ℤ)| < speed)⟩
      · exact ⟨htheta, abs_lt.2 (by dsimp only; omega)⟩
    · exact ⟨htheta, htc⟩

/-- A branch is predicted and then its outcome is seen. -/
theorem Refines.step (h : Refines s l) (pc : Addr) (taken : Bool) :
    Refines (lastBranchResult (predictBranch s pc).2 pc taken.toUInt8) (l.learn pc taken) := by
  obtain ⟨hwords, htables, hthreshold⟩ := lastBranchResult_spec (predictBranch s pc).2 pc taken
  obtain ⟨hthetaBound, htcBound⟩ := Learner.threshold_bounds pc taken h.thetaBound h.tcBound
  have htheta : (predictBranch s pc).2.theta = l.theta := h.theta
  have htc : (predictBranch s pc).2.tc = l.tc := h.tc
  have htables' : (predictBranch s pc).2.tables = l.tables := h.tables
  rw [h.yout pc, htheta, htc] at hthreshold
  rw [h.yout pc, htheta, h.indices pc, htables'] at htables
  have hboth : ((lastBranchResult (predictBranch s pc).2 pc taken.toUInt8).theta,
      (lastBranchResult (predictBranch s pc).2 pc taken.toUInt8).tc) = l.threshold pc taken :=
    hthreshold
  refine ⟨?_, congrArg Prod.fst hboth, congrArg Prod.snd hboth, ?_, fun i x => ?_, hthetaBound,
    htcBound⟩
  · rw [htables, Learner.learn]
    funext i
    rw [trainWeight_eq (h.bounds i _)]
    rfl
  · rw [hwords, ofFn_getD (by rw [length_shiftWords, List.length_ofFn])]
    exact h.words.shift taken
  · rw [Learner.learn]
    dsimp only
    split
    · rcases eq_or_ne x (hash (historyLengths i) l.outcomes pc) with rfl | hne
      · rw [Function.update_self]
        exact Perceptron.clamp_bounds _
      · rw [Function.update_of_ne hne]
        exact h.bounds i x
    · exact h.bounds i x

theorem segments_zero (n : ℕ) : Segments (List.replicate n 0) [] := by
  intro j x hx i
  rw [List.getElem?_replicate] at hx
  split at hx
  · obtain rfl := Option.some.inj hx
    simp
  · cases hx

theorem Refines.init : Refines init ⟨fun _ _ => 0, 10, 0, []⟩ where
  tables := rfl
  theta := rfl
  tc := rfl
  words := by
    have hwords : List.ofFn HashedPerceptron.init.ghistWords = List.replicate nghistWords 0 :=
      List.ofFn_const ..
    rw [hwords]
    exact segments_zero _
  bounds := fun _ _ =>
    ⟨(by decide : Perceptron.minWeight ≤ 0), (by decide : 0 ≤ Perceptron.maxWeight)⟩
  thetaBound := (by decide : (0 : ℤ) ≤ 10)
  tcBound := (by decide : |(0 : ℤ)| < speed)

/-- The predictor and the tables in a run of branches. -/
theorem Refines.run (h : Refines s l) (branches : List (Addr × Bool)) :
    (predictor.run s branches).1 = (l.run branches).1.map Bool.toUInt8 ∧
      Refines (predictor.run s branches).2 (l.run branches).2 := by
  induction branches generalizing s l with
  | nil => exact ⟨rfl, h⟩
  | cons branch branches ih =>
    obtain ⟨pc, taken⟩ := branch
    obtain ⟨hpredictions, hrefines⟩ := ih (h.step pc taken)
    rw [BranchPredictor.run, Learner.run]
    exact ⟨congrArg₂ List.cons (h.predict pc) hpredictions, hrefines⟩

/-- No sum leaves the range of an `int`. -/
theorem Refines.yout_le (h : Refines s l) (pc : Addr) : |(predictBranch s pc).2.yout| ≤ 2048 := by
  rw [h.yout, Learner.sum]
  calc |∑ i, l.weight pc i|
      ≤ ∑ i, |l.weight pc i| := Finset.abs_sum_le_sum_abs _ _
    _ ≤ ∑ _i : Fin nTables, 128 := by
      refine Finset.sum_le_sum fun i _ => abs_le.2 ?_
      obtain ⟨hmin, hmax⟩ := h.bounds i (hash (historyLengths i) l.outcomes pc)
      exact ⟨hmin, hmax.trans (by decide)⟩
    _ = 2048 := by simp

end

/-- In every run of branches the predictor predicts as tables do whose weights are chosen by the last
outcomes and learn from each. After any run the threshold of the training is not negative, its counter
is below `SPEED`, and the sums stay in the range of an `int`. -/
theorem predictions_refine_tables (branches : List (Addr × Bool)) :
    (predictor.run init branches).1 =
      (Learner.run ⟨fun _ _ => 0, 10, 0, []⟩ branches).1.map Bool.toUInt8 ∧
    (predictor.run init branches).2.tables =
      (Learner.run ⟨fun _ _ => 0, 10, 0, []⟩ branches).2.tables ∧
    0 ≤ (predictor.run init branches).2.theta ∧ |(predictor.run init branches).2.tc| < speed ∧
    ∀ pc, |(predictBranch (predictor.run init branches).2 pc).2.yout| ≤ 2048 := by
  obtain ⟨hpredictions, hrefines⟩ := Refines.init.run branches
  refine ⟨hpredictions, hrefines.tables, ?_, ?_, hrefines.yout_le⟩
  · rw [hrefines.theta]
    exact hrefines.thetaBound
  · rw [hrefines.tc]
    exact hrefines.tcBound

end HashedPerceptron

end Arishem
