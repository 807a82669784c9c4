import Arishem.Lib.Argmax
import Mathlib.Algebra.Order.Field.Basic
import Mathlib.Algebra.Order.Ring.Rat
import Mathlib.Algebra.Field.Rat
import Mathlib.Data.List.FinRange
import Mathlib.Logic.Function.Basic

/-!
# The featurewise learning engine

The engine pools the Q-values of its features and takes the action with the largest one; a feature
takes the action with its own largest value, and is marked when the two are the same. Both may start
from a fallback, the value 0 of action 0, but they decide on it differently: the engine looks at the
bandwidth and the accuracy of the state when the dynamic fallback is on, the feature only at the knob
of the static one. Pooling by the maximum starts at -1000000000 and leaves 0 for what is below it.

The Q-values are in an ordered field. The functions that find a tile of a state are left open, and the
statistics are left out. `init_knobs` is never called, so the knobs of the two fallbacks are
independent.
-/

namespace Arishem

namespace Featurewise

/-- `FeatureType`. -/
inductive FeatureType
  | pc | offset | delta | address | pcOffset | pcAddress | pcPage | pcPath | deltaPath | offsetPath
  | pcDelta | pcOffsetDelta | page | pcPathOffset | pcPathOffsetPath | pcPathDelta | pcPathDeltaPath
  | pcPathOffsetPathDeltaPath | offsetPathPc | deltaPathPc
  deriving DecidableEq

/-- The features in the order of their indices. -/
def featureTypes : List FeatureType :=
  [.pc, .offset, .delta, .address, .pcOffset, .pcAddress, .pcPage, .pcPath, .deltaPath, .offsetPath,
    .pcDelta, .pcOffsetDelta, .page, .pcPathOffset, .pcPathOffsetPath, .pcPathDelta,
    .pcPathDeltaPath, .pcPathOffsetPathDeltaPath, .offsetPathPc, .deltaPathPc]

/-- `State`. -/
structure State where
  pc : UInt64
  address : UInt64
  page : UInt64
  offset : UInt32
  delta : Int32
  localDeltaSig2 : UInt32
  localPcSig : UInt32
  localOffsetSig : UInt32
  bwLevel : UInt8
  isHighBw : Bool
  accLevel : UInt32

/-- `le_featurewise_pooling_type`: 1 or 2, as `consultQ` asserts. -/
inductive Pooling
  | sum | max
  deriving DecidableEq

/-- The knobs. -/
structure Knobs (K : Type*) where
  enableActionFallback : Bool
  enableDynActionFallback : Bool
  bwAccCheckLevel : UInt32
  accThresh : UInt32
  poolingType : Pooling
  maxQThresh : K

/-- `FeatureKnowledge`, with its `get_tile_index`. -/
structure FeatureKnowledge (K : Type*) where
  actions : ℕ
  weight : K
  numTilings : ℕ
  numTiles : ℕ
  tileIndex : Fin numTilings → State → Fin numTiles
  qtable : Fin numTilings → Fin numTiles → ℕ → K

/-- `LearningEngineFeaturewise`, whose constructor makes the features with its number of actions. -/
structure Engine (K : Type*) where
  actions : ℕ
  actions_pos : 0 < actions
  maxQValue : K
  featureKnowledges : FeatureType → Option (FeatureKnowledge K)
  actions_eq : ∀ t f, featureKnowledges t = some f → f.actions = actions

/-- What `getMaxAction` returns and sets. The ratio is nothing where a finite value is divided by
0. -/
structure MaxAction (K : Type*) where
  action : ℕ
  maxQ : K
  maxToAvgQRatio : Option K
  consensusVec : FeatureType → Bool

section
variable {K : Type*} [Field K] [LinearOrder K]

namespace FeatureKnowledge

/-- `retrieveQ`. -/
def retrieveQ (f : FeatureKnowledge K) (s : State) (action : ℕ) : K :=
  f.weight * (List.finRange f.numTilings).foldl
    (fun q tiling => q + f.qtable tiling (f.tileIndex tiling s) action) 0

/-- `FeatureKnowledge::getMaxAction`. -/
def getMaxAction (k : Knobs K) (f : FeatureKnowledge K) (s : State) : ℕ :=
  if k.enableActionFallback then
    (Argmax.scan (f.retrieveQ s) (0, 0) (List.range' 0 f.actions)).2
  else
    (Argmax.scan (f.retrieveQ s) (f.retrieveQ s 0, 0) (List.range' 1 (f.actions - 1))).2

end FeatureKnowledge

/-- `do_fallback`. -/
def doFallback (k : Knobs K) (s : State) : Bool :=
  if !k.enableDynActionFallback then k.enableActionFallback
  else if s.isHighBw then false
  else if k.bwAccCheckLevel ≤ s.bwLevel.toUInt32 && s.accLevel ≤ k.accThresh then false
  else true

/-- The smallest value that pooling by the maximum takes. -/
def poolFloor : K := -1000000000

/-- A feature enters the pool of `consultQ`: the value and its `max`. -/
def pool (k : Knobs K) (pooled : K × K) (q : K) : K × K :=
  match k.poolingType with
  | .sum => (pooled.1 + q, pooled.2)
  | .max => if pooled.2 ≤ q then (q, q) else pooled

/-- `consultQ`. -/
def consultQ (k : Knobs K) (e : Engine K) (s : State) (action : ℕ) : K :=
  (featureTypes.foldl (fun pooled t =>
    match e.featureKnowledges t with
    | none => pooled
    | some f => pool k pooled (f.retrieveQ s action)) (0, poolFloor)).1

/-- `action_selection_consensus`. -/
def actionSelectionConsensus (k : Knobs K) (e : Engine K) (s : State) (selected : ℕ)
    (consensusVec : FeatureType → Bool) : FeatureType → Bool :=
  featureTypes.foldl (fun vec t =>
    match e.featureKnowledges t with
    | none => vec
    | some f => if f.getMaxAction k s = selected then Function.update vec t true else vec)
    consensusVec

/-- `max_to_avg_q_ratio`. -/
def maxToAvgQRatio (k : Knobs K) (e : Engine K) (maxQ total : K) : Option K :=
  let avg := total / e.actions
  if maxQ < k.maxQThresh * e.maxQValue then some 0
  else if 0 < maxQ ∧ 0 < avg ∨ maxQ < 0 ∧ avg < 0 then some (|maxQ| / |avg| - 1)
  else if avg = 0 then none
  else some ((maxQ - avg) / |avg|)

/-- The two loops of `LearningEngineFeaturewise::getMaxAction`: the largest value and its action. -/
def maxPooled (k : Knobs K) (e : Engine K) (s : State) : K × ℕ :=
  if doFallback k s then Argmax.scan (consultQ k e s) (0, 0) (List.range' 0 e.actions)
  else Argmax.scan (consultQ k e s) (consultQ k e s 0, 0) (List.range' 1 (e.actions - 1))

/-- `LearningEngineFeaturewise::getMaxAction`. -/
def getMaxAction (k : Knobs K) (e : Engine K) (s : State) (consensusVec : FeatureType → Bool) :
    MaxAction K where
  action := (maxPooled k e s).2
  maxQ := (maxPooled k e s).1
  maxToAvgQRatio := maxToAvgQRatio k e (maxPooled k e s).1
    ((List.range e.actions).foldl (fun total action => total + consultQ k e s action) 0)
  consensusVec := actionSelectionConsensus k e s (maxPooled k e s).2 consensusVec

/-! ## A lone feature -/

/-- Pooling by the maximum leaves out the value of an action. -/
def Ignored (k : Knobs K) (f : FeatureKnowledge K) (s : State) (action : ℕ) : Prop :=
  k.poolingType = .max ∧ f.retrieveQ s action < poolFloor

/-- When a lone feature agrees with the engine: a value is positive, or the fallbacks and the values
that are left out make no difference. -/
def Agrees (k : Knobs K) (f : FeatureKnowledge K) (s : State) : Prop :=
  (∃ a < f.actions, 0 < f.retrieveQ s a) ∨
  match doFallback k s, k.enableActionFallback with
  | true, true => True
  | true, false => ∀ a < f.actions, f.retrieveQ s a ≤ f.retrieveQ s 0
  | false, true =>
    Ignored k f s 0 ∨ f.retrieveQ s 0 = 0 ∨
      ∀ a < f.actions, ¬ Ignored k f s a ∧ f.retrieveQ s a ≤ f.retrieveQ s 0
  | false, false =>
    (∀ a < f.actions, Ignored k f s a → ∃ b < a, f.retrieveQ s b = 0) ∨
      Ignored k f s 0 ∧ ∀ a < f.actions, f.retrieveQ s a ≤ f.retrieveQ s 0

theorem featureTypes_nodup : featureTypes.Nodup := by decide

theorem mem_featureTypes (t : FeatureType) : t ∈ featureTypes := by
  cases t <;> decide

/-- A fold in which one element acts. -/
theorem foldl_of_only {α β : Type*} {g : β → α → β} {l : List α} {t : α} (hnodup : l.Nodup)
    (ht : t ∈ l) (h : ∀ u, u ≠ t → ∀ acc, g acc u = acc) (acc : β) :
    l.foldl g acc = g acc t := by
  have hrest : ∀ l : List α, t ∉ l → ∀ acc, l.foldl g acc = acc := by
    intro l hl
    induction l with
    | nil => exact fun _ => rfl
    | cons u l ih =>
      rw [List.mem_cons, not_or] at hl
      intro acc
      rw [List.foldl_cons, h u (Ne.symm hl.1), ih hl.2]
  obtain ⟨l₁, l₂, rfl⟩ := List.append_of_mem ht
  rw [List.nodup_append, List.nodup_cons] at hnodup
  have h₁ : t ∉ l₁ := fun hmem => hnodup.2.2 t hmem t List.mem_cons_self rfl
  rw [List.foldl_append, List.foldl_cons, hrest l₁ h₁, hrest l₂ hnodup.2.1.1]

variable {k : Knobs K} {e : Engine K} {f : FeatureKnowledge K} {s : State} {t : FeatureType}

theorem consultQ_eq (hf : e.featureKnowledges t = some f)
    (hlone : ∀ u, u ≠ t → e.featureKnowledges u = none) (action : ℕ) :
    consultQ k e s action = (pool k (0, poolFloor) (f.retrieveQ s action)).1 := by
  have hfold := foldl_of_only (g := fun pooled u =>
    match e.featureKnowledges u with
    | none => pooled
    | some f => pool k pooled (f.retrieveQ s action)) featureTypes_nodup (mem_featureTypes t)
    (fun u hu acc => by rw [hlone u hu]) (0, poolFloor)
  rw [consultQ, hfold, hf]

theorem actionSelectionConsensus_eq (hf : e.featureKnowledges t = some f)
    (hlone : ∀ u, u ≠ t → e.featureKnowledges u = none) (selected : ℕ)
    (vec : FeatureType → Bool) :
    actionSelectionConsensus k e s selected vec =
      if f.getMaxAction k s = selected then Function.update vec t true else vec := by
  have hfold := foldl_of_only (g := fun vec u =>
    match e.featureKnowledges u with
    | none => vec
    | some f => if f.getMaxAction k s = selected then Function.update vec u true else vec)
    featureTypes_nodup (mem_featureTypes t) (fun u hu acc => by rw [hlone u hu]) vec
  rw [actionSelectionConsensus, hfold, hf]

/-- The action that a loop selects, from the fallback or from the first value. -/
def select (fallback : Bool) (q : ℕ → K) (n : ℕ) : ℕ :=
  if fallback then (Argmax.scan q (0, 0) (List.range' 0 n)).2
  else (Argmax.scan q (q 0, 0) (List.range' 1 (n - 1))).2

section
variable {q : ℕ → K} {n : ℕ}

theorem select_isFirst (hn : 0 < n) (q : ℕ → K) : Argmax.IsFirst q n (select false q n) := by
  obtain ⟨a, hscan, ha⟩ := Argmax.scan_first q (n - 1)
  rw [Nat.sub_add_cancel hn] at ha
  have hselect : select false q n = a := congrArg Prod.snd hscan
  rw [hselect]
  exact ha

/-- Where a value is positive, the fallback does not matter. -/
theorem select_isFirst_of_pos (fallback : Bool) (h : ∃ a < n, 0 < q a) :
    Argmax.IsFirst q n (select fallback q n) := by
  obtain ⟨b, hb, hpos⟩ := h
  cases fallback with
  | false => exact select_isFirst (Nat.zero_lt_of_lt hb) q
  | true =>
    rcases Argmax.scan_floor q 0 n with ⟨-, hle⟩ | ⟨a, hscan, -, ha⟩
    · exact absurd hpos (not_lt_of_ge (hle b hb))
    · have hselect : select true q n = a := congrArg Prod.snd hscan
      rw [hselect]
      exact ha

/-- Where no value is positive, the fallback is taken. -/
theorem select_fallback (h : ∀ a < n, q a ≤ 0) : select true q n = 0 := by
  rcases Argmax.scan_floor q 0 n with ⟨hscan, -⟩ | ⟨a, -, hpos, ha⟩
  · exact congrArg Prod.snd hscan
  · exact absurd hpos (not_lt_of_ge (h a ha.lt))

theorem select_eq_zero_iff (hn : 0 < n) : select false q n = 0 ↔ ∀ b < n, q b ≤ q 0 := by
  have hfirst := select_isFirst hn q
  rw [← Argmax.isFirst_zero_iff hn]
  constructor
  · intro h
    rw [h] at hfirst
    exact hfirst
  · exact hfirst.unique

end

section
variable [IsStrictOrderedRing K]

theorem poolFloor_neg : (poolFloor : K) < 0 := by
  have hpos : (0 : K) < 1000000000 := by norm_num
  exact neg_lt_zero.2 hpos

/-- The engine pools the value of its feature, or 0 where it is left out. -/
theorem consultQ_lone (hf : e.featureKnowledges t = some f)
    (hlone : ∀ u, u ≠ t → e.featureKnowledges u = none) (action : ℕ) :
    (Ignored k f s action ∧ f.retrieveQ s action < 0 ∧ consultQ k e s action = 0) ∨
      (¬ Ignored k f s action ∧ consultQ k e s action = f.retrieveQ s action) := by
  rw [consultQ_eq hf hlone, pool, Ignored]
  cases k.poolingType with
  | sum => exact .inr ⟨by rintro ⟨⟨⟩, -⟩, zero_add _⟩
  | max =>
    by_cases hq : f.retrieveQ s action < poolFloor
    · exact .inl ⟨⟨rfl, hq⟩, hq.trans poolFloor_neg, by simp only [if_neg (not_le_of_gt hq)]⟩
    · exact .inr ⟨fun h => hq h.2, by simp only [if_pos (le_of_not_gt hq)]⟩

section
variable {n : ℕ} (hf : e.featureKnowledges t = some f)
  (hlone : ∀ u, u ≠ t → e.featureKnowledges u = none)
include hf hlone

/-- A positive value is pooled, so both loops find the first largest one. -/
theorem agree_of_pos (b b' : Bool) (h : ∃ a < n, 0 < f.retrieveQ s a) :
    select b (consultQ k e s) n = select b' (f.retrieveQ s) n := by
  have hfeature := select_isFirst_of_pos b' h
  have hpool := consultQ_lone (k := k) (s := s) hf hlone
  obtain ⟨a, ha, hpos⟩ := h
  have hpos' : ∃ a < n, 0 < consultQ k e s a := by
    refine ⟨a, ha, ?_⟩
    rcases hpool a with ⟨-, hneg, -⟩ | ⟨-, heq⟩
    · exact absurd hpos (not_lt_of_gt hneg)
    · rw [heq]
      exact hpos
  have hmax : 0 < f.retrieveQ s (select b' (f.retrieveQ s) n) :=
    hpos.trans_le (hfeature.le a ha)
  refine (select_isFirst_of_pos b hpos').unique (hfeature.congr_of_floor hmax fun c _ => ?_)
  rcases hpool c with ⟨-, hneg, hzero⟩ | ⟨-, heq⟩
  · exact .inr ⟨hneg.le, hzero.le⟩
  · exact .inl heq

theorem consultQ_nonpos (h : ∀ a < n, f.retrieveQ s a ≤ 0) (a : ℕ) (ha : a < n) :
    consultQ k e s a ≤ 0 := by
  rcases consultQ_lone (k := k) (s := s) hf hlone a with ⟨-, -, hzero⟩ | ⟨-, heq⟩
  · exact hzero.le
  · rw [heq]
    exact h a ha

/-- The feature falls back to action 0 and the engine does not. -/
theorem agree_fallback_iff (hn : 0 < n) (h : ∀ a < n, f.retrieveQ s a ≤ 0) :
    select false (consultQ k e s) n = 0 ↔
      Ignored k f s 0 ∨ f.retrieveQ s 0 = 0 ∨
        ∀ a < n, ¬ Ignored k f s a ∧ f.retrieveQ s a ≤ f.retrieveQ s 0 := by
  have hpool := consultQ_lone (k := k) (s := s) hf hlone
  have hnonpos := consultQ_nonpos (k := k) hf hlone h
  rw [select_eq_zero_iff hn]
  rcases hpool 0 with ⟨h₀, -, hzero⟩ | ⟨h₀, heq⟩
  · rw [hzero]
    exact ⟨fun _ => .inl h₀, fun _ => hnonpos⟩
  · rw [heq]
    constructor
    · intro hle
      refine .inr (or_iff_not_imp_left.2 fun hne a ha => ?_)
      have hneg : f.retrieveQ s 0 < 0 := lt_of_le_of_ne (h 0 hn) hne
      rcases hpool a with ⟨-, -, hzero⟩ | ⟨ha', heq⟩
      · exact absurd (hle a ha) (not_le_of_gt (hzero ▸ hneg))
      · exact ⟨ha', heq ▸ hle a ha⟩
    · rintro (h₀' | hzero | hle) a ha
      · exact absurd h₀' h₀
      · rw [hzero]
        exact hnonpos a ha
      · rcases hpool a with ⟨ha', -, -⟩ | ⟨-, heq⟩
        · exact absurd ha' (hle a ha).1
        · exact heq ▸ (hle a ha).2

/-- Neither falls back. -/
theorem agree_noFallback_iff (hn : 0 < n) (h : ∀ a < n, f.retrieveQ s a ≤ 0) :
    select false (consultQ k e s) n = select false (f.retrieveQ s) n ↔
      (∀ a < n, Ignored k f s a → ∃ b < a, f.retrieveQ s b = 0) ∨
        Ignored k f s 0 ∧ ∀ a < n, f.retrieveQ s a ≤ f.retrieveQ s 0 := by
  have hpool := consultQ_lone (k := k) (s := s) hf hlone
  have hnonpos := consultQ_nonpos (k := k) hf hlone h
  have hengine := select_isFirst hn (consultQ k e s)
  have hfeature := select_isFirst hn (f.retrieveQ s)
  generalize select false (f.retrieveQ s) n = m at hfeature ⊢
  constructor
  · rintro hm
    rw [hm] at hengine
    rcases hpool m with ⟨hmi, -, hmz⟩ | ⟨hmi, hmq⟩
    · -- the largest value is left out, and so are all of them
      have hall : ∀ a < n, Ignored k f s a := fun a ha =>
        ⟨hmi.1, (hfeature.le a ha).trans_lt hmi.2⟩
      have hm₀ : m = 0 := by
        by_contra hne
        have hlt := hengine.first 0 (Nat.pos_of_ne_zero hne)
        rcases hpool 0 with ⟨-, -, hz⟩ | ⟨hi, -⟩
        · rw [hz, hmz] at hlt
          exact lt_irrefl 0 hlt
        · exact hi (hall 0 hn)
      subst hm₀
      exact .inr ⟨hmi, hfeature.le⟩
    · refine .inl fun a ha hai => ?_
      rcases hpool a with ⟨-, -, hz⟩ | ⟨hi, -⟩
      · have hge := hengine.le a ha
        rw [hz, hmq] at hge
        have hm₀ : f.retrieveQ s m = 0 := le_antisymm (h m hfeature.lt) hge
        refine ⟨m, ?_, hm₀⟩
        rcases lt_trichotomy m a with hlt | rfl | hlt
        · exact hlt
        · exact absurd hai hmi
        · have hlt' := hengine.first a hlt
          rw [hz, hmq, hm₀] at hlt'
          exact absurd hlt' (lt_irrefl 0)
      · exact absurd hai hi
  · rintro (hzeros | ⟨h₀, hle⟩)
    · -- a value that is left out has the first largest value before it
      have hbefore : ∀ a < n, Ignored k f s a → f.retrieveQ s m = 0 ∧ m < a := by
        intro a ha hai
        obtain ⟨b, hb, hbz⟩ := hzeros a ha hai
        have hge := hfeature.le b (hb.trans ha)
        rw [hbz] at hge
        have hm₀ := le_antisymm (h m hfeature.lt) hge
        refine ⟨hm₀, lt_of_not_ge fun hle => ?_⟩
        have hlt := hfeature.first b (hb.trans_le hle)
        rw [hbz, hm₀] at hlt
        exact lt_irrefl 0 hlt
      have hmq : consultQ k e s m = f.retrieveQ s m := by
        rcases hpool m with ⟨hmi, -, -⟩ | ⟨-, heq⟩
        · exact absurd (hbefore m hfeature.lt hmi).2 (lt_irrefl m)
        · exact heq
      refine hengine.unique ⟨hfeature.lt, fun b hb => ?_, fun b hb => ?_⟩
      · rw [hmq]
        rcases hpool b with ⟨hbi, -, hz⟩ | ⟨-, heq⟩
        · rw [hz, (hbefore b hb hbi).1]
        · rw [heq]
          exact hfeature.le b hb
      · rw [hmq]
        rcases hpool b with ⟨hbi, -, -⟩ | ⟨-, heq⟩
        · exact absurd (hbefore b (hb.trans hfeature.lt) hbi).2 (not_lt_of_gt hb)
        · rw [heq]
          exact hfeature.first b hb
    · have hm₀ : m = 0 := hfeature.unique ((Argmax.isFirst_zero_iff hn).2 hle)
      rcases hpool 0 with ⟨-, -, hz⟩ | ⟨hi, -⟩
      · rw [hm₀, select_eq_zero_iff hn, hz]
        exact hnonpos
      · exact absurd h₀ hi

end

/-- A lone feature agrees with the engine, and is marked, if and only if a value is positive or the
fallbacks and the values that pooling leaves out make no difference. -/
theorem lone_feature_agrees_iff (k : Knobs K) (e : Engine K) (f : FeatureKnowledge K) (s : State)
    (t : FeatureType) (hf : e.featureKnowledges t = some f)
    (hlone : ∀ u, u ≠ t → e.featureKnowledges u = none) (consensusVec : FeatureType → Bool) :
    ((getMaxAction k e s consensusVec).action = f.getMaxAction k s ∧
      (getMaxAction k e s consensusVec).consensusVec t = true) ↔ Agrees k f s := by
  have hn : 0 < f.actions := e.actions_eq t f hf ▸ e.actions_pos
  have hengine : (getMaxAction k e s consensusVec).action =
      select (doFallback k s) (consultQ k e s) f.actions := by
    rw [e.actions_eq t f hf]
    exact apply_ite Prod.snd ..
  have hmark : (getMaxAction k e s consensusVec).action = f.getMaxAction k s →
      (getMaxAction k e s consensusVec).consensusVec t = true := by
    intro h
    have hselected : f.getMaxAction k s = (maxPooled k e s).2 := h.symm
    have hvec := actionSelectionConsensus_eq (k := k) (s := s) hf hlone (maxPooled k e s).2
      consensusVec
    rw [if_pos hselected] at hvec
    have hset : (getMaxAction k e s consensusVec).consensusVec =
        actionSelectionConsensus k e s (maxPooled k e s).2 consensusVec := rfl
    rw [hset, hvec, Function.update_self]
  rw [and_iff_left_of_imp hmark, hengine, FeatureKnowledge.getMaxAction, ← select, Agrees]
  by_cases hpos : ∃ a < f.actions, 0 < f.retrieveQ s a
  · exact iff_of_true (agree_of_pos hf hlone _ _ hpos) (.inl hpos)
  · have h : ∀ a < f.actions, f.retrieveQ s a ≤ 0 := fun a ha =>
      le_of_not_gt fun hlt => hpos ⟨a, ha, hlt⟩
    rw [or_iff_right hpos]
    cases doFallback k s <;> cases k.enableActionFallback
    · exact agree_noFallback_iff hf hlone hn h
    · rw [select_fallback h]
      exact agree_fallback_iff hf hlone hn h
    · rw [select_fallback (consultQ_nonpos hf hlone h), eq_comm]
      exact select_eq_zero_iff hn
    · exact iff_of_true (by rw [select_fallback (consultQ_nonpos hf hlone h), select_fallback h])
        trivial

end

end

/-- An engine over the program counter, with two actions and one tile. -/
def pcEngine (q₀ q₁ : ℚ) : FeatureKnowledge ℚ where
  actions := 2
  weight := 1
  numTilings := 1
  numTiles := 1
  tileIndex tiling _ := tiling
  qtable _ _ action := if action = 0 then q₀ else q₁

/-- The engine of one feature. -/
def engineOf {K : Type*} (maxQValue : K) (f : FeatureKnowledge K) (h : 0 < f.actions) : Engine K where
  actions := f.actions
  actions_pos := h
  maxQValue := maxQValue
  featureKnowledges t := if t = .pc then some f else none
  actions_eq t g hg := by
    split at hg
    · rw [Option.some.inj hg]
    · cases hg

/-- The default knobs. -/
def defaults : Knobs ℚ where
  enableActionFallback := true
  enableDynActionFallback := true
  bwAccCheckLevel := 1
  accThresh := 2
  poolingType := .max
  maxQThresh := 1 / 2

/-- A state with a bandwidth. -/
def stateAt (isHighBw : Bool) : State where
  pc := 0
  address := 0
  page := 0
  offset := 0
  delta := 0
  localDeltaSig2 := 0
  localPcSig := 0
  localOffsetSig := 0
  bwLevel := 0
  isHighBw := isHighBw
  accLevel := 0

theorem lone_feature_agrees_iff_high :
    let f := pcEngine 1 2
    let e := engineOf 4 f Nat.two_pos
    ((getMaxAction defaults e (stateAt true) fun _ => false).action =
        f.getMaxAction defaults (stateAt true) ∧
      (getMaxAction defaults e (stateAt true) fun _ => false).consensusVec .pc = true) ↔
      Agrees defaults f (stateAt true) :=
  lone_feature_agrees_iff defaults (engineOf 4 (pcEngine 1 2) Nat.two_pos) (pcEngine 1 2)
    (stateAt true) .pc rfl (fun _ hu => if_neg hu) fun _ => false

/-- At a high bandwidth the engine does not fall back, and the feature does: of -2 and -1, the
engine takes the second action and the feature the first. -/
theorem lone_feature_disagrees : ¬ ∀ (k : Knobs ℚ) (e : Engine ℚ) (f : FeatureKnowledge ℚ)
    (s : State) (t : FeatureType), e.featureKnowledges t = some f →
    (∀ u, u ≠ t → e.featureKnowledges u = none) → ∀ consensusVec,
      (getMaxAction k e s consensusVec).action = f.getMaxAction k s := by
  intro h
  have heq := h defaults (engineOf 4 (pcEngine (-2) (-1)) Nat.two_pos) (pcEngine (-2) (-1))
    (stateAt true) .pc rfl (fun _ hu => if_neg hu) fun _ => false
  revert heq
  decide +kernel

end Featurewise

end Arishem
