import Arishem.Prefetchers.Page

/-!
# Scooby

The prefetcher asks a learning engine for an action, records every prediction in `prefetch_tracker`
and rewards it when a demand, a fill or its eviction shows what it was worth. A prediction is
learned from when the one behind it leaves the tracker. The learning engine is left open: an access
carries the answer of `chooseAction`, and the calls of `learn` are events.

An entry is made by `new` and named by a pointer, here its number in the order of creation. Every
access makes a `State`; its pointer is the number of the access. A deleted `State` is gone from the
heap, and what reads or deletes it again is a fault.
-/

namespace Arishem

namespace Scooby

/-- `RewardType`. -/
inductive RewardType
  | none | incorrect | correctUntimely | correctTimely | outOfBounds | trackerHit
  deriving DecidableEq

/-- The knobs. The rewards are given by their type, and `value` is `State::value`. -/
structure Knobs (σ : Type) where
  actions : List Int32
  ptSize : ℕ
  enableRewardAll : Bool
  enableTrackMultiple : Bool
  enableRewardOutOfBounds : Bool
  enableRewardTrackerHit : Bool
  enableFeaturewiseEngine : Bool
  enableHbwReward : Bool
  highBwThresh : UInt32
  reward : RewardType → Int32
  rewardHbw : RewardType → Int32
  value : σ → UInt32

/-- `NumFeatureTypes`. -/
def numFeatureTypes : ℕ := 20

/-- What the engine answers to `chooseAction`, with the degree that follows from it: the consensus
vector is resized to `NumFeatureTypes`. -/
structure Choice {σ : Type} (k : Knobs σ) where
  actionIndex : Fin k.actions.length
  prefDegree : ℕ
  consensusVec : List Bool
  consensusVec_length : consensusVec.length = numFeatureTypes

/-- The arguments of `learn`. The basic engine is given the values of the states. -/
inductive LearnCall (σ : Type)
  | basic (state1 : UInt32) (action1 : ℕ) (reward : Int32) (state2 : UInt32) (action2 : ℕ)
  | featurewise (state1 : σ) (action1 : ℕ) (reward : Int32) (state2 : σ) (action2 : ℕ)
      (consensusVec : List Bool) (rewardType : RewardType)
  deriving DecidableEq

/-- What happens, in its order. The entries are numbered as they are made. -/
inductive Event (σ : Type)
  /-- `reward(address)` is done. -/
  | demand (address : UInt64)
  /-- `register_fill(address)` is called. -/
  | fill (address : UInt64)
  | prefetched (address : UInt64)
  | created (address : UInt64) (state : σ) (actionIndex : ℕ)
  | evicted (id : ℕ)
  | rewarded (id : ℕ) (type : RewardType) (reward : Int32)
  | learned (call : LearnCall σ)
  deriving DecidableEq

/-- `Scooby_PTEntry`. -/
structure PTEntry where
  id : ℕ
  address : UInt64
  state : ℕ
  actionIndex : ℕ
  isFilled : Bool
  pfCacheHit : Bool
  reward : Int32
  rewardType : RewardType
  hasReward : Bool
  consensusVec : List Bool
  deriving DecidableEq

/-- The constructor of `Scooby_PTEntry`. -/
def PTEntry.make (id : ℕ) (address : UInt64) (state actionIndex : ℕ) : PTEntry :=
  ⟨id, address, state, actionIndex, false, false, 0, .none, false, []⟩

end Scooby

/-- The prefetcher. The oldest entry of `prefetch_tracker` is at its front. -/
structure Scooby (σ : Type) where
  prefetchTracker : List Scooby.PTEntry
  lastEvictedTracker : Option Scooby.PTEntry
  bwLevel : UInt8
  /-- The heap: the states that were made, or nothing where one is deleted. -/
  states : List (Option σ)
  /-- The entries made so far. -/
  made : ℕ
  log : List (Scooby.Event σ)

namespace Scooby

/-- The `consensus_vec` of `predict` behind `chooseAction`: the basic engine leaves it empty. -/
def Choice.vec {σ : Type} {k : Knobs σ} (choice : Choice k) : List Bool :=
  if k.enableFeaturewiseEngine then choice.consensusVec else []

/-- What ends a run: a reward is missing or assigned twice, the tracker has no entry where one is
taken, it holds too many, or a deleted state is read or deleted. -/
inductive Fault
  | hasReward | noEntry | ptSize | deleted
  deriving DecidableEq

/-- The address of an entry that predicts nothing. -/
def noAddress : UInt64 := 0xdeadbeef

variable {σ : Type}

/-- The constructor. -/
def init : Scooby σ := ⟨[], none, 0, [], 0, []⟩

/-- The event happens. -/
def emit (s : Scooby σ) (e : Event σ) : Scooby σ := { s with log := s.log ++ [e] }

/-- Access to the entry of the tracker that a pointer names. -/
def update (s : Scooby σ) (id : ℕ) (f : PTEntry → PTEntry) : Scooby σ :=
  { s with prefetchTracker := s.prefetchTracker.map fun e => if e.id = id then f e else e }

/-- A read of a state. -/
def deref (s : Scooby σ) (state : ℕ) : Except Fault σ :=
  match s.states[state]? with
  | some (some st) => .ok st
  | _ => .error .deleted

/-- `delete` of a state. -/
def delete (s : Scooby σ) (state : ℕ) : Except Fault (Scooby σ) :=
  match s.states[state]? with
  | some (some _) => .ok { s with states := s.states.set state none }
  | _ => .error .deleted

/-- `search_pt`. -/
def searchPt (s : Scooby σ) (address : UInt64) (searchAll : Bool) : List PTEntry :=
  let found := s.prefetchTracker.filter (·.address = address)
  if searchAll then found else found.take 1

section
variable (k : Knobs σ)

/-! ## Rewards -/

/-- `compute_reward`. -/
def computeReward (s : Scooby σ) (type : RewardType) : Int32 :=
  if k.enableHbwReward && k.highBwThresh ≤ s.bwLevel.toUInt32 then k.rewardHbw type else k.reward type

/-- `assign_reward`. -/
def assignReward (s : Scooby σ) (e : PTEntry) (type : RewardType) : Except Fault PTEntry :=
  if e.hasReward then .error .hasReward
  else .ok { e with reward := computeReward k s type, rewardType := type, hasReward := true }

/-- `assign_reward` on an entry of the tracker. -/
def assignTracked (s : Scooby σ) (id : ℕ) (type : RewardType) : Except Fault (Scooby σ) :=
  match s.prefetchTracker.find? (·.id = id) with
  | none => .error .noEntry
  | some e => do
    let e ← assignReward k s e type
    return (s.update id fun _ => e).emit (.rewarded id type e.reward)

/-- The loop of `reward(address)` over the entries found: it returns at the first with a reward. -/
def rewardFound : List PTEntry → Scooby σ → Except Fault (Scooby σ)
  | [], s => .ok s
  | e :: ptentries, s =>
    if e.hasReward then .ok s
    else do
      let s ← assignTracked k s e.id (if e.isFilled then .correctTimely else .correctUntimely)
      rewardFound ptentries s

/-- `reward(address)`, on a demand. -/
def rewardDemand (s : Scooby σ) (address : UInt64) : Except Fault (Scooby σ) := do
  let s ← rewardFound k (s.searchPt address k.enableRewardAll) s
  return s.emit (.demand address)

/-- `reward(ptentry)`, on the training from an evicted entry. -/
def rewardEvicted (s : Scooby σ) (e : PTEntry) : Except Fault PTEntry :=
  if e.hasReward then .error .hasReward
  else assignReward k s e (if e.address = noAddress then .none else .incorrect)

/-! ## Training -/

/-- The call of `learn` of the engine that is enabled. -/
def learnCall (state1 : σ) (action1 : ℕ) (reward : Int32) (state2 : σ) (action2 : ℕ)
    (consensusVec : List Bool) (rewardType : RewardType) : LearnCall σ :=
  if k.enableFeaturewiseEngine then
    .featurewise state1 action1 reward state2 action2 consensusVec rewardType
  else .basic (k.value state1) action1 reward (k.value state2) action2

/-- `train`. -/
def train (s : Scooby σ) (currEvicted lastEvicted : PTEntry) : Except Fault (Scooby σ) := do
  let (s, last) ←
    if lastEvicted.hasReward then pure (s, lastEvicted)
    else do
      let last ← rewardEvicted k s lastEvicted
      pure (s.emit (.rewarded last.id last.rewardType last.reward), last)
  if last.hasReward then
    let state1 ← s.deref last.state
    let state2 ← s.deref currEvicted.state
    return s.emit (.learned (learnCall k state1 last.actionIndex last.reward state2
      currEvicted.actionIndex last.consensusVec last.rewardType))
  else .error .hasReward

/-- `track` on a full tracker: the oldest entry leaves, the one that left before it is learned from
and deleted. -/
def evict (s : Scooby σ) : Except Fault (Scooby σ) :=
  match s.prefetchTracker with
  | [] => .error .noEntry
  | e :: rest => do
    let s := { s with prefetchTracker := rest }.emit (.evicted e.id)
    let s ← match s.lastEvictedTracker with
      | none => pure s
      | some last => do
        let s ← train k s e last
        s.delete last.state
    return { s with lastEvictedTracker := some e }

/-- The entry is made and pushed. -/
def push (s : Scooby σ) (address : UInt64) (state : ℕ) (st : σ) (actionIndex : ℕ) : Scooby σ :=
  { s with
    prefetchTracker := s.prefetchTracker ++ [PTEntry.make s.made address state actionIndex]
    made := s.made + 1 }.emit (.created address st actionIndex)

/-- `track`, with the pointer to the entry if it makes one. -/
def track (s : Scooby σ) (address : UInt64) (state : ℕ) (st : σ) (actionIndex : ℕ) :
    Except Fault (Scooby σ × Bool × Option ℕ) :=
  let newAddr := (s.searchPt address false).isEmpty
  if !newAddr && address ≠ noAddress && !k.enableTrackMultiple then .ok (s, newAddr, none)
  else do
    let s ← if k.ptSize ≤ s.prefetchTracker.length then evict k s else pure s
    let id := s.made
    let s := s.push address state st actionIndex
    if s.prefetchTracker.length ≤ k.ptSize then return (s, newAddr, some id)
    else .error .ptSize

/-! ## Predictions -/

/-- `gen_multi_degree_pref`, from `degree` on: the blocks of the page it prefetches. -/
def genMultiDegreePref (page : UInt64) (offset : UInt32) (action : Int32) :
    ℕ → UInt32 → List UInt64
  | 0, _ => []
  | n + 1, degree =>
    let predictedOffset := (offset + degree * action.toUInt32).toInt32
    let rest := genMultiDegreePref page offset action n (degree + 1)
    if inPage predictedOffset then blockAddr page predictedOffset :: rest else rest

/-- `track(0xdeadbeef)`, with a reward at once where the type is given. -/
def trackNothing (s : Scooby σ) (state : ℕ) (st : σ) (choice : Choice k)
    (type : Option RewardType) : Except Fault (Scooby σ) := do
  let (s, _, ptentry) ← track k s noAddress state st choice.actionIndex
  match ptentry with
  | none => .error .noEntry
  | some id =>
    let s ← match type with
      | none => pure s
      | some type => assignTracked k s id type
    return s.update id fun e => { e with consensusVec := choice.vec }

/-- `predict` behind `track` of a new address: it is prefetched, with more blocks in its direction
where the degree says so. -/
def issue (s : Scooby σ) (page : UInt64) (offset : UInt32) (action : Int32) (addr : UInt64)
    (choice : Choice k) (id : ℕ) : Scooby σ :=
  let s := s.emit (.prefetched addr)
  let s := if 1 < choice.prefDegree then
      (genMultiDegreePref page offset action (choice.prefDegree - 1) 2).foldl
        (fun s addr => s.emit (.prefetched addr)) s
    else s
  s.update id fun e => { e with consensusVec := choice.vec }

/-- `predict`. -/
def predict (s : Scooby σ) (page : UInt64) (offset : UInt32) (state : ℕ) (st : σ)
    (choice : Choice k) : Except Fault (Scooby σ) :=
  let action := k.actions.get choice.actionIndex
  if action ≠ 0 then
    let predictedOffset := offset.toInt32 + action
    if inPage predictedOffset then do
      let addr := blockAddr page predictedOffset
      let (s, newAddr, ptentry) ← track k s addr state st choice.actionIndex
      if newAddr then
        match ptentry with
        | none => .error .noEntry
        | some id => return issue k s page offset action addr choice id
      else if k.enableRewardTrackerHit then trackNothing k s state st choice (some .trackerHit)
      else return s
    else if k.enableRewardOutOfBounds then trackNothing k s state st choice (some .outOfBounds)
    else return s
  else trackNothing k s state st choice none

/-! ## Calls -/

/-- A call of the prefetcher. An access comes with the state that is measured and with the answer of
the engine. -/
inductive Call
  | invokePrefetcher (address : UInt64) (state : σ) (choice : Choice k)
  | registerFill (address : UInt64)
  | registerPrefetchHit (address : UInt64)
  | updateBw (level : UInt8)

/-- `invoke_prefetcher`. -/
def invokePrefetcher (s : Scooby σ) (address : UInt64) (st : σ) (choice : Choice k) :
    Except Fault (Scooby σ) := do
  let s ← rewardDemand k s address
  let state := s.states.length
  predict k { s with states := s.states ++ [some st] } (pageOf address) (offsetOf address) state st
    choice

/-- `register_fill`. -/
def registerFill (s : Scooby σ) (address : UInt64) : Scooby σ :=
  (s.searchPt address k.enableRewardAll).foldl
    (fun s e => s.update e.id fun e => { e with isFilled := true }) (s.emit (.fill address))

/-- `register_prefetch_hit`. -/
def registerPrefetchHit (s : Scooby σ) (address : UInt64) : Scooby σ :=
  (s.searchPt address k.enableRewardAll).foldl
    (fun s e => s.update e.id fun e => { e with pfCacheHit := true }) s

/-- A call. -/
def call (s : Scooby σ) : Call k → Except Fault (Scooby σ)
  | .invokePrefetcher address st choice => invokePrefetcher k s address st choice
  | .registerFill address => .ok (registerFill k s address)
  | .registerPrefetchHit address => .ok (registerPrefetchHit k s address)
  | .updateBw level => .ok { s with bwLevel := level }

/-- A run, call by call. -/
def run : Scooby σ → List (Call k) → Except Fault (Scooby σ)
  | s, [] => .ok s
  | s, c :: calls => do
    let s ← call k s c
    run s calls

end

end Scooby

end Arishem
