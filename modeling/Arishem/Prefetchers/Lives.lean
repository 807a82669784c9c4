import Arishem.Prefetchers.Scooby

/-!
# The lives of the entries

What becomes of an entry is told by the events alone: its address, state and action, the demands and
fills that touched its address while it was in the tracker, whether another entry of the tracker held
that address meanwhile, and the rewards it was assigned. The pipeline is right if the calls of
`learn` are those of the consecutive pairs of lives.
-/

namespace Arishem

namespace Scooby

/-- What touches an address. -/
inductive Touch
  | demand | fill
  deriving DecidableEq

/-- The life of an entry. -/
structure Life (σ : Type) where
  address : UInt64
  state : σ
  actionIndex : ℕ
  /-- No other entry of the tracker has held the address. -/
  alone : Bool
  /-- The touches of the address during the stay in the tracker. -/
  touches : List Touch
  rewards : List (RewardType × Int32)
  /-- The stay is over. -/
  evicted : Bool

variable {σ : Type}

namespace Life

/-- The entry is in the tracker and holds the address. -/
def holds (address : UInt64) (l : Life σ) : Bool := !l.evicted && l.address = address

/-- The address is touched. -/
def touch (address : UInt64) (t : Touch) (l : Life σ) : Life σ :=
  if l.holds address then { l with touches := l.touches ++ [t] } else l

/-- An entry with the address comes into the tracker. -/
def meet (address : UInt64) (l : Life σ) : Life σ :=
  if l.holds address then { l with alone := false } else l

/-- The stay is over. -/
def evict (l : Life σ) : Life σ := { l with evicted := true }

/-- A reward is assigned. -/
def reward (type : RewardType) (r : Int32) (l : Life σ) : Life σ :=
  { l with rewards := l.rewards ++ [(type, r)] }

/-- The rewards are fair: an incorrect prediction saw no demand, a timely one a fill before the first
demand. This is asked of an entry that holds its address alone. -/
def Fair (l : Life σ) : Prop :=
  l.alone = true →
    (∀ r, (RewardType.incorrect, r) ∈ l.rewards → Touch.demand ∉ l.touches) ∧
    ∀ r, (RewardType.correctTimely, r) ∈ l.rewards →
      Touch.fill ∈ l.touches.takeWhile (· ≠ Touch.demand)

end Life

/-- What an event does to the lives. -/
def record (ls : List (Life σ)) : Event σ → List (Life σ)
  | .demand address => ls.map (Life.touch address .demand)
  | .fill address => ls.map (Life.touch address .fill)
  | .created address state actionIndex =>
    ls.map (Life.meet address) ++
      [⟨address, state, actionIndex, !ls.any (Life.holds address), [], [], false⟩]
  | .evicted id => ls.modify id Life.evict
  | .rewarded id type reward => ls.modify id (Life.reward type reward)
  | .prefetched _ => ls
  | .learned _ => ls

/-- The lives of the entries, in the order in which `track` made them. -/
def lives (log : List (Event σ)) : List (Life σ) := log.foldl record []

/-- The calls of `learn`. -/
def learns (log : List (Event σ)) : List (LearnCall σ) :=
  log.filterMap fun
    | .learned call => some call
    | _ => none

/-- The call is the one for the entry and the one behind it: both have left the tracker, the first
has its reward. -/
def Learns (k : Knobs σ) (ls : List (Life σ)) (n : ℕ) (call : LearnCall σ) : Prop :=
  ∃ l l' type reward consensusVec, ls[n]? = some l ∧ ls[n + 1]? = some l' ∧ l.evicted = true ∧
    l'.evicted = true ∧ l.rewards = [(type, reward)] ∧
    call = learnCall k l.state l.actionIndex reward l'.state l'.actionIndex consensusVec type

/-- The pipeline is right: the tracker is not too large, `learn` is called for each consecutive pair
that has left the tracker, in order, and rewards are given once and are fair. -/
structure Sound (k : Knobs σ) (s : Scooby σ) : Prop where
  size : s.prefetchTracker.length ≤ k.ptSize
  learned : ∀ before call after, s.log = before ++ .learned call :: after →
    Learns k (lives before) (learns before).length call
  learns_iff : ∀ n, n < (learns s.log).length ↔
    ∃ l l', (lives s.log)[n]? = some l ∧ (lives s.log)[n + 1]? = some l' ∧ l.evicted = true ∧
      l'.evicted = true
  rewards_le : ∀ l ∈ lives s.log, l.rewards.length ≤ 1
  fair : ∀ l ∈ lives s.log, l.Fair

/-! ## The lives behind an event -/

theorem lives_snoc (log : List (Event σ)) (e : Event σ) :
    lives (log ++ [e]) = record (lives log) e := by simp [lives]

theorem learns_snoc_learned (log : List (Event σ)) (call : LearnCall σ) :
    learns (log ++ [Event.learned call]) = learns log ++ [call] := by simp [learns]

/-- No call of `learn`. -/
def Event.Silent : Event σ → Prop
  | .learned _ => False
  | _ => True

theorem learns_snoc_silent (log : List (Event σ)) {e : Event σ} (h : e.Silent) :
    learns (log ++ [e]) = learns log := by
  cases e with
  | learned => exact h.elim
  | _ => simp [learns]

@[simp] theorem Life.touch_evicted (address : UInt64) (t : Touch) (l : Life σ) :
    (l.touch address t).evicted = l.evicted := by
  unfold Life.touch
  split <;> rfl

@[simp] theorem Life.touch_alone (address : UInt64) (t : Touch) (l : Life σ) :
    (l.touch address t).alone = l.alone := by
  unfold Life.touch
  split <;> rfl

@[simp] theorem Life.touch_rewards (address : UInt64) (t : Touch) (l : Life σ) :
    (l.touch address t).rewards = l.rewards := by
  unfold Life.touch
  split <;> rfl

@[simp] theorem Life.meet_evicted (address : UInt64) (l : Life σ) :
    (l.meet address).evicted = l.evicted := by
  unfold Life.meet
  split <;> rfl

@[simp] theorem Life.meet_rewards (address : UInt64) (l : Life σ) :
    (l.meet address).rewards = l.rewards := by
  unfold Life.meet
  split <;> rfl

theorem Life.alone_of_meet {address : UInt64} {l : Life σ} (h : (l.meet address).alone = true) :
    l.alone = true ∧ l.meet address = l := by
  unfold Life.meet at h ⊢
  split at h
  · cases h
  · rename_i hholds
    exact ⟨h, if_neg hholds⟩

theorem mem_takeWhile_append {α : Type} {p : α → Bool} {x : α} {xs : List α}
    (h : x ∈ xs.takeWhile p) (ys : List α) : x ∈ (xs ++ ys).takeWhile p := by
  rw [List.takeWhile_append]
  split
  · exact List.mem_append_left _ ((List.takeWhile_sublist p).subset h)
  · exact h

/-- Touches of a fair life. A demand may only touch a life without an incorrect reward. -/
theorem Life.Fair.touch {l : Life σ} (h : l.Fair) {address : UInt64} {t : Touch}
    (ht : t = .demand → l.holds address = true → l.alone = true →
      ∀ r, (RewardType.incorrect, r) ∉ l.rewards) : (l.touch address t).Fair := by
  unfold Life.touch
  split
  · rename_i hholds
    intro halone
    obtain ⟨hincorrect, htimely⟩ := h halone
    refine ⟨fun r hr hmem => ?_, fun r hr => ?_⟩
    · rcases List.mem_append.1 hmem with hmem | hmem
      · exact hincorrect r hr hmem
      · exact ht (List.mem_singleton.1 hmem).symm hholds halone r hr
    · exact mem_takeWhile_append (htimely r hr) _
  · exact h

theorem Life.Fair.meet {l : Life σ} (h : l.Fair) (address : UInt64) : (l.meet address).Fair := by
  intro halone
  obtain ⟨halone, hsame⟩ := Life.alone_of_meet halone
  rw [hsame]
  exact h halone

end Scooby

end Arishem
