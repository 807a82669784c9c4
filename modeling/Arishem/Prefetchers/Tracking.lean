import Arishem.Prefetchers.Rewards

/-!
# Tracking

`track` makes an entry and, when the tracker is full, evicts one and trains the agent. It faults
nowhere as long as the entries refer to states of their own.
-/

namespace Arishem

namespace Scooby

variable {σ : Type}

section
variable {k : Knobs σ} {s s' : Scooby σ} {e last : PTEntry} {rest : List PTEntry} {st st' : σ}

/-! ## Eviction -/

/-- The oldest entry leaves the tracker, and the one that left before it is closed. -/
theorem Inv.leave (h : Inv k s) (htracker : s.prefetchTracker = e :: rest)
    (htracker' : s'.prefetchTracker = rest) (hlast : s'.lastEvictedTracker = some e)
    (hmade : s'.made = s.made)
    (hstates : ∀ x ∈ e :: rest, s'.states[x.state]? = s.states[x.state]?)
    (hlength : (lives s'.log).length = (lives s.log).length)
    (hleft : (lives s'.log)[e.id]? = ((lives s.log)[e.id]?).map Life.evict)
    (hother : ∀ n, n ≠ e.id → n + 1 ≠ s.gone → (lives s'.log)[n]? = (lives s.log)[n]?)
    (hclosed : ∀ n l, n + 1 = s.gone → (lives s'.log)[n]? = some l →
      l.evicted = true ∧ l.rewards.length = 1 ∧ l.Fair)
    (hlearns : (learns s'.log).length = s.gone)
    (hlearned : ∀ before call after, s'.log = before ++ .learned call :: after →
      Learns k (lives before) (learns before).length call) : Inv k s' := by
  have hsize := h.size
  have hfits := h.fits
  have hids := h.ids
  have hrefs : (s.lastEvictedTracker.toList.map (·.state) ++ (e :: rest).map (·.state)).Nodup := by
    have hnodup := h.refs_nodup
    simpa only [refs, held, htracker, List.map_append] using hnodup
  have hgone : s'.gone = s.gone + 1 := by
    unfold gone
    rw [hmade, htracker', htracker]
    rw [htracker] at hfits
    simp only [List.length_cons] at hfits ⊢
    omega
  rw [htracker, List.map_cons, List.length_cons, List.range'_succ] at hids
  obtain ⟨hid, hids⟩ := List.cons.inj hids
  have hrest : ∀ x ∈ rest, s.gone < x.id := by
    intro x hx
    have hmem : x.id ∈ rest.map (·.id) := List.mem_map_of_mem hx
    rw [hids, List.mem_range'_1] at hmem
    omega
  have hkept : ∀ x ∈ rest, (lives s'.log)[x.id]? = (lives s.log)[x.id]? := by
    intro x hx
    have hlt := hrest x hx
    exact hother _ (by omega) (by omega)
  have hmem : ∀ x ∈ rest, x ∈ s.prefetchTracker := by
    intro x hx
    rw [htracker]
    exact .tail _ hx
  have he : e ∈ s.prefetchTracker := by
    rw [htracker]
    exact .head _
  refine ⟨?_, ?_, ?_, ?_, ?_, ?_, ?_, ?_, ?_, ?_, ?_, ?_, hlearned, ?_⟩
  · rw [htracker', ← Nat.succ_le_succ_iff]
    rw [htracker, List.length_cons] at hsize
    omega
  · rw [hlength, hmade]
    exact h.made
  · rw [htracker', hmade]
    rw [htracker, List.length_cons] at hfits
    omega
  · rw [htracker', hgone]
    exact hids
  · intro x hx
    rw [htracker'] at hx
    obtain ⟨l, hl, hlive, ht⟩ := h.tracked x (hmem x hx)
    refine ⟨l, (hkept x hx).trans hl, hlive, { ht with state := ?_ }⟩
    rw [hstates x (.tail _ hx)]
    exact ht.state
  · intro x hx
    rw [htracker'] at hx
    exact h.blameless x (hmem x hx)
  · intro n l hl hn
    rw [hgone] at hn
    by_cases hne : n = e.id
    · rw [hne, hleft, Option.map_eq_some_iff] at hl
      obtain ⟨l₀, -, rfl⟩ := hl
      rfl
    · by_cases hclose : n + 1 = s.gone
      · exact (hclosed n l hclose hl).1
      · rw [hother n hne hclose] at hl
        exact h.departed n l hl (by omega)
  · intro hnone
    rw [hlast] at hnone
    cases hnone
  · intro x hx
    obtain rfl : e = x := by simpa [hlast] using hx
    obtain ⟨l, hl, -, ht⟩ := h.tracked e he
    refine ⟨by rw [hgone]; omega, l.evict, by rw [hleft, hl]; rfl, ?_⟩
    refine ⟨ht.address, ?_, ht.actionIndex, ht.rewards, ht.demanded, ht.filled, ht.fair⟩
    rw [hstates e (.head _)]
    exact ht.state
  · intro n l hl hn
    rw [hgone] at hn
    by_cases hclose : n + 1 = s.gone
    · exact (hclosed n l hclose hl).2
    · rw [hother n (by omega) hclose] at hl
      exact h.trained n l hl (by omega)
  · rw [hlearns, hgone]
    rfl
  · intro x hx y hy hne haddr l hl
    rw [htracker'] at hx hy
    rw [hkept x hx] at hl
    exact h.alone x (hmem x hx) y (hmem y hy) hne haddr l hl
  · have hnodup := (List.nodup_append.1 hrefs).2.1
    simpa only [refs, held, hlast, htracker', Option.toList_some, List.singleton_append] using hnodup

/-- `train` from an entry with a reward. -/
theorem train_rewarded (hst : s.states[last.state]? = some (some st))
    (hst' : s.states[e.state]? = some (some st')) (hreward : last.hasReward = true) :
    train k s e last = .ok (s.emit (.learned (learnCall k st last.actionIndex last.reward st'
      e.actionIndex last.consensusVec last.rewardType))) := by
  simp only [train, hreward, if_true, deref, hst, hst', bind, pure, Except.bind, Except.pure]

/-- `train` from an entry without a reward: it gets one first. -/
theorem train_unrewarded (hst : s.states[last.state]? = some (some st))
    (hst' : s.states[e.state]? = some (some st')) (hreward : last.hasReward = false) :
    ∃ type r, (type = .none ∨ type = .incorrect) ∧ train k s e last =
      .ok ((s.emit (.rewarded last.id type r)).emit (.learned (learnCall k st last.actionIndex r
        st' e.actionIndex last.consensusVec type))) := by
  refine ⟨if last.address = noAddress then .none else .incorrect, computeReward k s
    (if last.address = noAddress then .none else .incorrect), by split <;> simp, ?_⟩
  simp only [train, rewardEvicted, assignReward, hreward, deref, hst, hst', bind, pure, Except.bind,
    Except.pure, emit, Bool.false_eq_true, if_false, if_true]

/-- What an eviction leaves as it is. -/
structure Evicts (s : Scooby σ) (e : PTEntry) (rest : List PTEntry) (s' : Scooby σ) : Prop where
  tracker : s'.prefetchTracker = rest
  last : s'.lastEvictedTracker = some e
  made : s'.made = s.made
  length : s'.states.length = s.states.length
  states : ∀ r, (∀ x ∈ s.lastEvictedTracker, x.state ≠ r) → s'.states[r]? = s.states[r]?

theorem Inv.head_id (h : Inv k s) (htracker : s.prefetchTracker = e :: rest) : e.id = s.gone := by
  have hids := h.ids
  rw [htracker, List.map_cons, List.length_cons, List.range'_succ] at hids
  exact (List.cons.inj hids).1

/-- The entry that left the tracker last is learned from and deleted. -/
theorem Inv.close (h : Inv k s) (htracker : s.prefetchTracker = e :: rest)
    (hlast : s.lastEvictedTracker = some last) {l l₀ l₁ : Life σ}
    (hl : (lives s.log)[e.id]? = some l) (ht : Tracks s e l) (ht₀ : Tracks s last l₀)
    {log : List (Event σ)} {type : RewardType} {r : Int32}
    (hlearns : learns log = learns s.log) (hlength : (lives log).length = (lives s.log).length)
    (hleft : (lives log)[e.id]? = some l.evict) (hclosed : (lives log)[last.id]? = some l₁)
    (hother : ∀ n, n ≠ e.id → n ≠ last.id → (lives log)[n]? = (lives s.log)[n]?)
    (hstate : l₁.state = l₀.state) (haction : l₁.actionIndex = l₀.actionIndex)
    (hover : l₁.evicted = true) (hrewards : l₁.rewards = [(type, r)]) (hfair : l₁.Fair)
    (hlearned : ∀ before call after, log = before ++ .learned call :: after →
      Learns k (lives before) (learns before).length call) :
    Inv k { s with
      prefetchTracker := rest
      lastEvictedTracker := some e
      states := s.states.set last.state none
      log := log ++ [Event.learned (learnCall k l₀.state last.actionIndex r l.state e.actionIndex
        last.consensusVec type)] } := by
  obtain ⟨hlastid, -⟩ := h.last_some last hlast
  have hid := h.head_id htracker
  have hdistinct : ∀ x ∈ e :: rest, last.state ≠ x.state := by
    intro x hx heq
    have hnodup := h.refs_nodup
    rw [refs, held, hlast, htracker, Option.toList_some, List.singleton_append, List.map_cons,
      List.nodup_cons] at hnodup
    exact hnodup.1 (heq ▸ List.mem_map_of_mem hx)
  have hlives : ∀ call, lives (log ++ [Event.learned call]) = lives log :=
    fun call => lives_snoc _ _
  have hcount : (learns log).length = last.id := by
    rw [hlearns, h.learns_length]
    omega
  refine h.leave htracker rfl rfl rfl (fun x hx => List.getElem?_set_ne (hdistinct x hx)) ?_ ?_ ?_
    ?_ ?_ (learned_snoc hlearned fun call hcall => ?_)
  · rw [hlives]
    exact hlength
  · rw [hlives, hleft, hl]
    rfl
  · intro n hne hclose
    rw [hlives]
    exact hother n hne (by omega)
  · intro n l' hn hl'
    obtain rfl : n = last.id := by omega
    rw [hlives, hclosed] at hl'
    cases hl'
    exact ⟨hover, by rw [hrewards]; rfl, hfair⟩
  · rw [learns_snoc_learned, List.length_append, hcount]
    exact hlastid
  · cases hcall
    refine ⟨l₁, l.evict, type, r, last.consensusVec, by rw [hcount]; exact hclosed, ?_, hover, rfl,
      hrewards, ?_⟩
    · rw [hcount, hlastid, ← hid]
      exact hleft
    · rw [hstate, haction, ht₀.actionIndex]
      show _ = learnCall k l₀.state last.actionIndex r l.state l.actionIndex last.consensusVec type
      rw [ht.actionIndex]

/-- The block of `track` that evicts ends without a fault. -/
theorem Inv.evict_spec (h : Inv k s) (htracker : s.prefetchTracker = e :: rest) :
    ∃ s', evict k s = .ok s' ∧ Inv k s' ∧ Evicts s e rest s' := by
  have he : e ∈ s.prefetchTracker := by
    rw [htracker]
    exact .head _
  obtain ⟨l, hl, hlive, ht⟩ := h.tracked e he
  have hid := h.head_id htracker
  have hleft : lives (s.log ++ [Event.evicted e.id]) = (lives s.log).modify e.id Life.evict :=
    lives_snoc _ _
  have hlearns : learns (s.log ++ [Event.evicted e.id]) = learns s.log :=
    learns_snoc_silent _ (by trivial)
  have hkeep : ∀ n, n ≠ e.id → (lives (s.log ++ [Event.evicted e.id]))[n]? = (lives s.log)[n]? := by
    intro n hn
    rw [hleft, List.getElem?_modify_ne _ _ (Ne.symm hn)]
  have hleft' : (lives (s.log ++ [Event.evicted e.id]))[e.id]? = some l.evict := by
    rw [hleft, List.getElem?_modify_eq, hl]
    rfl
  have hlength : (lives (s.log ++ [Event.evicted e.id])).length = (lives s.log).length := by
    rw [hleft, List.length_modify]
  have hsilent : ∀ call, Event.evicted e.id = .learned call →
      Learns k (lives s.log) (learns s.log).length call := fun _ hev => by cases hev
  have hlearned := learned_snoc h.learned hsilent
  cases hlast : s.lastEvictedTracker with
  | none =>
    have hzero := h.last_none hlast
    refine ⟨{ s with
        prefetchTracker := rest
        lastEvictedTracker := some e
        log := s.log ++ [Event.evicted e.id] }, ?_, ?_, rfl, rfl, rfl, rfl, fun _ _ => rfl⟩
    · simp only [evict, htracker, hlast, emit]
      rfl
    · refine h.leave htracker rfl rfl rfl (fun _ _ => rfl) hlength ?_ (fun n hne _ => hkeep n hne)
        (fun n _ hn => by omega) ?_ hlearned
      · rw [hleft', hl]
        rfl
      · rw [hlearns, h.learns_length, hzero]
  | some last =>
    obtain ⟨hlastid, l₀, hl₀, ht₀⟩ := h.last_some last hlast
    have hover : l₀.evicted = true := h.departed _ _ hl₀ (by omega)
    have hlast' : (lives (s.log ++ [Event.evicted e.id]))[last.id]? = some l₀ := by
      rw [hkeep _ (by omega), hl₀]
    have hfresh : ∀ r, (∀ x ∈ s.lastEvictedTracker, x.state ≠ r) →
        (s.states.set last.state none)[r]? = s.states[r]? :=
      fun r hr => List.getElem?_set_ne (hr last (by rw [hlast]; rfl))
    cases hreward : last.hasReward with
    | true =>
      have hrewards : l₀.rewards = [(last.rewardType, last.reward)] := by
        rw [ht₀.rewards, hreward]
        rfl
      refine ⟨_, ?_, h.close htracker hlast hl ht ht₀ hlearns hlength hleft' hlast'
        (fun n hne _ => hkeep n hne) rfl rfl hover hrewards ht₀.fair hlearned, rfl, rfl, rfl,
        List.length_set, hfresh⟩
      have htrain := train_rewarded (k := k) (e := e)
        (s := { s with
          prefetchTracker := rest
          log := s.log ++ [Event.evicted e.id] }) ht₀.state ht.state hreward
      simp only [hlast] at htrain
      simp only [evict, htracker, hlast, emit, htrain, delete, ht₀.state, bind, pure, Except.bind,
        Except.pure]
    | false =>
      obtain ⟨type, r, htype, htrain⟩ := train_unrewarded (k := k) (e := e)
        (s := { s with
          prefetchTracker := rest
          log := s.log ++ [Event.evicted e.id] }) ht₀.state ht.state hreward
      have hreward' : lives (s.log ++ [Event.evicted e.id] ++ [Event.rewarded last.id type r]) =
          (lives (s.log ++ [Event.evicted e.id])).modify last.id (Life.reward type r) :=
        lives_snoc _ _
      have hkeep' : ∀ n, n ≠ last.id → (lives (s.log ++ [Event.evicted e.id] ++
          [Event.rewarded last.id type r]))[n]? = (lives (s.log ++ [Event.evicted e.id]))[n]? := by
        intro n hn
        rw [hreward', List.getElem?_modify_ne _ _ (Ne.symm hn)]
      have hnone : l₀.rewards = [] := by
        rw [ht₀.rewards, hreward]
        rfl
      have hrewards : (l₀.reward type r).rewards = [(type, r)] := by simp [Life.reward, hnone]
      have ht₁ : Tracks s (last.withReward type r) (l₀.reward type r) :=
        ht₀.withReward hreward (fun halone _ hmem => by
          have hdemanded := ht₀.demanded halone hmem
          rw [hreward] at hdemanded
          cases hdemanded) (fun heq => by rcases htype with rfl | rfl <;> cases heq) r rfl
      refine ⟨_, ?_, h.close htracker hlast hl ht ht₀
        ((learns_snoc_silent _ (by trivial)).trans hlearns) ?_ ?_ ?_ ?_
        (rfl : (l₀.reward type r).state = l₀.state) rfl hover
        hrewards ht₁.fair (learned_snoc hlearned
          fun call (hev : Event.rewarded last.id type r = .learned call) => by cases hev),
        rfl, rfl, rfl, List.length_set, hfresh⟩
      · simp only [hlast] at htrain
        simp only [evict, htracker, hlast, emit, htrain, delete, ht₀.state, bind, pure, Except.bind,
          Except.pure]
      · rw [hreward', List.length_modify, hlength]
      · rw [hkeep' _ (by omega), hleft']
      · rw [hreward', List.getElem?_modify_eq, hlast']
        rfl
      · intro n hne hne'
        rw [hkeep' _ hne', hkeep _ hne]

/-! ## New entries -/

/-- An entry goes on to agree with its life when another one comes. -/
theorem Tracks.meet {l : Life σ} (h : Tracks s e l) (address : UInt64)
    (hstates : s'.states = s.states) : Tracks s' e (l.meet address) := by
  have hkept : (l.meet address).address = l.address ∧ (l.meet address).state = l.state ∧
      (l.meet address).actionIndex = l.actionIndex := by
    unfold Life.meet
    split <;> exact ⟨rfl, rfl, rfl⟩
  obtain ⟨haddr, hst, haction⟩ := hkept
  refine ⟨haddr.trans h.address, by rw [hst, hstates]; exact h.state,
    haction.trans h.actionIndex, by rw [Life.meet_rewards]; exact h.rewards, fun halone => ?_,
    fun halone => ?_, h.fair.meet address⟩
  · obtain ⟨halone, hsame⟩ := Life.alone_of_meet halone
    rw [hsame]
    exact h.demanded halone
  · obtain ⟨halone, hsame⟩ := Life.alone_of_meet halone
    rw [hsame]
    exact h.filled halone

section
variable {address : UInt64} {state actionIndex : ℕ}

theorem lives_push : lives (s.push address state st actionIndex).log =
    (lives s.log).map (Life.meet address) ++
      [⟨address, st, actionIndex, !(lives s.log).any (Life.holds address), [], [], false⟩] :=
  lives_snoc _ _

theorem mem_push {x : PTEntry} :
    x ∈ (s.push address state st actionIndex).prefetchTracker ↔
      x ∈ s.prefetchTracker ∨ x = PTEntry.make s.made address state actionIndex := by
  simp [push, emit]

/-- The lives that there are go on. -/
theorem getElem?_lives_push {n : ℕ} {l : Life σ} (hl : (lives s.log)[n]? = some l) :
    (lives (s.push address state st actionIndex).log)[n]? = some (l.meet address) := by
  have hlt : n < (lives s.log).length := (List.getElem?_eq_some_iff.1 hl).1
  rw [lives_push, List.getElem?_append_left (by rw [List.length_map]; exact hlt),
    List.getElem?_map, hl]
  rfl

theorem Inv.gone_push (h : Inv k s) : (s.push address state st actionIndex).gone = s.gone := by
  have hfits := h.fits
  simp only [gone, push, emit, List.length_append, List.length_singleton]
  omega

/-- The life of the new entry. -/
theorem Inv.getElem?_lives_push_made (h : Inv k s) :
    (lives (s.push address state st actionIndex).log)[s.made]? =
      some ⟨address, st, actionIndex, !(lives s.log).any (Life.holds address), [], [], false⟩ := by
  rw [lives_push, List.getElem?_append_right (by rw [List.length_map, h.made]), List.length_map,
    h.made, Nat.sub_self]
  rfl

/-- A life other than the new one was there before. -/
theorem Inv.life_of_push (h : Inv k s) {n : ℕ} {l : Life σ}
    (hl : (lives (s.push address state st actionIndex).log)[n]? = some l) (hn : n < s.made) :
    ∃ l₀, (lives s.log)[n]? = some l₀ ∧ l = l₀.meet address := by
  rw [← h.made] at hn
  rw [getElem?_lives_push (List.getElem?_eq_getElem hn)] at hl
  exact ⟨_, List.getElem?_eq_getElem hn, (Option.some.inj hl).symm⟩

/-- The life of a tracked entry holds its address. -/
theorem Tracks.holds {l : Life σ} (h : Tracks s e l) (hlive : l.evicted = false) :
    l.holds e.address = true := by
  simp [Life.holds, hlive, h.address]

/-- The identifiers of the tracked entries go on in order. -/
theorem Inv.ids_push (h : Inv k s) :
    (s.push address state st actionIndex).prefetchTracker.map (·.id) =
      List.range' s.gone (s.push address state st actionIndex).prefetchTracker.length := by
  have hfits := h.fits
  have hnext : s.made = s.gone + 1 * s.prefetchTracker.length := by
    unfold gone
    omega
  simp only [push, emit, List.map_append, h.ids, List.length_append, List.length_singleton,
    List.range'_concat]
  rw [← hnext]
  rfl

/-- The entries agree with their lives, the new one with a life of its own. -/
theorem Inv.tracked_push (h : Inv k s) (hstate : s.states[state]? = some (some st)) {x : PTEntry}
    (hx : x ∈ (s.push address state st actionIndex).prefetchTracker) :
    ∃ l, (lives (s.push address state st actionIndex).log)[x.id]? = some l ∧ l.evicted = false ∧
      Tracks (s.push address state st actionIndex) x l := by
  rcases mem_push.1 hx with hx | rfl
  · obtain ⟨l, hl, hlive, ht⟩ := h.tracked x hx
    exact ⟨l.meet address, getElem?_lives_push hl, by rw [Life.meet_evicted]; exact hlive,
      ht.meet address rfl⟩
  · refine ⟨_, h.getElem?_lives_push_made, rfl, rfl, hstate, rfl, rfl, fun _ hd => ?_,
      fun _ hf => ?_, fun _ => ?_⟩
    · exact absurd hd List.not_mem_nil
    · exact absurd hf Bool.false_ne_true
    · exact ⟨fun _ hr => absurd hr List.not_mem_nil, fun _ hr => absurd hr List.not_mem_nil⟩

/-- Two entries for one address know of each other: the new one meets those that are there. -/
theorem Inv.alone_push (h : Inv k s) {x y : PTEntry}
    (hx : x ∈ (s.push address state st actionIndex).prefetchTracker)
    (hy : y ∈ (s.push address state st actionIndex).prefetchTracker) (hne : x.id ≠ y.id)
    (haddr : x.address = y.address) {l : Life σ}
    (hl : (lives (s.push address state st actionIndex).log)[x.id]? = some l) :
    l.alone = false := by
  rcases mem_push.1 hx with hx | rfl
  · obtain ⟨l₀, hl₀, hlive, ht⟩ := h.tracked x hx
    obtain rfl : l₀.meet address = l := by
      rw [getElem?_lives_push hl₀] at hl
      exact Option.some.inj hl
    rcases mem_push.1 hy with hy | rfl
    · have hfalse := h.alone x hx y hy hne haddr l₀ hl₀
      unfold Life.meet
      split
      · rfl
      · exact hfalse
    · have hholds : l₀.holds address = true := by
        have haddr' : x.address = address := haddr
        exact haddr' ▸ ht.holds hlive
      simp [Life.meet, hholds]
  · rcases mem_push.1 hy with hy | rfl
    · obtain ⟨l₀, hl₀, hlive, ht⟩ := h.tracked y hy
      have hholds : l₀.holds address = true := by
        have haddr' : y.address = address := haddr.symm
        exact haddr' ▸ ht.holds hlive
      have hany : (lives s.log).any (Life.holds address) = true :=
        List.any_eq_true.2 ⟨l₀, List.mem_of_getElem? hl₀, hholds⟩
      have hl' : (lives (s.push address state st actionIndex).log)[s.made]? = some l := hl
      rw [h.getElem?_lives_push_made, hany] at hl'
      cases hl'
      rfl
    · exact absurd rfl hne

theorem Inv.refs_nodup_push (h : Inv k s) (hfresh : state ∉ s.refs) :
    (s.push address state st actionIndex).refs.Nodup := by
  have hrefs : (s.push address state st actionIndex).refs = s.refs ++ [state] := by
    simp [refs, held, push, emit, PTEntry.make]
  rw [hrefs, List.nodup_append]
  refine ⟨h.refs_nodup, List.nodup_singleton _, fun a ha b hb hab => ?_⟩
  rw [List.mem_singleton] at hb
  exact hfresh (hb ▸ hab ▸ ha)

/-- An entry is made while the tracker is not full. -/
theorem Inv.push_spec (h : Inv k s) (hroom : s.prefetchTracker.length < k.ptSize)
    (hstate : s.states[state]? = some (some st)) (hfresh : state ∉ s.refs) :
    Inv k (s.push address state st actionIndex) := by
  have hlt : ∀ n, n < s.gone → n < s.made := by
    intro n hn
    unfold gone at hn
    omega
  refine ⟨?_, ?_, ?_, ?_, fun x => h.tracked_push hstate, ?_, ?_, ?_, ?_, ?_, ?_,
    fun x hx y hy hne haddr l => h.alone_push hx hy hne haddr, ?_, h.refs_nodup_push hfresh⟩
  · simpa [push, emit] using Nat.succ_le_of_lt hroom
  · rw [lives_push, List.length_append, List.length_map, h.made]
    rfl
  · have hfits := h.fits
    simpa [push, emit] using hfits
  · rw [h.gone_push]
    exact h.ids_push
  · intro x hx
    rcases mem_push.1 hx with hx | rfl
    · exact h.blameless x hx
    · simp [PTEntry.make]
  · intro n l hl hn
    rw [h.gone_push] at hn
    obtain ⟨l₀, hl₀, rfl⟩ := h.life_of_push hl (hlt n hn)
    rw [Life.meet_evicted]
    exact h.departed n l₀ hl₀ hn
  · intro hnone
    rw [h.gone_push]
    exact h.last_none hnone
  · intro x hx
    obtain ⟨hid, l, hl, ht⟩ := h.last_some x hx
    exact ⟨by rw [h.gone_push]; exact hid, l.meet address, getElem?_lives_push hl,
      ht.meet address rfl⟩
  · intro n l hl hn
    rw [h.gone_push] at hn
    obtain ⟨l₀, hl₀, rfl⟩ := h.life_of_push hl (hlt n (by omega))
    obtain ⟨hlen, hfair⟩ := h.trained n l₀ hl₀ hn
    exact ⟨by rw [Life.meet_rewards]; exact hlen, hfair.meet address⟩
  · rw [h.gone_push, ← h.learns_length]
    exact congrArg _ (learns_snoc_silent _ (by trivial))
  · exact learned_snoc h.learned fun _ hev => by cases hev

end

/-- What a new entry leaves as it is. -/
structure Makes (s s' : Scooby σ) (e : PTEntry) : Prop where
  mem : e ∈ s'.prefetchTracker
  held : ∀ x ∈ s'.held, x ∈ s.held ∨ x = e
  made : s'.made = s.made + 1
  length : s'.states.length = s.states.length

theorem mem_refs {x : PTEntry} (hx : x ∈ s.held) : x.state ∈ s.refs := List.mem_map_of_mem hx

/-- `search_pt` finds nothing where no entry has the address. -/
theorem searchPt_isEmpty_iff (s : Scooby σ) (address : UInt64) (searchAll : Bool) :
    (s.searchPt address searchAll).isEmpty = true ↔ ∀ e ∈ s.prefetchTracker, e.address ≠ address := by
  rw [List.isEmpty_iff]
  refine ⟨fun hnil e he haddr => ?_, fun hnone => ?_⟩
  · obtain ⟨x, hx⟩ := searchPt_head he searchAll
    rw [haddr, hnil] at hx
    cases hx
  · rw [List.eq_nil_iff_forall_not_mem]
    intro e he
    obtain ⟨hmem, haddr⟩ := mem_searchPt he
    exact hnone e hmem haddr

/-- `track` makes no entry for an address that is tracked, unless several are allowed. -/
theorem track_hit {address : UInt64} {state actionIndex : ℕ}
    (hmem : ∃ e ∈ s.prefetchTracker, e.address = address) (haddr : address ≠ noAddress)
    (hmultiple : k.enableTrackMultiple = false) :
    track k s address state st actionIndex = .ok (s, false, none) := by
  have hnew : (s.searchPt address false).isEmpty = false := by
    rw [← Bool.not_eq_true, searchPt_isEmpty_iff]
    obtain ⟨e, he, haddr⟩ := hmem
    exact fun hnone => hnone e he haddr
  simp [track, hnew, haddr, hmultiple]

/-- Otherwise `track` makes an entry. -/
theorem Inv.track_spec (h : Inv k s) (hsize : 1 ≤ k.ptSize) (address : UInt64) {state : ℕ}
    (actionIndex : ℕ) (hstate : s.states[state]? = some (some st)) (hfresh : state ∉ s.refs)
    (hmakes : (∀ e ∈ s.prefetchTracker, e.address ≠ address) ∨ address = noAddress ∨
      k.enableTrackMultiple = true) :
    ∃ s', track k s address state st actionIndex =
        .ok (s', (s.searchPt address false).isEmpty, some s.made) ∧ Inv k s' ∧
      Makes s s' (PTEntry.make s.made address state actionIndex) := by
  obtain ⟨s₁, hrun, hinv, hroom, hmade, hlength, hstate₁, hheld⟩ : ∃ s₁,
      (if k.ptSize ≤ s.prefetchTracker.length then evict k s else pure s) = .ok s₁ ∧ Inv k s₁ ∧
        s₁.prefetchTracker.length < k.ptSize ∧ s₁.made = s.made ∧
        s₁.states.length = s.states.length ∧ s₁.states[state]? = some (some st) ∧
        ∀ x ∈ s₁.held, x ∈ s.held := by
    by_cases hfull : k.ptSize ≤ s.prefetchTracker.length
    · obtain ⟨e, rest, htracker⟩ : ∃ e rest, s.prefetchTracker = e :: rest := by
        cases htracker : s.prefetchTracker with
        | nil =>
          rw [htracker, List.length_nil] at hfull
          omega
        | cons e rest => exact ⟨e, rest, rfl⟩
      obtain ⟨s₁, hrun, hinv, hevicts⟩ := h.evict_spec htracker
      have hsize' := h.size
      rw [htracker, List.length_cons] at hsize'
      refine ⟨s₁, by rw [if_pos hfull, hrun], hinv, by rw [hevicts.tracker]; omega, hevicts.made,
        hevicts.length, ?_, fun x hx => ?_⟩
      · rw [hevicts.states state fun x hx heq => hfresh ?_, hstate]
        rw [← heq]
        exact mem_refs (List.mem_append_left _ (by simpa using hx))
      · rw [held, hevicts.last, hevicts.tracker, Option.toList_some, List.singleton_append,
          ← htracker] at hx
        exact List.mem_append_right _ hx
    · exact ⟨s, by rw [if_neg hfull]; rfl, h, Nat.lt_of_not_le hfull, rfl, rfl, hstate,
        fun x hx => hx⟩
  have hfresh₁ : state ∉ s₁.refs := by
    intro hmem
    obtain ⟨x, hx, rfl⟩ := List.mem_map.1 hmem
    exact hfresh (mem_refs (hheld x hx))
  refine ⟨s₁.push address state st actionIndex, ?_, hinv.push_spec hroom hstate₁ hfresh₁, ?_⟩
  · have hguard : (!(s.searchPt address false).isEmpty && decide (address ≠ noAddress) &&
        !k.enableTrackMultiple) = false := by
      rcases hmakes with hnone | haddr | hmultiple
      · rw [(searchPt_isEmpty_iff s address false).2 hnone]
        rfl
      · simp [haddr]
      · simp [hmultiple]
    have hpushed : (s₁.push address state st actionIndex).prefetchTracker.length ≤ k.ptSize := by
      simpa [push, emit] using Nat.succ_le_of_lt hroom
    by_cases hfull : k.ptSize ≤ s.prefetchTracker.length
    · rw [if_pos hfull] at hrun
      simp only [track, hguard, Bool.false_eq_true, if_false, if_pos hfull, hrun, hmade, hpushed,
        if_true, bind, pure, Except.bind, Except.pure]
    · rw [if_neg hfull] at hrun
      obtain rfl : s = s₁ := Except.ok.inj hrun
      simp only [track, hguard, Bool.false_eq_true, if_false, if_neg hfull, hpushed, if_true, bind,
        pure, Except.bind, Except.pure]
  · refine ⟨?_, fun x hx => ?_, by rw [← hmade]; rfl, hlength⟩
    · simp [push, emit, hmade]
    · have hx' : x ∈ s₁.held ∨ x = PTEntry.make s₁.made address state actionIndex := by
        simpa [held, push, emit, or_assoc] using hx
      rw [hmade] at hx'
      exact hx'.imp (hheld x) id

/-! ## Predictions -/

theorem Inv.prefetched (h : Inv k s) (address : UInt64) : Inv k (s.emit (.prefetched address)) := by
  have hlives : lives (s.emit (.prefetched address)).log = lives s.log := lives_snoc _ _
  refine h.change ((Frame.refl s).emit _).toKeeps (fun _ l => l) (by rw [hlives]) (fun n => ?_)
    (fun _ _ => rfl) (fun _ _ => rfl) (fun e he => ⟨e, he, rfl, fun _ _ _ ht => { ht with }⟩)
    h.blameless (fun _ _ _ _ => rfl) (learns_snoc_silent _ (by trivial))
    (learned_snoc h.learned fun _ hev => by cases hev)
  rw [hlives, Option.map_id']

theorem Inv.prefetched_all (h : Inv k s) (addrs : List UInt64) :
    Inv k (addrs.foldl (fun s addr => s.emit (.prefetched addr)) s) ∧
      Frame s (addrs.foldl (fun s addr => s.emit (.prefetched addr)) s) ∧
      (addrs.foldl (fun s addr => s.emit (.prefetched addr)) s).prefetchTracker =
        s.prefetchTracker := by
  induction addrs generalizing s with
  | nil => exact ⟨h, .refl s, rfl⟩
  | cons addr addrs ih =>
    obtain ⟨hinv, hframe, htracker⟩ := ih (h.prefetched addr)
    exact ⟨hinv, ((Frame.refl s).emit _).trans hframe, htracker⟩

/-- The entries behind a call: they vote as before, or refer to the state of the call and have a
consensus vector of a kind. -/
structure Adds (s s' : Scooby σ) (state : ℕ) (vec : List Bool → Prop) : Prop where
  held : ∀ x ∈ s'.held, (∃ y ∈ s.held, y.vote = x.vote) ∨ (x.state = state ∧ vec x.consensusVec)
  length : s'.states.length = s.states.length

/-- A call that makes an entry and then changes it through its pointer. -/
theorem Makes.adds_of {s₁ : Scooby σ} (hmakes : Makes s s₁ e) (h : Inv k s₁) {f : PTEntry → PTEntry}
    {vec : List Bool → Prop} (hf : (f e).state = e.state ∧ vec (f e).consensusVec)
    (htracker : s'.prefetchTracker = (s₁.update e.id f).prefetchTracker)
    (hlast : s'.lastEvictedTracker = s₁.lastEvictedTracker)
    (hlength : s'.states.length = s₁.states.length) : Adds s s' e.state vec := by
  refine ⟨fun x hx => ?_, hlength.trans hmakes.length⟩
  rw [Scooby.held, hlast, htracker, List.mem_append] at hx
  rcases hx with hx | hx
  · rcases hmakes.held x (List.mem_append_left _ hx) with hold | rfl
    · exact .inl ⟨x, hold, rfl⟩
    · -- the entry that left last and a new one do not share their state
      have hnodup := h.refs_nodup
      rw [refs, Scooby.held, List.map_append, List.nodup_append] at hnodup
      exact absurd rfl (hnodup.2.2 _ (List.mem_map_of_mem hx) _ (List.mem_map_of_mem hmakes.mem))
  · obtain ⟨y, hy, rfl⟩ := List.mem_map.1 hx
    split
    · rename_i hid
      obtain rfl : y = e := h.eq_of_id hy hmakes.mem hid
      exact .inr hf
    · rename_i hid
      rcases hmakes.held y (List.mem_append_right _ hy) with hold | rfl
      · exact .inl ⟨y, hold, rfl⟩
      · exact absurd rfl hid

/-- The consensus vector of an entry is set. -/
theorem Inv.consent (h : Inv k s) (id : ℕ) (vec : List Bool) :
    Inv k (s.update id fun e => { e with consensusVec := vec }) :=
  h.mark id (fun _ => rfl) (fun _ => ⟨rfl, rfl, rfl, rfl⟩) fun _ _ _ => .inl rfl

/-- `track(0xdeadbeef)` makes an entry with the consensus vector of the call. -/
theorem Inv.trackNothing_spec (h : Inv k s) (hsize : 1 ≤ k.ptSize) {state : ℕ}
    (hstate : s.states[state]? = some (some st)) (hfresh : state ∉ s.refs) (choice : Choice k)
    {type : Option RewardType}
    (htype : ∀ t ∈ type, t ≠ .incorrect ∧ t ≠ .correctTimely) :
    ∃ s', trackNothing k s state st choice type = .ok s' ∧ Inv k s' ∧
      Adds s s' state (· = choice.vec) := by
  obtain ⟨s₁, hrun, hinv, hmakes⟩ :=
    h.track_spec hsize noAddress choice.actionIndex hstate hfresh (.inr (.inl rfl))
  cases type with
  | none =>
    refine ⟨s₁.update s.made fun e => { e with consensusVec := choice.vec }, ?_,
      hinv.consent _ _, hmakes.adds_of hinv ⟨rfl, rfl⟩ rfl rfl rfl⟩
    simp only [trackNothing, hrun, bind, pure, Except.bind, Except.pure]
  | some type =>
    obtain ⟨hincorrect, htimely⟩ := htype type rfl
    obtain ⟨r, s₂, hrun₂, hinv₂, hframe₂, htracker₂⟩ :=
      hinv.assignTracked_spec hmakes.mem rfl type hincorrect fun heq => absurd heq htimely
    refine ⟨s₂.update s.made fun e => { e with consensusVec := choice.vec }, ?_,
      hinv₂.consent _ _, hmakes.adds_of hinv
        (f := fun e => { e.withReward type r with consensusVec := choice.vec }) ⟨rfl, rfl⟩ ?_
        hframe₂.last (congrArg List.length hframe₂.states)⟩
    · have hrun₂' : assignTracked k s₁ s.made type = .ok s₂ := hrun₂
      simp only [trackNothing, hrun, hrun₂', bind, pure, Except.bind, Except.pure]
    · simp only [update, htracker₂, List.map_map]
      refine List.map_congr_left fun x hx => ?_
      by_cases hid : x.id = s.made
      · obtain rfl := hinv.eq_of_id hx hmakes.mem hid
        simp [PTEntry.make, PTEntry.withReward]
      · have hid' : x.id ≠ (PTEntry.make s.made noAddress state choice.actionIndex).id := hid
        simp [hid, hid']

/-- The address of a prediction is none of an entry that predicts nothing. -/
theorem blockAddr_ne (page : UInt64) {prefOffset : Int32} (h : inPage prefOffset) :
    blockAddr page prefOffset ≠ noAddress := by
  intro heq
  have hmod := blockAddr_mod page h
  rw [heq] at hmod
  revert hmod
  decide

/-- The prediction of an access: its offset in the page, when the action predicts one. -/
def Choice.predicted (choice : Choice k) (offset : UInt32) : Option Int32 :=
  let action := k.actions.get choice.actionIndex
  if action ≠ 0 ∧ inPage (offset.toInt32 + action) then some (offset.toInt32 + action) else none

/-- The prediction is in the tracker. -/
def Hits (s : Scooby σ) (page : UInt64) (offset : UInt32) (choice : Choice k) : Prop :=
  ∃ prefOffset ∈ choice.predicted offset,
    ∃ e ∈ s.prefetchTracker, e.address = blockAddr page prefOffset

/-- The prefetches of a new address, and the consensus vector of its entry. -/
theorem Inv.issue_spec {s₁ : Scooby σ} (h : Inv k s₁) (hmakes : Makes s s₁ e) (page : UInt64)
    (offset : UInt32) (action : Int32) (addr : UInt64) (choice : Choice k) :
    Inv k (issue k s₁ page offset action addr choice e.id) ∧
      Adds s (issue k s₁ page offset action addr choice e.id) e.state (· = choice.vec) := by
  obtain ⟨addrs, hissue⟩ : ∃ addrs : List UInt64, issue k s₁ page offset action addr choice e.id =
      (addrs.foldl (fun s addr => s.emit (.prefetched addr)) s₁).update e.id fun e =>
        { e with consensusVec := choice.vec } := by
    by_cases hdegree : 1 < choice.prefDegree
    · exact ⟨addr :: genMultiDegreePref page offset action (choice.prefDegree - 1) 2,
        by simp only [issue, if_pos hdegree, List.foldl_cons]⟩
    · exact ⟨[addr], by simp only [issue, if_neg hdegree, List.foldl_cons, List.foldl_nil]⟩
  obtain ⟨hinv, hframe, htracker⟩ := h.prefetched_all addrs
  rw [hissue]
  refine ⟨hinv.consent _ _, hmakes.adds_of h (f := fun e => { e with consensusVec := choice.vec })
    ⟨rfl, rfl⟩ ?_ hframe.last (congrArg List.length hframe.states)⟩
  simp only [update, htracker]

/-- `predict` makes entries that refer to the state of the call, unless it makes two of them. An
entry for an address that is in the tracker is left without its consensus vector. -/
theorem Inv.predict_spec (h : Inv k s) (hsize : 1 ≤ k.ptSize) {page : UInt64} {offset : UInt32}
    {state : ℕ} (hstate : s.states[state]? = some (some st)) (hfresh : state ∉ s.refs)
    (choice : Choice k) (htwice : ¬ (k.enableTrackMultiple = true ∧
      k.enableRewardTrackerHit = true ∧ Hits s page offset choice)) :
    ∃ s', predict k s page offset state st choice = .ok s' ∧ Inv k s' ∧
      Adds s s' state fun vec => vec = choice.vec ∨
        (k.enableTrackMultiple = true ∧ Hits s page offset choice) := by
  have hsame : ∃ s', Except.ok s = (.ok s' : Except Fault (Scooby σ)) ∧ Inv k s' ∧
      Adds s s' state fun vec => vec = choice.vec ∨
        (k.enableTrackMultiple = true ∧ Hits s page offset choice) :=
    ⟨s, rfl, h, fun x hx => .inl ⟨x, hx, rfl⟩, rfl⟩
  have hnothing : ∀ type : Option RewardType,
      (∀ t ∈ type, t ≠ .incorrect ∧ t ≠ .correctTimely) →
      ∃ s', trackNothing k s state st choice type = .ok s' ∧ Inv k s' ∧
        Adds s s' state fun vec => vec = choice.vec ∨
          (k.enableTrackMultiple = true ∧ Hits s page offset choice) := by
    intro type htype
    obtain ⟨s', hrun, hinv, hadds⟩ := h.trackNothing_spec hsize hstate hfresh choice htype
    exact ⟨s', hrun, hinv, fun x hx => (hadds.held x hx).imp id fun hx => ⟨hx.1, .inl hx.2⟩,
      hadds.length⟩
  by_cases haction : k.actions.get choice.actionIndex = 0
  · simp only [predict, haction, ne_eq, not_true_eq_false, if_false]
    exact hnothing none fun t ht => by simp at ht
  by_cases hin : inPage (offset.toInt32 + k.actions.get choice.actionIndex)
  · have hpredicted : choice.predicted offset =
        some (offset.toInt32 + k.actions.get choice.actionIndex) := if_pos ⟨haction, hin⟩
    have haddr := blockAddr_ne page hin
    simp only [predict, haction, ne_eq, not_false_eq_true, if_true, hin]
    generalize offset.toInt32 + k.actions.get choice.actionIndex = prefOffset at *
    by_cases hhit : ∃ e ∈ s.prefetchTracker, e.address = blockAddr page prefOffset
    · have hhits : Hits s page offset choice := ⟨_, hpredicted, hhit⟩
      have hnew : (s.searchPt (blockAddr page prefOffset) false).isEmpty = false := by
        rw [← Bool.not_eq_true, searchPt_isEmpty_iff]
        obtain ⟨e, he, haddr⟩ := hhit
        exact fun hnone => hnone e he haddr
      by_cases hmultiple : k.enableTrackMultiple = true
      · have hreward : k.enableRewardTrackerHit = false := by
          rw [← Bool.not_eq_true]
          exact fun hr => htwice ⟨hmultiple, hr, hhits⟩
        obtain ⟨s', hrun, hinv, hmakes⟩ := h.track_spec hsize (blockAddr page prefOffset)
          choice.actionIndex hstate hfresh (.inr (.inr hmultiple))
        simp only [hrun, hnew, hreward, bind, Except.bind, Bool.false_eq_true, if_false]
        exact ⟨s', rfl, hinv, hmakes.adds_of hinv (f := id) ⟨rfl, .inr ⟨hmultiple, hhits⟩⟩
          (by simp [update]) rfl rfl⟩
      · simp only [track_hit hhit haddr (by simpa using hmultiple), bind, Except.bind,
          Bool.false_eq_true, if_false]
        by_cases hreward : k.enableRewardTrackerHit = true
        · rw [if_pos hreward]
          exact hnothing (some .trackerHit) fun t ht => by
            obtain rfl : RewardType.trackerHit = t := by simpa using ht
            decide
        · rw [if_neg hreward]
          exact hsame
    · have hnone : ∀ e ∈ s.prefetchTracker, e.address ≠ blockAddr page prefOffset :=
        fun e he haddr => hhit ⟨e, he, haddr⟩
      obtain ⟨s₁, hrun, hinv, hmakes⟩ := h.track_spec hsize (blockAddr page prefOffset)
        choice.actionIndex hstate hfresh (.inl hnone)
      simp only [hrun, (searchPt_isEmpty_iff s _ false).2 hnone, bind, pure, Except.bind,
        Except.pure, if_true]
      obtain ⟨hinv', hadds⟩ := hinv.issue_spec hmakes page offset
        (k.actions.get choice.actionIndex) (blockAddr page prefOffset) choice
      exact ⟨_, rfl, hinv', fun x hx => (hadds.held x hx).imp id fun hx => ⟨hx.1, .inl hx.2⟩,
        hadds.length⟩
  · simp only [predict, haction, ne_eq, not_false_eq_true, if_true, hin, if_false]
    by_cases hreward : k.enableRewardOutOfBounds = true
    · rw [if_pos hreward]
      exact hnothing (some .outOfBounds) fun t ht => by
        obtain rfl : RewardType.outOfBounds = t := by simpa using ht
        decide
    · rw [if_neg hreward]
      exact hsame

end

end Scooby

end Arishem
