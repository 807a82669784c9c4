import Arishem.Prefetchers.Pipeline
import Mathlib.Data.List.TakeWhile

/-!
# Rewards, demands and fills

The calls that find entries by their address: none of them makes or evicts an entry.
-/

namespace Arishem

namespace Scooby

variable {σ : Type}

/-- What an entry keeps while it is not deleted. -/
structure Stamp where
  id : ℕ
  address : UInt64
  state : ℕ

/-- The stamp of an entry. -/
def PTEntry.stamp (e : PTEntry) : Stamp := ⟨e.id, e.address, e.state⟩

/-- The state of an entry and its consensus vector. -/
def PTEntry.vote (e : PTEntry) : ℕ × List Bool := (e.state, e.consensusVec)

/-- The entries are the same and the heap is. -/
structure Keeps (s s' : Scooby σ) : Prop where
  tracker : s'.prefetchTracker.map (·.stamp) = s.prefetchTracker.map (·.stamp)
  last : s'.lastEvictedTracker = s.lastEvictedTracker
  states : s'.states = s.states
  made : s'.made = s.made

/-- The entries stay as they are, but for rewards and marks. -/
structure Frame (s s' : Scooby σ) : Prop extends Keeps s s' where
  votes : s'.prefetchTracker.map (·.vote) = s.prefetchTracker.map (·.vote)

section
variable {k : Knobs σ} {s s' s'' : Scooby σ} {e : PTEntry} {id : ℕ} {f : PTEntry → PTEntry}

namespace Keeps

theorem length (h : Keeps s s') : s'.prefetchTracker.length = s.prefetchTracker.length := by
  simpa using congrArg List.length h.tracker

theorem gone (h : Keeps s s') : s'.gone = s.gone := by
  unfold Scooby.gone
  rw [h.made, h.length]

/-- An entry is there before if it is there behind. -/
theorem mem (h : Keeps s s') {e' : PTEntry} (he' : e' ∈ s'.prefetchTracker) :
    ∃ e ∈ s.prefetchTracker, e.stamp = e'.stamp := by
  have hmem : e'.stamp ∈ s'.prefetchTracker.map (·.stamp) := List.mem_map_of_mem he'
  rw [h.tracker] at hmem
  exact List.mem_map.1 hmem

/-- An entry is there behind if it is there before. -/
theorem mem' (h : Keeps s s') (he : e ∈ s.prefetchTracker) :
    ∃ e' ∈ s'.prefetchTracker, e'.stamp = e.stamp := by
  have hmem : e.stamp ∈ s.prefetchTracker.map (·.stamp) := List.mem_map_of_mem he
  rw [← h.tracker] at hmem
  exact List.mem_map.1 hmem

theorem ids (h : Keeps s s') :
    s'.prefetchTracker.map (·.id) = s.prefetchTracker.map (·.id) := by
  have hids := congrArg (List.map Stamp.id) h.tracker
  simpa [List.map_map, Function.comp_def, PTEntry.stamp] using hids

theorem refs (h : Keeps s s') : s'.refs = s.refs := by
  have hstates := congrArg (List.map Stamp.state) h.tracker
  simp only [List.map_map, Function.comp_def, PTEntry.stamp] at hstates
  simp only [Scooby.refs, held, h.last, List.map_append, hstates]

end Keeps

namespace Frame

protected theorem refl (s : Scooby σ) : Frame s s := ⟨⟨rfl, rfl, rfl, rfl⟩, rfl⟩

protected theorem trans (h : Frame s s') (h' : Frame s' s'') : Frame s s'' :=
  ⟨⟨h'.tracker.trans h.tracker, h'.last.trans h.last, h'.states.trans h.states,
    h'.made.trans h.made⟩, h'.votes.trans h.votes⟩

/-- What is not in the log does not go with the log. -/
theorem emit (h : Frame s s') (ev : Event σ) : Frame s (s'.emit ev) :=
  ⟨⟨h.tracker, h.last, h.states, h.made⟩, h.votes⟩

/-- An entry votes as before. -/
theorem held (h : Frame s s') {x : PTEntry} (hx : x ∈ s'.held) :
    ∃ y ∈ s.held, y.vote = x.vote := by
  rw [Scooby.held, h.last, List.mem_append] at hx
  rcases hx with hx | hx
  · exact ⟨x, List.mem_append_left _ hx, rfl⟩
  · have hmem : x.vote ∈ s'.prefetchTracker.map (·.vote) := List.mem_map_of_mem hx
    rw [h.votes] at hmem
    obtain ⟨y, hy, hvote⟩ := List.mem_map.1 hmem
    exact ⟨y, List.mem_append_right _ hy, hvote⟩

end Frame

/-- Access through a pointer to an entry. -/
theorem map_update {α : Type} {g : PTEntry → α}
    (hf : ∀ e ∈ s.prefetchTracker, e.id = id → g (f e) = g e) :
    (s.update id f).prefetchTracker.map g = s.prefetchTracker.map g := by
  simp only [update, List.map_map]
  refine List.map_congr_left fun e he => ?_
  simp only [Function.comp]
  split
  · rename_i hid
    exact hf e he hid
  · rfl

theorem frame_update (hstamp : ∀ e ∈ s.prefetchTracker, e.id = id → (f e).stamp = e.stamp)
    (hvote : ∀ e ∈ s.prefetchTracker, e.id = id → (f e).vote = e.vote) :
    Frame s (s.update id f) :=
  ⟨⟨map_update hstamp, rfl, rfl, rfl⟩, map_update hvote⟩

/-! ## Events -/

/-- The clause on the calls of `learn`, one event later. -/
theorem learned_snoc {log : List (Event σ)} {ev : Event σ}
    (h : ∀ before call after, log = before ++ .learned call :: after →
      Learns k (lives before) (learns before).length call)
    (hev : ∀ call, ev = .learned call → Learns k (lives log) (learns log).length call)
    (before : List (Event σ)) (call : LearnCall σ) (after : List (Event σ))
    (hlog : log ++ [ev] = before ++ .learned call :: after) :
    Learns k (lives before) (learns before).length call := by
  rcases List.eq_nil_or_concat after with rfl | ⟨after, last, rfl⟩
  · obtain ⟨rfl, hlast⟩ := List.append_inj' hlog rfl
    exact hev call (by simpa using hlast)
  · refine h before call after ?_
    have hassoc : before ++ .learned call :: after.concat last =
        (before ++ .learned call :: after) ++ [last] := by simp
    rw [hassoc] at hlog
    exact (List.append_inj' hlog rfl).1

/-- A change of the entries and the lives that keeps each entry in agreement with its life. -/
theorem Inv.change (h : Inv k s) (hframe : Keeps s s') (g : ℕ → Life σ → Life σ)
    (hlength : (lives s'.log).length = (lives s.log).length)
    (hlives : ∀ n, (lives s'.log)[n]? = ((lives s.log)[n]?).map (g n))
    (hevicted : ∀ n l, (g n l).evicted = l.evicted) (halone : ∀ n l, (g n l).alone = l.alone)
    (htracked : ∀ e' ∈ s'.prefetchTracker, ∃ e ∈ s.prefetchTracker, e.stamp = e'.stamp ∧
      ∀ l, (lives s.log)[e.id]? = some l → l.evicted = false → Tracks s e l →
        Tracks s' e' (g e.id l))
    (hblameless : ∀ e' ∈ s'.prefetchTracker, e'.rewardType ≠ .incorrect)
    (hover : ∀ n l, (lives s.log)[n]? = some l → l.evicted = true → g n l = l)
    (hlearns : learns s'.log = learns s.log)
    (hlearned : ∀ before call after, s'.log = before ++ .learned call :: after →
      Learns k (lives before) (learns before).length call) : Inv k s' where
  size := hframe.length ▸ h.size
  made := by
    rw [hlength, hframe.made]
    exact h.made
  fits := by
    rw [hframe.length, hframe.made]
    exact h.fits
  ids := by
    rw [hframe.ids, hframe.gone, hframe.length]
    exact h.ids
  tracked e' he' := by
    obtain ⟨e, he, hstamp, htracks⟩ := htracked e' he'
    obtain ⟨l, hl, hlive, ht⟩ := h.tracked e he
    have hid : e.id = e'.id := congrArg Stamp.id hstamp
    refine ⟨g e.id l, ?_, (hevicted _ _).trans hlive, htracks l hl hlive ht⟩
    rw [← hid, hlives, hl]
    rfl
  blameless := hblameless
  departed n l hl hn := by
    rw [hframe.gone] at hn
    rw [hlives, Option.map_eq_some_iff] at hl
    obtain ⟨l₀, hl₀, rfl⟩ := hl
    rw [hevicted]
    exact h.departed n l₀ hl₀ hn
  last_none hlast := by
    rw [hframe.gone]
    exact h.last_none (hframe.last ▸ hlast)
  last_some e hlast := by
    obtain ⟨hid, l, hl, ht⟩ := h.last_some e (hframe.last ▸ hlast)
    have hsame : g e.id l = l := hover _ _ hl (h.departed _ _ hl (by omega))
    refine ⟨by rw [hframe.gone]; exact hid, l, ?_, ?_⟩
    · rw [hlives, hl, Option.map_some, hsame]
    · exact { ht with state := by rw [hframe.states]; exact ht.state }
  trained n l hl hn := by
    rw [hframe.gone] at hn
    rw [hlives, Option.map_eq_some_iff] at hl
    obtain ⟨l₀, hl₀, rfl⟩ := hl
    rw [hover n l₀ hl₀ (h.departed n l₀ hl₀ (by omega))]
    exact h.trained n l₀ hl₀ hn
  learns_length := by
    rw [hlearns, hframe.gone]
    exact h.learns_length
  alone e₁ he₁ e₂ he₂ hne haddr l hl := by
    obtain ⟨e₁', he₁', hstamp₁, -⟩ := htracked e₁ he₁
    obtain ⟨e₂', he₂', hstamp₂, -⟩ := htracked e₂ he₂
    have hid₁ : e₁'.id = e₁.id := congrArg Stamp.id hstamp₁
    have hid₂ : e₂'.id = e₂.id := congrArg Stamp.id hstamp₂
    have haddr₁ : e₁'.address = e₁.address := congrArg Stamp.address hstamp₁
    have haddr₂ : e₂'.address = e₂.address := congrArg Stamp.address hstamp₂
    rw [← hid₁, hlives, Option.map_eq_some_iff] at hl
    obtain ⟨l₀, hl₀, rfl⟩ := hl
    rw [halone]
    exact h.alone e₁' he₁' e₂' he₂' (by rw [hid₁, hid₂]; exact hne)
      (by rw [haddr₁, haddr₂]; exact haddr) l₀ hl₀
  learned := hlearned
  refs_nodup := by
    rw [hframe.refs]
    exact h.refs_nodup

/-! ## Rewards -/

/-- An entry with its reward. -/
def PTEntry.withReward (e : PTEntry) (type : RewardType) (r : Int32) : PTEntry :=
  { e with reward := r, rewardType := type, hasReward := true }

/-- The reward of an entry without one, when it is not held to be incorrect, and timely only if it
was filled. -/
theorem Tracks.withReward {l : Life σ} (h : Tracks s e l) (hno : e.hasReward = false)
    {type : RewardType}
    (hcorrect : l.alone = true → type = .incorrect → Touch.demand ∉ l.touches)
    (htimely : type = .correctTimely → e.isFilled = true) (r : Int32)
    (hstates : s'.states = s.states) :
    Tracks s' (e.withReward type r) (l.reward type r) := by
  have hnil : l.rewards = [] := by
    rw [h.rewards, hno]
    rfl
  refine ⟨h.address, by rw [hstates]; exact h.state, h.actionIndex, by simp [Life.reward, hnil,
    PTEntry.withReward], fun _ _ => rfl, h.filled, fun halone => ⟨fun r' hr' => ?_, fun r' hr' => ?_⟩⟩
  · simp only [Life.reward, hnil, List.nil_append, List.mem_singleton, Prod.mk.injEq] at hr'
    exact hcorrect halone hr'.1.symm
  · simp only [Life.reward, hnil, List.nil_append, List.mem_singleton, Prod.mk.injEq] at hr'
    have hfill : Touch.fill ∈ l.touches := h.filled halone (htimely hr'.1.symm)
    have hnone : Touch.demand ∉ l.touches := fun hmem => by
      have hreward := h.demanded halone hmem
      rw [hno] at hreward
      cases hreward
    have hall : l.touches.takeWhile (· ≠ Touch.demand) = l.touches :=
      List.takeWhile_eq_self_iff.2 fun t ht => by
        simpa using fun heq : t = Touch.demand => hnone (heq ▸ ht)
    show Touch.fill ∈ l.touches.takeWhile (· ≠ Touch.demand)
    rw [hall]
    exact hfill

/-- `assign_reward` on an entry of the tracker without a reward. -/
theorem Inv.assignTracked_spec (h : Inv k s) (he : e ∈ s.prefetchTracker)
    (hno : e.hasReward = false) (type : RewardType) (hcorrect : type ≠ .incorrect)
    (htimely : type = .correctTimely → e.isFilled = true) :
    ∃ r s', assignTracked k s e.id type = .ok s' ∧ Inv k s' ∧ Frame s s' ∧
      s'.prefetchTracker = s.prefetchTracker.map fun x =>
        if x.id = e.id then e.withReward type r else x := by
  refine ⟨computeReward k s type, (s.update e.id fun _ =>
    e.withReward type (computeReward k s type)).emit (.rewarded e.id type (computeReward k s type)),
    ?_, ?_, ?_, rfl⟩
  · simp only [assignTracked, h.find he, assignReward, hno]
    rfl
  · have hframe : Frame s (s.update e.id fun _ => e.withReward type (computeReward k s type)) :=
      frame_update (fun x hx hid => by rw [h.eq_of_id hx he hid]; rfl)
        fun x hx hid => by rw [h.eq_of_id hx he hid]; rfl
    have hlives : lives ((s.update e.id fun _ => e.withReward type (computeReward k s type)).emit
        (.rewarded e.id type (computeReward k s type))).log =
        (lives s.log).modify e.id (Life.reward type (computeReward k s type)) := lives_snoc _ _
    refine h.change (hframe.emit _).toKeeps
      (fun n l => if e.id = n then l.reward type (computeReward k s type) else l) ?_ ?_ ?_ ?_ ?_ ?_ ?_
      (learns_snoc_silent _ trivial) (learned_snoc h.learned fun _ hev => by cases hev)
    · rw [hlives, List.length_modify]
    · intro n
      rw [hlives, List.getElem?_modify, Option.map_eq_map]
    · intro n l
      split <;> rfl
    · intro n l
      split <;> rfl
    · intro e' he'
      obtain ⟨x, hx, rfl⟩ := List.mem_map.1 he'
      split
      · rename_i hid
        obtain rfl : x = e := h.eq_of_id hx he hid
        refine ⟨x, hx, rfl, fun l _ _ ht => ?_⟩
        rw [if_pos rfl]
        exact ht.withReward hno (fun _ heq => absurd heq hcorrect) htimely _ rfl
      · rename_i hid
        refine ⟨x, hx, rfl, fun l _ _ ht => ?_⟩
        rw [if_neg (Ne.symm hid)]
        exact { ht with }
    · intro e' he'
      obtain ⟨x, hx, rfl⟩ := List.mem_map.1 he'
      split
      · exact hcorrect
      · exact h.blameless x hx
    · intro n l hl hev
      split
      · rename_i hid
        subst hid
        obtain ⟨l', hl', hlive, -⟩ := h.tracked e he
        rw [hl] at hl'
        cases hl'
        rw [hev] at hlive
        cases hlive
      · rfl
  · exact (frame_update (fun x hx hid => by rw [h.eq_of_id hx he hid]; rfl)
      fun x hx hid => by rw [h.eq_of_id hx he hid]; rfl).emit _

/-- The entries that already have a reward keep it, and the first one found has one behind the loop. -/
theorem Inv.rewardFound_spec {es : List PTEntry} (h : Inv k s)
    (hes : ∀ e ∈ es, e ∈ s.prefetchTracker) (hnodup : (es.map (·.id)).Nodup) :
    ∃ s', rewardFound k es s = .ok s' ∧ Inv k s' ∧ Frame s s' ∧
      (∀ e ∈ es.head?, ∀ e' ∈ s'.prefetchTracker, e'.id = e.id → e'.hasReward = true) ∧
      ∀ e ∈ s.prefetchTracker, e.hasReward = true →
        ∀ e' ∈ s'.prefetchTracker, e'.id = e.id → e'.hasReward = true := by
  induction es generalizing s with
  | nil =>
    refine ⟨s, rfl, h, .refl s, fun e he => by simp at he, fun e he hr e' he' hid => ?_⟩
    rw [h.eq_of_id he' he hid]
    exact hr
  | cons e es ih =>
    have he : e ∈ s.prefetchTracker := hes e (.head _)
    cases hreward : e.hasReward with
    | true =>
      have hkeep : ∀ x ∈ s.prefetchTracker, x.hasReward = true →
          ∀ e' ∈ s.prefetchTracker, e'.id = x.id → e'.hasReward = true := by
        intro x hx hr e' he' hid
        rw [h.eq_of_id he' hx hid]
        exact hr
      refine ⟨s, ?_, h, .refl s, fun x hx => ?_, hkeep⟩
      · simp only [rewardFound, hreward, if_true]
      · obtain rfl : e = x := by simpa using hx
        exact hkeep e he hreward
    | false =>
      rw [List.map_cons, List.nodup_cons] at hnodup
      obtain ⟨r, s₁, hrun, hinv, hframe, htracker⟩ :=
        h.assignTracked_spec he hreward (if e.isFilled then .correctTimely else .correctUntimely)
          (by split <;> decide) (by split <;> simp_all)
      have hstay : ∀ x ∈ s.prefetchTracker, x.id ≠ e.id → x ∈ s₁.prefetchTracker := by
        intro x hx hne
        rw [htracker]
        exact List.mem_map.2 ⟨x, hx, if_neg hne⟩
      obtain ⟨s', hrun', hinv', hframe', -, hkeep⟩ := ih hinv (fun x hx => by
        refine hstay x (hes x (.tail _ hx)) fun hid => hnodup.1 ?_
        rw [← hid]
        exact List.mem_map_of_mem hx) hnodup.2
      refine ⟨s', ?_, hinv', hframe.trans hframe', fun x hx e' he' hid => ?_,
        fun x hx hr e' he' hid => ?_⟩
      · rw [rewardFound, hreward]
        simp only [Bool.false_eq_true, if_false, hrun]
        exact hrun'
      · obtain rfl : e = x := by simpa using hx
        have hmem : e.withReward (if e.isFilled then .correctTimely else .correctUntimely) r ∈
            s₁.prefetchTracker := by
          rw [htracker]
          exact List.mem_map.2 ⟨e, he, if_pos rfl⟩
        exact hkeep _ hmem rfl e' he' hid
      · refine hkeep x (hstay x hx fun hne => ?_) hr e' he' hid
        rw [h.eq_of_id hx he hne, hreward] at hr
        cases hr

/-! ## Touches -/

/-- The entries that `search_pt` finds. -/
theorem mem_searchPt {address : UInt64} {searchAll : Bool}
    (he : e ∈ s.searchPt address searchAll) : e ∈ s.prefetchTracker ∧ e.address = address := by
  have hmem : e ∈ s.prefetchTracker.filter (·.address = address) := by
    unfold searchPt at he
    split at he
    · exact he
    · exact List.mem_of_mem_take he
  simpa using List.mem_filter.1 hmem

theorem searchPt_sublist (s : Scooby σ) (address : UInt64) (searchAll : Bool) :
    (s.searchPt address searchAll).Sublist s.prefetchTracker := by
  unfold searchPt
  split
  · exact List.filter_sublist
  · exact (List.take_sublist _ _).trans List.filter_sublist

/-- An entry with the address lets `search_pt` find one. -/
theorem searchPt_head (he : e ∈ s.prefetchTracker) (searchAll : Bool) :
    ∃ x, (s.searchPt e.address searchAll).head? = some x := by
  have hmem : e ∈ s.prefetchTracker.filter (·.address = e.address) := by simp [he]
  cases hfound : s.prefetchTracker.filter (·.address = e.address) with
  | nil =>
    rw [hfound] at hmem
    cases hmem
  | cons x xs =>
    refine ⟨x, ?_⟩
    unfold searchPt
    rw [hfound]
    split <;> rfl

/-- A touch of an entry whose life it does not blame. -/
theorem Tracks.touch {l : Life σ} (h : Tracks s e l) (hblameless : e.rewardType ≠ .incorrect)
    {address : UInt64} {t : Touch}
    (hdemand : t = .demand → e.address = address → l.alone = true → e.hasReward = true)
    (hstates : s'.states = s.states) : Tracks s' e (l.touch address t) := by
  have hclean : ∀ r, (RewardType.incorrect, r) ∉ l.rewards := by
    intro r hr
    rw [h.rewards] at hr
    split at hr
    · simp only [List.mem_singleton, Prod.mk.injEq] at hr
      exact hblameless hr.1.symm
    · cases hr
  have hfair : (l.touch address t).Fair := h.fair.touch fun _ _ _ => hclean
  unfold Life.touch at hfair ⊢
  split
  · rename_i hholds
    have haddr : e.address = address := by
      rw [← h.address]
      simpa using (Bool.and_eq_true_iff.1 hholds).2
    rw [if_pos hholds] at hfair
    refine ⟨h.address, by rw [hstates]; exact h.state, h.actionIndex, h.rewards,
      fun halone hmem => ?_, fun halone hfilled =>
        List.mem_append_left _ (h.filled halone hfilled), hfair⟩
    rcases List.mem_append.1 hmem with hmem | hmem
    · exact h.demanded halone hmem
    · exact hdemand (List.mem_singleton.1 hmem).symm haddr halone
  · exact { h with state := by rw [hstates]; exact h.state }

/-- A touch: a demand only where the entries that hold the address alone have their reward. -/
theorem Inv.touch (h : Inv k s) {ev : Event σ} {address : UInt64} {t : Touch}
    (hev : ∀ ls, record ls ev = ls.map (Life.touch address t)) (hsilent : ev.Silent)
    (hdemand : t = .demand → ∀ e ∈ s.prefetchTracker, e.address = address →
      ∀ l, (lives s.log)[e.id]? = some l → l.alone = true → e.hasReward = true) :
    Inv k (s.emit ev) := by
  have hlives : lives (s.emit ev).log = (lives s.log).map (Life.touch address t) :=
    (lives_snoc _ _).trans (hev _)
  refine h.change ((Frame.refl s).emit _).toKeeps (fun _ l => l.touch address t) ?_ ?_
    (fun _ l => Life.touch_evicted _ _ l) (fun _ l => Life.touch_alone _ _ l) ?_ h.blameless ?_
    (learns_snoc_silent _ hsilent) (learned_snoc h.learned fun call hcall => ?_)
  · rw [hlives, List.length_map]
  · intro n
    rw [hlives, List.getElem?_map]
  · intro e he
    exact ⟨e, he, rfl, fun l hl _ ht =>
      ht.touch (h.blameless e he) (fun heq haddr => hdemand heq e he haddr l hl) rfl⟩
  · intro n l _ hover
    have hholds : l.holds address = false := by simp [Life.holds, hover]
    simp [Life.touch, hholds]
  · rw [hcall] at hsilent
    exact hsilent.elim

/-- A mark on an entry: of what the invariant speaks of it changes the filling at most. -/
theorem Inv.mark (h : Inv k s) (id : ℕ) {f : PTEntry → PTEntry}
    (hstamp : ∀ e, (f e).stamp = e.stamp)
    (hsame : ∀ e, (f e).actionIndex = e.actionIndex ∧ (f e).hasReward = e.hasReward ∧
      (f e).rewardType = e.rewardType ∧ (f e).reward = e.reward)
    (hfilled : ∀ e ∈ s.prefetchTracker, e.id = id → (f e).isFilled = e.isFilled ∨
      ∀ l, (lives s.log)[e.id]? = some l → Touch.fill ∈ l.touches) :
    Inv k (s.update id f) := by
  have hkeeps : Keeps s (s.update id f) := ⟨map_update fun e _ _ => hstamp e, rfl, rfl, rfl⟩
  refine h.change hkeeps (fun _ l => l) rfl (fun n => by simp [update]) (fun _ _ => rfl)
    (fun _ _ => rfl) ?_ ?_ (fun _ _ _ _ => rfl) rfl h.learned
  · intro e' he'
    obtain ⟨e, he, rfl⟩ := List.mem_map.1 he'
    split
    · rename_i hid
      have haddr : (f e).address = e.address := congrArg Stamp.address (hstamp e)
      have hstate : (f e).state = e.state := congrArg Stamp.state (hstamp e)
      obtain ⟨haction, hreward, htype, hvalue⟩ := hsame e
      refine ⟨e, he, (hstamp e).symm, fun l hl _ ht => ?_⟩
      refine ⟨by rw [haddr]; exact ht.address, by rw [hstate]; exact ht.state,
        by rw [haction]; exact ht.actionIndex, by rw [hreward, htype, hvalue]; exact ht.rewards,
        by rw [hreward]; exact ht.demanded, fun halone hf => ?_, ht.fair⟩
      rcases hfilled e he hid with hsame | hfill
      · exact ht.filled halone (hsame ▸ hf)
      · exact hfill l hl
    · exact ⟨e, he, rfl, fun l _ _ ht => { ht with }⟩
  · intro e' he'
    obtain ⟨e, he, rfl⟩ := List.mem_map.1 he'
    split
    · rw [(hsame e).2.2.1]
      exact h.blameless e he
    · exact h.blameless e he

/-! ## The calls -/

/-- `reward(address)` ends without a fault. -/
theorem Inv.rewardDemand_spec (h : Inv k s) (address : UInt64) :
    ∃ s', rewardDemand k s address = .ok s' ∧ Inv k s' ∧ Frame s s' := by
  obtain ⟨s₁, hrun, hinv, hframe, hhead, -⟩ := h.rewardFound_spec
    (fun e he => (mem_searchPt he).1)
    (h.ids_nodup.sublist ((searchPt_sublist s address k.enableRewardAll).map _))
  refine ⟨s₁.emit (.demand address), ?_, ?_, hframe.emit _⟩
  · simp only [rewardDemand, hrun]
    rfl
  · refine hinv.touch (fun ls => rfl) trivial fun _ e' he' haddr l hl halone => ?_
    obtain ⟨e, he, hstamp⟩ := hframe.mem he'
    have hid : e.id = e'.id := congrArg Stamp.id hstamp
    have haddr' : e.address = address := (congrArg Stamp.address hstamp).trans haddr
    obtain ⟨x, hx⟩ := searchPt_head he k.enableRewardAll
    rw [haddr'] at hx
    obtain ⟨hxmem, hxaddr⟩ := mem_searchPt (List.mem_of_head? hx)
    -- the entry is the first one found: otherwise another one holds its address
    by_cases hxid : x.id = e'.id
    · exact hhead x hx e' he' hxid.symm
    · obtain ⟨x', hx', hxstamp⟩ := hframe.mem' hxmem
      have hxid' : x'.id = x.id := congrArg Stamp.id hxstamp
      have hxaddr' : x'.address = x.address := congrArg Stamp.address hxstamp
      have hfalse := hinv.alone e' he' x' hx' (by rw [hxid']; exact Ne.symm hxid)
        (by rw [hxaddr', hxaddr, haddr]) l hl
      rw [halone] at hfalse
      cases hfalse

/-- Marks on entries whose lives have a fill, or that leave the filling as it is. -/
theorem Inv.marks (h : Inv k s) (es : List PTEntry) {f : PTEntry → PTEntry}
    (hframe : ∀ e, (f e).stamp = e.stamp ∧ (f e).vote = e.vote)
    (hsame : ∀ e, (f e).actionIndex = e.actionIndex ∧ (f e).hasReward = e.hasReward ∧
      (f e).rewardType = e.rewardType ∧ (f e).reward = e.reward)
    (hfilled : (∀ e, (f e).isFilled = e.isFilled) ∨
      ∀ e ∈ es, ∀ l, (lives s.log)[e.id]? = some l → Touch.fill ∈ l.touches) :
    Inv k (es.foldl (fun s e => s.update e.id f) s) ∧
      Frame s (es.foldl (fun s e => s.update e.id f) s) := by
  induction es generalizing s with
  | nil => exact ⟨h, .refl s⟩
  | cons e es ih =>
    have hinv : Inv k (s.update e.id f) :=
      h.mark e.id (fun x => (hframe x).1) hsame fun x _ hid => by
        rcases hfilled with hkeep | hfill
        · exact .inl (hkeep x)
        · refine .inr ?_
          rw [hid]
          exact hfill e (.head _)
    obtain ⟨hinv', hframe'⟩ := ih hinv (hfilled.imp id fun hfill x hx => hfill x (.tail _ hx))
    exact ⟨hinv', (frame_update (fun x _ _ => (hframe x).1) fun x _ _ => (hframe x).2).trans hframe'⟩

/-- `register_fill`. -/
theorem Inv.registerFill_spec (h : Inv k s) (address : UInt64) :
    Inv k (registerFill k s address) ∧ Frame s (registerFill k s address) := by
  have hinv : Inv k (s.emit (.fill address)) :=
    h.touch (fun ls => rfl) trivial fun heq => by cases heq
  have hlives : lives (s.emit (.fill address)).log =
      (lives s.log).map (Life.touch address .fill) := lives_snoc _ _
  have hfound : ∀ e ∈ s.searchPt address k.enableRewardAll,
      ∀ l, (lives (s.emit (.fill address)).log)[e.id]? = some l → Touch.fill ∈ l.touches := by
    intro e he l hl
    obtain ⟨hmem, haddr⟩ := mem_searchPt he
    obtain ⟨l₀, hl₀, hlive, ht⟩ := h.tracked e hmem
    rw [hlives, List.getElem?_map, hl₀] at hl
    obtain rfl : l₀.touch address .fill = l := by simpa using hl
    have hholds : l₀.holds address = true := by simp [Life.holds, hlive, ht.address, haddr]
    simp [Life.touch, hholds]
  obtain ⟨hinv', hframe⟩ := hinv.marks (s.searchPt address k.enableRewardAll)
    (f := fun e => { e with isFilled := true }) (fun _ => ⟨rfl, rfl⟩)
    (fun _ => ⟨rfl, rfl, rfl, rfl⟩) (.inr hfound)
  exact ⟨hinv', ((Frame.refl s).emit _).trans hframe⟩

/-- `register_prefetch_hit`. -/
theorem Inv.registerPrefetchHit_spec (h : Inv k s) (address : UInt64) :
    Inv k (registerPrefetchHit k s address) ∧ Frame s (registerPrefetchHit k s address) :=
  h.marks _ (fun _ => ⟨rfl, rfl⟩) (fun _ => ⟨rfl, rfl, rfl, rfl⟩) (.inl fun _ => rfl)

end

end Scooby

end Arishem
