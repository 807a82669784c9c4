import Arishem.Prefetchers.Training
import Arishem.Lib.Outcome

/-!
# Rewards on a demand

With `scooby_enable_reward_all` a demand is to reward every entry of its address. The loop of
`reward(address)` over the entries found returns at the first one that has its reward, so it reaches
those before it only.
-/

namespace Arishem

namespace Scooby

section
variable {σ : Type} (k : Knobs σ)

/-- The reward of an entry on a demand: one that has a reward keeps it, and the others get theirs by
their own mark. -/
def rewardedFor (s : Scooby σ) (e : PTEntry) : PTEntry :=
  if e.hasReward then e
  else
    let type : RewardType := if e.isFilled then .correctTimely else .correctUntimely
    { e with reward := computeReward k s type, rewardType := type, hasReward := true }

/-- A demand rewards every entry of its address and leaves the others as they are. -/
def RewardsAll (s : Scooby σ) (address : UInt64) : Prop :=
  ∃ s', rewardDemand k s address = .ok s' ∧
    s'.prefetchTracker =
      s.prefetchTracker.map fun e => if e.address = address then rewardedFor k s e else e

/-- No entry of the address that has a reward stands before one that has none. -/
def RewardedLast (s : Scooby σ) (address : UInt64) : Prop :=
  (s.prefetchTracker.filter (·.address = address)).Pairwise fun e e' =>
    e.hasReward = true → e'.hasReward = true

end

section
variable {σ : Type} {k : Knobs σ} {s s' : Scooby σ} {e e' : PTEntry} {address : UInt64}

theorem rewardedFor_of_hasReward (h : e.hasReward = true) : rewardedFor k s e = e := if_pos h

theorem hasReward_rewardedFor (s : Scooby σ) (e : PTEntry) :
    (rewardedFor k s e).hasReward = true := by
  unfold rewardedFor
  split
  · assumption
  · rfl

/-- `assign_reward` on an entry of the tracker without a reward. -/
theorem assignTracked_of_mem (hids : (s.prefetchTracker.map (·.id)).Nodup)
    (he : e ∈ s.prefetchTracker) (hno : e.hasReward = false) :
    ∃ s', assignTracked k s e.id (if e.isFilled then .correctTimely else .correctUntimely) =
        .ok s' ∧ s'.bwLevel = s.bwLevel ∧
      s'.prefetchTracker =
        s.prefetchTracker.map fun x => if x.id = e.id then rewardedFor k s e else x := by
  refine ⟨(s.update e.id fun _ => rewardedFor k s e).emit
    (.rewarded e.id (if e.isFilled then .correctTimely else .correctUntimely)
      (rewardedFor k s e).reward), ?_, rfl, List.map_congr_left fun x hx => ?_⟩
  · simp only [assignTracked, find_of_nodup hids he, assignReward, hno, rewardedFor]
    rfl
  · split
    · rename_i hid
      rw [List.inj_on_of_nodup_map hids hx he hid]
    · rfl

/-- The loop of `reward(address)` rewards the entries before the first one that has a reward. -/
theorem rewardFound_spec (l : List PTEntry) (hids : (s.prefetchTracker.map (·.id)).Nodup)
    (hl : ∀ e ∈ l, e ∈ s.prefetchTracker) (hnodup : (l.map (·.id)).Nodup) :
    ∃ s', rewardFound k l s = .ok s' ∧
      s'.prefetchTracker = s.prefetchTracker.map fun x =>
        if x ∈ l.takeWhile (·.hasReward = false) then rewardedFor k s x else x := by
  induction l generalizing s with
  | nil => exact ⟨s, rfl, by simp⟩
  | cons e l ih =>
    rw [List.map_cons, List.nodup_cons] at hnodup
    have he := hl e (List.mem_cons_self ..)
    by_cases hhas : e.hasReward = true
    · refine ⟨s, by simp [rewardFound, hhas], ?_⟩
      rw [List.takeWhile_cons_of_neg (by simp [hhas])]
      simp
    · have hno : e.hasReward = false := by simpa using hhas
      obtain ⟨t, hrun, hbw, htracker⟩ := assignTracked_of_mem (k := k) hids he hno
      -- the entries behind are as they were
      have hsame : ∀ x ∈ l, x ∈ t.prefetchTracker := by
        intro x hx
        rw [htracker, List.mem_map]
        refine ⟨x, hl x (List.mem_cons_of_mem _ hx), if_neg fun hid => ?_⟩
        exact hnodup.1 (hid ▸ List.mem_map_of_mem hx)
      have hids' : t.prefetchTracker.map (·.id) = s.prefetchTracker.map (·.id) := by
        rw [htracker, List.map_map]
        refine List.map_congr_left fun x _ => ?_
        simp only [Function.comp]
        split
        · rename_i hid
          unfold rewardedFor
          split <;> exact hid.symm
        · rfl
      obtain ⟨s', hrun', htracker'⟩ := ih (hids' ▸ hids) hsame hnodup.2
      refine ⟨s', ?_, ?_⟩
      · simp only [rewardFound, hhas, hrun, bind, Except.bind]
        exact hrun'
      · rw [htracker', htracker, List.map_map, List.takeWhile_cons_of_pos (by simp [hno])]
        refine List.map_congr_left fun x hx => ?_
        simp only [Function.comp, List.mem_cons]
        have hreward : ∀ x, rewardedFor k t x = rewardedFor k s x := fun x => by
          simp only [rewardedFor, computeReward, hbw]
        by_cases hxe : x = e
        · subst hxe
          rw [if_pos rfl, if_pos (Or.inl rfl), hreward]
          split
          · rw [rewardedFor_of_hasReward (hasReward_rewardedFor s x)]
          · rfl
        · have hid : x.id ≠ e.id := fun hid => hxe (List.inj_on_of_nodup_map hids hx he hid)
          simp only [if_neg hid, hxe, false_or, hreward]

/-- The elements with a property stand at the front exactly when none of them follows one
without. -/
theorem subset_takeWhile_iff {α : Type} {p : α → Bool} {l : List α} (hl : l.Nodup) :
    (∀ x ∈ l, p x = true → x ∈ l.takeWhile p) ↔
      l.Pairwise fun x y => p y = true → p x = true := by
  induction l with
  | nil => simp
  | cons a l ih =>
    obtain ⟨ha, hl⟩ := List.nodup_cons.1 hl
    rw [List.pairwise_cons]
    by_cases hp : p a = true
    · rw [List.takeWhile_cons_of_pos hp, ← ih hl]
      constructor
      · intro h
        refine ⟨fun _ _ _ => hp, fun x hx hpx => ?_⟩
        rcases List.mem_cons.1 (h x (List.mem_cons_of_mem _ hx) hpx) with rfl | hmem
        · exact absurd hx ha
        · exact hmem
      · rintro ⟨-, h⟩ x hx hpx
        rcases List.mem_cons.1 hx with rfl | hx
        · exact List.mem_cons_self ..
        · exact List.mem_cons_of_mem _ (h x hx hpx)
    · rw [List.takeWhile_cons_of_neg hp]
      constructor
      · intro h
        have hnone : ∀ x ∈ l, ¬ p x = true := fun x hx hpx =>
          absurd (h x (List.mem_cons_of_mem _ hx) hpx) List.not_mem_nil
        refine ⟨fun x hx hpx => absurd hpx (hnone x hx), ?_⟩
        exact List.pairwise_of_forall_mem_list fun _ _ y hy hpy => absurd hpy (hnone y hy)
      · rintro ⟨h, -⟩ x hx hpx
        rcases List.mem_cons.1 hx with rfl | hx
        · exact absurd hpx hp
        · exact absurd (h x hx hpx) hp

/-- A demand rewards every entry of its address exactly when those with a reward stand behind those
without. -/
theorem rewardsAll_iff (k : Knobs σ) (s : Scooby σ) (address : UInt64)
    (hall : k.enableRewardAll = true) (hids : (s.prefetchTracker.map (·.id)).Nodup) :
    RewardsAll k s address ↔ RewardedLast s address := by
  have hnodup : s.prefetchTracker.Nodup := hids.of_map
  have hfound : s.searchPt address k.enableRewardAll =
      s.prefetchTracker.filter (·.address = address) := by
    simp only [searchPt, hall]
    rfl
  obtain ⟨s', hrun, htracker⟩ := rewardFound_spec (k := k)
    (s.prefetchTracker.filter (·.address = address)) hids (fun e he => List.mem_of_mem_filter he)
    (hids.sublist (List.filter_sublist.map _))
  have hdemand : rewardDemand k s address = .ok (s'.emit (.demand address)) := by
    simp only [rewardDemand, hfound, hrun, bind, Except.bind]
    rfl
  have hchanges : ∀ x, x.hasReward = false → rewardedFor k s x ≠ x := fun x hno heq => by
    have hhas := hasReward_rewardedFor (k := k) s x
    rw [heq, hno] at hhas
    exact Bool.false_ne_true hhas
  have hlast : RewardedLast s address ↔ ∀ x ∈ s.prefetchTracker.filter (·.address = address),
      x.hasReward = false →
        x ∈ (s.prefetchTracker.filter (·.address = address)).takeWhile (·.hasReward = false) := by
    have hiff := subset_takeWhile_iff (p := fun e : PTEntry => decide (e.hasReward = false))
      (hnodup.filter (·.address = address))
    simp only [decide_eq_true_eq] at hiff
    rw [hiff, RewardedLast]
    refine List.Pairwise.iff fun {x y} => ?_
    cases x.hasReward <;> cases y.hasReward <;> simp
  rw [hlast]
  constructor
  · rintro ⟨t, ht, hmap⟩ x hx hno
    obtain ⟨hmem, haddr⟩ := List.mem_filter.1 hx
    rw [hdemand, Except.ok.injEq] at ht
    subst ht
    have heq := List.map_inj_left.1 (htracker.symm.trans hmap) x hmem
    simp only [decide_eq_true_eq] at haddr
    by_contra hnot
    rw [if_neg hnot, if_pos haddr] at heq
    exact hchanges x hno heq.symm
  · intro h
    refine ⟨_, hdemand, htracker.trans (List.map_congr_left fun x hmem => ?_)⟩
    split
    · rename_i hx
      have hfilter := (List.takeWhile_sublist _).subset hx
      rw [if_pos (by simpa using (List.mem_filter.1 hfilter).2)]
    · rename_i hx
      split
      · rename_i haddr
        refine (rewardedFor_of_hasReward ?_).symm
        by_contra hno
        exact hx (h x (List.mem_filter.2 ⟨hmem, by simpa using haddr⟩) (by simpa using hno))
      · rfl

/-- Knobs with one action, to prefetch the next block, that track an address more than once and
reward all its entries. -/
def rewardNext : Knobs UInt64 where
  actions := [1]
  ptSize := 4
  enableRewardAll := true
  enableTrackMultiple := true
  enableRewardOutOfBounds := false
  enableRewardTrackerHit := false
  enableFeaturewiseEngine := false
  enableHbwReward := false
  highBwThresh := 4
  reward := fun _ => 1
  rewardHbw := fun _ => 1
  value := UInt64.toUInt32

theorem length_twenty : (List.replicate 20 true).length = 20 := rfl

/-- Accesses to some addresses. -/
def accesses (l : List UInt64) : List (Call rewardNext) :=
  l.map fun address => .invokePrefetcher address 0
    ⟨⟨0, Nat.one_pos⟩, 1, List.replicate 20 true, length_twenty⟩

/-- Entries of the second block of a page, filled or not and with a reward or without, and one of
another block. -/
def mixedEntries : Scooby UInt64 :=
  { init with
    prefetchTracker :=
      [{ PTEntry.make 0 64 0 0 with isFilled := true }, PTEntry.make 1 128 1 0,
        PTEntry.make 2 64 2 0,
        { PTEntry.make 3 64 3 0 with
          hasReward := true, rewardType := .correctUntimely, reward := 1 }] }

/-- A demand for the second block, of which the entry that has a reward is the last. -/
theorem rewardsAll_iff_mixed : rewardNext.enableRewardAll = true ∧
    (mixedEntries.prefetchTracker.map (·.id)).Nodup ∧ RewardedLast mixedEntries 64 ∧
      RewardsAll rewardNext mixedEntries 64 := by
  have hids : (mixedEntries.prefetchTracker.map (·.id)).Nodup := by decide
  have hlast : RewardedLast mixedEntries 64 := by
    unfold RewardedLast
    decide
  exact ⟨rfl, hids, hlast, (rewardsAll_iff rewardNext mixedEntries 64 rfl hids).2 hlast⟩

/-- The accesses to the first, the second and again the first block of a page leave two entries for
the second block, of which the access to it has rewarded the first. The next access to it finds that
one and rewards none. -/
theorem reward_all_returns : ∃ s, run rewardNext init (accesses [0, 64, 0]) = .ok s ∧
    (s.prefetchTracker.map (·.id)).Nodup ∧ ¬ RewardsAll rewardNext s 64 := by
  have hrun : (run rewardNext init (accesses [0, 64, 0])).toOption.any (fun s =>
      decide (s.prefetchTracker.map (·.id)).Nodup &&
      !decide ((rewardDemand rewardNext s 64).toOption.map (·.prefetchTracker) =
        some (s.prefetchTracker.map fun e =>
          if e.address = 64 then rewardedFor rewardNext s e else e))) = true := by
    decide +kernel
  obtain ⟨t, hres, hcheck⟩ := exists_ok_of_any hrun
  obtain ⟨hids, hnot⟩ := Bool.and_eq_true_iff.1 hcheck
  refine ⟨t, hres, of_decide_eq_true hids, ?_⟩
  rintro ⟨t', ht, htracker⟩
  rw [ht] at hnot
  simp [Except.toOption, htracker] at hnot

end

end Scooby

end Arishem
