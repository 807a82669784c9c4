import Arishem.Lib.Aging
import Arishem.Lib.Ranks
import Arishem.Replacement.Policies

/-!
# Bounds of the replacement policies

No call stores a value above `maxRRPV`. The victim search therefore finds its value after a few
rounds, in the first block of the largest value. SHiP's sampler keeps its LRU order, so that one of
its searches succeeds, and its counters keep their bound.
-/

namespace Arishem

/-! ## The victim search -/

/-- `llc_find_victim` ends after at most `maxRRPV + 1` rounds, at the first of the ways with the
largest value, and keeps the values in bounds and in their order. -/
structure VictimFound (rrpv : ℕ → ℕ → ℕ) (set way : ℕ) (rrpv' : ℕ → ℕ → ℕ) : Prop where
  search : ∀ fuel, maxRrpv + 1 ≤ fuel → searchVictim fuel set rrpv = some (way, rrpv')
  first : Argmax.IsFirst (rrpv set) llcWay way
  order : ∀ w < llcWay, ∀ w' < llcWay, rrpv' set w < rrpv' set w' ↔ rrpv set w < rrpv set w'

section
variable {rrpv : ℕ → ℕ → ℕ} {set way value : ℕ}

/-- The search is one that ages the values of the set. -/
theorem searchVictim_eq (fuel : ℕ) (rrpv : ℕ → ℕ → ℕ) : searchVictim fuel set rrpv =
    (Aging.search llcWay maxRrpv (2 ^ 32) fuel (rrpv set)).map fun r =>
      (r.1, Function.update rrpv set r.2) := by
  induction fuel generalizing rrpv with
  | zero => rfl
  | succ fuel ih =>
    rw [searchVictim, Aging.search]
    cases (List.range llcWay).find? fun i => rrpv set i == maxRrpv with
    | some i => simp
    | none =>
      simp only [ih, Function.update_self, Function.update_idem]
      rfl

/-- With values in bounds the search succeeds. -/
theorem victimFound (hle : ∀ w, rrpv set w ≤ maxRrpv) :
    ∃ way rrpv', VictimFound rrpv set way rrpv' ∧
      ∀ s w, rrpv' s w = if s = set ∧ w < llcWay then rrpv set w + (maxRrpv - rrpv set way)
        else rrpv s w := by
  obtain ⟨way, -, hfirst⟩ := Argmax.scan_first (rrpv set) (llcWay - 1)
  have hfirst : Argmax.IsFirst (rrpv set) llcWay way := hfirst
  have hway := hle way
  have hsearch {fuel : ℕ} (hfuel : maxRrpv + 1 ≤ fuel) :=
    @Aging.search_isFirst llcWay maxRrpv (2 ^ 32) (maxRrpv - rrpv set way) way fuel (rrpv set)
      (by decide) hfirst (by omega) (by omega)
  have hvalue (s w : ℕ) : Function.update rrpv set
      (Aging.advance llcWay (maxRrpv - rrpv set way) (rrpv set)) s w =
        if s = set ∧ w < llcWay then rrpv set w + (maxRrpv - rrpv set way) else rrpv s w := by
    rcases eq_or_ne s set with rfl | hs
    · rw [Function.update_self, Aging.advance]
      simp only [true_and]
    · simp [hs]
  refine ⟨way, _, ⟨fun fuel hfuel => ?_, hfirst, fun w hw w' hw' => ?_⟩, hvalue⟩
  · rw [searchVictim_eq, hsearch hfuel]
    rfl
  · rw [hvalue, hvalue, if_pos ⟨rfl, hw⟩, if_pos ⟨rfl, hw'⟩]
    exact Nat.add_lt_add_iff_right

/-- The search keeps the bound. -/
theorem searchVictim_le {rrpv' : ℕ → ℕ → ℕ} (hle : ∀ s w, rrpv s w ≤ maxRrpv)
    (h : searchVictim (maxRrpv + 1) set rrpv = some (way, rrpv')) (s w : ℕ) :
    rrpv' s w ≤ maxRrpv := by
  obtain ⟨way', rrpv'', hfound, hvalue⟩ := victimFound (hle set)
  rw [hfound.search _ (le_refl _)] at h
  obtain ⟨rfl, rfl⟩ := Prod.mk.inj (Option.some.inj h)
  rw [hvalue]
  split
  · rename_i hsw
    have hmax := hfound.first.le w hsw.2
    have hway := hle set way'
    omega
  · exact hle s w

theorem setRrpv_le (hle : ∀ s w, rrpv s w ≤ maxRrpv) (hv : value ≤ maxRrpv) (s w : ℕ) :
    setRrpv set way value rrpv s w ≤ maxRrpv := by
  rw [setRrpv]
  rcases eq_or_ne s set with rfl | hs
  · rw [Function.update_self]
    rcases eq_or_ne w way with rfl | hw
    · rwa [Function.update_self]
    · rw [Function.update_of_ne hw]
      exact hle s w
  · rw [Function.update_of_ne hs]
    exact hle s w

end

/-! ## DRRIP -/

namespace Drrip

section
variable {s s' : Drrip} {randSets : ℕ → ℕ} {cpu set way : ℕ} {type : AccessType} {hit : Bool}

theorem bip_le (hle : ∀ s' w, s.rrpv s' w ≤ maxRrpv) (s' w : ℕ) :
    (s.bip set way).rrpv s' w ≤ maxRrpv := by
  refine setRrpv_le hle ?_ s' w
  split
  · decide
  · exact le_refl _

/-- `llc_update_replacement_state` keeps the bound. -/
theorem update_le (hle : ∀ s' w, s.rrpv s' w ≤ maxRrpv)
    (h : s.llcUpdateReplacementState randSets cpu set way type hit = some s') (t w : ℕ) :
    s'.rrpv t w ≤ maxRrpv := by
  rw [llcUpdateReplacementState] at h
  split at h
  · obtain rfl := Option.some.inj h
    exact setRrpv_le hle (by decide) t w
  split at h
  · obtain rfl := Option.some.inj h
    exact setRrpv_le hle (by decide) t w
  split at h
  · split at h
    · obtain rfl := Option.some.inj h
      exact bip_le hle t w
    · obtain rfl := Option.some.inj h
      exact setRrpv_le hle (by decide) t w
  · obtain rfl := Option.some.inj h
    exact bip_le hle t w
  · obtain rfl := Option.some.inj h
    exact setRrpv_le hle (by decide) t w
  · cases h

/-- A set is a leader for one of the two policies. -/
theorem isItLeader_lt {leader : ℕ} (h : isItLeader randSets cpu set = some leader) :
    leader < numPolicy := by
  obtain ⟨i, hi, rfl⟩ := Option.map_eq_some_iff.1 h
  have hmem := List.mem_of_find?_eq_some hi
  rw [List.mem_range'_1] at hmem
  have hsdm : sdmSize = 32 := rfl
  have hpolicy : numPolicy = 2 := rfl
  rw [hpolicy, hsdm] at hmem ⊢
  omega

/-- No update fails. -/
theorem update_isSome :
    (s.llcUpdateReplacementState randSets cpu set way type hit).isSome = true := by
  rw [llcUpdateReplacementState]
  split
  · rfl
  split
  · rfl
  split
  · split <;> rfl
  · rfl
  · rfl
  · rename_i leader h0 h1 hleader
    have hlt := isItLeader_lt hleader
    have hpolicy : numPolicy = 2 := rfl
    have hleader' : leader = 0 ∨ leader = 1 := by omega
    exact absurd hleader' (not_or.2 ⟨h0, h1⟩)

/-- In every run the values stay in bounds. -/
theorem rrpv_le {n : ℕ} (h : (system randSets).Reachable (fun _ call => call.InBounds n) s) :
    ∀ t w, s.rrpv t w ≤ maxRrpv := by
  refine h.invariant (I := fun s => ∀ t w, s.rrpv t w ≤ maxRrpv) ?_ ?_
  · rintro s rfl t w
    exact le_refl _
  · intro s call s' os hle _ hstep
    cases call with
    | findVictim set =>
      obtain ⟨⟨way, s₁⟩, hfind, heq⟩ := Option.map_eq_some_iff.1 hstep
      obtain ⟨⟨way', rrpv'⟩, hsearch, heq'⟩ := Option.map_eq_some_iff.1 hfind
      obtain ⟨rfl, rfl⟩ := Prod.mk.inj heq'
      obtain ⟨rfl, -⟩ := Prod.mk.inj heq
      exact searchVictim_le hle hsearch
    | update cpu set way fullAddr ip type hit =>
      obtain ⟨s₁, hupdate, heq⟩ := Option.map_eq_some_iff.1 hstep
      obtain ⟨rfl, -⟩ := Prod.mk.inj heq
      exact update_le hle hupdate

end

end Drrip

/-! ## SHiP -/

namespace Ship

/-- What holds of the tables: the values are in bounds, each set of the sampler is in an LRU order,
and the counters are in bounds. -/
structure Sound (s : Ship) : Prop where
  rrpv_le : ∀ set way, s.rrpv set way ≤ maxRrpv
  ranked : ∀ sIdx, Ranks.Ranked samplerWay fun way => (s.sampler sIdx way).lru
  shct_le : ∀ cpu idx, s.shct cpu idx ≤ shctMax

section
variable {s s' : Ship} {numCpus cpu set way sIdx tag : ℕ} {ip fullAddr : UInt64} {hit : Bool}
  {type : AccessType} {randSets : ℕ → ℕ} {e : SamplerEntry} {s_set : ℕ → SamplerEntry}
  {rrpv : ℕ → ℕ → ℕ}

theorem Sound.init : Sound init :=
  ⟨fun _ _ => le_refl _, fun _ => Ranks.Ranked.id samplerWay, fun _ _ => Nat.zero_le _⟩

/-- Other values in bounds. -/
theorem Sound.withRrpv (h : Sound s) (hle : ∀ t w, rrpv t w ≤ maxRrpv) :
    Sound { s with rrpv := rrpv } :=
  ⟨hle, h.ranked, h.shct_le⟩

/-- One counter in bounds. -/
theorem Sound.withCounter (h : Sound s) {idx counter : ℕ} (hle : counter ≤ shctMax) :
    Sound { s with shct := setCounter cpu idx counter s.shct } := by
  refine ⟨h.rrpv_le, h.ranked, fun c i => ?_⟩
  show setCounter cpu idx counter s.shct c i ≤ shctMax
  rw [setCounter]
  rcases eq_or_ne c cpu with rfl | hc
  · rw [Function.update_self]
    rcases eq_or_ne i idx with rfl | hi
    · rwa [Function.update_self]
    · rw [Function.update_of_ne hi]
      exact h.shct_le c i
  · rw [Function.update_of_ne hc]
    exact h.shct_le c i

/-- An entry with the rank of the one before. -/
theorem Sound.setEntry (h : Sound s) (hlru : e.lru = (s.sampler sIdx way).lru) :
    Sound (s.setEntry sIdx way e) := by
  refine ⟨h.rrpv_le, fun t => ?_, h.shct_le⟩
  have hsame : (fun w => ((s.setEntry sIdx way e).sampler t w).lru) =
      fun w => (s.sampler t w).lru := by
    funext w
    show (Function.update s.sampler sIdx (Function.update (s.sampler sIdx) way e) t w).lru = _
    rcases eq_or_ne t sIdx with rfl | ht
    · rw [Function.update_self]
      rcases eq_or_ne w way with rfl | hw
      · rw [Function.update_self, hlru]
      · rw [Function.update_of_ne hw]
    · rw [Function.update_of_ne ht]
  rw [hsame]
  exact h.ranked t

theorem Sound.samplerHit (h : Sound s) : Sound (s.samplerHit cpu sIdx way) := by
  simp only [Ship.samplerHit]
  split
  · have hle := h.shct_le cpu (shctIdx (s.sampler sIdx way).ip)
    exact (h.withCounter (by omega)).setEntry rfl
  · exact h.setEntry rfl

theorem Sound.samplerFill (h : Sound s) : Sound (s.samplerFill sIdx way tag ip) := h.setEntry rfl

theorem Sound.samplerMiss (h : Sound s) : Sound (s.samplerMiss cpu sIdx way tag ip) := by
  simp only [Ship.samplerMiss]
  split
  · split
    · rename_i hlt
      exact (h.withCounter (Nat.succ_le_of_lt hlt)).setEntry rfl
    · exact h.setEntry rfl
  · exact h.setEntry rfl

/-- A search succeeds where an entry passes. -/
theorem scanSampler_lt (s_set : ℕ → SamplerEntry) (p : SamplerEntry → Bool) (hw : way < samplerWay)
    (hp : p (s_set way) = true) : scanSampler s_set p < samplerWay := by
  rw [scanSampler]
  cases hf : (List.range samplerWay).find? fun way => p (s_set way) with
  | none => exact absurd hp (List.find?_eq_none.1 hf way (List.mem_range.2 hw))
  | some w => exact List.mem_range.1 (List.mem_of_find?_eq_some hf)

/-- The searches end at an entry: if at no other, at the oldest one. -/
theorem Sound.searchSampler (h : Sound s) (cpu sIdx tag : ℕ) (ip : UInt64) :
    (s.searchSampler cpu sIdx tag ip).1 < samplerWay ∧
      Sound (s.searchSampler cpu sIdx tag ip).2 := by
  obtain ⟨old, hold, hlru⟩ := (h.ranked sIdx).exists_rank (c := samplerWay - 1) (by decide)
  have hlt := scanSampler_lt (s.sampler sIdx) (fun e => e.lru == samplerWay - 1) hold
    (by simpa using hlru)
  simp only [Ship.searchSampler]
  split
  · rename_i hway
    exact ⟨hway, h.samplerHit⟩
  split
  · rename_i hway
    exact ⟨hway, h.samplerFill⟩
  · exact ⟨hlt, h.samplerMiss⟩

/-- The LRU loop does to the ranks what the loop over them does. -/
theorem shiftSampler_lru (currPosition : ℕ) (ways : List ℕ) (s_set : ℕ → SamplerEntry) :
    (fun w => (shiftSampler currPosition ways s_set w).lru) =
      Ranks.shift currPosition ways fun w => (s_set w).lru := by
  induction ways generalizing s_set with
  | nil => rfl
  | cons i ways ih =>
    have hcons : shiftSampler currPosition (i :: ways) s_set = shiftSampler currPosition ways
        (if (s_set i).lru < currPosition then
          Function.update s_set i { s_set i with lru := (s_set i).lru + 1 }
        else s_set) := rfl
    rw [hcons, ih, Ranks.shift, Ranks.shift, List.foldl_cons]
    congr 1
    by_cases hlt : (s_set i).lru < currPosition
    · rw [if_pos hlt, if_pos hlt]
      funext w
      rcases eq_or_ne w i with rfl | hw
      · simp
      · simp [hw]
    · rw [if_neg hlt, if_neg hlt]

/-- The LRU update touches an entry. -/
theorem touchSampler_lru : (fun w => (touchSampler way s_set w).lru) =
    Ranks.touch samplerWay way fun w => (s_set w).lru := by
  rw [← Ranks.update_shift, ← shiftSampler_lru]
  funext w
  rw [touchSampler]
  rcases eq_or_ne w way with rfl | hw
  · simp
  · simp [hw]

/-- `update_sampler` finds its entry and keeps the order. -/
theorem Sound.updateSampler (h : Sound s) (numCpus cpu sIdx : ℕ) (fullAddr ip : UInt64) :
    ∃ s', s.updateSampler numCpus cpu sIdx fullAddr ip = some s' ∧ Sound s' := by
  obtain ⟨hway, hs⟩ := h.searchSampler cpu sIdx (samplerTag numCpus fullAddr) ip
  refine ⟨_, if_pos hway, hs.rrpv_le, fun t => ?_, hs.shct_le⟩
  rcases eq_or_ne t sIdx with rfl | ht
  · simp only [Function.update_self]
    rw [touchSampler_lru]
    exact (hs.ranked t).touch hway
  · simp only [Function.update_of_ne ht]
    exact hs.ranked t

theorem Sound.predict (h : Sound s) : Sound (s.predict cpu set way ip hit) := by
  rw [Ship.predict]
  split
  · exact h.withRrpv (setRrpv_le h.rrpv_le (by decide))
  split
  · exact h.withRrpv (setRrpv_le h.rrpv_le (by decide))
  · exact h.withRrpv (setRrpv_le h.rrpv_le (by decide))

/-- `llc_update_replacement_state` fails on a writeback of an instruction alone. -/
theorem Sound.update (h : Sound s) (numCpus : ℕ) (randSets : ℕ → ℕ) (cpu set way : ℕ)
    (fullAddr ip : UInt64) (type : AccessType) (hit : Bool) : (type = .writeback ∧ ip ≠ 0 ∧
      s.llcUpdateReplacementState numCpus randSets cpu set way fullAddr ip type hit = none) ∨
    ((type = .writeback → ip = 0) ∧ ∃ s', Sound s' ∧
      s.llcUpdateReplacementState numCpus randSets cpu set way fullAddr ip type hit = some s') := by
  rw [llcUpdateReplacementState]
  by_cases htype : type = .writeback
  · rw [if_pos htype]
    by_cases hip : ip = 0
    · refine .inr ⟨fun _ => hip, ?_⟩
      rw [if_neg (not_not.2 hip)]
      cases hit
      · exact ⟨_, h.withRrpv (setRrpv_le h.rrpv_le (by decide)), rfl⟩
      · exact ⟨_, h, rfl⟩
    · exact .inl ⟨htype, hip, if_pos hip⟩
  · refine .inr ⟨fun h' => absurd h' htype, ?_⟩
    rw [if_neg htype]
    simp only
    split
    · obtain ⟨s', hs', hsound⟩ := h.updateSampler numCpus cpu
        (isItSampled numCpus randSets set) fullAddr ip
      rw [hs']
      exact ⟨_, hsound.predict, rfl⟩
    · exact ⟨_, h.predict, rfl⟩

/-- In every run the tables are sound. -/
theorem Sound.reachable
    (h : (system numCpus randSets).Reachable (fun _ call => call.InBounds numCpus) s) :
    Sound s := by
  refine h.invariant ?_ ?_
  · rintro s rfl
    exact .init
  · intro s call s' os hs _ hstep
    cases call with
    | findVictim set =>
      obtain ⟨⟨way, s₁⟩, hfind, heq⟩ := Option.map_eq_some_iff.1 hstep
      obtain ⟨⟨way', rrpv'⟩, hsearch, heq'⟩ := Option.map_eq_some_iff.1 hfind
      obtain ⟨rfl, rfl⟩ := Prod.mk.inj heq'
      obtain ⟨rfl, -⟩ := Prod.mk.inj heq
      exact hs.withRrpv (searchVictim_le hs.rrpv_le hsearch)
    | update cpu set way fullAddr ip type hit =>
      obtain ⟨s₁, hupdate, heq⟩ := Option.map_eq_some_iff.1 hstep
      obtain ⟨rfl, -⟩ := Prod.mk.inj heq
      rcases hs.update numCpus randSets cpu set way fullAddr ip type hit with
        ⟨-, -, hnone⟩ | ⟨-, s₂, hsound, hsome⟩
      · rw [hupdate] at hnone
        cases hnone
      · rw [hupdate] at hsome
        obtain rfl := Option.some.inj hsome
        exact hsound

end

end Ship

/-- In every run of SHiP or DRRIP the values are at most `maxRRPV`, and `llc_find_victim` ends after
at most `maxRRPV + 1` rounds at the first way of the largest value and keeps the order of the
values. With SHiP each set of the sampler is in an LRU order, so that the searches of
`update_sampler` end at one of its entries, and the counters are at most `SHCT_MAX`. An update fails
nowhere but, with SHiP, on a writeback that has an instruction. -/
theorem rrip_sound (numCpus : ℕ) (randSets : ℕ → ℕ) :
    (∀ s, (Ship.system numCpus randSets).Reachable (fun _ call => call.InBounds numCpus) s →
      (∀ set < llcSet numCpus, ∀ way < llcWay, s.rrpv set way ≤ maxRrpv) ∧
      (∀ set < llcSet numCpus, ∃ way rrpv', VictimFound s.rrpv set way rrpv' ∧
        ∀ fuel, maxRrpv + 1 ≤ fuel →
          s.llcFindVictim fuel set = some (way, { s with rrpv := rrpv' })) ∧
      (∀ sIdx < samplerSet numCpus,
        ((List.range samplerWay).map fun way => (s.sampler sIdx way).lru).Perm
          (List.range samplerWay)) ∧
      (∀ cpu < numCpus, ∀ sIdx < samplerSet numCpus, ∀ tag ip,
        (s.searchSampler cpu sIdx tag ip).1 < samplerWay) ∧
      (∀ cpu < numCpus, ∀ idx < shctSize, s.shct cpu idx ≤ shctMax) ∧
      (∀ cpu set way fullAddr ip type hit, (type = .writeback → ip = 0) →
        (s.llcUpdateReplacementState numCpus randSets cpu set way fullAddr ip type hit).isSome)) ∧
    (∀ s, (Drrip.system randSets).Reachable (fun _ call => call.InBounds numCpus) s →
      (∀ set < llcSet numCpus, ∀ way < llcWay, s.rrpv set way ≤ maxRrpv) ∧
      (∀ set < llcSet numCpus, ∃ way rrpv', VictimFound s.rrpv set way rrpv' ∧
        ∀ fuel, maxRrpv + 1 ≤ fuel →
          s.llcFindVictim fuel set = some (way, { s with rrpv := rrpv' })) ∧
      (∀ cpu set way type hit,
        (s.llcUpdateReplacementState randSets cpu set way type hit).isSome)) := by
  refine ⟨fun s h => ?_, fun s h => ?_⟩
  · have hs := Ship.Sound.reachable h
    refine ⟨fun set _ way _ => hs.rrpv_le set way, fun set _ => ?_,
      fun sIdx _ => (hs.ranked sIdx).perm,
      fun cpu _ sIdx _ tag ip => (hs.searchSampler cpu sIdx tag ip).1,
      fun cpu _ idx _ => hs.shct_le cpu idx, fun cpu set way fullAddr ip type hit hip => ?_⟩
    · obtain ⟨way, rrpv', hfound, -⟩ := victimFound (hs.rrpv_le set)
      refine ⟨way, rrpv', hfound, fun fuel hfuel => ?_⟩
      rw [Ship.llcFindVictim, hfound.search fuel hfuel]
      rfl
    · rcases hs.update numCpus randSets cpu set way fullAddr ip type hit with
        ⟨htype, hne, -⟩ | ⟨-, s', -, hsome⟩
      · exact absurd (hip htype) hne
      · rw [hsome]
        rfl
  · have hle := Drrip.rrpv_le h
    refine ⟨fun set _ way _ => hle set way, fun set _ => ?_,
      fun cpu set way type hit => Drrip.update_isSome⟩
    obtain ⟨way, rrpv', hfound, -⟩ := victimFound (hle set)
    refine ⟨way, rrpv', hfound, fun fuel hfuel => ?_⟩
    rw [Drrip.llcFindVictim, hfound.search fuel hfuel]
    rfl

/-- An access of an instruction to the line of set 100 with this tag. -/
def lineLoad (way tag : ℕ) (hit : Bool) : PolicyCall :=
  .update 0 100 way (.ofNat (64 * (llcSet 1 * tag + 100))) 9 .load hit

/-- A set is filled, one of its lines is hit, and another one replaced. -/
def fillHitReplace : List PolicyCall :=
  (List.range llcWay).map (fun way => lineLoad way way false) ++
    [lineLoad 3 3 true, .findVictim 100, lineLoad 0 12 false]

/-- The victim search has a round, and with SHiP the oldest entry of the sampler, which was not used, is
replaced. -/
theorem rrip_sound_replaced :
    (∃ s, (Ship.system 1 id).Reachable (fun _ call => call.InBounds 1) s ∧
      (List.range 4).map (s.rrpv 100) = [2, 3, 3, 1] ∧ s.shct 0 9 = 1 ∧
      (s.sampler 100 0).tag = 12 ∧
      ∃ way rrpv', VictimFound s.rrpv 100 way rrpv') ∧
    ∃ s, (Drrip.system id).Reachable (fun _ call => call.InBounds 1) s ∧
      (List.range 4).map (s.rrpv 100) = [2, 3, 3, 1] ∧
      ∃ way rrpv', VictimFound s.rrpv 100 way rrpv' := by
  have hset : 100 < llcSet 1 := by decide
  obtain ⟨s, hs, hv⟩ := Lts.reachable_of_exec (Ship.system 1 id) (fun _ call => call.InBounds 1)
    (fun s => (List.range 4).map (s.rrpv 100) = [2, 3, 3, 1] ∧ s.shct 0 9 = 1 ∧
      (s.sampler 100 0).tag = 12) fillHitReplace rfl (by decide +kernel)
  obtain ⟨s', hs', hv'⟩ := Lts.reachable_of_exec (Drrip.system id) (fun _ call => call.InBounds 1)
    (fun s => (List.range 4).map (s.rrpv 100) = [2, 3, 3, 1]) fillHitReplace rfl
    (by decide +kernel)
  obtain ⟨hrrpv, hshct, htag⟩ := of_decide_eq_true hv
  obtain ⟨way, rrpv, hfound, -⟩ := ((rrip_sound 1 id).1 s hs).2.1 100 hset
  obtain ⟨way', rrpv', hfound', -⟩ := ((rrip_sound 1 id).2 s' hs').2.1 100 hset
  exact ⟨⟨s, hs, hrrpv, hshct, htag, way, rrpv, hfound⟩,
    ⟨s', hs', of_decide_eq_true hv', way', rrpv', hfound'⟩⟩

end Arishem
