import Arishem.Cache.Blocks
import Arishem.Cache.Bookkeeping

/-!
# A line lives in one way

Lines enter a set from the MSHR table (`handle_fill`) and, outside the L1D, straight from the write
queue (the miss branch of `handle_writeback`). The first path cannot duplicate a line, because an
outstanding line is in no way. The second path does not look at the table, so it can bring in a line
that is outstanding, and the fill that follows puts a second copy beside it. The RFO miss of the
L1D, which sits in the same function, does look. A line stays unique in the runs in which no
writeback overtakes a miss this way.
-/

namespace Arishem

/-- No set holds a line twice, and an outstanding line is in no way. -/
structure UniqueLines (cfg : Config) (c : Cache) : Prop where
  ways : ∀ set w w', w < cfg.numWay → w' < cfg.numWay → (c.block set w).valid = true →
    (c.block set w').valid = true → (c.block set w).tag = (c.block set w').tag → w = w'
  absent : ∀ a, a ≠ 0 → c.mshr.Has a → c.holdingWay cfg a = none
  named : ∀ set w, (c.block set w).valid = true → (c.block set w).address = (c.block set w).tag

/-- The step fills a writeback into a way while the line is outstanding: the head of the write queue
is due, it misses, a victim can be replaced, and the MSHR table has an entry for its line. -/
def Overtakes (cfg : Config) (c : Cache) (l : Env × Action) : Prop :=
  l.2 = .handleWriteback ∧ cfg.cacheType ≠ .l1d ∧
    ∃ p way evs, c.wq.head? = some p ∧ p.eventCycle ≤ l.1.cycle p.cpu ∧
      (c.checkHit cfg p).1 = none ∧ Cache.Victim cfg l.1 c p way evs ∧
      p.address ≠ 0 ∧ c.mshr.Has p.address

section
variable {cfg : Config} {env : Env} {c c' : Cache} {evs : List Event}

/-- A step that brings in no line keeps the lines unique. A line that becomes outstanding is in no
way. -/
theorem UniqueLines.quiet (h : UniqueLines cfg c)
    (hb : ∀ s w, (c'.block s w).valid = true →
      (c.block s w).valid = true ∧ (c'.block s w).tag = (c.block s w).tag ∧
        (c'.block s w).address = (c.block s w).address)
    (hm : ∀ a, a ≠ 0 → c'.mshr.Has a → c.mshr.Has a ∨ c.holdingWay cfg a = none) :
    UniqueLines cfg c' := by
  refine ⟨?_, ?_, ?_⟩
  · intro set w w' hw hw' hv hv' ht
    obtain ⟨hv, htw, _⟩ := hb _ _ hv
    obtain ⟨hv', htw', _⟩ := hb _ _ hv'
    rw [htw, htw'] at ht
    exact h.ways set w w' hw hw' hv hv' ht
  · intro a ha hhas
    have hnone : c.holdingWay cfg a = none := (hm a ha hhas).elim (h.absent a ha) id
    rw [Cache.holdingWay_none, Cache.findWay_none] at hnone ⊢
    obtain ⟨hperf, hnone⟩ := hnone
    refine ⟨hperf, fun w hw hv => ?_⟩
    obtain ⟨hv, ht, _⟩ := hb _ _ hv
    rw [ht]
    exact hnone w hw hv
  · intro set w hv
    obtain ⟨hv, ht, ha⟩ := hb _ _ hv
    rw [ht, ha]
    exact h.named set w hv

/-- Filling a line that no way holds keeps the lines unique, if the line is not outstanding
afterwards. -/
theorem UniqueLines.fill (h : UniqueLines cfg c) {a : Addr} (way : ℕ)
    (hnone : c.findWay cfg a = none)
    (hv : ∀ s w, (c'.block s w).valid =
      if s = cfg.getSet a ∧ w = way then true else (c.block s w).valid)
    (ht : ∀ s w, (c'.block s w).tag = if s = cfg.getSet a ∧ w = way then a else (c.block s w).tag)
    (hn : ∀ s w, (c'.block s w).address =
      if s = cfg.getSet a ∧ w = way then a else (c.block s w).address)
    (hm : ∀ b, b ≠ 0 → c'.mshr.Has b → c.mshr.Has b ∧ b ≠ a) :
    UniqueLines cfg c' := by
  rw [Cache.findWay_none] at hnone
  have hkey : ∀ s w, w < cfg.numWay → (c'.block s w).valid = true →
      (s = cfg.getSet a ∧ w = way ∧ (c'.block s w).tag = a) ∨
        ((c.block s w).valid = true ∧ (c'.block s w).tag = (c.block s w).tag ∧
          (s = cfg.getSet a → (c'.block s w).tag ≠ a)) := by
    intro s w hw hvw
    by_cases hc : s = cfg.getSet a ∧ w = way
    · exact .inl ⟨hc.1, hc.2, by rw [ht, if_pos hc]⟩
    · rw [hv, if_neg hc] at hvw
      refine .inr ⟨hvw, by rw [ht, if_neg hc], fun hs => ?_⟩
      rw [ht, if_neg hc]
      subst hs
      exact hnone w hw hvw
  refine ⟨?_, ?_, ?_⟩
  · intro set w w' hw hw' hvw hvw' htt
    rcases hkey set w hw hvw with ⟨hs, rfl, hta⟩ | ⟨h1, h2, h3⟩
    · rcases hkey set w' hw' hvw' with ⟨_, rfl, _⟩ | ⟨_, _, h3'⟩
      · rfl
      · exact absurd (htt.symm.trans hta) (h3' hs)
    · rcases hkey set w' hw' hvw' with ⟨hs, rfl, hta⟩ | ⟨h1', h2', _⟩
      · exact absurd (htt.trans hta) (h3 hs)
      · rw [h2, h2'] at htt
        exact h.ways set w w' hw hw' h1 h1' htt
  · intro b hb hhas
    obtain ⟨hhas, hba⟩ := hm b hb hhas
    have hbn := h.absent b hb hhas
    rw [Cache.holdingWay_none, Cache.findWay_none] at hbn ⊢
    refine ⟨hbn.1, fun w hw hvw => ?_⟩
    rcases hkey _ w hw hvw with ⟨_, _, hta⟩ | ⟨h1, h2, _⟩
    · rw [hta]
      exact hba.symm
    · rw [h2]
      exact hbn.2 w hw h1
  · intro set w hvw
    rw [hv] at hvw
    rw [ht, hn]
    split_ifs at hvw ⊢
    · rfl
    · exact h.named set w hvw

/-- A step that touches neither blocks nor MSHR table keeps the lines unique. -/
theorem UniqueLines.frame (h : UniqueLines cfg c) (hb : c'.block = c.block)
    (hm : c'.mshr = c.mshr) : UniqueLines cfg c' :=
  h.quiet (fun s w hv => ⟨by rw [← hb]; exact hv, by rw [hb], by rw [hb]⟩) fun a _ hh => .inl (hm ▸ hh)

/-- `add_mshr` for a line that missed keeps the lines unique. -/
theorem UniqueLines.addMshr (h : UniqueLines cfg c) {p : Packet} (hb : c'.block = c.block)
    (hm : c'.mshr = c.mshr.addMshr p) (hmiss : c.holdingWay cfg p.address = none) :
    UniqueLines cfg c' := by
  refine h.quiet (fun s w hv => ⟨by rw [← hb]; exact hv, by rw [hb], by rw [hb]⟩) fun a _ hh => ?_
  rw [hm] at hh
  rcases hh.of_addMshr with hh | rfl
  · exact .inl hh
  · exact .inr hmiss

/-- A merge into an outstanding miss keeps the lines unique. -/
theorem UniqueLines.update (h : UniqueLines cfg c) {a : Addr} {i : ℕ} {e p : Packet}
    (hf : c.mshr.checkMshr a = some (i, e)) (hs : Mshr.SameMiss e p) (hb : c'.block = c.block)
    (hm : c'.mshr = c.mshr.update i p) : UniqueLines cfg c' := by
  obtain ⟨hi, he, _⟩ := Mshr.checkMshr_some hf
  refine h.quiet (fun s w hv => ⟨by rw [← hb]; exact hv, by rw [hb], by rw [hb]⟩) fun b _ hh => ?_
  rw [hm] at hh
  exact .inl (hh.of_update hi he hs)

/-- `return_data` keeps the lines unique. -/
theorem UniqueLines.returnData (h : UniqueLines cfg c) {p : Packet}
    (hs : c.returnData cfg env p = some c') : UniqueLines cfg c' := by
  rw [Cache.returnData] at hs
  split at hs
  · cases hs
  · rename_i i e hf
    obtain ⟨hi, he, _⟩ := Mshr.checkMshr_some hf
    cases hs
    exact h.quiet (fun s w hv => ⟨hv, rfl, rfl⟩) fun b _ hh => .inl (hh.of_complete hi he)

/-- `handle_fill` keeps the lines unique. -/
theorem UniqueLines.fillStep (h : UniqueLines cfg c) (hok : MshrOk cfg c)
    (hs : Cache.FillStep cfg env c c' evs) : UniqueLines cfg c' := by
  cases hs with
  | idle => exact h
  | bypass hd _ =>
    obtain ⟨hi, _, _⟩ := hd.completed hok.ok
    refine h.quiet (fun s w hv => ⟨hv, rfl, rfl⟩) fun b hb hh => ?_
    exact .inl (hok.ok.has_of_remove hb hi hh).1
  | @fill p way evs' hd hv =>
    obtain ⟨hi, hp, hc⟩ := hd.completed hok.ok
    have hmem : p ∈ c.mshr.entry := hp ▸ List.getElem_mem hi
    have h0 : p.address ≠ 0 := hok.ok.address_ne_zero_of_returned hmem (by simp [hc])
    refine h.fill way
      (Cache.holdingWay_none.1 (h.absent _ h0 ⟨p, hmem, rfl⟩)).2 ?_ ?_ ?_ ?_
    · intro s w
      simp [Cache.fillWay, Cache.releaseMshr, Cache.install_valid]
    · intro s w
      simp [Cache.fillWay, Cache.releaseMshr, Cache.install_tag]
    · intro s w
      simp [Cache.fillWay, Cache.releaseMshr, Cache.install_address]
    · intro b hb hh
      obtain ⟨h1, h2⟩ := hok.ok.has_of_remove hb hi hh
      exact ⟨h1, by rw [hp] at h2; exact h2⟩

/-- `handle_writeback` keeps the lines unique where no writeback overtakes a miss. -/
theorem UniqueLines.writebackStep (h : UniqueLines cfg c)
    (hn : ¬ Overtakes cfg c (env, .handleWriteback))
    (hx : c.handleWriteback cfg env = some (c', evs)) : UniqueLines cfg c' := by
  cases Cache.handleWriteback_cases hx with
  | idle => exact h.frame rfl rfl
  | hit _ _ =>
    refine h.quiet (fun s w hv => ?_) fun a _ hh => .inl hh
    simpa [Cache.writebackHit] using hv
  | rfoNew _ _ hh _ _ =>
    exact h.addMshr (p := Cache.stamped env _) rfl rfl (Cache.holdingWay_of_miss hh)
  | rfoMerge _ _ _ _ hf =>
    obtain ⟨_, _, ha⟩ := Mshr.checkMshr_some hf
    exact h.update hf (Cache.mergedRfo_sameMiss ha) rfl rfl
  | @fill p rest way buffer evs' hq hcy ht hh hv =>
    refine h.fill way
      (Cache.holdingWay_none.1 (Cache.holdingWay_of_miss hh)).2 ?_ ?_ ?_ ?_
    · intro s w
      simp [Cache.writebackWay, Cache.install_valid]
    · intro s w
      simp [Cache.writebackWay, Cache.install_tag]
    · intro s w
      simp [Cache.writebackWay, Cache.install_address]
    · intro b hb hhas
      refine ⟨hhas, ?_⟩
      rintro rfl
      exact hn ⟨rfl, ht, p, way, evs', by rw [hq]; rfl, hcy, by rw [hh], ⟨hv.1, hv.2, hv.3, hv.4⟩,
        hb, hhas⟩

/-- A round of `handle_read` keeps the lines unique. -/
theorem UniqueLines.readStep (h : UniqueLines cfg c) (hs : Cache.ReadStep cfg env c c' evs) :
    UniqueLines cfg c' := by
  cases hs with
  | idle => exact h.frame rfl rfl
  | hit _ _ =>
    refine h.quiet (fun s w hv => ?_) fun a _ hh => .inl hh
    simpa [Cache.readHit] using hv
  | @new p rest buffer _ _ _ hh _ _ hn =>
    have hmiss := Cache.holdingWay_of_miss hh
    have hadd : UniqueLines cfg
        { c with pageBuffer := buffer, mshr := c.mshr.addMshr (Cache.stamped env p) } :=
      h.addMshr (p := Cache.stamped env p) rfl rfl hmiss
    simp only [Cache.readNew] at hn
    split at hn
    · cases hn
      exact hadd.frame rfl rfl
    · split at hn
      · split at hn
        · cases hn
        · rename_i hr
          cases hn
          exact (hadd.returnData hr).frame rfl rfl
      · cases hn
        exact hadd.frame rfl rfl
  | merge _ _ hf =>
    obtain ⟨_, _, ha⟩ := Mshr.checkMshr_some hf
    exact h.update hf (Cache.mergedRead_sameMiss ha) rfl rfl

/-- A round of `handle_prefetch` keeps the lines unique. -/
theorem UniqueLines.prefetchStep (h : UniqueLines cfg c)
    (hs : Cache.PrefetchStep cfg env c c' evs) : UniqueLines cfg c' := by
  cases hs with
  | idle => exact h.frame rfl rfl
  | hit _ _ =>
    refine h.quiet (fun s w hv => ?_) fun a _ hh => .inl hh
    simpa [Cache.prefetchHit] using hv
  | @new p rest buffer _ hh _ _ _ _ =>
    simp only [Cache.prefetchNew]
    split
    · refine h.addMshr (p := Cache.stamped env (Cache.prefetchOperated cfg env p)) rfl rfl ?_
      simpa [Cache.stamped] using Cache.holdingWay_of_miss hh
    · exact h.frame rfl rfl
  | drop _ _ => exact h.frame rfl rfl
  | merge _ _ hf => exact h.update hf Cache.lowerFillLevel_sameMiss rfl rfl

/-- `add_pq` does not touch the blocks. -/
theorem Cache.PqStep.block_eq {p : Packet} {r : Reply} (hs : Cache.PqStep cfg env c p r c' evs) :
    c'.block = c.block := by
  cases hs <;> rfl

/-- `invalidate_entry` keeps the lines unique. -/
theorem UniqueLines.invalidateEntry (h : UniqueLines cfg c) (a : Addr) :
    UniqueLines cfg (c.invalidateEntry cfg a) := by
  rw [Cache.invalidateEntry]
  split
  · exact h
  · refine h.quiet (fun s w hv => ?_) fun b _ hh => .inl hh
    simp only [Cache.setBlock] at hv ⊢
    split_ifs at hv ⊢
    · exact ⟨hv, rfl, rfl⟩

/-- Every step of a cache in which no writeback overtakes a miss keeps the lines unique. -/
theorem UniqueLines.act (h : UniqueLines cfg c) (hok : MshrOk cfg c) {a : Action}
    (hn : ¬ Overtakes cfg c (env, a)) (hs : c.act cfg env a = some (c', evs)) :
    UniqueLines cfg c' := by
  cases a with
  | addRq p =>
    obtain ⟨r, evs', hx, _⟩ := Cache.replied_some hs
    cases Cache.addRq_cases hx <;> exact h.frame rfl rfl
  | addWq p =>
    obtain ⟨r, evs', hx, _⟩ := Cache.replied_some hs
    cases (Cache.addWq_cases hx).1 <;> exact h.frame rfl rfl
  | addPq p =>
    obtain ⟨r, evs', hx, _⟩ := Cache.replied_some hs
    have hp := Cache.addPq_cases hx
    exact h.frame hp.block_eq hp.mshr_eq
  | prefetchLine cpu ip pfAddr fill metadata =>
    simp only [Cache.act, Cache.prefetchLine] at hs
    split at hs
    · split at hs
      · cases hs
      · rename_i hx
        cases hs
        have hp := Cache.addPq_cases hx
        exact h.frame hp.block_eq hp.mshr_eq
    · cases hs
      exact h.frame rfl rfl
  | returnData p =>
    obtain ⟨c₁, hx, he⟩ := Option.map_eq_some_iff.1 hs
    cases he
    exact h.returnData hx
  | invalidateEntry a =>
    cases hs
    exact h.invalidateEntry a
  | updateRob cpu =>
    cases hs
    rw [Cache.updateRob]
    split
    · exact h
    · split
      · exact h.frame rfl rfl
      · exact h
  | handleFill => exact h.fillStep hok (Cache.handleFill_cases hs)
  | handleWriteback => exact h.writebackStep hn hs
  | startReads =>
    cases hs
    exact h.frame rfl rfl
  | readOne => exact h.readStep (Cache.readOne_cases hs)
  | prefetchOne => exact h.prefetchStep (Cache.prefetchOne_cases hs)

end

/-- The restriction on a run under which lines stay unique. -/
def NeverOvertakes (cfg : Config) (c : Cache) (l : Env × Action) : Prop :=
  ReturnsInflight c l ∧ ¬ Overtakes cfg c l

/-- Lines stay unique in the runs without a writeback that overtakes a miss. -/
theorem UniqueLines.reachable {cfg : Config} {c : Cache}
    (h : (cacheLts cfg).Reachable (NeverOvertakes cfg) c) : MshrOk cfg c ∧ UniqueLines cfg c := by
  refine h.invariant (I := fun c => MshrOk cfg c ∧ UniqueLines cfg c) ?_ ?_
  · rintro s rfl
    refine ⟨⟨Mshr.init_ok _ _, by simp [Cache.init, Mshr.init, Mshr.size]⟩, ⟨?_, ?_, ?_⟩⟩
    · intro set w w' _ _ hv _ _
      cases hv
    · intro a ha hh
      exact absurd hh (Mshr.init_not_has ha)
    · intro set w hv
      cases hv
  · intro s l s' os hI hok hs
    exact ⟨hI.1.act hok.1 hs, hI.2.act hI.1 hok.2 hs⟩

/-- In every run in which no writeback overtakes a miss, no set holds two valid blocks with one tag;
so the way a lookup stops at is the only one with the line, and `invalidate_entry` leaves no
copy. -/
theorem line_in_one_way (cfg : Config) (c : Cache)
    (h : (cacheLts cfg).Reachable (NeverOvertakes cfg) c) :
    (∀ set w w', w < cfg.numWay → w' < cfg.numWay → (c.block set w).valid = true →
      (c.block set w').valid = true → (c.block set w).tag = (c.block set w').tag → w = w') ∧
    (∀ a way, c.findWay cfg a = some way → ∀ w < cfg.numWay,
      (c.block (cfg.getSet a) w).valid = true → (c.block (cfg.getSet a) w).tag = a → w = way) ∧
    (∀ a, (c.invalidateEntry cfg a).findWay cfg a = none) := by
  have hu := (UniqueLines.reachable h).2
  have honly : ∀ a way, c.findWay cfg a = some way → ∀ w < cfg.numWay,
      (c.block (cfg.getSet a) w).valid = true → (c.block (cfg.getSet a) w).tag = a → w = way := by
    intro a way hf w hw hv ht
    obtain ⟨hway, hvw, htw⟩ := Cache.findWay_some hf
    exact hu.ways _ w way hw hway hv hvw (ht.trans htw.symm)
  refine ⟨hu.ways, honly, fun a => ?_⟩
  cases hf : c.findWay cfg a with
  | none => rw [Cache.invalidateEntry, hf]; exact hf
  | some way =>
    rw [Cache.invalidateEntry, hf, Cache.findWay_none]
    intro w hw hv
    simp only [Cache.setBlock] at hv ⊢
    split_ifs at hv ⊢ with hc
    intro ht
    exact hc ⟨trivial, honly a way hf w hw hv ht⟩

/-- A prefetch of core 0 for a line, from the cache above. -/
def prefetchOf (numCpus : ℕ) (a : Addr) (fillLevel : Int) : Packet :=
  { Packet.empty numCpus with
    fillLevel := fillLevel, pfOriginLevel := fillL1, cpu := 0, address := a,
    fullAddr := a <<< log2BlockSize, type := .prefetch, eventCycle := 0 }

/-- A writeback of core 0 from the L1D. -/
def writebackOf (numCpus : ℕ) (a : Addr) : Packet :=
  { Packet.empty numCpus with
    fillLevel := fillL2, cpu := 0, address := a, fullAddr := a <<< log2BlockSize,
    type := .writeback, eventCycle := 0 }

/-- The L2C sends a prefetch for line 7 below; before the answer the L1D writes line 7 back. -/
def overtakingRun : List (Env × Action) :=
  [Action.addPq (prefetchOf 1 7 fillL2), .addWq (writebackOf 1 7)].map (Env.calmAt 10, ·) ++
  [Action.startReads, .prefetchOne, .handleWriteback].map (Env.calmAt 20, ·) ++
  [Action.returnData (prefetchOf 1 7 fillL2)].map (Env.calmAt 20, ·) ++
  [Action.handleFill].map (Env.calmAt 30, ·)

/-- The L2C holds line 7 twice, and `invalidate_entry` leaves one copy. -/
theorem line_in_two_ways :
    ∃ c, (cacheLts (l2cConfig 1)).Reachable ReturnsInflight c ∧
      (c.block 7 0).valid = true ∧ (c.block 7 1).valid = true ∧
      (c.block 7 0).tag = 7 ∧ (c.block 7 1).tag = 7 ∧
      (c.invalidateEntry (l2cConfig 1) 7).findWay (l2cConfig 1) 7 = some 1 := by
  obtain ⟨c, hr, hp⟩ := Lts.reachable_of_exec (cacheLts (l2cConfig 1)) ReturnsInflight
    (fun c => (c.block 7 0).valid && (c.block 7 1).valid && (c.block 7 0).tag == 7 &&
      (c.block 7 1).tag == 7 &&
      (c.invalidateEntry (l2cConfig 1) 7).findWay (l2cConfig 1) 7 == some 1)
    overtakingRun rfl (by decide +kernel)
  refine ⟨c, hr, ?_⟩
  simpa [and_assoc] using hp

/-- Without the writeback the same run keeps line 7 in one way. -/
theorem line_in_one_way_prefetch :
    ∃ c : Cache, c.findWay (l2cConfig 1) 7 = some 0 ∧
      ∀ w < 10, (c.block 7 w).valid = true → (c.block 7 w).tag = 7 → w = 0 := by
  obtain ⟨c, hr, hp⟩ := Lts.reachable_of_exec (cacheLts (l2cConfig 1))
    (fun c l => ReturnsInflight c l ∧ l.2 ≠ .handleWriteback)
    (fun c => c.findWay (l2cConfig 1) 7 == some 0)
    (overtakingRun.filter fun l => l.2 ≠ .handleWriteback) rfl (by decide +kernel)
  have hf : c.findWay (l2cConfig 1) 7 = some 0 := by simpa using hp
  have hr' : (cacheLts (l2cConfig 1)).Reachable (NeverOvertakes (l2cConfig 1)) c :=
    hr.mono fun _ _ h => ⟨h.1, fun ho => h.2 ho.1⟩
  exact ⟨c, hf, (line_in_one_way (l2cConfig 1) c hr').2.1 7 0 hf⟩

end Arishem
