import Arishem.Cache.Lines

/-!
# No store is forgotten

At the L1D a retired store is an RFO in the write queue. Once `handle_writeback` takes it out, the
only memory of it is the dirty bit of the line or, while the line is outstanding, the type of the
MSHR entry, at which `handle_fill` looks to set the bit. A store that is merged into an outstanding
prefetch takes the entry over; a store that is merged into an outstanding load does not, and the
line comes in clean. The memory of a store lasts in the runs without such a merge, until the line is
written back or invalidated.
-/

namespace Arishem

/-- The way that stands for the line is dirty. -/
def DirtyLine (cfg : Config) (a : Addr) (c : Cache) : Prop :=
  ∃ way, c.holdingWay cfg a = some way ∧ (c.block (cfg.getSet a) way).dirty = true

/-- The line is outstanding for a store. -/
def PendingStore (a : Addr) (c : Cache) : Prop :=
  a ≠ 0 ∧ ∃ e ∈ c.mshr.entry, e.address = a ∧ e.type = .rfo

/-- The cache remembers a store to the line. -/
def StoreKept (cfg : Config) (a : Addr) (c : Cache) : Prop :=
  DirtyLine cfg a c ∨ PendingStore a c

/-- The step merges a store into an outstanding miss that is neither a store nor a prefetch: the
head of the write queue is an RFO that is due and misses, and `check_mshr` finds such an entry. -/
def Forgets (cfg : Config) (c : Cache) (l : Env × Action) : Prop :=
  l.2 = .handleWriteback ∧
    match c.wq with
    | [] => False
    | p :: _ => p.type = .rfo ∧ p.eventCycle ≤ l.1.cycle p.cpu ∧ (c.checkHit cfg p).1 = none ∧
      match c.mshr.checkMshr p.address with
      | none => False
      | some (_, e) => e.type ≠ .rfo ∧ e.type ≠ .prefetch

/-- The event sends the line's writeback below. -/
def Event.writesBack (a : Addr) : Event → Bool
  | .lowerAddWq w => w.type == .writeback && w.address == a
  | _ => false

/-- The step may end the memory of a store to the line: it sends the line's writeback below, or
invalidates the line. -/
def EndsStore (a : Addr) (x : (Env × Action) × List Event) : Prop :=
  x.1.2 = .invalidateEntry a ∨ x.2.any (Event.writesBack a) = true

instance (cfg : Config) (c : Cache) (l : Env × Action) : Decidable (Forgets cfg c l) := by
  unfold Forgets
  refine @instDecidableAnd _ _ _ ?_
  split
  · infer_instance
  · refine @instDecidableAnd _ _ _ (@instDecidableAnd _ _ _ (@instDecidableAnd _ _ _ ?_))
    split <;> infer_instance

instance (a : Addr) (x : (Env × Action) × List Event) : Decidable (EndsStore a x) := by
  unfold EndsStore
  infer_instance

section
variable {cfg : Config} {env : Env} {c c' : Cache} {evs : List Event} {a : Addr}

/-! ## Lines -/

/-- Lookups depend on the valid bits and the tags only. -/
theorem Cache.holdingWay_congr
    (hb : ∀ s w, (c'.block s w).valid = (c.block s w).valid ∧
      (c'.block s w).tag = (c.block s w).tag) :
    c'.holdingWay cfg a = c.holdingWay cfg a := by
  have hf : c'.findWay cfg a = c.findWay cfg a := by
    simp only [Cache.findWay, (hb _ _).1, (hb _ _).2]
  rw [Cache.holdingWay, Cache.holdingWay, hf]

/-- In a cache that is not perfect the way with the line's tag is the one that is found. -/
theorem UniqueLines.holdingWay (h : UniqueLines cfg c)
    (hperf : (cfg.hasKnob && cfg.perfect) = false) {w : ℕ} (hw : w < cfg.numWay)
    (hv : (c.block (cfg.getSet a) w).valid = true) (ht : (c.block (cfg.getSet a) w).tag = a) :
    c.holdingWay cfg a = some w := by
  rw [Cache.holdingWay, hperf, if_neg (by simp)]
  cases hf : c.findWay cfg a with
  | none => exact absurd ht (Cache.findWay_none.1 hf w hw hv)
  | some w' =>
    obtain ⟨hw', hv', ht'⟩ := Cache.findWay_some hf
    rw [h.ways _ w' w hw' hw hv' hv (ht'.trans ht.symm)]

/-- A dirty line stays dirty when no tag changes and no dirty bit is cleared. -/
theorem DirtyLine.quiet (h : DirtyLine cfg a c)
    (hb : ∀ s w, (c'.block s w).valid = (c.block s w).valid ∧
      (c'.block s w).tag = (c.block s w).tag)
    (hd : ∀ s w, (c.block s w).dirty = true → (c'.block s w).dirty = true) :
    DirtyLine cfg a c' := by
  obtain ⟨way, hway, hdirty⟩ := h
  exact ⟨way, by rw [Cache.holdingWay_congr hb, hway], hd _ _ hdirty⟩

/-- Evicting a dirty victim sends its writeback below. -/
theorem Cache.Victim.writeback {p : Packet} {way : ℕ} (h : Cache.Victim cfg env c p way evs)
    (hlow : cfg.hasLower = true) (hd : (c.block (cfg.getSet p.address) way).dirty = true) :
    evs.any (Event.writesBack (c.block (cfg.getSet p.address) way).address) = true := by
  obtain ⟨v, hv, hevs⟩ := h.evicted
  simp only [Cache.evict, hd, hlow, if_true] at hv
  split at hv
  · cases hv
    cases hevs
  · cases hv
    cases hevs
    simp [Event.writesBack, Cache.writebackPacket]

/-! ## Outstanding stores -/

/-- An outstanding store is not affected by a new miss. -/
theorem PendingStore.addMshr (h : PendingStore a c) {p : Packet}
    (hm : c'.mshr = c.mshr.addMshr p) : PendingStore a c' := by
  obtain ⟨ha, e, he, hea, het⟩ := h
  refine ⟨ha, e, ?_, hea, het⟩
  rw [hm]
  cases hf : c.mshr.checkMshr 0 with
  | none => rw [Mshr.addMshr, hf]; exact he
  | some ie =>
    obtain ⟨hi, he', h0⟩ := Mshr.checkMshr_some (i := ie.1) (e := ie.2) hf
    rw [Mshr.addMshr_of_free (i := ie.1) (e := ie.2) hf]
    refine Slots.mem_set_of_ne hi he fun hee => ha ?_
    rw [← hea, ← hee, he', h0]

/-- An outstanding store survives merges. -/
theorem PendingStore.update (h : PendingStore a c) {b : Addr} {i : ℕ} {e p : Packet}
    (hf : c.mshr.checkMshr b = some (i, e)) (hs : Mshr.SameMiss e p)
    (hm : c'.mshr = c.mshr.update i p) : PendingStore a c' := by
  obtain ⟨ha, q, hq, hqa, hqt⟩ := h
  obtain ⟨hi, he, _⟩ := Mshr.checkMshr_some hf
  rw [PendingStore, hm, Mshr.entry_update]
  by_cases hqe : c.mshr.entry[i] = q
  · obtain rfl : e = q := he.symm.trans hqe
    exact ⟨ha, p, List.mem_set hi p, hs.address.trans hqa, (hs.type (by simp [hqt])).trans hqt⟩
  · exact ⟨ha, q, Slots.mem_set_of_ne hi hq hqe, hqa, hqt⟩

/-- An outstanding store survives the answer from below. -/
theorem PendingStore.returnData (h : PendingStore a c) {p : Packet}
    (hs : c.returnData cfg env p = some c') : PendingStore a c' := by
  obtain ⟨ha, q, hq, hqa, hqt⟩ := h
  rw [Cache.returnData] at hs
  split at hs
  · cases hs
  · rename_i i e hf
    obtain ⟨hi, he, _⟩ := Mshr.checkMshr_some hf
    cases hs
    rw [PendingStore, Mshr.entry_complete]
    by_cases hqe : c.mshr.entry[i] = q
    · obtain rfl : e = q := he.symm.trans hqe
      exact ⟨ha, _, List.mem_set hi _, hqa, hqt⟩
    · exact ⟨ha, q, Slots.mem_set_of_ne hi hq hqe, hqa, hqt⟩

/-! ## What a step does to a remembered store -/

/-- A step that touches neither blocks nor MSHR table. -/
theorem StoreKept.frame (h : StoreKept cfg a c) (hb : c'.block = c.block)
    (hm : c'.mshr = c.mshr) : StoreKept cfg a c' := by
  rcases h with h | h
  · exact .inl (h.quiet (fun s w => by rw [hb]; exact ⟨rfl, rfl⟩) fun s w hd => by rw [hb]; exact hd)
  · rw [PendingStore, ← hm] at h
    exact .inr h

/-- A step that leaves the tags and the MSHR table alone and clears no dirty bit. -/
theorem StoreKept.touch (h : StoreKept cfg a c)
    (hb : ∀ s w, (c'.block s w).valid = (c.block s w).valid ∧
      (c'.block s w).tag = (c.block s w).tag)
    (hd : ∀ s w, (c.block s w).dirty = true → (c'.block s w).dirty = true)
    (hm : c'.mshr = c.mshr) : StoreKept cfg a c' := by
  rcases h with h | h
  · exact .inl (h.quiet hb hd)
  · rw [PendingStore, ← hm] at h
    exact .inr h

/-- A new miss. -/
theorem StoreKept.addMshr (h : StoreKept cfg a c) {p : Packet} (hb : c'.block = c.block)
    (hm : c'.mshr = c.mshr.addMshr p) : StoreKept cfg a c' := by
  rcases h with h | h
  · exact .inl (h.quiet (fun s w => by rw [hb]; exact ⟨rfl, rfl⟩) fun s w hd => by rw [hb]; exact hd)
  · exact .inr (h.addMshr hm)

/-- A merge. -/
theorem StoreKept.update (h : StoreKept cfg a c) {b : Addr} {i : ℕ} {e p : Packet}
    (hf : c.mshr.checkMshr b = some (i, e)) (hs : Mshr.SameMiss e p) (hb : c'.block = c.block)
    (hm : c'.mshr = c.mshr.update i p) : StoreKept cfg a c' := by
  rcases h with h | h
  · exact .inl (h.quiet (fun s w => by rw [hb]; exact ⟨rfl, rfl⟩) fun s w hd => by rw [hb]; exact hd)
  · exact .inr (h.update hf hs hm)

/-- The answer from below. -/
theorem StoreKept.returnData (h : StoreKept cfg a c) {p : Packet}
    (hs : c.returnData cfg env p = some c') : StoreKept cfg a c' := by
  rcases h with h | h
  · refine .inl (h.quiet ?_ ?_)
    all_goals
      rw [Cache.returnData] at hs
      split at hs
      · cases hs
      · cases hs
        simp
  · exact .inr (h.returnData hs)

/-- `handle_fill` at the L1D: an outstanding store makes its line dirty, and a dirty line that is
replaced is written back. -/
theorem StoreKept.fillStep (h : StoreKept cfg a c) (hok : MshrOk cfg c) (hu : UniqueLines cfg c)
    (ht : cfg.cacheType = .l1d) (hlow : cfg.hasLower = true)
    (hs : Cache.FillStep cfg env c c' evs) :
    StoreKept cfg a c' ∨ evs.any (Event.writesBack a) = true := by
  have hu' := hu.fillStep hok hs
  cases hs with
  | idle => exact .inl h
  | bypass _ hllc => rw [ht] at hllc; cases hllc
  | @fill p way evs' hd hv =>
    obtain ⟨hi, hp, hc⟩ := hd.completed hok.ok
    have hmem : p ∈ c.mshr.entry := hp ▸ List.getElem_mem hi
    have h0 : p.address ≠ 0 := hok.ok.address_ne_zero_of_returned hmem (by simp [hc])
    obtain ⟨hperf, hnone⟩ := Cache.holdingWay_none.1 (hu.absent _ h0 ⟨p, hmem, rfl⟩)
    rcases h with ⟨w, hw, hdirty⟩ | ⟨ha, e, he, hea, het⟩
    · rw [Cache.holdingWay, hperf, if_neg (by simp)] at hw
      obtain ⟨hlt, hvw, htw⟩ := Cache.findWay_some hw
      by_cases hsame : cfg.getSet a = cfg.getSet p.address ∧ w = way
      · obtain ⟨hset, rfl⟩ := hsame
        rw [hset] at hdirty hvw htw
        have hwb := hv.writeback hlow hdirty
        rw [hu.named _ _ hvw, htw] at hwb
        exact .inr (by rw [List.any_append, hwb, Bool.true_or])
      · refine .inl (.inl ⟨w, hu'.holdingWay hperf hlt ?_ ?_, ?_⟩)
        · simp [Cache.fillWay, Cache.releaseMshr, Cache.install_valid, hvw]
        · simp [Cache.fillWay, Cache.releaseMshr, Cache.install_tag, hsame, htw]
        · simp only [Cache.fillWay, Cache.releaseMshr, Cache.markRfo]
          split_ifs
          · simp [Cache.markDirty_dirty, hsame, Cache.install_dirty, hdirty]
          · simp [hsame, Cache.install_dirty, hdirty]
    · by_cases hep : c.mshr.entry[c.mshr.nextFillIndex] = e
      · obtain rfl : p = e := hp.symm.trans hep
        subst hea
        refine .inl (.inl ⟨way, hu'.holdingWay hperf hv.lt ?_ ?_, ?_⟩)
        · simp [Cache.fillWay, Cache.releaseMshr, Cache.install_valid]
        · simp [Cache.fillWay, Cache.releaseMshr, Cache.install_tag]
        · simp [Cache.fillWay, Cache.releaseMshr, Cache.markRfo, ht, het, Cache.markDirty_dirty]
      · refine .inl (.inr ⟨ha, e, ?_, hea, het⟩)
        exact Slots.mem_set_of_ne hi he hep

/-- `handle_writeback` keeps every remembered store. -/
theorem StoreKept.writebackStep (h : StoreKept cfg a c) (ht : cfg.cacheType = .l1d)
    (hs : Cache.WritebackStep cfg env c c' evs) : StoreKept cfg a c' := by
  cases hs with
  | idle => exact h.frame rfl rfl
  | hit _ _ =>
    refine h.touch (fun s w => ?_) (fun s w hd => ?_) rfl
    · simp [Cache.writebackHit]
    · simp [Cache.writebackHit, Cache.markDirty_dirty, hd]
  | rfoNew _ _ _ _ _ => exact h.addMshr (p := Cache.stamped env _) rfl rfl
  | rfoMerge _ _ _ _ hf =>
    obtain ⟨_, _, ha⟩ := Mshr.checkMshr_some hf
    exact h.update hf (Cache.mergedRfo_sameMiss ha) rfl rfl
  | fill _ _ hty _ _ => exact absurd ht hty

/-- A round of `handle_read` keeps every remembered store. -/
theorem StoreKept.readStep (h : StoreKept cfg a c) (hs : Cache.ReadStep cfg env c c' evs) :
    StoreKept cfg a c' := by
  cases hs with
  | idle => exact h.frame rfl rfl
  | hit _ _ =>
    refine h.touch (fun s w => ?_) (fun s w hd => ?_) rfl
    · simp [Cache.readHit]
    · simp [Cache.readHit, hd]
  | @new p rest buffer _ _ _ _ _ _ hn =>
    have hadd : StoreKept cfg a
        { c with pageBuffer := buffer, mshr := c.mshr.addMshr (Cache.stamped env p) } :=
      h.addMshr (p := Cache.stamped env p) rfl rfl
    simp only [Cache.readNew] at hn
    split at hn
    · cases hn
      exact hadd.frame rfl rfl
    · split at hn
      · split at hn
        · cases hn
        · rename_i hr
          cases hn
          exact (hadd.returnData hr).frame rfl rfl
      · cases hn
        exact hadd.frame rfl rfl
  | merge _ _ hf =>
    obtain ⟨_, _, ha⟩ := Mshr.checkMshr_some hf
    exact h.update hf (Cache.mergedRead_sameMiss ha) rfl rfl

/-- A round of `handle_prefetch` keeps every remembered store. -/
theorem StoreKept.prefetchStep (h : StoreKept cfg a c)
    (hs : Cache.PrefetchStep cfg env c c' evs) : StoreKept cfg a c' := by
  cases hs with
  | idle => exact h.frame rfl rfl
  | hit _ _ =>
    refine h.touch (fun s w => ?_) (fun s w hd => ?_) rfl
    · simp [Cache.prefetchHit]
    · simp [Cache.prefetchHit, hd]
  | @new p rest buffer _ _ _ _ _ _ =>
    simp only [Cache.prefetchNew]
    split
    · exact h.addMshr (p := Cache.stamped env (Cache.prefetchOperated cfg env p)) rfl rfl
    · exact h.frame rfl rfl
  | drop _ _ => exact h.frame rfl rfl
  | merge _ _ hf => exact h.update hf Cache.lowerFillLevel_sameMiss rfl rfl

/-- `invalidate_entry` of another line keeps a remembered store. -/
theorem StoreKept.invalidateEntry (h : StoreKept cfg a c) (hu : UniqueLines cfg c) {b : Addr}
    (hab : b ≠ a) : StoreKept cfg a (c.invalidateEntry cfg b) := by
  have hu' := hu.invalidateEntry b
  rw [Cache.invalidateEntry] at hu' ⊢
  cases hf : c.findWay cfg b with
  | none => exact h
  | some way =>
    simp only [hf] at hu' ⊢
    obtain ⟨_, _, htw⟩ := Cache.findWay_some hf
    rcases h with ⟨w, hw, hdirty⟩ | h
    · refine .inl ⟨w, ?_, ?_⟩
      · cases hperf : cfg.hasKnob && cfg.perfect with
        | true =>
          simp only [Cache.holdingWay, hperf, if_true] at hw ⊢
          exact hw
        | false =>
          rw [Cache.holdingWay, hperf, if_neg (by simp)] at hw
          obtain ⟨hlt, hvw, htw'⟩ := Cache.findWay_some hw
          have hne : ¬ (cfg.getSet a = cfg.getSet b ∧ w = way) := by
            rintro ⟨hset, rfl⟩
            rw [hset, htw] at htw'
            exact hab htw'
          refine hu'.holdingWay hperf hlt ?_ ?_
          · simp [Cache.setBlock, hne, hvw]
          · simp [Cache.setBlock, hne, htw']
      · simp only [Cache.setBlock]
        split_ifs with hc
        · rw [hc.1, hc.2] at hdirty
          exact hdirty
        · exact hdirty
    · exact .inr h

/-- Every step of the L1D keeps a remembered store, writes its line back or invalidates it. -/
theorem StoreKept.act (h : StoreKept cfg a c) (hok : MshrOk cfg c) (hu : UniqueLines cfg c)
    (ht : cfg.cacheType = .l1d) (hlow : cfg.hasLower = true) {x : Action}
    (hs : c.act cfg env x = some (c', evs)) :
    StoreKept cfg a c' ∨ EndsStore a ((env, x), evs) := by
  cases x with
  | addRq p =>
    obtain ⟨r, evs', hx, _⟩ := Cache.replied_some hs
    cases Cache.addRq_cases hx <;> exact .inl (h.frame rfl rfl)
  | addWq p =>
    obtain ⟨r, evs', hx, _⟩ := Cache.replied_some hs
    cases (Cache.addWq_cases hx).1 <;> exact .inl (h.frame rfl rfl)
  | addPq p =>
    obtain ⟨r, evs', hx, _⟩ := Cache.replied_some hs
    have hp := Cache.addPq_cases hx
    exact .inl (h.frame hp.block_eq hp.mshr_eq)
  | prefetchLine cpu ip pfAddr fill metadata =>
    simp only [Cache.act, Cache.prefetchLine] at hs
    split at hs
    · split at hs
      · cases hs
      · rename_i hx
        cases hs
        have hp := Cache.addPq_cases hx
        exact .inl (h.frame hp.block_eq hp.mshr_eq)
    · cases hs
      exact .inl (h.frame rfl rfl)
  | returnData p =>
    obtain ⟨c₁, hx, he⟩ := Option.map_eq_some_iff.1 hs
    cases he
    exact .inl (h.returnData hx)
  | invalidateEntry b =>
    cases hs
    by_cases hab : b = a
    · exact .inr (.inl (by rw [hab]))
    · exact .inl (h.invalidateEntry hu hab)
  | updateRob cpu =>
    cases hs
    rw [Cache.updateRob]
    split
    · exact .inl h
    · split
      · exact .inl (h.frame rfl rfl)
      · exact .inl h
  | handleFill =>
    exact (h.fillStep hok hu ht hlow (Cache.handleFill_cases hs)).imp_right .inr
  | handleWriteback => exact .inl (h.writebackStep ht (Cache.handleWriteback_cases hs))
  | startReads =>
    cases hs
    exact .inl (h.frame rfl rfl)
  | readOne => exact .inl (h.readStep (Cache.readOne_cases hs))
  | prefetchOne => exact .inl (h.prefetchStep (Cache.prefetchOne_cases hs))

/-- A store that `handle_writeback` takes out of the write queue is remembered, unless the step
forgets it. -/
theorem StoreKept.of_removed (hok : MshrOk cfg c) (ht : cfg.cacheType = .l1d) {p : Packet}
    {rest : List Packet} (hq : c.wq = p :: rest) (hp : p.type = .rfo)
    (hn : ¬ Forgets cfg c (env, .handleWriteback))
    (hx : c.handleWriteback cfg env = some (c', evs)) (hq' : c'.wq = rest) :
    StoreKept cfg p.address c' := by
  cases Cache.handleWriteback_cases hx with
  | idle =>
    have hlen := congrArg List.length (hq.symm.trans hq')
    simp at hlen
  | @hit q rest' way buffer hq₁ hh =>
    obtain ⟨rfl, rfl⟩ : p = q ∧ rest = rest' := by simpa [hq] using hq₁
    refine .inl ⟨way, ?_, ?_⟩
    · rw [Cache.holdingWay_congr (c := c) fun s w => by simp [Cache.writebackHit]]
      exact Cache.holdingWay_of_hit (by simp [hp]) hh
    · simp [Cache.writebackHit, Cache.markDirty_dirty]
  | @rfoNew q rest' buffer hq₁ _ hh hc hlt =>
    obtain ⟨rfl, rfl⟩ : p = q ∧ rest = rest' := by simpa [hq] using hq₁
    rw [← hok.size] at hlt
    obtain ⟨i, e, hf⟩ := hok.ok.exists_free hlt
    obtain ⟨hi, _, _⟩ := Mshr.checkMshr_some hf
    refine .inr ⟨hok.ok.address_ne_zero hlt hc,
      { Cache.stamped env p with returned := .inflight }, ?_, rfl, hp⟩
    simp only [Mshr.addMshr_of_free hf]
    exact List.mem_set hi _
  | @rfoMerge q rest' i e buffer hq₁ hcy _ hh hf =>
    obtain ⟨rfl, rfl⟩ : p = q ∧ rest = rest' := by simpa [hq] using hq₁
    obtain ⟨hi, he, ha⟩ := Mshr.checkMshr_some hf
    have hety : e.type = .rfo ∨ e.type = .prefetch := by
      by_contra hne
      rw [not_or] at hne
      refine hn ⟨rfl, ?_⟩
      simp only [hq, hf, hh]
      exact ⟨hp, hcy, trivial, hne.1, hne.2⟩
    have h0 : p.address ≠ 0 := fun h0 => by
      have hld := hok.ok.freeType e (Mshr.mem_of_checkMshr hf) (ha.trans h0)
      rcases hety with h1 | h1 <;> rw [hld] at h1 <;> cases h1
    refine .inr ⟨h0, Cache.mergedRfo p e, List.mem_set hi _, ?_, ?_⟩
    · exact (Cache.mergedRfo_sameMiss ha).address.trans ha
    · rw [Cache.mergedRfo, Cache.replacePrefetch]
      split
      · exact hp
      · rename_i hnp
        exact hety.resolve_right hnp
  | fill _ _ hty _ _ => exact absurd ht hty

end

/-! ## Runs -/

/-- The restriction on a run under which no store is forgotten. -/
def NeverForgets (cfg : Config) (c : Cache) (l : Env × Action) : Prop :=
  ReturnsInflight c l ∧ ¬ Forgets cfg c l

instance (cfg : Config) (c : Cache) (l : Env × Action) : Decidable (NeverForgets cfg c l) := by
  unfold NeverForgets
  infer_instance

/-- At the L1D no writeback overtakes a miss. -/
theorem UniqueLines.reachable_l1d {cfg : Config} (ht : cfg.cacheType = .l1d) {c : Cache}
    (h : (cacheLts cfg).Reachable ReturnsInflight c) : MshrOk cfg c ∧ UniqueLines cfg c :=
  UniqueLines.reachable (h.mono fun _ _ hr => ⟨hr, fun ho => ho.2.1 ht⟩)

/-- No store is forgotten by the L1D: in a run without a forgetting merge, when `handle_writeback`
takes an RFO out of the write queue, the line is dirty or outstanding for a store, and this stays so
until the line's writeback is sent below or the line is invalidated. In particular the line is there
and dirty once its miss is over. -/
theorem store_never_forgotten (cfg : Config) (ht : cfg.cacheType = .l1d)
    (hlow : cfg.hasLower = true) (c c₁ c₂ : Cache) (env : Env) (evs : List Event) (p : Packet)
    (rest : List Packet) (tr : Lts.Trace (Env × Action) Event)
    (h : (cacheLts cfg).Reachable (NeverForgets cfg) c)
    (hn : NeverForgets cfg c (env, .handleWriteback)) (hq : c.wq = p :: rest) (hp : p.type = .rfo)
    (hx : c.act cfg env .handleWriteback = some (c₁, evs)) (hq₁ : c₁.wq = rest)
    (hpath : (cacheLts cfg).Path (NeverForgets cfg) c₁ tr c₂)
    (htr : ∀ x ∈ tr, ¬ EndsStore p.address x) :
    StoreKept cfg p.address c₁ ∧ StoreKept cfg p.address c₂ ∧
      (¬ c₂.mshr.Has p.address → DirtyLine cfg p.address c₂) := by
  have hinv : ∀ c, (cacheLts cfg).Reachable (NeverForgets cfg) c →
      MshrOk cfg c ∧ UniqueLines cfg c := fun c hr =>
    UniqueLines.reachable_l1d ht (hr.mono fun _ _ h => h.1)
  have h₁ : StoreKept cfg p.address c₁ := .of_removed (hinv c h).1 ht hq hp hn.2 hx hq₁
  have hr₁ : (cacheLts cfg).Reachable (NeverForgets cfg) c₁ := h.step hn hx
  have h₂ : StoreKept cfg p.address c₂ :=
    hr₁.lasts (StoreKept cfg p.address) (EndsStore p.address)
      (fun s l s' os hr hP _ hs => hP.act (hinv s hr).1 (hinv s hr).2 ht hlow hs) h₁ hpath htr
  refine ⟨h₁, h₂, fun hhas => ?_⟩
  rcases h₂ with hd | ⟨_, e, he, hea, _⟩
  · exact hd
  · exact absurd ⟨e, he, hea⟩ hhas

/-- A store packet of core 0 for a line, as `retire_rob` sends it to the L1D. -/
def storePacket (numCpus : ℕ) (a : Addr) (sqIndex : ℕ) : Packet :=
  { Packet.empty numCpus with
    fillLevel := fillL1, cpu := 0, address := a, fullAddr := a <<< log2BlockSize,
    sqIndex := sqIndex, type := .rfo, eventCycle := 0 }

/-- A request for line 7 misses in the L1D, and a store to the line is in the write queue. -/
def storeAfter (request : Action) : List (Env × Action) :=
  [request, .addWq (storePacket 1 7 0)].map (Env.calmAt 10, ·) ++
  [Action.startReads, .readOne, .prefetchOne].map (Env.calmAt 15, ·)

/-- Line 7 comes back and is filled. -/
def lineReturns : List (Env × Action) :=
  [(Env.calmAt 30, .returnData (loadPacket 1 7 0)), (Env.calmAt 40, .handleFill)]

/-- `storeAfter`, then the store is taken out of the write queue, then `lineReturns`: the states
before and after the store is taken out, what follows, and the last state. -/
def storeRun (ok : Cache → Env × Action → Prop) [∀ c l, Decidable (ok c l)] (request : Action) :
    Option (Cache × Cache × List Event × Lts.Trace (Env × Action) Event × Cache) :=
  match (cacheLts (l1dConfig 1)).exec ok (Cache.init (l1dConfig 1)) (storeAfter request) with
  | none => none
  | some (c, _) =>
    match c.act (l1dConfig 1) (Env.calmAt 15) .handleWriteback with
    | none => none
    | some (c₁, evs) =>
      match (cacheLts (l1dConfig 1)).exec ok c₁ lineReturns with
      | none => none
      | some (c₂, tr) => some (c, c₁, evs, tr, c₂)

/-- What a `storeRun` is. -/
theorem storeRun_some {ok : Cache → Env × Action → Prop} [∀ c l, Decidable (ok c l)]
    {request : Action} {c c₁ c₂ : Cache} {evs : List Event}
    {tr : Lts.Trace (Env × Action) Event}
    (h : storeRun ok request = some (c, c₁, evs, tr, c₂)) :
    (cacheLts (l1dConfig 1)).Reachable ok c ∧
      c.act (l1dConfig 1) (Env.calmAt 15) .handleWriteback = some (c₁, evs) ∧
      (cacheLts (l1dConfig 1)).Path ok c₁ tr c₂ := by
  rw [storeRun] at h
  split at h <;> [cases h; rename_i he]
  split at h <;> [cases h; rename_i hs]
  split at h <;> [cases h; rename_i he']
  cases h
  exact ⟨⟨_, _, rfl, Lts.path_of_exec he⟩, hs, Lts.path_of_exec he'⟩

/-- A store that is merged into an outstanding load is forgotten: it leaves the write queue, and
when its line comes in, the line is clean, although nothing was written back or invalidated. -/
theorem store_forgotten :
    ∃ c env c₁ evs p rest tr c₂, (cacheLts (l1dConfig 1)).Reachable ReturnsInflight c ∧
      c.wq = p :: rest ∧ p.type = .rfo ∧ p.address = 7 ∧
      c.act (l1dConfig 1) env .handleWriteback = some (c₁, evs) ∧ c₁.wq = rest ∧
      (cacheLts (l1dConfig 1)).Path ReturnsInflight c₁ tr c₂ ∧ (∀ x ∈ tr, ¬ EndsStore 7 x) ∧
      c₂.findWay (l1dConfig 1) 7 = some 0 ∧ (c₂.block 7 0).dirty = false ∧
      c₂.mshr.occupancy = 0 := by
  have hrun : (storeRun ReturnsInflight (.addRq (loadPacket 1 7 0))).any (fun x =>
      x.1.wq.map (fun p => (p.type, p.address)) = [(.rfo, 7)] ∧ x.2.1.wq = [] ∧
      (∀ y ∈ x.2.2.2.1, ¬ EndsStore 7 y) ∧ x.2.2.2.2.findWay (l1dConfig 1) 7 = some 0 ∧
      (x.2.2.2.2.block 7 0).dirty = false ∧ x.2.2.2.2.mshr.occupancy = 0) = true := by
    decide +kernel
  obtain ⟨⟨c, c₁, evs, tr, c₂⟩, hx, hp⟩ := (Option.any_eq_true _ _).1 hrun
  obtain ⟨hr, hs, hpath⟩ := storeRun_some hx
  obtain ⟨hq, hq₁, htr, hf, hd, ho⟩ := of_decide_eq_true hp
  obtain ⟨p, rest, hq, hpt, hrest⟩ := List.map_eq_cons_iff.1 hq
  obtain ⟨ht, ha⟩ := Prod.mk.inj hpt
  exact ⟨c, _, c₁, evs, p, rest, tr, c₂, hr, hq, ht, ha, hs,
    hq₁.trans (List.map_eq_nil_iff.1 hrest).symm, hpath, htr, hf, hd, ho⟩

/-- A store that is merged into an outstanding prefetch is remembered: its line comes in dirty. -/
theorem store_never_forgotten_prefetch : ∃ c, DirtyLine (l1dConfig 1) 7 c := by
  have hrun : (storeRun (NeverForgets (l1dConfig 1)) (.addPq (prefetchOf 1 7 fillL1))).any (fun x =>
      x.1.wq.map (fun p => (p.type, p.address)) = [(.rfo, 7)] ∧ x.2.1.wq = [] ∧
      NeverForgets (l1dConfig 1) x.1 (Env.calmAt 15, .handleWriteback) ∧
      (∀ y ∈ x.2.2.2.1, ¬ EndsStore 7 y) ∧ ∀ e ∈ x.2.2.2.2.mshr.entry, e.address ≠ 7) = true := by
    decide +kernel
  obtain ⟨⟨c, c₁, evs, tr, c₂⟩, hx, hp⟩ := (Option.any_eq_true _ _).1 hrun
  obtain ⟨hr, hs, hpath⟩ := storeRun_some hx
  obtain ⟨hq, hq₁, hn, htr, ho⟩ := of_decide_eq_true hp
  obtain ⟨p, rest, hq, hpt, hrest⟩ := List.map_eq_cons_iff.1 hq
  obtain ⟨ht, ha⟩ := Prod.mk.inj hpt
  have hkept := store_never_forgotten (l1dConfig 1) rfl rfl c c₁ c₂ _ evs p rest tr hr hn hq ht hs
    (hq₁.trans (List.map_eq_nil_iff.1 hrest).symm) hpath (by rw [ha]; exact htr)
  rw [ha] at hkept
  exact ⟨c₂, hkept.2.2 fun ⟨e, he, hea⟩ => ho e he hea⟩

end Arishem
