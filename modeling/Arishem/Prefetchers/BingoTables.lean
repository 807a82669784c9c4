import Arishem.Prefetchers.BingoPht

/-!
# The generations of Bingo

A region, as far as its number is kept, is in the filter table or in the accumulation table, but not
in both. Either has the blocks that were loaded since the region entered, and no block of the region
was evicted since. The pattern history table has patterns of generations that ended.
-/

namespace Arishem

namespace Bingo

open SetAssociativeCache LruCache

section
variable {k : Knobs} {calls : List Call} {pc offset : ℕ} {queues : ℕ → Queues}
  {blockNumber regionNumber : ℕ}

/-- The number of the region of a block, as far as the tables keep it. -/
def regionOf (k : Knobs) (blockNumber : ℕ) : ℕ := blockNumber / k.patternLen % 2 ^ 37

/-- A generation: its region, its first access, and its blocks. -/
structure Generation where
  regionNumber : ℕ
  pc : ℕ
  offset : ℕ
  pattern : List Bool

/-- The pattern of one block. -/
def single (k : Knobs) (offset : ℕ) : List Bool := (List.replicate k.patternLen false).set offset true

/-- The offset of a load of a region. -/
def loadOf (k : Knobs) (regionNumber : ℕ) : Call → Option ℕ
  | .load _ _ blockNumber =>
    if regionOf k blockNumber = regionNumber then some (blockNumber % k.patternLen) else none
  | .fill _ => none

/-- The generation began with a load of its region, its blocks are those of the loads of the region
since, and no block of the region was evicted since. -/
def Footprint (k : Knobs) (calls : List Call) (g : Generation) : Prop :=
  ∃ before queues blockNumber after,
    calls = before ++ .load queues g.pc blockNumber :: after ∧
    regionOf k blockNumber = g.regionNumber ∧ blockNumber % k.patternLen = g.offset ∧
    (∀ b, .fill b ∈ after → regionOf k b ≠ g.regionNumber) ∧
    g.pattern = (after.filterMap (loadOf k g.regionNumber)).foldl (fun pattern i => pattern.set i true)
      (single k g.offset)

variable {g : Generation}

/-- The blocks of a generation. -/
theorem foldl_set_getD (offsets : List ℕ) (pattern : List Bool) (hlt : ∀ i ∈ offsets, i < pattern.length)
    (i : ℕ) : (offsets.foldl (fun pattern i => pattern.set i true) pattern).getD i false = true ↔
      pattern.getD i false = true ∨ i ∈ offsets := by
  induction offsets generalizing pattern with
  | nil => simp
  | cons o offsets ih =>
    obtain ⟨ho, hoffsets⟩ := List.forall_mem_cons.1 hlt
    rw [List.foldl_cons, ih _ (by simpa using hoffsets), List.mem_cons]
    rcases eq_or_ne i o with rfl | hne
    · have hset : (pattern.set i true).getD i false = true := by
        rw [List.getD_eq_getElem _ _ (by simpa using ho)]
        simp
      exact ⟨fun _ => .inr (.inl rfl), fun _ => .inl hset⟩
    · have hset : (pattern.set o true).getD i false = pattern.getD i false := by
        simp [List.getD_eq_getElem?_getD, List.getElem?_set_ne hne.symm]
      rw [hset]
      simp [hne]

theorem length_foldl_set (offsets : List ℕ) (pattern : List Bool) :
    (offsets.foldl (fun pattern i => pattern.set i true) pattern).length = pattern.length := by
  induction offsets generalizing pattern with
  | nil => rfl
  | cons o offsets ih => rw [List.foldl_cons, ih, List.length_set]

theorem length_single (k : Knobs) (offset : ℕ) : (single k offset).length = k.patternLen := by
  simp [single]

theorem Footprint.length (h : Footprint k calls g) : g.pattern.length = k.patternLen := by
  obtain ⟨before, queues, blockNumber, after, -, -, -, -, hpattern⟩ := h
  rw [hpattern, length_foldl_set, length_single]

theorem Footprint.offset_lt (h : Footprint k calls g) : g.offset < k.patternLen := by
  obtain ⟨before, queues, blockNumber, after, -, -, hoffset, -⟩ := h
  rw [← hoffset]
  exact Nat.mod_lt _ k.patternLen_pos

/-- The blocks of a generation are those that were loaded since it began. -/
theorem Footprint.blocks (h : Footprint k calls g) : ∃ before queues blockNumber after,
    calls = before ++ .load queues g.pc blockNumber :: after ∧
    regionOf k blockNumber = g.regionNumber ∧ blockNumber % k.patternLen = g.offset ∧
    (∀ b, .fill b ∈ after → regionOf k b ≠ g.regionNumber) ∧
    ∀ i, g.pattern.getD i false = true ↔
      ∃ call ∈ Call.load queues g.pc blockNumber :: after, loadOf k g.regionNumber call = some i := by
  have hoffset_lt := h.offset_lt
  obtain ⟨before, queues, blockNumber, after, hcalls, hregion, hoffset, hfill, hpattern⟩ := h
  refine ⟨before, queues, blockNumber, after, hcalls, hregion, hoffset, hfill, fun i => ?_⟩
  have hlt : ∀ i ∈ after.filterMap (loadOf k g.regionNumber),
      i < (single k g.offset).length := by
    intro i hi
    obtain ⟨call, -, hload⟩ := List.mem_filterMap.1 hi
    rw [length_single]
    cases call with
    | fill b => exact absurd hload (by simp [loadOf])
    | load queues pc b =>
      rw [loadOf] at hload
      split at hload
      · exact Option.some.inj hload ▸ Nat.mod_lt _ k.patternLen_pos
      · exact absurd hload (by simp)
  have hfirst : (single k g.offset).getD i false = true ↔
      loadOf k g.regionNumber (.load queues g.pc blockNumber) = some i := by
    rw [loadOf, if_pos hregion, hoffset, Option.some_inj, single]
    rcases eq_or_ne g.offset i with rfl | hne
    · simp [List.getD_eq_getElem?_getD, hoffset_lt]
    · simp only [List.getD_eq_getElem?_getD, List.getElem?_set_ne hne, List.getElem?_replicate, hne,
        iff_false]
      split <;> simp
  rw [hpattern, foldl_set_getD _ _ hlt, hfirst, List.mem_filterMap]
  simp

/-- A generation begins. -/
theorem Footprint.begin (k : Knobs) (calls : List Call) (queues : ℕ → Queues) (pc blockNumber : ℕ) :
    Footprint k (calls ++ [.load queues pc blockNumber])
      ⟨regionOf k blockNumber, pc, blockNumber % k.patternLen,
        single k (blockNumber % k.patternLen)⟩ :=
  ⟨calls, queues, blockNumber, [], rfl, rfl, rfl, fun _ h => absurd h List.not_mem_nil, rfl⟩

/-- A load of the region adds its block. -/
theorem Footprint.load (h : Footprint k calls g) (hregion : regionOf k blockNumber = g.regionNumber)
    (queues : ℕ → Queues) (pc : ℕ) : Footprint k (calls ++ [.load queues pc blockNumber])
      { g with pattern := g.pattern.set (blockNumber % k.patternLen) true } := by
  obtain ⟨before, queues', b, after, rfl, hb, hoffset, hfill, hpattern⟩ := h
  refine ⟨before, queues', b, after ++ [.load queues pc blockNumber], by simp, hb, hoffset, ?_, ?_⟩
  · intro b' hb'
    rcases List.mem_append.1 hb' with hb' | hb'
    · exact hfill b' hb'
    · simp at hb'
  · have hload : loadOf k g.regionNumber (.load queues pc blockNumber) =
        some (blockNumber % k.patternLen) := if_pos hregion
    rw [List.filterMap_append, List.foldl_append, ← hpattern]
    simp [hload]

/-- A call that is about another region. -/
def Elsewhere (k : Knobs) (regionNumber : ℕ) : Call → Prop
  | .load _ _ blockNumber => regionOf k blockNumber ≠ regionNumber
  | .fill blockNumber => regionOf k blockNumber ≠ regionNumber

/-- Calls about other regions change nothing. -/
theorem Footprint.elsewhere (h : Footprint k calls g) {call : Call}
    (hcall : Elsewhere k g.regionNumber call) : Footprint k (calls ++ [call]) g := by
  obtain ⟨before, queues, b, after, rfl, hb, hoffset, hfill, hpattern⟩ := h
  refine ⟨before, queues, b, after ++ [call], by simp, hb, hoffset, ?_, ?_⟩
  · intro b' hb'
    rcases List.mem_append.1 hb' with hb' | hb'
    · exact hfill b' hb'
    · obtain rfl := List.mem_singleton.1 hb'
      exact hcall
  · have hnone : loadOf k g.regionNumber call = none := by
      cases call with
      | load queues pc blockNumber => exact if_neg hcall
      | fill blockNumber => rfl
    rw [List.filterMap_append, List.foldl_append, ← hpattern]
    simp [hnone]

/-! ## The tables -/

/-- The key of the region of a block. -/
theorem regionKey_block (k : Knobs) (c : Geometry) (blockNumber : ℕ) :
    regionKey c (blockNumber / k.patternLen) = hashIndex (regionOf k blockNumber) c.indexLen := rfl

theorem regionOf_lt (k : Knobs) (blockNumber : ℕ) : regionOf k blockNumber < 2 ^ 37 :=
  Nat.mod_lt _ (Nat.two_pow_pos 37)

/-- The entries of the filter table have a generation of one block. -/
structure FilterOk (k : Knobs) (calls : List Call) (table : FilterTable) : Prop where
  wellFormed : table.WellFormed k.filterTable
  footprint : ∀ key d, table.data? k.filterTable key = some d → ∃ r < 2 ^ 37,
    key = hashIndex r k.filterTable.indexLen ∧ Footprint k calls ⟨r, d.pc, d.offset, single k d.offset⟩

/-- The entries of the accumulation table have a generation of several blocks. -/
structure AccumulationOk (k : Knobs) (calls : List Call) (table : AccumulationTable) : Prop where
  wellFormed : table.WellFormed k.accumulationTable
  footprint : ∀ key d, table.data? k.accumulationTable key = some d → ∃ r < 2 ^ 37,
    key = hashIndex r k.accumulationTable.indexLen ∧
    Footprint k calls ⟨r, d.pc, d.offset, d.pattern⟩ ∧
    ∃ i, i ≠ d.offset ∧ d.pattern.getD i false = true

/-- The entries of the pattern history table have a generation that is over. -/
structure HistoryOk (k : Knobs) (calls : List Call) (pht : PatternHistoryTable) : Prop where
  ok : PhtOk k pht
  footprint : ∀ key pattern, pht.data? k.pht key = some pattern → ∃ past g, past <+: calls ∧
    Footprint k past g ∧ key = phtKey k g.pc (g.regionNumber * k.patternLen + g.offset) ∧
    pattern = myRotate g.pattern (-(g.offset : ℤ))

/-- What every state keeps. -/
structure Inv (k : Knobs) (calls : List Call) (s : Bingo) : Prop where
  filter : FilterOk k calls s.filterTable
  acc : AccumulationOk k calls s.accumulationTable
  history : HistoryOk k calls s.pht
  streamer : s.pfStreamer.WellFormed k.pfStreamer
  disjoint : ∀ r < 2 ^ 37,
    s.filterTable.data? k.filterTable (hashIndex r k.filterTable.indexLen) ≠ none →
      s.accumulationTable.data? k.accumulationTable
        (hashIndex r k.accumulationTable.indexLen) = none

theorem HistoryOk.mono {calls' : List Call} {pht : PatternHistoryTable} (h : HistoryOk k calls pht)
    (hcalls : calls <+: calls') : HistoryOk k calls' pht := by
  refine ⟨h.ok, fun key pattern hdata => ?_⟩
  obtain ⟨past, g, hpast, hrest⟩ := h.footprint key pattern hdata
  exact ⟨past, g, hpast.trans hcalls, hrest⟩

/-- A generation that is over goes to the table. -/
theorem HistoryOk.insert {pht : PatternHistoryTable} (h : HistoryOk k calls pht) {past : List Call}
    (hpast : past <+: calls) (hg : Footprint k past g) :
    HistoryOk k calls
      (phtInsert k pht g.pc (g.regionNumber * k.patternLen + g.offset) g.pattern) := by
  have hoffset : (g.regionNumber * k.patternLen + g.offset) % k.patternLen = g.offset := by
    rw [Nat.mul_add_mod_self_right, Nat.mod_eq_of_lt hg.offset_lt]
  have hput := h.ok.wellFormed.put (phtKey k g.pc (g.regionNumber * k.patternLen + g.offset))
    (myRotate g.pattern (-(g.offset : ℤ)))
  have hdata : ∀ key pattern,
      ((pht.put k.pht (phtKey k g.pc (g.regionNumber * k.patternLen + g.offset))
        (myRotate g.pattern (-(g.offset : ℤ)))).1.data? k.pht key) = some pattern →
      (key = phtKey k g.pc (g.regionNumber * k.patternLen + g.offset) ∧
        pattern = myRotate g.pattern (-(g.offset : ℤ))) ∨ pht.data? k.pht key = some pattern := by
    intro key pattern hkey
    rcases eq_or_ne key (phtKey k g.pc (g.regionNumber * k.patternLen + g.offset)) with rfl | hne
    · rw [h.ok.wellFormed.data?_put] at hkey
      exact .inl ⟨rfl, (Option.some.inj hkey).symm⟩
    · rw [h.ok.wellFormed.data?_put_of_ne hne] at hkey
      split at hkey
      · exact absurd hkey (by simp)
      · exact .inr hkey
  rw [phtInsert, hoffset]
  refine ⟨⟨hput, fun key pattern hkey => ?_⟩, fun key pattern hkey => ?_⟩
  · rcases hdata key pattern hkey with ⟨rfl, rfl⟩ | hold
    · exact ⟨(length_myRotate _ _).trans hg.length, _, _, rfl⟩
    · exact h.ok.stored key pattern hold
  · rcases hdata key pattern hkey with ⟨rfl, rfl⟩ | hold
    · exact ⟨past, g, hpast, hg, rfl, rfl⟩
    · exact h.footprint key pattern hold

/-- A lookup changes no data. -/
theorem HistoryOk.find (hk : k.Valid) {pht : PatternHistoryTable} (h : HistoryOk k calls pht)
    (pc address : ℕ) : HistoryOk k calls (phtFind k pht pc address).1 := by
  cases hdata : pht.data? k.pht (phtKey k pc address) with
  | none =>
    rw [(phtFind_miss hk h.ok hdata).1]
    exact h
  | some pattern =>
    rw [phtFind_hit hk h.ok hdata]
    have hsame := h.ok.wellFormed.data?_setMru hdata
    refine ⟨⟨h.ok.wellFormed.setMru hdata, fun key pattern' hkey => ?_⟩, fun key pattern' hkey => ?_⟩
    · exact h.ok.stored key pattern' (hsame key ▸ hkey)
    · exact h.footprint key pattern' (hsame key ▸ hkey)

/-- The other entries of the filter table, while a region is loaded or evicted. -/
theorem FilterOk.elsewhere {table table' : FilterTable} (h : FilterOk k calls table) {call : Call}
    (hwellFormed : table'.WellFormed k.filterTable)
    (hdata : ∀ key d, table'.data? k.filterTable key = some d →
      table.data? k.filterTable key = some d ∧
        ∀ r < 2 ^ 37, key = hashIndex r k.filterTable.indexLen → Elsewhere k r call) :
    FilterOk k (calls ++ [call]) table' := by
  refine ⟨hwellFormed, fun key d hkey => ?_⟩
  obtain ⟨hold, helse⟩ := hdata key d hkey
  obtain ⟨r, hr, rfl, hfoot⟩ := h.footprint key d hold
  exact ⟨r, hr, rfl, hfoot.elsewhere (helse r hr rfl)⟩

theorem AccumulationOk.elsewhere {table table' : AccumulationTable} (h : AccumulationOk k calls table)
    {call : Call} (hwellFormed : table'.WellFormed k.accumulationTable)
    (hdata : ∀ key d, table'.data? k.accumulationTable key = some d →
      table.data? k.accumulationTable key = some d ∧
        ∀ r < 2 ^ 37, key = hashIndex r k.accumulationTable.indexLen → Elsewhere k r call) :
    AccumulationOk k (calls ++ [call]) table' := by
  refine ⟨hwellFormed, fun key d hkey => ?_⟩
  obtain ⟨hold, helse⟩ := hdata key d hkey
  obtain ⟨r, hr, rfl, hfoot, hsecond⟩ := h.footprint key d hold
  exact ⟨r, hr, rfl, hfoot.elsewhere (helse r hr rfl), hsecond⟩

/-! ## Loads -/

theorem getD_set_true {pattern : List Bool} {i : ℕ} (h : pattern.getD i false = true) (o : ℕ) :
    (pattern.set o true).getD i false = true := by
  have hlt : i < pattern.length := by
    by_contra hge
    rw [List.getD_eq_default _ _ (Nat.not_lt.1 hge)] at h
    exact absurd h (by simp)
  rw [List.getD_eq_getElem _ _ hlt] at h
  rw [List.getD_eq_getElem _ _ (by simpa using hlt), List.getElem_set]
  split
  · rfl
  · exact h

/-- `set_pattern` of a region in the table. -/
theorem setPattern_some {acc : AccumulationTable} {d : AccumulationTableData}
    (h : acc.WellFormed k.accumulationTable)
    (hdata : acc.data? k.accumulationTable (regionKey k.accumulationTable regionNumber) = some d)
    (offset : ℕ) :
    (setPattern k acc regionNumber offset).2 = true ∧
    (setPattern k acc regionNumber offset).1.WellFormed k.accumulationTable ∧
    (setPattern k acc regionNumber offset).1.data? k.accumulationTable
        (regionKey k.accumulationTable regionNumber) =
      some { d with pattern := d.pattern.set offset true } ∧
    ∀ key ≠ regionKey k.accumulationTable regionNumber,
      (setPattern k acc regionNumber offset).1.data? k.accumulationTable key =
        acc.data? k.accumulationTable key := by
  have hmodify := h.modify (regionKey k.accumulationTable regionNumber)
    fun data => { data with pattern := data.pattern.set offset true }
  have hself := h.data?_modify (regionKey k.accumulationTable regionNumber)
    fun data => { data with pattern := data.pattern.set offset true }
  rw [hdata, Option.map_some] at hself
  have hset : setPattern k acc regionNumber offset =
      ((acc.modify k.accumulationTable (regionKey k.accumulationTable regionNumber) fun data =>
        { data with pattern := data.pattern.set offset true }).setMru k.accumulationTable
          (regionKey k.accumulationTable regionNumber), true) := by
    simp only [setPattern, hdata]
  rw [hset]
  refine ⟨rfl, hmodify.setMru hself, ?_, fun key hne => ?_⟩
  · rw [hmodify.data?_setMru hself, hself]
  · rw [hmodify.data?_setMru hself, h.data?_modify_of_ne hne]

variable {s : Bingo}

/-- A load of a region in the accumulation table. -/
theorem Inv.hit (h : Inv k calls s) {d : AccumulationTableData}
    (hdata : s.accumulationTable.data? k.accumulationTable
      (hashIndex (regionOf k blockNumber) k.accumulationTable.indexLen) = some d)
    (queues : ℕ → Queues) (pc : ℕ) :
    Inv k (calls ++ [.load queues pc blockNumber]) { s with
      accumulationTable := (setPattern k s.accumulationTable (blockNumber / k.patternLen)
        (blockNumber % k.patternLen)).1 } := by
  obtain ⟨-, hwellFormed, hself, hother⟩ :=
    setPattern_some h.acc.wellFormed hdata (blockNumber % k.patternLen)
  rw [regionKey_block] at hself hother
  refine ⟨h.filter.elsewhere h.filter.wellFormed fun key d' hkey => ⟨hkey, ?_⟩,
    ⟨hwellFormed, fun key d' hkey => ?_⟩, h.history.mono (List.prefix_append _ _), h.streamer,
    fun r hr hne => ?_⟩
  · rintro r hr rfl rfl
    have hnone := h.disjoint _ hr (by rw [hkey]; simp)
    rw [hdata] at hnone
    exact absurd hnone (by simp)
  · rcases eq_or_ne key (hashIndex (regionOf k blockNumber) k.accumulationTable.indexLen) with
      rfl | hne
    · rw [hself] at hkey
      obtain rfl := Option.some.inj hkey
      obtain ⟨r, hr, hkey, hfoot, i, hi, hset⟩ := h.acc.footprint _ d hdata
      obtain rfl := hashIndex_injective _ hkey
      exact ⟨_, hr, rfl, hfoot.load rfl queues pc, i, hi, getD_set_true hset _⟩
    · rw [hother key hne] at hkey
      obtain ⟨r, hr, rfl, hfoot, hsecond⟩ := h.acc.footprint key d' hkey
      refine ⟨r, hr, rfl, hfoot.elsewhere ?_, hsecond⟩
      rintro rfl
      exact hne rfl
  · have hnone := h.disjoint r hr hne
    rcases eq_or_ne r (regionOf k blockNumber) with rfl | hregion
    · rw [hdata] at hnone
      exact absurd hnone (by simp)
    · rw [hother _ fun heq => hregion (hashIndex_injective _ heq)]
      exact hnone

/-- The accumulation table, when the region of a load is not in it. -/
theorem Inv.acc_elsewhere (h : Inv k calls s)
    (hnone : s.accumulationTable.data? k.accumulationTable
      (hashIndex (regionOf k blockNumber) k.accumulationTable.indexLen) = none)
    (queues : ℕ → Queues) (pc : ℕ) :
    AccumulationOk k (calls ++ [.load queues pc blockNumber]) s.accumulationTable := by
  refine h.acc.elsewhere h.acc.wellFormed fun key d hkey => ⟨hkey, ?_⟩
  rintro r hr rfl rfl
  rw [hnone] at hkey
  exact absurd hkey (by simp)

/-- The first load of a region. -/
theorem Inv.trigger (hk : k.Valid) (h : Inv k calls s)
    (hnone : s.accumulationTable.data? k.accumulationTable
      (hashIndex (regionOf k blockNumber) k.accumulationTable.indexLen) = none)
    (queues : ℕ → Queues) (pc : ℕ) :
    Inv k (calls ++ [.load queues pc blockNumber]) (s.trigger k blockNumber pc).1 := by
  have hput := h.filter.wellFormed.put (hashIndex (regionOf k blockNumber) k.filterTable.indexLen)
    ⟨pc, blockNumber % k.patternLen⟩
  have hkeys : ∀ key d, (s.filterTable.put k.filterTable
      (hashIndex (regionOf k blockNumber) k.filterTable.indexLen)
        ⟨pc, blockNumber % k.patternLen⟩).1.data? k.filterTable key = some d →
      (key = hashIndex (regionOf k blockNumber) k.filterTable.indexLen ∧
        d = ⟨pc, blockNumber % k.patternLen⟩) ∨
      (key ≠ hashIndex (regionOf k blockNumber) k.filterTable.indexLen ∧
        s.filterTable.data? k.filterTable key = some d) := by
    intro key d hkey
    rcases eq_or_ne key (hashIndex (regionOf k blockNumber) k.filterTable.indexLen) with rfl | hne
    · rw [h.filter.wellFormed.data?_put] at hkey
      exact .inl ⟨rfl, (Option.some.inj hkey).symm⟩
    · rw [h.filter.wellFormed.data?_put_of_ne hne] at hkey
      split at hkey
      · exact absurd hkey (by simp)
      · exact .inr ⟨hne, hkey⟩
  have hfilterOk : FilterOk k (calls ++ [.load queues pc blockNumber]) (s.filterTable.put k.filterTable
      (hashIndex (regionOf k blockNumber) k.filterTable.indexLen)
        ⟨pc, blockNumber % k.patternLen⟩).1 := by
    refine ⟨hput, fun key d hkey => ?_⟩
    rcases hkeys key d hkey with ⟨rfl, rfl⟩ | ⟨hne, hold⟩
    · exact ⟨_, regionOf_lt k blockNumber, rfl, Footprint.begin k calls queues pc blockNumber⟩
    · obtain ⟨r, hr, rfl, hfoot⟩ := h.filter.footprint key d hold
      refine ⟨r, hr, rfl, hfoot.elsewhere ?_⟩
      rintro rfl
      exact hne rfl
  have hdisjoint : ∀ r < 2 ^ 37, (s.filterTable.put k.filterTable
      (hashIndex (regionOf k blockNumber) k.filterTable.indexLen)
        ⟨pc, blockNumber % k.patternLen⟩).1.data? k.filterTable
          (hashIndex r k.filterTable.indexLen) ≠ none →
      s.accumulationTable.data? k.accumulationTable
        (hashIndex r k.accumulationTable.indexLen) = none := by
    intro r hr hne
    obtain ⟨d, hd⟩ := Option.ne_none_iff_exists'.1 hne
    rcases hkeys _ d hd with ⟨heq, -⟩ | ⟨-, hold⟩
    · obtain rfl := hashIndex_injective _ heq
      exact hnone
    · exact h.disjoint r hr (by rw [hold]; simp)
  have hhistory := (h.history.find hk pc blockNumber).mono
    (List.prefix_append calls [Call.load queues pc blockNumber])
  have hacc := h.acc_elsewhere hnone queues pc
  have hpht : (findInPht k s.pht pc blockNumber).1 = (phtFind k s.pht pc blockNumber).1 := rfl
  rw [← hpht] at hhistory
  cases hfind : findInPht k s.pht pc blockNumber with | mk pht pattern
  rw [hfind] at hhistory
  simp only [Bingo.trigger, hfind, regionKey_block]
  cases pattern with
  | nil => exact ⟨hfilterOk, hacc, hhistory, h.streamer, hdisjoint⟩
  | cons level rest => exact ⟨hfilterOk, hacc, hhistory, h.streamer.put _ _, hdisjoint⟩

/-- The pattern of an entry of the accumulation table goes to the pattern history table. -/
theorem Inv.insertEntry (h : Inv k calls s) {entry : Entry AccumulationTableData}
    (hentry : s.accumulationTable.data? k.accumulationTable entry.key = some entry.data)
    (call : Call) : HistoryOk k (calls ++ [call]) (insertInPht k s.pht entry) := by
  obtain ⟨r, -, hkey, hfoot, -⟩ := h.acc.footprint _ _ hentry
  rw [insertInPht, hkey, hashIndex_hashIndex]
  exact (h.history.insert (List.prefix_refl calls) hfoot).mono (List.prefix_append _ _)

theorem single_set (k : Knobs) (offset : ℕ) : (single k offset).set offset true = single k offset := by
  rw [single, List.set_set]

/-- The other entries of the filter table, when a region in it is loaded. -/
theorem Inv.filter_elsewhere (h : Inv k calls s) {table : FilterTable}
    (hwellFormed : table.WellFormed k.filterTable)
    (hself : ∀ d, table.data? k.filterTable
      (hashIndex (regionOf k blockNumber) k.filterTable.indexLen) = some d →
        s.filterTable.data? k.filterTable
            (hashIndex (regionOf k blockNumber) k.filterTable.indexLen) = some d ∧
          d.offset = blockNumber % k.patternLen)
    (hother : ∀ key ≠ hashIndex (regionOf k blockNumber) k.filterTable.indexLen,
      table.data? k.filterTable key = s.filterTable.data? k.filterTable key)
    (queues : ℕ → Queues) (pc : ℕ) :
    FilterOk k (calls ++ [.load queues pc blockNumber]) table := by
  refine ⟨hwellFormed, fun key d hkey => ?_⟩
  rcases eq_or_ne key (hashIndex (regionOf k blockNumber) k.filterTable.indexLen) with rfl | hne
  · obtain ⟨hold, hoffset⟩ := hself d hkey
    obtain ⟨r, hr, hkey', hfoot⟩ := h.filter.footprint _ d hold
    obtain rfl := hashIndex_injective _ hkey'
    have hload := hfoot.load rfl queues pc
    dsimp only at hload
    rw [← hoffset, single_set] at hload
    exact ⟨_, hr, rfl, hload⟩
  · rw [hother key hne] at hkey
    obtain ⟨r, hr, rfl, hfoot⟩ := h.filter.footprint key d hkey
    refine ⟨r, hr, rfl, hfoot.elsewhere ?_⟩
    rintro rfl
    exact hne rfl

/-- Another load of the first block of a region. -/
theorem Inv.again (h : Inv k calls s)
    (hnone : s.accumulationTable.data? k.accumulationTable
      (hashIndex (regionOf k blockNumber) k.accumulationTable.indexLen) = none)
    {d : FilterTableData} (hdata : s.filterTable.data? k.filterTable
      (hashIndex (regionOf k blockNumber) k.filterTable.indexLen) = some d)
    (hoffset : d.offset = blockNumber % k.patternLen) (queues : ℕ → Queues) (pc : ℕ) :
    Inv k (calls ++ [.load queues pc blockNumber]) { s with
      filterTable := s.filterTable.setMru k.filterTable
        (hashIndex (regionOf k blockNumber) k.filterTable.indexLen) } := by
  have hsame := h.filter.wellFormed.data?_setMru hdata
  refine ⟨h.filter_elsewhere (h.filter.wellFormed.setMru hdata) (fun d' hd' => ?_)
      (fun key _ => hsame key) queues pc,
    h.acc_elsewhere hnone queues pc, h.history.mono (List.prefix_append _ _), h.streamer,
    fun r hr hne => h.disjoint r hr (hsame _ ▸ hne)⟩
  rw [hsame, hdata] at hd'
  obtain rfl := Option.some.inj hd'
  exact ⟨hdata, hoffset⟩

theorem regionKey_of_lt (c : Geometry) {r : ℕ} (hr : r < 2 ^ 37) :
    regionKey c r = hashIndex r c.indexLen := by
  rw [regionKey, Nat.mod_eq_of_lt hr]

/-- A region enters the accumulation table with its first block, and gets the second one. -/
theorem setPattern_accInsert {acc : AccumulationTable} (h : acc.WellFormed k.accumulationTable)
    {r : ℕ} (hr : r < 2 ^ 37) (pc offset offset' : ℕ) :
    (setPattern k (accInsert k acc r pc offset).1 r offset').1.WellFormed k.accumulationTable ∧
    (setPattern k (accInsert k acc r pc offset).1 r offset').1.data? k.accumulationTable
        (hashIndex r k.accumulationTable.indexLen) =
      some ⟨pc, offset, (single k offset).set offset' true⟩ ∧
    ∀ key ≠ hashIndex r k.accumulationTable.indexLen, ∀ d,
      (setPattern k (accInsert k acc r pc offset).1 r offset').1.data? k.accumulationTable key =
        some d → acc.data? k.accumulationTable key = some d := by
  have hinsert : accInsert k acc r pc offset = acc.put k.accumulationTable
      (hashIndex r k.accumulationTable.indexLen) ⟨pc, offset, single k offset⟩ := by
    rw [accInsert, regionKey_of_lt _ hr, single]
  have hput := h.put (hashIndex r k.accumulationTable.indexLen) ⟨pc, offset, single k offset⟩
  have hself := h.data?_put (hashIndex r k.accumulationTable.indexLen)
    ⟨pc, offset, single k offset⟩
  rw [← hinsert] at hput hself
  rw [← regionKey_of_lt k.accumulationTable hr] at hself
  obtain ⟨-, hset, hselfSet, hotherSet⟩ := setPattern_some hput hself offset'
  rw [regionKey_of_lt _ hr] at hselfSet hotherSet
  refine ⟨hset, hselfSet, fun key hne d hd => ?_⟩
  rw [hotherSet key hne, hinsert, h.data?_put_of_ne hne] at hd
  split at hd
  · exact absurd hd (by simp)
  · exact hd

/-- The accumulation table when a second block of a region in the filter table is loaded. -/
theorem Inv.acc_promote (h : Inv k calls s) {d : FilterTableData}
    (hdata : s.filterTable.data? k.filterTable
      (hashIndex (regionOf k blockNumber) k.filterTable.indexLen) = some d)
    (hoffset : d.offset ≠ blockNumber % k.patternLen) (queues : ℕ → Queues) (pc : ℕ) :
    AccumulationOk k (calls ++ [.load queues pc blockNumber])
      (setPattern k (accInsert k s.accumulationTable (regionOf k blockNumber) d.pc d.offset).1
        (regionOf k blockNumber) (blockNumber % k.patternLen)).1 := by
  obtain ⟨hset, hself, hother⟩ := setPattern_accInsert h.acc.wellFormed (regionOf_lt k blockNumber)
    d.pc d.offset (blockNumber % k.patternLen)
  obtain ⟨r, hr, hkey, hfoot⟩ := h.filter.footprint _ _ hdata
  obtain rfl := hashIndex_injective _ hkey
  refine ⟨hset, fun key d' hd => ?_⟩
  rcases eq_or_ne key (hashIndex (regionOf k blockNumber) k.accumulationTable.indexLen) with
    rfl | hne
  · rw [hself] at hd
    obtain rfl := Option.some.inj hd
    have hlt : blockNumber % k.patternLen < (single k d.offset).length :=
      (Nat.mod_lt _ k.patternLen_pos).trans_eq (length_single k _).symm
    refine ⟨_, hr, rfl, hfoot.load rfl queues pc, blockNumber % k.patternLen, hoffset.symm, ?_⟩
    dsimp only
    rw [List.getD_eq_getElem _ _ (by simpa using hlt), List.getElem_set_self]
  · obtain ⟨r, hr, rfl, hold, hsecond⟩ := h.acc.footprint key d' (hother key hne d' hd)
    refine ⟨r, hr, rfl, hold.elsewhere ?_, hsecond⟩
    rintro rfl
    exact hne rfl

/-- A second block moves its region. -/
theorem Inv.promote (h : Inv k calls s)
    {entry : Entry FilterTableData}
    (hkey : entry.key = hashIndex (regionOf k blockNumber) k.filterTable.indexLen)
    (hdata : s.filterTable.data? k.filterTable
      (hashIndex (regionOf k blockNumber) k.filterTable.indexLen) = some entry.data)
    (hoffset : entry.data.offset ≠ blockNumber % k.patternLen) (queues : ℕ → Queues) (pc : ℕ) :
    Inv k (calls ++ [.load queues pc blockNumber]) (Bingo.promote k { s with
      filterTable := s.filterTable.setMru k.filterTable
        (hashIndex (regionOf k blockNumber) k.filterTable.indexLen) }
      entry (blockNumber % k.patternLen)) := by
  have hregion : hashIndex entry.key k.filterTable.indexLen = regionOf k blockNumber := by
    rw [hkey, hashIndex_hashIndex]
  have hmru := h.filter.wellFormed.setMru hdata
  have hsame := h.filter.wellFormed.data?_setMru hdata
  have herase := hmru.erase (hashIndex (regionOf k blockNumber) k.filterTable.indexLen)
  have hother : ∀ key ≠ hashIndex (regionOf k blockNumber) k.filterTable.indexLen,
      (((s.filterTable.setMru k.filterTable
        (hashIndex (regionOf k blockNumber) k.filterTable.indexLen)).erase k.filterTable
          (hashIndex (regionOf k blockNumber) k.filterTable.indexLen)).1.data? k.filterTable key) =
        s.filterTable.data? k.filterTable key := by
    intro key hne
    rw [hmru.data?_erase_of_ne hne, hsame]
  have hhistory : HistoryOk k (calls ++ [.load queues pc blockNumber])
      (if (accInsert k s.accumulationTable (regionOf k blockNumber) entry.data.pc
          entry.data.offset).2.valid
        then insertInPht k s.pht (accInsert k s.accumulationTable (regionOf k blockNumber)
          entry.data.pc entry.data.offset).2
        else s.pht) := by
    split
    · rename_i hvalid
      rw [accInsert, regionKey_of_lt _ (regionOf_lt k blockNumber)] at hvalid ⊢
      exact h.insertEntry (h.acc.wellFormed.data?_old hvalid) _
    · exact h.history.mono (List.prefix_append _ _)
  have hfilterOk : FilterOk k (calls ++ [.load queues pc blockNumber])
      ((s.filterTable.setMru k.filterTable
        (hashIndex (regionOf k blockNumber) k.filterTable.indexLen)).erase k.filterTable
          (hashIndex (regionOf k blockNumber) k.filterTable.indexLen)).1 := by
    refine h.filter_elsewhere herase (fun d hd => ?_) hother queues pc
    rw [hmru.data?_erase] at hd
    exact absurd hd (by simp)
  rw [Bingo.promote, hregion, regionKey_of_lt k.filterTable (regionOf_lt k blockNumber)]
  refine ⟨hfilterOk, h.acc_promote hdata hoffset queues pc, hhistory, h.streamer, fun r hr hne => ?_⟩
  dsimp only at hne ⊢
  rcases eq_or_ne r (regionOf k blockNumber) with rfl | hregion'
  · rw [hmru.data?_erase] at hne
    exact absurd rfl hne
  · rw [hother _ fun heq => hregion' (hashIndex_injective _ heq)] at hne
    rw [Option.eq_none_iff_forall_ne_some]
    intro d hd
    have hold := (setPattern_accInsert h.acc.wellFormed (regionOf_lt k blockNumber) _ _ _).2.2 _
      (fun heq => hregion' (hashIndex_injective _ heq)) d hd
    rw [h.disjoint r hr hne] at hold
    exact absurd hold (by simp)

/-- A load. -/
theorem Inv.access (hk : k.Valid) (h : Inv k calls s) (queues : ℕ → Queues) (pc blockNumber : ℕ) :
    Inv k (calls ++ [.load queues pc blockNumber]) (s.access k blockNumber pc).1 := by
  cases hacc : s.accumulationTable.data? k.accumulationTable
      (hashIndex (regionOf k blockNumber) k.accumulationTable.indexLen) with
  | some d =>
    obtain ⟨hsuccess, -⟩ := setPattern_some h.acc.wellFormed hacc (blockNumber % k.patternLen)
    have haccess : s.access k blockNumber pc = ({ s with
        accumulationTable := (setPattern k s.accumulationTable (blockNumber / k.patternLen)
          (blockNumber % k.patternLen)).1 }, []) := by
      rw [Bingo.access]
      exact if_pos hsuccess
    rw [haccess]
    exact h.hit hacc queues pc
  | none =>
    have hsuccess : setPattern k s.accumulationTable (blockNumber / k.patternLen)
        (blockNumber % k.patternLen) = (s.accumulationTable, false) := by
      simp only [setPattern, regionKey_block, hacc]
    simp only [Bingo.access, hsuccess, regionKey_block, Bool.false_eq_true, if_false]
    cases hfind : s.filterTable.find k.filterTable
        (hashIndex (regionOf k blockNumber) k.filterTable.indexLen) with
    | none => exact h.trigger hk hacc queues pc
    | some way =>
      obtain ⟨-, -, hkey⟩ := h.filter.wellFormed.find_some hfind
      have hdata := data?_of_find hfind
      by_cases hoffset : (s.filterTable.entries (hashIndex (regionOf k blockNumber)
          k.filterTable.indexLen % k.filterTable.numSets) way).data.offset = blockNumber % k.patternLen
      · simp only [hoffset, ne_eq, not_true_eq_false, if_false]
        exact h.again hacc hdata hoffset queues pc
      · simp only [hoffset, ne_eq, not_false_eq_true, if_true]
        exact h.promote hkey hdata hoffset queues pc

/-! ## Evictions -/

/-- An eviction ends the generation of its region. -/
theorem Inv.eviction (h : Inv k calls s) (blockNumber : ℕ) :
    Inv k (calls ++ [.fill blockNumber]) (s.eviction k blockNumber) := by
  have hfilter := h.filter.wellFormed.erase (hashIndex (regionOf k blockNumber) k.filterTable.indexLen)
  have hacc := h.acc.wellFormed.erase
    (hashIndex (regionOf k blockNumber) k.accumulationTable.indexLen)
  have hentry := h.acc.wellFormed.erase_snd
    (hashIndex (regionOf k blockNumber) k.accumulationTable.indexLen)
  have hfilterOk : FilterOk k (calls ++ [.fill blockNumber]) (s.filterTable.erase k.filterTable
      (hashIndex (regionOf k blockNumber) k.filterTable.indexLen)).1 := by
    refine h.filter.elsewhere hfilter fun key d hd => ?_
    rcases eq_or_ne key (hashIndex (regionOf k blockNumber) k.filterTable.indexLen) with rfl | hne
    · rw [h.filter.wellFormed.data?_erase] at hd
      exact absurd hd (by simp)
    · rw [h.filter.wellFormed.data?_erase_of_ne hne] at hd
      refine ⟨hd, ?_⟩
      rintro r - rfl rfl
      exact hne rfl
  have haccOk : AccumulationOk k (calls ++ [.fill blockNumber])
      (s.accumulationTable.erase k.accumulationTable
        (hashIndex (regionOf k blockNumber) k.accumulationTable.indexLen)).1 := by
    refine h.acc.elsewhere hacc fun key d hd => ?_
    rcases eq_or_ne key (hashIndex (regionOf k blockNumber) k.accumulationTable.indexLen) with
      rfl | hne
    · rw [h.acc.wellFormed.data?_erase] at hd
      exact absurd hd (by simp)
    · rw [h.acc.wellFormed.data?_erase_of_ne hne] at hd
      refine ⟨hd, ?_⟩
      rintro r - rfl rfl
      exact hne rfl
  have hdisjoint : ∀ r < 2 ^ 37, (s.filterTable.erase k.filterTable
      (hashIndex (regionOf k blockNumber) k.filterTable.indexLen)).1.data? k.filterTable
        (hashIndex r k.filterTable.indexLen) ≠ none →
      (s.accumulationTable.erase k.accumulationTable
        (hashIndex (regionOf k blockNumber) k.accumulationTable.indexLen)).1.data?
          k.accumulationTable (hashIndex r k.accumulationTable.indexLen) = none := by
    intro r hr hne
    rcases eq_or_ne r (regionOf k blockNumber) with rfl | hregion
    · exact h.acc.wellFormed.data?_erase _
    · rw [h.filter.wellFormed.data?_erase_of_ne fun heq => hregion (hashIndex_injective _ heq)] at hne
      rw [h.acc.wellFormed.data?_erase_of_ne fun heq => hregion (hashIndex_injective _ heq)]
      exact h.disjoint r hr hne
  rw [Bingo.eviction]
  simp only [regionKey_block]
  refine ⟨hfilterOk, haccOk, ?_, h.streamer, hdisjoint⟩
  cases herase : (s.accumulationTable.erase k.accumulationTable
      (hashIndex (regionOf k blockNumber) k.accumulationTable.indexLen)).2 with
  | none => exact h.history.mono (List.prefix_append _ _)
  | some entry =>
    rw [herase, Option.map_some] at hentry
    obtain ⟨d, hd, heq⟩ := Option.map_eq_some_iff.1 hentry.symm
    obtain ⟨hkey, rfl⟩ := Prod.mk.inj heq
    exact h.insertEntry (hkey ▸ hd) _

theorem Inv.init (k : Knobs) : Inv k [] init := by
  have hnone : ∀ {T : Type} (c : Geometry) (data : T) (key : ℕ),
      (LruCache.init data).data? c key = none := fun _ _ _ => rfl
  refine ⟨⟨WellFormed.init _ _, fun key d hd => ?_⟩, ⟨WellFormed.init _ _, fun key d hd => ?_⟩,
    ⟨⟨WellFormed.init _ _, fun key pattern hd => ?_⟩, fun key pattern hd => ?_⟩, WellFormed.init _ _,
    fun r _ hne => ?_⟩
  all_goals first
    | exact absurd hd (by rw [Bingo.init, hnone]; simp)
    | exact absurd (hnone _ _ _) hne

end

end Bingo

end Arishem
