import Arishem.Lib.Lts
import Arishem.Prefetchers.MlopScores
import Arishem.Prefetchers.MlopTables

/-!
# Runs of the multi-lookahead offset prefetcher

A call issues the wanted candidates in their order while the queues have room: those in the zone that
were neither accessed nor prefetched to as near a level. What is read outside the maps changes nothing.
-/

namespace Arishem

namespace Mlop

open SetAssociativeCache

section
variable {k : Knobs} {env : Surroundings} {s : Mlop} {data cur : AccessMapData}
  {blockNumber zoneOffset : ℕ} {issued : List (ℕ × ℕ)} {o : ℤ}

/-! ## One call -/

/-- The offsets of all degrees with their levels, in the order of the degrees. -/
def candidates (k : Knobs) (s : Mlop) : List (ℕ × ℤ) :=
  (List.range k.prefDegree).flatMap fun d => (s.pfOffset d).map (Prod.mk (s.pfLevel d))

/-- A candidate is in the zone, and its block was neither accessed nor prefetched to a level as near. -/
def Wanted (data : AccessMapData) (zoneOffset : ℕ) (c : ℕ × ℤ) : Prop :=
  (0 ≤ zoneOffset + c.2 ∧ zoneOffset + c.2 < blocksInZone) ∧
    data.accessMap (zoneOffset + c.2).toNat ≠ .access ∧
    ¬(data.accessMap (zoneOffset + c.2).toNat = .preftch ∧
      data.prefetchMap (zoneOffset + c.2).toNat ≤ c.1)

instance decidableWanted (data : AccessMapData) (zoneOffset : ℕ) (c : ℕ × ℤ) :
    Decidable (Wanted data zoneOffset c) :=
  inferInstanceAs (Decidable (_ ∧ _ ∧ _))

/-- The block and the level of a candidate. -/
def request (blockNumber : ℕ) (c : ℕ × ℤ) : ℕ × ℕ := ((blockNumber + c.2).toNat, c.1)

/-- The wanted requests. -/
def wanted (k : Knobs) (s : Mlop) (data : AccessMapData) (blockNumber : ℕ) : List (ℕ × ℕ) :=
  ((candidates k s).filter fun c => Wanted data (blockNumber % blocksInZone) c).map
    (request blockNumber)

/-- The data of a zone with the marks of requests. -/
def AccessMapData.marked (k : Knobs) (data : AccessMapData) (requests : List (ℕ × ℕ)) : AccessMapData :=
  requests.foldl (fun data r => data.set k (r.1 % blocksInZone) .preftch r.2) data

/-- The block of a candidate in the zone. -/
theorem block_of_candidate (h : 0 ≤ ((blockNumber % blocksInZone : ℕ) : ℤ) + o)
    (hlt : ((blockNumber % blocksInZone : ℕ) : ℤ) + o < blocksInZone) :
    (blockNumber + o).toNat / blocksInZone = blockNumber / blocksInZone ∧
      (blockNumber + o).toNat % blocksInZone = ((blockNumber % blocksInZone : ℕ) + o).toNat := by
  unfold blocksInZone at *
  omega

/-- One candidate: what is outside the zone is not issued, whatever is read there. -/
theorem prefetchOne_eq (hdata : zone? k s.accessMapTable (blockNumber / blocksInZone) = some cur)
    (c : ℕ × ℤ) : prefetchOne k env blockNumber c.1 c.2 (s, issued) =
      some (if Wanted cur (blockNumber % blocksInZone) c ∧ (env.queues issued.length).room then
        (s.mark k (request blockNumber c).1 .preftch c.1, issued ++ [request blockNumber c])
      else (s, issued)) := by
  rw [zone?] at hdata
  simp only [prefetchOne, hdata, Option.map_some]
  refine congrArg some ?_
  rw [AccessMapData.read]
  by_cases hzone : 0 ≤ ((blockNumber % blocksInZone : ℕ) : ℤ) + c.2 ∧
      ((blockNumber % blocksInZone : ℕ) : ℤ) + c.2 < blocksInZone
  · rw [if_pos hzone]
    dsimp only
    by_cases haccess : cur.accessMap ((blockNumber % blocksInZone : ℕ) + c.2).toNat = .access
    · rw [if_pos haccess, if_neg fun h => h.1.2.1 haccess]
    · rw [if_neg haccess]
      by_cases hnear : cur.accessMap ((blockNumber % blocksInZone : ℕ) + c.2).toNat = .preftch ∧
          cur.prefetchMap ((blockNumber % blocksInZone : ℕ) + c.2).toNat ≤ c.1
      · rw [if_pos hnear, if_neg fun h => h.1.2.2 hnear]
      · rw [if_neg hnear]
        have hwanted : Wanted cur (blockNumber % blocksInZone) c := ⟨hzone, haccess, hnear⟩
        by_cases hroom : (env.queues issued.length).room = true
        · rw [if_pos ⟨hzone, hroom⟩, if_pos ⟨hwanted, hroom⟩]
          rfl
        · rw [if_neg fun h => hroom h.2, if_neg fun h => hroom h.2]
  · have hnot : ¬(Wanted cur (blockNumber % blocksInZone) c ∧
        (env.queues issued.length).room = true) := fun h => hzone h.1.1
    rw [if_neg hzone, if_neg hnot]
    split
    · rfl
    · split
      · rfl
      · rw [if_neg fun h => hzone h.1]

/-- A mark changes its own block only. -/
theorem set_accessMap_of_ne (k : Knobs) (cur : AccessMapData) {i j : ℕ} (h : i ≠ j)
    (state : BlockState) (level : ℕ) :
    (cur.set k j state level).accessMap i = cur.accessMap i ∧
      (cur.set k j state level).prefetchMap i = cur.prefetchMap i :=
  ⟨Function.update_of_ne h _ _, Function.update_of_ne h _ _⟩

/-- The loop issues the wanted candidates while there is room. -/
theorem prefetch_loop (cs : List (ℕ × ℤ)) (s : Mlop) (issued : List (ℕ × ℕ))
    (htable : TableOk k s.accessMapTable)
    (hdata : zone? k s.accessMapTable (blockNumber / blocksInZone) = some cur)
    (hagree : ∀ c ∈ cs, ∀ i : ℕ, (i : ℤ) = (blockNumber % blocksInZone : ℕ) + c.2 →
      cur.accessMap i = data.accessMap i ∧ cur.prefetchMap i = data.prefetchMap i)
    (hnodup : (cs.map Prod.snd).Nodup) :
    ∃ table, cs.foldlM (fun r c => prefetchOne k env blockNumber c.1 c.2 r) (s, issued) =
        some ({ s with accessMapTable := table },
          issued ++ whileRoom env.queues issued.length
            ((cs.filter fun c => Wanted data (blockNumber % blocksInZone) c).map
              (request blockNumber))) ∧
      TableOk k table ∧
      zone? k table (blockNumber / blocksInZone) = some (cur.marked k
        (whileRoom env.queues issued.length
          ((cs.filter fun c => Wanted data (blockNumber % blocksInZone) c).map
            (request blockNumber)))) := by
  induction cs generalizing s issued cur with
  | nil => exact ⟨s.accessMapTable, by simp [whileRoom], htable, hdata⟩
  | cons c cs ih =>
    obtain ⟨hc, hcs⟩ := List.forall_mem_cons.1 hagree
    obtain ⟨hnot, hnodup⟩ := List.nodup_cons.1 hnodup
    have hwanted : Wanted cur (blockNumber % blocksInZone) c ↔
        Wanted data (blockNumber % blocksInZone) c := by
      unfold Wanted
      refine and_congr_right fun hzone => ?_
      obtain ⟨haccess, hprefetch⟩ := hc _ (Int.toNat_of_nonneg hzone.1)
      rw [haccess, hprefetch]
    rw [List.foldlM_cons, prefetchOne_eq hdata, Option.bind_eq_bind, Option.bind_some]
    by_cases hw : Wanted data (blockNumber % blocksInZone) c
    · rw [List.filter_cons_of_pos (by simpa using hw), List.map_cons, whileRoom]
      by_cases hroom : (env.queues issued.length).room = true
      · rw [if_pos ⟨hwanted.2 hw, hroom⟩, if_pos hroom]
        obtain ⟨hblock, hoffset⟩ := block_of_candidate hw.1.1 hw.1.2
        have hzone : zone? k s.accessMapTable ((request blockNumber c).1 / blocksInZone) = some cur := by
          rw [request, hblock, hdata]
        obtain ⟨htable', hdata'⟩ := htable.markPreftch hzone c.1
        rw [request, hblock] at hdata'
        have hrest : ∀ c' ∈ cs, ∀ i : ℕ, (i : ℤ) = (blockNumber % blocksInZone : ℕ) + c'.2 →
            (cur.set k ((blockNumber + c.2).toNat % blocksInZone) .preftch c.1).accessMap i =
                data.accessMap i ∧
              (cur.set k ((blockNumber + c.2).toNat % blocksInZone) .preftch c.1).prefetchMap i =
                data.prefetchMap i := by
          intro c' hc' i hi
          have hne : i ≠ (blockNumber + c.2).toNat % blocksInZone := by
            rintro rfl
            rw [hoffset, Int.toNat_of_nonneg hw.1.1] at hi
            have heq : c'.2 = c.2 := by omega
            exact hnot (heq ▸ List.mem_map_of_mem hc')
          obtain ⟨haccess, hprefetch⟩ := hcs c' hc' i hi
          obtain ⟨haccess', hprefetch'⟩ := set_accessMap_of_ne k cur hne .preftch c.1
          exact ⟨haccess'.trans haccess, hprefetch'.trans hprefetch⟩
        obtain ⟨table, hloop, hok, hmarked⟩ := ih (s.mark k (request blockNumber c).1 .preftch c.1)
          (issued ++ [request blockNumber c]) htable' hdata' hrest hnodup
        rw [List.length_append, List.length_singleton] at hloop hmarked
        refine ⟨table, ?_, hok, hmarked⟩
        rw [hloop, List.append_assoc]
        rfl
      · rw [if_neg fun h => hroom h.2, if_neg hroom]
        obtain ⟨table, hloop, hok, hmarked⟩ := ih s issued htable hdata hcs hnodup
        rw [whileRoom_full hroom] at hloop hmarked
        exact ⟨table, hloop, hok, hmarked⟩
    · rw [List.filter_cons_of_neg (by simpa using hw), if_neg fun h => hw (hwanted.1 h.1)]
      exact ih s issued htable hdata hcs hnodup

/-- The candidates of a call are different offsets. -/
theorem nodup_candidates (h : Selected k s) : ((candidates k s).map Prod.snd).Nodup := by
  have hoffsets : (candidates k s).map Prod.snd = (List.range k.prefDegree).flatMap s.pfOffset := by
    rw [candidates, List.map_flatMap]
    refine List.flatMap_congr fun d _ => ?_
    rw [List.map_map]
    exact List.map_id _
  rw [hoffsets, List.nodup_flatMap]
  refine ⟨fun d _ => h.nodup d, ?_⟩
  refine List.pairwise_lt_range.imp fun hd => ?_
  exact fun i hi hi' => h.disjoint _ _ hd i hi hi'

/-- The prefetches of a call. -/
theorem prefetch_eq (hsel : Selected k s) (htable : TableOk k s.accessMapTable)
    (hdata : zone? k s.accessMapTable (blockNumber / blocksInZone) = some data)
    (env : Surroundings) :
    ∃ table, s.prefetch k env blockNumber = some ({ s with accessMapTable := table },
        whileRoom env.queues 0 (wanted k s data blockNumber)) ∧
      TableOk k table ∧
      zone? k table (blockNumber / blocksInZone) =
        some (data.marked k (whileRoom env.queues 0 (wanted k s data blockNumber))) := by
  have hagree : ∀ c ∈ candidates k s, ∀ i : ℕ,
      (i : ℤ) = (blockNumber % blocksInZone : ℕ) + c.2 →
        data.accessMap i = data.accessMap i ∧ data.prefetchMap i = data.prefetchMap i :=
    fun _ _ _ _ => ⟨rfl, rfl⟩
  obtain ⟨table, hloop, hrest⟩ := prefetch_loop (candidates k s) s [] htable hdata hagree
    (nodup_candidates hsel)
  refine ⟨table, ?_, hrest⟩
  have hnested : ∀ (ds : List ℕ) (r : Mlop × List (ℕ × ℕ)),
      (ds.flatMap fun d => (s.pfOffset d).map (Prod.mk (s.pfLevel d))).foldlM
          (fun r c => prefetchOne k env blockNumber c.1 c.2 r) r =
        ds.foldlM (fun r d => (s.pfOffset d).foldlM (fun r curPfOffset =>
          prefetchOne k env blockNumber (s.pfLevel d) curPfOffset r) r) r := by
    intro ds
    induction ds with
    | nil => exact fun _ => rfl
    | cons d ds ih =>
      intro r
      rw [List.flatMap_cons, List.foldlM_append, List.foldlM_cons, List.foldlM_map]
      exact bind_congr fun r => ih r
  rw [prefetch, ← zone?, hdata, Option.bind_some, ← hnested]
  exact hloop

/-! ## Runs -/

/-- The calls of the cache. -/
inductive Call where
  | load (env : Surroundings) (blockNumber : ℕ) (triggerAccess : Bool)
  | fill (evictedBlockNumber : ℕ)

/-- The prefetcher as a system with its prefetches as outputs. -/
def system (k : Knobs) : Lts Mlop Call (ℕ × ℕ) where
  init s := s = Mlop.init
  step s
    | .load env blockNumber triggerAccess => s.invokePrefetcher k env blockNumber triggerAccess
    | .fill evictedBlockNumber => some (s.registerFill k evictedBlockNumber, [])

/-- What every state keeps. -/
structure Inv (k : Knobs) (s : Mlop) : Prop where
  table : TableOk k s.accessMapTable
  scored : Scored k s
  selected : Selected k s

theorem Inv.init (k : Knobs) : Inv k init := ⟨TableOk.init k, Scored.init k, Selected.init k⟩

theorem Inv.withTable (h : Inv k s) {table : AccessMapTable} (htable : TableOk k table) :
    Inv k { s with accessMapTable := table } where
  table := htable
  scored := ⟨h.scored.cnt_lt, h.scored.le_cnt, h.scored.anti, h.scored.origin, h.scored.outside⟩
  selected := ⟨h.selected.disjoint, h.selected.nodup, h.selected.mem, h.selected.nonzero,
    h.selected.level_le⟩

/-- The state whose offsets a load uses. -/
def trained (k : Knobs) (s : Mlop) (blockNumber : ℕ) (triggerAccess : Bool) : Mlop :=
  if triggerAccess then s.access k blockNumber else s

/-- The data of the zone of a load, with its access. -/
def loaded (k : Knobs) (s : Mlop) (blockNumber : ℕ) : AccessMapData :=
  ((zone? k s.accessMapTable (blockNumber / blocksInZone)).getD .fresh).set k
    (blockNumber % blocksInZone) .access 0

theorem Inv.trained (h : Inv k s) (blockNumber : ℕ) (triggerAccess : Bool) :
    Inv k (trained k s blockNumber triggerAccess) ∧
      (Mlop.trained k s blockNumber triggerAccess).accessMapTable = s.accessMapTable := by
  rw [Mlop.trained]
  split
  · obtain ⟨hscored, hselected, htable⟩ :=
      h.scored.access h.selected blockNumber fun data hdata => (h.table.ok _ data hdata).length_lt
    exact ⟨⟨htable ▸ h.table, hscored, hselected⟩, htable⟩
  · exact ⟨h, rfl⟩

/-- A load trains, marks its block and issues what is wanted. -/
theorem Inv.load (h : Inv k s) (env : Surroundings) (blockNumber : ℕ) (triggerAccess : Bool) :
    ∃ s', s.invokePrefetcher k env blockNumber triggerAccess = some (s',
        whileRoom env.queues 0
          (wanted k (Mlop.trained k s blockNumber triggerAccess) (loaded k s blockNumber)
            blockNumber)) ∧
      Inv k s' ∧
      zone? k s'.accessMapTable (blockNumber / blocksInZone) =
        some ((loaded k s blockNumber).marked k (whileRoom env.queues 0
          (wanted k (Mlop.trained k s blockNumber triggerAccess) (loaded k s blockNumber)
            blockNumber))) := by
  obtain ⟨htrained, hsame⟩ := h.trained blockNumber triggerAccess
  obtain ⟨hmarked, hzone⟩ := htrained.table.markAccess blockNumber 0
  rw [hsame, ← loaded, ← hsame] at hzone
  obtain ⟨table, hprefetch, htable, hresult⟩ :=
    prefetch_eq (htrained.withTable hmarked).selected hmarked hzone env
  exact ⟨_, hprefetch, (htrained.withTable hmarked).withTable htable, hresult⟩

theorem inv {ok : Mlop → Call → Prop} (h : (system k).Reachable ok s) : Inv k s := by
  refine Lts.Reachable.invariant (I := Inv k) ?_ (fun s call s' out hinv _ hs => ?_) h
  · rintro _ rfl
    exact Inv.init k
  · cases call with
    | load env blockNumber triggerAccess =>
      obtain ⟨s₁, hload, hinv', -⟩ := hinv.load env blockNumber triggerAccess
      obtain ⟨rfl, -⟩ := Prod.mk.inj (Option.some.inj (hload.symm.trans hs))
      exact hinv'
    | fill evictedBlockNumber =>
      obtain ⟨rfl, -⟩ := Prod.mk.inj (Option.some.inj hs)
      exact hinv.withTable (hinv.table.markInit evictedBlockNumber 0)

/-- In every run the scores of a degree are at most the number of updates of the round, which is not
finished, and those of a larger degree are not larger; the offset 0 has no points. No zone of the
table has all blocks in state `INIT`, and its queue indexes the degrees and the blocks in bounds. -/
theorem scores_fall {ok : Mlop → Call → Prop} (h : (system k).Reachable ok s) :
    (s.updateCnt < k.numUpdates ∧
      ∀ d o, s.offsetScores (d + 1) o ≤ s.offsetScores d o ∧ s.offsetScores d o ≤ s.updateCnt ∧
        s.offsetScores d 0 = 0 ∧ (k.prefDegree ≤ d → s.offsetScores d o = 0)) ∧
    ∀ zoneNumber data, zone? k s.accessMapTable zoneNumber = some data →
      data.histQueue.length < k.prefDegree ∧ (∀ i ∈ data.histQueue, i < blocksInZone) ∧
        ∃ i < blocksInZone, data.accessMap i ≠ .init := by
  obtain ⟨htable, hscored, -⟩ := inv h
  refine ⟨⟨hscored.cnt_lt, fun d o => ?_⟩, fun zoneNumber data hdata => ?_⟩
  · exact ⟨hscored.anti d o, hscored.le_cnt d o, hscored.origin d, fun hd => hscored.outside d hd o⟩
  · obtain ⟨hlength, hlt, hlive⟩ := htable.ok _ data hdata
    exact ⟨hlength, hlt, hlive⟩

/-- A configuration. -/
def Knobs.ofDegree (prefDegree numUpdates thresh : ℕ) : Knobs where
  prefDegree := prefDegree + 1
  numUpdates := numUpdates + 1
  l2cThresh := thresh
  llcThresh := thresh
  shape := ⟨16, 8, by decide, by decide⟩
  prefDegree_pos := Nat.succ_pos _
  numUpdates_pos := Nat.succ_pos _

/-- Loads of the blocks of a zone, with room in all queues. -/
def loads (blockNumbers : List ℕ) : List Call :=
  blockNumbers.map fun blockNumber =>
    .load ⟨fun _ => ⟨0, 16, 0, 32⟩, fun _ => (.access, 0)⟩ blockNumber true

/-- Within a round: three blocks of zone 2 in a row have given points to the offsets 1 and 2. -/
theorem scores_fall_round : ∃ (s : Mlop) (data : AccessMapData),
    (system (.ofDegree 1 3 2)).Reachable (fun _ _ => True) s ∧
    zone? (.ofDegree 1 3 2) s.accessMapTable 2 = some data ∧ data.histQueue = [2] ∧
    s.updateCnt = 2 ∧ s.offsetScores 0 1 = 2 ∧ s.offsetScores 0 2 = 1 ∧ s.offsetScores 1 2 = 1 ∧
    s.offsetScores 1 1 ≤ s.offsetScores 0 1 ∧ s.offsetScores 0 1 ≤ s.updateCnt ∧
    ∃ i < blocksInZone, data.accessMap i ≠ .init := by
  obtain ⟨s, hr, hp⟩ := Lts.reachable_of_exec (system (.ofDegree 1 3 2)) (fun _ _ => True)
    (fun s => (zone? (.ofDegree 1 3 2) s.accessMapTable 2).any (fun data => data.histQueue == [2]) &&
      s.updateCnt == 2 && s.offsetScores 0 1 == 2 && s.offsetScores 0 2 == 1 &&
      s.offsetScores 1 2 == 1)
    (loads [128, 129, 130]) rfl (by decide +kernel)
  simp only [Bool.and_eq_true, Option.any_eq_true, beq_iff_eq] at hp
  obtain ⟨⟨⟨⟨⟨data, hdata, hqueue⟩, hcnt⟩, h01⟩, h02⟩, h12⟩ := hp
  obtain ⟨⟨-, hscores⟩, hzones⟩ := scores_fall hr
  obtain ⟨hanti, hle, -⟩ := hscores 0 1
  exact ⟨s, data, hr, hdata, hqueue, hcnt, h01, h02, h12, hanti, hle, (hzones 2 data hdata).2.2⟩

/-- In every run the offsets that are in use are those of different degrees without repetitions, inside
a zone, with a level; they are not 0 when the thresholds are not. When the threshold of the farther
level is not the larger one, a smaller degree has a level wherever a larger one has, and one at least
as near. -/
theorem offsets_selected {ok : Mlop → Call → Prop} (h : (system k).Reachable ok s) :
    ((candidates k s).map Prod.snd).Nodup ∧
    (∀ c ∈ candidates k s, -63 ≤ c.2 ∧ c.2 ≤ 63 ∧ (c.1 = fillL2 ∨ c.1 = fillLlc) ∧
      (0 < k.l2cThresh → 0 < k.llcThresh → c.2 ≠ 0)) ∧
    (k.llcThresh ≤ k.l2cThresh → ∀ d d', d ≤ d' → s.pfLevel d' ≠ 0 →
      s.pfLevel d ≠ 0 ∧ s.pfLevel d ≤ s.pfLevel d') := by
  obtain ⟨-, -, hselected⟩ := inv h
  refine ⟨nodup_candidates hselected, fun c hc => ?_, hselected.level_le⟩
  obtain ⟨d, -, hd⟩ := List.mem_flatMap.1 hc
  obtain ⟨o, ho, rfl⟩ := List.mem_map.1 hd
  obtain ⟨-, hle, hge, hlevel⟩ := hselected.mem d o ho
  refine ⟨hle, hge, hlevel, ?_⟩
  rintro hl2c hllc rfl
  exact hselected.nonzero hl2c hllc d ho

/-- Behind a round of two updates: the offset 1 is selected for the degree 0, and 2 for the degree
1. -/
theorem offsets_selected_round : ∃ s : Mlop,
    (system (.ofDegree 1 1 1)).Reachable (fun _ _ => True) s ∧
    candidates (.ofDegree 1 1 1) s = [(fillL2, 1), (fillL2, 2)] ∧
    ((candidates (.ofDegree 1 1 1) s).map Prod.snd).Nodup ∧
    s.pfLevel 1 = fillL2 ∧ s.pfLevel 0 ≤ s.pfLevel 1 := by
  obtain ⟨s, hr, hp⟩ := Lts.reachable_of_exec (system (.ofDegree 1 1 1)) (fun _ _ => True)
    (fun s => candidates (.ofDegree 1 1 1) s == [(fillL2, 1), (fillL2, 2)] && s.pfLevel 1 == fillL2)
    (loads [128, 129, 130]) rfl (by decide +kernel)
  simp only [Bool.and_eq_true, beq_iff_eq] at hp
  obtain ⟨hcandidates, hlevel⟩ := hp
  obtain ⟨hnodup, -, hlevels⟩ := offsets_selected hr
  have hne : s.pfLevel 1 ≠ 0 := by
    rw [hlevel]
    decide
  exact ⟨s, hr, hcandidates, hnodup, hlevel, (hlevels le_rfl 0 1 (Nat.zero_le 1) hne).2⟩

/-- A wanted candidate is in the zone, and its block was not accessed. -/
theorem of_mem_wanted {r : ℕ × ℕ} (h : r ∈ wanted k s data blockNumber) :
    ∃ c ∈ candidates k s, r = request blockNumber c ∧ 0 ≤ (blockNumber : ℤ) + c.2 ∧
      r.1 / blocksInZone = blockNumber / blocksInZone ∧
      data.accessMap (r.1 % blocksInZone) ≠ .access := by
  obtain ⟨c, hc, rfl⟩ := List.mem_map.1 h
  obtain ⟨hmem, hwanted⟩ := List.mem_filter.1 hc
  obtain ⟨⟨hge, hlt⟩, haccess, -⟩ : Wanted data (blockNumber % blocksInZone) c := by simpa using hwanted
  obtain ⟨hblock, hoffset⟩ := block_of_candidate hge hlt
  have hmod := Nat.mod_le blockNumber blocksInZone
  refine ⟨c, hmem, rfl, by omega, hblock, ?_⟩
  rw [request, hoffset]
  exact haccess

/-- The wanted blocks are different. -/
theorem nodup_wanted (h : Selected k s) : ((wanted k s data blockNumber).map Prod.fst).Nodup := by
  have hnodup := nodup_candidates h
  have hinj := List.inj_on_of_nodup_map hnodup
  rw [wanted, List.map_map]
  refine List.Nodup.map_on (fun c hc c' hc' heq => ?_) (hnodup.of_map.filter _)
  have hrequest : ∀ c ∈ (candidates k s).filter fun c => Wanted data (blockNumber % blocksInZone) c,
      c ∈ candidates k s ∧ 0 ≤ (blockNumber : ℤ) + c.2 := by
    intro c hc
    obtain ⟨hmem, hwanted⟩ := List.mem_filter.1 hc
    obtain ⟨⟨hge, -⟩, -⟩ : Wanted data (blockNumber % blocksInZone) c := by simpa using hwanted
    have hmod := Nat.mod_le blockNumber blocksInZone
    exact ⟨hmem, by omega⟩
  obtain ⟨hmem, hge⟩ := hrequest c hc
  obtain ⟨hmem', hge'⟩ := hrequest c' hc'
  refine hinj hmem hmem' ?_
  change ((blockNumber : ℤ) + c.2).toNat = ((blockNumber : ℤ) + c'.2).toNat at heq
  omega

/-- In every run a load finds an entry for its zone and issues the wanted offsets of its degrees in
their order while the queues have room, whatever it reads outside the maps: different blocks of the
zone, none of which was accessed. The entry has its access and the marks of the prefetches. -/
theorem load_prefetches {ok : Mlop → Call → Prop} (h : (system k).Reachable ok s)
    (env : Surroundings) (blockNumber : ℕ) (triggerAccess : Bool) :
    ∃ s' issued, (system k).step s (.load env blockNumber triggerAccess) = some (s', issued) ∧
      issued = whileRoom env.queues 0 (wanted k (Mlop.trained k s blockNumber triggerAccess)
        (loaded k s blockNumber) blockNumber) ∧
      zone? k s'.accessMapTable (blockNumber / blocksInZone) =
        some ((loaded k s blockNumber).marked k issued) ∧
      (issued.map Prod.fst).Nodup ∧
      ∀ r ∈ issued, r.1 / blocksInZone = blockNumber / blocksInZone ∧ r.1 ≠ blockNumber ∧
        (loaded k s blockNumber).accessMap (r.1 % blocksInZone) ≠ .access ∧
        (r.2 = fillL2 ∨ r.2 = fillLlc) := by
  obtain ⟨s', hload, -, hzone⟩ := (inv h).load env blockNumber triggerAccess
  obtain ⟨⟨-, -, hselected⟩, -⟩ := (inv h).trained blockNumber triggerAccess
  refine ⟨s', _, hload, rfl, hzone, ?_, fun r hr => ?_⟩
  · exact (nodup_wanted hselected).sublist (whileRoom_isPrefix.sublist.map Prod.fst)
  · obtain ⟨c, hc, rfl, -, hblock, haccess⟩ := of_mem_wanted (whileRoom_isPrefix.subset hr)
    obtain ⟨d, -, hd⟩ := List.mem_flatMap.1 hc
    obtain ⟨o, ho, rfl⟩ := List.mem_map.1 hd
    refine ⟨hblock, fun heq => ?_, haccess, (hselected.mem d o ho).2.2.2⟩
    rw [heq] at haccess
    exact haccess (Function.update_self _ _ _)

/-- A load that ends a round and prefetches the two blocks behind its own. -/
theorem load_prefetches_two : ∃ s : Mlop,
    (system (.ofDegree 1 1 1)).Reachable (fun _ _ => True) s ∧ ∃ s' issued,
      (system (.ofDegree 1 1 1)).step s
        (.load ⟨fun _ => ⟨0, 16, 0, 32⟩, fun _ => (.access, 0)⟩ 130 true) = some (s', issued) ∧
      issued = [(131, fillL2), (132, fillL2)] ∧
      zone? (.ofDegree 1 1 1) s'.accessMapTable 2 =
        some ((loaded (.ofDegree 1 1 1) s 130).marked (.ofDegree 1 1 1) issued) := by
  obtain ⟨s, hr, hp⟩ := Lts.reachable_of_exec (system (.ofDegree 1 1 1)) (fun _ _ => True)
    (fun s => ((system (.ofDegree 1 1 1)).step s
      (.load ⟨fun _ => ⟨0, 16, 0, 32⟩, fun _ => (.access, 0)⟩ 130 true)).any fun r =>
        r.2 == [(131, fillL2), (132, fillL2)])
    (loads [128, 129]) rfl (by decide +kernel)
  simp only [Option.any_eq_true, beq_iff_eq] at hp
  obtain ⟨r, hstep, hissued⟩ := hp
  obtain ⟨s', issued, hstep', -, hzone, -⟩ :=
    load_prefetches hr ⟨fun _ => ⟨0, 16, 0, 32⟩, fun _ => (.access, 0)⟩ 130 true
  obtain rfl : r = (s', issued) := Option.some.inj (hstep.symm.trans hstep')
  exact ⟨s, hr, s', issued, hstep', hissued, hzone⟩

end

end Mlop

end Arishem
