import Arishem.Prefetchers.LruCaches
import Arishem.Prefetchers.Mlop

/-!
# The zones of the access map table

What a mark does to the data of its zone, and what the data of all zones keep: the queue is not longer
than the degrees, and some block of a zone in the table is not in state `INIT`.
-/

namespace Arishem

namespace Mlop

open SetAssociativeCache LruCache

section
variable {k : Knobs} {amt : AccessMapTable} {d : AccessMapData} {state : BlockState}
  {blockNumber level zoneNumber zoneOffset : ℕ}

/-- The data of a zone. -/
def zone? (k : Knobs) (amt : AccessMapTable) (zoneNumber : ℕ) : Option AccessMapData :=
  amt.data? k.shape (buildKey k zoneNumber)

/-- What the data of a zone keep. -/
structure AccessMapData.Ok (k : Knobs) (d : AccessMapData) : Prop where
  length_lt : d.histQueue.length < k.prefDegree
  lt : ∀ o ∈ d.histQueue, o < blocksInZone
  live : ∃ i < blocksInZone, d.accessMap i ≠ .init

/-- The table keeps its data. -/
structure TableOk (k : Knobs) (amt : AccessMapTable) : Prop where
  wellFormed : amt.WellFormed k.shape
  ok : ∀ key d, amt.data? k.shape key = some d → d.Ok k

theorem TableOk.init (k : Knobs) : TableOk k (.init .fresh) where
  wellFormed := WellFormed.init _ _
  ok key d h := absurd h (by simp [LruCache.data?, LruCache.find, LruCache.init])

theorem isSome_find (amt : AccessMapTable) (key : ℕ) :
    (amt.find k.shape key).isSome = (amt.data? k.shape key).isSome := by
  rw [LruCache.data?, Option.isSome_map]

/-- The queue of a zone after a mark. -/
theorem histQueue_set (state : BlockState) (level : ℕ) (hlength : d.histQueue.length < k.prefDegree)
    (hlt : ∀ o ∈ d.histQueue, o < blocksInZone) (hoffset : zoneOffset < blocksInZone) :
    (d.set k zoneOffset state level).histQueue.length < k.prefDegree ∧
      ∀ o ∈ (d.set k zoneOffset state level).histQueue, o < blocksInZone := by
  have hpush : ∀ o ∈ zoneOffset :: d.histQueue, o < blocksInZone :=
    List.forall_mem_cons.2 ⟨hoffset, hlt⟩
  rw [AccessMapData.set]
  dsimp only
  split
  · split
    · refine ⟨?_, fun o ho => hpush o (List.mem_of_mem_dropLast ho)⟩
      rw [List.length_dropLast, List.length_cons]
      exact hlength
    · refine ⟨?_, hpush⟩
      rw [List.length_cons]
      have hpos := k.prefDegree_pos
      omega
  · exact ⟨hlength, hlt⟩

/-- A mark that leaves a block in another state than `INIT`. -/
theorem AccessMapData.Ok.set (hlength : d.histQueue.length < k.prefDegree)
    (hlt : ∀ o ∈ d.histQueue, o < blocksInZone) (hoffset : zoneOffset < blocksInZone)
    (hstate : state ≠ .init) : (d.set k zoneOffset state level).Ok k := by
  obtain ⟨hlength', hlt'⟩ := histQueue_set state level hlength hlt hoffset
  refine ⟨hlength', hlt', zoneOffset, hoffset, ?_⟩
  rw [AccessMapData.set]
  dsimp only
  rwa [Function.update_self]

theorem allInit_iff : d.allInit = true ↔ ∀ i < blocksInZone, d.accessMap i = .init := by
  simp [AccessMapData.allInit]

/-! ## Marks -/

/-- The data of the other zones stay, or are taken out. -/
theorem TableOk.modify {c : AccessMapTable} {key : ℕ} {f : AccessMapData → AccessMapData}
    (hc : c.WellFormed k.shape)
    (hkey : ∀ d, c.data? k.shape key = some d → (f d).Ok k)
    (hother : ∀ key' d, key' ≠ key → c.data? k.shape key' = some d → d.Ok k) :
    TableOk k (c.modify k.shape key f) := by
  refine ⟨hc.modify key f, fun key' d hd => ?_⟩
  rcases eq_or_ne key' key with rfl | hne
  · rw [hc.data?_modify] at hd
    obtain ⟨d', hd', rfl⟩ := Option.map_eq_some_iff.1 hd
    exact hkey d' hd'
  · rw [hc.data?_modify_of_ne hne] at hd
    exact hother key' d hne hd

/-- A zone is accessed: its data, or those of a new zone, are changed. -/
theorem TableOk.markAccess (h : TableOk k amt) (blockNumber level : ℕ) :
    TableOk k (setState k amt blockNumber .access level) ∧
      zone? k (setState k amt blockNumber .access level) (blockNumber / blocksInZone) =
        some (((zone? k amt (blockNumber / blocksInZone)).getD .fresh).set k
          (blockNumber % blocksInZone) .access level) := by
  have hoffset : blockNumber % blocksInZone < blocksInZone := Nat.mod_lt _ (by decide)
  have hpos := k.prefDegree_pos
  rw [zone?, zone?]
  generalize hkey : buildKey k (blockNumber / blocksInZone) = key
  cases hdata : amt.data? k.shape key with
  | some d =>
    have hfind : (amt.find k.shape key).isSome = true := by
      rw [isSome_find, hdata, Option.isSome_some]
    have hset : setState k amt blockNumber .access level =
        (amt.setMru k.shape key).modify k.shape key
          (.set k (blockNumber % blocksInZone) .access level) := by
      simp [setState, hkey, hfind]
    have hmru := h.wellFormed.setMru hdata
    have hsame := h.wellFormed.data?_setMru hdata
    rw [hset]
    refine ⟨TableOk.modify hmru (fun d' hd' => ?_) fun key' d' _ hd' => ?_, ?_⟩
    · rw [hsame, hdata] at hd'
      obtain rfl := Option.some.inj hd'
      have hok := h.ok key d hdata
      exact AccessMapData.Ok.set hok.length_lt hok.lt hoffset (by simp)
    · exact h.ok key' d' (hsame key' ▸ hd')
    · rw [hmru.data?_modify, hsame, hdata]
      rfl
  | none =>
    have hfind : (amt.find k.shape key).isSome = false := by
      rw [isSome_find, hdata, Option.isSome_none]
    have hset : setState k amt blockNumber .access level =
        (amt.put k.shape key .fresh).1.modify k.shape key
          (.set k (blockNumber % blocksInZone) .access level) := by
      simp [setState, hkey, hfind, LruCache.put]
    have hput := h.wellFormed.put key AccessMapData.fresh
    have hself := h.wellFormed.data?_put key AccessMapData.fresh
    rw [hset]
    refine ⟨TableOk.modify hput (fun d' hd' => ?_) fun key' d' hne hd' => ?_, ?_⟩
    · rw [hself] at hd'
      obtain rfl := Option.some.inj hd'
      exact AccessMapData.Ok.set hpos (fun o ho => absurd ho List.not_mem_nil) hoffset (by simp)
    · rw [h.wellFormed.data?_put_of_ne hne] at hd'
      split at hd'
      · exact absurd hd' (by simp)
      · exact h.ok key' d' hd'
    · rw [hput.data?_modify, hself]
      rfl

/-- A block of a zone in the table is prefetched. -/
theorem TableOk.markPreftch (h : TableOk k amt)
    (hd : zone? k amt (blockNumber / blocksInZone) = some d) (level : ℕ) :
    TableOk k (setState k amt blockNumber .preftch level) ∧
      zone? k (setState k amt blockNumber .preftch level) (blockNumber / blocksInZone) =
        some (d.set k (blockNumber % blocksInZone) .preftch level) := by
  have hoffset : blockNumber % blocksInZone < blocksInZone := Nat.mod_lt _ (by decide)
  rw [zone?] at hd ⊢
  have hfind : (amt.find k.shape (buildKey k (blockNumber / blocksInZone))).isSome = true := by
    rw [isSome_find, hd, Option.isSome_some]
  have hset : setState k amt blockNumber .preftch level =
      amt.modify k.shape (buildKey k (blockNumber / blocksInZone))
        (.set k (blockNumber % blocksInZone) .preftch level) := by
    simp [setState, hfind]
  rw [hset]
  refine ⟨TableOk.modify h.wellFormed (fun d' hd' => ?_) fun key' d' _ hd' => h.ok key' d' hd', ?_⟩
  · have hok := h.ok _ d' hd'
    exact AccessMapData.Ok.set hok.length_lt hok.lt hoffset (by simp)
  · rw [h.wellFormed.data?_modify, hd]
    rfl

/-- A block is evicted: a zone is taken out with its last block. -/
theorem TableOk.markInit (h : TableOk k amt) (blockNumber level : ℕ) :
    TableOk k (setState k amt blockNumber .init level) := by
  have hoffset : blockNumber % blocksInZone < blocksInZone := Nat.mod_lt _ (by decide)
  generalize hkey : buildKey k (blockNumber / blocksInZone) = key
  cases hdata : amt.data? k.shape key with
  | none =>
    have hfind : (amt.find k.shape key).isSome = false := by
      rw [isSome_find, hdata, Option.isSome_none]
    have hset : setState k amt blockNumber .init level = amt := by
      simp [setState, hkey, hfind]
    rw [hset]
    exact h
  | some d =>
    have hfind : (amt.find k.shape key).isSome = true := by
      rw [isSome_find, hdata, Option.isSome_some]
    have hmodify := h.wellFormed.modify key
      (AccessMapData.set k (blockNumber % blocksInZone) .init level)
    have hself := h.wellFormed.data?_modify key
      (AccessMapData.set k (blockNumber % blocksInZone) .init level)
    rw [hdata, Option.map_some] at hself
    have hok := h.ok key d hdata
    obtain ⟨hlength, hlt⟩ :=
      histQueue_set .init level hok.length_lt hok.lt hoffset
    cases hinit : (d.set k (blockNumber % blocksInZone) .init level).allInit with
    | true =>
      have hset : setState k amt blockNumber .init level =
          ((amt.modify k.shape key (.set k (blockNumber % blocksInZone) .init level)).erase
            k.shape key).1 := by
        simp [setState, hkey, hfind, hself, hinit]
      rw [hset]
      refine ⟨hmodify.erase key, fun key' d' hd' => ?_⟩
      rcases eq_or_ne key' key with rfl | hne
      · rw [hmodify.data?_erase] at hd'
        exact absurd hd' (by simp)
      · rw [hmodify.data?_erase_of_ne hne, h.wellFormed.data?_modify_of_ne hne] at hd'
        exact h.ok key' d' hd'
    | false =>
      have hset : setState k amt blockNumber .init level =
          amt.modify k.shape key (.set k (blockNumber % blocksInZone) .init level) := by
        simp [setState, hkey, hfind, hself, hinit]
      rw [hset]
      refine TableOk.modify h.wellFormed (fun d' hd' => ?_) fun key' d' _ hd' => h.ok key' d' hd'
      rw [hdata] at hd'
      obtain rfl := Option.some.inj hd'
      refine ⟨hlength, hlt, ?_⟩
      by_contra hlive
      push Not at hlive
      rw [allInit_iff.2 hlive] at hinit
      exact absurd hinit (by simp)

end

end Mlop

end Arishem
