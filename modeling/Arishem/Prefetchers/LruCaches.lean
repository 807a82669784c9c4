import Arishem.Prefetchers.LruSets

/-!
# The tables refine bounded maps

A table of several sets is a bounded map for each set, over any run of its operations.
-/

namespace Arishem

namespace SetAssociativeCache

namespace LruCache

section
variable {T : Type*} {k : Geometry} {c : LruCache T} {i : ℕ} {order : List ℕ}

/-- The operation on the map of a set. -/
def stepMap (n : ℕ) (m : List (ℕ × T)) : Op T → List (ℕ × T) × Option (ℕ × T)
  | .insert key data => RecencyMap.put n key data m
  | .use key => (RecencyMap.use key m, (m.lookup key).map (Prod.mk key))
  | .modify key f => (RecencyMap.modify key f m, none)
  | .erase key => (RecencyMap.remove key m, (m.lookup key).map (Prod.mk key))

/-- Each set has the map of its keys. -/
def Holds (k : Geometry) (c : LruCache T) (m : ℕ → List (ℕ × T)) : Prop :=
  ∀ i, ∃ order, SetHolds k c i order ∧ view c i order = m i

theorem Holds.init (k : Geometry) (data : T) : Holds k (init data) fun _ => [] := fun i =>
  ⟨[], SetHolds.init k data i, rfl⟩

/-- An operation on the set of its key. -/
theorem SetHolds.step {op : Op T} (h : SetHolds k c (op.key % k.numSets) order) :
    ∃ order', SetHolds k (c.step k op).1 (op.key % k.numSets) order' ∧
      view (c.step k op).1 (op.key % k.numSets) order' =
        (stepMap k.numWays (view c (op.key % k.numSets) order) op).1 ∧
      (c.step k op).2 = (stepMap k.numWays (view c (op.key % k.numSets) order) op).2 := by
  cases op with
  | insert key data => exact h.put data
  | use key =>
    have hdata : c.data? k key = (view c (key % k.numSets) order).lookup key := h.data?_eq
    cases hfind : c.find k key with
    | none =>
      have hnone : c.data? k key = none := by rw [data?, hfind, Option.map_none]
      refine ⟨order, ?_⟩
      simp only [LruCache.step, stepMap, hnone, ← hdata, Op.key, RecencyMap.use, Option.map_none]
      exact ⟨h, trivial, trivial⟩
    | some way =>
      have hsome : c.data? k key = some (c.entries (key % k.numSets) way).data := by
        rw [data?, hfind, Option.map_some]
      obtain ⟨hmru, hview⟩ := SetHolds.setMru h hfind
      refine ⟨LruTable.touched order way, ?_⟩
      simp only [LruCache.step, stepMap, hsome, ← hdata, Op.key, Option.map_some]
      exact ⟨hmru, hview, trivial⟩
  | modify key f => exact ⟨order, (SetHolds.modify h f).1, (SetHolds.modify h f).2, rfl⟩
  | erase key => exact SetHolds.erase h

/-- An operation changes no other set. -/
theorem step_frame (c : LruCache T) (op : Op T) (hi : i ≠ op.key % k.numSets) :
    (c.step k op).1.entries i = c.entries i ∧ (c.step k op).1.cams i = c.cams i ∧
      (c.step k op).1.lru i = c.lru i ∧ c.t ≤ (c.step k op).1.t := by
  cases op with
  | insert key data =>
    change i ≠ key % k.numSets at hi
    cases hfind : c.find k key with
    | some way =>
      simp [LruCache.step, put, insert, hfind, setMru, setEntry_entries_of_ne hi, setCam_cams_of_ne hi,
        Function.update_of_ne hi]
    | none =>
      simp [LruCache.step, put, insert_of_none hfind, setMru, setEntry_entries_of_ne hi,
        setCam_cams_of_ne hi, Function.update_of_ne hi]
  | use key =>
    change i ≠ key % k.numSets at hi
    cases hdata : c.data? k key with
    | some data =>
      simp [LruCache.step, hdata, setMru, setCam_cams_of_ne hi, Function.update_of_ne hi]
    | none => simp [LruCache.step, hdata]
  | modify key f =>
    change i ≠ key % k.numSets at hi
    cases hfind : c.find k key with
    | some way => simp [LruCache.step, modify, hfind, setEntry_entries_of_ne hi]
    | none => simp [LruCache.step, modify, hfind]
  | erase key =>
    change i ≠ key % k.numSets at hi
    cases hfind : c.find k key with
    | some way =>
      simp [LruCache.step, erase, hfind, setEntry_entries_of_ne hi, setCam_cams_of_ne hi]
    | none => simp [LruCache.step, erase, hfind, setCam_cams_of_ne hi]

/-- An operation of the table is the operation of the map of its set. -/
theorem Holds.step {m : ℕ → List (ℕ × T)} (h : Holds k c m) (op : Op T) :
    Holds k (c.step k op).1 (Function.update m (op.key % k.numSets)
        (stepMap k.numWays (m (op.key % k.numSets)) op).1) ∧
      (c.step k op).2 = (stepMap k.numWays (m (op.key % k.numSets)) op).2 := by
  obtain ⟨order, hset, hview⟩ := h (op.key % k.numSets)
  obtain ⟨order', hset', hview', hresult⟩ := hset.step
  rw [hview] at hview' hresult
  refine ⟨fun i => ?_, hresult⟩
  rcases eq_or_ne i (op.key % k.numSets) with rfl | hi
  · exact ⟨order', hset', by rw [Function.update_self, hview']⟩
  · obtain ⟨rest, hrest, hmap⟩ := h i
    obtain ⟨hentries, hcams, hlru, ht⟩ := step_frame (k := k) c op hi
    refine ⟨rest, hrest.frame hentries hcams hlru ht, ?_⟩
    rw [Function.update_of_ne hi, ← hmap, view, view, hentries]

/-- The run of the maps of the sets. -/
def runMaps (k : Geometry) (m : ℕ → List (ℕ × T)) :
    List (Op T) → (ℕ → List (ℕ × T)) × List (Option (ℕ × T))
  | [] => (m, [])
  | op :: ops =>
    let (next, result) := stepMap k.numWays (m (op.key % k.numSets)) op
    let (m', results) := runMaps k (Function.update m (op.key % k.numSets) next) ops
    (m', result :: results)

theorem Holds.run {m : ℕ → List (ℕ × T)} (h : Holds k c m) (ops : List (Op T)) :
    Holds k (c.run k ops).1 (runMaps k m ops).1 ∧ (c.run k ops).2 = (runMaps k m ops).2 := by
  induction ops generalizing c m with
  | nil => exact ⟨h, rfl⟩
  | cons op ops ih =>
    obtain ⟨hstep, hresult⟩ := h.step op
    obtain ⟨hrun, hresults⟩ := ih hstep
    exact ⟨hrun, congrArg₂ List.cons hresult hresults⟩

/-- A table that starts empty is a bounded map for each set: its operations return what those of the
map return, a find sees the data of the map, and the keys, their data and the order of their use
stay those of the map. -/
theorem run_refines (k : Geometry) (data : T) (ops : List (Op T)) :
    ((init data).run k ops).2 = (runMaps k (fun _ => []) ops).2 ∧
      (∀ key, ((init data).run k ops).1.data? k key =
        ((runMaps k (fun _ => []) ops).1 (key % k.numSets)).lookup key) ∧
      ∀ i, ∃ order, SetHolds k ((init data).run k ops).1 i order ∧
        view ((init data).run k ops).1 i order = (runMaps k (fun _ => []) ops).1 i := by
  obtain ⟨hholds, hresults⟩ := (Holds.init k data).run ops
  refine ⟨hresults, fun key => ?_, hholds⟩
  obtain ⟨order, hset, hview⟩ := hholds (key % k.numSets)
  rw [hset.data?_eq, hview]

/-! ## What a find sees -/

/-- The table refines the maps of its sets. -/
def WellFormed (k : Geometry) (c : LruCache T) : Prop := ∃ m, Holds k c m

section
variable {m : ℕ → List (ℕ × T)} {key key' : ℕ} {data : T}

theorem WellFormed.init (k : Geometry) (data : T) : WellFormed k (init data) := ⟨_, Holds.init k data⟩

theorem WellFormed.step (h : WellFormed k c) (op : Op T) : WellFormed k (c.step k op).1 := by
  obtain ⟨m, hm⟩ := h
  exact ⟨_, (hm.step op).1⟩

theorem Holds.data?_eq (h : Holds k c m) (key : ℕ) :
    c.data? k key = (m (key % k.numSets)).lookup key := by
  obtain ⟨order, hset, hview⟩ := h (key % k.numSets)
  rw [hset.data?_eq, hview]

/-- No key is twice in a map. -/
theorem Holds.nodup (h : Holds k c m) (i : ℕ) : ((m i).map Prod.fst).Nodup := by
  obtain ⟨order, hset, hview⟩ := h i
  rw [← hview, view, List.map_map]
  exact List.Nodup.map_on (fun v hv w hw => hset.injOn v hv w hw) hset.nodup

/-- A valid entry is found by its key. -/
theorem WellFormed.find_of_valid (h : WellFormed k c) {w : ℕ} (hw : w < k.numWays)
    (hvalid : (c.entries i w).valid = true) :
    (c.entries i w).key % k.numSets = i ∧
      (c.entries i w).tag = (c.entries i w).key / k.numSets ∧
      c.find k (c.entries i w).key = some w := by
  obtain ⟨m, hm⟩ := h
  obtain ⟨order, hset, -⟩ := hm i
  have hmem := (hset.mem_iff w).2 ⟨hw, hvalid⟩
  have hmod := hset.key_mod w hmem
  refine ⟨hmod, hset.tag_eq w hmem, ?_⟩
  rw [find, hmod, hset.cam_iff]
  exact ⟨hmem, hset.tag_eq w hmem⟩

/-- A find gives a valid entry of its key. -/
theorem WellFormed.find_some (h : WellFormed k c) {w : ℕ} (hfind : c.find k key = some w) :
    w < k.numWays ∧ (c.entries (key % k.numSets) w).valid = true ∧
      (c.entries (key % k.numSets) w).key = key := by
  obtain ⟨m, hm⟩ := h
  obtain ⟨order, hset, -⟩ := hm (key % k.numSets)
  obtain ⟨hmem, hkey⟩ := hset.find_iff.1 hfind
  obtain ⟨hw, hvalid⟩ := (hset.mem_iff w).1 hmem
  exact ⟨hw, hvalid, hkey⟩

theorem data?_of_find {w : ℕ} (hfind : c.find k key = some w) :
    c.data? k key = some (c.entries (key % k.numSets) w).data := by
  rw [data?, hfind, Option.map_some]

/-- A find after an operation on the same key. -/
theorem Holds.data?_step (h : Holds k c m) (op : Op T) : (c.step k op).1.data? k op.key =
    (stepMap k.numWays (m (op.key % k.numSets)) op).1.lookup op.key := by
  rw [(h.step op).1.data?_eq, Function.update_self]

/-- A find after an operation on another key. -/
theorem Holds.data?_step_of_ne (h : Holds k c m) (op : Op T)
    (hop : (stepMap k.numWays (m (op.key % k.numSets)) op).1.lookup key =
      (m (op.key % k.numSets)).lookup key) : (c.step k op).1.data? k key = c.data? k key := by
  rw [(h.step op).1.data?_eq, h.data?_eq]
  rcases eq_or_ne (key % k.numSets) (op.key % k.numSets) with heq | hne
  · rw [heq, Function.update_self, hop]
  · rw [Function.update_of_ne hne]

theorem WellFormed.put (h : WellFormed k c) (key : ℕ) (data : T) :
    WellFormed k (c.put k key data).1 := h.step (.insert key data)

theorem WellFormed.modify (h : WellFormed k c) (key : ℕ) (f : T → T) :
    WellFormed k (c.modify k key f) := h.step (.modify key f)

theorem WellFormed.erase (h : WellFormed k c) (key : ℕ) : WellFormed k (c.erase k key).1 :=
  h.step (.erase key)

theorem step_use (hdata : c.data? k key = some data) :
    (c.step k (.use key)).1 = c.setMru k key := by
  simp only [LruCache.step, hdata]

theorem WellFormed.setMru (h : WellFormed k c) (hdata : c.data? k key = some data) :
    WellFormed k (c.setMru k key) := step_use hdata ▸ h.step (.use key)

theorem WellFormed.data?_put (h : WellFormed k c) (key : ℕ) (data : T) :
    (c.put k key data).1.data? k key = some data := by
  obtain ⟨m, hm⟩ := h
  exact (hm.data?_step (.insert key data)).trans (RecencyMap.lookup_put_self _ _ _ _)

/-- What an insertion returns. -/
theorem Holds.put_snd (h : Holds k c m) (key : ℕ) (data : T) :
    (RecencyMap.put k.numWays key data (m (key % k.numSets))).2 =
      if (c.put k key data).2.valid
        then some ((c.put k key data).2.key, (c.put k key data).2.data) else none :=
  (h.step (.insert key data)).2.symm

/-- The entry that an insertion takes out was found before. -/
theorem Holds.data?_old (h : Holds k c m) (hvalid : (c.put k key data).2.valid = true) :
    (c.put k key data).2.key % k.numSets = key % k.numSets ∧
      c.data? k (c.put k key data).2.key = some (c.put k key data).2.data := by
  have hresult := h.put_snd key data
  rw [if_pos hvalid] at hresult
  have hlookup := RecencyMap.lookup_of_put hresult
  obtain ⟨order, hset, hview⟩ := h (key % k.numSets)
  have hmod : (c.put k key data).2.key % k.numSets = key % k.numSets := by
    by_contra hne
    have hnone : (m (key % k.numSets)).lookup (c.put k key data).2.key = none := by
      rw [← hview]
      refine lookup_view_of_not_mem fun w hw heq => hne ?_
      rw [← heq]
      exact hset.key_mod w hw
    rw [hnone] at hlookup
    exact absurd hlookup (by simp)
  refine ⟨hmod, ?_⟩
  rw [h.data?_eq, hmod]
  exact hlookup

/-- An insertion takes out at most the entry that it returns. -/
theorem WellFormed.data?_put_of_ne (h : WellFormed k c) (hne : key' ≠ key) (data : T) :
    (c.put k key data).1.data? k key' =
      if (c.put k key data).2.valid = true ∧ (c.put k key data).2.key = key' then none
      else c.data? k key' := by
  obtain ⟨m, hm⟩ := h
  have hresult := hm.put_snd key data
  have hdata : (c.put k key data).1.data? k key' = (Function.update m (key % k.numSets)
      (RecencyMap.put k.numWays key data (m (key % k.numSets))).1 (key' % k.numSets)).lookup key' :=
    (hm.step (.insert key data)).1.data?_eq key'
  rw [hdata, hm.data?_eq]
  rcases eq_or_ne (key' % k.numSets) (key % k.numSets) with heq | hsets
  · rw [heq, Function.update_self, RecencyMap.lookup_put_of_ne hne (hm.nodup _), hresult]
    cases (c.put k key data).2.valid <;> simp
  · rw [Function.update_of_ne hsets, if_neg]
    rintro ⟨hvalid, rfl⟩
    exact hsets (hm.data?_old hvalid).1

theorem WellFormed.data?_old (h : WellFormed k c) (hvalid : (c.put k key data).2.valid = true) :
    c.data? k (c.put k key data).2.key = some (c.put k key data).2.data := by
  obtain ⟨m, hm⟩ := h
  exact (hm.data?_old hvalid).2

theorem WellFormed.data?_modify (h : WellFormed k c) (key : ℕ) (f : T → T) :
    (c.modify k key f).data? k key = (c.data? k key).map f := by
  obtain ⟨m, hm⟩ := h
  rw [hm.data?_eq key]
  exact (hm.data?_step (.modify key f)).trans (RecencyMap.lookup_modify_self _ _ _)

theorem WellFormed.data?_modify_of_ne (h : WellFormed k c) (hne : key' ≠ key) (f : T → T) :
    (c.modify k key f).data? k key' = c.data? k key' := by
  obtain ⟨m, hm⟩ := h
  exact hm.data?_step_of_ne (.modify key f) (RecencyMap.lookup_modify_of_ne hne _ _)

/-- `set_mru` changes no data. -/
theorem WellFormed.data?_setMru (h : WellFormed k c) (hdata : c.data? k key = some data)
    (key' : ℕ) : (c.setMru k key).data? k key' = c.data? k key' := by
  obtain ⟨m, hm⟩ := h
  rw [← step_use hdata]
  exact hm.data?_step_of_ne (.use key) (RecencyMap.lookup_use _ _ _)

/-- What `erase` returns. -/
theorem WellFormed.erase_snd (h : WellFormed k c) (key : ℕ) :
    (c.erase k key).2.map (fun e => (e.key, e.data)) = (c.data? k key).map (Prod.mk key) := by
  obtain ⟨m, hm⟩ := h
  rw [hm.data?_eq]
  exact (hm.step (.erase key)).2

theorem WellFormed.data?_erase (h : WellFormed k c) (key : ℕ) :
    (c.erase k key).1.data? k key = none := by
  obtain ⟨m, hm⟩ := h
  exact (hm.data?_step (.erase key)).trans (RecencyMap.lookup_remove_self _ _)

theorem WellFormed.data?_erase_of_ne (h : WellFormed k c) (hne : key' ≠ key) :
    (c.erase k key).1.data? k key' = c.data? k key' := by
  obtain ⟨m, hm⟩ := h
  exact hm.data?_step_of_ne (.erase key) (RecencyMap.lookup_remove_of_ne hne _)

end

end

end LruCache

end SetAssociativeCache

end Arishem
