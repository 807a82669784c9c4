import Arishem.Lib.RecencyMap
import Arishem.Prefetchers.LruCache

/-!
# The sets of the tables

`hash_index` is its own inverse. The map of a set from tags to ways agrees with the entries, so that a
find sees a key exactly where it was put, and the times of the last use list the ways of a set in the
order of their use: each set is a bounded map that evicts the least recently used key.
-/

namespace Arishem

namespace SetAssociativeCache

/-! ## Indices -/

/-- What the loop xors to the key. -/
def foldBits (indexLen : ℕ) : ℕ → ℕ → ℕ
  | 0, _ => 0
  | fuel + 1, tag =>
    if 0 < tag then (tag % 2 ^ indexLen) ^^^ foldBits indexLen fuel (tag >>> indexLen) else 0

theorem foldBits_lt (indexLen fuel tag : ℕ) : foldBits indexLen fuel tag < 2 ^ indexLen := by
  induction fuel generalizing tag with
  | zero => exact Nat.two_pow_pos _
  | succ fuel ih =>
    rw [foldBits]
    split
    · exact Nat.xor_lt_two_pow (Nat.mod_lt _ (Nat.two_pow_pos _)) (ih _)
    · exact Nat.two_pow_pos _

theorem hashLoop_eq (indexLen fuel tag key : ℕ) :
    hashLoop indexLen fuel tag key = key ^^^ foldBits indexLen fuel tag := by
  induction fuel generalizing tag key with
  | zero => exact (Nat.xor_zero key).symm
  | succ fuel ih =>
    rw [hashLoop, foldBits]
    split
    · rw [ih, Nat.xor_assoc]
    · exact (Nat.xor_zero key).symm

/-- The bits above the index stay. -/
theorem hashIndex_shiftRight (key indexLen : ℕ) :
    hashIndex key indexLen >>> indexLen = key >>> indexLen := by
  rw [hashIndex]
  split
  · rfl
  · rw [hashLoop_eq, Nat.shiftRight_xor_distrib,
      Nat.shiftRight_eq_div_pow (foldBits indexLen 64 (key >>> indexLen)),
      Nat.div_eq_of_lt (foldBits_lt _ _ _), Nat.xor_zero]

/-- Applying the hash function twice is the identity. -/
theorem hashIndex_hashIndex (key indexLen : ℕ) :
    hashIndex (hashIndex key indexLen) indexLen = key := by
  have hshift := hashIndex_shiftRight key indexLen
  by_cases hzero : indexLen = 0
  · rw [hashIndex, if_pos hzero, hashIndex, if_pos hzero]
  · rw [hashIndex, if_neg hzero, hashLoop_eq, hshift, hashIndex, if_neg hzero, hashLoop_eq,
      Nat.xor_assoc, Nat.xor_self, Nat.xor_zero]

theorem hashIndex_injective (indexLen : ℕ) : Function.Injective fun key => hashIndex key indexLen :=
  Function.LeftInverse.injective (g := fun key => hashIndex key indexLen) fun key =>
    hashIndex_hashIndex key indexLen

/-! ## Sets -/

namespace LruCache

section
variable {T : Type*} {k : Geometry} {c c' : LruCache T} {i key way w : ℕ} {order : List ℕ} {data : T}
  {e : Entry T} {cam : ℕ → Option ℕ}

@[simp] theorem setEntry_cams : (c.setEntry i way e).cams = c.cams := rfl
@[simp] theorem setEntry_lru : (c.setEntry i way e).lru = c.lru := rfl
@[simp] theorem setEntry_t : (c.setEntry i way e).t = c.t := rfl
@[simp] theorem setCam_entries : (c.setCam i cam).entries = c.entries := rfl
@[simp] theorem setCam_lru : (c.setCam i cam).lru = c.lru := rfl
@[simp] theorem setCam_t : (c.setCam i cam).t = c.t := rfl

@[simp] theorem setEntry_entries_self : (c.setEntry i way e).entries i =
    Function.update (c.entries i) way e := Function.update_self ..

@[simp] theorem setCam_cams_self : (c.setCam i cam).cams i = cam := Function.update_self ..

theorem setEntry_entries_of_ne {j : ℕ} (hj : j ≠ i) : (c.setEntry i way e).entries j = c.entries j :=
  Function.update_of_ne hj ..

theorem setCam_cams_of_ne {j : ℕ} (hj : j ≠ i) : (c.setCam i cam).cams j = c.cams j :=
  Function.update_of_ne hj ..

/-- The map of a set agrees with its valid entries, which are listed in the order of their use. -/
structure SetHolds (k : Geometry) (c : LruCache T) (i : ℕ) (order : List ℕ) : Prop where
  nodup : order.Nodup
  mem_iff : ∀ w, w ∈ order ↔ w < k.numWays ∧ (c.entries i w).valid = true
  key_mod : ∀ w ∈ order, (c.entries i w).key % k.numSets = i
  tag_eq : ∀ w ∈ order, (c.entries i w).tag = (c.entries i w).key / k.numSets
  cam_iff : ∀ tag w, c.cams i tag = some w ↔ w ∈ order ∧ (c.entries i w).tag = tag
  sorted : order.Pairwise fun v w => c.lru i v < c.lru i w
  lt_t : ∀ w ∈ order, c.lru i w < c.t

/-- The keys of a set with their data, the least recently used one first. -/
def view (c : LruCache T) (i : ℕ) (order : List ℕ) : List (ℕ × T) :=
  order.map fun w => ((c.entries i w).key, (c.entries i w).data)

theorem SetHolds.init (k : Geometry) (data : T) (i : ℕ) : SetHolds k (init data) i [] where
  nodup := List.nodup_nil
  mem_iff w := ⟨fun h => absurd h List.not_mem_nil, fun h => absurd h.2 Bool.false_ne_true⟩
  key_mod w h := absurd h List.not_mem_nil
  tag_eq w h := absurd h List.not_mem_nil
  cam_iff tag w := ⟨fun h => absurd h (by simp [LruCache.init]), fun h => absurd h.1 List.not_mem_nil⟩
  sorted := .nil
  lt_t w h := absurd h List.not_mem_nil

/-- Operations on other sets change nothing. -/
theorem SetHolds.frame (h : SetHolds k c i order) (hentries : c'.entries i = c.entries i)
    (hcams : c'.cams i = c.cams i) (hlru : c'.lru i = c.lru i) (ht : c.t ≤ c'.t) :
    SetHolds k c' i order := by
  refine ⟨h.nodup, ?_, ?_, ?_, ?_, ?_, fun w hw => ?_⟩
  · rw [hentries]
    exact h.mem_iff
  · rw [hentries]
    exact h.key_mod
  · rw [hentries]
    exact h.tag_eq
  · rw [hentries, hcams]
    exact h.cam_iff
  · rw [hlru]
    exact h.sorted
  · rw [hlru]
    exact Nat.lt_of_lt_of_le (h.lt_t w hw) ht

/-- A find sees the way of its key. -/
theorem SetHolds.find_iff (h : SetHolds k c (key % k.numSets) order) : c.find k key = some w ↔
    w ∈ order ∧ (c.entries (key % k.numSets) w).key = key := by
  rw [find, h.cam_iff]
  constructor
  · rintro ⟨hw, htag⟩
    have hmod := h.key_mod w hw
    rw [h.tag_eq w hw] at htag
    refine ⟨hw, ?_⟩
    rw [← Nat.div_add_mod (c.entries (key % k.numSets) w).key k.numSets, htag, hmod,
      Nat.div_add_mod]
  · rintro ⟨hw, hkey⟩
    refine ⟨hw, ?_⟩
    rw [h.tag_eq w hw, hkey]

/-- No key is in two ways. -/
theorem SetHolds.injOn (h : SetHolds k c i order) : ∀ v ∈ order, ∀ w ∈ order,
    (c.entries i v).key = (c.entries i w).key → v = w := by
  intro v hv w hw hkey
  have hcam := (h.cam_iff (c.entries i v).tag v).2 ⟨hv, rfl⟩
  have htag : (c.entries i w).tag = (c.entries i v).tag := by
    rw [h.tag_eq v hv, h.tag_eq w hw, hkey]
  rw [(h.cam_iff (c.entries i v).tag w).2 ⟨hw, htag⟩] at hcam
  exact (Option.some.inj hcam).symm

/-- The entries of other keys. -/
theorem SetHolds.remove_view (h : SetHolds k c i order) (hw : w ∈ order) :
    RecencyMap.remove (c.entries i w).key (view c i order) = view c i (order.erase w) := by
  rw [RecencyMap.remove, view, view, List.filter_map, h.nodup.erase_eq_filter]
  congr 1
  refine List.filter_congr fun v hv => ?_
  by_cases hvw : v = w
  · simp [hvw]
  · have hne : (c.entries i v).key ≠ (c.entries i w).key := fun heq => hvw (h.injOn v hv w hw heq)
    simp [hvw, hne]

theorem lookup_view_of_mem (h : SetHolds k c i order) (hw : w ∈ order) :
    (view c i order).lookup (c.entries i w).key = some (c.entries i w).data := by
  have hinj := h.injOn
  clear h
  induction order with
  | nil => exact absurd hw List.not_mem_nil
  | cons v order ih =>
    rw [view, List.map_cons, List.lookup_cons]
    by_cases hkey : (c.entries i w).key = (c.entries i v).key
    · obtain rfl := hinj w hw v (List.mem_cons_self ..) hkey
      rw [beq_self_eq_true]
    · have hne : w ≠ v := fun heq => hkey (by rw [heq])
      rw [beq_false_of_ne hkey]
      exact ih ((List.mem_cons.1 hw).resolve_left hne) fun a ha b hb =>
        hinj a (List.mem_cons_of_mem _ ha) b (List.mem_cons_of_mem _ hb)

theorem lookup_view_of_not_mem (hkey : ∀ w ∈ order, (c.entries i w).key ≠ key) :
    (view c i order).lookup key = none := by
  rw [List.lookup_eq_none_iff]
  intro e he
  obtain ⟨w, hw, rfl⟩ := List.mem_map.1 he
  exact bne_iff_ne.2 (hkey w hw).symm

/-- A find is a lookup. -/
theorem SetHolds.data?_eq (h : SetHolds k c (key % k.numSets) order) :
    c.data? k key = (view c (key % k.numSets) order).lookup key := by
  rw [data?]
  cases hfind : c.find k key with
  | some w =>
    obtain ⟨hw, hkey⟩ := h.find_iff.1 hfind
    have hlookup := lookup_view_of_mem h hw
    rw [hkey] at hlookup
    exact hlookup.symm
  | none =>
    refine (lookup_view_of_not_mem fun w hw hkey => ?_).symm
    rw [h.find_iff.2 ⟨hw, hkey⟩] at hfind
    exact absurd hfind (by simp)

/-! ## Operations -/

/-- The order after the time of a way was set. -/
theorem sorted_touched {lru : ℕ → ℕ} {t : ℕ} (hnodup : order.Nodup)
    (hsorted : order.Pairwise fun v w => lru v < lru w) (hlt : ∀ v ∈ order, lru v < t) (way : ℕ) :
    (LruTable.touched order way).Pairwise
        (fun v w => Function.update lru way t v < Function.update lru way t w) ∧
      ∀ v ∈ LruTable.touched order way, Function.update lru way t v < t + 1 := by
  have hne : ∀ v ∈ order.erase way, v ≠ way := by
    rintro v hv rfl
    exact hnodup.not_mem_erase hv
  refine ⟨?_, fun v hv => ?_⟩
  · rw [LruTable.touched, List.pairwise_append]
    refine ⟨?_, List.pairwise_singleton _ _, fun v hv w hw => ?_⟩
    · refine (hsorted.sublist List.erase_sublist).imp_of_mem fun ha hb hab => ?_
      rwa [Function.update_of_ne (hne _ ha), Function.update_of_ne (hne _ hb)]
    · obtain rfl := List.mem_singleton.1 hw
      rw [Function.update_self, Function.update_of_ne (hne v hv)]
      exact hlt v (List.mem_of_mem_erase hv)
  · by_cases hvw : v = way
    · rw [hvw, Function.update_self]
      exact Nat.lt_succ_self t
    · have hv : v ∈ order := (LruTable.mem_touched.1 hv).resolve_right hvw
      rw [Function.update_of_ne hvw]
      exact Nat.lt_succ_of_lt (hlt v hv)

/-- `set_mru` of a key that is found is a use. -/
theorem SetHolds.setMru (h : SetHolds k c (key % k.numSets) order) (hfind : c.find k key = some way) :
    SetHolds k (c.setMru k key) (key % k.numSets) (LruTable.touched order way) ∧
      view (c.setMru k key) (key % k.numSets) (LruTable.touched order way) =
        RecencyMap.use key (view c (key % k.numSets) order) := by
  obtain ⟨hway, hkey⟩ := h.find_iff.1 hfind
  have hcams : (c.setMru k key).cams (key % k.numSets) = c.cams (key % k.numSets) := by
    simp only [LruCache.setMru, hfind, Option.getD_some, setCam_cams_self]
    rw [Function.update_eq_self_iff]
    exact hfind.symm
  have hmem : ∀ v, v ∈ LruTable.touched order way ↔ v ∈ order := fun v => by
    rw [LruTable.mem_touched]
    exact ⟨fun hor => hor.elim id fun heq => heq ▸ hway, Or.inl⟩
  have hlru : (c.setMru k key).lru (key % k.numSets) =
      Function.update (c.lru (key % k.numSets)) way c.t := by
    simp only [LruCache.setMru, hfind, Option.getD_some, Function.update_self]
  obtain ⟨hsorted, hlt⟩ := sorted_touched h.nodup h.sorted h.lt_t way
  rw [← hlru] at hsorted hlt
  refine ⟨⟨LruTable.nodup_touched h.nodup, fun w => ?_, fun w hw => ?_, fun w hw => ?_,
    fun tag w => ?_, hsorted, hlt⟩, ?_⟩
  · rw [hmem]
    exact h.mem_iff w
  · exact h.key_mod w ((hmem w).1 hw)
  · exact h.tag_eq w ((hmem w).1 hw)
  · rw [hcams, hmem]
    exact h.cam_iff tag w
  · have hlookup := lookup_view_of_mem h hway
    have hremove := h.remove_view hway
    rw [hkey] at hlookup hremove
    rw [RecencyMap.use, hlookup]
    dsimp only
    rw [hremove, LruTable.touched, view, List.map_append, List.map_singleton]
    have hentry : ((c.setMru k key).entries (key % k.numSets) way).key = key := hkey
    rw [hentry]
    rfl

/-- `erase` takes the key out. -/
theorem SetHolds.erase (h : SetHolds k c (key % k.numSets) order) :
    ∃ order', SetHolds k (c.erase k key).1 (key % k.numSets) order' ∧
      view (c.erase k key).1 (key % k.numSets) order' =
        RecencyMap.remove key (view c (key % k.numSets) order) ∧
      (c.erase k key).2.map (fun e => (e.key, e.data)) =
        ((view c (key % k.numSets) order).lookup key).map (Prod.mk key) := by
  cases hfind : c.find k key with
  | none =>
    have hkeys : ∀ w ∈ order, (c.entries (key % k.numSets) w).key ≠ key := by
      intro w hw hkey
      rw [h.find_iff.2 ⟨hw, hkey⟩] at hfind
      exact absurd hfind (by simp)
    have hcams : (c.erase k key).1.cams (key % k.numSets) = c.cams (key % k.numSets) := by
      simp only [LruCache.erase, hfind, setCam_cams_self]
      rw [Function.update_eq_self_iff]
      exact hfind.symm
    have hentries : (c.erase k key).1.entries = c.entries := by
      simp only [LruCache.erase, hfind, setCam_entries]
    have hlru : (c.erase k key).1.lru = c.lru := by
      simp only [LruCache.erase, hfind, setCam_lru]
    have ht : (c.erase k key).1.t = c.t := by
      simp only [LruCache.erase, hfind, setCam_t]
    refine ⟨order, h.frame (congrFun hentries _) hcams (congrFun hlru _) ht.ge, ?_, ?_⟩
    · rw [view, hentries, RecencyMap.remove, List.filter_eq_self.2]
      · rfl
      · intro e he
        obtain ⟨w, hw, rfl⟩ := List.mem_map.1 he
        exact decide_eq_true (hkeys w hw)
    · rw [lookup_view_of_not_mem hkeys]
      simp only [LruCache.erase, hfind, Option.map_none]
  | some way =>
    obtain ⟨hway, hkey⟩ := h.find_iff.1 hfind
    have herase : c.erase k key =
        ((c.setCam (key % k.numSets)
          (Function.update (c.cams (key % k.numSets)) (key / k.numSets) none)).setEntry
            (key % k.numSets) way { c.entries (key % k.numSets) way with valid := false },
          some (c.entries (key % k.numSets) way)) := by
      simp only [LruCache.erase, hfind]
    have hlookup := lookup_view_of_mem h hway
    have hremove := h.remove_view hway
    rw [hkey] at hlookup hremove
    have hother : ∀ v, v ≠ way → (c.erase k key).1.entries (key % k.numSets) v =
        c.entries (key % k.numSets) v := by
      intro v hv
      rw [herase, setEntry_entries_self, Function.update_of_ne hv, setCam_entries]
    have hne : ∀ v ∈ order.erase way, v ≠ way := by
      rintro v hv rfl
      exact h.nodup.not_mem_erase hv
    have hcams : (c.erase k key).1.cams (key % k.numSets) =
        Function.update (c.cams (key % k.numSets)) (key / k.numSets) none := by
      rw [herase, setEntry_cams, setCam_cams_self]
    have hlru : (c.erase k key).1.lru = c.lru := by
      rw [herase, setEntry_lru, setCam_lru]
    refine ⟨order.erase way, ⟨h.nodup.erase way, fun w => ?_, fun w hw => ?_, fun w hw => ?_,
      fun tag w => ?_, hlru ▸ h.sorted.sublist List.erase_sublist, fun w hw => ?_⟩, ?_, ?_⟩
    · rcases eq_or_ne w way with rfl | hw
      · simp [herase, h.nodup.not_mem_erase]
      · rw [List.mem_erase_of_ne hw, hother w hw]
        exact h.mem_iff w
    · rw [hother w (hne w hw)]
      exact h.key_mod w (List.mem_of_mem_erase hw)
    · rw [hother w (hne w hw)]
      exact h.tag_eq w (List.mem_of_mem_erase hw)
    · rw [hcams]
      rcases eq_or_ne tag (key / k.numSets) with rfl | htag
      · rw [Function.update_self]
        refine ⟨fun hnone => absurd hnone (by simp), ?_⟩
        rintro ⟨hw, htag⟩
        rw [hother w (hne w hw)] at htag
        have hcam := (h.cam_iff _ w).2 ⟨List.mem_of_mem_erase hw, htag⟩
        have hsame : c.cams (key % k.numSets) (key / k.numSets) = some way := hfind
        rw [hsame] at hcam
        exact absurd (Option.some.inj hcam).symm (hne w hw)
      · rw [Function.update_of_ne htag, h.cam_iff]
        constructor
        · rintro ⟨hw, rfl⟩
          have hwne : w ≠ way := by
            rintro rfl
            exact htag (by rw [h.tag_eq w hw, hkey])
          rw [List.mem_erase_of_ne hwne, hother w hwne]
          exact ⟨hw, rfl⟩
        · rintro ⟨hw, rfl⟩
          rw [hother w (hne w hw)]
          exact ⟨List.mem_of_mem_erase hw, rfl⟩
    · rw [herase]
      exact h.lt_t w (List.mem_of_mem_erase hw)
    · rw [hremove, view, view]
      refine List.map_congr_left fun v hv => ?_
      rw [hother v (hne v hv)]
    · rw [hlookup, herase, Option.map_some, Option.map_some, hkey]

/-! ## Insertion -/

/-- A way for a new key: one that is free, or the least recently used one when none is. -/
theorem SetHolds.victimWay (h : SetHolds k c i order) : c.victimWay k i < k.numWays ∧
    (c.victimWay k i ∉ order ∧ order.length < k.numWays ∨
      order.length = k.numWays ∧ order.head? = some (c.victimWay k i)) := by
  have hsub : order ⊆ List.range k.numWays := fun w hw => List.mem_range.2 ((h.mem_iff w).1 hw).1
  have hlen := (h.nodup.subperm hsub).length_le
  rw [List.length_range] at hlen
  rw [LruCache.victimWay]
  cases hfree : (List.range k.numWays).find? fun way => !(c.entries i way).valid with
  | some way =>
    obtain ⟨hvalid, hmem, -⟩ := List.find?_range_eq_some.1 hfree
    have hlt := List.mem_range.1 hmem
    have hnot : way ∉ order := fun hw => by
      rw [((h.mem_iff way).1 hw).2] at hvalid
      exact absurd hvalid (by simp)
    refine ⟨hlt, .inl ⟨hnot, ?_⟩⟩
    have hsub' : way :: order ⊆ List.range k.numWays := List.cons_subset.2 ⟨hmem, hsub⟩
    have hlen' := ((List.nodup_cons.2 ⟨hnot, h.nodup⟩).subperm hsub').length_le
    rw [List.length_cons, List.length_range] at hlen'
    exact hlen'
  | none =>
    have hall : ∀ way < k.numWays, way ∈ order := by
      intro way hway
      have hnot := List.find?_eq_none.1 hfree way (List.mem_range.2 hway)
      exact (h.mem_iff way).2 ⟨hway, by simpa using hnot⟩
    have hsub' : List.range k.numWays ⊆ order := fun w hw => hall w (List.mem_range.1 hw)
    have hlen' := (List.nodup_range.subperm hsub').length_le
    rw [List.length_range] at hlen'
    have hpos := k.numWays_pos
    cases order with
    | nil => exact absurd hlen' (Nat.not_le.2 hpos)
    | cons v rest =>
      have hv := ((h.mem_iff v).1 (List.mem_cons_self ..)).1
      -- the first way of the order has the smallest time of all ways
      have hmin : ∀ w < k.numWays, w ≠ v → c.lru i v < c.lru i w := by
        intro w hw hwv
        exact List.rel_of_pairwise_cons h.sorted ((List.mem_cons.1 (hall w hw)).resolve_left hwv)
      have hselect : c.selectVictim k i = v := by
        rw [selectVictim]
        rcases Argmax.scanMin_ceiling (c.lru i) (c.lru i 0) 0 k.numWays with
          ⟨hscan, hle⟩ | ⟨a, ha, hscan, -, hle, -⟩
        · rw [hscan]
          by_contra hne
          exact absurd (hmin 0 hpos hne) (Nat.not_lt.2 (hle v hv))
        · rw [hscan]
          by_contra hne
          exact absurd (hmin a ha hne) (Nat.not_lt.2 (hle v hv))
      exact ⟨hselect ▸ hv, .inr ⟨Nat.le_antisymm hlen hlen', by rw [hselect]; rfl⟩⟩

theorem insert_of_none (hfind : c.find k key = none) :
    c.insert k key data =
      ((c.setEntry (key % k.numSets) (c.victimWay k (key % k.numSets))
          ⟨key, key % k.numSets, key / k.numSets, true, data⟩).setCam (key % k.numSets)
        (Function.update
          (if (c.entries (key % k.numSets) (c.victimWay k (key % k.numSets))).valid
            then Function.update (c.cams (key % k.numSets))
              (c.entries (key % k.numSets) (c.victimWay k (key % k.numSets))).tag none
            else c.cams (key % k.numSets))
          (key / k.numSets) (some (c.victimWay k (key % k.numSets)))),
        c.entries (key % k.numSets) (c.victimWay k (key % k.numSets))) := by
  simp only [LruCache.insert, hfind]

/-- The map of a set when a way was given to a new key. -/
theorem SetHolds.cam_enter (h : SetHolds k c (key % k.numSets) order) (hway : way < k.numWays)
    (hnone : c.find k key = none) (tag : ℕ) :
    Function.update (if (c.entries (key % k.numSets) way).valid
        then Function.update (c.cams (key % k.numSets)) (c.entries (key % k.numSets) way).tag none
        else c.cams (key % k.numSets)) (key / k.numSets) (some way) tag = some w ↔
      (tag = key / k.numSets ∧ w = way) ∨
        (w ∈ order ∧ w ≠ way ∧ (c.entries (key % k.numSets) w).tag = tag) := by
  have hfree : ∀ v ∈ order, (c.entries (key % k.numSets) v).tag ≠ key / k.numSets := by
    intro v hv htag
    have hcam := (h.cam_iff _ v).2 ⟨hv, htag⟩
    rw [show c.cams (key % k.numSets) (key / k.numSets) = none from hnone] at hcam
    exact absurd hcam (by simp)
  rcases eq_or_ne tag (key / k.numSets) with rfl | htag
  · rw [Function.update_self]
    constructor
    · intro heq
      exact .inl ⟨rfl, (Option.some.inj heq).symm⟩
    · rintro (⟨-, rfl⟩ | ⟨hw, -, hsame⟩)
      · rfl
      · exact absurd hsame (hfree w hw)
  · rw [Function.update_of_ne htag]
    have hold : (if (c.entries (key % k.numSets) way).valid
        then Function.update (c.cams (key % k.numSets)) (c.entries (key % k.numSets) way).tag none
        else c.cams (key % k.numSets)) tag = some w ↔
          w ∈ order ∧ w ≠ way ∧ (c.entries (key % k.numSets) w).tag = tag := by
      cases hvalid : (c.entries (key % k.numSets) way).valid with
      | false =>
        rw [if_neg Bool.false_ne_true, h.cam_iff]
        refine ⟨fun ⟨hw, hwt⟩ => ⟨hw, ?_, hwt⟩, fun ⟨hw, _, hwt⟩ => ⟨hw, hwt⟩⟩
        rintro rfl
        rw [((h.mem_iff w).1 hw).2] at hvalid
        exact absurd hvalid (by simp)
      | true =>
        rw [if_pos rfl]
        rcases eq_or_ne tag (c.entries (key % k.numSets) way).tag with rfl | hne
        · rw [Function.update_self]
          refine ⟨fun heq => absurd heq (by simp), fun ⟨hw, hwne, hwt⟩ => ?_⟩
          have hmem := (h.mem_iff way).2 ⟨hway, hvalid⟩
          have hcam := (h.cam_iff _ w).2 ⟨hw, hwt⟩
          rw [(h.cam_iff _ way).2 ⟨hmem, rfl⟩] at hcam
          exact absurd (Option.some.inj hcam).symm hwne
        · rw [Function.update_of_ne hne, h.cam_iff]
          refine ⟨fun ⟨hw, hwt⟩ => ⟨hw, ?_, hwt⟩, fun ⟨hw, _, hwt⟩ => ⟨hw, hwt⟩⟩
          rintro rfl
          exact hne hwt.symm
    rw [hold]
    exact ⟨.inr, fun hor => hor.resolve_left fun hand => htag hand.1⟩

/-- A way for a new key becomes the most recently used one. -/
theorem SetHolds.enter (h : SetHolds k c (key % k.numSets) order) (hnone : c.find k key = none)
    (hway : way < k.numWays) (data : T) (c' : LruCache T)
    (hentries : c'.entries (key % k.numSets) = Function.update (c.entries (key % k.numSets)) way
      ⟨key, key % k.numSets, key / k.numSets, true, data⟩)
    (hcams : c'.cams (key % k.numSets) =
      Function.update (if (c.entries (key % k.numSets) way).valid
        then Function.update (c.cams (key % k.numSets)) (c.entries (key % k.numSets) way).tag none
        else c.cams (key % k.numSets)) (key / k.numSets) (some way))
    (hlru : c'.lru (key % k.numSets) = Function.update (c.lru (key % k.numSets)) way c.t)
    (ht : c'.t = c.t + 1) :
    SetHolds k c' (key % k.numSets) (LruTable.touched order way) ∧
      view c' (key % k.numSets) (LruTable.touched order way) =
        view c (key % k.numSets) (order.erase way) ++ [(key, data)] := by
  have hself : c'.entries (key % k.numSets) way =
      ⟨key, key % k.numSets, key / k.numSets, true, data⟩ := by
    rw [hentries, Function.update_self]
  have hother : ∀ v, v ≠ way →
      c'.entries (key % k.numSets) v = c.entries (key % k.numSets) v := by
    intro v hv
    rw [hentries, Function.update_of_ne hv]
  have hold : ∀ v ∈ LruTable.touched order way, v ≠ way → v ∈ order := fun v hv hne =>
    (LruTable.mem_touched.1 hv).resolve_right hne
  obtain ⟨hsorted, hlt⟩ := sorted_touched h.nodup h.sorted h.lt_t way
  rw [← hlru] at hsorted hlt
  refine ⟨⟨LruTable.nodup_touched h.nodup, fun w => ?_, fun w hw => ?_, fun w hw => ?_,
    fun tag w => ?_, hsorted, fun w hw => ht ▸ hlt w hw⟩, ?_⟩
  · rw [LruTable.mem_touched]
    rcases eq_or_ne w way with rfl | hne
    · simp [hself, hway]
    · rw [hother w hne, h.mem_iff]
      simp [hne]
  · rcases eq_or_ne w way with rfl | hne
    · rw [hself]
    · rw [hother w hne]
      exact h.key_mod w (hold w hw hne)
  · rcases eq_or_ne w way with rfl | hne
    · rw [hself]
    · rw [hother w hne]
      exact h.tag_eq w (hold w hw hne)
  · rw [hcams, h.cam_enter hway hnone, LruTable.mem_touched]
    rcases eq_or_ne w way with rfl | hne
    · simp [hself, eq_comm]
    · rw [hother w hne]
      simp [hne]
  · rw [LruTable.touched, view, List.map_append, List.map_singleton, hself]
    congr 1
    refine List.map_congr_left fun v hv => ?_
    rw [hother v]
    rintro rfl
    exact h.nodup.not_mem_erase hv

/-- The data of a key that is found are replaced. -/
theorem SetHolds.setData (h : SetHolds k c (key % k.numSets) order) (hfind : c.find k key = some way)
    (data : T) (c' : LruCache T) (hc' : c' = c.setEntry (key % k.numSets) way
      { c.entries (key % k.numSets) way with data := data }) :
    SetHolds k c' (key % k.numSets) order ∧ c'.find k key = some way ∧
      ∀ l, way ∉ l → view c' (key % k.numSets) l = view c (key % k.numSets) l := by
  subst hc'
  have hother : ∀ v, v ≠ way → (c.setEntry (key % k.numSets) way
      { c.entries (key % k.numSets) way with data := data }).entries (key % k.numSets) v =
        c.entries (key % k.numSets) v := by
    intro v hv
    rw [setEntry_entries_self, Function.update_of_ne hv]
  refine ⟨⟨h.nodup, fun w => ?_, fun w hw => ?_, fun w hw => ?_, fun tag w => ?_, h.sorted, h.lt_t⟩,
    hfind, fun l hl => ?_⟩
  · rcases eq_or_ne w way with rfl | hne
    · simpa using h.mem_iff w
    · rw [hother w hne]
      exact h.mem_iff w
  · rcases eq_or_ne w way with rfl | hne
    · simpa using h.key_mod w hw
    · rw [hother w hne]
      exact h.key_mod w hw
  · rcases eq_or_ne w way with rfl | hne
    · simpa using h.tag_eq w hw
    · rw [hother w hne]
      exact h.tag_eq w hw
  · rcases eq_or_ne w way with rfl | hne
    · simpa using h.cam_iff tag w
    · rw [hother w hne]
      exact h.cam_iff tag w
  · refine List.map_congr_left fun v hv => ?_
    rw [hother v]
    rintro rfl
    exact hl hv

/-- An insertion puts the key last and evicts the least recently used one when the set is full. -/
theorem SetHolds.put (h : SetHolds k c (key % k.numSets) order) (data : T) :
    ∃ order', SetHolds k (c.put k key data).1 (key % k.numSets) order' ∧
      view (c.put k key data).1 (key % k.numSets) order' =
        (RecencyMap.put k.numWays key data (view c (key % k.numSets) order)).1 ∧
      (if (c.put k key data).2.valid
        then some ((c.put k key data).2.key, (c.put k key data).2.data) else none) =
        (RecencyMap.put k.numWays key data (view c (key % k.numSets) order)).2 := by
  cases hfind : c.find k key with
  | some way =>
    obtain ⟨hway, hkey⟩ := h.find_iff.1 hfind
    have hlookup := lookup_view_of_mem h hway
    have hremove := h.remove_view hway
    rw [hkey] at hlookup hremove
    have hinsert : c.insert k key data = (c.setEntry (key % k.numSets) way
        { c.entries (key % k.numSets) way with data := data }, c.entries (key % k.numSets) way) := by
      simp only [LruCache.insert, hfind]
    obtain ⟨hold, hfind', hview⟩ := h.setData hfind data _ rfl
    obtain ⟨hmru, hview'⟩ := hold.setMru hfind'
    refine ⟨LruTable.touched order way, ?_, ?_, ?_⟩
    · rw [LruCache.put, hinsert]
      exact hmru
    · have hdata := lookup_view_of_mem hold hway
      have herase := hold.remove_view hway
      rw [setEntry_entries_self, Function.update_self, hkey] at hdata herase
      rw [LruCache.put, hinsert, hview', RecencyMap.use, hdata, RecencyMap.put, hlookup]
      dsimp only
      rw [herase, hremove, hview _ h.nodup.not_mem_erase]
    · rw [LruCache.put, hinsert, RecencyMap.put, hlookup]
      dsimp only
      rw [if_pos ((h.mem_iff way).1 hway).2, hkey]
  | none =>
    have hkeys : ∀ w ∈ order, (c.entries (key % k.numSets) w).key ≠ key := by
      intro w hw hkey
      rw [h.find_iff.2 ⟨hw, hkey⟩] at hfind
      exact absurd hfind (by simp)
    obtain ⟨hway, hvictim⟩ := h.victimWay
    have hlookup := lookup_view_of_not_mem hkeys
    have hlen : (view c (key % k.numSets) order).length = order.length := List.length_map _
    refine ⟨LruTable.touched order (c.victimWay k (key % k.numSets)), ?_⟩
    obtain ⟨hholds, hview⟩ := h.enter hfind hway data (c.put k key data).1
      (by simp [LruCache.put, insert_of_none hfind, LruCache.setMru])
      (by simp [LruCache.put, insert_of_none hfind, LruCache.setMru, find])
      (by simp [LruCache.put, insert_of_none hfind, LruCache.setMru, find])
      (by simp [LruCache.put, insert_of_none hfind, LruCache.setMru])
    have hold : (c.put k key data).2 =
        c.entries (key % k.numSets) (c.victimWay k (key % k.numSets)) := by
      rw [LruCache.put, insert_of_none hfind]
    refine ⟨hholds, ?_⟩
    rw [hview, hold, RecencyMap.put, hlookup, hlen]
    dsimp only
    rcases hvictim with ⟨hnot, hlt⟩ | ⟨heq, hhead⟩
    · have hinvalid : (c.entries (key % k.numSets) (c.victimWay k (key % k.numSets))).valid ≠ true :=
        fun hvalid => hnot ((h.mem_iff _).2 ⟨hway, hvalid⟩)
      rw [if_pos hlt, if_neg hinvalid, List.erase_of_not_mem hnot]
      exact ⟨rfl, rfl⟩
    · obtain ⟨rest, rfl⟩ := List.head?_eq_some_iff.1 hhead
      have hvalid := ((h.mem_iff _).1 (List.mem_cons_self ..)).2
      rw [if_neg (by omega), if_pos hvalid, List.erase_cons_head]
      exact ⟨rfl, rfl⟩

/-- Data that are changed in place keep their place in the order. -/
theorem SetHolds.modify (h : SetHolds k c (key % k.numSets) order) (f : T → T) :
    SetHolds k (c.modify k key f) (key % k.numSets) order ∧
      view (c.modify k key f) (key % k.numSets) order =
        RecencyMap.modify key f (view c (key % k.numSets) order) := by
  cases hfind : c.find k key with
  | none =>
    have hsame : c.modify k key f = c := by
      simp only [LruCache.modify, hfind]
    rw [hsame]
    refine ⟨h, ?_⟩
    rw [RecencyMap.modify, view, List.map_map]
    refine List.map_congr_left fun w hw => ?_
    have hne : (c.entries (key % k.numSets) w).key ≠ key := fun hkey => by
      rw [h.find_iff.2 ⟨hw, hkey⟩] at hfind
      exact absurd hfind (by simp)
    rw [Function.comp_apply, if_neg hne]
  | some way =>
    obtain ⟨hway, hkey⟩ := h.find_iff.1 hfind
    have hmodify : c.modify k key f = c.setEntry (key % k.numSets) way
        { c.entries (key % k.numSets) way with
          data := f (c.entries (key % k.numSets) way).data } := by
      simp only [LruCache.modify, hfind]
    refine ⟨(h.setData hfind _ _ hmodify).1, ?_⟩
    rw [hmodify, RecencyMap.modify, view, view, List.map_map]
    refine List.map_congr_left fun w hw => ?_
    rw [Function.comp_apply, setEntry_entries_self]
    rcases eq_or_ne w way with rfl | hne
    · rw [Function.update_self, if_pos hkey]
    · have hother : (c.entries (key % k.numSets) w).key ≠ key := fun heq =>
        hne (h.injOn w hw way hway (heq.trans hkey.symm))
      rw [Function.update_of_ne hne, if_neg hother]

end

end LruCache

end SetAssociativeCache

end Arishem
