import Arishem.Lib.Passes
import Mathlib.Data.Finset.Max

/-!
# Ages

A table whose entries carry ages: a touch sets the age of its entry to 0 and either raises the ages of
the others or sets them back as well, and the victim is the last entry with the highest age. The touches
are kept, the last one first. An age is the number of touches since its entry was touched or all ages
were set back, in 32 bits, and the victim is the entry whose last touch is oldest exactly when that
number tells so.
-/

namespace Ages

/-- A touch of the entry with a key. It may set back the ages of the others. -/
structure Touch (κ : Type*) where
  key : κ
  clears : Bool

/-- The scan for the last one with the highest age: that age, and its place. -/
def scan (ages : List UInt32) : UInt32 × ℕ :=
  ages.zipIdx.foldl (fun curr x => if curr.1 ≤ x.1 then x else curr) (0, 0)

/-- The place of the victim. -/
def oldest (ages : List UInt32) : ℕ := (scan ages).2

section
variable {κ : Type*} [DecidableEq κ]

/-- The touches since the key was touched or all ages were set back. -/
def idle (key : κ) : List (Touch κ) → ℕ
  | [] => 0
  | t :: log => if t.key = key ∨ t.clears then 0 else idle key log + 1

/-- How many touches ago the key was touched. -/
def lastTouch (key : κ) (log : List (Touch κ)) : ℕ := log.findIdx fun t => t.key = key

/-- The ages of a table behind some touches. -/
structure Aged (table : List (κ × UInt32)) (log : List (Touch κ)) : Prop where
  nodup : (table.map Prod.fst).Nodup
  touched : ∀ x ∈ table, ∃ t ∈ log, t.key = x.1
  age : ∀ x ∈ table, x.2 = .ofNat (idle x.1 log)

/-- The entry at the place is the one whose last touch is oldest. -/
def LeastRecent (table : List (κ × UInt32)) (log : List (Touch κ)) (v : ℕ) : Prop :=
  ∃ x, table[v]? = some x ∧ ∀ y ∈ table, lastTouch y.1 log ≤ lastTouch x.1 log

instance decidableLeastRecent (table : List (κ × UInt32)) (log : List (Touch κ)) (v : ℕ) :
    Decidable (LeastRecent table log v) :=
  inferInstanceAs (Decidable (∃ x ∈ table[v]?, ∀ y ∈ table, lastTouch y.1 log ≤ lastTouch x.1 log))

/-- The entry whose last touch is oldest has the highest number of idle touches in 32 bits, and comes
last of those that have it. -/
def MostIdle (table : List (κ × UInt32)) (log : List (Touch κ)) : Prop :=
  ∀ o x, LeastRecent table log o → table[o]? = some x → ∀ j y, table[j]? = some y →
    idle y.1 log % 2 ^ 32 ≤ idle x.1 log % 2 ^ 32 ∧
      (o < j → idle y.1 log % 2 ^ 32 < idle x.1 log % 2 ^ 32)

end

/-! ## The victim -/

theorem scan_snoc (ages : List UInt32) (a : UInt32) : scan (ages ++ [a]) =
    if (scan ages).1 ≤ a then (a, ages.length) else scan ages := by
  rw [scan, List.zipIdx_append, List.foldl_append, Nat.zero_add]
  rfl

/-- The scan is a pass for the largest age. -/
theorem pass_eq_scan (ages : List UInt32) :
    Passes.pass (2 ^ 32) (ages.map UInt32.toNat) = ((scan ages).1.toNat, oldest ages) := by
  induction ages using List.reverseRecOn with
  | nil => rfl
  | append_singleton ages a ih =>
    have ha := a.toNat_lt
    rw [List.map_append, List.map_singleton, Passes.pass_snoc, ih, oldest, oldest, scan_snoc,
      List.length_map]
    by_cases hle : (scan ages).1 ≤ a
    · rw [if_pos hle, if_pos ⟨UInt32.le_iff_toNat_le.1 hle, ha⟩]
    · rw [if_neg hle, if_neg fun h => hle (UInt32.le_iff_toNat_le.2 h.1)]

/-- The victim has the highest age and comes last of those that have it. -/
def IsOldest (ages : List UInt32) (v : ℕ) : Prop :=
  ∃ a, ages[v]? = some a ∧ ∀ j b, ages[j]? = some b → b ≤ a ∧ (v < j → b < a)

theorem isOldest_oldest {ages : List UInt32} (hne : ages ≠ []) : IsOldest ages (oldest ages) := by
  have hval : ∀ j b, ages[j]? = some b →
      Passes.value (ages.map UInt32.toNat) j = b.toNat ∧ j < (ages.map UInt32.toNat).length := by
    intro j b hj
    have hlt := (List.getElem?_eq_some_iff.1 hj).1
    rw [Passes.value, List.getD_eq_getElem?_getD, List.getElem?_map, hj]
    exact ⟨rfl, by rwa [List.length_map]⟩
  obtain ⟨a, ha⟩ := List.exists_mem_of_ne_nil ages hne
  have hbelow : (Passes.below (ages.map UInt32.toNat) (2 ^ 32)).Nonempty :=
    ⟨a.toNat, Passes.mem_below.2 ⟨List.mem_map_of_mem ha, a.toNat_lt⟩⟩
  obtain ⟨p, hpass, hlast, -, hmax⟩ := Passes.exists_pass hbelow
  rw [pass_eq_scan, Prod.mk.injEq] at hpass
  rw [hpass.2]
  have hp := hlast.lt
  rw [List.length_map] at hp
  obtain ⟨hvp, -⟩ := hval p ages[p] (List.getElem?_eq_getElem hp)
  refine ⟨ages[p], List.getElem?_eq_getElem hp, fun j b hj => ?_⟩
  obtain ⟨hvj, hlt⟩ := hval j b hj
  have hle := hmax b.toNat (hvj ▸ Passes.value_mem hlt) b.toNat_lt
  rw [hvp] at hle
  refine ⟨UInt32.le_iff_toNat_le.2 hle, fun hpj => UInt32.lt_iff_toNat_lt.2 ?_⟩
  have hne := hlast.last j hpj hlt
  rw [hvj, hvp] at hne
  omega

theorem oldest_lt {ages : List UInt32} (hne : ages ≠ []) : oldest ages < ages.length := by
  obtain ⟨a, ha, -⟩ := isOldest_oldest hne
  exact (List.getElem?_eq_some_iff.1 ha).1

theorem IsOldest.unique {ages : List UInt32} {v w : ℕ} (hv : IsOldest ages v)
    (hw : IsOldest ages w) : v = w := by
  obtain ⟨a, ha, hmaxa⟩ := hv
  obtain ⟨b, hb, hmaxb⟩ := hw
  rcases Nat.lt_trichotomy v w with hlt | heq | hlt
  · have hba := UInt32.lt_iff_toNat_lt.1 ((hmaxa w b hb).2 hlt)
    have hab := UInt32.le_iff_toNat_le.1 (hmaxb v a ha).1
    omega
  · exact heq
  · have hab := UInt32.lt_iff_toNat_lt.1 ((hmaxb v a ha).2 hlt)
    have hba := UInt32.le_iff_toNat_le.1 (hmaxa w b hb).1
    omega

section
variable {κ : Type*} [DecidableEq κ] {table table' : List (κ × UInt32)} {log : List (Touch κ)}
variable {key : κ}

/-! ## Touches -/

/-- An entry is touched, and the others age. -/
theorem Aged.touch (h : Aged table log) (key : κ) :
    Aged (table.map fun x => (x.1, if x.1 = key then 0 else x.2 + 1)) (⟨key, false⟩ :: log) := by
  refine ⟨?_, fun x hx => ?_, fun x hx => ?_⟩
  · rw [List.map_map]
    exact h.nodup
  · obtain ⟨y, hy, rfl⟩ := List.mem_map.1 hx
    obtain ⟨t, ht, hkey⟩ := h.touched y hy
    exact ⟨t, List.mem_cons_of_mem _ ht, hkey⟩
  · obtain ⟨y, hy, rfl⟩ := List.mem_map.1 hx
    dsimp only
    rw [idle]
    by_cases hkey : y.1 = key
    · rw [if_pos hkey, if_pos (.inl hkey.symm)]
      rfl
    · rw [if_neg hkey, if_neg (by simpa using fun h => hkey h.symm), h.age y hy, UInt32.ofNat_add]
      rfl

/-- An entry of a table with more in its entries is touched. -/
theorem Aged.touchEntries {α : Type*} {entries : List α} {view : α → κ × UInt32} {f : α → α}
    (h : Aged (entries.map view) log) (key : κ)
    (hf : ∀ a, view (f a) = ((view a).1, if (view a).1 = key then 0 else (view a).2 + 1)) :
    Aged ((entries.map f).map view) (⟨key, false⟩ :: log) := by
  have htouch := h.touch key
  rw [List.map_map] at htouch ⊢
  rwa [show view ∘ f = _ from funext hf]

/-- An entry comes in, and the others age or are set back. -/
theorem Aged.insert (h : Aged table log) (hkey : key ∉ table.map Prod.fst) (clears : Bool) :
    Aged (table.map (fun x => (x.1, if clears then 0 else x.2 + 1)) ++ [(key, 0)])
      (⟨key, clears⟩ :: log) := by
  refine ⟨?_, fun x hx => ?_, fun x hx => ?_⟩
  · rw [List.map_append, List.map_map]
    refine List.nodup_append.2 ⟨h.nodup, List.nodup_singleton key, fun a ha b hb heq => ?_⟩
    rw [List.map_singleton, List.mem_singleton] at hb
    rw [heq, hb] at ha
    exact hkey ha
  · rcases List.mem_append.1 hx with hx | hx
    · obtain ⟨y, hy, rfl⟩ := List.mem_map.1 hx
      obtain ⟨t, ht, hkey⟩ := h.touched y hy
      exact ⟨t, List.mem_cons_of_mem _ ht, hkey⟩
    · rw [List.mem_singleton.1 hx]
      exact ⟨_, List.mem_cons_self .., rfl⟩
  · rw [idle]
    rcases List.mem_append.1 hx with hx | hx
    · obtain ⟨y, hy, rfl⟩ := List.mem_map.1 hx
      have hne : key ≠ y.1 := by
        rintro rfl
        exact hkey (List.mem_map_of_mem hy)
      dsimp only
      cases clears with
      | true =>
        rw [if_pos rfl, if_pos (.inr rfl)]
        rfl
      | false =>
        rw [if_neg Bool.false_ne_true, if_neg (by simp [hne]), h.age y hy, UInt32.ofNat_add]
        rfl
    · rw [List.mem_singleton.1 hx, if_pos (.inl rfl)]
      rfl

/-- Entries go. -/
theorem Aged.sublist (h : Aged table log) (hsub : table'.Sublist table) : Aged table' log :=
  ⟨h.nodup.sublist (hsub.map _), fun x hx => h.touched x (hsub.subset hx),
    fun x hx => h.age x (hsub.subset hx)⟩

/-! ## The least recent entry -/

/-- Entries have different last touches. -/
theorem Aged.lastTouch_inj (h : Aged table log) {x y : κ × UInt32} (hx : x ∈ table) (hy : y ∈ table)
    (heq : lastTouch x.1 log = lastTouch y.1 log) : x.1 = y.1 := by
  have hfind : ∀ z ∈ table, ∃ t, log[lastTouch z.1 log]? = some t ∧ t.key = z.1 := by
    intro z hz
    obtain ⟨t, ht, hkey⟩ := h.touched z hz
    have hlt : lastTouch z.1 log < log.length :=
      List.findIdx_lt_length_of_exists ⟨t, ht, decide_eq_true hkey⟩
    have hkey := @List.findIdx_getElem _ (fun t : Touch κ => decide (t.key = z.1)) log hlt
    exact ⟨log[lastTouch z.1 log], List.getElem?_eq_getElem hlt, of_decide_eq_true hkey⟩
  obtain ⟨t, ht, htx⟩ := hfind x hx
  obtain ⟨u, hu, huy⟩ := hfind y hy
  rw [heq, hu] at ht
  rw [← htx, ← huy, Option.some.inj ht]

theorem exists_leastRecent (hne : table ≠ []) (log : List (Touch κ)) :
    ∃ v, LeastRecent table log v := by
  obtain ⟨x, hx, hmax⟩ := table.toFinset.exists_max_image (fun x => lastTouch x.1 log)
    (List.toFinset_nonempty_iff table |>.2 hne)
  obtain ⟨v, hv⟩ := List.mem_iff_getElem?.1 (List.mem_toFinset.1 hx)
  exact ⟨v, x, hv, fun y hy => hmax y (List.mem_toFinset.2 hy)⟩

theorem Aged.leastRecent_unique (h : Aged table log) {v w : ℕ} (hv : LeastRecent table log v)
    (hw : LeastRecent table log w) : v = w := by
  obtain ⟨x, hx, hmaxx⟩ := hv
  obtain ⟨y, hy, hmaxy⟩ := hw
  have hxm := List.mem_of_getElem? hx
  have hym := List.mem_of_getElem? hy
  have hkey := h.lastTouch_inj hxm hym (Nat.le_antisymm (hmaxy x hxm) (hmaxx y hym))
  have heq : (table.map Prod.fst)[v]? = (table.map Prod.fst)[w]? := by
    rw [List.getElem?_map, List.getElem?_map, hx, hy, Option.map_some, Option.map_some, hkey]
  have hlt : v < (table.map Prod.fst).length := by
    rw [List.length_map]
    exact (List.getElem?_eq_some_iff.1 hx).1
  exact (List.getElem?_inj hlt h.nodup).1 heq

/-- The victim is the least recent entry exactly when that is the most idle one. -/
theorem Aged.leastRecent_iff (h : Aged table log) (hne : table ≠ []) :
    LeastRecent table log (oldest (table.map Prod.snd)) ↔ MostIdle table log := by
  have hold : IsOldest (table.map Prod.snd) (oldest (table.map Prod.snd)) :=
    isOldest_oldest (by simpa using hne)
  -- ages are numbers of idle touches
  have hage : ∀ (j : ℕ) y, table[j]? = some y → (table.map Prod.snd)[j]? = some y.2 ∧
      y.2.toNat = idle y.1 log % 2 ^ 32 := by
    intro j y hy
    have hidle := h.age y (List.mem_of_getElem? hy)
    rw [List.getElem?_map, hy, hidle, UInt32.toNat_ofNat', ← hidle]
    exact ⟨rfl, rfl⟩
  constructor
  · intro hv o x ho hx j y hy
    rw [h.leastRecent_unique ho hv] at hx ⊢
    obtain ⟨a, ha, hmax⟩ := hold
    obtain ⟨hxa, hxi⟩ := hage _ x hx
    obtain ⟨hya, hyi⟩ := hage j y hy
    rw [hxa] at ha
    obtain rfl := Option.some.inj ha
    rw [← hxi, ← hyi, ← UInt32.le_iff_toNat_le, ← UInt32.lt_iff_toNat_lt]
    exact hmax j y.2 hya
  · intro hidle
    obtain ⟨o, ho⟩ := exists_leastRecent hne log
    have ⟨x, hx, _⟩ := ho
    obtain ⟨hxa, hxi⟩ := hage o x hx
    have hoo : IsOldest (table.map Prod.snd) o := by
      refine ⟨x.2, hxa, fun j b hb => ?_⟩
      rw [List.getElem?_map, Option.map_eq_some_iff] at hb
      obtain ⟨y, hy, rfl⟩ := hb
      obtain ⟨-, hyi⟩ := hage j y hy
      rw [UInt32.le_iff_toNat_le, UInt32.lt_iff_toNat_lt, hxi, hyi]
      exact hidle o x ho hx j y hy
    rw [hold.unique hoo]
    exact ho

/-- Where no touch sets back the others, the idle touches are those since the last one of the key. -/
theorem idle_eq_lastTouch (hclears : ∀ t ∈ log, t.clears = false) (htouched : ∃ t ∈ log, t.key = key) :
    idle key log = lastTouch key log := by
  induction log with
  | nil =>
    obtain ⟨t, ht, -⟩ := htouched
    exact absurd ht List.not_mem_nil
  | cons t log ih =>
    have ht := hclears t (List.mem_cons_self ..)
    rw [idle, lastTouch, List.findIdx_cons]
    by_cases hkey : t.key = key
    · rw [if_pos (.inl hkey), decide_eq_true hkey]
      rfl
    · obtain ⟨u, hu, huk⟩ := htouched
      have hrest : ∃ u ∈ log, u.key = key := by
        rcases List.mem_cons.1 hu with rfl | hu
        · exact absurd huk hkey
        · exact ⟨u, hu, huk⟩
      have hnot : ¬ (t.key = key ∨ t.clears = true) := by
        rw [ht]
        exact fun h => hkey (h.resolve_right Bool.false_ne_true)
      rw [if_neg hnot, decide_eq_false hkey, ih (fun u hu => hclears u (List.mem_cons_of_mem _ hu))
        hrest]
      rfl

/-- Where no touch sets back the others and none is long ago, the least recent entry is the most idle
one. -/
theorem Aged.mostIdle (h : Aged table log) (hclears : ∀ t ∈ log, t.clears = false)
    (hlt : ∀ x ∈ table, lastTouch x.1 log < 2 ^ 32) : MostIdle table log := by
  have hidle : ∀ x ∈ table, idle x.1 log % 2 ^ 32 = lastTouch x.1 log := by
    intro x hx
    rw [idle_eq_lastTouch hclears (h.touched x hx), Nat.mod_eq_of_lt (hlt x hx)]
  intro o x ho hx j y hy
  obtain ⟨x', hx', hmax⟩ := ho
  obtain rfl : x = x' := Option.some.inj (hx.symm.trans hx')
  have hxm := List.mem_of_getElem? hx
  have hym := List.mem_of_getElem? hy
  rw [hidle x hxm, hidle y hym]
  refine ⟨hmax y hym, fun hoj => Nat.lt_of_le_of_ne (hmax y hym) fun heq => ?_⟩
  -- two places cannot have the same last touch
  have hlate : LeastRecent table log j := ⟨y, hy, fun z hz => heq ▸ hmax z hz⟩
  exact Nat.ne_of_lt hoj (h.leastRecent_unique ⟨x, hx, hmax⟩ hlate)

end

/-! ## Tables with keys -/

section
variable {α κ : Type*} [DecidableEq κ] {key : α → κ} {l : List α} {i : ℕ} {x : α}

/-- With different keys, a change at a place is one of the entry with its key. -/
theorem modify_eq_map (hnodup : (l.map key).Nodup) (hi : l[i]? = some x) (f g : α → α) :
    (l.map f).modify i g = l.map fun a => if key a = key x then g (f a) else f a := by
  refine List.ext_getElem? fun j => ?_
  rw [List.getElem?_modify, List.getElem?_map, List.getElem?_map]
  cases hj : l[j]? with
  | none => rfl
  | some a =>
    dsimp only [Option.map_some, Option.map_eq_map]
    by_cases hij : i = j
    · subst hij
      rw [hi] at hj
      rw [if_pos rfl, Option.some.inj hj, if_pos rfl]
    · have hne : key a ≠ key x := by
        intro heq
        have hlt : i < (l.map key).length := by
          rw [List.length_map]
          exact (List.getElem?_eq_some_iff.1 hi).1
        refine hij ((List.getElem?_inj hlt hnodup).1 ?_)
        rw [List.getElem?_map, List.getElem?_map, hi, hj, Option.map_some, Option.map_some, heq]
      rw [if_neg hij, if_neg hne]

/-- Changes of all entries between two of the one at a place. -/
theorem modify_map_modify (hnodup : (l.map key).Nodup) (hi : l[i]? = some x) (f g h : α → α)
    (hf : ∀ a, key (f a) = key a) : ((l.modify i f).map g).modify i h =
      l.map fun a => if key a = key x then h (g (f a)) else g a := by
  have hmodify : l.modify i f = l.map fun a => if key a = key x then f a else a := by
    have hmap := modify_eq_map hnodup hi id f
    rwa [List.map_id] at hmap
  have hkeys : ((l.map fun a => if key a = key x then f a else a).map key) = l.map key := by
    rw [List.map_map]
    refine List.map_congr_left fun a _ => ?_
    rw [Function.comp_apply]
    split
    · exact hf a
    · rfl
  have hget : (l.map fun a => if key a = key x then f a else a)[i]? = some (f x) := by
    rw [List.getElem?_map, hi, Option.map_some, if_pos rfl]
  rw [hmodify, modify_eq_map (by rwa [hkeys]) hget, List.map_map]
  refine List.map_congr_left fun a _ => ?_
  rw [Function.comp_apply, hf]
  by_cases ha : key a = key x
  · rw [if_pos ha, hf, if_pos ha, if_pos ha]
  · rw [if_neg ha, if_neg ha, if_neg ha]

/-- With different keys, the entry at a place goes with its key. -/
theorem eraseIdx_eq_filter (hnodup : (l.map key).Nodup) (hi : l[i]? = some x) :
    l.eraseIdx i = l.filter fun a => key a ≠ key x := by
  induction l generalizing i with
  | nil => cases hi
  | cons a l ih =>
    rw [List.map_cons, List.nodup_cons] at hnodup
    cases i with
    | zero =>
      obtain rfl : a = x := Option.some.inj hi
      rw [List.eraseIdx_cons_zero, List.filter_cons_of_neg (by simp), List.filter_eq_self.2]
      intro b hb
      refine decide_eq_true fun heq => hnodup.1 ?_
      exact List.mem_map.2 ⟨b, hb, heq⟩
    | succ i =>
      rw [List.getElem?_cons_succ] at hi
      have hne : key a ≠ key x := by
        intro heq
        refine hnodup.1 (List.mem_map.2 ⟨x, List.mem_of_getElem? hi, heq.symm⟩)
      rw [List.eraseIdx_cons_succ, ih hnodup.2 hi, List.filter_cons_of_pos (by simpa using hne)]

/-- What a search for a key finds. -/
theorem findIdx?_key {k : κ} (h : (l.findIdx? fun a => key a = k) = some i) :
    ∃ x, l[i]? = some x ∧ key x = k := by
  obtain ⟨hlt, hkey, -⟩ := List.findIdx?_eq_some_iff_getElem.1 h
  exact ⟨l[i], List.getElem?_eq_getElem hlt, of_decide_eq_true hkey⟩

theorem findIdx?_key_none {k : κ} (h : (l.findIdx? fun a => key a = k) = none) :
    k ∉ l.map key := by
  intro hmem
  obtain ⟨a, ha, heq⟩ := List.mem_map.1 hmem
  have hnot := List.findIdx?_eq_none_iff.1 h a ha
  exact of_decide_eq_false hnot heq

end

end Ages
