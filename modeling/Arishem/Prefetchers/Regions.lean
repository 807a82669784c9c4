import Arishem.Prefetchers.Sms

/-!
# Regions

A region is tracked in one place. Its generation begins with an access while it is in neither the filter
nor the accumulation table; the accumulation table has the blocks of the generation, and hands them to
the pattern history table when it evicts the region. A run keeps its accesses, the last one first.
-/

namespace Arishem

namespace Sms

section
variable (k : Knobs)

/-- An access: it may begin a generation, and touch an entry of the accumulation table and one of the
pattern history table. -/
structure Event where
  pc : UInt64
  page : UInt64
  offset : ℕ
  begins : Bool
  acc : Option (Ages.Touch UInt64)
  pht : Option (Ages.Touch UInt64)

/-- The region that an access evicts from the accumulation table. -/
def evicted (s : Sms) (page : UInt64) : Option ATEntry :=
  if s.searchAccTable page = none ∧ s.searchFilterTable page ≠ none ∧
      k.atSize ≤ s.accTable.length then
    s.accTable[s.searchVictimAccTable]?
  else none

/-- The signature of the entry of a region. -/
def ATEntry.signature (e : ATEntry) : UInt64 := createSignature k e.pc e.triggerOffset

/-- The set that a signature belongs to. -/
def setAt (s : Sms) (signature : UInt64) : List PHTEntry := s.pht.getD (setOf k signature) []

/-- The pattern that an access stores or uses. -/
def phtTouch (s : Sms) (pc page : UInt64) (offset : ℕ) : Option (Ages.Touch UInt64) :=
  match s.evicted k page with
  | some e =>
    some ⟨e.signature k, (searchPht (s.setAt k (e.signature k)) (e.signature k)).isNone⟩
  | none =>
    let signature := createSignature k pc offset
    if s.searchAccTable page = none ∧ s.searchFilterTable page = none ∧
        searchPht (s.setAt k signature) signature ≠ none then
      some ⟨signature, false⟩
    else none

/-- What an access is. -/
def event (s : Sms) (pc page : UInt64) (offset : ℕ) : Event where
  pc := pc
  page := page
  offset := offset
  begins := s.searchAccTable page = none ∧ s.searchFilterTable page = none
  acc :=
    if s.searchAccTable page = none ∧ s.searchFilterTable page = none then none
    else some ⟨page, false⟩
  pht := s.phtTouch k pc page offset

/-- The runs. -/
inductive Run : List Event → Sms → Prop
  | init : Run [] (init k)
  | access {events : List Event} {s : Sms} (h : Run events s) (pc address : UInt64) :
    Run (s.event k pc (regionOf k address) (blockOf k address) :: events)
      (s.invokePrefetcher k pc address).1

/-- The run of some accesses, each a `pc` and an address. -/
def run (accesses : List (UInt64 × UInt64)) : List Event × Sms :=
  accesses.foldl (fun r a => (r.2.event k a.1 (regionOf k a.2) (blockOf k a.2) :: r.1,
    (r.2.invokePrefetcher k a.1 a.2).1)) ([], init k)

/-- The accesses of the current generation of a region. -/
def generation (page : UInt64) : List Event → List Event
  | [] => []
  | t :: events =>
    if t.page = page then t :: (if t.begins then [] else generation page events)
    else generation page events

/-- The entries of a set: no more than there is room for, of different signatures, which belong to
it. -/
structure SetOk (i : ℕ) (set : List PHTEntry) : Prop where
  size : set.length ≤ k.phtAssoc
  nodup : (set.map (·.signature)).Nodup
  set_eq : ∀ e ∈ set, setOf k e.signature = i

/-- The entry has the blocks of the generation of its region, and the access that began it. -/
structure Accumulates (events : List Event) (e : ATEntry) : Prop where
  pattern : ∀ i, e.pattern.getLsbD i = true ↔ ∃ t ∈ generation e.page events, t.offset = i
  trigger : ∃ t, (generation e.page events).getLast? = some t ∧ t.pc = e.pc ∧
    t.offset = e.triggerOffset

/-- Regions are tracked in one place. -/
structure Tracked (events : List Event) (s : Sms) : Prop where
  pages : (s.filterTable.map (·.page) ++ s.accTable.map (·.page)).Nodup
  ftSize : s.filterTable.length ≤ k.ftSize
  atSize : s.accTable.length ≤ k.atSize
  sets : s.pht.length = k.phtSets
  pht : ∀ (i : ℕ) set, s.pht[i]? = some set → SetOk k i set
  filter : ∀ e ∈ s.filterTable, ∃ t, generation e.page events = [t] ∧ t.pc = e.pc ∧
    t.offset = e.triggerOffset
  acc : ∀ e ∈ s.accTable, Accumulates events e

/-- The pattern history table has the blocks of an entry under its signature. -/
def Stored (s : Sms) (e : ATEntry) : Prop :=
  ∃ x ∈ s.setAt k (e.signature k), x.signature = e.signature k ∧ x.pattern = e.pattern

end

section
variable {k : Knobs} {s s' : Sms} {pc page address : UInt64} {offset : ℕ} {events : List Event}

/-! ## One access -/

/-- The entries behind a hit. -/
def hitEntries (page : UInt64) (offset : ℕ) (acc : List ATEntry) : List ATEntry :=
  acc.map fun e =>
    if e.page = page then { e with pattern := e.pattern.set offset true, age := 0 }
    else { e with age := e.age + 1 }

/-- What an access does to the tables. -/
inductive Goes (k : Knobs) (s : Sms) (pc page : UInt64) (offset : ℕ) :
    List FTEntry → List ATEntry → List (List PHTEntry) → Prop
  | hit (hacc : page ∈ s.accTable.map (·.page)) :
    Goes k s pc page offset s.filterTable (hitEntries page offset s.accTable) s.pht
  | second {e : FTEntry} (hacc : page ∉ s.accTable.map (·.page)) (he : e ∈ s.filterTable)
    (hpage : e.page = page) (hroom : s.accTable.length < k.atSize) :
    Goes k s pc page offset (s.filterTable.filter fun x => x.page ≠ page)
      ((s.accTable.map fun x => { x with age := x.age + 1 }) ++
        [⟨page, e.pc, e.triggerOffset, (Bitmap.set 0 e.triggerOffset true).set offset true, 0⟩])
      s.pht
  | evict {e : FTEntry} {victim : ATEntry} (hacc : page ∉ s.accTable.map (·.page))
    (he : e ∈ s.filterTable) (hpage : e.page = page) (hfull : k.atSize ≤ s.accTable.length)
    (hvictim : s.accTable[s.searchVictimAccTable]? = some victim) :
    Goes k s pc page offset (s.filterTable.filter fun x => x.page ≠ page)
      (((s.accTable.eraseIdx s.searchVictimAccTable).map fun x => { x with age := x.age + 1 }) ++
        [⟨page, e.pc, e.triggerOffset, (Bitmap.set 0 e.triggerOffset true).set offset true, 0⟩])
      (s.pht.modify (setOf k (victim.signature k))
        (insertInSet k (victim.signature k) victim.pattern))
  | first {pht : List (List PHTEntry)} (hacc : page ∉ s.accTable.map (·.page))
    (hfilter : page ∉ s.filterTable.map (·.page))
    (hpht : searchPht (s.setAt k (createSignature k pc offset)) (createSignature k pc offset) =
        none ∧ pht = s.pht ∨
      ∃ i, searchPht (s.setAt k (createSignature k pc offset)) (createSignature k pc offset) =
        some i ∧ pht = s.pht.modify (setOf k (createSignature k pc offset)) (updateAgePht · i)) :
    Goes k s pc page offset
      ((if k.ftSize ≤ s.filterTable.length then s.filterTable.eraseIdx 0 else s.filterTable) ++
        [⟨page, pc, offset⟩]) s.accTable pht

/-- Prefetches change the ages of a set only. -/
theorem generatePrefetch_tables (s : Sms) (pc page : UInt64) (offset : ℕ) :
    ∃ pht, (s.generatePrefetch k pc page offset).1 = { s with pht := pht } ∧
      (searchPht (s.setAt k (createSignature k pc offset)) (createSignature k pc offset) = none ∧
        pht = s.pht ∨
      ∃ i, searchPht (s.setAt k (createSignature k pc offset)) (createSignature k pc offset) =
        some i ∧ pht = s.pht.modify (setOf k (createSignature k pc offset)) (updateAgePht · i)) := by
  rw [generatePrefetch]
  cases hi : searchPht (s.pht.getD (setOf k (createSignature k pc offset)) [])
      (createSignature k pc offset) with
  | none => exact ⟨s.pht, rfl, .inl ⟨hi, rfl⟩⟩
  | some i =>
    obtain ⟨e, he, -⟩ := Ages.findIdx?_key hi
    dsimp only
    rw [he]
    exact ⟨_, rfl, .inr ⟨i, hi, rfl⟩⟩

theorem searchAccTable_none_iff : s.searchAccTable page = none ↔
    page ∉ s.accTable.map (·.page) := by
  constructor
  · exact fun h => Ages.findIdx?_key_none h
  · intro h
    refine List.findIdx?_eq_none_iff.2 fun e he => decide_eq_false fun heq => h ?_
    exact List.mem_map.2 ⟨e, he, heq⟩

theorem searchFilterTable_none_iff : s.searchFilterTable page = none ↔
    page ∉ s.filterTable.map (·.page) := by
  constructor
  · exact fun h => Ages.findIdx?_key_none h
  · intro h
    refine List.findIdx?_eq_none_iff.2 fun e he => decide_eq_false fun heq => h ?_
    exact List.mem_map.2 ⟨e, he, heq⟩

/-- A hit, by the region. -/
theorem updateAge_modify {i : ℕ} {e : ATEntry} (hacc : (s.accTable.map (·.page)).Nodup)
    (he : s.accTable[i]? = some e) (offset : ℕ) :
    ({ s with
      accTable := s.accTable.modify i fun e => { e with pattern := e.pattern.set offset true }
      }.updateAgeAccTable i).accTable = hitEntries e.page offset s.accTable :=
  Ages.modify_map_modify hacc he _ _ _ fun _ => rfl

theorem insertFilterTable_eq (s : Sms) (pc page : UInt64) (offset : ℕ) :
    s.insertFilterTable k pc page offset = { s with
      filterTable :=
        (if k.ftSize ≤ s.filterTable.length then s.filterTable.eraseIdx 0 else s.filterTable) ++
          [⟨page, pc, offset⟩] } := by
  rw [insertFilterTable]
  split <;> rfl

/-- What an access does, when regions are tracked in one place. -/
theorem goes_access (hacc : (s.accTable.map (·.page)).Nodup)
    (hfilter : (s.filterTable.map (·.page)).Nodup) (pc page : UInt64) (offset : ℕ) :
    Goes k s pc page offset (s.access k pc page offset).1.filterTable
      (s.access k pc page offset).1.accTable (s.access k pc page offset).1.pht := by
  rw [access]
  cases hi : s.searchAccTable page with
  | some i =>
    obtain ⟨e, he, rfl⟩ := Ages.findIdx?_key hi
    have hhit := updateAge_modify hacc he offset
    dsimp only
    rw [hhit]
    exact .hit (List.mem_map_of_mem (List.mem_of_getElem? he))
  | none =>
    have hout := searchAccTable_none_iff.1 hi
    dsimp only
    cases hf : s.searchFilterTable page with
    | some i =>
      obtain ⟨e, he, rfl⟩ := Ages.findIdx?_key hf
      have hmem := List.mem_of_getElem? he
      dsimp only
      rw [he]
      dsimp only [evictFilterTable, insertAccTable]
      by_cases hfull : k.atSize ≤ s.accTable.length
      · obtain ⟨victim, hvictim⟩ : ∃ victim, s.accTable[s.searchVictimAccTable]? = some victim := by
          have hne : s.accTable.map (·.age) ≠ [] := by
            have hpos := k.atSize_pos
            rw [← List.length_pos_iff, List.length_map]
            omega
          obtain ⟨a, ha, -⟩ := Ages.isOldest_oldest hne
          rw [List.getElem?_map, Option.map_eq_some_iff] at ha
          obtain ⟨victim, hvictim, -⟩ := ha
          exact ⟨victim, hvictim⟩
        rw [if_pos hfull, evictAccTable, hvictim]
        dsimp only [insertPhtTable]
        rw [Ages.eraseIdx_eq_filter hfilter he]
        exact .evict hout hmem rfl hfull hvictim
      · rw [if_neg hfull, Ages.eraseIdx_eq_filter hfilter he]
        exact .second hout hmem rfl (Nat.lt_of_not_le hfull)
    | none =>
      have hnew := searchFilterTable_none_iff.1 hf
      obtain ⟨pht, htables, hpht⟩ := generatePrefetch_tables (k := k)
        (s.insertFilterTable k pc page offset) pc page offset
      rw [insertFilterTable_eq] at htables hpht
      have hfirst : Goes k s pc page offset _ _ pht := .first hout hnew hpht
      dsimp only
      rw [insertFilterTable_eq]
      split
      · dsimp only [bufferPrefetch]
        rw [htables]
        exact hfirst
      · rw [htables]
        exact hfirst

/-- What an access does. -/
theorem goes_invoke (hacc : (s.accTable.map (·.page)).Nodup)
    (hfilter : (s.filterTable.map (·.page)).Nodup) (pc address : UInt64) :
    Goes k s pc (regionOf k address) (blockOf k address)
      (s.invokePrefetcher k pc address).1.filterTable
      (s.invokePrefetcher k pc address).1.accTable
      (s.invokePrefetcher k pc address).1.pht := by
  have hgoes := goes_access (k := k) hacc hfilter pc (regionOf k address) (blockOf k address)
  rw [invokePrefetcher]
  generalize s.access k pc (regionOf k address) (blockOf k address) = r at hgoes
  dsimp only
  split <;> exact hgoes

/-! ## Sets -/

/-- Updating the ages of a set, by the signature. -/
theorem updateAgePht_eq {set : List PHTEntry} {i : ℕ} {e : PHTEntry}
    (hnodup : (set.map (·.signature)).Nodup) (he : set[i]? = some e) :
    updateAgePht set i = set.map fun x =>
      if x.signature = e.signature then { x with age := 0 } else { x with age := x.age + 1 } :=
  @Ages.modify_eq_map _ _ _ PHTEntry.signature _ _ _ hnodup he _ _

/-- A pattern comes into a set. -/
inductive Inserts (k : Knobs) (signature : UInt64) (pattern : Bitmap) (set : List PHTEntry) :
    List PHTEntry → Prop
  | hit (h : signature ∈ set.map (·.signature)) :
    Inserts k signature pattern set (set.map fun x =>
      if x.signature = signature then { x with pattern := pattern, age := 0 }
      else { x with age := x.age + 1 })
  | room (h : signature ∉ set.map (·.signature)) (hroom : set.length < k.phtAssoc) :
    Inserts k signature pattern set ((set.map fun x => { x with age := 0 }) ++
      [⟨signature, pattern, 0⟩])
  | full (h : signature ∉ set.map (·.signature)) (hfull : k.phtAssoc ≤ set.length) :
    Inserts k signature pattern set
      (((set.eraseIdx (searchVictimPht set)).map fun x => { x with age := 0 }) ++
        [⟨signature, pattern, 0⟩])

theorem inserts_insertInSet {set : List PHTEntry} (hnodup : (set.map (·.signature)).Nodup)
    (signature : UInt64) (pattern : Bitmap) :
    Inserts k signature pattern set (insertInSet k signature pattern set) := by
  rw [insertInSet]
  cases hi : searchPht set signature with
  | none =>
    have hout : signature ∉ set.map (·.signature) := Ages.findIdx?_key_none hi
    dsimp only
    split
    · rename_i hfull
      exact .full hout hfull
    · rename_i hroom
      exact .room hout (Nat.lt_of_not_le hroom)
  | some i =>
    obtain ⟨e, he, rfl⟩ := Ages.findIdx?_key hi
    have hmap : updateAgePht (set.modify i fun e => { e with pattern := pattern }) i =
        set.map fun x =>
          if x.signature = e.signature then { x with pattern := pattern, age := 0 }
          else { x with age := x.age + 1 } :=
      Ages.modify_map_modify hnodup he _ _ _ fun _ => rfl
    dsimp only
    rw [hmap]
    exact .hit (List.mem_map_of_mem (List.mem_of_getElem? he))

theorem SetOk.sublist {i : ℕ} {set set' : List PHTEntry} (h : SetOk k i set)
    (hsub : set'.Sublist set) : SetOk k i set' :=
  ⟨hsub.length_le.trans h.size, h.nodup.sublist (hsub.map _), fun e he => h.set_eq e (hsub.subset he)⟩

/-- The entries change, but for their signatures. -/
theorem SetOk.map {i : ℕ} {set : List PHTEntry} (h : SetOk k i set) {f : PHTEntry → PHTEntry}
    (hf : ∀ e, (f e).signature = e.signature) : SetOk k i (set.map f) := by
  refine ⟨?_, ?_, fun e he => ?_⟩
  · rw [List.length_map]
    exact h.size
  · rw [List.map_map]
    have hkeys : (PHTEntry.signature ∘ f) = PHTEntry.signature := funext hf
    rw [hkeys]
    exact h.nodup
  · obtain ⟨x, hx, rfl⟩ := List.mem_map.1 he
    rw [hf]
    exact h.set_eq x hx

/-- An entry comes into a set with room. -/
theorem SetOk.push {set : List PHTEntry} {e : PHTEntry} (h : SetOk k (setOf k e.signature) set)
    (hroom : set.length < k.phtAssoc) (hout : e.signature ∉ set.map (·.signature)) :
    SetOk k (setOf k e.signature) (set ++ [e]) := by
  refine ⟨?_, ?_, fun x hx => ?_⟩
  · rw [List.length_append, List.length_singleton]
    exact hroom
  · rw [List.map_append, List.map_singleton]
    refine List.nodup_append.2 ⟨h.nodup, List.nodup_singleton _, fun a ha b hb heq => hout ?_⟩
    rwa [← List.mem_singleton.1 hb, ← heq]
  · rcases List.mem_append.1 hx with hx | hx
    · exact h.set_eq x hx
    · rw [List.mem_singleton.1 hx]

/-- A set that a pattern comes into keeps its bound and its signatures. -/
theorem SetOk.inserts {set set' : List PHTEntry} {signature : UInt64} {pattern : Bitmap}
    (h : SetOk k (setOf k signature) set) (hins : Inserts k signature pattern set set') :
    SetOk k (setOf k signature) set' := by
  cases hins with
  | hit hmem =>
    refine h.map fun e => ?_
    split <;> rfl
  | room hout hroom =>
    refine (h.map (f := fun x => { x with age := 0 }) fun _ => rfl).push (e := ⟨signature, _, 0⟩)
      ?_ ?_
    · rwa [List.length_map]
    · rwa [List.map_map]
  | full hout hfull =>
    have hpos := k.phtAssoc_pos
    have hne : set.map (·.age) ≠ [] := by
      rw [← List.length_pos_iff, List.length_map]
      omega
    have hlt : searchVictimPht set < (set.map (·.age)).length := Ages.oldest_lt hne
    have hsize := h.size
    have hsub := List.eraseIdx_sublist set (searchVictimPht set)
    rw [List.length_map] at hlt
    refine ((h.sublist hsub).map (f := fun x => { x with age := 0 }) fun _ => rfl).push
      (e := ⟨signature, _, 0⟩) ?_ ?_
    · rw [List.length_map, List.length_eraseIdx_of_lt hlt]
      omega
    · rw [List.map_map]
      exact fun hmem => hout ((hsub.map _).subset hmem)

/-- What comes into a set is there. -/
theorem Inserts.stored {set set' : List PHTEntry} {signature : UInt64} {pattern : Bitmap}
    (hins : Inserts k signature pattern set set') :
    ∃ x ∈ set', x.signature = signature ∧ x.pattern = pattern := by
  cases hins with
  | hit hmem =>
    obtain ⟨x, hx, rfl⟩ := List.mem_map.1 hmem
    refine ⟨_, List.mem_map_of_mem hx, ?_⟩
    rw [if_pos rfl]
    exact ⟨rfl, rfl⟩
  | room | full => exact ⟨_, List.mem_append_right _ (List.mem_singleton_self _), rfl, rfl⟩

/-- One set changes. -/
theorem setOk_modify {pht : List (List PHTEntry)} {j : ℕ} {f : List PHTEntry → List PHTEntry}
    (h : ∀ (i : ℕ) set, pht[i]? = some set → SetOk k i set)
    (hf : ∀ set, SetOk k j set → SetOk k j (f set)) {i : ℕ} {set : List PHTEntry}
    (hset : (pht.modify j f)[i]? = some set) : SetOk k i set := by
  rw [List.getElem?_modify, Option.map_eq_map, Option.map_eq_some_iff] at hset
  obtain ⟨old, hold, rfl⟩ := hset
  by_cases hij : j = i
  · subst hij
    rw [if_pos rfl]
    exact hf old (h j old hold)
  · rw [if_neg hij]
    exact h i old hold

theorem setOk_updateAge (signature : UInt64) {set : List PHTEntry} {i j : ℕ} (h : SetOk k j set)
    (hi : searchPht set signature = some i) : SetOk k j (updateAgePht set i) := by
  obtain ⟨e, he, -⟩ := Ages.findIdx?_key hi
  rw [updateAgePht_eq h.nodup he]
  refine h.map fun x => ?_
  split <;> rfl

/-! ## Generations -/

theorem generation_of_ne {t : Event} (h : t.page ≠ page) :
    generation page (t :: events) = generation page events := if_neg h

theorem generation_of_begins {t : Event} (h : t.begins = true) :
    generation t.page (t :: events) = [t] := by
  rw [generation, if_pos rfl, if_pos h]

theorem generation_of_goes {t : Event} (h : t.begins = false) :
    generation t.page (t :: events) = t :: generation t.page events := by
  rw [generation, if_pos rfl, if_neg (by rw [h]; exact Bool.false_ne_true)]

/-- An access elsewhere. -/
theorem Accumulates.other {e : ATEntry} {t : Event} (h : Accumulates events e)
    (hne : t.page ≠ e.page) (a : UInt32) : Accumulates (t :: events) { e with age := a } := by
  obtain ⟨hpattern, htrigger⟩ := h
  rw [← generation_of_ne hne] at htrigger
  exact ⟨fun i => by rw [hpattern, generation_of_ne hne], htrigger⟩

/-- The next access of a generation. -/
theorem Accumulates.next {e : ATEntry} {t : Event} (h : Accumulates events e)
    (hpage : t.page = e.page) (hbegins : t.begins = false) (hoffset : t.offset < 64) (a : UInt32) :
    Accumulates (t :: events) { e with pattern := e.pattern.set t.offset true, age := a } := by
  have hgen : generation e.page (t :: events) = t :: generation e.page events := by
    rw [← hpage]
    exact generation_of_goes hbegins
  obtain ⟨hpattern, first, hfirst, htrigger⟩ := h
  refine ⟨fun i => ?_, first, ?_, htrigger⟩
  · rw [Bitmap.getLsbD_set, hgen]
    by_cases hi : t.offset = i
    · rw [if_pos ⟨hi, hi ▸ hoffset⟩]
      exact iff_of_true rfl ⟨t, List.mem_cons_self .., hi⟩
    · rw [if_neg fun h => hi h.1, hpattern]
      constructor
      · rintro ⟨u, hu, hui⟩
        exact ⟨u, List.mem_cons_of_mem _ hu, hui⟩
      · rintro ⟨u, hu, hui⟩
        rcases List.mem_cons.1 hu with rfl | hu
        · exact absurd hui hi
        · exact ⟨u, hu, hui⟩
  · dsimp only
    rw [hgen, List.getLast?_cons, hfirst]
    rfl

/-- The second access of a generation. -/
theorem accumulates_second {e : FTEntry} {t first : Event} (hgen : generation e.page events = [first])
    (hpc : first.pc = e.pc) (hfirst : first.offset = e.triggerOffset) (hpage : t.page = e.page)
    (hbegins : t.begins = false) (htrigger : e.triggerOffset < 64) (hoffset : t.offset < 64) :
    Accumulates (t :: events) ⟨e.page, e.pc, e.triggerOffset,
      (Bitmap.set 0 e.triggerOffset true).set t.offset true, 0⟩ := by
  have hold : Accumulates events ⟨e.page, e.pc, e.triggerOffset,
      Bitmap.set 0 e.triggerOffset true, 0⟩ := by
    refine ⟨fun i => ?_, first, by rw [hgen]; rfl, hpc, hfirst⟩
    rw [Bitmap.getLsbD_set]
    dsimp only
    rw [hgen]
    by_cases hi : e.triggerOffset = i
    · rw [if_pos ⟨hi, hi ▸ htrigger⟩]
      exact iff_of_true rfl ⟨first, List.mem_singleton_self _, hfirst.trans hi⟩
    · rw [if_neg fun h => hi h.1]
      refine iff_of_false (by simp) ?_
      rintro ⟨u, hu, hui⟩
      rw [List.mem_singleton.1 hu, hfirst] at hui
      exact hi hui
  exact hold.next hpage hbegins hoffset 0

/-! ## Tables -/

theorem blockOf_lt (k : Knobs) (address : UInt64) : blockOf k address < 64 := by
  have hall : ∀ n : Fin 7, (((1 : UInt64) <<< .ofNat n.val) - 1).toNat < 64 := by decide
  have hge := k.regionSizeLog_ge
  have hle := k.regionSizeLog_le
  rw [blockOf, UInt64.toNat_and]
  exact Nat.lt_of_le_of_lt Nat.and_le_right (hall ⟨k.regionSizeLog - 6, by omega⟩)

/-- The tables, with offsets that fit into a bitmap. -/
structure Inv (k : Knobs) (events : List Event) (s : Sms) : Prop extends Tracked k events s where
  bound : ∀ e ∈ s.filterTable, e.triggerOffset < 64

theorem Inv.acc_nodup (h : Inv k events s) : (s.accTable.map (·.page)).Nodup :=
  (List.nodup_append.1 h.pages).2.1

theorem Inv.filter_nodup (h : Inv k events s) : (s.filterTable.map (·.page)).Nodup :=
  (List.nodup_append.1 h.pages).1

theorem inv_init (k : Knobs) : Inv k [] (init k) where
  pages := List.nodup_nil
  ftSize := Nat.zero_le _
  atSize := Nat.zero_le _
  sets := List.length_replicate
  pht i set h := by
    rw [init, List.getElem?_replicate, Option.ite_none_right_eq_some] at h
    rw [← Option.some.inj h.2]
    exact ⟨Nat.zero_le _, List.nodup_nil, fun e he => absurd he List.not_mem_nil⟩
  filter e he := absurd he List.not_mem_nil
  acc e he := absurd he List.not_mem_nil
  bound e he := absurd he List.not_mem_nil

/-- A region in a table is not in the other one. -/
theorem Inv.page_ne (h : Inv k events s) {e : FTEntry} {e' : ATEntry} (he : e ∈ s.filterTable)
    (he' : e' ∈ s.accTable) : e.page ≠ e'.page := by
  have hdisjoint := (List.nodup_append.1 h.pages).2.2
  exact hdisjoint _ (List.mem_map_of_mem he) _ (List.mem_map_of_mem he')

/-- A hit in the accumulation table. -/
theorem Inv.hit (h : Inv k events s) {t : Event} (hacc : t.page ∈ s.accTable.map (·.page))
    (hbegins : t.begins = false) (hoffset : t.offset < 64) (buffer : List UInt64) :
    Inv k (t :: events)
      ⟨s.filterTable, hitEntries t.page t.offset s.accTable, s.pht, buffer⟩ where
  pages := by
    have hkeys : (hitEntries t.page t.offset s.accTable).map (·.page) = s.accTable.map (·.page) := by
      rw [hitEntries, List.map_map]
      refine List.map_congr_left fun x _ => ?_
      rw [Function.comp_apply]
      split <;> rfl
    dsimp only
    rw [hkeys]
    exact h.pages
  ftSize := h.ftSize
  atSize := by
    dsimp only
    rw [hitEntries, List.length_map]
    exact h.atSize
  sets := h.sets
  pht := h.pht
  filter e he := by
    obtain ⟨x, hx, hpage⟩ := List.mem_map.1 hacc
    have hne : t.page ≠ e.page := by
      rw [← hpage]
      exact (h.page_ne he hx).symm
    rw [generation_of_ne hne]
    exact h.filter e he
  acc e he := by
    obtain ⟨x, hx, rfl⟩ := List.mem_map.1 he
    by_cases hpage : x.page = t.page
    · rw [if_pos hpage]
      exact (h.acc x hx).next hpage.symm hbegins hoffset 0
    · rw [if_neg hpage]
      exact (h.acc x hx).other (Ne.symm hpage) _
  bound := h.bound

/-- A region moves from the filter table to the accumulation table. -/
theorem Inv.moves (h : Inv k events s) {t : Event} {e : FTEntry} {acc : List ATEntry}
    {pht : List (List PHTEntry)} (he : e ∈ s.filterTable) (hpage : e.page = t.page)
    (hout : t.page ∉ s.accTable.map (·.page)) (hsub : acc.Sublist s.accTable)
    (hroom : acc.length < k.atSize) (hsets : pht.length = k.phtSets)
    (hpht : ∀ (i : ℕ) set, pht[i]? = some set → SetOk k i set) (hbegins : t.begins = false)
    (hoffset : t.offset < 64) (buffer : List UInt64) :
    Inv k (t :: events) ⟨s.filterTable.filter fun x => x.page ≠ t.page,
      (acc.map fun x => { x with age := x.age + 1 }) ++
        [⟨t.page, e.pc, e.triggerOffset, (Bitmap.set 0 e.triggerOffset true).set t.offset true, 0⟩],
      pht, buffer⟩ where
  pages := by
    dsimp only
    rw [List.map_append, List.map_map, List.map_singleton, ← List.append_assoc]
    refine List.nodup_append.2 ⟨?_, List.nodup_singleton _, fun a ha b hb heq => ?_⟩
    · exact h.pages.sublist ((List.filter_sublist.map _).append (hsub.map _))
    · rw [List.mem_singleton.1 hb] at heq
      subst heq
      rcases List.mem_append.1 ha with ha | ha
      · obtain ⟨x, hx, hxt⟩ := List.mem_map.1 ha
        exact of_decide_eq_true (List.mem_filter.1 hx).2 hxt
      · exact hout ((hsub.map _).subset ha)
  ftSize := (List.length_filter_le _ _).trans h.ftSize
  atSize := by
    dsimp only
    rw [List.length_append, List.length_map, List.length_singleton]
    exact hroom
  sets := hsets
  pht := hpht
  filter x hx := by
    obtain ⟨hx, hne⟩ := List.mem_filter.1 hx
    rw [generation_of_ne (of_decide_eq_true hne).symm]
    exact h.filter x hx
  acc x hx := by
    rcases List.mem_append.1 hx with hx | hx
    · obtain ⟨y, hy, rfl⟩ := List.mem_map.1 hx
      refine (h.acc y (hsub.subset hy)).other ?_ _
      rw [← hpage]
      exact h.page_ne he (hsub.subset hy)
    · obtain ⟨first, hgen, hpc, hfirst⟩ := h.filter e he
      rw [List.mem_singleton.1 hx, ← hpage]
      exact accumulates_second hgen hpc hfirst hpage.symm hbegins (h.bound e he) hoffset
  bound x hx := h.bound x (List.mem_filter.1 hx).1

/-- A generation begins. -/
theorem Inv.first (h : Inv k events s) {t : Event} {filter : List FTEntry}
    {pht : List (List PHTEntry)} (hacc : t.page ∉ s.accTable.map (·.page))
    (hout : t.page ∉ s.filterTable.map (·.page)) (hsub : filter.Sublist s.filterTable)
    (hroom : filter.length < k.ftSize) (hsets : pht.length = k.phtSets)
    (hpht : ∀ (i : ℕ) set, pht[i]? = some set → SetOk k i set) (hbegins : t.begins = true)
    (hoffset : t.offset < 64) (buffer : List UInt64) :
    Inv k (t :: events)
      ⟨filter ++ [⟨t.page, t.pc, t.offset⟩], s.accTable, pht, buffer⟩ where
  pages := by
    dsimp only
    rw [List.map_append, List.map_singleton, List.append_assoc, List.singleton_append,
      List.nodup_middle, List.nodup_cons]
    refine ⟨fun hmem => ?_, h.pages.sublist ((hsub.map _).append (.refl _))⟩
    rcases List.mem_append.1 hmem with hmem | hmem
    · exact hout ((hsub.map _).subset hmem)
    · exact hacc hmem
  ftSize := by
    dsimp only
    rw [List.length_append, List.length_singleton]
    exact hroom
  atSize := h.atSize
  sets := hsets
  pht := hpht
  filter x hx := by
    rcases List.mem_append.1 hx with hx | hx
    · have hne : t.page ≠ x.page := by
        intro heq
        exact hout (List.mem_map.2 ⟨x, hsub.subset hx, heq.symm⟩)
      rw [generation_of_ne hne]
      exact h.filter x (hsub.subset hx)
    · rw [List.mem_singleton.1 hx]
      exact ⟨t, generation_of_begins hbegins, rfl, rfl⟩
  acc x hx := by
    refine (h.acc x hx).other (fun heq => hacc ?_) x.age
    exact List.mem_map.2 ⟨x, hx, heq.symm⟩
  bound x hx := by
    rcases List.mem_append.1 hx with hx | hx
    · exact h.bound x (hsub.subset hx)
    · rw [List.mem_singleton.1 hx]
      exact hoffset

/-- Every access keeps the tables. -/
theorem Inv.step (h : Inv k events s) (pc address : UInt64) :
    Inv k (s.event k pc (regionOf k address) (blockOf k address) :: events)
      (s.invokePrefetcher k pc address).1 := by
  have hgoes := goes_invoke (k := k) h.acc_nodup h.filter_nodup pc address
  have hoffset := blockOf_lt k address
  generalize (s.invokePrefetcher k pc address).1 = s' at hgoes ⊢
  obtain ⟨filter, acc, pht, buffer⟩ := s'
  dsimp only at hgoes
  generalize ht : s.event k pc (regionOf k address) (blockOf k address) = t
  have hbegins : t.begins = true ↔ t.page ∉ s.accTable.map (·.page) ∧
      t.page ∉ s.filterTable.map (·.page) := by
    rw [← ht]
    exact decide_eq_true_iff.trans (and_congr searchAccTable_none_iff searchFilterTable_none_iff)
  have hpc : t.pc = pc := by rw [← ht]; rfl
  have hpage : t.page = regionOf k address := by rw [← ht]; rfl
  have hblock : t.offset = blockOf k address := by rw [← ht]; rfl
  rw [← hblock] at hgoes hoffset
  rw [← hpage] at hgoes
  subst hpc
  cases hgoes with
  | hit hacc =>
    have hgoes_on := Bool.eq_false_iff.2 fun hnew => (hbegins.1 hnew).1 hacc
    exact h.hit hacc hgoes_on hoffset buffer
  | second hacc he hp hroom =>
    have hgoes_on := Bool.eq_false_iff.2 fun hnew =>
      (hbegins.1 hnew).2 (List.mem_map.2 ⟨_, he, hp⟩)
    exact h.moves he hp hacc (.refl _) hroom h.sets h.pht hgoes_on hoffset buffer
  | @evict e victim hacc he hp hfull hvictim =>
    have hlt := (List.getElem?_eq_some_iff.1 hvictim).1
    have hpos := k.atSize_pos
    have hsize := h.atSize
    have hgoes_on := Bool.eq_false_iff.2 fun hnew =>
      (hbegins.1 hnew).2 (List.mem_map.2 ⟨_, he, hp⟩)
    refine h.moves he hp hacc (List.eraseIdx_sublist _ _) ?_ ?_ ?_ hgoes_on hoffset buffer
    · rw [List.length_eraseIdx_of_lt hlt]
      omega
    · rw [List.length_modify]
      exact h.sets
    · refine fun i set hset => setOk_modify h.pht (fun set hset => ?_) hset
      exact hset.inserts (inserts_insertInSet hset.nodup _ _)
  | first hacc hfilter hpht =>
    have hnew := hbegins.2 ⟨hacc, hfilter⟩
    have hpos := k.ftSize_pos
    have hsize := h.ftSize
    refine h.first hacc hfilter ?_ ?_ ?_ ?_ hnew hoffset buffer
    · split
      · exact List.eraseIdx_sublist _ _
      · exact .refl _
    · split
      · rw [List.length_eraseIdx_of_lt (by omega)]
        omega
      · omega
    · rcases hpht with ⟨-, rfl⟩ | ⟨i, -, rfl⟩
      · exact h.sets
      · rw [List.length_modify]
        exact h.sets
    · rcases hpht with ⟨-, rfl⟩ | ⟨i, hi, rfl⟩
      · exact h.pht
      · intro j set hset
        rw [List.getElem?_modify, Option.map_eq_map, Option.map_eq_some_iff] at hset
        obtain ⟨old, hold, rfl⟩ := hset
        split
        · rename_i hij
          subst hij
          refine setOk_updateAge (createSignature k t.pc t.offset) (h.pht _ old hold) ?_
          rwa [setAt, List.getD_eq_getElem?_getD, hold] at hi
        · exact h.pht j old hold

theorem Run.inv (h : Run k events s) : Inv k events s := by
  induction h with
  | init => exact inv_init k
  | access _ pc address ih => exact ih.step pc address

/-! ## Evictions -/

/-- What leaves the accumulation table is stored. -/
theorem Inv.stored (h : Inv k events s) (pc address : UInt64) {e : ATEntry} (he : e ∈ s.accTable)
    (hgone : e.page ∉ (s.invokePrefetcher k pc address).1.accTable.map (·.page)) :
    Stored k (s.invokePrefetcher k pc address).1 e := by
  have hgoes := goes_invoke (k := k) h.acc_nodup h.filter_nodup pc address
  generalize (s.invokePrefetcher k pc address).1 = s' at hgoes hgone ⊢
  obtain ⟨filter, acc, pht, buffer⟩ := s'
  dsimp only at hgoes hgone
  cases hgoes with
  | hit =>
    refine absurd ?_ hgone
    rw [hitEntries, List.map_map]
    refine List.mem_map.2 ⟨e, he, ?_⟩
    rw [Function.comp_apply]
    split <;> rfl
  | second =>
    refine absurd ?_ hgone
    rw [List.map_append, List.map_map]
    exact List.mem_append_left _ (List.mem_map.2 ⟨e, he, rfl⟩)
  | @evict _ victim hacc hf hp hfull hvictim =>
    have hvictim_eq : e = victim := by
      by_contra hne
      refine hgone ?_
      rw [List.map_append, List.map_map]
      refine List.mem_append_left _ (List.mem_map.2 ⟨e, ?_, rfl⟩)
      rw [Ages.eraseIdx_eq_filter h.acc_nodup hvictim]
      refine List.mem_filter.2 ⟨he, decide_eq_true fun heq => hne ?_⟩
      exact List.inj_on_of_nodup_map h.acc_nodup he (List.mem_of_getElem? hvictim) heq
    subst hvictim_eq
    have hset : setOf k (e.signature k) < s.pht.length := by
      rw [h.sets]
      exact Nat.mod_lt _ (Nat.div_pos k.phtAssoc_le k.phtAssoc_pos)
    have hstored := (inserts_insertInSet (k := k) (h.pht _ _ (List.getElem?_eq_getElem hset)).nodup
      (e.signature k) e.pattern).stored
    rw [Stored, setAt, List.getD_eq_getElem?_getD]
    dsimp only
    rw [List.getElem?_modify, List.getElem?_eq_getElem hset]
    dsimp only [Option.map_eq_map, Option.map_some, Option.getD_some]
    rw [if_pos rfl]
    exact hstored
  | first => exact absurd (List.mem_map_of_mem he) hgone

/-- In every run each region is tracked in one place, with the blocks of its generation, and what the
accumulation table evicts is stored under the signature of its trigger. -/
theorem tracks_regions (k : Knobs) {events : List Event} {s : Sms} (h : Run k events s) :
    Tracked k events s ∧ ∀ pc address, ∀ e ∈ s.accTable,
      e.page ∉ (s.invokePrefetcher k pc address).1.accTable.map (·.page) →
        Stored k (s.invokePrefetcher k pc address).1 e :=
  ⟨h.inv.toTracked, fun pc address _ he hgone => h.inv.stored pc address he hgone⟩

theorem run_sound (k : Knobs) (accesses : List (UInt64 × UInt64)) :
    Run k (run k accesses).1 (run k accesses).2 := by
  induction accesses using List.reverseRecOn with
  | nil => exact .init
  | append_singleton accesses a ih =>
    rw [run, List.foldl_append]
    exact ih.access a.1 a.2

/-- Room for a region in each table, and a set of two patterns. -/
def oneRegion : Knobs where
  atSize := 1
  ftSize := 1
  phtSize := 2
  phtAssoc := 2
  prefDegree := 4
  regionSizeLog := 12
  enablePrefBuffer := false
  prefBufferSize := 0
  atSize_pos := Nat.one_pos
  ftSize_pos := Nat.one_pos
  phtAssoc_pos := Nat.two_pos
  phtAssoc_le := Nat.le_refl 2
  regionSizeLog_ge := Nat.le_of_ble_eq_true rfl
  regionSizeLog_le := Nat.le_refl 12

/-- Some regions, of two accesses each. -/
def regions (n : ℕ) : List (UInt64 × UInt64) :=
  (List.range n).map fun i => (.ofNat (i / 2), .ofNat (i / 2 * 4096 + i % 2 * 64))

/-- Two regions, the second of which evicts the first. -/
theorem tracks_regions_two :
    Tracked oneRegion (run oneRegion (regions 3)).1 (run oneRegion (regions 3)).2 ∧
      ∀ pc address, ∀ e ∈ (run oneRegion (regions 3)).2.accTable,
        e.page ∉ ((run oneRegion (regions 3)).2.invokePrefetcher oneRegion pc address).1.accTable.map
          (·.page) →
            Stored oneRegion
              ((run oneRegion (regions 3)).2.invokePrefetcher oneRegion pc address).1 e :=
  tracks_regions oneRegion (run_sound oneRegion (regions 3))

end

end Sms

end Arishem
