import Arishem.Prefetchers.Regions

/-!
# Victims

The tables keep ages to find the entry that was touched least recently. A region that comes into the
accumulation table makes the others older; a pattern that comes into a set of the pattern history table
sets the ages of the others back to 0, after which the one that came last looks as old as any.
-/

namespace Arishem

namespace Sms

section
variable (k : Knobs)

/-- The insertions and hits of the accumulation table. -/
def accLog (events : List Event) : List (Ages.Touch UInt64) := events.filterMap (·.acc)

/-- The insertions, updates and uses of a set of the pattern history table. -/
def phtLog (i : ℕ) (events : List Event) : List (Ages.Touch UInt64) :=
  (events.filterMap (·.pht)).filter fun t => setOf k t.key = i

/-- The regions of the accumulation table with their ages. -/
def accAges (acc : List ATEntry) : List (UInt64 × UInt32) := acc.map fun e => (e.page, e.age)

/-- The signatures of a set with their ages. -/
def setAges (set : List PHTEntry) : List (UInt64 × UInt32) := set.map fun e => (e.signature, e.age)

/-- The access replaces the entries whose last touch is oldest: in the accumulation table, and in the
set that the evicted region goes to, when that is full. -/
def ReplacesOldest (events : List Event) (s : Sms) (page : UInt64) : Prop :=
  ∀ victim, s.evicted k page = some victim →
    Ages.LeastRecent (accAges s.accTable) (accLog events) s.searchVictimAccTable ∧
    (victim.signature k ∉ (s.setAt k (victim.signature k)).map (·.signature) →
      k.phtAssoc ≤ (s.setAt k (victim.signature k)).length →
      Ages.LeastRecent (setAges (s.setAt k (victim.signature k)))
        (phtLog k (setOf k (victim.signature k)) events)
        (searchVictimPht (s.setAt k (victim.signature k))))

/-- Where the access evicts, the entry whose last touch is oldest is the last of those with the most
idle touches. -/
def OldestMostIdle (events : List Event) (s : Sms) (page : UInt64) : Prop :=
  ∀ victim, s.evicted k page = some victim →
    Ages.MostIdle (accAges s.accTable) (accLog events) ∧
    (victim.signature k ∉ (s.setAt k (victim.signature k)).map (·.signature) →
      k.phtAssoc ≤ (s.setAt k (victim.signature k)).length →
      Ages.MostIdle (setAges (s.setAt k (victim.signature k)))
        (phtLog k (setOf k (victim.signature k)) events))

end

section
variable {k : Knobs} {s s' : Sms} {pc page address : UInt64} {offset : ℕ} {events : List Event}

/-! ## Touches -/

theorem phtLog_cons_none {t : Event} (h : t.pht = none) (i : ℕ) :
    phtLog k i (t :: events) = phtLog k i events := by
  rw [phtLog, List.filterMap_cons, h]
  rfl

theorem phtLog_cons_some {t : Event} {touch : Ages.Touch UInt64} (h : t.pht = some touch) (i : ℕ) :
    phtLog k i (t :: events) =
      if setOf k touch.key = i then touch :: phtLog k i events else phtLog k i events := by
  rw [phtLog, List.filterMap_cons, h, List.filter_cons]
  simp only [decide_eq_true_eq]
  rfl

theorem keys_setAges (set : List PHTEntry) :
    (setAges set).map Prod.fst = set.map (·.signature) := by
  rw [setAges, List.map_map]
  rfl

theorem keys_accAges (acc : List ATEntry) : (accAges acc).map Prod.fst = acc.map (·.page) := by
  rw [accAges, List.map_map]
  rfl

/-- A pattern comes into a set, where the others are set back. -/
theorem aged_push {set : List PHTEntry} {log : List (Ages.Touch UInt64)} {signature : UInt64}
    (h : Ages.Aged (setAges set) log) (hout : signature ∉ set.map (·.signature))
    (pattern : Bitmap) :
    Ages.Aged (setAges ((set.map fun x => { x with age := 0 }) ++ [⟨signature, pattern, 0⟩]))
      (⟨signature, true⟩ :: log) := by
  have hinsert := h.insert (by rwa [keys_setAges]) true
  rw [setAges, List.map_map] at hinsert
  rw [setAges, List.map_append, List.map_map]
  exact hinsert

/-- The ages of a set that a pattern comes into. -/
theorem aged_inserts {set set' : List PHTEntry} {log : List (Ages.Touch UInt64)}
    {signature : UInt64} {pattern : Bitmap} (h : Ages.Aged (setAges set) log)
    (hins : Inserts k signature pattern set set') :
    Ages.Aged (setAges set') (⟨signature, (searchPht set signature).isNone⟩ :: log) := by
  have hmiss : signature ∉ set.map (·.signature) → (searchPht set signature).isNone = true := by
    intro hout
    rw [searchPht, Option.isNone_iff_eq_none, List.findIdx?_eq_none_iff]
    exact fun e he => decide_eq_false fun heq => hout (List.mem_map.2 ⟨e, he, heq⟩)
  cases hins with
  | hit hmem =>
    have hfound : (searchPht set signature).isNone = false := by
      rw [Option.isNone_eq_false_iff, Option.isSome_iff_ne_none]
      exact fun hnone => Ages.findIdx?_key_none hnone hmem
    rw [hfound]
    refine Ages.Aged.touchEntries h signature fun e => ?_
    dsimp only
    split <;> rfl
  | room hout =>
    rw [hmiss hout]
    exact aged_push h hout pattern
  | full hout =>
    have hsub := List.eraseIdx_sublist set (searchVictimPht set)
    rw [hmiss hout]
    exact aged_push (h.sublist (hsub.map _)) (fun hmem => hout ((hsub.map _).subset hmem)) pattern

/-- The ages of a set whose pattern is used. -/
theorem aged_updateAge {set : List PHTEntry} {log : List (Ages.Touch UInt64)} {signature : UInt64}
    {i : ℕ} (h : Ages.Aged (setAges set) log) (hi : searchPht set signature = some i) :
    Ages.Aged (setAges (updateAgePht set i)) (⟨signature, false⟩ :: log) := by
  obtain ⟨e, he, rfl⟩ := Ages.findIdx?_key hi
  have hnodup := h.nodup
  rw [keys_setAges] at hnodup
  rw [updateAgePht_eq hnodup he]
  refine Ages.Aged.touchEntries h e.signature fun x => ?_
  dsimp only
  split <;> rfl

/-- The ages behind a hit of the accumulation table. -/
theorem aged_hitEntries {acc : List ATEntry} {log : List (Ages.Touch UInt64)}
    (h : Ages.Aged (accAges acc) log) (page : UInt64) (offset : ℕ) :
    Ages.Aged (accAges (hitEntries page offset acc)) (⟨page, false⟩ :: log) := by
  refine Ages.Aged.touchEntries h page fun e => ?_
  dsimp only
  split <;> rfl

/-- The ages behind an insertion into the accumulation table. -/
theorem aged_second {acc : List ATEntry} {log : List (Ages.Touch UInt64)}
    (h : Ages.Aged (accAges acc) log) (hout : page ∉ acc.map (·.page)) (pc : UInt64)
    (trigger : ℕ) (pattern : Bitmap) :
    Ages.Aged (accAges ((acc.map fun x => { x with age := x.age + 1 }) ++
      [⟨page, pc, trigger, pattern, 0⟩])) (⟨page, false⟩ :: log) := by
  have hinsert := h.insert (by rwa [keys_accAges]) false
  rw [accAges, List.map_map] at hinsert
  rw [accAges, List.map_append, List.map_map]
  exact hinsert

/-! ## Runs -/

/-- The ages of both tables count idle touches. -/
structure Ageing (k : Knobs) (events : List Event) (s : Sms) : Prop where
  acc : Ages.Aged (accAges s.accTable) (accLog events)
  pht : ∀ (i : ℕ) set, s.pht[i]? = some set → Ages.Aged (setAges set) (phtLog k i events)

/-- One set changes with its touch. -/
theorem aged_modify {pht : List (List PHTEntry)} {t : Event} {touch : Ages.Touch UInt64}
    {f : List PHTEntry → List PHTEntry} (ht : t.pht = some touch)
    (h : ∀ (i : ℕ) set, pht[i]? = some set → Ages.Aged (setAges set) (phtLog k i events))
    (hf : ∀ set, pht[setOf k touch.key]? = some set →
      Ages.Aged (setAges (f set)) (touch :: phtLog k (setOf k touch.key) events))
    {i : ℕ} {set : List PHTEntry} (hset : (pht.modify (setOf k touch.key) f)[i]? = some set) :
    Ages.Aged (setAges set) (phtLog k i (t :: events)) := by
  rw [List.getElem?_modify, Option.map_eq_map, Option.map_eq_some_iff] at hset
  obtain ⟨old, hold, rfl⟩ := hset
  rw [phtLog_cons_some ht]
  by_cases hi : setOf k touch.key = i
  · subst hi
    rw [if_pos rfl, if_pos rfl]
    exact hf old hold
  · rw [if_neg hi, if_neg hi]
    exact h i old hold

/-- The pattern that an access touches when it evicts nothing. -/
theorem phtTouch_of_not (h : s.evicted k page = none)
    (hnot : ¬ (s.searchAccTable page = none ∧ s.searchFilterTable page = none ∧
      searchPht (s.setAt k (createSignature k pc offset)) (createSignature k pc offset) ≠ none)) :
    s.phtTouch k pc page offset = none := by
  rw [phtTouch, h]
  exact if_neg hnot

theorem Ageing.step (h : Ageing k events s) (hinv : Inv k events s) (pc address : UInt64) :
    Ageing k (s.event k pc (regionOf k address) (blockOf k address) :: events)
      (s.invokePrefetcher k pc address).1 := by
  have hgoes := goes_invoke (k := k) hinv.acc_nodup hinv.filter_nodup pc address
  generalize (s.invokePrefetcher k pc address).1 = s' at hgoes ⊢
  obtain ⟨filter, acc, pht, buffer⟩ := s'
  dsimp only at hgoes
  generalize regionOf k address = page at hgoes ⊢
  generalize blockOf k address = offset at hgoes ⊢
  generalize ht : s.event k pc page offset = t
  have htacc : t.acc = if s.searchAccTable page = none ∧ s.searchFilterTable page = none then none
      else some ⟨page, false⟩ := by rw [← ht]; rfl
  have htpht : t.pht = s.phtTouch k pc page offset := by rw [← ht]; rfl
  cases hgoes with
  | hit hacc =>
    have hfound : s.searchAccTable page ≠ none := fun hnone =>
      searchAccTable_none_iff.1 hnone hacc
    rw [if_neg fun hnew => hfound hnew.1] at htacc
    rw [phtTouch_of_not (if_neg fun hnew => hfound hnew.1) fun hnew => hfound hnew.1] at htpht
    refine ⟨?_, fun i set hset => ?_⟩
    · rw [accLog, List.filterMap_cons, htacc]
      exact aged_hitEntries h.acc page offset
    · rw [phtLog_cons_none htpht]
      exact h.pht i set hset
  | @second e hacc he hpage hroom =>
    have hfound : s.searchFilterTable page ≠ none := fun hnone =>
      searchFilterTable_none_iff.1 hnone (List.mem_map.2 ⟨e, he, hpage⟩)
    rw [if_neg fun hnew => hfound hnew.2] at htacc
    rw [phtTouch_of_not (if_neg fun hfull => absurd hfull.2.2 (Nat.not_le.2 hroom))
      fun hnew => hfound hnew.2.1] at htpht
    refine ⟨?_, fun i set hset => ?_⟩
    · rw [accLog, List.filterMap_cons, htacc]
      exact aged_second h.acc hacc ..
    · rw [phtLog_cons_none htpht]
      exact h.pht i set hset
  | @evict e victim hacc he hpage hfull hvictim =>
    have hfound : s.searchFilterTable page ≠ none := fun hnone =>
      searchFilterTable_none_iff.1 hnone (List.mem_map.2 ⟨e, he, hpage⟩)
    have hevicted : s.evicted k page = some victim := by
      rw [evicted, if_pos ⟨searchAccTable_none_iff.2 hacc, hfound, hfull⟩, hvictim]
    have hsub := List.eraseIdx_sublist s.accTable s.searchVictimAccTable
    rw [if_neg fun hnew => hfound hnew.2] at htacc
    rw [phtTouch, hevicted] at htpht
    refine ⟨?_, fun i set hset => aged_modify htpht h.pht (fun set hset => ?_) hset⟩
    · rw [accLog, List.filterMap_cons, htacc]
      exact aged_second (h.acc.sublist (hsub.map _)) (fun hmem => hacc ((hsub.map _).subset hmem)) ..
    · have hat : s.setAt k (victim.signature k) = set := by
        rw [setAt, List.getD_eq_getElem?_getD, hset]
        rfl
      have hins := inserts_insertInSet (k := k) (hinv.pht _ set hset).nodup (victim.signature k)
        victim.pattern
      rw [hat]
      exact aged_inserts (h.pht _ set hset) hins
  | first hacc hfilter hpht =>
    have hnone := searchAccTable_none_iff.2 hacc
    have hnew := searchFilterTable_none_iff.2 hfilter
    have hevicted : s.evicted k page = none := if_neg fun hfull => hfull.2.1 hnew
    rw [if_pos ⟨hnone, hnew⟩] at htacc
    refine ⟨?_, ?_⟩
    · rw [accLog, List.filterMap_cons, htacc]
      exact h.acc
    · rcases hpht with ⟨hmiss, rfl⟩ | ⟨i, hi, rfl⟩
      · rw [phtTouch_of_not hevicted fun hhit => hhit.2.2 hmiss] at htpht
        intro j set hset
        rw [phtLog_cons_none htpht]
        exact h.pht j set hset
      · have hsome : t.pht = some ⟨createSignature k pc offset, false⟩ := by
          rw [htpht, phtTouch, hevicted]
          exact if_pos ⟨hnone, hnew, by rw [hi]; exact Option.some_ne_none i⟩
        refine fun j set hset => aged_modify hsome h.pht (fun set hset => ?_) hset
        rw [setAt, List.getD_eq_getElem?_getD, hset] at hi
        exact aged_updateAge (h.pht _ set hset) hi

theorem Run.ageing (h : Run k events s) : Ageing k events s := by
  induction h with
  | init =>
    refine ⟨⟨List.nodup_nil, fun x hx => absurd hx List.not_mem_nil,
      fun x hx => absurd hx List.not_mem_nil⟩, fun i set hset => ?_⟩
    rw [Sms.init, List.getElem?_replicate, Option.ite_none_right_eq_some] at hset
    rw [← Option.some.inj hset.2]
    exact ⟨List.nodup_nil, fun x hx => absurd hx List.not_mem_nil,
      fun x hx => absurd hx List.not_mem_nil⟩
  | access hrun pc address ih => exact ih.step hrun.inv pc address

/-! ## Evictions -/

theorem searchVictimAccTable_eq (s : Sms) :
    s.searchVictimAccTable = Ages.oldest ((accAges s.accTable).map Prod.snd) := by
  rw [accAges, List.map_map]
  rfl

theorem searchVictimPht_eq (set : List PHTEntry) :
    searchVictimPht set = Ages.oldest ((setAges set).map Prod.snd) := by
  rw [setAges, List.map_map]
  rfl

/-- In every run, an access replaces the entries whose last touch is oldest exactly when these are the
last of the most idle ones. -/
theorem replacesOldest_iff (k : Knobs) {events : List Event} {s : Sms} (h : Run k events s)
    (page : UInt64) : ReplacesOldest k events s page ↔ OldestMostIdle k events s page := by
  refine forall₂_congr fun victim hvictim => ?_
  have hne : accAges s.accTable ≠ [] := by
    rw [evicted, Option.ite_none_right_eq_some] at hvictim
    have hmem := List.mem_of_getElem? hvictim.2
    exact List.ne_nil_of_mem (List.mem_map_of_mem hmem)
  refine and_congr ?_ (forall₂_congr fun hout hfull => ?_)
  · rw [searchVictimAccTable_eq]
    exact h.ageing.acc.leastRecent_iff hne
  · have hlt : setOf k (victim.signature k) < s.pht.length := by
      rw [h.inv.sets]
      exact Nat.mod_lt _ (Nat.div_pos k.phtAssoc_le k.phtAssoc_pos)
    have hset : s.pht[setOf k (victim.signature k)]? = some (s.setAt k (victim.signature k)) := by
      rw [setAt, List.getD_eq_getElem?_getD, List.getElem?_eq_getElem hlt]
      rfl
    have hpos := k.phtAssoc_pos
    have hsome : setAges (s.setAt k (victim.signature k)) ≠ [] := by
      rw [← List.length_pos_iff, setAges, List.length_map]
      omega
    rw [searchVictimPht_eq]
    exact (h.ageing.pht _ _ hset).leastRecent_iff hsome

/-- No touch of the accumulation table sets back the others. -/
theorem Run.clears_acc (h : Run k events s) : ∀ t ∈ accLog events, t.clears = false := by
  induction h with
  | init => exact fun t ht => absurd ht List.not_mem_nil
  | @access events s _ pc address ih =>
    intro t ht
    obtain ⟨e, he, het⟩ := List.mem_filterMap.1 ht
    rcases List.mem_cons.1 he with rfl | he
    · rw [event, Option.ite_none_left_eq_some] at het
      rw [← Option.some.inj het.2]
    · exact ih t (List.mem_filterMap.2 ⟨e, he, het⟩)

/-- What the accumulation table does in every run: it evicts the region whose last touch is oldest, as
long as that is not 2^32 touches ago, for its ages tell all regions apart. Below that, only the pattern
history table gets the order wrong. -/
theorem Run.evicts_oldest (h : Run k events s) (hne : s.accTable ≠ [])
    (hlt : ∀ e ∈ s.accTable, Ages.lastTouch e.page (accLog events) < 2 ^ 32) :
    Ages.LeastRecent (accAges s.accTable) (accLog events) s.searchVictimAccTable := by
  have hages : accAges s.accTable ≠ [] := by simpa [accAges] using hne
  rw [searchVictimAccTable_eq, h.ageing.acc.leastRecent_iff hages]
  refine h.ageing.acc.mostIdle h.clears_acc fun x hx => ?_
  obtain ⟨e, he, rfl⟩ := List.mem_map.1 hx
  exact hlt e he

/-- Three regions, the third of which evicts the second. -/
theorem replacesOldest_iff_three :
    ReplacesOldest oneRegion (run oneRegion (regions 5)).1 (run oneRegion (regions 5)).2 2 ↔
      OldestMostIdle oneRegion (run oneRegion (regions 5)).1 (run oneRegion (regions 5)).2 2 :=
  replacesOldest_iff oneRegion (run_sound oneRegion (regions 5)) 2

/-- After two insertions in a row the pattern that came last goes first. -/
theorem newest_pattern_evicted : ¬ ∀ (k : Knobs) (events : List Event) (s : Sms),
    Run k events s → ∀ page, ReplacesOldest k events s page := by
  intro h
  have hvictim : (run oneRegion (regions 7)).2.evicted oneRegion 3 = some ⟨2, 2, 0, 3, 0⟩ := rfl
  have hreplaces := h oneRegion _ _ (run_sound oneRegion (regions 7)) 3 _ hvictim
  have holdest := hreplaces.2 (by decide +kernel) (by decide +kernel)
  revert holdest
  decide +kernel

end

end Sms

end Arishem
