import Arishem.Lib.Lts
import Arishem.Prefetchers.BingoTables

/-!
# Runs of Bingo

The streamer issues the blocks of a pattern from the nearest on while the queues have room, and takes
those that were issued or loaded out of the pattern, so that a prediction prefetches a block once.
-/

namespace Arishem

namespace Bingo

open SetAssociativeCache LruCache

section
variable {k : Knobs} {queues : ℕ → Queues} {regionNumber : ℕ}

/-! ## The streamer -/

/-- An offset inside the region with a level. -/
def Pending (k : Knobs) (pattern : List ℕ) (o : ℤ) : Prop :=
  (0 ≤ o ∧ o < k.patternLen) ∧ 0 < pattern.getD o.toNat 0

instance decidablePending (k : Knobs) (pattern : List ℕ) (o : ℤ) : Decidable (Pending k pattern o) :=
  inferInstanceAs (Decidable (_ ∧ _))

/-- The block and the level of an offset. -/
def request (k : Knobs) (regionNumber : ℕ) (pattern : List ℕ) (o : ℤ) : ℕ × ℕ :=
  (regionNumber * k.patternLen + o.toNat, pattern.getD o.toNat 0)

/-- The pending requests of some offsets. -/
def pending (k : Knobs) (regionNumber : ℕ) (pattern : List ℕ) (os : List ℤ) : List (ℕ × ℕ) :=
  (os.filter fun o => Pending k pattern o).map (request k regionNumber pattern)

theorem getD_set_zero (pattern : List ℕ) (i j : ℕ) :
    (pattern.set i 0).getD j 0 = if j = i then 0 else pattern.getD j 0 := by
  rw [List.getD_eq_getElem?_getD, List.getElem?_set, List.getD_eq_getElem?_getD]
  split
  · rename_i heq
    subst heq
    rw [if_pos rfl]
    split <;> rfl
  · rename_i hne
    rw [if_neg fun heq => hne heq.symm]

/-- The loop issues the pending offsets while there is room, and clears those that it issued. -/
theorem stream_eq (k : Knobs) (queues : ℕ → Queues) (regionNumber : ℕ) (os : List ℤ)
    (hnodup : os.Nodup) (pattern : List ℕ) (issued : List (ℕ × ℕ)) :
    ∃ pattern' limited, stream k queues regionNumber os pattern issued =
        (pattern', issued ++ whileRoom queues issued.length (pending k regionNumber pattern os),
          limited) ∧
      pattern'.length = pattern.length ∧
      ∀ i, pattern'.getD i 0 =
        if regionNumber * k.patternLen + i ∈
          (whileRoom queues issued.length (pending k regionNumber pattern os)).map Prod.fst
        then 0 else pattern.getD i 0 := by
  induction os generalizing pattern issued with
  | nil =>
    exact ⟨pattern, false, by simp [stream, pending, whileRoom], rfl,
      by simp [pending, whileRoom]⟩
  | cons o os ih =>
    obtain ⟨hnot, hnodup⟩ := List.nodup_cons.1 hnodup
    rw [stream]
    by_cases hpending : Pending k pattern o
    · have hcond : (0 ≤ o ∧ o < k.patternLen) ∧ 0 < pattern.getD o.toNat 0 := hpending
      rw [if_pos hcond, pending, List.filter_cons_of_pos (by simpa using hpending), List.map_cons,
        whileRoom]
      by_cases hroom : (queues issued.length).room = true
      · rw [if_pos hroom, if_pos hroom]
        -- the offset is cleared, and the others are not
        have hrest : pending k regionNumber (pattern.set o.toNat 0) os =
            pending k regionNumber pattern os := by
          have hsame : ∀ o' ∈ os, 0 ≤ o' →
              (pattern.set o.toNat 0).getD o'.toNat 0 = pattern.getD o'.toNat 0 := by
            intro o' ho' hge
            have hge' := hpending.1.1
            rw [getD_set_zero, if_neg]
            intro heq
            obtain rfl : o' = o := by omega
            exact hnot ho'
          have hpend : ∀ o' ∈ os, Pending k (pattern.set o.toNat 0) o' ↔ Pending k pattern o' :=
            fun o' ho' => and_congr_right fun hrange => by rw [hsame o' ho' hrange.1]
          rw [pending, pending, List.filter_congr fun o' ho' => decide_eq_decide.2 (hpend o' ho')]
          refine List.map_congr_left fun o' ho' => ?_
          obtain ⟨hmem, hpending'⟩ := List.mem_filter.1 ho'
          rw [request, request, hsame o' hmem (of_decide_eq_true hpending').1.1]
        obtain ⟨pattern', limited, hstream, hlength, hget⟩ := ih hnodup (pattern.set o.toNat 0)
          (issued ++ [request k regionNumber pattern o])
        rw [hrest, List.length_append, List.length_singleton] at hstream hget
        refine ⟨pattern', limited, ?_, by rw [hlength, List.length_set], fun i => ?_⟩
        · rw [request] at hstream
          rw [hstream, List.append_assoc]
          rfl
        · have hoffset : regionNumber * k.patternLen + i = (request k regionNumber pattern o).1 ↔
              i = o.toNat := by
            rw [request]
            omega
          rw [hget i, getD_set_zero, List.map_cons]
          by_cases hi : i = o.toNat
          · rw [if_pos hi, ite_self, if_pos (List.mem_cons.2 (.inl (hoffset.2 hi)))]
          · rw [if_neg hi]
            refine if_congr ?_ rfl rfl
            rw [List.mem_cons, hoffset, or_iff_right hi]
            rfl
      · rw [if_neg hroom, if_neg hroom]
        exact ⟨pattern, true, by simp, rfl, by simp⟩
    · have hcond : ¬((0 ≤ o ∧ o < k.patternLen) ∧ 0 < pattern.getD o.toNat 0) := hpending
      rw [if_neg hcond, pending, List.filter_cons_of_neg (by simpa using hpending)]
      exact ih hnodup pattern issued

/-- The order has each offset once, and not that of the load. -/
theorem nodup_nearFirst (k : Knobs) (regionOffset : ℕ) : (nearFirst k regionOffset).Nodup := by
  rw [nearFirst, List.nodup_flatMap]
  refine ⟨fun d hd => ?_, List.Nodup.pairwise_of_forall_ne List.nodup_range' ?_⟩
  · obtain ⟨hpos, -⟩ := List.mem_range'_1.1 hd
    simp
    omega
  · intro d hd d' hd' hne o ho ho'
    obtain ⟨hpos, -⟩ := List.mem_range'_1.1 hd
    obtain ⟨hpos', -⟩ := List.mem_range'_1.1 hd'
    simp only [List.mem_cons, List.not_mem_nil, or_false] at ho ho'
    omega

/-- The requests for a region of a load, from the levels that are left. -/
def requests (k : Knobs) (blockNumber : ℕ) (pattern : List ℕ) : List (ℕ × ℕ) :=
  pending k (blockNumber / k.patternLen) pattern (nearFirst k (blockNumber % k.patternLen))

/-- What is left of a pattern after some blocks were loaded or issued. -/
def Remains (k : Knobs) (regionNumber : ℕ) (pattern : List ℕ) (touched : List ℕ)
    (left : List ℕ) : Prop :=
  ∀ i < k.patternLen, left.getD i 0 =
    if regionNumber * k.patternLen + i ∈ touched then 0 else pattern.getD i 0

variable {streamer : PrefetchStreamer} {blockNumber : ℕ} {pattern : List ℕ}

/-- The key of a region in the streamer. -/
def streamKey (k : Knobs) (regionNumber : ℕ) : ℕ := hashIndex regionNumber k.pfStreamer.indexLen

theorem hashIndex_streamer (k : Knobs) (regionNumber : ℕ) :
    hashIndex regionNumber k.pfStreamer.indexLen = streamKey k regionNumber := rfl

/-- A load of a region that is not streamed. -/
theorem prefetch_none
    (hnone : streamer.data? k.pfStreamer (streamKey k (blockNumber / k.patternLen)) = none) :
    prefetch k queues streamer blockNumber = (streamer, []) := by
  simp only [prefetch, hashIndex_streamer, hnone]

/-- A load takes its block out of the pattern and issues the others while there is room; the pattern
goes once there is room for all. -/
theorem prefetch_some (queues : ℕ → Queues) (h : streamer.WellFormed k.pfStreamer)
    (hdata : streamer.data? k.pfStreamer (streamKey k (blockNumber / k.patternLen)) = some pattern) :
    ∃ streamer', prefetch k queues streamer blockNumber = (streamer',
        whileRoom queues 0 (requests k blockNumber (pattern.set (blockNumber % k.patternLen) 0))) ∧
      streamer'.WellFormed k.pfStreamer ∧
      (∀ left, streamer'.data? k.pfStreamer (streamKey k (blockNumber / k.patternLen)) = some left →
        Remains k (blockNumber / k.patternLen) pattern (blockNumber ::
          (whileRoom queues 0 (requests k blockNumber
            (pattern.set (blockNumber % k.patternLen) 0))).map Prod.fst) left) ∧
      ∀ key ≠ streamKey k (blockNumber / k.patternLen),
        streamer'.data? k.pfStreamer key = streamer.data? k.pfStreamer key := by
  obtain ⟨left, limited, hstream, -, hleft⟩ := stream_eq k queues (blockNumber / k.patternLen)
    (nearFirst k (blockNumber % k.patternLen)) (nodup_nearFirst k _)
    (pattern.set (blockNumber % k.patternLen) 0) []
  rw [List.nil_append, List.length_nil, ← requests] at hstream
  rw [List.length_nil, ← requests] at hleft
  have hmru := h.setMru hdata
  have hsame := h.data?_setMru hdata
  have hmodify := hmru.modify (streamKey k (blockNumber / k.patternLen)) fun _ => left
  have hself := hmru.data?_modify (streamKey k (blockNumber / k.patternLen)) fun _ => left
  have hother := fun {key : ℕ} (hne : key ≠ streamKey k (blockNumber / k.patternLen)) =>
    hmru.data?_modify_of_ne hne fun _ => left
  rw [hsame, hdata, Option.map_some] at hself
  have hremains : Remains k (blockNumber / k.patternLen) pattern (blockNumber ::
      (whileRoom queues 0 (requests k blockNumber
        (pattern.set (blockNumber % k.patternLen) 0))).map Prod.fst) left := by
    intro i _
    have hblock : blockNumber / k.patternLen * k.patternLen + i = blockNumber ↔
        i = blockNumber % k.patternLen := by
      have hdiv := Nat.div_add_mod' blockNumber k.patternLen
      omega
    rw [hleft i, getD_set_zero]
    by_cases hi : i = blockNumber % k.patternLen
    · rw [if_pos hi, ite_self, if_pos (List.mem_cons.2 (.inl (hblock.2 hi)))]
    · rw [if_neg hi]
      refine if_congr ?_ rfl rfl
      rw [List.mem_cons, hblock, or_iff_right hi]
  rw [prefetch]
  simp only [hashIndex_streamer, hdata, hstream]
  cases limited with
  | true =>
    refine ⟨_, rfl, hmodify, fun left' hleft' => ?_, fun key hne => ?_⟩
    · rw [hself] at hleft'
      obtain rfl := Option.some.inj hleft'
      exact hremains
    · rw [hother hne, hsame]
  | false =>
    refine ⟨_, rfl, hmodify.erase _, fun left' hleft' => ?_, fun key hne => ?_⟩
    · rw [hmodify.data?_erase] at hleft'
      exact absurd hleft' (by simp)
    · rw [hmodify.data?_erase_of_ne hne, hother hne, hsame]

/-- What is requested: pending blocks of the region. -/
theorem of_mem_requests {r : ℕ × ℕ} (h : r ∈ requests k blockNumber pattern) :
    r.1 / k.patternLen = blockNumber / k.patternLen ∧
      r.2 = pattern.getD (r.1 % k.patternLen) 0 ∧ 0 < r.2 := by
  obtain ⟨o, ho, rfl⟩ := List.mem_map.1 h
  obtain ⟨-, hpending⟩ := List.mem_filter.1 ho
  obtain ⟨⟨hge, hlt⟩, hlevel⟩ := of_decide_eq_true hpending
  have hoffset : o.toNat < k.patternLen := by omega
  have hmod : (request k (blockNumber / k.patternLen) pattern o).1 % k.patternLen = o.toNat := by
    rw [request, Nat.mul_add_mod_self_right, Nat.mod_eq_of_lt hoffset]
  refine ⟨?_, ?_, hlevel⟩
  · rw [request, Nat.mul_comm, Nat.mul_add_div k.patternLen_pos, Nat.div_eq_of_lt hoffset,
      Nat.add_zero]
  · rw [hmod, request]

theorem nodup_requests (k : Knobs) (blockNumber : ℕ) (pattern : List ℕ) :
    ((requests k blockNumber pattern).map Prod.fst).Nodup := by
  rw [requests, pending, List.map_map]
  refine List.Nodup.map_on (fun o ho o' ho' heq => ?_) ((nodup_nearFirst k _).filter _)
  obtain ⟨⟨hge, -⟩, -⟩ := of_decide_eq_true (List.mem_filter.1 ho).2
  obtain ⟨⟨hge', -⟩, -⟩ := of_decide_eq_true (List.mem_filter.1 ho').2
  simp only [Function.comp_apply, request] at heq
  omega

/-! ## A prediction in the streamer -/

/-- What was done since the pattern of a region was predicted: blocks were loaded or issued, and those
of the region that were issued have their levels. -/
structure Streamed (k : Knobs) (regionNumber : ℕ) (pattern touched : List ℕ) (issued : List (ℕ × ℕ))
    (streamer : PrefetchStreamer) : Prop where
  remains : ∀ left, streamer.data? k.pfStreamer (streamKey k regionNumber) = some left →
    Remains k regionNumber pattern touched left
  touched : ∀ r ∈ issued, r.1 ∈ touched
  nodup : (issued.map Prod.fst).Nodup
  level : ∀ r ∈ issued, r.2 = pattern.getD (r.1 % k.patternLen) 0 ∧ 0 < r.2

/-- The requests for the blocks of a region. -/
def ofRegion (k : Knobs) (regionNumber : ℕ) (rs : List (ℕ × ℕ)) : List (ℕ × ℕ) :=
  rs.filter fun r => r.1 / k.patternLen = regionNumber

variable {touched touched' left left' : List ℕ} {issued : List (ℕ × ℕ)}

theorem Remains.trans (h : Remains k regionNumber pattern touched left)
    (h' : Remains k regionNumber left touched' left') :
    Remains k regionNumber pattern (touched ++ touched') left' := by
  intro i hi
  rw [h' i hi, h i hi]
  by_cases hmem : regionNumber * k.patternLen + i ∈ touched'
  · rw [if_pos hmem, if_pos (List.mem_append_right _ hmem)]
  · rw [if_neg hmem]
    refine if_congr ?_ rfl rfl
    rw [List.mem_append, or_iff_left hmem]

/-- Blocks of other regions leave a pattern alone. -/
theorem Remains.elsewhere (h : Remains k regionNumber pattern touched left)
    (helse : ∀ b ∈ touched', b / k.patternLen ≠ regionNumber) :
    Remains k regionNumber pattern (touched ++ touched') left := by
  refine h.trans fun i hi => (if_neg fun hmem => helse _ hmem ?_).symm
  rw [Nat.mul_comm, Nat.mul_add_div k.patternLen_pos, Nat.div_eq_of_lt hi, Nat.add_zero]

/-- A block with a level that is left was not touched. -/
theorem Remains.notMem (h : Remains k regionNumber pattern touched left) {b : ℕ}
    (hb : b / k.patternLen = regionNumber) (hlevel : 0 < left.getD (b % k.patternLen) 0) :
    b ∉ touched ∧ left.getD (b % k.patternLen) 0 = pattern.getD (b % k.patternLen) 0 := by
  have hleft := h (b % k.patternLen) (Nat.mod_lt _ k.patternLen_pos)
  rw [← hb, Nat.div_add_mod'] at hleft
  split at hleft
  · omega
  · rename_i hmem
    exact ⟨hmem, hleft⟩

theorem streamKey_injective (k : Knobs) : Function.Injective (streamKey k) :=
  hashIndex_injective k.pfStreamer.indexLen

theorem Streamed.start (k : Knobs) (regionNumber : ℕ) {pattern : List ℕ} (streamer : PrefetchStreamer)
    (hdata : streamer.data? k.pfStreamer (streamKey k regionNumber) = some pattern) :
    Streamed k regionNumber pattern [] [] streamer := by
  refine ⟨fun left hleft i _ => ?_, by simp, List.nodup_nil, by simp⟩
  rw [hdata] at hleft
  obtain rfl := Option.some.inj hleft
  rfl

/-- Another prediction, or the loss of the entry. -/
theorem Streamed.of_data (h : Streamed k regionNumber pattern touched issued streamer)
    {streamer' : PrefetchStreamer}
    (hdata : ∀ left, streamer'.data? k.pfStreamer (streamKey k regionNumber) = some left →
      streamer.data? k.pfStreamer (streamKey k regionNumber) = some left) :
    Streamed k regionNumber pattern touched issued streamer' :=
  ⟨fun left hleft => h.remains left (hdata left hleft), h.touched, h.nodup, h.level⟩

/-- A load issues blocks that were neither loaded nor issued. -/
theorem Streamed.prefetch (h : Streamed k regionNumber pattern touched issued streamer)
    (hwellFormed : streamer.WellFormed k.pfStreamer) (queues : ℕ → Queues) (blockNumber : ℕ) :
    Streamed k regionNumber pattern
      (touched ++ blockNumber :: (prefetch k queues streamer blockNumber).2.map Prod.fst)
      (issued ++ ofRegion k regionNumber (prefetch k queues streamer blockNumber).2)
      (prefetch k queues streamer blockNumber).1 ∧
    ∀ r ∈ ofRegion k regionNumber (prefetch k queues streamer blockNumber).2,
      r.1 ∉ touched ∧ r.1 ≠ blockNumber := by
  cases hdata : streamer.data? k.pfStreamer (streamKey k (blockNumber / k.patternLen)) with
  | none =>
    rw [prefetch_none hdata]
    refine ⟨⟨fun left hleft => ?_, fun r hr => ?_, ?_, fun r hr => ?_⟩, by simp [ofRegion]⟩
    · refine (h.remains left hleft).elsewhere fun b hb => ?_
      obtain rfl := List.mem_singleton.1 hb
      rintro rfl
      rw [hdata] at hleft
      exact absurd hleft (by simp)
    · exact List.mem_append_left _ (h.touched r (by simpa [ofRegion] using hr))
    · simpa [ofRegion] using h.nodup
    · exact h.level r (by simpa [ofRegion] using hr)
  | some left =>
    obtain ⟨streamer', hprefetch, -, hself, hother⟩ := prefetch_some queues
      hwellFormed hdata
    rw [hprefetch]
    set reqs := whileRoom queues 0 (requests k blockNumber
      (left.set (blockNumber % k.patternLen) 0)) with hreqs
    have hmem : ∀ r ∈ reqs, r.1 / k.patternLen = blockNumber / k.patternLen ∧
        r.2 = (left.set (blockNumber % k.patternLen) 0).getD (r.1 % k.patternLen) 0 ∧ 0 < r.2 :=
      fun r hr => of_mem_requests (whileRoom_isPrefix.subset hr)
    rcases eq_or_ne (blockNumber / k.patternLen) regionNumber with rfl | hne
    · have hall : ofRegion k (blockNumber / k.patternLen) reqs = reqs :=
        List.filter_eq_self.2 fun r hr => decide_eq_true (hmem r hr).1
      have hremains := h.remains left hdata
      -- a block that is requested has a level left
      have hfresh : ∀ r ∈ reqs, r.1 ∉ touched ∧ r.1 ≠ blockNumber ∧
          r.2 = pattern.getD (r.1 % k.patternLen) 0 := by
        intro r hr
        obtain ⟨hregion, hlevel, hpos⟩ := hmem r hr
        rw [getD_set_zero] at hlevel
        split at hlevel
        · omega
        · rename_i hoffset
          rw [hlevel] at hpos
          obtain ⟨hnot, hsame⟩ := hremains.notMem hregion hpos
          exact ⟨hnot, fun heq => hoffset (by rw [heq]), hlevel.trans hsame⟩
      rw [hall]
      refine ⟨⟨fun left' hleft' => ?_, fun r hr => ?_, ?_, fun r hr => ?_⟩, fun r hr => ?_⟩
      · exact hremains.trans (hself left' hleft')
      · rcases List.mem_append.1 hr with hr | hr
        · exact List.mem_append_left _ (h.touched r hr)
        · exact List.mem_append_right _ (List.mem_cons_of_mem _ (List.mem_map_of_mem hr))
      · rw [List.map_append]
        refine h.nodup.append ?_ ?_
        · exact (nodup_requests k _ _).sublist (whileRoom_isPrefix.sublist.map Prod.fst)
        · rintro b hb hb'
          obtain ⟨r, hr, rfl⟩ := List.mem_map.1 hb
          obtain ⟨r', hr', heq⟩ := List.mem_map.1 hb'
          exact (hfresh r' hr').1 (heq ▸ h.touched r hr)
      · rcases List.mem_append.1 hr with hr | hr
        · exact h.level r hr
        · exact ⟨(hfresh r hr).2.2, (hmem r hr).2.2⟩
      · exact ⟨(hfresh r hr).1, (hfresh r hr).2.1⟩
    · have hnil : ofRegion k regionNumber reqs = [] :=
        List.filter_eq_nil_iff.2 fun r hr => by simpa [(hmem r hr).1] using hne
      rw [hnil, List.append_nil]
      refine ⟨⟨fun left' hleft' => ?_, fun r hr => ?_, h.nodup, h.level⟩, by simp⟩
      · rw [hother _ fun heq => hne (streamKey_injective k heq).symm] at hleft'
        refine (h.remains left' hleft').elsewhere fun b hb => ?_
        rcases List.mem_cons.1 hb with rfl | hb
        · exact hne
        · obtain ⟨r, hr, rfl⟩ := List.mem_map.1 hb
          exact (hmem r hr).1 ▸ hne
      · exact List.mem_append_left _ (h.touched r hr)

/-- A lookup of the tables leaves the streamer, or predicts a pattern for the region of the load. -/
theorem access_streamer (k : Knobs) (s : Bingo) (blockNumber pc : ℕ) :
    ((s.access k blockNumber pc).2 = [] ∧ (s.access k blockNumber pc).1.pfStreamer = s.pfStreamer) ∨
    ∃ pattern, (s.access k blockNumber pc).2 = [.predict (blockNumber / k.patternLen) pattern] ∧
      (s.access k blockNumber pc).1.pfStreamer = (s.pfStreamer.put k.pfStreamer
        (streamKey k (blockNumber / k.patternLen)) pattern).1 := by
  rw [access]
  dsimp only
  split
  · exact .inl ⟨rfl, rfl⟩
  · cases hfind : s.filterTable.find k.filterTable
        (regionKey k.filterTable (blockNumber / k.patternLen)) with
    | some way =>
      refine .inl ⟨rfl, ?_⟩
      dsimp only
      split <;> rfl
    | none =>
      dsimp only
      rw [trigger]
      dsimp only
      split
      · exact .inl ⟨rfl, rfl⟩
      · exact .inr ⟨_, rfl, rfl⟩

/-! ## Traces -/

/-- The prefetches among the outputs of a call. -/
def issuedBy (out : List Output) : List (ℕ × ℕ) :=
  out.filterMap fun
    | .prefetch blockNumber level => some (blockNumber, level)
    | .predict _ _ => none

/-- The block of a load. -/
def Call.loaded : Call → List ℕ
  | .load _ _ blockNumber => [blockNumber]
  | .fill _ => []

/-- The blocks that were loaded or issued. -/
def touchedIn (tr : Lts.Trace Call Output) : List ℕ :=
  tr.flatMap fun x => x.1.loaded ++ (issuedBy x.2).map Prod.fst

/-- The prefetches of a region. -/
def issuedIn (k : Knobs) (regionNumber : ℕ) (tr : Lts.Trace Call Output) : List (ℕ × ℕ) :=
  tr.flatMap fun x => ofRegion k regionNumber (issuedBy x.2)

/-- The prefetcher under the calls of its cache. -/
def system (k : Knobs) : Lts Bingo Call Output where
  init s := s = init
  step s c := some (s.call k c)

variable {s s' : Bingo} {c : Call}

theorem issuedBy_map (reqs : List (ℕ × ℕ)) :
    issuedBy (reqs.map fun r => .prefetch r.1 r.2) = reqs := by
  rw [issuedBy, List.filterMap_map]
  exact List.filterMap_some

/-- The outputs of a load: a prediction for its region or none, and the requests. -/
theorem load_out (k : Knobs) (queues : ℕ → Queues) (s : Bingo) (pc blockNumber : ℕ) :
    (s.invokePrefetcher k queues pc blockNumber).2 = (s.access k blockNumber pc).2 ++
      (prefetch k queues (s.access k blockNumber pc).1.pfStreamer blockNumber).2.map
        fun r => .prefetch r.1 r.2 := rfl

theorem issuedBy_load (k : Knobs) (queues : ℕ → Queues) (s : Bingo) (pc blockNumber : ℕ) :
    issuedBy (s.invokePrefetcher k queues pc blockNumber).2 =
      (prefetch k queues (s.access k blockNumber pc).1.pfStreamer blockNumber).2 := by
  have happend : ∀ out out', issuedBy (out ++ out') = issuedBy out ++ issuedBy out' :=
    fun _ _ => List.filterMap_append
  rw [load_out, happend, issuedBy_map]
  rcases access_streamer k s blockNumber pc with ⟨hout, -⟩ | ⟨pattern, hout, -⟩
  · rw [hout]
    rfl
  · rw [hout]
    rfl

theorem wellFormed_prefetch (h : streamer.WellFormed k.pfStreamer) (queues : ℕ → Queues)
    (blockNumber : ℕ) : (prefetch k queues streamer blockNumber).1.WellFormed k.pfStreamer := by
  cases hdata : streamer.data? k.pfStreamer (streamKey k (blockNumber / k.patternLen)) with
  | none =>
    rw [prefetch_none hdata]
    exact h
  | some pattern =>
    obtain ⟨streamer', hprefetch, hwellFormed, -⟩ := prefetch_some queues h hdata
    rw [hprefetch]
    exact hwellFormed

theorem wellFormed_access (h : s.pfStreamer.WellFormed k.pfStreamer) (blockNumber pc : ℕ) :
    (s.access k blockNumber pc).1.pfStreamer.WellFormed k.pfStreamer := by
  rcases access_streamer k s blockNumber pc with ⟨-, hsame⟩ | ⟨pattern, -, hput⟩
  · rw [hsame]
    exact h
  · rw [hput]
    exact h.put _ _

theorem wellFormed_call (h : s.pfStreamer.WellFormed k.pfStreamer) (c : Call) :
    (s.call k c).1.pfStreamer.WellFormed k.pfStreamer := by
  cases c with
  | load queues pc blockNumber => exact wellFormed_prefetch (wellFormed_access h _ _) queues _
  | fill blockNumber => exact h

/-- A call without another prediction for the region. -/
theorem Streamed.call (h : Streamed k regionNumber pattern touched issued s.pfStreamer)
    (hwellFormed : s.pfStreamer.WellFormed k.pfStreamer) (c : Call)
    (hno : ∀ pattern, .predict regionNumber pattern ∉ (s.call k c).2) :
    Streamed k regionNumber pattern (touched ++ touchedIn [(c, (s.call k c).2)])
      (issued ++ issuedIn k regionNumber [(c, (s.call k c).2)]) (s.call k c).1.pfStreamer ∧
    ∀ r ∈ ofRegion k regionNumber (issuedBy (s.call k c).2), r.1 ∉ touched ∧ r.1 ∉ c.loaded := by
  cases c with
  | fill blockNumber =>
    have hsame : (s.eviction k blockNumber).pfStreamer = s.pfStreamer := rfl
    refine ⟨?_, by simp [Bingo.call, issuedBy, ofRegion]⟩
    simpa [touchedIn, issuedIn, Bingo.call, issuedBy, ofRegion, Call.loaded, hsame] using h
  | load queues pc blockNumber =>
    have haccess : Streamed k regionNumber pattern touched issued
        (s.access k blockNumber pc).1.pfStreamer := by
      rcases access_streamer k s blockNumber pc with ⟨-, hsame⟩ | ⟨pattern', hout, hput⟩
      · rw [hsame]
        exact h
      · have hne : streamKey k regionNumber ≠ streamKey k (blockNumber / k.patternLen) := by
          intro heq
          obtain rfl := streamKey_injective k heq
          refine hno pattern' ?_
          rw [Bingo.call, load_out, hout]
          exact List.mem_append_left _ (List.mem_singleton_self _)
        rw [hput]
        refine h.of_data fun left hleft => ?_
        rw [hwellFormed.data?_put_of_ne hne] at hleft
        split at hleft
        · exact absurd hleft (by simp)
        · exact hleft
    obtain ⟨hstreamed, hfresh⟩ :=
      haccess.prefetch (wellFormed_access hwellFormed blockNumber pc) queues blockNumber
    have hissued := issuedBy_load k queues s pc blockNumber
    refine ⟨?_, fun r hr => ?_⟩
    · simp only [touchedIn, issuedIn, List.flatMap_cons, List.flatMap_nil, List.append_nil, Bingo.call,
        hissued, Call.loaded, List.singleton_append]
      exact hstreamed
    · rw [Bingo.call, hissued] at hr
      obtain ⟨hnot, hne⟩ := hfresh r hr
      exact ⟨hnot, by simpa [Call.loaded] using hne⟩

theorem touchedIn_append (tr tr' : Lts.Trace Call Output) :
    touchedIn (tr ++ tr') = touchedIn tr ++ touchedIn tr' := List.flatMap_append

theorem issuedIn_append (k : Knobs) (regionNumber : ℕ) (tr tr' : Lts.Trace Call Output) :
    issuedIn k regionNumber (tr ++ tr') =
      issuedIn k regionNumber tr ++ issuedIn k regionNumber tr' := List.flatMap_append

/-- Calls without another prediction for the region. -/
theorem Streamed.path {ok : Bingo → Call → Prop} {tr : Lts.Trace Call Output}
    (hpath : (system k).Path ok s tr s')
    (h : Streamed k regionNumber pattern touched issued s.pfStreamer)
    (hwellFormed : s.pfStreamer.WellFormed k.pfStreamer)
    (hno : ∀ x ∈ tr, ∀ pattern, .predict regionNumber pattern ∉ x.2) :
    Streamed k regionNumber pattern (touched ++ touchedIn tr)
      (issued ++ issuedIn k regionNumber tr) s'.pfStreamer ∧
    s'.pfStreamer.WellFormed k.pfStreamer := by
  induction hpath with
  | nil => exact ⟨by simpa [touchedIn, issuedIn] using h, hwellFormed⟩
  | @step m _ tr c out _ _ hs ih =>
    obtain ⟨hstreamed, hwellFormed⟩ := ih fun x hx => hno x (List.mem_append_left _ hx)
    obtain ⟨rfl, rfl⟩ := Prod.mk.inj (Option.some.inj hs)
    rw [touchedIn_append, issuedIn_append, ← List.append_assoc, ← List.append_assoc]
    refine ⟨(hstreamed.call hwellFormed c ?_).1, wellFormed_call hwellFormed c⟩
    exact hno (c, (m.call k c).2) (List.mem_append_right _ (List.mem_singleton_self _))

/-- The call that predicts a pattern streams it. -/
theorem Streamed.of_predict (hwellFormed : s.pfStreamer.WellFormed k.pfStreamer) {out : List Output}
    (h : (s.call k c).2 = .predict regionNumber pattern :: out) :
    Streamed k regionNumber pattern (touchedIn [(c, out)]) (issuedIn k regionNumber [(c, out)])
      (s.call k c).1.pfStreamer ∧
    ∀ r ∈ ofRegion k regionNumber (issuedBy out), r.1 ∉ c.loaded := by
  cases c with
  | fill blockNumber => exact absurd h (by simp [Bingo.call])
  | load queues pc blockNumber =>
    rw [Bingo.call] at h ⊢
    have hissued := issuedBy_load k queues s pc blockNumber
    rw [h] at hissued
    rw [load_out] at h
    rcases access_streamer k s blockNumber pc with ⟨hout, -⟩ | ⟨pattern', hout, hput⟩
    · rw [hout, List.nil_append] at h
      have hmem : Output.predict regionNumber pattern ∈
          (Bingo.prefetch k queues (s.access k blockNumber pc).1.pfStreamer blockNumber).2.map
            fun r => Output.prefetch r.1 r.2 := by
        rw [h]
        exact List.mem_cons_self ..
      simp at hmem
    · rw [hout, List.singleton_append] at h
      obtain ⟨hpredict, rfl⟩ := List.cons.inj h
      obtain ⟨rfl, rfl⟩ := Output.predict.inj hpredict
      have hdata : (s.access k blockNumber pc).1.pfStreamer.data? k.pfStreamer
          (streamKey k (blockNumber / k.patternLen)) = some pattern' := by
        rw [hput]
        exact hwellFormed.data?_put _ _
      obtain ⟨hstreamed, hfresh⟩ := (Streamed.start k _ _ hdata).prefetch
        (wellFormed_access hwellFormed blockNumber pc) queues blockNumber
      refine ⟨?_, fun r hr => ?_⟩
      · simp only [touchedIn, issuedIn, List.flatMap_cons, List.flatMap_nil, List.append_nil,
          issuedBy_map, Call.loaded, List.singleton_append]
        exact hstreamed
      · rw [issuedBy_map] at hr
        simpa [Call.loaded] using (hfresh r hr).2

/-! ## Runs -/

theorem Inv.withStreamer {calls : List Call} (h : Inv k calls s)
    (hwellFormed : streamer.WellFormed k.pfStreamer) :
    Inv k calls { s with pfStreamer := streamer } :=
  ⟨h.filter, h.acc, h.history, hwellFormed, h.disjoint⟩

variable {ok : Bingo → Call → Prop} {tr before after : Lts.Trace Call Output}

theorem inv (hk : k.Valid) (h : (system k).Run ok s tr) : Inv k (tr.map Prod.fst) s := by
  refine Lts.Run.induct (P := fun s tr => Inv k (tr.map Prod.fst) s) ?_
    (fun s tr c s' out _ hinv _ hs => ?_) h
  · rintro _ rfl
    exact Inv.init k
  · obtain ⟨rfl, -⟩ := Prod.mk.inj (Option.some.inj hs)
    rw [List.map_append, List.map_singleton]
    cases c with
    | load queues pc blockNumber =>
      have haccess := hinv.access hk queues pc blockNumber
      exact haccess.withStreamer (wellFormed_prefetch haccess.streamer queues blockNumber)
    | fill blockNumber => exact hinv.eviction blockNumber

theorem wellFormed_streamer (h : (system k).Reachable ok s) : s.pfStreamer.WellFormed k.pfStreamer := by
  refine Lts.Reachable.invariant (I := fun s => s.pfStreamer.WellFormed k.pfStreamer) ?_
    (fun s c s' out hwellFormed _ hs => ?_) h
  · rintro _ rfl
    exact LruCache.WellFormed.init _ _
  · obtain ⟨rfl, -⟩ := Prod.mk.inj (Option.some.inj hs)
    exact wellFormed_call hwellFormed c

/-- A configuration with one entry in each table. -/
def Knobs.small : Knobs where
  patternLen := 4
  pcWidth := 2
  minAddrWidth := 2
  maxAddrWidth := 4
  filterTable := ⟨1, 1, by decide, by decide⟩
  accumulationTable := ⟨1, 1, by decide, by decide⟩
  pht := ⟨1, 1, by decide, by decide⟩
  pfStreamer := ⟨1, 1, by decide, by decide⟩
  pcAddressFillLevel := fillL1
  l1dThresh := fun cnt n => cnt = n
  l2cThresh := fun cnt n => n ≤ 2 * cnt
  llcThresh := fun cnt n => n ≤ 4 * cnt
  patternLen_pos := by decide

theorem valid_small : Knobs.small.Valid := ⟨rfl, by decide, by decide, ⟨1, rfl⟩⟩

/-- Empty queues. -/
def idle : ℕ → Queues := fun _ => ⟨0, 8, 0, 8⟩

/-- Two blocks of a region were loaded. -/
def grown : Bingo :=
  ((init.call .small (.load idle 3 8)).1.call .small (.load idle 3 9)).1

theorem run_grown : (system .small).Run (fun _ _ => True) grown
    [(.load idle 3 8, []), (.load idle 3 9, [])] :=
  ((Lts.Run.init rfl).step trivial rfl).step trivial rfl

/-- From a prediction for a region to the next one, the blocks of the region that are prefetched are
different, with their levels in the pattern; none was loaded or prefetched before since the prediction,
and the streamer has the levels of the others. -/
theorem streams_once {out : List Output}
    (h : (system k).Run ok s (before ++ (c, .predict regionNumber pattern :: out) :: after))
    (hno : ∀ x ∈ after, ∀ pattern, .predict regionNumber pattern ∉ x.2) :
    ((issuedIn k regionNumber ((c, out) :: after)).map Prod.fst).Nodup ∧
    (∀ r ∈ issuedIn k regionNumber ((c, out) :: after),
      r.2 = pattern.getD (r.1 % k.patternLen) 0 ∧ 0 < r.2) ∧
    (∀ tr₁ x tr₂, (c, out) :: after = tr₁ ++ x :: tr₂ →
      ∀ r ∈ ofRegion k regionNumber (issuedBy x.2), r.1 ∉ touchedIn tr₁ ∧ r.1 ∉ x.1.loaded) ∧
    ∀ left, s.pfStreamer.data? k.pfStreamer (streamKey k regionNumber) = some left →
      Remains k regionNumber pattern (touchedIn ((c, out) :: after)) left := by
  obtain ⟨s₀, hinit, hpath⟩ := h
  obtain ⟨m, hbefore, hpath⟩ := hpath.split
  obtain ⟨m', hok, hs, hafter⟩ := hpath.uncons
  have hcall : m.call k c = (m', .predict regionNumber pattern :: out) := Option.some.inj hs
  obtain rfl : (m.call k c).1 = m' := congrArg Prod.fst hcall
  have hout : (m.call k c).2 = .predict regionNumber pattern :: out := congrArg Prod.snd hcall
  have hwellFormed := wellFormed_streamer ⟨_, s₀, hinit, hbefore⟩
  obtain ⟨hstart, hfirst⟩ := Streamed.of_predict hwellFormed hout
  have hwellFormed' := wellFormed_call hwellFormed c
  have hcons : ∀ tr, touchedIn ((c, out) :: tr) = touchedIn [(c, out)] ++ touchedIn tr ∧
      issuedIn k regionNumber ((c, out) :: tr) =
        issuedIn k regionNumber [(c, out)] ++ issuedIn k regionNumber tr := fun tr =>
    ⟨touchedIn_append [(c, out)] tr, issuedIn_append k regionNumber [(c, out)] tr⟩
  obtain ⟨hend, -⟩ := hstart.path hafter hwellFormed' hno
  rw [← (hcons after).1, ← (hcons after).2] at hend
  refine ⟨hend.nodup, hend.level, fun tr₁ x tr₂ hsplit r hr => ?_, hend.remains⟩
  cases tr₁ with
  | nil =>
    obtain ⟨rfl, -⟩ := List.cons.inj hsplit
    exact ⟨by simp [touchedIn], hfirst r hr⟩
  | cons y tr₁ =>
    obtain ⟨rfl, rfl⟩ := List.cons.inj hsplit
    obtain ⟨m₁, hpath₁, hpath₂⟩ := hafter.split
    obtain ⟨m₂, -, hs₂, -⟩ := hpath₂.uncons
    have hout₂ : (m₁.call k x.1).2 = x.2 := congrArg Prod.snd (Option.some.inj hs₂)
    obtain ⟨hstreamed, hwellFormed₁⟩ := hstart.path hpath₁ hwellFormed' fun y hy =>
      hno y (List.mem_append_left _ hy)
    rw [← (hcons tr₁).1, ← (hcons tr₁).2] at hstreamed
    obtain ⟨-, hfresh⟩ := hstreamed.call hwellFormed₁ x.1 fun pattern hpredict =>
      hno x (by simp) pattern (hout₂ ▸ hpredict)
    rw [hout₂] at hfresh
    exact hfresh r hr

theorem streams_once_grown : ∃ s, (system .small).Run (fun _ _ => True) s
      ([(.load idle 3 8, []), (.load idle 3 9, []), (.fill 9, [])] ++
        (.load idle 3 8, .predict 2 [1, 1, 0, 0] :: [.prefetch 9 1]) :: []) ∧
    ((issuedIn .small 2 [(.load idle 3 8, [.prefetch 9 1])]).map Prod.fst).Nodup :=
  have h : (system .small).Run (fun _ _ => True) _
      ([(.load idle 3 8, []), (.load idle 3 9, []), (.fill 9, [])] ++
        (.load idle 3 8, .predict 2 [1, 1, 0, 0] :: [.prefetch 9 1]) :: []) :=
    (run_grown.step trivial rfl).step trivial rfl
  ⟨_, h, (streams_once h (by simp)).1⟩

/-- A generation that goes on: its region is in the filter table with one block, or in the accumulation
table with its pattern. -/
def Open (k : Knobs) (s : Bingo) (g : Generation) : Prop :=
  g.regionNumber < 2 ^ 37 ∧
    (s.filterTable.data? k.filterTable (hashIndex g.regionNumber k.filterTable.indexLen) =
        some ⟨g.pc, g.offset⟩ ∧ g.pattern = single k g.offset ∨
      s.accumulationTable.data? k.accumulationTable
        (hashIndex g.regionNumber k.accumulationTable.indexLen) = some ⟨g.pc, g.offset, g.pattern⟩)

/-- In every run a generation that goes on began with a load of its program counter and offset, its
pattern has the blocks that were loaded since, and none was evicted. A region is not in both tables, and
one in the accumulation table has two blocks. -/
theorem generations (hk : k.Valid) (h : (system k).Run ok s tr) :
    (∀ g, Open k s g → ∃ before queues blockNumber after,
      tr.map Prod.fst = before ++ .load queues g.pc blockNumber :: after ∧
      regionOf k blockNumber = g.regionNumber ∧ blockNumber % k.patternLen = g.offset ∧
      (∀ b, .fill b ∈ after → regionOf k b ≠ g.regionNumber) ∧
      ∀ i, g.pattern.getD i false = true ↔
        ∃ call ∈ Call.load queues g.pc blockNumber :: after, loadOf k g.regionNumber call = some i) ∧
    ∀ r < 2 ^ 37, ∀ d, s.accumulationTable.data? k.accumulationTable
        (hashIndex r k.accumulationTable.indexLen) = some d →
      s.filterTable.data? k.filterTable (hashIndex r k.filterTable.indexLen) = none ∧
        ∃ i, i ≠ d.offset ∧ d.pattern.getD i false = true := by
  have hinv := inv hk h
  refine ⟨fun g hopen => ?_, fun r hr d hd => ⟨?_, ?_⟩⟩
  · obtain ⟨-, ⟨hdata, hpattern⟩ | hdata⟩ := hopen
    · obtain ⟨r, -, hkey, hfoot⟩ := hinv.filter.footprint _ _ hdata
      obtain rfl := hashIndex_injective _ hkey
      dsimp only at hfoot
      rw [← hpattern] at hfoot
      exact hfoot.blocks
    · obtain ⟨r, -, hkey, hfoot, -⟩ := hinv.acc.footprint _ _ hdata
      obtain rfl := hashIndex_injective _ hkey
      exact hfoot.blocks
  · by_contra hne
    rw [hinv.disjoint r hr hne] at hd
    exact absurd hd (by simp)
  · obtain ⟨-, -, -, -, hsecond⟩ := hinv.acc.footprint _ _ hd
    exact hsecond

theorem generations_grown : grown.filterTable.data? Knobs.small.filterTable
    (hashIndex 2 Knobs.small.filterTable.indexLen) = none :=
  ((generations valid_small run_grown).2 2 (by decide) ⟨3, 0, [true, true, false, false]⟩ rfl).1

/-- A generation that is in the past of a run, or was. -/
def Past (k : Knobs) (tr : Lts.Trace Call Output) (g : Generation) : Prop :=
  ∃ past, past <+: tr.map Prod.fst ∧ Footprint k past g

/-- The address that a generation began with. -/
def Generation.address (k : Knobs) (g : Generation) : ℕ := g.regionNumber * k.patternLen + g.offset

/-- A rotation back to the offset of a load. -/
theorem rotate_generation (hk : k.Valid) {calls : List Call} {g : Generation}
    (hg : Footprint k calls g) {pc address : ℕ} (hsame : SameOffset k g.pc (g.address k) pc address) :
    myRotate (myRotate g.pattern (-(g.offset : ℤ))) ((address % k.patternLen : ℕ) : ℤ) = g.pattern := by
  have hmod : address % k.patternLen = g.offset := by
    rw [← Nat.mod_mod_of_dvd address hk.patternLen_dvd, ← hsame.2,
      Nat.mod_mod_of_dvd _ hk.patternLen_dvd, Generation.address, Nat.mul_add_mod_self_right,
      Nat.mod_eq_of_lt hg.offset_lt]
  rw [hmod]
  exact myRotate_myRotate (hg.length ▸ hg.offset_lt)

theorem SameAddress.offset (hk : k.Valid) {pc address pc' address' : ℕ}
    (h : SameAddress k pc address pc' address') : SameOffset k pc address pc' address' := by
  have hdvd := Nat.pow_dvd_pow 2 hk.minAddrWidth_le
  refine ⟨h.1, ?_⟩
  rw [← Nat.mod_mod_of_dvd address hdvd, h.2, Nat.mod_mod_of_dvd _ hdvd]

/-- In every run a lookup of the pattern history table gives patterns of past generations, as they were
collected: one that began with the same program counter and address, or else those that began with the
same program counter and offset. -/
theorem replays_generations (hk : k.Valid) (h : (system k).Run ok s tr) (pc address : ℕ) :
    ((phtFind k s.pht pc address).2.2 = .pcAddress → ∃ g, Past k tr g ∧
      SameAddress k g.pc (g.address k) pc address ∧ (phtFind k s.pht pc address).2.1 = [g.pattern]) ∧
    ((phtFind k s.pht pc address).2.2 ≠ .pcAddress → ∀ q ∈ (phtFind k s.pht pc address).2.1,
      (phtFind k s.pht pc address).2.2 = .pcOffset ∧
      ∃ g, Past k tr g ∧ SameOffset k g.pc (g.address k) pc address ∧ q = g.pattern) := by
  have hinv := inv hk h
  cases hdata : s.pht.data? k.pht (phtKey k pc address) with
  | some pattern =>
    rw [phtFind_hit hk hinv.history.ok hdata]
    refine ⟨fun _ => ?_, fun hne => absurd rfl hne⟩
    obtain ⟨past, g, hpast, hg, hkey, rfl⟩ := hinv.history.footprint _ _ hdata
    have hsame : SameAddress k g.pc (g.address k) pc address := (phtKey_eq_iff hk).1 hkey.symm
    refine ⟨g, ⟨past, hpast, hg⟩, hsame, ?_⟩
    rw [rotate_generation hk hg (hsame.offset hk)]
  | none =>
    obtain ⟨-, hevent, hfound, hall⟩ := phtFind_miss hk hinv.history.ok hdata
    refine ⟨fun heq => absurd heq hevent, fun _ q hq => ?_⟩
    obtain ⟨pc', address', pattern, hstored, hsame, rfl⟩ := hfound q hq
    obtain ⟨past, g, hpast, hg, hkey, rfl⟩ := hinv.history.footprint _ _ hstored
    have hsame' : SameAddress k pc' address' g.pc (g.address k) := (phtKey_eq_iff hk).1 hkey
    have hoffset : SameOffset k g.pc (g.address k) pc address :=
      ⟨(hsame'.offset hk).1.symm.trans hsame.1, (hsame'.offset hk).2.symm.trans hsame.2⟩
    exact ⟨(hall _ _ _ hstored hsame).1, g, ⟨past, hpast, hg⟩, hoffset,
      rotate_generation hk hg hoffset⟩

theorem replays_generations_grown : ∃ g, Past .small [(.load idle 3 8, []), (.load idle 3 9, []),
      (.fill 9, [])] g ∧
    (phtFind .small (grown.eviction .small 9).pht 3 8).2.1 = [g.pattern] :=
  have h : (system .small).Run (fun _ _ => True) (grown.eviction .small 9)
      [(.load idle 3 8, []), (.load idle 3 9, []), (.fill 9, [])] := run_grown.step trivial rfl
  have ⟨g, hpast, _, hpattern⟩ := (replays_generations valid_small h 3 8).1 (by decide)
  ⟨g, hpast, hpattern⟩

/-- In every run, after an eviction ended the generation of a region, the next load with its program
counter and first address predicts its pattern, unless the region of the load is in a table. -/
theorem replays_after_eviction (hk : k.Valid) (h : (system k).Run ok s tr)
    {d : AccumulationTableData} (hdata : s.accumulationTable.data? k.accumulationTable
      (hashIndex (regionOf k blockNumber) k.accumulationTable.indexLen) = some d)
    (pc blockNumber' : ℕ) (hsame : SameAddress k d.pc
      (regionOf k blockNumber * k.patternLen + d.offset) pc blockNumber')
    (hfilter : (s.eviction k blockNumber).filterTable.data? k.filterTable
      (hashIndex (regionOf k blockNumber') k.filterTable.indexLen) = none)
    (hacc : (s.eviction k blockNumber).accumulationTable.data? k.accumulationTable
      (hashIndex (regionOf k blockNumber') k.accumulationTable.indexLen) = none)
    (queues : ℕ → Queues) :
    ∃ out, ((s.eviction k blockNumber).call k (.load queues pc blockNumber')).2 =
      .predict (blockNumber' / k.patternLen) ((List.range k.patternLen).map fun i =>
        if d.pattern.getD i false then k.pcAddressFillLevel else 0) :: out := by
  have hinv := inv hk h
  obtain ⟨r, -, hkey, hfoot, -⟩ := hinv.acc.footprint _ _ hdata
  obtain rfl := hashIndex_injective _ hkey
  -- the pattern goes to the pattern history table
  have hentry := hinv.acc.wellFormed.erase_snd
    (hashIndex (regionOf k blockNumber) k.accumulationTable.indexLen)
  rw [hdata, Option.map_some] at hentry
  obtain ⟨entry, herase, hpair⟩ := Option.map_eq_some_iff.1 hentry
  obtain ⟨hentryKey, rfl⟩ := Prod.mk.inj hpair
  have hpht : (s.eviction k blockNumber).pht = phtInsert k s.pht entry.data.pc
      (regionOf k blockNumber * k.patternLen + entry.data.offset) entry.data.pattern := by
    simp only [eviction, regionKey_block, herase, insertInPht, hentryKey, hashIndex_hashIndex]
  have hstored : (s.eviction k blockNumber).pht.data? k.pht (phtKey k pc blockNumber') =
      some (myRotate entry.data.pattern (-(entry.data.offset : ℤ))) := by
    have hoffset : (regionOf k blockNumber * k.patternLen + entry.data.offset) % k.patternLen =
        entry.data.offset := by
      rw [Nat.mul_add_mod_self_right, Nat.mod_eq_of_lt hfoot.offset_lt]
    rw [hpht, phtInsert, hoffset, ← (phtKey_eq_iff hk).2 hsame]
    exact hinv.history.ok.wellFormed.data?_put _ _
  -- the load looks it up
  have hfind := phtFind_hit hk (hinv.eviction blockNumber).history.ok hstored
  rw [rotate_generation hk hfoot (hsame.offset hk)] at hfind
  have hset : setPattern k (s.eviction k blockNumber).accumulationTable
      (blockNumber' / k.patternLen) (blockNumber' % k.patternLen) =
        ((s.eviction k blockNumber).accumulationTable, false) := by
    simp only [setPattern, regionKey_block, hacc]
  have haccess : (s.eviction k blockNumber).access k blockNumber' pc =
      (s.eviction k blockNumber).trigger k blockNumber' pc := by
    have hnone := Option.map_eq_none_iff.1 hfilter
    simp only [access, hset, regionKey_block, hnone, Bool.false_eq_true, if_false]
  rw [Bingo.call, load_out, haccess, trigger]
  simp only [findInPht, hfind, levels, List.headD_cons]
  rw [if_neg (by simp [k.patternLen_pos.ne'])]
  exact ⟨_, rfl⟩

theorem replays_after_eviction_grown : ∃ out,
    ((grown.eviction .small 9).call .small (.load idle 3 8)).2 = .predict 2 [1, 1, 0, 0] :: out :=
  replays_after_eviction valid_small run_grown (d := ⟨3, 0, [true, true, false, false]⟩) rfl 3 8
    ⟨rfl, rfl⟩ rfl rfl idle

end

end Bingo

end Arishem
