import Arishem.Prefetchers.Coverage
import Mathlib.Data.List.Induction

/-!
# Percentages

An entry of the signature prediction table has empty patterns until it has learned a page, and learning
a page counts the lines of these patterns to divide by them. So the first page of an entry divides by
zero, and no later one does: a page has the line of its first access, and what an entry has learned stays
in its patterns. A run keeps which entries have learned, the last one first.
-/

namespace Arishem

namespace DsPatch

open Bitmap

section
variable (k : Knobs)

/-- The page that leaves the page buffer with an access. -/
def evicted (s : DsPatch) (page : UInt64) : Option PBEntry :=
  if s.pageBuffer.findIdx? (·.page = page) = none ∧ k.pbSize ≤ s.pageBuffer.length then
    s.pageBuffer.head?
  else none

/-- The entry that learns a page. -/
def learner (pb : PBEntry) : ℕ := getSptIndex k (createSignature pb.triggerPc)

/-- The counts of a page and an entry. -/
def measured (e : SPTEntry) (pb : PBEntry) : Option Counts :=
  (decompress k e.bmpCov).bind fun cov =>
    (decompress k e.bmpAcc).map fun acc => counts (anchored k pb) cov acc

/-- The entries that learn with an access. -/
def learners (s : DsPatch) (page : UInt64) : List ℕ := ((s.evicted k page).map (learner k)).toList

/-- The runs: calls of `invoke_prefetcher` and `update_bw`. What `0/0` is cut to may differ. -/
inductive Run : List ℕ → DsPatch → Prop
  | init : Run [] (init k)
  | access {learned : List ℕ} {s s' : DsPatch} {nan : ℕ} {pc address : UInt64}
    {prefAddr : List UInt64} (h : Run learned s)
    (hs : s.invokePrefetcher k nan pc address = some (s', prefAddr)) :
    Run (s.learners k (regionOf k address) ++ learned) s'
  | updateBw {learned : List ℕ} {s s' : DsPatch} {bw : UInt8} (h : Run learned s)
    (hs : s.updateBw bw = some s') : Run learned s'

/-- No divisor is zero, and the percentages are at most 100. -/
structure Counts.Defined (c : Counts) : Prop where
  popReal : c.popReal ≠ 0
  popCov : c.popCov ≠ 0
  popAcc : c.popAcc ≠ 0
  covCov : 100 * c.sameCov / c.popReal ≤ 100
  accCov : 100 * c.sameCov / c.popCov ≤ 100
  covAcc : 100 * c.sameAcc / c.popReal ≤ 100
  accAcc : 100 * c.sameAcc / c.popAcc ≤ 100

/-- The access does not divide by zero. -/
def DividesByNonzero (s : DsPatch) (page : UInt64) : Prop :=
  ∀ pb, s.evicted k page = some pb → ∀ e, s.spt[learner k pb]? = some e →
    ∀ c, measured k e pb = some c → c.Defined

end

section
variable {k : Knobs} {nan : ℕ} {s s' : DsPatch} {pc page address : UInt64} {learned : List ℕ}
variable {bmp bmp' real : Bitmap} {e : SPTEntry} {pb : PBEntry}

/-! ## Counts -/

/-- The bitmap has a line. -/
def Nonempty (bmp : Bitmap) : Prop := ∃ i, bmp.getLsbD i = true

theorem countBitsSet_ne_zero_iff : bmp.countBitsSet ≠ 0 ↔ Nonempty bmp := by
  rw [countBitsSet, ← Nat.pos_iff_ne_zero, List.countP_pos_iff]
  constructor
  · rintro ⟨i, -, hi⟩
    exact ⟨i, hi⟩
  · rintro ⟨i, hi⟩
    exact ⟨i, List.mem_range.2 (BitVec.lt_of_getLsbD hi), hi⟩

theorem countBitsSame_le (bmp bmp' : Bitmap) :
    bmp.countBitsSame bmp' ≤ bmp.countBitsSet ∧ bmp.countBitsSame bmp' ≤ bmp'.countBitsSet := by
  constructor
  · refine List.countP_mono_left fun i _ hi => ?_
    exact (Bool.and_eq_true_iff.1 hi).1
  · refine List.countP_mono_left fun i _ hi => ?_
    obtain ⟨hset, hsame⟩ := Bool.and_eq_true_iff.1 hi
    rw [hset] at hsame
    exact (beq_iff_eq.1 hsame).symm

/-- Bitmaps with a count of the same bits share a line. -/
theorem nonempty_bitwiseAnd (h : 0 < bmp.countBitsSame bmp') : Nonempty (bmp'.bitwiseAnd bmp) := by
  obtain ⟨i, -, hi⟩ := List.countP_pos_iff.1 h
  obtain ⟨hset, hsame⟩ := Bool.and_eq_true_iff.1 hi
  rw [hset] at hsame
  refine ⟨i, ?_⟩
  rw [getLsbD_bitwiseAnd, hset, ← beq_iff_eq.1 hsame]
  rfl

theorem percent_le {same pop : ℕ} (h : same ≤ pop) : 100 * same / pop ≤ 100 := by
  rcases Nat.eq_zero_or_pos pop with rfl | hpos
  · rw [Nat.div_zero]
    exact Nat.zero_le _
  · exact (Nat.div_le_iff_le_mul_add_pred hpos).2 (by omega)

/-- The percentages are defined when none of the bitmaps is empty. -/
theorem defined_counts (hreal : Nonempty real) (hcov : Nonempty bmp) (hacc : Nonempty bmp') :
    (counts real bmp bmp').Defined where
  popReal := countBitsSet_ne_zero_iff.2 hreal
  popCov := countBitsSet_ne_zero_iff.2 hcov
  popAcc := countBitsSet_ne_zero_iff.2 hacc
  covCov := percent_le (countBitsSame_le _ _).2
  accCov := percent_le (countBitsSame_le _ _).1
  covAcc := percent_le (countBitsSame_le _ _).2
  accAcc := percent_le (countBitsSame_le _ _).1

/-! ## Entries -/

/-- The patterns of the entry have lines. -/
structure Learned (k : Knobs) (e : SPTEntry) : Prop where
  cov : Nonempty (lines k e.bmpCov)
  acc : Nonempty (lines k e.bmpAcc)

theorem Nonempty.mono (h : Nonempty bmp) (hsub : Sub bmp bmp') : Nonempty bmp' := by
  obtain ⟨i, hi⟩ := h
  exact ⟨i, hsub i hi⟩

theorem bitwiseAnd_sub_left (bmp bmp' : Bitmap) : Sub (bmp.bitwiseAnd bmp') bmp := by
  intro i hi
  rw [getLsbD_bitwiseAnd, Bool.and_eq_true] at hi
  exact hi.1

theorem inBlocks_of_sub (hsub : Sub bmp bmp') (h : InBlocks k bmp') : InBlocks k bmp :=
  fun i hi => h i (hsub i hi)

/-- An entry that has learned a page has lines in both patterns. -/
theorem learned_learn (h : Admissible k) (nan : ℕ) (bw : UInt8) (e : SPTEntry)
    (hreal : Nonempty real) (hwithin : real.Within k.numCachelinesInRegion) :
    ∃ e', learn k nan bw e real = some e' ∧ Learned k e' := by
  obtain ⟨e', hlearn, hcovs, hacc⟩ := learn_spec h nan bw e real
  have hblocks := inBlocks_of_within hwithin
  -- the new coverage pattern shares a line with the observed ones
  have hshared : Nonempty (real.bitwiseAnd (lines k e'.bmpCov)) := by
    have hcontains : Sub real (lines k e'.bmpCov) → Nonempty (real.bitwiseAnd (lines k e'.bmpCov)) := by
      intro hsub
      obtain ⟨i, hi⟩ := hreal
      refine ⟨i, ?_⟩
      rw [getLsbD_bitwiseAnd, hi, hsub i hi]
      rfl
    generalize e'.bmpCov = cov at hcovs hcontains ⊢
    cases hcovs with
    | takes =>
      refine hcontains (Sub.trans (fun i hi => ?_)
        (sub_lines_pattern h ((inBlocks_lines h _).bitwiseOr hblocks)))
      rw [getLsbD_bitwiseOr, hi, Bool.or_true]
    | gives => exact hcontains (sub_lines_pattern h hblocks)
    | keeps _ hhalf =>
      refine nonempty_bitwiseAnd (Nat.pos_of_ne_zero fun hzero => ?_)
      rw [hzero, percent, if_neg (countBitsSet_ne_zero_iff.2 hreal), Nat.mul_zero,
        Nat.zero_div] at hhalf
      exact absurd hhalf (by decide)
  refine ⟨e', hlearn, hshared.mono (bitwiseAnd_sub _ _), ?_⟩
  rw [hacc]
  exact hshared.mono (sub_lines_pattern h
    (inBlocks_of_sub (bitwiseAnd_sub_left _ _) hblocks))

/-! ## Pages -/

/-- A page that came in with a line of its region, which is kept. -/
structure Triggered (k : Knobs) (pb : PBEntry) : Prop where
  offset_lt : pb.triggerOffset < k.numCachelinesInRegion
  within : pb.bmpReal.Within k.numCachelinesInRegion
  trigger : pb.bmpReal.getLsbD pb.triggerOffset = true

theorem Triggered.anchored_within (h : Triggered k pb) :
    (anchored k pb).Within k.numCachelinesInRegion :=
  within_rotateRight h.offset_lt (numCachelinesInRegion_le k)

/-- The first access is the first line of the rotated page. -/
theorem Triggered.anchored_nonempty (h : Triggered k pb) : Nonempty (anchored k pb) := by
  have hlt := h.offset_lt
  refine ⟨0, ?_⟩
  rw [anchored, getLsbD_rotateRight hlt (numCachelinesInRegion_le k), if_pos (by omega), Nat.zero_add]
  exact h.trigger

theorem lineOf_lt (k : Knobs) (address : UInt64) : lineOf k address < k.numCachelinesInRegion := by
  have hall : ∀ n : Fin 7, (((1 : UInt64) <<< .ofNat n.val) - 1).toNat < 1 <<< n.val := by decide
  have hge := k.log2RegionSize_ge
  have hle := k.log2RegionSize_le
  rw [lineOf, UInt64.toNat_and]
  exact Nat.lt_of_le_of_lt Nat.and_le_right (hall ⟨k.log2RegionSize - 6, by omega⟩)

/-- An access to the page keeps its lines. -/
theorem Triggered.hit (h : Triggered k pb) (address : UInt64) :
    Triggered k { pb with bmpReal := pb.bmpReal.set (lineOf k address) true } where
  offset_lt := h.offset_lt
  within i hi := by
    rw [getLsbD_set] at hi
    split at hi
    · rename_i heq
      rw [← heq.1]
      exact lineOf_lt k address
    · exact h.within i hi
  trigger := by
    dsimp only
    rw [getLsbD_set]
    split
    · rfl
    · exact h.trigger

theorem triggered_insert (k : Knobs) (pc page address : UInt64) :
    Triggered k ⟨page, pc, lineOf k address, Bitmap.set 0 (lineOf k address) true⟩ where
  offset_lt := lineOf_lt k address
  within i hi := by
    rw [getLsbD_set] at hi
    split at hi
    · rename_i heq
      rw [← heq.1]
      exact lineOf_lt k address
    · rw [show (0 : Bitmap).getLsbD i = false from BitVec.getLsbD_zero] at hi
      exact absurd hi Bool.false_ne_true
  trigger := by
    have hlt := Nat.lt_of_lt_of_le (lineOf_lt k address) (numCachelinesInRegion_le k)
    rw [getLsbD_set, if_pos ⟨rfl, hlt⟩]

/-! ## Accesses -/

/-- What an access does to the page buffer and the table: a page in the buffer gets a line, or a page
comes in, and the first page leaves a full buffer for its entry. -/
inductive Goes (k : Knobs) (nan : ℕ) (s : DsPatch) (pc address : UInt64) :
    List PBEntry → List SPTEntry → Prop
  | hit {i : ℕ} (h : s.pageBuffer.findIdx? (·.page = regionOf k address) = some i) :
    Goes k nan s pc address (s.pageBuffer.modify i fun pb =>
      { pb with bmpReal := pb.bmpReal.set (lineOf k address) true }) s.spt
  | room (h : s.pageBuffer.findIdx? (·.page = regionOf k address) = none)
    (hroom : s.pageBuffer.length < k.pbSize) :
    Goes k nan s pc address (s.pageBuffer ++ [⟨regionOf k address, pc, lineOf k address,
      Bitmap.set 0 (lineOf k address) true⟩]) s.spt
  | evict {pb : PBEntry} {rest : List PBEntry} {e e' : SPTEntry}
    (h : s.pageBuffer.findIdx? (·.page = regionOf k address) = none)
    (hfull : k.pbSize ≤ s.pageBuffer.length) (hpb : s.pageBuffer = pb :: rest)
    (he : s.spt[learner k pb]? = some e)
    (hlearn : learn k nan s.bwBucket e (anchored k pb) = some e') :
    Goes k nan s pc address (rest ++ [⟨regionOf k address, pc, lineOf k address,
      Bitmap.set 0 (lineOf k address) true⟩]) (s.spt.set (learner k pb) e')

theorem goes_insertPage {r : DsPatch × List UInt64}
    (hmiss : s.pageBuffer.findIdx? (·.page = regionOf k address) = none)
    (hs : s.insertPage k nan pc (regionOf k address) (lineOf k address) = some r) :
    Goes k nan s pc address r.1.pageBuffer r.1.spt := by
  rw [insertPage, Option.bind_eq_some_iff] at hs
  obtain ⟨s₁, hroom, hs⟩ := hs
  obtain ⟨prefAddr, -, rfl⟩ := Option.map_eq_some_iff.1 hs
  have hbuffers : ∀ s₂ : DsPatch, (if k.enablePrefBuffer then (s₂.bufferPrefetch k prefAddr, [])
      else (s₂, prefAddr)).1.pageBuffer = s₂.pageBuffer ∧
      (if k.enablePrefBuffer then (s₂.bufferPrefetch k prefAddr, [])
      else (s₂, prefAddr)).1.spt = s₂.spt := by
    intro s₂
    split <;> exact ⟨rfl, rfl⟩
  rw [(hbuffers _).1, (hbuffers _).2]
  rw [makeRoom] at hroom
  split at hroom
  · rename_i hfull
    obtain ⟨pb, hpb, hadd⟩ := Option.bind_eq_some_iff.1 hroom
    rw [addToSpt] at hadd
    obtain ⟨e, he, hadd⟩ := Option.bind_eq_some_iff.1 hadd
    obtain ⟨e', hlearn, rfl⟩ := Option.map_eq_some_iff.1 hadd
    obtain ⟨rest, hrest⟩ := List.head?_eq_some_iff.1 hpb
    dsimp only
    rw [hrest]
    exact .evict hmiss hfull hrest he hlearn
  · rename_i hroom'
    rw [← Option.some.inj hroom]
    exact .room hmiss (Nat.lt_of_not_le hroom')

theorem goes_invoke {r : DsPatch × List UInt64}
    (hs : s.invokePrefetcher k nan pc address = some r) :
    Goes k nan s pc address r.1.pageBuffer r.1.spt := by
  rw [invokePrefetcher] at hs
  obtain ⟨r', haccess, rfl⟩ := Option.map_eq_some_iff.1 hs
  have hissues : (if k.enablePrefBuffer then r'.1.issuePrefetch k r'.2 else r').1.pageBuffer =
      r'.1.pageBuffer ∧
      (if k.enablePrefBuffer then r'.1.issuePrefetch k r'.2 else r').1.spt = r'.1.spt := by
    split <;> exact ⟨rfl, rfl⟩
  rw [hissues.1, hissues.2]
  rw [access] at haccess
  split at haccess
  · rename_i i hi
    rw [← Option.some.inj haccess]
    exact .hit hi
  · rename_i hmiss
    exact goes_insertPage hmiss haccess

/-! ## Runs -/

/-- The pages have lines of their region; an entry that has learned has patterns with lines, and the
patterns of another one are empty. -/
structure Inv (k : Knobs) (learned : List ℕ) (s : DsPatch) : Prop where
  pages : ∀ pb ∈ s.pageBuffer, Triggered k pb
  entries : s.spt.length = k.numSptEntries
  patterns : ∀ i e, s.spt[i]? = some e → i ∈ learned → Learned k e
  fresh : ∀ i e, s.spt[i]? = some e → i ∉ learned → e.bmpCov = 0 ∧ e.bmpAcc = 0

theorem inv_init (k : Knobs) : Inv k [] (DsPatch.init k) where
  pages pb hpb := absurd hpb List.not_mem_nil
  entries := List.length_replicate
  patterns i e _ hi := absurd hi List.not_mem_nil
  fresh i e he _ := by
    rw [DsPatch.init, List.getElem?_replicate, Option.ite_none_right_eq_some] at he
    rw [← Option.some.inj he.2]
    exact ⟨rfl, rfl⟩

theorem learner_lt (k : Knobs) (pb : PBEntry) : learner k pb < k.numSptEntries :=
  Nat.mod_lt _ k.numSptEntries_pos

theorem evicted_hit {i : ℕ} (h : s.pageBuffer.findIdx? (·.page = page) = some i) :
    s.evicted k page = none :=
  if_neg fun hmiss => by rw [h] at hmiss; exact absurd hmiss.1 (Option.some_ne_none i)

theorem evicted_room (h : s.pageBuffer.length < k.pbSize) : s.evicted k page = none :=
  if_neg fun hfull => Nat.not_le.2 h hfull.2

theorem evicted_full {rest : List PBEntry} (h : s.pageBuffer.findIdx? (·.page = page) = none)
    (hfull : k.pbSize ≤ s.pageBuffer.length) (hpb : s.pageBuffer = pb :: rest) :
    s.evicted k page = some pb := by
  rw [evicted, if_pos ⟨h, hfull⟩, hpb]
  rfl

theorem mem_of_evicted (h : s.evicted k page = some pb) : pb ∈ s.pageBuffer := by
  rw [evicted, Option.ite_none_right_eq_some] at h
  exact List.mem_of_mem_head? h.2

/-- One access: the page of a hit gets a line, a new page has one, and the entry of a page that leaves
learns it. -/
theorem Inv.goes (hk : Admissible k) (h : Inv k learned s)
    (hgoes : Goes k nan s pc address s'.pageBuffer s'.spt) :
    Inv k (s.learners k (regionOf k address) ++ learned) s' := by
  obtain ⟨buffer, table, _, _⟩ := s'
  dsimp only at hgoes
  cases hgoes with
  | @hit i hi =>
    rw [learners, evicted_hit hi]
    refine ⟨fun pb hpb => ?_, h.entries, h.patterns, h.fresh⟩
    obtain ⟨j, hj⟩ := List.mem_iff_getElem?.1 hpb
    rw [List.getElem?_modify] at hj
    obtain ⟨pb', hpb', rfl⟩ := Option.map_eq_some_iff.1 hj
    have hpage := h.pages pb' (List.mem_of_getElem? hpb')
    split
    · exact hpage.hit address
    · exact hpage
  | room _ hroom =>
    rw [learners, evicted_room hroom]
    refine ⟨fun pb hpb => ?_, h.entries, h.patterns, h.fresh⟩
    rcases List.mem_append.1 hpb with hpb | hpb
    · exact h.pages pb hpb
    · rw [List.mem_singleton.1 hpb]
      exact triggered_insert ..
  | @evict pb rest e e' hmiss hfull hpb he hlearn =>
    rw [learners, evicted_full hmiss hfull hpb]
    have hpage := h.pages pb (by rw [hpb]; exact List.mem_cons_self)
    obtain ⟨e'', hlearn', hlearned⟩ :=
      learned_learn hk nan s.bwBucket e hpage.anchored_nonempty hpage.anchored_within
    cases Option.some.inj (hlearn.symm.trans hlearn')
    refine ⟨fun pb' hpb' => ?_, ?_, fun i f hf hi => ?_, fun i f hf hi => ?_⟩
    · rcases List.mem_append.1 hpb' with hpb' | hpb'
      · exact h.pages pb' (by rw [hpb]; exact List.mem_cons_of_mem pb hpb')
      · rw [List.mem_singleton.1 hpb']
        exact triggered_insert ..
    · rw [List.length_set]
      exact h.entries
    · dsimp only at hf
      rw [List.getElem?_set] at hf
      split at hf
      · rw [Option.ite_none_right_eq_some] at hf
        rw [← Option.some.inj hf.2]
        exact hlearned
      · rename_i hne
        rcases List.mem_cons.1 hi with rfl | hi
        · exact absurd rfl hne
        · exact h.patterns i f hf hi
    · have hne : learner k pb ≠ i := fun heq => hi (List.mem_cons.2 (.inl heq.symm))
      rw [List.getElem?_set_ne hne] at hf
      exact h.fresh i f hf fun hmem => hi (List.mem_cons_of_mem _ hmem)

theorem Run.inv (hk : Admissible k) (h : Run k learned s) : Inv k learned s := by
  induction h with
  | init => exact inv_init k
  | access _ hs ih => exact ih.goes hk (goes_invoke hs)
  | updateBw _ hs ih =>
    rw [DsPatch.updateBw, Option.ite_none_right_eq_some] at hs
    rw [← Option.some.inj hs.2]
    exact ⟨ih.pages, ih.entries, ih.patterns, ih.fresh⟩

theorem measured_eq (k : Knobs) (e : SPTEntry) (pb : PBEntry) : measured k e pb =
    some (counts (anchored k pb) (lines k e.bmpCov) (lines k e.bmpAcc)) := by
  rw [measured, decompress_eq, Option.bind_some, decompress_eq]
  rfl

/-- Empty patterns have no lines. -/
theorem lines_zero (h : Admissible k) : lines k 0 = 0 := by
  refine BitVec.eq_of_getLsbD_eq fun i _ => ?_
  rw [Bool.eq_iff_iff, lines, getLsbD_spread h.pos]
  constructor
  · rintro ⟨-, -, hi⟩
    exact absurd hi (by rw [show (0 : Bitmap).getLsbD _ = false from BitVec.getLsbD_zero]; decide)
  · exact fun hi => absurd hi
      (by rw [show (0 : Bitmap).getLsbD _ = false from BitVec.getLsbD_zero]; decide)

/-- In every state of a run, an access divides by numbers that are not zero, with percentages from 0 to
100, if and only if the entry of the page that it evicts has learned a page before. -/
theorem dividesByNonzero_iff (k : Knobs) (hk : Admissible k) {learned : List ℕ} {s : DsPatch}
    (h : Run k learned s) (page : UInt64) : DividesByNonzero k s page ↔
      ∀ pb, s.evicted k page = some pb → learner k pb ∈ learned := by
  have hinv := h.inv hk
  constructor
  · intro hdivides pb hpb
    by_contra hout
    have hlt : learner k pb < s.spt.length := by
      rw [hinv.entries]
      exact learner_lt k pb
    have he := List.getElem?_eq_getElem hlt
    have hcounts := hdivides pb hpb _ he _ (measured_eq k _ pb)
    refine hcounts.popCov ?_
    rw [(hinv.fresh _ _ he hout).1, lines_zero hk]
    rfl
  · intro hlearned pb hpb e he c hc
    rw [measured_eq] at hc
    rw [← Option.some.inj hc]
    have hpage := hinv.pages pb (mem_of_evicted hpb)
    have hentry := hinv.patterns _ e he (hlearned pb hpb)
    exact defined_counts hpage.anchored_nonempty hentry.cov hentry.acc

/-- A page buffer for one page, and one entry. -/
def onePage : Knobs :=
  { blocksOfTwo with
    pbSize := 1
    numSptEntries := 1
    pbSize_pos := Nat.zero_lt_succ _
    numSptEntries_pos := Nat.zero_lt_succ _ }

/-- The state after an access to the first page. -/
def firstPage : DsPatch where
  pageBuffer := [⟨0, 0, 0, 1⟩]
  spt := [⟨0, 0, 0, 0, 0⟩]
  prefBuffer := []
  bwBucket := 0

/-- The state after another one, to the second page. -/
def secondPage : DsPatch where
  pageBuffer := [⟨1, 0, 0, 1⟩]
  spt := [⟨1, 1, 1, 1, 1⟩]
  prefBuffer := []
  bwBucket := 0

theorem run_firstPage : Run onePage [] firstPage :=
  Run.access Run.init (show (DsPatch.init onePage).invokePrefetcher onePage 0 0 0 =
    some (firstPage, []) from rfl)

theorem run_secondPage : Run onePage [0] secondPage :=
  Run.access run_firstPage (show firstPage.invokePrefetcher onePage 0 0 2048 =
    some (secondPage, [2112]) from rfl)

/-- The third page evicts the second, for the entry that has learned the first. -/
theorem dividesByNonzero_iff_third : DividesByNonzero onePage secondPage 2 ↔
    ∀ pb, secondPage.evicted onePage 2 = some pb → learner onePage pb ∈ [0] :=
  dividesByNonzero_iff onePage ⟨16, rfl⟩ run_secondPage 2

/-- The first page that an entry learns is compared with empty patterns. -/
theorem first_page_divides_by_zero : ¬ ∀ (k : Knobs), Admissible k → ∀ (learned : List ℕ)
    (s : DsPatch), Run k learned s → ∀ page, DividesByNonzero k s page := by
  intro h
  have hdivides := h onePage ⟨16, rfl⟩ [] firstPage run_firstPage 1
  have hcounts := hdivides ⟨0, 0, 0, 1⟩ rfl ⟨0, 0, 0, 0, 0⟩ rfl ⟨1, 0, 0, 0, 0⟩ rfl
  exact hcounts.popCov rfl

end

end DsPatch

end Arishem
