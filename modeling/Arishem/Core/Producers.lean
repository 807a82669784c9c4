import Mathlib.Data.Finset.Card
import Arishem.Core.Dependences
import Arishem.Core.Rotation

/-!
# The producers that `reg_dependency` finds

`reg_dependency` walks from the youngest older instruction to the oldest and passes over those that
have completed execution. The producer of a source is then the youngest writer of its register that
has not completed; it should be the youngest writer, when that one has not completed. The two agree
exactly as long as no writer of a source has completed before an older one.
-/

namespace Arishem

namespace O3Cpu

section
variable (cfg : CoreConfig)

/-- An instruction writes the register of a source. -/
def Writes (s : O3Cpu) (i : ℕ) (j : Fin numInstrSources) (p : ℕ) : Prop :=
  ∃ d, (s.rob.entry p).destinationRegisters d ≠ 0 ∧
    (s.rob.entry p).destinationRegisters d = (s.rob.entry i).sourceRegisters j

instance decidableWrites (s : O3Cpu) (i : ℕ) (j : Fin numInstrSources) (p : ℕ) :
    Decidable (s.Writes i j p) :=
  inferInstanceAs (Decidable (∃ _, _))

/-- The youngest of the older instructions that write the register of a source. -/
def YoungestWriter (s : O3Cpu) (i : ℕ) (j : Fin numInstrSources) (p : ℕ) : Prop :=
  s.Older cfg p i ∧ s.Writes i j p ∧
    ∀ q, s.Older cfg q i → s.Writes i j q → s.place cfg q ≤ s.place cfg p

/-- The instruction that a source has to wait for: the youngest writer of its register, unless that
one has completed execution. -/
def Producer (s : O3Cpu) (i : ℕ) (j : Fin numInstrSources) (p : ℕ) : Prop :=
  (s.rob.entry i).sourceRegisters j ≠ 0 ∧ s.YoungestWriter cfg i j p ∧
    (s.rob.entry p).executed ≠ .completed

/-- No dependence of the instruction was looked for yet. -/
def Undecided (s : O3Cpu) (i : ℕ) : Prop := ∀ j, (s.rob.entry i).regRawChecked j = false

open Classical in
/-- After `reg_dependency` each source is recorded at its producer, if it has one and nowhere else; a
source without a producer is ready, and the others are counted. -/
structure RightProducers (s : O3Cpu) (i : ℕ) : Prop where
  recorded : ∀ p j, i ∈ ((s.regDependency cfg i).rob.entry p).registersIndexDependOnMe j ↔
    i ∈ (s.rob.entry p).registersIndexDependOnMe j ∨ s.Producer cfg i j p
  checked : ∀ j, ((s.regDependency cfg i).rob.entry i).regRawChecked j = true ↔
    ∃ p, s.Producer cfg i j p
  count : ((s.regDependency cfg i).rob.entry i).numRegDependent =
    (s.rob.entry i).numRegDependent +
      (Finset.univ.filter fun j => ∃ p, s.Producer cfg i j p).card
  ready : ((s.regDependency cfg i).rob.entry i).regReady = true ↔
    (s.rob.entry i).regReady = true ∧ ∀ j p, ¬ s.Producer cfg i j p

/-- The instruction at which the walk records a source: the first writer of its register that has
not completed. -/
def found (s : O3Cpu) (i : ℕ) (j : Fin numInstrSources) : Option ℕ :=
  if s.needsProducer i j then
    (s.priors cfg i).find? fun p => (s.rob.entry p).executed ≠ .completed ∧ s.Writes i j p
  else none

/-- When the youngest writer of a source has completed, all older writers have. -/
def CompletesInOrder (s : O3Cpu) (i : ℕ) : Prop :=
  ∀ j, (s.rob.entry i).sourceRegisters j ≠ 0 → ∀ p, s.YoungestWriter cfg i j p →
    (s.rob.entry p).executed = .completed →
      ∀ q, s.Older cfg q i → s.Writes i j q → (s.rob.entry q).executed = .completed

end

section
variable {cfg : CoreConfig} {s t u : O3Cpu} {i p : ℕ} {j : Fin numInstrSources}
  {f g : Fin numInstrSources → Option ℕ}

/-! ## What a loop records -/

/-- The sources that `f` gives a producer are recorded there, and nothing else has changed. -/
structure Marked (i : ℕ) (f : Fin numInstrSources → Option ℕ) (s t : O3Cpu) : Prop where
  recorded : ∀ p j, i ∈ (t.rob.entry p).registersIndexDependOnMe j ↔
    i ∈ (s.rob.entry p).registersIndexDependOnMe j ∨ f j = some p
  checked : ∀ j, (t.rob.entry i).regRawChecked j =
    ((s.rob.entry i).regRawChecked j || (f j).isSome)
  count : (t.rob.entry i).numRegDependent =
    (s.rob.entry i).numRegDependent + (Finset.univ.filter fun j => (f j).isSome = true).card
  ready : (t.rob.entry i).regReady = true ↔
    (s.rob.entry i).regReady = true ∧ ∀ j, f j = none
  sources : (t.rob.entry i).sourceRegisters = (s.rob.entry i).sourceRegisters
  kept : ∀ k, (t.rob.entry k).destinationRegisters = (s.rob.entry k).destinationRegisters ∧
    (t.rob.entry k).executed = (s.rob.entry k).executed

theorem Marked.refl (i : ℕ) (s : O3Cpu) : Marked i (fun _ => none) s s :=
  ⟨by simp, by simp, by simp, by simp, rfl, fun _ => ⟨rfl, rfl⟩⟩

/-- One loop after the other, when they record different sources. -/
theorem Marked.trans (h : Marked i f s t) (h' : Marked i g t u)
    (hfg : ∀ j, (g j).isSome = true → f j = none) :
    Marked i (fun j => (f j).or (g j)) s u := by
  have hor : ∀ j p, (f j).or (g j) = some p ↔ f j = some p ∨ g j = some p := by
    intro j p
    cases hf : f j with
    | none => simp
    | some q =>
      have hg : g j = none := by
        by_contra hg
        have := hfg j (Option.isSome_iff_ne_none.2 hg)
        rw [hf] at this
        cases this
      simp [hg]
  refine ⟨fun p j => ?_, fun j => ?_, ?_, ?_, h'.sources.trans h.sources, fun k => ?_⟩
  · rw [h'.recorded, h.recorded, hor, or_assoc]
  · rw [h'.checked, h.checked, Bool.or_assoc]
    cases f j <;> simp
  · have hdisj : Disjoint (Finset.univ.filter fun j => (f j).isSome = true)
        (Finset.univ.filter fun j => (g j).isSome = true) := by
      rw [Finset.disjoint_filter]
      intro j _ hf hg
      rw [hfg j hg] at hf
      cases hf
    have hunion : (Finset.univ.filter fun j => ((f j).or (g j)).isSome = true) =
        (Finset.univ.filter fun j => (f j).isSome = true) ∪
          (Finset.univ.filter fun j => (g j).isSome = true) := by
      ext j
      simp
    rw [h'.count, h.count, hunion, Finset.card_union_of_disjoint hdisj, Int.natCast_add,
      Int.add_assoc]
  · rw [h'.ready, h.ready, and_assoc]
    refine and_congr_right fun _ => ?_
    simp only [Option.or_eq_none_iff, forall_and]
  · exact ⟨(h'.kept k).1.trans (h.kept k).1, (h'.kept k).2.trans (h.kept k).2⟩

/-- `reg_RAW_dependency` for a source whose register the instruction writes. -/
theorem marked_markRegRaw (hne : p ≠ i) (j : Fin numInstrSources) (s : O3Cpu) :
    Marked i (Function.update (fun _ => none) j (some p)) s (s.markRegRaw p i j) := by
  have hupdate : ∀ j' q, (Function.update (fun _ => none) j (some p) :
      Fin numInstrSources → Option ℕ) j' = some q ↔ q = p ∧ j' = j := by
    intro j' q
    by_cases hj : j' = j
    · subst hj
      simp [eq_comm]
    · simp [hj]
  have hself := entry_markRegRaw (s := s) (j := j) hne i
  rw [if_pos rfl] at hself
  refine ⟨fun q j' => ?_, fun j' => ?_, ?_, ?_, ?_, fun k => ?_⟩
  · rw [mem_index_markRegRaw hne, hupdate]
    simp
  · rw [hself]
    by_cases hj : j' = j
    · subst hj
      simp
    · simp [hj]
  · have hone : (Finset.univ.filter fun j' : Fin numInstrSources =>
        ((Function.update (fun _ => none) j (some p) : Fin numInstrSources → Option ℕ)
          j').isSome = true) = {j} := by
      ext j'
      by_cases hj : j' = j
      · subst hj
        simp
      · simp [hj]
    rw [hself, hone, Finset.card_singleton]
    rfl
  · rw [hself]
    refine iff_of_false (by simp) fun h => ?_
    have := h.2 j
    rw [Function.update_self] at this
    cases this
  · rw [hself]
  · rw [entry_markRegRaw hne]
    split
    · rename_i hk
      exact ⟨hk ▸ rfl, hk ▸ rfl⟩
    · split
      · rename_i hk
        exact ⟨hk ▸ rfl, hk ▸ rfl⟩
      · exact ⟨rfl, rfl⟩

theorem Marked.writes (h : Marked i f s t) (j : Fin numInstrSources) (p : ℕ) :
    t.Writes i j p ↔ s.Writes i j p := by
  rw [Writes, Writes, h.sources, (h.kept p).1]

/-- A source that a loop does not record still needs a producer when it did before. -/
theorem Marked.needsProducer (h : Marked i f s t) (j : Fin numInstrSources) :
    t.needsProducer i j ↔ s.needsProducer i j ∧ f j = none := by
  rw [O3Cpu.needsProducer, O3Cpu.needsProducer, h.sources, h.checked, Bool.or_eq_false_iff,
    Option.isSome_eq_false_iff, Option.isNone_iff_eq_none, and_assoc]

theorem Marked.congr (h : Marked i f s t) (hf : f = g) : Marked i g s t := hf ▸ h

/-- The loop over the sources records those that need a producer and read what the instruction
writes. -/
theorem marked_sources (hne : p ≠ i) (js : List (Fin numInstrSources)) (hn : js.Nodup)
    (s : O3Cpu) :
    Marked i (fun j => if j ∈ js ∧ s.needsProducer i j ∧ s.Writes i j p then some p else none) s
      (js.foldl (fun s j => if s.needsProducer i j then s.regRawDependency p i j else s) s) := by
  induction js generalizing s with
  | nil => exact (Marked.refl i s).congr (by simp)
  | cons j js ih =>
    obtain ⟨hj, hn⟩ := List.nodup_cons.1 hn
    rw [List.foldl_cons]
    by_cases hw : s.needsProducer i j ∧ s.Writes i j p
    · -- the source is recorded, and the others are as before
      have hstep : (if s.needsProducer i j then s.regRawDependency p i j else s) =
          s.markRegRaw p i j := by
        rw [if_pos hw.1, regRawDependency]
        exact if_pos hw.2
      rw [hstep]
      have hmark := marked_markRegRaw hne j s
      have hrest := ih hn (s.markRegRaw p i j)
      have hother : ∀ j' ∈ js, (Function.update (fun _ => none) j (some p) :
          Fin numInstrSources → Option ℕ) j' = none := by
        intro j' hj'
        have hne' : j' ≠ j := by
          rintro rfl
          exact hj hj'
        rw [Function.update_of_ne hne']
      refine (hmark.trans hrest fun j' hj' => ?_).congr (funext fun j' => ?_)
      · refine hother j' ?_
        by_contra hnot
        simp [hnot] at hj'
      · by_cases hjj : j' = j
        · subst hjj
          simp [hw]
        · rw [Function.update_of_ne hjj, Option.none_or]
          simp only [hmark.needsProducer, hmark.writes, Function.update_of_ne hjj, and_true,
            List.mem_cons, hjj, false_or]
    · have hstep : (if s.needsProducer i j then s.regRawDependency p i j else s) = s := by
        split
        · rename_i hneed
          rw [regRawDependency]
          exact if_neg fun h => hw ⟨hneed, h⟩
        · rfl
      rw [hstep]
      refine (ih hn s).congr (funext fun j' => ?_)
      by_cases hjj : j' = j
      · subst hjj
        rw [if_neg fun h => hj h.1, if_neg fun h => hw h.2]
      · simp [hjj]

/-- The walk over older instructions records each source that needs a producer at the first one that
writes its register and has not completed. -/
theorem marked_priors (ps : List ℕ) (hne : ∀ p ∈ ps, p ≠ i) (s : O3Cpu) :
    Marked i (fun j => if s.needsProducer i j then
        ps.find? fun p => (s.rob.entry p).executed ≠ .completed ∧ s.Writes i j p else none) s
      (ps.foldl (fun s p =>
        if (s.rob.entry p).executed ≠ .completed then
          (List.finRange numInstrSources).foldl (fun s j =>
            if s.needsProducer i j then s.regRawDependency p i j else s) s
        else s) s) := by
  induction ps generalizing s with
  | nil => exact (Marked.refl i s).congr (by simp)
  | cons p ps ih =>
    have hrest := ih fun q hq => hne q (List.mem_cons_of_mem p hq)
    rw [List.foldl_cons]
    by_cases hexec : (s.rob.entry p).executed = .completed
    · rw [if_neg (not_not.2 hexec)]
      exact (hrest s).congr (funext fun j => by simp [hexec])
    · rw [if_pos hexec]
      have hmark := marked_sources (hne p (List.mem_cons_self ..)) (List.finRange numInstrSources)
        (List.nodup_finRange _) s
      generalize (List.finRange numInstrSources).foldl (fun s j =>
        if s.needsProducer i j then s.regRawDependency p i j else s) s = t at hmark ⊢
      refine (hmark.trans (hrest t) fun j hj => ?_).congr (funext fun j => ?_)
      · by_contra hsome
        rw [if_neg fun h => hsome ((hmark.needsProducer j).1 h).2] at hj
        cases hj
      · simp only [List.mem_finRange, true_and, hmark.needsProducer, hmark.writes,
          (hmark.kept _).2, List.find?_cons]
        by_cases hneed : s.needsProducer i j
        · by_cases hw : s.Writes i j p
          · simp [hneed, hw, hexec]
          · simp [hneed, hw]
        · simp [hneed]

/-! ## The youngest first -/

/-- The last of the places that satisfy a predicate is found first from the end. -/
theorem find?_reverse_map_range {α : Type*} (f : ℕ → α) (P : α → Bool) (n : ℕ) (a : α) :
    ((List.range n).map f).reverse.find? P = some a ↔
      ∃ k < n, f k = a ∧ P a = true ∧ ∀ k', k < k' → k' < n → P (f k') = false := by
  induction n with
  | zero => simp
  | succ n ih =>
    rw [List.range_succ, List.map_append, List.reverse_append]
    simp only [List.map_cons, List.map_nil, List.reverse_singleton, List.singleton_append,
      List.find?_cons]
    cases hP : P (f n) with
    | true =>
      constructor
      · intro h
        obtain rfl := Option.some.inj h
        exact ⟨n, Nat.lt_succ_self n, rfl, hP, fun k' hk hk' => by omega⟩
      · rintro ⟨k, hk, rfl, -, hlast⟩
        rcases (Nat.lt_succ_iff.1 hk).lt_or_eq with hlt | rfl
        · exact absurd (hlast n hlt (Nat.lt_succ_self n)) (by simp [hP])
        · rfl
    | false =>
      refine ih.trans ⟨?_, ?_⟩
      · rintro ⟨k, hk, hfa, ha, hlast⟩
        refine ⟨k, hk.trans (Nat.lt_succ_self n), hfa, ha, fun k' hk' hn => ?_⟩
        rcases (Nat.lt_succ_iff.1 hn).lt_or_eq with hlt | rfl
        · exact hlast k' hk' hlt
        · exact hP
      · rintro ⟨k, hk, rfl, ha, hlast⟩
        rcases (Nat.lt_succ_iff.1 hk).lt_or_eq with hlt | rfl
        · exact ⟨k, hlt, rfl, ha, fun k' hk' hn => hlast k' hk' (hn.trans (Nat.lt_succ_self n))⟩
        · exact absurd ha (by simp [hP])

/-- The walk visits the places before the instruction, the youngest first. -/
theorem priors_eq (hr : s.RingOk cfg) (hi : i < cfg.robSize) : s.priors cfg i =
    ((List.range (s.place cfg i)).map (Ring.index cfg.robSize s.rob.head)).reverse := by
  have hh := hr.head_lt
  by_cases hne : i = s.rob.head
  · subst hne
    simp [priors]
  -- the slot before the first one is the last
  obtain ⟨q, hq, hq'⟩ : ∃ q, (if i = 0 then cfg.robSize - 1 else i - 1) = q ∧
      (i = 0 ∧ q + 1 = cfg.robSize ∨ 0 < i ∧ q + 1 = i) := by
    refine ⟨_, rfl, ?_⟩
    split <;> omega
  have hspan : Ring.span cfg.robSize s.rob.head (q + 1) = s.place cfg i := by
    simp only [place, Ring.place, Ring.span]
    split <;> split <;> omega
  have hle : q + 1 ≤ cfg.robSize := by omega
  rw [← hspan, ← Ring.scan_eq hh hle, priors, if_neg hne, hq, Ring.scan]
  by_cases hlt : s.rob.head < q + 1
  · rw [if_pos hlt]
    exact if_pos (Nat.lt_succ_iff.1 hlt)
  · rw [if_neg hlt, List.reverse_append]
    exact if_neg fun h => hlt (Nat.lt_succ_iff.2 h)

theorem older_iff_index (hr : s.RingOk cfg) (hi : s.Live cfg i) :
    s.Older cfg p i ↔ ∃ k < s.place cfg i, Ring.index cfg.robSize s.rob.head k = p := by
  have hlt := @Ring.place_lt cfg.robSize s.rob.head i hi.1
  constructor
  · exact fun h => ⟨s.place cfg p, h.2.1, Ring.index_place hr.head_lt h.1⟩
  · rintro ⟨k, hk, rfl⟩
    have hk' : k < cfg.robSize := hk.trans hlt
    refine ⟨Ring.index_lt hr.head_lt hk', ?_, hi⟩
    rw [place, Ring.place_index hr.head_lt hk']
    exact hk

/-- The first instruction that the walk finds is the youngest of its kind. -/
theorem find_priors_iff (hr : s.RingOk cfg) (hi : s.Live cfg i) (P : ℕ → Bool) :
    (s.priors cfg i).find? P = some p ↔ s.Older cfg p i ∧ P p = true ∧
      ∀ q, s.Older cfg q i → P q = true → s.place cfg q ≤ s.place cfg p := by
  have hh := hr.head_lt
  have hlt := @Ring.place_lt cfg.robSize s.rob.head i hi.1
  rw [priors_eq hr hi.1, find?_reverse_map_range, older_iff_index hr hi]
  constructor
  · rintro ⟨k, hk, rfl, hp, hlast⟩
    refine ⟨⟨k, hk, rfl⟩, hp, fun q hq hPq => ?_⟩
    rw [place, place, Ring.place_index hh (hk.trans hlt)]
    by_contra hgt
    have hno := hlast _ (not_le.1 hgt) hq.2.1
    rw [Ring.index_place hh hq.1, hPq] at hno
    cases hno
  · rintro ⟨⟨k, hk, rfl⟩, hp, hmax⟩
    refine ⟨k, hk, rfl, hp, fun k' hk' hlt' => ?_⟩
    by_contra hPk
    have hle := hmax _ ((older_iff_index hr hi).2 ⟨k', hlt', rfl⟩) (Bool.not_eq_false _ ▸ hPk)
    rw [place, place, Ring.place_index hh (hk.trans hlt),
      Ring.place_index hh (hlt'.trans hlt)] at hle
    omega

/-- Of the older instructions of a kind, if there are any, one is the youngest. -/
theorem exists_youngest (hr : s.RingOk cfg) (hi : s.Live cfg i) {P : ℕ → Bool} {q : ℕ}
    (hq : s.Older cfg q i) (hP : P q = true) : ∃ p, s.Older cfg p i ∧ P p = true ∧
      ∀ q, s.Older cfg q i → P q = true → s.place cfg q ≤ s.place cfg p := by
  have hmem : q ∈ s.priors cfg i := by
    obtain ⟨k, hk, hqk⟩ := (older_iff_index hr hi).1 hq
    rw [priors_eq hr hi.1, List.mem_reverse]
    exact List.mem_map.2 ⟨k, List.mem_range.2 hk, hqk⟩
  obtain ⟨p, hp⟩ := Option.isSome_iff_exists.1 (List.find?_isSome.2 ⟨q, hmem, hP⟩)
  exact ⟨p, (find_priors_iff hr hi P).1 hp⟩

/-! ## The producers -/

/-- What `reg_dependency` records. -/
theorem marked_regDependency (hr : s.RingOk cfg) (hi : s.Live cfg i) :
    Marked i (s.found cfg i) s (s.regDependency cfg i) :=
  marked_priors _ (fun _ hp => (older_of_mem_priors hr hi hp).ne) s

theorem found_iff (hr : s.RingOk cfg) (hi : s.Live cfg i) (hu : s.Undecided i) :
    s.found cfg i j = some p ↔ (s.rob.entry i).sourceRegisters j ≠ 0 ∧ s.Older cfg p i ∧
      ((s.rob.entry p).executed ≠ .completed ∧ s.Writes i j p) ∧
      ∀ q, s.Older cfg q i → (s.rob.entry q).executed ≠ .completed → s.Writes i j q →
        s.place cfg q ≤ s.place cfg p := by
  rw [found]
  by_cases hsrc : (s.rob.entry i).sourceRegisters j ≠ 0
  · rw [if_pos ⟨hsrc, hu j⟩, find_priors_iff hr hi]
    simp only [decide_eq_true_eq, and_imp, hsrc, true_and, ne_eq, not_false_eq_true]
  · rw [if_neg fun h => hsrc h.1]
    exact iff_of_false (by simp) fun h => hsrc h.1

/-- As long as no writer of a source completes before an older one, the walk finds the producer. -/
theorem found_iff_producer (hr : s.RingOk cfg) (hi : s.Live cfg i) (hu : s.Undecided i)
    (hc : s.CompletesInOrder cfg i) : s.found cfg i j = some p ↔ s.Producer cfg i j p := by
  rw [found_iff hr hi hu]
  constructor
  · rintro ⟨hsrc, hold, ⟨hexec, hw⟩, hmax⟩
    refine ⟨hsrc, ⟨hold, hw, fun q hq hqw => ?_⟩, hexec⟩
    -- the youngest writer is not younger than the one found: it would have completed
    obtain ⟨y, hy, hyw, hymax⟩ := exists_youngest hr hi (P := fun p => s.Writes i j p) hq
      (decide_eq_true hqw)
    have hyw : s.Writes i j y := of_decide_eq_true hyw
    have hyoungest : s.YoungestWriter cfg i j y :=
      ⟨hy, hyw, fun q hq hqw => hymax q hq (decide_eq_true hqw)⟩
    have hyexec : (s.rob.entry y).executed ≠ .completed := fun hdone =>
      hexec (hc j hsrc y hyoungest hdone p hold hw)
    exact (hyoungest.2.2 q hq hqw).trans (hmax y hy hyexec hyw)
  · rintro ⟨hsrc, ⟨hold, hw, hmax⟩, hexec⟩
    exact ⟨hsrc, hold, ⟨hexec, hw⟩, fun q hq _ hqw => hmax q hq hqw⟩

/-- `reg_dependency` makes each source depend on the youngest older writer of its register, unless
that one has completed, exactly when no writer of a source has completed before an older one. -/
theorem rightProducers_iff (hr : s.RingOk cfg) (hi : s.Live cfg i) (hu : s.Undecided i) :
    s.RightProducers cfg i ↔ s.CompletesInOrder cfg i := by
  have hmark := marked_regDependency hr hi
  have hcheck : ∀ j, ((s.regDependency cfg i).rob.entry i).regRawChecked j = true ↔
      ∃ p, s.found cfg i j = some p := by
    intro j
    rw [hmark.checked, hu j, Bool.false_or, Option.isSome_iff_exists]
  constructor
  · intro h j hsrc p hp hdone q hq hw
    by_contra hexec
    -- the walk finds a writer that has not completed, so that the source would need a producer
    have hsome : s.found cfg i j ≠ none := by
      rw [found, if_pos ⟨hsrc, hu j⟩]
      obtain ⟨y, hy⟩ := exists_youngest hr hi
        (P := fun p => (s.rob.entry p).executed ≠ .completed ∧ s.Writes i j p) hq
        (decide_eq_true ⟨hexec, hw⟩)
      rw [(find_priors_iff hr hi _).2 hy]
      exact Option.some_ne_none y
    obtain ⟨y, -, hy, hyexec⟩ :=
      (h.checked j).1 ((hcheck j).2 (Option.ne_none_iff_exists'.1 hsome))
    have hplace := le_antisymm (hy.2.2 p hp.1 hp.2.1) (hp.2.2 y hy.1 hy.2.1)
    obtain rfl := hr.eq_of_place hp.1.1 hy.1.1 hplace
    exact hyexec hdone
  · intro hc
    have hfound : ∀ j p, s.found cfg i j = some p ↔ s.Producer cfg i j p := fun j p =>
      found_iff_producer hr hi hu hc
    have hnone : ∀ j, s.found cfg i j = none ↔ ∀ p, ¬ s.Producer cfg i j p := by
      intro j
      rw [Option.eq_none_iff_forall_not_mem]
      exact forall_congr' fun p => not_congr (hfound j p)
    refine ⟨fun p j => ?_, fun j => ?_, ?_, ?_⟩
    · rw [hmark.recorded, hfound]
    · rw [hcheck]
      exact exists_congr (hfound j)
    · classical
      rw [hmark.count]
      refine congrArg (fun n : ℕ => _ + (n : ℤ)) (congrArg Finset.card ?_)
      refine Finset.filter_congr fun j _ => ?_
      rw [Option.isSome_iff_exists]
      exact exists_congr (hfound j)
    · rw [hmark.ready]
      exact and_congr_right fun _ => forall_congr' hnone

end

/-! ## Two writers of a register -/

/-- A core with two writers of a register, the older one in execution, and an instruction that reads
it. -/
def twoWriters (younger : Progress) : O3Cpu :=
  let writer : RobEntry :=
    { RobEntry.empty with
      scheduled := .completed
      executed := .inflight
      destinationRegisters := fun d => if d.val = 0 then 1 else 0 }
  let reader : RobEntry :=
    { RobEntry.empty with
      fetched := .completed
      sourceRegisters := fun j => if j.val = 0 then 1 else 0 }
  { O3Cpu.init with
    rob :=
      { head := 0
        tail := 3
        occupancy := 3
        nextFetch := 0
        nextSchedule := 2
        entry := fun k =>
          match k with
          | 0 => writer
          | 1 => { writer with executed := younger }
          | 2 => reader
          | _ => .empty } }

theorem ringOk_twoWriters (younger : Progress) : (twoWriters younger).RingOk fourSlots :=
  ⟨Nat.zero_lt_succ 3, Nat.le_succ 3, rfl⟩

theorem live_twoWriters (younger : Progress) : (twoWriters younger).Live fourSlots 2 :=
  ⟨by decide, Nat.lt_succ_self 2⟩

theorem undecided_twoWriters (younger : Progress) : (twoWriters younger).Undecided 2 :=
  fun _ => rfl

/-- The reader waits for the younger writer while that one is in execution. -/
theorem rightProducers_iff_twoWriters :
    ((twoWriters .inflight).RightProducers fourSlots 2 ↔
      (twoWriters .inflight).CompletesInOrder fourSlots 2) ∧
    2 ∈ (((twoWriters .inflight).regDependency fourSlots 2).rob.entry
      1).registersIndexDependOnMe 0 :=
  ⟨rightProducers_iff (ringOk_twoWriters .inflight) (live_twoWriters .inflight)
    (undecided_twoWriters .inflight), by decide⟩

/-- The younger writer has completed, and the reader is made to wait for the older one. -/
theorem reader_waits_for_older :
    ¬ ∀ (cfg : CoreConfig) (s : O3Cpu) (i : ℕ), s.RingOk cfg → s.Live cfg i → s.Undecided i →
      s.RightProducers cfg i := by
  intro h
  have hright := h fourSlots (twoWriters .completed) 2 (ringOk_twoWriters .completed)
    (live_twoWriters .completed) (undecided_twoWriters .completed)
  have hrec : 2 ∈ (((twoWriters .completed).regDependency fourSlots 2).rob.entry
      0).registersIndexDependOnMe 0 := by decide
  have hnew : 2 ∉ ((twoWriters .completed).rob.entry 0).registersIndexDependOnMe 0 := by decide
  obtain ⟨-, ⟨-, -, hyoungest⟩, -⟩ := ((hright.recorded 0 0).1 hrec).resolve_left hnew
  have hle := hyoungest 1 ⟨by decide, by decide, live_twoWriters .completed⟩ (by decide)
  exact absurd hle (by decide)

end O3Cpu

end Arishem
