import Arishem.Prefetchers.Sandbox
import Mathlib.Algebra.Order.Ring.Int

/-!
# Rounds

No offset is lost: the evaluated offsets and the others are always the offsets from -16 to 16, and a
round gives each of its sixteen offsets a phase in turn. A run keeps what its accesses were, the last
one first.
-/

namespace Arishem

namespace Sandbox

section
variable {F : Type} (k : Knobs) (b : BloomFilter F) (sort : Sorting)

/-- What an access was: the offset it evaluated, the hits it counted, whether it was the first of a
phase, and which offsets came in with it. -/
structure Turn where
  offset : Int32
  hits : ℕ
  first : Bool
  cameIn : List Int32

/-- The turn of an access. -/
def turn (s : Sandbox F) (address : UInt64) : Turn where
  offset := s.evaluates
  hits := s.filterHits k b address
  first := s.totalDemand = 0
  cameIn :=
    if s.totalDemand + 1 = k.numAccessInPhase.toNat ∧ s.evaluatedOffsets.length ≤ s.currPtr + 1 then
      (s.counted k b address).cycledIn k sort
    else []

/-- The runs: sequences of accesses from the constructor on. -/
inductive Run : List Turn → Sandbox F → Prop
  | init : Run [] (init b)
  | access {turns : List Turn} {s s' : Sandbox F} {address : UInt64} {prefetches : Prefetches}
    (h : Run turns s) (hs : s.invokePrefetcher k b sort address = .ok (s', prefetches)) :
    Run (s.turn k b sort address :: turns) s'

/-- The run of some accesses. -/
def run (accesses : List UInt64) : Except Stop (List Turn × Sandbox F) :=
  accesses.foldlM (fun r address => (r.2.invokePrefetcher k b sort address).map fun next =>
    (r.2.turn k b sort address :: r.1, next.1)) ([], init b)

/-- The offsets of both lists. -/
def allOffsets (s : Sandbox F) : List Int32 :=
  s.evaluatedOffsets.map (·.offset) ++ s.nonEvaluatedOffsets

/-- The evaluated offsets and the others are the offsets from -16 to 16, with sixteen of them
evaluated. -/
structure Whole (s : Sandbox F) : Prop where
  nodup : s.allOffsets.Nodup
  mem : ∀ o : Int32, o ∈ s.allOffsets ↔
    -16 ≤ o.toInt ∧ o.toInt ≤ -1 ∨ 1 ≤ o.toInt ∧ o.toInt ≤ 16
  size : s.evaluatedOffsets.length = 16
  ptr : s.currPtr < 16

/-- The accesses of the last round: each of its offsets is evaluated in turn, for as many accesses as
a phase has. -/
def InTurn (turns : List Turn) : Prop :=
  ∃ current earlier, ∃ start : Sandbox F, turns = current ++ earlier ∧ Run k b sort earlier start ∧
    16 * k.numAccessInPhase.toNat ∣ earlier.length ∧
    current.length ≤ 16 * k.numAccessInPhase.toNat ∧ (turns ≠ [] → current ≠ []) ∧
    ∀ i < current.length, (current.reverse.map (·.offset))[i]? =
      (start.evaluatedOffsets.map (·.offset))[i / k.numAccessInPhase.toNat]?

/-- The loops over the strides and the lookaheads end. -/
def LoopsEnd : Prop := k.enableStreamDetect = true → k.streamDetectLength.toNat + 2 < 2 ^ 32

end

section
variable {F : Type} {k : Knobs} {b : BloomFilter F} {sort : Sorting}
variable {s s' : Sandbox F} {address : UInt64} {turns : List Turn} {prefetches : Prefetches}

/-! ## One access -/

/-- What an access does to the offsets: it goes on in the phase, or ends it, or ends the round. -/
inductive Goes (k : Knobs) (sort : Sorting) (s : Sandbox F) : Sandbox F → Prop
  | on {bf : F} (hN : s.totalDemand ≠ k.numAccessInPhase.toNat) : Goes k sort s { s with bf := bf }
  | next {bf : F} (hN : s.totalDemand = k.numAccessInPhase.toNat)
    (hptr : s.currPtr + 1 < s.evaluatedOffsets.length) :
    Goes k sort s { s with currPtr := s.currPtr + 1, totalDemand := 0, bf := bf }
  | around {bf : F} (hN : s.totalDemand = k.numAccessInPhase.toNat)
    (hptr : s.evaluatedOffsets.length ≤ s.currPtr + 1) :
    Goes k sort s {
      evaluatedOffsets :=
        (sort.byScore s.evaluatedOffsets).take (s.evaluatedOffsets.length - k.numCycleOffsets) ++
          (s.cycledIn k sort).map fun offset => ⟨offset, 0⟩
      nonEvaluatedOffsets :=
        (s.nonEvaluatedOffsets ++ s.cycledOut k sort).drop k.numCycleOffsets
      currPtr := 0
      totalDemand := 0
      bf := bf }

/-- Step 2 changes the filter only. -/
theorem step2_eq (s : Sandbox F) (address : UInt64) :
    ∃ bf, s.step2 b address = { s with bf := bf } := by
  rw [step2]
  split
  · exact ⟨_, rfl⟩
  · exact ⟨s.bf, rfl⟩

/-- Why an access does not return. -/
inductive Stops (k : Knobs) (sort : Sorting) (s : Sandbox F) : Stop → Prop
  | assertion (h : s.evaluatedOffsets.length ≠ 16 ∨ s.evaluatedOffsets.length ≤ s.currPtr) :
    Stops k sort s .assertion
  | zero {s' : Sandbox F} (hgoes : Goes k sort s s') (h : ∃ x ∈ s'.evaluatedOffsets, x.offset = 0) :
    Stops k sort s .assertion
  | undefined
    (h : (s.nonEvaluatedOffsets ++ s.cycledOut k sort).length < k.numCycleOffsets) :
    Stops k sort s .undefined
  | endless (h : ¬ LoopsEnd k) : Stops k sort s .endless

/-- Step 1 changes a score only. -/
theorem counted_offsets (s : Sandbox F) (address : UInt64) :
    (s.counted k b address).evaluatedOffsets.map (·.offset) =
      s.evaluatedOffsets.map (·.offset) := by
  refine List.ext_getElem? fun i => ?_
  rw [counted, List.getElem?_map, List.getElem?_map, List.getElem?_modify]
  cases s.evaluatedOffsets[i]? with
  | none => rfl
  | some x =>
    dsimp only [Option.map_eq_map, Option.map_some]
    split <;> rfl

theorem length_counted (s : Sandbox F) (address : UInt64) :
    (s.counted k b address).evaluatedOffsets.length = s.evaluatedOffsets.length := by
  rw [counted, List.length_modify]

theorem step1_ends (s : Sandbox F) (address : UInt64) :
    Ends (s.step1 k b address) (· = s.counted k b address)
      (Stops k sort (s.counted k b address)) := by
  have hlast : (UInt32.ofNat (2 ^ 32 - 1)).toNat = 2 ^ 32 - 1 := rfl
  rw [step1]
  split
  · rename_i hloop
    refine .error (.endless fun hends => ?_)
    have hlt := hends hloop.2.1
    rw [hloop.2.2, hlast] at hlt
    omega
  · exact .ok rfl

theorem step3_ends (s : Sandbox F) (bf : F) :
    Ends (step3 k b sort { s with bf := bf }) (Goes k sort s) (Stops k sort s) := by
  rw [step3]
  split
  · rename_i hN
    split
    · rename_i hptr
      exact .ok (.next hN hptr)
    · rename_i hptr
      rw [endOfRound]
      split
      · rename_i hfew
        exact .error (.undefined hfew)
      · exact .ok (.around hN (Nat.le_of_not_lt hptr))
  · rename_i hN
    exact .ok (.on hN)

theorem step4_ends (hgoes : Goes k sort s s') (address : UInt64) :
    Ends (s'.step4 k sort address) (fun p => s'.step4 k sort address = .ok p)
      (Stops k sort s) := by
  have hlast : (UInt32.ofNat (2 ^ 32 - 1)).toNat = 2 ^ 32 - 1 := rfl
  generalize h4 : s'.step4 k sort address = e
  cases e with
  | ok p => exact .ok rfl
  | error stop =>
    rw [Ends.error_iff]
    unfold step4 at h4
    split at h4
    · rename_i hzero
      cases h4
      exact .zero hgoes hzero
    · split at h4
      · rename_i hloop
        cases h4
        refine .endless fun hends => ?_
        have hlt := hends hloop.1
        have hnat := congrArg UInt32.toNat hloop.2
        rw [UInt32.toNat_add, hlast, UInt32.toNat_one] at hnat
        omega
      · cases h4

/-- What an access does. -/
theorem invoke_ends (s : Sandbox F) (address : UInt64) :
    Ends (s.invokePrefetcher k b sort address)
      (fun r => s.evaluatedOffsets.length = 16 ∧ s.currPtr < 16 ∧
        Goes k sort (s.counted k b address) r.1 ∧ r.1.step4 k sort address = .ok r.2)
      (Stops k sort (s.counted k b address)) := by
  rw [invokePrefetcher]
  split
  · rename_i hassert
    refine .error (.assertion ?_)
    rwa [length_counted]
  · rename_i hassert
    rw [not_or, not_not, Nat.not_le] at hassert
    refine (step1_ends s address).bind fun s1 hs1 => ?_
    subst hs1
    obtain ⟨bf, hbf⟩ := step2_eq (b := b) (s.counted k b address) address
    rw [hbf]
    refine (step3_ends _ bf).bind fun s3 hgoes => ?_
    refine (step4_ends hgoes address).bind fun p hp => ?_
    exact .ok ⟨hassert.1, hassert.1 ▸ hassert.2, hgoes, hp⟩

theorem goes_of_invoke (h : s.invokePrefetcher k b sort address = .ok (s', prefetches)) :
    s.evaluatedOffsets.length = 16 ∧ s.currPtr < 16 ∧ Goes k sort (s.counted k b address) s' ∧
      s'.step4 k sort address = .ok prefetches := (invoke_ends s address).of_ok h

/-! ## The offsets -/

theorem allOffsets_counted (s : Sandbox F) (address : UInt64) :
    (s.counted k b address).allOffsets = s.allOffsets := by
  rw [allOffsets, counted_offsets]
  rfl

/-- What is cycled out is the end of the sorted list. -/
theorem cycledOut_perm (k : Knobs) (sort : Sorting) (s : Sandbox F) :
    (((sort.byScore s.evaluatedOffsets).take (s.evaluatedOffsets.length - k.numCycleOffsets)).map
      (·.offset) ++ s.cycledOut k sort).Perm (s.evaluatedOffsets.map (·.offset)) := by
  have hlen := (sort.byScore_perm s.evaluatedOffsets).length_eq
  have hout : (s.cycledOut k sort).Perm (((sort.byScore s.evaluatedOffsets).drop
      (s.evaluatedOffsets.length - k.numCycleOffsets)).map (·.offset)) := by
    rw [cycledOut, List.take_reverse, hlen]
    exact (List.reverse_perm _).map _
  refine (hout.append_left _).trans ?_
  rw [← List.map_append, List.take_append_drop]
  exact (sort.byScore_perm _).map _

/-- An access loses no offset and finds none. -/
theorem Goes.allOffsets_perm (h : Goes k sort s s') : s'.allOffsets.Perm s.allOffsets := by
  cases h with
  | on | next => exact .refl _
  | around =>
    rw [allOffsets, allOffsets]
    dsimp only
    rw [List.map_append, List.map_map, Function.comp_def, List.map_id', List.append_assoc,
      cycledIn, List.take_append_drop]
    -- what is cycled out goes behind the others
    refine (List.perm_append_comm.append_left _).trans ?_
    rw [← List.append_assoc]
    exact (cycledOut_perm k sort s).append_right _

theorem Run.allOffsets_perm (h : Run k b sort turns s) :
    s.allOffsets.Perm (Sandbox.init b).allOffsets := by
  induction h with
  | init => exact .refl _
  | @access _ s _ address _ _ hs ih =>
    obtain ⟨-, -, hgoes, -⟩ := goes_of_invoke hs
    exact hgoes.allOffsets_perm.trans ((allOffsets_counted s address).symm ▸ ih)

theorem mem_offsetsFrom {low : ℤ} {n : ℕ} (hlow : -2 ^ 31 ≤ low) (hhigh : low + n ≤ 2 ^ 31)
    {o : Int32} : o ∈ offsetsFrom low n ↔ low ≤ o.toInt ∧ o.toInt < low + n := by
  rw [offsetsFrom, List.mem_map]
  constructor
  · rintro ⟨i, hi, rfl⟩
    rw [List.mem_range] at hi
    rw [Int32.toInt_ofInt_of_le (by omega) (by omega)]
    omega
  · rintro ⟨hle, hlt⟩
    refine ⟨(o.toInt - low).toNat, List.mem_range.2 (by omega), ?_⟩
    have hint : low + ((o.toInt - low).toNat : ℤ) = o.toInt := by omega
    rw [hint, Int32.ofInt_toInt]

theorem mem_init {o : Int32} : o ∈ (Sandbox.init b).allOffsets ↔
    -16 ≤ o.toInt ∧ o.toInt ≤ -1 ∨ 1 ≤ o.toInt ∧ o.toInt ≤ 16 := by
  rw [allOffsets, Sandbox.init, List.map_map, Function.comp_def, List.map_id', List.mem_append,
    List.mem_append, List.mem_append, mem_offsetsFrom (by decide) (by decide),
    mem_offsetsFrom (by decide) (by decide), mem_offsetsFrom (by decide) (by decide),
    mem_offsetsFrom (by decide) (by decide)]
  omega

theorem nodup_init : (Sandbox.init b).allOffsets.Nodup := by
  have hnodup : ((offsetsFrom 1 8 ++ offsetsFrom (-8) 8) ++
      (offsetsFrom 9 8 ++ offsetsFrom (-16) 8)).Nodup := by decide
  rw [allOffsets, Sandbox.init, List.map_map, Function.comp_def, List.map_id']
  exact hnodup

theorem Run.nodup (h : Run k b sort turns s) : s.allOffsets.Nodup :=
  h.allOffsets_perm.nodup_iff.2 nodup_init

theorem Run.length_allOffsets (h : Run k b sort turns s) :
    s.evaluatedOffsets.length + s.nonEvaluatedOffsets.length = 32 := by
  have hlen := h.allOffsets_perm.length_eq
  rw [allOffsets, List.length_append, List.length_map] at hlen
  exact hlen

/-! ## Rounds -/

/-- The accesses of the round that a state is in. -/
structure InRound (k : Knobs) (b : BloomFilter F) (sort : Sorting) (turns : List Turn)
    (s : Sandbox F) : Prop where
  size : s.evaluatedOffsets.length = 16
  ptr : s.currPtr < 16
  demand : s.totalDemand < k.numAccessInPhase.toNat
  round : ∃ current earlier, ∃ start : Sandbox F, turns = current ++ earlier ∧
    Run k b sort earlier start ∧ 16 * k.numAccessInPhase.toNat ∣ earlier.length ∧
    current.length = s.currPtr * k.numAccessInPhase.toNat + s.totalDemand ∧
    start.evaluatedOffsets.map (·.offset) = s.evaluatedOffsets.map (·.offset) ∧
    ∀ i < current.length, (current.reverse.map (·.offset))[i]? =
      (start.evaluatedOffsets.map (·.offset))[i / k.numAccessInPhase.toNat]?

/-- The offset of the next access. -/
theorem getElem?_evaluates (hptr : s.currPtr < s.evaluatedOffsets.length) :
    (s.evaluatedOffsets.map (·.offset))[s.currPtr]? = some s.evaluates := by
  rw [evaluates, List.getElem?_map, List.getD_eq_getElem?_getD, List.getElem?_eq_getElem hptr]
  rfl

/-- The next access goes on with the round. -/
theorem InRound.snoc (h : InRound k b sort turns s) {t : Turn} (ht : t.offset = s.evaluates) :
    ∃ current earlier, ∃ start : Sandbox F, t :: turns = current ++ earlier ∧
      Run k b sort earlier start ∧ 16 * k.numAccessInPhase.toNat ∣ earlier.length ∧
      current.length = s.currPtr * k.numAccessInPhase.toNat + s.totalDemand + 1 ∧
      start.evaluatedOffsets.map (·.offset) = s.evaluatedOffsets.map (·.offset) ∧
      ∀ i < current.length, (current.reverse.map (·.offset))[i]? =
        (start.evaluatedOffsets.map (·.offset))[i / k.numAccessInPhase.toNat]? := by
  obtain ⟨current, earlier, start, rfl, hrun, hdvd, hlen, hstart, hturn⟩ := h.round
  refine ⟨t :: current, earlier, start, rfl, hrun, hdvd, by rw [List.length_cons, hlen], hstart,
    fun i hi => ?_⟩
  rw [List.length_cons] at hi
  rw [List.reverse_cons, List.map_append]
  rcases Nat.lt_succ_iff_lt_or_eq.1 hi with hi | rfl
  · rw [List.getElem?_append_left (by simpa using hi)]
    exact hturn i hi
  · have hdiv : current.length / k.numAccessInPhase.toNat = s.currPtr := by
      rw [hlen, Nat.add_comm, Nat.add_mul_div_right _ _ (Nat.zero_lt_of_lt h.demand),
        Nat.div_eq_of_lt h.demand, Nat.zero_add]
    rw [List.getElem?_append_right (by simp), hdiv, hstart,
      getElem?_evaluates (by rw [h.size]; exact h.ptr), ← ht]
    simp

theorem InRound.inTurn (h : InRound k b sort turns s) {t : Turn} (ht : t.offset = s.evaluates) :
    InTurn k b sort (t :: turns) := by
  obtain ⟨current, earlier, start, hturns, hrun, hdvd, hlen, -, hturn⟩ := h.snoc ht
  have hfull := Nat.mul_le_mul_right k.numAccessInPhase.toNat (Nat.succ_le_of_lt h.ptr)
  have hdemand := h.demand
  rw [Nat.succ_mul] at hfull
  refine ⟨current, earlier, start, hturns, hrun, hdvd, by omega, fun _ hnil => ?_, hturn⟩
  rw [hnil, List.length_nil] at hlen
  omega

/-- An access keeps to the round or begins the next one. -/
theorem InRound.step (hcycle : k.numCycleOffsets ≤ 16) (h : InRound k b sort turns s)
    (hrun : Run k b sort turns s) (hs : s.invokePrefetcher k b sort address = .ok (s', prefetches)) :
    InRound k b sort (s.turn k b sort address :: turns) s' := by
  have hpos : 0 < k.numAccessInPhase.toNat := UInt32.lt_iff_toNat_lt.1 k.numAccessInPhase_pos
  have hrun' := hrun.access hs
  have hdemand := h.demand
  have hptr := h.ptr
  have hsize := h.size
  have hlen := length_counted (k := k) (b := b) s address
  obtain ⟨current, earlier, start, hturns, hearlier, hdvd, hcurr, hstart, hturn⟩ :=
    h.snoc (t := s.turn k b sort address) rfl
  obtain ⟨-, -, hgoes, -⟩ := goes_of_invoke hs
  generalize hc : s.counted k b address = c at hgoes
  have hcptr : c.currPtr = s.currPtr := by rw [← hc]; rfl
  have hcdemand : c.totalDemand = s.totalDemand + 1 := by rw [← hc]; rfl
  have hcsize : c.evaluatedOffsets.length = 16 := by rw [← hc, hlen, hsize]
  have hcoffsets : c.evaluatedOffsets.map (·.offset) = s.evaluatedOffsets.map (·.offset) := by
    rw [← hc, counted_offsets]
  cases hgoes with
  | on hN =>
    refine ⟨hcsize, hcptr ▸ hptr, by rw [hcdemand] at hN ⊢; omega, current, earlier, start, hturns,
      hearlier, hdvd, ?_, hstart.trans hcoffsets.symm, hturn⟩
    rw [hcurr, hcptr, hcdemand]
    rfl
  | next hN hnext =>
    refine ⟨hcsize, hcsize ▸ hnext, hpos, current, earlier, start, hturns, hearlier, hdvd, ?_,
      hstart.trans hcoffsets.symm, hturn⟩
    dsimp only
    rw [hcurr, hcptr, Nat.succ_mul]
    omega
  | around hN hlast =>
    have hall := hrun.length_allOffsets
    have hnon : c.nonEvaluatedOffsets = s.nonEvaluatedOffsets := by rw [← hc]; rfl
    have hsort := (sort.byScore_perm c.evaluatedOffsets).length_eq
    refine ⟨?_, Nat.zero_lt_succ _, hpos, [], _, _, rfl, hrun', ?_, by simp, rfl,
      fun i hi => absurd hi (Nat.not_lt_zero i)⟩
    · dsimp only
      rw [List.length_append, List.length_map, List.length_take, cycledIn, List.length_take,
        List.length_append, cycledOut, List.length_map, List.length_take, List.length_reverse,
        hsort, hcsize, hnon]
      omega
    · -- the round is over
      have hfull : s.currPtr = 15 := by omega
      rw [hturns, List.length_append]
      refine Nat.dvd_add ?_ hdvd
      rw [hcurr, hfull]
      exact ⟨1, by omega⟩

/-- Every run is in a round. -/
theorem Run.inRound (hcycle : k.numCycleOffsets ≤ 16) (h : Run k b sort turns s) :
    InRound k b sort turns s := by
  induction h with
  | init =>
    have hpos : 0 < k.numAccessInPhase.toNat := UInt32.lt_iff_toNat_lt.1 k.numAccessInPhase_pos
    exact ⟨rfl, Nat.zero_lt_succ _, hpos, [], [], _, rfl, .init, Nat.dvd_zero _, (Nat.zero_mul _).symm,
      rfl, fun i hi => absurd hi (Nat.not_lt_zero i)⟩
  | access hrun hs ih => exact ih.step hcycle hrun hs

theorem InRound.counts (h : InRound k b sort turns s) :
    s.currPtr = turns.length / k.numAccessInPhase.toNat % 16 ∧
      s.totalDemand = turns.length % k.numAccessInPhase.toNat := by
  obtain ⟨current, earlier, -, rfl, -, ⟨rounds, hrounds⟩, hlen, -⟩ := h.round
  have hdemand := h.demand
  have hptr := h.ptr
  generalize k.numAccessInPhase.toNat = N at *
  have htotal : (current ++ earlier).length = s.totalDemand + N * (s.currPtr + 16 * rounds) := by
    rw [List.length_append, hlen, hrounds, Nat.mul_add, Nat.mul_comm N s.currPtr,
      Nat.mul_comm 16 N, Nat.mul_assoc]
    omega
  rw [htotal, Nat.add_mul_div_left _ _ (Nat.zero_lt_of_lt hdemand), Nat.div_eq_of_lt hdemand,
    Nat.add_mul_mod_self_left, Nat.mod_eq_of_lt hdemand]
  omega

theorem Run.inTurn (hcycle : k.numCycleOffsets ≤ 16) (h : Run k b sort turns s) :
    InTurn k b sort turns := by
  cases h with
  | init =>
    exact ⟨[], [], _, rfl, .init, Nat.dvd_zero _, Nat.zero_le _, fun h => absurd rfl h,
      fun i hi => absurd hi (Nat.not_lt_zero i)⟩
  | access h hs => exact (h.inRound hcycle).inTurn rfl

theorem Run.whole (hcycle : k.numCycleOffsets ≤ 16) (h : Run k b sort turns s) : Whole s :=
  ⟨h.nodup, fun _ => h.allOffsets_perm.mem_iff.trans mem_init, (h.inRound hcycle).size,
    (h.inRound hcycle).ptr⟩

/-- No assert fails, and no queue is empty. -/
theorem Run.stops (hcycle : k.numCycleOffsets ≤ 16) (h : Run k b sort turns s) {stop : Stop}
    (hstop : s.invokePrefetcher k b sort address = .error stop) :
    stop = .endless ∧ ¬ LoopsEnd k := by
  have hsize := length_counted (k := k) (b := b) s address
  rw [(h.inRound hcycle).size] at hsize
  have hptr : (s.counted k b address).currPtr < 16 := (h.inRound hcycle).ptr
  cases (invoke_ends s address).of_error hstop with
  | assertion hassert => omega
  | zero hgoes hzero =>
    obtain ⟨x, hx, hzero⟩ := hzero
    have hmem : x.offset ∈ Sandbox.allOffsets _ :=
      List.mem_append_left _ (List.mem_map_of_mem hx)
    have hperm := hgoes.allOffsets_perm
    rw [allOffsets_counted] at hperm
    have hbound := mem_init.1 ((hperm.trans h.allOffsets_perm).mem_iff.1 hmem)
    have hnone : (0 : Int32).toInt = 0 := rfl
    rw [hzero, hnone] at hbound
    omega
  | undefined hfew =>
    have hall := h.length_allOffsets
    have hnon : (s.counted k b address).nonEvaluatedOffsets = s.nonEvaluatedOffsets := rfl
    rw [(h.inRound hcycle).size] at hall
    rw [List.length_append, hnon] at hfew
    omega
  | endless hloop => exact ⟨rfl, hloop⟩

/-- In every run no offset is lost, a round evaluates each of its offsets in turn for as many accesses
as a phase has, and no assert fails. -/
theorem loses_no_offset (k : Knobs) (hcycle : k.numCycleOffsets ≤ 16) (b : BloomFilter F)
    (sort : Sorting) {turns : List Turn} {s : Sandbox F} (h : Run k b sort turns s) :
    Whole s ∧ InTurn k b sort turns ∧
      s.currPtr = turns.length / k.numAccessInPhase.toNat % 16 ∧
      s.totalDemand = turns.length % k.numAccessInPhase.toNat ∧
      ∀ address stop, s.invokePrefetcher k b sort address = .error stop →
        stop = .endless ∧ ¬ LoopsEnd k :=
  ⟨h.whole hcycle, h.inTurn hcycle, (h.inRound hcycle).counts.1, (h.inRound hcycle).counts.2,
    fun _ _ hstop => h.stops hcycle hstop⟩

/-! ## Concrete runs -/

theorem run_sound (accesses : List UInt64) :
    Ends (run k b sort accesses) (fun r => Run k b sort r.1 r.2) fun _ => True := by
  refine Ends.foldlM (fun r address _ hr => ?_) .init
  generalize hs : r.2.invokePrefetcher k b sort address = e
  cases e with
  | ok next => exact hr.access hs
  | error stop => trivial

/-- A filter without false positives. -/
def exactFilter : BloomFilter (List UInt64) where
  clear := []
  add bf address := address :: bf
  lookup bf address := bf.contains address

/-- Sorting by insertion. -/
def insertionSorting : Sorting where
  byScore := List.insertionSort fun x y => y.score ≤ x.score
  byScore_perm := List.perm_insertionSort _
  byScore_sorted :=
    haveI : Std.Total fun x y : Score => y.score ≤ x.score := ⟨fun _ _ => UInt32.le_total _ _⟩
    haveI : IsTrans Score fun x y => y.score ≤ x.score :=
      ⟨fun _ _ _ hxy hyz => UInt32.le_trans hyz hxy⟩
    List.pairwise_insertionSort _
  byOffset := List.insertionSort fun x y => x.offset.toInt.natAbs ≤ y.offset.toInt.natAbs
  byOffset_perm := List.perm_insertionSort _
  byOffset_sorted :=
    haveI : Std.Total fun x y : Score => x.offset.toInt.natAbs ≤ y.offset.toInt.natAbs :=
      ⟨fun _ _ => Nat.le_total _ _⟩
    haveI : IsTrans Score fun x y => x.offset.toInt.natAbs ≤ y.offset.toInt.natAbs :=
      ⟨fun _ _ _ => Nat.le_trans⟩
    List.pairwise_insertionSort _

/-- Phases of two accesses. -/
def twoAccesses : Knobs where
  prefDegree := 4
  enableStreamDetect := false
  streamDetectLength := 4
  numAccessInPhase := 2
  numAccessInPhase_pos := UInt32.lt_iff_toNat_lt.2 (Nat.zero_lt_succ 1)
  numCycleOffsets := 4

/-- The blocks of a page from the first one on. -/
def upwards (n : ℕ) : List UInt64 := (List.range n).map fun i => 0x1000 + 64 * .ofNat i

/-- A round, which ends with the access in which four offsets come in, and three accesses more. -/
theorem loses_no_offset_round : ∃ turns s,
    run twoAccesses exactFilter insertionSorting (upwards 35) = .ok (turns, s) ∧
    turns.map (·.cameIn) =
      List.replicate 3 [] ++ [[9, 10, 11, 12]] ++ List.replicate 31 [] ∧
    Whole s ∧ InTurn twoAccesses exactFilter insertionSorting turns ∧
      s.currPtr = turns.length / 2 % 16 ∧ s.totalDemand = turns.length % 2 ∧
      ∀ address stop, s.invokePrefetcher twoAccesses exactFilter insertionSorting address =
        .error stop → stop = .endless ∧ ¬ LoopsEnd twoAccesses := by
  have hcheck : (run twoAccesses exactFilter insertionSorting (upwards 35)).toOption.any (fun r =>
      r.1.map (·.cameIn) = List.replicate 3 [] ++ [[9, 10, 11, 12]] ++ List.replicate 31 []) =
        true := by decide +kernel
  obtain ⟨⟨turns, s⟩, hrun, hcameIn⟩ := exists_ok_of_any hcheck
  exact ⟨turns, s, hrun, of_decide_eq_true hcameIn,
    loses_no_offset twoAccesses (by decide) exactFilter insertionSorting ((run_sound _).of_ok hrun)⟩

end

end Sandbox

end Arishem
