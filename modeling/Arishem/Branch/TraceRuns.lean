import Arishem.Branch.HashedPerceptron

/-!
# The predictor in the core

The core asks its predictor for each branch that `handle_branch` reads, and tells it the outcome. It
reads the trace again and again, so what the predictor has seen is fixed by the number of instructions
that were read, and so are the records that one call reads.
-/

namespace Arishem

namespace BranchPredictor

theorem run_append {π : Type} (bp : BranchPredictor π) (p : π) (xs ys : List (Addr × Bool)) :
    (bp.run p (xs ++ ys)).2 = (bp.run (bp.run p xs).2 ys).2 := by
  induction xs generalizing p with
  | nil => rfl
  | cons x xs ih =>
    obtain ⟨ip, taken⟩ := x
    rw [List.cons_append, run, run]
    exact ih _

/-- What `handle_branch` does with the predictor for a record. -/
def see {π : Type} (bp : BranchPredictor π) (p : π) (r : TraceRecord) : π :=
  if r.isBranch ≠ 0 then
    bp.lastBranchResult (bp.predictBranch p r.instr.ip).2 r.instr.ip r.branchTaken
  else p

section
variable {π : Type} (bp : BranchPredictor π) (p : π) (r : TraceRecord)

/-- The record is a branch that is mispredicted. -/
def Misses : Prop := r.isBranch ≠ 0 ∧ r.branchTaken ≠ (bp.predictBranch p r.instr.ip).1

/-- The record is a branch that is mispredicted or predicted taken. -/
def Stops : Prop := r.isBranch ≠ 0 ∧
  (r.branchTaken ≠ (bp.predictBranch p r.instr.ip).1 ∨ (bp.predictBranch p r.instr.ip).1 = 1)

end

end BranchPredictor

namespace TraceRecord

/-- The branch of a record. -/
def branch (r : TraceRecord) : Option (Addr × Bool) :=
  if r.isBranch ≠ 0 then some (r.instr.ip, r.branchTaken != 0) else none

/-- The outcome of a branch is 0 or 1. -/
def Outcome (r : TraceRecord) : Prop :=
  r.isBranch ≠ 0 → r.branchTaken = (r.branchTaken != 0).toUInt8

end TraceRecord

namespace RecordFormat

/-- The records in a lap over the trace. -/
def lap (fmt : RecordFormat) (data : List UInt8) : ℕ := data.length / fmt.size

/-- The record that the core reads after `m` others. -/
def recordAt (fmt : RecordFormat) (data : List UInt8) (m : ℕ) : TraceRecord :=
  fmt.decode ((data.drop (fmt.size * (m % fmt.lap data))).take fmt.size)

/-- The branches among the first `m` records that the core reads. -/
def branches (fmt : RecordFormat) (data : List UInt8) (m : ℕ) : List (Addr × Bool) :=
  (List.range m).filterMap fun i => (fmt.recordAt data i).branch

section
variable {π : Type} (fmt : RecordFormat) (data : List UInt8) (bp : BranchPredictor π) (p : π)

/-- The record after `m` others is a branch that is mispredicted. -/
def Misses (m : ℕ) : Prop :=
  bp.Misses (bp.run p (fmt.branches data m)).2 (fmt.recordAt data m)

/-- The record after `m` others is a branch that is mispredicted or predicted taken. -/
def Stops (m : ℕ) : Prop := bp.Stops (bp.run p (fmt.branches data m)).2 (fmt.recordAt data m)

end

theorem size_pos (fmt : RecordFormat) : 0 < fmt.size := by
  cases fmt <;> decide

/-- What is left of the trace after `m` records: the rest of a lap, or too little for a record at its
end. -/
def Rest (fmt : RecordFormat) (data : List UInt8) (m : ℕ) (rest : List UInt8) : Prop :=
  rest = data.drop (fmt.size * (m % fmt.lap data)) ∨ rest.length < fmt.size ∧ m % fmt.lap data = 0

section
variable {fmt : RecordFormat} {data rest : List UInt8} {m : ℕ}

/-- Where too little is left, a lap was read. -/
theorem Rest.rewind (h : fmt.Rest data m rest) (hdata : fmt.size ≤ data.length)
    (hrest : ¬ fmt.size ≤ rest.length) : fmt.Rest data m data := by
  rcases h with rfl | ⟨-, hlap⟩
  · have hlt : m % fmt.lap data < fmt.lap data := Nat.mod_lt _ (Nat.div_pos hdata fmt.size_pos)
    have hle : fmt.size * (m % fmt.lap data + 1) ≤ data.length :=
      (Nat.mul_le_mul_left _ hlt).trans (Nat.mul_div_le ..)
    rw [Nat.mul_succ] at hle
    rw [List.length_drop] at hrest
    omega
  · exact .inl (by rw [hlap, Nat.mul_zero, List.drop_zero])

/-- A record is read. -/
theorem Rest.read (h : fmt.Rest data m rest) (hrest : fmt.size ≤ rest.length) :
    fmt.decode (rest.take fmt.size) = fmt.recordAt data m ∧
      fmt.Rest data (m + 1) (rest.drop fmt.size) := by
  rcases h with rfl | ⟨hlt, -⟩
  · refine ⟨rfl, ?_⟩
    have hpos := fmt.size_pos
    have hlen : fmt.size ≤ data.length := by
      rw [List.length_drop] at hrest
      exact hrest.trans (Nat.sub_le ..)
    have hlap : 0 < fmt.lap data := Nat.div_pos hlen hpos
    have hlt : m % fmt.lap data < fmt.lap data := Nat.mod_lt _ hlap
    rw [List.drop_drop, ← Nat.mul_succ, Rest, ← Nat.mod_add_mod]
    rcases Nat.lt_or_eq_of_le hlt with hnext | hlast
    · rw [Nat.mod_eq_of_lt hnext]
      exact .inl rfl
    · -- the record was the last of the lap
      refine .inr ⟨?_, (congrArg (· % fmt.lap data) hlast).trans (Nat.mod_self _)⟩
      rw [List.length_drop, hlast, lap, ← Nat.mod_eq_sub_mul_div]
      exact Nat.mod_lt _ hpos
  · exact absurd hrest (Nat.not_le.2 hlt)

/-- The predictor sees one record more. -/
theorem see_recordAt {π : Type} (bp : BranchPredictor π) (p : π)
    (houtcome : (fmt.recordAt data m).Outcome) :
    bp.see (bp.run p (fmt.branches data m)).2 (fmt.recordAt data m) =
      (bp.run p (fmt.branches data (m + 1))).2 := by
  have hbranches : fmt.branches data (m + 1) =
      fmt.branches data m ++ [fmt.recordAt data m].filterMap TraceRecord.branch := by
    rw [branches, List.range_succ, List.filterMap_append]
    rfl
  rw [hbranches, BranchPredictor.run_append, BranchPredictor.see, List.filterMap_cons,
    List.filterMap_nil, TraceRecord.branch]
  by_cases hbranch : (fmt.recordAt data m).isBranch ≠ 0
  · rw [if_pos hbranch, if_pos hbranch]
    nth_rewrite 1 [houtcome hbranch]
    rfl
  · rw [if_neg hbranch, if_neg hbranch]
    rfl

end

end RecordFormat

namespace FrontEnd

section
variable {σ π : Type} (dec : StreamDecoder σ UInt8 UInt8) (file : TraceFile) (fmt : RecordFormat)
variable (bp : BranchPredictor π) (cfg : PipelineConfig)

/-- The states of a core that runs: it calls `handle_branch` while the reorder buffer has room, and
its other stages number no instruction. -/
inductive Runs (fuel : ℕ) (p : π) : FrontEnd σ π → Prop
  | start {core} : core.cpu.instrUniqueId = 0 → Runs fuel p ⟨core, TraceReader.start dec, p⟩
  | handleBranch {s s' turns} : Runs fuel p s → s.core.cpu.rob.occupancy < cfg.robSize →
      handleBranch dec file fmt bp cfg fuel turns s = .ok s' → Runs fuel p s'
  | stage {s core} : Runs fuel p s → core.cpu.instrUniqueId = s.core.cpu.instrUniqueId →
      Runs fuel p { s with core := core }

end

section
variable {σ π : Type} {dec : StreamDecoder σ UInt8 UInt8} {file : TraceFile} {fmt : RecordFormat}
variable {bp : BranchPredictor π} {cfg : PipelineConfig} {data : List UInt8}
variable {avail : ℕ → ℕ} {At : σ → ℕ → ℕ → Prop} {fuel : ℕ} {p : π} {s s' : FrontEnd σ π}

/-- The predictor has seen the branches that were read, and the reader is behind them. -/
structure Follows (file : TraceFile) (fmt : RecordFormat) (bp : BranchPredictor π)
    (data : List UInt8) (At : σ → ℕ → ℕ → Prop) (p : π) (s : FrontEnd σ π) : Prop where
  reader : ∃ rest, TraceReader.Serves file data At s.reader rest ∧
    fmt.Rest data s.core.cpu.instrUniqueId rest
  predictor : s.predictor = (bp.run p (fmt.branches data s.core.cpu.instrUniqueId)).2

/-- A record that finds room. -/
theorem takeRecord_ok {r : TraceRecord} {numReads toRead numReads' toRead' : ℕ} {more : Bool}
    (hroom : s.core.cpu.rob.occupancy < cfg.robSize)
    (h : takeRecord bp cfg r numReads toRead s = .ok (s', numReads', toRead', more)) :
    s'.reader = s.reader ∧ s'.core.cpu.instrUniqueId = s.core.cpu.instrUniqueId + 1 ∧
      s'.predictor = bp.see s.predictor r ∧
      (more = true → s'.core.cpu.rob.occupancy < cfg.robSize) := by
  obtain ⟨hreader, -, -, hmore⟩ := (takeRecord_spec bp cfg r numReads toRead s hroom).of_ok h
  have hcore : ∀ {mispredicted core}, s.core.handleBranch cfg r.instr mispredicted = .ok core →
      core.cpu.instrUniqueId = s.core.cpu.instrUniqueId + 1 := fun hok =>
    ((core_handleBranch_spec cfg r.instr _ s.core).of_ok hok).2
  refine ⟨hreader, ?_⟩
  rw [takeRecord, if_pos hroom] at h
  split at h
  · rename_i hbranch
    dsimp only at h
    split at h
    · cases h
    · rename_i core hok
      cases h
      exact ⟨hcore hok, (if_pos hbranch).symm, fun hmore' => (hmore hmore').2.2⟩
  · rename_i hbranch
    split at h
    · cases h
    · rename_i core hok
      cases h
      exact ⟨hcore hok, (if_neg hbranch).symm, fun hmore' => (hmore hmore').2.2⟩

/-- A misprediction stalls the fetch. -/
theorem core_handleBranch_stall {r : InputInstr} {mispredicted : Bool} {c c' : Core}
    (h : c.handleBranch cfg r mispredicted = .ok c') :
    c'.fetch.fetchStall = (c.fetch.fetchStall || mispredicted) := by
  rw [Core.handleBranch] at h
  cases hcpu : c.cpu.handleBranch cfg.toCoreConfig r with
  | error fault =>
    rw [hcpu] at h
    cases h
  | ok cpu =>
    rw [hcpu] at h
    cases mispredicted with
    | true =>
      cases h
      exact (Bool.or_true _).symm
    | false =>
      cases h
      exact (Bool.or_false _).symm

/-- When the loop goes on. -/
theorem more_iff (numReads toRead occupancy size : ℕ) :
    ((decide (numReads < toRead) && occupancy != size) = true → numReads < toRead) ∧
      ((decide (numReads < toRead) && occupancy != size) = false →
        toRead ≤ numReads ∨ occupancy = size) := by
  by_cases hlt : numReads < toRead
  · rw [decide_eq_true hlt, Bool.true_and]
    exact ⟨fun _ => hlt, fun hfull => .inr (bne_eq_false_iff_eq.1 hfull)⟩
  · rw [decide_eq_false hlt, Bool.false_and]
    exact ⟨fun hmore => absurd hmore Bool.false_ne_true, fun _ => .inl (Nat.not_lt.1 hlt)⟩

/-- The loop goes on behind a record unless the record is a branch that stops it, enough records were
read or the buffer is full. -/
theorem takeRecord_group {r : TraceRecord} {numReads toRead numReads' toRead' : ℕ} {more : Bool}
    (hroom : s.core.cpu.rob.occupancy < cfg.robSize)
    (h : takeRecord bp cfg r numReads toRead s = .ok (s', numReads', toRead', more)) :
    (s'.core.fetch.fetchStall = true ↔
      s.core.fetch.fetchStall = true ∨ bp.Misses s.predictor r) ∧
    (more = true → ¬ bp.Stops s.predictor r ∧ numReads' = numReads + 1 ∧ toRead' = toRead ∧
      numReads + 1 < toRead) ∧
    (more = false → bp.Stops s.predictor r ∨ toRead ≤ numReads + 1 ∨
      s'.core.cpu.rob.occupancy = cfg.robSize) := by
  rw [takeRecord, if_pos hroom] at h
  split at h
  · rename_i hbranch
    dsimp only at h
    split at h
    · cases h
    · rename_i core hok
      cases h
      refine ⟨?_, ?_⟩
      · rw [core_handleBranch_stall hok, Bool.or_eq_true, decide_eq_true_iff]
        exact or_congr_right (and_iff_right hbranch).symm
      · by_cases hstop : (decide (r.branchTaken ≠ (bp.predictBranch s.predictor r.instr.ip).1) ||
            (bp.predictBranch s.predictor r.instr.ip).1 == 1) = true
        · rw [if_pos hstop]
          rw [Bool.or_eq_true, decide_eq_true_iff, beq_iff_eq] at hstop
          exact ⟨fun hmore => by simp at hmore, fun _ => .inl ⟨hbranch, hstop⟩⟩
        · rw [if_neg hstop]
          rw [Bool.or_eq_true, decide_eq_true_iff, beq_iff_eq] at hstop
          obtain ⟨hgoes, hends⟩ := more_iff (numReads + 1) toRead core.cpu.rob.occupancy cfg.robSize
          exact ⟨fun hmore => ⟨fun hstops => hstop hstops.2, rfl, rfl, hgoes hmore⟩,
            fun hmore => .inr (hends hmore)⟩
  · rename_i hbranch
    split at h
    · cases h
    · rename_i core hok
      cases h
      obtain ⟨hgoes, hends⟩ := more_iff (numReads + 1) toRead core.cpu.rob.occupancy cfg.robSize
      refine ⟨?_, fun hmore => ⟨fun hstops => hbranch hstops.1, rfl, rfl, hgoes hmore⟩,
        fun hmore => .inr (hends hmore)⟩
      rw [core_handleBranch_stall hok, Bool.or_false]
      exact (or_iff_left fun hmiss => hbranch hmiss.1).symm

section
variable (hd : dec.Decodes file.bytes data avail At)
  (hfuel : file.bytes.length + data.length + 2 ≤ fuel) (hsize : fmt.size < fuel)
  (hdata : fmt.size ≤ data.length) (houtcome : ∀ m, (fmt.recordAt data m).Outcome)
include hd hfuel hsize hdata houtcome

/-- A turn of the loop of `handle_branch`: the reader is rewound, or the next record of the laps is
read. -/
theorem Follows.turn {turns numReads toRead : ℕ} (hs : Follows file fmt bp data At p s)
    (hroom : s.core.cpu.rob.occupancy < cfg.robSize)
    (hok : readRecords dec file fmt bp cfg fuel (turns + 1) numReads toRead s = .ok s') :
    (∃ rd, Follows file fmt bp data At p { s with reader := rd } ∧
      readRecords dec file fmt bp cfg fuel turns numReads toRead { s with reader := rd } =
        .ok s') ∨
    ∃ rd s₁ numReads' toRead' more,
      takeRecord bp cfg (fmt.recordAt data s.core.cpu.instrUniqueId) numReads toRead
        { s with reader := rd } = .ok (s₁, numReads', toRead', more) ∧
      Follows file fmt bp data At p s₁ ∧
      (more = true → readRecords dec file fmt bp cfg fuel turns numReads' toRead' s₁ = .ok s') ∧
      (more = false → s₁ = s') := by
  obtain ⟨rest, hserves, hrest⟩ := hs.reader
  obtain ⟨rd, hrd, hread⟩ := hserves.readBytes_spec hd hfuel hsize
  rw [FrontEnd.readRecords, hread] at hok
  by_cases henough : fmt.size ≤ rest.length
  · obtain ⟨hrecord, hrest'⟩ := hrest.read henough
    rw [if_pos henough] at hrd
    simp only [if_pos henough, hrecord] at hok
    split at hok
    · cases hok
    · rename_i s₁ numReads' toRead' more htake
      obtain ⟨hreader, hid, hpredictor, -⟩ :=
        takeRecord_ok (s := { s with reader := rd }) hroom htake
      refine .inr ⟨rd, s₁, numReads', toRead', more, htake, ⟨⟨rest.drop fmt.size, ?_, ?_⟩, ?_⟩,
        fun hmore => ?_, fun hmore => ?_⟩
      · rw [hreader]
        exact hrd
      · rw [hid]
        exact hrest'
      · rw [hpredictor, hid]
        exact (congrArg (bp.see · _) hs.predictor).trans
          (RecordFormat.see_recordAt bp p (houtcome _))
      · rw [if_pos hmore] at hok
        exact hok
      · rw [if_neg (by simp [hmore])] at hok
        exact Except.ok.inj hok
  · simp only [if_neg henough] at hok
    exact .inl ⟨rd.rewindState dec, ⟨⟨data, TraceReader.serves_rewindState hd rd,
      hrest.rewind hdata henough⟩, hs.predictor⟩, hok⟩

/-- The loop of `handle_branch`. -/
theorem Follows.readRecords (turns : ℕ) :
    ∀ {s : FrontEnd σ π} {numReads toRead : ℕ}, Follows file fmt bp data At p s →
      s.core.cpu.rob.occupancy < cfg.robSize →
      readRecords dec file fmt bp cfg fuel turns numReads toRead s = .ok s' →
      Follows file fmt bp data At p s' := by
  induction turns with
  | zero =>
    intro s numReads toRead _ _ hok
    cases hok
  | succ turns ih =>
    intro s numReads toRead hs hroom hok
    obtain ⟨rd, hs₁, hok₁⟩ | ⟨rd, s₁, numReads', toRead', more, htake, hs₁, hon, hend⟩ :=
      hs.turn hd hfuel hsize hdata houtcome hroom hok
    · exact ih hs₁ hroom hok₁
    · obtain ⟨-, -, -, hmore⟩ := takeRecord_ok (s := { s with reader := rd }) hroom htake
      cases more with
      | true => exact ih hs₁ (hmore rfl) (hon rfl)
      | false =>
        cases hend rfl
        exact hs₁

/-- The records that a call of `handle_branch` reads. -/
theorem Follows.group (turns : ℕ) :
    ∀ {s : FrontEnd σ π} {numReads toRead : ℕ}, Follows file fmt bp data At p s →
      s.core.cpu.rob.occupancy < cfg.robSize → s.core.fetch.fetchStall = false →
      FrontEnd.readRecords dec file fmt bp cfg fuel turns numReads toRead s = .ok s' →
      ∃ m, s'.core.cpu.instrUniqueId = m + 1 ∧ s.core.cpu.instrUniqueId ≤ m ∧
        m ≤ s.core.cpu.instrUniqueId + (toRead - numReads - 1) ∧
        (s'.core.fetch.fetchStall = true ↔ fmt.Misses data bp p m) ∧
        (fmt.Stops data bp p m ∨ s.core.cpu.instrUniqueId + toRead ≤ numReads + (m + 1) ∨
          s'.core.cpu.rob.occupancy = cfg.robSize) ∧
        ∀ i, s.core.cpu.instrUniqueId ≤ i → i < m → ¬ fmt.Stops data bp p i := by
  induction turns with
  | zero =>
    intro s numReads toRead _ _ _ hok
    cases hok
  | succ turns ih =>
    intro s numReads toRead hs hroom hstall hok
    obtain ⟨rd, hs₁, hok₁⟩ | ⟨rd, s₁, numReads', toRead', more, htake, hs₁, hon, hend⟩ :=
      hs.turn hd hfuel hsize hdata houtcome hroom hok
    · exact @ih { s with reader := rd } _ _ hs₁ hroom hstall hok₁
    · obtain ⟨-, hid, -, hroom'⟩ := takeRecord_ok (s := { s with reader := rd }) hroom htake
      obtain ⟨hstalls, hgroup, hlast⟩ :=
        takeRecord_group (s := { s with reader := rd }) hroom htake
      have hmisses : s₁.core.fetch.fetchStall = true ↔
          fmt.Misses data bp p s.core.cpu.instrUniqueId := by
        rw [hstalls, RecordFormat.Misses, ← hs.predictor]
        exact or_iff_right (by simp [hstall])
      cases more with
      | true =>
        obtain ⟨hgoes, rfl, rfl, hlt⟩ := hgroup rfl
        have hgoes' : ¬ fmt.Stops data bp p s.core.cpu.instrUniqueId := by
          rw [RecordFormat.Stops, ← hs.predictor]
          exact hgoes
        have hrun : s₁.core.fetch.fetchStall = false := by
          rw [← Bool.not_eq_true, hmisses]
          exact fun hmiss => hgoes' ⟨hmiss.1, .inl hmiss.2⟩
        obtain ⟨m, hm, hle, hwidth, hmiss, hend', hno⟩ := ih hs₁ (hroom' rfl) hrun (hon rfl)
        rw [hid] at hle hwidth hend' hno
        dsimp only at hle hwidth hend' hno
        refine ⟨m, hm, by omega, by omega, hmiss,
          hend'.imp_right fun hend => hend.imp_left fun hread => by omega, fun i hi him => ?_⟩
        rcases Nat.eq_or_lt_of_le hi with rfl | hlater
        · exact hgoes'
        · exact hno i hlater him
      | false =>
        cases hend rfl
        have hends : fmt.Stops data bp p s.core.cpu.instrUniqueId ∨
            s.core.cpu.instrUniqueId + toRead ≤ numReads + (s.core.cpu.instrUniqueId + 1) ∨
            s'.core.cpu.rob.occupancy = cfg.robSize := by
          rw [RecordFormat.Stops, ← hs.predictor]
          exact (hlast rfl).imp_right fun hlast => hlast.imp_left fun hle => by omega
        exact ⟨_, hid, Nat.le_refl _, Nat.le_add_right .., hmisses, hends,
          fun i hi hlt => absurd hi (Nat.not_le.2 hlt)⟩

/-- The predictor of a core that runs. -/
theorem Runs.follows (h : Runs dec file fmt bp cfg fuel p s) : Follows file fmt bp data At p s := by
  induction h with
  | start hid =>
    refine ⟨⟨data, TraceReader.serves_start hd, .inl ?_⟩, ?_⟩
    · rw [hid, Nat.zero_mod, Nat.mul_zero, List.drop_zero]
    · rw [hid]
      rfl
  | handleBranch _ hroom hok ih => exact ih.readRecords hd hfuel hsize hdata houtcome _ hroom hok
  | stage _ hid ih =>
    refine ⟨?_, ?_⟩
    · rw [hid]
      exact ih.reader
    · rw [hid]
      exact ih.predictor

end

end

/-- The trace of one branch that was taken. -/
def takenBranch : TraceFile := ⟨List.replicate 64 1, fun _ => 0⟩

/-- A core with the bimodal predictor. -/
def beforeBranch : FrontEnd (List UInt8) Bimodal.Table :=
  ⟨⟨.init, ⟨1, 1, false, 0⟩⟩, .start (.stored UInt8), Bimodal.init⟩

/-- The core has read the branch. -/
def afterBranch : Except BranchFailure (FrontEnd (List UInt8) Bimodal.Table) :=
  handleBranch (.stored UInt8) takenBranch .inputInstr Bimodal.predictor twoSlots 130 3 beforeBranch

theorem takenBranch_outcome (m : ℕ) :
    (RecordFormat.inputInstr.recordAt takenBranch.bytes m).Outcome := by
  have hone : RecordFormat.inputInstr.lap takenBranch.bytes = 1 := rfl
  rw [RecordFormat.recordAt, hone, Nat.mod_one]
  exact fun _ => (by decide : (1 : UInt8) = (1 != (0 : UInt8)).toUInt8)

theorem afterBranch_ok : ∃ s, afterBranch = .ok s ∧ s.core.cpu.instrUniqueId = 1 := by
  have hok : afterBranch.toOption.map (·.core.cpu.instrUniqueId) = some 1 := by decide
  cases h : afterBranch with
  | error failure =>
    rw [h] at hok
    cases hok
  | ok s =>
    rw [h] at hok
    exact ⟨s, rfl, Option.some.inj hok⟩

/-- In a core that runs over a trace whose outcomes are 0 or 1, after `m` instructions were read the
predictor has seen exactly the branches among the first `m` records of the laps over the trace, in
their order, each predicted and then told its outcome. -/
theorem predictor_sees_trace {σ π : Type} {dec : StreamDecoder σ UInt8 UInt8} {file : TraceFile}
    {fmt : RecordFormat} {bp : BranchPredictor π} {cfg : PipelineConfig} {data : List UInt8}
    {avail : ℕ → ℕ} {At : σ → ℕ → ℕ → Prop} {fuel : ℕ} {p : π} {s : FrontEnd σ π}
    (hd : dec.Decodes file.bytes data avail At)
    (hfuel : file.bytes.length + data.length + 2 ≤ fuel) (hsize : fmt.size < fuel)
    (hdata : fmt.size ≤ data.length) (houtcome : ∀ m, (fmt.recordAt data m).Outcome)
    (h : Runs dec file fmt bp cfg fuel p s) :
    s.predictor = (bp.run p (fmt.branches data s.core.cpu.instrUniqueId)).2 :=
  (h.follows hd hfuel hsize hdata houtcome).predictor

/-- The counter of a branch that was taken once. -/
theorem predictor_sees_trace_taken : ∃ s, afterBranch = .ok s ∧ s.core.cpu.instrUniqueId = 1 ∧
    s.predictor = (Bimodal.predictor.run Bimodal.init
      (RecordFormat.inputInstr.branches takenBranch.bytes s.core.cpu.instrUniqueId)).2 := by
  obtain ⟨s, hok, hid⟩ := afterBranch_ok
  have hrun := Runs.handleBranch (.start rfl) (by decide) hok
  exact ⟨s, hok, hid, predictor_sees_trace (StreamDecoder.stored_decodes takenBranch.bytes)
    (by decide) (by decide) (by decide) takenBranch_outcome hrun⟩

/-- In such a core, a call of `handle_branch` that finds the fetch running reads the next records of
the laps up to the first branch that is mispredicted or predicted taken, as far as the width of the
fetch and the reorder buffer allow, and it stalls the fetch if and only if the last record that it read
is a mispredicted branch. -/
theorem fetch_groups {σ π : Type} {dec : StreamDecoder σ UInt8 UInt8} {file : TraceFile}
    {fmt : RecordFormat} {bp : BranchPredictor π} {cfg : PipelineConfig} {data : List UInt8}
    {avail : ℕ → ℕ} {At : σ → ℕ → ℕ → Prop} {fuel turns : ℕ} {p : π} {s s' : FrontEnd σ π}
    (hd : dec.Decodes file.bytes data avail At)
    (hfuel : file.bytes.length + data.length + 2 ≤ fuel) (hsize : fmt.size < fuel)
    (hdata : fmt.size ≤ data.length) (houtcome : ∀ m, (fmt.recordAt data m).Outcome)
    (h : Runs dec file fmt bp cfg fuel p s) (hroom : s.core.cpu.rob.occupancy < cfg.robSize)
    (hstall : s.core.fetch.fetchStall = false)
    (hok : handleBranch dec file fmt bp cfg fuel turns s = .ok s') :
    ∃ m, s'.core.cpu.instrUniqueId = m + 1 ∧ s.core.cpu.instrUniqueId ≤ m ∧
      m ≤ s.core.cpu.instrUniqueId + (cfg.fetchWidth - 1) ∧
      (s'.core.fetch.fetchStall = true ↔ fmt.Misses data bp p m) ∧
      (fmt.Stops data bp p m ∨ s.core.cpu.instrUniqueId + cfg.fetchWidth ≤ m + 1 ∨
        s'.core.cpu.rob.occupancy = cfg.robSize) ∧
      ∀ i, s.core.cpu.instrUniqueId ≤ i → i < m → ¬ fmt.Stops data bp p i := by
  have hgroup := (h.follows hd hfuel hsize hdata houtcome).group hd hfuel hsize hdata houtcome turns
    hroom hstall hok
  simpa only [Nat.sub_zero, Nat.zero_add] using hgroup

/-- The branch that was taken stalls the fetch if and only if it was mispredicted. -/
theorem fetch_groups_taken : ∃ s m, afterBranch = .ok s ∧ s.core.cpu.instrUniqueId = m + 1 ∧
    (s.core.fetch.fetchStall = true ↔
      RecordFormat.inputInstr.Misses takenBranch.bytes Bimodal.predictor Bimodal.init m) := by
  obtain ⟨s, hok, -⟩ := afterBranch_ok
  obtain ⟨m, hid, -, -, hstall, -⟩ := fetch_groups (s := beforeBranch)
    (StreamDecoder.stored_decodes takenBranch.bytes) (by decide) (by decide) (by decide)
    takenBranch_outcome (.start rfl) (by decide) rfl hok
  exact ⟨s, m, hok, hid, hstall⟩

end FrontEnd

end Arishem
