import Arishem.Core.Fetching
import Arishem.Lib.Outcome
import Arishem.Reader.Reads

/-!
# Reading the trace

`handle_branch` reads records of the trace into the reorder buffer until it has read enough of them
for a cycle or the buffer is full. Where a read fails, it rewinds the trace and reads again, and this
part of the loop has no way out: a trace that holds less than one record is read forever. The branch
predictor is open; it sees the address of a branch, and then its outcome. The turns of the loop are
counted down: a loop that runs out of them has not returned.
-/

namespace Arishem

/-- `NUM_INSTR_DESTINATIONS`. -/
def numInstrDestinations : ℕ := 2

/-- The layout of a record: `trace_version` 1 or 2, or `knob_cloudsuite`, which is of version 1. -/
inductive RecordFormat
  | inputInstr
  | inputInstrV2
  | cloudsuiteInstr
  deriving DecidableEq

/-- What `handle_branch` takes from a record. -/
structure TraceRecord where
  instr : InputInstr
  isBranch : UInt8
  branchTaken : UInt8

/-- A predictor of branches. -/
structure BranchPredictor (π : Type) where
  predictBranch : π → Addr → UInt8 × π
  lastBranchResult : π → Addr → UInt8 → π

/-- Why `handle_branch` does not return. -/
inductive BranchFailure
  | read (failure : ReadFailure)
  | core (fault : CoreFault)
  | outOfTurns
  deriving DecidableEq

/-- The core with its trace and its predictor. -/
structure FrontEnd (σ π : Type) where
  core : Core
  reader : TraceReader σ
  predictor : π

namespace RecordFormat

/-- `instr_size`. -/
def size : RecordFormat → ℕ
  | inputInstr => 64
  | inputInstrV2 => 512
  | cloudsuiteInstr => 96

/-- A byte of a record. -/
def byteAt (bytes : List UInt8) (i : ℕ) : UInt8 := bytes.getD i 0

/-- A little-endian word of a record. -/
def wordAt (bytes : List UInt8) (i : ℕ) : Addr :=
  (List.range 8).foldr (fun j word => word <<< 8 ||| (byteAt bytes (i + j)).toUInt64) 0

/-- The fields of a record. A record that is not of cloudsuite has two destinations, and the others
are empty. -/
def decode (fmt : RecordFormat) (bytes : List UInt8) : TraceRecord where
  instr :=
    match fmt with
    | cloudsuiteInstr =>
      { ip := wordAt bytes 0
        destinationRegisters := fun d => byteAt bytes (10 + d)
        sourceRegisters := fun i => byteAt bytes (14 + i)
        destinationMemory := fun d => wordAt bytes (24 + 8 * d)
        sourceMemory := fun i => wordAt bytes (56 + 8 * i) }
    | inputInstr | inputInstrV2 =>
      { ip := wordAt bytes 0
        destinationRegisters := fun d =>
          if d < numInstrDestinations then byteAt bytes (10 + d) else 0
        sourceRegisters := fun i => byteAt bytes (12 + i)
        destinationMemory := fun d =>
          if d < numInstrDestinations then wordAt bytes (16 + 8 * d) else 0
        sourceMemory := fun i => wordAt bytes (32 + 8 * i) }
  isBranch := byteAt bytes 8
  branchTaken := byteAt bytes 9

end RecordFormat

namespace FrontEnd

section
variable {σ π : Type} (dec : StreamDecoder σ UInt8 UInt8) (file : TraceFile) (fmt : RecordFormat)
variable (bp : BranchPredictor π) (cfg : PipelineConfig)

/-- A record that finds no room in the reorder buffer. -/
def dropRecord (r : TraceRecord) (s : O3Cpu) : Except CoreFault O3Cpu := do
  let s ← (List.finRange numInstrDestinationsSparc).foldlM (fun s d =>
    if r.instr.destinationMemory d ≠ 0 then s.pushSta cfg.toCoreConfig s.instrUniqueId
    else .ok s) s
  .ok { s with instrUniqueId := s.instrUniqueId + 1 }

/-- The body of the loop for a record that was read: `num_reads` and `instrs_to_read_this_cycle`, and
whether to continue. -/
def takeRecord (r : TraceRecord) (numReads toRead : ℕ) (s : FrontEnd σ π) :
    Except CoreFault (FrontEnd σ π × ℕ × ℕ × Bool) :=
  if s.core.cpu.rob.occupancy < cfg.robSize then
    if r.isBranch ≠ 0 then
      let (prediction, predictor) := bp.predictBranch s.predictor r.instr.ip
      let mispredicted := decide (r.branchTaken ≠ prediction)
      match s.core.handleBranch cfg r.instr mispredicted with
      | .error fault => .error fault
      | .ok core =>
        let predictor := bp.lastBranchResult predictor r.instr.ip r.branchTaken
        let toRead := if mispredicted || prediction == 1 then 0 else toRead
        .ok ({ s with core := core, predictor := predictor }, numReads + 1, toRead,
          decide (numReads + 1 < toRead) && core.cpu.rob.occupancy != cfg.robSize)
    else
      match s.core.handleBranch cfg r.instr false with
      | .error fault => .error fault
      | .ok core => .ok ({ s with core := core }, numReads + 1, toRead,
          decide (numReads + 1 < toRead) && core.cpu.rob.occupancy != cfg.robSize)
  else
    match dropRecord cfg r s.core.cpu with
    | .error fault => .error fault
    | .ok cpu => .ok ({ s with core := { s.core with cpu := cpu } }, numReads, toRead, true)

/-- The loop of `handle_branch`. -/
def readRecords (fuel : ℕ) : ℕ → ℕ → ℕ → FrontEnd σ π → Except BranchFailure (FrontEnd σ π)
  | 0, _, _, _ => .error .outOfTurns
  | turns + 1, numReads, toRead, s =>
    match s.reader.readBytes dec file fuel fmt.size with
    | .error failure => .error (.read failure)
    | .ok (none, reader) =>
      readRecords fuel turns numReads toRead { s with reader := reader.rewindState dec }
    | .ok (some bytes, reader) =>
      match takeRecord bp cfg (fmt.decode bytes) numReads toRead { s with reader := reader } with
      | .error fault => .error (.core fault)
      | .ok (s, numReads, toRead, continueReading) =>
        if continueReading then readRecords fuel turns numReads toRead s else .ok s

/-- `handle_branch`. -/
def handleBranch (fuel turns : ℕ) (s : FrontEnd σ π) : Except BranchFailure (FrontEnd σ π) :=
  readRecords dec file fmt bp cfg fuel turns 0 cfg.fetchWidth s

/-- The simulator stops with an error. -/
def BranchFailure.Stops : BranchFailure → Prop
  | .read .decodeError | .core _ => True
  | .read .outOfFuel | .outOfTurns => False

/-- `handle_branch` returns after some turns, with a record that was read, or the simulator stops
with an error. -/
def Terminates (fuel : ℕ) (s : FrontEnd σ π) : Prop :=
  ∃ turns, Ends (handleBranch dec file fmt bp cfg fuel turns s)
    (fun s' => s.core.cpu.instrUniqueId < s'.core.cpu.instrUniqueId) BranchFailure.Stops

/-- The states of the reader that calls of `read` and `rewind` lead to. -/
inductive ReaderReached (fuel : ℕ) : TraceReader σ → Prop
  | start : ReaderReached fuel (TraceReader.start dec)
  | rewind {rd} : ReaderReached fuel rd → ReaderReached fuel (rd.rewindState dec)
  | read {rd rd' result} (nbytes : ℕ) : nbytes < fuel → ReaderReached fuel rd →
      rd.readBytes dec file fuel nbytes = .ok (result, rd') → ReaderReached fuel rd'

end

section
variable {σ π : Type} {dec : StreamDecoder σ UInt8 UInt8} {file : TraceFile} {fmt : RecordFormat}
variable {bp : BranchPredictor π} {cfg : PipelineConfig} {data : List UInt8}
variable {avail : ℕ → ℕ} {At : σ → ℕ → ℕ → Prop} {fuel : ℕ}

/-! ## Records enter the reorder buffer -/

theorem pushSta_keeps (r : InputInstr) (s : O3Cpu) :
    Ends ((List.finRange numInstrDestinationsSparc).foldlM (fun s d =>
      if r.destinationMemory d ≠ 0 then s.pushSta cfg.toCoreConfig s.instrUniqueId else .ok s) s)
      (fun s' => s'.rob = s.rob ∧ s'.instrUniqueId = s.instrUniqueId) fun _ => True := by
  refine Ends.foldlM (fun s' d _ h => ?_) ⟨rfl, rfl⟩
  split
  · rw [O3Cpu.pushSta]
    split
    · trivial
    · exact h
  · exact h

/-- One record takes one slot and one number. -/
theorem core_handleBranch_spec (cfg : PipelineConfig) (r : InputInstr) (mispredicted : Bool) (c : Core) :
    Ends (c.handleBranch cfg r mispredicted) (fun c' =>
      c'.cpu.rob.occupancy = c.cpu.rob.occupancy + 1 ∧
        c'.cpu.instrUniqueId = c.cpu.instrUniqueId + 1) fun _ => True := by
  have hcpu : Ends (c.cpu.handleBranch cfg.toCoreConfig r) (fun cpu =>
      cpu.rob.occupancy = c.cpu.rob.occupancy + 1 ∧
        cpu.instrUniqueId = c.cpu.instrUniqueId + 1) fun _ => True := by
    refine (pushSta_keeps r c.cpu).bind fun s hs => ?_
    rw [O3Cpu.addToRob]
    split
    · trivial
    · split
      · trivial
      · exact ⟨congrArg (·.occupancy + 1) hs.1, congrArg (· + 1) hs.2⟩
  refine hcpu.bind fun cpu h => ?_
  split
  · exact h
  · exact h

/-- Where the buffer has room, a record is read, and the loop goes on only while it wants more and
the buffer has room. -/
theorem takeRecord_spec (bp : BranchPredictor π) (cfg : PipelineConfig) (r : TraceRecord)
    (numReads toRead : ℕ) (s : FrontEnd σ π)
    (hroom : s.core.cpu.rob.occupancy < cfg.robSize) :
    Ends (takeRecord bp cfg r numReads toRead s) (fun t =>
      t.1.reader = s.reader ∧ s.core.cpu.instrUniqueId < t.1.core.cpu.instrUniqueId ∧
        t.2.1 = numReads + 1 ∧ (t.2.2.2 = true → numReads + 1 < t.2.2.1 ∧ t.2.2.1 ≤ toRead ∧
          t.1.core.cpu.rob.occupancy < cfg.robSize)) fun _ => True := by
  rw [takeRecord, if_pos hroom]
  split
  · have hspec := core_handleBranch_spec cfg r.instr
      (decide (r.branchTaken ≠ (bp.predictBranch s.predictor r.instr.ip).1)) s.core
    dsimp only
    split
    · trivial
    · rename_i core hcore
      obtain ⟨hocc, hid⟩ := hspec.of_ok hcore
      have hlt : s.core.cpu.instrUniqueId < core.cpu.instrUniqueId := by omega
      refine ⟨rfl, hlt, rfl, fun hmore => ?_⟩
      simp only [Bool.and_eq_true, decide_eq_true_eq, bne_iff_ne] at hmore
      have hroom' : core.cpu.rob.occupancy < cfg.robSize := by omega
      refine ⟨hmore.1, ?_, hroom'⟩
      split
      · exact Nat.zero_le _
      · exact Nat.le_refl _
  · have hspec := core_handleBranch_spec cfg r.instr false s.core
    split
    · trivial
    · rename_i core hcore
      obtain ⟨hocc, hid⟩ := hspec.of_ok hcore
      have hlt : s.core.cpu.instrUniqueId < core.cpu.instrUniqueId := by omega
      refine ⟨rfl, hlt, rfl, fun hmore => ?_⟩
      simp only [Bool.and_eq_true, decide_eq_true_eq, bne_iff_ne] at hmore
      have hroom' : core.cpu.rob.occupancy < cfg.robSize := by omega
      exact ⟨hmore.1, Nat.le_refl _, hroom'⟩

/-! ## The loop ends -/

section
variable (hd : dec.Decodes file.bytes data avail At)
  (hfuel : file.bytes.length + data.length + 2 ≤ fuel) (hsize : fmt.size < fuel)
include hd hfuel hsize

/-- A turn that finds a record. -/
theorem readRecords_read {s : FrontEnd σ π} {rest : List UInt8} {numReads toRead turns : ℕ}
    (hs : TraceReader.Serves file data At s.reader rest) (hrest : fmt.size ≤ rest.length)
    (hroom : s.core.cpu.rob.occupancy < cfg.robSize)
    (hnext : ∀ s' rest' toRead', TraceReader.Serves file data At s'.reader rest' →
      s'.core.cpu.rob.occupancy < cfg.robSize →
      s.core.cpu.instrUniqueId < s'.core.cpu.instrUniqueId → numReads + 1 < toRead' →
      toRead' ≤ toRead → Ends (readRecords dec file fmt bp cfg fuel turns (numReads + 1) toRead' s')
        (fun t => s.core.cpu.instrUniqueId < t.core.cpu.instrUniqueId) BranchFailure.Stops) :
    Ends (readRecords dec file fmt bp cfg fuel (turns + 1) numReads toRead s)
      (fun t => s.core.cpu.instrUniqueId < t.core.cpu.instrUniqueId) BranchFailure.Stops := by
  obtain ⟨rd, hrd, hread⟩ := hs.readBytes_spec hd hfuel hsize
  rw [if_pos hrest] at hrd hread
  rw [readRecords, hread]
  have hspec := takeRecord_spec bp cfg (fmt.decode (rest.take fmt.size)) numReads toRead
    { s with reader := rd } hroom
  cases htake : takeRecord bp cfg (fmt.decode (rest.take fmt.size)) numReads toRead
      { s with reader := rd } with
  | error fault =>
    simp only [htake]
    trivial
  | ok t =>
    obtain ⟨s', numReads', toRead', more⟩ := t
    obtain ⟨hreader, hid, rfl, hmore⟩ := hspec.of_ok htake
    simp only [htake]
    cases more with
    | true =>
      obtain ⟨hlt, hle, hroom'⟩ := hmore rfl
      have hserves : TraceReader.Serves file data At s'.reader (rest.drop fmt.size) := by
        rw [hreader]
        exact hrd
      exact hnext s' _ toRead' hserves hroom' hid hlt hle
    | false => exact hid

/-- A turn that finds too little. -/
theorem readRecords_rewind (bp : BranchPredictor π) (cfg : PipelineConfig) {s : FrontEnd σ π}
    {rest : List UInt8} (numReads toRead turns : ℕ)
    (hs : TraceReader.Serves file data At s.reader rest) (hrest : ¬ fmt.size ≤ rest.length) :
    ∃ rd, TraceReader.Serves file data At rd data ∧
      readRecords dec file fmt bp cfg fuel (turns + 1) numReads toRead s =
        readRecords dec file fmt bp cfg fuel turns numReads toRead { s with reader := rd } := by
  obtain ⟨rd, -, hread⟩ := hs.readBytes_spec hd hfuel hsize
  rw [if_neg hrest] at hread
  refine ⟨rd.rewindState dec, TraceReader.serves_rewindState hd rd, ?_⟩
  rw [readRecords, hread]

/-- Where the trace holds a record, two turns are enough for each record that is wanted. -/
theorem readRecords_ends (hdata : fmt.size ≤ data.length) (k : ℕ) :
    ∀ {s : FrontEnd σ π} {rest : List UInt8} {numReads toRead turns : ℕ},
      TraceReader.Serves file data At s.reader rest → s.core.cpu.rob.occupancy < cfg.robSize →
      toRead ≤ numReads + k → 2 * k + 2 ≤ turns →
      Ends (readRecords dec file fmt bp cfg fuel turns numReads toRead s)
        (fun t => s.core.cpu.instrUniqueId < t.core.cpu.instrUniqueId) BranchFailure.Stops := by
  induction k with
  | zero =>
    intro s rest numReads toRead turns hs hroom hwant hturns
    obtain ⟨turns, rfl⟩ := Nat.exists_eq_add_of_le' hturns
    by_cases hrest : fmt.size ≤ rest.length
    · refine readRecords_read hd hfuel hsize hs hrest hroom fun _ _ toRead' _ _ _ hlt hle => ?_
      omega
    · obtain ⟨rd, hrd, hrewind⟩ := readRecords_rewind hd hfuel hsize bp cfg numReads toRead _ hs hrest
      rw [hrewind]
      refine readRecords_read hd hfuel hsize hrd hdata hroom fun _ _ toRead' _ _ _ hlt hle => ?_
      omega
  | succ k ih =>
    intro s rest numReads toRead turns hs hroom hwant hturns
    -- what follows the next record
    have hnext : ∀ s₀ : FrontEnd σ π, ∀ turns', 2 * k + 2 ≤ turns' → ∀ s' rest' toRead',
        TraceReader.Serves file data At s'.reader rest' →
        s'.core.cpu.rob.occupancy < cfg.robSize →
        s₀.core.cpu.instrUniqueId < s'.core.cpu.instrUniqueId → numReads + 1 < toRead' →
        toRead' ≤ toRead →
        Ends (readRecords dec file fmt bp cfg fuel turns' (numReads + 1) toRead' s')
          (fun t => s₀.core.cpu.instrUniqueId < t.core.cpu.instrUniqueId)
          BranchFailure.Stops := by
      intro s₀ turns' hturns' s' rest' toRead' hs' hroom' hid hlt hle
      have hwant' : toRead' ≤ numReads + 1 + k := by omega
      have hends := ih hs' hroom' hwant' hturns'
      exact hends.mono (fun t ht => Nat.lt_trans hid ht) fun _ he => he
    obtain ⟨turns, rfl⟩ : ∃ m, turns = m + 2 := ⟨turns - 2, by omega⟩
    by_cases hrest : fmt.size ≤ rest.length
    · exact readRecords_read hd hfuel hsize hs hrest hroom (hnext s _ (by omega))
    · obtain ⟨rd, hrd, hrewind⟩ := readRecords_rewind hd hfuel hsize bp cfg numReads toRead _ hs hrest
      rw [hrewind]
      exact readRecords_read hd hfuel hsize hrd hdata hroom (hnext { s with reader := rd } _
        (by omega))

/-- Where the trace holds less than a record, no turn is the last one. -/
theorem readRecords_short (hdata : data.length < fmt.size) (turns : ℕ) :
    ∀ {s : FrontEnd σ π} {rest : List UInt8} {numReads toRead : ℕ},
      TraceReader.Serves file data At s.reader rest → rest.length ≤ data.length →
      readRecords dec file fmt bp cfg fuel turns numReads toRead s = .error .outOfTurns := by
  induction turns with
  | zero =>
    intro s rest numReads toRead _ _
    rfl
  | succ turns ih =>
    intro s rest numReads toRead hs hrest
    obtain ⟨rd, hrd, hrewind⟩ := readRecords_rewind hd hfuel hsize bp cfg numReads toRead turns hs
      (by omega)
    rw [hrewind]
    exact ih hrd (Nat.le_refl _)

omit hsize in
/-- A reader that calls led to is in the stream. -/
theorem ReaderReached.serves {rd : TraceReader σ} (h : ReaderReached dec file fuel rd) :
    ∃ rest, TraceReader.Serves file data At rd rest ∧ rest.length ≤ data.length := by
  induction h with
  | start => exact ⟨data, TraceReader.serves_start hd, Nat.le_refl _⟩
  | rewind _ _ => exact ⟨data, TraceReader.serves_rewindState hd _, Nat.le_refl _⟩
  | read nbytes hn _ hread ih =>
    obtain ⟨rest, hs, hle⟩ := ih
    obtain ⟨rd, hrd, hok⟩ := hs.readBytes_spec hd hfuel hn
    rw [hread] at hok
    cases hok
    refine ⟨_, hrd, ?_⟩
    split
    · rw [List.length_drop]
      omega
    · exact Nat.zero_le _

end

end

/-- `handle_branch` terminates if and only if the decoded trace holds a record, whatever was read
before, whatever the core and the predictor. -/
theorem handleBranch_terminates_iff {σ π : Type} {dec : StreamDecoder σ UInt8 UInt8}
    {file : TraceFile} {data : List UInt8} {avail : ℕ → ℕ} {At : σ → ℕ → ℕ → Prop}
    (hd : dec.Decodes file.bytes data avail At) (fmt : RecordFormat) (bp : BranchPredictor π)
    (cfg : PipelineConfig) {fuel : ℕ} (hfuel : file.bytes.length + data.length + 2 ≤ fuel)
    (hsize : fmt.size < fuel) (s : FrontEnd σ π)
    (hreader : ReaderReached dec file fuel s.reader)
    (hroom : s.core.cpu.rob.occupancy < cfg.robSize) :
    Terminates dec file fmt bp cfg fuel s ↔ fmt.size ≤ data.length := by
  obtain ⟨rest, hs, hrest⟩ := hreader.serves hd hfuel
  constructor
  · rintro ⟨turns, hends⟩
    by_contra hdata
    rw [handleBranch, readRecords_short hd hfuel hsize (Nat.lt_of_not_le hdata) turns hs hrest]
      at hends
    exact hends
  · intro hdata
    exact ⟨_, readRecords_ends hd hfuel hsize hdata cfg.fetchWidth hs hroom (by omega)
      (Nat.le_refl _)⟩

/-- Two instructions have eight destinations. -/
theorem staSize_two : 8 = 2 * numInstrDestinationsSparc := rfl

/-- A core of two slots. -/
def twoSlots : PipelineConfig where
  robSize := 2
  schedulerSize := 2
  staSize := 8
  lqSize := 2
  sqSize := 2
  lqWidth := 1
  sqWidth := 1
  execWidth := 1
  retireWidth := 1
  schedulingLatency := 0
  execLatency := 0
  fetchWidth := 2
  branchMispredictPenalty := 0
  robSize_gt := Nat.one_lt_two
  lqSize_pos := Nat.two_pos
  sqSize_pos := Nat.two_pos
  staSize_eq := staSize_two

/-- The predictor that never takes a branch. -/
def neverTaken : BranchPredictor Unit where
  predictBranch _ _ := (0, ())
  lastBranchResult _ _ _ := ()

/-- A core that has not started, with a trace that was opened. -/
def opened : FrontEnd (List UInt8) Unit where
  core := ⟨.init, ⟨1, 1, false, 0⟩⟩
  reader := .start (.stored UInt8)
  predictor := ()

/-- A trace of one record. -/
theorem handleBranch_terminates_iff_record :
    Terminates (.stored UInt8) ⟨List.replicate 64 7, fun _ => 0⟩ .inputInstr neverTaken twoSlots 130
      opened :=
  (@handleBranch_terminates_iff _ _ _ ⟨List.replicate 64 7, fun _ => 0⟩ _ _ _
    (StreamDecoder.stored_decodes (List.replicate 64 7)) .inputInstr neverTaken twoSlots 130
    (by decide) (by decide) opened .start (by decide)).2 (by decide)

/-- A trace of one byte is read forever. -/
theorem handleBranch_never_returns : ¬ ∀ bytes : List UInt8,
    Terminates (.stored UInt8) ⟨bytes, fun _ => 0⟩ .inputInstr neverTaken twoSlots
      (2 * bytes.length + 100) opened := by
  intro h
  obtain ⟨turns, hends⟩ := h [0]
  have hshort := @readRecords_short _ _ _ ⟨[0], fun _ => 0⟩ .inputInstr neverTaken twoSlots _ _ _
    (2 * [(0 : UInt8)].length + 100) (StreamDecoder.stored_decodes [0]) (by decide) (by decide)
    (by decide) turns opened [0] 0 twoSlots.fetchWidth
    (TraceReader.serves_start (StreamDecoder.stored_decodes [0])) (by decide)
  rw [handleBranch, hshort] at hends
  exact hends

end FrontEnd

end Arishem
