import Arishem.Core.WakeRuns
import Arishem.Cache.Bookkeeping
import Arishem.Cache.Configs

/-!
# The core with its instruction caches

The core of the simulator asks its own ITLB and L1I: a request of `fetch_instruction` is a packet that
`add_rq` takes or refuses, and `complete_instr_fetch` takes the packets that these caches put into
`PROCESSED`. The levels below them answer after any delay.
-/

namespace Arishem

/-- What happens in a core with its instruction caches. -/
inductive FetchLabel
  /-- A stage of the core that asks neither cache. -/
  | core (l : CoreLabel)
  /-- `fetch_instruction`. -/
  | fetchInstruction
  /-- The call of `complete_instr_fetch` in `update_rob`. -/
  | completeInstrFetch (isItTlb : Bool)
  /-- A part of `operate` of the ITLB, or an answer of the STLB. -/
  | itlb (a : Action)
  /-- A part of `operate` of the L1I, or an answer of the L2C. -/
  | l1i (a : Action)

/-- A core, its ITLB and its L1I, and the physical addresses of the slots of the reorder buffer. -/
structure FetchSystem where
  system : CoreSystem
  itlb : Cache
  l1i : Cache
  /-- `instruction_pa`. -/
  instructionPa : ℕ → Addr

namespace FetchSystem

/-- Before the first instruction. -/
def init (cfg : PipelineConfig) : FetchSystem where
  system := .init cfg
  itlb := .init (itlbConfig 1)
  l1i := .init (l1iConfig 1)
  instructionPa := fun _ => 0

/-- The `trace_packet` of `fetch_instruction`. -/
def tracePacket (s : FetchSystem) (r : FetchRequest) : Packet :=
  let e := s.system.core.cpu.rob.entry r.robIndex
  { Packet.empty 1 with
    instruction := true, tlbAccess := true, fillLevel := fillL1, cpu := 0,
    address := e.ip >>> log2PageSize, fullAddr := e.ip, instrId := UInt64.ofNat r.instrId,
    robIndex := r.robIndex, ip := e.ip, type := .load,
    eventCycle := s.system.core.cpu.currentCoreCycle }

/-- The `fetch_packet` of `fetch_instruction`. -/
def fetchPacket (s : FetchSystem) (r : FetchRequest) : Packet :=
  let pa := s.instructionPa r.robIndex
  { Packet.empty 1 with
    instruction := true, fillLevel := fillL1, cpu := 0, address := pa >>> log2BlockSize,
    instructionPa := pa, fullAddr := pa, instrId := UInt64.ofNat r.instrId, robIndex := r.robIndex,
    ip := (s.system.core.cpu.rob.entry r.robIndex).ip, type := .load,
    eventCycle := s.system.core.cpu.currentCoreCycle }

/-- Calls of `add_rq` until one is refused, with the number of those before it. -/
def sendAll (cfg : Config) (env : Env) (c : Cache) : List Packet → Option (ℕ × Cache)
  | [] => some (0, c)
  | p :: ps =>
    match c.addRq cfg env p with
    | none => none
    | some (.full, c, _) => some (0, c)
    | some (_, c, _) => (sendAll cfg env c ps).map fun r => (r.1 + 1, r.2)

/-- The requests to the ITLB. -/
def toItlb : CoreEvent → Option FetchRequest
  | .toItlb r => some r
  | _ => none

/-- The requests to the L1I. -/
def toL1i : CoreEvent → Option FetchRequest
  | .toL1i r => some r
  | _ => none

/-- `fetch_instruction`: its loops end where the caches refuse a request. -/
def fetchInstruction (cfg : PipelineConfig) (env : Env) (s : FetchSystem) :
    Option (FetchSystem × List CoreEvent) :=
  match s.system.step cfg (.fetchInstruction cfg.fetchWidth cfg.fetchWidth) with
  | none => none
  | some (_, os) =>
    match sendAll (itlbConfig 1) env s.itlb ((os.filterMap toItlb).map s.tracePacket),
      sendAll (l1iConfig 1) env s.l1i ((os.filterMap toL1i).map s.fetchPacket) with
    | some (n, itlb), some (m, l1i) =>
      (s.system.step cfg (.fetchInstruction n m)).map fun r =>
        ({ s with system := r.1, itlb := itlb, l1i := l1i }, r.2)
    | _, _ => none

/-- The open requests of the slots of a set, the latest one of each. -/
def openRequests (n : ℕ) (a : Finset ℕ) (requests : List FetchRequest) : List FetchRequest :=
  (expand n a).filterMap fun i => (requests.filter (·.robIndex = i)).getLast?

/-- The slots that a packet names for merged requests. -/
def merged (p : Packet) : Finset ℕ := if p.instrMerged then p.robIndexDependOnMe else ∅

/-- The packet at the head of `PROCESSED`. -/
def answer (s : FetchSystem) (isItTlb : Bool) : Option Packet :=
  (if isItTlb then s.itlb else s.l1i).processed.head?

/-- The address that `complete_instr_fetch` gives to an instruction. -/
def translation (s : FetchSystem) (p : Packet) (i : ℕ) : Addr :=
  p.instructionPa <<< log2PageSize |||
    (s.system.core.cpu.rob.entry i).ip &&& ((1 <<< log2PageSize) - 1)

/-- The call of `complete_instr_fetch` for a packet. A packet that names a slot without an open request
is no step. -/
def completeWith (cfg : PipelineConfig) (isItTlb : Bool) (p : Packet) (s : FetchSystem) :
    Option (FetchSystem × List CoreEvent) :=
  let requests :=
    openRequests cfg.robSize (merged p) (if isItTlb then s.system.itlb else s.system.l1i)
  if (requests.map (·.robIndex)).toFinset = merged p then
    (s.system.step cfg
      (.completeInstrFetch isItTlb ⟨p.robIndex.toNat, p.instrId.toNat⟩ requests)).map fun r =>
        if isItTlb then
          ({ s with
              system := r.1
              itlb := { s.itlb with processed := s.itlb.processed.tail }
              instructionPa := fun i =>
                if i = p.robIndex ∨ i ∈ merged p then s.translation p i else s.instructionPa i },
            r.2)
        else
          ({ s with system := r.1, l1i := { s.l1i with processed := s.l1i.processed.tail } }, r.2)
  else none

/-- `update_rob` takes an answer that is due. -/
def completeInstrFetch (cfg : PipelineConfig) (isItTlb : Bool) (s : FetchSystem) :
    Option (FetchSystem × List CoreEvent) :=
  match s.answer isItTlb with
  | none => some (s, [])
  | some p =>
    if p.eventCycle ≤ s.system.core.cpu.currentCoreCycle then completeWith cfg isItTlb p s
    else some (s, [])

/-- When the main loop calls a stage. -/
def calls (s : CoreSystem) : CoreLabel → Prop
  | .scheduleInstruction =>
    (s.core.cpu.rob.entry s.core.cpu.rob.nextSchedule).scheduled = .none ∧
      (s.core.cpu.rob.entry s.core.cpu.rob.nextSchedule).eventCycle ≤ s.core.cpu.currentCoreCycle
  | .retireRob _ =>
    (s.core.cpu.rob.entry s.core.cpu.rob.head).executed = .completed ∧
      (s.core.cpu.rob.entry s.core.cpu.rob.head).eventCycle ≤ s.core.cpu.currentCoreCycle
  | _ => True

instance (s : CoreSystem) : (l : CoreLabel) → Decidable (calls s l)
  | .scheduleInstruction | .retireRob _ => inferInstanceAs (Decidable (_ ∧ _))
  | .tick | .handleBranch _ _ | .fetchInstruction _ _ | .executeInstruction
  | .scheduleMemoryInstruction | .operateLsq _ _ _ | .completeInstrFetch _ _ _
  | .completeDataFetch _ _ | .completeExecutions => isTrue trivial

/-- A stage of the core, where the main loop calls it. -/
def coreStage (cfg : PipelineConfig) (l : CoreLabel) (s : FetchSystem) :
    Option (FetchSystem × List CoreEvent) :=
  if calls s.system l then
    (s.system.step cfg l).map fun r => ({ s with system := r.1 }, r.2)
  else some (s, [])

/-- A step at the cycle that the core shows. -/
def step (cfg : PipelineConfig) (s : FetchSystem) (l : Env × FetchLabel) :
    Option (FetchSystem × List CoreEvent) :=
  if l.1.cycle 0 ≠ s.system.core.cpu.currentCoreCycle then none
  else
    match l.2 with
    | .core (.fetchInstruction _ _) => none
    | .core (.completeInstrFetch _ _ _) => none
    | .core l => s.coreStage cfg l
    | .fetchInstruction => s.fetchInstruction cfg l.1
    | .completeInstrFetch isItTlb => s.completeInstrFetch cfg isItTlb
    | .itlb (.addRq _) => none
    | .itlb (.updateRob _) => none
    | .itlb a => (s.itlb.act (itlbConfig 1) l.1 a).map fun r => ({ s with itlb := r.1 }, [])
    | .l1i (.addRq _) => none
    | .l1i (.updateRob _) => none
    | .l1i a => (s.l1i.act (l1iConfig 1) l.1 a).map fun r => ({ s with l1i := r.1 }, [])

/-- The core with its instruction caches as a labelled system. -/
def lts (cfg : PipelineConfig) : Lts FetchSystem (Env × FetchLabel) CoreEvent where
  init := fun s => s = init cfg
  step := step cfg

/-- The levels below answer only what is in flight. -/
def ReturnsInflight (s : FetchSystem) (l : Env × FetchLabel) : Prop :=
  match l.2 with
  | .itlb a => Arishem.ReturnsInflight s.itlb (l.1, a)
  | .l1i a => Arishem.ReturnsInflight s.l1i (l.1, a)
  | _ => True

instance (s : FetchSystem) (l : Env × FetchLabel) : Decidable (ReturnsInflight s l) := by
  unfold ReturnsInflight
  split <;> infer_instance

/-- The slots that the next answer of a cache marks for merged requests hold instructions. -/
def AnswersLive (cfg : PipelineConfig) (s : FetchSystem) (l : Env × FetchLabel) : Prop :=
  ∀ isItTlb, l.2 = .completeInstrFetch isItTlb → ∀ p, s.answer isItTlb = some p →
    ∀ i ∈ merged p, s.system.core.cpu.Live cfg.toCoreConfig i

/-- What a step does to the core: it is one of the core, which marks only slots that hold instructions
where the answer does, or it leaves the core as it is. -/
inductive CoreStep (cfg : PipelineConfig) (live : Prop) (s : CoreSystem) :
    CoreSystem × List CoreEvent → Prop
  | own {r : CoreSystem × List CoreEvent} (l : CoreLabel) (hs : s.step cfg l = some r)
      (hl : live → CoreSystem.MarksLive cfg s l) : CoreStep cfg live s r
  | stutter : CoreStep cfg live s (s, [])

section
variable {cfg : PipelineConfig} {s s' : FetchSystem} {l : Env × FetchLabel} {os : List CoreEvent}
  {live : Prop}

/-! ## Runs of the core -/

theorem coreStep_of_map {f : CoreSystem × List CoreEvent → FetchSystem × List CoreEvent}
    {cl : CoreLabel} (hs : (s.system.step cfg cl).map f = some (s', os))
    (hf : ∀ r, ((f r).1.system, (f r).2) = r)
    (hl : live → CoreSystem.MarksLive cfg s.system cl) :
    CoreStep cfg live s.system (s'.system, os) := by
  obtain ⟨r, hr, heq⟩ := Option.map_eq_some_iff.1 hs
  have hsame := hf r
  rw [heq] at hsame
  subst hsame
  exact .own cl hr hl

theorem fetchInstruction_core {env : Env} (hs : s.fetchInstruction cfg env = some (s', os)) :
    CoreStep cfg live s.system (s'.system, os) := by
  unfold fetchInstruction at hs
  split at hs <;> [cases hs; skip]
  split at hs
  · exact coreStep_of_map hs (fun _ => rfl) fun _ => trivial
  · cases hs

theorem completeInstrFetch_core {isItTlb : Bool}
    (hlive : live → ∀ p, s.answer isItTlb = some p →
      ∀ i ∈ merged p, s.system.core.cpu.Live cfg.toCoreConfig i)
    (hs : s.completeInstrFetch cfg isItTlb = some (s', os)) :
    CoreStep cfg live s.system (s'.system, os) := by
  unfold completeInstrFetch at hs
  split at hs
  · cases hs
    exact .stutter
  rename_i p hp
  split at hs
  · obtain ⟨hmerged, hs⟩ := Option.ite_none_right_eq_some.1 hs
    refine coreStep_of_map hs (fun r => ?_) fun hl r hr => ?_
    · cases isItTlb <;> rfl
    · refine hlive hl p hp r.robIndex ?_
      rw [← hmerged]
      exact List.mem_toFinset.2 (List.mem_map_of_mem hr)
  · cases hs
    exact .stutter

theorem coreStage_core {cl : CoreLabel} (hs : s.coreStage cfg cl = some (s', os))
    (hl : live → CoreSystem.MarksLive cfg s.system cl) :
    CoreStep cfg live s.system (s'.system, os) := by
  unfold coreStage at hs
  split at hs
  · exact coreStep_of_map hs (fun _ => rfl) hl
  · cases hs
    exact .stutter

/-- A part of `operate` of a cache leaves the core as it is. -/
theorem cacheStep_core {f : Cache → FetchSystem} {r : Option (Cache × List CacheEvent)}
    (hf : ∀ c, (f c).system = s.system)
    (hs : (r.map fun r => (f r.1, ([] : List CoreEvent))) = some (s', os)) :
    CoreStep cfg live s.system (s'.system, os) := by
  obtain ⟨c, -, heq⟩ := Option.map_eq_some_iff.1 hs
  cases heq
  rw [hf]
  exact .stutter

theorem step_core (hs : s.step cfg l = some (s', os)) :
    CoreStep cfg (AnswersLive cfg s l) s.system (s'.system, os) := by
  obtain ⟨env, l⟩ := l
  unfold step at hs
  split at hs <;> [cases hs; skip]
  cases l with
  | core cl =>
    cases cl with
    | fetchInstruction => cases hs
    | completeInstrFetch => cases hs
    | tick | handleBranch | scheduleInstruction | executeInstruction | scheduleMemoryInstruction
    | operateLsq | completeDataFetch | completeExecutions | retireRob =>
      exact coreStage_core hs fun _ => trivial
  | fetchInstruction => exact fetchInstruction_core hs
  | completeInstrFetch isItTlb => exact completeInstrFetch_core (fun hl => hl isItTlb rfl) hs
  | itlb a =>
    cases a with
    | addRq | updateRob => cases hs
    | _ => exact cacheStep_core (f := fun c => { s with itlb := c }) (fun _ => rfl) hs
  | l1i a =>
    cases a with
    | addRq | updateRob => cases hs
    | _ => exact cacheStep_core (f := fun c => { s with l1i := c }) (fun _ => rfl) hs

/-- The core takes a run of its own, and what is seen of it is the same. -/
theorem core_run {tr : Lts.Trace (Env × FetchLabel) CoreEvent}
    (h : (lts cfg).Run (AnswersLive cfg) s tr) :
    ∃ tr', (CoreSystem.lts cfg).Run (CoreSystem.MarksLive cfg) s.system tr' ∧
      noted CoreEvent.readyId tr' = noted CoreEvent.readyId tr := by
  refine h.induct (P := fun s tr => ∃ tr',
    (CoreSystem.lts cfg).Run (CoreSystem.MarksLive cfg) s.system tr' ∧
      noted CoreEvent.readyId tr' = noted CoreEvent.readyId tr)
    ?_ fun s tr l s' os _ ih hl hs => ?_
  · rintro s rfl
    exact ⟨[], .init rfl, rfl⟩
  · obtain ⟨tr', hrun, hsame⟩ := ih
    rw [CoreSystem.noted_append]
    have hcore := step_core hs
    generalize hr : (s'.system, os) = r at hcore
    cases hcore with
    | own cl hcs hmarks =>
      subst hr
      exact ⟨_, hrun.step (hmarks hl) hcs, by rw [CoreSystem.noted_append, hsame]⟩
    | stutter =>
      obtain ⟨hsystem, rfl⟩ := Prod.mk.inj hr
      rw [hsystem]
      exact ⟨tr', hrun, by rw [hsame, List.filterMap_nil, List.append_nil]⟩

/-- Where the answers mark only slots that hold instructions, register wake-up loses none. -/
theorem wakes_each_answered {tr : Lts.Trace (Env × FetchLabel) CoreEvent}
    (h : (lts cfg).Run (AnswersLive cfg) s tr) : CoreSystem.WakesEach cfg tr s.system := by
  obtain ⟨tr', hrun, hsame⟩ := core_run h
  exact CoreSystem.wakesEach_of_noted (hsame ▸ CoreSystem.noted_run hrun)

/-! ## A slot that is empty when it is marked -/

/-- An answer from below. -/
def answerOf (address data : UInt64) : Packet :=
  { Packet.empty 1 with
    instruction := true, fillLevel := fillL1, cpu := 0, address := address, data := data }

/-- A turn of the main loop: the instructions that are read, the pages that the STLB translates, and the
lines that the L2C returns. -/
def turn (reads : List (InputInstr × Bool)) (pages : List (Addr × UInt64)) (lines : List Addr) :
    List FetchLabel :=
  reads.map (fun r => FetchLabel.core (.handleBranch r.1 r.2)) ++
    [FetchLabel.fetchInstruction, .core .scheduleInstruction, .core .executeInstruction,
      .core .scheduleMemoryInstruction, .core (.operateLsq 0 0 0)] ++
    (itlbConfig 1).operate.map FetchLabel.itlb ++
    pages.map (fun p => FetchLabel.itlb (.returnData (answerOf p.1 p.2))) ++
    (l1iConfig 1).operate.map FetchLabel.l1i ++
    lines.map (fun a => FetchLabel.l1i (.returnData (answerOf a 0))) ++
    [FetchLabel.completeInstrFetch true, .completeInstrFetch false, .core .completeExecutions,
      .core (.retireRob fun _ => true), .core .tick]

end

end FetchSystem

end Arishem
