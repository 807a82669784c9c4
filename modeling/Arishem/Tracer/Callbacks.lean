import Arishem.Lib.Lts
import Arishem.Tracer.State

/-!
# The callbacks of the tracer

The analysis callbacks, thread start and exit, and the instrumentation of a trace, each taken as one
atomic step. A callback works on the state of its thread and on the globals, and writes the thread's
state back at its end; no other thread reads it in between.
-/

namespace Arishem

/-- `CHAMPSIM_ROI_BEGIN`. -/
def champsimRoiBegin : UInt64 := 1

/-- `CHAMPSIM_ROI_END`. -/
def champsimRoiEnd : UInt64 := 2

/-- `CHAMPSIM_REGISTER_WORKER`. -/
def champsimRegisterWorker : UInt64 := 3

/-- A thread's state and the globals in the course of a callback, with what was done outside so
far. -/
structure Effect where
  thread : ThreadState
  tracer : Tracer
  outputs : List Output

namespace ThreadState

/-- `open_next_sample`; `opens` says whether the file and the compressor could be opened. -/
def openNextSample (opens : Bool) (ts : ThreadState) : ThreadState := { ts with sampleOpen := opens }

/-- What `open_next_sample` does outside. -/
def openOutputs (opens : Bool) (tid : ℕ) : List Output := if opens then [.openSample tid] else []

/-- `close_sample` and `force_close`. -/
def closeSample (ts : ThreadState) : ThreadState := { ts with sampleOpen := false }

/-- The start of `finish_sample`: the sample is closed and counted. -/
def sampleClosed (ts : ThreadState) : ThreadState :=
  { ts.closeSample with samplesCollected := ts.samplesCollected + 1 }

/-- The start of a sample window. -/
def startWindow (ts : ThreadState) : ThreadState :=
  { ts with phase := .tracing, counter := ts.tracePerSample }

end ThreadState

namespace Tracer

variable (kn : Knobs) (opens : Bool) (tid : ℕ)

/-! ## Phase transitions -/

/-- `mark_started_tracing`. -/
def markStartedTracing (ts : ThreadState) (s : Tracer) : ThreadState × Tracer :=
  if ts.everStartedTracing then (ts, s)
  else ({ ts with everStartedTracing := true },
    { s with threadsStartedTracing := s.threadsStartedTracing + 1 })

/-- The condition of `maybe_exit_on_done`. -/
def exitDue (s : Tracer) : Prop :=
  kn.exitOnDone = true ∧ s.threadsStartedTracing ≠ 0 ∧
    s.threadsStartedTracing ≤ s.threadsReachedDone ∧ s.exitTriggered = false

instance (s : Tracer) : Decidable (s.exitDue kn) := by
  unfold exitDue
  infer_instance

/-- `maybe_exit_on_done`. -/
def maybeExitOnDone (s : Tracer) : Tracer × List Output :=
  if s.exitDue kn then ({ s with exitTriggered := true }, [.exitApplication]) else (s, [])

/-- `mark_reached_done`. -/
def markReachedDone (ts : ThreadState) (s : Tracer) : Effect :=
  if ts.everReachedDone then ⟨ts, s, []⟩
  else
    let s := { s with threadsReachedDone := s.threadsReachedDone + 1 }
    ⟨{ ts with everReachedDone := true }, (s.maybeExitOnDone kn).1, (s.maybeExitOnDone kn).2⟩

/-- A thread becomes active: it opens a sample and is counted. -/
def activate (ts : ThreadState) (s : Tracer) : ThreadState × Tracer :=
  markStartedTracing (ts.openNextSample opens)
    { s with activeTracingThreads := s.activeTracingThreads + 1 }

/-- `enter_tracing`. -/
def enterTracing (ts : ThreadState) (s : Tracer) : Effect :=
  ⟨(s.activate opens ts).1, (s.activate opens ts).2.removeInstrumentation,
    ThreadState.openOutputs opens tid⟩

/-- A thread is not active any more. -/
def deactivate (s : Tracer) : Tracer :=
  { s with activeTracingThreads := s.activeTracingThreads - 1 }

/-- `finish_sample`, and whether the thread goes on with the next sample. -/
def finishSample (ts : ThreadState) (s : Tracer) : Bool × Effect :=
  let ts := ts.sampleClosed
  if 0 < ts.sampleLimit ∧ ts.sampleLimit ≤ ts.samplesCollected then
    (false, s.markReachedDone kn { ts with phase := .done })
  else if 0 < ts.interSampleSkip then
    (false, ⟨{ ts with phase := .interSkip, counter := ts.interSampleSkip }, s, []⟩)
  else (true, ⟨ts.startWindow.openNextSample opens, s, ThreadState.openOutputs opens tid⟩)

/-- `leave_tracing`. -/
def leaveTracing (ts : ThreadState) (s : Tracer) : Effect :=
  match s.finishSample kn opens tid ts with
  | (true, e) => e
  | (false, e) => { e with tracer := e.tracer.deactivate.removeInstrumentation }

/-- What ends the tracing of a thread at the end of the ROI. -/
def stopTracing (ts : ThreadState) (s : Tracer) : Effect :=
  if ts.phase = .tracing then
    s.deactivate.markReachedDone kn { ts.closeSample with phase := .done }
  else s.markReachedDone kn { ts with phase := .done }

/-- The end of a callback: the thread's state is written back. -/
def store (e : Effect) : Tracer × List Output := (e.tracer.setState tid (some e.thread), e.outputs)

/-! ## Analysis callbacks -/

/-- `HandleMarker` for the begin of the ROI; only the first one counts. -/
def roiBegin (s : Tracer) : Tracer × List Output :=
  if s.roiStarted then (s, [])
  else
    let s := { s with roiStarted := true }
    match s.getState tid with
    | none => (s, [])
    | some ts =>
      let ts := { ts with isMaster := true }
      if kn.skipMasterTracing then store tid (s.markReachedDone kn { ts with phase := .done })
      else if ts.phase = .waitingForRoi ∨ ts.phase = .initialSkip then
        store tid (s.enterTracing opens tid ts.startWindow)
      else (s.setState tid (some ts), [])

/-- `HandleMarker` for the registration of a worker. -/
def registerWorker (s : Tracer) : Tracer × List Output :=
  match s.getState tid with
  | none => (s, [])
  | some ts => (s.setState tid (some { ts with isRegisteredWorker := true }), [])

/-- `HandleMarker` for the end of the ROI; only the first one counts. -/
def roiEnd (s : Tracer) : Tracer × List Output :=
  if s.roiEnded then (s, [])
  else
    let s := { s with roiEnded := true }
    match s.getState tid with
    | none => (s, [])
    | some ts =>
      let e := s.stopTracing kn ts
      store tid { e with tracer := e.tracer.removeInstrumentation }

/-- `HandleMarker`. -/
def handleMarker (rcx : UInt64) (s : Tracer) : Tracer × List Output :=
  if rcx = champsimRoiBegin then s.roiBegin kn opens tid
  else if rcx = champsimRegisterWorker then s.registerWorker tid
  else if rcx = champsimRoiEnd then s.roiEnd kn tid
  else (s, [])

/-- `CheckROITransition`. A thread that starts tracing discards the cached traces only when it is
the first one that traces. -/
def checkRoiTransition (s : Tracer) : Tracer × List Output :=
  match s.getState tid with
  | none => (s, [])
  | some ts =>
    if ts.phase = .done then (s, [])
    else if s.roiEnded then store tid (s.stopTracing kn ts)
    else if s.roiStarted ∧ ts.phase = .waitingForRoi then
      if kn.traceOnlyRegisteredWorkers ∧ ts.isRegisteredWorker = false then (s, [])
      else
        let r := s.activate opens ts.startWindow
        store tid
          ⟨r.1, if s.activeTracingThreads = 0 then r.2.removeInstrumentation else r.2,
            ThreadState.openOutputs opens tid⟩
    else (s, [])

/-- `FastForwardInitial` and `FastForwardInter`, which differ in the phase they apply to. -/
def fastForward (phase : Phase) (traceIcount : UInt32) (s : Tracer) : Tracer × List Output :=
  match s.getState tid with
  | none => (s, [])
  | some ts =>
    if ts.phase ≠ phase then (s, [])
    else if traceIcount.toUInt64 < ts.counter then
      (s.setState tid (some { ts with counter := ts.counter - traceIcount.toUInt64 }), [])
    else store tid (s.enterTracing opens tid ts.startWindow)

/-- `FastForwardInitial`. -/
def fastForwardInitial (traceIcount : UInt32) (s : Tracer) : Tracer × List Output :=
  s.fastForward opens tid .initialSkip traceIcount

/-- `FastForwardInter`. -/
def fastForwardInter (traceIcount : UInt32) (s : Tracer) : Tracer × List Output :=
  s.fastForward opens tid .interSkip traceIcount

/-- `RecordInstrCommit`. -/
def recordInstrCommit (s : Tracer) : Tracer × List Output :=
  match s.getState tid with
  | none => (s, [])
  | some ts =>
    if ts.phase ≠ .tracing then (s, [])
    else
      let written := if ts.sampleOpen then [.record tid] else []
      let ts := { ts with counter := ts.counter - 1 }
      if ts.counter = 0 then
        let e := s.leaveTracing kn opens tid ts
        store tid { e with outputs := written ++ e.outputs }
      else (s.setState tid (some ts), written)

/-! ## Instrumentation and threads -/

/-- The branch `InstrumentTrace` takes now. -/
def instrumentation (s : Tracer) : Instrumentation :=
  if s.roiEnded then .untouched
  else if kn.useMarkers ∧ s.roiStarted = false then .markerOnly
  else if 0 < s.activeTracingThreads then .fullAnalysis
  else .fastForward

/-- `InstrumentTrace`, after which the trace is cached. -/
def instrumentTrace (trace : UInt64) (s : Tracer) : Tracer :=
  { s with codeCache := (trace, s.instrumentation kn) :: s.codeCache }

/-- The state the constructor of `ThreadState` builds, with the knobs' values. -/
def newThread (phase : Phase) (counter : UInt64) : ThreadState where
  phase := phase
  counter := counter
  samplesCollected := 0
  sampleLimit := kn.numSamples
  sampleOpen := false
  isMaster := false
  isRegisteredWorker := false
  interSampleSkip := kn.interSampleSkip
  tracePerSample := kn.traceInstructions
  everStartedTracing := false
  everReachedDone := false

/-- The phase a thread starts in. -/
def startingPhase (s : Tracer) : Phase :=
  if kn.useMarkers then if s.roiStarted then .tracing else .waitingForRoi
  else if 0 < kn.initialSkip then .initialSkip else .tracing

/-- The counter a thread starts with. -/
def startingCounter (s : Tracer) : UInt64 :=
  match s.startingPhase kn with
  | .tracing => kn.traceInstructions
  | .initialSkip => kn.initialSkip
  | _ => 0

/-- `ThreadStart`. -/
def threadStart (s : Tracer) : Tracer × List Output :=
  let s := { s with mainThreadId := s.mainThreadId <|> some tid }
  if kn.mainThreadOnly ∧ s.mainThreadId ≠ some tid then (s, [])
  else
    let ts := newThread kn (s.startingPhase kn) (s.startingCounter kn)
    if ts.phase = .tracing then store tid (s.enterTracing opens tid ts)
    else (s.setState tid (some ts), [])

/-- `ThreadFini`. -/
def threadFini (s : Tracer) : Tracer × List Output :=
  match s.getState tid with
  | none => (s, [])
  | some ts =>
    ((if ts.phase = .tracing then s.deactivate else s).setState tid none, [])

end Tracer

/-! ## Steps -/

/-- The callbacks PIN makes. -/
inductive Callback
  | handleMarker (tid : ℕ) (rcx : UInt64)
  | checkRoiTransition (tid : ℕ)
  | fastForwardInitial (tid : ℕ) (traceIcount : UInt32)
  | fastForwardInter (tid : ℕ) (traceIcount : UInt32)
  | recordInstrCommit (tid : ℕ)
  | instrumentTrace (trace : UInt64)
  | threadStart (tid : ℕ)
  | threadFini (tid : ℕ)
  deriving DecidableEq

/-- A step is a callback, in which a sample file can be opened or not. -/
abbrev Call := Callback × Bool

/-- The step function of the tool. -/
def Tracer.call (kn : Knobs) (s : Tracer) : Call → Tracer × List Output
  | (.handleMarker tid rcx, opens) => s.handleMarker kn opens tid rcx
  | (.checkRoiTransition tid, opens) => s.checkRoiTransition kn opens tid
  | (.fastForwardInitial tid n, opens) => s.fastForwardInitial opens tid n
  | (.fastForwardInter tid n, opens) => s.fastForwardInter opens tid n
  | (.recordInstrCommit tid, opens) => s.recordInstrCommit kn opens tid
  | (.instrumentTrace trace, _) => (s.instrumentTrace kn trace, [])
  | (.threadStart tid, opens) => s.threadStart kn opens tid
  | (.threadFini tid, _) => s.threadFini tid

/-- What PIN guarantees: the markers call the tool only where they are instrumented, a trace is
instrumented when it is not cached, and a thread starts under an id that is free. -/
def PinOk (kn : Knobs) (s : Tracer) (l : Call) : Prop :=
  match l.1 with
  | .handleMarker .. => kn.useMarkers = true
  | .instrumentTrace trace => ∀ e ∈ s.codeCache, e.1 ≠ trace
  | .threadStart tid => s.threadStates[tid]? = some none
  | _ => True

instance (kn : Knobs) (s : Tracer) (l : Call) : Decidable (PinOk kn s l) := by
  unfold PinOk
  exact match l.1 with
  | .handleMarker .. => inferInstanceAs (Decidable (kn.useMarkers = true))
  | .instrumentTrace trace => inferInstanceAs (Decidable (∀ e ∈ s.codeCache, e.1 ≠ trace))
  | .threadStart tid => inferInstanceAs (Decidable (s.threadStates[tid]? = some none))
  | .checkRoiTransition _ | .fastForwardInitial .. | .fastForwardInter ..
  | .recordInstrCommit _ | .threadFini _ => instDecidableTrue

/-- The tool as a system: any callback of any thread at any time. -/
def tracerLts (kn : Knobs) (maxThreads : ℕ) : Lts Tracer Call Output where
  init := fun s => s = Tracer.init maxThreads
  step := fun s l => some (s.call kn l)

end Arishem
