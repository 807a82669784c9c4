import Mathlib.Algebra.GroupWithZero.Nat
import Mathlib.Data.Int.Order.Basic
import Arishem.Lib.Slots

/-!
# The state of the tracer

The PIN tool `champsim_tracer_mt_roi_v3`: the knobs that steer it, what it keeps for each thread
(`ThreadState`), its global counters and flags, and the traces in PIN's code cache, each with the
branch of `InstrumentTrace` that instrumented it. `thread_states` is an array with one slot for each
PIN thread id, null for a thread that is not alive or not traced. The instruction record being
built and the compressed output are left out: no callback branches on them.
-/

namespace Arishem

/-- The phases of a thread. -/
inductive Phase
  | waitingForRoi
  | initialSkip
  | tracing
  | interSkip
  | done
  deriving DecidableEq, Repr

/-- The knobs of the command line that decide what is traced. -/
structure Knobs where
  useMarkers : Bool
  initialSkip : UInt64
  interSampleSkip : UInt64
  traceInstructions : UInt64
  numSamples : UInt64
  mainThreadOnly : Bool
  exitOnDone : Bool
  skipMasterTracing : Bool
  traceOnlyRegisteredWorkers : Bool

/-- The state of one thread. -/
structure ThreadState where
  phase : Phase
  counter : UInt64
  samplesCollected : UInt64
  sampleLimit : UInt64
  /-- `fp` and `zstd_ctx` are set: a sample file is open. -/
  sampleOpen : Bool
  isMaster : Bool
  isRegisteredWorker : Bool
  interSampleSkip : UInt64
  tracePerSample : UInt64
  everStartedTracing : Bool
  everReachedDone : Bool
  deriving DecidableEq

/-- The branches of `InstrumentTrace`: a trace is left alone after the ROI, only its markers call
the tool before the ROI, and in the ROI each instruction or only the trace itself does. -/
inductive Instrumentation
  | untouched
  | markerOnly
  | fullAnalysis
  | fastForward
  deriving DecidableEq, Repr

/-- The state of the tool. -/
structure Tracer where
  threadStates : List (Option ThreadState)
  mainThreadId : Option ℕ
  activeTracingThreads : ℤ
  roiStarted : Bool
  roiEnded : Bool
  threadsStartedTracing : ℕ
  threadsReachedDone : ℕ
  exitTriggered : Bool
  /-- The traces in PIN's code cache, by their address. -/
  codeCache : List (UInt64 × Instrumentation)

/-- What a callback does outside the tool's memory. -/
inductive Output
  /-- A sample file of the thread was opened. -/
  | openSample (tid : ℕ)
  /-- A record was written to the thread's sample file. -/
  | record (tid : ℕ)
  /-- `PIN_ExitApplication`. -/
  | exitApplication
  deriving DecidableEq, Repr

/-- The tool before the first thread starts, with room for `maxThreads` threads. -/
def Tracer.init (maxThreads : ℕ) : Tracer where
  threadStates := List.replicate maxThreads none
  mainThreadId := none
  activeTracingThreads := 0
  roiStarted := false
  roiEnded := false
  threadsStartedTracing := 0
  threadsReachedDone := 0
  exitTriggered := false
  codeCache := []

namespace Tracer

/-- `get_state`. -/
def getState (tid : ℕ) (s : Tracer) : Option ThreadState := s.threadStates[tid]?.join

/-- Write a thread's slot. -/
def setState (tid : ℕ) (t : Option ThreadState) (s : Tracer) : Tracer :=
  { s with threadStates := s.threadStates.set tid t }

/-- `PIN_RemoveInstrumentation`: no trace is cached any more. -/
def removeInstrumentation (s : Tracer) : Tracer := { s with codeCache := [] }

section
variable {s : Tracer} {tid tid' : ℕ} {t : Option ThreadState} {ts : ThreadState}

/-- A thread that is there has a slot. -/
theorem getState_some (h : s.getState tid = some ts) :
    ∃ hi : tid < s.threadStates.length, s.threadStates[tid] = some ts := by
  rw [getState, Option.join_eq_some_iff] at h
  exact List.getElem?_eq_some_iff.1 h

/-- The threads after one slot was written. -/
theorem getState_setState (h : tid < s.threadStates.length) :
    (s.setState tid t).getState tid' = if tid = tid' then t else s.getState tid' := by
  rw [getState, getState, setState, List.getElem?_set]
  split
  · simp
  · rfl

/-- What holds of every thread, still holds of every thread after one slot was written, when it
holds of the new content. -/
theorem forall_setState {P : ThreadState → Prop} (h : ∀ tid ts, s.getState tid = some ts → P ts)
    (ht : ∀ ts, t = some ts → P ts) :
    ∀ tid' ts, (s.setState tid t).getState tid' = some ts → P ts := by
  intro tid' ts hts
  by_cases hlt : tid < s.threadStates.length
  · rw [getState_setState hlt] at hts
    split at hts
    · exact ht ts hts
    · exact h tid' ts hts
  · rw [getState, setState, List.set_eq_of_length_le (not_lt.1 hlt)] at hts
    exact h tid' ts hts

end

end Tracer

end Arishem
