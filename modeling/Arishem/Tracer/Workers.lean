import Arishem.Tracer.Threads

/-!
# Only registered workers are traced

With `-trace_only_registered_workers 1` the wake-up in `CheckROITransition` asks whether the thread
has registered, and after the end of the ROI it wakes none. Two other callbacks enter TRACING without
asking: `ThreadStart`, for a thread that is born after the ROI has begun, and `FastForwardInter`,
when the skip of a thread runs out although the ROI has ended. In the runs without these two the gate
holds.
-/

namespace Arishem

namespace Tracer

/-- The thread skips, and a trace of `n` instructions ends the skip. -/
def skipEnds (n : UInt32) (ts : ThreadState) : Bool :=
  ts.phase == .interSkip && ts.counter ≤ n.toUInt64

/-- The callback enters TRACING past the gate: a thread that is to be traced is born in the ROI, or a
skip runs out after the ROI has ended. -/
def PassesGate (kn : Knobs) (s : Tracer) (l : Call) : Prop :=
  match l.1 with
  | .threadStart tid => s.roiStarted = true ∧
    (kn.mainThreadOnly = true → s.mainThreadId = none ∨ s.mainThreadId = some tid)
  | .fastForwardInter tid n => s.roiEnded = true ∧ (s.getState tid).any (skipEnds n)
  | _ => False

instance (kn : Knobs) (s : Tracer) (l : Call) : Decidable (PassesGate kn s l) := by
  unfold PassesGate
  exact match l.1 with
  | .threadStart _ | .fastForwardInter .. => instDecidableAnd
  | .handleMarker .. | .checkRoiTransition _ | .fastForwardInitial .. | .recordInstrCommit _
  | .instrumentTrace _ | .threadFini _ => instDecidableFalse

/-- The steps PIN can make in which no thread passes the gate. -/
def Gated (kn : Knobs) (s : Tracer) (l : Call) : Prop := PinOk kn s l ∧ ¬ PassesGate kn s l

instance (kn : Knobs) (s : Tracer) (l : Call) : Decidable (Gated kn s l) := by
  unfold Gated
  infer_instance

/-- The knobs of a run in which only registered workers are to be traced. -/
structure WorkersOnly (kn : Knobs) : Prop where
  markers : kn.useMarkers = true
  skipMaster : kn.skipMasterTracing = true
  registered : kn.traceOnlyRegisteredWorkers = true

/-- A thread that was ever traced has registered. -/
def IsWorker (ts : ThreadState) : Prop :=
  ts.everStartedTracing = true → ts.isRegisteredWorker = true

/-- A callback in which no thread passes the gate: after it every thread is a worker, it has opened
samples of registered threads only, and after the end of the ROI no thread has entered TRACING. -/
structure GateHolds (s s' : Tracer) (os : List Output) : Prop where
  workers : ∀ tid ts, s'.getState tid = some ts → IsWorker ts
  samples : ∀ tid, .openSample tid ∈ os →
    ∃ ts, s'.getState tid = some ts ∧ ts.isRegisteredWorker = true
  ended : s.roiEnded = true → ∀ tid ts', s'.getState tid = some ts' → ts'.phase = .tracing →
    ∃ ts, s.getState tid = some ts ∧ ts.phase = .tracing

section
variable {kn : Knobs} {s s' : Tracer} {tid : ℕ} {opens : Bool} {ts ts' : ThreadState}
variable {os : List Output}

/-- A sample is opened for the thread that asks for it. -/
theorem openSample_openOutputs {o : ℕ} (h : .openSample o ∈ ThreadState.openOutputs opens tid) :
    o = tid := by
  rw [ThreadState.openOutputs] at h
  split at h
  · simpa using h
  · cases h

/-- The commit of an instruction opens no sample. -/
theorem openSample_commitOutputs {o : ℕ} : .openSample o ∉ ts.commitOutputs tid := by
  rw [ThreadState.commitOutputs]
  split <;> simp

/-- `mark_reached_done` opens no sample. -/
theorem DoneOutputs.openSample {exit : Bool} (h : DoneOutputs kn s ts exit os) {o : ℕ} :
    .openSample o ∉ os :=
  fun ho => nomatch h.only _ ho

/-- A callback that leaves the threads alone. -/
theorem GateHolds.frame (h : ∀ tid ts, s.getState tid = some ts → IsWorker ts)
    (hthreads : s'.threadStates = s.threadStates) : GateHolds s s' [] := by
  have hg : ∀ tid, s'.getState tid = s.getState tid := fun tid => by
    rw [getState, hthreads, getState]
  constructor
  · intro tid ts hts
    exact h tid ts (hg tid ▸ hts)
  · intro tid ho
    cases ho
  · intro _ tid ts' hts hp
    exact ⟨ts', hg tid ▸ hts, hp⟩

/-- A callback that writes one slot. -/
theorem GateHolds.write (h : ∀ tid ts, s.getState tid = some ts → IsWorker ts)
    {t : Option ThreadState} (hi : tid < s.threadStates.length)
    (hthreads : s'.threadStates = s.threadStates) (hw : ∀ ts, t = some ts → IsWorker ts)
    (hsample : ∀ o, .openSample o ∈ os →
      o = tid ∧ ∃ ts, t = some ts ∧ ts.isRegisteredWorker = true)
    (hend : s.roiEnded = true → ∀ ts', t = some ts' → ts'.phase = .tracing →
      ∃ ts, s.getState tid = some ts ∧ ts.phase = .tracing) :
    GateHolds s (s'.setState tid t) os := by
  have hg : ∀ tid, s'.getState tid = s.getState tid := fun tid => by
    rw [getState, hthreads, getState]
  have hi' : tid < s'.threadStates.length := hthreads ▸ hi
  constructor
  · exact forall_setState (fun tid ts hts => h tid ts (hg tid ▸ hts)) hw
  · intro o ho
    obtain ⟨rfl, ts, rfl, hr⟩ := hsample o ho
    exact ⟨ts, by rw [getState_setState hi', if_pos rfl], hr⟩
  · intro he tid₁ ts₁ hts hp
    rw [getState_setState hi'] at hts
    split at hts
    · rename_i htid
      subst htid
      exact hend he ts₁ hts hp
    · exact ⟨ts₁, hg tid₁ ▸ hts, hp⟩

/-- A callback that writes the state of a thread which does not enter TRACING. -/
theorem GateHolds.put (h : ∀ tid ts, s.getState tid = some ts → IsWorker ts)
    (hts : s.getState tid = some ts) (hthreads : s'.threadStates = s.threadStates)
    (hstarted : ts'.everStartedTracing = ts.everStartedTracing)
    (hreg : ts.isRegisteredWorker = true → ts'.isRegisteredWorker = true)
    (hphase : ts'.phase = .tracing → ts.phase = .tracing)
    (hsample : ∀ o, .openSample o ∈ os → o = tid ∧ ts'.isRegisteredWorker = true) :
    GateHolds s (s'.setState tid (some ts')) os := by
  obtain ⟨hi, _⟩ := getState_some hts
  refine .write h hi hthreads (fun ts₁ h₁ => ?_) (fun o ho => ?_) fun _ ts₁ h₁ hp => ?_
  · cases h₁
    rw [IsWorker, hstarted]
    exact fun hs => hreg (h tid ts hts hs)
  · exact ⟨(hsample o ho).1, ts', rfl, (hsample o ho).2⟩
  · cases h₁
    exact ⟨ts, hts, hphase hp⟩

/-- A registered thread enters TRACING, while the ROI has not ended. -/
theorem GateHolds.enter (h : ∀ tid ts, s.getState tid = some ts → IsWorker ts)
    (hts : s.getState tid = some ts) (hthreads : s'.threadStates = s.threadStates)
    (hreg : ts.isRegisteredWorker = true) (hend : s.roiEnded = false) :
    GateHolds s (s'.setState tid (some (ts.entered opens)))
      (ThreadState.openOutputs opens tid) := by
  obtain ⟨hi, _⟩ := getState_some hts
  refine .write h hi hthreads (fun ts₁ h₁ => ?_) (fun o ho => ?_) fun he => ?_
  · cases h₁
    exact fun _ => hreg
  · exact ⟨openSample_openOutputs ho, _, rfl, hreg⟩
  · rw [hend] at he
    cases he

/-- A thread that has stopped keeps what it is to the gate, its phase apart. -/
theorem stopped_fields (ts : ThreadState) :
    ts.stopped.everStartedTracing = ts.everStartedTracing ∧
      ts.stopped.isRegisteredWorker = ts.isRegisteredWorker ∧ ts.stopped.phase = .done := by
  rw [ThreadState.stopped]
  split <;> exact ⟨rfl, rfl, rfl⟩

/-- A callback in which no thread passes the gate keeps it closed. -/
theorem Outcome.gateHolds (hk : WorkersOnly kn) (ha : Accounted kn s)
    (h : ∀ tid ts, s.getState tid = some ts → IsWorker ts) {l : Call} (hok : Gated kn s l)
    (hs : Outcome kn s l s' os) : GateHolds s s' os := by
  obtain ⟨hpin, hgate⟩ := hok
  cases hs with
  | idle => exact .frame h rfl
  | beginAlone _ _ => exact .frame h rfl
  | beginSkipped _ hts _ ho =>
    refine .put h hts rfl rfl id (fun h => by cases h) fun o h₁ => ?_
    exact absurd h₁ ho.openSample
  | beginTracing _ _ hsk _ | beginOther _ _ hsk _ =>
    rw [hk.skipMaster] at hsk
    cases hsk
  | register hts => exact .put h hts rfl rfl (fun _ => rfl) id (fun _ h => by cases h)
  | endAlone _ _ => exact .frame h rfl
  | @endThread tid opens exit ts os _ hts ho =>
    obtain ⟨hst, hreg, hp⟩ := stopped_fields ts
    refine .put h hts (by simp [removeInstrumentation, doneCounted]) hst (fun hr => hreg ▸ hr) ?_ ?_
    · simp [hp]
    · exact fun o h₁ => absurd h₁ ho.openSample
  | @stop tid opens exit ts os hts _ _ ho =>
    obtain ⟨hst, hreg, hp⟩ := stopped_fields ts
    refine .put h hts (by simp [doneCounted]) hst (fun hr => hreg ▸ hr) ?_ ?_
    · simp [hp]
    · exact fun o h₁ => absurd h₁ ho.openSample
  | wake hts hend _ _ hreg => exact .enter h hts rfl (hreg hk.registered) hend
  | skip _ hts _ _ => exact .put h hts rfl rfl id id (fun _ h => by cases h)
  | @resume l tid opens ts phase n hl hts hp hc =>
    rcases hl with ⟨rfl, rfl⟩ | ⟨rfl, rfl⟩
    · -- with markers no thread is in INITIAL_SKIP
      exact absurd hp ((ha.threads tid ts hts).marked hk.markers)
    · have hst : ts.everStartedTracing = true := (ha.threads tid ts hts).started (.inr hp)
      refine .enter h hts rfl (h tid ts hts hst) ?_
      cases he : s.roiEnded with
      | false => rfl
      | true =>
        have hpass : PassesGate kn s (.fastForwardInter tid n, opens) := by
          refine ⟨he, ?_⟩
          rw [hts]
          simp [skipEnds, hp, hc]
        exact absurd hpass hgate
  | record hts hp _ =>
    refine .put h hts rfl rfl id (fun _ => hp) fun o h₁ => ?_
    exact absurd h₁ openSample_commitOutputs
  | finish hts hp _ _ ho =>
    refine .put h hts rfl rfl id (fun h => by cases h) fun o h₁ => ?_
    rcases List.mem_append.1 h₁ with h₁ | h₁
    · exact absurd h₁ openSample_commitOutputs
    · exact absurd h₁ ho.openSample
  | pause hts hp _ _ =>
    refine .put h hts rfl rfl id (fun h => by cases h) fun o h₁ => ?_
    exact absurd h₁ openSample_commitOutputs
  | @restart tid opens ts hts hp _ _ =>
    have hst : ts.everStartedTracing = true := (ha.threads tid ts hts).started (.inl hp)
    refine .put h hts rfl rfl id (fun _ => hp) fun o h₁ => ?_
    rcases List.mem_append.1 h₁ with h₁ | h₁
    · exact absurd h₁ openSample_commitOutputs
    · exact ⟨openSample_openOutputs h₁, h tid ts hts hst⟩
  | instrument => exact .frame h rfl
  | startExcluded => exact .frame h rfl
  | @startTracing tid opens main n hmain hp =>
    -- with markers only a thread that is born in the ROI starts in TRACING
    have hroi : s.roiStarted = true := by
      by_contra hr
      simp [startingPhase, hk.markers, hr] at hp
    exact absurd ⟨hroi, hmain⟩ hgate
  | @start tid opens main n phase hp hne =>
    obtain ⟨hi, _⟩ := PinOk.free hpin
    refine .write h hi rfl (fun ts₁ h₁ => ?_) (fun _ h => by cases h) fun _ ts₁ h₁ hp₁ => ?_
    · cases h₁
      exact fun h => by cases h
    · cases h₁
      exact absurd hp₁ hne
  | exit hts =>
    obtain ⟨hi, _⟩ := getState_some hts
    exact .write h hi leave_threadStates (fun _ h => by cases h) (fun _ h => by cases h)
      fun _ _ h => by cases h

/-- The threads are workers in every reachable state. -/
theorem workers_reachable {n : ℕ} (hk : WorkersOnly kn)
    (h : (tracerLts kn n).Reachable (Gated kn) s) :
    Accounted kn s ∧ ∀ tid ts, s.getState tid = some ts → IsWorker ts := by
  have ha : ∀ s, (tracerLts kn n).Reachable (Gated kn) s → Accounted kn s := fun s hr =>
    Accounted.reachable (hr.mono fun _ _ hl => hl.1)
  refine ⟨ha s h, ?_⟩
  obtain ⟨tr, hr⟩ := h
  refine hr.induct (P := fun s _ => ∀ tid ts, s.getState tid = some ts → IsWorker ts) ?_ ?_
  · rintro s rfl tid ts hts
    obtain ⟨_, hg⟩ := getState_some hts
    simp [init] at hg
  · intro s tr l s' os hr hI hok hs
    exact ((outcome_of_step hs).gateHolds hk (ha s ⟨tr, hr⟩) hI hok).workers

/-- When every thread in TRACING has registered, those with both properties are counted. -/
theorem count_workers (ha : Accounted kn s)
    (h : ∀ tid ts, s.getState tid = some ts → IsWorker ts) :
    s.count (fun ts => isTracing ts && ts.isRegisteredWorker) = s.count isTracing := by
  rw [count, count]
  congr 1
  refine List.map_congr_left fun t ht => ?_
  cases t with
  | none => rfl
  | some ts =>
    obtain ⟨tid, hi, hg⟩ := List.getElem_of_mem ht
    have hts : s.getState tid = some ts := by
      rw [getState, List.getElem?_eq_getElem hi, hg, Option.join_some]
    by_cases hp : ts.phase = .tracing
    · have hreg := h tid ts hts ((ha.threads tid ts hts).started (.inl hp))
      simp [hreg]
    · simp [isTracing, hp]

end

end Tracer

/-- Only registered workers are traced: in a run in which no thread passes the gate, every thread in
TRACING, with an open sample or that ever was in TRACING has registered, only such threads are
active, and a callback opens samples of registered threads only and after the end of the ROI takes
no thread to TRACING. -/
theorem only_workers_traced (kn : Knobs) (hk : Tracer.WorkersOnly kn) (maxThreads : ℕ) (s : Tracer)
    (h : (tracerLts kn maxThreads).Reachable (Tracer.Gated kn) s) :
    (∀ tid ts, s.getState tid = some ts →
      ts.phase = .tracing ∨ ts.sampleOpen = true ∨ ts.everStartedTracing = true →
        ts.isRegisteredWorker = true) ∧
    s.activeTracingThreads =
      s.count (fun ts => Tracer.isTracing ts && ts.isRegisteredWorker) ∧
    ∀ l s' os, Tracer.Gated kn s l → (tracerLts kn maxThreads).step s l = some (s', os) →
      Tracer.GateHolds s s' os := by
  obtain ⟨ha, hw⟩ := Tracer.workers_reachable hk h
  refine ⟨fun tid ts hts hor => hw tid ts hts ?_, ?_, fun l s' os hl hs => ?_⟩
  · have hok := ha.threads tid ts hts
    rcases hor with hp | ho | hst
    · exact hok.started (.inl hp)
    · exact hok.started (.inl (hok.sample ho))
    · exact hst
  · rw [ha.active, Tracer.count_workers ha hw]
  · exact (Tracer.outcome_of_step hs).gateHolds hk ha hw hl

/-- The knobs of a run with an orchestrator in which only workers are to be traced. -/
def workerKnobs : Knobs where
  useMarkers := true
  initialSkip := 0
  interSampleSkip := 1
  traceInstructions := 1
  numSamples := 0
  mainThreadOnly := false
  exitOnDone := false
  skipMasterTracing := true
  traceOnlyRegisteredWorkers := true

/-- Thread 0 starts and begins the ROI, then thread 1 starts. -/
def bornInRoi : List Call :=
  [Callback.threadStart 0, .handleMarker 0 champsimRoiBegin, .threadStart 1].map (·, true)

/-- Thread 1 registers, is traced for a sample and skips, when thread 0 ends the ROI. -/
def skipsInRoi : List Call :=
  [.threadStart 0, .threadStart 1, .handleMarker 1 champsimRegisterWorker,
    .handleMarker 0 champsimRoiBegin, .checkRoiTransition 1, .recordInstrCommit 1,
    .handleMarker 0 champsimRoiEnd].map (·, true)

/-- A thread that is born in the ROI is traced although it never registered, and a skip that runs
out takes a thread to TRACING after the end of the ROI. -/
theorem unregistered_thread_traced :
    (∃ s ts, (tracerLts workerKnobs 2).Reachable (PinOk workerKnobs) s ∧
      s.getState 1 = some ts ∧ ts.phase = .tracing ∧ ts.sampleOpen = true ∧
      ts.isRegisteredWorker = false ∧ s.activeTracingThreads = 1) ∧
    ∃ s l s' os ts ts', (tracerLts workerKnobs 2).Reachable (PinOk workerKnobs) s ∧
      PinOk workerKnobs s l ∧ (tracerLts workerKnobs 2).step s l = some (s', os) ∧
      s.roiEnded = true ∧ s.getState 1 = some ts ∧ ts.phase = .interSkip ∧
      s'.getState 1 = some ts' ∧ ts'.phase = .tracing := by
  constructor
  · obtain ⟨s, hr, hp⟩ := Lts.reachable_of_exec (tracerLts workerKnobs 2) (PinOk workerKnobs)
      (fun s => s.getState 1 = some ((Tracer.newThread workerKnobs .tracing 1).entered true) ∧
        s.activeTracingThreads = 1)
      bornInRoi rfl (by decide +kernel)
    obtain ⟨hts, ha⟩ := of_decide_eq_true hp
    exact ⟨s, _, hr, hts, rfl, rfl, rfl, ha⟩
  · obtain ⟨s, hr, hp⟩ := Lts.reachable_of_exec (tracerLts workerKnobs 2) (PinOk workerKnobs)
      (fun s => let s' := (s.call workerKnobs (.fastForwardInter 1 1, true)).1
        s.roiEnded = true ∧ (s.getState 1).map ThreadState.phase = some .interSkip ∧
          (s'.getState 1).map ThreadState.phase = some .tracing)
      skipsInRoi rfl (by decide +kernel)
    obtain ⟨he, hts, hts'⟩ := of_decide_eq_true hp
    obtain ⟨ts, hts, hp⟩ := Option.map_eq_some_iff.1 hts
    obtain ⟨ts', hts', hp'⟩ := Option.map_eq_some_iff.1 hts'
    exact ⟨s, (.fastForwardInter 1 1, true), _, _, ts, ts', hr, trivial, rfl, he, hts, hp, hts',
      hp'⟩

/-- A registered worker is traced, and it is the active thread. -/
theorem only_workers_traced_one_worker :
    ∃ s : Tracer, s.activeTracingThreads = 1 ∧
      s.activeTracingThreads =
        s.count (fun ts => Tracer.isTracing ts && ts.isRegisteredWorker) := by
  obtain ⟨s, hr, hp⟩ := Lts.reachable_of_exec (tracerLts workerKnobs 2) (Tracer.Gated workerKnobs)
    (fun s => s.activeTracingThreads = 1) (skipsInRoi.take 5) rfl (by decide +kernel)
  have ha := of_decide_eq_true hp
  exact ⟨s, ha, (only_workers_traced workerKnobs ⟨rfl, rfl, rfl⟩ 2 s hr).2.1⟩

end Arishem
