import Arishem.Tracer.Threads

/-!
# `-exit_on_done` cuts no trace short

The tool exits when as many threads have reached DONE as have entered TRACING. This is right as long
as only threads that entered TRACING are counted as done: then the live threads that have not
reached DONE are at most the difference of the two counters. The orchestrator of
`-skip_master_tracing 1` and threads that the end of the ROI finds waiting are counted as done
without having started.
-/

namespace Arishem

namespace Tracer

/-- The thread is neither counted as started nor as done. -/
def unstarted (ts : ThreadState) : Bool := !ts.everStartedTracing && !ts.everReachedDone

/-- The thread is counted as started, but not as done. -/
def unfinished (ts : ThreadState) : Bool := ts.everStartedTracing && !ts.everReachedDone

/-- The callback takes a thread that never entered TRACING to DONE. -/
def CountsUnstarted (kn : Knobs) (s : Tracer) (l : Call) : Prop :=
  match l.1 with
  | .handleMarker tid rcx =>
    (s.getState tid).any unstarted ∧
      (rcx = champsimRoiBegin ∧ s.roiStarted = false ∧ kn.skipMasterTracing = true ∨
        rcx = champsimRoiEnd ∧ s.roiEnded = false)
  | .checkRoiTransition tid => (s.getState tid).any unstarted ∧ s.roiEnded = true
  | _ => False

instance (kn : Knobs) (s : Tracer) (l : Call) : Decidable (CountsUnstarted kn s l) := by
  unfold CountsUnstarted
  exact match l.1 with
  | .handleMarker .. | .checkRoiTransition _ => instDecidableAnd
  | .fastForwardInitial .. | .fastForwardInter .. | .recordInstrCommit _ | .instrumentTrace _
  | .threadStart _ | .threadFini _ => instDecidableFalse

/-- The steps PIN can make that count no thread as done before it has started. -/
def CountsStarted (kn : Knobs) (s : Tracer) (l : Call) : Prop :=
  PinOk kn s l ∧ ¬ CountsUnstarted kn s l

instance (kn : Knobs) (s : Tracer) (l : Call) : Decidable (CountsStarted kn s l) := by
  unfold CountsStarted
  infer_instance

/-- The threads counted as done and the unfinished ones are at most those counted as started. -/
def Covered (s : Tracer) : Prop :=
  s.threadsReachedDone + s.count unfinished ≤ s.threadsStartedTracing

section
variable {kn : Knobs} {s s' : Tracer} {tid : ℕ} {opens : Bool} {ts ts' : ThreadState}

/-- A slot is written by a step that counts what changes. -/
theorem Covered.write (h : Covered s) {t : Option ThreadState} (hi : tid < s.threadStates.length)
    (hthreads : s'.threadStates = s.threadStates)
    (hcount : s'.threadsReachedDone + (t.elim 0 fun ts => if unfinished ts then 1 else 0) +
        s.threadsStartedTracing ≤
      s.threadsReachedDone + ((s.getState tid).elim 0 fun ts => if unfinished ts then 1 else 0) +
        s'.threadsStartedTracing) :
    Covered (s'.setState tid t) := by
  have hc := count_setState unfinished t (hthreads ▸ hi : tid < s'.threadStates.length)
  have hs : s'.count unfinished = s.count unfinished := by rw [count, hthreads, count]
  have hg : s'.getState tid = s.getState tid := by rw [getState, hthreads, getState]
  have hgoal : (s'.setState tid t).threadsReachedDone = s'.threadsReachedDone ∧
      (s'.setState tid t).threadsStartedTracing = s'.threadsStartedTracing := ⟨rfl, rfl⟩
  rw [hg, hs] at hc
  rw [Covered] at h ⊢
  rw [hgoal.1, hgoal.2]
  omega

/-- The state of a thread is written. -/
theorem Covered.put (h : Covered s) (hts : s.getState tid = some ts)
    (hthreads : s'.threadStates = s.threadStates)
    (hcount : s'.threadsReachedDone + (if unfinished ts' then 1 else 0) + s.threadsStartedTracing ≤
      s.threadsReachedDone + (if unfinished ts then 1 else 0) + s'.threadsStartedTracing) :
    Covered (s'.setState tid (some ts')) := by
  obtain ⟨hi, _⟩ := getState_some hts
  refine h.write hi hthreads ?_
  rw [hts]
  exact hcount

/-- A thread that is counted as done was unfinished, if it was not counted before. -/
theorem fresh_done_le (h : unstarted ts = false) :
    fresh ts.everReachedDone ≤ if unfinished ts then 1 else 0 := by
  by_cases hs : ts.everStartedTracing = true <;> by_cases hd : ts.everReachedDone = true <;>
    simp_all [unstarted, fresh, unfinished]

/-- A thread that enters TRACING is counted as started, if it was not counted before. -/
theorem not_done_le (ts : ThreadState) :
    (if (!ts.everReachedDone) = true then 1 else 0) ≤
      (if unfinished ts then 1 else 0) + fresh ts.everStartedTracing := by
  by_cases hs : ts.everStartedTracing = true <;> by_cases hd : ts.everReachedDone = true <;>
    simp [fresh, unfinished, hs, hd]

@[simp] theorem unfinished_finished : unfinished ts.finished = false := by
  simp [unfinished, ThreadState.finished]

@[simp] theorem unfinished_stopped : unfinished ts.stopped = false := by
  rw [ThreadState.stopped]
  split <;> exact unfinished_finished

@[simp] theorem leave_threadsReachedDone :
    (s.leave ts).threadsReachedDone = s.threadsReachedDone := by
  rw [leave]
  split <;> rfl

@[simp] theorem leave_threadsStartedTracing :
    (s.leave ts).threadsStartedTracing = s.threadsStartedTracing := by
  rw [leave]
  split <;> rfl

/-- A thread that was looked up and is not `unstarted`. -/
theorem not_unstarted {P : Prop} (hts : s.getState tid = some ts) (hP : P)
    (h : ¬ ((s.getState tid).any unstarted = true ∧ P)) : unstarted ts = false := by
  rw [hts] at h
  cases hu : unstarted ts with
  | false => rfl
  | true => exact absurd ⟨by simpa using hu, hP⟩ h

/-- A thread that is counted as done at the end of a callback. -/
theorem Covered.done (h : Covered s) (hts : s.getState tid = some ts)
    (hns : unstarted ts = false) (hthreads : s'.threadStates = s.threadStates)
    (hdone : s'.threadsReachedDone = s.threadsReachedDone + fresh ts.everReachedDone)
    (hstarted : s'.threadsStartedTracing = s.threadsStartedTracing)
    (hnew : unfinished ts' = false) : Covered (s'.setState tid (some ts')) := by
  refine h.put hts hthreads ?_
  have hle := fresh_done_le hns
  rw [hdone, hstarted, hnew]
  simp only [Bool.false_eq_true, if_false]
  omega

/-- A thread enters TRACING. -/
theorem Covered.enter (h : Covered s) (hts : s.getState tid = some ts)
    (hthreads : s'.threadStates = s.threadStates)
    (hdone : s'.threadsReachedDone = s.threadsReachedDone)
    (hstarted : s'.threadsStartedTracing = s.threadsStartedTracing + fresh ts.everStartedTracing)
    (hnew : unfinished ts' = !ts.everReachedDone) :
    Covered (s'.setState tid (some ts')) := by
  refine h.put hts hthreads ?_
  have hle := not_done_le ts
  rw [hdone, hstarted, hnew]
  omega

/-- A thread's flags stay. -/
theorem Covered.touch (h : Covered s) (hts : s.getState tid = some ts)
    (hthreads : s'.threadStates = s.threadStates)
    (hdone : s'.threadsReachedDone = s.threadsReachedDone)
    (hstarted : s'.threadsStartedTracing = s.threadsStartedTracing)
    (hnew : unfinished ts' = unfinished ts) : Covered (s'.setState tid (some ts')) := by
  refine h.put hts hthreads ?_
  rw [hdone, hstarted, hnew]

/-- A callback that counts no unstarted thread as done keeps the counters covered. -/
theorem Covered.step (h : Covered s) (ha : Accounted kn s) {l : Call} {os : List Output}
    (hok : CountsStarted kn s l) (hs : Outcome kn s l s' os) : Covered s' := by
  obtain ⟨hpin, hun⟩ := hok
  cases hs with
  | idle => exact h
  | beginAlone _ _ => exact h
  | @beginSkipped tid opens exit ts os hroi hts hk _ =>
    exact h.done hts (not_unstarted hts (.inl ⟨rfl, hroi, hk⟩) hun) rfl rfl rfl unfinished_finished
  | @beginTracing tid opens ts hroi hts _ hp => exact h.enter hts rfl rfl rfl rfl
  | @beginOther tid opens ts hroi hts _ hp => exact h.touch hts rfl rfl rfl rfl
  | @register tid opens ts hts => exact h.touch hts rfl rfl rfl rfl
  | endAlone _ _ => exact h
  | @endThread tid opens exit ts os hend hts _ =>
    refine h.done hts (not_unstarted hts (.inr ⟨rfl, hend⟩) hun) ?_ ?_ ?_ unfinished_stopped
    · exact leave_threadStates (s := { s with roiEnded := true })
    · simp [removeInstrumentation, doneCounted]
    · simp [removeInstrumentation, doneCounted]
  | @stop tid opens exit ts os hts hp hend _ =>
    refine h.done hts (not_unstarted hts hend hun) ?_ ?_ ?_ unfinished_stopped
    · simp [doneCounted]
    · simp [doneCounted]
    · simp [doneCounted]
  | @wake tid opens ts hts _ hroi hp _ => exact h.enter hts rfl rfl rfl rfl
  | @skip l tid opens ts phase n _ hts _ _ => exact h.touch hts rfl rfl rfl rfl
  | @resume l tid opens ts phase n hl hts hp _ => exact h.enter hts rfl rfl rfl rfl
  | @record tid opens ts hts hp _ => exact h.touch hts rfl rfl rfl rfl
  | @finish tid opens exit ts os hts hp _ _ _ =>
    -- a thread in TRACING has started
    have hst : ts.everStartedTracing = true := (ha.threads tid ts hts).started (.inl hp)
    exact h.done hts (by simp [unstarted, hst]) rfl rfl rfl unfinished_finished
  | @pause tid opens ts hts hp _ _ => exact h.touch hts rfl rfl rfl rfl
  | @restart tid opens ts hts hp _ _ => exact h.touch hts rfl rfl rfl rfl
  | instrument => exact h
  | startExcluded => exact h
  | @startTracing tid opens main n _ hp =>
    obtain ⟨hi, hg⟩ := PinOk.free hpin
    refine h.write hi rfl ?_
    rw [hg]
    simp [removeInstrumentation, startCounted, newThread, fresh, unfinished, ThreadState.entered]
    omega
  | @start tid opens main n phase hp hne =>
    obtain ⟨hi, hg⟩ := PinOk.free hpin
    refine h.write hi rfl ?_
    rw [hg]
    simp [newThread, unfinished]
  | @exit tid opens ts hts =>
    obtain ⟨hi, _⟩ := getState_some hts
    refine h.write hi leave_threadStates ?_
    simp only [leave_threadsReachedDone, leave_threadsStartedTracing, Option.elim_none]
    omega

/-- The tool exits only when as many threads are done as have started. -/
theorem Outcome.exit_le {l : Call} {os : List Output} (hs : Outcome kn s l s' os)
    (he : .exitApplication ∈ os) : s'.threadsStartedTracing ≤ s'.threadsReachedDone := by
  have hopen : ∀ opens tid, .exitApplication ∉ ThreadState.openOutputs opens tid := by
    intro opens tid
    rw [ThreadState.openOutputs]
    split <;> simp
  have hcommit : ∀ (ts : ThreadState) tid, .exitApplication ∉ ts.commitOutputs tid := by
    intro ts tid
    rw [ThreadState.commitOutputs]
    split <;> simp
  cases hs with
  | beginSkipped _ _ _ ho => exact ho.exit he
  | endThread _ _ ho =>
    have hle := ho.exit he
    simpa [setState, removeInstrumentation, doneCounted] using hle
  | stop _ _ _ ho =>
    have hle := ho.exit he
    simpa [setState, doneCounted] using hle
  | finish _ _ _ _ ho =>
    rcases List.mem_append.1 he with he | he
    · exact absurd he (hcommit _ _)
    · exact ho.exit he
  | beginTracing _ _ _ _ | wake _ _ _ _ _ | resume _ _ _ _ | startTracing _ _ =>
    exact absurd he (hopen _ _)
  | record _ _ _ | pause _ _ _ _ => exact absurd he (hcommit _ _)
  | restart _ _ _ _ =>
    rcases List.mem_append.1 he with he | he
    · exact absurd he (hcommit _ _)
    · exact absurd he (hopen _ _)
  | idle | beginAlone _ _ | beginOther _ _ _ _ | register _ | endAlone _ _ | skip _ _ _ _ | instrument
  | startExcluded | start _ _ | exit _ => cases he

/-- The counters are covered in every reachable state. -/
theorem Covered.reachable {n : ℕ} (h : (tracerLts kn n).Reachable (CountsStarted kn) s) :
    Accounted kn s ∧ Covered s := by
  have ha : ∀ s, (tracerLts kn n).Reachable (CountsStarted kn) s → Accounted kn s := fun s hr =>
    Accounted.reachable (hr.mono fun _ _ hl => hl.1)
  refine ⟨ha s h, ?_⟩
  obtain ⟨tr, hr⟩ := h
  refine hr.induct (P := fun s _ => Covered s) ?_ ?_
  · rintro s rfl
    simp [Covered, init, count]
  · intro s tr l s' os hr hI hok hs
    exact hI.step (ha s ⟨tr, hr⟩) hok (outcome_of_step hs)

end

end Tracer

/-- `-exit_on_done` cuts no trace short: in a run in which only threads that have started tracing are
taken to DONE, the tool calls `PIN_ExitApplication` only when every live thread that ever entered
TRACING has reached DONE. -/
theorem exit_cuts_no_trace (kn : Knobs) (maxThreads : ℕ) (s s' : Tracer) (l : Call)
    (os : List Output) (h : (tracerLts kn maxThreads).Reachable (Tracer.CountsStarted kn) s)
    (hl : Tracer.CountsStarted kn s l) (hs : (tracerLts kn maxThreads).step s l = some (s', os))
    (he : .exitApplication ∈ os) (tid : ℕ) (ts : ThreadState) (hts : s'.getState tid = some ts)
    (hstarted : ts.everStartedTracing = true) : ts.phase = .done := by
  obtain ⟨ha, hc⟩ := Tracer.Covered.reachable (h.step hl hs)
  have hle := (Tracer.outcome_of_step hs).exit_le he
  have hzero : s'.count Tracer.unfinished = 0 := by
    rw [Tracer.Covered] at hc
    omega
  cases hd : ts.everReachedDone with
  | true => exact (ha.threads tid ts hts).done.1 hd
  | false =>
    have hu : Tracer.unfinished ts = true := by simp [Tracer.unfinished, hstarted, hd]
    have hpos := Tracer.count_pos hts hu
    omega

/-- The knobs of a run with markers that exits when all is traced; a sample is one instruction. -/
def exitKnobs (skipMaster : Bool) : Knobs where
  useMarkers := true
  initialSkip := 0
  interSampleSkip := 0
  traceInstructions := 1
  numSamples := 1
  mainThreadOnly := false
  exitOnDone := true
  skipMasterTracing := skipMaster
  traceOnlyRegisteredWorkers := false

/-- Three threads start; thread 0 begins the ROI; threads 1 and 2 execute a trace. -/
def threeThreads : List Call :=
  [.threadStart 0, .threadStart 1, .threadStart 2, .handleMarker 0 champsimRoiBegin,
    .checkRoiTransition 1, .checkRoiTransition 2].map (·, true)

/-- With an orchestrator a trace is cut short: it is counted as done, and so the tool exits when
thread 1 has its sample, while thread 2 is in TRACING. -/
theorem exit_cuts_trace :
    ∃ s l s' os, (tracerLts (exitKnobs true) 3).Reachable (PinOk (exitKnobs true)) s ∧
      PinOk (exitKnobs true) s l ∧
      (tracerLts (exitKnobs true) 3).step s l = some (s', os) ∧ .exitApplication ∈ os ∧
      ∃ ts, s'.getState 2 = some ts ∧ ts.everStartedTracing = true ∧ ts.phase = .tracing := by
  obtain ⟨s, hr, hp⟩ := Lts.reachable_of_exec (tracerLts (exitKnobs true) 3)
    (PinOk (exitKnobs true))
    (fun s => let r := s.call (exitKnobs true) (.recordInstrCommit 1, true)
      .exitApplication ∈ r.2 ∧
        r.1.getState 2 = some ((Tracer.newThread (exitKnobs true) .waitingForRoi 0).entered true))
    threeThreads rfl (by decide +kernel)
  obtain ⟨he, ht⟩ := of_decide_eq_true hp
  exact ⟨s, (.recordInstrCommit 1, true), _, _, hr, trivial, rfl, he, _, ht, rfl, rfl⟩

/-- Without an orchestrator the tool exits when the last of the three threads has its sample. -/
theorem exit_cuts_no_trace_three_threads :
    ∃ s : Tracer, s.threadsReachedDone = 3 ∧ ∀ tid ts, s.getState tid = some ts →
      ts.everStartedTracing = true → ts.phase = .done := by
  obtain ⟨s, hr, hp⟩ := Lts.reachable_of_exec (tracerLts (exitKnobs false) 3)
    (Tracer.CountsStarted (exitKnobs false))
    (fun s => let r := s.call (exitKnobs false) (.recordInstrCommit 2, true)
      .exitApplication ∈ r.2 ∧ r.1.threadsReachedDone = 3)
    (threeThreads ++ [Callback.recordInstrCommit 0, .recordInstrCommit 1].map (·, true)) rfl
    (by decide +kernel)
  obtain ⟨he, hd⟩ := of_decide_eq_true hp
  exact ⟨_, hd, exit_cuts_no_trace (exitKnobs false) 3 s _ (.recordInstrCommit 2, true) _ hr
    ⟨trivial, not_false⟩ rfl he⟩

end Arishem
