import Arishem.Tracer.Callbacks

/-!
# What a callback can do

The outcomes of the callbacks, with the guards that lead to them and the state they leave: the new
state of the thread and the globals, field by field. The invariants of the tracer are proved by
cases on them and never look into the callbacks again.
-/

namespace Arishem

namespace ThreadState

/-- The thread has entered TRACING. -/
def entered (opens : Bool) (ts : ThreadState) : ThreadState :=
  { ts with phase := .tracing, counter := ts.tracePerSample, sampleOpen := opens,
            everStartedTracing := true }

/-- The thread has reached DONE. -/
def finished (ts : ThreadState) : ThreadState :=
  { ts with phase := .done, everReachedDone := true }

/-- The thread has reached DONE at the end of the ROI. -/
def stopped (ts : ThreadState) : ThreadState :=
  if ts.phase = .tracing then ts.closeSample.finished else ts.finished

/-- The sample that ends now is the last one of the thread's quota. -/
def quotaReached (ts : ThreadState) : Prop :=
  0 < ts.sampleLimit ∧ ts.sampleLimit ≤ ts.samplesCollected + 1

/-- The outputs of the commit of an instruction. -/
def commitOutputs (tid : ℕ) (ts : ThreadState) : List Output :=
  if ts.sampleOpen then [.record tid] else []

end ThreadState

namespace Tracer

/-- One more for a thread without the flag. -/
def fresh (flag : Bool) : ℕ := if flag then 0 else 1

/-- The thread is counted as started and as active. -/
def startCounted (ts : ThreadState) (s : Tracer) : Tracer :=
  { s with
    activeTracingThreads := s.activeTracingThreads + 1
    threadsStartedTracing := s.threadsStartedTracing + fresh ts.everStartedTracing }

/-- The thread is counted as done; `exit` says whether the tool exits or has done so. -/
def doneCounted (ts : ThreadState) (exit : Bool) (s : Tracer) : Tracer :=
  { s with
    threadsReachedDone := s.threadsReachedDone + fresh ts.everReachedDone
    exitTriggered := exit }

/-- The thread is no longer counted as active, if it was. -/
def leave (ts : ThreadState) (s : Tracer) : Tracer :=
  if ts.phase = .tracing then s.deactivate else s

/-- The outputs of `mark_reached_done`: nothing, or the exit when as many threads are done as have
started; `triggered` says whether the tool exits or has done so. -/
structure DoneOutputs (kn : Knobs) (s : Tracer) (ts : ThreadState) (triggered : Bool)
    (os : List Output) : Prop where
  exit : .exitApplication ∈ os →
    s.threadsStartedTracing ≤ s.threadsReachedDone + fresh ts.everReachedDone
  only : ∀ o ∈ os, o = .exitApplication
  kept : s.exitTriggered = true → triggered = true
  due : ts.everReachedDone = false → kn.exitOnDone = true → s.threadsStartedTracing ≠ 0 →
    s.threadsStartedTracing ≤ s.threadsReachedDone + 1 → triggered = true

section
variable (kn : Knobs) (s : Tracer)

/-- The outcomes of a callback. -/
inductive Outcome : Call → Tracer → List Output → Prop
  | idle {l : Call} : Outcome l s []
  | beginAlone {tid : ℕ} {opens : Bool} : s.roiStarted = false → s.getState tid = none →
      Outcome (.handleMarker tid champsimRoiBegin, opens) { s with roiStarted := true } []
  | beginSkipped {tid : ℕ} {opens exit : Bool} {ts : ThreadState} {os : List Output} :
      s.roiStarted = false → s.getState tid = some ts → kn.skipMasterTracing = true →
      DoneOutputs kn s ts exit os →
      Outcome (.handleMarker tid champsimRoiBegin, opens)
        (({ s with roiStarted := true }.doneCounted ts exit).setState tid
          (some { ts with isMaster := true }.finished)) os
  | beginTracing {tid : ℕ} {opens : Bool} {ts : ThreadState} : s.roiStarted = false →
      s.getState tid = some ts → kn.skipMasterTracing = false →
      ts.phase = .waitingForRoi ∨ ts.phase = .initialSkip →
      Outcome (.handleMarker tid champsimRoiBegin, opens)
        (({ s with roiStarted := true }.startCounted ts).removeInstrumentation.setState tid
          (some ({ ts with isMaster := true }.entered opens)))
        (ThreadState.openOutputs opens tid)
  | beginOther {tid : ℕ} {opens : Bool} {ts : ThreadState} : s.roiStarted = false →
      s.getState tid = some ts → kn.skipMasterTracing = false →
      ¬ (ts.phase = .waitingForRoi ∨ ts.phase = .initialSkip) →
      Outcome (.handleMarker tid champsimRoiBegin, opens)
        ({ s with roiStarted := true }.setState tid (some { ts with isMaster := true })) []
  | register {tid : ℕ} {opens : Bool} {ts : ThreadState} : s.getState tid = some ts →
      Outcome (.handleMarker tid champsimRegisterWorker, opens)
        (s.setState tid (some { ts with isRegisteredWorker := true })) []
  | endAlone {tid : ℕ} {opens : Bool} : s.roiEnded = false → s.getState tid = none →
      Outcome (.handleMarker tid champsimRoiEnd, opens) { s with roiEnded := true } []
  | endThread {tid : ℕ} {opens exit : Bool} {ts : ThreadState} {os : List Output} :
      s.roiEnded = false → s.getState tid = some ts → DoneOutputs kn s ts exit os →
      Outcome (.handleMarker tid champsimRoiEnd, opens)
        ((({ s with roiEnded := true }.leave ts).doneCounted ts exit).removeInstrumentation.setState
          tid (some ts.stopped)) os
  | stop {tid : ℕ} {opens exit : Bool} {ts : ThreadState} {os : List Output} :
      s.getState tid = some ts → ts.phase ≠ .done → s.roiEnded = true → DoneOutputs kn s ts exit os →
      Outcome (.checkRoiTransition tid, opens)
        (((s.leave ts).doneCounted ts exit).setState tid (some ts.stopped)) os
  | wake {tid : ℕ} {opens : Bool} {ts : ThreadState} : s.getState tid = some ts →
      s.roiEnded = false → s.roiStarted = true → ts.phase = .waitingForRoi →
      (kn.traceOnlyRegisteredWorkers = true → ts.isRegisteredWorker = true) →
      Outcome (.checkRoiTransition tid, opens)
        ({ s.startCounted ts with
            codeCache := if s.activeTracingThreads = 0 then [] else s.codeCache }.setState tid
          (some (ts.entered opens)))
        (ThreadState.openOutputs opens tid)
  | skip {l : Call} {tid : ℕ} {opens : Bool} {ts : ThreadState} {phase : Phase} {n : UInt32} :
      phase = .initialSkip ∧ l = (.fastForwardInitial tid n, opens) ∨
        phase = .interSkip ∧ l = (.fastForwardInter tid n, opens) →
      s.getState tid = some ts → ts.phase = phase → n.toUInt64 < ts.counter →
      Outcome l (s.setState tid (some { ts with counter := ts.counter - n.toUInt64 })) []
  | resume {l : Call} {tid : ℕ} {opens : Bool} {ts : ThreadState} {phase : Phase} {n : UInt32} :
      phase = .initialSkip ∧ l = (.fastForwardInitial tid n, opens) ∨
        phase = .interSkip ∧ l = (.fastForwardInter tid n, opens) →
      s.getState tid = some ts → ts.phase = phase → ts.counter ≤ n.toUInt64 →
      Outcome l
        ((s.startCounted ts).removeInstrumentation.setState tid (some (ts.entered opens)))
        (ThreadState.openOutputs opens tid)
  | record {tid : ℕ} {opens : Bool} {ts : ThreadState} : s.getState tid = some ts →
      ts.phase = .tracing → ts.counter - 1 ≠ 0 →
      Outcome (.recordInstrCommit tid, opens)
        (s.setState tid (some { ts with counter := ts.counter - 1 })) (ts.commitOutputs tid)
  | finish {tid : ℕ} {opens exit : Bool} {ts : ThreadState} {os : List Output} :
      s.getState tid = some ts → ts.phase = .tracing → ts.counter - 1 = 0 → ts.quotaReached →
      DoneOutputs kn s ts exit os →
      Outcome (.recordInstrCommit tid, opens)
        ((s.doneCounted ts exit).deactivate.removeInstrumentation.setState tid
          (some { ts.sampleClosed with counter := 0 }.finished)) (ts.commitOutputs tid ++ os)
  | pause {tid : ℕ} {opens : Bool} {ts : ThreadState} : s.getState tid = some ts →
      ts.phase = .tracing → ts.counter - 1 = 0 → ¬ ts.quotaReached →
      Outcome (.recordInstrCommit tid, opens)
        (s.deactivate.removeInstrumentation.setState tid
          (some { ts.sampleClosed with phase := .interSkip, counter := ts.interSampleSkip }))
        (ts.commitOutputs tid)
  | restart {tid : ℕ} {opens : Bool} {ts : ThreadState} : s.getState tid = some ts →
      ts.phase = .tracing → ts.counter - 1 = 0 → ¬ ts.quotaReached →
      Outcome (.recordInstrCommit tid, opens)
        (s.setState tid (some (ts.sampleClosed.startWindow.openNextSample opens)))
        (ts.commitOutputs tid ++ ThreadState.openOutputs opens tid)
  | instrument {trace : UInt64} {opens : Bool} :
      Outcome (.instrumentTrace trace, opens) (s.instrumentTrace kn trace) []
  | startExcluded {tid : ℕ} {opens : Bool} {main : Option ℕ} :
      Outcome (.threadStart tid, opens) { s with mainThreadId := main } []
  | startTracing {tid : ℕ} {opens : Bool} {main : Option ℕ} {n : UInt64} :
      (kn.mainThreadOnly = true → s.mainThreadId = none ∨ s.mainThreadId = some tid) →
      s.startingPhase kn = .tracing →
      Outcome (.threadStart tid, opens)
        (({ s with mainThreadId := main }.startCounted
          (newThread kn .tracing n)).removeInstrumentation.setState tid
            (some ((newThread kn .tracing n).entered opens)))
        (ThreadState.openOutputs opens tid)
  | start {tid : ℕ} {opens : Bool} {main : Option ℕ} {n : UInt64} {phase : Phase} :
      s.startingPhase kn = phase → phase ≠ .tracing →
      Outcome (.threadStart tid, opens)
        ({ s with mainThreadId := main }.setState tid (some (newThread kn phase n))) []
  | exit {tid : ℕ} {opens : Bool} {ts : ThreadState} : s.getState tid = some ts →
      Outcome (.threadFini tid, opens) ((s.leave ts).setState tid none) []

end

section
variable {kn : Knobs} {s : Tracer} {tid : ℕ} {opens : Bool}

/-! ## The phase transitions -/

/-- What `mark_reached_done` does. -/
theorem markReachedDone_eq (kn : Knobs) (ts : ThreadState) (s : Tracer) :
    ∃ exit os, DoneOutputs kn s ts exit os ∧
      s.markReachedDone kn ts = ⟨{ ts with everReachedDone := true }, s.doneCounted ts exit, os⟩ := by
  rw [markReachedDone]
  split
  · rename_i h
    refine ⟨s.exitTriggered, [], ⟨by simp, by simp, id, fun h₀ => ?_⟩, ?_⟩
    · rw [h₀] at h
      cases h
    · cases ts
      simp_all [doneCounted, fresh]
  · rename_i h
    have hf : fresh ts.everReachedDone = 1 := by simp [fresh, h]
    simp only [maybeExitOnDone]
    split
    · rename_i hdue
      refine ⟨true, [.exitApplication], ⟨fun _ => ?_, by simp, fun _ => rfl, fun _ _ _ _ => rfl⟩,
        by simp [doneCounted, hf]⟩
      rw [hf]
      exact hdue.2.2.1
    · rename_i hdue
      refine ⟨s.exitTriggered, [], ⟨by simp, by simp, id, fun _ hk hs hle => ?_⟩,
        by simp [doneCounted, hf]⟩
      cases he : s.exitTriggered with
      | true => rfl
      | false => exact absurd ⟨hk, hs, hle, he⟩ hdue

/-- What the start of a window and `enter_tracing` do. -/
theorem activate_eq (opens : Bool) (ts : ThreadState) (s : Tracer) :
    s.activate opens ts.startWindow = (ts.entered opens, s.startCounted ts) := by
  rw [activate, markStartedTracing]
  split
  · rename_i h
    have h' : ts.everStartedTracing = true := h
    simp [ThreadState.entered, ThreadState.openNextSample, ThreadState.startWindow, startCounted,
      fresh, h']
  · rename_i h
    have h' : ts.everStartedTracing = false := Bool.not_eq_true _ ▸ h
    simp [ThreadState.entered, ThreadState.openNextSample, ThreadState.startWindow, startCounted,
      fresh, h']

/-- What the end of the ROI does to a thread. -/
theorem stopTracing_eq (kn : Knobs) (ts : ThreadState) (s : Tracer) :
    ∃ exit os, DoneOutputs kn s ts exit os ∧
      s.stopTracing kn ts = ⟨ts.stopped, (s.leave ts).doneCounted ts exit, os⟩ := by
  rw [stopTracing, ThreadState.stopped, leave]
  split
  · obtain ⟨exit, os, ho, h⟩ := markReachedDone_eq kn { ts.closeSample with phase := .done }
      s.deactivate
    exact ⟨exit, os, ⟨ho.exit, ho.only, ho.kept, ho.due⟩, h⟩
  · obtain ⟨exit, os, ho, h⟩ := markReachedDone_eq kn { ts with phase := .done } s
    exact ⟨exit, os, ⟨ho.exit, ho.only, ho.kept, ho.due⟩, h⟩

/-- `leave_tracing` ends in one of the three ways of `finish_sample`. -/
theorem leaveTracing_cases (kn : Knobs) (opens : Bool) (tid : ℕ) (ts : ThreadState) (s : Tracer) :
    (ts.quotaReached ∧ ∃ exit os, DoneOutputs kn s ts exit os ∧ s.leaveTracing kn opens tid ts =
        ⟨ts.sampleClosed.finished, (s.doneCounted ts exit).deactivate.removeInstrumentation, os⟩) ∨
      ¬ ts.quotaReached ∧ (s.leaveTracing kn opens tid ts =
        ⟨{ ts.sampleClosed with phase := .interSkip, counter := ts.interSampleSkip },
          s.deactivate.removeInstrumentation, []⟩ ∨
      s.leaveTracing kn opens tid ts =
        ⟨ts.sampleClosed.startWindow.openNextSample opens, s,
          ThreadState.openOutputs opens tid⟩) := by
  by_cases hq : 0 < ts.sampleClosed.sampleLimit ∧
      ts.sampleClosed.sampleLimit ≤ ts.sampleClosed.samplesCollected
  · refine .inl ⟨hq, ?_⟩
    obtain ⟨exit, os, ho, h⟩ := markReachedDone_eq kn { ts.sampleClosed with phase := .done } s
    refine ⟨exit, os, ⟨ho.exit, ho.only, ho.kept, ho.due⟩, ?_⟩
    simp only [leaveTracing, finishSample, if_pos hq, h]
    rfl
  · refine .inr ⟨hq, ?_⟩
    by_cases hi : 0 < ts.sampleClosed.interSampleSkip
    · refine .inl ?_
      simp only [leaveTracing, finishSample, if_neg hq, if_pos hi]
      rfl
    · refine .inr ?_
      simp only [leaveTracing, finishSample, if_neg hq, if_neg hi]

/-! ## The callbacks -/

/-- The begin of the ROI has one of its outcomes. -/
theorem roiBegin_cases :
    Outcome kn s (.handleMarker tid champsimRoiBegin, opens) (s.roiBegin kn opens tid).1
      (s.roiBegin kn opens tid).2 := by
  rw [roiBegin]
  by_cases hs : s.roiStarted
  · rw [if_pos hs]
    exact .idle
  rw [if_neg hs]
  have hs' : s.roiStarted = false := by simpa using hs
  have hg : { s with roiStarted := true }.getState tid = s.getState tid := rfl
  simp only [hg]
  cases ht : s.getState tid with
  | none => exact .beginAlone hs' ht
  | some ts =>
    by_cases hk : kn.skipMasterTracing
    · obtain ⟨exit, os, ho, h⟩ := markReachedDone_eq kn { ts with isMaster := true, phase := .done }
        { s with roiStarted := true }
      simp only [if_pos hk, h]
      exact @Outcome.beginSkipped kn s tid opens exit ts os hs' ht hk ⟨ho.exit, ho.only, ho.kept, ho.due⟩
    · have hk' : kn.skipMasterTracing = false := by simpa using hk
      simp only [if_neg hk]
      by_cases hp : ts.phase = .waitingForRoi ∨ ts.phase = .initialSkip
      · simp only [if_pos hp, enterTracing, activate_eq]
        exact @Outcome.beginTracing kn s tid opens ts hs' ht hk' hp
      · rw [if_neg hp]
        exact .beginOther hs' ht hk' hp

/-- The end of the ROI has one of its outcomes. -/
theorem roiEnd_cases :
    Outcome kn s (.handleMarker tid champsimRoiEnd, opens) (s.roiEnd kn tid).1
      (s.roiEnd kn tid).2 := by
  rw [roiEnd]
  by_cases hs : s.roiEnded
  · rw [if_pos hs]
    exact .idle
  rw [if_neg hs]
  have hs' : s.roiEnded = false := by simpa using hs
  have hg : { s with roiEnded := true }.getState tid = s.getState tid := rfl
  simp only [hg]
  cases ht : s.getState tid with
  | none => exact .endAlone hs' ht
  | some ts =>
    obtain ⟨exit, os, ho, h⟩ := stopTracing_eq kn ts { s with roiEnded := true }
    simp only [h]
    exact .endThread hs' ht ⟨ho.exit, ho.only, ho.kept, ho.due⟩

/-- `HandleMarker` has one of its outcomes. -/
theorem handleMarker_cases {rcx : UInt64} :
    Outcome kn s (.handleMarker tid rcx, opens) (s.handleMarker kn opens tid rcx).1
      (s.handleMarker kn opens tid rcx).2 := by
  rw [handleMarker]
  split_ifs with hb hr he
  · subst hb
    exact roiBegin_cases
  · subst hr
    rw [registerWorker]
    cases ht : s.getState tid with
    | none => exact .idle
    | some ts => exact .register ht
  · subst he
    exact roiEnd_cases
  · exact .idle

/-- `CheckROITransition` has one of its outcomes. -/
theorem checkRoiTransition_cases :
    Outcome kn s (.checkRoiTransition tid, opens) (s.checkRoiTransition kn opens tid).1
      (s.checkRoiTransition kn opens tid).2 := by
  rw [checkRoiTransition]
  cases ht : s.getState tid with
  | none => exact .idle
  | some ts =>
    simp only
    by_cases hd : ts.phase = .done
    · rw [if_pos hd]
      exact .idle
    rw [if_neg hd]
    by_cases he : s.roiEnded
    · rw [if_pos he]
      obtain ⟨exit, os, ho, h⟩ := stopTracing_eq kn ts s
      rw [h]
      exact .stop ht hd he ho
    rw [if_neg he]
    by_cases hr : s.roiStarted ∧ ts.phase = .waitingForRoi
    · rw [if_pos hr]
      by_cases hw : kn.traceOnlyRegisteredWorkers ∧ ts.isRegisteredWorker = false
      · rw [if_pos hw]
        exact .idle
      · rw [if_neg hw]
        have hreg : kn.traceOnlyRegisteredWorkers = true → ts.isRegisteredWorker = true := by
          intro hk
          simpa [hk] using hw
        have hwake := @Outcome.wake kn s tid opens ts ht (by simpa using he) hr.1 hr.2 hreg
        simp only [activate_eq]
        split <;> rename_i ha
        · rw [if_pos ha] at hwake
          exact hwake
        · rw [if_neg ha] at hwake
          exact hwake
    · rw [if_neg hr]
      exact .idle

/-- `FastForwardInitial` and `FastForwardInter` have one of their outcomes. -/
theorem fastForward_cases {l : Call} {phase : Phase} {n : UInt32}
    (hl : phase = .initialSkip ∧ l = (.fastForwardInitial tid n, opens) ∨
      phase = .interSkip ∧ l = (.fastForwardInter tid n, opens)) :
    Outcome kn s l (s.fastForward opens tid phase n).1 (s.fastForward opens tid phase n).2 := by
  rw [fastForward]
  cases ht : s.getState tid with
  | none => exact .idle
  | some ts =>
    simp only
    by_cases hp : ts.phase = phase
    · rw [if_neg (by simpa using hp)]
      by_cases hc : n.toUInt64 < ts.counter
      · rw [if_pos hc]
        exact .skip hl ht hp hc
      · simp only [if_neg hc, enterTracing, activate_eq]
        exact .resume hl ht hp (UInt64.not_lt.1 hc)
    · rw [if_pos hp]
      exact .idle

/-- `RecordInstrCommit` has one of its outcomes. -/
theorem recordInstrCommit_cases :
    Outcome kn s (.recordInstrCommit tid, opens) (s.recordInstrCommit kn opens tid).1
      (s.recordInstrCommit kn opens tid).2 := by
  rw [recordInstrCommit]
  cases ht : s.getState tid with
  | none => exact .idle
  | some ts =>
    simp only
    by_cases hp : ts.phase = .tracing
    · rw [if_neg (by simpa using hp)]
      by_cases hc : ts.counter - 1 = 0
      · simp only [hc, if_true]
        rcases leaveTracing_cases kn opens tid { ts with counter := 0 } s with
          ⟨hq, exit, os, ho, h⟩ | ⟨hq, h | h⟩
        · rw [h]
          exact @Outcome.finish kn s tid opens exit ts os ht hp hc hq ⟨ho.exit, ho.only, ho.kept, ho.due⟩
        · rw [h, List.append_nil]
          exact @Outcome.pause kn s tid opens ts ht hp hc hq
        · rw [h]
          exact @Outcome.restart kn s tid opens ts ht hp hc hq
      · rw [if_neg hc]
        exact .record ht hp hc
    · rw [if_pos hp]
      exact .idle

/-- `ThreadStart` has one of its outcomes. -/
theorem threadStart_cases :
    Outcome kn s (.threadStart tid, opens) (s.threadStart kn opens tid).1
      (s.threadStart kn opens tid).2 := by
  rw [threadStart]
  have hph : ∀ main, { s with mainThreadId := main }.startingPhase kn = s.startingPhase kn :=
    fun _ => rfl
  simp only
  split_ifs with hm hp
  · exact .startExcluded
  · simp only [newThread, hph] at hp
    have hts : newThread kn (s.startingPhase kn) (s.startingCounter kn) =
        (newThread kn .tracing kn.traceInstructions).startWindow := by
      simp [startingCounter, hp, newThread, ThreadState.startWindow]
    have hmain : kn.mainThreadOnly = true → s.mainThreadId = none ∨ s.mainThreadId = some tid := by
      intro hk
      cases hid : s.mainThreadId with
      | none => exact .inl rfl
      | some main =>
        refine .inr ?_
        by_contra hne
        exact hm ⟨hk, by simpa [hid] using hne⟩
    have hc : ∀ main, { s with mainThreadId := main }.startingCounter kn = s.startingCounter kn :=
      fun _ => rfl
    simp only [hph, hc, hts, enterTracing, activate_eq]
    exact .startTracing hmain hp
  · simp only [newThread, hph] at hp
    exact .start rfl hp

/-- Every callback has one of its outcomes. -/
theorem call_cases (l : Call) : Outcome kn s l (s.call kn l).1 (s.call kn l).2 := by
  obtain ⟨callback, opens⟩ := l
  cases callback with
  | handleMarker tid rcx => exact handleMarker_cases
  | checkRoiTransition tid => exact checkRoiTransition_cases
  | fastForwardInitial tid n => exact fastForward_cases (.inl ⟨rfl, rfl⟩)
  | fastForwardInter tid n => exact fastForward_cases (.inr ⟨rfl, rfl⟩)
  | recordInstrCommit tid => exact recordInstrCommit_cases
  | instrumentTrace trace => exact .instrument
  | threadStart tid => exact threadStart_cases
  | threadFini tid =>
    simp only [call, threadFini]
    cases ht : s.getState tid with
    | none => exact .idle
    | some ts => exact .exit ht

end

end Tracer

end Arishem
