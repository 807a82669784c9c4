import Arishem.Tracer.Threads

/-!
# The modes of the cached traces

A trace in PIN's code cache keeps the branch of `InstrumentTrace` that instrumented it. What the
branch depends on changes with the ROI and with the first and the last active thread, and the
callbacks discard the cached traces then. Two do not: the begin of the ROI on a thread that does not
enter TRACING, and the exit of the only thread that traces.
-/

namespace Arishem

namespace Tracer

/-- The thread enters TRACING when it begins the ROI. -/
def beginsTracing (ts : ThreadState) : Bool := ts.phase == .waitingForRoi || ts.phase == .initialSkip

/-- The callback changes the branch `InstrumentTrace` takes in the ROI and leaves cached traces
behind. -/
def LeavesStale (kn : Knobs) (s : Tracer) (l : Call) : Prop :=
  s.roiEnded = false ∧ s.codeCache ≠ [] ∧
    match l.1 with
    | .handleMarker tid rcx => rcx = champsimRoiBegin ∧ s.roiStarted = false ∧
      (kn.skipMasterTracing = true ∨ (s.getState tid).any beginsTracing = false)
    | .threadFini tid => s.roiStarted = true ∧ s.activeTracingThreads = 1 ∧
      (s.getState tid).any isTracing
    | _ => False

instance (kn : Knobs) (s : Tracer) (l : Call) : Decidable (LeavesStale kn s l) := by
  unfold LeavesStale
  refine @instDecidableAnd _ _ inferInstance (@instDecidableAnd _ _ inferInstance ?_)
  exact match l.1 with
  | .handleMarker .. | .threadFini _ => instDecidableAnd
  | .checkRoiTransition _ | .fastForwardInitial .. | .fastForwardInter ..
  | .recordInstrCommit _ | .instrumentTrace _ | .threadStart _ => instDecidableFalse

/-- The steps PIN can make that leave no cached trace behind in the wrong mode. -/
def Flushes (kn : Knobs) (s : Tracer) (l : Call) : Prop := PinOk kn s l ∧ ¬ LeavesStale kn s l

instance (kn : Knobs) (s : Tracer) (l : Call) : Decidable (Flushes kn s l) := by
  unfold Flushes
  infer_instance

/-- In the ROI every cached trace was instrumented by the branch that would be chosen now. -/
def Current (kn : Knobs) (s : Tracer) : Prop :=
  s.roiStarted = true → s.roiEnded = false → ∀ e ∈ s.codeCache, e.2 = s.instrumentation kn

section
variable {kn : Knobs} {s s' : Tracer} {tid : ℕ} {t : Option ThreadState} {ts : ThreadState}

/-- In the ROI the mode depends on whether a thread is active. -/
theorem instrumentation_roi (hs : s.roiStarted = true) (he : s.roiEnded = false) :
    s.instrumentation kn = if 0 < s.activeTracingThreads then .fullAnalysis else .fastForward := by
  simp [instrumentation, hs, he]

/-- Without cached traces none is in the wrong mode. -/
theorem Current.discarded (h : s'.codeCache = []) : Current kn (s'.setState tid t) := by
  intro _ _ e he
  have he' : e ∈ s'.codeCache := he
  rw [h] at he'
  cases he'

/-- After the end of the ROI there is no wrong mode. -/
theorem Current.ended (h : s'.roiEnded = true) : Current kn s' := by
  intro _ he
  rw [h] at he
  cases he

/-- A callback that leaves the cached traces, the ROI and whether a thread is active as they are. -/
theorem Current.keep (h : Current kn s) (hcache : s'.codeCache = s.codeCache)
    (hstarted : s'.roiStarted = s.roiStarted) (hended : s'.roiEnded = s.roiEnded)
    (hactive : 0 < s'.activeTracingThreads ↔ 0 < s.activeTracingThreads) :
    Current kn (s'.setState tid t) := by
  intro hs he e hc
  have hs' : s.roiStarted = true := hstarted ▸ hs
  have he' : s.roiEnded = false := hended ▸ he
  have hc' : e ∈ s.codeCache := hcache ▸ hc
  have ha : (s'.setState tid t).activeTracingThreads = s'.activeTracingThreads := rfl
  rw [h hs' he' e hc', instrumentation_roi hs' he', instrumentation_roi hs he, ha]
  simp only [hactive]

/-- A thread in TRACING is counted as active. -/
theorem Accounted.active_pos (ha : Accounted kn s) (hts : s.getState tid = some ts)
    (hp : ts.phase = .tracing) : 0 < s.activeTracingThreads := by
  have hpos := count_pos (f := isTracing) hts (by simp [isTracing, hp])
  rw [ha.active]
  exact_mod_cast hpos

/-- Every callback leaves the cached traces in the mode of now. -/
theorem Current.step (h : Current kn s) (ha : Accounted kn s) {l : Call} {os : List Output}
    (hok : Flushes kn s l) (hs : Outcome kn s l s' os) : Current kn s' := by
  obtain ⟨_, hstale⟩ := hok
  -- the begin of the ROI, when the thread does not enter TRACING
  have hbegin : ∀ tid opens, l = (.handleMarker tid champsimRoiBegin, opens) →
      s.roiStarted = false →
      (kn.skipMasterTracing = true ∨ (s.getState tid).any beginsTracing = false) →
      s.roiEnded = true ∨ s.codeCache = [] := by
    rintro tid opens rfl hroi hthread
    by_contra hc
    rw [not_or] at hc
    exact hstale ⟨by simpa using hc.1, hc.2, rfl, hroi, hthread⟩
  have hquiet : ∀ {s₁ : Tracer}, s₁.roiEnded = s.roiEnded → s₁.codeCache = s.codeCache →
      (s.roiEnded = true ∨ s.codeCache = []) → Current kn s₁ := by
    rintro s₁ he hc (h₁ | h₁)
    · exact .ended (he.trans h₁)
    · intro _ _ e hm
      rw [hc, h₁] at hm
      cases hm
  cases hs with
  | idle => exact h
  | beginAlone hroi hts => exact hquiet rfl rfl (hbegin _ _ rfl hroi (.inr (by simp [hts])))
  | beginSkipped hroi _ hsk _ => exact hquiet rfl rfl (hbegin _ _ rfl hroi (.inl hsk))
  | beginTracing _ _ _ _ => exact .discarded rfl
  | @beginOther tid opens ts hroi hts _ hp =>
    refine hquiet rfl rfl (hbegin _ _ rfl hroi (.inr ?_))
    rw [hts]
    simpa [beginsTracing, not_or] using hp
  | register _ => exact h.keep rfl rfl rfl .rfl
  | endAlone _ _ => exact .ended rfl
  | endThread _ _ _ => exact .discarded rfl
  | @stop tid opens exit ts os _ _ hend _ =>
    have hleave : (s.leave ts).roiEnded = s.roiEnded := by
      rw [leave]
      split <;> rfl
    exact .ended (hleave.trans hend)
  | @wake tid opens ts hts hend hroi hp hreg =>
    by_cases hz : s.activeTracingThreads = 0
    · exact .discarded (if_pos hz)
    · -- traces are already instrumented for full analysis
      refine h.keep (if_neg hz) rfl rfl ?_
      have hn := ha.active
      simp only [startCounted]
      omega
  | skip _ _ _ _ => exact h.keep rfl rfl rfl .rfl
  | resume _ _ _ _ => exact .discarded rfl
  | record _ _ _ => exact h.keep rfl rfl rfl .rfl
  | finish _ _ _ _ _ => exact .discarded rfl
  | pause _ _ _ _ => exact .discarded rfl
  | restart _ _ _ _ => exact h.keep rfl rfl rfl .rfl
  | @instrument trace opens =>
    intro hr he e hm
    rcases List.mem_cons.1 hm with rfl | hm
    · rfl
    · exact h hr he e hm
  | startExcluded => exact h
  | startTracing _ _ => exact .discarded rfl
  | start _ _ => exact h.keep rfl rfl rfl .rfl
  | @exit tid opens ts hts =>
    rw [leave]
    by_cases hp : ts.phase = .tracing
    · rw [if_pos hp]
      have hpos := ha.active_pos hts hp
      by_cases hone : s.activeTracingThreads = 1
      · -- the last active thread exits: no trace is cached, or it is not the ROI
        intro hr he e hm
        refine absurd ⟨he, List.ne_nil_of_mem hm, hr, hone, ?_⟩ hstale
        rw [hts]
        simp [isTracing, hp]
      · refine h.keep rfl rfl rfl ?_
        simp only [deactivate]
        omega
    · rw [if_neg hp]
      exact h.keep rfl rfl rfl .rfl

end

end Tracer

/-- Cached traces are never instrumented for a stale mode: in a run whose callbacks leave no stale
trace behind, in the ROI every cached trace calls `CheckROITransition`, and it has full analysis
when a thread is active and fast-forwards when none is. -/
theorem cached_traces_current (kn : Knobs) (maxThreads : ℕ) (s : Tracer)
    (h : (tracerLts kn maxThreads).Reachable (Tracer.Flushes kn) s) (hroi : s.roiStarted = true)
    (hend : s.roiEnded = false) (e : UInt64 × Instrumentation) (he : e ∈ s.codeCache) :
    e.2 = s.instrumentation kn ∧
      e.2 = if 0 < s.activeTracingThreads then .fullAnalysis else .fastForward := by
  have ha : ∀ s, (tracerLts kn maxThreads).Reachable (Tracer.Flushes kn) s →
      Tracer.Accounted kn s := fun s hr =>
    Tracer.Accounted.reachable (hr.mono fun _ _ hl => hl.1)
  have hc : Tracer.Current kn s := by
    obtain ⟨tr, hr⟩ := h
    refine hr.induct (P := fun s _ => Tracer.Current kn s) ?_ ?_
    · rintro s rfl hr
      cases hr
    · intro s tr l s' os hr hI hok hs
      exact hI.step (ha s ⟨tr, hr⟩) hok (Tracer.outcome_of_step hs)
  have hmode := hc hroi hend e he
  exact ⟨hmode, hmode.trans (Tracer.instrumentation_roi hroi hend)⟩

/-- The knobs of a run with markers. -/
def markerKnobs (skipMaster : Bool) : Knobs where
  useMarkers := true
  initialSkip := 0
  interSampleSkip := 0
  traceInstructions := 10
  numSamples := 0
  mainThreadOnly := false
  exitOnDone := false
  skipMasterTracing := skipMaster
  traceOnlyRegisteredWorkers := false

/-- Two threads start, a trace is instrumented, and thread 0 begins the ROI. -/
def tracedBeforeRoi : List Call :=
  [Callback.threadStart 0, .threadStart 1, .instrumentTrace 16,
    .handleMarker 0 champsimRoiBegin].map (·, true)

/-- After the orchestrator's begin of the ROI a cached trace only calls the markers, and after the
exit of the only active thread one has full analysis. -/
theorem cached_trace_stale :
    (∃ s, (tracerLts (markerKnobs true) 2).Reachable (PinOk (markerKnobs true)) s ∧
      s.roiStarted = true ∧ s.roiEnded = false ∧ (16, .markerOnly) ∈ s.codeCache ∧
      s.instrumentation (markerKnobs true) = .fastForward) ∧
    ∃ s, (tracerLts (markerKnobs false) 2).Reachable (PinOk (markerKnobs false)) s ∧
      s.roiStarted = true ∧ s.roiEnded = false ∧ s.activeTracingThreads = 0 ∧
      (16, .fullAnalysis) ∈ s.codeCache ∧
      s.instrumentation (markerKnobs false) = .fastForward := by
  constructor
  · obtain ⟨s, hr, hp⟩ := Lts.reachable_of_exec (tracerLts (markerKnobs true) 2)
      (PinOk (markerKnobs true))
      (fun s => s.roiStarted = true ∧ s.roiEnded = false ∧ (16, .markerOnly) ∈ s.codeCache ∧
        s.instrumentation (markerKnobs true) = .fastForward)
      tracedBeforeRoi rfl (by decide +kernel)
    exact ⟨s, hr, of_decide_eq_true hp⟩
  · obtain ⟨s, hr, hp⟩ := Lts.reachable_of_exec (tracerLts (markerKnobs false) 2)
      (PinOk (markerKnobs false))
      (fun s => s.roiStarted = true ∧ s.roiEnded = false ∧ s.activeTracingThreads = 0 ∧
        (16, .fullAnalysis) ∈ s.codeCache ∧ s.instrumentation (markerKnobs false) = .fastForward)
      (tracedBeforeRoi ++ [Callback.instrumentTrace 16, .threadFini 0].map (·, true)) rfl
      (by decide +kernel)
    exact ⟨s, hr, of_decide_eq_true hp⟩

/-- A trace is instrumented again after the begin of the ROI, by the thread that is traced. -/
theorem cached_traces_current_one_trace :
    ∃ s : Tracer, (16, .fullAnalysis) ∈ s.codeCache ∧
      Instrumentation.fullAnalysis = s.instrumentation (markerKnobs false) := by
  obtain ⟨s, hr, hp⟩ := Lts.reachable_of_exec (tracerLts (markerKnobs false) 2)
    (Tracer.Flushes (markerKnobs false))
    (fun s => s.roiStarted = true ∧ s.roiEnded = false ∧ (16, .fullAnalysis) ∈ s.codeCache)
    (tracedBeforeRoi ++ [Callback.instrumentTrace 16].map (·, true)) rfl (by decide +kernel)
  obtain ⟨hroi, hend, he⟩ := of_decide_eq_true hp
  exact ⟨s, he, (cached_traces_current (markerKnobs false) 2 s hr hroi hend _ he).1⟩

end Arishem
