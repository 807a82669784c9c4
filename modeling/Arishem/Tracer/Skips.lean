import Arishem.Tracer.Traces

/-!
# The skips of a thread

A thread that skips counts its instructions down when it executes a trace that fast-forwards. A trace
with full analysis calls only `RecordInstrCommit`, which does nothing for a thread that skips: its
instructions are not counted. Which of the two a trace is depends on whether any thread was active
when it was instrumented, so a thread skips for as long as it was told to exactly while it executes
traces instrumented without an active thread.
-/

namespace Arishem

namespace Tracer

/-- The thread skips. -/
def Skips (ts : ThreadState) : Prop := ts.phase = .interSkip ∨ ts.phase = .initialSkip

/-- What a trace of `n` instructions does to the skip of a thread. -/
def Skipped (n : ℕ) (ts ts' : ThreadState) : Prop :=
  if n < ts.counter.toNat then ts'.phase = ts.phase ∧ ts'.counter.toNat = ts.counter.toNat - n
  else ts'.phase = .tracing

/-- The thread executes traces one after the other while it skips, all of them instrumented in the
ROI when no thread was active. The callbacks of the others come in between. -/
inductive SkipRun (kn : Knobs) (maxThreads tid : ℕ) : Tracer → List Trace → Tracer → Prop
  | nil {s : Tracer} : SkipRun kn maxThreads tid s [] s
  | cons {s₀ s s' s'' : Tracer} {tr : Lts.Trace Call Output} {ts : ThreadState} {trace : Trace}
      {traces : List Trace} : s₀.inRoi kn → s₀.activeTracingThreads = 0 →
      s.getState tid = some ts → Skips ts → (kn.useMarkers = true → s.roiStarted = true) →
      trace.length < 2 ^ 32 → (tracerLts kn maxThreads).Path (PinOk kn) s tr s' →
      callbacksOf tid tr = (s₀.instrumentation kn).callbacks kn tid trace →
      s'.roiEnded = false → SkipRun kn maxThreads tid s' traces s'' →
      SkipRun kn maxThreads tid s (trace :: traces) s''

section
variable {kn : Knobs} {s s' m : Tracer} {n tid : ℕ} {ts ts' : ThreadState} {opens : Bool}
variable {tr : Lts.Trace Call Output} {cs : List Callback} {trace : Trace} {phase : Phase}

/-! ## Callbacks that do not count -/

/-- The ROI has not ended before. -/
theorem roiEnded_before (h : (tracerLts kn n).Path (PinOk kn) s tr s') (he : s'.roiEnded = false) :
    s.roiEnded = false := by
  cases hs : s.roiEnded with
  | false => rfl
  | true =>
    rw [(RoiGrows.path h).ended hs] at he
    cases he

/-- In the ROI the check does nothing for a thread that skips. -/
theorem check_skips (hts : s.getState tid = some ts) (hk : Skips ts) (he : s.roiEnded = false) :
    (s.checkRoiTransition kn opens tid).1 = s := by
  have hd : ts.phase ≠ .done := by rcases hk with hp | hp <;> simp [hp]
  have hw : ts.phase ≠ .waitingForRoi := by rcases hk with hp | hp <;> simp [hp]
  rw [checkRoiTransition, hts]
  simp only [if_neg hd, he, Bool.false_eq_true, if_false]
  rw [if_neg fun h => hw h.2]

/-- In the ROI a marker that does not end it changes neither the phase nor the counter. -/
theorem marker_keeps {rcx : UInt64} (hts : s.getState tid = some ts) (hs : s.roiStarted = true)
    (he : (s.handleMarker kn opens tid rcx).1.roiEnded = false) :
    ∃ ts', (s.handleMarker kn opens tid rcx).1.getState tid = some ts' ∧ ts'.phase = ts.phase ∧
      ts'.counter = ts.counter := by
  rw [handleMarker] at he ⊢
  split_ifs at he ⊢ with hb hr hend
  · rw [roiBegin, if_pos hs]
    exact ⟨ts, hts, rfl, rfl⟩
  · rw [registerWorker, hts]
    refine ⟨{ ts with isRegisteredWorker := true }, ?_, rfl, rfl⟩
    rw [getState_setState (getState_some hts).1, if_pos rfl]
  · -- the end of the ROI sets the flag
    have hended : (s.roiEnd kn tid).1.roiEnded = true := by
      subst hend
      rw [roiEnd]
      split
      · assumption
      · have hg : { s with roiEnded := true }.getState tid = some ts := hts
        obtain ⟨exit, os, _, hstop⟩ := stopTracing_eq kn ts { s with roiEnded := true }
        simp only [hg, hstop]
        exact leave_roiEnded (s := { s with roiEnded := true })
    rw [hended] at he
    cases he
  · exact ⟨ts, hts, rfl, rfl⟩

/-- Markers, and commits of a thread that does not trace, change neither the phase nor the
counter. -/
theorem keeps_of_callbacks (hp : (tracerLts kn n).Path (PinOk kn) s tr s')
    (ho : callbacksOf tid tr = cs) (hcs : ∀ c ∈ cs, (∃ rcx, c = .handleMarker tid rcx) ∨
      c = .recordInstrCommit tid ∧ ts.phase ≠ .tracing)
    (hts : s.getState tid = some ts) (hs : kn.useMarkers = true → s.roiStarted = true)
    (he : s'.roiEnded = false) :
    ∃ ts', s'.getState tid = some ts' ∧ ts'.phase = ts.phase ∧ ts'.counter = ts.counter := by
  induction cs generalizing s tr ts with
  | nil => exact ⟨ts, by rw [getState_of_no_callbacks hp ho, hts], rfl, rfl⟩
  | cons c cs ih =>
    obtain ⟨m, tr₁, opens, tr₂, hp₁, hg, hok, hp₂, ho₂⟩ := next_callback hp ho
    have hcs' : ∀ c ∈ cs, (∃ rcx, c = .handleMarker tid rcx) ∨
        c = .recordInstrCommit tid ∧ ts.phase ≠ .tracing :=
      fun c hc => hcs c (List.mem_cons_of_mem _ hc)
    have hsm : kn.useMarkers = true → m.roiStarted = true :=
      fun hk => (RoiGrows.path hp₁).started (hs hk)
    have hgrow : RoiGrows m (m.call kn (c, opens)).1 := (call_cases (c, opens)).roiGrows
    rw [← hg] at hts
    rcases hcs c (by simp) with ⟨rcx, rfl⟩ | ⟨rfl, hph⟩
    · have he₂ : (m.handleMarker kn opens tid rcx).1.roiEnded = false := roiEnded_before hp₂ he
      obtain ⟨ts₂, hts₂, hph₂, hc₂⟩ := marker_keeps hts (hsm hok) he₂
      obtain ⟨ts', hts', hph', hc'⟩ := ih hp₂ ho₂ (fun c hc => hph₂ ▸ hcs' c hc) hts₂
        (fun hk => hgrow.started (hsm hk))
      exact ⟨ts', hts', hph'.trans hph₂, hc'.trans hc₂⟩
    · have hidle : (m.call kn (.recordInstrCommit tid, opens)).1 = m := by
        simp only [call, recordInstrCommit, hts, if_pos hph]
      rw [hidle] at hp₂
      exact ih hp₂ ho₂ hcs' hts hsm

/-! ## The two variants -/

/-- The markers of a trace are markers. -/
theorem mem_markers {c : Callback} (h : c ∈ trace.markers tid) : ∃ rcx, c = .handleMarker tid rcx := by
  obtain ⟨i, _, hi⟩ := List.mem_filterMap.1 h
  obtain ⟨rcx, _, rfl⟩ := Option.map_eq_some_iff.1 hi
  exact ⟨rcx, rfl⟩

/-- Full analysis does not count the instructions of a thread that skips. -/
theorem fullAnalysis_keeps (hp : (tracerLts kn n).Path (PinOk kn) s tr s')
    (ho : callbacksOf tid tr = Instrumentation.fullAnalysis.callbacks kn tid trace)
    (hts : s.getState tid = some ts) (hk : Skips ts)
    (hs : kn.useMarkers = true → s.roiStarted = true) (he : s'.roiEnded = false) :
    ∃ ts', s'.getState tid = some ts' ∧ ts'.phase = ts.phase ∧ ts'.counter = ts.counter := by
  obtain ⟨m, tr₁, opens, tr₂, hp₁, hg, hok, hp₂, ho₂⟩ := next_callback hp ho
  rw [← hg] at hts
  have hidle : (m.call kn (.checkRoiTransition tid, opens)).1 = m := by
    have hgrow : RoiGrows m (m.call kn (.checkRoiTransition tid, opens)).1 :=
      (call_cases (.checkRoiTransition tid, opens)).roiGrows
    have he₂ := roiEnded_before hp₂ he
    have hem : m.roiEnded = false := by
      cases hx : m.roiEnded with
      | false => rfl
      | true =>
        rw [hgrow.ended hx] at he₂
        cases he₂
    exact check_skips hts hk hem
  rw [hidle] at hp₂
  refine keeps_of_callbacks hp₂ ho₂ (fun c hc => ?_) hts
    (fun h => (RoiGrows.path hp₁).started (hs h)) he
  obtain ⟨i, _, hi⟩ := List.mem_flatMap.1 hc
  rcases List.mem_append.1 hi with hi | hi
  · split at hi
    · exact .inl (mem_markers hi)
    · cases hi
  · refine .inr ⟨List.mem_singleton.1 hi, ?_⟩
    rcases hk with hp | hp <;> simp [hp]

/-- A fast-forward of the phase of the thread counts the instructions. -/
theorem fastForward_skips (opens : Bool) (k : UInt32) (hts : s.getState tid = some ts)
    (hp : ts.phase = phase) :
    ∃ ts', (s.fastForward opens tid phase k).1.getState tid = some ts' ∧
      Skipped k.toNat ts ts' ∧ (ts'.phase = phase ∨ ts'.phase = .tracing) := by
  have hk : k.toUInt64.toNat = k.toNat := UInt32.toNat_toUInt64 k
  rw [fastForward, hts]
  simp only [if_neg (not_not_intro hp)]
  by_cases hc : k.toUInt64 < ts.counter
  · rw [if_pos hc]
    refine ⟨{ ts with counter := ts.counter - k.toUInt64 }, ?_, ?_, .inl hp⟩
    · rw [getState_setState (getState_some hts).1, if_pos rfl]
    · have hlt : k.toNat < ts.counter.toNat := hk ▸ UInt64.lt_iff_toNat_lt.1 hc
      rw [Skipped, if_pos hlt]
      refine ⟨rfl, ?_⟩
      rw [← hk]
      exact UInt64.toNat_sub_of_le _ _ (UInt64.le_of_lt hc)
  · rw [if_neg hc, enterTracing, activate_eq]
    refine ⟨ts.entered opens, ?_, ?_, .inr rfl⟩
    · have hi : tid < (s.startCounted ts).removeInstrumentation.threadStates.length :=
        (getState_some hts).1
      simp only [store]
      rw [getState_setState hi, if_pos rfl]
    · have hlt : ¬ k.toNat < ts.counter.toNat := fun h => hc (UInt64.lt_iff_toNat_lt.2 (hk ▸ h))
      rw [Skipped, if_neg hlt]
      rfl

/-- A fast-forward of another phase does nothing. -/
theorem fastForward_other {k : UInt32} (hts : s.getState tid = some ts) (hp : ts.phase ≠ phase) :
    (s.fastForward opens tid phase k).1 = s := by
  simp only [fastForward, hts, if_pos hp]

/-- The two fast-forwards count the instructions of a thread that skips. -/
theorem fastForward_counts (hp : (tracerLts kn n).Path (PinOk kn) s tr s')
    (ho : callbacksOf tid tr = Instrumentation.fastForward.callbacks kn tid trace)
    (hts : s.getState tid = some ts) (hk : Skips ts) (hlen : trace.length < 2 ^ 32)
    (hs : kn.useMarkers = true → s.roiStarted = true) (he : s'.roiEnded = false) :
    ∃ ts', s'.getState tid = some ts' ∧ Skipped trace.length ts ts' := by
  have hn : (UInt32.ofNat trace.length).toNat = trace.length := UInt32.toNat_ofNat_of_lt' hlen
  -- the check
  obtain ⟨m₁, tr₁, opens₁, tr₂, hp₁, hg₁, _, hp₂, ho₂⟩ := next_callback hp ho
  rw [← hg₁] at hts
  have hs₁ : kn.useMarkers = true → m₁.roiStarted = true :=
    fun h => (RoiGrows.path hp₁).started (hs h)
  have he₁ : m₁.roiEnded = false := by
    have hgrow : RoiGrows m₁ (m₁.call kn (.checkRoiTransition tid, opens₁)).1 :=
      (call_cases (.checkRoiTransition tid, opens₁)).roiGrows
    cases hx : m₁.roiEnded with
    | false => rfl
    | true =>
      have hcontra := roiEnded_before hp₂ he
      rw [hgrow.ended hx] at hcontra
      cases hcontra
  have hidle : (m₁.call kn (.checkRoiTransition tid, opens₁)).1 = m₁ := check_skips hts hk he₁
  rw [hidle] at hp₂
  -- the two fast-forwards, of which one is for the phase of the thread
  obtain ⟨m₂, tr₃, opens₂, tr₄, hp₃, hg₂, _, hp₄, ho₄⟩ := next_callback hp₂ ho₂
  obtain ⟨m₃, tr₅, opens₃, tr₆, hp₅, hg₃, _, hp₆, ho₆⟩ := next_callback hp₄ ho₄
  rw [← hg₂] at hts
  have hcounted : ∃ ts', (m₃.call kn (.fastForwardInter tid (UInt32.ofNat trace.length),
      opens₃)).1.getState tid = some ts' ∧ Skipped trace.length ts ts' := by
    rcases hk with hph | hph
    · have hfirst : (m₂.call kn (.fastForwardInitial tid (UInt32.ofNat trace.length),
          opens₂)).1 = m₂ := fastForward_other hts (by simp [hph])
      rw [hfirst, hts] at hg₃
      obtain ⟨ts', hts', hsk, _⟩ := fastForward_skips opens₃
        (UInt32.ofNat trace.length) hg₃ hph
      exact ⟨ts', hts', hn ▸ hsk⟩
    · obtain ⟨ts', hts', hsk, hph'⟩ := fastForward_skips opens₂
        (UInt32.ofNat trace.length) hts hph
      have hfirst : (m₂.call kn (.fastForwardInitial tid (UInt32.ofNat trace.length),
          opens₂)).1.getState tid = some ts' := hts'
      rw [hfirst] at hg₃
      have hother : (m₃.call kn (.fastForwardInter tid (UInt32.ofNat trace.length),
          opens₃)).1 = m₃ := fastForward_other hg₃ (by rcases hph' with h | h <;> simp [h])
      rw [hother]
      exact ⟨ts', hg₃, hn ▸ hsk⟩
  -- the markers
  obtain ⟨ts', hts', hsk⟩ := hcounted
  have hs₃ : kn.useMarkers = true → (m₃.call kn (.fastForwardInter tid
      (UInt32.ofNat trace.length), opens₃)).1.roiStarted = true := by
    intro h
    have hg₄ : RoiGrows m₂ (m₂.call kn (.fastForwardInitial tid (UInt32.ofNat trace.length),
      opens₂)).1 := (call_cases _).roiGrows
    have hg₅ : RoiGrows m₃ (m₃.call kn (.fastForwardInter tid (UInt32.ofNat trace.length),
      opens₃)).1 := (call_cases _).roiGrows
    exact hg₅.started ((RoiGrows.path hp₅).started (hg₄.started
      ((RoiGrows.path hp₃).started (hs₁ h))))
  obtain ⟨ts'', hts'', hph, hc⟩ := keeps_of_callbacks hp₆ ho₆ (fun c hc => by
    split at hc
    · exact .inl (mem_markers hc)
    · cases hc) hts' hs₃ he
  refine ⟨ts'', hts'', ?_⟩
  rw [Skipped] at hsk ⊢
  rw [hph, hc]
  exact hsk

/-- In the ROI, without an active thread, a trace fast-forwards. -/
theorem instrumentation_idle (h : s.inRoi kn) (ha : s.activeTracingThreads = 0) :
    s.instrumentation kn = .fastForward := by
  rw [instrumentation_inRoi h, if_neg (by simp [ha])]

/-- The skip of a thread does not depend on the run: after the same traces it is in the same phase
with the same counter, or traces in both. -/
theorem SkipRun.agree {s₁ s₁' s₂ s₂' : Tracer} {traces : List Trace} {ts₁ ts₂ : ThreadState}
    (h₁ : SkipRun kn n tid s₁ traces s₁') (h₂ : SkipRun kn n tid s₂ traces s₂')
    (hts₁ : s₁.getState tid = some ts₁) (hts₂ : s₂.getState tid = some ts₂)
    (hphase : ts₁.phase = ts₂.phase)
    (hcounter : ts₁.phase ≠ .tracing → ts₁.counter = ts₂.counter) :
    ∃ ts₁' ts₂', s₁'.getState tid = some ts₁' ∧ s₂'.getState tid = some ts₂' ∧
      ts₁'.phase = ts₂'.phase ∧ (ts₁'.phase ≠ .tracing → ts₁'.counter = ts₂'.counter) := by
  induction h₁ generalizing s₂ ts₁ ts₂ with
  | nil =>
    cases h₂
    exact ⟨ts₁, ts₂, hts₁, hts₂, hphase, hcounter⟩
  | cons hroi₁ ha₁ ht₁ hk₁ hs₁ hlen hp₁ ho₁ he₁ _ ih =>
    cases h₂ with
    | cons hroi₂ ha₂ ht₂ hk₂ hs₂ _ hp₂ ho₂ he₂ hrest =>
      obtain rfl := Option.some.inj (ht₁.symm.trans hts₁)
      obtain rfl := Option.some.inj (ht₂.symm.trans hts₂)
      rw [instrumentation_idle hroi₁ ha₁] at ho₁
      rw [instrumentation_idle hroi₂ ha₂] at ho₂
      obtain ⟨ts₁', hts₁', hsk₁⟩ := fastForward_counts hp₁ ho₁ ht₁ hk₁ hlen hs₁ he₁
      obtain ⟨ts₂', hts₂', hsk₂⟩ := fastForward_counts hp₂ ho₂ ht₂ hk₂ hlen hs₂ he₂
      have hc := hcounter (by rcases hk₁ with h | h <;> simp [h])
      rw [Skipped] at hsk₁ hsk₂
      rw [hc] at hsk₁
      split at hsk₁
      · rename_i hlt
        rw [if_pos hlt] at hsk₂
        refine ih hrest hts₁' hts₂' ?_ fun _ => ?_
        · rw [hsk₁.1, hsk₂.1, hphase]
        · exact UInt64.toNat_inj.1 (hsk₁.2.trans hsk₂.2.symm)
      · rename_i hlt
        rw [if_neg hlt] at hsk₂
        exact ih hrest hts₁' hts₂' (hsk₁.trans hsk₂.symm) fun hne => absurd hsk₁ hne

end

end Tracer

/-- A trace that a thread executes while it skips counts its instructions exactly when no thread was
active when it was instrumented. While only such traces are executed the skip does not depend on the
other threads: in two runs in which the thread executes the same traces, it is in the same phase with
the same counter, and it resumes tracing after the same trace. -/
theorem skip_length (kn : Knobs) (maxThreads : ℕ) :
    (∀ (s₀ s s' : Tracer) (addr : UInt64) (opens : Bool) (tr₁ tr₂ : Lts.Trace Call Output)
      (tid : ℕ) (ts : ThreadState) (trace : Trace),
      (tracerLts kn maxThreads).Reachable (PinOk kn) s₀ →
      PinOk kn s₀ (.instrumentTrace addr, opens) → s₀.inRoi kn →
      (tracerLts kn maxThreads).Path (PinOk kn) (s₀.instrumentTrace kn addr) tr₁ s →
      (addr, s₀.instrumentation kn) ∈ s.codeCache → s.getState tid = some ts →
      Tracer.Skips ts → trace ≠ [] → trace.length < 2 ^ 32 →
      (tracerLts kn maxThreads).Path (PinOk kn) s tr₂ s' →
      callbacksOf tid tr₂ = (s₀.instrumentation kn).callbacks kn tid trace →
      s'.roiEnded = false →
      ((∃ ts', s'.getState tid = some ts' ∧ Tracer.Skipped trace.length ts ts') ↔
        s₀.activeTracingThreads = 0)) ∧
    ∀ (s₁ s₁' s₂ s₂' : Tracer) (tid : ℕ) (ts₁ ts₂ : ThreadState) (traces : List Trace),
      Tracer.SkipRun kn maxThreads tid s₁ traces s₁' →
      Tracer.SkipRun kn maxThreads tid s₂ traces s₂' →
      s₁.getState tid = some ts₁ → s₂.getState tid = some ts₂ →
      Tracer.Skips ts₁ → ts₁.phase = ts₂.phase → ts₁.counter = ts₂.counter →
      ∃ ts₁' ts₂', s₁'.getState tid = some ts₁' ∧ s₂'.getState tid = some ts₂' ∧
        ts₁'.phase = ts₂'.phase ∧ (ts₁'.phase ≠ .tracing → ts₁'.counter = ts₂'.counter) := by
  constructor
  · intro s₀ s s' addr opens tr₁ tr₂ tid ts trace hr₀ hok hroi hp₁ _ hts hk hne hlen hp₂ ho he
    have hs : kn.useMarkers = true → s.roiStarted = true :=
      fun h => (Tracer.RoiGrows.path hp₁).started (hroi.2 h)
    constructor
    · rintro ⟨ts', hts', hsk⟩
      by_contra ha
      have hpos : 0 < s₀.activeTracingThreads := by
        have hcount := (Tracer.Accounted.reachable hr₀).active
        omega
      rw [Tracer.instrumentation_inRoi hroi, if_pos hpos] at ho
      obtain ⟨ts₁, hts₁, hph, hc⟩ := Tracer.fullAnalysis_keeps hp₂ ho hts hk hs he
      obtain rfl := Option.some.inj (hts'.symm.trans hts₁)
      have hlen₀ : 0 < trace.length := List.length_pos_of_ne_nil hne
      rw [Tracer.Skipped, hc] at hsk
      split at hsk
      · omega
      · rw [hph] at hsk
        rcases hk with h | h <;> rw [h] at hsk <;> cases hsk
    · intro ha
      rw [Tracer.instrumentation_idle hroi ha] at ho
      exact Tracer.fastForward_counts hp₂ ho hts hk hlen hs he
  · intro s₁ s₁' s₂ s₂' tid ts₁ ts₂ traces h₁ h₂ hts₁ hts₂ _ hphase hcounter
    exact h₁.agree h₂ hts₁ hts₂ hphase fun _ => hcounter

/-- The knobs of a run without markers: a thread skips ten instructions and traces the next ten. -/
def skipKnobs : Knobs where
  useMarkers := false
  initialSkip := 10
  interSampleSkip := 10
  traceInstructions := 10
  numSamples := 0
  mainThreadOnly := false
  exitOnDone := false
  skipMasterTracing := false
  traceOnlyRegisteredWorkers := false

/-- Two threads start; where `other` says so, thread 1 executes a trace that ends its skip; then a
trace is instrumented. -/
def secondThreadTraces (other : Bool) : List Call :=
  let skip : List Callback :=
    [.checkRoiTransition 1, .fastForwardInitial 1 10, .fastForwardInter 1 10]
  let calls : List Callback :=
    [Callback.threadStart 0, .threadStart 1] ++ (if other then skip else []) ++
      [Callback.instrumentTrace 16]
  calls.map (·, true)

/-- Thread 0 executes a trace of two instructions in its skip of ten: the counter stays at ten when
thread 1 is active and is eight when it is not. -/
theorem skip_not_counted :
    (∃ (s s' : Tracer) (tr : Lts.Trace Call Output),
      (tracerLts skipKnobs 2).Reachable (PinOk skipKnobs) s ∧ (16, .fullAnalysis) ∈ s.codeCache ∧
      (s.getState 0).map (fun ts => (ts.phase, ts.counter)) = some (.initialSkip, 10) ∧
      (tracerLts skipKnobs 2).Path (PinOk skipKnobs) s tr s' ∧
      callbacksOf 0 tr = Instrumentation.fullAnalysis.callbacks skipKnobs 0 [none, none] ∧
      (s'.getState 0).map (fun ts => (ts.phase, ts.counter)) = some (.initialSkip, 10)) ∧
    ∃ (s s' : Tracer) (tr : Lts.Trace Call Output),
      (tracerLts skipKnobs 2).Reachable (PinOk skipKnobs) s ∧ (16, .fastForward) ∈ s.codeCache ∧
      (s.getState 0).map (fun ts => (ts.phase, ts.counter)) = some (.initialSkip, 10) ∧
      (tracerLts skipKnobs 2).Path (PinOk skipKnobs) s tr s' ∧
      callbacksOf 0 tr = Instrumentation.fastForward.callbacks skipKnobs 0 [none, none] ∧
      (s'.getState 0).map (fun ts => (ts.phase, ts.counter)) = some (.initialSkip, 8) := by
  constructor
  · obtain ⟨s, hr, hp⟩ := Lts.reachable_of_exec (tracerLts skipKnobs 2) (PinOk skipKnobs)
      (fun s => (16, .fullAnalysis) ∈ s.codeCache ∧
        (s.getState 0).map (fun ts => (ts.phase, ts.counter)) = some (.initialSkip, 10) ∧
        ((tracerLts skipKnobs 2).exec (PinOk skipKnobs) s
          ((Instrumentation.fullAnalysis.callbacks skipKnobs 0 [none, none]).map (·, true))).any
            (fun x => callbacksOf 0 x.2 =
                Instrumentation.fullAnalysis.callbacks skipKnobs 0 [none, none] ∧
              (x.1.getState 0).map (fun ts => (ts.phase, ts.counter)) =
                some (.initialSkip, 10)) = true)
      (secondThreadTraces true) rfl (by decide +kernel)
    obtain ⟨hc, hts, hx⟩ := of_decide_eq_true hp
    obtain ⟨⟨s', tr⟩, hx, hq⟩ := (Option.any_eq_true _ _).1 hx
    exact ⟨s, s', tr, hr, hc, hts, Lts.path_of_exec hx, of_decide_eq_true hq⟩
  · obtain ⟨s, hr, hp⟩ := Lts.reachable_of_exec (tracerLts skipKnobs 2) (PinOk skipKnobs)
      (fun s => (16, .fastForward) ∈ s.codeCache ∧
        (s.getState 0).map (fun ts => (ts.phase, ts.counter)) = some (.initialSkip, 10) ∧
        ((tracerLts skipKnobs 2).exec (PinOk skipKnobs) s
          ((Instrumentation.fastForward.callbacks skipKnobs 0 [none, none]).map (·, true))).any
            (fun x => callbacksOf 0 x.2 =
                Instrumentation.fastForward.callbacks skipKnobs 0 [none, none] ∧
              (x.1.getState 0).map (fun ts => (ts.phase, ts.counter)) =
                some (.initialSkip, 8)) = true)
      (secondThreadTraces false) rfl (by decide +kernel)
    obtain ⟨hc, hts, hx⟩ := of_decide_eq_true hp
    obtain ⟨⟨s', tr⟩, hx, hq⟩ := (Option.any_eq_true _ _).1 hx
    exact ⟨s, s', tr, hr, hc, hts, Lts.path_of_exec hx, of_decide_eq_true hq⟩

/-- Thread 0 executes a trace of two instructions that was instrumented when no thread was active. -/
theorem skip_length_two :
    ∃ (s s' : Tracer) (ts ts' : ThreadState), s.getState 0 = some ts ∧ ts.counter = 10 ∧
      s'.getState 0 = some ts' ∧ Tracer.Skipped 2 ts ts' := by
  obtain ⟨s₀, hr₀, hp₀⟩ := Lts.reachable_of_exec (tracerLts skipKnobs 2) (PinOk skipKnobs)
    (fun s₀ => PinOk skipKnobs s₀ (.instrumentTrace 16, true) ∧ s₀.inRoi skipKnobs ∧
      s₀.activeTracingThreads = 0 ∧ s₀.instrumentation skipKnobs = .fastForward ∧
      (s₀.getState 0).any (fun ts => ts.phase == .initialSkip && ts.counter == 10) = true ∧
      ((tracerLts skipKnobs 2).exec (PinOk skipKnobs) (s₀.instrumentTrace skipKnobs 16)
          ((Instrumentation.fastForward.callbacks skipKnobs 0 [none, none]).map (·, true))).any
            (fun x => callbacksOf 0 x.2 =
                Instrumentation.fastForward.callbacks skipKnobs 0 [none, none] ∧
              x.1.roiEnded = false) = true)
    ([Callback.threadStart 0, .threadStart 1].map (·, true)) rfl (by decide +kernel)
  obtain ⟨hpin, hroi, ha, hv, hts, hx⟩ := of_decide_eq_true hp₀
  obtain ⟨⟨s', tr⟩, hx, hq⟩ := (Option.any_eq_true _ _).1 hx
  obtain ⟨ho, he⟩ := of_decide_eq_true hq
  obtain ⟨ts, hts, hph⟩ := (Option.any_eq_true _ _).1 hts
  rw [Bool.and_eq_true, beq_iff_eq, beq_iff_eq] at hph
  obtain ⟨hiff, _⟩ := skip_length skipKnobs 2
  obtain ⟨ts', hts', hsk⟩ := (hiff s₀ _ s' 16 true [] tr 0 ts [none, none] hr₀ hpin hroi .nil
    List.mem_cons_self hts (.inr hph.1) nofun (by decide) (Lts.path_of_exec hx) (hv ▸ ho) he).2 ha
  exact ⟨_, s', ts, ts', hts, hph.2, hts', hsk⟩

end Arishem
