import Arishem.Tracer.Threads

/-!
# The execution of a trace

A thread that executes a cached trace makes the callbacks that `InstrumentTrace` inserted when the
trace was instrumented: none, its markers, or the check of the ROI with a commit for each instruction
or with the fast-forward of the whole trace. Between two of them the other threads make theirs. The
callbacks of one thread are what is left of a path when those of the others are dropped; the state of
the thread changes with them alone.
-/

namespace Arishem

/-- The thread that makes a callback. -/
def Callback.thread : Callback → Option ℕ
  | .handleMarker tid _ | .checkRoiTransition tid | .fastForwardInitial tid _
  | .fastForwardInter tid _ | .recordInstrCommit tid | .threadStart tid | .threadFini tid => some tid
  | .instrumentTrace _ => none

/-- The callbacks a thread made. -/
def callbacksOf (tid : ℕ) (tr : Lts.Trace Call Output) : List Callback :=
  (tr.map (·.1.1)).filter fun c => c.thread = some tid

/-- The instructions of a trace, each with the value of RCX if it is a ROI marker. -/
abbrev Trace := List (Option UInt64)

/-- The markers of a trace. -/
def Trace.markers (tid : ℕ) (trace : Trace) : List Callback :=
  trace.filterMap (·.map (.handleMarker tid))

/-- The callbacks of full analysis for one instruction. -/
def fullAnalysisCallbacks (kn : Knobs) (tid : ℕ) (ins : Option UInt64) : List Callback :=
  (if kn.useMarkers then Trace.markers tid [ins] else []) ++ [Callback.recordInstrCommit tid]

/-- The callbacks `InstrumentTrace` inserted in a trace, as a thread makes them. -/
def Instrumentation.callbacks (kn : Knobs) (tid : ℕ) (trace : Trace) : Instrumentation →
    List Callback
  | .untouched => []
  | .markerOnly => trace.markers tid
  | .fullAnalysis => .checkRoiTransition tid :: trace.flatMap (fullAnalysisCallbacks kn tid)
  | .fastForward =>
    [.checkRoiTransition tid, .fastForwardInitial tid (UInt32.ofNat trace.length),
      .fastForwardInter tid (UInt32.ofNat trace.length)] ++
      if kn.useMarkers then trace.markers tid else []

namespace Tracer

/-- A trace that is instrumented now calls `CheckROITransition`. -/
def inRoi (kn : Knobs) (s : Tracer) : Prop :=
  s.roiEnded = false ∧ (kn.useMarkers = true → s.roiStarted = true)

instance (kn : Knobs) (s : Tracer) : Decidable (s.inRoi kn) := by
  unfold inRoi
  infer_instance

section
variable {kn : Knobs} {s s' m : Tracer} {n tid : ℕ} {t : Option ThreadState} {l : Call}
variable {os : List Output} {tr : Lts.Trace Call Output} {c : Callback} {cs cs' : List Callback}

/-! ## The other threads -/

/-- The flags of the ROI are never taken back. -/
structure RoiGrows (s s' : Tracer) : Prop where
  started : s.roiStarted = true → s'.roiStarted = true
  ended : s.roiEnded = true → s'.roiEnded = true

@[simp] theorem leave_roiEnded {ts : ThreadState} : (s.leave ts).roiEnded = s.roiEnded := by
  rw [leave]
  split <;> rfl

/-- A callback takes no flag of the ROI back. -/
theorem Outcome.roiGrows (h : Outcome kn s l s' os) : RoiGrows s s' := by
  cases h with
  | beginAlone _ _ | beginSkipped _ _ _ _ | beginTracing _ _ _ _ | beginOther _ _ _ _ =>
    exact ⟨fun _ => rfl, id⟩
  | endAlone _ _ => exact ⟨id, fun _ => rfl⟩
  | @endThread tid opens exit ts os _ _ _ =>
    have hs : ({ s with roiEnded := true }.leave ts).roiStarted = s.roiStarted := leave_roiStarted
    have he : ({ s with roiEnded := true }.leave ts).roiEnded = true := leave_roiEnded
    exact ⟨fun h => hs.trans h, fun _ => he⟩
  | @stop tid opens exit ts os _ _ _ _ =>
    have hs : (s.leave ts).roiStarted = s.roiStarted := leave_roiStarted
    have he : (s.leave ts).roiEnded = s.roiEnded := leave_roiEnded
    exact ⟨fun h => hs.trans h, fun h => he.trans h⟩
  | @exit tid opens ts _ =>
    have hs : (s.leave ts).roiStarted = s.roiStarted := leave_roiStarted
    have he : (s.leave ts).roiEnded = s.roiEnded := leave_roiEnded
    exact ⟨fun h => hs.trans h, fun h => he.trans h⟩
  | _ => exact ⟨id, id⟩

/-- A path takes no flag of the ROI back. -/
theorem RoiGrows.path (h : (tracerLts kn n).Path (PinOk kn) s tr s') : RoiGrows s s' := by
  induction h with
  | nil => exact ⟨id, id⟩
  | step _ _ hs ih =>
    have hg := (outcome_of_step hs).roiGrows
    exact ⟨fun h => hg.started (ih.started h), fun h => hg.ended (ih.ended h)⟩

/-- Writing a slot leaves the other threads alone. -/
theorem getState_setState_ne {tid' : ℕ} (h : tid' ≠ tid)
    (hthreads : s'.threadStates = s.threadStates) :
    (s'.setState tid t).getState tid' = s.getState tid' := by
  rw [getState, getState, setState, List.getElem?_set_ne (Ne.symm h), hthreads]

/-- A callback of another thread leaves a thread alone. -/
theorem Outcome.other (h : Outcome kn s l s' os) (hl : l.1.thread ≠ some tid) :
    s'.getState tid = s.getState tid := by
  have hne : ∀ tid', l.1.thread = some tid' → tid ≠ tid' := by
    rintro tid' h' rfl
    exact hl h'
  cases h with
  | idle | beginAlone _ _ | endAlone _ _ | instrument | startExcluded => rfl
  | endThread _ _ _ =>
    exact getState_setState_ne (hne _ rfl) (leave_threadStates (s := { s with roiEnded := true }))
  | stop _ _ _ _ | exit _ => exact getState_setState_ne (hne _ rfl) leave_threadStates
  | skip hl' _ _ _ =>
    refine getState_setState_ne (hne _ ?_) rfl
    rcases hl' with ⟨_, rfl⟩ | ⟨_, rfl⟩ <;> rfl
  | resume hl' _ _ _ =>
    refine getState_setState_ne (hne _ ?_) rfl
    rcases hl' with ⟨_, rfl⟩ | ⟨_, rfl⟩ <;> rfl
  | _ => exact getState_setState_ne (hne _ rfl) rfl

/-! ## The callbacks of one thread -/

/-- A path on which a thread makes no callback leaves the thread alone. -/
theorem getState_of_no_callbacks (h : (tracerLts kn n).Path (PinOk kn) s tr s')
    (ho : callbacksOf tid tr = []) : s'.getState tid = s.getState tid := by
  induction h with
  | nil => rfl
  | @step m s' tr l os _ _ hs ih =>
    rw [callbacksOf, List.map_append, List.filter_append, List.append_eq_nil_iff] at ho
    have hl : l.1.thread ≠ some tid := by simpa using ho.2
    rw [(outcome_of_step hs).other hl, ih ho.1]

/-- A path is cut where the callbacks of a thread are. -/
theorem cut_path (h : (tracerLts kn n).Path (PinOk kn) s tr s')
    (ho : callbacksOf tid tr = cs ++ cs') :
    ∃ m tr₁ tr₂, (tracerLts kn n).Path (PinOk kn) s tr₁ m ∧ callbacksOf tid tr₁ = cs ∧
      (tracerLts kn n).Path (PinOk kn) m tr₂ s' ∧ callbacksOf tid tr₂ = cs' := by
  obtain ⟨ls₁, ls₂, hmap, h₁, h₂⟩ := List.filter_eq_append_iff.1 ho
  obtain ⟨tr₁, tr₂, rfl, rfl, rfl⟩ := List.map_eq_append_iff.1 hmap
  obtain ⟨m, hp₁, hp₂⟩ := h.split
  exact ⟨m, tr₁, tr₂, hp₁, h₁, hp₂, h₂⟩

/-- The next callback of a thread on a path: it finds the thread as it was. -/
theorem next_callback (h : (tracerLts kn n).Path (PinOk kn) s tr s')
    (ho : callbacksOf tid tr = c :: cs) :
    ∃ m tr₁ opens tr₂, (tracerLts kn n).Path (PinOk kn) s tr₁ m ∧
      m.getState tid = s.getState tid ∧ PinOk kn m (c, opens) ∧
      (tracerLts kn n).Path (PinOk kn) (m.call kn (c, opens)).1 tr₂ s' ∧
      callbacksOf tid tr₂ = cs := by
  obtain ⟨ls₁, ls₂, hmap, hno, _, hrest⟩ := List.filter_eq_cons_iff.1 ho
  obtain ⟨tr₁, tr₂, rfl, rfl, h₂⟩ := List.map_eq_append_iff.1 hmap
  obtain ⟨⟨⟨c₁, opens⟩, os⟩, tr₃, rfl, rfl, rfl⟩ := List.map_eq_cons_iff.1 h₂
  obtain ⟨m, hp₁, hp₂⟩ := h.split
  obtain ⟨m', hok, hs, hp₃⟩ := hp₂.uncons
  have hq : callbacksOf tid tr₁ = [] := List.filter_eq_nil_iff.2 hno
  have hm : (m.call kn (c₁, opens)).1 = m' := congrArg Prod.fst (Option.some.inj hs)
  exact ⟨m, tr₁, opens, tr₃, hp₁, getState_of_no_callbacks hp₁ hq, hok, hm ▸ hp₃, hrest⟩

/-! ## The branches of `InstrumentTrace` -/

/-- In the ROI full analysis is chosen when a thread is active. -/
theorem instrumentation_inRoi (h : s.inRoi kn) :
    s.instrumentation kn = if 0 < s.activeTracingThreads then .fullAnalysis else .fastForward := by
  obtain ⟨he, hm⟩ := h
  have hm' : ¬ (kn.useMarkers = true ∧ s.roiStarted = false) := by
    rintro ⟨hk, hs⟩
    rw [hm hk] at hs
    cases hs
  simp [instrumentation, he, hm']

/-- Outside the ROI no check is inserted. -/
theorem instrumentation_not_inRoi (h : ¬ s.inRoi kn) :
    s.instrumentation kn = .untouched ∨ s.instrumentation kn = .markerOnly := by
  rw [instrumentation]
  by_cases he : s.roiEnded = true
  · exact .inl (if_pos he)
  · refine .inr ?_
    have he' : s.roiEnded = false := by simpa using he
    have hm : kn.useMarkers = true ∧ s.roiStarted = false := by
      by_contra hc
      exact h ⟨he', fun hk => by simpa [hk] using hc⟩
    simp [he', hm]

/-- In the ROI the first callback of a trace is the check. -/
theorem callbacks_inRoi (h : s.inRoi kn) (tid : ℕ) (trace : Trace) :
    ∃ cs, (s.instrumentation kn).callbacks kn tid trace = .checkRoiTransition tid :: cs := by
  rw [instrumentation_inRoi h]
  split
  · exact ⟨_, rfl⟩
  · exact ⟨_, rfl⟩

/-- No trace starts or ends a thread. -/
theorem mem_callbacks {v : Instrumentation} {trace : Trace}
    (h : c ∈ v.callbacks kn tid trace) : c ≠ .threadStart tid ∧ c ≠ .threadFini tid := by
  have hmarker : ∀ trace : Trace, c ∈ trace.markers tid →
      c ≠ .threadStart tid ∧ c ≠ .threadFini tid := by
    intro trace h
    obtain ⟨i, _, hi⟩ := List.mem_filterMap.1 h
    obtain ⟨rcx, _, rfl⟩ := Option.map_eq_some_iff.1 hi
    exact ⟨nofun, nofun⟩
  cases v with
  | untouched => cases h
  | markerOnly => exact hmarker trace h
  | fullAnalysis =>
    rcases List.mem_cons.1 h with rfl | h
    · exact ⟨nofun, nofun⟩
    obtain ⟨i, _, hi⟩ := List.mem_flatMap.1 h
    rcases List.mem_append.1 hi with hi | hi
    · split at hi
      · exact hmarker [i] hi
      · cases hi
    · rw [List.mem_singleton.1 hi]
      exact ⟨nofun, nofun⟩
  | fastForward =>
    rcases List.mem_append.1 h with h | h
    · simp only [List.mem_cons, List.not_mem_nil, or_false] at h
      rcases h with rfl | rfl | rfl <;> exact ⟨nofun, nofun⟩
    · split at h
      · exact hmarker trace h
      · cases h

end

end Tracer

end Arishem
