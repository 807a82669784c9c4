import Arishem.Tracer.CodeCache
import Arishem.Tracer.ExitOnDone
import Arishem.Tracer.Traces

/-!
# The end of the ROI and the threads that trace

`CheckROITransition` takes a thread in TRACING to DONE when the ROI has ended, but only a trace that
was instrumented in the ROI calls it. `InstrumentTrace` inserts nothing once the ROI has ended, and a
traced thread that ends the ROI discards the cached traces: after it a thread in TRACING makes no
callback any more. The cached traces survive only the end of the ROI on a thread that is not traced.
A thread that executes one of them is stopped, and when all threads that started have been, the tool
exits.
-/

namespace Arishem

namespace Tracer

/-- The thread is counted as started. -/
def hasStarted (ts : ThreadState) : Bool := ts.everStartedTracing

/-- The thread is counted as done. -/
def hasReachedDone (ts : ThreadState) : Bool := ts.everReachedDone

/-- The counters are at least the live threads, and when all threads that started are alive and done,
the tool exits. -/
structure Settled (kn : Knobs) (s : Tracer) : Prop where
  started : s.count hasStarted ≤ s.threadsStartedTracing
  reached : s.count hasReachedDone ≤ s.threadsReachedDone
  exits : kn.exitOnDone = true → s.threadsStartedTracing ≠ 0 →
    s.threadsStartedTracing = s.count hasStarted → s.count unfinished = 0 → s.exitTriggered = true

section
variable {kn : Knobs} {s s' : Tracer} {n tid : ℕ} {opens : Bool} {ts ts' : ThreadState}
variable {f g k : ThreadState → Bool} {t : Option ThreadState} {l : Call} {os : List Output}
variable {tr : Lts.Trace Call Output}

/-! ## The counters -/

/-- The threads are counted anew after one slot was written. -/
theorem count_write (f : ThreadState → Bool) (t : Option ThreadState)
    (hi : tid < s.threadStates.length) (hthreads : s'.threadStates = s.threadStates) :
    (s'.setState tid t).count f + (s.getState tid).elim 0 (fun ts => if f ts then 1 else 0) =
      s.count f + t.elim 0 (fun ts => if f ts then 1 else 0) := by
  have hc := count_setState f t (hthreads ▸ hi : tid < s'.threadStates.length)
  have hs : s'.count f = s.count f := by rw [count, hthreads, count]
  have hg : s'.getState tid = s.getState tid := by rw [getState, hthreads, getState]
  rw [hg, hs] at hc
  exact hc

/-- Threads with one property have one of two others. -/
theorem count_le_add (h : ∀ ts, f ts = true → g ts = true ∨ k ts = true) (s : Tracer) :
    s.count f ≤ s.count g + s.count k := by
  rw [count, count, count, ← List.sum_map_add]
  refine List.sum_le_sum fun t _ => ?_
  cases t with
  | none => exact Nat.zero_le _
  | some ts =>
    have hts := h ts
    simp only [Option.elim_some]
    split_ifs <;> simp_all

/-- No thread with a property is counted when no live thread has it. -/
theorem count_eq_zero (h : ∀ tid ts, s.getState tid = some ts → f ts = false) : s.count f = 0 := by
  refine List.sum_eq_zero fun x hx => ?_
  obtain ⟨t, ht, rfl⟩ := List.mem_map.1 hx
  cases t with
  | none => rfl
  | some ts =>
    obtain ⟨i, hi, hg⟩ := List.getElem_of_mem ht
    have hts : s.getState i = some ts := by
      rw [getState, List.getElem?_eq_getElem hi, hg]
      rfl
    simp [h i ts hts]

/-- The threads that started are done or unfinished. -/
theorem count_started_le (s : Tracer) :
    s.count hasStarted ≤ s.count hasReachedDone + s.count unfinished := by
  refine count_le_add (fun ts hs => ?_) s
  have hs' : ts.everStartedTracing = true := hs
  cases hd : ts.everReachedDone with
  | true => exact .inl hd
  | false => exact .inr (by simp [unfinished, hs', hd])

/-- A step that leaves the threads and the counters alone. -/
theorem Settled.frame (h : Settled kn s) (hthreads : s'.threadStates = s.threadStates)
    (hstarted : s'.threadsStartedTracing = s.threadsStartedTracing)
    (hdone : s'.threadsReachedDone = s.threadsReachedDone)
    (hexit : s'.exitTriggered = s.exitTriggered) : Settled kn s' := by
  have hc : ∀ f, s'.count f = s.count f := fun f => by rw [count, hthreads, count]
  constructor
  · rw [hc, hstarted]
    exact h.started
  · rw [hc, hdone]
    exact h.reached
  · rw [hc, hc, hstarted, hexit]
    exact h.exits

/-- The flags of a thread and the counters stay. -/
theorem Settled.touch (h : Settled kn s) (hts : s.getState tid = some ts)
    (hthreads : s'.threadStates = s.threadStates)
    (hstarted : s'.threadsStartedTracing = s.threadsStartedTracing)
    (hdone : s'.threadsReachedDone = s.threadsReachedDone)
    (hexit : s.exitTriggered = true → s'.exitTriggered = true)
    (hs : ts'.everStartedTracing = ts.everStartedTracing)
    (hd : ts'.everReachedDone = ts.everReachedDone) :
    Settled kn (s'.setState tid (some ts')) := by
  obtain ⟨hi, _⟩ := getState_some hts
  have hc : ∀ f, f ts' = f ts → (s'.setState tid (some ts')).count f = s.count f := by
    intro f hf
    have hw := count_write f (some ts') hi hthreads
    rw [hts] at hw
    simp only [Option.elim_some, hf] at hw
    omega
  have h₁ := hc hasStarted hs
  have h₂ := hc hasReachedDone hd
  have h₃ := hc unfinished (by rw [unfinished, unfinished, hs, hd])
  constructor
  · rw [h₁]
    exact h.started.trans_eq hstarted.symm
  · rw [h₂]
    exact h.reached.trans_eq hdone.symm
  · rw [h₁, h₃]
    intro hk hne he hz
    have hstarted' : (s'.setState tid (some ts')).threadsStartedTracing =
      s.threadsStartedTracing := hstarted
    rw [hstarted'] at hne he
    exact hexit (h.exits hk hne he hz)

/-- A thread enters TRACING: there is an unfinished thread. -/
theorem Settled.enter (h : Settled kn s) (hi : tid < s.threadStates.length)
    (hthreads : s'.threadStates = s.threadStates)
    (hstarted : s'.threadsStartedTracing + (s.getState tid).elim 0
      (fun ts => if hasStarted ts then 1 else 0) = s.threadsStartedTracing + 1)
    (hdone : s'.threadsReachedDone = s.threadsReachedDone)
    (hs : ts'.everStartedTracing = true) (hd : ts'.everReachedDone = false) :
    Settled kn (s'.setState tid (some ts')) := by
  have h₁ := count_write hasStarted (some ts') hi hthreads
  have h₂ := count_write hasReachedDone (some ts') hi hthreads
  have hs' : hasStarted ts' = true := hs
  have hd' : hasReachedDone ts' = false := hd
  simp only [Option.elim_some, hs', hd', if_true, Bool.false_eq_true, if_false, add_zero] at h₁ h₂
  have hu : 0 < (s'.setState tid (some ts')).count unfinished := by
    have hthere : (s'.setState tid (some ts')).getState tid = some ts' := by
      rw [getState_setState (hthreads ▸ hi), if_pos rfl]
    exact count_pos hthere (by simp [unfinished, hs, hd])
  have ha := h.started
  have hb := h.reached
  refine ⟨?_, ?_, fun _ _ _ hz => absurd hz hu.ne'⟩
  · show (s'.setState tid (some ts')).count hasStarted ≤ s'.threadsStartedTracing
    omega
  · show (s'.setState tid (some ts')).count hasReachedDone ≤ s'.threadsReachedDone
    omega

/-- A thread starts that does not trace. -/
theorem Settled.born (h : Settled kn s) (hi : tid < s.threadStates.length)
    (hg : s.getState tid = none) (hthreads : s'.threadStates = s.threadStates)
    (hstarted : s'.threadsStartedTracing = s.threadsStartedTracing)
    (hdone : s'.threadsReachedDone = s.threadsReachedDone)
    (hexit : s'.exitTriggered = s.exitTriggered) (hs : ts'.everStartedTracing = false)
    (hd : ts'.everReachedDone = false) : Settled kn (s'.setState tid (some ts')) := by
  have hc : ∀ f : ThreadState → Bool, f ts' = false →
      (s'.setState tid (some ts')).count f = s.count f := by
    intro f hf
    have hw := count_write f (some ts') hi hthreads
    rw [hg] at hw
    simpa [hf] using hw
  have hu : unfinished ts' = false := by simp [unfinished, hs]
  refine ⟨?_, ?_, fun hk hne he hz => ?_⟩
  · rw [hc hasStarted hs]
    exact h.started.trans_eq hstarted.symm
  · rw [hc hasReachedDone hd]
    exact h.reached.trans_eq hdone.symm
  · rw [hc hasStarted hs] at he
    rw [hc unfinished hu] at hz
    have hstarted' : (s'.setState tid (some ts')).threadsStartedTracing =
      s.threadsStartedTracing := hstarted
    rw [hstarted'] at hne he
    exact hexit.trans (h.exits hk hne he hz)

/-- A thread is counted as done: if it was the last one, the tool exits. -/
theorem Settled.done (h : Settled kn s) (hts : s.getState tid = some ts)
    (hthreads : s'.threadStates = s.threadStates)
    (hstarted : s'.threadsStartedTracing = s.threadsStartedTracing)
    (hdone : s'.threadsReachedDone = s.threadsReachedDone + fresh ts.everReachedDone)
    (hkept : s.exitTriggered = true → s'.exitTriggered = true)
    (hdue : ts.everReachedDone = false → kn.exitOnDone = true → s.threadsStartedTracing ≠ 0 →
      s.threadsStartedTracing ≤ s.threadsReachedDone + 1 → s'.exitTriggered = true)
    (hs : ts'.everStartedTracing = ts.everStartedTracing) (hd : ts'.everReachedDone = true) :
    Settled kn (s'.setState tid (some ts')) := by
  cases hold : ts.everReachedDone with
  | true =>
    rw [hold] at hdone
    exact h.touch hts hthreads hstarted hdone hkept hs (hd.trans hold.symm)
  | false =>
    obtain ⟨hi, _⟩ := getState_some hts
    have h₁ := count_write hasStarted (some ts') hi hthreads
    have h₂ := count_write hasReachedDone (some ts') hi hthreads
    rw [hts] at h₁ h₂
    have hs' : hasStarted ts' = hasStarted ts := hs
    have hd' : hasReachedDone ts' = true := hd
    have hold' : hasReachedDone ts = false := hold
    simp only [Option.elim_some, hs', hd', hold', if_true, Bool.false_eq_true, if_false,
      add_zero] at h₁ h₂
    rw [hold] at hdone
    have hfresh : fresh false = 1 := rfl
    rw [hfresh] at hdone
    have ha := h.started
    have hb := h.reached
    refine ⟨?_, ?_, fun hk hne he hz => ?_⟩
    · show (s'.setState tid (some ts')).count hasStarted ≤ s'.threadsStartedTracing
      omega
    · show (s'.setState tid (some ts')).count hasReachedDone ≤ s'.threadsReachedDone
      omega
    · -- every thread that started is done now
      have hne' : s'.threadsStartedTracing ≠ 0 := hne
      have he' : s'.threadsStartedTracing = (s'.setState tid (some ts')).count hasStarted := he
      have hle := count_started_le (s'.setState tid (some ts'))
      refine hdue hold hk (hstarted ▸ hne') ?_
      omega

/-- A thread leaves that is not counted, or is missed from now on. -/
theorem Settled.exit (h : Settled kn s) (hts : s.getState tid = some ts)
    (hthreads : s'.threadStates = s.threadStates)
    (hstarted : s'.threadsStartedTracing = s.threadsStartedTracing)
    (hdone : s'.threadsReachedDone = s.threadsReachedDone)
    (hexit : s'.exitTriggered = s.exitTriggered) : Settled kn (s'.setState tid none) := by
  obtain ⟨hi, _⟩ := getState_some hts
  have h₁ := count_write hasStarted none hi hthreads
  have h₂ := count_write hasReachedDone none hi hthreads
  have h₃ := count_write unfinished none hi hthreads
  rw [hts] at h₁ h₂ h₃
  simp only [Option.elim_some, Option.elim_none, add_zero] at h₁ h₂ h₃
  have ha := h.started
  have hb := h.reached
  refine ⟨?_, ?_, fun hk hne he hz => ?_⟩
  · show (s'.setState tid none).count hasStarted ≤ s'.threadsStartedTracing
    omega
  · show (s'.setState tid none).count hasReachedDone ≤ s'.threadsReachedDone
    omega
  · have hne' : s'.threadsStartedTracing ≠ 0 := hne
    have he' : s'.threadsStartedTracing = (s'.setState tid none).count hasStarted := he
    have hns : hasStarted ts = false := by
      cases hx : hasStarted ts with
      | false => rfl
      | true =>
        rw [hx, if_pos rfl] at h₁
        omega
    have hnu : unfinished ts = false := by
      have hns' : ts.everStartedTracing = false := hns
      simp [unfinished, hns']
    rw [hns, if_neg Bool.false_ne_true] at h₁
    rw [hnu, if_neg Bool.false_ne_true] at h₃
    show s'.exitTriggered = true
    rw [hexit]
    exact h.exits hk (hstarted ▸ hne') (by omega) (by omega)

/-- Every callback keeps the counters settled. -/
theorem Settled.step (h : Settled kn s) (ha : Accounted kn s) (hpin : PinOk kn s l)
    (hs : Outcome kn s l s' os) : Settled kn s' := by
  have henter : ∀ {tid : ℕ} {ts : ThreadState}, s.getState tid = some ts → ts.phase ≠ .done →
      ∀ {s' : Tracer} {ts' : ThreadState}, s'.threadStates = s.threadStates →
      s'.threadsStartedTracing = s.threadsStartedTracing + fresh ts.everStartedTracing →
      s'.threadsReachedDone = s.threadsReachedDone → ts'.everStartedTracing = true →
      ts'.everReachedDone = ts.everReachedDone → Settled kn (s'.setState tid (some ts')) := by
    intro tid ts hts hp s' ts' hthreads hstarted hdone hst hd
    obtain ⟨hi, _⟩ := getState_some hts
    refine h.enter hi hthreads ?_ hdone hst (hd.trans ((ha.threads tid ts hts).notDone hp))
    rw [hts, hstarted]
    cases hst : ts.everStartedTracing <;> simp [hasStarted, fresh, hst]
  cases hs with
  | idle => exact h
  | beginAlone _ _ => exact h.frame rfl rfl rfl rfl
  | @beginSkipped tid opens exit ts os hroi hts _ ho =>
    exact h.done hts rfl rfl rfl ho.kept ho.due rfl rfl
  | @beginTracing tid opens ts hroi hts _ hp =>
    have hd : ts.phase ≠ .done := by rcases hp with hp | hp <;> simp [hp]
    exact henter hts hd rfl rfl rfl rfl rfl
  | @beginOther tid opens ts hroi hts _ hp => exact h.touch hts rfl rfl rfl id rfl rfl
  | @register tid opens ts hts => exact h.touch hts rfl rfl rfl id rfl rfl
  | endAlone _ _ => exact h.frame rfl rfl rfl rfl
  | @endThread tid opens exit ts os hend hts ho =>
    refine h.done hts ?_ ?_ ?_ ho.kept ho.due ?_ ?_
    · exact leave_threadStates (s := { s with roiEnded := true })
    · simp [removeInstrumentation, doneCounted]
    · simp [removeInstrumentation, doneCounted]
    · rw [ThreadState.stopped]
      split <;> rfl
    · rw [ThreadState.stopped]
      split <;> rfl
  | @stop tid opens exit ts os hts hp hend ho =>
    refine h.done hts ?_ ?_ ?_ ho.kept ho.due ?_ ?_
    · simp [doneCounted]
    · simp [doneCounted]
    · simp [doneCounted]
    · rw [ThreadState.stopped]
      split <;> rfl
    · rw [ThreadState.stopped]
      split <;> rfl
  | @wake tid opens ts hts _ hroi hp _ => exact henter hts (by simp [hp]) rfl rfl rfl rfl rfl
  | @skip l tid opens ts phase n hl hts hp _ => exact h.touch hts rfl rfl rfl id rfl rfl
  | @resume l tid opens ts phase n hl hts hp _ =>
    have hd : ts.phase ≠ .done := by
      rcases hl with ⟨rfl, _⟩ | ⟨rfl, _⟩ <;> simp [hp]
    exact henter hts hd rfl rfl rfl rfl rfl
  | @record tid opens ts hts hp _ => exact h.touch hts rfl rfl rfl id rfl rfl
  | @finish tid opens exit ts os hts hp _ _ ho =>
    exact h.done hts rfl rfl rfl ho.kept ho.due rfl rfl
  | @pause tid opens ts hts hp _ _ => exact h.touch hts rfl rfl rfl id rfl rfl
  | @restart tid opens ts hts hp _ _ => exact h.touch hts rfl rfl rfl id rfl rfl
  | instrument => exact h.frame rfl rfl rfl rfl
  | startExcluded => exact h.frame rfl rfl rfl rfl
  | @startTracing tid opens main n _ hp =>
    obtain ⟨hi, hg⟩ := PinOk.free hpin
    refine h.enter hi rfl ?_ rfl rfl rfl
    rw [hg]
    rfl
  | @start tid opens main n phase hp hne =>
    obtain ⟨hi, hg⟩ := PinOk.free hpin
    exact h.born hi hg rfl rfl rfl rfl rfl rfl
  | @exit tid opens ts hts =>
    refine h.exit hts leave_threadStates (by simp) (by simp) ?_
    rw [leave]
    split <;> rfl

/-- The counters are settled in every reachable state. -/
theorem Settled.reachable (h : (tracerLts kn n).Reachable (PinOk kn) s) : Settled kn s := by
  obtain ⟨tr, hr⟩ := h
  refine hr.induct (P := fun s _ => Settled kn s) ?_ ?_
  · rintro s rfl
    constructor <;> simp [init, count]
  · intro s tr l s' os hr hI hok hs
    exact hI.step (.reachable ⟨tr, hr⟩) hok (outcome_of_step hs)

/-! ## Threads that are stopped -/

/-- The thread is in DONE without an open sample, if it is alive. -/
def Stopped (tid : ℕ) (s : Tracer) : Prop :=
  ∀ ts, s.getState tid = some ts → ts.phase = .done ∧ ts.sampleOpen = false

/-- The thread is in DONE. -/
def isDone (ts : ThreadState) : Bool := ts.phase == .done

/-- A thread in DONE has no open sample. -/
theorem stopped_of_isDone (ha : Accounted kn s) (h : (s.getState tid).any isDone) :
    Stopped tid s := by
  intro ts hts
  rw [hts] at h
  have hd : ts.phase = .done := by simpa [isDone] using h
  exact ⟨hd, (ha.threads tid ts hts).closed (by simp [hd])⟩

/-- A slot is written. -/
theorem Stopped.put (hts : s.getState tid = some ts) (hthreads : s'.threadStates = s.threadStates)
    (hp : ts'.phase = .done) (ho : ts'.sampleOpen = false) :
    Stopped tid (s'.setState tid (some ts')) := by
  obtain ⟨hi, _⟩ := getState_some hts
  intro ts₁ h₁
  rw [getState_setState (hthreads ▸ hi), if_pos rfl] at h₁
  cases h₁
  exact ⟨hp, ho⟩

/-- A stopped thread stays so until a new thread takes its id. -/
theorem Stopped.step (h : Stopped tid s) (hs : Outcome kn s l s' os)
    (hl : l.1 ≠ .threadStart tid) : Stopped tid s' := by
  by_cases hown : l.1.thread = some tid
  · have hdone : ∀ {tid' ts}, tid' = tid → s.getState tid' = some ts →
        ts.phase = .done ∧ ts.sampleOpen = false := by
      rintro tid' ts rfl hts
      exact h ts hts
    cases hs with
    | idle | beginAlone _ _ | endAlone _ _ | instrument | startExcluded => exact h
    | beginSkipped _ hts _ _ =>
      obtain rfl := Option.some.inj hown
      exact .put hts rfl rfl (h _ hts).2
    | beginTracing _ hts _ hp =>
      obtain rfl := Option.some.inj hown
      rw [(h _ hts).1] at hp
      rcases hp with hp | hp <;> cases hp
    | beginOther _ hts _ _ | register hts =>
      obtain rfl := Option.some.inj hown
      exact .put hts rfl (h _ hts).1 (h _ hts).2
    | @endThread tid opens exit ts os _ hts _ =>
      obtain rfl := Option.some.inj hown
      have hst : ts.stopped = ts.finished := if_neg (by simp [(h _ hts).1])
      refine .put hts (leave_threadStates (s := { s with roiEnded := true })) ?_ ?_
      · rw [hst]
        rfl
      · rw [hst]
        exact (h _ hts).2
    | stop hts hp _ _ =>
      obtain rfl := Option.some.inj hown
      exact absurd (h _ hts).1 hp
    | wake hts _ _ hp _ =>
      obtain rfl := Option.some.inj hown
      rw [(h _ hts).1] at hp
      cases hp
    | skip hl' hts hp _ | resume hl' hts hp _ =>
      rcases hl' with ⟨rfl, rfl⟩ | ⟨rfl, rfl⟩ <;>
      · obtain rfl := Option.some.inj hown
        rw [(h _ hts).1] at hp
        cases hp
    | record hts hp _ | finish hts hp _ _ _ | pause hts hp _ _ | restart hts hp _ _ =>
      obtain rfl := Option.some.inj hown
      rw [(h _ hts).1] at hp
      cases hp
    | startTracing _ _ | start _ _ =>
      obtain rfl := Option.some.inj hown
      exact absurd rfl hl
    | exit hts =>
      obtain rfl := Option.some.inj hown
      obtain ⟨hi, _⟩ := getState_some hts
      intro ts₁ h₁
      rw [getState_setState (by rw [leave_threadStates]; exact hi), if_pos rfl] at h₁
      cases h₁
  · intro ts hts
    exact h ts (hs.other hown ▸ hts)

/-- A stopped thread stays so along a path on which no thread takes its id. -/
theorem Stopped.path (h : Stopped tid s) (hp : (tracerLts kn n).Path (PinOk kn) s tr s')
    (hno : .threadStart tid ∉ callbacksOf tid tr) : Stopped tid s' := by
  induction hp with
  | nil => exact h
  | @step m s' tr l os _ _ hs ih =>
    rw [callbacksOf, List.map_append, List.filter_append, List.mem_append, not_or] at hno
    refine (ih hno.1).step (outcome_of_step hs) fun hl => hno.2 ?_
    simp [hl, Callback.thread]

/-- A live thread stays alive until it exits. -/
theorem alive_step (h : (s.getState tid).isSome) (hs : Outcome kn s l s' os)
    (hl : l.1 ≠ .threadFini tid) : (s'.getState tid).isSome := by
  have hput : ∀ {tid' t} {s₁ : Tracer}, s₁.threadStates = s.threadStates →
      ((s₁.setState tid' (some t)).getState tid).isSome := by
    intro tid' t s₁ hthreads
    by_cases he : tid = tid'
    · subst he
      obtain ⟨ts, hts⟩ := Option.isSome_iff_exists.1 h
      rw [getState_setState (hthreads ▸ (getState_some hts).1), if_pos rfl]
      rfl
    · rw [getState_setState_ne he hthreads]
      exact h
  cases hs with
  | idle | beginAlone _ _ | endAlone _ _ | instrument | startExcluded => exact h
  | endThread _ _ _ => exact hput (leave_threadStates (s := { s with roiEnded := true }))
  | stop _ _ _ _ => exact hput leave_threadStates
  | @exit tid' opens ts hts =>
    have hne : tid ≠ tid' := by
      rintro rfl
      exact hl rfl
    rw [getState_setState_ne hne leave_threadStates]
    exact h
  | _ => exact hput rfl

/-- A live thread stays alive along a path on which it does not exit. -/
theorem alive_path (h : (s.getState tid).isSome)
    (hp : (tracerLts kn n).Path (PinOk kn) s tr s')
    (hno : .threadFini tid ∉ callbacksOf tid tr) : (s'.getState tid).isSome := by
  induction hp with
  | nil => exact h
  | @step m s' tr l os _ _ hs ih =>
    rw [callbacksOf, List.map_append, List.filter_append, List.mem_append, not_or] at hno
    refine alive_step (ih hno.1) (outcome_of_step hs) fun hl => hno.2 ?_
    simp [hl, Callback.thread]

/-- After the end of the ROI the check stops the thread. -/
theorem stopped_of_check (ha : Accounted kn s) (he : s.roiEnded = true) :
    Stopped tid (s.checkRoiTransition kn opens tid).1 := by
  rw [checkRoiTransition]
  cases hts : s.getState tid with
  | none =>
    intro ts h
    rw [hts] at h
    cases h
  | some ts =>
    by_cases hd : ts.phase = .done
    · simp only [if_pos hd]
      intro ts₁ h₁
      rw [hts] at h₁
      cases h₁
      exact ⟨hd, (ha.threads tid ts hts).closed (by simp [hd])⟩
    · obtain ⟨exit, os, _, hstop⟩ := stopTracing_eq kn ts s
      simp only [if_neg hd, if_pos he, store, hstop]
      refine .put hts leave_threadStates ?_ ?_
      · rw [ThreadState.stopped]
        split <;> rfl
      · have hok := (ha.threads tid ts hts).stopped
        refine hok.closed ?_
        rw [ThreadState.stopped]
        split <;> exact (fun h => by cases h)

/-- A thread that executes a check after the end of the ROI is stopped. -/
theorem stopped_of_executed {cs : List Callback} (hr : (tracerLts kn n).Reachable (PinOk kn) s)
    (he : s.roiEnded = true) (hp : (tracerLts kn n).Path (PinOk kn) s tr s')
    (ho : callbacksOf tid tr = .checkRoiTransition tid :: cs) (hno : .threadStart tid ∉ cs) :
    Stopped tid s' := by
  obtain ⟨m, tr₁, opens, tr₂, hp₁, _, _, hp₂, ho₂⟩ := next_callback hp ho
  have hm : m.roiEnded = true := (RoiGrows.path hp₁).ended he
  exact (stopped_of_check (.reachable (hr.path hp₁)) hm).path hp₂ (ho₂ ▸ hno)

/-- After the end of the ROI a thread that traces does not notice its markers. -/
theorem tracing_of_markers {cs : List Callback} (hr : (tracerLts kn n).Reachable (PinOk kn) s)
    (he : s.roiEnded = true) (hp : (tracerLts kn n).Path (PinOk kn) s tr s')
    (ho : callbacksOf tid tr = cs) (hcs : ∀ c ∈ cs, ∃ rcx, c = .handleMarker tid rcx)
    (hts : (s.getState tid).any isTracing = true) : (s'.getState tid).any isTracing = true := by
  induction cs generalizing s tr with
  | nil =>
    rw [getState_of_no_callbacks hp ho]
    exact hts
  | cons c cs ih =>
    obtain ⟨rcx, rfl⟩ := hcs c (by simp)
    obtain ⟨m, tr₁, opens, tr₂, hp₁, hg, hok, hp₂, ho₂⟩ := next_callback hp ho
    have hrm := hr.path hp₁
    have hem : m.roiEnded = true := (RoiGrows.path hp₁).ended he
    obtain ⟨ts, hts', ht⟩ := (Option.any_eq_true _ _).1 hts
    have hph : ts.phase = .tracing := by simpa [isTracing] using ht
    rw [← hg] at hts'
    have ham : Accounted kn m := .reachable hrm
    -- with markers a thread traces only in the ROI
    have hsm : m.roiStarted = true := by
      cases hs : m.roiStarted with
      | true => rfl
      | false =>
        rcases (ham.threads tid ts hts').waiting hok hs with hw | hw <;> rw [hph] at hw <;> cases hw
    have hcall : ((m.call kn (.handleMarker tid rcx, opens)).1.getState tid).any isTracing = true ∧
        (m.call kn (.handleMarker tid rcx, opens)).1.roiEnded = true := by
      simp only [call, handleMarker]
      split_ifs
      · rw [roiBegin, if_pos hsm]
        exact ⟨by rw [hts']; exact ht, hem⟩
      · rw [registerWorker, hts']
        refine ⟨?_, hem⟩
        rw [getState_setState (getState_some hts').1, if_pos rfl]
        exact ht
      · rw [roiEnd, if_pos hem]
        exact ⟨by rw [hts']; exact ht, hem⟩
      · exact ⟨by rw [hts']; exact ht, hem⟩
    refine ih (hrm.step hok rfl) hcall.2 hp₂ ho₂ (fun c hc => hcs c (List.mem_cons_of_mem _ hc))
      hcall.1

/-! ## The cached traces after the end -/

/-- A callback keeps the cached traces, discards them or adds one. -/
theorem Outcome.cache (h : Outcome kn s l s' os) : s'.codeCache = s.codeCache ∨
    s'.codeCache = [] ∨ ∃ trace, s'.codeCache = (trace, s.instrumentation kn) :: s.codeCache := by
  cases h with
  | beginTracing _ _ _ _ | endThread _ _ _ | resume _ _ _ _ | finish _ _ _ _ _ | pause _ _ _ _
  | startTracing _ _ => exact .inr (.inl rfl)
  | wake _ _ _ _ _ =>
    by_cases hz : s.activeTracingThreads = 0
    · exact .inr (.inl (if_pos hz))
    · exact .inl (if_neg hz)
  | stop _ _ _ _ | exit _ =>
    refine .inl ?_
    simp only [setState, doneCounted, leave]
    split <;> rfl
  | instrument => exact .inr (.inr ⟨_, rfl⟩)
  | _ => exact .inl rfl

/-- Once the cached traces were discarded after the end of the ROI, none calls the tool again. -/
theorem untouched_path (he : s.roiEnded = true) (hc : s.codeCache = [])
    (hp : (tracerLts kn n).Path (PinOk kn) s tr s') :
    ∀ e ∈ s'.codeCache, e.2 = .untouched := by
  induction hp with
  | nil => simp [hc]
  | @step m s' tr l os hp₁ _ hs ih =>
    have hem : m.roiEnded = true := (RoiGrows.path hp₁).ended he
    rcases (outcome_of_step hs).cache with h | h | ⟨trace, h⟩
    · rwa [h]
    · simp [h]
    · rw [h]
      intro e hmem
      rcases List.mem_cons.1 hmem with rfl | hmem
      · simp [instrumentation, hem]
      · exact ih e hmem

/-! ## The threads that execute a trace -/

/-- The thread has executed, since it started, a trace that was instrumented in the ROI. -/
def ExecutedRoiTrace (kn : Knobs) (tid : ℕ) (tr : Lts.Trace Call Output) : Prop :=
  ∃ (s₀ : Tracer) (trace : Trace) (before after : List Callback), s₀.inRoi kn ∧
    callbacksOf tid tr =
      before ++ (s₀.instrumentation kn).callbacks kn tid trace ++ after ∧
    .threadStart tid ∉ after

/-- A thread that has executed such a trace after the end of the ROI is stopped. -/
theorem ExecutedRoiTrace.stopped (h : ExecutedRoiTrace kn tid tr)
    (hr : (tracerLts kn n).Reachable (PinOk kn) s) (he : s.roiEnded = true)
    (hp : (tracerLts kn n).Path (PinOk kn) s tr s') : Stopped tid s' := by
  obtain ⟨s₀, trace, before, after, hroi, ho, hno⟩ := h
  rw [List.append_assoc] at ho
  obtain ⟨m, tr₁, tr₂, hp₁, _, hp₂, ho₂⟩ := cut_path hp ho
  obtain ⟨cs, hcs⟩ := callbacks_inRoi hroi tid trace
  rw [hcs, List.cons_append] at ho₂
  refine stopped_of_executed (hr.path hp₁) ((RoiGrows.path hp₁).ended he) hp₂ ho₂ ?_
  rw [List.mem_append, not_or]
  refine ⟨fun hm => ?_, hno⟩
  have hm' : Callback.threadStart tid ∈ (s₀.instrumentation kn).callbacks kn tid trace := by
    rw [hcs]
    exact List.mem_cons_of_mem _ hm
  exact (mem_callbacks hm').1 rfl

end

end Tracer

/-- The end of the ROI stops a traced thread exactly where the next trace it executes was
instrumented in the ROI: then the thread is in DONE, its sample is closed and it is not counted in
`active_tracing_threads`, and otherwise it goes on in TRACING. When all threads that started are
alive and each was done or has executed such a trace, all are counted as done and `-exit_on_done`
fires. No such trace is left when the thread that ended the ROI is traced itself. -/
theorem roi_end_stops (kn : Knobs) (maxThreads : ℕ) :
    (∀ (s₀ s s' : Tracer) (addr : UInt64) (opens : Bool) (tr₁ tr₂ : Lts.Trace Call Output)
      (tid : ℕ) (ts : ThreadState) (trace : Trace),
      (tracerLts kn maxThreads).Reachable (PinOk kn) s₀ →
      PinOk kn s₀ (.instrumentTrace addr, opens) →
      (tracerLts kn maxThreads).Path (PinOk kn) (s₀.instrumentTrace kn addr) tr₁ s →
      (addr, s₀.instrumentation kn) ∈ s.codeCache → s.roiEnded = true →
      s.getState tid = some ts → ts.phase = .tracing →
      (tracerLts kn maxThreads).Path (PinOk kn) s tr₂ s' →
      callbacksOf tid tr₂ = (s₀.instrumentation kn).callbacks kn tid trace →
      ((∃ ts', s'.getState tid = some ts' ∧ ts'.phase = .done ∧ ts'.sampleOpen = false ∧
        s'.activeTracingThreads = (s'.setState tid none).count Tracer.isTracing) ↔
        s₀.inRoi kn)) ∧
    (∀ (s s' : Tracer) (tr : Lts.Trace Call Output),
      (tracerLts kn maxThreads).Reachable (PinOk kn) s → s.roiEnded = true →
      (tracerLts kn maxThreads).Path (PinOk kn) s tr s' →
      s'.threadsStartedTracing = s'.count Tracer.hasStarted →
      (∀ tid ts, s'.getState tid = some ts → ts.everStartedTracing = true →
        (s.getState tid).any Tracer.isDone ∧ .threadStart tid ∉ callbacksOf tid tr ∨
          Tracer.ExecutedRoiTrace kn tid tr) →
      s'.threadsStartedTracing ≤ s'.threadsReachedDone ∧
        (kn.exitOnDone = true → s'.threadsStartedTracing ≠ 0 → s'.exitTriggered = true)) ∧
    ∀ (s s' : Tracer) (tid : ℕ) (opens : Bool) (tr : Lts.Trace Call Output),
      s.roiEnded = false → s.getState tid ≠ none →
      (tracerLts kn maxThreads).Path (PinOk kn)
        (s.call kn (.handleMarker tid champsimRoiEnd, opens)).1 tr s' →
      ∀ e ∈ s'.codeCache, e.2 = .untouched := by
  refine ⟨?_, ?_, ?_⟩
  · intro s₀ s s' addr opens tr₁ tr₂ tid ts trace hr₀ hok hp₁ _ he hts hph hp₂ ho
    have hr : (tracerLts kn maxThreads).Reachable (PinOk kn) s := (hr₀.step hok rfl).path hp₁
    constructor
    · rintro ⟨ts', hts', hd, _⟩
      by_contra hroi
      -- the thread makes no callback but those of markers
      have hmarkers : ∀ c ∈ (s₀.instrumentation kn).callbacks kn tid trace,
          ∃ rcx, c = .handleMarker tid rcx := by
        rcases Tracer.instrumentation_not_inRoi hroi with hv | hv
        · rw [hv]
          nofun
        · rw [hv]
          intro c hc
          obtain ⟨i, _, hi⟩ := List.mem_filterMap.1 hc
          obtain ⟨rcx, _, rfl⟩ := Option.map_eq_some_iff.1 hi
          exact ⟨rcx, rfl⟩
      have hany := Tracer.tracing_of_markers hr he hp₂ ho hmarkers
        (by rw [hts]; simp [Tracer.isTracing, hph])
      rw [hts'] at hany
      simp [Tracer.isTracing, hd] at hany
    · intro hroi
      obtain ⟨cs, hcs⟩ := Tracer.callbacks_inRoi hroi tid trace
      have hmem : ∀ c ∈ callbacksOf tid tr₂, c ≠ .threadStart tid ∧ c ≠ .threadFini tid := by
        rw [ho]
        exact fun c hc => Tracer.mem_callbacks hc
      have hstop : Tracer.Stopped tid s' :=
        Tracer.stopped_of_executed hr he hp₂ (ho.trans hcs) fun hc =>
          (hmem _ (by rw [ho, hcs]; exact List.mem_cons_of_mem _ hc)).1 rfl
      have halive : (s'.getState tid).isSome :=
        Tracer.alive_path (by rw [hts]; rfl) hp₂ fun hc => (hmem _ hc).2 rfl
      obtain ⟨ts', hts'⟩ := Option.isSome_iff_exists.1 halive
      refine ⟨ts', hts', (hstop ts' hts').1, (hstop ts' hts').2, ?_⟩
      have hw := Tracer.count_setState Tracer.isTracing none (Tracer.getState_some hts').1
      have hnt : Tracer.isTracing ts' = false := by simp [Tracer.isTracing, (hstop ts' hts').1]
      rw [hts', Option.elim_some, hnt, Option.elim_none, if_neg Bool.false_ne_true] at hw
      have ha := (Tracer.Accounted.reachable (hr.path hp₂)).active
      rw [ha]
      exact_mod_cast hw.symm
  · intro s s' tr hr he hp halive hex
    have hr' := hr.path hp
    have hdone : ∀ tid ts, s'.getState tid = some ts → Tracer.unfinished ts = false := by
      intro tid ts hts
      cases hs : ts.everStartedTracing with
      | false => simp [Tracer.unfinished, hs]
      | true =>
        have hstop : Tracer.Stopped tid s' := by
          rcases hex tid ts hts hs with ⟨hd, hno⟩ | hx
          · exact (Tracer.stopped_of_isDone (.reachable hr) hd).path hp hno
          · exact hx.stopped hr he hp
        have hd := ((Tracer.Accounted.reachable hr').threads tid ts hts).done.2 (hstop ts hts).1
        simp [Tracer.unfinished, hd]
    have hz : s'.count Tracer.unfinished = 0 := Tracer.count_eq_zero hdone
    have hset := Tracer.Settled.reachable hr'
    have hle := Tracer.count_started_le s'
    have hreached := hset.reached
    exact ⟨by omega, fun hk hne => hset.exits hk hne halive hz⟩
  · intro s s' tid opens tr he halive hp
    obtain ⟨ts, hts⟩ := Option.ne_none_iff_exists'.1 halive
    obtain ⟨exit, os, _, hstop⟩ := Tracer.stopTracing_eq kn ts { s with roiEnded := true }
    have hcall : s.call kn (.handleMarker tid champsimRoiEnd, opens) = Tracer.store tid
        ⟨ts.stopped, (({ s with roiEnded := true }.leave ts).doneCounted ts
          exit).removeInstrumentation, os⟩ := by
      have hg : { s with roiEnded := true }.getState tid = some ts := hts
      have hmark : s.call kn (.handleMarker tid champsimRoiEnd, opens) = s.roiEnd kn tid := rfl
      rw [hmark, Tracer.roiEnd, if_neg (by simp [he])]
      simp only [hg, hstop]
    rw [hcall] at hp
    refine Tracer.untouched_path ?_ rfl hp
    exact Tracer.leave_roiEnded (s := { s with roiEnded := true })

/-- The knobs of a run with markers that traces all threads or the main thread, and exits when all is
traced. -/
def roiKnobs (mainOnly : Bool) : Knobs where
  useMarkers := true
  initialSkip := 0
  interSampleSkip := 0
  traceInstructions := 10
  numSamples := 1
  mainThreadOnly := mainOnly
  exitOnDone := true
  skipMasterTracing := false
  traceOnlyRegisteredWorkers := false

/-- Two threads start, thread 0 begins the ROI, a trace is instrumented and thread 1 executes it. -/
def twoThreadsInRoi : List Call :=
  [.threadStart 0, .threadStart 1, .handleMarker 0 champsimRoiBegin, .instrumentTrace 16,
    .checkRoiTransition 1, .recordInstrCommit 1].map (·, true)

/-- Thread 0 ends the ROI: thread 1 executes the trace that is instrumented then and goes on
tracing. -/
theorem roi_end_missed :
    ∃ (s s' : Tracer) (tr : Lts.Trace Call Output),
      (tracerLts (roiKnobs false) 2).Reachable (PinOk (roiKnobs false)) s ∧ s.roiEnded = true ∧
      (s.getState 1).any Tracer.isTracing = true ∧ (16, .untouched) ∈ s.codeCache ∧
      (tracerLts (roiKnobs false) 2).Path (PinOk (roiKnobs false)) s tr s' ∧
      callbacksOf 1 tr = Instrumentation.untouched.callbacks (roiKnobs false) 1 [none] ∧
      (s'.getState 1).any (fun ts => Tracer.isTracing ts && ts.sampleOpen) = true ∧
      s'.activeTracingThreads = 1 ∧ s'.threadsReachedDone < s'.threadsStartedTracing := by
  obtain ⟨s, hr, hp⟩ := Lts.reachable_of_exec (tracerLts (roiKnobs false) 2)
    (PinOk (roiKnobs false))
    (fun s => s.roiEnded = true ∧ (16, .untouched) ∈ s.codeCache ∧
      (s.getState 1).any (fun ts => Tracer.isTracing ts && ts.sampleOpen) = true ∧
      (s.getState 1).any Tracer.isTracing = true ∧
      s.activeTracingThreads = 1 ∧ s.threadsReachedDone < s.threadsStartedTracing)
    (twoThreadsInRoi ++
      [Callback.handleMarker 0 champsimRoiEnd, .instrumentTrace 16].map (·, true)) rfl
    (by decide +kernel)
  obtain ⟨he, hc, ho, ht, ha, hd⟩ := of_decide_eq_true hp
  exact ⟨s, s, [], hr, he, ht, hc, .nil, rfl, ho, ha, hd⟩

/-- Thread 1 is not traced and ends the ROI: thread 0 executes a trace of the ROI and is stopped, and
the tool exits. -/
theorem roi_end_stops_main_thread :
    ∃ (s s' : Tracer) (tr : Lts.Trace Call Output), s.roiEnded = true ∧
      (s.getState 0).any Tracer.isTracing = true ∧ callbacksOf 0 tr =
        Instrumentation.fullAnalysis.callbacks (roiKnobs true) 0 [none] ∧
      (∃ ts', s'.getState 0 = some ts' ∧ ts'.phase = .done) ∧ s'.exitTriggered = true := by
  obtain ⟨s₀, hr₀, hp₀⟩ := Lts.reachable_of_exec (tracerLts (roiKnobs true) 2)
    (PinOk (roiKnobs true))
    (fun s₀ => PinOk (roiKnobs true) s₀ (.instrumentTrace 16, true) ∧ s₀.inRoi (roiKnobs true) ∧
      s₀.instrumentation (roiKnobs true) = .fullAnalysis ∧
      (((tracerLts (roiKnobs true) 2).exec (PinOk (roiKnobs true))
        (s₀.instrumentTrace (roiKnobs true) 16) [(.handleMarker 1 champsimRoiEnd, true)]).any
          fun x => x.1.roiEnded && decide ((16, .fullAnalysis) ∈ x.1.codeCache) &&
            (x.1.getState 0).any Tracer.isTracing &&
            ((tracerLts (roiKnobs true) 2).exec (PinOk (roiKnobs true)) x.1
              [(.checkRoiTransition 0, true), (.recordInstrCommit 0, true)]).any fun y =>
                decide (callbacksOf 0 y.2 =
                  Instrumentation.fullAnalysis.callbacks (roiKnobs true) 0 [none] ∧
                  y.1.threadsStartedTracing = y.1.count Tracer.hasStarted ∧
                  y.1.threadsStartedTracing ≠ 0 ∧ y.1.threadStates.length = 2 ∧
                  (y.1.getState 1 = none))) = true)
    ([Callback.threadStart 0, .threadStart 1, .handleMarker 0 champsimRoiBegin].map (·, true)) rfl
    (by decide +kernel)
  obtain ⟨hpin, hroi, hv, hx⟩ := of_decide_eq_true hp₀
  obtain ⟨⟨s, tr₁⟩, hx₁, hx⟩ := (Option.any_eq_true _ _).1 hx
  simp only [Bool.and_eq_true, decide_eq_true_eq] at hx
  obtain ⟨⟨⟨he, hc⟩, ht⟩, hy⟩ := hx
  obtain ⟨⟨s', tr₂⟩, hy₁, hy⟩ := (Option.any_eq_true _ _).1 hy
  obtain ⟨ho, hstarted, hne, hlen, hnone⟩ := of_decide_eq_true hy
  obtain ⟨ts, hts, hph⟩ := (Option.any_eq_true _ _).1 ht
  have hph' : ts.phase = .tracing := by simpa [Tracer.isTracing] using hph
  have hp₁ := Lts.path_of_exec hx₁
  have hp₂ := Lts.path_of_exec hy₁
  have hr := (hr₀.step hpin rfl).path hp₁
  obtain ⟨hstop, hexit, _⟩ := roi_end_stops (roiKnobs true) 2
  have hdone := (hstop s₀ s s' 16 true tr₁ tr₂ 0 ts [none] hr₀ hpin hp₁ (hv ▸ hc) he hts hph' hp₂
    (hv ▸ ho)).2 hroi
  obtain ⟨ts', hts', hd, _⟩ := hdone
  refine ⟨s, s', tr₂, he, ht, ho, ⟨ts', hts', hd⟩, ?_⟩
  refine (hexit s s' tr₂ hr he hp₂ hstarted fun tid ts₁ hts₁ _ => ?_).2 rfl hne
  have htid : tid = 0 := by
    obtain ⟨hi, _⟩ := Tracer.getState_some hts₁
    have hlen' : s'.threadStates.length = 2 := hlen
    have hne₁ : tid ≠ 1 := by
      rintro rfl
      rw [hnone] at hts₁
      cases hts₁
    omega
  subst htid
  exact .inr ⟨s₀, [none], [], [], hroi, by rw [hv]; simpa using ho, (fun h => by cases h)⟩

end Arishem
