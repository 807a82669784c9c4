import Mathlib.Algebra.Order.BigOperators.Group.List
import Arishem.Tracer.Steps

/-!
# The threads and their number

What holds of each thread in every reachable state, and that `active_tracing_threads` is the number
of threads in TRACING. Both are kept by every callback; the marker callbacks need that they are made
only with `-use_markers 1`, where no thread traces before the ROI.
-/

namespace Arishem

namespace Tracer

/-- The number of threads with a property. -/
def count (f : ThreadState → Bool) (s : Tracer) : ℕ :=
  (s.threadStates.map fun t => t.elim 0 fun ts => if f ts then 1 else 0).sum

/-- The thread is in TRACING. -/
def isTracing (ts : ThreadState) : Bool := ts.phase == .tracing

/-- What holds of a thread; `roi` says whether the ROI has started. -/
structure ThreadOk (kn : Knobs) (roi : Bool) (ts : ThreadState) : Prop where
  done : ts.everReachedDone = true ↔ ts.phase = .done
  started : ts.phase = .tracing ∨ ts.phase = .interSkip → ts.everStartedTracing = true
  sample : ts.sampleOpen = true → ts.phase = .tracing
  marked : kn.useMarkers = true → ts.phase ≠ .initialSkip
  waiting : kn.useMarkers = true → roi = false → ts.phase = .waitingForRoi ∨ ts.phase = .done

/-- The threads are sound and those in TRACING are counted. -/
structure Accounted (kn : Knobs) (s : Tracer) : Prop where
  threads : ∀ tid ts, s.getState tid = some ts → ThreadOk kn s.roiStarted ts
  active : s.activeTracingThreads = s.count isTracing

section
variable {kn : Knobs} {s s' : Tracer} {tid : ℕ} {opens : Bool} {t : Option ThreadState}
variable {ts ts' : ThreadState} {f : ThreadState → Bool}

/-- Writing a slot exchanges what the thread there counts. -/
theorem count_setState (f : ThreadState → Bool) (t : Option ThreadState)
    (h : tid < s.threadStates.length) :
    (s.setState tid t).count f + (s.getState tid).elim 0 (fun ts => if f ts then 1 else 0) =
      s.count f + t.elim 0 (fun ts => if f ts then 1 else 0) := by
  have hg : s.getState tid = s.threadStates[tid] := by
    rw [getState, List.getElem?_eq_getElem h, Option.join_some]
  rw [hg]
  exact Slots.sum_map_set (fun t => t.elim 0 fun ts => if f ts then 1 else 0) t s.threadStates tid h

/-- A thread with a property is counted. -/
theorem count_pos (hts : s.getState tid = some ts) (hf : f ts = true) :
    0 < s.count f := by
  obtain ⟨hi, hg⟩ := getState_some hts
  refine lt_of_lt_of_le ?_ (List.single_le_sum (fun _ _ => Nat.zero_le _) _
    (List.mem_map_of_mem (hg ▸ List.getElem_mem hi)))
  simp [hf]

/-- What holds of a thread goes on to hold when the ROI starts. -/
theorem ThreadOk.mono {r r' : Bool} (h : ThreadOk kn r ts) (hr : r = true → r' = true) :
    ThreadOk kn r' ts := by
  refine ⟨h.done, h.started, h.sample, h.marked, fun hm hr' => h.waiting hm ?_⟩
  subst hr'
  cases r with
  | false => rfl
  | true => exact absurd (hr rfl) (by simp)

/-- A slot is written by a step that changes the number of active threads as it should. -/
theorem Accounted.write (h : Accounted kn s) {t : Option ThreadState}
    (hi : tid < s.threadStates.length) (hthreads : s'.threadStates = s.threadStates)
    (hroi : s.roiStarted = true → s'.roiStarted = true)
    (hok : ∀ ts', t = some ts' → ThreadOk kn s'.roiStarted ts')
    (hactive : s'.activeTracingThreads +
        ((s.getState tid).elim 0 fun ts => if isTracing ts then 1 else 0 : ℕ) =
      s.activeTracingThreads + (t.elim 0 fun ts => if isTracing ts then 1 else 0 : ℕ)) :
    Accounted kn (s'.setState tid t) := by
  have hg : ∀ tid, s'.getState tid = s.getState tid := fun tid => by
    rw [getState, hthreads, getState]
  constructor
  · refine forall_setState (fun tid₁ ts₁ h₁ => ?_) hok
    exact (h.threads tid₁ ts₁ (hg tid₁ ▸ h₁)).mono hroi
  · have hc := count_setState isTracing t (hthreads ▸ hi : tid < s'.threadStates.length)
    have hs : s'.count isTracing = s.count isTracing := by rw [count, hthreads, count]
    have hgoal : (s'.setState tid t).activeTracingThreads = s'.activeTracingThreads := rfl
    have ha := h.active
    rw [hg, hs] at hc
    rw [hgoal]
    omega

/-- The state of a thread is written. -/
theorem Accounted.put (h : Accounted kn s) (hts : s.getState tid = some ts)
    (hthreads : s'.threadStates = s.threadStates)
    (hroi : s.roiStarted = true → s'.roiStarted = true)
    (hok : ThreadOk kn s'.roiStarted ts')
    (hactive : s'.activeTracingThreads + (if isTracing ts then 1 else 0 : ℕ) =
      s.activeTracingThreads + (if isTracing ts' then 1 else 0 : ℕ)) :
    Accounted kn (s'.setState tid (some ts')) := by
  obtain ⟨hi, _⟩ := getState_some hts
  refine h.write hi hthreads hroi (fun ts₁ h₁ => ?_) ?_
  · cases h₁
    exact hok
  · rw [hts]
    exact hactive

/-- A step that leaves the threads and their number alone. -/
theorem Accounted.frame (h : Accounted kn s) (hthreads : s'.threadStates = s.threadStates)
    (hroi : s.roiStarted = true → s'.roiStarted = true)
    (hactive : s'.activeTracingThreads = s.activeTracingThreads) : Accounted kn s' := by
  constructor
  · intro tid ts hts
    exact (h.threads tid ts (by rw [getState, ← hthreads]; exact hts)).mono hroi
  · rw [hactive, h.active, count, count, hthreads]

/-- A thread that has reached DONE. -/
theorem ThreadOk.reachedDone {r : Bool} (hs : ts.sampleOpen = false) (hp : ts.phase = .done)
    (hd : ts.everReachedDone = true) : ThreadOk kn r ts :=
  ⟨by simp [hp, hd], by simp [hp], by simp [hs], by simp [hp], fun _ _ => .inr hp⟩

/-- A thread that does not trace has no open sample. -/
theorem ThreadOk.closed {r : Bool} (h : ThreadOk kn r ts) (hp : ts.phase ≠ .tracing) :
    ts.sampleOpen = false := by
  cases hs : ts.sampleOpen with
  | false => rfl
  | true => exact absurd (h.sample hs) hp

/-- A thread that is not in DONE has not reached it. -/
theorem ThreadOk.notDone {r : Bool} (h : ThreadOk kn r ts) (hp : ts.phase ≠ .done) :
    ts.everReachedDone = false := by
  cases hd : ts.everReachedDone with
  | false => rfl
  | true => exact absurd (h.done.1 hd) hp

/-- A thread that has entered TRACING. -/
theorem ThreadOk.entered {r r' : Bool} (h : ThreadOk kn r ts) (hp : ts.phase ≠ .done)
    (hr : kn.useMarkers = true → r' = true) (opens : Bool) :
    ThreadOk kn r' (ts.entered opens) := by
  have hd : (ts.entered opens).everReachedDone = false := h.notDone hp
  refine ⟨?_, fun _ => rfl, fun _ => rfl, fun _ => nofun, fun hm h0 => ?_⟩
  · rw [hd]
    exact ⟨nofun, nofun⟩
  · rw [hr hm] at h0
    cases h0

/-- A thread whose sample is closed at the end of the ROI. -/
theorem ThreadOk.stopped {r : Bool} (h : ThreadOk kn r ts) : ThreadOk kn r ts.stopped := by
  rw [ThreadState.stopped]
  split
  · exact .reachedDone rfl rfl rfl
  · rename_i hp
    exact .reachedDone (h.closed hp) rfl rfl

/-- The end of the ROI takes a thread out of the number of active threads. -/
theorem leave_active (ts : ThreadState) (s : Tracer) :
    (s.leave ts).activeTracingThreads + (if isTracing ts then 1 else 0 : ℕ) =
      s.activeTracingThreads := by
  rw [leave, isTracing]
  by_cases hp : ts.phase = .tracing
  · simp [hp, deactivate]
  · simp [hp]

@[simp] theorem leave_threadStates : (s.leave ts).threadStates = s.threadStates := by
  rw [leave]
  split <;> rfl

@[simp] theorem leave_roiStarted : (s.leave ts).roiStarted = s.roiStarted := by
  rw [leave]
  split <;> rfl

@[simp] theorem isTracing_stopped : isTracing ts.stopped = false := by
  rw [ThreadState.stopped]
  split <;> rfl

@[simp] theorem isTracing_finished : isTracing ts.finished = false := rfl

@[simp] theorem isTracing_entered : isTracing (ts.entered opens) = true := rfl

/-- A thread starts in a free slot. -/
theorem PinOk.free (h : PinOk kn s (.threadStart tid, opens)) :
    tid < s.threadStates.length ∧ s.getState tid = none := by
  have hf : s.threadStates[tid]? = some none := h
  obtain ⟨hi, _⟩ := List.getElem?_eq_some_iff.1 hf
  exact ⟨hi, by rw [getState, hf]; rfl⟩

/-! ## Threads before, in and between their samples -/

/-- With markers no thread traces before the ROI. -/
theorem ThreadOk.not_tracing (h : ThreadOk kn false ts) (hm : kn.useMarkers = true) :
    ts.phase ≠ .tracing := by
  rcases h.waiting hm rfl with hp | hp <;> simp [hp]

/-- With markers a thread skips only in the ROI. -/
theorem ThreadOk.roi_of_skips {r : Bool} (h : ThreadOk kn r ts)
    (hphase : ts.phase = .initialSkip ∨ ts.phase = .interSkip) (hm : kn.useMarkers = true) :
    r = true := by
  cases r with
  | true => rfl
  | false => rcases h.waiting hm rfl with hw | hw <;> rw [hw] at hphase <;> simp at hphase

/-- A thread between two samples. -/
theorem ThreadOk.paused {r : Bool} (h : ThreadOk kn r ts) (hp : ts.phase = .tracing) :
    ThreadOk kn r { ts.sampleClosed with phase := .interSkip, counter := ts.interSampleSkip } := by
  have hd : ts.everReachedDone = false := h.notDone (by simp [hp])
  refine ⟨?_, fun _ => h.started (.inl hp), (fun h => by cases h), (fun _ h => by cases h),
    fun hm hr => ?_⟩
  · simp [ThreadState.sampleClosed, ThreadState.closeSample, hd]
  · rcases h.waiting hm hr with hw | hw <;> rw [hp] at hw <;> cases hw

/-- A new thread that waits or skips. -/
theorem ThreadOk.newThread (hne : s.startingPhase kn ≠ .tracing) (n : UInt64) :
    ThreadOk kn s.roiStarted (newThread kn (s.startingPhase kn) n) := by
  refine ⟨?_, ?_, (fun h => by cases h), ?_, ?_⟩ <;>
    simp only [Tracer.newThread, startingPhase] at hne ⊢
  · split_ifs <;> simp
  · split_ifs at hne ⊢ <;> simp at hne ⊢
  · intro hm
    rw [if_pos hm]
    split_ifs <;> simp
  · intro hm hr
    simp [hm, hr]

/-- A new thread that traces at once. -/
theorem ThreadOk.newThread_entered (hp : s.startingPhase kn = .tracing) (opens : Bool) (n : UInt64) :
    ThreadOk kn s.roiStarted ((Tracer.newThread kn .tracing n).entered opens) := by
  refine ⟨by simp [ThreadState.entered, Tracer.newThread], fun _ => rfl, fun _ => rfl,
    (fun _ h => by cases h), ?_⟩
  intro hm hr
  simp [startingPhase, hm, hr] at hp

/-! ## The callbacks keep the threads accounted for -/

/-- A thread enters TRACING. -/
theorem Accounted.enter (h : Accounted kn s) (hts : s.getState tid = some ts)
    (ht : ts.phase ≠ .tracing) (hthreads : s'.threadStates = s.threadStates)
    (hroi : s.roiStarted = true → s'.roiStarted = true)
    (hactive : s'.activeTracingThreads = s.activeTracingThreads + 1)
    (hok : ThreadOk kn s.roiStarted ts') (hp : ts'.phase ≠ .done)
    (hr : kn.useMarkers = true → s'.roiStarted = true) :
    Accounted kn (s'.setState tid (some (ts'.entered opens))) := by
  refine h.put hts hthreads hroi (hok.entered hp hr opens) ?_
  have hnt : isTracing ts = false := by simpa [isTracing] using ht
  simp [hactive, hnt]

/-- A thread's state changes in fields that do not matter here. -/
theorem Accounted.touch (h : Accounted kn s) (hts : s.getState tid = some ts)
    (hthreads : s'.threadStates = s.threadStates)
    (hroi : s.roiStarted = true → s'.roiStarted = true)
    (hactive : s'.activeTracingThreads = s.activeTracingThreads)
    (hphase : ts'.phase = ts.phase) (hopen : ts'.sampleOpen = true → ts'.phase = .tracing)
    (hstarted : ts'.everStartedTracing = ts.everStartedTracing)
    (hdone : ts'.everReachedDone = ts.everReachedDone) :
    Accounted kn (s'.setState tid (some ts')) := by
  have hold := (h.threads tid ts hts).mono hroi
  refine h.put hts hthreads hroi ⟨?_, ?_, hopen, ?_, ?_⟩ ?_
  · rw [hphase, hdone]
    exact hold.done
  · rw [hphase, hstarted]
    exact hold.started
  · rw [hphase]
    exact hold.marked
  · rw [hphase]
    exact hold.waiting
  · rw [hactive, isTracing, isTracing, hphase]

/-- Every callback keeps the threads accounted for. -/
theorem Accounted.step (h : Accounted kn s) {l : Call} {os : List Output} (hok : PinOk kn s l)
    (hs : Outcome kn s l s' os) : Accounted kn s' := by
  cases hs with
  | idle => exact h
  | beginAlone _ _ => exact h.frame rfl (fun _ => rfl) rfl
  | @beginSkipped tid opens exit ts os hroi hts _ _ =>
    have hold := h.threads tid ts hts
    have ht : ts.phase ≠ .tracing := ThreadOk.not_tracing (hroi ▸ hold) hok
    refine h.put hts rfl (fun _ => rfl) (.reachedDone (hold.closed ht) rfl rfl) ?_
    have hnt : isTracing ts = false := by simpa [isTracing] using ht
    simp [hnt, doneCounted]
  | @beginTracing tid opens ts hroi hts _ hp =>
    have hold := h.threads tid ts hts
    have hok₁ : ThreadOk kn s.roiStarted { ts with isMaster := true } :=
      ⟨hold.done, hold.started, hold.sample, hold.marked, hold.waiting⟩
    refine h.enter hts ?_ rfl (fun _ => rfl) rfl hok₁ ?_ fun _ => rfl
    · rcases hp with hp | hp <;> simp [hp]
    · rcases hp with hp | hp <;> simp [hp]
  | @beginOther tid opens ts hroi hts _ hp =>
    exact h.touch hts rfl (fun _ => rfl) rfl rfl (h.threads tid ts hts).sample rfl rfl
  | @register tid opens ts hts =>
    exact h.touch hts rfl id rfl rfl (h.threads tid ts hts).sample rfl rfl
  | endAlone _ _ => exact h.frame rfl id rfl
  | @endThread tid opens exit ts os _ hts _ =>
    refine h.put hts (by simp [removeInstrumentation, doneCounted])
      (by simp [removeInstrumentation, doneCounted]) ?_ ?_
    · simpa [removeInstrumentation, doneCounted] using (h.threads tid ts hts).stopped
    · have hl := leave_active ts { s with roiEnded := true }
      simpa [removeInstrumentation, doneCounted] using hl
  | @stop tid opens exit ts os hts _ _ _ =>
    refine h.put hts (by simp [doneCounted]) (by simp [doneCounted]) ?_ ?_
    · simpa [doneCounted] using (h.threads tid ts hts).stopped
    · simpa [doneCounted] using leave_active ts s
  | @wake tid opens ts hts _ hroi hp _ =>
    exact h.enter hts (by simp [hp]) rfl id rfl (h.threads tid ts hts) (by simp [hp]) fun _ => hroi
  | @skip l tid opens ts phase n _ hts _ _ =>
    exact h.touch hts rfl id rfl rfl (h.threads tid ts hts).sample rfl rfl
  | @resume l tid opens ts phase n hl hts hp _ =>
    have hold := h.threads tid ts hts
    have hphase : ts.phase = .initialSkip ∨ ts.phase = .interSkip := by
      rcases hl with ⟨rfl, _⟩ | ⟨rfl, _⟩
      · exact .inl hp
      · exact .inr hp
    refine h.enter hts ?_ rfl id rfl hold ?_ (hold.roi_of_skips hphase)
    · rcases hphase with hp | hp <;> simp [hp]
    · rcases hphase with hp | hp <;> simp [hp]
  | @record tid opens ts hts hp _ =>
    exact h.touch hts rfl id rfl rfl (h.threads tid ts hts).sample rfl rfl
  | @finish tid opens exit ts os hts hp _ _ _ =>
    refine h.put hts rfl id (.reachedDone rfl rfl rfl) ?_
    rw [isTracing_finished]
    simp [removeInstrumentation, deactivate, doneCounted, isTracing, hp]
  | @pause tid opens ts hts hp _ _ =>
    refine h.put hts rfl id ((h.threads tid ts hts).paused hp) ?_
    simp [removeInstrumentation, deactivate, isTracing, hp]
  | @restart tid opens ts hts hp _ _ =>
    exact h.touch hts rfl id rfl hp.symm (fun _ => rfl) rfl rfl
  | instrument => exact h.frame rfl id rfl
  | startExcluded => exact h.frame rfl id rfl
  | @startTracing tid opens main n _ hp =>
    obtain ⟨hi, hg⟩ := PinOk.free hok
    refine h.write hi rfl id (fun ts' h' => ?_) ?_
    · cases h'
      exact .newThread_entered hp opens n
    · rw [hg]
      simp [removeInstrumentation, startCounted]
  | @start tid opens main n phase hp hne =>
    obtain ⟨hi, hg⟩ := PinOk.free hok
    have hnt : isTracing (newThread kn phase n) = false := by simpa [isTracing, newThread] using hne
    refine h.write hi rfl id (fun ts' h' => ?_) ?_
    · cases h'
      exact hp ▸ .newThread (hp ▸ hne) n
    · rw [hg]
      simp [hnt]
  | @exit tid opens ts hts =>
    obtain ⟨hi, _⟩ := getState_some hts
    refine h.write hi (by simp) (by simp) (fun _ h => by cases h) ?_
    rw [hts]
    have hl := leave_active ts s
    simpa using hl

/-- A step of the tool is an outcome. -/
theorem outcome_of_step {n : ℕ} {l : Call} {os : List Output}
    (hs : (tracerLts kn n).step s l = some (s', os)) : Outcome kn s l s' os := by
  have hc := @call_cases kn s l
  have he : s.call kn l = (s', os) := Option.some.inj hs
  rw [he] at hc
  exact hc

/-- The threads are accounted for in every reachable state. -/
theorem Accounted.reachable {n : ℕ} (h : (tracerLts kn n).Reachable (PinOk kn) s) :
    Accounted kn s := by
  refine h.invariant (I := Accounted kn) ?_ ?_
  · rintro s rfl
    constructor
    · intro tid ts hts
      obtain ⟨hi, hg⟩ := getState_some hts
      simp [init] at hg
    · simp [init, count]
  · intro s l s' os hI hok hs
    exact hI.step hok (outcome_of_step hs)

end

end Tracer

end Arishem
