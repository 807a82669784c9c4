import Mathlib.Logic.Function.Basic
import Arishem.Tracer.Threads

/-!
# The samples of the threads

What a thread's state says about its sample files. The files are read off the outputs of a run: each
thread that starts begins without files, a sample that is opened adds an empty one, and a record goes
to the newest one. In every run whose files can be opened, a thread has an open file exactly in
TRACING, this file lacks as many records as `counter` says, and each sample of `samples_collected`
has `trace_per_sample` of them.
-/

namespace Arishem

/-- The sample files of the threads, by the number of their records, the newest first. -/
abbrev SampleFiles := ℕ → List ℕ

/-- The newest file has one more record. -/
def addRecord : List ℕ → List ℕ
  | [] => []
  | n :: files => (n + 1) :: files

/-- What an output does to the sample files. -/
def Output.write (files : SampleFiles) : Output → SampleFiles
  | .openSample tid => Function.update files tid (0 :: files tid)
  | .record tid => Function.update files tid (addRecord (files tid))
  | .exitApplication => files

/-- A thread that starts has no files. -/
def Callback.begin (files : SampleFiles) : Callback → SampleFiles
  | .threadStart tid => Function.update files tid []
  | _ => files

/-- The sample files after a callback. -/
def SampleFiles.next (files : SampleFiles) (x : Call × List Output) : SampleFiles :=
  x.2.foldl Output.write (x.1.1.begin files)

/-- The sample files of the threads after what happened on a run. -/
def sampleFiles (tr : Lts.Trace Call Output) : SampleFiles :=
  tr.foldl SampleFiles.next fun _ => []

namespace Tracer

/-- The sample files can be opened. -/
def FilesOpen (kn : Knobs) (s : Tracer) (l : Call) : Prop := PinOk kn s l ∧ l.2 = true

instance (kn : Knobs) (s : Tracer) (l : Call) : Decidable (FilesOpen kn s l) := by
  unfold FilesOpen
  infer_instance

/-- The state of a thread agrees with its sample files: `collected` of them are complete, and
`current` is the file that is being written or, in DONE, was cut off. -/
structure Sampled (files : List ℕ) (ts : ThreadState) (current : List ℕ) (collected : ℕ) :
    Prop where
  written : files = current ++ List.replicate collected ts.tracePerSample.toNat
  counted : ts.samplesCollected = UInt64.ofNat collected
  fileOpen : ts.sampleOpen = true ↔ ts.phase = .tracing
  begun : ts.phase = .tracing → current = [ts.tracePerSample.toNat - ts.counter.toNat]
  none : ts.phase ≠ .tracing → ts.phase ≠ .done → current = []
  one : current.length ≤ 1
  counter : ts.phase = .tracing → 1 ≤ ts.counter ∧ ts.counter ≤ ts.tracePerSample
  perSample : 1 ≤ ts.tracePerSample
  limit : 0 < ts.sampleLimit → ts.samplesCollected ≤ ts.sampleLimit
  done : 0 < ts.sampleLimit → ts.samplesCollected = ts.sampleLimit → ts.phase = .done

/-- Every thread agrees with its sample files. -/
def AllSampled (s : Tracer) (files : SampleFiles) : Prop :=
  ∀ tid ts, s.getState tid = some ts → ∃ current collected,
    Sampled (files tid) ts current collected

section
variable {kn : Knobs} {s s' : Tracer} {tid : ℕ} {ts ts' : ThreadState} {files files' : SampleFiles}
variable {current : List ℕ} {fs : List ℕ} {collected : ℕ}

/-! ## The files that the outputs write -/

/-- The exit of the tool writes no file. -/
theorem foldl_write_exit {os : List Output} (h : ∀ o ∈ os, o = .exitApplication) :
    os.foldl Output.write files = files := by
  induction os with
  | nil => rfl
  | cons o os ih =>
    have ho : o = .exitApplication := h o (by simp)
    subst ho
    exact ih fun o ho => h o (List.mem_cons_of_mem _ ho)

/-- A sample is opened. -/
@[simp] theorem foldl_write_open : (ThreadState.openOutputs true tid).foldl Output.write files =
    Function.update files tid (0 :: files tid) := rfl

/-- A record is written to an open sample. -/
theorem foldl_write_commit (h : ts.sampleOpen = true) :
    (ts.commitOutputs tid).foldl Output.write files =
      Function.update files tid (addRecord (files tid)) := by
  rw [ThreadState.commitOutputs, if_pos h]
  rfl

/-! ## The threads agree with their files -/

/-- A thread in TRACING writes a file that lacks `counter` records. -/
theorem Sampled.tracing (h : Sampled fs ts current collected) (hp : ts.phase = .tracing) :
    fs = (ts.tracePerSample.toNat - ts.counter.toNat) ::
      List.replicate collected ts.tracePerSample.toNat := by
  rw [h.written, h.begun hp]
  rfl

/-- A thread below its quota collects one more sample without passing it. -/
theorem Sampled.room (h : Sampled fs ts current collected) (hp : ts.phase = .tracing)
    (hl : 0 < ts.sampleLimit) :
    (ts.samplesCollected + 1).toNat = ts.samplesCollected.toNat + 1 ∧
      ts.samplesCollected + 1 ≤ ts.sampleLimit := by
  have hle : ts.samplesCollected.toNat ≤ ts.sampleLimit.toNat := UInt64.le_iff_toNat_le.1 (h.limit hl)
  have hne : ts.samplesCollected.toNat ≠ ts.sampleLimit.toNat := by
    intro he
    have hd := h.done hl (UInt64.toNat_inj.1 he)
    rw [hp] at hd
    cases hd
  have hlt := ts.sampleLimit.toNat_lt
  have hadd : (ts.samplesCollected + 1).toNat = ts.samplesCollected.toNat + 1 := by
    rw [UInt64.toNat_add]
    exact Nat.mod_eq_of_lt (by simp; omega)
  refine ⟨hadd, UInt64.le_iff_toNat_le.2 ?_⟩
  omega

/-- A thread whose sample is not the last one stays below its quota. -/
theorem below_quota (hq : ¬ ts.quotaReached) (hl : 0 < ts.sampleLimit) :
    ts.samplesCollected + 1 ≠ ts.sampleLimit := by
  intro he
  exact hq ⟨hl, he ▸ UInt64.le_refl _⟩

/-- A thread that starts. -/
theorem Sampled.born {phase : Phase} {n : UInt64} (hn : 1 ≤ kn.traceInstructions)
    (hp : phase ≠ .tracing) : Sampled [] (newThread kn phase n) [] 0 where
  written := rfl
  counted := rfl
  fileOpen := ⟨nofun, fun h => absurd h hp⟩
  begun h := absurd h hp
  none _ _ := rfl
  one := Nat.zero_le _
  counter h := absurd h hp
  perSample := hn
  limit _ := UInt64.zero_le
  done h he := by
    have h0 : (0 : UInt64) = kn.numSamples := he
    have hl : 0 < kn.numSamples := h
    rw [← h0] at hl
    exact absurd hl (UInt64.lt_irrefl _)

/-- A thread that starts in TRACING has an empty file. -/
theorem Sampled.bornTracing {n : UInt64} (hn : 1 ≤ kn.traceInstructions) :
    Sampled [0] ((newThread kn .tracing n).entered true) [0] 0 := by
  have h : Sampled [] (newThread kn .done n) [] 0 := .born hn (by simp)
  refine ⟨rfl, rfl, ⟨fun _ => rfl, fun _ => rfl⟩, fun _ => ?_, fun hp => absurd rfl hp, le_refl _,
    fun _ => ⟨hn, UInt64.le_refl _⟩, hn, h.limit, ?_⟩
  · simp [ThreadState.entered]
  · intro hl he
    have h0 : (0 : UInt64) = kn.numSamples := he
    have hl' : 0 < kn.numSamples := hl
    rw [← h0] at hl'
    exact absurd hl' (UInt64.lt_irrefl _)

/-- A thread that enters TRACING opens a file. -/
theorem Sampled.entered (h : Sampled fs ts current collected) (ht : ts.phase ≠ .tracing)
    (hd : ts.phase ≠ .done) : Sampled (0 :: fs) (ts.entered true) [0] collected := by
  have hfiles : fs = List.replicate collected ts.tracePerSample.toNat := by
    rw [h.written, h.none ht hd]
    rfl
  refine ⟨by rw [hfiles]; rfl, h.counted, ⟨fun _ => rfl, fun _ => rfl⟩, fun _ => ?_,
    fun hp => absurd rfl hp, le_refl _, fun _ => ⟨h.perSample, UInt64.le_refl _⟩, h.perSample,
    h.limit, fun hl he => absurd (h.done hl he) hd⟩
  simp [ThreadState.entered]

/-- A thread that is taken to DONE leaves its file as it is. -/
theorem Sampled.toDone (h : Sampled fs ts current collected) (ht : ts'.phase = .done)
    (ho : ts'.sampleOpen = false) (hc : ts'.samplesCollected = ts.samplesCollected)
    (hn : ts'.tracePerSample = ts.tracePerSample) (hl : ts'.sampleLimit = ts.sampleLimit) :
    Sampled fs ts' current collected := by
  refine ⟨hn ▸ h.written, hc ▸ h.counted, ?_, ?_, ?_, h.one, ?_, hn ▸ h.perSample, ?_,
    fun _ _ => ht⟩
  · simp [ho, ht]
  · simp [ht]
  · simp [ht]
  · simp [ht]
  · rw [hl, hc]
    exact h.limit

/-- A thread whose sample is closed at the end of the ROI. -/
theorem Sampled.stopped (h : Sampled fs ts current collected) :
    Sampled fs ts.stopped current collected := by
  rw [ThreadState.stopped]
  split
  · exact h.toDone rfl rfl rfl rfl rfl
  · rename_i hp
    have ho : ts.sampleOpen = false := by
      cases hs : ts.sampleOpen with
      | false => rfl
      | true => exact absurd (h.fileOpen.1 hs) hp
    exact h.toDone rfl ho rfl rfl rfl

/-- An instruction of a skip is counted. -/
theorem Sampled.skip {n : UInt64} (h : Sampled fs ts current collected) (ht : ts.phase ≠ .tracing) :
    Sampled fs { ts with counter := n } current collected :=
  ⟨h.written, h.counted, h.fileOpen, fun hp => absurd hp ht, h.none, h.one,
    fun hp => absurd hp ht, h.perSample, h.limit, h.done⟩

/-- Whether a thread is the master does not matter. -/
theorem Sampled.master (h : Sampled fs ts current collected) (b : Bool) :
    Sampled fs { ts with isMaster := b } current collected :=
  ⟨h.written, h.counted, h.fileOpen, h.begun, h.none, h.one, h.counter, h.perSample, h.limit, h.done⟩

/-- Whether a thread is registered does not matter. -/
theorem Sampled.worker (h : Sampled fs ts current collected) (b : Bool) :
    Sampled fs { ts with isRegisteredWorker := b } current collected :=
  ⟨h.written, h.counted, h.fileOpen, h.begun, h.none, h.one, h.counter, h.perSample, h.limit, h.done⟩

/-- A record goes to the file that is being written. -/
theorem Sampled.record (h : Sampled fs ts current collected) (hp : ts.phase = .tracing)
    (hc : ts.counter - 1 ≠ 0) :
    Sampled (addRecord fs) { ts with counter := ts.counter - 1 }
      [ts.tracePerSample.toNat - (ts.counter - 1).toNat] collected := by
  obtain ⟨h₁, hle⟩ := h.counter hp
  have hsub : (ts.counter - 1).toNat = ts.counter.toNat - 1 := UInt64.toNat_sub_of_le _ _ h₁
  have h₁' : 1 ≤ ts.counter.toNat := UInt64.le_iff_toNat_le.1 h₁
  have hle' : ts.counter.toNat ≤ ts.tracePerSample.toNat := UInt64.le_iff_toNat_le.1 hle
  refine ⟨?_, h.counted, h.fileOpen, fun _ => rfl, fun hn => absurd hp hn, le_refl _, fun _ => ?_,
    h.perSample, h.limit, h.done⟩
  · rw [h.tracing hp, addRecord, hsub]
    simp only [List.cons_append, List.nil_append, List.cons.injEq, and_true]
    omega
  · have hne : (ts.counter - 1).toNat ≠ 0 := fun h0 => hc (UInt64.toNat_inj.1 h0)
    have h₂ : (1 : UInt64).toNat ≤ (ts.counter - 1).toNat := by
      rw [UInt64.toNat_one]
      omega
    have hle₂ : (ts.counter - 1).toNat ≤ ts.tracePerSample.toNat := by omega
    exact ⟨UInt64.le_iff_toNat_le.2 h₂, UInt64.le_iff_toNat_le.2 hle₂⟩

/-- The last record completes the file. -/
theorem Sampled.complete (h : Sampled fs ts current collected) (hp : ts.phase = .tracing)
    (hc : ts.counter - 1 = 0) :
    addRecord fs = List.replicate (collected + 1) ts.tracePerSample.toNat ∧
      ts.samplesCollected + 1 = UInt64.ofNat (collected + 1) := by
  obtain ⟨h₁, hle⟩ := h.counter hp
  have hsub : (ts.counter - 1).toNat = ts.counter.toNat - 1 := UInt64.toNat_sub_of_le _ _ h₁
  rw [hc, UInt64.toNat_zero] at hsub
  have h₁' : 1 ≤ ts.counter.toNat := UInt64.le_iff_toNat_le.1 h₁
  have hle' : ts.counter.toNat ≤ ts.tracePerSample.toNat := UInt64.le_iff_toNat_le.1 hle
  constructor
  · rw [h.tracing hp, addRecord, List.replicate_succ, List.cons.injEq]
    exact ⟨by omega, rfl⟩
  · rw [h.counted, UInt64.ofNat_add]
    rfl

/-- The last sample of the quota is complete. -/
theorem Sampled.finish (h : Sampled fs ts current collected) (hp : ts.phase = .tracing)
    (hc : ts.counter - 1 = 0) :
    Sampled (addRecord fs) { ts.sampleClosed with counter := 0 }.finished [] (collected + 1) := by
  obtain ⟨hf, hs⟩ := h.complete hp hc
  exact ⟨hf, hs, ⟨nofun, nofun⟩, nofun, fun _ _ => rfl, Nat.zero_le _, nofun, h.perSample,
    fun hl => (h.room hp hl).2, fun _ _ => rfl⟩

/-- A sample is complete and the thread skips. -/
theorem Sampled.pause {n : UInt64} (h : Sampled fs ts current collected) (hp : ts.phase = .tracing)
    (hc : ts.counter - 1 = 0) (hq : ¬ ts.quotaReached) :
    Sampled (addRecord fs) { ts.sampleClosed with phase := .interSkip, counter := n } []
      (collected + 1) := by
  obtain ⟨hf, hs⟩ := h.complete hp hc
  exact ⟨hf, hs, ⟨nofun, nofun⟩, nofun, fun _ _ => rfl, Nat.zero_le _, nofun, h.perSample,
    fun hl => (h.room hp hl).2, fun hl he => absurd he (below_quota hq hl)⟩

/-- A sample is complete and the next one is opened. -/
theorem Sampled.restart (h : Sampled fs ts current collected) (hp : ts.phase = .tracing)
    (hc : ts.counter - 1 = 0) (hq : ¬ ts.quotaReached) :
    Sampled (0 :: addRecord fs) (ts.sampleClosed.startWindow.openNextSample true) [0]
      (collected + 1) := by
  obtain ⟨hf, hs⟩ := h.complete hp hc
  refine ⟨by rw [hf]; rfl, hs, ⟨fun _ => rfl, fun _ => rfl⟩, fun _ => ?_, fun hn => absurd rfl hn,
    le_refl _, fun _ => ⟨h.perSample, UInt64.le_refl _⟩, h.perSample, fun hl => (h.room hp hl).2,
    fun hl he => absurd he (below_quota hq hl)⟩
  simp [ThreadState.openNextSample, ThreadState.startWindow]

/-! ## The callbacks keep the agreement -/

/-- The state of one thread is written, and only its files. -/
theorem AllSampled.write (h : AllSampled s files) {t : Option ThreadState}
    (hi : tid < s.threadStates.length) (hthreads : s'.threadStates = s.threadStates)
    (hfiles : ∀ tid', tid' ≠ tid → files' tid' = files tid')
    (hok : ∀ ts', t = some ts' → ∃ current collected, Sampled (files' tid) ts' current collected) :
    AllSampled (s'.setState tid t) files' := by
  intro tid' ts' hts'
  rw [getState_setState (hthreads ▸ hi)] at hts'
  split at hts'
  · rename_i he
    subst he
    exact hok ts' hts'
  · rename_i hne
    rw [hfiles tid' (Ne.symm hne)]
    refine h tid' ts' ?_
    rw [← hts', getState, getState, hthreads]

/-- A thread is written that writes no file. -/
theorem AllSampled.put (h : AllSampled s files) (hts : s.getState tid = some ts)
    (hthreads : s'.threadStates = s.threadStates)
    (hok : ∀ current collected, Sampled (files tid) ts current collected →
      Sampled (files tid) ts' current collected) :
    AllSampled (s'.setState tid (some ts')) files := by
  obtain ⟨hi, _⟩ := getState_some hts
  obtain ⟨current, collected, hold⟩ := h tid ts hts
  refine h.write hi hthreads (fun _ _ => rfl) fun ts₁ h₁ => ?_
  cases h₁
  exact ⟨current, collected, hok current collected hold⟩

/-- A thread is written that writes its files. -/
theorem AllSampled.update (h : AllSampled s files) (hts : s.getState tid = some ts)
    (hthreads : s'.threadStates = s.threadStates)
    (hok : ∀ current collected, Sampled (files tid) ts current collected →
      ∃ current' collected', Sampled fs ts' current' collected') :
    AllSampled (s'.setState tid (some ts')) (Function.update files tid fs) := by
  obtain ⟨hi, _⟩ := getState_some hts
  obtain ⟨current, collected, hold⟩ := h tid ts hts
  refine h.write hi hthreads (fun _ hne => Function.update_of_ne hne _ _) fun ts₁ h₁ => ?_
  cases h₁
  rw [Function.update_self]
  exact hok current collected hold

/-- A step that leaves the threads alone. -/
theorem AllSampled.frame (h : AllSampled s files) (hthreads : s'.threadStates = s.threadStates) :
    AllSampled s' files := by
  intro tid ts hts
  exact h tid ts (by rw [← hts, getState, getState, hthreads])

/-- A thread starts under an id that is free. -/
theorem AllSampled.begin (h : AllSampled s files) {l : Call} (hpin : PinOk kn s l) :
    AllSampled s (l.1.begin files) := by
  obtain ⟨callback, opens⟩ := l
  cases callback with
  | threadStart tid =>
    obtain ⟨hi, hg⟩ := PinOk.free hpin
    intro tid' ts hts
    have hne : tid' ≠ tid := by
      rintro rfl
      rw [hg] at hts
      cases hts
    rw [Callback.begin, Function.update_of_ne hne]
    exact h tid' ts hts
  | _ => exact h

/-- Every callback keeps the agreement. -/
theorem AllSampled.step (h : AllSampled s files) (ha : Accounted kn s) {l : Call}
    {os : List Output} (hn : 1 ≤ kn.traceInstructions) (hok : FilesOpen kn s l)
    (hs : Outcome kn s l s' os) : AllSampled s' (files.next (l, os)) := by
  obtain ⟨hpin, hopens⟩ := hok
  have hb : AllSampled s (l.1.begin files) := h.begin hpin
  have hbegin : ∀ tid, l.1 = .threadStart tid → l.1.begin files tid = [] := by
    intro tid hl
    rw [hl, Callback.begin, Function.update_self]
  rw [SampleFiles.next]
  generalize l.1.begin files = files at hb hbegin
  cases hs with
  | idle => exact hb
  | beginAlone _ _ => exact hb.frame rfl
  | @beginSkipped tid opens exit ts os hroi hts _ ho =>
    have hold := ha.threads tid ts hts
    -- with markers no thread traces before the ROI
    have ht : ts.phase ≠ .tracing := by
      rcases hold.waiting hpin hroi with hp | hp <;> simp [hp]
    rw [foldl_write_exit ho.only]
    exact hb.put hts rfl fun _ _ hs => hs.toDone rfl (hold.closed ht) rfl rfl rfl
  | @beginTracing tid opens ts hroi hts _ hp =>
    obtain rfl : opens = true := hopens
    have ht : ts.phase ≠ .tracing ∧ ts.phase ≠ .done := by rcases hp with hp | hp <;> simp [hp]
    rw [foldl_write_open]
    exact hb.update hts rfl fun _ n hs => ⟨[0], n, (hs.master true).entered ht.1 ht.2⟩
  | @beginOther tid opens ts hroi hts _ hp => exact hb.put hts rfl fun _ _ hs => hs.master true
  | @register tid opens ts hts => exact hb.put hts rfl fun _ _ hs => hs.worker true
  | endAlone _ _ => exact hb.frame rfl
  | @endThread tid opens exit ts os _ hts ho =>
    rw [foldl_write_exit ho.only]
    exact hb.put hts (leave_threadStates (s := { s with roiEnded := true })) fun _ _ hs => hs.stopped
  | @stop tid opens exit ts os hts _ _ ho =>
    rw [foldl_write_exit ho.only]
    exact hb.put hts leave_threadStates fun _ _ hs => hs.stopped
  | @wake tid opens ts hts _ hroi hp _ =>
    obtain rfl : opens = true := hopens
    rw [foldl_write_open]
    exact hb.update hts rfl fun _ n hs => ⟨[0], n, hs.entered (by simp [hp]) (by simp [hp])⟩
  | @skip l tid opens ts phase n hl hts hp _ =>
    have ht : ts.phase ≠ .tracing := by
      rcases hl with ⟨rfl, _⟩ | ⟨rfl, _⟩ <;> simp [hp]
    exact hb.put hts rfl fun _ _ hs => hs.skip ht
  | @resume l tid opens ts phase n hl hts hp _ =>
    have ht : ts.phase ≠ .tracing ∧ ts.phase ≠ .done := by
      rcases hl with ⟨rfl, _⟩ | ⟨rfl, _⟩ <;> simp [hp]
    obtain rfl : opens = true := by
      rcases hl with ⟨_, rfl⟩ | ⟨_, rfl⟩ <;> exact hopens
    rw [foldl_write_open]
    exact hb.update hts rfl fun _ n hs => ⟨[0], n, hs.entered ht.1 ht.2⟩
  | @record tid opens ts hts hp hc =>
    obtain ⟨_, _, hold⟩ := hb tid ts hts
    rw [foldl_write_commit (hold.fileOpen.2 hp)]
    exact hb.update hts rfl fun _ n hs => ⟨_, n, hs.record hp hc⟩
  | @finish tid opens exit ts os hts hp hc hq ho =>
    obtain ⟨_, _, hold⟩ := hb tid ts hts
    rw [List.foldl_append, foldl_write_commit (hold.fileOpen.2 hp), foldl_write_exit ho.only]
    exact hb.update hts rfl fun _ n hs => ⟨[], n + 1, hs.finish hp hc⟩
  | @pause tid opens ts hts hp hc hq =>
    obtain ⟨_, _, hold⟩ := hb tid ts hts
    rw [foldl_write_commit (hold.fileOpen.2 hp)]
    exact hb.update hts rfl fun _ n hs => ⟨[], n + 1, hs.pause hp hc hq⟩
  | @restart tid opens ts hts hp hc hq =>
    obtain rfl : opens = true := hopens
    obtain ⟨_, _, hold⟩ := hb tid ts hts
    rw [List.foldl_append, foldl_write_commit (hold.fileOpen.2 hp), foldl_write_open,
      Function.update_self, Function.update_idem]
    exact hb.update hts rfl fun _ n hs => ⟨[0], n + 1, hs.restart hp hc hq⟩
  | instrument => exact hb.frame rfl
  | startExcluded => exact hb.frame rfl
  | @startTracing tid opens main n _ hp =>
    obtain rfl : opens = true := hopens
    obtain ⟨hi, hg⟩ := PinOk.free hpin
    rw [foldl_write_open, hbegin tid rfl]
    refine hb.write hi rfl (fun _ hne => Function.update_of_ne hne _ _) fun ts₁ h₁ => ?_
    cases h₁
    rw [Function.update_self]
    exact ⟨[0], 0, .bornTracing hn⟩
  | @start tid opens main n phase hp hne =>
    obtain ⟨hi, hg⟩ := PinOk.free hpin
    refine hb.write hi rfl (fun _ _ => rfl) fun ts₁ h₁ => ?_
    cases h₁
    refine ⟨[], 0, ?_⟩
    have hf : files tid = [] := hbegin tid rfl
    rw [List.foldl_nil, hf]
    exact .born hn hne
  | @exit tid opens ts hts =>
    obtain ⟨hi, _⟩ := getState_some hts
    exact hb.write hi leave_threadStates (fun _ _ => rfl) nofun

/-- The threads agree with their sample files in every run whose files can be opened. -/
theorem AllSampled.run {n : ℕ} {tr : Lts.Trace Call Output} (hn : 1 ≤ kn.traceInstructions)
    (h : (tracerLts kn n).Run (FilesOpen kn) s tr) : AllSampled s (sampleFiles tr) := by
  refine h.induct (P := fun s tr => AllSampled s (sampleFiles tr)) ?_ ?_
  · rintro s rfl tid ts hts
    obtain ⟨hi, hg⟩ := getState_some hts
    simp [init] at hg
  · intro s tr l s' os hr hI hok hs
    have ha : Accounted kn s := Accounted.reachable ⟨tr, hr.mono fun _ _ hl => hl.1⟩
    have hstep := hI.step ha hn hok (outcome_of_step hs)
    rw [sampleFiles, List.foldl_append]
    exact hstep

end

end Tracer

/-- The samples are accounted for: in every run whose files can be opened, the threads in TRACING are
counted; a thread has an open file exactly in TRACING, and this file has `trace_per_sample - counter`
records; each of the `samples_collected` samples has `trace_per_sample` records; and a thread with a
limit never passes it and is done at it. -/
theorem samples_accounted (kn : Knobs) (maxThreads : ℕ) (hn : 1 ≤ kn.traceInstructions) (s : Tracer)
    (tr : Lts.Trace Call Output)
    (h : (tracerLts kn maxThreads).Run (Tracer.FilesOpen kn) s tr) :
    s.activeTracingThreads = s.count Tracer.isTracing ∧
      ∀ tid ts, s.getState tid = some ts →
        (ts.sampleOpen = true ↔ ts.phase = .tracing) ∧
        (ts.phase = .tracing → ts.counter ≤ ts.tracePerSample ∧ ∃ complete, sampleFiles tr tid =
          (ts.tracePerSample.toNat - ts.counter.toNat) :: complete) ∧
        (∃ current collected, current.length ≤ 1 ∧
          ts.samplesCollected = UInt64.ofNat collected ∧
          sampleFiles tr tid = current ++ List.replicate collected ts.tracePerSample.toNat) ∧
        (0 < ts.sampleLimit → ts.samplesCollected ≤ ts.sampleLimit ∧
          (ts.samplesCollected = ts.sampleLimit → ts.phase = .done)) := by
  have ha : Tracer.Accounted kn s := .reachable ⟨tr, h.mono fun _ _ hl => hl.1⟩
  refine ⟨ha.active, fun tid ts hts => ?_⟩
  obtain ⟨current, collected, hs⟩ := Tracer.AllSampled.run hn h tid ts hts
  exact ⟨hs.fileOpen, fun hp => ⟨(hs.counter hp).2, _, hs.tracing hp⟩,
    ⟨current, collected, hs.one, hs.counted, hs.written⟩, fun hl => ⟨hs.limit hl, hs.done hl⟩⟩

/-- The knobs of a run without markers: two samples of two instructions, with a skip between. -/
def twoSamples : Knobs where
  useMarkers := false
  initialSkip := 0
  interSampleSkip := 3
  traceInstructions := 2
  numSamples := 2
  mainThreadOnly := false
  exitOnDone := false
  skipMasterTracing := false
  traceOnlyRegisteredWorkers := false

/-- A thread in its second sample: one sample is complete, the other has one record. -/
theorem samples_accounted_second :
    ∃ (s : Tracer) (tr : Lts.Trace Call Output), sampleFiles tr 0 = [1, 2] ∧
      s.activeTracingThreads = s.count Tracer.isTracing ∧
      ∃ ts, s.getState 0 = some ts ∧ ts.samplesCollected = 1 ∧
        (ts.sampleOpen = true ↔ ts.phase = .tracing) := by
  obtain ⟨s, tr, hr, hp⟩ := Lts.run_of_exec (tracerLts twoSamples 1) (Tracer.FilesOpen twoSamples)
    (fun s tr => sampleFiles tr 0 = [1, 2] ∧
      (s.getState 0).map (·.samplesCollected) = some 1)
    ([.threadStart 0, .recordInstrCommit 0, .recordInstrCommit 0, .fastForwardInter 0 2,
      .fastForwardInter 0 2, .recordInstrCommit 0].map (·, true)) rfl (by decide +kernel)
  obtain ⟨hf, hc⟩ := of_decide_eq_true hp
  obtain ⟨ts, hts, hts'⟩ := Option.map_eq_some_iff.1 hc
  obtain ⟨ha, hall⟩ := samples_accounted twoSamples 1 (by decide) s tr hr
  exact ⟨s, tr, hf, ha, ts, hts, hts', (hall 0 ts hts).1⟩

end Arishem
