import Arishem.Prefetchers.Power7

/-!
# The interference of POWER7 instances

An instance that changes its configuration changes the degrees of all instances. So an access that
keeps its configuration uses the degrees of the instance that changed its configuration last.
-/

namespace Arishem

namespace Power7

open Sharing

section
variable {ι : Type*} [DecidableEq ι]

/-- The accesses of an interleaving of calls, from the constructors of all instances on. -/
def accesses (k : Power7Knobs) (calls : List (ι × Call)) : List (ι × Access) :=
  ((sharing k).interleaved calls (fun _ => Instance.init) (Config.default.degrees k)).1

/-- The accesses of an instance that is alone. -/
def accessesAlone (k : Power7Knobs) (calls : List Call) : List Access :=
  ((sharing k).alone calls Instance.init (Config.default.degrees k)).1

/-- Every instance produces the addresses and settles on the configurations that it does alone, and
every access uses the degrees of its instance's configuration. -/
def Isolated (k : Power7Knobs) (calls : List (ι × Call)) : Prop :=
  (∀ i, (of i (accesses k calls)).map (·.prefAddr) =
      (accessesAlone k (of i calls)).map (·.prefAddr) ∧
    (of i (accesses k calls)).map (·.config) = (accessesAlone k (of i calls)).map (·.config)) ∧
  ∀ a ∈ accesses k calls, a.2.degrees = a.2.config.degrees k

/-- The configuration of the instance that changed its configuration last, if one has. -/
def lastConfig (ms : ι → Machine) : Option ι → Config
  | none => .default
  | some j => (ms j).config

/-- Whenever an access keeps its instance's configuration, the instance that changed its
configuration last has one with the same degrees. The state machines alone decide it. -/
def InTune (k : Power7Knobs) : List (ι × Call) → (ι → Machine) → Option ι → Prop
  | [], _, _ => True
  | (i, x) :: calls, ms, last =>
    ((ms i).endsEpoch k = false → (lastConfig ms last).degrees k = (ms i).config.degrees k) ∧
      InTune k calls (Function.update ms i ((ms i).access k x.cpuCycle))
        (if (ms i).endsEpoch k then some i else last)

end

section
variable {ι : Type*} {k : Power7Knobs} {s : ι → Instance} {knobs : Degrees}

/-- The degrees of an instance's configuration. -/
def own (k : Power7Knobs) (p : Instance) : Degrees := p.config.degrees k

/-- The state machines of the instances. -/
def machines (s : ι → Instance) : ι → Machine := fun i => (s i).toMachine

theorem machines_update [DecidableEq ι] (i : ι) (p : Instance) :
    machines (Function.update s i p) = Function.update (machines s) i p.toMachine := by
  funext j
  by_cases hj : j = i
  · subst hj
    simp [machines]
  · simp [machines, hj]

/-- An access that ends the epoch reads nothing of the knobs. -/
theorem step_of_endsEpoch {p : Instance} (h : p.endsEpoch k = true) (x : Call)
    (knobs knobs' : Degrees) : (sharing k).step x p knobs = (sharing k).step x p knobs' := by
  simp [sharing, invokePrefetcher, h]

/-- The knobs behind an access. -/
theorem step_knobs (x : Call) (p : Instance) : ((sharing k).step x p knobs).2.1 =
    if p.endsEpoch k then own k ((sharing k).step x p knobs).1 else knobs := rfl

/-- The degrees that an access uses are those it leaves in the knobs. -/
theorem step_degrees (x : Call) (p : Instance) :
    ((sharing k).step x p knobs).2.2.degrees = ((sharing k).step x p knobs).2.1 := rfl

/-- The configuration that an access shows is the instance's. -/
theorem step_config (x : Call) (p : Instance) :
    ((sharing k).step x p knobs).2.2.config = ((sharing k).step x p knobs).1.config := rfl

/-- An access that does not end the epoch keeps the degrees of its configuration. -/
theorem own_step {p : Instance} (h : p.endsEpoch k = false) (x : Call) :
    own k ((sharing k).step x p knobs).1 = own k p := by
  have hconfig : ((sharing k).step x p knobs).1.config = p.config :=
    Machine.access_config h x.cpuCycle
  rw [own, own, hconfig]

/-- An instance alone keeps the knobs at its own degrees. -/
theorem step_own (x : Call) (p : Instance) : ((sharing k).step x p (own k p)).2.1 =
    own k ((sharing k).step x p (own k p)).1 := by
  rw [step_knobs]
  split
  · rfl
  · rename_i h
    exact (own_step (by simpa using h) x).symm

/-- Whenever a call keeps its instance's configuration, the knobs hold the degrees of it. -/
def FindsOwn (k : Power7Knobs) (i : ι) (_ : Call) (s : ι → Instance) (knobs : Degrees) : Prop :=
  (s i).endsEpoch k = false → knobs = own k (s i)

/-- A call that finds its own degrees does what it does alone. -/
theorem FindsOwn.asOwn {i : ι} {x : Call} (h : FindsOwn k i x s knobs) :
    (sharing k).AsOwn (own k) i x s knobs := by
  by_cases hend : (s i).endsEpoch k = true
  · rw [AsOwn, step_of_endsEpoch hend x knobs (own k (s i))]
    exact ⟨rfl, rfl⟩
  · rw [h (by simpa using hend)]
    exact ⟨rfl, rfl⟩

/-- A call finds its own degrees if and only if it uses those of its configuration. -/
theorem findsOwn_iff {i : ι} {x : Call} : FindsOwn k i x s knobs ↔
    ((sharing k).step x (s i) knobs).2.2.degrees =
      ((sharing k).step x (s i) knobs).2.2.config.degrees k := by
  rw [step_degrees, step_knobs, step_config]
  by_cases hend : (s i).endsEpoch k = true
  · rw [if_pos hend]
    exact iff_of_true (fun hkeep => absurd (hend.symm.trans hkeep) (by decide)) rfl
  · have hkeep : (s i).endsEpoch k = false := by simpa using hend
    rw [if_neg hend]
    have hown : own k ((sharing k).step x (s i) knobs).1 = own k (s i) := own_step hkeep x
    rw [own] at hown
    rw [hown]
    exact ⟨fun h => h hkeep, fun h _ => h⟩

end

section
variable {ι : Type*} [DecidableEq ι] {k : Power7Knobs} {calls : List (ι × Call)}
variable {s : ι → Instance} {knobs : Degrees} {last : Option ι}

/-- The knobs hold the degrees of the configuration that was put in place last. -/
def Tuned (k : Power7Knobs) (s : ι → Instance) (knobs : Degrees) (last : Option ι) : Prop :=
  knobs = (lastConfig (machines s) last).degrees k

theorem Tuned.step (h : Tuned k s knobs last) (i : ι) (x : Call) :
    Tuned k (Function.update s i ((sharing k).step x (s i) knobs).1)
      ((sharing k).step x (s i) knobs).2.1 (if (s i).endsEpoch k then some i else last) := by
  rw [Tuned, step_knobs, machines_update]
  by_cases hend : (s i).endsEpoch k = true
  · simp only [hend, if_true, lastConfig, Function.update_self]
    rfl
  · rw [if_neg hend, if_neg hend, h]
    have hconfig := Machine.access_config (by simpa using hend) x.cpuCycle
    cases last with
    | none => rfl
    | some j =>
      by_cases hj : j = i
      · subst hj
        simp only [lastConfig, Function.update_self]
        exact congrArg _ hconfig.symm
      · simp only [lastConfig, Function.update_of_ne hj]

theorem inTune_iff (h : Tuned k s knobs last) :
    InTune k calls (machines s) last ↔ (sharing k).Along (FindsOwn k) calls s knobs := by
  induction calls generalizing s knobs last with
  | nil => exact Iff.rfl
  | cons c calls ih =>
    obtain ⟨i, x⟩ := c
    have hrest := ih (h.step i x)
    rw [machines_update] at hrest
    have hknobs : knobs = (lastConfig (machines s) last).degrees k := h
    rw [InTune, ← hknobs]
    exact and_congr Iff.rfl hrest

/-- All calls find their own degrees if and only if all accesses use those of their configuration. -/
theorem along_findsOwn_iff : (sharing k).Along (FindsOwn k) calls s knobs ↔
    ∀ a ∈ ((sharing k).interleaved calls s knobs).1, a.2.degrees = a.2.config.degrees k := by
  induction calls generalizing s knobs with
  | nil => simp [Along, interleaved]
  | cons c calls ih =>
    rw [Along, interleaved, List.forall_mem_cons, ih, findsOwn_iff]

/-- The instances of an interleaving are isolated if and only if they are in tune. -/
theorem isolated_iff (k : Power7Knobs) (calls : List (ι × Call)) :
    Isolated k calls ↔ InTune k calls (fun _ => Machine.init) none := by
  have htuned : Tuned k (fun _ : ι => Instance.init) (Config.default.degrees k) none := rfl
  have hmachines : InTune k calls (machines fun _ => Instance.init) none ↔
      (sharing k).Along (FindsOwn k) calls (fun _ => Instance.init) (Config.default.degrees k) :=
    inTune_iff htuned
  refine ⟨fun h => hmachines.2 (along_findsOwn_iff.2 h.2), fun h => ?_⟩
  have hfinds := hmachines.1 h
  have halone := interleaved_eq_alone step_own (hfinds.mono fun _ _ _ _ => FindsOwn.asOwn)
  refine ⟨fun i => ?_, along_findsOwn_iff.1 hfinds⟩
  have hsame : of i (accesses k calls) = accessesAlone k (of i calls) := (halone i).1
  rw [hsame]
  exact ⟨rfl, rfl⟩

end

/-! ## Two cores -/

/-- Epochs of two accesses, the other knobs as they are by default. -/
def shortEpochs : Power7Knobs := ⟨64, 64, 2, 2, 4⟩

/-- An access to a block of the first page. -/
def touch (offset : UInt64) : Call := ⟨0, offset <<< 6, 0⟩

/-- The second core begins to stream, the first one goes on to the configuration without prefetches,
and the second core's stream finds that one's degrees. -/
def streamUnderOff : List (Bool × Call) :=
  [(true, touch 1), (true, touch 2), (false, touch 0), (false, touch 0), (false, touch 0),
    (false, touch 0), (true, touch 3)]

/-- The instances are not isolated: the second core's last access, in its default configuration,
prefetches nothing where alone it prefetches four blocks. -/
theorem stream_silenced : ¬ Isolated shortEpochs streamUnderOff := by
  intro h
  have hout := (h.1 true).1
  revert hout
  decide +kernel

end Power7

end Arishem
