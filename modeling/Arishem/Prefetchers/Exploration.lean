import Arishem.Prefetchers.Power7
import Mathlib.Logic.Function.Basic

/-!
# Exploring and exploiting

An instance of the POWER7 prefetcher alone. An access that ends an epoch already runs under the next
configuration, so the epoch of a configuration begins with the access that chose it. Fourteen epochs
of one exploration follow each other, and the access after the last one picks the configuration with
the fewest cycles, which stays for the epoch of the exploitation.
-/

namespace Arishem

namespace Power7

section
variable (k : Power7Knobs) (cycle : ℕ → UInt64)

/-- The state machine after `n` accesses, of which the `i`-th reads the cycle `cycle i`. -/
def Machine.after : ℕ → Machine
  | 0 => Machine.init
  | n + 1 => (Machine.after n).access k (cycle n)

/-- The `cycle_stats` with the cycles of the epoch that an access ends. -/
def Machine.noted (cpuCycle : UInt64) (m : Machine) : Config → UInt64 :=
  Function.update m.cycleStats m.config (cpuCycle - m.cycleStamp)

/-- The state machine after an access that ends an epoch. -/
def Machine.changed (cpuCycle : UInt64) (m : Machine) : Machine :=
  match m.mode with
  | .exploit => ⟨.default, .explore, 0, clearCycleStats, cpuCycle⟩
  | .explore =>
    if m.config = .sDeepest then
      ⟨getWinnerConfig (m.noted cpuCycle), .exploit, 0, clearCycleStats, cpuCycle⟩
    else ⟨m.config.next, .explore, 0, m.noted cpuCycle, cpuCycle⟩

/-- The `j`-th configuration. -/
def Config.nth (j : ℕ) : Config := Config.all.getD j .sDeepest

/-- The configurations that are tried out. -/
abbrev numConfigs : ℕ := 14

/-- The length of an exploration epoch. -/
abbrev exploreEpoch : ℕ := k.power7ExploreEpoch.toNat

/-- The length of an exploitation epoch. -/
abbrev exploitEpoch : ℕ := k.power7ExploitEpoch.toNat

/-- The access that begins an exploration. -/
def exploration (r : ℕ) : ℕ :=
  exploitEpoch k - 1 + r * (numConfigs * exploreEpoch k + exploitEpoch k)

/-- The access that begins the epoch of a configuration in an exploration. -/
def epochStart (r j : ℕ) : ℕ := exploration k r + j * exploreEpoch k

/-- In an exploration each configuration is in force for one epoch, in order, the cycles it took are
what is noted for it, and the exploitation that follows is for a configuration with the fewest. -/
structure SettlesOnFastest (r : ℕ) : Prop where
  explores : ∀ j < numConfigs, ∀ i < exploreEpoch k,
    (Machine.after k cycle (epochStart k r j + i + 1)).mode = .explore ∧
      (Machine.after k cycle (epochStart k r j + i + 1)).config = .nth j
  notes : ∀ j < numConfigs,
    ((Machine.after k cycle (epochStart k r (j + 1))).noted (cycle (epochStart k r (j + 1)))
        (.nth j)).toNat =
      (cycle (epochStart k r (j + 1))).toNat - (cycle (epochStart k r j)).toNat
  keeps : ∀ j < numConfigs,
    (Machine.after k cycle (epochStart k r numConfigs)).noted
        (cycle (epochStart k r numConfigs)) (.nth j) =
      (Machine.after k cycle (epochStart k r (j + 1))).noted (cycle (epochStart k r (j + 1)))
        (.nth j)
  exploits : ∃ w, (∀ i < exploitEpoch k,
      (Machine.after k cycle (epochStart k r numConfigs + i + 1)).mode = .exploit ∧
        (Machine.after k cycle (epochStart k r numConfigs + i + 1)).config = w) ∧
    ∀ c, (Machine.after k cycle (epochStart k r numConfigs)).noted
        (cycle (epochStart k r numConfigs)) w ≤
      (Machine.after k cycle (epochStart k r numConfigs)).noted
        (cycle (epochStart k r numConfigs)) c

end

section
variable {k : Power7Knobs} {cycle : ℕ → UInt64} {m : Machine} {n : ℕ}

/-! ## The winner -/

/-- A scan for the least value that moves on at equal ones. -/
theorem foldl_least (f : Config → UInt64) (l : List Config) (best : UInt64 × Config) :
    (l.foldl (fun best c => if f c ≤ best.1 then (f c, c) else best) best = best ∨
        (l.foldl (fun best c => if f c ≤ best.1 then (f c, c) else best) best).1 =
          f (l.foldl (fun best c => if f c ≤ best.1 then (f c, c) else best) best).2) ∧
      (l.foldl (fun best c => if f c ≤ best.1 then (f c, c) else best) best).1 ≤ best.1 ∧
      ∀ c ∈ l, (l.foldl (fun best c => if f c ≤ best.1 then (f c, c) else best) best).1 ≤ f c := by
  induction l generalizing best with
  | nil => exact ⟨.inl rfl, UInt64.le_refl _, by simp⟩
  | cons c l ih =>
    rw [List.foldl_cons]
    by_cases hc : f c ≤ best.1
    · rw [if_pos hc]
      obtain ⟨hval, hle, hall⟩ := ih (f c, c)
      refine ⟨.inr ?_, UInt64.le_trans hle hc, fun d hd => ?_⟩
      · rcases hval with hsame | hval
        · rw [hsame]
        · exact hval
      · rcases List.mem_cons.1 hd with rfl | hd
        · exact hle
        · exact hall d hd
    · rw [if_neg hc]
      obtain ⟨hval, hle, hall⟩ := ih best
      refine ⟨hval, hle, fun d hd => ?_⟩
      rcases List.mem_cons.1 hd with rfl | hd
      · exact UInt64.le_trans hle (UInt64.le_of_lt (UInt64.not_le.1 hc))
      · exact hall d hd

theorem Config.mem_all (c : Config) : c ∈ Config.all := by
  cases c <;> decide

/-- No configuration has fewer cycles than the winner. -/
theorem winner_le (stats : Config → UInt64) (c : Config) :
    stats (getWinnerConfig stats) ≤ stats c := by
  obtain ⟨hval, -, hall⟩ := foldl_least stats Config.all (0xFFFFFFFFFFFFFFFF, .default)
  have hc := hall c c.mem_all
  rw [getWinnerConfig]
  rcases hval with hsame | hval
  · -- nothing was taken, so nothing has fewer cycles than there can be
    rw [hsame] at hc ⊢
    refine UInt64.le_trans ?_ hc
    rw [UInt64.le_iff_toNat_le]
    exact Nat.le_of_lt_succ (stats .default).toNat_lt
  · rwa [← hval]

/-! ## Configurations -/

theorem nth_mem {j : ℕ} (hj : j < numConfigs) : Config.all[j]? = some (.nth j) := by
  rw [Config.nth, List.getD_eq_getElem?_getD, List.getElem?_eq_getElem (by exact hj),
    Option.getD_some]

theorem nth_inj {i j : ℕ} (hi : i < numConfigs) (hj : j < numConfigs)
    (h : Config.nth i = .nth j) : i = j := by
  have hnodup : Config.all.Nodup := by decide
  have heq : Config.all[i]? = Config.all[j]? := by rw [nth_mem hi, nth_mem hj, h]
  exact (List.getElem?_inj (by exact hi) hnodup).1 heq

theorem nth_next {j : ℕ} (hj : j + 1 < numConfigs) : (Config.nth j).next = .nth (j + 1) := by
  have hall : ∀ i : Fin 13, (Config.nth i.val).next = .nth (i.val + 1) := by decide
  exact hall ⟨j, Nat.lt_of_succ_lt_succ hj⟩

theorem nth_ne_last {j : ℕ} (hj : j + 1 < numConfigs) : Config.nth j ≠ .sDeepest := by
  have hlast : Config.nth 13 = .sDeepest := rfl
  rw [← hlast]
  intro h
  have heq := nth_inj (Nat.lt_of_succ_lt hj) (by decide) h
  rw [heq] at hj
  exact absurd hj (by decide)

/-! ## One epoch -/

theorem Machine.after_succ (k : Power7Knobs) (cycle : ℕ → UInt64) (n : ℕ) :
    Machine.after k cycle (n + 1) = (Machine.after k cycle n).access k (cycle n) := rfl

/-- An access ends the epoch when as many as its length have counted. -/
theorem endsEpoch_iff {i : ℕ} (hi : i < (m.epoch k).toNat) :
    { m with accessCounter := .ofNat i }.endsEpoch k = decide ((m.epoch k).toNat ≤ i + 1) := by
  have hbound := (m.epoch k).toNat_lt
  have hsize : UInt64.size = 2 ^ 64 := rfl
  have hcounter : (UInt64.ofNat i + 1).toNat = i + 1 := by
    rw [UInt64.toNat_add, UInt64.toNat_ofNat_of_lt' (by omega), UInt64.toNat_one]
    omega
  have hepoch : { m with accessCounter := .ofNat i }.epoch k = m.epoch k := rfl
  rw [Machine.endsEpoch, hepoch]
  congr 1
  rw [UInt64.le_iff_toNat_le, hcounter, UInt32.toNat_toUInt64]

/-- The accesses of an epoch count up. -/
theorem after_counts (h : Machine.after k cycle n = { m with accessCounter := 0 }) {i : ℕ}
    (hi : i < (m.epoch k).toNat) :
    Machine.after k cycle (n + i) = { m with accessCounter := .ofNat i } := by
  induction i with
  | zero => exact h
  | succ i ih =>
    have hcount := ih (by omega)
    have hend : { m with accessCounter := .ofNat i }.endsEpoch k = false := by
      rw [endsEpoch_iff (by omega), decide_eq_false_iff_not]
      omega
    have hsucc : UInt64.ofNat i + 1 = .ofNat (i + 1) := (UInt64.ofNat_add i 1).symm
    rw [← Nat.add_assoc, Machine.after_succ, hcount, Machine.access, hend,
      if_neg Bool.false_ne_true, hsucc]

/-- The access after an epoch begins the next one. -/
theorem after_epoch (h : Machine.after k cycle n = { m with accessCounter := 0 }) {e : ℕ}
    (he : (m.epoch k).toNat = e + 1) :
    Machine.after k cycle (n + e + 1) = m.changed (cycle (n + e)) := by
  have hcount := after_counts h (i := e) (by omega)
  have hend : { m with accessCounter := .ofNat e }.endsEpoch k = true := by
    rw [endsEpoch_iff (by omega), decide_eq_true_eq]
    exact Nat.le_of_eq he
  rw [Machine.after_succ, hcount, Machine.access, hend, if_pos rfl, Machine.changed]
  cases m.mode <;> rfl

/-! ## Rounds -/

/-- An exploration begins with an access. -/
def Begins (k : Power7Knobs) (cycle : ℕ → UInt64) (a : ℕ) : Prop :=
  Machine.after k cycle (a + 1) = ⟨.default, .explore, 0, clearCycleStats, cycle a⟩

/-- The cycles between the first accesses of two epochs of an exploration. -/
def took (k : Power7Knobs) (cycle : ℕ → UInt64) (a j : ℕ) : UInt64 :=
  cycle (a + (j + 1) * exploreEpoch k) - cycle (a + j * exploreEpoch k)

/-- The epoch of a configuration in an exploration, with what the epochs before it took. -/
theorem explores_from {e : ℕ} (he : exploreEpoch k = e + 1) {a : ℕ} (h : Begins k cycle a) {j : ℕ}
    (hj : j < numConfigs) : ∃ stats, (∀ i < j, stats (.nth i) = took k cycle a i) ∧
      Machine.after k cycle (a + j * exploreEpoch k + 1) =
        ⟨.nth j, .explore, 0, stats, cycle (a + j * exploreEpoch k)⟩ := by
  induction j with
  | zero =>
    rw [Nat.zero_mul, Nat.add_zero]
    exact ⟨clearCycleStats, fun i hi => absurd hi (Nat.not_lt_zero i), h⟩
  | succ j ih =>
    have hj' := Nat.lt_of_succ_lt hj
    obtain ⟨stats, hstats, hafter⟩ := ih hj'
    have hnext := after_epoch (m := ⟨.nth j, .explore, 0, stats,
      cycle (a + j * exploreEpoch k)⟩) hafter he
    have hindex : a + j * exploreEpoch k + 1 + e = a + (j + 1) * exploreEpoch k := by
      rw [Nat.succ_mul, he]
      omega
    rw [hindex] at hnext
    refine ⟨Function.update stats (.nth j) (took k cycle a j), fun i hi => ?_, ?_⟩
    · rcases Nat.lt_succ_iff_lt_or_eq.1 hi with hi | rfl
      · have hne : Config.nth i ≠ .nth j := fun heq =>
          Nat.ne_of_lt hi (nth_inj (Nat.lt_trans hi hj') hj' heq)
        rw [Function.update_of_ne hne]
        exact hstats i hi
      · exact Function.update_self ..
    · rw [hnext, Machine.changed]
      simp only [nth_ne_last hj, if_false, nth_next hj]
      rfl

/-- What is noted when an epoch of an exploration ends. -/
theorem noted_eq {e : ℕ} (he : exploreEpoch k = e + 1) {a : ℕ} (h : Begins k cycle a) {j : ℕ}
    (hj : j < numConfigs) {i : ℕ} (hi : i ≤ j) :
    (Machine.after k cycle (a + (j + 1) * exploreEpoch k)).noted
      (cycle (a + (j + 1) * exploreEpoch k)) (.nth i) = took k cycle a i := by
  obtain ⟨stats, hstats, hafter⟩ := explores_from he h hj
  have hlast := after_counts (m := ⟨.nth j, .explore, 0, stats,
    cycle (a + j * exploreEpoch k)⟩) hafter (i := e) (by
      show e < exploreEpoch k
      omega)
  have hindex : a + j * exploreEpoch k + 1 + e = a + (j + 1) * exploreEpoch k := by
    rw [Nat.succ_mul, he]
    omega
  rw [hindex] at hlast
  rw [hlast, Machine.noted]
  rcases Nat.lt_or_eq_of_le hi with hlt | rfl
  · have hne : Config.nth i ≠ .nth j := fun heq =>
      Nat.ne_of_lt hlt (nth_inj (Nat.lt_trans hlt hj) hj heq)
    rw [Function.update_of_ne hne]
    exact hstats i hlt
  · exact Function.update_self ..

/-- The epoch of the exploitation after an exploration. -/
theorem exploits_from {e : ℕ} (he : exploreEpoch k = e + 1) {a : ℕ} (h : Begins k cycle a) :
    Machine.after k cycle (a + numConfigs * exploreEpoch k + 1) =
      ⟨getWinnerConfig ((Machine.after k cycle (a + numConfigs * exploreEpoch k)).noted
        (cycle (a + numConfigs * exploreEpoch k))), .exploit, 0, clearCycleStats,
        cycle (a + numConfigs * exploreEpoch k)⟩ := by
  obtain ⟨stats, hstats, hafter⟩ := explores_from he h (j := 13) (by decide)
  have hlast := after_counts (m := ⟨.nth 13, .explore, 0, stats,
    cycle (a + 13 * exploreEpoch k)⟩) hafter (i := e) (by
      show e < exploreEpoch k
      omega)
  have hnext := after_epoch (m := ⟨.nth 13, .explore, 0, stats,
    cycle (a + 13 * exploreEpoch k)⟩) hafter he
  have hindex : a + 13 * exploreEpoch k + 1 + e = a + numConfigs * exploreEpoch k := by
    rw [he, show numConfigs = 14 from rfl]
    omega
  rw [hindex] at hlast hnext
  rw [hnext, hlast, Machine.changed]
  rfl

/-- The next exploration begins when the epoch of the exploitation ends. -/
theorem begins_next {e x : ℕ} (he : exploreEpoch k = e + 1) (hx : exploitEpoch k = x + 1) {a : ℕ}
    (h : Begins k cycle a) :
    Begins k cycle (a + (numConfigs * exploreEpoch k + exploitEpoch k)) := by
  have hexploit := exploits_from he h
  have hnext := after_epoch (m := ⟨_, .exploit, 0, clearCycleStats,
    cycle (a + numConfigs * exploreEpoch k)⟩) hexploit hx
  have hindex : a + numConfigs * exploreEpoch k + 1 + x =
      a + (numConfigs * exploreEpoch k + exploitEpoch k) := by
    rw [hx]
    omega
  rw [hindex] at hnext
  exact hnext

/-- Every exploration begins where it should. -/
theorem begins_exploration {e x : ℕ} (he : exploreEpoch k = e + 1) (hx : exploitEpoch k = x + 1)
    (r : ℕ) : Begins k cycle (exploration k r) := by
  induction r with
  | zero =>
    have hfirst : Machine.after k cycle (0 + x + 1) = Machine.init.changed (cycle (0 + x)) :=
      after_epoch rfl hx
    rw [Nat.zero_add] at hfirst
    rw [exploration, Nat.zero_mul, Nat.add_zero, hx]
    exact hfirst
  | succ r ih =>
    have hnext := begins_next he hx ih
    rw [exploration, Nat.succ_mul, ← Nat.add_assoc]
    exact hnext

theorem settlesOnFastest_of_begins {e x : ℕ} (he : exploreEpoch k = e + 1)
    (hx : exploitEpoch k = x + 1) (hmono : ∀ m n, m ≤ n → cycle m ≤ cycle n) (r : ℕ) :
    SettlesOnFastest k cycle r := by
  have hbegins : Begins k cycle (exploration k r) := begins_exploration he hx r
  have hwinner := exploits_from he hbegins
  refine ⟨fun j hj i hi => ?_, fun j hj => ?_, fun j hj => ?_, _, fun i hi => ?_, winner_le _⟩
  · obtain ⟨stats, -, hafter⟩ := explores_from he hbegins hj
    have hcount := after_counts (m := ⟨.nth j, .explore, 0, stats,
      cycle (exploration k r + j * exploreEpoch k)⟩) hafter (i := i) hi
    rw [epochStart, Nat.add_right_comm, hcount]
    exact ⟨rfl, rfl⟩
  · have hle : cycle (epochStart k r j) ≤ cycle (epochStart k r (j + 1)) := by
      refine hmono _ _ (Nat.add_le_add_left ?_ _)
      exact Nat.mul_le_mul_right _ (Nat.le_succ j)
    rw [epochStart, noted_eq he hbegins hj (Nat.le_refl j)]
    exact UInt64.toNat_sub_of_le _ _ hle
  · rw [epochStart, epochStart, noted_eq he hbegins hj (Nat.le_refl j)]
    exact noted_eq he hbegins (j := 13) (by decide) (Nat.le_of_lt_succ hj)
  · have hcount := after_counts (m := ⟨_, .exploit, 0, clearCycleStats,
      cycle (exploration k r + numConfigs * exploreEpoch k)⟩) hwinner (i := i) hi
    rw [epochStart, Nat.add_right_comm, hcount]
    exact ⟨rfl, rfl⟩

/-- With epochs of at least one access and cycles that do not decrease, the accesses before the first
exploration exploit, and every exploration settles on the configuration measured to be fastest. -/
theorem settles_on_fastest (k : Power7Knobs) (hexplore : 0 < exploreEpoch k)
    (hexploit : 0 < exploitEpoch k) (cycle : ℕ → UInt64)
    (hmono : ∀ m n, m ≤ n → cycle m ≤ cycle n) :
    (∀ n < exploration k 0, (Machine.after k cycle (n + 1)).mode = .exploit) ∧
      ∀ r, SettlesOnFastest k cycle r := by
  obtain ⟨e, he⟩ := Nat.exists_eq_add_one.2 hexplore
  obtain ⟨x, hx⟩ := Nat.exists_eq_add_one.2 hexploit
  refine ⟨fun n hn => ?_, settlesOnFastest_of_begins he hx hmono⟩
  rw [exploration, Nat.zero_mul, Nat.add_zero] at hn
  have hlt : n + 1 < exploitEpoch k := by omega
  have hcount : Machine.after k cycle (0 + (n + 1)) =
      { Machine.init with accessCounter := .ofNat (n + 1) } := after_counts rfl hlt
  rw [Nat.zero_add] at hcount
  rw [hcount]
  rfl

/-- Epochs of two and three accesses. -/
def twoThreeEpochs : Power7Knobs where
  streamerNumTrackers := 4
  strideNumTrackers := 4
  power7ExploreEpoch := 2
  power7ExploitEpoch := 3
  power7DefaultStreamerDegree := 5

/-- Readings that rise by a hundred, but for the tenth, which comes sooner. -/
def tenthSooner (n : ℕ) : UInt64 := .ofNat (if n < 10 then 100 * n else 100 * min n 1000 - 90)

theorem tenthSooner_mono (m n : ℕ) (h : m ≤ n) : tenthSooner m ≤ tenthSooner n := by
  have hlt : ∀ n, (if n < 10 then 100 * n else 100 * min n 1000 - 90) < 2 ^ 64 := by
    intro n
    split <;> omega
  rw [UInt64.le_iff_toNat_le, tenthSooner, tenthSooner, UInt64.toNat_ofNat_of_lt' (hlt m),
    UInt64.toNat_ofNat_of_lt' (hlt n)]
  split <;> split <;> omega

/-- The fourth configuration is in force from the eighth to the tenth reading, and the exploitation is
for it. -/
theorem settles_on_fastest_fourth :
    ((∀ n < exploration twoThreeEpochs 0,
        (Machine.after twoThreeEpochs tenthSooner (n + 1)).mode = .exploit) ∧
      ∀ r, SettlesOnFastest twoThreeEpochs tenthSooner r) ∧
    ∀ i < 3, (Machine.after twoThreeEpochs tenthSooner
      (epochStart twoThreeEpochs 0 numConfigs + i + 1)).config = .nth 3 :=
  ⟨settles_on_fastest twoThreeEpochs (by decide) (by decide) tenthSooner tenthSooner_mono,
    by decide +kernel⟩

end

end Power7

end Arishem
