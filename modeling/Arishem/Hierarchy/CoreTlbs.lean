import Arishem.Hierarchy.Invalidation
import Arishem.Hierarchy.Translates

/-!
# The TLBs of a core

The ITLB, the DTLB and the STLB of a core hold translations, and so do the answers on their way. A
walk adds an answered miss, and the calls of `invalidate_entry` after a swap take blocks out.
-/

namespace Arishem

section
variable {n cpu : ℕ} {env : Env} {t : Turn Side} {m m' : Machine Side} {evs : List Event}
variable {T : Addr → UInt64 → Prop} {p : Packet}

/-- A call between the TLBs. -/
def CallTranslates (T : Addr → UInt64 → Prop) : LevelCall → Prop
  | .below (.addRq p) => p.type ≠ .prefetch
  | .below _ => False
  | .above p => T p.address p.data

/-- The TLBs of a core whose translations satisfy `T`. -/
structure Translating (n cpu : ℕ) (T : Addr → UInt64 → Prop) (m : Machine Side) : Prop where
  backed : (coreTlbs n cpu).Backed m
  caches : ∀ x, Translates T T (m.cache x)
  calls : ∀ k ∈ m.calls, CallTranslates T k

/-- The caches of the machine are TLBs. -/
theorem coreTlbs_isTlb (x : Option Side) : ((coreTlbs n cpu).config x).isTlb = true := by
  cases x with
  | none => rfl
  | some u => cases u <;> rfl

/-- Each TLB has its table well kept. -/
theorem Wiring.Backed.mshr (h : (coreTlbs n cpu).Backed m) (x : Option Side) :
    MshrOk ((coreTlbs n cpu).config x) (m.cache x) := by
  cases x with
  | none => exact h.lower.mshr
  | some u => exact (h.upper u).mshr

/-- The TLBs stay together with their misses in a turn. -/
theorem Wiring.Backed.turn (h : (coreTlbs n cpu).Backed m)
    (hc : (coreTlbs n cpu).Contract m (env, t))
    (hs : (coreTlbs n cpu).step m (env, t) = some (m', evs)) : (coreTlbs n cpu).Backed m' :=
  h.step hc (SecondLevel.not_misdirects h hc) (Wiring.step_cases hs)

/-- The turns of the TLBs keep the contract of the caches. -/
theorem tlbTurn_contract {cfg : PagingConfig} (ht : MemorySystem.TlbTurn cfg cpu t) :
    (coreTlbs cfg.numCpus cpu).Contract m (env, t) := by
  cases t with
  | upper u a =>
    cases a with
    | addRq | addWq | addPq | prefetchLine | returnData => first | exact ht | exact ht.elim
    | invalidateEntry | updateRob | handleFill | handleWriteback | startReads | readOne
    | prefetchOne => trivial
  | lower a =>
    cases a with
    | addRq | addWq | addPq | prefetchLine | returnData => exact ht.elim
    | invalidateEntry | updateRob | handleFill | handleWriteback | startReads | readOne
    | prefetchOne => trivial
  | call => trivial

/-- The parts of `operate` are allowed to a TLB whose level below walks no page table. -/
theorem tlbMay_operates {a : Action} {cfg : Config} {c : Cache} {P : Addr → UInt64 → Prop}
    (ha : MemorySystem.Operates a)
    (hw : a = .readOne → cfg.hasLower = false → ∀ p, c.walking cfg env = some p →
      P p.address (env.physicalAddress >>> log2PageSize)) : TlbMay P cfg env c a := by
  cases a with
  | addRq | addWq | addPq | prefetchLine | returnData | invalidateEntry => exact ha.elim
  | updateRob | handleFill | handleWriteback | startReads | prefetchOne => trivial
  | readOne => exact hw rfl

/-- The calls that a turn of the ITLB or the DTLB leaves. -/
theorem callTranslates_below {cfg : Config} (h : ∀ ev ∈ evs, TlbEvent T cfg ev) :
    ∀ k ∈ evs.filterMap Event.below, CallTranslates T k := by
  intro k hk
  obtain ⟨ev, hev, he⟩ := List.mem_filterMap.1 hk
  have hT := h ev hev
  cases ev with
  | lowerAddRq p =>
    cases he
    exact hT
  | lowerAddWq | lowerAddPq => exact hT.elim
  | upperReturn | processed | dropped | result => cases he

/-- The calls that a turn of the STLB leaves. -/
theorem callTranslates_above (h : ∀ ev ∈ evs, TlbEvent T (stlbConfig n) ev) :
    ∀ k ∈ evs.filterMap Event.above, CallTranslates T k := by
  intro k hk
  obtain ⟨ev, hev, he⟩ := List.mem_filterMap.1 hk
  have hT := h ev hev
  cases ev with
  | upperReturn p =>
    cases he
    exact hT rfl
  | lowerAddRq | lowerAddWq | lowerAddPq | processed | dropped | result => cases he

/-- One of the upper caches is replaced. -/
theorem Translating.updateUpper (h : Translating n cpu T m) {u : Side} {c : Cache}
    {calls : List LevelCall} (hc : Translates T T c) (x : Option Side) :
    Translates T T
      (({ m with upper := Function.update m.upper u c, calls := calls } : Machine Side).cache x) := by
  cases x with
  | none => exact h.caches none
  | some v =>
    show Translates T T (Function.update m.upper u c v)
    rcases eq_or_ne v u with rfl | hne
    · rw [Function.update_self]
      exact hc
    · rw [Function.update_of_ne hne]
      exact h.caches (some v)

/-- The STLB is replaced. -/
theorem Translating.updateLower (h : Translating n cpu T m) {c : Cache} {calls : List LevelCall}
    (hc : Translates T T c) (x : Option Side) :
    Translates T T (({ m with lower := c, calls := calls } : Machine Side).cache x) := by
  cases x with
  | none => exact hc
  | some v => exact h.caches (some v)

/-- A turn of the TLBs of a core. What a walk answers satisfies `T`. -/
theorem Translating.turn {cfg : PagingConfig} (h : Translating cfg.numCpus cpu T m)
    (ht : MemorySystem.TlbTurn cfg cpu t)
    (hw : ∀ p, walker cfg.numCpus env m t = some p →
      T p.address (env.physicalAddress >>> log2PageSize))
    (hs : (coreTlbs cfg.numCpus cpu).step m (env, t) = some (m', evs)) :
    Translating cfg.numCpus cpu T m' := by
  have hid (a d : UInt64) (hT : T a d) : T a d := hT
  have hbacked := h.backed.turn (tlbTurn_contract ht) hs
  cases Wiring.step_cases hs with
  | @upper _ u a c evs hcalls hx =>
    have hm : TlbMay T ((coreTlbs cfg.numCpus cpu).upper u)
        (env.over (coreTlbs cfg.numCpus cpu).lower m.lower) (m.upper u) a := by
      have hlow : ((coreTlbs cfg.numCpus cpu).upper u).hasLower = true :=
        (coreTlbs cfg.numCpus cpu).upper_hasLower u
      cases a with
      | addRq p => exact ht.2.2
      | addWq | addPq | prefetchLine | returnData | invalidateEntry => exact ht.elim
      | updateRob | handleFill | handleWriteback | startReads | readOne | prefetchOne =>
        refine tlbMay_operates ht fun _ hno => ?_
        rw [hlow] at hno
        cases hno
    obtain ⟨hc, hevs⟩ := (h.caches (some u)).act (h.backed.mshr (some u))
      (coreTlbs_isTlb (some u)) hid hm hx
    exact ⟨hbacked, h.updateUpper hc, callTranslates_below hevs⟩
  | @lower _ a c evs hcalls hx =>
    have hm : TlbMay T (stlbConfig cfg.numCpus) env m.lower a :=
      tlbMay_operates ht fun ha _ p hp => hw p (by rw [ha]; exact hp)
    obtain ⟨hc, hevs⟩ := (h.caches none).act (h.backed.mshr none) (coreTlbs_isTlb none) hid hm hx
    exact ⟨hbacked, h.updateLower hc, callTranslates_above hevs⟩
  | @below _ a rest c evs hcalls hx =>
    have hk := h.calls (.below a) (hcalls ▸ List.mem_cons_self)
    have hm : TlbMay T (stlbConfig cfg.numCpus) env m.lower a := by
      cases a with
      | addRq p => exact hk
      | addWq | addPq | prefetchLine | returnData | invalidateEntry | updateRob | handleFill
      | handleWriteback | startReads | readOne | prefetchOne => exact hk.elim
    obtain ⟨hc, hevs⟩ := (h.caches none).act (h.backed.mshr none) (coreTlbs_isTlb none) hid hm hx
    refine ⟨hbacked, h.updateLower hc, fun k hk' => ?_⟩
    rcases List.mem_append.1 hk' with hk' | hk'
    · exact callTranslates_above hevs k hk'
    · exact h.calls k (hcalls ▸ List.mem_cons_of_mem _ hk')
  | @above _ p rest u c hcalls ho hx =>
    have hp : T p.address p.data := h.calls (.above p) (hcalls ▸ List.mem_cons_self)
    have hc := (h.caches (some u)).returnData hp hx
    exact ⟨hbacked, h.updateUpper hc, fun k hk =>
      h.calls k (hcalls ▸ List.mem_cons_of_mem _ hk)⟩

/-! ### A walk -/

/-- Only the STLB walks, in a round of `handle_read`. -/
theorem walker_some (h : walker n env m t = some p) :
    t = .lower .readOne ∧ m.lower.walking (stlbConfig n) env = some p := by
  cases t with
  | upper | call => cases h
  | lower a =>
    cases a with
    | readOne => exact ⟨rfl, h⟩
    | addRq | addWq | addPq | prefetchLine | returnData | invalidateEntry | updateRob | handleFill
    | handleWriteback | startReads | prefetchOne => cases h

/-- The read that the page table is walked for comes from the core. -/
theorem walker_cpu (h : (coreTlbs n cpu).Backed m) (hw : walker n env m t = some p) :
    p.cpu = cpu := by
  obtain ⟨-, hwalk⟩ := walker_some hw
  obtain ⟨rest, _, hq, -, -⟩ := Cache.walking_some hwalk (by simp [stlbConfig])
  have ho := (h.lower.rq p (hq ▸ List.mem_cons_self)).2.1
  rw [Wiring.origin] at ho
  by_contra hne
  simp [coreTlbs, SecondLevel.wiring, hne] at ho

/-- The walk brings in an answered miss. -/
theorem Translating.walk {cfg : PagingConfig} {T' : Addr → UInt64 → Prop} {pa : Addr}
    (h : Translating cfg.numCpus cpu T m) (hw : walker cfg.numCpus env m t = some p)
    (hs : (coreTlbs cfg.numCpus cpu).step m ({ env with physicalAddress := pa }, t) =
      some (m', evs))
    (hentries : ∀ x, ∀ e ∈ (m.cache x).mshr.entry, e.returned = .completed →
      T' e.address e.data)
    (hp : T' p.address (pa >>> log2PageSize)) :
    (coreTlbs cfg.numCpus cpu).Backed m' ∧ m'.calls = [] ∧
      ∀ x, Translates T' (fun _ _ => True) (m'.cache x) := by
  obtain ⟨rfl, hwalk⟩ := walker_some hw
  have hturn : MemorySystem.TlbTurn cfg cpu (.lower .readOne) := trivial
  have hbacked := h.backed.turn (tlbTurn_contract hturn) hs
  have hsame (x : Option Side) : Translates T' (fun _ _ => True) (m.cache x) :=
    ⟨(h.caches x).wq, (h.caches x).pq, (h.caches x).reads, (h.caches x).clean,
      fun _ _ _ => trivial, (h.caches x).misses, hentries x⟩
  cases Wiring.step_cases hs with
  | @lower _ _ c evs hcalls hx =>
    have hlow : Translates T' (fun _ _ => True) m.lower := hsame none
    have hwalk' : m.lower.walking (stlbConfig cfg.numCpus) { env with physicalAddress := pa } =
      some p := hwalk
    obtain ⟨hc, habove⟩ := hlow.walked hwalk' (by simp [stlbConfig]) hp hx
    refine ⟨hbacked, habove, fun x => ?_⟩
    cases x with
    | none => exact hc
    | some u => exact hsame (some u)

/-- The walk leaves the blocks alone. -/
theorem walk_block {pa : Addr} (hw : walker n env m t = some p)
    (hs : (coreTlbs n cpu).step m ({ env with physicalAddress := pa }, t) = some (m', evs))
    (x : Option Side) : (m'.cache x).block = (m.cache x).block := by
  obtain ⟨rfl, hwalk⟩ := walker_some hw
  cases Wiring.step_cases hs with
  | @lower _ _ c evs hcalls hx =>
    cases x with
    | some u => rfl
    | none =>
      have hwalk' : m.lower.walking (stlbConfig n) { env with physicalAddress := pa } = some p :=
        hwalk
      exact Cache.walked_block hwalk' (by simp [stlbConfig]) hx

/-- The walk takes no answered miss out. -/
theorem Translating.walk_keeps {cfg : PagingConfig} {pa : Addr} {e : Packet} {x : Option Side}
    (h : Translating cfg.numCpus cpu T m) (hw : walker cfg.numCpus env m t = some p)
    (hs : (coreTlbs cfg.numCpus cpu).step m ({ env with physicalAddress := pa }, t) =
      some (m', evs))
    (he : e ∈ (m.cache x).mshr.entry) (hr : e.returned = .completed) :
    e ∈ (m'.cache x).mshr.entry := by
  obtain ⟨rfl, hwalk⟩ := walker_some hw
  cases Wiring.step_cases hs with
  | @lower _ _ c evs hcalls hx =>
    cases x with
    | some u => exact he
    | none =>
      have hwalk' : m.lower.walking (stlbConfig cfg.numCpus) { env with physicalAddress := pa } =
        some p := hwalk
      exact Cache.walked_keeps (h.backed.mshr none).ok hwalk' (by simp [stlbConfig]) he hr hx

/-- Other blocks in the TLBs leave the misses and their requests together. -/
theorem Wiring.Backed.blocks (h : (coreTlbs n cpu).Backed m)
    (hu : ∀ u, ∃ bs, m'.upper u = { m.upper u with block := bs })
    (hl : ∃ bs, m'.lower = { m.lower with block := bs }) (hc : m'.calls = m.calls) :
    (coreTlbs n cpu).Backed m' := by
  obtain ⟨bs, hl⟩ := hl
  refine ⟨fun u => ?_, ?_, hc ▸ h.calls, fun u a ha => ?_⟩
  · obtain ⟨bs, hu⟩ := hu u
    rw [hu]
    exact (h.upper u).frame (fun _ hp => hp) (fun _ hp => hp) (fun _ hp => hp)
      ((h.upper u).mshr.frame rfl)
  · rw [hl]
    exact h.lower.frame rfl rfl (fun _ hp => hp) rfl
  · obtain ⟨bs, hu⟩ := hu u
    have hle := h.tokens_le u a ha
    rw [Wiring.tokens] at hle ⊢
    rw [hu, hl, hc]
    exact hle

/-- Where a swap finds all blocks that do not satisfy `T`, those that are left do. -/
theorem Wiring.Backed.invalidate {T' : Addr → UInt64 → Prop} {v : Addr}
    (h : (coreTlbs n cpu).Backed m) (hcalls : m.calls = [])
    (hc : ∀ x, Translates T' (fun _ _ => True) (m.cache x))
    (hb : ∀ x s w, ((m.cache x).block s w).valid = true →
      ¬ (m.cache x).Finds ((coreTlbs n cpu).config x) v s w →
      T' ((m.cache x).block s w).tag ((m.cache x).block s w).data) :
    Translating n cpu T' (invalidateTlbs (coreTlbs n cpu) v m) := by
  have hcache (x : Option Side) : (invalidateTlbs (coreTlbs n cpu) v m).cache x =
      (m.cache x).invalidateEntry ((coreTlbs n cpu).config x) v := by
    cases x <;> rfl
  refine ⟨h.blocks (fun u => Cache.invalidateEntry_eq _ _ v) (Cache.invalidateEntry_eq _ _ v) rfl,
    fun x => ?_, fun k hk => ?_⟩
  · rw [hcache]
    have hinv := (hc x).invalidateEntry ((coreTlbs n cpu).config x) v
    refine ⟨hinv.wq, hinv.pq, hinv.reads, hinv.clean, fun s w hv => ?_, hinv.misses,
      hinv.entries⟩
    obtain ⟨heq, hno⟩ := Cache.invalidateEntry_valid hv
    rw [heq] at hv ⊢
    exact hb x s w hv hno
  · rw [invalidateTlbs, hcalls] at hk
    cases hk

end

/-! ## Weaker translations -/

section
variable {n cpu : ℕ} {m : Machine Side} {c : Cache} {T T' P P' Q Q' : Addr → UInt64 → Prop}

/-- The entries and the blocks satisfy more. -/
theorem Translates.refresh (h : Translates P Q c)
    (hb : ∀ s w, (c.block s w).valid = true → Q' (c.block s w).tag (c.block s w).data)
    (he : ∀ e ∈ c.mshr.entry, e.returned = .completed → P' e.address e.data) :
    Translates P' Q' c :=
  ⟨h.wq, h.pq, h.reads, h.clean, hb, h.misses, he⟩

/-- Where no call is on its way, the entries and the blocks are all that matters. -/
theorem Translating.refresh (h : Translating n cpu T m) (hc : m.calls = [])
    (hb : ∀ x s w, ((m.cache x).block s w).valid = true →
      T' ((m.cache x).block s w).tag ((m.cache x).block s w).data)
    (he : ∀ x, ∀ e ∈ (m.cache x).mshr.entry, e.returned = .completed → T' e.address e.data) :
    Translating n cpu T' m :=
  ⟨h.backed, fun x => (h.caches x).refresh (hb x) (he x), fun k hk => by
    rw [hc] at hk
    cases hk⟩

/-- Translations that stay. -/
theorem Translating.mono (h : Translating n cpu T m) (hT : ∀ a d, T a d → T' a d) :
    Translating n cpu T' m := by
  refine ⟨h.backed, fun x => (h.caches x).refresh (fun s w hv => hT _ _ ((h.caches x).blocks s w hv))
    fun e he hr => hT _ _ ((h.caches x).entries e he hr), fun k hk => ?_⟩
  have hk' := h.calls k hk
  cases k with
  | above p => exact hT _ _ hk'
  | below a =>
    cases a with
    | addRq p => exact hk'
    | addWq | addPq | prefetchLine | returnData | invalidateEntry | updateRob | handleFill
    | handleWriteback | startReads | readOne | prefetchOne => exact hk'.elim

/-- The TLBs at the start hold nothing. -/
theorem Translating.init : Translating n cpu T (coreTlbs n cpu).start := by
  have hstart (cfg : Config) : Translates T T (Cache.init cfg) := by
    refine ⟨rfl, rfl, by simp [Cache.init], fun _ _ => rfl, fun s w hv => ?_, fun e he => ?_,
      fun e he hr => ?_⟩
    · cases hv
    · simp [List.eq_of_mem_replicate he]
    · rw [List.eq_of_mem_replicate he] at hr
      cases hr
  refine ⟨Wiring.Backed.init, fun x => ?_, by simp [Wiring.start]⟩
  cases x <;> exact hstart _

end

end Arishem
