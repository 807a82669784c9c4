import Arishem.Hierarchy.LoneMisses
import Arishem.Hierarchy.Swaps

/-!
# A fetch from a page

A core whose TLBs have nothing to do fetches from a page below all those that they hold: the request
comes to the STLB, which walks the page table, and the answer fills the STLB and the ITLB. The turns
before and after the walk touch nothing but these two TLBs.
-/

namespace Arishem

/-- An environment at a cycle. -/
def Env.clock (t : ℕ) : Env := Env.calm (UInt64.ofNat (t % 2 ^ 63)) (by
  have hmax : uint64Max.toNat = 2 ^ 64 - 1 := by decide
  rw [UInt64.lt_iff_toNat_lt, UInt64.toNat_ofNat']
  omega)

theorem clock_toNat {t : ℕ} (ht : t < 2 ^ 63) (cpu : ℕ) :
    ((Env.clock t).cycle cpu).toNat = t := by
  show (UInt64.ofNat (t % 2 ^ 63)).toNat = t
  rw [UInt64.toNat_ofNat']
  omega

/-- A fetch from a page. -/
def pageFetch (numCpus cpu : ℕ) (a : Addr) (t : ℕ) : Packet :=
  { Packet.empty numCpus with
    instruction := true, fillLevel := fillL1, cpu := cpu, address := a,
    fullAddr := a <<< log2PageSize, eventCycle := UInt64.ofNat t }

theorem pageFetch_asks (n cpu : ℕ) (a : Addr) (t : ℕ) : Asks cpu a t (pageFetch n cpu a t) :=
  ⟨rfl, rfl, rfl, rfl, rfl, rfl, by
    show (UInt64.ofNat t).toNat ≤ t
    rw [UInt64.toNat_ofNat']
    exact Nat.mod_le _ _⟩

/-- A turn of the TLBs of a core without a page walk. -/
def Moves (cfg : PagingConfig) (cpu : ℕ) (tlb tlb' : Machine Side) : Prop :=
  ∃ env t evs, MemorySystem.TlbTurn cfg cpu t ∧ walker cfg.numCpus env tlb t = none ∧
    (coreTlbs cfg.numCpus cpu).step tlb (env, t) = some (tlb', evs)

section
variable {cfg : PagingConfig} (cpu : ℕ) {tlb : Machine Side} {env : Env} {act : Action}
variable {c : Cache} {evs : List Event} {p : Packet}

/-- What the ITLB does in its turn goes on to the STLB. -/
theorem icache_step (hc : tlb.calls = [])
    (hx : (tlb.upper .icache).act (itlbConfig cfg.numCpus)
      (env.over (stlbConfig cfg.numCpus) tlb.lower) act = some (c, evs)) :
    (coreTlbs cfg.numCpus cpu).step tlb (env, .upper .icache act) =
      some ({ tlb with upper := Function.update tlb.upper .icache c,
                       calls := evs.filterMap Event.below }, evs) := by
  have hx' : (tlb.upper .icache).act ((coreTlbs cfg.numCpus cpu).upper .icache)
    (env.over (coreTlbs cfg.numCpus cpu).lower tlb.lower) act = some (c, evs) := hx
  simp only [Wiring.step, hc, if_true, hx']

/-- A turn of the ITLB. -/
theorem Moves.icache (hc : tlb.calls = [])
    (hx : (tlb.upper .icache).act (itlbConfig cfg.numCpus)
      (env.over (stlbConfig cfg.numCpus) tlb.lower) act = some (c, evs))
    (ht : MemorySystem.TlbTurn cfg cpu (.upper .icache act)) :
    ∃ tlb', Moves cfg cpu tlb tlb' ∧ tlb'.upper .icache = c ∧
      tlb'.upper .dcache = tlb.upper .dcache ∧ tlb'.lower = tlb.lower ∧
      tlb'.calls = evs.filterMap Event.below :=
  ⟨_, ⟨env, .upper .icache act, evs, ht, rfl, icache_step cpu hc hx⟩,
    Function.update_self Side.icache c tlb.upper, rfl, rfl, rfl⟩

/-- A turn of the STLB in which it does not read. -/
theorem Moves.lower (hc : tlb.calls = [])
    (hx : tlb.lower.act (stlbConfig cfg.numCpus) env act = some (c, evs))
    (hact : act ≠ .readOne) (ht : MemorySystem.Operates act) :
    ∃ tlb', Moves cfg cpu tlb tlb' ∧ tlb'.upper = tlb.upper ∧ tlb'.lower = c ∧
      tlb'.calls = evs.filterMap Event.above := by
  have hx' : tlb.lower.act (coreTlbs cfg.numCpus cpu).lower env act = some (c, evs) := hx
  refine ⟨{ tlb with lower := c, calls := evs.filterMap Event.above },
    ⟨env, .lower act, evs, ht, ?_, ?_⟩, rfl, rfl, rfl⟩
  · cases act with
    | readOne => exact absurd rfl hact
    | addRq | addWq | addPq | prefetchLine | returnData | invalidateEntry | updateRob | handleFill
    | handleWriteback | startReads | prefetchOne => rfl
  · simp only [Wiring.step, hc, if_true, hx']

/-- The ITLB calls the STLB. -/
theorem Moves.below (hc : tlb.calls = [.below act])
    (hx : tlb.lower.act (stlbConfig cfg.numCpus) env act = some (c, evs)) :
    ∃ tlb', Moves cfg cpu tlb tlb' ∧ tlb'.upper = tlb.upper ∧ tlb'.lower = c ∧
      tlb'.calls = evs.filterMap Event.above := by
  have hx' : tlb.lower.act (coreTlbs cfg.numCpus cpu).lower env act = some (c, evs) := hx
  refine ⟨{ tlb with lower := c, calls := evs.filterMap Event.above },
    ⟨env, .call, evs, trivial, rfl, ?_⟩, rfl, rfl, rfl⟩
  simp only [Wiring.step, hc, hx', List.append_nil]

/-- The STLB answers the ITLB. -/
theorem Moves.above (hc : tlb.calls = [.above p]) (hp : p.cpu = cpu) (hi : p.instruction = true)
    (hx : (tlb.upper .icache).returnData (itlbConfig cfg.numCpus) env p = some c) :
    ∃ tlb', Moves cfg cpu tlb tlb' ∧ tlb'.upper .icache = c ∧
      tlb'.upper .dcache = tlb.upper .dcache ∧ tlb'.lower = tlb.lower ∧ tlb'.calls = [] := by
  have hx' : (tlb.upper .icache).returnData ((coreTlbs cfg.numCpus cpu).upper .icache) env p =
    some c := hx
  have ho : (coreTlbs cfg.numCpus cpu).origin p = some .icache := by
    simp [Wiring.origin, SecondLevel.wiring, hp, hi]
  refine ⟨{ tlb with upper := Function.update tlb.upper .icache c, calls := [] },
    ⟨env, .call, [], trivial, rfl, ?_⟩, Function.update_self Side.icache c tlb.upper, rfl, rfl, rfl⟩
  simp only [Wiring.step, hc, ho, hx']

end

/-! ## The stages of a fetch -/

/-- The TLBs of a core that have nothing to do, with no page below `b` in the ITLB and the STLB, and
none in the DTLB. -/
structure AtRest (n : ℕ) (b : Addr) (tlb : Machine Side) : Prop where
  dcache : tlb.upper .dcache = Cache.init (dtlbConfig n)
  icache : Ready (itlbConfig n) b [] (tlb.upper .icache)
  icacheMshr : Mshr.Vacant n 8 (tlb.upper .icache).mshr
  lower : Ready (stlbConfig n) b [] tlb.lower
  lowerMshr : Mshr.Vacant n 16 tlb.lower.mshr
  calls : tlb.calls = []

/-- The TLBs before the STLB walks for the page `a`, which was asked for at the cycle `t`. -/
structure BeforeWalk (n cpu : ℕ) (a b : Addr) (t : ℕ) (e p : Packet) (tlb : Machine Side) :
    Prop where
  dcache : tlb.upper .dcache = Cache.init (dtlbConfig n)
  icache : Ready (itlbConfig n) b [] (tlb.upper .icache)
  icacheMshr : Mshr.Lone n 7 e (tlb.upper .icache).mshr
  entry : Asks cpu a (t + 1) e
  lower : Ready (stlbConfig n) b [p] tlb.lower
  lowerMshr : Mshr.Vacant n 16 tlb.lower.mshr
  reads : tlb.lower.readsAvailable = 1
  request : Asks cpu a (t + 9) p
  calls : tlb.calls = []

/-- The TLBs after the STLB walked for the page. -/
structure AfterWalk (n cpu : ℕ) (a b : Addr) (t : ℕ) (e e' : Packet) (tlb : Machine Side) :
    Prop where
  dcache : tlb.upper .dcache = Cache.init (dtlbConfig n)
  icache : Ready (itlbConfig n) b [] (tlb.upper .icache)
  icacheMshr : Mshr.Lone n 7 e (tlb.upper .icache).mshr
  entry : Asks cpu a (t + 1) e
  lower : Ready (stlbConfig n) b [] tlb.lower
  lowerMshr : AnsweredMiss (stlbConfig n) 15 e' tlb.lower
  answer : Asks cpu a (t + 17) e'
  calls : tlb.calls = []

theorem AtRest.start (n cpu : ℕ) (b : Addr) : AtRest n b (coreTlbs n cpu).start :=
  ⟨rfl, Ready.init, Mshr.Vacant.init, Ready.init, Mshr.Vacant.init, rfl⟩

section
variable {cfg : PagingConfig} {cpu t : ℕ} {a b : Addr} {tlb : Machine Side} {e e' p : Packet}

/-- A fetch from a page that no TLB holds comes to the STLB. -/
theorem AtRest.request (h : AtRest cfg.numCpus b tlb) (cpu t : ℕ) (h0 : a ≠ 0) (hlt : a < b)
    (hcpu : cpu < cfg.numCpus) (ht : t + 32 < 2 ^ 63) :
    ∃ tlb' e p, Relation.ReflTransGen (Moves cfg cpu) tlb tlb' ∧
      BeforeWalk cfg.numCpus cpu a b t e p tlb' ∧
      (tlb'.upper .icache).block = (tlb.upper .icache).block ∧ tlb'.lower.block = tlb.lower.block := by
  have hclock (s : ℕ) (hs : s ≤ t + 9) : ((Env.clock s).cycle cpu).toNat = s :=
    clock_toNat (by omega) cpu
  -- the core asks the ITLB
  have hturn : MemorySystem.TlbTurn cfg cpu
      (.upper .icache (.addRq (pageFetch cfg.numCpus cpu a t))) :=
    ⟨by simp [Wiring.origin, SecondLevel.wiring, pageFetch], show fillL1 ≤ fillL1 from le_rfl,
      show AccessType.load ≠ .prefetch by decide⟩
  obtain ⟨c₁, hx₁, hr₁, hm₁, hb₁⟩ := h.icache.addRq (p := pageFetch cfg.numCpus cpu a t)
    ((Env.clock t).over (stlbConfig cfg.numCpus) tlb.lower) (Nat.succ_pos 15) h0
  obtain ⟨tlb₁, hmove₁, hi₁, hd₁, hl₁, hcalls₁⟩ := Moves.icache cpu h.calls hx₁ hturn
  have hasks₁ := (pageFetch_asks cfg.numCpus cpu a t).enqueued (itlbConfig cfg.numCpus)
    (hclock t (by omega)).le
  -- the ITLB reads, misses and calls the STLB
  obtain ⟨c₂, hx₂, hr₂, hm₂, hreads₂, hb₂⟩ :=
    (hi₁ ▸ hr₁).startReads ((Env.clock (t + 1)).over (stlbConfig cfg.numCpus) tlb₁.lower)
  obtain ⟨tlb₂, hmove₂, hi₂, hd₂, hl₂, hcalls₂⟩ := Moves.icache cpu hcalls₁ hx₂ trivial
  obtain ⟨c₃, q, e, hx₃, hr₃, hq, he, hm₃, hb₃⟩ := (hi₂ ▸ hr₂).miss (s := 7)
    ((Env.clock (t + 1)).over (stlbConfig cfg.numCpus) tlb₂.lower) hasks₁ rfl hlt h0
    (by rw [hi₂, hm₂, hi₁, hm₁]; exact h.icacheMshr) rfl
    (by rw [hi₂, hreads₂]; exact Nat.one_ne_zero) hcpu.ne (hclock (t + 1) (by omega)).ge rfl
  obtain ⟨tlb₃, hmove₃, hi₃, hd₃, hl₃, hcalls₃⟩ := Moves.icache cpu hcalls₂ hx₃ trivial
  have hlower₃ : tlb₃.lower = tlb.lower := by rw [hl₃, hl₂, hl₁]
  -- the STLB takes the request
  obtain ⟨c₄, hx₄, hr₄, hm₄, hb₄⟩ := (hlower₃ ▸ h.lower).addRq (p := q) (Env.clock (t + 1))
    (Nat.succ_pos 31) (hq.address ▸ h0)
  obtain ⟨tlb₄, hmove₄, hu₄, hl₄, hcalls₄⟩ := Moves.below cpu hcalls₃ hx₄
  have hasks₄ := hq.enqueued (stlbConfig cfg.numCpus) (hclock (t + 1) (by omega)).le
  obtain ⟨c₅, hx₅, hr₅, hm₅, hreads₅, hb₅⟩ := (hl₄ ▸ hr₄).startReads (Env.clock (t + 9))
  obtain ⟨tlb₅, hmove₅, hu₅, hl₅, hcalls₅⟩ := Moves.lower cpu hcalls₄ hx₅ (by simp) trivial
  have hicache₅ : tlb₅.upper .icache = c₃ := by rw [hu₅, hu₄, hi₃]
  have hdcache₅ : tlb₅.upper .dcache = Cache.init (dtlbConfig cfg.numCpus) := by
    rw [hu₅, hu₄, hd₃, hd₂, hd₁]
    exact h.dcache
  refine ⟨tlb₅, e, _, ?_,
    ⟨hdcache₅, hicache₅ ▸ hr₃, hicache₅ ▸ hm₃, he, hl₅ ▸ hr₅, ?_, ?_, hasks₄, hcalls₅⟩, ?_, ?_⟩
  · exact ((((Relation.ReflTransGen.single hmove₁).tail hmove₂).tail hmove₃).tail hmove₄).tail
      hmove₅
  · rw [hl₅, hm₅, hl₄, hm₄, hlower₃]
    exact h.lowerMshr
  · rw [hl₅, hreads₅]
    rfl
  · rw [hicache₅, hb₃, hi₂, hb₂, hi₁, hb₁]
  · rw [hl₅, hb₅, hl₄, hb₄, hlower₃]

/-- The STLB walks for the page. -/
theorem BeforeWalk.walk (h : BeforeWalk cfg.numCpus cpu a b t e p tlb) (pa : Addr) (h0 : a ≠ 0)
    (hlt : a < b) (hcpu : cpu < cfg.numCpus) (ht : t + 32 < 2 ^ 63) :
    walker cfg.numCpus (Env.clock (t + 9)) tlb (.lower .readOne) = some p ∧
      ∃ tlb' evs e', (coreTlbs cfg.numCpus cpu).step tlb
          ({ Env.clock (t + 9) with physicalAddress := pa }, .lower .readOne) = some (tlb', evs) ∧
        AfterWalk cfg.numCpus cpu a b t e e' tlb' ∧ e'.data = pa >>> log2PageSize := by
  have hclock : ((Env.clock (t + 9)).cycle cpu).toNat = t + 9 := clock_toNat (by omega) cpu
  have hreads : tlb.lower.readsAvailable ≠ 0 := by
    rw [h.reads]
    exact one_ne_zero
  obtain ⟨hwalk, -⟩ := h.lower.readOne rfl (h.request.address ▸ hlt) (h.request.address ▸ h0)
    h.lowerMshr (Nat.succ_pos 15) hreads (h.request.cpu ▸ hcpu.ne) (h.request.due hclock.ge)
  have hn : t + 9 + (stlbConfig cfg.numCpus).latency.toNat < 2 ^ 64 - 1 := by
    show t + 9 + 8 < 2 ^ 64 - 1
    omega
  obtain ⟨c, e', hx, hr, he', hdata, hm⟩ := h.lower.walk (s := 15)
    { Env.clock (t + 9) with physicalAddress := pa } h.request rfl hlt h0 h.lowerMshr rfl hreads
    hcpu.ne hclock rfl hn
  refine ⟨hwalk, { tlb with lower := c, calls := [] }, [], e', ?_,
    ⟨h.dcache, h.icache, h.icacheMshr, h.entry, hr, hm, he', rfl⟩, hdata⟩
  have hx' : tlb.lower.act (coreTlbs cfg.numCpus cpu).lower
    { Env.clock (t + 9) with physicalAddress := pa } .readOne = some (c, []) := hx
  simp only [Wiring.step, h.calls, if_true, hx']
  rfl

/-- The STLB and the ITLB are filled. -/
theorem AfterWalk.respond (h : AfterWalk cfg.numCpus cpu a b t e e' tlb) (hdata : e'.data ≠ 0)
    (hlt : a < b) (hcpu : cpu < cfg.numCpus) (ht : t + 32 < 2 ^ 63) :
    ∃ tlb', Relation.ReflTransGen (Moves cfg cpu) tlb tlb' ∧ AtRest cfg.numCpus a tlb' ∧
      HoldsPage (itlbConfig cfg.numCpus) a (tlb'.upper .icache) ∧
      HoldsPage (stlbConfig cfg.numCpus) a tlb'.lower := by
  have hclock (s : ℕ) (hs : s ≤ t + 18) : ((Env.clock s).cycle cpu).toNat = s :=
    clock_toNat (by omega) cpu
  -- the STLB fills the page and answers the ITLB
  obtain ⟨c₁, evs₁, hx₁, hr₁, hm₁, hholds₁, -, habove₁⟩ :=
    h.lower.fill (Env.clock (t + 17)) h.lowerMshr h.answer rfl (Nat.succ_pos 15) hlt hdata rfl
      hcpu.ne (hclock (t + 17) (by omega)).ge
  obtain ⟨tlb₁, hmove₁, hu₁, hl₁, hcalls₁⟩ := Moves.lower cpu h.calls hx₁ (by simp) trivial
  rw [habove₁] at hcalls₁
  have hcalls₁ : tlb₁.calls = [.above e'] :=
    hcalls₁.trans (if_pos (show fillL1 < fillL2 by decide))
  have hn : t + 17 + (itlbConfig cfg.numCpus).latency.toNat < 2 ^ 64 - 1 := by
    show t + 17 + 1 < 2 ^ 64 - 1
    omega
  obtain ⟨c₂, e₂, hx₂, hr₂, he₂, hdata₂, hm₂⟩ := (hu₁ ▸ h.icache).returnData (s := 7)
    (Env.clock (t + 17)) (by rw [hu₁]; exact h.icacheMshr) (h.entry.mono (by omega))
    h.answer.address h.answer.cpu (hclock (t + 17) (by omega)).le hn
  obtain ⟨tlb₂, hmove₂, hi₂, hd₂, hl₂, hcalls₂⟩ :=
    Moves.above cpu hcalls₁ h.answer.cpu h.answer.instruction hx₂
  -- the ITLB fills the page
  obtain ⟨c₃, evs₃, hx₃, hr₃, hm₃, hholds, hbelow₃, -⟩ := (hi₂ ▸ hr₂).fill (s := 7)
    ((Env.clock (t + 18)).over (stlbConfig cfg.numCpus) tlb₂.lower) (hi₂ ▸ hm₂) he₂ rfl
    (Nat.succ_pos 3) hlt (hdata₂ ▸ hdata) rfl hcpu.ne (hclock (t + 18) (by omega)).ge
  obtain ⟨tlb₃, hmove₃, hi₃, hd₃, hl₃, hcalls₃⟩ := Moves.icache cpu hcalls₂ hx₃ trivial
  have hlower₃ : tlb₃.lower = c₁ := by rw [hl₃, hl₂, hl₁]
  refine ⟨tlb₃, ((Relation.ReflTransGen.single hmove₁).tail hmove₂).tail hmove₃,
    ⟨?_, hi₃ ▸ hr₃, hi₃ ▸ hm₃, hlower₃ ▸ hr₁, hlower₃ ▸ hm₁, ?_⟩, hi₃ ▸ hholds,
    hlower₃ ▸ hholds₁⟩
  · rw [hd₃, hd₂, hu₁]
    exact h.dcache
  · rw [hcalls₃, hbelow₃]

end

/-! ## Runs of the machine -/

namespace MemorySystem

/-- The steps that keep to the rules and whose swaps are swept. -/
abbrev SweptStep (cfg : PagingConfig) (m : MemorySystem) (l : MemoryTurn) : Prop :=
  Allowed cfg m l ∧ m.SwapsSwept cfg l

section
variable {cfg : PagingConfig} {m : MemorySystem} {cpu t : ℕ} {a b : Addr} {tlb : Machine Side}
variable {e p : Packet}

/-- Turns of the TLBs of a core without a page walk. -/
theorem moves_reachable (h : (lts cfg).Reachable (SweptStep cfg) m) (hcpu : cpu < cfg.numCpus)
    (hothers : ∀ c < cfg.numCpus, c ≠ cpu → (m.tlb c).calls = [])
    (hm : Relation.ReflTransGen (Moves cfg cpu) (m.tlb cpu) tlb) :
    (lts cfg).Reachable (SweptStep cfg) { m with tlb := Function.update m.tlb cpu tlb } := by
  induction hm with
  | refl =>
    rw [Function.update_eq_self]
    exact h
  | @tail tlb tlb' _ hmove ih =>
    obtain ⟨env, t, evs, ht, hw, hs⟩ := hmove
    set m₁ : MemorySystem := { m with tlb := Function.update m.tlb cpu tlb } with hm₁
    have htlb : m₁.tlb cpu = tlb := Function.update_self cpu tlb m.tlb
    rw [← htlb] at hw hs
    have hstep : m₁.step cfg (.tlb cpu env t [] 0) =
        some ({ m with tlb := Function.update m.tlb cpu tlb' }, []) := by
      rw [step_of_tlb hw hs, hm₁]
      simp only [Function.update_idem]
    have hl : Allowed cfg m₁ (.tlb cpu env t [] 0) := by
      refine ⟨hcpu, fun c hc hne => ?_, ht, by simp⟩
      show (Function.update m.tlb cpu tlb c).calls = []
      rw [Function.update_of_ne hne]
      exact hothers c hc hne
    refine ih.step ⟨hl, fun p victim hf => ?_⟩ hstep
    rw [Faults, hw] at hf
    cases hf

/-- The page table walk of a fetch is a step of the machine. -/
theorem walk_step (h : BeforeWalk cfg.numCpus cpu a b t e p tlb) (h0 : a ≠ 0) (hlt : a < b)
    (hcpu : cpu < cfg.numCpus) (ht : t + 32 < 2 ^ 63)
    (hothers : ∀ c < cfg.numCpus, c ≠ cpu → (m.tlb c).calls = []) {draws : List Addr}
    (hdraws : ∀ d ∈ draws, d ≤ maxDraw) {tables : PageTables} {r : Walked}
    (hva : m.tables.vaToPa cfg (walkOf (Env.clock (t + 9)) p draws 0) = some (tables, r))
    {m₁ : MemorySystem} (hm₁ : m₁ = { m with tlb := Function.update m.tlb cpu tlb })
    {l : MemoryTurn} (hl : l = .tlb cpu (Env.clock (t + 9)) (.lower .readOne) draws 0) :
    walker cfg.numCpus (Env.clock (t + 9)) (m₁.tlb cpu) (.lower .readOne) = some p ∧
      Allowed cfg m₁ l ∧ ∃ tlb' e', m₁.step cfg l =
          some (walked cfg cpu r
            { m with tables := tables, tlb := Function.update m.tlb cpu tlb' }, [r]) ∧
        AfterWalk cfg.numCpus cpu a b t e e' tlb' ∧ e'.data = r.pa >>> log2PageSize := by
  have htlb : m₁.tlb cpu = tlb := by
    rw [hm₁]
    exact Function.update_self cpu tlb m.tlb
  obtain ⟨hwalk, tlb', evs, e', hs, hafter, hdata⟩ := h.walk r.pa h0 hlt hcpu ht
  rw [← htlb] at hwalk hs
  refine ⟨hwalk, ?_, tlb', e', ?_, hafter, hdata⟩
  · rw [hl]
    refine ⟨hcpu, fun c hc hne => ?_, trivial, hdraws⟩
    rw [hm₁]
    show (Function.update m.tlb cpu tlb c).calls = []
    rw [Function.update_of_ne hne]
    exact hothers c hc hne
  · have hva₁ : m₁.tables.vaToPa cfg (walkOf (Env.clock (t + 9)) p draws 0) =
        some (tables, r) := by
      rw [hm₁]
      exact hva
    rw [hl, step_of_walk hwalk hva₁ hs, h.request.cpu, hm₁]
    simp only [Function.update_idem]

end

end MemorySystem

end Arishem
