import Arishem.Cache.Packet
import Arishem.Lib.Lts
import Mathlib.Logic.Function.Basic

/-!
# Replacement policies of the LLC

SHiP and DRRIP keep a re-reference value `rrpv` for each block: 0 after a hit, `maxRRPV` where the
block is the next to go. The victim is the first block of value `maxRRPV`; without one all values of
the set grow. SHiP learns from sampled sets, whose accesses go through a small LRU table, which
instructions bring blocks that nobody reads again; DRRIP lets two groups of leader sets compete. The
policies write the access type and the line address into the sampler and never read them: they are
left out. Which sets are sampled is drawn at the start, and here it is any table.
-/

namespace Arishem

/-- `LLC_WAY`. -/
def llcWay : ℕ := 12

/-- `LLC_SET`. -/
def llcSet (numCpus : ℕ) : ℕ := numCpus * 4096

/-- `maxRRPV`. -/
def maxRrpv : ℕ := 3

/-- The loop of `llc_find_victim` over the values of a set, for some rounds. -/
def searchVictim : ℕ → ℕ → (ℕ → ℕ → ℕ) → Option (ℕ × (ℕ → ℕ → ℕ))
  | 0, _, _ => none
  | fuel + 1, set, rrpv =>
    match (List.range llcWay).find? fun i => rrpv set i == maxRrpv with
    | some i => some (i, rrpv)
    | none =>
      searchVictim fuel set
        (Function.update rrpv set fun i =>
          if i < llcWay then (rrpv set i + 1) % 2 ^ 32 else rrpv set i)

/-- Store the value of a block. -/
def setRrpv (set way value : ℕ) (rrpv : ℕ → ℕ → ℕ) : ℕ → ℕ → ℕ :=
  Function.update rrpv set (Function.update (rrpv set) way value)

/-- The calls of a policy. -/
inductive PolicyCall
  | findVictim (set : ℕ)
  | update (cpu set way : ℕ) (fullAddr ip : UInt64) (type : AccessType) (hit : Bool)

/-- The set, the way and the core exist. -/
def PolicyCall.InBounds (numCpus : ℕ) : PolicyCall → Prop
  | findVictim set => set < llcSet numCpus
  | update cpu set way _ _ _ _ => cpu < numCpus ∧ set < llcSet numCpus ∧ way < llcWay

instance (numCpus : ℕ) (call : PolicyCall) : Decidable (call.InBounds numCpus) := by
  unfold PolicyCall.InBounds
  split <;> infer_instance

/-! ## SHiP -/

/-- `SHCT_SIZE`. -/
def shctSize : ℕ := 16384

/-- `SHCT_PRIME`. -/
def shctPrime : UInt64 := 16381

/-- `SHCT_MAX`. -/
def shctMax : ℕ := 7

/-- `SAMPLER_WAY`. -/
def samplerWay : ℕ := llcWay

/-- `SAMPLER_SET`. -/
def samplerSet (numCpus : ℕ) : ℕ := 256 * numCpus

/-- An entry of the sampler. -/
structure SamplerEntry where
  valid : Bool
  used : Bool
  tag : ℕ
  ip : UInt64
  lru : ℕ

/-- The state of SHiP. -/
structure Ship where
  rrpv : ℕ → ℕ → ℕ
  sampler : ℕ → ℕ → SamplerEntry
  shct : ℕ → ℕ → ℕ

namespace Ship

/-- The state `llc_initialize_replacement` leaves. -/
def init : Ship where
  rrpv := fun _ _ => maxRrpv
  sampler := fun _ j => { valid := false, used := false, tag := 0, ip := 0, lru := j }
  shct := fun _ _ => 0

/-- The place of an instruction in the `SHCT`. -/
def shctIdx (ip : UInt64) : ℕ := (ip % shctPrime).toNat

/-- Set a counter of the `SHCT`. -/
def setCounter (cpu idx counter : ℕ) (shct : ℕ → ℕ → ℕ) : ℕ → ℕ → ℕ :=
  Function.update shct cpu (Function.update (shct cpu) idx counter)

/-- Overwrite an entry of the sampler. -/
def setEntry (sIdx way : ℕ) (e : SamplerEntry) (s : Ship) : Ship :=
  { s with sampler := Function.update s.sampler sIdx (Function.update (s.sampler sIdx) way e) }

/-- `is_it_sampled`. -/
def isItSampled (numCpus : ℕ) (randSets : ℕ → ℕ) (set : ℕ) : ℕ :=
  ((List.range (samplerSet numCpus)).find? fun i => randSets i == set).getD (samplerSet numCpus)

/-- A search loop of `update_sampler`: the first entry that passes, or `SAMPLER_WAY`. -/
def scanSampler (s_set : ℕ → SamplerEntry) (p : SamplerEntry → Bool) : ℕ :=
  ((List.range samplerWay).find? fun way => p (s_set way)).getD samplerWay

/-- A sampler hit: the counter of the instruction goes down. -/
def samplerHit (cpu sIdx way : ℕ) (s : Ship) : Ship :=
  let e := s.sampler sIdx way
  let idx := shctIdx e.ip
  let shct := if s.shct cpu idx > 0 then setCounter cpu idx (s.shct cpu idx - 1) s.shct else s.shct
  { s with shct := shct }.setEntry sIdx way { e with used := true }

/-- The entry takes the place of an invalid one. -/
def samplerFill (sIdx way tag : ℕ) (ip : UInt64) (s : Ship) : Ship :=
  s.setEntry sIdx way { s.sampler sIdx way with valid := true, tag := tag, ip := ip, used := false }

/-- The entry takes the place of the oldest one, and the counter of that one's instruction goes up
where the entry was never used. -/
def samplerMiss (cpu sIdx way tag : ℕ) (ip : UInt64) (s : Ship) : Ship :=
  let e := s.sampler sIdx way
  let idx := shctIdx e.ip
  let shct :=
    if e.used = false then
      if s.shct cpu idx < shctMax then setCounter cpu idx (s.shct cpu idx + 1) s.shct else s.shct
    else s.shct
  { s with shct := shct }.setEntry sIdx way { e with tag := tag, ip := ip, used := false }

/-- The searches of `update_sampler`: the entry where they end, and the state after them. -/
def searchSampler (cpu sIdx tag : ℕ) (ip : UInt64) (s : Ship) : ℕ × Ship :=
  let s_set := s.sampler sIdx
  let hit := scanSampler s_set fun e => e.valid && e.tag == tag
  if hit < samplerWay then (hit, s.samplerHit cpu sIdx hit)
  else
    let free := scanSampler s_set fun e => !e.valid
    if free < samplerWay then (free, s.samplerFill sIdx free tag ip)
    else
      let old := scanSampler s_set fun e => e.lru == samplerWay - 1
      if old < samplerWay then (old, s.samplerMiss cpu sIdx old tag ip) else (old, s)

/-- The LRU loop of `update_sampler` over some entries. -/
def shiftSampler (currPosition : ℕ) (ways : List ℕ) (s_set : ℕ → SamplerEntry) :
    ℕ → SamplerEntry :=
  ways.foldl
    (fun s_set i =>
      if (s_set i).lru < currPosition then
        Function.update s_set i { s_set i with lru := (s_set i).lru + 1 }
      else s_set)
    s_set

/-- The LRU update of `update_sampler`. -/
def touchSampler (way : ℕ) (s_set : ℕ → SamplerEntry) : ℕ → SamplerEntry :=
  let shifted := shiftSampler (s_set way).lru (List.range samplerWay) s_set
  Function.update shifted way { shifted way with lru := 0 }

/-- The tag of an address in the sampler. -/
def samplerTag (numCpus : ℕ) (address : UInt64) : ℕ := address.toNat / (64 * llcSet numCpus)

/-- `update_sampler`; past the last entry there is nothing to update. -/
def updateSampler (numCpus cpu sIdx : ℕ) (address ip : UInt64) (s : Ship) : Option Ship :=
  let (way, s) := s.searchSampler cpu sIdx (samplerTag numCpus address) ip
  if way < samplerWay then
    some { s with sampler := Function.update s.sampler sIdx (touchSampler way (s.sampler sIdx)) }
  else none

/-- `llc_find_victim`. -/
def llcFindVictim (fuel set : ℕ) (s : Ship) : Option (ℕ × Ship) :=
  (searchVictim fuel set s.rrpv).map fun r => (r.1, { s with rrpv := r.2 })

/-- The end of `llc_update_replacement_state`: the value of the block. -/
def predict (cpu set way : ℕ) (ip : UInt64) (hit : Bool) (s : Ship) : Ship :=
  if hit then { s with rrpv := setRrpv set way 0 s.rrpv }
  else if s.shct cpu (shctIdx ip) = shctMax then { s with rrpv := setRrpv set way maxRrpv s.rrpv }
  else { s with rrpv := setRrpv set way (maxRrpv - 1) s.rrpv }

/-- `llc_update_replacement_state`. A writeback has no instruction. -/
def llcUpdateReplacementState (numCpus : ℕ) (randSets : ℕ → ℕ) (cpu set way : ℕ)
    (fullAddr ip : UInt64) (type : AccessType) (hit : Bool) (s : Ship) : Option Ship :=
  if type = .writeback then
    if ip ≠ 0 then none
    else if hit then some s
    else some { s with rrpv := setRrpv set way (maxRrpv - 1) s.rrpv }
  else
    let sIdx := isItSampled numCpus randSets set
    if sIdx < samplerSet numCpus then
      (s.updateSampler numCpus cpu sIdx fullAddr ip).map (predict cpu set way ip hit)
    else some (s.predict cpu set way ip hit)

/-- SHiP in use. A victim search gets as many rounds as values there are. -/
def system (numCpus : ℕ) (randSets : ℕ → ℕ) : Lts Ship PolicyCall ℕ where
  init := fun s => s = init
  step
    | s, .findVictim set => (s.llcFindVictim (maxRrpv + 1) set).map fun r => (r.2, [r.1])
    | s, .update cpu set way fullAddr ip type hit =>
      (s.llcUpdateReplacementState numCpus randSets cpu set way fullAddr ip type hit).map
        fun s' => (s', [])

end Ship

/-! ## DRRIP -/

/-- `SDM_SIZE`. -/
def sdmSize : ℕ := 32

/-- `NUM_POLICY`. -/
def numPolicy : ℕ := 2

/-- `BIP_MAX`. -/
def bipMax : ℕ := 32

/-- `PSEL_MAX`. -/
def pselMax : ℕ := 2 ^ 10 - 1

/-- `PSEL_THRS`. -/
def pselThrs : ℕ := pselMax / 2

/-- The state of DRRIP. -/
structure Drrip where
  rrpv : ℕ → ℕ → ℕ
  bipCounter : ℕ
  psel : ℕ → ℕ

namespace Drrip

/-- The state `llc_initialize_replacement` leaves. -/
def init : Drrip where
  rrpv := fun _ _ => maxRrpv
  bipCounter := 0
  psel := fun _ => 0

/-- `is_it_leader`: the policy that the set leads, if any. -/
def isItLeader (randSets : ℕ → ℕ) (cpu set : ℕ) : Option ℕ :=
  let start := cpu * numPolicy * sdmSize
  ((List.range' start (numPolicy * sdmSize)).find? fun i => randSets i == set).map
    fun i => (i - start) / sdmSize

/-- The insertion of BIP: one block in `BIP_MAX` gets a chance. -/
def bip (set way : ℕ) (s : Drrip) : Drrip :=
  let bipCounter := if s.bipCounter + 1 = bipMax then 0 else s.bipCounter + 1
  { s with
    bipCounter := bipCounter
    rrpv := setRrpv set way (if bipCounter = 0 then maxRrpv - 1 else maxRrpv) s.rrpv }

/-- The insertion of SRRIP. -/
def srrip (set way : ℕ) (s : Drrip) : Drrip :=
  { s with rrpv := setRrpv set way (maxRrpv - 1) s.rrpv }

/-- `llc_find_victim`. -/
def llcFindVictim (fuel set : ℕ) (s : Drrip) : Option (ℕ × Drrip) :=
  (searchVictim fuel set s.rrpv).map fun r => (r.1, { s with rrpv := r.2 })

/-- `llc_update_replacement_state`. -/
def llcUpdateReplacementState (randSets : ℕ → ℕ) (cpu set way : ℕ) (type : AccessType)
    (hit : Bool) (s : Drrip) : Option Drrip :=
  if type = .writeback then some (s.srrip set way)
  else if hit then some { s with rrpv := setRrpv set way 0 s.rrpv }
  else
    match isItLeader randSets cpu set with
    | none => if s.psel cpu > pselThrs then some (s.bip set way) else some (s.srrip set way)
    | some 0 =>
      let psel := if s.psel cpu > 0 then Function.update s.psel cpu (s.psel cpu - 1) else s.psel
      some ({ s with psel := psel }.bip set way)
    | some 1 =>
      let psel :=
        if s.psel cpu < pselMax then Function.update s.psel cpu (s.psel cpu + 1) else s.psel
      some ({ s with psel := psel }.srrip set way)
    | some _ => none

/-- DRRIP in use. A victim search gets as many rounds as values there are. -/
def system (randSets : ℕ → ℕ) : Lts Drrip PolicyCall ℕ where
  init := fun s => s = init
  step
    | s, .findVictim set => (s.llcFindVictim (maxRrpv + 1) set).map fun r => (r.2, [r.1])
    | s, .update cpu set way _ _ type hit =>
      (s.llcUpdateReplacementState randSets cpu set way type hit).map fun s' => (s', [])

end Drrip

end Arishem
