import Arishem.Dram.State
import Arishem.Lib.Lts

/-!
# The memory controller

`add_rq`, `add_wq` and `operate` of `MEMORY_CONTROLLER`. The mode of a channel says whether its
writes or its reads are served; when it changes, the scheduled requests of the other kind are
unscheduled. The schedule picks the oldest request to an open row of an idle bank, or the oldest to
any idle bank. A failed check of the source is `none`.
-/

namespace Arishem

namespace DramQueue

/-- `SIZE`. -/
abbrev size (q : DramQueue) : ℕ := q.entry.length

/-- `update_schedule_cycle`. -/
def updateScheduleCycle (q : DramQueue) : DramQueue :=
  let min := Slots.firstMin (fun e : DramEntry => e.address != 0 && !e.scheduled)
    (·.packet.eventCycle) q.entry 0 (uint64Max, q.size)
  { q with nextScheduleCycle := min.1, nextScheduleIndex := min.2 }

/-- `update_process_cycle`. -/
def updateProcessCycle (q : DramQueue) : DramQueue :=
  let min := Slots.firstMin (·.scheduled) (·.packet.eventCycle) q.entry 0 (uint64Max, q.size)
  { q with nextProcessCycle := min.1, nextProcessIndex := min.2 }

/-- `check_dram_queue`: the first slot with the address. -/
def checkDramQueue (address : Addr) (q : DramQueue) : Option (ℕ × DramEntry) :=
  Slots.lookup (fun e : DramEntry => e.address == address) q.entry

/-- `remove_queue` on a slot. -/
def removeQueue (numCpus i : ℕ) (q : DramQueue) : Option DramQueue :=
  if q.occupancy = 0 ∧ q.head = q.tail then none
  else
    some { q with
      entry := q.entry.set i (.empty numCpus)
      occupancy := q.occupancy - 1
      head := if q.size ≤ q.head + 1 then 0 else q.head + 1 }

/-- The first free slot gets the packet, if there is one; the first part of the end of `add_rq` and
`add_wq`. -/
def insert (p : Packet) (q : DramQueue) : DramQueue :=
  match q.checkDramQueue 0 with
  | some (i, _) =>
    { q with entry := q.entry.set i ⟨p, false⟩, occupancy := q.occupancy + 1 }
  | none => q

end DramQueue

namespace MemoryController

variable (cfg : DramConfig) (env : DramEnv)

/-! ## Scheduling -/

/-- The request may be scheduled: it is not yet, and its bank is idle. -/
def schedulable (s : MemoryController) (e : DramEntry) : Bool :=
  !e.scheduled && e.address != 0 && !(s.bankRequest (cfg.bankOf e.address)).working

/-- The request is to the open row of its bank. -/
def hitsOpenRow (s : MemoryController) (e : DramEntry) : Bool :=
  (s.bankRequest (cfg.bankOf e.address)).openRow == cfg.getRow e.address

/-- The slot that `schedule` picks, and whether it is a row buffer hit. -/
def oldest (k : QueueKind) (ch : ℕ) (s : MemoryController) : Option (ℕ × Bool) :=
  let q := s.queue k ch
  let hit := Slots.firstMin (fun e => s.schedulable cfg e && s.hitsOpenRow cfg e)
    (·.packet.eventCycle) q.entry 0 (uint64Max, q.size)
  if hit.2 < q.size then some (hit.2, true)
  else
    let miss := Slots.firstMin (s.schedulable cfg) (·.packet.eventCycle) q.entry 0
      (uint64Max, q.size)
    if miss.2 < q.size then some (miss.2, false) else none

/-- `schedule` on the slot it picked. -/
def start (k : QueueKind) (ch i : ℕ) (hit : Bool) (e : DramEntry) (s : MemoryController) :
    MemoryController :=
  let now := env.cycle e.packet.cpu
  let latency := if hit then cfg.tCAS else cfg.tRP + cfg.tRCD + cfg.tCAS
  let b := cfg.bankOf e.address
  let s := s.setBank b
    { cycleAvailable := now + latency
      openRow := cfg.getRow e.address
      working := true
      workingType := e.packet.type
      rowBufferHit := hit
      isWrite := k = .wq
      isRead := k = .rq
      requestIndex := some i }
  let s := s.setScheduled k b.channel (s.scheduled k b.channel + 1)
  let s := s.setEntry k ch i
    { e with scheduled := true, packet := { e.packet with eventCycle := now + latency } }
  s.modifyQueue k ch fun q => q.updateScheduleCycle.updateProcessCycle

/-- `schedule`. -/
def schedule (k : QueueKind) (ch : ℕ) (s : MemoryController) : MemoryController :=
  match s.oldest cfg k ch with
  | none => s
  | some (i, hit) =>
    match s.slot k ch i with
    | none => s
    | some e => s.start cfg env k ch i hit e

/-! ## Processing -/

/-- The bank is ready for another request. -/
def freeBank (b : BankId) (s : MemoryController) : MemoryController :=
  s.setBank b
    { s.bankRequest b with
      requestIndex := none, rowBufferHit := false, working := false, isWrite := false,
      isRead := false }

/-- What serving a request does outside the controller: a read is answered at the cycle `due`. -/
def served (k : QueueKind) (due : Cycle) (p : Packet) : List DramEvent :=
  match k with
  | .rq => [.upperReturn false { p with eventCycle := due }]
  | .wq => [.written p]

/-- `process` on a request whose bank and bus are ready. -/
def finish (k : QueueKind) (ch i : ℕ) (e : DramEntry) (s : MemoryController) :
    Option (MemoryController × List DramEvent) :=
  let b := cfg.bankOf e.address
  let due := env.cycle e.packet.cpu + cfg.dbusReturnTime
  let s := s.setDbus b.channel due
  let s := s.freeBank b
  let s := s.setScheduled k b.channel (s.scheduled k b.channel - 1)
  match (s.queue k ch).removeQueue cfg.numCpus i with
  | none => none
  | some q => some (s.modifyQueue k ch fun _ => q.updateProcessCycle, served k due e.packet)

/-- `process`. -/
def process (k : QueueKind) (ch : ℕ) (s : MemoryController) :
    Option (MemoryController × List DramEvent) :=
  let i := (s.queue k ch).nextProcessIndex
  match s.slot k ch i with
  | none => none
  | some e =>
    let b := cfg.bankOf e.address
    if (s.bankRequest b).requestIndex ≠ some i then none
    else if (s.bankRequest b).cycleAvailable ≤ env.cycle e.packet.cpu then
      if s.dbusCycleAvailable b.channel ≤ env.cycle e.packet.cpu then s.finish cfg env k ch i e
      else
        some (s.setBank b
          { s.bankRequest b with cycleAvailable := s.dbusCycleAvailable b.channel }, [])
    else some (s, [])

/-! ## Changes of the mode -/

/-- The body of the loop of `reset_remain_requests` for a scheduled request. -/
def unschedule (k : QueueKind) (ch i : ℕ) (e : DramEntry) (s : MemoryController) :
    MemoryController :=
  let now := env.cycle e.packet.cpu
  let b := cfg.bankOf e.address
  let r := s.bankRequest b
  let openRow := if r.cycleAvailable - cfg.tCAS ≤ now then cfg.getRow e.address else 0xFFFFFFFF
  let r :=
    { r with
      openRow := openRow, requestIndex := none, rowBufferHit := false, working := false,
      cycleAvailable := now }
  let s :=
    if r.isWrite then
      (s.setScheduled .wq ch (s.scheduled .wq ch - 1)).setBank b { r with isWrite := false }
    else if r.isRead then
      (s.setScheduled .rq ch (s.scheduled .rq ch - 1)).setBank b { r with isRead := false }
    else s.setBank b r
  s.setEntry k ch i
    { e with scheduled := false, packet := { e.packet with eventCycle := now } }

/-- The loop of `reset_remain_requests`. -/
def unscheduleAll (k : QueueKind) (ch : ℕ) (s : MemoryController) : MemoryController :=
  (List.range (s.queue k ch).size).foldl (fun s i =>
    match s.slot k ch i with
    | some e => if e.scheduled then s.unschedule cfg env k ch i e else s
    | none => s) s

/-- `reset_remain_requests`. -/
def resetRemainRequests (k : QueueKind) (ch : ℕ) (s : MemoryController) :
    Option MemoryController :=
  let s := s.unscheduleAll cfg env k ch
  let s := s.modifyQueue .rq ch DramQueue.updateScheduleCycle
  let s := s.modifyQueue .wq ch DramQueue.updateScheduleCycle
  let s := s.modifyQueue .rq ch DramQueue.updateProcessCycle
  let s := s.modifyQueue .wq ch DramQueue.updateProcessCycle
  if s.scheduled k ch ≠ 0 then none else some s

/-- The new mode of a channel. -/
def nextWriteMode (ch : ℕ) (s : MemoryController) : Bool :=
  let rq := (s.queue .rq ch).occupancy
  let wq := (s.queue .wq ch).occupancy
  if s.writeMode ch then !(wq = 0 || (rq ≠ 0 && wq < cfg.writeLowWm))
  else cfg.writeHighWm ≤ wq || (rq = 0 && 0 < wq)

/-- The first part of `operate`: the change of the mode. -/
def switchMode (ch : ℕ) (s : MemoryController) : Option MemoryController :=
  let mode := s.nextWriteMode cfg ch
  if mode = s.writeMode ch then some s
  else
    match (s.setWriteMode ch mode).resetRemainRequests cfg env (if mode then .rq else .wq) ch with
    | none => none
    | some s => some (s.setDbus ch (s.dbusCycleAvailable ch + cfg.dbusTurnAroundTime))

/-! ## The calls -/

/-- Whether the request at an index is due. -/
def due (k : QueueKind) (ch i : ℕ) (c : Cycle) (s : MemoryController) : Bool :=
  match s.slot k ch i with
  | none => false
  | some e => c ≤ env.cycle e.packet.cpu

/-- The part of `operate` for the queue that is served. -/
def serve (k : QueueKind) (ch : ℕ) (s : MemoryController) :
    Option (MemoryController × List DramEvent) :=
  let q := s.queue k ch
  let s := if s.due env k ch q.nextScheduleIndex q.nextScheduleCycle then s.schedule cfg env k ch
    else s
  let q := s.queue k ch
  if s.due env k ch q.nextProcessIndex q.nextProcessCycle then s.process cfg env k ch
  else some (s, [])

/-- `operate` for one channel. -/
def operateChannel (ch : ℕ) (s : MemoryController) :
    Option (MemoryController × List DramEvent) :=
  match s.switchMode cfg env ch with
  | none => none
  | some s => s.serve cfg env (if s.writeMode ch then .wq else .rq) ch

/-- `operate` for several channels, one after the other. -/
def operateChannels : List ℕ → MemoryController → Option (MemoryController × List DramEvent)
  | [], s => some (s, [])
  | ch :: chs, s =>
    match s.operateChannel cfg env ch with
    | none => none
    | some (s, events) =>
      match operateChannels chs s with
      | none => none
      | some (s, events') => some (s, events ++ events')

/-- `operate`. -/
def operate (s : MemoryController) : Option (MemoryController × List DramEvent) :=
  s.operateChannels cfg env (List.range cfg.channels)

/-- `add_rq`. -/
def addRq (p : Packet) (s : MemoryController) : MemoryController × List DramEvent :=
  if env.allWarmupComplete then
    let ch := cfg.getChannel p.address
    match (s.queue .wq ch).checkDramQueue p.address with
    | some (_, e) =>
      (s, [.upperReturn p.instruction { p with data := e.packet.data }, .result none])
    | none =>
      match (s.queue .rq ch).checkDramQueue p.address with
      | some (i, _) => (s, [.result (some i)])
      | none =>
        (s.modifyQueue .rq ch fun q => (q.insert p).updateScheduleCycle, [.result none])
  else (s, [.upperReturn p.instruction p, .result none])

/-- `add_wq`. -/
def addWq (p : Packet) (s : MemoryController) : MemoryController × List DramEvent :=
  if env.allWarmupComplete then
    let ch := cfg.getChannel p.address
    match (s.queue .wq ch).checkDramQueue p.address with
    | some (i, _) => (s, [.result (some i)])
    | none => (s.modifyQueue .wq ch fun q => (q.insert p).updateScheduleCycle, [.result none])
  else (s, [.result none])

/-- A call of the controller. -/
inductive Call
  | addRq (p : Packet)
  | addWq (p : Packet)
  | operate
  deriving DecidableEq

/-- The controller as a system. -/
def lts : Lts MemoryController (DramEnv × Call) DramEvent where
  init := fun s => s = init cfg
  step
    | s, (env, .addRq p) => some (s.addRq cfg env p)
    | s, (env, .addWq p) => some (s.addWq cfg env p)
    | s, (env, .operate) => s.operate cfg env

end MemoryController

end Arishem
