import Arishem.Cache.Configs
import Arishem.Cache.Requests
import Arishem.Lib.Lts
import Arishem.Lib.Ring

/-!
# The packet queue as a ring

The read, write and prefetch queues of a cache are `PACKET_QUEUE`s: an array of `SIZE` packets, the
slots of the oldest packet and of the next one to come, and the number of packets. Equal slots say
that the ring is empty or full, and `check_queue` has a loop for each layout. The ring holds the
list that stands for the queue in `Cache`, oldest packet first, and every other slot is empty.
-/

namespace Arishem

/-- A `PACKET_QUEUE`, as far as it is used as a ring. -/
structure PacketQueue where
  name : String
  size : ℕ
  head : ℕ
  tail : ℕ
  occupancy : ℕ
  entry : ℕ → Packet

namespace PacketQueue

/-- The constructor. -/
def init (numCpus : ℕ) (name : String) (size : ℕ) : PacketQueue where
  name := name
  size := size
  head := 0
  tail := 0
  occupancy := 0
  entry := fun _ => Packet.empty numCpus

/-- What `check_queue` compares: the L1D's write queue goes by byte addresses. -/
def sameKey (name : String) (p e : Packet) : Bool :=
  if name = "L1D_WQ" then e.fullAddr == p.fullAddr else e.address == p.address

/-- A slot number returned as an `int`. -/
def toInt (i : ℕ) : ℤ := (i : ℤ).bmod (2 ^ 32)

/-- The slot where a loop stopped, or -1. -/
def found : Option ℕ → ℤ
  | some i => toInt i
  | none => -1

/-- `check_queue`. -/
def checkQueue (p : Packet) (q : PacketQueue) : ℤ :=
  let hit := fun i => sameKey q.name p (q.entry i)
  if q.head = q.tail ∧ q.occupancy = 0 then -1
  else if q.head < q.tail then found ((List.range' q.head (q.tail - q.head)).find? hit)
  else
    match (List.range' q.head (q.size - q.head)).find? hit with
    | some i => toInt i
    | none => found ((List.range q.tail).find? hit)

/-- Store a packet at the tail. -/
def append (p : Packet) (q : PacketQueue) : PacketQueue :=
  { q with
    entry := Function.update q.entry q.tail p
    occupancy := q.occupancy + 1
    tail := if q.size ≤ q.tail + 1 then 0 else q.tail + 1 }

/-- `add_queue`. -/
def addQueue (p : Packet) (q : PacketQueue) : Option PacketQueue :=
  if q.occupancy ≠ 0 ∧ q.head = q.tail then none else some (q.append p)

/-- `remove_queue` on the slot `index`. -/
def removeQueue (numCpus index : ℕ) (q : PacketQueue) : Option PacketQueue :=
  if q.occupancy = 0 ∧ q.head = q.tail then none
  else
    some { q with
      entry := Function.update q.entry index (Packet.empty numCpus)
      occupancy := q.occupancy - 1
      head := if q.size ≤ q.head + 1 then 0 else q.head + 1 }

section
variable (cfg : Config) (env : Env)

/-- The append that the requests write out: the slot has to be empty, and the packet gets its
latency. -/
def appendChecked (p : Packet) (q : PacketQueue) : Option PacketQueue :=
  if (q.entry q.tail).address ≠ 0 then none else some (q.append (Cache.enqueued cfg env p))

/-- The append of `add_rq`; that the packet has an address is asserted after it. -/
def addRq (p : Packet) (q : PacketQueue) : Option PacketQueue :=
  match q.appendChecked cfg env p with
  | none => none
  | some q' => if p.address = 0 then none else some q'

/-- The append of `add_wq`, which has its check of the occupancy here. -/
def addWq (p : Packet) (q : PacketQueue) : Option PacketQueue :=
  if q.size ≤ q.occupancy then none else q.appendChecked cfg env p

/-- The append of `add_pq`. -/
def addPq (p : Packet) (q : PacketQueue) : Option PacketQueue :=
  match q.appendChecked cfg env p with
  | none => none
  | some q' => if p.address = 0 then none else some q'

end

/-! ## Runs -/

/-- What is done to a queue. -/
inductive Op
  | addQueue (p : Packet)
  | addRq (env : Env) (p : Packet)
  | addWq (env : Env) (p : Packet)
  | addPq (env : Env) (p : Packet)
  | removeHead

/-- How many packets an operation removes. -/
def Op.removes : Op → ℕ
  | removeHead => 1
  | _ => 0

section
variable (cfg : Config)

/-- The packet that an operation stores. -/
def Op.stored : Op → List Packet
  | addQueue p => [p]
  | addRq env p | addWq env p | addPq env p => [Cache.enqueued cfg env p]
  | removeHead => []

/-- The queue after an operation. -/
def apply (q : PacketQueue) : Op → Option PacketQueue
  | .addQueue p => q.addQueue p
  | .addRq env p => q.addRq cfg env p
  | .addWq env p => q.addWq cfg env p
  | .addPq env p => q.addPq cfg env p
  | .removeHead => q.removeQueue cfg.numCpus q.head

/-- A queue in use; its outputs are the packets that are stored. -/
def system (name : String) (size : ℕ) : Lts PacketQueue Op Packet where
  init := fun q => q = init cfg.numCpus name size
  step := fun q op => (q.apply cfg op).map fun q' => (q', op.stored cfg)

/-- Packets are added where there is room. -/
def Room (q : PacketQueue) (op : Op) : Prop := op.removes = 0 → q.occupancy < q.size

instance (q : PacketQueue) (op : Op) : Decidable (Room q op) := by
  unfold Room
  infer_instance

end

/-- The packets that arrived, in their order. -/
def arrived (tr : Lts.Trace Op Packet) : List Packet := tr.flatMap (·.2)

/-- How many of them were removed. -/
def removed (tr : Lts.Trace Op Packet) : ℕ := (tr.map (·.1.removes)).sum

/-- The packets in the queue. -/
def live (tr : Lts.Trace Op Packet) : List Packet := (arrived tr).drop (removed tr)

/-! ## The list in the ring -/

/-- The queue stands for a list: it holds the packets from the head on and its other slots are
empty. -/
structure Represents (numCpus : ℕ) (q : PacketQueue) (l : List Packet) : Prop where
  holds : ∃ slots : ℕ → Option Packet, Ring.Holds q.size slots q.head q.tail l ∧
    ∀ i < q.size, q.entry i = (slots i).getD (Packet.empty numCpus)
  occupancy : q.occupancy = l.length

section
variable {n : ℕ} {q q' : PacketQueue} {l : List Packet} {p : Packet}

/-- At the start the queue is empty. -/
theorem Represents.init (n : ℕ) (name : String) {size : ℕ} (hsize : 1 ≤ size) :
    Represents n (PacketQueue.init n name size) [] := by
  refine ⟨⟨fun _ => none, ⟨hsize, Nat.zero_le _, ?_, fun _ _ => rfl⟩, fun _ _ => rfl⟩, rfl⟩
  exact (Ring.index_zero hsize).symm

theorem Represents.head_lt (h : Represents n q l) : q.head < q.size :=
  h.holds.elim fun _ h => h.1.head_lt

theorem Represents.length_le (h : Represents n q l) : l.length ≤ q.size :=
  h.holds.elim fun _ h => h.1.length_le

theorem Represents.tail_eq (h : Represents n q l) : q.tail = Ring.index q.size q.head l.length :=
  h.holds.elim fun _ h => h.1.tail_eq

theorem Represents.tail_lt (h : Represents n q l) : q.tail < q.size := by
  have hhead := h.head_lt
  have hlen := h.length_le
  rw [h.tail_eq, Ring.index]
  split <;> omega

/-- The slots from the head on. -/
theorem Represents.entry_index (h : Represents n q l) {k : ℕ} (hk : k < q.size) :
    q.entry (Ring.index q.size q.head k) = l[k]?.getD (Packet.empty n) := by
  obtain ⟨slots, hslots, hentry⟩ := h.holds
  rw [hentry _ (Ring.index_lt hslots.head_lt hk), hslots.slots_eq k hk]

/-- The slot at the tail of a queue with room is empty. -/
theorem Represents.entry_tail (h : Represents n q l) (hl : l.length < q.size) :
    q.entry q.tail = Packet.empty n := by
  rw [h.tail_eq, h.entry_index hl, List.getElem?_eq_none (le_refl _), Option.getD_none]

/-- The queue is empty or full where its slots are equal. -/
theorem Represents.head_eq_tail (h : Represents n q l) (heq : q.head = q.tail) :
    l.length = 0 ∨ l.length = q.size := by
  have hhead := h.head_lt
  have hlen := h.length_le
  have htail := h.tail_eq
  rw [Ring.index] at htail
  split at htail <;> omega

/-- A step past the end of the array is the ring's next slot. -/
theorem next_eq {size i : ℕ} (hi : i < size) :
    (if size ≤ i + 1 then 0 else i + 1) = Ring.next size i := by
  rw [Ring.next]
  split <;> split <;> omega

/-- An append goes to the end of the list. -/
theorem Represents.append (h : Represents n q l) (hl : l.length < q.size) :
    Represents n (q.append p) (l ++ [p]) := by
  obtain ⟨slots, hslots, hentry⟩ := h.holds
  refine ⟨⟨Function.update slots q.tail (some p), ?_, fun i hi => ?_⟩, ?_⟩
  · have hpush := hslots.push (x := p) hl
    rwa [← next_eq h.tail_lt] at hpush
  · show Function.update q.entry q.tail p i = _
    rcases eq_or_ne i q.tail with rfl | hne
    · simp
    · rw [Function.update_of_ne hne, Function.update_of_ne hne]
      exact hentry i hi
  · show q.occupancy + 1 = _
    rw [h.occupancy, List.length_append, List.length_singleton]

/-- Only an empty queue has no head to remove, and removing the head takes the first packet off the
list. -/
theorem Represents.remove (h : Represents n q l) :
    (q.removeQueue n q.head = none ↔ l = []) ∧
      ∀ q', q.removeQueue n q.head = some q' → Represents n q' l.tail := by
  cases l with
  | nil =>
    have hocc : q.occupancy = 0 := h.occupancy
    have heq : q.head = q.tail := by
      rw [h.tail_eq]
      exact (Ring.index_zero h.head_lt).symm
    simp [removeQueue, hocc, heq]
  | cons p l =>
    obtain ⟨slots, hslots, hentry⟩ := h.holds
    have hocc : q.occupancy = l.length + 1 := h.occupancy
    rw [removeQueue, if_neg (by omega)]
    refine ⟨by simp, fun q' hq => ?_⟩
    obtain rfl := Option.some.inj hq
    refine ⟨⟨Function.update slots q.head none, ?_, fun i hi => ?_⟩, ?_⟩
    · have hpop := hslots.pop
      rwa [← next_eq h.head_lt] at hpop
    · show Function.update q.entry q.head (Packet.empty n) i = _
      rcases eq_or_ne i q.head with rfl | hne
      · simp
      · rw [Function.update_of_ne hne, Function.update_of_ne hne]
        exact hentry i hi
    · show q.occupancy - 1 = _
      rw [hocc, List.tail_cons, Nat.add_sub_cancel]

/-- `add_queue` does not fail where there is room. -/
theorem Represents.addQueue_eq (h : Represents n q l) (hl : l.length < q.size) :
    q.addQueue p = some (q.append p) := by
  refine if_neg fun ⟨hocc, heq⟩ => ?_
  rw [h.occupancy] at hocc
  have := h.head_eq_tail heq
  omega

/-- The slot that an append checks is empty. -/
theorem Represents.appendChecked_eq {cfg : Config} {env : Env} (h : Represents n q l)
    (hl : l.length < q.size) :
    q.appendChecked cfg env p = some (q.append (Cache.enqueued cfg env p)) := by
  rw [appendChecked, h.entry_tail hl, if_neg (by simp)]

/-! ## The search -/

/-- The search goes through the slots from the head on, whatever the layout. -/
theorem Represents.checkQueue_scan (h : Represents n q l) (hl : l ≠ []) : q.checkQueue p =
    found ((Ring.scan q.size q.head q.tail).find? fun i => sameKey q.name p (q.entry i)) := by
  have hocc : q.occupancy ≠ 0 := by
    rw [h.occupancy]
    exact fun h0 => hl (List.length_eq_zero_iff.1 h0)
  rw [checkQueue, if_neg fun hempty => hocc hempty.2, Ring.scan]
  split
  · rfl
  · rw [List.find?_append]
    cases (List.range' q.head (q.size - q.head)).find? fun i => sameKey q.name p (q.entry i) <;> rfl

/-- A search by the numbers of the places is one by the elements. -/
theorem find?_range_eq_findIdx? (l : List Packet) (f : Packet → Bool) (g : ℕ → Packet)
    (hg : ∀ k, (hk : k < l.length) → g k = l[k]) :
    (List.range l.length).find? (fun k => f (g k)) = l.findIdx? f := by
  refine Option.ext fun k => ?_
  rw [List.find?_range_eq_some, List.findIdx?_eq_some_iff_getElem, List.mem_range]
  refine ⟨fun ⟨hf, hk, hbefore⟩ => ⟨hk, ?_, fun j hj => ?_⟩, fun ⟨hk, hf, hbefore⟩ =>
    ⟨?_, hk, fun j hj => ?_⟩⟩
  · rwa [← hg k hk]
  · rw [← hg j (hj.trans hk)]
    simpa using hbefore j hj
  · rwa [hg k hk]
  · have hj' := hbefore j hj
    rw [← hg j (hj.trans hk)] at hj'
    simpa using hj'

/-- `check_queue` finds the first packet of the list that has the key. -/
theorem Represents.checkQueue_eq (h : Represents n q l) : q.checkQueue p =
    found ((l.findIdx? (sameKey q.name p)).map (Ring.index q.size q.head)) := by
  rcases eq_or_ne l [] with rfl | hl
  · have hocc : q.occupancy = 0 := h.occupancy
    have heq : q.head = q.tail := by
      rw [h.tail_eq]
      exact (Ring.index_zero h.head_lt).symm
    rw [checkQueue, if_pos ⟨heq, hocc⟩]
    rfl
  · have hpos := List.length_pos_iff.2 hl
    have htail := h.tail_eq
    rw [h.checkQueue_scan hl, Ring.scan_eq h.head_lt h.tail_lt.le, htail,
      Ring.span_index h.head_lt hpos h.length_le, List.find?_map]
    congr 2
    refine find?_range_eq_findIdx? l _ (fun k => q.entry (Ring.index q.size q.head k)) ?_
    intro k hk
    rw [h.entry_index (hk.trans_le h.length_le), List.getElem?_eq_getElem hk, Option.getD_some]

/-- As a 32-bit word the returned number is the slot. -/
theorem toInt_emod {i : ℕ} (hi : i < 2 ^ 32) : toInt i % 2 ^ 32 = i := by
  have hmod : toInt i % ((2 ^ 32 : ℕ) : ℤ) = (i : ℤ) % ((2 ^ 32 : ℕ) : ℤ) := Int.bmod_emod
  omega

/-- The lower half of the slot numbers is returned as it is. -/
theorem toInt_eq {i : ℕ} (hi : i < 2 ^ 31) : toInt i = i := by
  unfold toInt
  exact Int.bmod_eq_of_le_mul_two (by omega) (by omega)

/-- No slot number stands for -1. -/
theorem toInt_ne {i : ℕ} (hi : i + 1 < 2 ^ 32) : toInt i ≠ -1 := by
  intro h
  have hmod := toInt_emod (Nat.lt_of_succ_lt hi)
  rw [h] at hmod
  omega

/-! ## The queues of a cache

The caches of the other modules keep their queues as lists. What their searches find is what
`check_queue` finds in a ring that represents the list. -/

/-- The search of the L1D's or another cache's write queue is the one on the list. -/
theorem Represents.checkWq_eq {cfg : Config} (h : Represents n q l)
    (hname : q.name = "L1D_WQ" ↔ cfg.cacheType = .l1d) : q.checkQueue p =
      found ((Cache.checkWq cfg p l).map fun r => Ring.index q.size q.head r.1) := by
  have hkey : sameKey q.name p = fun e =>
      if cfg.cacheType = .l1d then e.fullAddr == p.fullAddr else e.address == p.address := by
    funext e
    simp only [sameKey, hname]
  rw [h.checkQueue_eq, Slots.findIdx?_eq_lookup, Option.map_map, hkey]
  rfl

/-- The search of a read or prefetch queue is the one on the list. -/
theorem Represents.checkRq_eq (h : Represents n q l) (hname : q.name ≠ "L1D_WQ") :
    q.checkQueue p =
      found ((Cache.checkQueue p.address l).map fun r => Ring.index q.size q.head r.1) := by
  have hkey : sameKey q.name p = fun e => e.address == p.address := by
    funext e
    simp only [sameKey, if_neg hname]
  rw [h.checkQueue_eq, Slots.findIdx?_eq_lookup, Option.map_map, hkey]
  rfl

end

/-! ## Queues in use -/

/-- A queue holds the packets `l`, oldest first. -/
structure Fifo (numCpus : ℕ) (q : PacketQueue) (l : List Packet) : Prop where
  head_lt : q.head < q.size
  occupancy_le : q.occupancy ≤ q.size
  tail_eq : q.tail = (q.head + q.occupancy) % q.size
  /-- The live slots are those from the head on, and they hold the packets in their order. -/
  entry_live : l.length = q.occupancy ∧
    ∀ k, (hk : k < l.length) → q.entry ((q.head + k) % q.size) = l[k]
  /-- All other slots are empty. -/
  entry_free : ∀ i < q.size, (∀ k < q.occupancy, i ≠ (q.head + k) % q.size) →
    q.entry i = Packet.empty numCpus
  /-- `check_queue` gives the slot of the first packet with the key. -/
  found : ∀ p k, l.findIdx? (sameKey q.name p) = some k →
    q.checkQueue p % 2 ^ 32 = ((q.head + k) % q.size : ℕ) ∧
      (q.size ≤ 2 ^ 31 → q.checkQueue p = ((q.head + k) % q.size : ℕ))
  /-- It gives -1 where no packet has the key. -/
  absent : ∀ p, q.checkQueue p = -1 ↔ ∀ e ∈ l, sameKey q.name p e = false

section
variable {cfg : Config} {name : String} {size : ℕ} {q q' : PacketQueue} {l : List Packet}
  {tr : Lts.Trace Op Packet} {op : Op} {os : List Packet}

/-- A ring that stands for a list is a queue. -/
theorem Represents.fifo {n : ℕ} (h : Represents n q l) (hword : q.size < 2 ^ 32) :
    Fifo n q l := by
  have hocc := h.occupancy
  have hhead := h.head_lt
  have hlen := h.length_le
  have hmod {k : ℕ} (hk : k ≤ q.size) := Ring.index_eq_mod hhead hk
  refine ⟨hhead, by omega, ?_, ⟨hocc.symm, fun k hk => ?_⟩, fun i hi hfree => ?_,
    fun p k hk => ?_, fun p => ?_⟩
  · rw [h.tail_eq, hmod hlen, hocc]
  · rw [← hmod (by omega), h.entry_index (by omega), List.getElem?_eq_getElem hk, Option.getD_some]
  · -- the slot lies behind the packets
    have hplace : Ring.place q.size q.head i < q.size := Ring.place_lt hi
    have hindex := Ring.index_place hhead hi
    have hge : l.length ≤ Ring.place q.size q.head i := by
      by_contra hlt
      exact hfree (Ring.place q.size q.head i) (by omega) (by rw [← hmod hplace.le, hindex])
    rw [← hindex, h.entry_index hplace, List.getElem?_eq_none hge, Option.getD_none]
  · obtain ⟨hlt, -⟩ := List.findIdx?_eq_some_iff_getElem.1 hk
    have hslot := Ring.index_lt hhead (k := k) (by omega)
    rw [h.checkQueue_eq, hk, ← hmod (by omega)]
    exact ⟨toInt_emod (by omega), fun hsize => toInt_eq (by omega)⟩
  · rw [h.checkQueue_eq, ← List.findIdx?_eq_none_iff]
    cases hk : l.findIdx? (sameKey q.name p) with
    | none => simp [PacketQueue.found]
    | some k =>
      obtain ⟨hlt, -⟩ := List.findIdx?_eq_some_iff_getElem.1 hk
      have hslot := Ring.index_lt hhead (k := k) (by omega)
      have hne := toInt_ne (i := Ring.index q.size q.head k) (by omega)
      simpa [PacketQueue.found] using hne

/-- The checked append is an append. -/
theorem appendChecked_some {env : Env} {p : Packet} (hq : q.appendChecked cfg env p = some q') :
    q' = q.append (Cache.enqueued cfg env p) := by
  rw [appendChecked] at hq
  split at hq
  · cases hq
  · exact (Option.some.inj hq).symm

/-- An operation appends the packet that it stores, or removes the head. -/
theorem apply_cases (hq : q.apply cfg op = some q') :
    (op.removes = 0 ∧ ∃ p, op.stored cfg = [p] ∧ q' = q.append p) ∨
      op = .removeHead ∧ q.removeQueue cfg.numCpus q.head = some q' := by
  cases op with
  | addQueue p =>
    simp only [PacketQueue.apply, addQueue] at hq
    split at hq
    · cases hq
    · exact .inl ⟨rfl, p, rfl, (Option.some.inj hq).symm⟩
  | addRq env p | addPq env p =>
    simp only [PacketQueue.apply, addRq, addPq] at hq
    split at hq
    · cases hq
    split at hq
    · cases hq
    · rename_i happ _
      obtain rfl := Option.some.inj hq
      exact .inl ⟨rfl, _, rfl, appendChecked_some happ⟩
  | addWq env p =>
    simp only [PacketQueue.apply, addWq] at hq
    split at hq
    · cases hq
    · exact .inl ⟨rfl, _, rfl, appendChecked_some hq⟩
  | removeHead => exact .inr ⟨rfl, hq⟩

/-- Each operation on a queue does to the list what it stores and removes. -/
theorem Represents.apply (h : Represents cfg.numCpus q l) (hroom : Room q op)
    (hq : q.apply cfg op = some q') : op.removes ≤ l.length ∧
      Represents cfg.numCpus q' ((l ++ op.stored cfg).drop op.removes) := by
  rcases apply_cases hq with ⟨hremoves, p, hstored, rfl⟩ | ⟨rfl, hremove⟩
  · have hl : l.length < q.size := by
      rw [← h.occupancy]
      exact hroom hremoves
    rw [hremoves, hstored]
    exact ⟨Nat.zero_le _, h.append hl⟩
  · have hne : l ≠ [] := fun hnil => by
      rw [h.remove.1.2 hnil] at hremove
      cases hremove
    have hrep := h.remove.2 q' hremove
    exact ⟨List.length_pos_iff.2 hne, by simpa [Op.stored, Op.removes] using hrep⟩

/-- The operations leave the size and the name alone. -/
theorem apply_size (hq : q.apply cfg op = some q') : q'.size = q.size ∧ q'.name = q.name := by
  rcases apply_cases hq with ⟨-, p, -, rfl⟩ | ⟨-, hremove⟩
  · exact ⟨rfl, rfl⟩
  · rw [removeQueue] at hremove
    split at hremove
    · cases hremove
    · obtain rfl := Option.some.inj hremove
      exact ⟨rfl, rfl⟩

/-- One more operation. -/
theorem live_snoc (hle : removed tr ≤ (arrived tr).length) :
    live (tr ++ [(op, os)]) = (live tr ++ os).drop op.removes := by
  have harrived : arrived (tr ++ [(op, os)]) = arrived tr ++ os := by simp [arrived]
  have hremoved : removed (tr ++ [(op, os)]) = removed tr + op.removes := by simp [removed]
  rw [live, live, harrived, hremoved, ← List.drop_drop, List.drop_append_of_le_length hle]

/-- In every run the ring stands for the packets that arrived and were not removed. -/
theorem Represents.run (hsize : 1 ≤ size) (h : (system cfg name size).Run Room q tr) :
    q.size = size ∧ q.name = name ∧ removed tr ≤ (arrived tr).length ∧
      Represents cfg.numCpus q (live tr) := by
  refine h.induct (P := fun q tr => q.size = size ∧ q.name = name ∧
    removed tr ≤ (arrived tr).length ∧ Represents cfg.numCpus q (live tr)) ?_ ?_
  · rintro q rfl
    exact ⟨rfl, rfl, le_refl _, .init cfg.numCpus name hsize⟩
  · intro q tr op q' os _ ⟨hs, hn, hle, hrep⟩ hroom hstep
    obtain ⟨q₁, hq, heq⟩ := Option.map_eq_some_iff.1 hstep
    obtain ⟨rfl, rfl⟩ := Prod.mk.inj heq
    obtain ⟨hs', hn'⟩ := apply_size hq
    obtain ⟨hremoves, hrep'⟩ := hrep.apply hroom hq
    refine ⟨hs'.trans hs, hn'.trans hn, ?_, ?_⟩
    · have hlen : (live tr).length = (arrived tr).length - removed tr := by simp [live]
      simp only [removed, arrived, List.map_append, List.sum_append, List.flatMap_append,
        List.length_append] at hle hlen ⊢
      simp only [List.map_cons, List.map_nil, List.sum_cons, List.sum_nil]
      omega
    · rwa [live_snoc hle]

end

end PacketQueue

/-! ## Every run -/

open PacketQueue in
/-- However packets are added where there is room and heads are removed, a packet queue is a bounded
queue: its live slots from the head on hold the packets that arrived and were not removed, in their
order, all other slots are empty, and `check_queue` finds the first packet with the key. With room
`add_queue` and the append of `add_wq` go through, and those of `add_rq` and `add_pq` for a packet
with an address; a head can be removed where there is one. -/
theorem packet_queue_fifo (cfg : Config) (name : String) (size : ℕ) (hsize : 1 ≤ size)
    (hword : size < 2 ^ 32) (q : PacketQueue) (tr : Lts.Trace Op Packet)
    (h : (system cfg name size).Run Room q tr) :
    q.size = size ∧ q.name = name ∧ Fifo cfg.numCpus q (live tr) ∧
      (q.occupancy < size → ∀ p env, (q.addQueue p).isSome ∧ (q.addWq cfg env p).isSome ∧
        (p.address ≠ 0 → (q.addRq cfg env p).isSome ∧ (q.addPq cfg env p).isSome)) ∧
      (q.occupancy ≠ 0 → (q.removeQueue cfg.numCpus q.head).isSome) := by
  obtain ⟨rfl, rfl, -, hrep⟩ := Represents.run hsize h
  refine ⟨rfl, rfl, hrep.fifo hword, fun hroom p env => ?_, fun hocc => ?_⟩
  · have hl : (live tr).length < q.size := by rwa [← hrep.occupancy]
    have hchecked : q.appendChecked cfg env p = some (q.append (Cache.enqueued cfg env p)) :=
      hrep.appendChecked_eq hl
    refine ⟨by rw [hrep.addQueue_eq hl]; rfl, ?_, fun haddr => ?_⟩
    · rw [addWq, if_neg (by omega), hchecked]
      rfl
    · simp [addRq, addPq, hchecked, haddr]
  · rw [Option.isSome_iff_ne_none]
    intro hnone
    have hlen := hrep.occupancy
    rw [hrep.remove.1.1 hnone] at hlen
    exact hocc hlen

open PacketQueue in
/-- A queue of two packets that is full and wrapped. -/
theorem packet_queue_fifo_wrapped :
    ∃ q tr, (system (l1dConfig 1) "L1D_RQ" 2).Run Room q tr ∧ (live tr).map (·.address) = [2, 3] ∧
      Fifo 1 q (live tr) := by
  obtain ⟨q, tr, hrun, hlive⟩ := Lts.run_of_exec (system (l1dConfig 1) "L1D_RQ" 2) Room
    (fun _ tr => decide ((live tr).map (·.address) = [2, 3]))
    [.addQueue { Packet.empty 1 with address := 1 }, .addQueue { Packet.empty 1 with address := 2 },
      .removeHead, .addQueue { Packet.empty 1 with address := 3 }] rfl (by decide +kernel)
  exact ⟨q, tr, hrun, of_decide_eq_true hlive,
    (packet_queue_fifo (l1dConfig 1) "L1D_RQ" 2 (by decide) (by decide) q tr hrun).2.2.1⟩

end Arishem
