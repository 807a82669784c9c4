import Arishem.Lib.Slots
import Arishem.Cache.Packet

/-!
# The MSHR table

The table of outstanding misses with its cached bookkeeping: the number of occupied and of returned
entries and the entry that is to be filled next. A slot is free when its address is 0. The
operations are those of `cache.cc`; `Mshr.Ok` is the invariant that relates the counters to the
table, and each operation keeps it under the condition its callers establish.
-/

namespace Arishem

/-- The `MSHR` queue of a cache. -/
structure Mshr where
  /-- `MSHR.entry`, of length `MSHR_SIZE`. -/
  entry : List Packet
  occupancy : ℕ
  numReturned : ℕ
  nextFillIndex : ℕ
  nextFillCycle : Cycle

namespace Mshr

/-- The table of a new cache. -/
def init (numCpus size : ℕ) : Mshr where
  entry := List.replicate size (Packet.empty numCpus)
  occupancy := 0
  numReturned := 0
  nextFillIndex := 0
  nextFillCycle := uint64Max

/-- `MSHR_SIZE`. -/
def size (m : Mshr) : ℕ := m.entry.length

/-- `check_mshr`: the first slot with the packet's address, and the entry there. -/
def checkMshr (a : Addr) (m : Mshr) : Option (ℕ × Packet) :=
  Slots.lookup (·.address == a) m.entry

/-- `add_mshr`: the packet goes, as an in-flight miss, to the first free slot, if there is one. -/
def addMshr (p : Packet) (m : Mshr) : Mshr :=
  match m.checkMshr 0 with
  | some (i, _) =>
    { m with entry := m.entry.set i { p with returned := .inflight }, occupancy := m.occupancy + 1 }
  | none => m

/-- Overwrite the packet in slot `i`. -/
def update (i : ℕ) (p : Packet) (m : Mshr) : Mshr := { m with entry := m.entry.set i p }

/-- `update_fill_cycle`: find the completed entry that is due first. -/
def updateFillCycle (m : Mshr) : Mshr :=
  let r := Slots.firstMin (fun p : Packet => p.returned == .completed) (·.eventCycle) m.entry 0
    (uint64Max, m.size)
  { m with nextFillCycle := r.1, nextFillIndex := r.2 }

/-- `return_data` on slot `i`, which holds `e`: the data of `p` arrived, `due` is the cycle from
which the entry can be filled. -/
def complete (i : ℕ) (e p : Packet) (due : Cycle) (m : Mshr) : Mshr :=
  updateFillCycle
    { m with
      entry := m.entry.set i
        { e with returned := .completed, data := p.data, pfMetadata := p.pfMetadata,
                 eventCycle := due }
      numReturned := m.numReturned + 1 }

/-- The end of `handle_fill`: slot `i` is emptied and the next fill is looked up. -/
def remove (numCpus i : ℕ) (m : Mshr) : Mshr :=
  updateFillCycle
    { m with
      entry := m.entry.set i (Packet.empty numCpus)
      occupancy := m.occupancy - 1
      numReturned := m.numReturned - 1 }

/-- The entry at `next_fill_index`, where that names a slot. -/
def nextFill (m : Mshr) : Option Packet := m.entry[m.nextFillIndex]?

/-! ## Lookup -/

section
variable {m : Mshr} {a : Addr} {i : ℕ}

@[simp] theorem size_update {p : Packet} : (m.update i p).size = m.size := by
  simp [size, update]

@[simp] theorem size_updateFillCycle : m.updateFillCycle.size = m.size := rfl

@[simp] theorem entry_updateFillCycle : m.updateFillCycle.entry = m.entry := rfl

@[simp] theorem entry_update {p : Packet} : (m.update i p).entry = m.entry.set i p := rfl

@[simp] theorem entry_complete {e p : Packet} {due : Cycle} :
    (m.complete i e p due).entry = m.entry.set i
      { e with returned := .completed, data := p.data, pfMetadata := p.pfMetadata,
               eventCycle := due } := rfl

@[simp] theorem entry_remove {n : ℕ} :
    (m.remove n i).entry = m.entry.set i (Packet.empty n) := rfl

/-- `check_mshr` finds a slot with the address. -/
theorem checkMshr_some {e : Packet} (h : m.checkMshr a = some (i, e)) :
    ∃ hi : i < m.entry.length, m.entry[i] = e ∧ e.address = a := by
  obtain ⟨hi, he, ha⟩ := Slots.lookup_some h
  exact ⟨hi, he, by simpa using ha⟩

/-- `check_mshr` fails only when no slot has the address. -/
theorem checkMshr_none : m.checkMshr a = none ↔ ∀ p ∈ m.entry, p.address ≠ a := by
  simp [checkMshr, Slots.lookup_none]

/-- `add_mshr` where there is a free slot. -/
theorem addMshr_of_free {p e : Packet} (h : m.checkMshr 0 = some (i, e)) :
    m.addMshr p = { m with entry := m.entry.set i { p with returned := .inflight },
                           occupancy := m.occupancy + 1 } := by
  simp only [addMshr, h]

/-- A slot that `check_mshr` finds is a member of the table. -/
theorem mem_of_checkMshr {e : Packet} (h : m.checkMshr a = some (i, e)) : e ∈ m.entry :=
  Slots.mem_of_lookup h

end

/-! ## The invariant -/

/-- The entries a table holds have been answered. -/
abbrev isCompleted (p : Packet) : Bool := p.returned == .completed

/-- The minimum of the event cycles of the completed entries, `UINT64_MAX` if there is none. -/
def minFillCycle (m : Mshr) : Cycle :=
  ((m.entry.filter isCompleted).map (·.eventCycle)).foldr min uint64Max

/-- The counters of a table agree with its entries. A free slot is neither in flight nor completed,
and has the type of an empty packet. -/
structure Counted (m : Mshr) : Prop where
  keyed : Slots.Keyed (fun p : Packet => p.address ≠ 0) (·.address) m.entry
  occupancy : m.occupancy = m.entry.countP (fun p => p.address != 0)
  numReturned : m.numReturned = m.entry.countP isCompleted
  free : ∀ p ∈ m.entry, p.address = 0 ↔ p.returned = .unset
  freeType : ∀ p ∈ m.entry, p.address = 0 → p.type = .load

/-- The bookkeeping of a table: its counters are right, and the next fill is a completed entry that
is due first. -/
structure Ok (m : Mshr) : Prop extends Counted m where
  le : ∀ p ∈ m.entry, p.returned = .completed → m.nextFillCycle ≤ p.eventCycle
  attained : m.nextFillCycle < uint64Max →
    ∃ p, m.nextFill = some p ∧ p.returned = .completed ∧ p.eventCycle = m.nextFillCycle

/-- The entry `p` stands for the same miss as `e` and is answered as far. -/
structure SameMiss (e p : Packet) : Prop where
  address : p.address = e.address
  returned : p.returned = e.returned
  eventCycle : p.eventCycle = e.eventCycle
  type : e.type ≠ .prefetch → p.type = e.type

section
variable {m : Mshr} {i n : ℕ} {e p : Packet} {due : Cycle}

/-- Every cycle is at most `UINT64_MAX`. -/
theorem le_uint64Max (a : Cycle) : a ≤ uint64Max := by
  rw [UInt64.le_iff_toNat_le]
  have h : a.toNat < 2 ^ 64 := a.toNat_lt
  have hmax : uint64Max.toNat = 2 ^ 64 - 1 := by decide
  omega

/-- The cached cycle is the minimum over the completed entries. -/
theorem Ok.nextFillCycle_eq (h : m.Ok) : m.nextFillCycle = m.minFillCycle := by
  have hfold : ∀ (l : List Cycle) (a : Cycle), (∀ b ∈ l, a ≤ b) → (a < uint64Max → a ∈ l) →
      a = l.foldr min uint64Max := by
    intro l a hle hmem
    apply le_antisymm
    · clear hmem
      induction l with
      | nil => exact le_uint64Max a
      | cons b l ih =>
        rw [List.foldr_cons, le_min_iff]
        exact ⟨hle b (by simp), ih fun b hb => hle b (by simp [hb])⟩
    · by_cases ha : a < uint64Max
      · have hin := hmem ha
        clear hmem hle
        induction l with
        | nil => cases hin
        | cons b l ih =>
          rw [List.foldr_cons]
          rcases List.mem_cons.1 hin with rfl | hin
          · exact min_le_left _ _
          · exact (min_le_right _ _).trans (ih hin)
      · rw [le_antisymm (le_uint64Max a) (not_lt.1 ha)]
        exact le_uint64Max _
  refine hfold _ _ ?_ ?_
  · intro b hb
    obtain ⟨p, hp, rfl⟩ := List.mem_map.1 hb
    rw [List.mem_filter] at hp
    exact h.le p hp.1 (by simpa using hp.2)
  · intro hlt
    obtain ⟨p, hp, hc, he⟩ := h.attained hlt
    refine List.mem_map.2 ⟨p, List.mem_filter.2 ⟨List.mem_of_getElem? hp, by simpa using hc⟩, he⟩

/-- A lookup of the next fill makes the whole bookkeeping right. -/
theorem Counted.updateFillCycle (h : m.Counted) : m.updateFillCycle.Ok := by
  have hle : ∀ p ∈ m.entry, p.returned = .completed →
      m.updateFillCycle.nextFillCycle ≤ p.eventCycle := fun p hp hc =>
    Slots.firstMin_le m.entry 0 _ p hp (by simpa using hc)
  refine ⟨⟨h.keyed, h.occupancy, h.numReturned, h.free, h.freeType⟩, hle, fun hlt => ?_⟩
  rcases Slots.firstMin_attained (fun p : Packet => p.returned == .completed)
      (·.eventCycle) m.entry 0 (uint64Max, m.size) with hs | ⟨j, hj, h1, h2, h3, _⟩
  · have : m.updateFillCycle.nextFillCycle = uint64Max := by
      rw [Mshr.updateFillCycle, hs]
    rw [this] at hlt
    exact absurd hlt (lt_irrefl _)
  · refine ⟨m.entry[j], ?_, by simpa using h2, h3⟩
    have hidx : m.updateFillCycle.nextFillIndex = j := by
      rw [Mshr.updateFillCycle, h1, Nat.zero_add]
    rw [nextFill, hidx, entry_updateFillCycle, List.getElem?_eq_getElem hj]

/-- A new table is well kept. -/
theorem init_ok (numCpus size : ℕ) : (Mshr.init numCpus size).Ok := by
  have hmem : ∀ p ∈ (Mshr.init numCpus size).entry, p = Packet.empty numCpus := fun p hp =>
    List.eq_of_mem_replicate hp
  refine ⟨⟨?_, ?_, ?_, ?_, ?_⟩, ?_, ?_⟩
  · intro j k hj hk hoj _ _
    exact absurd (by rw [hmem _ (List.getElem_mem hj)]; rfl) hoj
  · simp [init, List.countP_replicate]
  · simp [init, List.countP_replicate]
  · intro p hp
    simp [hmem p hp]
  · intro p hp _
    simp [hmem p hp]
  · intro p hp hc
    simp [hmem p hp] at hc
  · intro hlt
    exact absurd hlt (lt_irrefl _)

/-- Where the counter is below the size, some slot is free. -/
theorem Counted.exists_free (h : m.Counted) (hlt : m.occupancy < m.size) :
    ∃ i e, m.checkMshr 0 = some (i, e) := by
  cases hc : m.checkMshr 0 with
  | some ie => exact ⟨ie.1, ie.2, rfl⟩
  | none =>
    have hall : m.entry.countP (fun p => p.address != 0) = m.entry.length :=
      List.countP_eq_length.2 fun p hp => by simpa using checkMshr_none.1 hc p hp
    rw [h.occupancy, hall] at hlt
    exact absurd hlt (lt_irrefl _)

/-- An address that misses while some slot is free is not 0. -/
theorem Counted.address_ne_zero (h : m.Counted) (hlt : m.occupancy < m.size) {a : Addr}
    (ha : m.checkMshr a = none) : a ≠ 0 := by
  rintro rfl
  obtain ⟨i, e, hf⟩ := h.exists_free hlt
  rw [ha] at hf
  cases hf

/-- `check_mshr` finds every entry under its address. -/
theorem Counted.checkMshr_of_mem (h : m.Counted) (he : e ∈ m.entry) (h0 : e.address ≠ 0) :
    ∃ i, m.checkMshr e.address = some (i, e) := by
  cases hc : m.checkMshr e.address with
  | none => exact absurd rfl (checkMshr_none.1 hc e he)
  | some ie =>
    obtain ⟨i, e'⟩ := ie
    obtain ⟨hi, he', ha'⟩ := checkMshr_some hc
    have hee : e' = e := h.keyed.eq_of_mem (mem_of_checkMshr hc) he (by rw [ha']; exact h0) h0 ha'
    exact ⟨i, by rw [hee]⟩

/-- An entry in flight or completed has an address. -/
theorem Counted.address_ne_zero_of_returned (h : m.Counted) (he : e ∈ m.entry)
    (hr : e.returned ≠ .unset) : e.address ≠ 0 := fun h0 => hr ((h.free e he).1 h0)

/-- `add_mshr` keeps the bookkeeping right when the address is outstanding nowhere. -/
theorem Ok.addMshr (h : m.Ok) (hlt : m.occupancy < m.size)
    (ha : m.checkMshr p.address = none) : (m.addMshr p).Ok := by
  have hp0 : p.address ≠ 0 := h.address_ne_zero hlt ha
  obtain ⟨i, e, hf⟩ := h.exists_free hlt
  obtain ⟨hi, he, he0⟩ := checkMshr_some hf
  have hmem : e ∈ m.entry := mem_of_checkMshr hf
  have hunset : e.returned = .unset := (h.free e hmem).1 he0
  rw [addMshr_of_free hf]
  refine ⟨⟨?_, ?_, ?_, ?_, ?_⟩, ?_, ?_⟩
  · refine h.keyed.set fun _ j hj _ _ => ?_
    exact checkMshr_none.1 ha _ (List.getElem_mem hj)
  · have hcnt := List.countP_set (p := fun p : Packet => p.address != 0)
      (a := { p with returned := .inflight }) hi
    simp only [he, he0, hp0, bne_self_eq_false, Bool.false_eq_true, if_false, Nat.sub_zero,
      bne_iff_ne, ne_eq, not_false_eq_true, if_true] at hcnt
    rw [h.occupancy]
    exact hcnt.symm
  · have hcnt := List.countP_set (p := isCompleted) (a := { p with returned := .inflight }) hi
    simp only [he, isCompleted, hunset, beq_iff_eq, reduceCtorEq, if_false, Nat.sub_zero,
      Nat.add_zero] at hcnt
    rw [h.numReturned]
    exact hcnt.symm
  · intro q hq
    rcases List.mem_or_eq_of_mem_set hq with hq | rfl
    · exact h.free q hq
    · simp [hp0]
  · intro q hq hq0
    rcases List.mem_or_eq_of_mem_set hq with hq | rfl
    · exact h.freeType q hq hq0
    · exact absurd hq0 hp0
  · intro q hq hc
    rcases List.mem_or_eq_of_mem_set hq with hq | rfl
    · exact h.le q hq hc
    · cases hc
  · intro hlt'
    obtain ⟨q, hq, hc, hev⟩ := h.attained hlt'
    have hni : m.nextFillIndex ≠ i := fun hni => by
      rw [nextFill, hni, List.getElem?_eq_getElem hi, he] at hq
      cases hq
      rw [hunset] at hc
      cases hc
    refine ⟨q, ?_, hc, hev⟩
    show (m.entry.set i { p with returned := .inflight })[m.nextFillIndex]? = some q
    rw [List.getElem?_set_ne (Ne.symm hni)]
    exact hq

/-- Overwriting an entry by one for the same miss keeps the bookkeeping right. -/
theorem Ok.update (h : m.Ok) (hi : i < m.entry.length) (he : m.entry[i] = e)
    (hs : SameMiss e p) : (m.update i p).Ok := by
  have hmem : e ∈ m.entry := he ▸ List.getElem_mem hi
  refine ⟨⟨?_, ?_, ?_, ?_, ?_⟩, ?_, ?_⟩
  · refine h.keyed.set fun hp j hj hji hoj hk => hji ?_
    rw [hs.address] at hp hk
    exact h.keyed j i hj hi hoj (he ▸ hp) (by rw [he]; exact hk)
  · have hcnt := List.countP_set (p := fun p : Packet => p.address != 0) (a := p) hi
    rw [he, hs.address] at hcnt
    have hpos : (if (e.address != 0) = true then 1 else 0) ≤
        m.entry.countP (fun p => p.address != 0) := by
      split
      · exact List.countP_pos_iff.2 ⟨e, hmem, ‹_›⟩
      · exact Nat.zero_le _
    rw [Nat.sub_add_cancel hpos] at hcnt
    rw [Mshr.update, h.occupancy]
    exact hcnt.symm
  · have hcnt := List.countP_set (p := isCompleted) (a := p) hi
    simp only [isCompleted, he, hs.returned] at hcnt
    have hpos : (if (e.returned == .completed) = true then 1 else 0) ≤
        m.entry.countP isCompleted := by
      split
      · exact List.countP_pos_iff.2 ⟨e, hmem, ‹_›⟩
      · exact Nat.zero_le _
    rw [Nat.sub_add_cancel hpos] at hcnt
    rw [Mshr.update, h.numReturned]
    exact hcnt.symm
  · intro q hq
    rcases List.mem_or_eq_of_mem_set hq with hq | rfl
    · exact h.free q hq
    · rw [hs.address, hs.returned]
      exact h.free e hmem
  · intro q hq hq0
    rcases List.mem_or_eq_of_mem_set hq with hq | rfl
    · exact h.freeType q hq hq0
    · rw [hs.address] at hq0
      have ht := h.freeType e hmem hq0
      rw [hs.type (by simp [ht])]
      exact ht
  · intro q hq hc
    rcases List.mem_or_eq_of_mem_set hq with hq | rfl
    · exact h.le q hq hc
    · rw [hs.eventCycle]
      exact h.le e hmem (hs.returned ▸ hc)
  · intro hlt
    obtain ⟨q, hq, hc, hev⟩ := h.attained hlt
    by_cases hni : m.nextFillIndex = i
    · have hqe : q = e := by
        rw [nextFill, hni, List.getElem?_eq_getElem hi, he] at hq
        exact (Option.some.inj hq).symm
      subst hqe
      refine ⟨p, ?_, hs.returned.trans hc, hs.eventCycle.trans hev⟩
      rw [nextFill, entry_update, Mshr.update, hni, List.getElem?_set_self hi]
    · refine ⟨q, ?_, hc, hev⟩
      show (m.entry.set i p)[m.nextFillIndex]? = some q
      rw [List.getElem?_set_ne (Ne.symm hni)]
      exact hq

/-- `return_data` for an entry in flight keeps the bookkeeping right. -/
theorem Ok.complete (h : m.Ok) (hi : i < m.entry.length) (he : m.entry[i] = e)
    (hin : e.returned = .inflight) : (m.complete i e p due).Ok := by
  have hmem : e ∈ m.entry := he ▸ List.getElem_mem hi
  have he0 : e.address ≠ 0 := fun h0 => by
    have := (h.free e hmem).1 h0
    rw [hin] at this
    cases this
  refine Counted.updateFillCycle ⟨?_, ?_, ?_, ?_, ?_⟩
  · refine h.keyed.set fun hp j hj hji hoj hk => hji ?_
    exact h.keyed j i hj hi hoj (he ▸ he0) (by rw [he]; exact hk)
  · have hcnt := List.countP_set (p := fun p : Packet => p.address != 0)
      (a := { e with returned := .completed, data := p.data, pfMetadata := p.pfMetadata,
                     eventCycle := due }) hi
    have hpos : 0 < m.entry.countP (fun p => p.address != 0) :=
      List.countP_pos_iff.2 ⟨e, hmem, by simpa using he0⟩
    simp only [he, bne_iff_ne, ne_eq, he0, not_false_eq_true, if_true] at hcnt
    simp only [h.occupancy]
    omega
  · have hcnt := List.countP_set (p := isCompleted)
      (a := { e with returned := .completed, data := p.data, pfMetadata := p.pfMetadata,
                     eventCycle := due }) hi
    simp only [he, isCompleted, hin, beq_iff_eq, reduceCtorEq, if_false, Nat.sub_zero,
      if_true] at hcnt
    simp only [h.numReturned]
    exact hcnt.symm
  · intro q hq
    rcases List.mem_or_eq_of_mem_set hq with hq | rfl
    · exact h.free q hq
    · simp [he0]
  · intro q hq hq0
    rcases List.mem_or_eq_of_mem_set hq with hq | rfl
    · exact h.freeType q hq hq0
    · exact absurd hq0 he0

/-- Giving up a completed slot keeps the bookkeeping right. -/
theorem Ok.remove (h : m.Ok) (hi : i < m.entry.length) (hc : m.entry[i].returned = .completed) :
    (m.remove n i).Ok := by
  have hmem : m.entry[i] ∈ m.entry := List.getElem_mem hi
  have he0 : m.entry[i].address ≠ 0 := fun h0 => by
    have := (h.free _ hmem).1 h0
    rw [hc] at this
    cases this
  refine Counted.updateFillCycle ⟨?_, ?_, ?_, ?_, ?_⟩
  · exact h.keyed.set fun h0 => absurd rfl h0
  · have hcnt := List.countP_set (p := fun p : Packet => p.address != 0)
      (a := Packet.empty n) hi
    simp only [bne_iff_ne, ne_eq, he0, not_false_eq_true, if_true, Packet.empty_address,
      not_true_eq_false, if_false, Nat.add_zero] at hcnt
    simp only [h.occupancy]
    exact hcnt.symm
  · have hcnt := List.countP_set (p := isCompleted) (a := Packet.empty n) hi
    simp only [isCompleted, hc, beq_self_eq_true, if_true, Packet.empty_returned, beq_iff_eq,
      reduceCtorEq, if_false, Nat.add_zero] at hcnt
    simp only [h.numReturned]
    exact hcnt.symm
  · intro q hq
    rcases List.mem_or_eq_of_mem_set hq with hq | rfl
    · exact h.free q hq
    · simp
  · intro q hq hq0
    rcases List.mem_or_eq_of_mem_set hq with hq | rfl
    · exact h.freeType q hq hq0
    · simp

/-! ## The outstanding lines -/

/-- The line is outstanding. -/
def Has (a : Addr) (m : Mshr) : Prop := ∃ e ∈ m.entry, e.address = a

/-- Nothing is outstanding in a new table. -/
theorem init_not_has {numCpus size : ℕ} {a : Addr} (ha : a ≠ 0) :
    ¬ (Mshr.init numCpus size).Has a := by
  rintro ⟨e, he, rfl⟩
  rw [List.eq_of_mem_replicate he] at ha
  exact ha rfl

/-- An entry for the same miss leaves the outstanding lines as they are. -/
theorem Has.of_update {a : Addr} (hi : i < m.entry.length) (he : m.entry[i] = e)
    (hs : SameMiss e p) (h : (m.update i p).Has a) : m.Has a := by
  obtain ⟨q, hq, rfl⟩ := h
  rcases List.mem_or_eq_of_mem_set hq with hq | rfl
  · exact ⟨q, hq, rfl⟩
  · exact ⟨e, he ▸ List.getElem_mem hi, hs.address.symm⟩

/-- `add_mshr` adds the packet's line. -/
theorem Has.of_addMshr {a : Addr} (h : (m.addMshr p).Has a) : m.Has a ∨ a = p.address := by
  obtain ⟨q, hq, rfl⟩ := h
  cases hf : m.checkMshr 0 with
  | none =>
    rw [Mshr.addMshr, hf] at hq
    exact .inl ⟨q, hq, rfl⟩
  | some ie =>
    rw [addMshr_of_free (i := ie.1) (e := ie.2) hf] at hq
    rcases List.mem_or_eq_of_mem_set hq with hq | rfl
    · exact .inl ⟨q, hq, rfl⟩
    · exact .inr rfl

/-- `return_data` leaves the outstanding lines as they are. -/
theorem Has.of_complete {a : Addr} (hi : i < m.entry.length) (he : m.entry[i] = e)
    (h : (m.complete i e p due).Has a) : m.Has a := by
  obtain ⟨q, hq, rfl⟩ := h
  rw [entry_complete] at hq
  rcases List.mem_or_eq_of_mem_set hq with hq | rfl
  · exact ⟨q, hq, rfl⟩
  · exact ⟨e, he ▸ List.getElem_mem hi, rfl⟩

/-- Giving up a slot frees its line and no other. -/
theorem Counted.has_of_remove (h : m.Counted) {a : Addr} (ha : a ≠ 0) (hi : i < m.entry.length)
    (hr : (m.remove n i).Has a) : m.Has a ∧ a ≠ m.entry[i].address := by
  obtain ⟨q, hq, rfl⟩ := hr
  rw [entry_remove] at hq
  obtain ⟨j, hj, hjq⟩ := List.getElem_of_mem hq
  rw [List.getElem_set] at hjq
  split at hjq
  · subst hjq
    exact absurd rfl ha
  · rename_i hij
    rw [List.length_set] at hj
    refine ⟨⟨q, hjq ▸ List.getElem_mem hj, rfl⟩, fun heq => hij ?_⟩
    subst hjq
    exact h.keyed i j hi hj (fun h0 => ha (by rw [heq, h0])) ha heq.symm

end

end Mshr

end Arishem
