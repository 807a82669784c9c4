import Arishem.Tracer.Records

/-!
# What the tracer records

The calls of one kind append their operands, one after the other, to what the record has of that kind.
Behind the calls of an instruction the record has the first operands of each kind, and it is written
once.
-/

namespace Arishem

namespace Recorder

open Filling

/-- A load of an execution. -/
structure Load where
  addr : UInt64
  size : UInt32

/-- A store of an execution, with the number of its operand; a lane has none. -/
structure Store where
  op : Option ℕ
  addr : UInt64
  size : UInt32

/-- The bytes of a memory value. -/
def memValue (m : Memory) (addr : UInt64) (size : UInt32) : MemValue :=
  copyOver (fun _ => 0) (safeCopy m addr (min size.toNat maxMemValueSize))

/-- The value of a load in a record. -/
def loadValue (m : Memory) (captureValues : Bool) (l : Load) : MemValue :=
  if captureValues then memValue m l.addr l.size else fun _ => 0

/-- A record with some operands: the first ones of each kind, as far as there is room. -/
def built (m : Memory) (captureValues : Bool) (regsR regsW : List UInt8) (loads : List Load)
    (stores : List Store) (value : Store → MemValue) : TraceInstr :=
  { TraceInstr.zero with
    destinationRegisters := fill _ 0 id regsW
    sourceRegisters := fill _ 0 id regsR
    destinationMemory := fill _ 0 Store.addr stores
    sourceMemory := fill _ 0 Load.addr loads
    sourceMemorySize := fill _ 0 (fun l => byteSize l.size) loads
    destinationMemorySize := fill _ 0 (fun s => byteSize s.size) stores
    sourceMemoryValue := fill _ (fun _ => 0) (loadValue m captureValues) loads
    destinationMemoryValue := fill _ (fun _ => 0) value stores }

/-- The values of the stores, when those of some operands are filled in. -/
def filled (g : Store → MemValue) (done : List ℕ) (s : Store) : MemValue :=
  if ∃ op ∈ done, s.op = some op ∧ op < maxWriteOps then g s else fun _ => 0

/-- No two stores are of one operand. -/
def Distinct (stores : List Store) : Prop :=
  ∀ (i j : ℕ) (s t : Store) (op : ℕ), stores[i]? = some s → stores[j]? = some t → s.op = some op →
    t.op = some op → i = j

/-- The pending stores: those in the record whose value is still to be filled in. -/
structure Pending (fillStoreValues : Bool) (stores : List Store) (done : List ℕ)
    (slot : Fin maxWriteOps → Option (Fin numInstrDestinations)) (addr : Fin maxWriteOps → UInt64)
    (size : Fin maxWriteOps → UInt32) : Prop where
  place : ∀ op k, slot op = some k ↔ fillStoreValues = true ∧ (op : ℕ) ∉ done ∧
    ∃ s, stores[(k : ℕ)]? = some s ∧ s.op = some (op : ℕ)
  operand : ∀ op k s, slot op = some k → stores[(k : ℕ)]? = some s → addr op = s.addr ∧ size op = s.size

/-- The state while the calls of an instruction run. -/
structure Building (m : Memory) (captureValues fillStoreValues : Bool) (regsR regsW : List UInt8)
    (loads : List Load) (stores : List Store) (g : Store → MemValue) (done : List ℕ)
    (r₀ r : Recorder) : Prop where
  tracing : r.thread.phase = .tracing
  thread : r.thread = r₀.thread
  instr : r.currInstr = built m captureValues regsR regsW loads stores (filled g done)
  pending : Pending fillStoreValues stores done r.pendingStoreSlot r.pendingStoreAddr
    r.pendingStoreSize
  distinct : Distinct stores
  overflowedSrc : r.warnings.overflowedSrcMemops =
    r₀.warnings.overflowedSrcMemops + (loads.length - numInstrSources)
  overflowedDst : r.warnings.overflowedDstMemops =
    r₀.warnings.overflowedDstMemops + (stores.length - numInstrDestinations)

section
variable {m m' : Memory} {captureValues fillStoreValues : Bool} {regsR regsW : List UInt8}
  {loads : List Load} {stores : List Store} {g : Store → MemValue} {done : List ℕ}
  {r₀ r : Recorder}

/-! ## One call -/

/-- An array of registers after a register: 0 is not seen. -/
theorem update_regs {n : ℕ} {regs : List UInt8} (hregs : ∀ reg ∈ regs, reg ≠ 0) (reg : UInt8) :
    (∀ i, firstFree 0 (fill n 0 id regs) = some i →
      Function.update (fill n 0 id regs) i reg = fill n 0 id (regs ++ [reg].filter (· ≠ 0))) ∧
    (firstFree 0 (fill n 0 id regs) = none →
      fill n 0 id regs = fill n 0 id (regs ++ [reg].filter (· ≠ 0))) := by
  rcases Nat.lt_or_ge regs.length n with hlt | hge
  · have hfree : firstFree 0 (fill n 0 id regs) = some ⟨regs.length, hlt⟩ := firstFree_fill hregs hlt
    refine ⟨fun i hi => ?_, fun hnone => by simp [hfree] at hnone⟩
    rw [hfree] at hi
    obtain rfl := Option.some.inj hi
    rcases eq_or_ne reg 0 with rfl | hne
    · have hzero : fill n 0 id regs ⟨regs.length, hlt⟩ = 0 := fill_length hlt
      simp [hzero]
    · rw [List.filter_cons_of_pos (by simpa using hne), List.filter_nil]
      exact update_fill hlt reg
  · refine ⟨fun i hi => ?_, fun _ => (fill_append_of_le hge _).symm⟩
    rw [firstFree_full (f := id) hregs hge] at hi
    exact absurd hi (by simp)

theorem Building.regRead
    (h : Building m captureValues fillStoreValues regsR regsW loads stores g done r₀ r)
    (hregs : ∀ reg ∈ regsR, reg ≠ 0) (reg : UInt32) :
    Building m captureValues fillStoreValues (regsR ++ [reg.toUInt8].filter (· ≠ 0)) regsW loads
      stores g done r₀ (r.recordRegRead reg) := by
  obtain ⟨hsome, hnone⟩ := update_regs (n := numInstrSources) hregs reg.toUInt8
  have hsource : r.currInstr.sourceRegisters = fill _ 0 id regsR := by rw [h.instr, built]
  rw [recordRegRead, if_neg (by simp [h.tracing]), hsource]
  cases hfree : firstFree 0 (fill numInstrSources 0 id regsR) with
  | none =>
    refine { h with instr := ?_ }
    rw [h.instr, built, built, ← hnone hfree]
  | some i =>
    refine { h with instr := ?_ }
    dsimp only
    rw [h.instr, hsome i hfree]
    rfl

theorem Building.regWrite
    (h : Building m captureValues fillStoreValues regsR regsW loads stores g done r₀ r)
    (hregs : ∀ reg ∈ regsW, reg ≠ 0) (reg : UInt32) :
    Building m captureValues fillStoreValues regsR (regsW ++ [reg.toUInt8].filter (· ≠ 0)) loads
      stores g done r₀ (r.recordRegWrite reg) := by
  obtain ⟨hsome, hnone⟩ := update_regs (n := numInstrDestinations) hregs reg.toUInt8
  have hdest : r.currInstr.destinationRegisters = fill _ 0 id regsW := by rw [h.instr, built]
  rw [recordRegWrite, if_neg (by simp [h.tracing]), hdest]
  cases hfree : firstFree 0 (fill numInstrDestinations 0 id regsW) with
  | none =>
    refine { h with instr := ?_ }
    rw [h.instr, built, built, ← hnone hfree]
  | some i =>
    refine { h with instr := ?_ }
    dsimp only
    rw [h.instr, hsome i hfree]
    rfl

/-- A value is copied: the counters of operands stay. -/
theorem clamp_copy (m : Memory) (addr : UInt64) (size : UInt32) (w : Warnings) : ∃ n w₁ w₂,
    clampValueSize size w = (n, w₁) ∧
    safeCopyValue m (fun _ => 0) addr n w₁ = (memValue m addr size, w₂) ∧
    w₂.overflowedSrcMemops = w.overflowedSrcMemops ∧
    w₂.overflowedDstMemops = w.overflowedDstMemops := by
  have hcopy : ∀ n w₁, ∃ w₂, safeCopyValue m (fun _ => 0) addr n w₁ =
        (copyOver (fun _ => 0) (safeCopy m addr n), w₂) ∧
      w₂.overflowedSrcMemops = w₁.overflowedSrcMemops ∧
      w₂.overflowedDstMemops = w₁.overflowedDstMemops := by
    intro n w₁
    refine ⟨_, rfl, ?_⟩
    split <;> exact ⟨rfl, rfl⟩
  rw [memValue, clampValueSize]
  split
  · rename_i hlt
    obtain ⟨w₂, hw₂, hsrc, hdst⟩ := hcopy maxMemValueSize
      { w with truncatedValues := w.truncatedValues + 1 }
    rw [Nat.min_eq_right (Nat.le_of_lt hlt)]
    exact ⟨_, _, w₂, rfl, hw₂, hsrc, hdst⟩
  · rename_i hle
    obtain ⟨w₂, hw₂, hsrc, hdst⟩ := hcopy size.toNat w
    rw [Nat.min_eq_left (Nat.not_lt.1 hle)]
    exact ⟨_, _, w₂, rfl, hw₂, hsrc, hdst⟩

/-- A load goes to the next slot, or is counted. -/
theorem Building.memRead
    (h : Building m captureValues fillStoreValues regsR regsW loads stores g done r₀ r)
    (hloads : ∀ l ∈ loads, l.addr ≠ 0) (l : Load) :
    Building m captureValues fillStoreValues regsR regsW (loads ++ [l]) stores g done r₀
      (r.recordMemRead m l.addr l.size captureValues) := by
  have hsource : r.currInstr.sourceMemory = fill _ 0 Load.addr loads := by rw [h.instr, built]
  rw [recordMemRead, if_neg (by simp [h.tracing]), hsource]
  rcases Nat.lt_or_ge loads.length numInstrSources with hlt | hge
  · have hvalue : r.currInstr.sourceMemoryValue ⟨loads.length, hlt⟩ = fun _ => 0 := by
      rw [h.instr, built]
      exact fill_length hlt
    have hcount : r.warnings.overflowedSrcMemops =
        r₀.warnings.overflowedSrcMemops + ((loads ++ [l]).length - numInstrSources) := by
      rw [h.overflowedSrc, List.length_append, List.length_singleton]
      omega
    have haddr := update_fill (d := 0) (f := Load.addr) hlt l
    have hsize := update_fill (d := 0) (f := fun l => byteSize l.size) hlt l
    have hval := update_fill (d := fun _ => 0) (f := loadValue m captureValues) hlt l
    rw [firstFree_fill hloads hlt]
    cases captureValues with
    | true =>
      obtain ⟨n, w₁, w₂, hclamp, hcopy, hsrc, hdst⟩ := clamp_copy m l.addr l.size r.warnings
      simp only [if_true, hclamp, hvalue, hcopy]
      refine { h with instr := ?_, overflowedSrc := hsrc.trans hcount, overflowedDst := ?_ }
      · rw [h.instr, built, built]
        simp only [haddr, hsize]
        rw [← hval]
        rfl
      · exact hdst.trans h.overflowedDst
    | false =>
      simp only [Bool.false_eq_true, if_false]
      refine { h with instr := ?_, overflowedSrc := hcount }
      rw [h.instr, built, built]
      simp only [haddr, hsize]
      rw [← hval, Function.update_eq_self_iff.2 (fill_length hlt).symm]
  · have hnone : firstFree 0 (fill numInstrSources 0 Load.addr loads) = none :=
      firstFree_full hloads hge
    rw [hnone]
    refine { h with instr := ?_, overflowedSrc := ?_ }
    · rw [h.instr, built, built, fill_append_of_le hge, fill_append_of_le hge, fill_append_of_le hge]
    · dsimp only
      rw [h.overflowedSrc, List.length_append, List.length_singleton]
      omega

/-- What is at a place after one more store. -/
theorem getElem?_append_store {k : ℕ} {s t : Store} (h : (stores ++ [s])[k]? = some t) :
    stores[k]? = some t ∨ (k = stores.length ∧ t = s) := by
  rcases Nat.lt_or_ge k stores.length with hlt | hge
  · rw [List.getElem?_append_left hlt] at h
    exact .inl h
  · rw [List.getElem?_append_right hge] at h
    have hk : k - stores.length = 0 := by
      by_contra hne
      rw [List.getElem?_eq_none (by simpa using Nat.one_le_iff_ne_zero.2 hne)] at h
      exact absurd h (by simp)
    rw [hk] at h
    exact .inr ⟨by omega, (Option.some.inj h).symm⟩

theorem getElem?_append_of_some {k : ℕ} {t : Store} (h : stores[k]? = some t) (s : Store) :
    (stores ++ [s])[k]? = some t := by
  obtain ⟨hlt, -⟩ := List.getElem?_eq_some_iff.1 h
  rw [List.getElem?_append_left hlt, h]

section
variable {slot : Fin maxWriteOps → Option (Fin numInstrDestinations)} {addr : Fin maxWriteOps → UInt64}
  {size : Fin maxWriteOps → UInt32}

/-- A store that has no slot, or no number that is kept, is not pending. -/
theorem Pending.append (h : Pending fillStoreValues stores done slot addr size) (s : Store)
    (hs : fillStoreValues = true → numInstrDestinations ≤ stores.length ∨
      ∀ op < maxWriteOps, s.op ≠ some op) :
    Pending fillStoreValues (stores ++ [s]) done slot addr size := by
  refine ⟨fun op k => ?_, fun op k t hslot ht => ?_⟩
  · rw [h.place]
    refine and_congr_right fun hfill => and_congr_right fun _ => ⟨?_, ?_⟩
    · rintro ⟨t, ht, hop⟩
      exact ⟨t, getElem?_append_of_some ht s, hop⟩
    · rintro ⟨t, ht, hop⟩
      rcases getElem?_append_store ht with ht | ⟨hk, rfl⟩
      · exact ⟨t, ht, hop⟩
      · rcases hs hfill with hfull | hnone
        · exact absurd (hk ▸ k.isLt) (Nat.not_lt.2 hfull)
        · exact absurd hop (hnone op op.isLt)
  · obtain ⟨-, -, t', ht', -⟩ := (h.place op k).1 hslot
    rw [getElem?_append_of_some ht' s] at ht
    obtain rfl := Option.some.inj ht
    exact h.operand op k t' hslot ht'

/-- A store with a slot and a number is pending. -/
theorem Pending.push (h : Pending true stores done slot addr size)
    (hlt : stores.length < numInstrDestinations) (op : Fin maxWriteOps) (hdone : (op : ℕ) ∉ done)
    (hnew : ∀ s ∈ stores, s.op ≠ some (op : ℕ)) (a : UInt64) (n : UInt32) :
    Pending true (stores ++ [⟨some op, a, n⟩]) done
      (Function.update slot op (some ⟨stores.length, hlt⟩)) (Function.update addr op a)
      (Function.update size op n) := by
  have hat : (stores ++ [(⟨some op, a, n⟩ : Store)])[stores.length]? = some ⟨some op, a, n⟩ := by simp
  refine ⟨fun op' k => ?_, fun op' k t hslot ht => ?_⟩
  · rcases eq_or_ne op' op with rfl | hne
    · rw [Function.update_self, Option.some_inj]
      constructor
      · rintro rfl
        exact ⟨rfl, hdone, _, hat, rfl⟩
      · rintro ⟨-, -, t, ht, hop⟩
        rcases getElem?_append_store ht with ht | ⟨hk, -⟩
        · exact absurd hop (hnew t (List.mem_of_getElem? ht))
        · exact Fin.ext hk.symm
    · rw [Function.update_of_ne hne, h.place]
      refine and_congr_right fun _ => and_congr_right fun _ => ⟨?_, ?_⟩
      · rintro ⟨t, ht, hop⟩
        exact ⟨t, getElem?_append_of_some ht _, hop⟩
      · rintro ⟨t, ht, hop⟩
        rcases getElem?_append_store ht with ht | ⟨-, rfl⟩
        · exact ⟨t, ht, hop⟩
        · exact absurd (Fin.ext (Option.some.inj hop).symm) hne
  · rcases eq_or_ne op' op with rfl | hne
    · rw [Function.update_self] at hslot
      obtain rfl := Option.some.inj hslot
      rw [hat] at ht
      obtain rfl := Option.some.inj ht
      rw [Function.update_self, Function.update_self]
      exact ⟨rfl, rfl⟩
    · rw [Function.update_of_ne hne] at hslot ⊢
      rw [Function.update_of_ne hne]
      obtain ⟨-, -, t', ht', -⟩ := (h.place op' k).1 hslot
      rw [getElem?_append_of_some ht'] at ht
      obtain rfl := Option.some.inj ht
      exact h.operand op' k t' hslot ht'

end

theorem Distinct.append (h : Distinct stores) {s : Store}
    (hs : ∀ op, s.op = some op → ∀ t ∈ stores, t.op ≠ some op) : Distinct (stores ++ [s]) := by
  intro i j t u op ht hu htop huop
  rcases getElem?_append_store ht with hti | ⟨hi, rfl⟩
  · rcases getElem?_append_store hu with huj | ⟨-, rfl⟩
    · exact h i j t u op hti huj htop huop
    · exact absurd htop (hs op huop t (List.mem_of_getElem? hti))
  · rcases getElem?_append_store hu with huj | ⟨hj, -⟩
    · exact absurd huop (hs op htop u (List.mem_of_getElem? huj))
    · exact hi.trans hj.symm

/-- The array of the stores after one more. -/
theorem built_store {value : Store → MemValue} (hlt : stores.length < numInstrDestinations) (s : Store)
    (hvalue : value s = fun _ => 0) :
    { built m captureValues regsR regsW loads stores value with
      destinationMemory := Function.update (fill _ 0 Store.addr stores) ⟨stores.length, hlt⟩ s.addr
      destinationMemorySize := Function.update (fill _ 0 (fun s => byteSize s.size) stores)
        ⟨stores.length, hlt⟩ (byteSize s.size) } =
    built m captureValues regsR regsW loads (stores ++ [s]) value := by
  have haddr := update_fill (d := 0) (f := Store.addr) hlt s
  have hsize := update_fill (d := 0) (f := fun s => byteSize s.size) hlt s
  have hval := update_fill (d := fun _ => 0) (f := value) hlt s
  rw [hvalue, Function.update_eq_self_iff.2 (fill_length hlt).symm] at hval
  rw [built, built, ← haddr, ← hsize, ← hval]

theorem filled_of_notMem {s : Store} (h : ∀ op ∈ done, s.op ≠ some op) :
    filled g done s = fun _ => 0 :=
  if_neg fun ⟨op, hmem, hop, _⟩ => h op hmem hop

/-- A store of an operand goes to the next slot, or is counted. -/
theorem Building.memWrite
    (h : Building m captureValues fillStoreValues regsR regsW loads stores g done r₀ r)
    (hstores : ∀ s ∈ stores, s.addr ≠ 0) {op : ℕ} (hdone : op ∉ done)
    (hnew : ∀ s ∈ stores, s.op ≠ some op) (a : UInt64) (n : UInt32) :
    Building m captureValues fillStoreValues regsR regsW loads (stores ++ [⟨some op, a, n⟩]) g
      done r₀ (r.recordMemWrite a n op fillStoreValues) := by
  have hdest : r.currInstr.destinationMemory = fill _ 0 Store.addr stores := by rw [h.instr, built]
  have hdistinct : Distinct (stores ++ [⟨some op, a, n⟩]) := by
    refine h.distinct.append fun op' hop' => ?_
    obtain rfl := Option.some.inj hop'
    exact hnew
  have hcount : ∀ c, c + ((stores ++ [(⟨some op, a, n⟩ : Store)]).length - numInstrDestinations) =
      c + (stores.length + 1 - numInstrDestinations) := fun c => by
    rw [List.length_append, List.length_singleton]
  have hunfilled : filled g done ⟨some op, a, n⟩ = fun _ => 0 := by
    refine filled_of_notMem fun op' hmem heq => hdone ?_
    obtain rfl := Option.some.inj heq
    exact hmem
  rw [recordMemWrite, if_neg (by simp [h.tracing]), hdest]
  rcases Nat.lt_or_ge stores.length numInstrDestinations with hlt | hge
  · rw [firstFree_fill hstores hlt]
    have hdst : r.warnings.overflowedDstMemops = r₀.warnings.overflowedDstMemops +
        ((stores ++ [(⟨some op, a, n⟩ : Store)]).length - numInstrDestinations) := by
      rw [h.overflowedDst, hcount]
      omega
    by_cases hcap : fillStoreValues = true ∧ op < maxWriteOps
    · obtain ⟨rfl, hop⟩ := hcap
      have hpush := h.pending.push hlt ⟨op, hop⟩ hdone hnew a n
      simp only [hop, and_self, dif_pos]
      refine { h with instr := ?_, pending := hpush, distinct := hdistinct, overflowedDst := hdst }
      rw [h.instr]
      exact built_store hlt ⟨some op, a, n⟩ hunfilled
    · have hpending := h.pending.append ⟨some op, a, n⟩ fun hfill => .inr fun op' hop' heq =>
        hcap ⟨hfill, Option.some.inj heq ▸ hop'⟩
      simp only [hcap, dif_neg, not_false_eq_true]
      refine { h with instr := ?_, pending := hpending, distinct := hdistinct, overflowedDst := hdst }
      rw [h.instr]
      exact built_store hlt ⟨some op, a, n⟩ hunfilled
  · have hnone : firstFree 0 (fill numInstrDestinations 0 Store.addr stores) = none :=
      firstFree_full hstores hge
    rw [hnone]
    have hpending := h.pending.append ⟨some op, a, n⟩ fun _ => .inl hge
    refine { h with instr := ?_, pending := hpending, distinct := hdistinct, overflowedDst := ?_ }
    · rw [h.instr, built, built, fill_append_of_le hge, fill_append_of_le hge, fill_append_of_le hge]
    · dsimp only
      rw [h.overflowedDst, hcount]
      omega

/-- A lane that stores goes to the next slot, or is counted. -/
theorem Building.scatterStore
    (h : Building m captureValues fillStoreValues regsR regsW loads stores g done r₀ r)
    (hstores : ∀ s ∈ stores, s.addr ≠ 0) (lane : Lane) :
    Building m captureValues fillStoreValues regsR regsW loads
      (stores ++ [⟨none, lane.memoryAddress, lane.bytesAccessed⟩]) g done r₀
      (r.recordScatterStore lane) := by
  have hdest : r.currInstr.destinationMemory = fill _ 0 Store.addr stores := by rw [h.instr, built]
  have hdistinct : Distinct (stores ++ [⟨none, lane.memoryAddress, lane.bytesAccessed⟩]) :=
    h.distinct.append fun op hop => absurd hop (by simp)
  have hunfilled : filled g done ⟨none, lane.memoryAddress, lane.bytesAccessed⟩ = fun _ => 0 :=
    filled_of_notMem fun op _ => by simp
  have hpending := h.pending.append ⟨none, lane.memoryAddress, lane.bytesAccessed⟩
    fun _ => .inr fun op _ => by simp
  rw [recordScatterStore, hdest]
  rcases Nat.lt_or_ge stores.length numInstrDestinations with hlt | hge
  · rw [firstFree_fill hstores hlt]
    refine { h with instr := ?_, pending := hpending, distinct := hdistinct, overflowedDst := ?_ }
    · dsimp only
      rw [h.instr]
      exact built_store hlt ⟨none, lane.memoryAddress, lane.bytesAccessed⟩ hunfilled
    · dsimp only
      rw [h.overflowedDst, List.length_append, List.length_singleton]
      omega
  · have hnone : firstFree 0 (fill numInstrDestinations 0 Store.addr stores) = none :=
      firstFree_full hstores hge
    rw [hnone]
    refine { h with instr := ?_, pending := hpending, distinct := hdistinct, overflowedDst := ?_ }
    · dsimp only
      rw [h.instr, built, built, fill_append_of_le hge, fill_append_of_le hge, fill_append_of_le hge]
    · dsimp only
      rw [h.overflowedDst, List.length_append, List.length_singleton]
      omega

/-! ## The values of stores -/

/-- A store whose value was filled in is not pending any more. -/
theorem Pending.finish {slot slot' : Fin maxWriteOps → Option (Fin numInstrDestinations)}
    {addr : Fin maxWriteOps → UInt64} {size : Fin maxWriteOps → UInt32}
    (h : Pending true stores done slot addr size) (op : ℕ)
    (hslot : ∀ op', slot' op' = if (op' : ℕ) = op then none else slot op') :
    Pending true stores (done ++ [op]) slot' addr size := by
  refine ⟨fun op' k => ?_, fun op' k s hs => ?_⟩
  · rw [hslot]
    split
    · rename_i heq
      simp [heq]
    · rename_i hne
      rw [h.place, List.mem_append, List.mem_singleton, not_or]
      simp [hne]
  · rw [hslot] at hs
    split at hs
    · exact absurd hs (by simp)
    · exact h.operand op' k s hs

theorem filled_append_of_ne {op : ℕ} {s : Store} (h : ¬(s.op = some op ∧ op < maxWriteOps)) :
    filled g (done ++ [op]) s = filled g done s := by
  simp only [filled, List.mem_append, List.mem_singleton, or_and_right, exists_or, exists_eq_left, h,
    or_false]

/-- Nothing is pending for the operand. -/
theorem Building.skipValue
    (h : Building m captureValues true regsR regsW loads stores g done r₀ r) {op : ℕ}
    (hdone : op ∉ done) (hnone : ∀ hlt, r.pendingStoreSlot ⟨op, hlt⟩ = none) :
    Building m captureValues true regsR regsW loads stores g (done ++ [op]) r₀ r := by
  have hvalue : fill numInstrDestinations (fun _ => 0) (filled g (done ++ [op])) stores =
      fill _ (fun _ => 0) (filled g done) stores := by
    funext k
    rw [fill, fill]
    cases hs : stores[(k : ℕ)]? with
    | none => rfl
    | some s =>
      refine filled_append_of_ne ?_
      rintro ⟨hop, hlt⟩
      have hslot := (h.pending.place ⟨op, hlt⟩ k).2 ⟨rfl, hdone, s, hs, hop⟩
      rw [hnone hlt] at hslot
      exact absurd hslot (by simp)
  refine { h with instr := ?_, pending := h.pending.finish op fun op' => ?_ }
  · rw [h.instr, built, built, hvalue]
  · split
    · rename_i heq
      subst heq
      exact hnone op'.isLt
    · rfl

/-- The value of a pending store is filled in. -/
theorem Building.fillValue
    (h : Building m captureValues true regsR regsW loads stores g done r₀ r) {op : Fin maxWriteOps}
    {k : Fin numInstrDestinations} (hslot : r.pendingStoreSlot op = some k) {s : Store}
    (hs : stores[(k : ℕ)]? = some s) {w' : Warnings}
    (hsrc : w'.overflowedSrcMemops = r.warnings.overflowedSrcMemops)
    (hdst : w'.overflowedDstMemops = r.warnings.overflowedDstMemops) :
    Building m captureValues true regsR regsW loads stores g (done ++ [(op : ℕ)]) r₀
      { r with
        currInstr := { r.currInstr with
          destinationMemoryValue := Function.update r.currInstr.destinationMemoryValue k (g s) }
        pendingStoreSlot := Function.update r.pendingStoreSlot op none
        warnings := w' } := by
  obtain ⟨-, -, s', hs', hop⟩ := (h.pending.place op k).1 hslot
  rw [hs] at hs'
  obtain rfl := Option.some.inj hs'
  have hnew : filled g (done ++ [(op : ℕ)]) s = g s :=
    if_pos ⟨op, by simp, hop, op.isLt⟩
  have hvalue : Function.update (fill numInstrDestinations (fun _ => 0) (filled g done) stores) k
      (g s) = fill _ (fun _ => 0) (filled g (done ++ [(op : ℕ)])) stores := by
    rw [← hnew]
    refine update_fill_congr hs fun j _ t ht hne => filled_append_of_ne ?_
    rintro ⟨htop, -⟩
    exact hne (h.distinct j k t s op ht hs htop hop)
  refine { h with
    instr := ?_
    pending := h.pending.finish op fun op' => ?_
    overflowedSrc := hsrc.trans h.overflowedSrc
    overflowedDst := hdst.trans h.overflowedDst }
  · dsimp only
    rw [h.instr]
    dsimp only [built]
    rw [hvalue]
  · dsimp only
    rcases eq_or_ne op' op with rfl | hne
    · rw [Function.update_self, if_pos rfl]
    · rw [Function.update_of_ne hne, if_neg fun heq => hne (Fin.ext heq)]

/-- The slot of a pending store, and the value that it has before. -/
theorem Building.pendingStore
    (h : Building m captureValues true regsR regsW loads stores g done r₀ r) {op : Fin maxWriteOps}
    {k : Fin numInstrDestinations} (hslot : r.pendingStoreSlot op = some k) :
    ∃ s, stores[(k : ℕ)]? = some s ∧ r.pendingStoreAddr op = s.addr ∧ r.pendingStoreSize op = s.size ∧
      r.currInstr.destinationMemoryValue k = fun _ => 0 := by
  obtain ⟨-, hdone, s, hs, hop⟩ := (h.pending.place op k).1 hslot
  obtain ⟨haddr, hsize⟩ := h.pending.operand op k s hslot hs
  refine ⟨s, hs, haddr, hsize, ?_⟩
  have hvalue : r.currInstr.destinationMemoryValue k = filled g done s := by
    rw [h.instr, built]
    exact fill_apply hs
  rw [hvalue]
  refine filled_of_notMem fun op' hmem heq => hdone ?_
  rw [hop] at heq
  rwa [Option.some.inj heq]

/-- The value of a store is copied behind the instruction. -/
theorem Building.memWriteValue {g : Store → MemValue}
    (h : Building m captureValues true regsR regsW loads stores g done r₀ r) {op : ℕ}
    (hdone : op ∉ done) (hg : ∀ s, g s = memValue m' s.addr s.size) :
    Building m captureValues true regsR regsW loads stores g (done ++ [op]) r₀
      (r.recordMemWriteValue m' op) := by
  rw [recordMemWriteValue, if_neg (by simp [h.tracing])]
  split
  · rename_i hop
    cases hslot : r.pendingStoreSlot ⟨op, hop⟩ with
    | none => exact h.skipValue hdone fun _ => hslot
    | some k =>
      obtain ⟨s, hs, haddr, hsize, hzero⟩ := h.pendingStore hslot
      obtain ⟨n, w₁, w₂, hclamp, hcopy, hsrc, hdst⟩ := clamp_copy m' s.addr s.size r.warnings
      simp only [haddr, hsize, hzero, hclamp, hcopy, ← hg]
      exact h.fillValue hslot hs hsrc hdst
  · rename_i hop
    exact h.skipValue hdone fun hlt => absurd hlt hop

/-- The value of the store of a call is its return address. -/
theorem Building.callRetAddrValue {g : Store → MemValue} {retAddr : UInt64}
    (h : Building m captureValues true regsR regsW loads stores g done r₀ r) {op : ℕ}
    (hdone : op ∉ done) (hg : ∀ s, g s = copyOver (fun _ => 0) (wordBytes retAddr)) :
    Building m captureValues true regsR regsW loads stores g (done ++ [op]) r₀
      (r.recordCallRetAddrValue op retAddr) := by
  rw [recordCallRetAddrValue, if_neg (by simp [h.tracing])]
  split
  · rename_i hop
    cases hslot : r.pendingStoreSlot ⟨op, hop⟩ with
    | none => exact h.skipValue hdone fun _ => hslot
    | some k =>
      obtain ⟨s, hs, -, -, hzero⟩ := h.pendingStore hslot
      simp only [hzero, ← hg s]
      exact h.fillValue hslot hs rfl rfl
  · rename_i hop
    exact h.skipValue hdone fun hlt => absurd hlt hop

end

end Recorder

end Arishem
