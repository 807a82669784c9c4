import Arishem.Core.Branches
import Arishem.Tracer.RecordRuns

/-!
# What the simulator reads of a recorded thread

The tracer writes records of 512 bytes, and the simulator reads as many bytes, with the layout of
version 2. What it reads of a run of a thread, lap after lap, are the operands of the instructions of
the run.
-/

namespace Arishem

namespace RecordFormat

/-! ## Bytes at a place -/

theorem byteAt_skip {l r : List UInt8} {n : ℕ} (h : l.length = n) (k : ℕ) :
    byteAt (l ++ r) (n + k) = byteAt r k := by
  subst h
  rw [byteAt, byteAt, List.getD_eq_getElem?_getD, List.getD_eq_getElem?_getD,
    List.getElem?_append_right (Nat.le_add_right ..), Nat.add_sub_cancel_left]

theorem byteAt_of_lt {l : List UInt8} {k : ℕ} (h : k < l.length) (r : List UInt8) :
    byteAt (l ++ r) k = byteAt l k := by
  rw [byteAt, byteAt, List.getD_eq_getElem?_getD, List.getD_eq_getElem?_getD,
    List.getElem?_append_left h]

theorem byteAt_ofFn {n : ℕ} (f : Fin n → UInt8) (i : Fin n) (r : List UInt8) :
    byteAt (List.ofFn f ++ r) i = f i := by
  rw [byteAt_of_lt (by simp), byteAt]
  simp

theorem wordAt_skip {l r : List UInt8} {n : ℕ} (h : l.length = n) (k : ℕ) :
    wordAt (l ++ r) (n + k) = wordAt r k := by
  simp only [wordAt, Nat.add_assoc, byteAt_skip h]

/-- A word and the bytes above its lowest one. -/
theorem shiftLeft_or_byte {w x : UInt64} (h : x.toNat = w.toNat / 256) :
    x <<< 8 ||| w.toUInt8.toUInt64 = w := by
  have hw := w.toNat_lt
  have hlt : x.toNat * 256 < 2 ^ 64 := by omega
  have hshift : (x <<< 8).toNat = x.toNat <<< 8 := by
    rw [UInt64.toNat_shiftLeft, show (8 : UInt64).toNat % 64 = 8 from rfl, Nat.shiftLeft_eq]
    exact Nat.mod_eq_of_lt hlt
  have hbyte : w.toUInt8.toUInt64.toNat = w.toNat % 2 ^ 8 := by simp
  refine UInt64.toNat_inj.1 ?_
  rw [UInt64.toNat_or, hshift, hbyte, ← Nat.shiftLeft_add_eq_or_of_lt (Nat.mod_lt _ (by decide)),
    Nat.shiftLeft_eq, h, Nat.div_add_mod']

/-- The upper bytes of a word, read from the highest one down. -/
theorem upper_bytes (w : UInt64) (n : ℕ) : ∀ j, j + n = 8 →
    ((List.range' j n).foldr
      (fun j (word : UInt64) => word <<< 8 ||| (w >>> (8 * j.toUInt64)).toUInt8.toUInt64) 0).toNat =
      w.toNat / 256 ^ j := by
  induction n with
  | zero =>
    rintro j rfl
    exact (Nat.div_eq_of_lt w.toNat_lt).symm
  | succ n ih =>
    intro j hj
    have hshift : (w >>> (8 * j.toUInt64)).toNat = w.toNat / 256 ^ j := by
      have hcount : (8 * j.toUInt64).toNat % 64 = 8 * j := by
        simp
        omega
      rw [UInt64.toNat_shiftRight, hcount, Nat.shiftRight_eq_div_pow, Nat.pow_mul]
    have hnext := ih (j + 1) (by omega)
    rw [Nat.pow_succ, ← Nat.div_div_eq_div_mul, ← hshift] at hnext
    rw [List.range'_succ, List.foldr_cons, shiftLeft_or_byte hnext, hshift]

theorem length_wordBytes (w : UInt64) : (Recorder.wordBytes w).length = 8 := by
  simp [Recorder.wordBytes]

/-- The bytes of a word give it back. -/
theorem wordAt_wordBytes (w : UInt64) (r : List UInt8) : wordAt (Recorder.wordBytes w ++ r) 0 = w := by
  have hbytes : wordAt (Recorder.wordBytes w ++ r) 0 = (List.range' 0 8).foldr
      (fun j (word : UInt64) => word <<< 8 ||| (w >>> (8 * j.toUInt64)).toUInt8.toUInt64) 0 := by
    rw [wordAt, ← List.range_eq_range']
    refine List.foldr_ext _ _ _ fun j hj word => ?_
    have hlt := List.mem_range.1 hj
    rw [Nat.zero_add, byteAt_of_lt (by rwa [length_wordBytes]), byteAt, Recorder.wordBytes]
    simp [hlt]
  refine UInt64.toNat_inj.1 ?_
  rw [hbytes, upper_bytes w 8 0 rfl, Nat.pow_zero, Nat.div_one]

theorem wordAt_words (ws : List UInt64) (r : List UInt8) {d : ℕ} (h : d < ws.length) :
    wordAt (ws.flatMap Recorder.wordBytes ++ r) (8 * d) = ws[d] := by
  induction ws generalizing d with
  | nil => exact absurd h (Nat.not_lt_zero _)
  | cons w ws ih =>
    rw [List.flatMap_cons, List.append_assoc]
    cases d with
    | zero => exact wordAt_wordBytes w _
    | succ d =>
      rw [Nat.mul_succ, Nat.add_comm, wordAt_skip (length_wordBytes w), ih (Nat.lt_of_succ_lt_succ h),
        List.getElem_cons_succ]

theorem wordAt_ofFn {n : ℕ} (f : Fin n → UInt64) (d : Fin n) (r : List UInt8) :
    wordAt ((List.ofFn f).flatMap Recorder.wordBytes ++ r) (8 * d) = f d := by
  rw [wordAt_words _ _ (by simp), List.getElem_ofFn]

end RecordFormat

namespace Recorder

open Filling RecordFormat

/-! ## The bytes of a record -/

/-- The bytes of a record behind the addresses of its operands. -/
def TraceInstr.tail (r : TraceInstr) : List UInt8 :=
  List.replicate 48 0 ++ List.ofFn r.sourceMemorySize ++ List.ofFn r.destinationMemorySize ++
  [r.privilege, r.instrType] ++ List.replicate 8 0 ++
  (List.ofFn r.sourceMemoryValue).flatMap (fun value => List.ofFn value) ++
  (List.ofFn r.destinationMemoryValue).flatMap (fun value => List.ofFn value)

theorem bytes_eq (r : TraceInstr) : r.bytes =
    wordBytes r.ip ++ ([r.isBranch, r.branchTaken] ++ (List.ofFn r.destinationRegisters ++
      (List.ofFn r.sourceRegisters ++ ((List.ofFn r.destinationMemory).flatMap wordBytes ++
        ((List.ofFn r.sourceMemory).flatMap wordBytes ++ r.tail))))) := by
  simp only [TraceInstr.bytes, TraceInstr.tail, List.append_assoc]

theorem length_words {n : ℕ} (f : Fin n → UInt64) :
    ((List.ofFn f).flatMap wordBytes).length = n * 8 := by
  rw [List.length_flatMap, List.map_congr_left fun w _ => length_wordBytes w, List.map_const',
    List.sum_replicate_nat, List.length_ofFn]

theorem length_values {n : ℕ} (f : Fin n → MemValue) :
    ((List.ofFn f).flatMap fun value => List.ofFn value).length = n * maxMemValueSize := by
  rw [List.length_flatMap, List.map_congr_left fun _ _ => List.length_ofFn .., List.map_const',
    List.sum_replicate_nat, List.length_ofFn]

theorem length_bytes (r : TraceInstr) : r.bytes.length = RecordFormat.inputInstrV2.size := by
  simp only [TraceInstr.bytes, List.length_append, length_wordBytes, length_words, length_values,
    List.length_ofFn, List.length_replicate, List.length_cons, List.length_nil]
  rfl

/-- The fields that the simulator takes from a record. -/
def TraceInstr.seen (r : TraceInstr) : TraceRecord where
  instr :=
    { ip := r.ip
      destinationRegisters := fun d =>
        if h : (d : ℕ) < numInstrDestinations then r.destinationRegisters ⟨d, h⟩ else 0
      sourceRegisters := r.sourceRegisters
      destinationMemory := fun d =>
        if h : (d : ℕ) < numInstrDestinations then r.destinationMemory ⟨d, h⟩ else 0
      sourceMemory := r.sourceMemory }
  isBranch := r.isBranch
  branchTaken := r.branchTaken

/-- The simulator finds the fields of a record where the tracer has put them. -/
theorem decode_bytes (r : TraceInstr) : RecordFormat.inputInstrV2.decode r.bytes = r.seen := by
  have hip : wordAt r.bytes 0 = r.ip := by
    rw [bytes_eq, wordAt_wordBytes]
  have hflags : ∀ k, byteAt r.bytes (8 + k) =
      byteAt ([r.isBranch, r.branchTaken] ++ (List.ofFn r.destinationRegisters ++
      (List.ofFn r.sourceRegisters ++ ((List.ofFn r.destinationMemory).flatMap wordBytes ++
        ((List.ofFn r.sourceMemory).flatMap wordBytes ++ r.tail))))) k := fun k => by
    rw [bytes_eq, byteAt_skip (length_wordBytes _)]
  have htwo : [r.isBranch, r.branchTaken].length = 2 := rfl
  have hregsW : (List.ofFn r.destinationRegisters).length = 2 := List.length_ofFn
  have hregsR : (List.ofFn r.sourceRegisters).length = 4 := List.length_ofFn
  have hstores : ((List.ofFn r.destinationMemory).flatMap wordBytes).length = 16 := length_words _
  have hdest : ∀ d : Fin numInstrDestinations, byteAt r.bytes (10 + d) = r.destinationRegisters d := by
    intro d
    rw [show 10 + (d : ℕ) = 8 + (2 + d) by omega, hflags, byteAt_skip htwo, byteAt_ofFn]
  have hsource : ∀ i : Fin numInstrSources, byteAt r.bytes (12 + i) = r.sourceRegisters i := by
    intro i
    rw [show 12 + (i : ℕ) = 8 + (2 + (2 + i)) by omega, hflags, byteAt_skip htwo,
      byteAt_skip hregsW, byteAt_ofFn]
  have hmem : ∀ k, wordAt r.bytes (16 + k) = wordAt ((List.ofFn r.destinationMemory).flatMap wordBytes ++
      ((List.ofFn r.sourceMemory).flatMap wordBytes ++ r.tail)) k := by
    intro k
    rw [show 16 + k = 8 + (2 + (2 + (4 + k))) by omega, bytes_eq, wordAt_skip (length_wordBytes _),
      wordAt_skip htwo, wordAt_skip hregsW, wordAt_skip hregsR]
  have hdmem : ∀ d : Fin numInstrDestinations, wordAt r.bytes (16 + 8 * d) = r.destinationMemory d := by
    intro d
    rw [hmem, wordAt_ofFn]
  have hsmem : ∀ i : Fin numInstrSources, wordAt r.bytes (32 + 8 * i) = r.sourceMemory i := by
    intro i
    rw [show 32 + 8 * (i : ℕ) = 16 + (16 + 8 * i) by omega, hmem, wordAt_skip hstores, wordAt_ofFn]
  have hbranch : byteAt r.bytes 8 = r.isBranch := hflags 0
  have htaken : byteAt r.bytes 9 = r.branchTaken := hflags 1
  have hregs : (fun d : Fin numInstrDestinationsSparc =>
      if (d : ℕ) < numInstrDestinations then byteAt r.bytes (10 + d) else 0) =
      fun d : Fin numInstrDestinationsSparc => if h : (d : ℕ) < numInstrDestinations then
        r.destinationRegisters ⟨d, h⟩ else 0 := by
    funext d
    split
    · rename_i h
      exact hdest ⟨d, h⟩
    · rfl
  have haddrs : (fun d : Fin numInstrDestinationsSparc =>
      if (d : ℕ) < numInstrDestinations then wordAt r.bytes (16 + 8 * d) else 0) =
      fun d : Fin numInstrDestinationsSparc => if h : (d : ℕ) < numInstrDestinations then
        r.destinationMemory ⟨d, h⟩ else 0 := by
    funext d
    split
    · rename_i h
      exact hdmem ⟨d, h⟩
    · rfl
  rw [RecordFormat.decode, TraceInstr.seen, hbranch, htaken, hip, ← hregs, ← haddrs,
    ← funext hsource, ← funext hsmem]

/-! ## Laps over a recorded run -/

/-- What the simulator is to see of an execution: the operands for which a record has room. -/
def Execution.seen (ins : Ins) (e : Execution) : TraceRecord where
  instr :=
    { ip := ins.address
      destinationRegisters := fun d =>
        if (d : ℕ) < numInstrDestinations then (regBytes (tracedRegs ins.regW)).getD d 0 else 0
      sourceRegisters := fun i => (regBytes (tracedRegs ins.regR)).getD i 0
      destinationMemory := fun d =>
        if (d : ℕ) < numInstrDestinations then ((e.stores ins).map Store.addr).getD d 0 else 0
      sourceMemory := fun i => ((e.loads ins).map Load.addr).getD i 0 }
  isBranch := ins.isBranch.toUInt8
  branchTaken := (ins.isBranch && e.taken).toUInt8

theorem fill_eq_getD {α : Type*} {β : Type*} (n : ℕ) (d : β) (f : α → β) (l : List α) :
    fill n d f l = fun i : Fin n => (l.map f).getD i d := by
  funext i
  rw [fill, List.getD_eq_getElem?_getD, List.getElem?_map]
  cases l[(i : ℕ)]? <;> rfl

theorem seen_recordOf (captureValues : Bool) (ins : Ins) (e : Execution) :
    (recordOf captureValues ins e).seen = e.seen ins := by
  simp only [TraceInstr.seen, Execution.seen, recordOf, built, fill_eq_getD, List.map_id, dite_eq_ite]

/-- The calls of one lap over a trace: a read for each record, and one that fails, behind which the
trace is rewound. -/
def lap (records : ℕ) : List TraceReader.ReaderCall :=
  List.replicate records (.read RecordFormat.inputInstrV2.size) ++
    [.read RecordFormat.inputInstrV2.size, .rewind]

/-- What the reads of a lap return. -/
theorem serve_lap (records : List TraceInstr) (calls : List TraceReader.ReaderCall) :
    TraceReader.serve (records.flatMap TraceInstr.bytes) (lap records.length ++ calls)
        (records.flatMap TraceInstr.bytes) =
      records.map (fun record => some record.bytes) ++ none ::
        TraceReader.serve (records.flatMap TraceInstr.bytes) calls
          (records.flatMap TraceInstr.bytes) := by
  suffices hsuff : ∀ (data : List UInt8) (rest : List TraceInstr),
      TraceReader.serve data (lap rest.length ++ calls) (rest.flatMap TraceInstr.bytes) =
        rest.map (fun record => some record.bytes) ++ none :: TraceReader.serve data calls data from
    hsuff _ records
  intro data rest
  induction rest with
  | nil => rfl
  | cons record rest ih =>
    have hlen := length_bytes record
    rw [lap, List.append_assoc] at ih ⊢
    rw [List.length_cons, List.replicate_succ, List.cons_append, TraceReader.serve, List.flatMap_cons,
      if_pos (by rw [List.length_append, hlen]; exact Nat.le_add_right ..), ← hlen, List.take_left,
      List.drop_left, hlen, ih, List.map_cons, List.cons_append]

/-- The records that are read in some laps. -/
theorem serve_laps (records : List TraceInstr) (laps : ℕ) :
    (TraceReader.serve (records.flatMap TraceInstr.bytes)
      (List.replicate laps (lap records.length)).flatten
      (records.flatMap TraceInstr.bytes)).filterMap (Option.map RecordFormat.inputInstrV2.decode) =
      (List.replicate laps (records.map TraceInstr.seen)).flatten := by
  induction laps with
  | zero => rfl
  | succ laps ih =>
    have hdecode : (records.map fun record => some record.bytes).filterMap
        (Option.map RecordFormat.inputInstrV2.decode) = records.map TraceInstr.seen := by
      simp [List.filterMap_map, decode_bytes]
    rw [List.replicate_succ, List.flatten_cons, serve_lap, List.filterMap_append, hdecode,
      List.filterMap_cons_none rfl, ih, List.replicate_succ, List.flatten_cons]

/-- A thread is recorded and the trace read back: whatever the compression, whatever the sizes of the
reads from the file, each lap of the simulator over the trace sees the instructions of the thread in
their order, each once, with the operands for which a record has room. -/
theorem laps_see_run {σ : Type} {dec : StreamDecoder σ UInt8 UInt8} {file : TraceFile}
    {avail : ℕ → ℕ} {At : σ → ℕ → ℕ → Prop} {captureValues : Bool} {r : Recorder}
    {run : List (Ins × Execution)} (h : Ready run.length r)
    (hp : ∀ i ∈ run, i.2.Proper captureValues i.1)
    (hd : dec.Decodes file.bytes
      ((r.executeAll captureValues run).2.flatMap TraceInstr.bytes) avail At)
    {fuel : ℕ} (hsize : RecordFormat.inputInstrV2.size < fuel)
    (hfuel : file.bytes.length + RecordFormat.inputInstrV2.size * run.length + 2 ≤ fuel) (laps : ℕ) :
    ∃ reads, TraceReader.run dec file fuel (List.replicate laps (lap run.length)).flatten
        (TraceReader.start dec) = .ok reads ∧
      reads.filterMap (Option.map RecordFormat.inputInstrV2.decode) =
        (List.replicate laps (run.map fun i => i.2.seen i.1)).flatten := by
  obtain ⟨hout, -⟩ := h.executeAll hp
  rw [hout] at hd
  have hlen : (run.map fun i => recordOf captureValues i.1 i.2).length = run.length := List.length_map ..
  have hdata : ((run.map fun i => recordOf captureValues i.1 i.2).flatMap TraceInstr.bytes).length =
      RecordFormat.inputInstrV2.size * run.length := by
    rw [List.length_flatMap, List.map_congr_left fun _ _ => length_bytes _, List.map_const',
      List.sum_replicate_nat, hlen, Nat.mul_comm]
  have hreads : ∀ n, TraceReader.ReaderCall.read n ∈ (List.replicate laps (lap run.length)).flatten →
      n < fuel := by
    intro n hn
    obtain ⟨calls, hcalls, hn⟩ := List.mem_flatten.1 hn
    obtain rfl := List.eq_of_mem_replicate hcalls
    simp [lap] at hn
    omega
  refine ⟨_, (TraceReader.serves_start hd).run_spec hd (by rw [hdata]; exact hfuel) hreads, ?_⟩
  have hlaps := serve_laps (run.map fun i => recordOf captureValues i.1 i.2) laps
  rw [hlen, List.map_map] at hlaps
  rw [hlaps]
  simp only [Function.comp_def, seen_recordOf]

/-- The trace of one instruction, stored as it is. -/
def additionTrace : TraceFile where
  bytes := (fresh.executeAll true [(addToMemory, addition)]).2.flatMap TraceInstr.bytes
  chunk := fun _ => 0

/-- Two laps over the trace of one instruction. -/
theorem laps_see_run_addition : ∃ reads,
    TraceReader.run (.stored UInt8) additionTrace (additionTrace.bytes.length + 1026)
      (List.replicate 2 (lap 1)).flatten (TraceReader.start (.stored UInt8)) = .ok reads ∧
    reads.filterMap (Option.map RecordFormat.inputInstrV2.decode) =
      [addition.seen addToMemory, addition.seen addToMemory] := by
  have hd := StreamDecoder.stored_decodes additionTrace.bytes
  have hsize : RecordFormat.inputInstrV2.size < additionTrace.bytes.length + 1026 := by
    rw [RecordFormat.size]
    omega
  have hfuel : additionTrace.bytes.length +
      RecordFormat.inputInstrV2.size * [(addToMemory, addition)].length + 2 ≤
        additionTrace.bytes.length + 1026 := by
    rw [RecordFormat.size, List.length_singleton]
    omega
  exact laps_see_run fresh_ready addition_proper hd hsize hfuel 2

end Recorder

end Arishem
