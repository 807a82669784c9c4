import Mathlib.Algebra.GroupWithZero.Nat
import Mathlib.Data.List.Basic
import Mathlib.Order.Basic

/-!
# The trace cutter

`trace_cutter` decodes a trace and splits it into chunks of a fixed number of records. Decoded
buffers arrive with arbitrary sizes: `consume_decompressed` reassembles the records across them with
a carry buffer, and `emit_records` fills the chunks. What is compressed into a chunk is modelled by
the bytes handed to its writer. `Cut` is the state of the cutter in terms of all bytes consumed so
far: it does not depend on how they were split.
-/

namespace Arishem

/-- `RECORD_SIZE`. -/
def recordSize : ℕ := 512

/-- The arguments of the cutter; `parse_args` refuses a chunk size of 0. -/
structure CutterArgs where
  chunkRecords : ℕ
  chunkRecords_pos : 0 < chunkRecords
  dryRun : Bool

/-- A finished chunk: its number of records and the bytes written to it. -/
structure Chunk where
  records : ℕ
  bytes : List UInt8
  deriving DecidableEq

/-- The state of the cutter: `written` is what the open writer was given, and the finished chunks
are in part order, so that `part_idx` is their number. -/
structure Cutter where
  carry : List UInt8
  totalRecords : ℕ
  chunkRecords : ℕ
  writerOpen : Bool
  written : List UInt8
  chunks : List Chunk
  deriving DecidableEq

namespace Cutter

/-- The cutter before the first buffer. -/
def init : Cutter := ⟨[], 0, 0, false, [], []⟩

/-- `ensure_writer_open`. -/
def ensureWriterOpen (c : Cutter) : Cutter :=
  if c.writerOpen then c else { c with writerOpen := true, written := [] }

/-- `finalize_current_chunk`. -/
def finalizeCurrentChunk (c : Cutter) : Cutter :=
  if c.writerOpen then
    { c with
      chunks := c.chunks ++ [⟨c.chunkRecords, c.written⟩]
      chunkRecords := 0
      writerOpen := false
      written := [] }
  else c

variable (a : CutterArgs)

/-- One turn of the loop of `emit_records`, which takes `take` of the records at `p`. -/
def emit (p : List UInt8) (take : ℕ) (c : Cutter) : Cutter :=
  let c := { c with
    written := if a.dryRun then c.written else c.written ++ p.take (take * recordSize)
    chunkRecords := c.chunkRecords + take
    totalRecords := c.totalRecords + take }
  if c.chunkRecords = a.chunkRecords then c.finalizeCurrentChunk else c

/-- The loop of `emit_records`, or `none` when it does not end in so many turns. -/
def emitLoop : ℕ → List UInt8 → ℕ → Cutter → Option Cutter
  | _, _, 0, c => some c
  | 0, _, _ + 1, _ => none
  | turns + 1, p, nrec + 1, c =>
    let c := c.ensureWriterOpen
    let take := min (nrec + 1) (a.chunkRecords - c.chunkRecords)
    emitLoop turns (p.drop (take * recordSize)) (nrec + 1 - take) (c.emit a p take)

/-- `emit_records`: each turn takes a record at least. -/
def emitRecords (p : List UInt8) (nrec : ℕ) (c : Cutter) : Option Cutter :=
  emitLoop a nrec p nrec c

/-- `consume_decompressed`, behind the part that completes the carried record. -/
def consumeWhole (dp : List UInt8) (c : Cutter) : Option Cutter :=
  let whole := dp.length / recordSize
  match if 0 < whole then emitRecords a dp whole c else some c with
  | none => none
  | some c =>
    let tail := dp.drop (whole * recordSize)
    some (if tail = [] then c else { c with carry := tail })

/-- `consume_decompressed`. -/
def consumeDecompressed (dp : List UInt8) (c : Cutter) : Option Cutter :=
  if c.carry = [] then c.consumeWhole a dp
  else
    let need := recordSize - c.carry.length
    if dp.length < need then some { c with carry := c.carry ++ dp }
    else
      match emitRecords a (c.carry ++ dp.take need) 1 { c with carry := [] } with
      | none => none
      | some c => c.consumeWhole a (dp.drop need)

/-- The buffers in the order they are decoded. -/
def consume : List (List UInt8) → Cutter → Option Cutter
  | [], c => some c
  | dp :: bufs, c =>
    match c.consumeDecompressed a dp with
    | none => none
    | some c => consume bufs c

/-- The whole run on a sequence of buffers. -/
def cut (bufs : List (List UInt8)) : Option Cutter :=
  (consume a bufs init).map finalizeCurrentChunk

/-! ## The chunks of the records emitted so far -/

/-- The bytes in the chunks and in the open writer. -/
def output (c : Cutter) : List UInt8 := c.chunks.flatMap (·.bytes) ++ c.written

/-- The bytes that records take in a chunk: none in a dry run. -/
def chunkBytes (records : ℕ) : ℕ := if a.dryRun then 0 else records * recordSize

/-- The chunks hold the records `out`, each finished one is full, and a writer is open just when it
has a record. -/
structure Filled (c : Cutter) (out : List UInt8) : Prop where
  full : ∀ chunk ∈ c.chunks,
    chunk.records = a.chunkRecords ∧ chunk.bytes.length = chunkBytes a a.chunkRecords
  room : c.chunkRecords < a.chunkRecords
  isOpen : c.writerOpen = decide (0 < c.chunkRecords)
  written : c.written.length = chunkBytes a c.chunkRecords
  total : c.totalRecords = a.chunkRecords * c.chunks.length + c.chunkRecords
  length : out.length = c.totalRecords * recordSize
  output : c.output = if a.dryRun then [] else out

/-- The state of the cutter after the bytes `bs`, however they were split. -/
structure Cut (c : Cutter) (bs : List UInt8) : Prop where
  carry_lt : c.carry.length < recordSize
  filled : ∃ out, Filled a c out ∧ out ++ c.carry = bs

section
variable {a : CutterArgs} {c c' : Cutter} {out p : List UInt8} {nrec turns take : ℕ}

theorem chunkBytes_add (n m : ℕ) : chunkBytes a (n + m) = chunkBytes a n + chunkBytes a m := by
  rw [chunkBytes, chunkBytes, chunkBytes]
  split
  · rfl
  · rw [Nat.add_mul]

@[simp] theorem chunkBytes_zero : chunkBytes a 0 = 0 := by
  rw [chunkBytes]
  split
  · rfl
  · rw [Nat.zero_mul]

theorem filled_init : Filled a init [] where
  full := by simp [init]
  room := a.chunkRecords_pos
  isOpen := rfl
  written := chunkBytes_zero.symm
  total := rfl
  length := by simp [init]
  output := by simp [Cutter.output, init]

theorem ensureWriterOpen_keeps (c : Cutter) : c.ensureWriterOpen.chunks = c.chunks ∧
    c.ensureWriterOpen.chunkRecords = c.chunkRecords ∧
    c.ensureWriterOpen.totalRecords = c.totalRecords ∧ c.ensureWriterOpen.carry = c.carry ∧
    c.ensureWriterOpen.writerOpen = true := by
  rw [ensureWriterOpen]
  split
  · rename_i hopen
    exact ⟨rfl, rfl, rfl, rfl, hopen⟩
  · exact ⟨rfl, rfl, rfl, rfl, rfl⟩

/-- Opening the writer loses nothing: a closed one was given nothing. -/
theorem Filled.written_ensureWriterOpen (h : Filled a c out) :
    c.ensureWriterOpen.written = c.written := by
  rw [ensureWriterOpen]
  split
  · rfl
  · rename_i hclosed
    have hzero : c.chunkRecords = 0 := by
      rw [h.isOpen, decide_eq_true_eq, Nat.not_lt, Nat.le_zero] at hclosed
      exact hclosed
    have hlen := h.written
    rw [hzero, chunkBytes_zero] at hlen
    exact (List.length_eq_zero_iff.1 hlen).symm

/-- One turn of `emit_records`. -/
theorem Filled.emit (h : Filled a c out) (hpos : 0 < take)
    (hroom : take ≤ a.chunkRecords - c.chunkRecords) (hp : take * recordSize ≤ p.length) :
    Filled a (c.ensureWriterOpen.emit a p take) (out ++ p.take (take * recordSize)) ∧
      (c.ensureWriterOpen.emit a p take).carry = c.carry := by
  obtain ⟨hchunks, hrecords, htotal, hcarry, hopen⟩ := ensureWriterOpen_keeps c
  have hwritten := h.written_ensureWriterOpen
  have hlt := h.room
  generalize c.ensureWriterOpen = c₁ at *
  generalize hw : (if a.dryRun then c₁.written else c₁.written ++ p.take (take * recordSize)) = w
  have hlen : (p.take (take * recordSize)).length = take * recordSize :=
    List.length_take_of_le hp
  have hwlen : w.length = chunkBytes a (c.chunkRecords + take) := by
    have hold := h.written
    rw [← hw, hwritten, chunkBytes_add, ← hold]
    rw [chunkBytes]
    split
    · rfl
    · rw [List.length_append, hlen]
  have hout : (out ++ p.take (take * recordSize)).length = (c.totalRecords + take) * recordSize := by
    rw [List.length_append, h.length, hlen, Nat.add_mul]
  have hall : c.chunks.flatMap (·.bytes) ++ w =
      if a.dryRun then [] else out ++ p.take (take * recordSize) := by
    have hold := h.output
    rw [Cutter.output] at hold
    rw [← hw, hwritten]
    split
    · rename_i hdry
      rw [if_pos hdry] at hold
      exact hold
    · rename_i hdry
      rw [if_neg hdry] at hold
      rw [← hold, List.append_assoc]
  have hsum := h.total
  rw [Cutter.emit]
  simp only [hw, hrecords, htotal]
  split
  · rename_i hfull
    rw [finalizeCurrentChunk, if_pos hopen]
    refine ⟨⟨fun chunk hc => ?_, a.chunkRecords_pos, rfl, chunkBytes_zero.symm, ?_, hout, ?_⟩, hcarry⟩
    · rcases List.mem_append.1 hc with hc | hc
      · exact h.full chunk (hchunks ▸ hc)
      · rw [List.mem_singleton.1 hc]
        exact ⟨hfull, hfull ▸ hwlen⟩
    · show c.totalRecords + take = a.chunkRecords * (c₁.chunks ++ [_]).length + 0
      rw [List.length_append, List.length_singleton, hchunks, Nat.mul_add]
      omega
    · rw [← hall, ← hchunks]
      simp [Cutter.output]
  · rename_i hpart
    refine ⟨⟨fun chunk hc => h.full chunk (hchunks ▸ hc), ?_, ?_, hwlen, ?_, hout, ?_⟩, hcarry⟩
    · show c.chunkRecords + take < a.chunkRecords
      omega
    · show c₁.writerOpen = decide (0 < c.chunkRecords + take)
      rw [hopen, decide_eq_true (by omega)]
    · show c.totalRecords + take = a.chunkRecords * c₁.chunks.length + (c.chunkRecords + take)
      rw [hchunks]
      omega
    · show c₁.chunks.flatMap (·.bytes) ++ w = _
      rw [hchunks]
      exact hall

/-- The loop of `emit_records` ends and emits all its records. -/
theorem Filled.emitLoop_spec (h : Filled a c out) (hturns : nrec ≤ turns)
    (hp : nrec * recordSize ≤ p.length) :
    ∃ c', emitLoop a turns p nrec c = some c' ∧ Filled a c' (out ++ p.take (nrec * recordSize)) ∧
      c'.carry = c.carry := by
  induction turns generalizing c out p nrec with
  | zero =>
    obtain rfl : nrec = 0 := Nat.le_zero.1 hturns
    exact ⟨c, rfl, by simpa using h, rfl⟩
  | succ turns ih =>
    cases nrec with
    | zero => exact ⟨c, rfl, by simpa using h, rfl⟩
    | succ nrec =>
      have hkeeps := (ensureWriterOpen_keeps c).2.1
      have hlt := h.room
      rw [Cutter.emitLoop]
      simp only [hkeeps]
      generalize htake : min (nrec + 1) (a.chunkRecords - c.chunkRecords) = take
      have hle : take * recordSize ≤ (nrec + 1) * recordSize := Nat.mul_le_mul_right _ (by omega)
      obtain ⟨hf, hcarry⟩ := h.emit (p := p) (show 0 < take by omega) (by omega) (Nat.le_trans hle hp)
      have hrest : (nrec + 1 - take) * recordSize ≤ (p.drop (take * recordSize)).length := by
        rw [List.length_drop, Nat.sub_mul]
        omega
      obtain ⟨c', hrun, hf', hcarry'⟩ := ih hf (by omega) hrest
      refine ⟨c', hrun, ?_, hcarry'.trans hcarry⟩
      have hsplit : take * recordSize + (nrec + 1 - take) * recordSize = (nrec + 1) * recordSize := by
        rw [← Nat.add_mul]
        congr 1
        omega
      rwa [List.append_assoc, ← List.take_add, hsplit] at hf'

theorem Filled.emitRecords_spec (h : Filled a c out) (hp : nrec * recordSize ≤ p.length) :
    ∃ c', emitRecords a p nrec c = some c' ∧ Filled a c' (out ++ p.take (nrec * recordSize)) ∧
      c'.carry = c.carry :=
  h.emitLoop_spec (Nat.le_refl nrec) hp

/-- The chunks do not look at the carry buffer. -/
theorem Filled.setCarry (h : Filled a c out) (carry : List UInt8) :
    Filled a { c with carry := carry } out :=
  ⟨h.full, h.room, h.isOpen, h.written, h.total, h.length, h.output⟩

/-! ## Buffers -/

/-- The whole records of a buffer are emitted and the rest is carried. -/
theorem Filled.consumeWhole_spec (h : Filled a c out) (hcarry : c.carry = []) (dp : List UInt8) :
    ∃ c', c.consumeWhole a dp = some c' ∧ Cut a c' (out ++ dp) := by
  have hp : dp.length / recordSize * recordSize ≤ dp.length := Nat.div_mul_le_self ..
  obtain ⟨c₁, hrun, hf, hcarry₁⟩ : ∃ c₁, (if 0 < dp.length / recordSize then
      emitRecords a dp (dp.length / recordSize) c else some c) = some c₁ ∧
      Filled a c₁ (out ++ dp.take (dp.length / recordSize * recordSize)) ∧ c₁.carry = [] := by
    split
    · obtain ⟨c₁, hrun, hf, hkeep⟩ := h.emitRecords_spec hp
      exact ⟨c₁, hrun, hf, hkeep.trans hcarry⟩
    · rename_i hzero
      rw [Nat.le_zero.1 (Nat.not_lt.1 hzero), Nat.zero_mul, List.take_zero, List.append_nil]
      exact ⟨c, rfl, h, hcarry⟩
  have htail : (dp.drop (dp.length / recordSize * recordSize)).length < recordSize := by
    rw [List.length_drop]
    have hmod := Nat.mod_lt dp.length (show 0 < recordSize by decide)
    have hdiv := Nat.div_add_mod dp.length recordSize
    rw [Nat.mul_comm] at hdiv
    omega
  rw [consumeWhole]
  simp only [hrun]
  refine ⟨_, rfl, ?_⟩
  split
  · rename_i hnil
    refine ⟨by rw [hcarry₁]; decide, _, hf, ?_⟩
    rw [hcarry₁, List.append_nil, List.append_cancel_left_eq]
    exact List.take_of_length_le (List.drop_eq_nil_iff.1 hnil)
  · refine ⟨htail, _, hf.setCarry _, ?_⟩
    rw [List.append_assoc]
    exact congrArg (out ++ ·) (List.take_append_drop ..)

/-- A buffer is consumed whatever was carried and wherever it ends. -/
theorem Cut.consumeDecompressed_spec {bs : List UInt8} (h : Cut a c bs) (dp : List UInt8) :
    ∃ c', c.consumeDecompressed a dp = some c' ∧ Cut a c' (bs ++ dp) := by
  obtain ⟨hlt, out, hf, rfl⟩ := h
  rw [consumeDecompressed]
  split
  · rename_i hnil
    rw [hnil, List.append_nil]
    exact hf.consumeWhole_spec hnil dp
  · dsimp only
    split
    · rename_i hshort
      refine ⟨_, rfl, ?_, out, hf.setCarry _, (List.append_assoc ..).symm⟩
      rw [List.length_append]
      omega
    · rename_i henough
      have hrec : (c.carry ++ dp.take (recordSize - c.carry.length)).length = 1 * recordSize := by
        rw [List.length_append, List.length_take]
        omega
      obtain ⟨c₁, hrun, hf₁, hcarry₁⟩ := (hf.setCarry []).emitRecords_spec (Nat.le_of_eq hrec.symm)
      rw [List.take_of_length_le (Nat.le_of_eq hrec)] at hf₁
      obtain ⟨c', hwhole, hcut⟩ := hf₁.consumeWhole_spec hcarry₁ (dp.drop (recordSize - c.carry.length))
      rw [hrun]
      refine ⟨c', hwhole, ?_⟩
      rw [List.append_assoc, List.append_assoc, List.take_append_drop, ← List.append_assoc] at hcut
      exact hcut

theorem cut_init : Cut a init [] := ⟨by decide, [], filled_init, rfl⟩

theorem Cut.consume_spec {bs : List UInt8} (h : Cut a c bs) (bufs : List (List UInt8)) :
    ∃ c', consume a bufs c = some c' ∧ Cut a c' (bs ++ bufs.flatten) := by
  induction bufs generalizing c bs with
  | nil => exact ⟨c, rfl, by simpa using h⟩
  | cons dp bufs ih =>
    obtain ⟨c₁, hrun, h₁⟩ := h.consumeDecompressed_spec dp
    obtain ⟨c', hrest, h'⟩ := ih h₁
    refine ⟨c', ?_, by rwa [List.flatten_cons, ← List.append_assoc]⟩
    rw [Cutter.consume, hrun]
    exact hrest

/-! ## The result does not depend on the split -/

/-- Blocks of one size are determined by their concatenation. -/
theorem chunks_unique {n k : ℕ} {l l' : List Chunk} {w w' : List UInt8}
    (hl : ∀ chunk ∈ l, chunk.records = n ∧ chunk.bytes.length = k)
    (hl' : ∀ chunk ∈ l', chunk.records = n ∧ chunk.bytes.length = k)
    (hlen : l.length = l'.length)
    (h : l.flatMap (·.bytes) ++ w = l'.flatMap (·.bytes) ++ w') : l = l' ∧ w = w' := by
  induction l generalizing l' with
  | nil =>
    obtain rfl : l' = [] := List.length_eq_zero_iff.1 hlen.symm
    exact ⟨rfl, h⟩
  | cons chunk l ih =>
    cases l' with
    | nil => cases hlen
    | cons chunk' l' =>
      obtain ⟨hr, hb⟩ := hl chunk (List.mem_cons_self ..)
      obtain ⟨hr', hb'⟩ := hl' chunk' (List.mem_cons_self ..)
      rw [List.flatMap_cons, List.flatMap_cons, List.append_assoc, List.append_assoc] at h
      obtain ⟨hbytes, hrest⟩ := List.append_inj h (hb.trans hb'.symm)
      obtain ⟨rfl, rfl⟩ := ih (fun c hc => hl c (.tail _ hc)) (fun c hc => hl' c (.tail _ hc))
        (Nat.succ.inj hlen) hrest
      obtain rfl : chunk = chunk' := by
        cases chunk
        cases chunk'
        simp only [Chunk.mk.injEq]
        exact ⟨hr.trans hr'.symm, hbytes⟩
      exact ⟨rfl, rfl⟩

/-- The records emitted so far determine the chunks. -/
theorem Filled.unique (h : Filled a c out) (h' : Filled a c' out) (hcarry : c.carry = c'.carry) :
    c = c' := by
  have htotal : c.totalRecords = c'.totalRecords :=
    Nat.eq_of_mul_eq_mul_right (show 0 < recordSize by decide) (h.length.symm.trans h'.length)
  have hmod := h.total
  have hmod' := h'.total
  rw [← htotal] at hmod'
  have hrecords : c.chunkRecords = c'.chunkRecords := by
    have hrem : c.totalRecords % a.chunkRecords = c.chunkRecords := by
      rw [hmod, Nat.mul_add_mod, Nat.mod_eq_of_lt h.room]
    have hrem' : c.totalRecords % a.chunkRecords = c'.chunkRecords := by
      rw [hmod', Nat.mul_add_mod, Nat.mod_eq_of_lt h'.room]
    exact hrem.symm.trans hrem'
  have hchunks : c.chunks.length = c'.chunks.length :=
    Nat.eq_of_mul_eq_mul_left a.chunkRecords_pos (by omega)
  obtain ⟨hsame, hwritten⟩ := chunks_unique h.full h'.full hchunks (h.output.trans h'.output.symm)
  have hopen : c.writerOpen = c'.writerOpen := by rw [h.isOpen, h'.isOpen, hrecords]
  cases c
  cases c'
  simp only [Cutter.mk.injEq]
  exact ⟨hcarry, htotal, hrecords, hopen, hwritten, hsame⟩

/-- What is carried and what was emitted, in terms of the bytes consumed. -/
theorem Cut.sizes {bs : List UInt8} (h : Cut a c bs) :
    c.totalRecords = bs.length / recordSize ∧ c.carry.length = bs.length % recordSize ∧
      Filled a c (bs.take (bs.length / recordSize * recordSize)) ∧
      c.carry = bs.drop (bs.length / recordSize * recordSize) := by
  obtain ⟨hlt, out, hf, rfl⟩ := h
  have hlen : (out ++ c.carry).length = c.carry.length + recordSize * c.totalRecords := by
    rw [List.length_append, hf.length, Nat.add_comm, Nat.mul_comm]
  have hdiv : (out ++ c.carry).length / recordSize = c.totalRecords := by
    rw [hlen, Nat.add_mul_div_left _ _ (show 0 < recordSize by decide), Nat.div_eq_of_lt hlt,
      Nat.zero_add]
  have hmod : (out ++ c.carry).length % recordSize = c.carry.length := by
    rw [hlen, Nat.add_mul_mod_self_left, Nat.mod_eq_of_lt hlt]
  rw [hdiv, hmod, ← hf.length, List.take_left, List.drop_left]
  exact ⟨rfl, rfl, hf, rfl⟩

theorem Cut.unique {bs : List UInt8} (h : Cut a c bs) (h' : Cut a c' bs) : c = c' := by
  obtain ⟨-, -, hf, hcarry⟩ := h.sizes
  obtain ⟨-, -, hf', hcarry'⟩ := h'.sizes
  exact hf.unique hf' (hcarry.trans hcarry'.symm)

/-! ## The whole run -/

/-- The last chunk is finished at the end of the run. -/
theorem Filled.finalize (h : Filled a c out) :
    c.finalizeCurrentChunk.totalRecords = c.totalRecords ∧
    c.finalizeCurrentChunk.carry = c.carry ∧
    c.finalizeCurrentChunk.chunks.flatMap (·.bytes) = (if a.dryRun then [] else out) ∧
    (∀ chunk ∈ c.finalizeCurrentChunk.chunks.dropLast, chunk.records = a.chunkRecords) ∧
    ∀ chunk ∈ c.finalizeCurrentChunk.chunks, 1 ≤ chunk.records ∧
      chunk.records ≤ a.chunkRecords ∧ chunk.bytes.length = chunkBytes a chunk.records := by
  have hpos := a.chunkRecords_pos
  have hlt := h.room
  have hold : ∀ chunk ∈ c.chunks, 1 ≤ chunk.records ∧ chunk.records ≤ a.chunkRecords ∧
      chunk.bytes.length = chunkBytes a chunk.records := by
    intro chunk hc
    obtain ⟨hr, hb⟩ := h.full chunk hc
    exact ⟨by omega, by omega, hr ▸ hb⟩
  have hout := h.output
  rw [Cutter.output] at hout
  rw [finalizeCurrentChunk]
  split
  · rename_i hopen
    rw [h.isOpen, decide_eq_true_eq] at hopen
    refine ⟨rfl, rfl, ?_, fun chunk hc => ?_, fun chunk hc => ?_⟩
    · rw [← hout]
      simp
    · rw [List.dropLast_concat] at hc
      exact (h.full chunk hc).1
    · rcases List.mem_append.1 hc with hc | hc
      · exact hold chunk hc
      · rw [List.mem_singleton.1 hc]
        exact ⟨hopen, Nat.le_of_lt hlt, h.written⟩
  · rename_i hclosed
    have hzero : c.chunkRecords = 0 := by
      rw [h.isOpen, decide_eq_true_eq] at hclosed
      omega
    have hnil : c.written = [] := by
      have hlen := h.written
      rw [hzero, chunkBytes_zero] at hlen
      exact List.length_eq_zero_iff.1 hlen
    rw [hnil, List.append_nil] at hout
    exact ⟨rfl, rfl, hout, fun chunk hc => (h.full chunk ((List.dropLast_sublist _).subset hc)).1, hold⟩

end

/-- `trace_cutter` splits without altering. For every chunk size and every sequence of decoded
buffers, the run ends; the bytes written to the chunks, in part order, are the whole records of the
stream; every chunk but the last is full and the last is not empty; `total_records` and `carry_len`
are the quotient and the remainder of the length of the stream by the record size; the result is the
same for all ways of splitting the stream into buffers; and after each buffer less than a record is
carried and an open chunk has a record. -/
theorem cut_splits (a : CutterArgs) (bufs : List (List UInt8)) :
    (∃ c, cut a bufs = some c ∧
      c.totalRecords = bufs.flatten.length / recordSize ∧
      c.carry.length = bufs.flatten.length % recordSize ∧
      c.chunks.flatMap (·.bytes) = (if a.dryRun then [] else
        bufs.flatten.take (bufs.flatten.length / recordSize * recordSize)) ∧
      (∀ chunk ∈ c.chunks.dropLast, chunk.records = a.chunkRecords) ∧
      (∀ chunk ∈ c.chunks, 1 ≤ chunk.records ∧ chunk.records ≤ a.chunkRecords ∧
        chunk.bytes.length = chunkBytes a chunk.records) ∧
      ∀ bufs' : List (List UInt8), bufs'.flatten = bufs.flatten → cut a bufs' = some c) ∧
    ∀ pre, pre <+: bufs → ∃ c, consume a pre init = some c ∧ c.carry.length < recordSize ∧
      (c.writerOpen = true → 0 < c.chunkRecords) := by
  constructor
  · obtain ⟨c, hrun, hcut⟩ := cut_init.consume_spec (a := a) bufs
    rw [List.nil_append] at hcut
    obtain ⟨htotal, hcarry, hf, -⟩ := hcut.sizes
    obtain ⟨ht, hc, hbytes, hfull, hlast⟩ := hf.finalize
    refine ⟨c.finalizeCurrentChunk, ?_, ht.trans htotal, by rw [hc, hcarry], hbytes, hfull, hlast,
      fun bufs' hsame => ?_⟩
    · rw [cut, hrun, Option.map_some]
    · obtain ⟨c', hrun', hcut'⟩ := cut_init.consume_spec (a := a) bufs'
      rw [List.nil_append, hsame] at hcut'
      rw [cut, hrun', hcut'.unique hcut, Option.map_some]
  · intro pre _
    obtain ⟨c, hrun, hcut⟩ := cut_init.consume_spec (a := a) pre
    refine ⟨c, hrun, hcut.carry_lt, fun hopen => ?_⟩
    obtain ⟨out, hf, -⟩ := hcut.filled
    rwa [hf.isOpen, decide_eq_true_eq] at hopen

/-- A record that arrives in two buffers is one chunk of one record. -/
example : (cut ⟨1, by decide, false⟩ [List.replicate 500 7, List.replicate 13 7]).map
    (fun c => (c.chunks.map (·.records), c.carry)) = some ([1], [7]) := by decide +kernel

end Cutter

end Arishem
