import Arishem.Lib.Decoder

/-!
# The trace reader

`TraceReader` opens a compressed trace and serves its decoded bytes. It reads the file in chunks into
`comp_buf`, decodes from there into `decomp_buf` and copies from there to the caller. The file is its
list of bytes, and the `k`-th `read` system call returns at most `chunk k + 1` of the bytes that are
left, so that reads may be as short as the kernel likes; the calls to `posix_fadvise` change nothing
that is returned. The two loops take fuel: a call that runs out of it has not returned.
-/

namespace Arishem

/-- `COMP_BUF_BYTES`. -/
def compBufBytes : ℕ := 8 * 1024 * 1024

/-- `DECOMP_BUF_BYTES`. -/
def decompBufBytes : ℕ := 1 * 1024 * 1024

/-- The file behind the descriptor, and how much each `read` returns at most. -/
structure TraceFile where
  bytes : List UInt8
  chunk : ℕ → ℕ

/-- `::read`, at an offset; the `k`-th call. -/
def TraceFile.read (file : TraceFile) (offset k size : ℕ) : List UInt8 :=
  (file.bytes.drop offset).take (min size (file.chunk k + 1))

/-- `TraceReader::Impl`: `comp` and `decomp` are the filled parts of the two buffers, `fileOffset` is
the position of the descriptor, and `reads` counts the system calls. -/
structure TraceReader (σ : Type) where
  comp : List UInt8
  compPos : ℕ
  decomp : List UInt8
  decompPos : ℕ
  fileOffset : ℕ
  reads : ℕ
  fileEof : Bool
  streamEnded : Bool
  decoder : σ

/-- Why a call of the reader does not return. -/
inductive ReadFailure
  | decodeError
  | outOfFuel
  deriving DecidableEq

namespace TraceReader

variable {σ : Type} (dec : StreamDecoder σ UInt8 UInt8) (file : TraceFile)

/-- The constructor, which opens the file. -/
def start : TraceReader σ where
  comp := []
  compPos := 0
  decomp := []
  decompPos := 0
  fileOffset := 0
  reads := 0
  fileEof := false
  streamEnded := false
  decoder := dec.init

/-- `rewind_state`. -/
def rewindState (rd : TraceReader σ) : TraceReader σ :=
  { rd with
    comp := []
    compPos := 0
    decomp := []
    decompPos := 0
    fileOffset := 0
    fileEof := false
    streamEnded := false
    decoder := dec.reset rd.decoder }

/-- `refill_compressed`. -/
def refillCompressed (rd : TraceReader σ) : TraceReader σ :=
  if rd.fileEof then { rd with comp := [], compPos := 0 }
  else
    let n := file.read rd.fileOffset rd.reads compBufBytes
    let rd := { rd with comp := n, compPos := 0, reads := rd.reads + 1 }
    if n = [] then { rd with fileEof := true }
    else { rd with fileOffset := rd.fileOffset + n.length }

/-- Another chunk is pulled when the compressed buffer is drained. -/
def pull (rd : TraceReader σ) : TraceReader σ :=
  if rd.comp.length ≤ rd.compPos ∧ rd.fileEof = false then rd.refillCompressed file else rd

/-- What the loop of `refill_decompressed` does with the result of `decode`. -/
def decoded (rd : TraceReader σ) (r : DecodeStep σ UInt8) : TraceReader σ :=
  let compPos := rd.compPos + r.consumed
  { rd with
    compPos := compPos
    decomp := rd.decomp ++ r.produced
    decoder := r.next
    -- the second case is the guard against an infinite loop
    streamEnded := rd.streamEnded || r.status == .streamEnd ||
      (r.consumed == 0 && r.produced.isEmpty && decide (rd.comp.length ≤ compPos) && rd.fileEof) }

/-- The loop of `refill_decompressed`. -/
def refillLoop : ℕ → TraceReader σ → Except ReadFailure (Bool × TraceReader σ)
  | 0, _ => .error .outOfFuel
  | fuel + 1, rd =>
    if rd.decomp ≠ [] then .ok (true, rd)
    else if rd.streamEnded then .ok (false, rd)
    else
      let rd := rd.pull file
      let r := dec.decode rd.decoder (rd.comp.drop rd.compPos) (decompBufBytes - rd.decomp.length)
      if r.status = .error then .error .decodeError else refillLoop fuel (rd.decoded r)

/-- `refill_decompressed`: false at the end of the stream. -/
def refillDecompressed (fuel : ℕ) (rd : TraceReader σ) :
    Except ReadFailure (Bool × TraceReader σ) :=
  refillLoop dec file fuel { rd with decomp := [], decompPos := 0 }

/-- The loop of `read_bytes`, with the bytes copied so far. -/
def readLoop (nbytes fuel : ℕ) : ℕ → List UInt8 → TraceReader σ →
    Except ReadFailure (Option (List UInt8) × TraceReader σ)
  | 0, _, _ => .error .outOfFuel
  | turns + 1, copied, rd =>
    if copied.length < nbytes then
      match if rd.decomp.length ≤ rd.decompPos then refillDecompressed dec file fuel rd
        else .ok (true, rd) with
      | .error e => .error e
      | .ok (false, rd) => .ok (none, rd)
      | .ok (true, rd) =>
        let n := (rd.decomp.drop rd.decompPos).take (nbytes - copied.length)
        readLoop nbytes fuel turns (copied ++ n) { rd with decompPos := rd.decompPos + n.length }
    else .ok (some copied, rd)

/-- `read`: the bytes it delivers when it returns true. -/
def readBytes (fuel : ℕ) (rd : TraceReader σ) (nbytes : ℕ) :
    Except ReadFailure (Option (List UInt8) × TraceReader σ) :=
  readLoop dec file nbytes fuel fuel [] rd

/-- The calls of the simulator. -/
inductive ReaderCall
  | read (nbytes : ℕ)
  | rewind
  deriving DecidableEq

/-- Successive calls, with the results of the reads. -/
def run (fuel : ℕ) : List ReaderCall → TraceReader σ →
    Except ReadFailure (List (Option (List UInt8)))
  | [], _ => .ok []
  | .rewind :: calls, rd => run fuel calls (rd.rewindState dec)
  | .read nbytes :: calls, rd =>
    match rd.readBytes dec file fuel nbytes with
    | .error e => .error e
    | .ok (result, rd) =>
      match run fuel calls rd with
      | .error e => .error e
      | .ok results => .ok (result :: results)

end TraceReader

end Arishem
