import Arishem.Reader.Reads

/-!
# The decoders of the reader

`GzipDecoder`, `XzDecoder` and `ZstdDecoder` wrap a call of a library and translate its return code.
The libraries are parameters: a codec is its state and its call. What the reader relies on is stated
in their terms: `inflate` decodes one gzip member and returns `Z_STREAM_END` at its end, `lzma_code`
with `LZMA_CONCATENATED` goes on across the streams of a file.
-/

namespace Arishem

/-- One call of a library: its return code, the input used, the output and the next state. -/
structure CodecCall (ζ ρ : Type) where
  rc : ρ
  consumed : ℕ
  produced : List UInt8
  next : ζ

/-- A decompression library: the state of a fresh stream, its call, and its reset. -/
structure Codec (ζ ρ : Type) where
  init : ζ
  code : ζ → List UInt8 → ℕ → CodecCall ζ ρ
  reset : ζ → ζ

/-- What a decoder reports of a call. -/
def CodecCall.toStep {ζ ρ : Type} (status : ρ → DecodeStatus) (r : CodecCall ζ ρ) :
    DecodeStep ζ UInt8 :=
  ⟨status r.rc, r.consumed, r.produced, r.next⟩

/-- A decoder around a library. -/
def Codec.decoder {ζ ρ : Type} (status : ρ → DecodeStatus) (c : Codec ζ ρ) :
    StreamDecoder ζ UInt8 UInt8 where
  init := c.init
  decode := fun s src room => (c.code s src room).toStep status
  reset := c.reset

/-- The return codes of `inflate`. -/
inductive ZRet
  | ok
  | bufError
  | streamEnd
  | error
  deriving DecidableEq

/-- `GzipDecoder::decode`: `Z_BUF_ERROR` is a stall. -/
def ZRet.status : ZRet → DecodeStatus
  | .streamEnd => .streamEnd
  | .ok | .bufError => .ok
  | .error => .error

/-- The return codes of `lzma_code`. -/
inductive LzmaRet
  | ok
  | streamEnd
  | error
  deriving DecidableEq

/-- `XzDecoder::decode`. -/
def LzmaRet.status : LzmaRet → DecodeStatus
  | .streamEnd => .streamEnd
  | .ok => .ok
  | .error => .error

/-- What `ZSTD_decompressStream` returns: an error or a hint, which is 0 at the end of a frame. -/
inductive ZstdRet
  | error
  | hint (n : ℕ)
  deriving DecidableEq

/-- `ZstdDecoder::decode`. -/
def ZstdRet.status : ZstdRet → DecodeStatus
  | .error => .error
  | .hint 0 => .streamEnd
  | .hint (_ + 1) => .ok

/-- `GzipDecoder`. -/
def gzipDecoder {ζ : Type} (zlib : Codec ζ ZRet) : StreamDecoder ζ UInt8 UInt8 :=
  zlib.decoder ZRet.status

/-- `XzDecoder`. -/
def xzDecoder {ζ : Type} (lzma : Codec ζ LzmaRet) : StreamDecoder ζ UInt8 UInt8 :=
  lzma.decoder LzmaRet.status

/-- Only the return value 0 ends a stream. -/
theorem ZstdRet.status_eq_streamEnd {rc : ZstdRet} (h : rc.status = .streamEnd) : rc = .hint 0 := by
  cases rc with
  | error => cases h
  | hint n =>
    cases n with
    | zero => rfl
    | succ n => cases h

/-- `ZstdDecoder`. -/
def zstdDecoder {ζ : Type} (zstd : Codec ζ ZstdRet) : StreamDecoder ζ UInt8 UInt8 :=
  zstd.decoder ZstdRet.status

/-- The formats of a trace file. -/
inductive TraceFormat
  | gzip
  | xz
  | zstd
  deriving DecidableEq

/-- Why no decoder is made for a path. -/
inductive FormatError
  | noExtension
  | unsupported
  deriving DecidableEq

/-- `make_decoder`: the first character after the last dot decides. -/
def makeDecoder (path : List Char) : Except FormatError TraceFormat :=
  match path.reverse.span (· ≠ '.') with
  | (_, []) => .error .noExtension
  | (extension, _ :: _) =>
    match extension.reverse with
    | [] => .error .noExtension
    | 'g' :: _ => .ok .gzip
    | 'x' :: _ => .ok .xz
    | 'z' :: _ => .ok .zstd
    | _ :: _ => .error .unsupported

/-! ## What the libraries promise -/

/-- A member of a compressed file and what it decodes to. -/
structure Member where
  compressed : List UInt8
  content : List UInt8

/-- A call of `inflate` at position `i` of a member and `o` of its content is right: it stays within
the member, and it returns `Z_STREAM_END` when the member is finished. -/
structure InflateRight {ζ : Type} (m : Member) (At : ζ → ℕ → ℕ → Prop) (avail : ℕ → ℕ) (i o : ℕ)
    (src : List UInt8) (room : ℕ) (r : CodecCall ζ ZRet) : Prop where
  consumed_le : r.consumed ≤ src.length
  member : i + r.consumed ≤ m.compressed.length
  produced_le : r.produced.length ≤ room
  produced_prefix : r.produced <+: m.content.drop o
  avail_le : o + r.produced.length ≤ avail (i + r.consumed)
  progress : src ≠ [] ∨ o < avail i → 0 < r.consumed ∨ r.produced ≠ []
  not_error : r.rc ≠ .error
  ret : r.rc = .streamEnd ↔
    i + r.consumed = m.compressed.length ∧ o + r.produced.length = m.content.length
  next : r.rc ≠ .streamEnd → 0 < r.consumed ∨ r.produced ≠ [] →
    At r.next (i + r.consumed) (o + r.produced.length)

/-- `inflate` decodes the member, whatever follows it in the file. -/
structure Inflates {ζ : Type} (zlib : Codec ζ ZRet) (m : Member) (avail : ℕ → ℕ)
    (At : ζ → ℕ → ℕ → Prop) : Prop where
  init : At zlib.init 0 0
  reset : ∀ s, At (zlib.reset s) 0 0
  le : ∀ s i o, At s i o → i ≤ m.compressed.length
  avail_all : avail m.compressed.length = m.content.length
  step : ∀ rest s i o src room, At s i o → src <+: (m.compressed ++ rest).drop i → 0 < room →
    InflateRight m At avail i o src room (zlib.code s src room)

/-- `lzma_code` with `LZMA_CONCATENATED` decodes the streams of the file one after the other. -/
structure LzmaConcatenated {ζ : Type} (lzma : Codec ζ LzmaRet) (streams : List Member)
    (avail : ℕ → ℕ) (At : ζ → ℕ → ℕ → Prop) : Prop where
  init : At lzma.init 0 0
  reset : ∀ s, At (lzma.reset s) 0 0
  avail_all :
    avail (streams.flatMap (·.compressed)).length = (streams.flatMap (·.content)).length
  step : ∀ s i o src room, At s i o → src <+: (streams.flatMap (·.compressed)).drop i →
    0 < room → ((lzma.code s src room).toStep LzmaRet.status).Right At avail
      (streams.flatMap (·.content)) i o src room

/-- `ZSTD_decompressStream` decodes the one frame of the input, as far as the input goes: it holds
back only what does not fit the room for output, and it returns 0 when the frame was used up. -/
structure ZstdDecodes {ζ : Type} (zstd : Codec ζ ZstdRet) (input data : List UInt8)
    (avail : ℕ → ℕ) (At : ζ → ℕ → ℕ → Prop) : Prop where
  decodes : (zstdDecoder zstd).Decodes input data avail At
  full : ∀ s i o src room, At s i o → src <+: input.drop i → 0 < room →
    o + (zstd.code s src room).produced.length < avail (i + (zstd.code s src room).consumed) →
    (zstd.code s src room).produced.length = room
  ended : ∀ s i o src room, At s i o → src <+: input.drop i → 0 < room →
    (zstd.code s src room).rc = .hint 0 → i + (zstd.code s src room).consumed = input.length

section
variable {ζ : Type} {avail : ℕ → ℕ} {At : ζ → ℕ → ℕ → Prop}

theorem LzmaConcatenated.decodes {lzma : Codec ζ LzmaRet} {streams : List Member}
    (h : LzmaConcatenated lzma streams avail At) :
    (xzDecoder lzma).Decodes (streams.flatMap (·.compressed)) (streams.flatMap (·.content))
      avail At :=
  ⟨h.init, h.reset, h.avail_all, h.step⟩

/-- The decoder keeps its contract on what is left of the input. -/
theorem ZstdDecodes.right {zstd : Codec ζ ZstdRet} {input data : List UInt8} {s : ζ} {i o room : ℕ}
    (h : ZstdDecodes zstd input data avail At) (hs : At s i o) (hroom : 0 < room) :
    ((zstd.code s (input.drop i) room).toStep ZstdRet.status).Right At avail data i o
      (input.drop i) room :=
  h.decodes.step s i o _ room hs (List.prefix_refl _) hroom

/-- To the gzip decoder a file ends with its first member. -/
theorem Inflates.decodes {zlib : Codec ζ ZRet} {m : Member} (h : Inflates zlib m avail At)
    (rest : List UInt8) :
    (gzipDecoder zlib).Decodes (m.compressed ++ rest) m.content
      (fun i => avail (min i m.compressed.length)) At where
  init := h.init
  reset := h.reset
  avail_all := by
    show avail (min _ _) = _
    rw [List.length_append, Nat.min_eq_right (Nat.le_add_right ..), h.avail_all]
  step s i o src room hs hsrc hroom := by
    have hr := h.step rest s i o src room hs hsrc hroom
    have hi := h.le s i o hs
    generalize hcall : zlib.code s src room = r at hr
    have hstep : (gzipDecoder zlib).decode s src room = r.toStep ZRet.status :=
      congrArg (CodecCall.toStep ZRet.status) hcall
    rw [hstep]
    refine ⟨hr.consumed_le, hr.produced_le, hr.produced_prefix, ?_, ?_, ?_, ?_, ?_⟩
    · show _ ≤ avail (min (i + r.consumed) _)
      rw [Nat.min_eq_left hr.member]
      exact hr.avail_le
    · rw [Nat.min_eq_left hi]
      exact hr.progress
    · have hne := hr.not_error
      intro he
      cases hrc : r.rc <;> simp_all [CodecCall.toStep, ZRet.status]
    · intro he
      have hend : r.rc = .streamEnd := by
        cases hrc : r.rc <;> simp_all [CodecCall.toStep, ZRet.status]
      exact (hr.ret.1 hend).2
    · intro he hp
      refine hr.next (fun hend => ?_) hp
      simp [CodecCall.toStep, hend, ZRet.status] at he

end

end Arishem
