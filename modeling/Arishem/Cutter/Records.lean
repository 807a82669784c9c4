import Arishem.Cutter.Chunks
import Arishem.Reader.Members

/-!
# The records of the cutter and of the reader

`trace_cutter` calls the decoder while input is left. A decoder may use up its input and still hold
decoded output that did not fit the buffer; the reader calls it again, the cutter does not, and what
is held back is lost. So both see the same records unless, at the call that takes the last byte of
the input, more is undelivered than the buffer and the incomplete record at the end account for.
-/

namespace Arishem

namespace Cutter

/-- The size of `dec_buf`: `ZSTD_DStreamOutSize()`, but 1 MiB at least. -/
def decBufBytes (dStreamOutSize : ℕ) : ℕ := max dStreamOutSize (1 <<< 20)

/-- Why a run of the cutter has no result. -/
inductive CutFailure
  | emptyInput
  | decodeError
  | outOfFuel
  deriving DecidableEq

section
variable {ζ : Type} (a : CutterArgs) (zstd : Codec ζ ZstdRet) (input : List UInt8) (room : ℕ)

/-- The decompression loop of `main`, with the position in the input. -/
def cutLoop : ℕ → ζ → ℕ → Cutter → Except CutFailure Cutter
  | 0, _, _, _ => .error .outOfFuel
  | fuel + 1, s, pos, c =>
    if pos < input.length then
      let r := zstd.code s (input.drop pos) room
      if r.rc = .error then .error .decodeError
      else
        match if r.produced = [] then some c else c.consumeDecompressed a r.produced with
        | none => .error .outOfFuel
        | some c => cutLoop fuel r.next (pos + r.consumed) c
    else .ok c.finalizeCurrentChunk

/-- `main`: an empty input is refused. -/
def cutFile (dStreamOutSize fuel : ℕ) : Except CutFailure Cutter :=
  if input = [] then .error .emptyInput
  else cutLoop a zstd input (decBufBytes dStreamOutSize) fuel zstd.init 0 init

/-- The calls of the decoder that the loop makes: the state before the call, how much of the input
was used and how much output was produced. -/
inductive Calls : ζ → ℕ → ℕ → Prop
  | start : Calls zstd.init 0 0
  | next {s : ζ} {i o : ℕ} : Calls s i o → i < input.length →
      Calls (zstd.code s (input.drop i) room).next (i + (zstd.code s (input.drop i) room).consumed)
        (o + (zstd.code s (input.drop i) room).produced.length)

/-- The call takes the last byte of the input. -/
def IsLast (s : ζ) (i : ℕ) : Prop :=
  i < input.length ∧ i + (zstd.code s (input.drop i) room).consumed = input.length

/-- Before the call that takes the last byte of the input, the undelivered output is at most a buffer
and the incomplete record at the end. -/
def LastCallFits (data : List UInt8) : Prop :=
  ∀ s i o, Calls zstd input room s i o → IsLast zstd input room s i →
    data.length - o ≤ room + data.length % recordSize

end

section
variable {ζ : Type} {a : CutterArgs} {zstd : Codec ζ ZstdRet} {input data : List UInt8} {room : ℕ}
variable {avail : ℕ → ℕ} {At : ζ → ℕ → ℕ → Prop} {s : ζ} {i o : ℕ} {c : Cutter}

/-- One turn of the loop. -/
theorem cutLoop_succ (h : ZstdDecodes zstd input data avail At) (hs : At s i o) (hroom : 0 < room)
    (hi : i < input.length) (hcut : Cut a c (data.take o)) :
    ∃ c', Cut a c' (data.take (o + (zstd.code s (input.drop i) room).produced.length)) ∧
      ∀ fuel, cutLoop a zstd input room (fuel + 1) s i c =
        cutLoop a zstd input room fuel (zstd.code s (input.drop i) room).next
          (i + (zstd.code s (input.drop i) room).consumed) c' := by
  have hright := h.right hs hroom
  generalize hcall : zstd.code s (input.drop i) room = r at hright ⊢
  have herr : r.rc ≠ .error := fun he => hright.not_error (by
    show r.rc.status = _
    rw [he]
    rfl)
  obtain ⟨c', hrun, hcut'⟩ : ∃ c', (if r.produced = [] then some c
      else c.consumeDecompressed a r.produced) = some c' ∧
      Cut a c' (data.take o ++ r.produced) := by
    split
    · rename_i hnil
      exact ⟨c, rfl, by rwa [hnil, List.append_nil]⟩
    · exact hcut.consumeDecompressed_spec _
  have htake : data.take o ++ r.produced = data.take (o + r.produced.length) := by
    have hprefix : r.produced <+: data.drop o := hright.produced_prefix
    rw [List.take_add, ← List.prefix_iff_eq_take.1 hprefix]
  refine ⟨c', htake ▸ hcut', fun fuel => ?_⟩
  rw [cutLoop, if_pos hi]
  simp only [hcall, if_neg herr, hrun]

/-- The decoder keeps its contract at every call. -/
theorem Calls.tracks (h : ZstdDecodes zstd input data avail At) (hroom : 0 < room)
    (hcall : Calls zstd input room s i o) : i ≤ input.length ∧ (i < input.length → At s i o) := by
  induction hcall with
  | start => exact ⟨Nat.zero_le _, fun _ => h.decodes.init⟩
  | @next s i o _ hi ih =>
    have hs := ih.2 hi
    have hright := h.right hs hroom
    refine ⟨?_, fun hmore => ?_⟩
    · have hle : (zstd.code s (input.drop i) room).consumed ≤ (input.drop i).length :=
        hright.consumed_le
      rw [List.length_drop] at hle
      omega
    · have hsrc : input.drop i ≠ [] := fun hnil => absurd (List.drop_eq_nil_iff.1 hnil) (by omega)
      refine hright.next (hright.status_eq fun hend => ?_) (hright.progress (.inl hsrc))
      -- the frame ends with the input
      have hall := h.ended s i o _ room hs (List.prefix_refl _) hroom (ZstdRet.status_eq_streamEnd hend)
      omega

/-- The loop makes the calls one after the other. -/
theorem Calls.reached (h : ZstdDecodes zstd input data avail At) (hroom : 0 < room) (a : CutterArgs)
    (hcall : Calls zstd input room s i o) : ∃ n c, Cut a c (data.take o) ∧
      ∀ fuel, cutLoop a zstd input room (fuel + n) zstd.init 0 init =
        cutLoop a zstd input room fuel s i c := by
  induction hcall with
  | start => exact ⟨0, init, by simpa using cut_init, fun _ => rfl⟩
  | @next s i o hcall hi ih =>
    obtain ⟨n, c, hcut, hrun⟩ := ih
    obtain ⟨c', hcut', hturn⟩ := cutLoop_succ h ((hcall.tracks h hroom).2 hi) hroom hi hcut
    refine ⟨n + 1, c', hcut', fun fuel => ?_⟩
    rw [← hturn fuel, ← hrun (fuel + 1), Nat.add_assoc, Nat.add_comm 1 n]

/-- The loop makes a call that takes the last byte of the input. -/
theorem Calls.exists_last (h : ZstdDecodes zstd input data avail At) (hroom : 0 < room)
    (hcall : Calls zstd input room s i o) (hi : i < input.length) :
    ∃ s' i' o', Calls zstd input room s' i' o' ∧ IsLast zstd input room s' i' := by
  generalize hn : (input.length - i) + (data.length - o) = n
  induction n using Nat.strong_induction_on generalizing s i o with
  | _ n ih =>
    have hright := h.right ((hcall.tracks h hroom).2 hi) hroom
    by_cases hlast : i + (zstd.code s (input.drop i) room).consumed = input.length
    · exact ⟨s, i, o, hcall, hi, hlast⟩
    · have hnext := hcall.next hi
      have hle := (hnext.tracks h hroom).1
      have hsrc : input.drop i ≠ [] := fun hnil => absurd (List.drop_eq_nil_iff.1 hnil) (by omega)
      have hout : (zstd.code s (input.drop i) room).produced.length ≤ data.length - o :=
        hright.produced_length_le
      have hprogress : 0 < (zstd.code s (input.drop i) room).consumed ∨
          0 < (zstd.code s (input.drop i) room).produced.length :=
        (hright.progress (.inl hsrc)).imp id List.length_pos_iff.2
      exact ih _ (by omega) hnext (by omega) rfl

/-- The output that the last call leaves behind. -/
theorem Calls.last_output (h : ZstdDecodes zstd input data avail At) (hroom : 0 < room)
    (hs : At s i o) (hlast : IsLast zstd input room s i) :
    o + (zstd.code s (input.drop i) room).produced.length = min data.length (o + room) := by
  have hright := h.right hs hroom
  have hle : (zstd.code s (input.drop i) room).produced.length ≤ room := hright.produced_le
  have hall : o + (zstd.code s (input.drop i) room).produced.length ≤
      avail (i + (zstd.code s (input.drop i) room).consumed) := hright.avail_le
  have hfull := h.full s i o _ room hs (List.prefix_refl _) hroom
  rw [hlast.2, h.decodes.avail_all] at hall hfull
  omega

/-- The cutter ends, with the records that were delivered up to the last call. -/
theorem Calls.cutFile_spec (h : ZstdDecodes zstd input data avail At) (hinput : input ≠ [])
    (a : CutterArgs) (dStreamOutSize : ℕ)
    (hcall : Calls zstd input (decBufBytes dStreamOutSize) s i o)
    (hlast : IsLast zstd input (decBufBytes dStreamOutSize) s i) :
    ∃ bound c, c.totalRecords = min data.length (o + decBufBytes dStreamOutSize) / recordSize ∧
      ∀ fuel, bound ≤ fuel → cutFile a zstd input dStreamOutSize fuel = .ok c := by
  have hroom : 0 < decBufBytes dStreamOutSize :=
    Nat.lt_of_lt_of_le (by decide) (Nat.le_max_right dStreamOutSize (1 <<< 20))
  have hs := (hcall.tracks h hroom).2 hlast.1
  obtain ⟨n, c, hcut, hrun⟩ := hcall.reached h hroom a
  obtain ⟨c', hcut', hturn⟩ := cutLoop_succ h hs hroom hlast.1 hcut
  rw [Calls.last_output h hroom hs hlast] at hcut'
  obtain ⟨htotal, -, hf, -⟩ := hcut'.sizes
  refine ⟨n + 2, c'.finalizeCurrentChunk, ?_, fun fuel hfuel => ?_⟩
  · rw [hf.finalize.1, htotal, List.length_take, Nat.min_assoc, Nat.min_comm _ data.length,
      ← Nat.min_assoc, Nat.min_self]
  · obtain ⟨k, rfl⟩ := Nat.exists_eq_add_of_le hfuel
    have hsum : n + 2 + k = k + 1 + 1 + n := by omega
    rw [cutFile, if_neg hinput, hsum, hrun, hturn, hlast.2, cutLoop, if_neg (Nat.lt_irrefl _)]

end

end Cutter

namespace TraceReader

/-- The number of reads that succeed before the first that fails. -/
def served (results : List (Option (List UInt8))) : ℕ := (results.takeWhile (·.isSome)).length

theorem served_serve (data rest : List UInt8) {n : ℕ} (hn : 0 < n) (k : ℕ) :
    served (serve data (List.replicate k (.read n)) rest) = min k (rest.length / n) := by
  induction k generalizing rest with
  | zero => simp [serve, served]
  | succ k ih =>
    rw [List.replicate_succ, serve]
    split
    · rename_i hle
      have hstep : served (some (rest.take n) :: serve data (List.replicate k (.read n))
          (rest.drop n)) = served (serve data (List.replicate k (.read n)) (rest.drop n)) + 1 := by
        rw [served, List.takeWhile_cons_of_pos rfl, List.length_cons, served]
      rw [hstep, ih, List.length_drop, Nat.div_eq rest.length n, if_pos ⟨hn, hle⟩]
      omega
    · rename_i hgt
      rw [Nat.div_eq_of_lt (Nat.not_le.1 hgt)]
      rfl

end TraceReader

namespace Cutter

/-- The cutter emits as many records as the reader serves before it returns false, and these are all
the whole records that the decoder can produce from the input. -/
def SameRecords {ζ : Type} (a : CutterArgs) (zstd : Codec ζ ZstdRet) (dStreamOutSize : ℕ)
    (file : TraceFile) (data : List UInt8) : Prop :=
  ∃ bound, ∀ fuel, bound ≤ fuel → ∃ c, cutFile a zstd file.bytes dStreamOutSize fuel = .ok c ∧
    c.totalRecords = data.length / recordSize ∧
    ∀ reads, data.length / recordSize < reads → ∃ results,
      TraceReader.run (zstdDecoder zstd) file fuel (List.replicate reads (.read recordSize))
        (TraceReader.start (zstdDecoder zstd)) = .ok results ∧
      TraceReader.served results = c.totalRecords

/-- The cutter and the reader see the same records exactly when the last call of the cutter leaves
no whole record behind. -/
theorem sameRecords_iff {ζ : Type} {zstd : Codec ζ ZstdRet} {file : TraceFile}
    {data : List UInt8} {avail : ℕ → ℕ} {At : ζ → ℕ → ℕ → Prop} (a : CutterArgs)
    (dStreamOutSize : ℕ) (h : ZstdDecodes zstd file.bytes data avail At) (hfile : file.bytes ≠ []) :
    SameRecords a zstd dStreamOutSize file data ↔
      LastCallFits zstd file.bytes (decBufBytes dStreamOutSize) data := by
  have hroom : 0 < decBufBytes dStreamOutSize :=
    Nat.lt_of_lt_of_le (by decide) (Nat.le_max_right dStreamOutSize (1 <<< 20))
  have hrec : recordSize = 512 := rfl
  constructor
  · rintro ⟨bound, hsame⟩ s i o hcall hlast
    obtain ⟨bound', c, htotal, hrun⟩ := hcall.cutFile_spec h hfile a dStreamOutSize hlast
    obtain ⟨c', hrun', htotal', -⟩ := hsame _ (Nat.le_max_left bound bound')
    rw [hrun _ (Nat.le_max_right ..)] at hrun'
    obtain rfl : c = c' := Except.ok.inj hrun'
    rw [htotal] at htotal'
    rw [hrec] at htotal' ⊢
    omega
  · intro hfits
    have hstart : Calls zstd file.bytes (decBufBytes dStreamOutSize) zstd.init 0 0 := .start
    obtain ⟨s, i, o, hcall, hlast⟩ := hstart.exists_last h hroom (List.length_pos_iff.2 hfile)
    obtain ⟨bound, c, htotal, hrun⟩ := hcall.cutFile_spec h hfile a dStreamOutSize hlast
    have hcount : c.totalRecords = data.length / recordSize := by
      have hle := hfits s i o hcall hlast
      rw [htotal]
      rw [hrec] at hle ⊢
      omega
    refine ⟨bound + (file.bytes.length + data.length + 2) + (recordSize + 1), fun fuel hfuel =>
      ⟨c, hrun fuel (by omega), hcount, fun reads hreads => ?_⟩⟩
    refine ⟨TraceReader.serve data (List.replicate reads (.read recordSize)) data, ?_, ?_⟩
    · exact (TraceReader.serves_start h.decodes).run_spec h.decodes (by omega) fun n hn => by
        obtain ⟨-, hn⟩ := List.mem_replicate.1 hn
        cases hn
        omega
    · rw [TraceReader.served_serve _ _ (by decide), hcount]
      omega

/-! ## A frame that is cut off -/

/-- A zstd frame of zeros, cut off behind the given blocks of one repeated byte. -/
def cutOffFrame (blocks : List (UInt8 × UInt8)) (zeros : ℕ) : Member where
  compressed := [40, 181, 47, 253, 0, 56] ++ blocks.flatMap fun b => [2, b.1, b.2, 0]
  content := List.replicate zeros 0

/-- A `ZSTD_decompressStream` for a frame that is cut off: it never returns 0. -/
def cutOffCodec (m : Member) : Codec (ℕ × ℕ) ZstdRet :=
  TraceReader.codecOfMember m (.hint 1) (.hint 1) (.hint 1)

/-- The state of `cutOffCodec`. -/
def CutOffAt (m : Member) (s : ℕ × ℕ) (i o : ℕ) : Prop :=
  s = (i, o) ∧ i ≤ m.compressed.length ∧ o ≤ m.content.length ∧ (i < m.compressed.length → o = 0)

theorem cutOffCodec_decodes (m : Member) : ZstdDecodes (cutOffCodec m) m.compressed m.content
    (fun i => if m.compressed.length ≤ i then m.content.length else 0) (CutOffAt m) := by
  have hcode : ∀ i o src room, i ≤ m.compressed.length → (i < m.compressed.length → o = 0) →
      ∃ c p, (cutOffCodec m).code (i, o) src room = ⟨.hint 1, c, p, (i + c, o + p.length)⟩ ∧
        c = min src.length (m.compressed.length - i) ∧ p <+: m.content.drop o ∧
        (i + c = m.compressed.length ∧ p.length = min room (m.content.length - o) ∨
          i + c < m.compressed.length ∧ o = 0 ∧ p.length = 0) := by
    intro i o src room hi ho
    obtain ⟨c, p, hcode, hc, hprefix, hout⟩ :=
      TraceReader.codecOfMember_code m (ZstdRet.hint 1) (.hint 1) (.hint 1) ho hi src room
    refine ⟨c, p, ?_, hc, hprefix, hout⟩
    rw [cutOffCodec, hcode]
    simp
  refine ⟨⟨⟨rfl, Nat.zero_le _, Nat.zero_le _, fun _ => rfl⟩,
    fun _ => ⟨rfl, Nat.zero_le _, Nat.zero_le _, fun _ => rfl⟩,
    if_pos (Nat.le_refl _), fun s i o src room hs hsrc hroom => ?_⟩, fun s i o src room hs hsrc _ => ?_,
    fun s i o src room hs _ _ => ?_⟩
  · obtain ⟨rfl, hi, hle, ho⟩ := hs
    obtain ⟨c, p, hrun, hc, hprefix, hout⟩ := hcode i o src room hi ho
    have hstep : (zstdDecoder (cutOffCodec m)).decode (i, o) src room =
        ⟨.ok, c, p, (i + c, o + p.length)⟩ := congrArg (CodecCall.toStep ZstdRet.status) hrun
    have hlen := hsrc.length_le
    rw [List.length_drop] at hlen
    rw [hstep]
    refine ⟨by dsimp only; omega, by dsimp only; omega, hprefix, ?_, fun hmore => ?_, by simp, by simp,
      fun _ _ =>
        ⟨rfl, by dsimp only; omega, by dsimp only; omega, fun hlt => by dsimp only at hlt ⊢; omega⟩⟩
    · dsimp only
      split <;> omega
    · have hpos : 0 < c ∨ 0 < p.length := by
        rcases hmore with hsrc | havail
        · have hpos := List.length_pos_iff.2 hsrc
          omega
        · split at havail <;> omega
      exact hpos.imp id List.length_pos_iff.1
  · obtain ⟨rfl, hi, hle, ho⟩ := hs
    obtain ⟨c, p, hrun, hc, -, hout⟩ := hcode i o src room hi ho
    rw [hrun]
    dsimp only
    split <;> omega
  · obtain ⟨rfl, hi, hle, ho⟩ := hs
    obtain ⟨c, p, hrun, -⟩ := hcode i o src room hi ho
    rw [hrun]
    simp

/-- Two records from one block are seen by both. -/
theorem sameRecords_iff_oneBlock :
    SameRecords ⟨1, Nat.one_pos, false⟩ (cutOffCodec (cutOffFrame [(32, 0)] 1024)) 131072
      ⟨(cutOffFrame [(32, 0)] 1024).compressed, fun _ => compBufBytes⟩
      (cutOffFrame [(32, 0)] 1024).content :=
  (@sameRecords_iff _ (cutOffCodec (cutOffFrame [(32, 0)] 1024))
    ⟨(cutOffFrame [(32, 0)] 1024).compressed, fun _ => compBufBytes⟩ _ _ _ ⟨1, Nat.one_pos, false⟩
    131072 (cutOffCodec_decodes _) (by decide)).2 fun s i o _ _ => by
      have hlen : (cutOffFrame [(32, 0)] 1024).content.length = 1024 := List.length_replicate
      have hbuf : decBufBytes 131072 = 1048576 := by decide
      rw [hlen, hbuf]
      omega

/-- Of a frame of one small block and eight blocks of 128 KiB, cut off behind them, the decoder holds
512 bytes back when the input is used up: the cutter loses a record that the reader serves. -/
theorem held_record_lost :
    ¬ SameRecords ⟨1000000, by decide, false⟩
      (cutOffCodec (cutOffFrame ((16, 0) :: List.replicate 8 (0, 16)) 1049088)) 131072
      ⟨(cutOffFrame ((16, 0) :: List.replicate 8 (0, 16)) 1049088).compressed,
        fun _ => compBufBytes⟩
      (cutOffFrame ((16, 0) :: List.replicate 8 (0, 16)) 1049088).content := by
  rintro ⟨bound, hsame⟩
  generalize hm : cutOffFrame ((16, 0) :: List.replicate 8 (0, 16)) 1049088 = m at hsame
  have hlen : m.content.length = 1049088 := hm ▸ List.length_replicate
  have hin : m.compressed.length = 42 := by
    rw [← hm]
    decide
  have hbuf : decBufBytes 131072 = 1048576 := by decide
  have hrec : recordSize = 512 := rfl
  have hlast : IsLast (cutOffCodec m) m.compressed (decBufBytes 131072) (0, 0) 0 := by
    refine ⟨by omega, ?_⟩
    show 0 + min (m.compressed.drop 0).length (m.compressed.length - 0) = _
    rw [List.drop_zero]
    omega
  have hstart : Calls (cutOffCodec m) m.compressed (decBufBytes 131072) (0, 0) 0 0 := .start
  have hne : m.compressed ≠ [] := List.length_pos_iff.1 (by omega)
  obtain ⟨bound', c, htotal, hrun⟩ := hstart.cutFile_spec (cutOffCodec_decodes m) hne
    ⟨1000000, by decide, false⟩ 131072 hlast
  obtain ⟨c', hrun', htotal', -⟩ := hsame _ (Nat.le_max_left bound bound')
  rw [hrun _ (Nat.le_max_right ..)] at hrun'
  obtain rfl : c = c' := Except.ok.inj hrun'
  rw [htotal, hlen, hbuf, hrec] at htotal'
  omega

end Cutter

end Arishem
