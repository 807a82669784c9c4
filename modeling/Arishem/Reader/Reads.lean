import Arishem.Reader.TraceReader

/-!
# The reader is transparent to its buffers

Against a decoder that keeps its contract, the reader serves the decoded stream: each read returns
the next bytes, until fewer bytes are left than a read asks for. `Synced` relates the reader to its
positions in the file and in the decoded stream. One turn of the loop of `refill_decompressed` either
moves one of the two positions or ends the stream, which bounds the number of turns.
-/

namespace Arishem

namespace TraceReader

/-! ## The served stream -/

/-- What a caller of the reader sees: a stream of bytes. A read that finds fewer bytes than it asks
for fails and leaves nothing, and `rewind` starts again. -/
def serve (data : List UInt8) : List ReaderCall → List UInt8 → List (Option (List UInt8))
  | [], _ => []
  | .rewind :: calls, _ => serve data calls data
  | .read nbytes :: calls, rest =>
    if nbytes ≤ rest.length then some (rest.take nbytes) :: serve data calls (rest.drop nbytes)
    else none :: serve data calls []

section
variable {σ : Type} (file : TraceFile) (data : List UInt8) (At : σ → ℕ → ℕ → Prop)

/-- The reader is at position `i` of the file and the decoder at `o` of the stream. -/
structure Synced (rd : TraceReader σ) (i o : ℕ) : Prop where
  unread : rd.comp.drop rd.compPos ++ file.bytes.drop rd.fileOffset = file.bytes.drop i
  le : i ≤ file.bytes.length
  eof : rd.fileEof = true → file.bytes.drop rd.fileOffset = []
  live : rd.streamEnded = false → At rd.decoder i o
  ended : rd.streamEnded = true → data.length ≤ o

/-- The bytes that the reader has yet to serve. -/
def Serves (rd : TraceReader σ) (rest : List UInt8) : Prop :=
  ∃ i o, Synced file data At rd i o ∧ rest = rd.decomp.drop rd.decompPos ++ data.drop o

/-- An upper bound on the turns of `refill_decompressed`. -/
def turns (rd : TraceReader σ) (i o : ℕ) : ℕ :=
  if rd.decomp = [] ∧ rd.streamEnded = false then
    (file.bytes.length - i) + (data.length - o) + 2
  else 1

end

section
variable {σ : Type} {dec : StreamDecoder σ UInt8 UInt8} {file : TraceFile} {data : List UInt8}
variable {avail : ℕ → ℕ} {At : σ → ℕ → ℕ → Prop} {rd : TraceReader σ} {i o fuel : ℕ}

theorem turns_le : turns file data rd i o ≤ file.bytes.length + data.length + 2 := by
  rw [turns]
  split <;> omega

/-! ## Refilling the buffers -/

theorem TraceFile.read_append (file : TraceFile) (offset k size : ℕ) :
    file.read offset k size ++ file.bytes.drop (offset + (file.read offset k size).length) =
      file.bytes.drop offset := by
  rw [TraceFile.read, ← List.drop_drop]
  generalize file.bytes.drop offset = bytes
  generalize min size (file.chunk k + 1) = n
  rcases Nat.le_total n bytes.length with h | h
  · rw [List.length_take_of_le h, List.take_append_drop]
  · rw [List.take_of_length_le h, List.drop_length, List.append_nil]

/-- A read returns nothing only at the end of the file. -/
theorem TraceFile.read_eq_nil {file : TraceFile} {offset k : ℕ}
    (h : file.read offset k compBufBytes = []) : file.bytes.drop offset = [] := by
  rw [TraceFile.read, List.take_eq_nil_iff] at h
  refine h.resolve_left ?_
  have hpos : 0 < compBufBytes := by decide
  omega

/-- Only the compressed buffer changes when a chunk is pulled. -/
theorem pull_keeps (file : TraceFile) (rd : TraceReader σ) : (rd.pull file).decomp = rd.decomp ∧
    (rd.pull file).decompPos = rd.decompPos ∧ (rd.pull file).streamEnded = rd.streamEnded := by
  rw [TraceReader.pull]
  split
  · rw [refillCompressed]
    dsimp only
    split
    · exact ⟨rfl, rfl, rfl⟩
    · split <;> exact ⟨rfl, rfl, rfl⟩
  · exact ⟨rfl, rfl, rfl⟩

theorem Synced.pull (h : Synced file data At rd i o) : Synced file data At (rd.pull file) i o := by
  rw [TraceReader.pull]
  split
  · rename_i hdrained
    obtain ⟨hempty, heof⟩ := hdrained
    have hread : file.bytes.drop rd.fileOffset = file.bytes.drop i := by
      have hunread := h.unread
      rwa [List.drop_eq_nil_of_le hempty] at hunread
    have hkeep := TraceFile.read_append file rd.fileOffset rd.reads compBufBytes
    rw [refillCompressed, if_neg (by simp [heof])]
    dsimp only
    split
    · rename_i hnil
      have hend := TraceFile.read_eq_nil hnil
      exact ⟨by simpa [hnil] using hread, h.le, fun _ => hend, h.live, h.ended⟩
    · refine ⟨?_, h.le, ?_, h.live, h.ended⟩
      · rw [← hread, ← hkeep]
        rfl
      · intro ht
        exact absurd (heof.symm.trans ht) Bool.false_ne_true
  · exact h

/-- After the refill the compressed buffer is empty only at the end of the file. -/
theorem Synced.pull_empty (h : Synced file data At rd i o)
    (he : (rd.pull file).comp.length ≤ (rd.pull file).compPos) :
    (rd.pull file).fileEof = true ∧ i = file.bytes.length := by
  have heof : (rd.pull file).fileEof = true := by
    rw [TraceReader.pull] at he ⊢
    split at he
    · rename_i hdrained
      rw [if_pos hdrained]
      rw [refillCompressed, if_neg (by simp [hdrained.2])] at he ⊢
      dsimp only at he ⊢
      split at he
      · rename_i hnil
        rw [if_pos hnil]
      · rename_i hne
        exact absurd (List.eq_nil_of_length_eq_zero (Nat.le_zero.1 he)) hne
    · rename_i hdrained
      rw [if_neg hdrained]
      exact Bool.not_eq_false _ ▸ fun hf => hdrained ⟨he, hf⟩
  refine ⟨heof, ?_⟩
  have hsync := h.pull
  have hunread := hsync.unread
  rw [List.drop_eq_nil_of_le he, hsync.eof heof, List.append_nil] at hunread
  exact Nat.le_antisymm h.le (List.drop_eq_nil_iff.1 hunread.symm)

/-- One turn of the loop of `refill_decompressed`. -/
theorem Synced.decoded (hd : dec.Decodes file.bytes data avail At) (h : Synced file data At rd i o)
    (hlive : rd.streamEnded = false)
    (hempty : rd.comp.length ≤ rd.compPos → rd.fileEof = true ∧ i = file.bytes.length)
    {r : DecodeStep σ UInt8} {room : ℕ}
    (hr : r.Right At avail data i o (rd.comp.drop rd.compPos) room) :
    Synced file data At (rd.decoded r) (i + r.consumed) (o + r.produced.length) ∧
      ((rd.decoded r).streamEnded = false → r.Progress) := by
  have hlen : i + (rd.comp.drop rd.compPos).length ≤ file.bytes.length := by
    have hunread := congrArg List.length h.unread
    have hle := h.le
    rw [List.length_append, List.length_drop (l := file.bytes) (i := i)] at hunread
    omega
  have hprogress : (rd.decoded r).streamEnded = false → r.Progress := by
    intro hf
    by_contra hstill
    have hsrc : rd.comp.drop rd.compPos = [] := by
      by_contra hne
      exact hstill (hr.progress (.inl hne))
    have hdrained := List.drop_eq_nil_iff.1 hsrc
    rw [DecodeStep.Progress, not_or, Nat.not_lt, Nat.le_zero, not_not] at hstill
    simp [TraceReader.decoded, hstill.1, hstill.2, hdrained, (hempty hdrained).1] at hf
  refine ⟨⟨?_, ?_, h.eof, fun hf => ?_, fun ht => ?_⟩, hprogress⟩
  · have hle := hr.consumed_le
    show rd.comp.drop (rd.compPos + r.consumed) ++ file.bytes.drop rd.fileOffset = _
    rw [← List.drop_drop, ← List.drop_drop, ← h.unread, List.drop_append_of_le_length hle]
  · have hle := hr.consumed_le
    omega
  · refine hr.next (hr.status_eq ?_) (hprogress hf)
    intro hend
    simp [TraceReader.decoded, hend] at hf
  · have hcases : r.status = .streamEnd ∨ ¬ r.Progress ∧ rd.comp.length ≤ rd.compPos := by
      simp only [TraceReader.decoded, hlive, Bool.false_or, Bool.or_eq_true, beq_iff_eq,
        Bool.and_eq_true, List.isEmpty_iff, decide_eq_true_eq] at ht
      refine ht.imp id fun hguard => ?_
      obtain ⟨⟨⟨hc, hp⟩, hdrained⟩, -⟩ := hguard
      exact ⟨by simp [DecodeStep.Progress, hc, hp], by omega⟩
    rcases hcases with hend | ⟨hstill, hdrained⟩
    · exact Nat.le_of_eq (hr.ends hend).symm
    · have hdone := hr.stalled hstill
      rw [(hempty hdrained).2, hd.avail_all] at hdone
      exact Nat.le_trans hdone (Nat.le_add_right ..)

/-- The loop of `refill_decompressed` returns, and no byte is lost in it. -/
theorem Synced.refillLoop_spec (hd : dec.Decodes file.bytes data avail At)
    (h : Synced file data At rd i o) (hfuel : turns file data rd i o ≤ fuel) :
    ∃ more rd' i' o', refillLoop dec file fuel rd = .ok (more, rd') ∧
      Synced file data At rd' i' o' ∧ rd'.decompPos = rd.decompPos ∧
      rd'.decomp ++ data.drop o' = rd.decomp ++ data.drop o ∧
      (more = true → rd'.decomp ≠ []) ∧
      (more = false → rd.decomp ++ data.drop o = []) := by
  induction fuel generalizing rd i o with
  | zero =>
    rw [turns] at hfuel
    split at hfuel <;> omega
  | succ fuel ih =>
    rw [TraceReader.refillLoop]
    by_cases hdecomp : rd.decomp = []
    · rw [if_neg (not_not.2 hdecomp)]
      cases hlive : rd.streamEnded with
      | true =>
        refine ⟨false, rd, i, o, by simp, h, rfl, rfl, fun hf => ?_, fun _ => ?_⟩
        · exact absurd hf Bool.false_ne_true
        · rw [hdecomp, List.drop_eq_nil_of_le (h.ended hlive), List.nil_append]
      | false =>
        rw [if_neg (by simp)]
        obtain ⟨hdecomp₁, hpos₁, hlive₁⟩ := pull_keeps file rd
        have hsync := h.pull
        have hroom : 0 < decompBufBytes - (rd.pull file).decomp.length := by
          rw [hdecomp₁, hdecomp]
          decide
        have hright := hd.step (rd.pull file).decoder i o _ _ (hsync.live (hlive₁.trans hlive))
          (hsync.unread ▸ List.prefix_append _ _) hroom
        generalize hr : dec.decode (rd.pull file).decoder _ _ = r at hright
        obtain ⟨hsync', hprogress⟩ := hsync.decoded hd (hlive₁.trans hlive) h.pull_empty hright
        have hbound : turns file data ((rd.pull file).decoded r) (i + r.consumed)
            (o + r.produced.length) ≤ fuel := by
          rw [turns, if_pos ⟨hdecomp, hlive⟩] at hfuel
          rw [turns]
          split
          · rename_i hnext
            have hp := hprogress hnext.2
            have hnil : r.produced = [] := (List.append_eq_nil_iff.1 hnext.1).2
            have hc : 0 < r.consumed := hp.resolve_right (not_not.2 hnil)
            have hle := hsync'.le
            rw [hnil, List.length_nil]
            omega
          · omega
        obtain ⟨more, rd', i', o', hrun, hs', hpos', heq, hmore, hdone⟩ := ih hsync' hbound
        have hsame : ((rd.pull file).decoded r).decomp ++ data.drop (o + r.produced.length) =
            rd.decomp ++ data.drop o := by
          show (rd.pull file).decomp ++ r.produced ++ _ = _
          rw [List.append_assoc, hright.produced_append, hdecomp₁]
        refine ⟨more, rd', i', o', ?_, hs', hpos'.trans hpos₁, heq.trans hsame, hmore, fun hf => ?_⟩
        · simp only [hr, if_neg hright.not_error]
          exact hrun
        · rw [← hsame]
          exact hdone hf
    · rw [if_pos hdecomp]
      exact ⟨true, rd, i, o, rfl, h, rfl, rfl, fun _ => hdecomp, fun hf => absurd hf (by simp)⟩

/-- `refill_decompressed` finds the next bytes, or the end of the stream. -/
theorem Serves.refillDecompressed_spec (hd : dec.Decodes file.bytes data avail At) {rest : List UInt8}
    (h : Serves file data At rd rest) (hempty : rd.decomp.length ≤ rd.decompPos)
    (hfuel : file.bytes.length + data.length + 2 ≤ fuel) :
    ∃ more rd', refillDecompressed dec file fuel rd = .ok (more, rd') ∧
      Serves file data At rd' rest ∧ (more = true → rd'.decompPos < rd'.decomp.length) ∧
      (more = false → rest = []) := by
  obtain ⟨i, o, hs, rfl⟩ := h
  have hclear : Synced file data At { rd with decomp := [], decompPos := 0 } i o :=
    ⟨hs.unread, hs.le, hs.eof, hs.live, hs.ended⟩
  obtain ⟨more, rd', i', o', hrun, hs', hpos, heq, hmore, hdone⟩ :=
    hclear.refillLoop_spec hd (Nat.le_trans turns_le hfuel)
  rw [List.drop_eq_nil_of_le hempty, List.nil_append]
  refine ⟨more, rd', hrun, ⟨i', o', hs', ?_⟩, fun ht => ?_, hdone⟩
  · rw [hpos]
    exact heq.symm
  · rw [hpos]
    exact List.length_pos_iff.2 (hmore ht)

/-! ## Reads -/

/-- The loop of `read_bytes`, after some bytes were copied. -/
theorem Serves.readLoop_spec (hd : dec.Decodes file.bytes data avail At) {rest copied : List UInt8}
    {nbytes turns : ℕ} (h : Serves file data At rd rest)
    (hfuel : file.bytes.length + data.length + 2 ≤ fuel) (hcopied : copied.length ≤ nbytes)
    (hturns : nbytes - copied.length < turns) :
    ∃ rd', Serves file data At rd' (rest.drop (nbytes - copied.length)) ∧
      readLoop dec file nbytes fuel turns copied rd =
        .ok (if nbytes ≤ copied.length + rest.length then
          some (copied ++ rest.take (nbytes - copied.length)) else none, rd') := by
  induction turns generalizing rd rest copied with
  | zero => omega
  | succ turns ih =>
    rw [TraceReader.readLoop]
    split
    · rename_i hlt
      obtain ⟨more, rd₁, hrefill, h₁, hmore, hdone⟩ : ∃ more rd₁,
          (if rd.decomp.length ≤ rd.decompPos then refillDecompressed dec file fuel rd
            else .ok (true, rd)) = .ok (more, rd₁) ∧ Serves file data At rd₁ rest ∧
          (more = true → rd₁.decompPos < rd₁.decomp.length) ∧ (more = false → rest = []) := by
        split
        · rename_i hempty
          exact h.refillDecompressed_spec hd hempty hfuel
        · rename_i hleft
          exact ⟨true, rd, rfl, h, fun _ => Nat.not_le.1 hleft, fun hf => absurd hf (by simp)⟩
      rw [hrefill]
      cases more with
      | false =>
        obtain rfl := hdone rfl
        refine ⟨rd₁, by simpa using h₁, ?_⟩
        rw [if_neg (by simpa using hlt)]
      | true =>
        have hpos := hmore rfl
        obtain ⟨i, o, hs, hrest⟩ := h₁
        dsimp only
        generalize hn : (rd₁.decomp.drop rd₁.decompPos).take (nbytes - copied.length) = n
        have hlen : n.length = min (nbytes - copied.length) (rd₁.decomp.length - rd₁.decompPos) := by
          rw [← hn, List.length_take, List.length_drop]
        have htake : rest.take n.length = n := by
          rw [hrest, hlen, List.take_append_of_le_length (by rw [List.length_drop]; omega), ← hn,
            List.take_eq_take_iff, List.length_drop]
          omega
        have hnext : Serves file data At { rd₁ with decompPos := rd₁.decompPos + n.length }
            (rest.drop n.length) := by
          refine ⟨i, o, ⟨hs.unread, hs.le, hs.eof, hs.live, hs.ended⟩, ?_⟩
          rw [hrest, List.drop_append_of_le_length (by rw [List.length_drop]; omega),
            List.drop_drop]
        have hlast : (copied ++ n).length = copied.length + n.length := List.length_append
        obtain ⟨rd', h', hrun⟩ := @ih _ _ (copied ++ n) hnext (by omega) (by omega)
        have hleft : nbytes - (copied ++ n).length = nbytes - copied.length - n.length := by omega
        have hle : n.length ≤ rest.length := by
          rw [← htake]
          exact List.length_take_le' ..
        rw [hleft] at h' hrun
        have hsum : n.length + (nbytes - copied.length - n.length) = nbytes - copied.length := by
          omega
        refine ⟨rd', ?_, hrun.trans ?_⟩
        · rwa [List.drop_drop, hsum] at h'
        · have hiff : nbytes ≤ (copied ++ n).length + (rest.drop n.length).length ↔
              nbytes ≤ copied.length + rest.length := by
            rw [hlast, List.length_drop]
            omega
          have hbytes : copied ++ n ++ (rest.drop n.length).take
              (nbytes - copied.length - n.length) = copied ++ rest.take (nbytes - copied.length) := by
            rw [List.append_assoc, ← hsum, List.take_add, htake, Nat.add_sub_cancel_left]
          simp only [hiff, hbytes]
    · rename_i hge
      have heq : copied.length = nbytes := Nat.le_antisymm hcopied (Nat.not_lt.1 hge)
      exact ⟨rd, by simpa [heq] using h, by simp [heq]⟩

/-- One call of `read`. -/
theorem Serves.readBytes_spec (hd : dec.Decodes file.bytes data avail At) {rest : List UInt8}
    {nbytes : ℕ} (h : Serves file data At rd rest)
    (hfuel : file.bytes.length + data.length + 2 ≤ fuel) (hn : nbytes < fuel) :
    ∃ rd', Serves file data At rd' (if nbytes ≤ rest.length then rest.drop nbytes else []) ∧
      rd.readBytes dec file fuel nbytes =
        .ok (if nbytes ≤ rest.length then some (rest.take nbytes) else none, rd') := by
  obtain ⟨rd', h', hrun⟩ := @Serves.readLoop_spec σ dec file data avail At rd fuel hd rest []
    nbytes fuel h hfuel (Nat.zero_le nbytes) hn
  rw [List.length_nil, Nat.sub_zero] at h' hrun
  rw [Nat.zero_add] at hrun
  refine ⟨rd', ?_, hrun⟩
  split
  · exact h'
  · rename_i hlt
    rwa [List.drop_eq_nil_of_le (Nat.le_of_not_le hlt)] at h'

theorem serves_start (hd : dec.Decodes file.bytes data avail At) :
    Serves file data At (start dec) data :=
  ⟨0, 0, ⟨rfl, Nat.zero_le _, fun hf => absurd hf (by simp [start]), fun _ => hd.init,
    fun hf => absurd hf (by simp [start])⟩, rfl⟩

theorem serves_rewindState (hd : dec.Decodes file.bytes data avail At) (rd : TraceReader σ) :
    Serves file data At (rd.rewindState dec) data :=
  ⟨0, 0, ⟨rfl, Nat.zero_le _, fun hf => absurd hf (by simp [rewindState]),
    fun _ => hd.reset rd.decoder, fun hf => absurd hf (by simp [rewindState])⟩, rfl⟩

/-- The reader serves the decoded stream, whatever the calls. -/
theorem Serves.run_spec (hd : dec.Decodes file.bytes data avail At)
    (hfuel : file.bytes.length + data.length + 2 ≤ fuel) {calls : List ReaderCall}
    (hcalls : ∀ n, .read n ∈ calls → n < fuel) {rest : List UInt8}
    (h : Serves file data At rd rest) :
    run dec file fuel calls rd = .ok (serve data calls rest) := by
  induction calls generalizing rd rest with
  | nil => rfl
  | cons call calls ih =>
    have hcalls' : ∀ n, .read n ∈ calls → n < fuel := fun n hn => hcalls n (.tail _ hn)
    cases call with
    | rewind => exact ih hcalls' (serves_rewindState hd rd)
    | read nbytes =>
      obtain ⟨rd', h', hrun⟩ := h.readBytes_spec hd hfuel (hcalls nbytes (List.mem_cons_self ..))
      rw [TraceReader.run, hrun]
      simp only [ih hcalls' h', serve]
      split <;> rfl

end

/-! ## Sequences of reads -/

/-- The results of successive reads from the start of a stream: the next bytes each time, as long as
they last. -/
def nextBytes (data : List UInt8) (ns : List ℕ) : List (Option (List UInt8)) :=
  ns.mapIdx fun k n =>
    if (ns.take (k + 1)).sum ≤ data.length then some ((data.drop (ns.take k).sum).take n) else none

section
variable {data rest : List UInt8} {ns : List ℕ} {calls : List ReaderCall}

theorem serve_append_rewind (pre : List ReaderCall) :
    serve data (pre ++ .rewind :: calls) rest = serve data pre rest ++ serve data calls data := by
  induction pre generalizing rest with
  | nil => rfl
  | cons call pre ih =>
    cases call with
    | rewind => exact ih
    | read n =>
      rw [List.cons_append, serve, serve]
      split <;> rw [ih, List.cons_append]

theorem serve_nil_reads (hns : ∀ n ∈ ns, 1 ≤ n) :
    serve data (ns.map .read) [] = ns.map fun _ => none := by
  induction ns with
  | nil => rfl
  | cons n ns ih =>
    have hn := hns n (List.mem_cons_self ..)
    rw [List.map_cons, serve, if_neg (by simp; omega),
      ih fun m hm => hns m (List.mem_cons_of_mem _ hm), List.map_cons]

theorem serve_reads (hns : ∀ n ∈ ns, 1 ≤ n) :
    serve data (ns.map .read) rest = nextBytes rest ns := by
  induction ns generalizing rest with
  | nil => rfl
  | cons n ns ih =>
    have hns' := fun m hm => hns m (List.mem_cons_of_mem _ hm)
    rw [List.map_cons, serve, nextBytes, List.mapIdx_cons]
    simp only [List.take_succ_cons, List.sum_cons, List.take_zero, List.sum_nil, Nat.add_zero,
      List.drop_zero]
    split
    · rename_i hle
      rw [ih hns', nextBytes]
      congr 1
      refine List.mapIdx_eq_mapIdx_iff.2 fun k hk => ?_
      have hiff : n + (ns.take (k + 1)).sum ≤ rest.length ↔
          (ns.take (k + 1)).sum ≤ (rest.drop n).length := by
        rw [List.length_drop]
        omega
      simp only [hiff, List.drop_drop]
    · rename_i hgt
      rw [serve_nil_reads hns']
      congr 1
      refine List.ext_getElem (by simp) fun k hk hk' => ?_
      rw [List.getElem_map, List.getElem_mapIdx]
      exact (if_neg (by omega)).symm

end

/-- `TraceReader` is transparent to buffering: whatever the decoder holds back, however short the
reads of the file are, successive reads return exactly the next bytes of the decoded stream, until
the first read for which too few are left; that read and all later ones return false. All loops
return. After `rewind` the same holds from byte 0, whatever was read before. -/
theorem reads_next_bytes {σ : Type} {dec : StreamDecoder σ UInt8 UInt8} {file : TraceFile}
    {data : List UInt8} {avail : ℕ → ℕ} {At : σ → ℕ → ℕ → Prop}
    (hd : dec.Decodes file.bytes data avail At) {fuel : ℕ}
    (hfuel : file.bytes.length + data.length + 2 ≤ fuel) {ns : List ℕ}
    (hns : ∀ n ∈ ns, 1 ≤ n ∧ n < fuel) :
    run dec file fuel (ns.map .read) (start dec) = .ok (nextBytes data ns) ∧
    ∀ pre : List ReaderCall, (∀ n, .read n ∈ pre → n < fuel) → ∃ old,
      run dec file fuel pre (start dec) = .ok old ∧
      run dec file fuel (pre ++ .rewind :: ns.map .read) (start dec) =
        .ok (old ++ nextBytes data ns) := by
  have hpos : ∀ n ∈ ns, 1 ≤ n := fun n hn => (hns n hn).1
  have hreads : ∀ n, .read n ∈ ns.map ReaderCall.read → n < fuel := by
    intro n hn
    obtain ⟨m, hm, he⟩ := List.mem_map.1 hn
    cases he
    exact (hns n hm).2
  have hstart : Serves file data At (start dec) data := serves_start hd
  refine ⟨?_, fun pre hpre => ⟨_, hstart.run_spec hd hfuel hpre, ?_⟩⟩
  · rw [hstart.run_spec hd hfuel hreads, serve_reads hpos]
  · have hall : ∀ n, .read n ∈ pre ++ .rewind :: ns.map ReaderCall.read → n < fuel := by
      intro n hn
      rcases List.mem_append.1 hn with hn | hn
      · exact hpre n hn
      · exact hreads n ((List.mem_cons.1 hn).resolve_left ReaderCall.noConfusion)
    rw [hstart.run_spec hd hfuel hall, serve_append_rewind, serve_reads hpos]

/-- Three stored bytes, read one at a time from the file, are served two by two. -/
theorem reads_next_bytes_stored :
    run (.stored UInt8) ⟨[1, 2, 3], fun _ => 0⟩ 20 [.read 2, .read 2] (start (.stored UInt8)) =
      .ok [some [1, 2], none] :=
  (@reads_next_bytes _ _ ⟨[1, 2, 3], fun _ => 0⟩ _ _ _ (StreamDecoder.stored_decodes [1, 2, 3]) 20
    (by decide) [2, 2] (by decide)).1

end TraceReader

end Arishem
