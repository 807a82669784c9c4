import Mathlib.Algebra.Order.BigOperators.Group.List
import Mathlib.Algebra.Order.Group.Nat
import Mathlib.Data.List.Infix
import Arishem.Reader.Codecs

/-!
# Files of several members

A compressed file may be several members one after the other, as `cat` or a parallel compressor
writes them. Of an `.xz` file the reader serves all streams. Of a `.gz` file it serves the first
member only: `Z_STREAM_END` at its end is taken for the end of the trace, and the members behind it
are never decoded.
-/

namespace Arishem

namespace TraceReader

section
variable {ζ ξ θ : Type}

/-- The reader of the file at a path, with the calls made on it. -/
def readTrace (zlib : Codec ζ ZRet) (lzma : Codec ξ LzmaRet) (zstd : Codec θ ZstdRet)
    (path : List Char) (file : TraceFile) (fuel : ℕ) (calls : List ReaderCall) :
    Except FormatError (Except ReadFailure (List (Option (List UInt8)))) :=
  match makeDecoder path with
  | .error e => .error e
  | .ok .gzip => .ok (run (gzipDecoder zlib) file fuel calls (start (gzipDecoder zlib)))
  | .ok .xz => .ok (run (xzDecoder lzma) file fuel calls (start (xzDecoder lzma)))
  | .ok .zstd => .ok (run (zstdDecoder zstd) file fuel calls (start (zstdDecoder zstd)))

/-- Whatever the sizes of the reads, they deliver `data` and then return false. -/
def Delivers (zlib : Codec ζ ZRet) (lzma : Codec ξ LzmaRet) (zstd : Codec θ ZstdRet)
    (path : List Char) (file : TraceFile) (data : List UInt8) : Prop :=
  ∀ ns : List ℕ, (∀ n ∈ ns, 1 ≤ n) → ∃ bound, ∀ fuel, bound ≤ fuel →
    readTrace zlib lzma zstd path file fuel (ns.map .read) = .ok (.ok (nextBytes data ns))

end

section
variable {ζ ξ θ : Type} {zlib : Codec ζ ZRet} {lzma : Codec ξ LzmaRet} {zstd : Codec θ ZstdRet}
variable {path : List Char} {file : TraceFile} {data data' : List UInt8}

/-- The fuel that a sequence of reads needs. -/
theorem run_delivers {σ : Type} {dec : StreamDecoder σ UInt8 UInt8} {avail : ℕ → ℕ}
    {At : σ → ℕ → ℕ → Prop} (hd : dec.Decodes file.bytes data avail At) {ns : List ℕ}
    (hns : ∀ n ∈ ns, 1 ≤ n) : ∃ bound, ∀ fuel, bound ≤ fuel →
      run dec file fuel (ns.map .read) (start dec) = .ok (nextBytes data ns) := by
  refine ⟨file.bytes.length + data.length + 2 + (ns.sum + 1), fun fuel hfuel => ?_⟩
  refine (reads_next_bytes hd (Nat.le_trans (Nat.le_add_right ..) hfuel) fun n hn => ⟨hns n hn, ?_⟩).1
  have hle : n ≤ ns.sum := List.single_le_sum (fun _ _ => Nat.zero_le _) n hn
  omega

/-- A reader delivers one stream of bytes only. -/
theorem Delivers.unique (h : Delivers zlib lzma zstd path file data)
    (h' : Delivers zlib lzma zstd path file data') (hle : data.length ≤ data'.length) :
    data = data' := by
  rcases Nat.eq_zero_or_pos data'.length with h0 | hpos
  · have h0' : data.length = 0 := Nat.le_zero.1 (h0 ▸ hle)
    rw [List.length_eq_zero_iff.1 h0, List.length_eq_zero_iff.1 h0']
  · have hns : ∀ n ∈ [data'.length], 1 ≤ n := fun n hn => List.mem_singleton.1 hn ▸ hpos
    obtain ⟨b, hb⟩ := h _ hns
    obtain ⟨b', hb'⟩ := h' _ hns
    have heq := (hb _ (Nat.le_max_left b b')).symm.trans (hb' _ (Nat.le_max_right b b'))
    simp only [Except.ok.injEq, nextBytes] at heq
    have hone : ∀ d : List UInt8, [data'.length].mapIdx (fun k n =>
        if ([data'.length].take (k + 1)).sum ≤ d.length then
          some ((d.drop ([data'.length].take k).sum).take n) else none) =
        [if data'.length ≤ d.length then some (d.take data'.length) else none] := fun _ => rfl
    rw [hone, hone, if_pos le_rfl] at heq
    split at heq
    · rename_i hge
      have hsame : data.take data'.length = data'.take data'.length := by simpa using heq
      rwa [List.take_of_length_le hle, List.take_length] at hsame
    · cases heq

/-- Of a `.gz` file the first member is delivered. -/
theorem delivers_gzip {m : Member} {rest : List Member} {avail : ℕ → ℕ} {At : ζ → ℕ → ℕ → Prop}
    (hpath : makeDecoder path = .ok .gzip) (h : Inflates zlib m avail At)
    (hfile : file.bytes = (m :: rest).flatMap (·.compressed)) :
    Delivers zlib lzma zstd path file m.content := by
  intro ns hns
  have hd := h.decodes (rest.flatMap (·.compressed))
  rw [← List.flatMap_cons, ← hfile] at hd
  simp only [readTrace, hpath]
  obtain ⟨bound, hrun⟩ := run_delivers hd hns
  exact ⟨bound, fun fuel hf => congrArg Except.ok (hrun fuel hf)⟩

/-- Of an `.xz` file all streams are delivered. -/
theorem delivers_xz {members : List Member} {avail : ℕ → ℕ} {At : ξ → ℕ → ℕ → Prop}
    (hpath : makeDecoder path = .ok .xz) (h : LzmaConcatenated lzma members avail At)
    (hfile : file.bytes = members.flatMap (·.compressed)) :
    Delivers zlib lzma zstd path file (members.flatMap (·.content)) := by
  intro ns hns
  have hd := h.decodes
  rw [← hfile] at hd
  simp only [readTrace, hpath]
  obtain ⟨bound, hrun⟩ := run_delivers hd hns
  exact ⟨bound, fun fuel hf => congrArg Except.ok (hrun fuel hf)⟩

/-- A file of several members is read in full exactly when it is an `.xz` file, or a `.gz` file whose
members behind the first are empty. -/
theorem members_delivered_iff {m : Member} {rest : List Member} {avail avail' : ℕ → ℕ}
    {At : ζ → ℕ → ℕ → Prop} {At' : ξ → ℕ → ℕ → Prop}
    (hpath : makeDecoder path = .ok .gzip ∨ makeDecoder path = .ok .xz)
    (hgzip : makeDecoder path = .ok .gzip → Inflates zlib m avail At)
    (hxz : makeDecoder path = .ok .xz → LzmaConcatenated lzma (m :: rest) avail' At')
    (hfile : file.bytes = (m :: rest).flatMap (·.compressed)) :
    Delivers zlib lzma zstd path file ((m :: rest).flatMap (·.content)) ↔
      makeDecoder path = .ok .xz ∨ rest.flatMap (·.content) = [] := by
  rcases hpath with hpath | hpath
  · have hfirst : Delivers zlib lzma zstd path file m.content :=
      delivers_gzip hpath (hgzip hpath) hfile
    rw [List.flatMap_cons]
    constructor
    · intro hall
      have heq := hfirst.unique hall (by rw [List.length_append]; exact Nat.le_add_right ..)
      exact .inr (List.self_eq_append_right.1 heq)
    · rintro (hx | hempty)
      · rw [hpath] at hx
        cases hx
      · rwa [hempty, List.append_nil]
  · exact ⟨fun _ => .inl hpath, fun _ => delivers_xz hpath (hxz hpath) hfile⟩

end

/-! ## Two members -/

/-- A library for one member: it produces the content once the whole member was used, and its return
code tells whether it is finished, went on or was stalled. -/
def codecOfMember {ρ : Type} (m : Member) (ended going stalled : ρ) : Codec (ℕ × ℕ) ρ where
  init := (0, 0)
  code := fun (i, o) src room =>
    let consumed := min src.length (m.compressed.length - i)
    let produced := if m.compressed.length ≤ i + consumed then (m.content.drop o).take room else []
    let rc := if m.compressed.length ≤ i + consumed ∧ o + produced.length = m.content.length then
        ended
      else if consumed = 0 ∧ produced = [] then stalled else going
    ⟨rc, consumed, produced, (i + consumed, o + produced.length)⟩
  reset := fun _ => (0, 0)

/-- An `inflate` for one member. -/
def memberCodec (m : Member) : Codec (ℕ × ℕ) ZRet := codecOfMember m .streamEnd .ok .bufError

/-- The library of a format that is not used. -/
def idleCodec {ρ : Type} (rc : ρ) : Codec Unit ρ where
  init := ()
  code := fun _ src _ => ⟨rc, src.length, [], ()⟩
  reset := id

/-- The state of `memberCodec` before the end of the member. -/
def MemberAt (m : Member) (s : ℕ × ℕ) (i o : ℕ) : Prop :=
  s = (i, o) ∧ (i < m.compressed.length ∧ o = 0 ∨ i = m.compressed.length ∧ o < m.content.length)

theorem codecOfMember_code {ρ : Type} (m : Member) (ended going stalled : ρ) {i o : ℕ}
    (ho : i < m.compressed.length → o = 0) (hi : i ≤ m.compressed.length) (src : List UInt8)
    (room : ℕ) : ∃ c p, (codecOfMember m ended going stalled).code (i, o) src room =
      ⟨if m.compressed.length ≤ i + c ∧ o + p.length = m.content.length then ended
        else if c = 0 ∧ p = [] then stalled else going, c, p, (i + c, o + p.length)⟩ ∧
      c = min src.length (m.compressed.length - i) ∧ p <+: m.content.drop o ∧
      (i + c = m.compressed.length ∧ p.length = min room (m.content.length - o) ∨
        i + c < m.compressed.length ∧ o = 0 ∧ p.length = 0) := by
  refine ⟨_, _, rfl, rfl, ?_, ?_⟩
  · split
    · exact List.take_prefix ..
    · exact List.nil_prefix
  · split
    · rename_i hall
      exact .inl ⟨by omega, by rw [List.length_take, List.length_drop]⟩
    · exact .inr ⟨by omega, by omega, rfl⟩

theorem memberCodec_inflates {m : Member} (hm : 0 < m.compressed.length) :
    Inflates (memberCodec m) m
      (fun i => if m.compressed.length ≤ i then m.content.length else 0) (MemberAt m) where
  init := ⟨rfl, .inl ⟨hm, rfl⟩⟩
  reset _ := ⟨rfl, .inl ⟨hm, rfl⟩⟩
  le _ _ _ h := h.2.elim (fun h => Nat.le_of_lt h.1) (fun h => Nat.le_of_eq h.1)
  avail_all := if_pos (Nat.le_refl _)
  step rest s i o src room h hsrc hroom := by
    obtain ⟨rfl, hopen⟩ := h
    obtain ⟨c, p, hcode, hc, hprefix, hout⟩ :=
      codecOfMember_code (i := i) (o := o) m ZRet.streamEnd .ok .bufError (by omega) (by omega) src
        room
    have hend : (if m.compressed.length ≤ i + c ∧ o + p.length = m.content.length then
        ZRet.streamEnd else if c = 0 ∧ p = [] then .bufError else .ok) = .streamEnd ↔
        i + c = m.compressed.length ∧ o + p.length = m.content.length := by
      split
      · exact ⟨fun _ => by omega, fun _ => rfl⟩
      · refine ⟨fun he => ?_, fun he => by omega⟩
        split at he <;> cases he
    rw [memberCodec, hcode]
    refine ⟨by dsimp only; omega, by dsimp only; omega, by dsimp only; omega, hprefix, ?_,
      fun hmore => ?_, ?_, hend, fun hne _ => ⟨rfl, ?_⟩⟩
    · dsimp only
      split <;> omega
    · have hpos : 0 < c ∨ 0 < p.length := by
        rcases hmore with hsrc | havail
        · have hlen := List.length_pos_iff.2 hsrc
          omega
        · split at havail <;> omega
      exact hpos.imp id List.length_pos_iff.1
    · dsimp only
      split
      · exact ZRet.noConfusion
      · split <;> exact ZRet.noConfusion
    · have hopen' : ¬ (i + c = m.compressed.length ∧ o + p.length = m.content.length) :=
        fun h => hne (hend.2 h)
      dsimp only
      omega

/-- How much of the content is decoded once the streams were used up to `i`. -/
def decodedTo : List Member → ℕ → ℕ
  | [], _ => 0
  | m :: rest, i =>
    if m.compressed.length ≤ i then m.content.length + decodedTo rest (i - m.compressed.length) else 0

/-- An `lzma_code` with `LZMA_CONCATENATED` for the streams of a file. It runs into the next stream at
the end of one, and without `LZMA_FINISH` it never returns `LZMA_STREAM_END`. The first of several
calls that can do nothing returns `LZMA_OK`, the next ones `LZMA_BUF_ERROR`. -/
def streamsCodec (streams : List Member) : Codec (ℕ × ℕ × Bool) LzmaRet where
  init := (0, 0, false)
  code := fun (i, o, idle) src room =>
    let consumed := min src.length ((streams.flatMap (·.compressed)).length - i)
    let decoded := (streams.flatMap (·.content)).take (decodedTo streams (i + consumed))
    let produced := (decoded.drop o).take room
    let stalled := consumed == 0 && produced.isEmpty
    ⟨if idle && stalled then .error else .ok, consumed, produced,
      (i + consumed, o + produced.length, stalled)⟩
  reset := fun _ => (0, 0, false)

/-- The state of `streamsCodec` after a call that went on. -/
def StreamsAt (streams : List Member) (s : ℕ × ℕ × Bool) (i o : ℕ) : Prop :=
  s = (i, o, false) ∧ o ≤ decodedTo streams i

theorem decodedTo_le (streams : List Member) (i : ℕ) :
    decodedTo streams i ≤ (streams.flatMap (·.content)).length := by
  induction streams generalizing i with
  | nil => exact Nat.le_refl _
  | cons m rest ih =>
    rw [decodedTo, List.flatMap_cons, List.length_append]
    split
    · exact Nat.add_le_add_left (ih _) _
    · exact Nat.zero_le _

theorem decodedTo_mono (streams : List Member) {i j : ℕ} (hij : i ≤ j) :
    decodedTo streams i ≤ decodedTo streams j := by
  induction streams generalizing i j with
  | nil => exact Nat.le_refl _
  | cons m rest ih =>
    rw [decodedTo, decodedTo]
    split
    · rename_i hi
      rw [if_pos (hi.trans hij)]
      exact Nat.add_le_add_left (ih (Nat.sub_le_sub_right hij _)) _
    · exact Nat.zero_le _

theorem decodedTo_all (streams : List Member) :
    decodedTo streams (streams.flatMap (·.compressed)).length =
      (streams.flatMap (·.content)).length := by
  induction streams with
  | nil => rfl
  | cons m rest ih =>
    rw [decodedTo, List.flatMap_cons, List.flatMap_cons, List.length_append, List.length_append,
      if_pos (Nat.le_add_right ..), Nat.add_sub_cancel_left, ih]

theorem streamsCodec_concatenated (streams : List Member) :
    LzmaConcatenated (streamsCodec streams) streams (decodedTo streams) (StreamsAt streams) where
  init := ⟨rfl, Nat.zero_le _⟩
  reset _ := ⟨rfl, Nat.zero_le _⟩
  avail_all := decodedTo_all streams
  step s i o src room h hsrc hroom := by
    obtain ⟨rfl, ho⟩ := h
    have hin : src.length ≤ (streams.flatMap (·.compressed)).length - i := by
      have hle := hsrc.length_le
      rwa [List.length_drop] at hle
    simp only [streamsCodec, CodecCall.toStep, Nat.min_eq_left hin, Bool.false_and,
      Bool.false_eq_true, if_false, LzmaRet.status]
    have hmono : decodedTo streams i ≤ decodedTo streams (i + src.length) :=
      decodedTo_mono streams (Nat.le_add_right ..)
    have hall := decodedTo_le streams (i + src.length)
    generalize hp : (((streams.flatMap (·.content)).take
      (decodedTo streams (i + src.length))).drop o).take room = produced
    have hlen : produced.length = min room (decodedTo streams (i + src.length) - o) := by
      rw [← hp, List.length_take, List.length_drop, List.length_take, Nat.min_eq_left hall]
    refine ⟨Nat.le_refl _, ?_, ?_, ?_, fun hmore => ?_, DecodeStatus.noConfusion,
      DecodeStatus.noConfusion, fun _ hprogress => ⟨?_, ?_⟩⟩
    · dsimp only
      omega
    · rw [← hp]
      exact (List.take_prefix ..).trans (List.IsPrefix.drop (List.take_prefix ..) o)
    · dsimp only
      omega
    · rcases Nat.eq_zero_or_pos src.length with hzero | hpos
      · have hout : o < decodedTo streams i :=
          hmore.resolve_left (not_not.2 (List.length_eq_zero_iff.1 hzero))
        exact .inr (List.length_pos_iff.1 (by dsimp only; omega))
      · exact .inl hpos
    · have hgoes : (src.length == 0 && produced.isEmpty) = false := by
        rw [Bool.and_eq_false_iff, beq_eq_false_iff_ne, List.isEmpty_eq_false_iff]
        exact hprogress.imp Nat.ne_of_gt id
      rw [hgoes]
    · dsimp only
      omega

/-- What `gzip` makes of one letter. -/
def gzipLetter (letter bits : UInt8) (crc : List UInt8) : Member where
  compressed := [31, 139, 8, 0, 0, 0, 0, 0, 2, 3, 115, bits, 0] ++ crc ++ [1, 0, 0, 0]
  content := [letter]

/-- The letter `A`. -/
def memberA : Member := gzipLetter 65 4 [139, 158, 217, 211]

/-- The letter `B`. -/
def memberB : Member := gzipLetter 66 2 [49, 207, 208, 74]

/-- What `gzip` makes of nothing. -/
def memberEmpty : Member where
  compressed := [31, 139, 8, 0, 0, 0, 0, 0, 2, 3, 3, 0, 0, 0, 0, 0, 0, 0, 0, 0]
  content := []

/-- What `xz` makes of one letter. -/
def xzLetter (letter : UInt8) (check : List UInt8) : Member where
  compressed := [253, 55, 122, 88, 90, 0, 0, 4, 230, 214, 180, 70, 2, 0, 33, 1, 22, 0, 0, 0, 116, 47,
    229, 163, 1, 0, 0, letter, 0, 0, 0, 0] ++ check ++ [0, 1, 25, 1, 165, 44, 129, 204, 31, 182, 243,
    125, 1, 0, 0, 0, 0, 4, 89, 90]
  content := [letter]

/-- The letters `A` and `B`, a stream each. -/
def xzStreams : List Member :=
  [xzLetter 65 [151, 231, 3, 140, 7, 198, 53, 200], xzLetter 66 [163, 24, 228, 39, 238, 188, 159, 143]]

/-- A file that one `read` returns. -/
def fileOf (members : List Member) : TraceFile := ⟨members.flatMap (·.compressed), fun _ => 4095⟩

/-- A `.gz` file with an empty second member, and an `.xz` file of two streams. -/
theorem members_delivered_iff_two :
    Delivers (memberCodec memberA) (idleCodec LzmaRet.ok) (idleCodec (ZstdRet.hint 1))
        "trace.gz".toList (fileOf [memberA, memberEmpty]) [65] ∧
      Delivers (idleCodec ZRet.ok) (streamsCodec xzStreams) (idleCodec (ZstdRet.hint 1))
        "trace.xz".toList (fileOf xzStreams) [65, 66] := by
  have hgzip : makeDecoder "trace.gz".toList = .ok .gzip := by decide
  have hxz : makeDecoder "trace.xz".toList = .ok .xz := by decide
  constructor
  · have hiff := @members_delivered_iff _ _ _ (memberCodec memberA) (idleCodec LzmaRet.ok)
      (idleCodec (ZstdRet.hint 1)) "trace.gz".toList (fileOf [memberA, memberEmpty]) memberA
      [memberEmpty] _ (fun _ => 0) _ (fun _ _ _ => True) (.inl hgzip)
      (fun _ => memberCodec_inflates (by decide))
      (fun h => absurd (hgzip.symm.trans h) (by decide)) rfl
    exact hiff.2 (.inr rfl)
  · have hiff := @members_delivered_iff _ _ _ (idleCodec ZRet.ok) (streamsCodec xzStreams)
      (idleCodec (ZstdRet.hint 1)) "trace.xz".toList (fileOf xzStreams) _ _ (fun _ => 0) _
      (fun _ _ _ => True) _ (.inr hxz) (fun h => absurd (hxz.symm.trans h) (by decide))
      (fun _ => streamsCodec_concatenated xzStreams) rfl
    exact hiff.2 (.inl hxz)

/-- Of `cat a.gz b.gz` only the first letter is delivered. -/
theorem second_member_lost :
    ¬ Delivers (memberCodec memberA) (idleCodec LzmaRet.ok) (idleCodec (ZstdRet.hint 1))
      "trace.gz".toList (fileOf [memberA, memberB]) [65, 66] := by
  intro hall
  have hfirst : Delivers (memberCodec memberA) (idleCodec LzmaRet.ok) (idleCodec (ZstdRet.hint 1))
      "trace.gz".toList (fileOf [memberA, memberB]) [65] :=
    delivers_gzip (m := memberA) (by decide) (memberCodec_inflates (by decide))
      (show _ = [memberA, memberB].flatMap (·.compressed) from rfl)
  have heq := hfirst.unique hall (by decide)
  cases heq

end TraceReader

end Arishem
