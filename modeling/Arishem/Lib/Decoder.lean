import Mathlib.Algebra.GroupWithZero.Nat
import Mathlib.Data.List.Basic

/-!
# Streaming decoders

A streaming decoder is called with some input and room for some output. Each call may use a part of
the input, may produce a part of the output, and may hold decoded output back for later calls. The
contract relates its states to positions: `At s i o` says that in the state `s` the first `i` items
of the input were used and the first `o` items of the output were produced, and `avail i` is how far
the output is determined once `i` items of the input were used.
-/

/-- What a decoder reports after one call. -/
inductive DecodeStatus
  | ok
  | streamEnd
  | error
  deriving DecidableEq

/-- One call: the status, how much of the input was used, the output and the next state. -/
structure DecodeStep (σ β : Type*) where
  status : DecodeStatus
  consumed : ℕ
  produced : List β
  next : σ

/-- A decoder with states `σ`, from items of `α` to items of `β`. A call gets the unread input and
the room for output. -/
structure StreamDecoder (σ α β : Type*) where
  init : σ
  decode : σ → List α → ℕ → DecodeStep σ β
  reset : σ → σ

section
variable {σ α β : Type*}

/-- The call uses some input or produces some output. -/
def DecodeStep.Progress (r : DecodeStep σ β) : Prop := 0 < r.consumed ∨ r.produced ≠ []

/-- A call at position `i` of the input and `o` of the output `data` is right. The next state is
promised to go on only where the call made progress and did not end the stream. -/
structure DecodeStep.Right (At : σ → ℕ → ℕ → Prop) (avail : ℕ → ℕ) (data : List β) (i o : ℕ)
    (src : List α) (room : ℕ) (r : DecodeStep σ β) : Prop where
  consumed_le : r.consumed ≤ src.length
  produced_le : r.produced.length ≤ room
  produced_prefix : r.produced <+: data.drop o
  avail_le : o + r.produced.length ≤ avail (i + r.consumed)
  progress : src ≠ [] ∨ o < avail i → r.Progress
  not_error : r.status ≠ .error
  ends : r.status = .streamEnd → o + r.produced.length = data.length
  next : r.status = .ok → r.Progress → At r.next (i + r.consumed) (o + r.produced.length)

/-- The decoder decodes the stream `file` to `data`. -/
structure StreamDecoder.Decodes (dec : StreamDecoder σ α β) (file : List α) (data : List β)
    (avail : ℕ → ℕ) (At : σ → ℕ → ℕ → Prop) : Prop where
  init : At dec.init 0 0
  reset : ∀ s, At (dec.reset s) 0 0
  avail_all : avail file.length = data.length
  step : ∀ s i o src room, At s i o → src <+: file.drop i → 0 < room →
    (dec.decode s src room).Right At avail data i o src room

namespace DecodeStep.Right

variable {At : σ → ℕ → ℕ → Prop} {avail : ℕ → ℕ} {data : List β} {i o room : ℕ} {src : List α}
variable {r : DecodeStep σ β}

theorem status_eq (h : r.Right At avail data i o src room) (hs : r.status ≠ .streamEnd) :
    r.status = .ok := by
  cases hr : r.status with
  | ok => rfl
  | streamEnd => exact absurd hr hs
  | error => exact absurd hr h.not_error

/-- The output of a call followed by what is left. -/
theorem produced_append (h : r.Right At avail data i o src room) :
    r.produced ++ data.drop (o + r.produced.length) = data.drop o := by
  obtain ⟨t, ht⟩ := h.produced_prefix
  rw [← List.drop_drop, ← ht, List.drop_left]

theorem produced_length_le (h : r.Right At avail data i o src room) :
    r.produced.length ≤ data.length - o := by
  have hle := h.produced_prefix.length_le
  rwa [List.length_drop] at hle

/-- A call without input that makes no progress has nothing left to produce. -/
theorem stalled (h : r.Right At avail data i o src room) (hr : ¬ r.Progress) : avail i ≤ o :=
  Nat.not_lt.1 fun hlt => hr (h.progress (.inr hlt))

end DecodeStep.Right

/-! ## A decoder that holds output back -/

/-- The decoder of stored data: it takes all its input at once and keeps what does not fit the room
for output. -/
def StreamDecoder.stored (α : Type*) : StreamDecoder (List α) α α where
  init := []
  decode := fun held src room => ⟨.ok, src.length, (held ++ src).take room, (held ++ src).drop room⟩
  reset := fun _ => []

/-- The decoder holds the items between its two positions. -/
def Holds (file held : List α) (i o : ℕ) : Prop :=
  o ≤ i ∧ i ≤ file.length ∧ held = (file.drop o).take (i - o)

theorem StreamDecoder.stored_decodes (file : List α) :
    (stored α).Decodes file file id fun held i o => Holds file held i o where
  init := ⟨Nat.le_refl _, Nat.zero_le _, by simp [stored]⟩
  reset _ := ⟨Nat.le_refl _, Nat.zero_le _, by simp [stored]⟩
  avail_all := rfl
  step held i o src room h hsrc hroom := by
    obtain ⟨hoi, hi, rfl⟩ := h
    have hlen : i + src.length ≤ file.length := by
      have hle := hsrc.length_le
      rw [List.length_drop] at hle
      omega
    have hall : (file.drop o).take (i - o) ++ src = (file.drop o).take (i + src.length - o) := by
      have hdrop : (file.drop o).drop (i - o) = file.drop i := by
        rw [List.drop_drop]
        congr 1
        omega
      have hsum : i + src.length - o = (i - o) + src.length := by omega
      rw [hsum, List.take_add, hdrop, ← List.prefix_iff_eq_take.1 hsrc]
    have hout : ((file.drop o).take (i + src.length - o)).length = i + src.length - o := by
      rw [List.length_take, List.length_drop]
      omega
    have hplen : (((file.drop o).take (i + src.length - o)).take room).length =
        min room (i + src.length - o) := by
      rw [List.length_take, hout]
    simp only [stored, hall]
    refine ⟨Nat.le_refl _, List.length_take_le .., ?_, ?_, fun hmore => ?_, by simp, by simp,
      fun _ _ => ?_⟩
    · exact (List.take_prefix ..).trans (List.take_prefix ..)
    · rw [hplen]
      show _ ≤ i + src.length
      omega
    · refine (Nat.eq_zero_or_pos src.length).symm.imp id fun h0 => ?_
      have hlt : o < i := hmore.resolve_left (not_not.2 (List.length_eq_zero_iff.1 h0))
      rw [← List.length_pos_iff, hplen]
      omega
    · rw [hplen]
      refine ⟨?_, hlen, ?_⟩
      · show o + _ ≤ i + src.length
        omega
      show _ = List.take (i + src.length - _) _
      rw [List.drop_take, List.drop_drop]
      rcases Nat.le_total room (i + src.length - o) with hle | hle
      · rw [Nat.min_eq_left hle, Nat.sub_sub]
      · rw [Nat.min_eq_right hle]
        have hzero : i + src.length - o - room = 0 := by omega
        have hzero' : i + src.length - (o + (i + src.length - o)) = 0 := by omega
        rw [hzero, hzero', List.take_zero, List.take_zero]

end
