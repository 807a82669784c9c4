import Arishem.Lib.Window
import Mathlib.Algebra.GroupWithZero.Nat
import Mathlib.Data.Finset.Insert
import Mathlib.Data.List.Induction

/-!
# Delta signatures

An entry of Scooby's signature table keeps the last deltas of its page, and computes its signatures
from the last four of them. The signatures of SPP are folded over all deltas instead. Both are the
same: a delta is shifted out of the twelve bits of a signature after four steps.
-/

namespace Arishem

namespace Scooby

/-- The bounds of the queues of an entry. -/
structure QueueKnobs where
  maxPcs : ℕ
  maxOffsets : ℕ
  maxDeltas : ℕ

/-- `Scooby_STEntry`, with the fields that an access updates. -/
structure StEntry where
  page : UInt64
  pcs : List UInt64
  offsets : List UInt32
  deltas : List Int32
  bmpReal : Finset UInt32
  uniquePcs : Finset UInt64
  uniqueDeltas : Finset Int32

namespace StEntry

section
variable (k : QueueKnobs)

/-- The constructor. -/
def make (page pc : UInt64) (offset : UInt32) : StEntry where
  page := page
  pcs := [pc]
  offsets := [offset]
  deltas := []
  bmpReal := {offset}
  uniquePcs := {pc}
  uniqueDeltas := ∅

/-- The delta from an offset to the next one. -/
def delta (back offset : UInt32) : Int32 :=
  if back < offset then (offset - back).toInt32 else ((-1) * (back - offset)).toInt32

/-- Push a delta, once there is an offset before. -/
def pushDelta (e : StEntry) (offset : UInt32) : StEntry :=
  match e.offsets.getLast? with
  | none => e
  | some back =>
    { e with
      deltas := Window.push k.maxDeltas e.deltas (delta back offset)
      uniqueDeltas := insert (delta back offset) e.uniqueDeltas }

/-- `update`, whose assert fails on an access to another page. -/
def update (e : StEntry) (page pc : UInt64) (offset : UInt32) : Option StEntry :=
  if e.page ≠ page then none
  else
    let e := { e with
      pcs := Window.push k.maxPcs e.pcs pc
      uniquePcs := insert pc e.uniquePcs }
    let e := e.pushDelta k offset
    some { e with
      offsets := Window.push k.maxOffsets e.offsets offset
      bmpReal := insert offset e.bmpReal }

/-- A step of `get_delta_sig`. -/
def deltaSigStep (signature : UInt32) (delta : Int32) : UInt32 :=
  (((signature <<< 3) &&& 0xfff) ^^^ (delta.toUInt32 &&& 0x7f)) &&& 0xfff

/-- `get_delta_sig`. -/
def getDeltaSig (e : StEntry) : UInt32 := (Window.last 4 e.deltas).foldl deltaSigStep 0

/-- A step of `get_delta_sig2`. -/
def deltaSig2Step (currSig : UInt32) (delta : Int32) : UInt32 :=
  let sigDelta : Int32 := if delta < 0 then (-1 : Int32) * delta + ((1 : Int32) <<< 6) else delta
  ((currSig <<< 3) ^^^ sigDelta.toUInt32) &&& 0xfff

/-- `get_delta_sig2`. -/
def getDeltaSig2 (e : StEntry) : UInt32 := (Window.last 4 e.deltas).foldl deltaSig2Step 0

/-- An access to a page: its program counter and the offset of its block. -/
structure Access where
  pc : UInt64
  offset : UInt32
  offset_lt : offset.toNat < 64

/-- The entry of a page after accesses to it. -/
def after (page : UInt64) (first : Access) (accesses : List Access) : Option StEntry :=
  accesses.foldlM (fun e a => e.update k page a.pc a.offset) (make page first.pc first.offset)

end

/-! ## Signatures of a history -/

/-- The deltas of a page: the differences of consecutive offsets. -/
def history : List Access → List ℤ
  | a :: b :: accesses => ((b.offset.toNat : ℤ) - a.offset.toNat) :: history (b :: accesses)
  | _ => []

/-- A step of a signature of twelve bits, with the code of a delta. -/
def signatureStep (code : ℤ → ℕ) (sig : ℕ) (delta : ℤ) : ℕ :=
  ((sig <<< 3) ^^^ code delta) &&& 0xfff

/-- The code of SPP: sign and magnitude. -/
def sppCode (delta : ℤ) : ℕ := if delta < 0 then (-delta).toNat + 64 else delta.toNat

/-- The code of `get_delta_sig`: the low seven bits. -/
def lowCode (delta : ℤ) : ℕ := (delta % 128).toNat

section
variable {k : QueueKnobs} {e : StEntry} {code : ℤ → ℕ}

theorem testBit_signatureStep (sig : ℕ) (delta : ℤ) (i : ℕ) :
    (signatureStep code sig delta).testBit i =
      (decide (i < 12) && ((decide (3 ≤ i) && sig.testBit (i - 3)) ^^ (code delta).testBit i)) := by
  have hmask : (0xfff : ℕ) = 2 ^ 12 - 1 := rfl
  rw [signatureStep, hmask, Nat.testBit_and, Nat.testBit_two_pow_sub_one, Nat.testBit_xor,
    Nat.testBit_shiftLeft, Bool.and_comm]

/-- Four steps shift all bits out. -/
theorem forgets_signatureStep (code : ℤ → ℕ) : Window.Forgets (signatureStep code) 4 := by
  intro sig sig' l hl
  match l, hl with
  | [a, b, c, d], _ =>
    refine Nat.eq_of_testBit_eq fun i => ?_
    simp only [List.foldl_cons, List.foldl_nil, testBit_signatureStep]
    rcases Nat.lt_or_ge i 12 with hi | hi
    · have hlast : decide (3 ≤ i - 3 - 3 - 3) = false := decide_eq_false (by omega)
      simp only [hlast, Bool.false_and]
    · simp only [decide_eq_false (Nat.not_lt.2 hi), Bool.false_and]

/-- A signature has twelve bits. -/
theorem signatureStep_lt (sig : ℕ) (delta : ℤ) : signatureStep code sig delta < 2 ^ 12 :=
  Nat.and_lt_two_pow _ (by decide)

theorem foldl_signatureStep_lt (l : List ℤ) {sig : ℕ} (h : sig < 2 ^ 12) :
    l.foldl (signatureStep code) sig < 2 ^ 12 := by
  induction l generalizing sig with
  | nil => exact h
  | cons delta l ih => exact ih (signatureStep_lt sig delta)

/-! ## The steps of the code -/

/-- The delta of an access, inside the page. -/
theorem delta_eq (a b : Access) :
    delta a.offset b.offset = Int32.ofInt ((b.offset.toNat : ℤ) - a.offset.toNat) := by
  have ha := a.offset_lt
  have hb := b.offset_lt
  have hint : ∀ x : UInt32, x.toInt32.toInt = (x.toNat : ℤ).bmod Int32.size := fun x =>
    BitVec.toInt_eq_toNat_bmod x.toBitVec
  rw [← Int32.toInt_inj, Int32.toInt_ofInt, delta]
  split
  · rename_i hlt
    rw [UInt32.lt_iff_toNat_lt] at hlt
    rw [hint, UInt32.toNat_sub_of_le _ _ (UInt32.le_iff_toNat_le.2 hlt.le)]
    congr 1
    omega
  · rename_i hlt
    rw [UInt32.lt_iff_toNat_lt, not_lt] at hlt
    -- a product with the largest number is a negation
    have hone : (-1 : UInt32).toNat = 2 ^ 32 - 1 := by decide
    rw [hint, UInt32.toNat_mul, UInt32.toNat_sub_of_le _ _ (UInt32.le_iff_toNat_le.2 hlt), hone]
    simp only [Int.bmod_def, Int32.size]
    omega

/-- The deltas of a page are smaller than the page. -/
theorem history_lt : ∀ {l : List Access}, ∀ d ∈ history l, -64 < d ∧ d < 64
  | [], _, h | [_], _, h => absurd h List.not_mem_nil
  | a :: b :: l, d, h => by
    rw [history, List.mem_cons] at h
    rcases h with rfl | h
    · have ha := a.offset_lt
      have hb := b.offset_lt
      omega
    · exact history_lt d h

/-- The step of the code is a step of the signature, when the codes are the same. -/
theorem toNat_step {sig c : UInt32} {d : ℤ} (hsig : sig.toNat < 2 ^ 12) (hc : c.toNat = code d) :
    (((sig <<< 3) ^^^ c) &&& 0xfff).toNat = signatureStep code sig.toNat d := by
  have hshift : sig.toNat <<< 3 < 2 ^ 32 := by
    rw [Nat.shiftLeft_eq]
    omega
  have hthree : (3 : UInt32).toNat % 32 = 3 := rfl
  rw [signatureStep, UInt32.toNat_and, UInt32.toNat_xor, UInt32.toNat_shiftLeft, hc, hthree,
    Nat.mod_eq_of_lt hshift]
  rfl

/-- The code of `get_delta_sig2` is the one of SPP. -/
theorem deltaSig2Step_eq {sig : UInt32} {d : ℤ} (hsig : sig.toNat < 2 ^ 12)
    (hd : -64 < d ∧ d < 64) :
    (deltaSig2Step sig (Int32.ofInt d)).toNat = signatureStep sppCode sig.toNat d := by
  have hall : ∀ m : Fin 127, (if Int32.ofInt ((m : ℤ) - 63) < 0 then
      (-1 : Int32) * Int32.ofInt ((m : ℤ) - 63) + ((1 : Int32) <<< 6)
      else Int32.ofInt ((m : ℤ) - 63)).toUInt32.toNat = sppCode ((m : ℤ) - 63) := by
    decide +kernel
  obtain ⟨n, hn⟩ := Int.eq_ofNat_of_zero_le (show 0 ≤ d + 63 by omega)
  obtain rfl : d = (n : ℤ) - 63 := by omega
  exact toNat_step hsig (hall ⟨n, by omega⟩)

/-- The code of `get_delta_sig` is the low bits, and masking twice does the same. -/
theorem deltaSigStep_eq {sig : UInt32} {d : ℤ} (hsig : sig.toNat < 2 ^ 12)
    (hd : -64 < d ∧ d < 64) :
    (deltaSigStep sig (Int32.ofInt d)).toNat = signatureStep lowCode sig.toNat d := by
  have hall : ∀ m : Fin 127,
      ((Int32.ofInt ((m : ℤ) - 63)).toUInt32 &&& 0x7f).toNat = lowCode ((m : ℤ) - 63) := by
    decide +kernel
  have hmask : ∀ c mask : UInt32,
      (((sig <<< 3) &&& mask) ^^^ c) &&& mask = ((sig <<< 3) ^^^ c) &&& mask := by
    intro c mask
    rw [← UInt32.toNat_inj]
    simp only [UInt32.toNat_and, UInt32.toNat_xor]
    refine Nat.eq_of_testBit_eq fun i => ?_
    simp only [Nat.testBit_and, Nat.testBit_xor]
    cases mask.toNat.testBit i
    · rw [Bool.and_false, Bool.and_false]
    · simp only [Bool.and_true]
  obtain ⟨n, hn⟩ := Int.eq_ofNat_of_zero_le (show 0 ≤ d + 63 by omega)
  obtain rfl : d = (n : ℤ) - 63 := by omega
  rw [deltaSigStep, hmask]
  exact toNat_step hsig (hall ⟨n, by omega⟩)

/-- A fold of the code's steps is the fold of the signature. -/
theorem foldl_step {f : UInt32 → Int32 → UInt32}
    (hf : ∀ {sig : UInt32} {d : ℤ}, sig.toNat < 2 ^ 12 → -64 < d ∧ d < 64 →
      (f sig (Int32.ofInt d)).toNat = signatureStep code sig.toNat d)
    (l : List ℤ) (hl : ∀ d ∈ l, -64 < d ∧ d < 64) {sig : UInt32} (hsig : sig.toNat < 2 ^ 12) :
    ((l.map Int32.ofInt).foldl f sig).toNat = l.foldl (signatureStep code) sig.toNat := by
  induction l generalizing sig with
  | nil => rfl
  | cons d l ih =>
    have hstep := hf hsig (hl d (List.mem_cons_self ..))
    rw [List.map_cons, List.foldl_cons, List.foldl_cons, ← hstep]
    refine ih (fun d' hd' => hl d' (List.mem_cons_of_mem _ hd')) ?_
    rw [hstep]
    exact signatureStep_lt _ _

/-! ## Runs -/

theorem history_snoc (a b : Access) : ∀ l : List Access,
    history (l ++ [a, b]) = history (l ++ [a]) ++ [(b.offset.toNat : ℤ) - a.offset.toNat]
  | [] => rfl
  | [c] => rfl
  | c :: d :: l => by
    have ih := history_snoc a b (d :: l)
    simp only [List.cons_append, history] at ih ⊢
    rw [ih]

/-- What an entry keeps of the accesses to its page. -/
structure Keeps (k : QueueKnobs) (page : UInt64) (l : List Access) (last : Access) (e : StEntry) :
    Prop where
  page_eq : e.page = page
  back : e.offsets.getLast? = some last.offset
  deltas : e.deltas = Window.last k.maxDeltas ((history (l ++ [last])).map Int32.ofInt)

/-- An access pushes its delta. -/
theorem Keeps.update {page : UInt64} {l : List Access} {last : Access} (hk : 0 < k.maxDeltas)
    (h : Keeps k page l last e) (a : Access) :
    ∃ e', e.update k page a.pc a.offset = some e' ∧ Keeps k page (l ++ [last]) a e' := by
  refine ⟨_, if_neg (not_not.2 h.page_eq), ?_⟩
  have hback : ({ e with
      pcs := Window.push k.maxPcs e.pcs a.pc
      uniquePcs := insert a.pc e.uniquePcs } : StEntry).offsets.getLast? = some last.offset :=
    h.back
  simp only [pushDelta, hback]
  refine ⟨h.page_eq, by simp [Window.push], ?_⟩
  rw [h.deltas, Window.push_last hk, List.append_assoc, List.singleton_append, history_snoc,
    List.map_append, List.map_singleton, delta_eq]

/-- Every run of accesses to a page keeps its last deltas. -/
theorem keeps_after (hk : 0 < k.maxDeltas) (page : UInt64) (first : Access)
    (accesses : List Access) :
    ∃ e l last, after k page first accesses = some e ∧ l ++ [last] = first :: accesses ∧
      Keeps k page l last e := by
  induction accesses using List.reverseRecOn with
  | nil =>
    refine ⟨make page first.pc first.offset, [], first, rfl, rfl, rfl, rfl, ?_⟩
    simp [make, history, Window.last]
  | append_singleton accesses a ih =>
    obtain ⟨e, l, last, hafter, hl, hkeeps⟩ := ih
    obtain ⟨e', hupdate, hkeeps'⟩ := hkeeps.update hk a
    refine ⟨e', l ++ [last], a, ?_, by rw [hl]; rfl, hkeeps'⟩
    rw [after] at hafter ⊢
    rw [List.foldlM_append, hafter]
    simpa using hupdate

/-- The signatures of an entry are folded over the whole history of its page. -/
theorem signatures_eq (k : QueueKnobs) (page : UInt64) (first : Access) (accesses : List Access)
    (hdeltas : 4 ≤ k.maxDeltas) :
    ∃ e, after k page first accesses = some e ∧
      e.getDeltaSig2.toNat = (history (first :: accesses)).foldl (signatureStep sppCode) 0 ∧
      e.getDeltaSig.toNat = (history (first :: accesses)).foldl (signatureStep lowCode) 0 ∧
      e.getDeltaSig2.toNat < 2 ^ 12 ∧ e.getDeltaSig.toNat < 2 ^ 12 := by
  obtain ⟨e, l, last, hafter, hl, hkeeps⟩ :=
    keeps_after (Nat.lt_of_lt_of_le (by decide) hdeltas) page first accesses
  have hzero : (0 : UInt32).toNat < 2 ^ 12 := by decide
  have hwindow : ∀ {f : UInt32 → Int32 → UInt32} {code : ℤ → ℕ},
      (∀ {sig : UInt32} {d : ℤ}, sig.toNat < 2 ^ 12 → -64 < d ∧ d < 64 →
        (f sig (Int32.ofInt d)).toNat = signatureStep code sig.toNat d) →
      ((Window.last 4 e.deltas).foldl f 0).toNat =
        (history (first :: accesses)).foldl (signatureStep code) 0 := by
    intro f code hf
    have hmap : Window.last 4 ((history (first :: accesses)).map Int32.ofInt) =
        (Window.last 4 (history (first :: accesses))).map Int32.ofInt := by
      rw [Window.last, Window.last, List.length_map, List.map_drop]
    rw [hkeeps.deltas, Window.last_last hdeltas, hl, hmap,
      foldl_step hf (Window.last 4 (history (first :: accesses)))
        (fun d hd => history_lt d (List.mem_of_mem_drop hd)) hzero]
    exact (forgets_signatureStep code).foldl_last _ _
  have hsig2 := hwindow deltaSig2Step_eq
  have hsig := hwindow deltaSigStep_eq
  refine ⟨e, hafter, hsig2, hsig, ?_, ?_⟩
  · rw [getDeltaSig2, hsig2]
    exact foldl_signatureStep_lt _ (by decide)
  · rw [getDeltaSig, hsig]
    exact foldl_signatureStep_lt _ (by decide)

/-- Accesses that go down and up the page. -/
def downAndUp : List Access :=
  [⟨1, 3, by decide⟩, ⟨1, 7, by decide⟩, ⟨1, 63, by decide⟩, ⟨1, 0, by decide⟩,
    ⟨1, 5, by decide⟩, ⟨1, 20, by decide⟩, ⟨1, 18, by decide⟩, ⟨1, 40, by decide⟩]

/-- Nine accesses with the bounds of the configuration: the first three of the eight deltas have left the
deque, and the first four have left the signatures. -/
theorem signatures_eq_evicted : 4 ≤ 5 ∧
    ∃ e, after ⟨5, 5, 5⟩ 1 ⟨1, 9, by decide⟩ downAndUp = some e ∧
      e.deltas = [-63, 5, 15, -2, 22] ∧
      history (⟨1, 9, by decide⟩ :: downAndUp) = [-6, 4, 56, -63, 5, 15, -2, 22] ∧
      e.getDeltaSig2.toNat = [-6, 4, 56, -63, 5, 15, -2, 22].foldl (signatureStep sppCode) 0 ∧
      e.getDeltaSig.toNat = [-6, 4, 56, -63, 5, 15, -2, 22].foldl (signatureStep lowCode) 0 := by
  refine ⟨by decide, ?_⟩
  obtain ⟨e, hafter, hsig2, hsig, -⟩ :=
    signatures_eq ⟨5, 5, 5⟩ 1 ⟨1, 9, by decide⟩ downAndUp (by decide)
  have hdeltas : (after ⟨5, 5, 5⟩ 1 ⟨1, 9, by decide⟩ downAndUp).map (·.deltas) =
      some [-63, 5, 15, -2, 22] := by decide +kernel
  rw [hafter] at hdeltas
  exact ⟨e, hafter, Option.some.inj hdeltas, by decide, hsig2, hsig⟩

end

end StEntry

end Scooby

end Arishem
