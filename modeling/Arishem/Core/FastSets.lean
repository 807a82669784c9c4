import Arishem.Core.FastSet
import Mathlib.Data.Nat.Bitwise

/-!
# A fastset is a set

In either form a `fastset` stands for a set of numbers: its values are the elements in increasing
order, or its bits say which numbers are elements. Every operation on a valid argument keeps that,
across the change of the form, and what is read is what the set says.
-/

namespace Arishem

namespace FastSet

/-- The set a `fastset` stands for. -/
inductive Represents : FastSet → Finset ℕ → Prop
  | small {v : ℕ → ℕ} {card : ℕ} {elems : Finset ℕ} : card < smallSize →
      Sorted.Increasing card v → (∀ x, x ∈ elems ↔ Sorted.Holds card v x) →
      (∀ x ∈ elems, x < maxSize) → Represents { data := .values v, card := card } elems
  | large {b : ℕ → BitVec 64} {elems : Finset ℕ} :
      (∀ x, x ∈ elems ↔ x < maxSize ∧ BitWords.Mem b x) →
      Represents { data := .bits b, card := smallSize } elems

section
variable {s : FastSet} {elems elems' : Finset ℕ} {x n card : ℕ} {v : ℕ → ℕ} {b : ℕ → BitVec 64}

theorem Represents.lt (h : Represents s elems) (hx : x ∈ elems) : x < maxSize := by
  cases h with
  | small _ _ _ hlt => exact hlt x hx
  | large hb => exact ((hb x).1 hx).1

/-- A new set is empty. -/
theorem Represents.init (memory : ℕ → ℕ) : Represents (init memory) ∅ := by
  refine .small (by decide) (fun i j _ hj => absurd hj (Nat.not_lt_zero j)) (fun x => ?_) nofun
  simp [Sorted.Holds]

/-! ## Bits -/

theorem word_eq (x : ℕ) : x >>> 6 = x / 64 := Nat.shiftRight_eq_div_pow x 6

theorem bit_eq (x : ℕ) : x &&& 63 = x % 64 := Nat.and_two_pow_sub_one_eq_mod x 6

/-- `setbit` on a number below the largest size. -/
theorem setbit_eq (hx : x < maxSize) : setbit x b = some (BitWords.setBit b x) := by
  have hword : x / 64 < maxSize / 64 := by
    have hmax : maxSize = 2048 := rfl
    omega
  simp only [setbit, word_eq, bit_eq]
  rw [if_pos hword]
  rfl

/-- `getbit` on a number below the largest size. -/
theorem getbit_eq (hx : x < maxSize) : getbit x b = some (decide (BitWords.Mem b x)) := by
  have hword : x / 64 < maxSize / 64 := by
    have hmax : maxSize = 2048 := rfl
    omega
  simp only [getbit, word_eq, bit_eq]
  rw [if_pos hword]
  congr 1
  rw [BitVec.and_one_eq_setWidth_ofBool_getLsbD, BitVec.getLsbD_ushiftRight, Nat.add_zero]
  show _ = decide ((b (x / 64)).getLsbD (x % 64) = true)
  cases (b (x / 64)).getLsbD (x % 64) <;> decide

/-- The words that `join` goes through. -/
theorem lim_eq (n : ℕ) : ((n ||| 63) + 1) / 64 = n / 64 + 1 := by
  have hdiv : (n ||| 63) / 2 ^ 6 = n / 2 ^ 6 ||| 63 / 2 ^ 6 := Nat.or_div_two_pow
  have hmod : (n ||| 63) % 2 ^ 6 = n % 2 ^ 6 ||| 63 % 2 ^ 6 := Nat.or_mod_two_pow
  have hfull : ∀ k < 64, k ||| 63 = 63 := by decide
  have hlow : n % 64 ||| 63 = 63 := hfull (n % 64) (Nat.mod_lt n (by decide))
  simp only [Nat.reducePow, Nat.reduceDiv, Nat.reduceMod, Nat.or_zero, hlow] at hdiv hmod
  omega

/-- `smalltobit`. -/
theorem smalltobit_eq (card : ℕ) (v : ℕ → ℕ) (hlt : ∀ i < card, v i < maxSize) :
    ∃ b, smalltobit card v = some b ∧ ∀ x, BitWords.Mem b x ↔ Sorted.Holds card v x := by
  rw [smalltobit]
  induction card with
  | zero => exact ⟨_, rfl, fun x => by simp [Sorted.Holds, BitWords.Mem]⟩
  | succ card ih =>
    obtain ⟨b, hb, hmem⟩ := ih fun i hi => hlt i (Nat.lt_succ_of_lt hi)
    rw [List.range_succ, List.foldlM_append, hb]
    refine ⟨BitWords.setBit b (v card), ?_, fun x => ?_⟩
    · simp [setbit_eq (hlt card (Nat.lt_succ_self card))]
    · rw [BitWords.mem_setBit (by decide), hmem]
      constructor
      · rintro (rfl | ⟨i, hi, hv⟩)
        · exact ⟨card, Nat.lt_succ_self card, rfl⟩
        · exact ⟨i, Nat.lt_succ_of_lt hi, hv⟩
      · rintro ⟨i, hi, hv⟩
        rcases Nat.lt_succ_iff_lt_or_eq.1 hi with hi | rfl
        · exact .inr ⟨i, hi, hv⟩
        · exact .inl hv.symm

/-! ## Insertion -/

/-- `insert_small` keeps the order and adds the value. -/
theorem insertSmall_spec (h : Sorted.Increasing card v) :
    ((insertSmall x card v).1 = card ∨ (insertSmall x card v).1 = card + 1) ∧
      Sorted.Increasing (insertSmall x card v).1 (insertSmall x card v).2 ∧
      ∀ y, Sorted.Holds (insertSmall x card v).1 (insertSmall x card v).2 y ↔
        y = x ∨ Sorted.Holds card v y := by
  simp only [insertSmall]
  split
  · rename_i hplace
    have hx := (Sorted.holds_iff_place h).2 hplace
    refine ⟨.inl rfl, h, fun y => ⟨.inr, ?_⟩⟩
    rintro (rfl | hy)
    · exact hx
    · exact hy
  · rename_i hplace
    exact ⟨.inr rfl, h.insert fun hx => hplace ((Sorted.holds_iff_place h).1 hx),
      fun y => Sorted.holds_insert⟩

/-- `insert`. -/
theorem Represents.insert (h : Represents s elems) (hx : x < maxSize) :
    ∃ s', s.insert x = some s' ∧ Represents s' (Insert.insert x elems) := by
  have hmem (y : ℕ) : y ∈ Insert.insert x elems ↔ y = x ∨ y ∈ elems := Finset.mem_insert
  have hlt : ∀ y ∈ Insert.insert x elems, y < maxSize := by
    intro y hy
    rcases (hmem y).1 hy with rfl | hy
    · exact hx
    · exact h.lt hy
  cases h with
  | @small v card _ hcard hv helems _ =>
    rw [FastSet.insert]
    by_cases hzero : card = 0
    · subst hzero
      refine ⟨_, rfl, .small (by decide) (fun i j hij hj => by omega) (fun y => ?_) hlt⟩
      rw [hmem, helems]
      simp [Sorted.Holds, eq_comm]
    · obtain ⟨hnew, hinc, hholds⟩ := insertSmall_spec (x := x) hv
      have helems' (y : ℕ) : y ∈ Insert.insert x elems ↔
          Sorted.Holds (insertSmall x card v).1 (insertSmall x card v).2 y := by
        rw [hmem, helems, hholds]
      simp only [if_neg hzero, if_pos hcard, FastSet.values, Option.bind_eq_bind, Option.bind_some]
      by_cases hfull : (insertSmall x card v).1 = smallSize
      · obtain ⟨b, hb, hbits⟩ := smalltobit_eq (insertSmall x card v).1
          (insertSmall x card v).2 fun i hi => hlt _ ((helems' _).2 ⟨i, hi, rfl⟩)
        rw [if_pos hfull, hb]
        refine ⟨_, rfl, ?_⟩
        rw [hfull]
        refine .large fun y => ?_
        rw [hbits, ← helems']
        exact ⟨fun hy => ⟨hlt y hy, hy⟩, fun hy => hy.2⟩
      · rw [if_neg hfull]
        exact ⟨_, rfl, .small (by omega) hinc helems' hlt⟩
  | @large b _ hb =>
    refine ⟨{ data := .bits (BitWords.setBit b x), card := smallSize }, ?_, .large fun y => ?_⟩
    · have hsmall : smallSize = 13 := rfl
      simp only [FastSet.insert, hsmall, FastSet.bits, Option.bind_eq_bind, Option.bind_some,
        setbit_eq hx]
      rfl
    · rw [hmem, hb, BitWords.mem_setBit (by decide)]
      constructor
      · rintro (rfl | ⟨hy, hyb⟩)
        · exact ⟨hx, .inl rfl⟩
        · exact ⟨hy, .inr hyb⟩
      · rintro ⟨hy, rfl | hyb⟩
        · exact .inl rfl
        · exact .inr ⟨hy, hyb⟩

/-! ## Search -/

/-- `search_small`. -/
theorem searchSmall_iff (h : Sorted.Increasing card v) :
    searchSmall x card v = true ↔ Sorted.Holds card v x := by
  rw [searchSmall]
  split
  · rename_i hzero
    subst hzero
    simp [Sorted.Holds]
  split
  · rw [searchSmallLinear, decide_eq_true_eq, Sorted.holds_iff_place h]
  · rename_i hzero _
    rw [Sorted.bisect_iff h 0 (card - 1) (le_refl 0) (by omega) (by omega)]
    constructor
    · rintro ⟨i, -, hi, hv⟩
      exact ⟨i, by omega, hv⟩
    · rintro ⟨i, hi, hv⟩
      exact ⟨i, by omega, by omega, hv⟩

/-- `search` decides whether a number is in the set. -/
theorem Represents.search (h : Represents s elems) (hx : x < maxSize) :
    s.search x = some (decide (x ∈ elems)) := by
  cases h with
  | @small v card _ hcard hv helems _ =>
    rw [FastSet.search]
    by_cases hzero : card = 0
    · subst hzero
      have hx : x ∉ elems := by simp [helems, Sorted.Holds]
      simp [hx]
    by_cases hone : card = 1
    · subst hone
      simp [FastSet.values, helems, Sorted.Holds, beq_eq_decide]
    · simp only [if_neg hzero, if_neg hone, if_pos hcard, FastSet.values, Option.map_some]
      rw [Option.some_inj, Bool.eq_iff_iff, searchSmall_iff hv, decide_eq_true_eq, helems]
  | @large b _ hb =>
    have hsmall : smallSize = 13 := rfl
    simp only [FastSet.search, hsmall, FastSet.bits, Option.bind_some, getbit_eq hx, hb, hx,
      true_and]
    rfl

/-! ## Union -/

/-- A value that is there already is not inserted again. -/
theorem insert_of_holds (h : Sorted.Increasing card v) (hcard : card < smallSize)
    (hx : Sorted.Holds card v x) :
    insert x { data := .values v, card := card } = some { data := .values v, card := card } := by
  have hpos : card ≠ 0 := by
    obtain ⟨i, hi, -⟩ := hx
    omega
  have hsame : insertSmall x card v = (card, v) := if_pos ((Sorted.holds_iff_place h).1 hx)
  simp only [insert, if_neg hpos, if_pos hcard, values, Option.bind_eq_bind, Option.bind_some,
    hsame]
  rw [if_neg (by omega)]

/-- The insertions of `join`, from the other set's `i`-th value on, where these insertions leave the
other set as it is. -/
theorem Represents.insertAll (other : FastSet → FastSet) (fuel i : ℕ)
    (hv : ∀ i < card, v i < maxSize) (hfuel : card - i < fuel) (h : Represents s elems)
    (hother : other s = { data := .values v, card := card })
    (hstay : ∀ s' s'' i, other s' = { data := .values v, card := card } → i < card →
      s'.insert (v i) = some s'' → other s'' = { data := .values v, card := card }) :
    ∃ s' elems', insertAll other fuel i s = some s' ∧ Represents s' elems' ∧
      ∀ y, y ∈ elems' ↔ y ∈ elems ∨ ∃ k, i ≤ k ∧ k < card ∧ v k = y := by
  induction fuel generalizing i s elems with
  | zero => exact absurd hfuel (Nat.not_lt_zero _)
  | succ fuel ih =>
    rw [FastSet.insertAll, hother]
    by_cases hi : i < card
    · obtain ⟨s₁, hinsert, hs₁⟩ := h.insert (hv i hi)
      obtain ⟨s', elems', hall, hs', hmem⟩ :=
        ih (i + 1) (by omega) hs₁ (hstay s s₁ i hother hi hinsert)
      refine ⟨s', elems', ?_, hs', fun y => ?_⟩
      · simp only [if_pos hi, values, Option.bind_eq_bind, Option.bind_some, hinsert, hall]
      · rw [hmem, Finset.mem_insert]
        constructor
        · rintro ((rfl | hy) | ⟨k, hik, hk, hvk⟩)
          · exact .inr ⟨i, le_refl i, hi, rfl⟩
          · exact .inl hy
          · exact .inr ⟨k, by omega, hk, hvk⟩
        · rintro (hy | ⟨k, hik, hk, hvk⟩)
          · exact .inl (.inr hy)
          · rcases eq_or_lt_of_le hik with rfl | hlt
            · exact .inl (.inl hvk.symm)
            · exact .inr ⟨k, hlt, hk, hvk⟩
    · refine ⟨s, elems, if_neg hi, h, fun y => ⟨.inl, ?_⟩⟩
      rintro (hy | ⟨k, hik, hk, -⟩)
      · exact hy
      · omega

/-- A set changes to its bits. -/
theorem Represents.toBits (h : Represents s elems) : ∃ b,
    (if s.card < smallSize then s.values.bind (smalltobit s.card) else s.bits) = some b ∧
      ∀ x, x ∈ elems ↔ x < maxSize ∧ BitWords.Mem b x := by
  cases h with
  | @small v card _ hcard hv helems hlt =>
    obtain ⟨b, hb, hmem⟩ := smalltobit_eq card v fun i hi =>
      hlt _ ((helems _).2 ⟨i, hi, rfl⟩)
    refine ⟨b, ?_, fun x => ?_⟩
    · rw [if_pos hcard]
      exact hb
    · rw [hmem, ← helems]
      exact ⟨fun hx => ⟨hlt x hx, hx⟩, fun hx => hx.2⟩
  | @large b _ hb => exact ⟨b, if_neg (lt_irrefl smallSize), hb⟩

/-- The bits of the union, where the words joined hold all of the other set's elements. -/
theorem mem_union_iff {b o : ℕ → BitVec 64} (hb : ∀ x, x ∈ elems ↔ x < maxSize ∧ BitWords.Mem b x)
    (ho : ∀ x, x ∈ elems' ↔ x < maxSize ∧ BitWords.Mem o x) (hlt : ∀ x ∈ elems', x < n) (x : ℕ) :
    x ∈ elems ∪ elems' ↔
      x < maxSize ∧ BitWords.Mem (BitWords.orWords (((n ||| 63) + 1) / 64) b o) x := by
  rw [Finset.mem_union, BitWords.mem_orWords, lim_eq, hb, ho]
  constructor
  · rintro (⟨hx, hbx⟩ | ⟨hx, hox⟩)
    · exact ⟨hx, .inl hbx⟩
    · have hxn := hlt x ((ho x).2 ⟨hx, hox⟩)
      exact ⟨hx, .inr ⟨by omega, hox⟩⟩
  · rintro ⟨hx, hbx | ⟨-, hox⟩⟩
    · exact .inl ⟨hx, hbx⟩
    · exact .inr ⟨hx, hox⟩

/-- `join` with another set, or with the set itself. -/
theorem Represents.join (other : FastSet → FastSet) (h : Represents s elems)
    (ho : Represents (other s) elems') (hother : (∀ s', other s' = other s) ∨ ∀ s', other s' = s')
    (hn : n < maxSize) (hlt : ∀ x ∈ elems', x < n) :
    ∃ s', s.join other n = some s' ∧ Represents s' (elems ∪ elems') := by
  generalize hos : other s = o at ho hother
  cases ho with
  | @small v card _ hcard hv helems' hmax =>
    by_cases hzero : card = 0
    · have hempty : elems' = ∅ := by
        refine Finset.eq_empty_of_forall_notMem fun x hx => ?_
        obtain ⟨i, hi, -⟩ := (helems' x).1 hx
        omega
      refine ⟨s, ?_, ?_⟩
      · rw [FastSet.join, hos, if_pos hzero]
      · rwa [hempty, Finset.union_empty]
    · have hstay : ∀ s₁ s₂ i, other s₁ = { data := .values v, card := card } → i < card →
          s₁.insert (v i) = some s₂ → other s₂ = { data := .values v, card := card } := by
        intro s₁ s₂ i hs₁ hi hinsert
        rcases hother with hconst | hself
        · exact hconst s₂
        · -- the set is its own other one, and has the value
          rw [hself] at hs₁ ⊢
          rw [hs₁, insert_of_holds hv hcard ⟨i, hi, rfl⟩] at hinsert
          exact (Option.some.inj hinsert).symm
      obtain ⟨s', elems₁, hall, hs', hmem⟩ := h.insertAll other (smallSize + 1) 0
        (fun i hi => hmax _ ((helems' _).2 ⟨i, hi, rfl⟩)) (by omega) hos hstay
      have hunion : elems ∪ elems' = elems₁ := by
        ext x
        rw [Finset.mem_union, hmem, helems']
        simp [Sorted.Holds]
      refine ⟨s', ?_, ?_⟩
      · rw [FastSet.join, hos, if_neg hzero, if_pos hcard, hall]
      · rwa [hunion]
  | @large o _ hob =>
    have hlim : ((n ||| 63) + 1) / 64 ≤ maxSize / 64 := by
      have hmaxSize : maxSize = 2048 := rfl
      rw [lim_eq]
      omega
    have hnonzero : smallSize ≠ 0 := by decide
    obtain ⟨b, hb, hmem⟩ := h.toBits
    refine ⟨{ data := .bits (BitWords.orWords (((n ||| 63) + 1) / 64) b o), card := smallSize }, ?_,
      .large (mem_union_iff hmem hob hlt)⟩
    by_cases hs : s.card < smallSize
    · obtain ⟨v, hv, hbits⟩ := Option.bind_eq_some_iff.1 ((if_pos hs).symm.trans hb)
      have hconst : ∀ s', other s' = { data := .bits o, card := smallSize } := by
        rcases hother with hconst | hself
        · exact hconst
        · -- the set itself is small
          rw [hself] at hos
          rw [hos] at hs
          exact absurd hs (lt_irrefl smallSize)
      simp only [FastSet.join, hconst, if_neg hnonzero, if_neg (lt_irrefl smallSize), if_pos hs, hv,
        hbits, Option.bind_eq_bind, Option.bind_some, if_pos (le_refl smallSize), FastSet.bits,
        if_pos hlim]
    · have hsb : s = { data := .bits b, card := smallSize } := by
        rw [if_neg hs] at hb
        cases h with
        | small hcard => exact absurd hcard hs
        | large _ =>
          obtain rfl := Option.some.inj hb
          rfl
      simp only [FastSet.join, hos, if_neg hnonzero, if_neg (lt_irrefl smallSize), if_neg hs,
        Option.bind_eq_bind, Option.bind_some, if_pos hlim]
      rw [hsb]
      rfl

/-! ## Listing -/

/-- What was written to an array. -/
def written (acc : ℕ × (ℕ → ℕ)) : List ℕ := (List.range acc.1).map acc.2

theorem written_push (acc : ℕ × (ℕ → ℕ)) (l : ℕ) :
    written (acc.1 + 1, Function.update acc.2 acc.1 l) = written acc ++ [l] := by
  have hbefore : (List.range acc.1).map (Function.update acc.2 acc.1 l) = written acc := by
    refine List.map_congr_left fun i hi => ?_
    exact Function.update_of_ne (List.mem_range.1 hi).ne _ _
  rw [written, List.range_succ, List.map_append, hbefore]
  simp

/-- The rounds of `expand` on some numbers write those whose bits are set. -/
theorem expandBits_eq {ls : List ℕ} (hls : ∀ l ∈ ls, l < maxSize) (acc : ℕ × (ℕ → ℕ)) :
    ∃ acc', ls.foldlM (expandBit b) acc = some acc' ∧
      written acc' = written acc ++ ls.filter fun l => decide (BitWords.Mem b l) := by
  induction ls generalizing acc with
  | nil => exact ⟨acc, rfl, by simp⟩
  | cons l ls ih =>
    have hbit := getbit_eq (b := b) (hls l (List.mem_cons_self ..))
    have hls' := fun l' hl' => hls l' (List.mem_cons_of_mem l hl')
    by_cases hmem : BitWords.Mem b l
    · obtain ⟨acc', hacc', hw⟩ := ih hls' (acc.1 + 1, Function.update acc.2 acc.1 l)
      refine ⟨acc', ?_, ?_⟩
      · simp [expandBit, hbit, hmem, hacc']
      · rw [hw, written_push, List.filter_cons_of_pos (by simpa using hmem)]
        simp
    · obtain ⟨acc', hacc', hw⟩ := ih hls' acc
      refine ⟨acc', ?_, ?_⟩
      · simp [expandBit, hbit, hmem, hacc']
      · rw [hw, List.filter_cons_of_neg (by simpa using hmem)]

/-- The numbers of a word. -/
def wordNumbers (n word : ℕ) : List ℕ :=
  ((List.range 64).takeWhile fun j => decide (64 * word + j < n)).map fun j => 64 * word + j

theorem mem_wordNumbers {word l : ℕ} (hl : l ∈ wordNumbers n word) : l < n ∧ l / 64 = word := by
  rw [wordNumbers, BitWords.takeWhile_word] at hl
  obtain ⟨j, hj, rfl⟩ := List.mem_map.1 hl
  have hlt := List.mem_range.1 hj
  omega

/-- The words of `expand`. -/
theorem expandWords_eq (hn : n < maxSize) {ws : List ℕ} (hws : ∀ w ∈ ws, w < maxSize / 64)
    (acc : ℕ × (ℕ → ℕ)) : ∃ acc', ws.foldlM (expandWord b n) acc = some acc' ∧
      written acc' = written acc ++
        (ws.flatMap (wordNumbers n)).filter fun l => decide (BitWords.Mem b l) := by
  induction ws generalizing acc with
  | nil => exact ⟨acc, rfl, by simp⟩
  | cons w ws ih =>
    have hws' := fun w' hw' => hws w' (List.mem_cons_of_mem w hw')
    have hword : ∃ acc', expandWord b n acc w = some acc' ∧
        written acc' = written acc ++
          (wordNumbers n w).filter fun l => decide (BitWords.Mem b l) := by
      rw [expandWord, if_pos (hws w (List.mem_cons_self ..))]
      split
      · rename_i hzero
        refine ⟨acc, rfl, ?_⟩
        rw [List.filter_eq_nil_iff.2, List.append_nil]
        intro l hl
        have hl' := (mem_wordNumbers hl).2
        simpa using BitWords.not_mem_of_zero (b := b) (hl' ▸ hzero)
      · exact expandBits_eq (fun l hl => (mem_wordNumbers hl).1.trans hn) acc
    obtain ⟨acc₁, hacc₁, hw₁⟩ := hword
    obtain ⟨acc', hacc', hw'⟩ := ih hws' acc₁
    refine ⟨acc', ?_, ?_⟩
    · simp [hacc₁, hacc']
    · rw [hw', hw₁, List.flatMap_cons, List.filter_append, List.append_assoc]

/-- `expand` writes the elements in their order. -/
theorem Represents.expand (h : Represents s elems) (hn : n < maxSize) (hlt : ∀ x ∈ elems, x < n)
    (out : ℕ → ℕ) : ∃ v', s.expand n out = some (elems.card, v') ∧
      written (elems.card, v') = elems.sort := by
  cases h with
  | @small v card _ hcard hv helems _ =>
    have hmem (x : ℕ) : x ∈ (List.range card).map v ↔ x ∈ elems := by
      simp [helems, Sorted.Holds]
    obtain ⟨hsort, hlen⟩ := Sorted.eq_sort hv.pairwise hmem
    rw [List.length_map, List.length_range] at hlen
    subst hlen
    rw [FastSet.expand]
    by_cases hzero : elems.card = 0
    · refine ⟨out, ?_, ?_⟩
      · rw [if_pos hzero, hzero]
      · rw [← hsort, written, hzero]
        rfl
    · refine ⟨_, by rw [if_neg hzero, if_pos hcard]; rfl, ?_⟩
      rw [← hsort, written]
      refine List.map_congr_left fun i hi => ?_
      exact if_pos (List.mem_range.1 hi)
  | @large b _ hb =>
    have hmax : maxSize = 2048 := rfl
    have hwords : ∀ w ∈ List.range ((n + 63) / 64), w < maxSize / 64 := fun w hw => by
      have := List.mem_range.1 hw
      omega
    obtain ⟨⟨k, v'⟩, hexpand, hwritten⟩ := expandWords_eq (b := b) hn hwords (0, out)
    have hall : (List.range ((n + 63) / 64)).flatMap (wordNumbers n) = List.range n := by
      have hmin : min n (64 * ((n + 63) / 64)) = n := by omega
      have hflat := BitWords.flatMap_range 64 n ((n + 63) / 64)
      rwa [hmin] at hflat
    have hlist : written (k, v') = (List.range n).filter fun l => decide (BitWords.Mem b l) := by
      rw [hwritten, hall]
      rfl
    have hpair : (written (k, v')).Pairwise (· < ·) := by
      rw [hlist]
      exact List.pairwise_lt_range.filter _
    have hmem (x : ℕ) : x ∈ written (k, v') ↔ x ∈ elems := by
      rw [hlist, List.mem_filter, List.mem_range, decide_eq_true_eq, hb]
      refine ⟨fun ⟨hx, hbx⟩ => ⟨hx.trans hn, hbx⟩, fun ⟨hx, hbx⟩ => ⟨?_, hbx⟩⟩
      exact hlt x ((hb x).2 ⟨hx, hbx⟩)
    obtain ⟨hsort, hlen⟩ := Sorted.eq_sort hpair hmem
    have hk : k = elems.card := by rw [← hlen]; simp [written]
    subst hk
    exact ⟨v', hexpand, hsort⟩

end

end FastSet

/-! ## Several sets -/

namespace FastSetOp

section
variable {ι : Type*} [DecidableEq ι] {sets : ι → FastSet} {elems : ι → Finset ℕ}
  {op : FastSetOp ι} {ops : List (FastSetOp ι)}

/-- A valid operation does what it stands for. -/
theorem apply_represents (h : ∀ i, (sets i).Represents (elems i)) (hop : op.Valid elems) :
    ∃ sets', op.apply sets = some sets' ∧ ∀ i, (sets' i).Represents (op.meaning elems i) := by
  have hupdate (i : ι) {s : FastSet} {e : Finset ℕ} (hs : s.Represents e) (k : ι) :
      (Function.update sets i s k).Represents (Function.update elems i e k) := by
    rcases eq_or_ne k i with rfl | hk
    · rwa [Function.update_self, Function.update_self]
    · rw [Function.update_of_ne hk, Function.update_of_ne hk]
      exact h k
  cases op with
  | insert i x =>
    obtain ⟨s, hs, hrep⟩ := (h i).insert hop
    exact ⟨Function.update sets i s, by rw [apply, hs]; rfl, hupdate i hrep⟩
  | join i j n =>
    have hother : (∀ s', (if j = i then s' else sets j) = if j = i then sets i else sets j) ∨
        ∀ s', (if j = i then s' else sets j) = s' := by
      by_cases hij : j = i
      · exact .inr fun s' => if_pos hij
      · exact .inl fun s' => by rw [if_neg hij, if_neg hij]
    have hrepj : (if j = i then sets i else sets j).Represents (elems j) := by
      split
      · rename_i hij
        rw [hij]
        exact h i
      · exact h j
    obtain ⟨s, hs, hrep⟩ := (h i).join (fun s => if j = i then s else sets j) hrepj hother
      hop.1 hop.2
    exact ⟨Function.update sets i s, by rw [apply, hs]; rfl, hupdate i hrep⟩

/-- Valid operations do what they stand for. -/
theorem run_represents (h : ∀ i, (sets i).Represents (elems i)) (hops : ValidAll elems ops) :
    ∃ sets', run sets ops = some sets' ∧ ∀ i, (sets' i).Represents (meanings elems ops i) := by
  induction ops generalizing sets elems with
  | nil => exact ⟨sets, rfl, h⟩
  | cons op ops ih =>
    obtain ⟨sets₁, happly, hsets₁⟩ := apply_represents h hops.1
    obtain ⟨sets', hrun, hsets'⟩ := ih hsets₁ hops.2
    refine ⟨sets', ?_, hsets'⟩
    rw [run, List.foldlM_cons, happly]
    exact hrun

end

end FastSetOp

/-- Whatever is inserted into and joined in a family of new sets, each of them stands for the set of
what was inserted: `search` decides membership, and `expand` writes the elements once each, in
increasing order and within its array, and returns their number, so that `ITERATE_SET` visits each
of them once. -/
theorem fastset_refines {ι : Type*} [DecidableEq ι] (memory : ι → ℕ → ℕ)
    (ops : List (FastSetOp ι)) (hops : FastSetOp.ValidAll (fun _ => ∅) ops) :
    ∃ sets, FastSetOp.run (fun i => FastSet.init (memory i)) ops = some sets ∧
      ∀ i, (∀ x < maxSize,
          (sets i).search x = some (decide (x ∈ FastSetOp.meanings (fun _ => ∅) ops i))) ∧
        ∀ n < maxSize, (∀ x ∈ FastSetOp.meanings (fun _ => ∅) ops i, x < n) → ∀ out,
          (∃ v, (sets i).expand n out =
              some ((FastSetOp.meanings (fun _ => ∅) ops i).card, v) ∧
            (FastSetOp.meanings (fun _ => ∅) ops i).card ≤ n ∧
            (List.range (FastSetOp.meanings (fun _ => ∅) ops i).card).map v =
              (FastSetOp.meanings (fun _ => ∅) ops i).sort) ∧
          (sets i).iterateSet n out = some (FastSetOp.meanings (fun _ => ∅) ops i).sort := by
  have hinit (i : ι) : (FastSet.init (memory i)).Represents ∅ := .init (memory i)
  obtain ⟨sets, hrun, hsets⟩ := FastSetOp.run_represents hinit hops
  refine ⟨sets, hrun, fun i => ⟨fun x hx => (hsets i).search hx, fun n hn hlt out => ?_⟩⟩
  obtain ⟨v, hexpand, hwritten⟩ := (hsets i).expand hn hlt out
  refine ⟨⟨v, hexpand, ?_, hwritten⟩, ?_⟩
  · have hsub : FastSetOp.meanings (fun _ => ∅) ops i ⊆ Finset.range n := fun x hx =>
      Finset.mem_range.2 (hlt x hx)
    simpa using Finset.card_le_card hsub
  · rw [FastSet.iterateSet, hexpand]
    exact congrArg some hwritten

/-- Two sets of one element each, joined. -/
theorem fastset_refines_joined : ∃ sets,
    FastSetOp.run (fun _ : Bool => FastSet.init fun _ => 0)
      [.insert true 7, .insert false 5, .join false true 8] = some sets ∧
    (sets false).search 7 = some true := by
  have hops : FastSetOp.ValidAll (fun _ : Bool => ∅)
      [.insert true 7, .insert false 5, .join false true 8] := by
    refine ⟨(by decide : 7 < maxSize), (by decide : 5 < maxSize), ⟨by decide, fun x hx => ?_⟩,
      trivial⟩
    have hx7 : x = 7 := by simpa [FastSetOp.meaning] using hx
    omega
  obtain ⟨sets, hrun, hsets⟩ := fastset_refines (fun _ _ => 0) _ hops
  refine ⟨sets, hrun, ?_⟩
  rw [(hsets false).1 7 (by decide)]
  simp [FastSetOp.meanings, FastSetOp.meaning]

end Arishem
