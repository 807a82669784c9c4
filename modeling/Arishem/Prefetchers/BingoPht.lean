import Arishem.Prefetchers.Bingo
import Arishem.Prefetchers.LruCaches
import Mathlib.Data.List.GetD

/-!
# The pattern history table of Bingo

Patterns are stored as if their region began at its first block, and rotated back. The index depends on
the program counter and the offset only, so that all keys with the same ones are in one set; there the
upper part of a tag tells the other addresses apart.
-/

namespace Arishem

namespace Bingo

open SetAssociativeCache LruCache

/-! ## Rotation -/

section
variable {x : List Bool} {o : ℕ}

theorem length_myRotate (x : List Bool) (n : ℤ) : (myRotate x n).length = x.length := by
  simp [myRotate]

/-- A rotation by an offset. -/
theorem getD_myRotate (ho : o < x.length) {i : ℕ} (hi : i < x.length) :
    (myRotate x o).getD i false = x.getD ((i + (x.length - o)) % x.length) false := by
  have hn : ((o : ℤ)).tmod x.length = o := Int.tmod_eq_of_lt (by omega) (by omega)
  have hsum : (i : ℤ) - o + x.length = ((i + (x.length - o) : ℕ) : ℤ) := by omega
  have hmod : ((i : ℤ) - o + x.length).tmod x.length = (((i + (x.length - o)) % x.length : ℕ) : ℤ) := by
    rw [hsum]
    exact (Int.ofNat_tmod _ _).symm
  have hlt : i < (myRotate x o).length := length_myRotate x o ▸ hi
  rw [List.getD_eq_getElem _ _ hlt]
  simp only [myRotate, List.getElem_map, List.getElem_range, hn, hmod, Int.toNat_natCast]

theorem getD_myRotate_neg (ho : o < x.length) {i : ℕ} (hi : i < x.length) :
    (myRotate x (-(o : ℤ))).getD i false = x.getD ((i + o) % x.length) false := by
  have hn : (-(o : ℤ)).tmod x.length = -o := by
    rw [Int.neg_tmod, Int.tmod_eq_of_lt (by omega) (by omega)]
  have hsum : (i : ℤ) - -o + x.length = ((i + o + x.length : ℕ) : ℤ) := by omega
  have hmod : ((i : ℤ) - -o + x.length).tmod x.length = (((i + o) % x.length : ℕ) : ℤ) := by
    rw [hsum, ← Int.ofNat_tmod, Nat.add_mod_right]
  have hlt : i < (myRotate x (-(o : ℤ))).length := length_myRotate x _ ▸ hi
  rw [List.getD_eq_getElem _ _ hlt]
  simp only [myRotate, List.getElem_map, List.getElem_range, hn, hmod, Int.toNat_natCast]

/-- A pattern that is rotated and rotated back. -/
theorem myRotate_myRotate (ho : o < x.length) : myRotate (myRotate x (-(o : ℤ))) o = x := by
  refine List.ext_getElem (by rw [length_myRotate, length_myRotate]) fun i hi hi' => ?_
  have hlen : (myRotate x (-(o : ℤ))).length = x.length := length_myRotate _ _
  have hlt : (i + (x.length - o)) % x.length < x.length := Nat.mod_lt _ (by omega)
  have hback : ((i + (x.length - o)) % x.length + o) % x.length = i := by
    rw [Nat.mod_add_mod, show i + (x.length - o) + o = i + x.length by omega, Nat.add_mod_right,
      Nat.mod_eq_of_lt hi']
  rw [← List.getD_eq_getElem _ false hi, ← List.getD_eq_getElem _ false hi']
  rw [getD_myRotate (hlen ▸ ho) (hlen ▸ hi'), hlen, getD_myRotate_neg ho hlt, hback]

end

/-! ## Keys -/

section
variable {k : Knobs} {pc pc' address address' : ℕ}

/-- Widths and sizes that fit together. -/
structure Knobs.Valid (k : Knobs) : Prop where
  phtSets : k.pht.numSets = 2 ^ k.pht.indexLen
  indexLen_le : k.pht.indexLen ≤ k.pcWidth + k.minAddrWidth
  minAddrWidth_le : k.minAddrWidth ≤ k.maxAddrWidth
  patternLen_dvd : k.patternLen ∣ 2 ^ k.minAddrWidth

/-- The same program counter and offset, as far as they are kept. -/
def SameOffset (k : Knobs) (pc address pc' address' : ℕ) : Prop :=
  pc % 2 ^ k.pcWidth = pc' % 2 ^ k.pcWidth ∧
    address % 2 ^ k.minAddrWidth = address' % 2 ^ k.minAddrWidth

/-- The same program counter and address, as far as they are kept. -/
def SameAddress (k : Knobs) (pc address pc' address' : ℕ) : Prop :=
  pc % 2 ^ k.pcWidth = pc' % 2 ^ k.pcWidth ∧
    address % 2 ^ k.maxAddrWidth = address' % 2 ^ k.maxAddrWidth

/-- The part of a key that the index comes from, before it is hashed. -/
def plainKey (k : Knobs) (pc address : ℕ) : ℕ :=
  pc % 2 ^ k.pcWidth * 2 ^ k.minAddrWidth + address % 2 ^ k.minAddrWidth

theorem plainKey_lt (k : Knobs) (pc address : ℕ) :
    plainKey k pc address < 2 ^ (k.pcWidth + k.minAddrWidth) := by
  have hpc := Nat.mod_lt pc (Nat.two_pow_pos k.pcWidth)
  have hoffset := Nat.mod_lt address (Nat.two_pow_pos k.minAddrWidth)
  rw [plainKey, Nat.pow_add]
  calc pc % 2 ^ k.pcWidth * 2 ^ k.minAddrWidth + address % 2 ^ k.minAddrWidth
    _ < pc % 2 ^ k.pcWidth * 2 ^ k.minAddrWidth + 2 ^ k.minAddrWidth := Nat.add_lt_add_left hoffset _
    _ = (pc % 2 ^ k.pcWidth + 1) * 2 ^ k.minAddrWidth := by rw [Nat.succ_mul]
    _ ≤ 2 ^ k.pcWidth * 2 ^ k.minAddrWidth := Nat.mul_le_mul_right _ hpc

theorem plainKey_eq_iff : plainKey k pc address = plainKey k pc' address' ↔
    SameOffset k pc address pc' address' := by
  have hpos := Nat.two_pow_pos k.minAddrWidth
  have hmod : ∀ pc address, plainKey k pc address % 2 ^ k.minAddrWidth =
      address % 2 ^ k.minAddrWidth := by
    intro pc address
    rw [plainKey, Nat.mul_add_mod_self_right, Nat.mod_mod]
  have hdiv : ∀ pc address, plainKey k pc address / 2 ^ k.minAddrWidth = pc % 2 ^ k.pcWidth := by
    intro pc address
    rw [plainKey, Nat.add_comm, Nat.add_mul_div_right _ _ hpos,
      Nat.div_eq_of_lt (Nat.mod_lt _ hpos), Nat.zero_add]
  constructor
  · intro heq
    refine ⟨?_, ?_⟩
    · rw [← hdiv pc address, heq, hdiv]
    · rw [← hmod pc address, heq, hmod]
  · rintro ⟨hpc, haddress⟩
    rw [plainKey, plainKey, hpc, haddress]

/-- The hash stays within the bits of what it hashes. -/
theorem hashIndex_lt {value width indexLen : ℕ} (hvalue : value < 2 ^ width)
    (hle : indexLen ≤ width) : hashIndex value indexLen < 2 ^ width := by
  have hshift := hashIndex_shiftRight value indexLen
  rw [Nat.shiftRight_eq_div_pow, Nat.shiftRight_eq_div_pow] at hshift
  have hpow : 2 ^ width = 2 ^ (width - indexLen) * 2 ^ indexLen := by
    rw [← Nat.pow_add, Nat.sub_add_cancel hle]
  rw [hpow, ← Nat.div_lt_iff_lt_mul (Nat.two_pow_pos _)] at hvalue ⊢
  rwa [hshift]

/-- A key: the base above the hashed part. -/
theorem phtKey_eq (hk : k.Valid) (pc address : ℕ) : phtKey k pc address =
    address % 2 ^ k.maxAddrWidth / 2 ^ k.minAddrWidth * 2 ^ (k.pcWidth + k.minAddrWidth) +
      hashIndex (plainKey k pc address) k.pht.indexLen := by
  have hoffset : address % 2 ^ k.maxAddrWidth % 2 ^ k.minAddrWidth = address % 2 ^ k.minAddrWidth :=
    Nat.mod_mod_of_dvd _ (Nat.pow_dvd_pow 2 hk.minAddrWidth_le)
  have hplain : ((pc % 2 ^ k.pcWidth) <<< k.minAddrWidth) |||
      (address % 2 ^ k.minAddrWidth) = plainKey k pc address := by
    rw [← Nat.shiftLeft_add_eq_or_of_lt (Nat.mod_lt _ (Nat.two_pow_pos _)), Nat.shiftLeft_eq, plainKey]
  have hlt := hashIndex_lt (plainKey_lt k pc address) hk.indexLen_le
  simp only [phtKey]
  rw [hoffset, hplain, ← Nat.shiftLeft_add_eq_or_of_lt hlt, Nat.shiftLeft_eq,
    Nat.shiftRight_eq_div_pow]

/-- The hashed part of a key. -/
theorem phtKey_mod (hk : k.Valid) (pc address : ℕ) :
    phtKey k pc address % 2 ^ (k.pcWidth + k.minAddrWidth) =
      hashIndex (plainKey k pc address) k.pht.indexLen := by
  rw [phtKey_eq hk, Nat.mul_add_mod_self_right,
    Nat.mod_eq_of_lt (hashIndex_lt (plainKey_lt k pc address) hk.indexLen_le)]

/-- The base of a key. -/
theorem phtKey_div (hk : k.Valid) (pc address : ℕ) :
    phtKey k pc address / 2 ^ (k.pcWidth + k.minAddrWidth) =
      address % 2 ^ k.maxAddrWidth / 2 ^ k.minAddrWidth := by
  rw [phtKey_eq hk, Nat.add_comm, Nat.add_mul_div_right _ _ (Nat.two_pow_pos _),
    Nat.div_eq_of_lt (hashIndex_lt (plainKey_lt k pc address) hk.indexLen_le), Nat.zero_add]

theorem phtKey_eq_iff (hk : k.Valid) :
    phtKey k pc address = phtKey k pc' address' ↔ SameAddress k pc address pc' address' := by
  have hoffset : ∀ address, address % 2 ^ k.maxAddrWidth % 2 ^ k.minAddrWidth =
      address % 2 ^ k.minAddrWidth := fun address =>
    Nat.mod_mod_of_dvd _ (Nat.pow_dvd_pow 2 hk.minAddrWidth_le)
  constructor
  · intro heq
    have hplain : plainKey k pc address = plainKey k pc' address' := by
      refine hashIndex_injective k.pht.indexLen ?_
      dsimp only
      rw [← phtKey_mod hk, ← phtKey_mod hk, heq]
    have hbase := phtKey_div hk pc address
    rw [heq, phtKey_div hk] at hbase
    obtain ⟨hpc, hmod⟩ := plainKey_eq_iff.1 hplain
    rw [← hoffset address, ← hoffset address'] at hmod
    refine ⟨hpc, ?_⟩
    rw [← Nat.div_add_mod (address % 2 ^ k.maxAddrWidth) (2 ^ k.minAddrWidth), ← hbase, hmod,
      Nat.div_add_mod]
  · rintro ⟨hpc, haddress⟩
    have hplain : plainKey k pc address = plainKey k pc' address' := by
      refine plainKey_eq_iff.2 ⟨hpc, ?_⟩
      rw [← hoffset address, ← hoffset address', haddress]
    rw [phtKey_eq hk, phtKey_eq hk, hplain, haddress]

theorem phtSets_mul (hk : k.Valid) : 2 ^ (k.pcWidth + k.minAddrWidth) =
    k.pht.numSets * 2 ^ (k.pcWidth + k.minAddrWidth - k.pht.indexLen) := by
  rw [hk.phtSets, ← Nat.pow_add, Nat.add_sub_cancel' hk.indexLen_le]

/-- The set of a key is that of its hashed part. -/
theorem phtKey_index (hk : k.Valid) (pc address : ℕ) : phtKey k pc address % k.pht.numSets =
    hashIndex (plainKey k pc address) k.pht.indexLen % k.pht.numSets := by
  rw [← phtKey_mod hk, Nat.mod_mod_of_dvd _ ⟨_, phtSets_mul hk⟩]

/-- In one set the lower parts of the tags agree when the program counters and offsets do. -/
theorem minMatch_iff (hk : k.Valid)
    (hset : phtKey k pc address % k.pht.numSets = phtKey k pc' address' % k.pht.numSets) :
    phtKey k pc address / k.pht.numSets % 2 ^ (k.pcWidth + k.minAddrWidth - k.pht.indexLen) =
        phtKey k pc' address' / k.pht.numSets %
          2 ^ (k.pcWidth + k.minAddrWidth - k.pht.indexLen) ↔
      SameOffset k pc address pc' address' := by
  have htag : ∀ pc address, phtKey k pc address / k.pht.numSets %
      2 ^ (k.pcWidth + k.minAddrWidth - k.pht.indexLen) =
        hashIndex (plainKey k pc address) k.pht.indexLen / k.pht.numSets := by
    intro pc address
    rw [← phtKey_mod hk, phtSets_mul hk, Nat.mod_mul_right_div_self]
  rw [phtKey_index hk, phtKey_index hk] at hset
  rw [htag, htag, ← plainKey_eq_iff]
  constructor
  · intro heq
    refine hashIndex_injective k.pht.indexLen ?_
    dsimp only
    rw [← Nat.div_add_mod (hashIndex (plainKey k pc address) k.pht.indexLen) k.pht.numSets, heq,
      hset, Nat.div_add_mod]
  · intro heq
    rw [heq]

/-- In one set the tags agree when the keys do. -/
theorem maxMatch_iff (hk : k.Valid)
    (hset : phtKey k pc address % k.pht.numSets = phtKey k pc' address' % k.pht.numSets) :
    phtKey k pc address / k.pht.numSets % 2 ^ (k.pcWidth + k.maxAddrWidth - k.pht.indexLen) =
        phtKey k pc' address' / k.pht.numSets %
          2 ^ (k.pcWidth + k.maxAddrWidth - k.pht.indexLen) ↔
      phtKey k pc address = phtKey k pc' address' := by
  have hle : k.pht.indexLen ≤ k.pcWidth + k.maxAddrWidth :=
    hk.indexLen_le.trans (Nat.add_le_add_left hk.minAddrWidth_le _)
  have hlt : ∀ pc address, phtKey k pc address / k.pht.numSets <
      2 ^ (k.pcWidth + k.maxAddrWidth - k.pht.indexLen) := by
    intro pc address
    have hbase : address % 2 ^ k.maxAddrWidth / 2 ^ k.minAddrWidth <
        2 ^ (k.maxAddrWidth - k.minAddrWidth) := by
      rw [Nat.div_lt_iff_lt_mul (Nat.two_pow_pos _), ← Nat.pow_add,
        Nat.sub_add_cancel hk.minAddrWidth_le]
      exact Nat.mod_lt _ (Nat.two_pow_pos _)
    have hwidth : k.maxAddrWidth - k.minAddrWidth + (k.pcWidth + k.minAddrWidth) =
        k.pcWidth + k.maxAddrWidth := by
      have hle := hk.minAddrWidth_le
      omega
    rw [← phtKey_div hk pc, Nat.div_lt_iff_lt_mul (Nat.two_pow_pos _), ← Nat.pow_add,
      hwidth] at hbase
    rw [hk.phtSets, Nat.div_lt_iff_lt_mul (Nat.two_pow_pos _), ← Nat.pow_add,
      Nat.sub_add_cancel hle]
    exact hbase
  rw [Nat.mod_eq_of_lt (hlt _ _), Nat.mod_eq_of_lt (hlt _ _)]
  constructor
  · intro heq
    rw [← Nat.div_add_mod (phtKey k pc address) k.pht.numSets, heq, hset, Nat.div_add_mod]
  · intro heq
    rw [heq]

/-! ## Lookups -/

/-- The entries have keys and patterns that were stored by `insert`. -/
structure PhtOk (k : Knobs) (pht : PatternHistoryTable) : Prop where
  wellFormed : pht.WellFormed k.pht
  stored : ∀ key pattern, pht.data? k.pht key = some pattern →
    pattern.length = k.patternLen ∧ ∃ pc address, key = phtKey k pc address

/-- The lower tag of a way agrees. -/
def MinMatch (k : Knobs) (pht : PatternHistoryTable) (index tag way : ℕ) : Prop :=
  (pht.entries index way).valid = true ∧
    (pht.entries index way).tag % 2 ^ (k.pcWidth + k.minAddrWidth - k.pht.indexLen) =
      tag % 2 ^ (k.pcWidth + k.minAddrWidth - k.pht.indexLen)

/-- The tag of a way agrees. -/
def MaxMatch (k : Knobs) (pht : PatternHistoryTable) (index tag way : ℕ) : Prop :=
  (pht.entries index way).valid = true ∧
    (pht.entries index way).tag % 2 ^ (k.pcWidth + k.maxAddrWidth - k.pht.indexLen) =
      tag % 2 ^ (k.pcWidth + k.maxAddrWidth - k.pht.indexLen)

instance decidableMinMatch (k : Knobs) (pht : PatternHistoryTable) (index tag way : ℕ) :
    Decidable (MinMatch k pht index tag way) :=
  inferInstanceAs (Decidable (_ ∧ _))

section
variable {pht : PatternHistoryTable} {index tag : ℕ}

/-- The loop stops at the first way whose tag agrees. -/
theorem scanWays_hit {ways : List ℕ} (h : ∃ way ∈ ways, MaxMatch k pht index tag way)
    (found : List (List Bool)) (lastEvent : Event) :
    ∃ way ∈ ways, MaxMatch k pht index tag way ∧
      scanWays k pht index tag ways found lastEvent =
        (pht.setMru k.pht (pht.entries index way).key, [(pht.entries index way).data], .pcAddress) := by
  induction ways generalizing found lastEvent with
  | nil => exact absurd h (by simp)
  | cons way ways ih =>
    by_cases hway : MaxMatch k pht index tag way
    · refine ⟨way, List.mem_cons_self .., hway, ?_⟩
      rw [scanWays, if_neg (by simp [hway.1]), if_pos hway.2]
    · have hrest : ∃ way ∈ ways, MaxMatch k pht index tag way := by
        obtain ⟨v, hv, hmatch⟩ := h
        rcases List.mem_cons.1 hv with rfl | hv
        · exact absurd hmatch hway
        · exact ⟨v, hv, hmatch⟩
      have hskip : ∀ found lastEvent, ∃ v ∈ way :: ways, MaxMatch k pht index tag v ∧
          scanWays k pht index tag ways found lastEvent =
            (pht.setMru k.pht (pht.entries index v).key, [(pht.entries index v).data],
              .pcAddress) := by
        intro found lastEvent
        obtain ⟨v, hv, hmatch, hscan⟩ := ih hrest found lastEvent
        exact ⟨v, List.mem_cons_of_mem _ hv, hmatch, hscan⟩
      rw [scanWays]
      split
      · exact hskip _ _
      · rename_i hvalid
        rw [if_neg fun htag => hway ⟨by simpa using hvalid, htag⟩]
        split <;> exact hskip _ _

/-- When no tag agrees, the loop collects the ways whose lower tag does. -/
theorem scanWays_miss {ways : List ℕ} (h : ∀ way ∈ ways, ¬MaxMatch k pht index tag way)
    (found : List (List Bool)) (lastEvent : Event) :
    scanWays k pht index tag ways found lastEvent =
      (pht, found ++ (ways.filter fun way => MinMatch k pht index tag way).map
          (fun way => (pht.entries index way).data),
        if ∃ way ∈ ways, MinMatch k pht index tag way then .pcOffset else lastEvent) := by
  induction ways generalizing found lastEvent with
  | nil => simp [scanWays]
  | cons way ways ih =>
    obtain ⟨hway, hways⟩ := List.forall_mem_cons.1 h
    rw [scanWays]
    split
    · rename_i hvalid
      have hmin : ¬MinMatch k pht index tag way := by
        rintro ⟨hmatch, -⟩
        rw [hvalid] at hmatch
        exact absurd hmatch (by simp)
      rw [ih hways]
      simp [hmin]
    · rename_i hvalid
      rw [if_neg fun htag => hway ⟨by simpa using hvalid, htag⟩]
      split
      · rename_i htag
        have hmin : MinMatch k pht index tag way := ⟨by simpa using hvalid, htag⟩
        rw [ih hways]
        simp [hmin]
      · rename_i htag
        have hmin : ¬MinMatch k pht index tag way := fun hmatch => htag hmatch.2
        rw [ih hways]
        simp [hmin]

/-- What a valid way of the set of a key has. -/
theorem PhtOk.way (h : PhtOk k pht) {way : ℕ} (hway : way < k.pht.numWays)
    (hvalid : (pht.entries index way).valid = true) :
    ∃ pc' address', (pht.entries index way).key = phtKey k pc' address' ∧
      phtKey k pc' address' % k.pht.numSets = index ∧
      (pht.entries index way).tag = phtKey k pc' address' / k.pht.numSets ∧
      pht.find k.pht (phtKey k pc' address') = some way ∧
      pht.data? k.pht (phtKey k pc' address') = some (pht.entries index way).data := by
  obtain ⟨hmod, htag, hfind⟩ := h.wellFormed.find_of_valid hway hvalid
  have hdata := data?_of_find hfind
  rw [hmod] at hdata
  obtain ⟨-, pc', address', hkey⟩ := h.stored _ _ hdata
  rw [hkey] at hmod htag hfind hdata
  exact ⟨pc', address', hkey, hmod, htag, hfind, hdata⟩

/-- A lookup of a key in the table finds its pattern alone. -/
theorem phtFind_hit (hk : k.Valid) (h : PhtOk k pht) {pattern : List Bool}
    (hdata : pht.data? k.pht (phtKey k pc address) = some pattern) :
    phtFind k pht pc address = (pht.setMru k.pht (phtKey k pc address),
      [myRotate pattern ((address % k.patternLen : ℕ) : ℤ)], .pcAddress) := by
  obtain ⟨w, hfind, hw⟩ := Option.map_eq_some_iff.1 hdata
  obtain ⟨hlt, hvalid, hkey⟩ := h.wellFormed.find_some hfind
  have htag := (h.wellFormed.find_of_valid hlt hvalid).2.1
  have hmatch : ∃ way ∈ List.range k.pht.numWays, MaxMatch k pht (phtKey k pc address % k.pht.numSets)
      (phtKey k pc address / k.pht.numSets) way := by
    refine ⟨w, List.mem_range.2 hlt, hvalid, ?_⟩
    rw [htag, hkey]
  obtain ⟨v, hv, ⟨hvalid', htag'⟩, hscan⟩ := scanWays_hit hmatch [] .miss
  obtain ⟨pc', address', hkey', hmod', htag'', hfind', -⟩ := h.way (List.mem_range.1 hv) hvalid'
  rw [htag''] at htag'
  have hsame := (maxMatch_iff hk hmod').1 htag'
  rw [hsame, hfind] at hfind'
  obtain rfl := Option.some.inj hfind'
  rw [phtFind]
  simp only [hscan, hkey, hw, List.map_cons, List.map_nil]

/-- A lookup of another key finds the patterns of its program counter and offset. -/
theorem phtFind_miss (hk : k.Valid) (h : PhtOk k pht)
    (hnone : pht.data? k.pht (phtKey k pc address) = none) :
    (phtFind k pht pc address).1 = pht ∧ (phtFind k pht pc address).2.2 ≠ .pcAddress ∧
    (∀ q ∈ (phtFind k pht pc address).2.1, ∃ pc' address' pattern,
      pht.data? k.pht (phtKey k pc' address') = some pattern ∧
      SameOffset k pc' address' pc address ∧
      q = myRotate pattern ((address % k.patternLen : ℕ) : ℤ)) ∧
    ∀ pc' address' pattern, pht.data? k.pht (phtKey k pc' address') = some pattern →
      SameOffset k pc' address' pc address →
        (phtFind k pht pc address).2.2 = .pcOffset ∧
        myRotate pattern ((address % k.patternLen : ℕ) : ℤ) ∈ (phtFind k pht pc address).2.1 := by
  have hmiss : ∀ way ∈ List.range k.pht.numWays, ¬MaxMatch k pht
      (phtKey k pc address % k.pht.numSets) (phtKey k pc address / k.pht.numSets) way := by
    rintro way hway ⟨hvalid, htag⟩
    obtain ⟨pc', address', -, hmod, htag', -, hdata⟩ := h.way (List.mem_range.1 hway) hvalid
    rw [htag'] at htag
    rw [(maxMatch_iff hk hmod).1 htag, hnone] at hdata
    exact absurd hdata (by simp)
  have hscan := scanWays_miss hmiss [] .miss
  have hfind : phtFind k pht pc address = (pht,
      (((List.range k.pht.numWays).filter fun way => MinMatch k pht
        (phtKey k pc address % k.pht.numSets) (phtKey k pc address / k.pht.numSets) way).map
          fun way => (pht.entries (phtKey k pc address % k.pht.numSets) way).data).map
        fun pattern => myRotate pattern ((address % k.patternLen : ℕ) : ℤ),
      if ∃ way ∈ List.range k.pht.numWays, MinMatch k pht (phtKey k pc address % k.pht.numSets)
        (phtKey k pc address / k.pht.numSets) way then .pcOffset else .miss) := by
    rw [phtFind]
    simp only [hscan, List.nil_append]
  rw [hfind]
  refine ⟨rfl, by dsimp only; split <;> simp, fun q hq => ?_, fun pc' address' pattern hdata hsame => ?_⟩
  · rw [List.map_map] at hq
    obtain ⟨way, hway, rfl⟩ := List.mem_map.1 hq
    obtain ⟨hmem, hmatch⟩ := List.mem_filter.1 hway
    obtain ⟨hvalid, htag⟩ := of_decide_eq_true hmatch
    obtain ⟨pc', address', -, hmod, htag', -, hdata⟩ := h.way (List.mem_range.1 hmem) hvalid
    rw [htag'] at htag
    exact ⟨pc', address', _, hdata, (minMatch_iff hk hmod).1 htag, rfl⟩
  · obtain ⟨w, hfind', hw⟩ := Option.map_eq_some_iff.1 hdata
    obtain ⟨hlt, hvalid, hkey⟩ := h.wellFormed.find_some hfind'
    have htag := (h.wellFormed.find_of_valid hlt hvalid).2.1
    have hset : phtKey k pc' address' % k.pht.numSets = phtKey k pc address % k.pht.numSets := by
      rw [phtKey_index hk, phtKey_index hk, plainKey_eq_iff.2 hsame]
    rw [hset] at hvalid hkey htag hw
    rw [hkey] at htag
    have hmatch : MinMatch k pht (phtKey k pc address % k.pht.numSets)
        (phtKey k pc address / k.pht.numSets) w := by
      refine ⟨hvalid, ?_⟩
      rw [htag]
      exact (minMatch_iff hk hset).2 hsame
    refine ⟨if_pos ⟨w, List.mem_range.2 hlt, hmatch⟩, ?_⟩
    rw [List.map_map]
    refine List.mem_map.2 ⟨w, List.mem_filter.2 ⟨List.mem_range.2 hlt, decide_eq_true hmatch⟩, ?_⟩
    rw [Function.comp_apply, hw]

end

end

end Bingo

end Arishem
