import Arishem.Prefetchers.SppTables

/-!
# The pages of SPP

The signature table holds the pages that were accessed last, by the low bits of their numbers, and
the signature of a page is folded over the deltas of its stay in the table. A page may enter with
the signature of a prefetch that left another page; four deltas later this start is forgotten.
-/

namespace Arishem

namespace Spp

/-- The deltas between the offsets of a stay, without those that are 0. -/
def moves (offsets : List ℕ) : List ℤ :=
  (List.zipWith (fun back offset : ℕ => (offset : ℤ) - back) offsets offsets.tail).filter (· ≠ 0)

/-- The signature step is the one of the code of SPP. -/
theorem nextSig_eq : nextSig = Scooby.StEntry.signatureStep Scooby.StEntry.sppCode := rfl

theorem nextSig_lt (sig : ℕ) (delta : ℤ) : nextSig sig delta < 2 ^ 12 :=
  nextSig_eq ▸ Scooby.StEntry.signatureStep_lt sig delta

/-- The next offset of a stay. -/
theorem moves_snoc (a b : ℕ) (l : List ℕ) : moves (l ++ [a, b]) =
    moves (l ++ [a]) ++ if (b : ℤ) - a ≠ 0 then [(b : ℤ) - a] else [] := by
  have hzip : List.zipWith (fun back offset : ℕ => (offset : ℤ) - back) (l ++ [a, b])
      (l ++ [a, b]).tail = List.zipWith (fun back offset : ℕ => (offset : ℤ) - back) (l ++ [a])
      (l ++ [a]).tail ++ [(b : ℤ) - a] := by
    induction l with
    | nil => rfl
    | cons c l ih =>
      cases l with
      | nil => rfl
      | cons d l =>
        simp only [List.cons_append, List.tail_cons, List.zipWith_cons_cons] at ih ⊢
        rw [ih]
  rw [moves, hzip, List.filter_append, moves]
  congr 1
  by_cases hne : (b : ℤ) - a ≠ 0 <;> simp [hne]

namespace SignatureTable

/-- An access: the tag of its page, and its offset. -/
abbrev Visit := ℕ × ℕ

/-- The entry of a page after the offsets of its stay. -/
def Records (offsets : List ℕ) (lastOffset sig : ℕ) : Prop :=
  offsets.getLast? = some lastOffset ∧ lastOffset < 64 ∧
    ∃ start < 2 ^ 12, sig = (moves offsets).foldl nextSig start

/-- The table after some accesses, with its ways in use in the order of their last access. -/
structure Tracks (t : SignatureTable) (order : List ℕ) (visits : List Visit) : Prop where
  holds : LruTable.Holds stWay t.tag order (visits.map Prod.fst)
  byRank : LruTable.ByRank stWay t.lru order
  valid_iff : ∀ way < stWay, t.valid way = true ↔ way ∈ order
  records : ∀ way ∈ order,
    Records (LruTable.stay stWay (t.tag way) visits) (t.lastOffset way) (t.sig way)

section
variable {t t' : SignatureTable} {ghr : GlobalRegister} {order : List ℕ} {visits : List Visit}
  {way tag pageOffset sig mru : ℕ} {lru : ℕ → ℕ}

/-! ## The LRU order -/

/-- The assert of the loop holds, and the loop makes room. -/
theorem promoteLoop_eq (ways : List ℕ) (h : lru mru < stWay) :
    promoteLoop mru ways lru = some (Ranks.shift (lru mru) ways lru) := by
  induction ways generalizing lru with
  | nil => rfl
  | cons way ways ih =>
    rw [promoteLoop, List.foldlM_cons]
    have hshift : Ranks.shift (lru mru) (way :: ways) lru = Ranks.shift (lru mru) ways
        (if lru way < lru mru then Function.update lru way (lru way + 1) else lru) := rfl
    rw [hshift]
    by_cases hlt : lru way < lru mru
    · have hne : mru ≠ way := by
        rintro rfl
        exact absurd hlt (lt_irrefl _)
      have hsame : Function.update lru way (lru way + 1) mru = lru mru := Function.update_of_ne hne ..
      have hnext := @ih (Function.update lru way (lru way + 1)) (by rwa [hsame])
      rw [if_pos hlt, if_pos hlt, if_neg (by omega)]
      rw [hsame] at hnext
      exact hnext
    · rw [if_neg hlt, if_neg hlt]
      exact ih h

/-- The touched way becomes the most recent one. -/
theorem promote_eq (t : SignatureTable) (h : t.lru mru < stWay) :
    t.promote mru = some { t with lru := Ranks.touch stWay mru t.lru } := by
  rw [promote, promoteLoop_eq _ h, Option.map_some, Ranks.update_shift]

/-! ## One access -/

theorem Tracks.init : Tracks init [] [] where
  holds := LruTable.Holds.nil _ _
  byRank := LruTable.ByRank.nil (Ranks.Ranked.id _)
  valid_iff _ _ := ⟨fun h => absurd h Bool.false_ne_true, fun h => absurd h List.not_mem_nil⟩
  records _ h := absurd h List.not_mem_nil

/-- The other pages keep their entries. -/
theorem Tracks.records_of_ne (h : Tracks t order visits) {v : ℕ} (hv : v ∈ order)
    (hne : t.tag v ≠ tag) (pageOffset : ℕ) :
    Records (LruTable.stay stWay (t.tag v) (visits ++ [(tag, pageOffset)])) (t.lastOffset v)
      (t.sig v) := by
  rw [LruTable.stay_other hne.symm]
  exact h.records v hv

/-- The next offset of a page. -/
theorem Records.move {offsets : List ℕ} {lastOffset : ℕ} (h : Records offsets lastOffset sig)
    (hlt : pageOffset < 64) (hne : (pageOffset : ℤ) - lastOffset ≠ 0) :
    Records (offsets ++ [pageOffset]) pageOffset (nextSig sig (pageOffset - lastOffset)) := by
  obtain ⟨hlast, -, start, hstart, rfl⟩ := h
  obtain ⟨l, rfl⟩ := List.getLast?_eq_some_iff.1 hlast
  refine ⟨by simp, hlt, start, hstart, ?_⟩
  rw [List.append_assoc, List.singleton_append, moves_snoc, if_pos hne, List.foldl_append]
  rfl

/-- The same offset again. -/
theorem Records.stand {offsets : List ℕ} (h : Records offsets pageOffset sig) :
    Records (offsets ++ [pageOffset]) pageOffset sig := by
  obtain ⟨hlast, hlt, start, hstart, rfl⟩ := h
  obtain ⟨l, rfl⟩ := List.getLast?_eq_some_iff.1 hlast
  refine ⟨by simp, hlt, start, hstart, ?_⟩
  rw [List.append_assoc, List.singleton_append, moves_snoc, if_neg (by simp), List.append_nil]

/-- An access to a page that is held. -/
theorem Tracks.hit (h : Tracks t order visits) (hpage : pageOffset < 64) (hway : way ∈ order) :
    Tracks { (t.hit way pageOffset).1 with lru := Ranks.touch stWay way t.lru }
      (LruTable.touched order way) (visits ++ [(t.tag way, pageOffset)]) := by
  have hlt := h.holds.lt way hway
  have htag : (t.hit way pageOffset).1.tag = t.tag := by
    rw [SignatureTable.hit]
    split <;> rfl
  have hvalid : (t.hit way pageOffset).1.valid = t.valid := by
    rw [SignatureTable.hit]
    split <;> rfl
  have hrecent : t.tag way ∈ Recency.recent stWay (visits.map Prod.fst) :=
    h.holds.mem_recent.2 ⟨way, hway, rfl⟩
  refine ⟨?_, h.byRank.touch h.holds.lt h.holds.nodup hlt, fun v hv => ?_, fun v hv => ?_⟩
  · rw [htag, List.map_append]
    exact h.holds.hit hway
  · rw [hvalid, h.valid_iff v hv, LruTable.mem_touched]
    exact ⟨Or.inl, fun hor => hor.elim id fun heq => heq ▸ hway⟩
  · have hv : v ∈ order := by
      rcases LruTable.mem_touched.1 hv with hv | rfl
      · exact hv
      · exact hway
    dsimp only
    rw [htag]
    by_cases hvw : v = way
    · subst hvw
      have hrecords := h.records v hway
      rw [LruTable.stay_hit hrecent, SignatureTable.hit]
      split
      · rename_i hne
        dsimp only
        rw [Function.update_self, Function.update_self]
        exact hrecords.move hpage hne
      · rename_i hzero
        obtain hsame : pageOffset = t.lastOffset v := by omega
        dsimp only
        rw [← hsame] at hrecords ⊢
        exact hrecords.stand
    · have hne : t.tag v ≠ t.tag way := fun heq => hvw (h.holds.injOn v hv way hway heq)
      have hkeep := h.records_of_ne hv hne pageOffset
      rw [SignatureTable.hit]
      split
      · dsimp only
        rwa [Function.update_of_ne hvw, Function.update_of_ne hvw]
      · exact hkeep

/-- The way for a new page is free, or all ways are in use and it is the least recent one. -/
theorem Tracks.findWay (h : Tracks t order visits) : ∃ way < stWay, t.findWay = some way ∧
    (way ∈ order → order.length = stWay ∧ order.head? = some way) := by
  rw [SignatureTable.findWay]
  cases hfree : (List.range stWay).find? fun way => !t.valid way with
  | some way =>
    obtain ⟨hvalid, hmem, -⟩ := List.find?_range_eq_some.1 hfree
    have hlt := List.mem_range.1 hmem
    have hvalid : t.valid way = false := by simpa using hvalid
    refine ⟨way, hlt, rfl, fun hway => ?_⟩
    rw [(h.valid_iff way hlt).2 hway] at hvalid
    exact absurd hvalid (Ne.symm Bool.false_ne_true)
  | none =>
    have hall : ∀ way < stWay, way ∈ order := fun way hway => by
      have hnot := List.find?_eq_none.1 hfree way (List.mem_range.2 hway)
      exact (h.valid_iff way hway).1 (by simpa using hnot)
    obtain ⟨last, hlt, hrank⟩ := h.byRank.ranked.exists_rank (c := stWay - 1) (by decide)
    cases hlru : (List.range stWay).find? fun way => t.lru way == stWay - 1 with
    | none =>
      have hnot := List.find?_eq_none.1 hlru last (List.mem_range.2 hlt)
      exact absurd (by simpa using hrank) hnot
    | some way =>
      obtain ⟨hway, hmem, -⟩ := List.find?_range_eq_some.1 hlru
      have hway : t.lru way = stWay - 1 := by simpa using hway
      have hlt := List.mem_range.1 hmem
      exact ⟨way, hlt, rfl, fun hin =>
        ⟨h.holds.length_eq hall, h.byRank.head h.holds.lt hin hway⟩⟩

/-- An access to a page that is not held. -/
theorem Tracks.miss (h : Tracks t order visits) (ghr : GlobalRegister) (hpage : pageOffset < 64)
    (hlt : way < stWay)
    (hfull : way ∈ order → order.length = stWay ∧ order.head? = some way)
    (hkey : tag ∉ Recency.recent stWay (visits.map Prod.fst)) :
    Tracks { (t.miss ghr way tag pageOffset).1 with lru := Ranks.touch stWay way t.lru }
      (LruTable.touched order way) (visits ++ [(tag, pageOffset)]) := by
  have htag : (t.miss ghr way tag pageOffset).1.tag = Function.update t.tag way tag := by
    rw [SignatureTable.miss]
    split <;> rfl
  have hvalid : (t.miss ghr way tag pageOffset).1.valid = Function.update t.valid way true := by
    rw [SignatureTable.miss]
    split <;> rfl
  have hlast : (t.miss ghr way tag pageOffset).1.lastOffset =
      Function.update t.lastOffset way pageOffset := by
    rw [SignatureTable.miss]
    split <;> rfl
  have hsig : ∃ start < 2 ^ 12,
      (t.miss ghr way tag pageOffset).1.sig = Function.update t.sig way start := by
    rw [SignatureTable.miss]
    split
    · exact ⟨_, nextSig_lt _ _, Function.update_idem _ _ _⟩
    · exact ⟨0, by decide, rfl⟩
  obtain ⟨start, hstart, hsig⟩ := hsig
  refine ⟨?_, h.byRank.touch h.holds.lt h.holds.nodup hlt, fun v hv => ?_, fun v hv => ?_⟩
  · rw [htag, List.map_append]
    exact h.holds.replace hlt hkey hfull
  · rw [hvalid, LruTable.mem_touched]
    rcases eq_or_ne v way with rfl | hne
    · rw [Function.update_self]
      exact ⟨fun _ => .inr rfl, fun _ => rfl⟩
    · rw [Function.update_of_ne hne, h.valid_iff v hv]
      exact ⟨Or.inl, fun hor => hor.resolve_right hne⟩
  · dsimp only
    rw [htag, hlast, hsig]
    rcases eq_or_ne v way with rfl | hne
    · rw [Function.update_self, Function.update_self, Function.update_self,
        LruTable.stay_enter hkey]
      exact ⟨rfl, hpage, start, hstart, rfl⟩
    · rw [Function.update_of_ne hne, Function.update_of_ne hne, Function.update_of_ne hne]
      have hv : v ∈ order := (LruTable.mem_touched.1 hv).resolve_right hne
      refine h.records_of_ne hv (fun heq => hkey ?_) pageOffset
      exact h.holds.mem_recent.2 ⟨v, hv, heq⟩

/-! ## Runs -/

/-- What an access reads: the signature before a delta that is not 0, or none. -/
def SigRead.Bounded (r : SigRead) : Prop :=
  r.lastSig ≠ 0 → r.delta ≠ 0 ∧ -64 < r.delta ∧ r.delta < 64

theorem Tracks.hit_bounded (h : Tracks t order visits) (hpage : pageOffset < 64) (hway : way ∈ order) :
    SigRead.Bounded (t.hit way pageOffset).2 := by
  obtain ⟨-, hlast, -⟩ := h.records way hway
  rw [SignatureTable.hit]
  split
  · rename_i hne
    exact fun _ => ⟨hne, by dsimp only; omega, by dsimp only; omega⟩
  · exact fun hzero => absurd rfl hzero

theorem miss_bounded (t : SignatureTable) (ghr : GlobalRegister) (way tag pageOffset : ℕ) :
    SigRead.Bounded (t.miss ghr way tag pageOffset).2 := by
  rw [SignatureTable.miss]
  split <;> exact fun hzero => absurd rfl hzero

/-- `read_and_update_sig` finds a way for every access. -/
theorem Tracks.readAndUpdateSig (h : Tracks t order visits) (ghr : GlobalRegister) (page : UInt64)
    (hpage : pageOffset < 64) :
    ∃ t' r way, t.readAndUpdateSig ghr page pageOffset = some (t', r) ∧ SigRead.Bounded r ∧
      Tracks t' (LruTable.touched order way) (visits ++ [(partialPage page, pageOffset)]) := by
  rw [SignatureTable.readAndUpdateSig]
  cases hhit : t.hitWay (partialPage page) with
  | some way =>
    obtain ⟨hentry, hmem, -⟩ := List.find?_range_eq_some.1 hhit
    have hlt := List.mem_range.1 hmem
    obtain ⟨hvalid, htag⟩ := Bool.and_eq_true_iff.1 hentry
    have htag : t.tag way = partialPage page := by simpa using htag
    have hway := (h.valid_iff way hlt).1 hvalid
    have hlru : (t.hit way pageOffset).1.lru = t.lru := by
      rw [SignatureTable.hit]
      split <;> rfl
    have hpromote := promote_eq (t.hit way pageOffset).1
      (hlru ▸ h.byRank.ranked.lt way hlt)
    rw [hlru] at hpromote
    refine ⟨_, (t.hit way pageOffset).2, way, ?_, h.hit_bounded hpage hway,
      htag ▸ h.hit hpage hway⟩
    dsimp only
    rw [hpromote, Option.map_some]
  | none =>
    obtain ⟨way, hlt, hfind, hfull⟩ := h.findWay
    have hkey : partialPage page ∉ Recency.recent stWay (visits.map Prod.fst) := by
      intro hmem
      obtain ⟨v, hv, htag⟩ := h.holds.mem_recent.1 hmem
      have hvlt := h.holds.lt v hv
      have hnot := List.find?_eq_none.1 hhit v (List.mem_range.2 hvlt)
      simp [(h.valid_iff v hvlt).2 hv, htag] at hnot
    have hlru : (t.miss ghr way (partialPage page) pageOffset).1.lru = t.lru := by
      rw [SignatureTable.miss]
      split <;> rfl
    have hpromote := promote_eq (t.miss ghr way (partialPage page) pageOffset).1
      (hlru ▸ h.byRank.ranked.lt way hlt)
    rw [hlru] at hpromote
    refine ⟨_, (t.miss ghr way (partialPage page) pageOffset).2, way, ?_,
      miss_bounded t ghr way _ pageOffset, h.miss ghr hpage hlt hfull hkey⟩
    rw [hfind]
    dsimp only
    rw [hpromote, Option.map_some]

end

end SignatureTable

end Spp

end Arishem
