import Arishem.Cache.Blocks
import Arishem.Cache.Configs
import Arishem.Lib.Ranks

/-!
# The LRU order of a set

`lru_update` gives a way rank 0 and moves the ways up that were before it, in place and one after
the other. The constructor ranks the ways by their numbers, `fill_cache` and `invalidate_entry`
leave the ranks alone: in every set they are a permutation that orders the ways by their last
update, and so `lru_victim` finds a way.
-/

namespace Arishem

namespace Cache

section
variable (cfg : Config)

/-- The loop of `lru_update` over some ways; the rank of `way` itself is read in every round. -/
def lruShift (set way : ℕ) (ways : List ℕ) (blocks : ℕ → ℕ → Block) : ℕ → ℕ → Block :=
  ways.foldl
    (fun bs i =>
      if (bs set i).lru < (bs set way).lru then
        setBlock set i { bs set i with lru := (bs set i).lru + 1 } bs
      else bs)
    blocks

/-- `lru_update`, round by round. -/
def lruUpdateLoop (set way : ℕ) (blocks : ℕ → ℕ → Block) : ℕ → ℕ → Block :=
  let bs := lruShift set way (List.range cfg.numWay) blocks
  setBlock set way { bs set way with lru := 0 } bs

/-- The ranks of a set. -/
def rank (c : Cache) (set way : ℕ) : ℕ := (c.block set way).lru

end

section
variable {cfg : Config} {set way s w : ℕ} {ways : List ℕ}

/-- The loop moves each way up once, and the way itself not at all. -/
theorem lruShift_apply (hn : ways.Nodup) (bs : ℕ → ℕ → Block) (s w : ℕ) :
    lruShift set way ways bs s w =
      if s = set ∧ w ∈ ways ∧ (bs s w).lru < (bs set way).lru then
        { bs s w with lru := (bs s w).lru + 1 }
      else bs s w := by
  induction ways generalizing bs with
  | nil => simp [lruShift]
  | cons i ways ih =>
    obtain ⟨hi, hn⟩ := List.nodup_cons.1 hn
    have hcons : lruShift set way (i :: ways) bs = lruShift set way ways
        (if (bs set i).lru < (bs set way).lru then
          setBlock set i { bs set i with lru := (bs set i).lru + 1 } bs
        else bs) := rfl
    rw [hcons, ih hn]
    by_cases hlt : (bs set i).lru < (bs set way).lru
    · have hway : way ≠ i := by
        rintro rfl
        omega
      rw [if_pos hlt]
      simp only [setBlock, List.mem_cons]
      by_cases hs : s = set
      · subst hs
        rcases eq_or_ne w i with rfl | hw
        · simp [hi, hlt]
        · simp [hw, hway]
      · simp [hs]
    · rw [if_neg hlt]
      simp only [List.mem_cons]
      by_cases hs : s = set
      · subst hs
        rcases eq_or_ne w i with rfl | hw
        · simp [hi, hlt]
        · simp [hw]
      · simp [hs]

/-- The loop does what the handlers take `lru_update` for. -/
theorem lruUpdateLoop_eq (bs : ℕ → ℕ → Block) :
    lruUpdateLoop cfg set way bs = lruUpdate cfg set way bs := by
  funext s w
  have hself : lruShift set way (List.range cfg.numWay) bs set way = bs set way := by
    rw [lruShift_apply List.nodup_range]
    simp
  rw [lruUpdateLoop, lruUpdate, setBlock, hself]
  split
  · rename_i hsw
    rw [hsw.1, hsw.2]
  · rw [lruShift_apply List.nodup_range]
    simp only [List.mem_range]

/-- The ranks after an update are those of a touch. -/
theorem lruUpdate_lru (bs : ℕ → ℕ → Block) (s w : ℕ) : (lruUpdate cfg set way bs s w).lru =
    if s = set then Ranks.touch cfg.numWay way (fun w => (bs set w).lru) w else (bs s w).lru := by
  rw [lruUpdate]
  by_cases hs : s = set
  · subst hs
    simp only [true_and, if_true, Ranks.touch]
    split
    · rfl
    · split <;> rfl
  · simp [hs]

end

end Cache

/-! ## Runs -/

/-- The operations that touch the blocks of a cache. -/
inductive LruOp
  | update (set way : ℕ)
  | fill (set way : ℕ) (p : Packet)
  | invalidate (a : Addr)

namespace LruOp

variable (cfg : Config)

/-- What an operation does. -/
def apply (c : Cache) : LruOp → Cache
  | update set way => { c with block := Cache.lruUpdateLoop cfg set way c.block }
  | fill set way p => c.fillCache set way p
  | invalidate a => c.invalidateEntry cfg a

/-- The set and the way are there. -/
def Valid : LruOp → Prop
  | update set way | fill set way _ => set < cfg.numSet ∧ way < cfg.numWay
  | invalidate _ => True

/-- The cache after some operations. -/
def run (ops : List LruOp) : Cache := ops.foldl (apply cfg) (Cache.init cfg)

/-- The way of the set that an operation updates. -/
def updated (set : ℕ) : LruOp → Option ℕ
  | update s way => if s = set then some way else none
  | _ => none

/-- The updates of a set, the last one first. -/
def history (set : ℕ) (ops : List LruOp) : List ℕ := (ops.filterMap (updated set)).reverse

end LruOp

/-- The ranks of each set are a permutation in the order of the updates. -/
structure LruOrdered (cfg : Config) (ops : List LruOp) (c : Cache) : Prop where
  ranked : ∀ set, Ranks.Ranked cfg.numWay (c.rank set)
  ordered : ∀ set, Ranks.Ordered cfg.numWay (LruOp.history set ops) (c.rank set)

section
variable {cfg : Config} {c c' : Cache} {ops : List LruOp} {op : LruOp} {set way : ℕ}

/-- Operations other than an update leave the history of a set alone. -/
theorem LruOp.history_snoc : LruOp.history set (ops ++ [op]) =
    match LruOp.updated set op with
    | some way => way :: LruOp.history set ops
    | none => LruOp.history set ops := by
  rw [history, List.filterMap_append, List.reverse_append]
  cases h : updated set op <;> simp [h, history]

/-- Where the ranks stay and no way is updated, the order stays. -/
theorem LruOrdered.frame (h : LruOrdered cfg ops c) (hr : ∀ set, c'.rank set = c.rank set)
    (hu : ∀ set, LruOp.updated set op = none) : LruOrdered cfg (ops ++ [op]) c' := by
  refine ⟨fun set => hr set ▸ h.ranked set, fun set => ?_⟩
  rw [LruOp.history_snoc, hu set, hr set]
  exact h.ordered set

/-- `lru_update`. -/
theorem LruOrdered.update (h : LruOrdered cfg ops c) (hway : way < cfg.numWay) :
    LruOrdered cfg (ops ++ [.update set way]) (LruOp.apply cfg c (.update set way)) := by
  have hrank (s : ℕ) : (LruOp.apply cfg c (.update set way)).rank s =
      if s = set then Ranks.touch cfg.numWay way (c.rank set) else c.rank s := by
    funext w
    show (Cache.lruUpdateLoop cfg set way c.block s w).lru = _
    rw [Cache.lruUpdateLoop_eq, Cache.lruUpdate_lru]
    split <;> rfl
  refine ⟨fun s => ?_, fun s => ?_⟩
  · rw [hrank]
    split
    · exact (h.ranked set).touch hway
    · exact h.ranked s
  · rw [hrank, LruOp.history_snoc]
    by_cases hs : s = set
    · subst hs
      rw [if_pos rfl, LruOp.updated, if_pos rfl]
      exact (h.ordered s).touch (h.ranked s) hway
    · rw [if_neg hs, LruOp.updated, if_neg (Ne.symm hs)]
      exact h.ordered s

/-- Each operation keeps the order. -/
theorem LruOrdered.apply (h : LruOrdered cfg ops c) (hop : op.Valid cfg) :
    LruOrdered cfg (ops ++ [op]) (op.apply cfg c) := by
  cases op with
  | update set way => exact h.update hop.2
  | fill set way p =>
    refine h.frame (fun s => funext fun w => ?_) fun _ => rfl
    simp only [LruOp.apply, Cache.rank, Cache.fillCache, Cache.setBlock]
    split
    · rename_i hsw
      rw [hsw.1, hsw.2]
      rfl
    · rfl
  | invalidate a =>
    refine h.frame (fun s => funext fun w => ?_) fun _ => rfl
    simp only [LruOp.apply, Cache.rank, Cache.invalidateEntry]
    split
    · rfl
    · simp only [Cache.setBlock]
      split
      · rename_i hsw
        rw [hsw.1, hsw.2]
      · rfl

/-- The order holds after all operations. -/
theorem LruOrdered.run (hops : ∀ op ∈ ops, op.Valid cfg) :
    LruOrdered cfg ops (LruOp.run cfg ops) := by
  induction ops using List.reverseRecOn with
  | nil => exact ⟨fun _ => Ranks.Ranked.id cfg.numWay, fun _ => Ranks.Ordered.nil cfg.numWay⟩
  | append_singleton ops op ih =>
    have hrun : LruOp.run cfg (ops ++ [op]) = op.apply cfg (LruOp.run cfg ops) := by
      simp [LruOp.run]
    rw [hrun]
    exact (ih fun op' h => hops op' (List.mem_append_left _ h)).apply (hops op (by simp))

/-- `lru_victim` gives the first invalid way, or else the way of the largest rank. -/
theorem lruVictim_of_ranked (h : Ranks.Ranked cfg.numWay (c.rank set)) (hway : 1 ≤ cfg.numWay) :
    ∃ way < cfg.numWay, c.lruVictim cfg set = some way ∧
      ((c.block set way).valid = false ∧ (∀ w < way, (c.block set w).valid = true) ∨
        (∀ w < cfg.numWay, (c.block set w).valid = true) ∧ c.rank set way = cfg.numWay - 1) := by
  rw [Cache.lruVictim]
  cases hf : (List.range cfg.numWay).find? fun way => !(c.block set way).valid with
  | some way =>
    obtain ⟨hv, hlt, hbefore⟩ := List.find?_range_eq_some.1 hf
    exact ⟨way, List.mem_range.1 hlt, rfl, .inl ⟨by simpa using hv, by simpa using hbefore⟩⟩
  | none =>
    have hvalid : ∀ w < cfg.numWay, (c.block set w).valid = true := by
      simpa [List.find?_eq_none] using hf
    obtain ⟨w, hw, hr⟩ := h.exists_rank (c := cfg.numWay - 1) (by omega)
    cases hl : (List.range cfg.numWay).find? fun way => (c.block set way).lru == cfg.numWay - 1 with
    | none =>
      have hnone := List.find?_eq_none.1 hl w (List.mem_range.2 hw)
      exact absurd hr (by simpa [Cache.rank] using hnone)
    | some way =>
      obtain ⟨hv, hlt, -⟩ := List.find?_range_eq_some.1 hl
      exact ⟨way, List.mem_range.1 hlt, rfl, .inr ⟨hvalid, by simpa [Cache.rank] using hv⟩⟩

end

/-- After any updates, fills and invalidations, the `lru` fields of each set are a permutation of
the numbers below `NUM_WAY` that orders the ways by their last update: the most recent first, those
never updated last and in the order of their numbers. So `lru_victim` always finds a way: the first
invalid one, or else the one whose last update is oldest. -/
theorem lru_permutation (cfg : Config) (hway : 1 ≤ cfg.numWay) (ops : List LruOp)
    (hops : ∀ op ∈ ops, op.Valid cfg) (set : ℕ) :
    ((List.range cfg.numWay).map fun way => ((LruOp.run cfg ops).block set way).lru).Perm
      (List.range cfg.numWay) ∧
    (∀ w < cfg.numWay, ∀ w' < cfg.numWay,
      ((LruOp.run cfg ops).block set w).lru < ((LruOp.run cfg ops).block set w').lru ↔
        Ranks.Before (LruOp.history set ops) w w') ∧
    ∃ way < cfg.numWay, (LruOp.run cfg ops).lruVictim cfg set = some way ∧
      (((LruOp.run cfg ops).block set way).valid = false ∧
          (∀ w < way, ((LruOp.run cfg ops).block set w).valid = true) ∨
        (∀ w < cfg.numWay, ((LruOp.run cfg ops).block set w).valid = true) ∧
          ∀ w < cfg.numWay, w ≠ way → Ranks.Before (LruOp.history set ops) w way) := by
  have h := LruOrdered.run hops
  refine ⟨(h.ranked set).perm, h.ordered set, ?_⟩
  obtain ⟨way, hlt, hvictim, hway'⟩ := lruVictim_of_ranked (h.ranked set) hway
  refine ⟨way, hlt, hvictim, hway'.imp_right fun ⟨hvalid, hrank⟩ => ⟨hvalid, fun w hw hne => ?_⟩⟩
  exact (h.ordered set).last (h.ranked set) hlt hrank hw hne

/-- Two updates and a fill in set 5 of the L1D: the way updated last comes first. -/
theorem lru_permutation_l1d : Ranks.Before [3, 7] 3 7 ∧
    ((LruOp.run (l1dConfig 1) [.update 5 7, .fill 5 0 (Packet.empty 1), .update 5 3]).block 5
        3).lru <
      ((LruOp.run (l1dConfig 1) [.update 5 7, .fill 5 0 (Packet.empty 1), .update 5 3]).block 5
        7).lru := by
  have hops : ∀ op ∈ [LruOp.update 5 7, .fill 5 0 (Packet.empty 1), .update 5 3],
      op.Valid (l1dConfig 1) := by
    intro op hop
    simp only [List.mem_cons, List.not_mem_nil, or_false] at hop
    rcases hop with rfl | rfl | rfl <;> exact ⟨by decide, by decide⟩
  have h := lru_permutation (l1dConfig 1) (by decide) _ hops 5
  exact ⟨by decide, (h.2.1 3 (by decide) 7 (by decide)).2 (by decide)⟩

end Arishem
