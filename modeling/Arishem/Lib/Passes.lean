import Mathlib.Algebra.GroupWithZero.Nat
import Mathlib.Data.Finset.Card
import Mathlib.Data.List.GetD
import Mathlib.Data.List.Induction
import Mathlib.Data.List.Nodup

/-!
# Passes for the largest values

A pass over a list finds the last place of its largest value below a bound, and the next pass takes
that value as its bound. Each pass finds another value, in decreasing order, until no value is left;
from then on it stays at the first place.
-/

namespace Passes

section
variable {l : List ℕ} {n p max : ℕ}

/-- One pass: the largest value below the bound and its last place. -/
def pass (max : ℕ) (l : List ℕ) : ℕ × ℕ :=
  l.zipIdx.foldl (fun curr x => if curr.1 ≤ x.1 ∧ x.1 < max then x else curr) (0, 0)

/-- The places that some passes find. -/
def picks (l : List ℕ) : ℕ → ℕ → List ℕ
  | 0, _ => []
  | n + 1, max => (pass max l).2 :: picks l n (pass max l).1

/-- The value at a place. -/
abbrev value (l : List ℕ) (p : ℕ) : ℕ := l.getD p 0

/-- The value at the place does not come again. -/
structure IsLast (l : List ℕ) (p : ℕ) : Prop where
  lt : p < l.length
  last : ∀ q, p < q → q < l.length → value l q ≠ value l p

/-- The values below a bound. -/
def below (l : List ℕ) (max : ℕ) : Finset ℕ := l.toFinset.filter (· < max)

/-- The values below a bound and above another. -/
def above (l : List ℕ) (max x : ℕ) : Finset ℕ := (below l max).filter (x < ·)

theorem mem_below {x : ℕ} : x ∈ below l max ↔ x ∈ l ∧ x < max := by
  rw [below, Finset.mem_filter, List.mem_toFinset]

theorem mem_above {x y : ℕ} : y ∈ above l max x ↔ (y ∈ l ∧ y < max) ∧ x < y := by
  rw [above, Finset.mem_filter, mem_below]

theorem value_mem (hp : p < l.length) : value l p ∈ l := by
  rw [value, List.getD_eq_getElem l 0 hp]
  exact List.getElem_mem hp

/-- A value has a last place. -/
theorem exists_isLast {x : ℕ} (hx : x ∈ l) : ∃ p, IsLast l p ∧ value l p = x := by
  induction l using List.reverseRecOn with
  | nil => exact absurd hx List.not_mem_nil
  | append_singleton l y ih =>
    by_cases hxy : x = y
    · refine ⟨l.length, ⟨by simp, fun q hq hlt => ?_⟩, by simp [hxy]⟩
      rw [List.length_append, List.length_singleton] at hlt
      omega
    · have hx' : x ∈ l := (List.mem_append.1 hx).resolve_right (by simpa using hxy)
      obtain ⟨p, ⟨hp, hlast⟩, hval⟩ := ih hx'
      have hval' : value (l ++ [y]) p = x := by
        rw [value, List.getD_append _ _ _ _ hp]
        exact hval
      refine ⟨p, ⟨by rw [List.length_append]; omega, fun q hpq hq => ?_⟩, hval'⟩
      rw [List.length_append, List.length_singleton] at hq
      rw [hval']
      rcases Nat.lt_succ_iff_lt_or_eq.1 hq with hq | rfl
      · rw [value, List.getD_append _ _ _ _ hq, ← hval]
        exact hlast q hpq hq
      · simpa using Ne.symm hxy

/-- The last place of a value is unique. -/
theorem IsLast.unique {q : ℕ} (hp : IsLast l p) (hq : IsLast l q) (h : value l p = value l q) :
    p = q := by
  rcases Nat.lt_trichotomy p q with hlt | heq | hlt
  · exact absurd h.symm (hp.last q hlt hq.lt)
  · exact heq
  · exact absurd h (hq.last p hlt hp.lt)

/-! ## One pass -/

/-- A pass finds nothing, or the last place of the largest value. -/
inductive Finds (l : List ℕ) (max : ℕ) : ℕ × ℕ → Prop
  | none (h : below l max = ∅) : Finds l max (0, 0)
  | some (p : ℕ) (hlast : IsLast l p) (hmax : value l p < max)
      (hle : ∀ x ∈ l, x < max → x ≤ value l p) : Finds l max (value l p, p)

theorem pass_snoc (max : ℕ) (l : List ℕ) (x : ℕ) : pass max (l ++ [x]) =
    if (pass max l).1 ≤ x ∧ x < max then (x, l.length) else pass max l := by
  rw [pass, List.zipIdx_append, List.foldl_append, Nat.zero_add]
  rfl

theorem finds_pass (max : ℕ) (l : List ℕ) : Finds l max (pass max l) := by
  induction l using List.reverseRecOn with
  | nil => exact .none rfl
  | append_singleton l x ih =>
    rw [pass_snoc]
    generalize pass max l = b at ih
    have hlen : (l ++ [x]).length = l.length + 1 := by simp
    have hx : value (l ++ [x]) l.length = x := by simp
    by_cases htake : b.1 ≤ x ∧ x < max
    · rw [if_pos htake]
      have hfinds := @Finds.some (l ++ [x]) max l.length
        ⟨by omega, fun q hq hlt => absurd hlt (by omega)⟩ (by rw [hx]; exact htake.2)
      rw [hx] at hfinds
      refine hfinds fun y hy hlt => ?_
      rcases List.mem_append.1 hy with hy | hy
      · cases ih with
        | none h => exact absurd (mem_below.2 ⟨hy, hlt⟩) (by simp [h])
        | some p _ _ hle => exact (hle y hy hlt).trans htake.1
      · rw [List.mem_singleton.1 hy]
    · rw [if_neg htake]
      cases ih with
      | none h =>
        refine .none (Finset.eq_empty_of_forall_notMem fun y hy => ?_)
        obtain ⟨hy, hlt⟩ := mem_below.1 hy
        rcases List.mem_append.1 hy with hy | hy
        · exact absurd (mem_below.2 ⟨hy, hlt⟩) (by simp [h])
        · rw [List.mem_singleton.1 hy] at hlt
          exact htake ⟨Nat.zero_le x, hlt⟩
      | some p hlast hmax hle =>
        have hval : value (l ++ [x]) p = value l p := List.getD_append _ _ _ _ hlast.lt
        have hfinds := @Finds.some (l ++ [x]) max p
        rw [hval] at hfinds
        have hsmall : max ≤ x ∨ x < value l p := by
          by_contra hnot
          rw [not_or, Nat.not_le, Nat.not_lt] at hnot
          exact htake ⟨hnot.2, hnot.1⟩
        refine hfinds ⟨by have := hlast.lt; omega, fun q hpq hq => ?_⟩ hmax fun y hy hlt => ?_
        · rw [hlen] at hq
          rw [hval]
          rcases Nat.lt_succ_iff_lt_or_eq.1 hq with hq | rfl
          · rw [value, List.getD_append _ _ _ _ hq]
            exact hlast.last q hpq hq
          · rw [hx]
            omega
        · rcases List.mem_append.1 hy with hy | hy
          · exact hle y hy hlt
          · rw [List.mem_singleton.1 hy] at hlt ⊢
            omega

/-! ## All passes -/

/-- Without a value below the bound, every pass stays at the first place. -/
theorem picks_of_empty (n : ℕ) {max : ℕ} (h : below l max = ∅) :
    picks l n max = List.replicate n 0 := by
  induction n generalizing max with
  | zero => rfl
  | succ n ih =>
    have hzero : below l 0 = ∅ := by
      refine Finset.eq_empty_of_forall_notMem fun y hy => ?_
      exact absurd (mem_below.1 hy).2 (Nat.not_lt_zero y)
    have hpass : pass max l = (0, 0) := by
      generalize hb : pass max l = b
      have hfinds := finds_pass max l
      rw [hb] at hfinds
      cases hfinds with
      | none => rfl
      | some p hlast hmax =>
        exact absurd (mem_below.2 ⟨value_mem hlast.lt, hmax⟩) (by simp [h])
    rw [picks, hpass, ih hzero, List.replicate_succ]

/-- What the first pass finds, when there is a value below the bound. -/
theorem exists_pass (h : (below l max).Nonempty) : ∃ p, pass max l = (value l p, p) ∧
    IsLast l p ∧ value l p < max ∧ ∀ x ∈ l, x < max → x ≤ value l p := by
  generalize hb : pass max l = b
  have hfinds := finds_pass max l
  rw [hb] at hfinds
  cases hfinds with
  | none hempty => exact absurd hempty h.ne_empty
  | some p hlast hmax hle => exact ⟨p, rfl, hlast, hmax, hle⟩

/-- The next pass has one value less. -/
theorem below_value (hmax : value l p < max)
    (hle : ∀ x ∈ l, x < max → x ≤ value l p) :
    below l (value l p) = (below l max).erase (value l p) := by
  ext x
  rw [Finset.mem_erase, mem_below, mem_below]
  constructor
  · rintro ⟨hx, hlt⟩
    exact ⟨hlt.ne, hx, hlt.trans hmax⟩
  · rintro ⟨hne, hx, hlt⟩
    exact ⟨hx, lt_of_le_of_ne (hle x hx hlt) hne⟩

theorem card_below_value (hp : p < l.length) (hmax : value l p < max)
    (hle : ∀ x ∈ l, x < max → x ≤ value l p) :
    (below l (value l p)).card + 1 = (below l max).card := by
  rw [below_value hmax hle]
  exact Finset.card_erase_add_one (mem_below.2 ⟨value_mem hp, hmax⟩)

/-- While values are left, the passes find the last places of the largest ones. -/
theorem picks_of_le (n : ℕ) {max : ℕ} (h : n ≤ (below l max).card) : (picks l n max).Nodup ∧
    ∀ p, p ∈ picks l n max ↔
      IsLast l p ∧ value l p < max ∧ (above l max (value l p)).card < n := by
  induction n generalizing max with
  | zero => exact ⟨List.nodup_nil, fun p => by simp [picks]⟩
  | succ n ih =>
    obtain ⟨b, hpass, hlast, hmax, hle⟩ :=
      exists_pass (Finset.card_pos.1 (Nat.zero_lt_of_lt h))
    have hcard := card_below_value hlast.lt hmax hle
    obtain ⟨hn, hmem⟩ := @ih (value l b) (by omega)
    -- above a smaller value, there is the value that was found and what the next passes see
    have habove : ∀ x, x < value l b →
        (above l max x).card = (above l (value l b) x).card + 1 := by
      intro x hx
      have hinsert : above l max x = insert (value l b) (above l (value l b) x) := by
        ext y
        rw [Finset.mem_insert, mem_above, mem_above]
        constructor
        · rintro ⟨⟨hy, hlt⟩, hxy⟩
          rcases (hle y hy hlt).lt_or_eq with hlt' | heq
          · exact .inr ⟨⟨hy, hlt'⟩, hxy⟩
          · exact .inl heq
        · rintro (rfl | ⟨⟨hy, hlt⟩, hxy⟩)
          · exact ⟨⟨value_mem hlast.lt, hmax⟩, hx⟩
          · exact ⟨⟨hy, hlt.trans hmax⟩, hxy⟩
      rw [hinsert, Finset.card_insert_of_notMem]
      rw [mem_above]
      exact fun hself => lt_irrefl _ hself.1.2
    rw [picks, hpass]
    refine ⟨List.nodup_cons.2 ⟨fun hb => ?_, hn⟩, fun p => ?_⟩
    · exact lt_irrefl _ ((hmem b).1 hb).2.1
    · rw [List.mem_cons, hmem]
      constructor
      · rintro (rfl | ⟨hp, hlt, habv⟩)
        · refine ⟨hlast, hmax, ?_⟩
          have hempty : above l max (value l p) = ∅ := by
            refine Finset.eq_empty_of_forall_notMem fun y hy => ?_
            obtain ⟨⟨hy, hlt⟩, hpy⟩ := mem_above.1 hy
            exact absurd (hle y hy hlt) (Nat.not_le.2 hpy)
          rw [hempty, Finset.card_empty]
          exact Nat.succ_pos n
        · refine ⟨hp, hlt.trans hmax, ?_⟩
          rw [habove _ hlt]
          omega
      · rintro ⟨hp, hlt, habv⟩
        rcases (hle _ (value_mem hp.lt) hlt).lt_or_eq with hlt' | heq
        · rw [habove _ hlt'] at habv
          exact .inr ⟨hp, hlt', by omega⟩
        · exact .inl (hp.unique hlast heq)

/-- The passes after the last value. -/
theorem picks_add (n : ℕ) {max : ℕ} : picks l ((below l max).card + n) max =
    picks l (below l max).card max ++ List.replicate n 0 := by
  generalize hc : (below l max).card = c
  induction c generalizing max with
  | zero =>
    rw [picks_of_empty _ (Finset.card_eq_zero.1 hc), Nat.zero_add]
    rfl
  | succ c ih =>
    have hpos : 0 < (below l max).card := by
      rw [hc]
      exact Nat.succ_pos c
    obtain ⟨b, hpass, hlast, hmax, hle⟩ := exists_pass (Finset.card_pos.1 hpos)
    have hcard := card_below_value hlast.lt hmax hle
    rw [Nat.add_right_comm, picks, picks, hpass]
    dsimp only
    rw [ih (by omega), List.cons_append]

/-- A pass over a list with values finds a place in it. -/
theorem lt_of_mem_picks (hl : l ≠ []) {n : ℕ} (hp : p ∈ picks l n max) : p < l.length := by
  induction n generalizing max with
  | zero => exact absurd hp List.not_mem_nil
  | succ n ih =>
    rcases List.mem_cons.1 hp with rfl | hp
    · generalize hb : pass max l = b
      have hfinds := finds_pass max l
      rw [hb] at hfinds
      cases hfinds with
      | none => exact List.length_pos_iff.2 hl
      | some p hlast => exact hlast.lt
    · exact ih hp

theorem length_picks (n max : ℕ) : (picks l n max).length = n := by
  induction n generalizing max with
  | zero => rfl
  | succ n ih => rw [picks, List.length_cons, ih]

end

end Passes
