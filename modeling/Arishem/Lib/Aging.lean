import Arishem.Lib.Argmax

/-!
# Searches that age

Each of `n` places has a value, a machine word that starts again at `W`. A search looks for the
first place whose value is `M`; without one it moves all values on by one and looks again. While no
value is above `M` it ends at the first place of the largest value, after as many rounds as that
value is below `M`, and the values keep their distances.
-/

namespace Aging

variable {n M W d p fuel : ℕ} {value : ℕ → ℕ}

/-- All values move on by one. -/
def age (n W : ℕ) (value : ℕ → ℕ) : ℕ → ℕ := fun p => if p < n then (value p + 1) % W else value p

/-- The search, for some rounds. -/
def search (n M W : ℕ) : ℕ → (ℕ → ℕ) → Option (ℕ × (ℕ → ℕ))
  | 0, _ => none
  | fuel + 1, value =>
    match (List.range n).find? fun p => value p == M with
    | some p => some (p, value)
    | none => search n M W fuel (age n W value)

/-- The values after `d` rounds, where none starts again. -/
def advance (n d : ℕ) (value : ℕ → ℕ) : ℕ → ℕ := fun p => if p < n then value p + d else value p

theorem advance_zero : advance n 0 value = value := by
  funext p
  simp [advance]

theorem advance_of_lt (hp : p < n) : advance n d value p = value p + d := if_pos hp

/-- Where no value is above the one sought and none is there yet, aging is one step forward. -/
theorem age_eq (hW : M < W) (hlt : ∀ p < n, value p < M) : age n W value = advance n 1 value := by
  funext p
  rw [age, advance]
  split
  · rename_i hp
    have := hlt p hp
    exact Nat.mod_eq_of_lt (by omega)
  · rfl

/-- One round and the others. -/
theorem advance_advance : advance n d (advance n 1 value) = advance n (d + 1) value := by
  funext p
  simp only [advance]
  split <;> omega

/-- The first largest value stays the first largest one. -/
theorem isFirst_advance (h : Argmax.IsFirst value n p) :
    Argmax.IsFirst (advance n d value) n p := by
  refine ⟨h.lt, fun q hq => ?_, fun q hq => ?_⟩
  · rw [advance_of_lt hq, advance_of_lt h.lt]
    exact Nat.add_le_add_right (h.le q hq) d
  · rw [advance_of_lt (hq.trans h.lt), advance_of_lt h.lt]
    exact Nat.add_lt_add_right (h.first q hq) d

/-- The search ends at the first largest value, in the round where that value is reached. -/
theorem search_isFirst (hW : M < W) (h : Argmax.IsFirst value n p) (hd : value p + d = M)
    (hfuel : d < fuel) : search n M W fuel value = some (p, advance n d value) := by
  induction d generalizing value fuel with
  | zero =>
    obtain ⟨fuel, rfl⟩ := Nat.exists_eq_add_of_lt hfuel
    have hfind : (List.range n).find? (fun p => value p == M) = some p := by
      refine List.find?_range_eq_some.2 ⟨by simpa using hd, List.mem_range.2 h.lt, fun q hq => ?_⟩
      have := h.first q hq
      simp only [Bool.not_eq_true', beq_eq_false_iff_ne, ne_eq]
      omega
    rw [Nat.zero_add, search, hfind, advance_zero]
  | succ d ih =>
    obtain ⟨fuel, rfl⟩ := Nat.exists_eq_add_of_lt hfuel
    have hlt : ∀ q < n, value q < M := fun q hq => by
      have := h.le q hq
      omega
    have hfind : (List.range n).find? (fun p => value p == M) = none := by
      refine List.find?_eq_none.2 fun q hq => ?_
      simpa using (hlt q (List.mem_range.1 hq)).ne
    have hd' : advance n 1 value p + d = M := by
      rw [advance_of_lt h.lt]
      omega
    rw [search, hfind, age_eq hW hlt]
    show search n M W (d + 1 + fuel) _ = _
    rw [ih (isFirst_advance h) hd' (by omega), advance_advance]

end Aging
