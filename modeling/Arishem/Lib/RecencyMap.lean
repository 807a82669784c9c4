import Arishem.Lib.LruTable

/-!
# Bounded maps in the order of use

A map with room for `n` keys, listed from the least recently used key to the most recently used one.
A key that is used moves to the end, a new key is added there, and when the map is full the first key
makes room for it.
-/

namespace RecencyMap

section
variable {κ β : Type*} [DecidableEq κ] {n : ℕ} {key k : κ} {b : β} {m : List (κ × β)}

/-- Take a key out. -/
def remove (key : κ) (m : List (κ × β)) : List (κ × β) := m.filter fun e => e.1 ≠ key

/-- Use a key. -/
def use (key : κ) (m : List (κ × β)) : List (κ × β) :=
  match m.lookup key with
  | some b => remove key m ++ [(key, b)]
  | none => m

/-- Add a key, or give it another value: the map, and the entry that was replaced. -/
def put (n : ℕ) (key : κ) (b : β) (m : List (κ × β)) : List (κ × β) × Option (κ × β) :=
  match m.lookup key with
  | some old => (remove key m ++ [(key, b)], some (key, old))
  | none => if m.length < n then (m ++ [(key, b)], none) else (m.tail ++ [(key, b)], m.head?)

/-- Change the value of a key where it is. -/
def modify (key : κ) (f : β → β) (m : List (κ × β)) : List (κ × β) :=
  m.map fun e => if e.1 = key then (e.1, f e.2) else e

theorem lookup_remove_self (key : κ) (m : List (κ × β)) : (remove key m).lookup key = none := by
  rw [List.lookup_eq_none_iff]
  intro e he
  have hne : e.1 ≠ key := by simpa using (List.mem_filter.1 he).2
  exact bne_iff_ne.2 hne.symm

theorem lookup_remove_of_ne (hne : k ≠ key) (m : List (κ × β)) :
    (remove key m).lookup k = m.lookup k := by
  induction m with
  | nil => rfl
  | cons e m ih =>
    obtain ⟨a, b⟩ := e
    rw [remove, List.filter_cons]
    by_cases ha : a = key
    · subst ha
      rw [if_neg (by simp), List.lookup_cons, beq_false_of_ne hne]
      exact ih
    · rw [if_pos (by simpa using ha), List.lookup_cons, List.lookup_cons]
      cases k == a with
      | true => rfl
      | false => exact ih

theorem lookup_snoc_self (h : m.lookup key = none) (b : β) :
    (m ++ [(key, b)]).lookup key = some b := by
  rw [List.lookup_append, h]
  simp

theorem lookup_snoc_of_ne (hne : k ≠ key) (m : List (κ × β)) (b : β) :
    (m ++ [(key, b)]).lookup k = m.lookup k := by
  rw [List.lookup_append, List.lookup_cons, beq_false_of_ne hne]
  exact Option.or_none

theorem lookup_put_self (n : ℕ) (key : κ) (b : β) (m : List (κ × β)) :
    (put n key b m).1.lookup key = some b := by
  rw [put]
  cases h : m.lookup key with
  | some old => exact lookup_snoc_self (lookup_remove_self key m) b
  | none =>
    dsimp only
    split
    · exact lookup_snoc_self h b
    · refine lookup_snoc_self ?_ b
      rw [List.lookup_eq_none_iff] at h ⊢
      exact fun e he => h e (List.mem_of_mem_tail he)

theorem lookup_modify_self (key : κ) (f : β → β) (m : List (κ × β)) :
    (modify key f m).lookup key = (m.lookup key).map f := by
  induction m with
  | nil => rfl
  | cons e m ih =>
    obtain ⟨a, b⟩ := e
    rw [modify, List.map_cons, List.lookup_cons]
    by_cases ha : a = key
    · subst ha
      rw [if_pos rfl, List.lookup_cons, beq_self_eq_true]
      rfl
    · rw [if_neg ha, List.lookup_cons, beq_false_of_ne (Ne.symm ha)]
      exact ih

theorem lookup_modify_of_ne (hne : k ≠ key) (f : β → β) (m : List (κ × β)) :
    (modify key f m).lookup k = m.lookup k := by
  induction m with
  | nil => rfl
  | cons e m ih =>
    obtain ⟨a, b⟩ := e
    rw [modify, List.map_cons, List.lookup_cons]
    by_cases ha : a = key
    · subst ha
      rw [if_pos rfl, List.lookup_cons, beq_false_of_ne hne]
      exact ih
    · rw [if_neg ha, List.lookup_cons]
      cases k == a with
      | true => rfl
      | false => exact ih

/-- A use changes no value. -/
theorem lookup_use (key k : κ) (m : List (κ × β)) : (use key m).lookup k = m.lookup k := by
  rw [use]
  cases h : m.lookup key with
  | none => rfl
  | some b =>
    dsimp only
    rcases eq_or_ne k key with rfl | hne
    · rw [lookup_snoc_self (lookup_remove_self k m), h]
    · rw [lookup_snoc_of_ne hne, lookup_remove_of_ne hne]

/-! ## Replacement -/

/-- The entry that a put returns was in the map. -/
theorem lookup_of_put {e : κ × β} (h : (put n key b m).2 = some e) : m.lookup e.1 = some e.2 := by
  rw [put] at h
  cases hlookup : m.lookup key with
  | some old =>
    rw [hlookup] at h
    obtain rfl := Option.some.inj h
    exact hlookup
  | none =>
    rw [hlookup] at h
    dsimp only at h
    split at h
    · exact absurd h (by simp)
    · obtain ⟨m', rfl⟩ := List.head?_eq_some_iff.1 h
      rw [List.lookup_cons, beq_self_eq_true]

/-- A put changes no other value; the one that it returns is taken out. -/
theorem lookup_put_of_ne (hne : k ≠ key) (hnodup : (m.map Prod.fst).Nodup) (b : β) :
    (put n key b m).1.lookup k =
      if (put n key b m).2.map Prod.fst = some k then none else m.lookup k := by
  rw [put]
  cases hlookup : m.lookup key with
  | some old =>
    dsimp only
    rw [Option.map_some, if_neg fun heq => hne (Option.some.inj heq).symm, lookup_snoc_of_ne hne,
      lookup_remove_of_ne hne]
  | none =>
    dsimp only
    split
    · rw [Option.map_none, if_neg (by simp), lookup_snoc_of_ne hne]
    · rw [lookup_snoc_of_ne hne]
      cases m with
      | nil => simp
      | cons e m =>
        obtain ⟨a, c⟩ := e
        obtain ⟨hnot, -⟩ := List.nodup_cons.1 hnodup
        rw [List.tail_cons, List.head?_cons, Option.map_some, List.lookup_cons]
        rcases eq_or_ne a k with rfl | ha
        · rw [if_pos rfl, List.lookup_eq_none_iff]
          intro e he
          refine bne_iff_ne.2 ?_
          rintro rfl
          exact hnot (List.mem_map.2 ⟨e, he, rfl⟩)
        · rw [if_neg fun heq => ha (Option.some.inj heq), beq_false_of_ne ha.symm]

end

end RecencyMap
