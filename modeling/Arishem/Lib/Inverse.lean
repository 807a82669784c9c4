import Mathlib.Data.PEquiv
import Mathlib.Logic.Function.Basic

/-!
# Tables that are inverse to each other

Two lookup functions are inverse when each finds what the other was given. A pair of new keys can be
added, and the key of a value can be replaced by a new one. The tables are then the two sides of a
partial equivalence, and so no value is found under two keys.
-/

/-- Each lookup finds what the other was given. -/
def MutuallyInverse {α β : Type*} (f : α → Option β) (g : β → Option α) : Prop :=
  ∀ a b, f a = some b ↔ g b = some a

namespace MutuallyInverse

variable {α β : Type*} {f : α → Option β} {g : β → Option α}

/-- The partial equivalence of two inverse tables. -/
def toPEquiv (h : MutuallyInverse f g) : α ≃. β where
  toFun := f
  invFun := g
  inv a b := (h a b).symm

/-- No value is found under two keys. -/
theorem inj (h : MutuallyInverse f g) {a a' : α} {b : β} (ha : f a = some b)
    (ha' : f a' = some b) : a = a' :=
  h.toPEquiv.inj ha ha'

/-- Empty tables. -/
theorem empty : MutuallyInverse (fun _ : α => (none : Option β)) fun _ => none :=
  fun _ _ => by simp

variable [DecidableEq α] [DecidableEq β]

/-- A new key with a new value. -/
theorem insert (h : MutuallyInverse f g) {a : α} {b : β} (ha : f a = none) (hb : g b = none) :
    MutuallyInverse (Function.update f a (some b)) (Function.update g b (some a)) := by
  intro x y
  rcases eq_or_ne x a with rfl | hx <;> rcases eq_or_ne y b with rfl | hy
  · simp
  · rw [Function.update_self, Function.update_of_ne hy, ← h x y, ha]
    simp [hy.symm]
  · rw [Function.update_self, Function.update_of_ne hx, h x y, hb]
    simp [hx.symm]
  · rw [Function.update_of_ne hx, Function.update_of_ne hy, h x y]

/-- The value of a key goes to a new key. -/
theorem retarget (h : MutuallyInverse f g) {a a' : α} {b : β} (ha : f a = some b)
    (ha' : f a' = none) :
    MutuallyInverse (Function.update (Function.update f a none) a' (some b))
      (Function.update g b (some a')) := by
  have hfree : MutuallyInverse (Function.update f a none) (Function.update g b none) := by
    intro x y
    rcases eq_or_ne x a with rfl | hx <;> rcases eq_or_ne y b with rfl | hy
    · simp
    · rw [Function.update_self, Function.update_of_ne hy, ← h x y, ha]
      simp [hy.symm]
    · rw [Function.update_self, Function.update_of_ne hx]
      refine ⟨fun hxy => absurd (h.inj hxy ha) hx, fun hxy => absurd hxy (by simp)⟩
    · rw [Function.update_of_ne hx, Function.update_of_ne hy, h x y]
  have hkey : Function.update f a none a' = none := by
    rcases eq_or_ne a' a with rfl | hne
    · exact Function.update_self ..
    · rw [Function.update_of_ne hne, ha']
  have hval : Function.update g b none b = none := Function.update_self ..
  have hnew := hfree.insert hkey hval
  rwa [Function.update_idem] at hnew

end MutuallyInverse
