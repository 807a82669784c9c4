import Mathlib.Order.Basic

/-!
# Computations that may fail

What a computation that may fail ends with: `Ends x P E` says that its result satisfies `P` and its
failure satisfies `E`. A function is described once, by what it ends with, and its callers use the
rules for sequences and loops.
-/

universe u

section
variable {ε : Type*} {α β : Type u} {x : Except ε α} {P P' Q : α → Prop} {E E' F : ε → Prop}

/-- The result satisfies `P`, the failure `E`. -/
def Ends (x : Except ε α) (P : α → Prop) (E : ε → Prop) : Prop :=
  match x with
  | .ok a => P a
  | .error e => E e

namespace Ends

@[simp] theorem ok_iff {a : α} : Ends (.ok a : Except ε α) P E ↔ P a := Iff.rfl

@[simp] theorem error_iff {e : ε} : Ends (.error e : Except ε α) P E ↔ E e := Iff.rfl

theorem ok {a : α} (h : P a) : Ends (.ok a : Except ε α) P E := h

theorem error {e : ε} (h : E e) : Ends (.error e : Except ε α) P E := h

/-- What the result satisfies. -/
theorem of_ok {a : α} (h : Ends x P E) (hx : x = .ok a) : P a := by
  rw [hx] at h
  exact h

/-- What the failure satisfies. -/
theorem of_error {e : ε} (h : Ends x P E) (hx : x = .error e) : E e := by
  rw [hx] at h
  exact h

theorem mono (h : Ends x P E) (hP : ∀ a, P a → P' a) (hE : ∀ e, E e → E' e) : Ends x P' E' := by
  cases x with
  | ok a => exact hP a h
  | error e => exact hE e h

theorem and (h : Ends x P E) (h' : Ends x Q F) :
    Ends x (fun a => P a ∧ Q a) (fun e => E e ∧ F e) := by
  cases x with
  | ok a => exact ⟨h, h'⟩
  | error e => exact ⟨h, h'⟩

/-- One computation after the other. -/
theorem bind {f : α → Except ε β} {R : β → Prop} (h : Ends x P E)
    (hf : ∀ a, P a → Ends (f a) R E) : Ends (x >>= f) R E := by
  cases x with
  | ok a => exact hf a h
  | error e => exact h

/-- A loop over a list keeps what each turn keeps. -/
theorem foldlM {f : β → α → Except ε β} {I : β → Prop} {l : List α}
    (hf : ∀ b, ∀ a ∈ l, I b → Ends (f b a) I E) {b : β} (hb : I b) :
    Ends (l.foldlM f b) I E := by
  induction l generalizing b with
  | nil => exact hb
  | cons a l ih =>
    rw [List.foldlM_cons]
    exact (hf b a (List.mem_cons_self ..) hb).bind fun b' hb' =>
      ih (fun b a ha => hf b a (List.mem_cons_of_mem _ ha)) hb'

end Ends

/-- A result that passes a test. -/
theorem exists_ok_of_any {p : α → Bool} (h : x.toOption.any p = true) : ∃ a, x = .ok a ∧ p a := by
  cases x with
  | ok a => exact ⟨a, rfl, h⟩
  | error e => cases h

end
