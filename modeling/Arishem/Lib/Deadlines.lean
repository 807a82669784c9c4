import Mathlib.Algebra.Order.Group.Nat

/-!
# Work with deadlines

A system that is called at growing times has some work left and has noted a time by which the next
part of it is due. A call that finds it due does a part of the work, and notes a later time, some
waiting time after the call at most. Then all work is done after enough calls: one for each unit of
time up to the deadline, and as many again as a part of the work may take for each part.
-/

namespace Deadlines

variable {S : Type*}

/-- Calls at some times, one after the other. -/
def Follows (step : ℕ → S → S → Prop) : List ℕ → S → S → Prop
  | [], s, s' => s = s'
  | c :: cs, s, s'' => ∃ s', step c s s' ∧ Follows step cs s' s''

/-- The times grow, from a time on. -/
def Growing : ℕ → List ℕ → Prop
  | _, [] => True
  | now, c :: cs => now < c ∧ Growing c cs

instance (now : ℕ) (cs : List ℕ) : Decidable (Growing now cs) := by
  induction cs generalizing now with
  | nil => exact .isTrue trivial
  | cons c cs ih =>
    have := ih c
    exact inferInstanceAs (Decidable (now < c ∧ Growing c cs))

/-- A call at a time does a part of the work, or the work is not yet due or all done. Times have to
stay below a limit. -/
structure Advances (step : ℕ → S → S → Prop) (work : S → ℕ) (Due : ℕ → S → Prop)
    (wait limit : ℕ) : Prop where
  call : ∀ {c t : ℕ} {s s' : S}, Due t s → max t c + wait < limit → step c s s' →
    (work s' < work s ∧ Due (max t c + wait) s') ∨
      (work s' = work s ∧ Due t s' ∧ (c < t ∨ work s = 0))

/-- Enough calls do all the work. -/
theorem Advances.done {step : ℕ → S → S → Prop} {work : S → ℕ} {Due : ℕ → S → Prop}
    {wait limit : ℕ} (h : Advances step work Due wait limit) {now t : ℕ} {cs : List ℕ} {s s' : S}
    (hgrowing : Growing now cs) (hdue : Due t s)
    (henough : work s * (wait + 1) + (t - now) ≤ cs.length)
    (hlimit : ∀ c ∈ cs, max t c + wait * work s + wait < limit) (hcalls : Follows step cs s s') :
    work s' = 0 := by
  induction cs generalizing now t s with
  | nil =>
    obtain rfl : s = s' := hcalls
    have hzero : work s * (wait + 1) = 0 := by
      rw [List.length_nil] at henough
      omega
    exact (Nat.mul_eq_zero.1 hzero).resolve_right (Nat.succ_ne_zero _)
  | cons c cs ih =>
    obtain ⟨hnow, hgrowing⟩ := hgrowing
    obtain ⟨s₁, hstep, hcalls⟩ := hcalls
    rw [List.length_cons] at henough
    have hfirst := hlimit c (List.mem_cons_self ..)
    rcases h.call hdue (by omega) hstep with ⟨hless, hdue'⟩ | ⟨hsame, hdue', hwait⟩
    · have hpart : work s₁ * (wait + 1) + (wait + 1) ≤ work s * (wait + 1) := by
        rw [← Nat.succ_mul]
        exact Nat.mul_le_mul_right _ hless
      have hsplit : wait * work s₁ + wait ≤ wait * work s := by
        rw [← Nat.mul_succ]
        exact Nat.mul_le_mul_left _ hless
      refine ih hgrowing hdue' (by omega) (fun d hd => ?_) hcalls
      have hd := hlimit d (List.mem_cons_of_mem _ hd)
      omega
    · refine ih hgrowing hdue' ?_ (fun d hd => ?_) hcalls
      · rw [hsame]
        rcases hwait with hlt | hzero
        · omega
        · rw [hzero] at henough ⊢
          omega
      · rw [hsame]
        exact hlimit d (List.mem_cons_of_mem _ hd)

end Deadlines
