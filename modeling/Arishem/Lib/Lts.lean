import Mathlib.Data.List.Induction
import Mathlib.Order.Basic

/-!
# Labelled systems with outputs

A system is a deterministic step function on labels: a step is refused (`none`) or gives the next
state and the outputs it produced. All nondeterminism is in the choice of the label, so a property
"for every interleaving" is a property of every label sequence. A path keeps its trace, the labels
with their outputs, because some properties relate the state to what was requested and delivered so
far. Steps may be restricted by a predicate `ok` on the state and the label: the contract of the
callers, or the condition under which a property is claimed.
-/

/-- A labelled system: its initial states and its step function. -/
structure Lts (S L O : Type*) where
  /-- The states a run may start in. -/
  init : S → Prop
  /-- The step on a label, or `none` where the system has no such step. -/
  step : S → L → Option (S × List O)

namespace Lts

section
variable {S L O : Type*} (M : Lts S L O) (ok ok' : S → L → Prop)

/-- What happened on a path: each label with the outputs of its step, oldest first. -/
abbrev Trace (L O : Type*) := List (L × List O)

/-- The paths whose steps all satisfy `ok`, with their trace. -/
inductive Path (s : S) : Trace L O → S → Prop
  | nil : Path s [] s
  | step {s' s'' : S} {tr : Trace L O} {l : L} {os : List O} :
      Path s tr s' → ok s' l → M.step s' l = some (s'', os) → Path s (tr ++ [(l, os)]) s''

/-- A run is a path from an initial state. -/
def Run (s : S) (tr : Trace L O) : Prop := ∃ s₀, M.init s₀ ∧ M.Path ok s₀ tr s

/-- A state is reachable when some run ends in it. -/
def Reachable (s : S) : Prop := ∃ tr, M.Run ok s tr

variable {M ok ok'}

/-! ## Paths -/

/-- Paths are monotone in the restriction on their steps. -/
theorem Path.mono (hok : ∀ s l, ok s l → ok' s l) {s s' : S} {tr : Trace L O}
    (h : M.Path ok s tr s') : M.Path ok' s tr s' := by
  induction h with
  | nil => exact .nil
  | step _ hl hs ih => exact ih.step (hok _ _ hl) hs

/-- Paths compose. -/
theorem Path.append {s s' s'' : S} {tr tr' : Trace L O} (h : M.Path ok s tr s')
    (h' : M.Path ok s' tr' s'') : M.Path ok s (tr ++ tr') s'' := by
  induction h' with
  | nil => simpa using h
  | step _ hl hs ih =>
    rw [← List.append_assoc]
    exact ih.step hl hs

/-- The last step of a path. -/
theorem Path.unsnoc {s s' : S} {tr : Trace L O} {x : L × List O}
    (h : M.Path ok s (tr ++ [x]) s') :
    ∃ m, M.Path ok s tr m ∧ ok m x.1 ∧ M.step m x.1 = some (s', x.2) := by
  generalize ht : tr ++ [x] = tr₁ at h
  cases h with
  | nil => simp at ht
  | @step m _ tr₀ l os h₀ hl hs =>
    obtain ⟨rfl, he⟩ := List.append_inj' ht rfl
    obtain rfl : x = (l, os) := by simpa using he
    exact ⟨m, h₀, hl, hs⟩

/-- A path splits where its trace does. -/
theorem Path.split {s s' : S} {tr tr' : Trace L O} (h : M.Path ok s (tr ++ tr') s') :
    ∃ m, M.Path ok s tr m ∧ M.Path ok m tr' s' := by
  induction tr' using List.reverseRecOn generalizing s' with
  | nil => exact ⟨s', by simpa using h, .nil⟩
  | append_singleton tr' x ih =>
    rw [← List.append_assoc] at h
    obtain ⟨m₁, h₁, hl, hs⟩ := h.unsnoc
    obtain ⟨m, hm, hm'⟩ := ih h₁
    exact ⟨m, hm, hm'.step hl hs⟩

/-- The first step of a path. -/
theorem Path.uncons {s s' : S} {tr : Trace L O} {x : L × List O} (h : M.Path ok s (x :: tr) s') :
    ∃ m, ok s x.1 ∧ M.step s x.1 = some (m, x.2) ∧ M.Path ok m tr s' := by
  have h' : M.Path ok s ([x] ++ tr) s' := h
  obtain ⟨m, h₁, h₂⟩ := h'.split
  have h₁' : M.Path ok s ([] ++ [x]) m := h₁
  obtain ⟨s₀, h₀, hl, hs⟩ := h₁'.unsnoc
  generalize ht : ([] : Trace L O) = tr₀ at h₀
  cases h₀ with
  | nil => exact ⟨m, hl, hs, h₂⟩
  | step => simp at ht

/-- The trace of a path tells where it ends. -/
theorem Path.unique {s s₁ s₂ : S} {tr : Trace L O} (h : M.Path ok s tr s₁)
    (h' : M.Path ok s tr s₂) : s₁ = s₂ := by
  induction h generalizing s₂ with
  | nil =>
    generalize ht : ([] : Trace L O) = tr at h'
    cases h' with
    | nil => rfl
    | step => simp at ht
  | step _ _ hs ih =>
    obtain ⟨m, hm, -, hs'⟩ := h'.unsnoc
    obtain rfl := ih hm
    rw [hs] at hs'
    exact congrArg Prod.fst (Option.some.inj hs')

/-! ## Runs -/

/-- The empty run. -/
theorem Run.init {s : S} (h : M.init s) : M.Run ok s [] := ⟨s, h, .nil⟩

/-- A run goes on by one step. -/
theorem Run.step {s s' : S} {tr : Trace L O} {l : L} {os : List O} (h : M.Run ok s tr)
    (hl : ok s l) (hs : M.step s l = some (s', os)) : M.Run ok s' (tr ++ [(l, os)]) := by
  obtain ⟨s₀, hi, hp⟩ := h
  exact ⟨s₀, hi, hp.step hl hs⟩

/-- A run goes on along a path. -/
theorem Run.path {s s' : S} {tr tr' : Trace L O} (h : M.Run ok s tr) (hp : M.Path ok s tr' s') :
    M.Run ok s' (tr ++ tr') := by
  obtain ⟨s₀, hi, h₀⟩ := h
  exact ⟨s₀, hi, h₀.append hp⟩

/-- Runs are monotone in the restriction on their steps. -/
theorem Run.mono (hok : ∀ s l, ok s l → ok' s l) {s : S} {tr : Trace L O} (h : M.Run ok s tr) :
    M.Run ok' s tr := by
  obtain ⟨s₀, hi, hp⟩ := h
  exact ⟨s₀, hi, hp.mono hok⟩

/-- A property of state and trace that holds at the start and that each step keeps holds of every
run. The step may use that it starts from a run. -/
theorem Run.induct {P : S → Trace L O → Prop} (hinit : ∀ s, M.init s → P s [])
    (hstep : ∀ s tr l s' os, M.Run ok s tr → P s tr → ok s l → M.step s l = some (s', os) →
      P s' (tr ++ [(l, os)]))
    {s : S} {tr : Trace L O} (h : M.Run ok s tr) : P s tr := by
  obtain ⟨s₀, hi, hp⟩ := h
  induction hp with
  | nil => exact hinit _ hi
  | step hr hl hs ih => exact hstep _ _ _ _ _ ⟨s₀, hi, hr⟩ ih hl hs

/-! ## Reachable states -/

/-- An initial state is reachable. -/
theorem Reachable.init {s : S} (h : M.init s) : M.Reachable ok s := ⟨[], Run.init h⟩

/-- One more allowed step from a reachable state. -/
theorem Reachable.step {s s' : S} {l : L} {os : List O} (h : M.Reachable ok s) (hl : ok s l)
    (hs : M.step s l = some (s', os)) : M.Reachable ok s' := by
  obtain ⟨tr, hr⟩ := h
  exact ⟨_, hr.step hl hs⟩

/-- A path from a reachable state leads to reachable states. -/
theorem Reachable.path {s s' : S} {tr : Trace L O} (h : M.Reachable ok s)
    (hp : M.Path ok s tr s') : M.Reachable ok s' := by
  obtain ⟨tr', hr⟩ := h
  exact ⟨_, hr.path hp⟩

/-- Reachability is monotone in the restriction on the steps. -/
theorem Reachable.mono (hok : ∀ s l, ok s l → ok' s l) {s : S} (h : M.Reachable ok s) :
    M.Reachable ok' s := by
  obtain ⟨tr, hr⟩ := h
  exact ⟨tr, hr.mono hok⟩

/-- The invariant rule: a property of states that holds initially and that each allowed step keeps
holds in every reachable state. -/
theorem Reachable.invariant {I : S → Prop} (hinit : ∀ s, M.init s → I s)
    (hstep : ∀ s l s' os, I s → ok s l → M.step s l = some (s', os) → I s')
    {s : S} (h : M.Reachable ok s) : I s := by
  obtain ⟨tr, hr⟩ := h
  exact hr.induct (P := fun s _ => I s) hinit fun _ _ _ _ _ _ hI hl hs => hstep _ _ _ _ hI hl hs

/-- A property that each step from a reachable state keeps, unless the step is one of those that may
end it, lasts along a path without such a step. -/
theorem Reachable.lasts (P : S → Prop) (stop : L × List O → Prop)
    (hstep : ∀ s l s' os, M.Reachable ok s → P s → ok s l → M.step s l = some (s', os) →
      P s' ∨ stop (l, os))
    {s s' : S} {tr : Trace L O} (h : M.Reachable ok s) (hP : P s) (hp : M.Path ok s tr s')
    (hstop : ∀ x ∈ tr, ¬ stop x) : P s' := by
  induction hp with
  | nil => exact hP
  | step hp hl hs ih =>
    have hP' := ih fun x hx => hstop x (List.mem_append_left _ hx)
    rcases hstep _ _ _ _ (h.path hp) hP' hl hs with h' | h'
    · exact h'
    · exact absurd h' (hstop _ (by simp))

end

/-! ## Executions -/

section
variable {S L O : Type*} (M : Lts S L O) (ok : S → L → Prop) [∀ s l, Decidable (ok s l)]

/-- Run a list of labels, stopping at the first step that is not allowed or refused. -/
def exec : S → List L → Option (S × Trace L O)
  | s, [] => some (s, [])
  | s, l :: ls =>
    if ok s l then
      match M.step s l with
      | none => none
      | some (s', os) =>
        match exec s' ls with
        | none => none
        | some (t, tr) => some (t, (l, os) :: tr)
    else none

variable {M ok}

/-- An execution that succeeds is a path. -/
theorem path_of_exec {s t : S} {ls : List L} {tr : Trace L O}
    (he : M.exec ok s ls = some (t, tr)) : M.Path ok s tr t := by
  induction ls generalizing s tr with
  | nil =>
    obtain ⟨rfl, rfl⟩ : s = t ∧ [] = tr := by simpa [Lts.exec] using he
    exact .nil
  | cons l ls ih =>
    rw [Lts.exec] at he
    split at he <;> [rename_i hl; cases he]
    split at he <;> [cases he; rename_i s' os hs]
    split at he <;> [cases he; rename_i t' tr₂ hx]
    obtain ⟨rfl, rfl⟩ : t' = t ∧ (l, os) :: tr₂ = tr := by simpa using he
    exact Path.append (Path.step .nil hl hs) (ih hx)

/-- The trace of an execution has the labels that it was given. -/
theorem labels_of_exec {s t : S} {ls : List L} {tr : Trace L O}
    (he : M.exec ok s ls = some (t, tr)) : tr.map Prod.fst = ls := by
  induction ls generalizing s tr with
  | nil =>
    obtain ⟨-, rfl⟩ : s = t ∧ [] = tr := by simpa [Lts.exec] using he
    rfl
  | cons l ls ih =>
    rw [Lts.exec] at he
    split at he <;> [rename_i hl; cases he]
    split at he <;> [cases he; rename_i s' os hs]
    split at he <;> [cases he; rename_i t' tr₂ hx]
    obtain ⟨rfl, rfl⟩ : t' = t ∧ (l, os) :: tr₂ = tr := by simpa using he
    rw [List.map_cons, ih hx]

variable (M ok)

/-- A successful execution from an initial state ends in a run. -/
theorem run_of_exec (P : S → Trace L O → Bool) {s : S} (ls : List L) (h : M.init s)
    (he : (M.exec ok s ls).any (fun x => P x.1 x.2) = true) : ∃ t tr, M.Run ok t tr ∧ P t tr := by
  obtain ⟨⟨t, tr⟩, hx, hp⟩ := (Option.any_eq_true _ _).1 he
  exact ⟨t, tr, ⟨s, h, path_of_exec hx⟩, hp⟩

/-- A successful execution from an initial state reaches its last state. -/
theorem reachable_of_exec (P : S → Bool) {s : S} (ls : List L) (h : M.init s)
    (he : (M.exec ok s ls).any (fun x => P x.1) = true) : ∃ t, M.Reachable ok t ∧ P t := by
  obtain ⟨t, tr, hr, hp⟩ := run_of_exec M ok (fun t _ => P t) ls h he
  exact ⟨t, ⟨tr, hr⟩, hp⟩

end

end Lts
