import Arishem.Lib.Recency
import Mathlib.Data.List.Basic
import Mathlib.Data.List.InsertIdx
import Mathlib.Logic.Function.Basic

/-!
# The action tracker

An entry of Scooby's signature table tracks the last actions on its page in a deque of pointers, the
least recent first. `insert_action_tracker` erases a pointer that it finds and then reads through the
iterator of the erased element to push it again, which the standard leaves undefined. What is read is
modelled after libstdc++: it is the erased pointer at both ends of the deque, and a neighbour in the
middle. `track_prefetch` calls it at most once for an offset of the page, so confidences stay small
and are natural numbers.
-/

namespace Arishem

namespace Scooby

/-- `ActionTracker`. -/
structure ActionTracker where
  action : Int32
  conf : ℕ
  deriving DecidableEq

/-- The `action_tracker` of an entry, and the heap: what was made, or nothing where it is deleted. -/
structure Tracker where
  deque : List ℕ
  heap : ℕ → Option ActionTracker
  made : ℕ

namespace Tracker

/-- The tracker of a new entry. -/
def init : Tracker := ⟨[], fun _ => none, 0⟩

/-- `find_if` for an action: the place where it is found, unless a deleted object is read before. -/
def findFrom (heap : ℕ → Option ActionTracker) (action : Int32) : List ℕ → Option (Option ℕ)
  | [] => some none
  | p :: ps =>
    match heap p with
    | none => none
    | some t =>
      if t.action = action then some (some 0)
      else (findFrom heap action ps).map (·.map (· + 1))

/-- What is read through the iterator of an element that `erase` has removed: `erase` closes the gap
from the nearer end and leaves the slot at that end as it was. -/
def readErased (deque : List ℕ) (i : ℕ) : Option ℕ :=
  if i < deque.length / 2 then deque[i - 1]?
  else if i + 1 < deque.length then deque[i + 1]?
  else deque[i]?

/-- An action that is found gains confidence, and is to move to the back. -/
def touch (s : Tracker) (i : ℕ) : Option Tracker :=
  match s.deque[i]?, readErased s.deque i with
  | some p, some q => some
      { s with
        deque := s.deque.eraseIdx i ++ [q]
        heap := Function.update s.heap p
          ((s.heap p).map fun t => { t with conf := t.conf + 1 }) }
  | _, _ => none

/-- The front of a full tracker is deleted. -/
def evict (n : ℕ) (s : Tracker) : Option Tracker :=
  if n ≤ s.deque.length then
    match s.deque with
    | [] => none
    | victim :: rest =>
      if s.heap victim = none then none
      else some { s with deque := rest, heap := Function.update s.heap victim none }
  else some s

/-- A new action enters at the back. -/
def enter (s : Tracker) (action : Int32) : Tracker where
  deque := s.deque ++ [s.made]
  heap := Function.update s.heap s.made (some ⟨action, 0⟩)
  made := s.made + 1

/-- `insert_action_tracker`, with `scooby_action_tracker_size`. -/
def insertActionTracker (n : ℕ) (s : Tracker) (prefOffset : Int32) : Option Tracker :=
  match findFrom s.heap prefOffset s.deque with
  | none => none
  | some (some i) => s.touch i
  | some none => (s.evict n).map (·.enter prefOffset)

/-- `search_action_tracker`: the confidence of an action that is found. -/
def searchActionTracker (s : Tracker) (action : Int32) : Option (Option ℕ) :=
  match findFrom s.heap action s.deque with
  | none => none
  | some none => some none
  | some (some i) => ((s.deque[i]?).bind s.heap).map fun t => some t.conf

/-- The tracker after some calls. -/
def run (n : ℕ) (actions : List Int32) : Option Tracker :=
  actions.foldlM (insertActionTracker n) init

/-! ## What the tracker is for -/

/-- The tracker is the least-recently-used list of the actions, with the repeats of each as its
confidence. -/
structure IsLru (n : ℕ) (actions : List Int32) (s : Tracker) : Prop where
  size : s.deque.length ≤ n
  distinct : (s.deque.map fun p => (s.heap p).map (·.action)).Nodup
  entries : s.deque.map s.heap = (Recency.lru n actions).map fun e => some ⟨e.1, e.2⟩
  recency : s.deque.map s.heap =
    (Recency.recent n actions).map fun a => some ⟨a, Recency.repeats n a actions⟩
  search : ∀ a, s.searchActionTracker a =
    some (if a ∈ Recency.recent n actions then some (Recency.repeats n a actions) else none)

/-- Every call for an action in the tracker is for the least or the most recent one. -/
def TouchesEnds (n : ℕ) (actions : List Int32) : Prop :=
  ∀ before a after, actions = before ++ a :: after → a ∈ Recency.recent n before →
    (Recency.recent n before).head? = some a ∨ (Recency.recent n before).getLast? = some a

section
variable {n : ℕ} {actions : List Int32} {s : Tracker} {a : Int32}

/-- The pointers are different and name the recent actions with their repeats. -/
structure Good (n : ℕ) (actions : List Int32) (s : Tracker) : Prop where
  nodup : s.deque.Nodup
  made : ∀ p ∈ s.deque, p < s.made
  entries : s.deque.map s.heap =
    (Recency.recent n actions).map fun a => some ⟨a, Recency.repeats n a actions⟩

theorem findFrom_eq {heap : ℕ → Option ActionTracker} {f : Int32 → ℕ} {deque : List ℕ}
    {keys : List Int32} (h : deque.map heap = keys.map fun a => some ⟨a, f a⟩) (a : Int32) :
    findFrom heap a deque = some (if a ∈ keys then some (keys.idxOf a) else none) := by
  induction deque generalizing keys with
  | nil =>
    obtain rfl : keys = [] := by simpa using h.symm
    rfl
  | cons p ps ih =>
    match keys, h with
    | b :: keys, h =>
      obtain ⟨hp, hps⟩ := List.cons.inj h
      rw [findFrom, hp, ih hps]
      by_cases hb : b = a
      · subst hb
        simp
      · have ha : a ≠ b := Ne.symm hb
        simp only [hb, if_false, List.mem_cons, ha, false_or, List.idxOf_cons_ne _ hb]
        split
        · rfl
        · rfl

theorem Good.length_eq (h : Good n actions s) :
    s.deque.length = (Recency.recent n actions).length := by
  simpa using congrArg List.length h.entries

/-- The pointer at a place names the action there. -/
theorem Good.heap_eq (h : Good n actions s) {i p : ℕ} (hp : s.deque[i]? = some p) :
    ∃ a, (Recency.recent n actions)[i]? = some a ∧
      s.heap p = some ⟨a, Recency.repeats n a actions⟩ := by
  have hi := congrArg (·[i]?) h.entries
  simp only [List.getElem?_map, hp, Option.map_some] at hi
  cases ha : (Recency.recent n actions)[i]? with
  | none =>
    rw [ha] at hi
    cases hi
  | some a =>
    rw [ha] at hi
    exact ⟨a, rfl, Option.some.inj hi⟩

theorem Good.isLru (hn : 0 < n) (h : Good n actions s) : IsLru n actions s := by
  have hfind := findFrom_eq h.entries
  refine ⟨h.length_eq ▸ Recency.length_recent_le n actions, ?_, ?_, h.entries, fun a => ?_⟩
  · have hactions := congrArg (List.map (Option.map ActionTracker.action)) h.entries
    simp only [List.map_map, Function.comp_def, Option.map_some] at hactions
    rw [hactions]
    exact (Recency.nodup_recent n actions).map fun _ _ h => Option.some.inj h
  · rw [h.entries, Recency.lru_eq hn, List.map_map]
    rfl
  · rw [searchActionTracker, hfind]
    by_cases ha : a ∈ Recency.recent n actions
    · have hlt := List.idxOf_lt_length_of_mem ha
      have hlt' := h.length_eq ▸ hlt
      obtain ⟨b, hb, hheap⟩ := h.heap_eq (List.getElem?_eq_getElem hlt')
      rw [List.getElem?_eq_getElem hlt, List.getElem_idxOf] at hb
      obtain rfl := Option.some.inj hb
      simp only [if_pos ha, List.getElem?_eq_getElem hlt', Option.bind_some, hheap,
        Option.map_some]
    · simp only [if_neg ha]

/-- A new action at the back of what stays of a good tracker. -/
theorem Good.pushed (h : Good n actions s) {t : Tracker} {keys : List Int32}
    (ha : a ∉ Recency.recent n actions) (hsub : t.deque.Sublist s.deque)
    (hheap : ∀ p ∈ t.deque, t.heap p = s.heap p) (hmade : t.made = s.made)
    (hkeys : t.deque.map s.heap = keys.map fun a => some ⟨a, Recency.repeats n a actions⟩)
    (hmem : ∀ b ∈ keys, b ∈ Recency.recent n actions)
    (hrecent : Recency.recent n (actions ++ [a]) = keys ++ [a]) :
    Good n (actions ++ [a]) (t.enter a) := by
  have hlt : ∀ p ∈ t.deque, p < s.made := fun p hp => h.made p (hsub.subset hp)
  refine ⟨?_, fun p hp => ?_, ?_⟩
  · rw [Tracker.enter, List.nodup_append]
    refine ⟨h.nodup.sublist hsub, List.nodup_singleton _, fun p hp q hq => ?_⟩
    rw [List.mem_singleton] at hq
    have := hlt p hp
    omega
  · rw [Tracker.enter, List.mem_append, List.mem_singleton] at hp
    have hmade' : (t.enter a).made = t.made + 1 := rfl
    rw [hmade']
    rcases hp with hp | rfl
    · have := hlt p hp
      omega
    · exact Nat.lt_succ_self _
  · have hdeque : (t.enter a).deque = t.deque ++ [t.made] := rfl
    have hnew : (t.enter a).heap = Function.update t.heap t.made (some ⟨a, 0⟩) := rfl
    rw [hrecent, hdeque, hnew, List.map_append, List.map_append, List.map_singleton,
      List.map_singleton, Function.update_self, Recency.repeats_snoc_self, if_neg ha]
    congr 1
    calc t.deque.map (Function.update t.heap t.made (some ⟨a, 0⟩))
        = t.deque.map s.heap := List.map_congr_left fun p hp => by
          have hne : p ≠ t.made := by
            have := hlt p hp
            omega
          rw [Function.update_of_ne hne, hheap p hp]
      _ = keys.map fun a => some ⟨a, Recency.repeats n a actions⟩ := hkeys
      _ = keys.map fun b => some ⟨b, Recency.repeats n b (actions ++ [a])⟩ :=
          List.map_congr_left fun b hb => by
            rw [Recency.repeats_snoc_of_ne n actions]
            rintro rfl
            exact ha (hmem _ hb)

/-- A new action keeps the tracker right. -/
theorem Good.enter (hn : 0 < n) (h : Good n actions s) (ha : a ∉ Recency.recent n actions) :
    ∃ s', insertActionTracker n s a = some s' ∧ Good n (actions ++ [a]) s' := by
  have hfind := findFrom_eq h.entries a
  rw [if_neg ha] at hfind
  have hrecent := Recency.recent_snoc_of_not_mem hn ha
  rw [Window.push] at hrecent
  simp only [insertActionTracker, hfind, evict]
  have hlen := h.length_eq
  by_cases hfull : n ≤ s.deque.length
  · rw [if_pos hfull]
    rw [if_pos (hlen ▸ hfull)] at hrecent
    cases hd : s.deque with
    | nil =>
      rw [hd] at hfull
      exact absurd hfull (Nat.not_le_of_lt hn)
    | cons victim rest =>
      obtain ⟨b, -, hheap⟩ := h.heap_eq (i := 0) (p := victim) (by rw [hd]; rfl)
      have hnodup := h.nodup
      rw [hd, List.nodup_cons] at hnodup
      have hne : s.heap victim ≠ none := by
        rw [hheap]
        exact Option.some_ne_none _
      simp only [if_neg hne, Option.map_some]
      refine ⟨_, rfl, h.pushed ha ?_ (fun p hp => ?_) rfl ?_
        (fun b hb => List.mem_of_mem_drop hb) hrecent⟩
      · rw [hd]
        exact List.sublist_cons_self ..
      · have hpv : p ≠ victim := fun heq => hnodup.1 (heq ▸ hp)
        exact Function.update_of_ne hpv ..
      · have hentries := congrArg (List.drop 1) h.entries
        rw [hd] at hentries
        rw [List.map_drop]
        exact hentries
  · rw [if_neg hfull]
    rw [if_neg (hlen ▸ hfull)] at hrecent
    exact ⟨_, rfl, h.pushed ha (List.Sublist.refl _) (fun _ _ => rfl) rfl h.entries
      (fun b hb => hb) hrecent⟩

/-- At both ends of the deque, the erased element is read. -/
theorem readErased_end {deque : List ℕ} {i : ℕ} (h : i = 0 ∨ i + 1 = deque.length) :
    readErased deque i = deque[i]? := by
  rw [readErased]
  rcases h with rfl | h
  · split
    · rfl
    · rename_i hhalf
      rw [if_neg (by omega)]
  · rw [if_neg (by omega), if_neg (by omega)]

/-- In the middle, a neighbour is read, which stays in the deque. -/
theorem readErased_middle {deque : List ℕ} {i : ℕ} (h₀ : 0 < i)
    (h₁ : i + 1 < deque.length) :
    ∃ q, readErased deque i = some q ∧ q ∈ deque.eraseIdx i := by
  have hj : ∃ j, j ≠ i ∧ j < deque.length ∧ readErased deque i = deque[j]? := by
    rw [readErased]
    split
    · exact ⟨i - 1, by omega, by omega, rfl⟩
    · exact ⟨i + 1, by omega, h₁, rfl⟩
  obtain ⟨j, hne, hlt, hread⟩ := hj
  refine ⟨deque[j], by rw [hread, List.getElem?_eq_getElem hlt], ?_⟩
  rw [List.mem_eraseIdx_iff_getElem]
  exact ⟨j, hlt, hne, rfl⟩

/-- A call for a tracked action finds its pointer. -/
theorem Good.found (h : Good n actions s) (ha : a ∈ Recency.recent n actions) :
    ∃ p, s.deque[(Recency.recent n actions).idxOf a]? = some p ∧
      s.heap p = some ⟨a, Recency.repeats n a actions⟩ ∧
      insertActionTracker n s a = s.touch ((Recency.recent n actions).idxOf a) := by
  have hlt := List.idxOf_lt_length_of_mem ha
  have hlt' := h.length_eq ▸ hlt
  have hp := List.getElem?_eq_getElem hlt'
  obtain ⟨b, hb, hheap⟩ := h.heap_eq hp
  rw [List.getElem?_eq_getElem hlt, List.getElem_idxOf] at hb
  obtain rfl := Option.some.inj hb
  refine ⟨_, hp, hheap, ?_⟩
  rw [insertActionTracker, findFrom_eq h.entries, if_pos ha]

/-- Touching an end of the deque keeps the tracker right. -/
theorem Good.touch_end (hn : 0 < n) (h : Good n actions s) (ha : a ∈ Recency.recent n actions)
    (hend : (Recency.recent n actions).idxOf a = 0 ∨
      (Recency.recent n actions).idxOf a + 1 = s.deque.length) :
    ∃ s', insertActionTracker n s a = some s' ∧ Good n (actions ++ [a]) s' := by
  obtain ⟨p, hp, hheap, htouch⟩ := h.found ha
  have hread := readErased_end hend
  rw [htouch, touch, hread, hp]
  have hnot : ∀ q ∈ s.deque.eraseIdx ((Recency.recent n actions).idxOf a), q ≠ p := by
    rintro q hq rfl
    obtain ⟨j, hj, hne, hq⟩ := List.mem_eraseIdx_iff_getElem.1 hq
    have hlt := (List.getElem?_eq_some_iff.1 hp).1
    have hget := (List.getElem?_eq_some_iff.1 hp).2
    exact hne (h.nodup.getElem_inj_iff.1 (hq.trans hget.symm))
  refine ⟨_, rfl, ?_, fun q hq => ?_, ?_⟩
  · rw [List.nodup_append]
    refine ⟨h.nodup.eraseIdx _, List.nodup_singleton _, fun q hq r hr => ?_⟩
    rw [List.mem_singleton] at hr
    exact hr ▸ hnot q hq
  · rcases List.mem_append.1 hq with hq | hq
    · exact h.made q (List.mem_of_mem_eraseIdx hq)
    · rw [List.mem_singleton] at hq
      exact hq ▸ h.made p (List.mem_of_getElem? hp)
  · have hnodup := Recency.nodup_recent n actions
    have herase : (s.deque.eraseIdx ((Recency.recent n actions).idxOf a)).map s.heap =
        ((Recency.recent n actions).erase a).map fun b =>
          some ⟨b, Recency.repeats n b actions⟩ := by
      rw [List.erase_eq_eraseIdx_of_idxOf rfl, ← List.eraseIdx_map, ← List.eraseIdx_map, h.entries]
    dsimp only
    rw [Recency.recent_snoc_of_mem hn ha, List.map_append, List.map_append, List.map_singleton,
      List.map_singleton, Function.update_self, hheap, Recency.repeats_snoc_self, if_pos ha]
    congr 1
    calc (s.deque.eraseIdx _).map (Function.update s.heap p _)
        = (s.deque.eraseIdx _).map s.heap := List.map_congr_left fun q hq =>
          Function.update_of_ne (hnot q hq) ..
      _ = ((Recency.recent n actions).erase a).map fun b =>
          some ⟨b, Recency.repeats n b actions⟩ := herase
      _ = _ := List.map_congr_left fun b hb => by
          rw [Recency.repeats_snoc_of_ne n actions]
          rintro rfl
          exact hnodup.not_mem_erase hb

/-- In the middle, the neighbour is in the deque twice. -/
theorem Good.touch_middle (h : Good n actions s) (ha : a ∈ Recency.recent n actions)
    (h₀ : 0 < (Recency.recent n actions).idxOf a)
    (h₁ : (Recency.recent n actions).idxOf a + 1 < s.deque.length) {s' : Tracker} {l : List Int32}
    (hs' : insertActionTracker n s a = some s') : ¬ IsLru n l s' := by
  obtain ⟨p, hp, -, htouch⟩ := h.found ha
  obtain ⟨q, hq, hmem⟩ := readErased_middle h₀ h₁
  rw [htouch, touch, hp, hq] at hs'
  obtain rfl := Option.some.inj hs'
  intro hlru
  have hnodup := List.Nodup.of_map _ hlru.distinct
  exact List.disjoint_of_nodup_append hnodup hmem (List.mem_singleton_self q)

theorem head?_eq_some_iff (ha : a ∈ actions) : actions.head? = some a ↔ actions.idxOf a = 0 := by
  obtain ⟨b, l, rfl⟩ := List.exists_cons_of_ne_nil (List.ne_nil_of_mem ha)
  by_cases hb : b = a
  · simp [hb]
  · simp [hb, List.idxOf_cons_ne]

theorem getLast?_eq_some_iff (hnodup : actions.Nodup) (ha : a ∈ actions) :
    actions.getLast? = some a ↔ actions.idxOf a + 1 = actions.length := by
  have hlt := List.idxOf_lt_length_of_mem ha
  rw [List.getLast?_eq_getElem?, List.getElem?_eq_getElem (by omega), Option.some.injEq]
  constructor
  · intro h
    have hidx := hnodup.idxOf_getElem (actions.length - 1) (by omega)
    rw [h] at hidx
    omega
  · intro h
    have hidx : actions.length - 1 = actions.idxOf a := by omega
    simp only [hidx, List.getElem_idxOf]

theorem touchesEnds_snoc : TouchesEnds n (actions ++ [a]) ↔ TouchesEnds n actions ∧
    (a ∈ Recency.recent n actions → (Recency.recent n actions).head? = some a ∨
      (Recency.recent n actions).getLast? = some a) := by
  constructor
  · intro h
    refine ⟨fun before b after heq hb => ?_, h actions a [] rfl⟩
    exact h before b (after ++ [a]) (by rw [heq]; simp) hb
  · rintro ⟨h, hlast⟩ before b after heq hb
    rcases List.eq_nil_or_concat after with rfl | ⟨after, c, rfl⟩
    · obtain ⟨rfl, hab⟩ := List.append_inj' heq rfl
      obtain rfl : a = b := by simpa using hab
      exact hlast hb
    · have heq' : actions ++ [a] = (before ++ b :: after) ++ [c] := by simpa using heq
      exact h before b after (List.append_inj' heq' rfl).1 hb

theorem TouchesEnds.mono {l : List Int32} (h : TouchesEnds n actions) (hl : l <+: actions) :
    TouchesEnds n l := by
  obtain ⟨rest, rfl⟩ := hl
  intro before b after heq hb
  exact h before b (after ++ rest) (by rw [heq]; simp) hb

/-- The ends of the deque are the least and the most recent action. -/
theorem Good.end_iff (h : Good n actions s) (ha : a ∈ Recency.recent n actions) :
    ((Recency.recent n actions).idxOf a = 0 ∨
      (Recency.recent n actions).idxOf a + 1 = s.deque.length) ↔
    ((Recency.recent n actions).head? = some a ∨
      (Recency.recent n actions).getLast? = some a) := by
  rw [head?_eq_some_iff ha, getLast?_eq_some_iff (Recency.nodup_recent n actions) ha, h.length_eq]

theorem good_init (n : ℕ) : Good n [] init where
  nodup := List.nodup_nil
  made _ hp := absurd hp (List.not_mem_nil)
  entries := by simp [init, Recency.recent, Window.last]

theorem run_snoc (n : ℕ) (actions : List Int32) (a : Int32) :
    run n (actions ++ [a]) = (run n actions).bind (insertActionTracker n · a) := by
  simp [run, List.foldlM_append]

theorem good_of_touchesEnds (hn : 0 < n) (h : TouchesEnds n actions) :
    ∃ s, run n actions = some s ∧ Good n actions s := by
  induction actions using List.reverseRecOn with
  | nil => exact ⟨init, rfl, good_init n⟩
  | append_singleton actions a ih =>
    obtain ⟨hbefore, hlast⟩ := touchesEnds_snoc.1 h
    obtain ⟨s, hs, hgood⟩ := ih hbefore
    rw [run_snoc, hs]
    by_cases ha : a ∈ Recency.recent n actions
    · exact hgood.touch_end hn ha ((hgood.end_iff ha).2 (hlast ha))
    · exact hgood.enter hn ha

theorem touchesEnds_of_isLru (hn : 0 < n)
    (h : ∀ l, l <+: actions → ∃ s, run n l = some s ∧ IsLru n l s) : TouchesEnds n actions := by
  induction actions using List.reverseRecOn with
  | nil =>
    intro before a after heq
    exact absurd heq (by simp)
  | append_singleton actions a ih =>
    have hbefore := ih fun l hl => h l (hl.trans (List.prefix_append ..))
    refine touchesEnds_snoc.2 ⟨hbefore, fun ha => ?_⟩
    obtain ⟨s, hs, hgood⟩ := good_of_touchesEnds hn hbefore
    obtain ⟨s', hs', hlru⟩ := h _ (List.prefix_refl _)
    rw [run_snoc, hs] at hs'
    rw [← hgood.end_iff ha]
    by_contra hmiddle
    have hlt := List.idxOf_lt_length_of_mem ha
    rw [← hgood.length_eq] at hlt
    exact hgood.touch_middle ha (by omega) (by omega) hs' hlru

/-- A tracker of two actions has no middle, so that it is the least-recently-used list through every
sequence of calls. -/
theorem touchesEnds_of_le_two (hn : n ≤ 2) (actions : List Int32) : TouchesEnds n actions := by
  intro before a after _ ha
  have hle := Recency.length_recent_le n before
  have hlt := List.idxOf_lt_length_of_mem ha
  rw [head?_eq_some_iff ha, getLast?_eq_some_iff (Recency.nodup_recent n before) ha]
  omega

/-- The tracker is the least-recently-used list through a sequence of calls if and only if every
call for a tracked action is for the least or the most recent one. -/
theorem tracker_isLru_iff (n : ℕ) (hn : 1 ≤ n) (actions : List Int32) :
    (∀ l, l <+: actions → ∃ s, run n l = some s ∧ IsLru n l s) ↔ TouchesEnds n actions := by
  refine ⟨touchesEnds_of_isLru hn, fun h l hl => ?_⟩
  obtain ⟨s, hs, hgood⟩ := good_of_touchesEnds hn (h.mono hl)
  exact ⟨s, hs, hgood.isLru hn⟩

theorem tracker_isLru_iff_two : 1 ≤ 2 ∧
    ((∀ l, l <+: [1, 2, 1, 1, 3] → ∃ s, run 2 l = some s ∧ IsLru 2 l s) ↔
      TouchesEnds 2 [1, 2, 1, 1, 3]) :=
  ⟨by decide, tracker_isLru_iff 2 (by decide) [1, 2, 1, 1, 3]⟩

/-- Touching the second of three actions loses it: the third is in the deque twice. -/
theorem tracker_loses_touched :
    ¬ ∀ n, 1 ≤ n → ∀ actions, ∃ s, run n actions = some s ∧ IsLru n actions s := by
  intro h
  obtain ⟨s, hs, hlru⟩ := h 3 (by decide) [1, 2, 3, 2]
  have hlost : (run 3 [1, 2, 3, 2]).map (·.deque) = some [0, 2, 2] := by decide
  rw [hs] at hlost
  have hdeque : s.deque = [0, 2, 2] := Option.some.inj hlost
  have hnodup := List.Nodup.of_map _ hlru.distinct
  rw [hdeque] at hnodup
  exact absurd hnodup (by decide)

end

end Tracker

end Scooby

end Arishem
