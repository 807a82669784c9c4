import Arishem.Prefetchers.Tracking

/-!
# Runs of Scooby

`predict` is given one state and, when several entries may hold an address, makes two entries with
it: one that `track` pushes for the address it predicts, and one that rewards the hit in the tracker.
The first one goes without its consensus vector. Unless a run comes there, the pipeline is right and
every entry owns its state and its vector.
-/

namespace Arishem

namespace Scooby

variable {σ : Type}

/-- A call that predicts an address that is in the tracker. -/
def Call.Hits {k : Knobs σ} (s : Scooby σ) : Call k → Prop
  | .invokePrefetcher address _ choice => Scooby.Hits s (pageOf address) (offsetOf address) choice
  | .registerFill _ => False
  | .registerPrefetchHit _ => False
  | .updateBw _ => False

section
variable (k : Knobs σ)

/-- A call that makes two entries with one state. -/
def MakesTwo (s : Scooby σ) (c : Call k) : Prop :=
  k.enableTrackMultiple = true ∧ k.enableRewardTrackerHit = true ∧ c.Hits s

/-- A call that makes two entries, or one without its consensus vector. -/
def LosesVote (s : Scooby σ) (c : Call k) : Prop :=
  k.enableTrackMultiple = true ∧
    (k.enableRewardTrackerHit = true ∨ k.enableFeaturewiseEngine = true) ∧ c.Hits s

/-- A condition on the calls of a run, each with the state before it. -/
def Along (P : Scooby σ → Call k → Prop) : Scooby σ → List (Call k) → Prop
  | _, [] => True
  | s, c :: calls => P s c ∧ ∀ s', call k s c = .ok s' → Along P s' calls

/-- The consensus vectors that `chooseAction` produced, access by access. -/
def consensusOf (calls : List (Call k)) : List (List Bool) :=
  calls.filterMap fun
    | .invokePrefetcher _ _ choice => some choice.consensusVec
    | _ => none

/-- Every entry owns its state and its consensus vector: the entries refer to different states, and
the vector of an entry, under the featurewise engine, is the one of the access that made its state. -/
structure Owned (calls : List (Call k)) (s : Scooby σ) : Prop where
  states : s.refs.Nodup
  consensus : k.enableFeaturewiseEngine = true →
    ∀ e ∈ s.held, (consensusOf k calls)[e.state]? = some e.consensusVec

end

section
variable {k : Knobs σ} {s s' : Scooby σ} {e : PTEntry}

/-! ## Calls -/

theorem Inv.ref_lt (h : Inv k s) {r : ℕ} (hr : r ∈ s.refs) : r < s.states.length := by
  obtain ⟨e, he, rfl⟩ := List.mem_map.1 hr
  have hstate : ∃ st, s.states[e.state]? = some st := by
    rcases List.mem_append.1 he with he | he
    · obtain ⟨-, l, -, ht⟩ := h.last_some e (by simpa using he)
      exact ⟨_, ht.state⟩
    · obtain ⟨l, -, -, ht⟩ := h.tracked e he
      exact ⟨_, ht.state⟩
  obtain ⟨st, hst⟩ := hstate
  exact (List.getElem?_eq_some_iff.1 hst).1

/-- A new state on the heap. -/
theorem Inv.measure (h : Inv k s) (st : σ) : Inv k { s with states := s.states ++ [some st] } := by
  have hold : ∀ {r : ℕ} {x : Option σ}, s.states[r]? = some x →
      (s.states ++ [some st])[r]? = some x := by
    intro r x hx
    rw [List.getElem?_append_left (List.getElem?_eq_some_iff.1 hx).1]
    exact hx
  exact { h with
    tracked := fun e he => by
      obtain ⟨l, hl, hlive, ht⟩ := h.tracked e he
      exact ⟨l, hl, hlive, { ht with state := hold ht.state }⟩
    last_some := fun e he => by
      obtain ⟨hid, l, hl, ht⟩ := h.last_some e he
      exact ⟨hid, l, hl, { ht with state := hold ht.state }⟩ }

/-- The same addresses are hit behind a call that keeps the entries. -/
theorem Keeps.hits (h : Keeps s s') {page : UInt64} {offset : UInt32} {choice : Choice k}
    (hhits : Hits s' page offset choice) : Hits s page offset choice := by
  obtain ⟨prefOffset, hpredicted, e', he', haddr⟩ := hhits
  obtain ⟨e, he, hstamp⟩ := h.mem he'
  exact ⟨prefOffset, hpredicted, e, he, (congrArg Stamp.address hstamp).trans haddr⟩

/-- An access. -/
theorem Inv.invokePrefetcher_spec (h : Inv k s) (hsize : 1 ≤ k.ptSize) (address : UInt64) (st : σ)
    (choice : Choice k) (htwice : ¬ (k.enableTrackMultiple = true ∧
      k.enableRewardTrackerHit = true ∧ Hits s (pageOf address) (offsetOf address) choice)) :
    ∃ s', invokePrefetcher k s address st choice = .ok s' ∧ Inv k s' ∧
      s'.states.length = s.states.length + 1 ∧
      ∀ x ∈ s'.held, (∃ y ∈ s.held, y.vote = x.vote) ∨ (x.state = s.states.length ∧
        (x.consensusVec = choice.vec ∨ (k.enableTrackMultiple = true ∧
          Hits s (pageOf address) (offsetOf address) choice))) := by
  obtain ⟨s₁, hrun, hinv, hframe⟩ := h.rewardDemand_spec address
  have hstate : (s₁.states ++ [some st])[s₁.states.length]? = some (some st) := by simp
  have hhits : ∀ {page : UInt64} {offset : UInt32},
      Hits { s₁ with states := s₁.states ++ [some st] } page offset choice →
        Hits s page offset choice := fun hh => hframe.toKeeps.hits hh
  obtain ⟨s', hrun', hinv', hadds⟩ := (hinv.measure st).predict_spec hsize hstate
    (fun hmem => absurd (hinv.ref_lt hmem) (Nat.lt_irrefl _)) choice
    fun hall => htwice ⟨hall.1, hall.2.1, hhits hall.2.2⟩
  refine ⟨s', ?_, hinv', ?_, fun x hx => ?_⟩
  · simp only [invokePrefetcher, hrun, bind, Except.bind]
    exact hrun'
  · rw [hadds.length, ← hframe.states]
    exact List.length_append
  · rw [← hframe.states]
    rcases hadds.held x hx with ⟨y, hy, hvote⟩ | ⟨hst, hvec⟩
    · obtain ⟨z, hz, hvote'⟩ := hframe.held hy
      exact .inl ⟨z, hz, hvote'.trans hvote⟩
    · exact .inr ⟨hst, hvec.imp id fun hh => ⟨hh.1, hhits hh.2⟩⟩

/-- What a call does to the votes. -/
def Votes (k : Knobs σ) (s s' : Scooby σ) (c : Call k) : Prop :=
  s'.states.length = s.states.length + (consensusOf k [c]).length ∧
    ∀ x ∈ s'.held, (∃ y ∈ s.held, y.vote = x.vote) ∨ (x.state = s.states.length ∧
      (k.enableFeaturewiseEngine = true → consensusOf k [c] = [x.consensusVec] ∨
        (k.enableTrackMultiple = true ∧ c.Hits s)))

/-- A call keeps the invariant, unless it makes two entries. -/
theorem Inv.call_spec (h : Inv k s) (hsize : 1 ≤ k.ptSize) (c : Call k)
    (htwice : ¬ MakesTwo k s c) : ∃ s', call k s c = .ok s' ∧ Inv k s' ∧ Votes k s s' c := by
  have hquiet : ∀ {s'}, Frame s s' → s'.states.length = s.states.length + 0 ∧
      ∀ x ∈ s'.held, ∃ y ∈ s.held, y.vote = x.vote :=
    fun hframe => ⟨congrArg List.length hframe.states, fun x hx => hframe.held hx⟩
  cases c with
  | invokePrefetcher address st choice =>
    obtain ⟨s', hrun, hinv, hlength, hheld⟩ :=
      h.invokePrefetcher_spec hsize address st choice htwice
    refine ⟨s', hrun, hinv, hlength, fun x hx => (hheld x hx).imp id fun hx =>
      ⟨hx.1, fun hfeature => hx.2.imp (fun hvec => ?_) id⟩⟩
    rw [hvec, Choice.vec, if_pos hfeature]
    rfl
  | registerFill address =>
    obtain ⟨hinv, hframe⟩ := h.registerFill_spec address
    exact ⟨_, rfl, hinv, (hquiet hframe).1, fun x hx => .inl ((hquiet hframe).2 x hx)⟩
  | registerPrefetchHit address =>
    obtain ⟨hinv, hframe⟩ := h.registerPrefetchHit_spec address
    exact ⟨_, rfl, hinv, (hquiet hframe).1, fun x hx => .inl ((hquiet hframe).2 x hx)⟩
  | updateBw level =>
    refine ⟨{ s with bwLevel := level }, rfl, { h with
      tracked := fun e he => by
        obtain ⟨l, hl, hlive, ht⟩ := h.tracked e he
        exact ⟨l, hl, hlive, { ht with }⟩
      last_some := fun e he => by
        obtain ⟨hid, l, hl, ht⟩ := h.last_some e he
        exact ⟨hid, l, hl, { ht with }⟩ }, rfl, fun x hx => .inl ⟨x, hx, rfl⟩⟩

/-! ## Runs -/

theorem consensusOf_append (calls calls' : List (Call k)) :
    consensusOf k (calls ++ calls') = consensusOf k calls ++ consensusOf k calls' :=
  List.filterMap_append

/-- A run keeps the invariant. -/
theorem Inv.run_spec (h : Inv k s) (hsize : 1 ≤ k.ptSize) {calls : List (Call k)}
    (hcalls : Along k (fun s c => ¬ MakesTwo k s c) s calls) :
    ∃ s', run k s calls = .ok s' ∧ Inv k s' := by
  induction calls generalizing s with
  | nil => exact ⟨s, rfl, h⟩
  | cons c calls ih =>
    obtain ⟨s₁, hrun, hinv, -⟩ := h.call_spec hsize c hcalls.1
    obtain ⟨s', hrun', hinv'⟩ := ih hinv (hcalls.2 s₁ hrun)
    refine ⟨s', ?_, hinv'⟩
    simp only [run, hrun, bind, Except.bind]
    exact hrun'

/-- The pipeline is right in every run in which no call makes two entries. -/
theorem pipeline_sound (k : Knobs σ) (hsize : 1 ≤ k.ptSize) (calls : List (Call k))
    (hcalls : Along k (fun s c => ¬ MakesTwo k s c) init calls) :
    ∃ s, run k init calls = .ok s ∧ Sound k s := by
  obtain ⟨s, hrun, hinv⟩ := (inv_init k).run_spec hsize hcalls
  exact ⟨s, hrun, hinv.sound⟩

/-- A condition on all calls holds along every run. -/
theorem along_of_forall {P : Scooby σ → Call k → Prop} (h : ∀ s c, P s c) (s : Scooby σ)
    (calls : List (Call k)) : Along k P s calls := by
  induction calls generalizing s with
  | nil => trivial
  | cons c calls ih => exact ⟨h s c, fun s' _ => ih s'⟩

/-- Knobs with one action, to prefetch the next block, and a tracker of one entry. -/
def nextBlock (multiple hit : Bool) : Knobs UInt64 where
  actions := [1]
  ptSize := 1
  enableRewardAll := false
  enableTrackMultiple := multiple
  enableRewardOutOfBounds := false
  enableRewardTrackerHit := hit
  enableFeaturewiseEngine := true
  enableHbwReward := false
  highBwThresh := 4
  reward := fun _ => 0
  rewardHbw := fun _ => 0
  value := UInt64.toUInt32

/-- Accesses to the first block of a page, which all predict the second one. -/
def firstBlock (multiple hit : Bool) (n : ℕ) : List (Call (nextBlock multiple hit)) :=
  List.replicate n (.invokePrefetcher 0 0 ⟨⟨0, Nat.one_pos⟩, 1, List.replicate 20 true, rfl⟩)

/-- Accesses to successive blocks of a page, each of which predicts the next one. -/
def successiveBlocks (multiple hit : Bool) (n : ℕ) : List (Call (nextBlock multiple hit)) :=
  (List.range n).map fun i =>
    .invokePrefetcher (UInt64.ofNat (64 * i)) 0
      ⟨⟨0, Nat.one_pos⟩, 1, List.replicate 20 true, rfl⟩

/-- Four accesses, of which the third and the fourth have an evicted entry learned. -/
theorem pipeline_sound_successive : 1 ≤ (nextBlock false false).ptSize ∧
    ∃ s, run (nextBlock false false) init (successiveBlocks false false 4) = .ok s ∧
      (learns s.log).length = 2 ∧ Sound (nextBlock false false) s := by
  refine ⟨Nat.le_refl 1, ?_⟩
  obtain ⟨s, hrun, hsound⟩ := pipeline_sound (nextBlock false false) (Nat.le_refl 1)
    (successiveBlocks false false 4) (along_of_forall (fun _ _ h => Bool.false_ne_true h.1) _ _)
  have hlearns : (run (nextBlock false false) init (successiveBlocks false false 4)).toOption.map
      (fun s => (learns s.log).length) = some 2 := by decide +kernel
  rw [hrun] at hlearns
  exact ⟨s, hrun, Option.some.inj hlearns, hsound⟩

/-- With both knobs on, the second access makes two entries with its state. The first of them is
learned from and deleted with the state, and the second one is then learned from. -/
theorem deleted_state_learned :
    ¬ ∃ s, run (nextBlock true true) init (firstBlock true true 4) = .ok s ∧
      Sound (nextBlock true true) s := by
  rintro ⟨s, hrun, -⟩
  have hfault : (run (nextBlock true true) init (firstBlock true true 4)).toOption.isNone = true := by
    decide +kernel
  rw [hrun] at hfault
  cases hfault

/-- The entries behind a run vote as their accesses did. -/
theorem Inv.run_owned (h : Inv k s) (hsize : 1 ≤ k.ptSize) (before : List (Call k))
    {calls : List (Call k)}
    (hlength : s.states.length = (consensusOf k before).length) (howned : Owned k before s)
    (hcalls : Along k (fun s c => ¬ LosesVote k s c) s calls) :
    ∃ s', run k s calls = .ok s' ∧ Owned k (before ++ calls) s' := by
  induction calls generalizing s before with
  | nil => exact ⟨s, rfl, by rwa [List.append_nil]⟩
  | cons c calls ih =>
    obtain ⟨s₁, hrun, hinv, hlen, hvotes⟩ := h.call_spec hsize c fun hall =>
      hcalls.1 ⟨hall.1, .inl hall.2.1, hall.2.2⟩
    have howned' : Owned k (before ++ [c]) s₁ := by
      refine ⟨hinv.refs_nodup, fun hfeature x hx => ?_⟩
      rw [consensusOf_append]
      rcases hvotes x hx with ⟨y, hy, hvote⟩ | ⟨hstate, hvec⟩
      · have hstate : y.state = x.state := congrArg Prod.fst hvote
        have hsame : y.consensusVec = x.consensusVec := congrArg Prod.snd hvote
        have hy' := howned.consensus hfeature y hy
        rw [← hstate, ← hsame, List.getElem?_append_left (List.getElem?_eq_some_iff.1 hy').1]
        exact hy'
      · rcases hvec hfeature with hchosen | hhits
        · rw [hstate, hlength, hchosen, List.getElem?_append_right (Nat.le_refl _), Nat.sub_self]
          rfl
        · exact absurd ⟨hhits.1, .inr hfeature, hhits.2⟩ hcalls.1
    obtain ⟨s', hrun', howned''⟩ := ih hinv _
      (by rw [hlen, hlength, consensusOf_append, List.length_append]) howned' (hcalls.2 s₁ hrun)
    refine ⟨s', ?_, by simpa using howned''⟩
    simp only [run, hrun, bind, Except.bind]
    exact hrun'

/-- Every entry owns its state and its consensus vector in every run in which no call makes two
entries, or one without its vector. -/
theorem entries_owned (k : Knobs σ) (hsize : 1 ≤ k.ptSize) (calls : List (Call k))
    (hcalls : Along k (fun s c => ¬ LosesVote k s c) init calls) :
    ∃ s, run k init calls = .ok s ∧ Owned k calls s :=
  (inv_init k).run_owned hsize [] rfl ⟨.nil, fun _ _ he => absurd he List.not_mem_nil⟩
    hcalls

/-- Two accesses, the second one a hit in the tracker. -/
theorem entries_owned_hit : 1 ≤ (nextBlock false true).ptSize ∧
    ∃ s, run (nextBlock false true) init (firstBlock false true 2) = .ok s ∧
      Owned (nextBlock false true) (firstBlock false true 2) s :=
  ⟨Nat.le_refl 1, entries_owned _ (Nat.le_refl 1) _
    (along_of_forall (fun _ _ h => Bool.false_ne_true h.1) _ _)⟩

/-- With both knobs on, two accesses lead to two entries with one state. -/
theorem state_shared :
    ¬ ∃ s, run (nextBlock true true) init (firstBlock true true 2) = .ok s ∧
      Owned (nextBlock true true) (firstBlock true true 2) s := by
  rintro ⟨s, hrun, howned⟩
  have hrefs : (run (nextBlock true true) init (firstBlock true true 2)).toOption.map refs =
      some [1, 1] := by
    decide +kernel
  rw [hrun] at hrefs
  have hstates := howned.states
  rw [Option.some.inj hrefs] at hstates
  simp at hstates

end

end Scooby

end Arishem
