import Arishem.Dram.Controller

/-!
# Banks and queues agree

`Agree` relates the three views of what is scheduled: the flags of the slots, what the controller
knows of the banks, and the counters of the channels. It holds between any two parts of the calls:
when a request is scheduled (`Agree.start`), when one leaves its bank (`Agree.release`) and when one
arrives (`Agree.insert`). That the scheduled requests are of the kind that the mode asks for holds
between the calls (`Moded`).
-/

namespace Arishem

/-- The bank serves the request in a slot of a queue. -/
structure BankRequest.ServedBy (r : BankRequest) (k : QueueKind) (i : ℕ) : Prop where
  working : r.working = true
  requestIndex : r.requestIndex = some i
  isRead : r.isRead = decide (k = .rq)
  isWrite : r.isWrite = decide (k = .wq)

theorem BankRequest.ServedBy.inj {r : BankRequest} {k k' : QueueKind} {i i' : ℕ}
    (h : r.ServedBy k i) (h' : r.ServedBy k' i') : k = k' ∧ i = i' := by
  refine ⟨?_, Option.some.inj (h.requestIndex.symm.trans h'.requestIndex)⟩
  have hread := h.isRead.symm.trans h'.isRead
  cases k <;> cases k' <;> first | rfl | exact absurd hread (by decide)

theorem BankRequest.ServedBy.serves {r : BankRequest} {k : QueueKind} {i : ℕ}
    (h : r.ServedBy k i) (k' : QueueKind) : r.serves k' = decide (k = k') := by
  cases k'
  · exact h.isRead
  · exact h.isWrite

/-- The next request to be processed is scheduled. -/
def DramQueue.NextOk (q : DramQueue) : Prop :=
  q.nextProcessCycle < uint64Max → ∃ e, q.entry[q.nextProcessIndex]? = some e ∧ e.scheduled = true

namespace MemoryController

/-- A slot holds a scheduled request. -/
def Active (s : MemoryController) (k : QueueKind) (ch i : ℕ) (e : DramEntry) : Prop :=
  s.slot k ch i = some e ∧ e.scheduled = true

/-- The three views agree, requests are in the queues of their channels, and the occupancies are
right. -/
structure Agree (cfg : DramConfig) (s : MemoryController) : Prop where
  home : ∀ k ch i e, s.slot k ch i = some e → e.address ≠ 0 → cfg.getChannel e.address = ch
  occupied : ∀ k ch i e, s.Active k ch i e → e.address ≠ 0
  bank : ∀ k ch i e, s.Active k ch i e → (s.bankRequest (cfg.bankOf e.address)).ServedBy k i
  owner : ∀ b, (s.bankRequest b).working = true →
    ∃ k i e, s.Active k b.channel i e ∧ cfg.bankOf e.address = b
  count : ∀ k ch, s.scheduled k ch = (s.queue k ch).entry.countP (·.scheduled)
  occupancy : ∀ k ch,
    (s.queue k ch).occupancy = (s.queue k ch).entry.countP fun e => e.address != 0

/-- The scheduled requests are those that the mode of their channel asks for. -/
def Moded (s : MemoryController) : Prop :=
  ∀ k ch i e, s.Active k ch i e → s.writeMode ch = decide (k = .wq)

section
variable {cfg : DramConfig} {env : DramEnv} {s s' : MemoryController} {k k' : QueueKind}
variable {ch ch' i j : ℕ} {e e' : DramEntry}

/-! ## Facts -/

/-- Two scheduled requests at one bank are the same. -/
theorem Agree.unique (h : Agree cfg s) (ha : s.Active k ch i e) (ha' : s.Active k' ch' j e')
    (hb : cfg.bankOf e.address = cfg.bankOf e'.address) : k = k' ∧ ch = ch' ∧ i = j := by
  have hs := h.bank _ _ _ _ ha
  rw [hb] at hs
  obtain ⟨hk, hi⟩ := hs.inj (h.bank _ _ _ _ ha')
  have hch := h.home _ _ _ _ ha.1 (h.occupied _ _ _ _ ha)
  have hch' := h.home _ _ _ _ ha'.1 (h.occupied _ _ _ _ ha')
  refine ⟨hk, ?_, hi⟩
  calc ch = (cfg.bankOf e.address).channel := hch.symm
    _ = (cfg.bankOf e'.address).channel := by rw [hb]
    _ = ch' := hch'

/-- An occupied slot is scheduled exactly when its bank serves it. -/
theorem Agree.scheduled_iff (h : Agree cfg s) (he : s.slot k ch i = some e) (hne : e.address ≠ 0) :
    e.scheduled = true ↔
      (s.bankRequest (cfg.bankOf e.address)).working = true ∧
        (s.bankRequest (cfg.bankOf e.address)).requestIndex = some i ∧
          (s.bankRequest (cfg.bankOf e.address)).serves k = true := by
  constructor
  · intro hsched
    have hs := h.bank _ _ _ _ ⟨he, hsched⟩
    exact ⟨hs.working, hs.requestIndex, by simp [hs.serves]⟩
  · rintro ⟨hw, hi, hk⟩
    obtain ⟨k₁, i₁, e₁, ha, hb⟩ := h.owner _ hw
    have hs := h.bank _ _ _ _ ha
    rw [hb] at hs
    obtain rfl : k₁ = k := by simpa [hs.serves] using hk
    obtain rfl : i₁ = i := Option.some.inj (hs.requestIndex.symm.trans hi)
    have hch : (cfg.bankOf e.address).channel = ch := h.home _ _ _ _ he hne
    rw [hch] at ha
    obtain rfl : e₁ = e := Option.some.inj (ha.1.symm.trans he)
    exact ha.2

/-! ## One slot changes -/

/-- One slot is overwritten, and only its bank may change. -/
structure Replaces (cfg : DramConfig) (s s' : MemoryController) (k : QueueKind) (ch i : ℕ)
    (e e' : DramEntry) : Prop where
  was : s.slot k ch i = some e
  entry : ∀ k' ch', (s'.queue k' ch').entry =
    if k' = k ∧ ch' = ch then (s.queue k ch).entry.set i e' else (s.queue k' ch').entry
  bank : ∀ b, b ≠ cfg.bankOf e.address → s'.bankRequest b = s.bankRequest b

namespace Replaces

theorem lt (h : Replaces cfg s s' k ch i e e') : i < (s.queue k ch).entry.length :=
  (List.getElem?_eq_some_iff.1 h.was).1

theorem get (h : Replaces cfg s s' k ch i e e') (hi : i < (s.queue k ch).entry.length) :
    (s.queue k ch).entry[i] = e := by
  have hw := h.was
  rw [slot, List.getElem?_eq_getElem hi] at hw
  exact Option.some.inj hw

theorem slot_self (h : Replaces cfg s s' k ch i e e') : s'.slot k ch i = some e' := by
  rw [slot, h.entry, if_pos ⟨rfl, rfl⟩, List.getElem?_set_self h.lt]

theorem slot_ne (h : Replaces cfg s s' k ch i e e') (hne : ¬ (k' = k ∧ ch' = ch ∧ j = i)) :
    s'.slot k' ch' j = s.slot k' ch' j := by
  rw [slot, slot, h.entry]
  split
  · rename_i hk
    obtain ⟨rfl, rfl⟩ := hk
    rw [List.getElem?_set_ne fun hij => hne ⟨rfl, rfl, hij.symm⟩]
  · rfl

/-- A slot after the change is the new one, or as before. -/
theorem slot_cases {e₁ : DramEntry} (h : Replaces cfg s s' k ch i e e')
    (he : s'.slot k' ch' j = some e₁) :
    (k' = k ∧ ch' = ch ∧ j = i) ∧ e₁ = e' ∨
      ¬ (k' = k ∧ ch' = ch ∧ j = i) ∧ s.slot k' ch' j = some e₁ := by
  by_cases hp : k' = k ∧ ch' = ch ∧ j = i
  · obtain ⟨rfl, rfl, rfl⟩ := hp
    exact .inl ⟨⟨rfl, rfl, rfl⟩, Option.some.inj (he.symm.trans h.slot_self)⟩
  · exact .inr ⟨hp, (h.slot_ne hp).symm.trans he⟩

/-- How a number of slots changes. -/
theorem countP (h : Replaces cfg s s' k ch i e e') (p : DramEntry → Bool) (k' : QueueKind)
    (ch' : ℕ) : (s'.queue k' ch').entry.countP p =
      if k' = k ∧ ch' = ch then
        (s.queue k ch).entry.countP p - (if p e then 1 else 0) + (if p e' then 1 else 0)
      else (s.queue k' ch').entry.countP p := by
  rw [h.entry]
  split
  · rw [List.countP_set h.lt, h.get h.lt]
  · rfl

theorem countP_pos (h : Replaces cfg s s' k ch i e e') (p : DramEntry → Bool) (hp : p e = true) :
    0 < (s.queue k ch).entry.countP p := by
  refine List.countP_pos_iff.2 ⟨e, ?_, hp⟩
  rw [← h.get h.lt]
  exact List.getElem_mem h.lt

end Replaces

/-- A request is scheduled. -/
theorem Agree.start (h : Agree cfg s) (hr : Replaces cfg s s' k ch i e e')
    (he : e.scheduled = false) (hne : e.address ≠ 0)
    (hidle : (s.bankRequest (cfg.bankOf e.address)).working = false)
    (he' : e'.scheduled = true) (haddr : e'.address = e.address)
    (hserved : (s'.bankRequest (cfg.bankOf e.address)).ServedBy k i)
    (hcount : ∀ k' ch', s'.scheduled k' ch' =
      if k' = k ∧ ch' = ch then s.scheduled k ch + 1 else s.scheduled k' ch')
    (hocc : ∀ k' ch', (s'.queue k' ch').occupancy = (s.queue k' ch').occupancy) :
    Agree cfg s' := by
  have hactive : ∀ k' ch' j e₁, s.Active k' ch' j e₁ →
      cfg.bankOf e₁.address ≠ cfg.bankOf e.address := by
    intro k' ch' j e₁ ha hb
    have hw := (h.bank _ _ _ _ ha).working
    rw [hb, hidle] at hw
    cases hw
  refine ⟨fun k' ch' j e₁ h₁ hne₁ => ?_, fun k' ch' j e₁ ha => ?_, fun k' ch' j e₁ ha => ?_,
    fun b hw => ?_, fun k' ch' => ?_, fun k' ch' => ?_⟩
  · rcases hr.slot_cases h₁ with ⟨⟨rfl, rfl, rfl⟩, rfl⟩ | ⟨-, h₁⟩
    · rw [haddr]
      exact h.home _ _ _ _ hr.was hne
    · exact h.home _ _ _ _ h₁ hne₁
  · rcases hr.slot_cases ha.1 with ⟨-, rfl⟩ | ⟨-, h₁⟩
    · rwa [haddr]
    · exact h.occupied _ _ _ _ ⟨h₁, ha.2⟩
  · rcases hr.slot_cases ha.1 with ⟨⟨rfl, rfl, rfl⟩, rfl⟩ | ⟨-, h₁⟩
    · rw [haddr]
      exact hserved
    · rw [hr.bank _ (hactive _ _ _ _ ⟨h₁, ha.2⟩)]
      exact h.bank _ _ _ _ ⟨h₁, ha.2⟩
  · by_cases hb : b = cfg.bankOf e.address
    · subst hb
      have hch : (cfg.bankOf e.address).channel = ch := h.home _ _ _ _ hr.was hne
      refine ⟨k, i, e', ⟨?_, he'⟩, by rw [haddr]⟩
      rw [hch]
      exact hr.slot_self
    · rw [hr.bank b hb] at hw
      obtain ⟨k₁, i₁, e₁, ha, hb₁⟩ := h.owner b hw
      refine ⟨k₁, i₁, e₁, ⟨?_, ha.2⟩, hb₁⟩
      rw [hr.slot_ne]
      · exact ha.1
      · rintro ⟨rfl, hch, rfl⟩
        rw [hch] at ha
        have heq := Option.some.inj (ha.1.symm.trans hr.was)
        have hs := ha.2
        rw [heq, he] at hs
        cases hs
  · rw [hcount, hr.countP, he, he', h.count, h.count]
    simp
  · rw [hocc, h.occupancy, hr.countP, haddr]
    split
    · rename_i hk
      obtain ⟨rfl, rfl⟩ := hk
      have hpos := hr.countP_pos (fun e => e.address != 0) (by simpa using hne)
      simp only [bne_iff_ne, ne_eq, hne, not_false_eq_true, if_true]
      omega
    · rfl

/-- A scheduled request leaves its bank, and its slot or not. -/
theorem Agree.release (h : Agree cfg s) (hr : Replaces cfg s s' k ch i e e')
    (he : e.scheduled = true) (he' : e'.scheduled = false)
    (haddr : e'.address = e.address ∨ e'.address = 0)
    (hidle : (s'.bankRequest (cfg.bankOf e.address)).working = false)
    (hcount : ∀ k' ch', s'.scheduled k' ch' =
      if k' = k ∧ ch' = ch then s.scheduled k ch - 1 else s.scheduled k' ch')
    (hocc : ∀ k' ch', (s'.queue k' ch').occupancy =
      if k' = k ∧ ch' = ch then (s.queue k ch).occupancy - (if e'.address = 0 then 1 else 0)
      else (s.queue k' ch').occupancy) :
    Agree cfg s' := by
  have hact : s.Active k ch i e := ⟨hr.was, he⟩
  have hne := h.occupied _ _ _ _ hact
  have hother : ∀ k' ch' j e₁, s'.Active k' ch' j e₁ →
      s.Active k' ch' j e₁ ∧ cfg.bankOf e₁.address ≠ cfg.bankOf e.address := by
    rintro k' ch' j e₁ ⟨h₁, hs₁⟩
    rcases hr.slot_cases h₁ with ⟨-, rfl⟩ | ⟨hp, h₁⟩
    · rw [he'] at hs₁
      cases hs₁
    · refine ⟨⟨h₁, hs₁⟩, fun hb => hp ?_⟩
      exact h.unique ⟨h₁, hs₁⟩ hact hb
  refine ⟨fun k' ch' j e₁ h₁ hne₁ => ?_, fun k' ch' j e₁ ha => ?_, fun k' ch' j e₁ ha => ?_,
    fun b hw => ?_, fun k' ch' => ?_, fun k' ch' => ?_⟩
  · rcases hr.slot_cases h₁ with ⟨⟨rfl, rfl, rfl⟩, rfl⟩ | ⟨-, h₁⟩
    · rcases haddr with heq | h0
      · rw [heq]
        exact h.home _ _ _ _ hr.was hne
      · exact absurd h0 hne₁
    · exact h.home _ _ _ _ h₁ hne₁
  · exact h.occupied _ _ _ _ (hother _ _ _ _ ha).1
  · obtain ⟨ha₁, hb⟩ := hother _ _ _ _ ha
    rw [hr.bank _ hb]
    exact h.bank _ _ _ _ ha₁
  · have hb : b ≠ cfg.bankOf e.address := by
      rintro rfl
      rw [hidle] at hw
      cases hw
    rw [hr.bank b hb] at hw
    obtain ⟨k₁, i₁, e₁, ha, hb₁⟩ := h.owner b hw
    refine ⟨k₁, i₁, e₁, ⟨?_, ha.2⟩, hb₁⟩
    rw [hr.slot_ne]
    · exact ha.1
    · rintro ⟨rfl, hch, rfl⟩
      rw [hch] at ha
      obtain rfl := Option.some.inj (ha.1.symm.trans hr.was)
      exact hb hb₁.symm
  · rw [hcount, hr.countP, he, he', h.count, h.count]
    simp
  · have hpos := hr.countP_pos (fun e => e.address != 0) (by simpa using hne)
    have hold := h.occupancy k' ch'
    have hold' := h.occupancy k ch
    rw [hocc, hr.countP]
    split
    · rcases haddr with heq | h0
      · simp only [heq, hne, if_false, bne_iff_ne, ne_eq, not_false_eq_true, if_true]
        omega
      · simp only [h0, if_true, bne_iff_ne, ne_eq, hne, not_false_eq_true, not_true_eq_false,
          if_false]
        omega
    · exact hold

/-- A request goes to a free slot. -/
theorem Agree.insert (h : Agree cfg s) (hr : Replaces cfg s s' k ch i e e')
    (he : e.address = 0) (he' : e'.scheduled = false) (hne : e'.address ≠ 0)
    (hch : cfg.getChannel e'.address = ch) (hbank : s'.bankRequest = s.bankRequest)
    (hcount : s'.scheduled = s.scheduled)
    (hocc : ∀ k' ch', (s'.queue k' ch').occupancy =
      if k' = k ∧ ch' = ch then (s.queue k ch).occupancy + 1 else (s.queue k' ch').occupancy) :
    Agree cfg s' := by
  have hfree : e.scheduled = false := by
    by_contra hs
    exact h.occupied _ _ _ _ ⟨hr.was, (Bool.not_eq_false _).mp hs⟩ he
  have hother : ∀ k' ch' j e₁, s'.Active k' ch' j e₁ → s.Active k' ch' j e₁ := by
    rintro k' ch' j e₁ ⟨h₁, hs₁⟩
    rcases hr.slot_cases h₁ with ⟨-, rfl⟩ | ⟨-, h₁⟩
    · rw [he'] at hs₁
      cases hs₁
    · exact ⟨h₁, hs₁⟩
  refine ⟨fun k' ch' j e₁ h₁ hne₁ => ?_, fun k' ch' j e₁ ha => ?_, fun k' ch' j e₁ ha => ?_,
    fun b hw => ?_, fun k' ch' => ?_, fun k' ch' => ?_⟩
  · rcases hr.slot_cases h₁ with ⟨⟨rfl, rfl, rfl⟩, rfl⟩ | ⟨-, h₁⟩
    · exact hch
    · exact h.home _ _ _ _ h₁ hne₁
  · exact h.occupied _ _ _ _ (hother _ _ _ _ ha)
  · rw [hbank]
    exact h.bank _ _ _ _ (hother _ _ _ _ ha)
  · rw [hbank] at hw
    obtain ⟨k₁, i₁, e₁, ha, hb₁⟩ := h.owner b hw
    refine ⟨k₁, i₁, e₁, ⟨?_, ha.2⟩, hb₁⟩
    rw [hr.slot_ne]
    · exact ha.1
    · rintro ⟨rfl, hch', rfl⟩
      rw [hch'] at ha
      obtain rfl := Option.some.inj (ha.1.symm.trans hr.was)
      exact h.occupied _ _ _ _ ha he
  · rw [hcount, hr.countP, he', hfree, h.count]
    split
    · rename_i hk
      obtain ⟨rfl, rfl⟩ := hk
      simp
    · rfl
  · rw [hocc, h.occupancy, h.occupancy, hr.countP]
    simp [he, hne]

/-- The slots, the counters and what the banks serve are as before. -/
structure Quiet (s s' : MemoryController) : Prop where
  entry : ∀ k ch, (s'.queue k ch).entry = (s.queue k ch).entry
  occupancy : ∀ k ch, (s'.queue k ch).occupancy = (s.queue k ch).occupancy
  scheduled : s'.scheduled = s.scheduled
  working : ∀ b, (s'.bankRequest b).working = (s.bankRequest b).working
  served : ∀ b k i, (s.bankRequest b).ServedBy k i → (s'.bankRequest b).ServedBy k i

theorem Quiet.slot (h : Quiet s s') (k : QueueKind) (ch i : ℕ) :
    s'.slot k ch i = s.slot k ch i := by
  rw [MemoryController.slot, MemoryController.slot, h.entry]

theorem Quiet.active (h : Quiet s s') : s'.Active k ch i e ↔ s.Active k ch i e := by
  rw [Active, Active, h.slot]

theorem Agree.quiet (h : Agree cfg s) (hq : Quiet s s') : Agree cfg s' where
  home k ch i e he hne := h.home k ch i e (hq.slot k ch i ▸ he) hne
  occupied k ch i e ha := h.occupied k ch i e (hq.active.1 ha)
  bank k ch i e ha := hq.served _ _ _ (h.bank k ch i e (hq.active.1 ha))
  owner b hw := by
    obtain ⟨k, i, e, ha, hb⟩ := h.owner b (hq.working b ▸ hw)
    exact ⟨k, i, e, hq.active.2 ha, hb⟩
  count k ch := by rw [hq.scheduled, hq.entry, h.count]
  occupancy k ch := by rw [hq.occupancy, hq.entry, h.occupancy]

/-! ## Parts of a call -/

/-- The request with another event cycle, scheduled or not. -/
def marked (scheduled : Bool) (c : Cycle) (e : DramEntry) : DramEntry :=
  ⟨{ e.packet with eventCycle := c }, scheduled⟩

/-- What a part of a call does. -/
inductive Part (cfg : DramConfig) (s s' : MemoryController) : List DramEvent → Prop
  | quiet : Quiet s s' → Part cfg s s' []
  | start {k : QueueKind} {ch i : ℕ} {e : DramEntry} {c : Cycle} :
      Replaces cfg s s' k ch i e (marked true c e) → e.scheduled = false → e.address ≠ 0 →
      (s.bankRequest (cfg.bankOf e.address)).working = false →
      (s'.bankRequest (cfg.bankOf e.address)).ServedBy k i →
      (∀ k' ch', s'.scheduled k' ch' =
        if k' = k ∧ ch' = ch then s.scheduled k ch + 1 else s.scheduled k' ch') →
      (∀ k' ch', (s'.queue k' ch').occupancy = (s.queue k' ch').occupancy) →
      Part cfg s s' []
  | unschedule {k : QueueKind} {ch i : ℕ} {e : DramEntry} {c : Cycle} :
      Replaces cfg s s' k ch i e (marked false c e) → e.scheduled = true →
      (s'.bankRequest (cfg.bankOf e.address)).working = false →
      (∀ k' ch', s'.scheduled k' ch' =
        if k' = k ∧ ch' = ch then s.scheduled k ch - 1 else s.scheduled k' ch') →
      (∀ k' ch', (s'.queue k' ch').occupancy = (s.queue k' ch').occupancy) →
      Part cfg s s' []
  | finish {k : QueueKind} {ch i : ℕ} {e : DramEntry} {c : Cycle} :
      Replaces cfg s s' k ch i e (.empty cfg.numCpus) → e.scheduled = true →
      (s'.bankRequest (cfg.bankOf e.address)).working = false →
      (∀ k' ch', s'.scheduled k' ch' =
        if k' = k ∧ ch' = ch then s.scheduled k ch - 1 else s.scheduled k' ch') →
      (∀ k' ch', (s'.queue k' ch').occupancy =
        if k' = k ∧ ch' = ch then (s.queue k ch).occupancy - 1 else (s.queue k' ch').occupancy) →
      Part cfg s s' (served k c e.packet)

/-- The parts of a call, one after the other. -/
inductive Parts (cfg : DramConfig) (s : MemoryController) :
    MemoryController → List DramEvent → Prop
  | nil : Parts cfg s s []
  | snoc {s' s'' : MemoryController} {evs evs' : List DramEvent} :
      Parts cfg s s' evs → Part cfg s' s'' evs' → Parts cfg s s'' (evs ++ evs')

theorem Part.parts {evs : List DramEvent} (h : Part cfg s s' evs) : Parts cfg s s' evs :=
  Parts.snoc .nil h

theorem Parts.trans {s'' : MemoryController} {evs evs' : List DramEvent} (h : Parts cfg s s' evs)
    (h' : Parts cfg s' s'' evs') : Parts cfg s s'' (evs ++ evs') := by
  induction h' with
  | nil => rwa [List.append_nil]
  | snoc _ hp ih =>
    rw [← List.append_assoc]
    exact ih.snoc hp

/-- What holds of a state and its parts keep holds after them. -/
theorem Parts.keeps {I : MemoryController → Prop} {evs : List DramEvent}
    (h : Parts cfg s s' evs) (hI : ∀ s s' evs, I s → Part cfg s s' evs → I s') (hs : I s) :
    I s' := by
  induction h with
  | nil => exact hs
  | snoc _ hp ih => exact hI _ _ _ ih hp

theorem Agree.part {evs : List DramEvent} (h : Agree cfg s) (hp : Part cfg s s' evs) :
    Agree cfg s' := by
  cases hp with
  | quiet hq => exact h.quiet hq
  | start hr he hne hidle hserved hcount hocc =>
    exact h.start hr he hne hidle rfl rfl hserved hcount hocc
  | @unschedule k ch i e c hr he hidle hcount hocc =>
    refine h.release hr he rfl (.inl rfl) hidle hcount fun k' ch' => ?_
    have hne : e.address ≠ 0 := h.occupied _ _ _ _ ⟨hr.was, he⟩
    have haddr : (marked false c e).address ≠ 0 := hne
    rw [hocc, if_neg haddr]
    split
    · rename_i hk
      rw [hk.1, hk.2, Nat.sub_zero]
    · rfl
  | finish hr he hidle hcount hocc =>
    exact h.release hr he rfl (.inr rfl) hidle hcount hocc

theorem Agree.parts {evs : List DramEvent} (h : Agree cfg s) (hp : Parts cfg s s' evs) :
    Agree cfg s' :=
  hp.keeps (fun _ _ _ => Agree.part) h

end

end MemoryController

end Arishem
