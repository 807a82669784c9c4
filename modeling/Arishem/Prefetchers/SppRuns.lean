import Arishem.Prefetchers.Spp
import Mathlib.Tactic.Ring

/-!
# Looking ahead ends

With at most as many useful prefetches as issued ones, each round of the lookahead multiplies the
confidence of its path by less than one. The sum of twice the number of candidates and the confidence
never grows, so that the queues have room for the candidates of all rounds, and the confidence falls
below the threshold. In every run of such accesses no assert fails.
-/

namespace Arishem

namespace Spp

section
variable {k : Knobs} {s : PatternSet} {accuracy lookaheadConf depth way n : ℕ}
  {queue : List Candidate} {r : Reading} {pt : ℕ → PatternSet} {addr : UInt64} {l l' : Lookahead}

/-! ## Confidences -/

/-- The confidence of a way. -/
def pfConf (s : PatternSet) (accuracy lookaheadConf depth way : ℕ) : ℕ :=
  if depth ≠ 0 then accuracy * s.cDelta way / s.cSig * lookaheadConf / 100
  else 100 * s.cDelta way / s.cSig

/-- The confidence of a way is its share of the confidence of the path at most. -/
theorem pfConf_mul_le (way : ℕ) (hacc : accuracy ≤ 100) (hdepth : depth = 0 → lookaheadConf = 100) :
    s.cSig * pfConf s accuracy lookaheadConf depth way ≤ lookaheadConf * s.cDelta way := by
  rw [pfConf]
  split
  · have hshare : s.cSig * (accuracy * s.cDelta way / s.cSig) ≤ 100 * s.cDelta way :=
      (Nat.mul_div_le _ _).trans (Nat.mul_le_mul_right _ hacc)
    have hpath := Nat.div_mul_le_self (accuracy * s.cDelta way / s.cSig * lookaheadConf) 100
    refine Nat.le_of_mul_le_mul_right (c := 100) ?_ (by decide)
    calc s.cSig * (accuracy * s.cDelta way / s.cSig * lookaheadConf / 100) * 100
        = s.cSig * (accuracy * s.cDelta way / s.cSig * lookaheadConf / 100 * 100) := by ring
      _ ≤ s.cSig * (accuracy * s.cDelta way / s.cSig * lookaheadConf) :=
          Nat.mul_le_mul_left _ hpath
      _ = s.cSig * (accuracy * s.cDelta way / s.cSig) * lookaheadConf := by ring
      _ ≤ 100 * s.cDelta way * lookaheadConf := Nat.mul_le_mul_right _ hshare
      _ = lookaheadConf * s.cDelta way * 100 := by ring
  · rename_i hzero
    rw [hdepth (not_not.1 hzero)]
    exact Nat.mul_div_le _ _

/-- What `read_pattern` has added after some ways: candidates above the threshold, whose confidences
sum to a part of the one of the path. -/
structure Added (k : Knobs) (s : PatternSet) (lookaheadConf n : ℕ) (queue : List Candidate)
    (added : List Candidate) (r : Reading) : Prop where
  queue_eq : r.queue = queue ++ added
  length_le : added.length ≤ n
  none : added = [] → r.maxConf = 0
  likely : ∀ c ∈ added, k.pfThreshold ≤ c.confidence ∧ c.confidence < 100
  max_ge : added ≠ [] → k.pfThreshold ≤ r.maxConf
  total : ∃ total, s.cSig * total ≤ lookaheadConf * ∑ way ∈ Finset.range n, s.cDelta way ∧
    (added ≠ [] → k.pfThreshold * (added.length - 1) + r.maxConf ≤ total)

/-- The next way. -/
theorem Added.readWay {added : List Candidate} (h : Added k s lookaheadConf n queue added r)
    (hs : s.Counts) (hn : n < ptWay) (hcSig : s.cSig ≠ 0) (hacc : accuracy ≤ 100)
    (hdepth : depth = 0 → lookaheadConf = 100) (hconf : lookaheadConf ≤ 100)
    (hroom : queue.length + ptWay ≤ l2cMshrSize) :
    ∃ r' added', readWay k s accuracy lookaheadConf depth r n = some r' ∧
      Added k s lookaheadConf (n + 1) queue added' r' := by
  obtain ⟨total, htotal, hmax⟩ := h.total
  have hconfidence := pfConf_mul_le (s := s) n hacc hdepth
  have hsum := Finset.sum_range_succ s.cDelta n
  have hreadWay : Spp.readWay k s accuracy lookaheadConf depth r n =
      if k.pfThreshold ≤ pfConf s accuracy lookaheadConf depth n then
        if r.queue.length < l2cMshrSize then
          some {
            queue := r.queue ++ [⟨pfConf s accuracy lookaheadConf depth n, s.delta n⟩]
            lookaheadWay := if r.maxConf < pfConf s accuracy lookaheadConf depth n then n
              else r.lookaheadWay
            maxConf := if r.maxConf < pfConf s accuracy lookaheadConf depth n then
              pfConf s accuracy lookaheadConf depth n else r.maxConf }
        else Option.none
      else some r := rfl
  generalize pfConf s accuracy lookaheadConf depth n = conf at hreadWay hconfidence
  rw [hreadWay]
  by_cases hlikely : k.pfThreshold ≤ conf
  · have hlen : r.queue.length < l2cMshrSize := by
      rw [h.queue_eq, List.length_append]
      have hle := h.length_le
      omega
    rw [if_pos hlikely, if_pos hlen]
    -- the delta was counted less often than its signature
    have hlt : conf < 100 := by
      have hcounted := (PatternSet.cDelta_le_counted (s := s) hn).trans_lt (hs.counted_lt hcSig)
      have hmul : lookaheadConf * s.cDelta n < s.cSig * 100 := by
        calc lookaheadConf * s.cDelta n ≤ 100 * s.cDelta n := Nat.mul_le_mul_right _ hconf
          _ < s.cSig * 100 := by omega
      exact Nat.lt_of_mul_lt_mul_left (hconfidence.trans_lt hmul)
    refine ⟨_, added ++ [⟨conf, s.delta n⟩], rfl, ⟨?_, ?_, ?_, ?_, ?_, total + conf, ?_, ?_⟩⟩
    · rw [h.queue_eq, List.append_assoc]
    · rw [List.length_append, List.length_singleton]
      exact Nat.succ_le_succ h.length_le
    · exact fun hnil => absurd hnil (by simp)
    · intro c hc
      rcases List.mem_append.1 hc with hc | hc
      · exact h.likely c hc
      · obtain rfl := List.mem_singleton.1 hc
        exact ⟨hlikely, hlt⟩
    · intro _
      dsimp only
      split
      · exact hlikely
      · omega
    · rw [hsum, Nat.mul_add, Nat.mul_add]
      exact Nat.add_le_add htotal hconfidence
    · intro _
      rw [List.length_append, List.length_singleton, Nat.add_sub_cancel]
      dsimp only
      rcases List.eq_nil_or_concat added with rfl | ⟨l, c, rfl⟩
      · have hzero := h.none rfl
        rw [List.length_nil, Nat.mul_zero]
        split <;> omega
      · have hmax := hmax (by simp)
        have hge := h.max_ge (by simp)
        rw [List.concat_eq_append, List.length_append, List.length_singleton] at hmax ⊢
        rw [Nat.add_sub_cancel] at hmax
        rw [Nat.mul_add, Nat.mul_one]
        split <;> omega
  · rw [if_neg hlikely]
    refine ⟨r, added, rfl, h.queue_eq, Nat.le_succ_of_le h.length_le, h.none, h.likely, h.max_ge,
      total, htotal.trans (Nat.mul_le_mul_left _ ?_), hmax⟩
    rw [hsum]
    exact Nat.le_add_right _ _

/-- All ways: twice the number of the candidates and the best confidence are below the confidence of
the path. -/
theorem readWays (queue : List Candidate) (hs : s.Counts) (hcSig : s.cSig ≠ 0) (hk : 15 ≤ k.pfThreshold)
    (hacc : accuracy ≤ 100) (hdepth : depth = 0 → lookaheadConf = 100) (hconf : lookaheadConf ≤ 100)
    (hge : 15 ≤ lookaheadConf) (hroom : queue.length + ptWay ≤ l2cMshrSize) :
    ∃ r added, (List.range ptWay).foldlM (readWay k s accuracy lookaheadConf depth)
        ⟨queue, ptWay, 0⟩ = some r ∧ Added k s lookaheadConf ptWay queue added r ∧
      (added ≠ [] → 2 * added.length + r.maxConf ≤ lookaheadConf) := by
  have hways : ∀ n ≤ ptWay, ∃ r added, (List.range n).foldlM
      (readWay k s accuracy lookaheadConf depth) ⟨queue, ptWay, 0⟩ = some r ∧
        Added k s lookaheadConf n queue added r := by
    intro n hn
    induction n with
    | zero =>
      refine ⟨⟨queue, ptWay, 0⟩, [], rfl, by simp, by simp, fun _ => rfl, by simp, by simp, 0, ?_⟩
      simp
    | succ n ih =>
      obtain ⟨r, added, hfold, hadded⟩ := ih (Nat.le_of_succ_le hn)
      obtain ⟨r', added', hread, hadded'⟩ := hadded.readWay hs hn hcSig hacc hdepth hconf hroom
      refine ⟨r', added', ?_, hadded'⟩
      rw [List.range_succ, List.foldlM_append, hfold]
      simpa using hread
  obtain ⟨r, added, hfold, hadded⟩ := hways ptWay le_rfl
  refine ⟨r, added, hfold, hadded, fun hne => ?_⟩
  obtain ⟨total, htotal, hmax⟩ := hadded.total
  have hmax := hmax hne
  have hmaxge := hadded.max_ge hne
  have hpos := List.length_pos_iff.2 hne
  have hcounted := hs.counted_lt hcSig
  have hle := hs.cSig_le
  have hfifteen : cSigMax = 15 := rfl
  -- the counters of the deltas sum to less than the one of the signature
  have hless : s.cSig * total + lookaheadConf ≤ s.cSig * lookaheadConf := by
    have hmul : lookaheadConf * s.counted + lookaheadConf ≤ lookaheadConf * s.cSig :=
      Nat.mul_le_mul_left lookaheadConf (Nat.succ_le_of_lt hcounted)
    have hcomm := Nat.mul_comm lookaheadConf s.cSig
    have hcounted' : lookaheadConf * ∑ way ∈ Finset.range ptWay, s.cDelta way =
        lookaheadConf * s.counted := rfl
    omega
  have hthreshold : 15 * (added.length - 1) ≤ k.pfThreshold * (added.length - 1) :=
    Nat.mul_le_mul_right _ hk
  have htwo : total + 2 ≤ lookaheadConf := by
    by_contra hcon
    have hone : total + 1 ≤ lookaheadConf := by
      by_contra hcon
      have hmul := Nat.mul_le_mul_left s.cSig (show lookaheadConf ≤ total by omega)
      omega
    have hmul : s.cSig * lookaheadConf ≤ s.cSig * (total + 1) :=
      Nat.mul_le_mul_left _ (by omega)
    rw [Nat.mul_add, Nat.mul_one] at hmul
    omega
  omega

/-! ## One round -/

/-- A candidate that is handled. -/
structure Issued (l l' : Lookahead) (n : ℕ) : Prop where
  baseAddr : l'.baseAddr = l.baseAddr
  currSig : l'.currSig = l.currSig
  queue : l'.queue = l.queue
  lookaheadConf : l'.lookaheadConf = l.lookaheadConf
  depth : l'.depth = l.depth
  head : l'.head = l.head + n
  doLookahead : l'.doLookahead = (l.doLookahead || 0 < n)
  accuracy : l'.ghr.globalAccuracy = l.ghr.globalAccuracy
  sound : l'.ghr.Sound
  requests : l'.requests.length ≤ l.requests.length + n

theorem Issued.refl (h : l.ghr.Sound) : Issued l l 0 :=
  ⟨rfl, rfl, rfl, rfl, rfl, rfl, by simp, rfl, h, le_rfl⟩

/-- The filter leaves the register alone when it is asked for a prefetch. -/
theorem check_ghr (f : PrefetchFilter) (ghr : GlobalRegister) (pfAddr : UInt64)
    (request : FilterRequest) (h : request = .sppL2cPrefetch ∨ request = .sppLlcPrefetch) :
    (f.check ghr pfAddr request).2.2 = ghr := by
  rcases h with rfl | rfl <;> simp only [PrefetchFilter.check] <;> split <;> rfl

/-- A prefetch changes the filter, the counters and the requests. -/
theorem prefetch_eq (pfAddr : UInt64) (c : Candidate) (l : Lookahead) :
    ∃ filter ghr requests, prefetch k pfAddr c l =
        { l with filter := filter, ghr := ghr, requests := requests } ∧
      (ghr = l.ghr ∨ ghr = countIssued l.ghr) ∧ requests.length ≤ l.requests.length + 1 := by
  have hghr := check_ghr l.filter l.ghr pfAddr (if k.fillThreshold ≤ c.confidence then
    .sppL2cPrefetch else .sppLlcPrefetch) (by split <;> simp)
  rw [prefetch]
  dsimp only
  generalize l.filter.check l.ghr pfAddr (if k.fillThreshold ≤ c.confidence then .sppL2cPrefetch
    else .sppLlcPrefetch) = result at hghr ⊢
  obtain ⟨pass, filter, ghr⟩ := result
  obtain rfl : ghr = l.ghr := hghr
  cases pass with
  | false => exact ⟨filter, l.ghr, l.requests, rfl, .inl rfl, Nat.le_succ _⟩
  | true =>
    refine ⟨filter, _, _, rfl, ?_, by simp⟩
    split
    · exact .inr rfl
    · exact .inl rfl

theorem countIssued_entry (ghr : GlobalRegister) :
    (countIssued ghr).entry = ghr.entry ∧ (countIssued ghr).globalAccuracy = ghr.globalAccuracy := by
  rw [countIssued]
  split <;> exact ⟨rfl, rfl⟩

theorem GlobalRegister.Sound.of_entry {g g' : GlobalRegister} (h : g.Sound)
    (hentry : g'.entry = g.entry) : g'.Sound :=
  ⟨hentry ▸ h.confidence_lt, hentry ▸ h.distinct⟩

/-- The loop handles every candidate. -/
theorem issue_issued {c : Candidate} (addr : UInt64) (h : l.ghr.Sound)
    (hlikely : k.pfThreshold ≤ c.confidence) (hconf : c.confidence < 100) : ∃ l', issue k addr l c = some l' ∧ Issued l l' 1 := by
  rw [issue, if_pos hlikely]
  dsimp only
  split
  · obtain ⟨filter, ghr, requests, hprefetch, hghr, hrequests⟩ :=
      prefetch_eq (k := k) (blocksAfter l.baseAddr c.delta) c l
    have hentry : ghr.entry = l.ghr.entry ∧ ghr.globalAccuracy = l.ghr.globalAccuracy := by
      rcases hghr with rfl | rfl
      · exact ⟨rfl, rfl⟩
      · exact countIssued_entry l.ghr
    rw [hprefetch]
    exact ⟨_, rfl, rfl, rfl, rfl, rfl, rfl, rfl, by simp, hentry.2, h.of_entry hentry.1, hrequests⟩
  · obtain ⟨g', hupdate, hsound, -, -, haccuracy⟩ := h.updateEntry l.currSig
      ((blocksAfter l.baseAddr c.delta >>> 6) &&& 0x3f).toNat c.delta hconf
    rw [hupdate]
    exact ⟨_, rfl, rfl, rfl, rfl, rfl, rfl, rfl, by simp, haccuracy, hsound, by simp⟩

/-- The loop over the candidates of a round. -/
theorem issues (added : List Candidate) (addr : UInt64) (h : l.ghr.Sound)
    (hlikely : ∀ c ∈ added, k.pfThreshold ≤ c.confidence ∧ c.confidence < 100) :
    ∃ l', added.foldlM (issue k addr) l = some l' ∧ Issued l l' added.length := by
  induction added generalizing l with
  | nil => exact ⟨l, rfl, Issued.refl h⟩
  | cons c added ih =>
    obtain ⟨hc, hadded⟩ := List.forall_mem_cons.1 hlikely
    obtain ⟨l₁, hissue, h₁⟩ := issue_issued addr h hc.1 hc.2
    obtain ⟨l₂, hfold, h₂⟩ := ih h₁.sound hadded
    refine ⟨l₂, by rw [List.foldlM_cons, hissue]; exact hfold, ?_⟩
    refine ⟨h₂.baseAddr.trans h₁.baseAddr, h₂.currSig.trans h₁.currSig, h₂.queue.trans h₁.queue,
      h₂.lookaheadConf.trans h₁.lookaheadConf, h₂.depth.trans h₁.depth, ?_, ?_,
      h₂.accuracy.trans h₁.accuracy, h₂.sound, ?_⟩
    · rw [h₂.head, h₁.head, List.length_cons]
      omega
    · rw [h₂.doLookahead, h₁.doLookahead]
      simp
    · have hle₁ := h₁.requests
      have hle₂ := h₂.requests
      rw [List.length_cons]
      omega

/-- What a round finds: room for its candidates, a likely path, and a sound register. -/
structure Fits (l : Lookahead) : Prop where
  conf_ge : 15 ≤ l.lookaheadConf
  room : 2 * l.queue.length + l.lookaheadConf ≤ 100
  depth : l.depth = 0 → l.lookaheadConf = 100
  head : l.head = l.queue.length
  accuracy : l.ghr.globalAccuracy ≤ 100
  sound : l.ghr.Sound
  requests : l.requests.length ≤ l.queue.length

/-- What a round leaves. -/
structure Rounded (l l' : Lookahead) : Prop where
  sound : l'.ghr.Sound
  requests : l'.requests.length ≤ l'.queue.length
  length_le : l'.queue.length ≤ 42
  next : l'.doLookahead = true → Fits l' ∧ l.queue.length < l'.queue.length

theorem Fits.length_le (h : Fits l) : l.queue.length ≤ 42 := by
  have hconf := h.conf_ge
  have hroom := h.room
  omega

/-- A round ends, and the next one has room. -/
theorem Fits.level (h : Fits l) (addr : UInt64) (hpt : ∀ set, (pt set).Counts)
    (hk : 15 ≤ k.pfThreshold) :
    ∃ l', level k pt addr l = some l' ∧ Rounded l l' := by
  have hlen := h.length_le
  have hroom := h.room
  have hmshr : l2cMshrSize = 48 := rfl
  have hways : ptWay = 4 := rfl
  rw [Spp.level, readPattern]
  dsimp only
  by_cases hcSig : (pt (ptIndex l.currSig)).cSig ≠ 0
  · obtain ⟨r, added, hfold, hadded, hnext⟩ := readWays l.queue (hpt _) hcSig hk
      h.accuracy h.depth (by omega) h.conf_ge (by omega)
    rw [if_pos hcSig, hfold, Option.map_some]
    dsimp only
    have hdrop : r.queue.drop l.head = added := by
      rw [hadded.queue_eq, h.head, List.drop_left]
    rw [hdrop]
    obtain ⟨l', hissues, hissued⟩ := issues
      (l := { l with
        queue := r.queue, lookaheadConf := r.maxConf, doLookahead := false
        depth := if k.pfThreshold ≤ r.maxConf then l.depth + 1 else l.depth })
      added addr h.sound hadded.likely
    rw [hissues]
    dsimp only
    have hqueue : l'.queue = l.queue ++ added := hissued.queue.trans hadded.queue_eq
    have hlength : l'.queue.length = l.queue.length + added.length := by
      rw [hqueue, List.length_append]
    have hrequests : l'.requests.length ≤ l.requests.length + added.length := hissued.requests
    have hrequests₀ := h.requests
    have hconf : l'.lookaheadConf = r.maxConf := hissued.lookaheadConf
    have hhead : l'.head = l.head + added.length := hissued.head
    have hhead₀ := h.head
    have haccuracy : l'.ghr.globalAccuracy ≤ 100 := hissued.accuracy.trans_le h.accuracy
    have hgrows : l'.doLookahead = true → added ≠ [] := by
      rw [hissued.doLookahead]
      rintro hpos rfl
      simp at hpos
    have hrounded : Rounded l l' := by
      refine ⟨hissued.sound, by omega, ?_, fun hdo => ⟨?_, ?_⟩⟩
      · rcases List.eq_nil_or_concat added with hnil | ⟨_, _, hconcat⟩
        · rw [hlength, hnil]
          exact hlen
        · have hne : added ≠ [] := by simp [hconcat]
          have hroom' := hnext hne
          have hge := hadded.max_ge hne
          omega
      · have hne := hgrows hdo
        have hroom' := hnext hne
        have hge := hadded.max_ge hne
        have hdepth : l'.depth = l.depth + 1 := hissued.depth.trans (if_pos hge)
        exact ⟨by omega, by omega, by omega, by omega, haccuracy, hissued.sound, by omega⟩
      · have hpos := List.length_pos_iff.2 (hgrows hdo)
        omega
    split
    · refine ⟨_, rfl, hrounded.sound, hrounded.requests, hrounded.length_le, fun hdo => ?_⟩
      obtain ⟨hfits, hlt⟩ := hrounded.next hdo
      exact ⟨⟨hfits.conf_ge, hfits.room, hfits.depth, hfits.head, hfits.accuracy, hfits.sound,
        hfits.requests⟩, hlt⟩
    · exact ⟨_, rfl, hrounded⟩
  · rw [if_neg hcSig, if_pos (by omega)]
    have hdrop : l.queue.drop l.head = [] := by rw [h.head, List.drop_length]
    dsimp only
    rw [hdrop, List.foldlM_nil]
    refine ⟨{ l with doLookahead := false }, by simp, h.sound, h.requests, hlen, fun hdo => ?_⟩
    exact absurd hdo Bool.false_ne_true

/-- The loop ends. -/
theorem Fits.lookahead (addr : UInt64) (hpt : ∀ set, (pt set).Counts) (hk : 15 ≤ k.pfThreshold) :
    ∀ {fuel : ℕ} {l : Lookahead}, Fits l → l2cMshrSize + 1 ≤ fuel + l.queue.length →
      ∃ l', lookahead k pt addr fuel l = some l' ∧ l'.ghr.Sound ∧ l'.requests.length ≤ 42
  | 0, l, h, hfuel => by
    have hlen := h.length_le
    have hmshr : l2cMshrSize = 48 := rfl
    omega
  | fuel + 1, l, h, hfuel => by
    obtain ⟨l', hlevel, hrounded⟩ := h.level addr hpt hk
    rw [Spp.lookahead, hlevel]
    dsimp only
    split
    · rename_i hdo
      obtain ⟨hfits, hlt⟩ := hrounded.next hdo
      exact Fits.lookahead addr hpt hk hfits (by omega)
    · exact ⟨l', rfl, hrounded.sound, hrounded.requests.trans hrounded.length_le⟩

/-! ## Runs -/

/-- The accesses of a run. -/
def visits (tr : Lts.Trace Call Request) : List SignatureTable.Visit :=
  tr.filterMap fun x => match x.1 with
    | .access addr => some (partialPage (addr >>> 12), ((addr >>> 6) &&& 63).toNat)
    | .fill _ => none

/-- The two tables in every run. -/
structure Inv (s : Spp) (tr : Lts.Trace Call Request) : Prop where
  tracks : ∃ order, s.st.Tracks order (visits tr)
  counts : ∀ set, (s.pt set).Counts

variable {s s' : Spp} {tr : Lts.Trace Call Request} {out : List Request}

theorem pageOffset_lt (addr : UInt64) : ((addr >>> 6) &&& 63).toNat < 64 := by
  rw [UInt64.toNat_and]
  exact Nat.lt_succ_of_le Nat.and_le_right

/-- The filter changes the counters of the register at most. -/
theorem check_entry (f : PrefetchFilter) (ghr : GlobalRegister) (addr : UInt64)
    (request : FilterRequest) : (f.check ghr addr request).2.2.entry = ghr.entry ∧
      (f.check ghr addr request).2.2.globalAccuracy = ghr.globalAccuracy := by
  cases request <;> simp only [PrefetchFilter.check] <;> split
  all_goals try exact ⟨rfl, rfl⟩
  all_goals dsimp only; split <;> exact ⟨rfl, rfl⟩

theorem step_access (s : Spp) (addr : UInt64) :
    (system k).step s (.access addr) = s.invokePrefetcher k addr := rfl

theorem Inv.init : Inv init [] :=
  ⟨⟨[], SignatureTable.Tracks.init⟩, fun _ => PatternSet.Counts.init⟩

/-- An access reads and moves a signature, and counts the delta. -/
theorem Inv.read (h : Inv s tr) (addr : UInt64) (ghr : GlobalRegister) : ∃ st r pt,
    s.st.readAndUpdateSig ghr (addr >>> 12) ((addr >>> 6) &&& 63).toNat = some (st, r) ∧
    (if r.lastSig ≠ 0 then updatePattern s.pt r.lastSig r.delta else some s.pt) = some pt ∧
    (∃ order, st.Tracks order (visits tr ++ [(partialPage (addr >>> 12),
      ((addr >>> 6) &&& 63).toNat)])) ∧ ∀ set, (pt set).Counts := by
  obtain ⟨order, htracks⟩ := h.tracks
  obtain ⟨st, r, way, hread, hbounded, htracks'⟩ :=
    htracks.readAndUpdateSig ghr (addr >>> 12) (pageOffset_lt addr)
  by_cases hlast : r.lastSig ≠ 0
  · obtain ⟨hne, hsmall⟩ := hbounded hlast
    obtain ⟨pt, hupdate, hcounts⟩ := updatePattern_counts h.counts r.lastSig hne hsmall
    exact ⟨st, r, pt, hread, by rw [if_pos hlast, hupdate], ⟨_, htracks'⟩, hcounts⟩
  · exact ⟨st, r, s.pt, hread, if_neg hlast, ⟨_, htracks'⟩, h.counts⟩

/-- Every step keeps the tables. -/
theorem Inv.step {call : Call} (h : Inv s tr) (hs : (system k).step s call = some (s', out)) :
    Inv s' (tr ++ [(call, out)]) := by
  cases call with
  | access addr =>
    obtain ⟨st, r, pt, hread, hupdate, htracks, hcounts⟩ :=
      h.read addr { s.ghr with globalAccuracy := accuracy s.ghr }
    simp only [system, invokePrefetcher, hread, hupdate] at hs
    obtain ⟨l, -, hl⟩ := Option.map_eq_some_iff.1 hs
    obtain ⟨rfl, -⟩ := Prod.mk.inj hl
    exact ⟨by simpa [visits] using htracks, hcounts⟩
  | fill evictedAddr =>
    obtain ⟨rfl, rfl⟩ := Prod.mk.inj (Option.some.inj hs)
    exact ⟨by simpa [visits, cacheFill] using h.tracks, h.counts⟩

theorem inv {ok : Spp → Call → Prop} (h : (system k).Run ok s tr) : Inv s tr := by
  refine h.induct (P := Inv) ?_ fun _ _ _ _ _ _ hinv _ hs => hinv.step hs
  rintro _ rfl
  exact Inv.init

/-- An access with accurate counters completes. -/
theorem Inv.access (h : Inv s tr) (hsound : s.ghr.Sound) (hk : 15 ≤ k.pfThreshold)
    (hacc : s.ghr.pfUseful ≤ s.ghr.pfIssued) (addr : UInt64) :
    ∃ s' out, s.invokePrefetcher k addr = some (s', out) ∧ s'.ghr.Sound ∧ out.length ≤ 42 := by
  obtain ⟨st, r, pt, hread, hupdate, -, hcounts⟩ :=
    h.read addr { s.ghr with globalAccuracy := accuracy s.ghr }
  have haccuracy : accuracy s.ghr ≤ 100 := by
    rw [accuracy]
    split
    · exact Nat.div_le_of_le_mul (by omega)
    · exact Nat.zero_le _
  obtain ⟨hentry, hsame⟩ :=
    check_entry s.filter { s.ghr with globalAccuracy := accuracy s.ghr } addr .l2cDemand
  have hfits : Fits {
      baseAddr := addr, currSig := r.currSig, queue := [], lookaheadConf := 100, depth := 0,
      head := 0, doLookahead := false
      filter := (s.filter.check { s.ghr with globalAccuracy := accuracy s.ghr } addr .l2cDemand).2.1
      ghr := (s.filter.check { s.ghr with globalAccuracy := accuracy s.ghr } addr .l2cDemand).2.2
      requests := [] } :=
    ⟨by simp, by simp, fun _ => rfl, rfl, hsame.trans_le haccuracy, hsound.of_entry hentry, by simp⟩
  obtain ⟨l, hlookahead, hsound', hlength⟩ :=
    hfits.lookahead addr hcounts hk (by simp : l2cMshrSize + 1 ≤ l2cMshrSize + 1 + 0)
  refine ⟨{ st := st, pt := pt, filter := l.filter, ghr := l.ghr }, l.requests, ?_, hsound', hlength⟩
  rw [invokePrefetcher]
  simp only [hread, hupdate, hlookahead]
  rfl

/-- The confidences of the register stay below 100. -/
theorem sound (hk : 15 ≤ k.pfThreshold) (h : (system k).Run Accurate s tr) : s.ghr.Sound := by
  refine h.induct (P := fun s _ => s.ghr.Sound) ?_ fun s tr call s' out hrun hsound hacc hs => ?_
  · rintro _ rfl
    exact GlobalRegister.Sound.init
  · cases call with
    | access addr =>
      obtain ⟨s₁, out₁, hinvoke, hsound', -⟩ := (inv hrun).access hsound hk hacc addr
      rw [step_access, hinvoke] at hs
      obtain ⟨rfl, -⟩ := Prod.mk.inj (Option.some.inj hs)
      exact hsound'
    | fill evictedAddr =>
      obtain ⟨rfl, -⟩ := Prod.mk.inj (Option.some.inj hs)
      exact hsound.of_entry (check_entry s.filter s.ghr evictedAddr .l2cEvict).1

/-- In runs with accurate counters every call completes: no assert fails, no array is indexed out of
its bounds, and the lookahead ends after at most 42 prefetches. -/
theorem accurate_completes (hk : 15 ≤ k.pfThreshold) (h : (system k).Reachable Accurate s)
    (call : Call) (hacc : Accurate s call) :
    ∃ s' out, (system k).step s call = some (s', out) ∧ out.length ≤ 42 := by
  obtain ⟨tr, hrun⟩ := h
  cases call with
  | access addr =>
    obtain ⟨s', out, hinvoke, -, hlength⟩ := (inv hrun).access (sound hk hrun) hk hacc addr
    exact ⟨s', out, hinvoke, hlength⟩
  | fill evictedAddr => exact ⟨_, _, rfl, Nat.zero_le _⟩

instance (s : Spp) (call : Call) : Decidable (Accurate s call) :=
  match call with
  | .access _ => inferInstanceAs (Decidable (_ ≤ _))
  | .fill _ => inferInstanceAs (Decidable True)

/-- Accesses to blocks of a page. -/
def accesses (page : UInt64) (blocks : List UInt64) : List Call :=
  blocks.map fun block => .access (page * 4096 + block * 64)

/-- An access behind 18 blocks of a page in a row, with the knobs of the configuration file: the
lookahead goes on for three rounds. -/
theorem accurate_completes_learned : ∃ s : Spp, (system ⟨90, 40⟩).Reachable Accurate s ∧
    Accurate s (.access 0x10480) ∧ ∃ s' out,
      (system ⟨90, 40⟩).step s (.access 0x10480) = some (s', out) ∧ out.length ≤ 42 ∧
      out.map (fun r => (r.pfAddr, r.fillLevel)) =
        [(0x104c0, fillL2), (0x10500, fillLlc), (0x10540, fillLlc)] := by
  obtain ⟨s, hr, hp⟩ := Lts.reachable_of_exec (system ⟨90, 40⟩) Accurate
    (fun s => decide (Accurate s (.access 0x10480)) &&
      ((system ⟨90, 40⟩).step s (.access 0x10480)).any fun r =>
        r.2.map (fun r => (r.pfAddr, r.fillLevel)) ==
          [(0x104c0, fillL2), (0x10500, fillLlc), (0x10540, fillLlc)])
    (accesses 16 [0, 1, 2, 3, 4, 5, 6, 7, 8, 9, 10, 11, 12, 13, 14, 15, 16, 17]) rfl
    (by decide +kernel)
  simp only [Bool.and_eq_true, decide_eq_true_eq, Option.any_eq_true, beq_iff_eq] at hp
  obtain ⟨hacc, ⟨s', out⟩, hs, hout⟩ := hp
  obtain ⟨s₁, out₁, hs₁, hlength⟩ := accurate_completes (by decide) hr (.access 0x10480) hacc
  obtain ⟨-, rfl⟩ := Prod.mk.inj (Option.some.inj (hs₁.symm.trans hs))
  exact ⟨s, hr, hacc, _, _, hs₁, hlength, hout⟩

/-- In every run each set of the pattern table has counted its deltas less often than its signature
and holds no delta twice, and the confidences of the deltas sum to less than 100. -/
theorem pattern_counts {ok : Spp → Call → Prop} (h : (system k).Reachable ok s) (set : ℕ) :
    (s.pt set).Counts ∧
      ((s.pt set).cSig ≠ 0 → ∑ way ∈ Finset.range ptWay, (s.pt set).localConf way < 100) := by
  obtain ⟨tr, hrun⟩ := h
  have hcounts := (inv hrun).counts set
  exact ⟨hcounts, hcounts.sum_localConf_lt⟩

/-- A signature that was followed by two deltas. -/
theorem pattern_counts_two : ∃ s : Spp, (system ⟨90, 40⟩).Reachable (fun _ _ => True) s ∧
    (s.pt (ptIndex 585)).cSig = 6 ∧
    (List.range ptWay).map (s.pt (ptIndex 585)).localConf = [50, 16, 0, 0] ∧
    (s.pt (ptIndex 585)).Counts ∧
    ∑ way ∈ Finset.range ptWay, (s.pt (ptIndex 585)).localConf way < 100 := by
  obtain ⟨s, hr, hp⟩ := Lts.reachable_of_exec (system ⟨90, 40⟩) (fun _ _ => True)
    (fun s => (s.pt (ptIndex 585)).cSig == 6 &&
      (List.range ptWay).map (s.pt (ptIndex 585)).localConf == [50, 16, 0, 0])
    (accesses 16 [0, 1, 2, 3, 4, 5, 6, 7, 8, 10, 11, 12, 13, 14, 16]) rfl (by decide +kernel)
  simp only [Bool.and_eq_true, beq_iff_eq] at hp
  obtain ⟨hcounts, hsum⟩ := pattern_counts hr (ptIndex 585)
  exact ⟨s, hr, hp.1, hp.2, hcounts, hsum (by rw [hp.1]; decide)⟩

/-- In every run the signature table holds the 256 pages that were accessed last, each in one way; the
signature of a page is folded over the deltas of its stay in the table, and over the last four alone
from the fourth one on. -/
theorem signature_table {ok : Spp → Call → Prop} (h : (system k).Run ok s tr) :
    (∀ tag, tag ∈ Recency.recent stWay ((visits tr).map Prod.fst) ↔
      ∃ way < stWay, s.st.valid way = true ∧ s.st.tag way = tag) ∧
    (∀ v < stWay, ∀ w < stWay, s.st.valid v = true → s.st.valid w = true →
      s.st.tag v = s.st.tag w → v = w) ∧
    ∀ way < stWay, s.st.valid way = true →
      let offsets := LruTable.stay stWay (s.st.tag way) (visits tr)
      offsets.getLast? = some (s.st.lastOffset way) ∧
      (∃ start < 2 ^ 12, s.st.sig way = (moves offsets).foldl nextSig start) ∧
      (4 ≤ (moves offsets).length →
        s.st.sig way = (Window.last 4 (moves offsets)).foldl nextSig 0) := by
  obtain ⟨order, htracks⟩ := (inv h).tracks
  refine ⟨fun tag => ?_, fun v hv w hw hvalid hvalid' htag => ?_, fun way hway hvalid => ?_⟩
  · rw [htracks.holds.mem_recent]
    constructor
    · rintro ⟨way, hway, htag⟩
      have hlt := htracks.holds.lt way hway
      exact ⟨way, hlt, (htracks.valid_iff way hlt).2 hway, htag⟩
    · rintro ⟨way, hlt, hvalid, htag⟩
      exact ⟨way, (htracks.valid_iff way hlt).1 hvalid, htag⟩
  · exact htracks.holds.injOn v ((htracks.valid_iff v hv).1 hvalid) w
      ((htracks.valid_iff w hw).1 hvalid') htag
  · obtain ⟨hlast, -, start, hstart, hsig⟩ :=
      htracks.records way ((htracks.valid_iff way hway).1 hvalid)
    refine ⟨hlast, ⟨start, hstart, hsig⟩, fun hlength => ?_⟩
    have hforgets := Scooby.StEntry.forgets_signatureStep Scooby.StEntry.sppCode
    rw [hsig, nextSig_eq, ← hforgets.foldl_last start]
    exact hforgets start 0 _ (by rw [Window.length_last, Nat.min_eq_left hlength])

/-- Accesses to two pages, and to one block twice: five deltas of the first page. -/
theorem signature_table_stay : ∃ s tr, (system ⟨90, 40⟩).Run (fun _ _ => True) s tr ∧
    moves (LruTable.stay stWay 16 (visits tr)) = [1, 2, -1, 4, -1] ∧
    ∃ way < stWay, s.st.valid way = true ∧ s.st.tag way = 16 ∧
      s.st.sig way = [2, -1, 4, -1].foldl nextSig 0 := by
  obtain ⟨s, tr, hr, hp⟩ := Lts.run_of_exec (system ⟨90, 40⟩) (fun _ _ => True)
    (fun _ tr => (visits tr).map Prod.fst == [16, 16, 17, 16, 16, 17, 16, 16, 16] &&
      moves (LruTable.stay stWay 16 (visits tr)) == [1, 2, -1, 4, -1])
    (accesses 16 [0, 1] ++ accesses 17 [4] ++ accesses 16 [3, 2] ++ accesses 17 [5] ++
      accesses 16 [6, 6, 5]) rfl (by decide +kernel)
  simp only [Bool.and_eq_true, beq_iff_eq] at hp
  obtain ⟨hpages, hmoves⟩ := hp
  obtain ⟨hrecent, -, hsig⟩ := signature_table hr
  have hmem : 16 ∈ Recency.recent stWay ((visits tr).map Prod.fst) := by
    rw [hpages]
    decide +kernel
  obtain ⟨way, hway, hvalid, htag⟩ := (hrecent 16).1 hmem
  obtain ⟨-, -, hfold⟩ := hsig way hway hvalid
  rw [htag, hmoves] at hfold
  exact ⟨s, tr, hr, hmoves, way, hway, hvalid, htag, hfold (by decide)⟩

end

end Spp

end Arishem
