import Arishem.Config.IniCalls

/-!
# Printed configurations

A configuration is printed as the pairs without a section and the sections with theirs. Parsing what
was printed gives back each pair with its section, in the order of the configuration.
-/

namespace Arishem

namespace Ini

/-- A name and its value. -/
abbrev Pair := List Char × List Char

/-- A configuration. -/
structure Document where
  globals : List Pair
  sections : List (List Char × List Pair)

/-- The printed lines, without their line breaks. -/
def pairText (pair : Pair) : List Char := pair.1 ++ '=' :: pair.2
def sectionText (currSection : List Char) : List Char := '[' :: currSection ++ [']']
def sectionTexts (s : List Char × List Pair) : List (List Char) :=
  sectionText s.1 :: s.2.map pairText

namespace Document

def texts (d : Document) : List (List Char) := d.globals.map pairText ++ d.sections.flatMap sectionTexts

/-- The text of a configuration. -/
def print (d : Document) : List Char := (d.texts.map (· ++ ['\n'])).flatten

/-- The pairs with their sections. -/
def calls (d : Document) : List (List Char × Pair) :=
  d.globals.map (Prod.mk []) ++ d.sections.flatMap fun s => s.2.map (Prod.mk s.1)

end Document

/-- No semicolon follows a white space. -/
def Uncommented : Bool → List Char → Prop
  | _, [] => True
  | wasSpace, c :: s => ¬(wasSpace = true ∧ c = ';') ∧ Uncommented (isSpace c) s

instance : ∀ w s, Decidable (Uncommented w s)
  | _, [] => inferInstanceAs (Decidable True)
  | _, c :: s =>
    have : Decidable (Uncommented (isSpace c) s) := instDecidableUncommented (isSpace c) s
    inferInstanceAs (Decidable (_ ∧ _))

/-- A pair whose line reads as it is: its name is clean and starts no byte order mark, its value is
clean, and the line fits the buffer. -/
structure Printable (pair : Pair) : Prop where
  name : CleanName pair.1
  name_last : rstrip pair.1 = pair.1
  value : CleanValue pair.2
  name_uncommented : Uncommented false pair.1
  value_uncommented : Uncommented false pair.2
  mark : pair.1.head? ≠ bom.head?
  null : '\x00' ∉ pair.1 ∧ '\x00' ∉ pair.2
  length_lt : pair.1.length + pair.2.length + 2 < iniMaxLine

/-- A section whose line reads as it is. -/
structure PrintableSection (currSection : List Char) : Prop where
  clean : CleanSection currSection
  uncommented : Uncommented false currSection
  null : '\x00' ∉ currSection

/-- A configuration whose lines read as they are. -/
structure Document.Printable (d : Document) : Prop where
  globals : ∀ pair ∈ d.globals, Ini.Printable pair
  sections : ∀ s ∈ d.sections, PrintableSection s.1 ∧ ∀ pair ∈ s.2, Ini.Printable pair

section
variable {s line rest currSection : List Char} {w : Bool} {c : Char} {p : Parser} {pair : Pair}
  {chars : List Char}

/-! ## One line -/

/-- The search stops at the first of the characters. -/
theorem findCharsOrComment_stop (hs : ∀ d ∈ s, d ∉ chars) (hu : Uncommented w s) (hc : c ∈ chars) :
    findCharsOrComment chars w (s ++ c :: rest) = (s, c :: rest) := by
  induction s generalizing w with
  | nil => simp [findCharsOrComment, hc]
  | cons d s ih =>
    obtain ⟨hd, hs⟩ := List.forall_mem_cons.1 hs
    obtain ⟨hcomment, hu⟩ := hu
    rw [List.cons_append, findCharsOrComment, if_neg (by simpa [hd] using hcomment), ih hs hu]

/-- A text without a comment is found as a whole. -/
theorem findCharsOrComment_all (hu : Uncommented w s) : findCharsOrComment [] w s = (s, []) := by
  induction s generalizing w with
  | nil => rfl
  | cons d s ih =>
    obtain ⟨hcomment, hu⟩ := hu
    rw [findCharsOrComment, if_neg (by simpa using hcomment), ih hu]

/-- Texts that stand in a line as they are. -/
structure Plain (s : List Char) : Prop where
  start : lskip s = s
  last : rstrip s = s
  mark : s.head? ≠ bom.head?
  null : '\x00' ∉ s
  newline : '\n' ∉ s
  length_lt : s.length + 1 < iniMaxLine

theorem rstrip_newline (h : rstrip s = s) : rstrip (s ++ ['\n']) = s := by
  have hspace : isSpace '\n' = true := rfl
  rw [rstrip, List.rdropWhile_concat_pos _ _ _ hspace]
  exact h

theorem cString_eq (h : '\x00' ∉ s) : cString (s ++ ['\n']) = s ++ ['\n'] := by
  rw [cString, List.takeWhile_eq_self_iff]
  intro c hc
  rw [List.mem_append, List.mem_singleton] at hc
  rcases hc with hc | rfl
  · refine decide_eq_true ?_
    rintro rfl
    exact h hc
  · rfl

/-- The parser sees the text of a plain line. -/
theorem Plain.parseLine (h : Plain (c :: s)) (hc : c ≠ ';' ∧ c ≠ '#') (p : Parser) :
    parseLine p (cString ((c :: s) ++ ['\n'])) =
      if c = '[' then parseSection { p with lineno := p.lineno + 1 } s
      else parsePair { p with lineno := p.lineno + 1 } (c :: s) := by
  have hmark : ¬(p.lineno + 1 = 1 ∧ bom.isPrefixOf ((c :: s) ++ ['\n']) = true) := by
    rintro ⟨-, hmarked⟩
    obtain ⟨t, ht⟩ := List.isPrefixOf_iff_prefix.1 hmarked
    exact h.mark (congrArg List.head? ht).symm
  rw [cString_eq h.null, Ini.parseLine]
  dsimp only
  rw [if_neg hmark, rstrip_newline h.last, h.start]
  dsimp only
  have hcontinued : ¬(p.prevName ≠ [] ∧
      ((p.lineno + 1 = 1 ∧ bom.isPrefixOf ((c :: s) ++ ['\n']) = true) ∨ c :: s ≠ c :: s)) :=
    fun hand => hand.2.elim hmark (absurd rfl)
  rw [if_neg (not_or.2 hc), if_neg hcontinued]

/-- The line of a pair is plain. -/
theorem Printable.plain (h : Printable pair) : Plain (pairText pair) := by
  obtain ⟨name, value⟩ := pair
  have hequals : isSpace '=' = false := rfl
  refine ⟨lskip_eq_self_iff.2 fun c hc => ?_, ?_, ?_, ?_, ?_, ?_⟩
  · cases name with
    | nil =>
      obtain rfl : '=' = c := Option.some.inj hc
      exact hequals
    | cons d name => exact (h.name.start c hc).2.2.2
  · rw [rstrip, List.rdropWhile_eq_self_iff]
    intro hne
    rcases List.eq_nil_or_concat value with rfl | ⟨value', d, rfl⟩
    · simp [pairText, hequals]
    · have hlast := h.value.last
      rw [rstrip, List.rdropWhile_eq_self_iff] at hlast
      have hd := hlast (by simp)
      have hget : (pairText (name, value'.concat d)).getLast hne = (value'.concat d).getLast
          (by simp) := by
        have happend : pairText (name, value'.concat d) = (name ++ ['=']) ++ value'.concat d := by
          simp [pairText]
        exact (List.getLast_congr hne (by simp) happend).trans
          (List.getLast_append_of_ne_nil _ (by simp))
      rwa [hget]
  · cases name with
    | nil =>
      have hne : some '=' ≠ bom.head? := by decide
      exact hne
    | cons d name => exact h.mark
  · simpa [pairText] using ⟨h.null.1, h.null.2⟩
  · simpa [pairText] using ⟨h.name.newline, h.value.newline⟩
  · have hlen := h.length_lt
    simp only [pairText, List.length_append, List.length_cons]
    omega

/-- The line of a pair is a call of the handler. -/
theorem Printable.parse (h : Printable pair) (p : Parser) :
    ∃ p', parseLine p (cString (pairText pair ++ ['\n'])) =
        (p', .call p.currSection pair.1 pair.2) ∧ p'.currSection = p.currSection := by
  obtain ⟨name, value⟩ := pair
  have hfind : findCharsOrComment ['=', ':'] false (pairText (name, value)) = (name, '=' :: value) := by
    refine findCharsOrComment_stop (fun d hd => ?_) h.name_uncommented (by simp)
    simp only [List.mem_cons, List.not_mem_nil, or_false, not_or]
    exact ⟨fun he => h.name.separators.1 (he ▸ hd), fun he => h.name.separators.2 (he ▸ hd)⟩
  have hparse : parsePair { p with lineno := p.lineno + 1 } (pairText (name, value)) =
      ({ p with lineno := p.lineno + 1, prevName := strncpy0 name maxName },
        .call p.currSection name value) := by
    rw [parsePair, hfind]
    dsimp only
    rw [if_pos (.inl rfl), h.name_last, List.drop_one, List.tail_cons,
      findCharsOrComment_all h.value_uncommented, h.value.start, h.value.last]
  have hplain := h.plain
  -- the line starts with the name, or with the separator
  have hhead : ∃ c s, pairText (name, value) = c :: s ∧ c ≠ ';' ∧ c ≠ '#' ∧ c ≠ '[' := by
    cases name with
    | nil => exact ⟨'=', value, rfl, by decide, by decide, by decide⟩
    | cons c name =>
      obtain ⟨hsemi, hhash, hbracket, -⟩ := h.name.start c rfl
      exact ⟨c, name ++ '=' :: value, rfl, hsemi, hhash, hbracket⟩
  obtain ⟨c, s, htext, hsemi, hhash, hbracket⟩ := hhead
  rw [htext] at hparse hplain ⊢
  refine ⟨{ p with lineno := p.lineno + 1, prevName := strncpy0 name maxName }, ?_, rfl⟩
  rw [hplain.parseLine ⟨hsemi, hhash⟩ p, if_neg hbracket, hparse]

/-- The line of a section is plain, and sets the section. -/
theorem PrintableSection.plain (h : PrintableSection currSection) : Plain (sectionText currSection) := by
  have hopen : isSpace '[' = false := rfl
  have hclose : ¬isSpace ']' = true := by decide
  have hlen := h.clean.length_lt
  have hmax : maxSection = 50 := rfl
  refine ⟨lskip_eq_self_iff.2 fun c hc => ?_, ?_, ?_, ?_, ?_, ?_⟩
  · obtain rfl : '[' = c := Option.some.inj hc
    exact hopen
  · exact List.rdropWhile_concat_neg _ _ _ hclose
  · have hne : some '[' ≠ bom.head? := by decide
    exact hne
  · simpa [sectionText] using h.null
  · simpa [sectionText] using h.clean.newline
  · simp only [sectionText, List.length_append, List.length_cons, List.length_nil, iniMaxLine]
    omega

theorem PrintableSection.parse (h : PrintableSection currSection) (p : Parser) :
    ∃ p', parseLine p (cString (sectionText currSection ++ ['\n'])) = (p', .ignored) ∧
      p'.currSection = currSection := by
  have hplain : Plain ('[' :: (currSection ++ [']'])) := h.plain
  have hlen := h.clean.length_lt
  have hfind : findCharsOrComment [']'] false (currSection ++ [']']) = (currSection, [']']) := by
    refine findCharsOrComment_stop (fun d hd => ?_) h.uncommented (by simp)
    rw [List.mem_singleton]
    exact fun he => h.clean.bracket (he ▸ hd)
  have htake : strncpy0 currSection maxSection = currSection :=
    List.take_of_length_le (Nat.le_pred_of_lt hlen)
  refine ⟨{ p with lineno := p.lineno + 1, currSection := currSection, prevName := [] }, ?_, rfl⟩
  have hline := hplain.parseLine (by decide) p
  rw [if_pos rfl, parseSection, hfind] at hline
  dsimp only at hline
  rw [if_pos (List.head?_cons ..), htake] at hline
  exact hline

/-! ## All lines -/

theorem readChars_newline {n : ℕ} (hs : '\n' ∉ s) (hn : s.length < n) :
    readChars n (s ++ '\n' :: rest) = (s ++ ['\n'], rest) := by
  induction s generalizing n with
  | nil =>
    cases n with
    | zero => exact absurd hn (Nat.not_lt_zero _)
    | succ n => rfl
  | cons c s ih =>
    cases n with
    | zero => exact absurd hn (Nat.not_lt_zero _)
    | succ n =>
      have hc : c ≠ '\n' := fun he => hs (he ▸ List.mem_cons_self ..)
      have hs' : '\n' ∉ s := fun hmem => hs (List.mem_cons_of_mem _ hmem)
      rw [List.cons_append, readChars, if_neg hc, ih hs' (Nat.lt_of_succ_lt_succ hn)]
      rfl

/-- The lines that are read are those that were printed. -/
theorem rawLines_print {texts : List (List Char)} (h : ∀ s ∈ texts, Plain s) {fuel : ℕ}
    (hfuel : texts.length < fuel) :
    rawLines fuel (texts.map (· ++ ['\n'])).flatten = texts.map (· ++ ['\n']) := by
  induction texts generalizing fuel with
  | nil =>
    cases fuel with
    | zero => rfl
    | succ fuel => rfl
  | cons s texts ih =>
    cases fuel with
    | zero => exact absurd hfuel (Nat.not_lt_zero _)
    | succ fuel =>
      obtain ⟨hs, htexts⟩ := List.forall_mem_cons.1 h
      have hread : reader iniMaxLine ((s ++ ['\n']) ++ (texts.map (· ++ ['\n'])).flatten) =
          some (s ++ ['\n'], (texts.map (· ++ ['\n'])).flatten) := by
        rw [reader, if_neg (by simp [iniMaxLine]), List.append_assoc, List.singleton_append,
          readChars_newline hs.newline (Nat.lt_sub_of_add_lt hs.length_lt)]
      rw [List.map_cons, List.flatten_cons, rawLines, hread]
      dsimp only
      rw [ih htexts (Nat.lt_of_succ_lt_succ hfuel)]

/-- The lines of some pairs are calls with the section before them. -/
theorem events_pairs {pairs : List Pair} (h : ∀ pair ∈ pairs, Printable pair) (p : Parser)
    (rest : List (List Char)) :
    ∃ p', events p ((pairs.map pairText).map (· ++ ['\n']) ++ rest) =
        pairs.map (fun pair => .call p.currSection pair.1 pair.2) ++ events p' rest ∧
      p'.currSection = p.currSection := by
  induction pairs generalizing p with
  | nil => exact ⟨p, rfl, rfl⟩
  | cons pair pairs ih =>
    obtain ⟨hpair, hpairs⟩ := List.forall_mem_cons.1 h
    obtain ⟨p₁, hparse, hsection⟩ := hpair.parse p
    obtain ⟨p₂, hevents, hsection'⟩ := ih hpairs p₁
    refine ⟨p₂, ?_, hsection'.trans hsection⟩
    rw [List.map_cons, List.map_cons, List.cons_append, events, hparse, List.map_cons,
      List.cons_append, ← hsection]
    dsimp only
    rw [hevents]

/-- The lines of some sections are the calls of their pairs. -/
theorem events_sections {sections : List (List Char × List Pair)}
    (h : ∀ s ∈ sections, PrintableSection s.1 ∧ ∀ pair ∈ s.2, Printable pair) (p : Parser) :
    events p ((sections.flatMap sectionTexts).map (· ++ ['\n'])) =
      sections.flatMap fun s => .ignored :: s.2.map fun pair => .call s.1 pair.1 pair.2 := by
  induction sections generalizing p with
  | nil => rfl
  | cons s sections ih =>
    obtain ⟨⟨hs, hpairs⟩, hsections⟩ := List.forall_mem_cons.1 h
    obtain ⟨p₁, hparse, hsection⟩ := hs.parse p
    obtain ⟨p₂, hevents, -⟩ := events_pairs hpairs p₁
      ((sections.flatMap sectionTexts).map (· ++ ['\n']))
    rw [List.flatMap_cons, List.map_append, sectionTexts, List.map_cons, List.cons_append, events,
      hparse]
    dsimp only
    rw [hevents, hsection, ih hsections, List.flatMap_cons, List.cons_append]

end

/-! ## The handler -/

/-- The call of an event. -/
def Event.call? : Event → Option (List Char × Pair)
  | .call currSection name value => some (currSection, name, value)
  | _ => none

section
variable {σ : Type*} {handler : σ → List Char → List Char → List Char → σ × Bool}

/-- Only calls change the user's data. -/
theorem after_eq (user : σ) (evs : List Event) : after handler user evs =
    (evs.filterMap Event.call?).foldl (fun user c => (handler user c.1 c.2.1 c.2.2).1) user := by
  induction evs generalizing user with
  | nil => rfl
  | cons e evs ih =>
    rw [after, List.foldl_cons, ← after, ih]
    cases e <;> rfl

/-- Lines that are not bad succeed when the handler accepts their pairs. -/
theorem firstFailure_eq_zero {evs : List Event} (hbad : .bad ∉ evs)
    (haccepts : ∀ user, ∀ c ∈ evs.filterMap Event.call?, (handler user c.1 c.2.1 c.2.2).2 = true)
    (user : σ) : firstFailure (successes handler user evs) = 0 := by
  have hall : ∀ ok ∈ successes handler user evs, ok = true := by
    induction evs generalizing user with
    | nil => exact fun ok hok => absurd hok List.not_mem_nil
    | cons e evs ih =>
      intro ok hok
      have hbad' : .bad ∉ evs := fun hmem => hbad (List.mem_cons_of_mem _ hmem)
      have haccepts' : ∀ user, ∀ c ∈ evs.filterMap Event.call?,
          (handler user c.1 c.2.1 c.2.2).2 = true := by
        intro user c hc
        obtain ⟨e', he', hcall⟩ := List.mem_filterMap.1 hc
        exact haccepts user c (List.mem_filterMap.2 ⟨e', List.mem_cons_of_mem _ he', hcall⟩)
      rcases List.mem_cons.1 hok with rfl | hok
      · cases e with
        | ignored => rfl
        | bad => exact absurd (List.mem_cons_self ..) hbad
        | call currSection name value =>
          exact haccepts user (currSection, name, value)
            (List.mem_filterMap.2 ⟨_, List.mem_cons_self .., rfl⟩)
      · exact ih hbad' haccepts' _ ok hok
  have hnone : (successes handler user evs).findIdx? (!·) = none := by
    rw [List.findIdx?_eq_none_iff]
    intro ok hok
    rw [hall ok hok]
    rfl
  rw [firstFailure, hnone]

/-- The lines of a printed configuration. -/
theorem lines_print {d : Document} (h : d.Printable) : lines d.print = d.texts.map (· ++ ['\n']) := by
  have hplain : ∀ s ∈ d.texts, Plain s := by
    intro s hs
    rcases List.mem_append.1 hs with hs | hs
    · obtain ⟨pair, hpair, rfl⟩ := List.mem_map.1 hs
      exact (h.globals pair hpair).plain
    · obtain ⟨sec, hsec, hs⟩ := List.mem_flatMap.1 hs
      obtain ⟨hsection, hpairs⟩ := h.sections sec hsec
      rcases List.mem_cons.1 hs with rfl | hs
      · exact hsection.plain
      · obtain ⟨pair, hpair, rfl⟩ := List.mem_map.1 hs
        exact (hpairs pair hpair).plain
  have hlength : ∀ texts : List (List Char),
      texts.length ≤ (texts.map (· ++ ['\n'])).flatten.length := by
    intro texts
    induction texts with
    | nil => exact Nat.le_refl 0
    | cons s texts ih =>
      rw [List.map_cons, List.flatten_cons, List.length_append, List.length_append,
        List.length_cons, List.length_singleton]
      omega
  exact rawLines_print hplain (Nat.lt_succ_of_le (hlength _))

/-- The events of a printed configuration. -/
theorem events_print {d : Document} (h : d.Printable) :
    (events .init (lines d.print)).filterMap Event.call? = d.calls ∧
      .bad ∉ events .init (lines d.print) := by
  obtain ⟨p, hglobals, -⟩ := events_pairs h.globals .init
    ((d.sections.flatMap sectionTexts).map (· ++ ['\n']))
  have hevents : events .init (lines d.print) =
      d.globals.map (fun pair => .call [] pair.1 pair.2) ++
        d.sections.flatMap fun s => .ignored :: s.2.map fun pair => .call s.1 pair.1 pair.2 := by
    rw [lines_print h, Document.texts, List.map_append, hglobals, events_sections h.sections]
    rfl
  have hpairs : ∀ (currSection : List Char) (pairs : List Pair),
      (pairs.map fun pair => Event.call currSection pair.1 pair.2).filterMap Event.call? =
        pairs.map (Prod.mk currSection) := by
    intro currSection pairs
    rw [List.filterMap_map]
    exact congrFun (List.filterMap_eq_map (f := Prod.mk currSection)) pairs
  refine ⟨?_, ?_⟩
  · rw [hevents, List.filterMap_append, hpairs, Document.calls, List.filterMap_flatMap]
    congr 1
    refine List.flatMap_congr fun s _ => ?_
    rw [List.filterMap_cons_none rfl, hpairs]
  · rw [hevents]
    simp

/-- Parsing a printed configuration hands each of its pairs to the handler, with its section and in
their order, and finds no error. -/
theorem parseStream_print {d : Document} (h : d.Printable)
    (haccepts : ∀ user, ∀ c ∈ d.calls, (handler user c.1 c.2.1 c.2.2).2 = true) (user : σ) :
    parseStream handler user d.print =
      (d.calls.foldl (fun user c => (handler user c.1 c.2.1 c.2.2).1) user, 0) := by
  obtain ⟨hcalls, hbad⟩ := events_print h
  rw [parseStream_after, after_eq, hcalls, firstFailure_eq_zero hbad (hcalls ▸ haccepts)]

end

/-- A configuration with a section, whose pairs are collected. -/
theorem parseStream_print_section :
    (Document.mk [(['x'], ['4', ';', '8'])] [(['s'], [(['y'], [])])]).Printable ∧
    parseStream (fun user s n v => (user ++ [(s, n, v)], true)) []
        (Document.mk [(['x'], ['4', ';', '8'])] [(['s'], [(['y'], [])])]).print =
      ([([], ['x'], ['4', ';', '8']), (['s'], ['y'], [])], 0) := by
  have hx : CleanName ['x'] :=
    ⟨fun c hc => Option.some.inj hc ▸ by decide, .inl (by decide), by decide, by decide⟩
  have hy : CleanName ['y'] :=
    ⟨fun c hc => Option.some.inj hc ▸ by decide, .inl (by decide), by decide, by decide⟩
  have hd : (Document.mk [(['x'], ['4', ';', '8'])] [(['s'], [(['y'], [])])]).Printable := by
    refine ⟨fun pair hpair => ?_, fun s hs => ?_⟩
    · obtain rfl := List.mem_singleton.1 hpair
      exact ⟨hx, by decide, ⟨by decide, by decide, by decide⟩, by decide, by decide, by decide,
        by decide, by decide⟩
    · obtain rfl := List.mem_singleton.1 hs
      refine ⟨⟨⟨by decide, by decide, by decide⟩, by decide, by decide⟩, fun pair hpair => ?_⟩
      obtain rfl := List.mem_singleton.1 hpair
      exact ⟨hy, by decide, ⟨by decide, by decide, by decide⟩, by decide, by decide, by decide,
        by decide, by decide⟩
  exact ⟨hd, parseStream_print hd (fun _ _ _ => rfl) []⟩

end Ini

end Arishem
