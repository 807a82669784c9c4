import Arishem.Config.IniStreams

/-!
# The calls of the parser

Whatever the stream holds, the handler gets names without separators and without white space around
them, values without white space around them, sections that fit their buffer, and no line breaks. Only
a name that was cut for the buffer of `prev_name` may end in white space.
-/

namespace Arishem

namespace Ini

variable {c : Char} {s l name value currSection chars stream line text : List Char} {w : Bool}
  {p : Parser}

/-! ## White space -/

/-- The text starts with a character that is not white space, or is empty. -/
theorem lskip_eq_self_iff : lskip s = s ↔ ∀ c, s.head? = some c → isSpace c = false := by
  cases s with
  | nil => exact ⟨fun _ c h => absurd h (by simp), fun _ => rfl⟩
  | cons a s =>
    rw [lskip, List.dropWhile_eq_self_iff]
    simp

theorem lskip_lskip (s : List Char) : lskip (lskip s) = lskip s := List.dropWhile_idempotent ..

theorem rstrip_rstrip (s : List Char) : rstrip (rstrip s) = rstrip s := List.rdropWhile_idempotent ..

theorem head?_of_isPrefix (h : l <+: s) (hl : l.head? = some c) : s.head? = some c := by
  obtain ⟨t, rfl⟩ := h
  cases l with
  | nil => exact absurd hl (by simp)
  | cons a l => exact hl

theorem rstrip_isPrefix (s : List Char) : rstrip s <+: s := List.rdropWhile_prefix ..

/-- Stripping the end leaves the start. -/
theorem lskip_of_isPrefix (h : l <+: s) (hs : lskip s = s) : lskip l = l :=
  lskip_eq_self_iff.2 fun c hc => lskip_eq_self_iff.1 hs c (head?_of_isPrefix h hc)

/-- Skipping the start leaves the end. -/
theorem rstrip_lskip (hs : rstrip s = s) : rstrip (lskip s) = lskip s := by
  rw [rstrip, List.rdropWhile_eq_self_iff] at hs ⊢
  intro hne
  have hsuffix : lskip s <:+ s := List.dropWhile_suffix _
  obtain ⟨t, ht⟩ := hsuffix
  have hs' : s ≠ [] := by
    rintro rfl
    exact hne rfl
  have hlast : s.getLast hs' = (lskip s).getLast hne := by
    have happend : t ++ lskip s ≠ [] := by rwa [ht]
    exact (List.getLast_congr hs' happend ht.symm).trans (List.getLast_append_of_ne_nil _ hne)
  rw [← hlast]
  exact hs hs'

/-! ## Line breaks -/

/-- A line has a line break at its end only. -/
def OneLine (s : List Char) : Prop := ∃ l, '\n' ∉ l ∧ (s = l ∨ s = l ++ ['\n'])

theorem OneLine.of_not_mem (h : '\n' ∉ s) : OneLine s := ⟨s, h, .inl rfl⟩

theorem OneLine.isPrefix (h : OneLine s) (hl : l <+: s) : OneLine l := by
  obtain ⟨t, ht, rfl | rfl⟩ := h
  · exact .of_not_mem fun hmem => ht (hl.subset hmem)
  · rcases List.prefix_concat_iff.1 hl with rfl | hl
    · exact ⟨t, ht, .inr rfl⟩
    · exact .of_not_mem fun hmem => ht (hl.subset hmem)

theorem OneLine.drop (h : OneLine s) (n : ℕ) : OneLine (s.drop n) := by
  obtain ⟨t, ht, rfl | rfl⟩ := h
  · exact .of_not_mem fun hmem => ht (List.mem_of_mem_drop hmem)
  · rcases Nat.lt_or_ge t.length n with hlt | hle
    · rw [List.drop_of_length_le (by rw [List.length_append]; exact hlt)]
      exact .of_not_mem List.not_mem_nil
    · rw [List.drop_append_of_le_length hle]
      exact ⟨t.drop n, fun hmem => ht (List.mem_of_mem_drop hmem), .inr rfl⟩

/-- A line break is white space. -/
theorem OneLine.rstrip (h : OneLine s) : '\n' ∉ rstrip s := by
  obtain ⟨t, ht, rfl | rfl⟩ := h
  · exact fun hmem => ht ((rstrip_isPrefix _).subset hmem)
  · have hspace : isSpace '\n' = true := rfl
    rw [Ini.rstrip, List.rdropWhile_concat_pos _ _ _ hspace]
    exact fun hmem => ht ((rstrip_isPrefix t).subset hmem)

/-! ## Searching -/

theorem findCharsOrComment_append (chars : List Char) (w : Bool) (s : List Char) :
    (findCharsOrComment chars w s).1 ++ (findCharsOrComment chars w s).2 = s := by
  induction s generalizing w with
  | nil => rfl
  | cons c s ih =>
    rw [findCharsOrComment]
    split
    · rfl
    · simpa using ih (isSpace c)

/-- None of the characters stands before the place that is found. -/
theorem not_mem_findCharsOrComment (hc : c ∈ chars) (w : Bool) (s : List Char) :
    c ∉ (findCharsOrComment chars w s).1 := by
  induction s generalizing w with
  | nil => exact List.not_mem_nil
  | cons a s ih =>
    rw [findCharsOrComment]
    split
    · exact List.not_mem_nil
    · rename_i hcond
      dsimp only
      rw [List.mem_cons]
      rintro (rfl | hmem)
      · simp [hc] at hcond
      · exact ih _ hmem

/-! ## Calls -/

/-- What a name is like: none starts a comment or a section, and white space ends only one that fills
the buffer of `prev_name`. -/
structure CleanName (name : List Char) : Prop where
  start : ∀ c, name.head? = some c → c ≠ ';' ∧ c ≠ '#' ∧ c ≠ '[' ∧ isSpace c = false
  last : rstrip name = name ∨ name.length = maxName - 1
  separators : '=' ∉ name ∧ ':' ∉ name
  newline : '\n' ∉ name

/-- What a section is like. -/
structure CleanSection (currSection : List Char) : Prop where
  length_lt : currSection.length < maxSection
  bracket : ']' ∉ currSection
  newline : '\n' ∉ currSection

/-- What a value is like. -/
structure CleanValue (value : List Char) : Prop where
  start : lskip value = value
  last : rstrip value = value
  newline : '\n' ∉ value

/-- What the parser keeps. -/
structure Parser.Clean (p : Parser) : Prop where
  currSection : CleanSection p.currSection
  prevName : CleanName p.prevName

/-- What a line makes the parser do. -/
def Event.Clean : Event → Prop
  | .call currSection name value => CleanSection currSection ∧ CleanName name ∧ CleanValue value
  | _ => True

/-- A name that is kept for the lines behind it. -/
theorem CleanName.strncpy0 (h : CleanName name) : CleanName (strncpy0 name maxName) := by
  have hl : Ini.strncpy0 name maxName <+: name := List.take_prefix _ _
  refine ⟨fun c hc => h.start c (head?_of_isPrefix hl hc), ?_,
    ⟨fun hmem => h.separators.1 (hl.subset hmem), fun hmem => h.separators.2 (hl.subset hmem)⟩,
    fun hmem => h.newline (hl.subset hmem)⟩
  rcases Nat.lt_or_ge name.length maxName with hlt | hge
  · rw [Ini.strncpy0, List.take_of_length_le (Nat.le_sub_one_of_lt hlt)]
    exact h.last
  · exact .inr (List.length_take_of_le ((Nat.pred_le _).trans hge))

theorem parseSection_clean (h : p.Clean) (hline : '\n' ∉ s) :
    (parseSection p s).1.Clean ∧ (parseSection p s).2.Clean := by
  rw [parseSection]
  dsimp only
  split
  · have hnot := not_mem_findCharsOrComment (by simp : ']' ∈ [']']) false s
    have happend := findCharsOrComment_append [']'] false s
    generalize (findCharsOrComment [']'] false s).1 = before at hnot happend
    have htake : strncpy0 before maxSection <+: before := List.take_prefix _ _
    have hstart : strncpy0 before maxSection <+: s :=
      htake.trans ⟨(findCharsOrComment [']'] false s).2, happend⟩
    refine ⟨⟨⟨?_, fun hmem => hnot (htake.subset hmem), fun hmem => hline (hstart.subset hmem)⟩,
      ?_⟩, trivial⟩
    · rw [strncpy0, List.length_take]
      exact Nat.lt_of_le_of_lt (Nat.min_le_left _ _) (by decide)
    · exact ⟨fun c hc => absurd hc (by simp), .inl rfl, ⟨List.not_mem_nil, List.not_mem_nil⟩,
        List.not_mem_nil⟩
  · exact ⟨h, trivial⟩

theorem parsePair_clean (h : p.Clean) (hline : '\n' ∉ c :: s)
    (hc : c ≠ ';' ∧ c ≠ '#' ∧ c ≠ '[' ∧ isSpace c = false) :
    (parsePair p (c :: s)).1.Clean ∧ (parsePair p (c :: s)).2.Clean := by
  rw [parsePair]
  dsimp only
  split
  · have heq := not_mem_findCharsOrComment (by simp : '=' ∈ ['=', ':']) false (c :: s)
    have hcolon := not_mem_findCharsOrComment (by simp : ':' ∈ ['=', ':']) false (c :: s)
    have happend := findCharsOrComment_append ['=', ':'] false (c :: s)
    generalize findCharsOrComment ['=', ':'] false (c :: s) = found at heq hcolon happend ⊢
    obtain ⟨before, tail⟩ := found
    dsimp only at heq hcolon happend ⊢
    have hbefore : before <+: c :: s := ⟨tail, happend⟩
    have hstrip : rstrip before <+: before := rstrip_isPrefix before
    have hname : CleanName (rstrip before) := by
      refine ⟨fun d hd => ?_, .inl (rstrip_rstrip before),
        ⟨fun hmem => heq (hstrip.subset hmem), fun hmem => hcolon (hstrip.subset hmem)⟩,
        fun hmem => hline ((hstrip.trans hbefore).subset hmem)⟩
      obtain rfl : c = d := Option.some.inj (head?_of_isPrefix (hstrip.trans hbefore) hd)
      exact hc
    refine ⟨⟨h.currSection, hname.strncpy0⟩, h.currSection, hname, ?_⟩
    have hvalue := findCharsOrComment_append [] false (tail.drop 1)
    generalize findCharsOrComment [] false (tail.drop 1) = found at hvalue
    obtain ⟨value, comment⟩ := found
    dsimp only at hvalue ⊢
    refine ⟨lskip_of_isPrefix (rstrip_isPrefix _) (lskip_lskip _), rstrip_rstrip _, fun hmem => ?_⟩
    have hskip : '\n' ∈ lskip value := (rstrip_isPrefix _).subset hmem
    have hvalue' : '\n' ∈ tail.drop 1 := by
      rw [← hvalue]
      exact List.mem_append_left _ ((List.dropWhile_suffix _).subset hskip)
    refine hline ?_
    rw [← happend]
    exact List.mem_append_right _ (List.mem_of_mem_drop hvalue')
  · exact ⟨h, trivial⟩

/-- A line keeps the parser clean. -/
theorem parseLine_clean (h : p.Clean) (hline : OneLine line) :
    (parseLine p line).1.Clean ∧ (parseLine p line).2.Clean := by
  have hp : Parser.Clean { p with lineno := p.lineno + 1 } := ⟨h.currSection, h.prevName⟩
  obtain ⟨text, htext, hcases⟩ := parseLine_cases p line
  have hnewline : '\n' ∉ text := by
    rcases htext with rfl | rfl
    · exact hline.rstrip
    · exact (hline.drop 3).rstrip
  have hlast : rstrip text = text := by
    rcases htext with rfl | rfl <;> exact rstrip_rstrip _
  have hskip : '\n' ∉ lskip text := fun hmem => hnewline ((List.dropWhile_suffix _).subset hmem)
  rcases hcases with hparse | ⟨-, -, hparse⟩ | ⟨rest, hstart, hparse⟩ |
    ⟨c, rest, hstart, hsemi, hhash, hbracket, hparse⟩
  · rw [hparse]
    exact ⟨hp, trivial⟩
  · rw [hparse]
    exact ⟨hp, h.currSection, h.prevName, lskip_lskip _, rstrip_lskip hlast, hskip⟩
  · rw [hparse]
    rw [hstart] at hskip
    exact parseSection_clean hp fun hmem => hskip (List.mem_cons_of_mem _ hmem)
  · rw [hparse]
    have hspace : isSpace c = false :=
      lskip_eq_self_iff.1 (lskip_lskip text) c (by rw [hstart]; rfl)
    rw [hstart] at hskip
    exact parsePair_clean hp hskip ⟨hsemi, hhash, hbracket, hspace⟩

/-- Every call of the handler gets a clean section, name and value. -/
theorem calls_clean (stream : List Char) (currSection name value : List Char)
    (h : .call currSection name value ∈ events .init (lines stream)) :
    CleanSection currSection ∧ CleanName name ∧ CleanValue value := by
  have hinit : Parser.Clean .init :=
    ⟨⟨by decide, List.not_mem_nil, List.not_mem_nil⟩, fun c hc => absurd hc (by simp [Parser.init]),
      .inl rfl, ⟨List.not_mem_nil, List.not_mem_nil⟩, List.not_mem_nil⟩
  have hevents : ∀ (ls : List (List Char)) (p : Parser), p.Clean → (∀ l ∈ ls, OneLine l) →
      ∀ e ∈ events p ls, e.Clean := by
    intro ls
    induction ls with
    | nil => exact fun _ _ _ e he => absurd he List.not_mem_nil
    | cons line ls ih =>
      intro p hp hls e he
      obtain ⟨hline, hls⟩ := List.forall_mem_cons.1 hls
      have hprefix : cString line <+: line := List.takeWhile_prefix _
      have hclean := parseLine_clean hp (hline.isPrefix hprefix)
      rcases List.mem_cons.1 he with rfl | he
      · exact hclean.2
      · exact ih _ hclean.1 hls e he
  have hlines : ∀ l ∈ lines stream, OneLine l := fun l hl => (rawLines_lines _ _ l hl).2.2
  exact hevents _ _ hinit hlines _ h

/-- An indented line goes on with the name before it, comment included. -/
theorem calls_clean_continued : CleanSection [] ∧ CleanName "a".toList ∧ CleanValue "c ;d".toList :=
  calls_clean "a = b ;x\n  c ;d \n".toList [] "a".toList "c ;d".toList (by decide)

end Ini

end Arishem
