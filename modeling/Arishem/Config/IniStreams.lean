import Arishem.Config.Ini
import Mathlib.Data.List.Infix

/-!
# Parsed streams

The parser reads the whole stream: what it hands to the handler does not depend on what the handler
answers, and the number it returns is the one of the first line that failed. The lines are those of
the stream, cut where they are longer than the buffer.
-/

namespace Arishem

namespace Ini

/-! ## The lines of a stream -/

/-- The lines that are read. -/
def rawLines : ℕ → List Char → List (List Char)
  | 0, _ => []
  | fuel + 1, stream =>
    match reader iniMaxLine stream with
    | none => []
    | some (line, stream) => line :: rawLines fuel stream

/-- The lines of a stream. -/
def lines (stream : List Char) : List (List Char) := rawLines (stream.length + 1) stream

/-- What the lines make the parser do. -/
def events : Parser → List (List Char) → List Event
  | _, [] => []
  | p, line :: lines => (parseLine p (cString line)).2 :: events (parseLine p (cString line)).1 lines

section
variable {n : ℕ} {s line rest : List Char}

theorem readChars_append (n : ℕ) (s : List Char) :
    (readChars n s).1 ++ (readChars n s).2 = s := by
  induction n, s using readChars.induct with
  | case1 s => rfl
  | case2 n => rfl
  | case3 n s => simp [readChars]
  | case4 n c s hc line rest hread ih =>
    rw [readChars, if_neg hc]
    simpa using ih

/-- A line fits the buffer, and only its end is a line break. -/
theorem readChars_line (n : ℕ) (s : List Char) : (readChars n s).1.length ≤ n ∧
    ∃ l, '\n' ∉ l ∧ ((readChars n s).1 = l ∨ (readChars n s).1 = l ++ ['\n']) := by
  induction n, s using readChars.induct with
  | case1 s => exact ⟨Nat.zero_le _, [], List.not_mem_nil, .inl rfl⟩
  | case2 n => exact ⟨Nat.zero_le _, [], List.not_mem_nil, .inl rfl⟩
  | case3 n s =>
    rw [readChars, if_pos rfl]
    exact ⟨by simp, [], List.not_mem_nil, .inr rfl⟩
  | case4 n c s hc line rest hread ih =>
    rw [readChars, if_neg hc]
    obtain ⟨hlen, l, hl, hor⟩ := ih
    refine ⟨by simpa using hlen, c :: l, ?_, ?_⟩
    · rw [List.mem_cons]
      rintro (heq | hmem)
      · exact hc heq.symm
      · exact hl hmem
    · dsimp only
      rcases hor with hor | hor <;> rw [hor]
      · exact .inl rfl
      · exact .inr rfl

/-- A line stops at a line break or where the buffer is full, unless the input ends. -/
theorem readChars_cut {n : ℕ} {s : List Char} (h : (readChars n s).2 ≠ []) :
    (readChars n s).1.getLast? = some '\n' ∨ (readChars n s).1.length = n := by
  induction n, s using readChars.induct with
  | case1 s => exact .inr rfl
  | case2 n => exact absurd rfl h
  | case3 n s =>
    rw [readChars, if_pos rfl]
    exact .inl rfl
  | case4 n c s hc line rest hread ih =>
    rw [readChars, if_neg hc] at h ⊢
    rcases ih h with hbreak | hfull
    · refine .inl ?_
      dsimp only
      rw [List.getLast?_cons, hbreak]
      rfl
    · exact .inr (congrArg (· + 1) hfull)

theorem reader_eq_some (h : reader iniMaxLine s = some (line, rest)) :
    line ++ rest = s ∧ line ≠ [] ∧ line.length < iniMaxLine ∧
      ∃ l, '\n' ∉ l ∧ (line = l ∨ line = l ++ ['\n']) := by
  rw [reader] at h
  split at h
  · exact absurd h (by simp)
  · rename_i hne
    have hread := Option.some.inj h
    have happend := readChars_append (iniMaxLine - 1) s
    obtain ⟨hlen, hline⟩ := readChars_line (iniMaxLine - 1) s
    rw [hread] at happend hlen hline
    refine ⟨happend, ?_, Nat.lt_of_le_pred (by decide) hlen, hline⟩
    rintro rfl
    cases s with
    | nil => exact hne (.inl rfl)
    | cons c s =>
      have hfirst : (readChars 1999 (c :: s)).1 ≠ [] := by
        rw [readChars]
        split <;> simp
      exact hfirst (congrArg Prod.fst hread)

/-- Enough rounds read all of the stream. -/
theorem rawLines_flatten {fuel : ℕ} (h : s.length < fuel) : (rawLines fuel s).flatten = s := by
  induction fuel generalizing s with
  | zero => exact absurd h (Nat.not_lt_zero _)
  | succ fuel ih =>
    rw [rawLines]
    split
    · rename_i hnone
      rw [reader] at hnone
      split at hnone
      · rename_i hor
        rcases hor with rfl | hlt
        · rfl
        · exact absurd hlt (by decide)
      · exact absurd hnone (by simp)
    · rename_i line rest hsome
      obtain ⟨happend, hne, -⟩ := reader_eq_some hsome
      have hlen := congrArg List.length happend
      rw [List.length_append] at hlen
      have hpos := List.length_pos_iff.2 hne
      rw [List.flatten_cons, ih (by omega), happend]

theorem rawLines_lines (fuel : ℕ) (s : List Char) : ∀ line ∈ rawLines fuel s,
    line ≠ [] ∧ line.length < iniMaxLine ∧ ∃ l, '\n' ∉ l ∧ (line = l ∨ line = l ++ ['\n']) := by
  induction fuel generalizing s with
  | zero => exact fun line h => absurd h List.not_mem_nil
  | succ fuel ih =>
    intro line h
    rw [rawLines] at h
    split at h
    · exact absurd h List.not_mem_nil
    · rename_i line' rest hsome
      obtain ⟨-, hne, hlen, hline⟩ := reader_eq_some hsome
      rcases List.mem_cons.1 h with rfl | h
      · exact ⟨hne, hlen, hline⟩
      · exact ih rest line h

/-- All lines but the last are cut at a line break or where the buffer is full. -/
theorem rawLines_cut (fuel : ℕ) (s : List Char) : ∀ line ∈ (rawLines fuel s).dropLast,
    line.getLast? = some '\n' ∨ line.length = iniMaxLine - 1 := by
  induction fuel generalizing s with
  | zero => exact fun line h => absurd h List.not_mem_nil
  | succ fuel ih =>
    intro line h
    rw [rawLines] at h
    split at h
    · exact absurd h List.not_mem_nil
    · rename_i line' rest hsome
      cases hlines : rawLines fuel rest with
      | nil =>
        rw [hlines] at h
        exact absurd h List.not_mem_nil
      | cons next more =>
        have hrest : rest ≠ [] := by
          rintro rfl
          cases fuel <;> cases hlines
        rw [List.dropLast_cons_of_ne_nil (by rw [hlines]; exact List.cons_ne_nil _ _)] at h
        rcases List.mem_cons.1 h with rfl | h
        · rw [reader] at hsome
          split at hsome
          · cases hsome
          · have hread := Option.some.inj hsome
            have hcut := readChars_cut (n := iniMaxLine - 1) (s := s) (by rwa [hread])
            rwa [hread] at hcut
        · exact ih rest line h

end

/-! ## What a stream does -/

section
variable {σ : Type*} (handler : σ → List Char → List Char → List Char → σ × Bool)

/-- What an event does to the user's data, and whether it succeeds. -/
def outcome (user : σ) : Event → σ × Bool
  | .ignored => (user, true)
  | .call currSection name value => handler user currSection name value
  | .bad => (user, false)

/-- The user's data after some events. -/
def after (user : σ) (evs : List Event) : σ := evs.foldl (fun u e => (outcome handler u e).1) user

/-- Which of the events succeed. -/
def successes (user : σ) : List Event → List Bool
  | [] => []
  | e :: evs => (outcome handler user e).2 :: successes (outcome handler user e).1 evs

/-- The number of the first line that failed, or 0. -/
def firstFailure (oks : List Bool) : ℕ :=
  match oks.findIdx? (!·) with
  | some i => i + 1
  | none => 0

variable {handler}

/-- The kinds of lines: what the parser reads is a part of the line without white space at its end. -/
theorem parseLine_cases (p : Parser) (line : List Char) : ∃ text : List Char,
    (text = rstrip line ∨ text = rstrip (line.drop 3)) ∧
    (parseLine p line = ({ p with lineno := p.lineno + 1 }, .ignored) ∨
      (p.prevName ≠ [] ∧ lskip text ≠ [] ∧ parseLine p line =
        ({ p with lineno := p.lineno + 1 }, .call p.currSection p.prevName (lskip text))) ∨
      (∃ rest, lskip text = '[' :: rest ∧
        parseLine p line = parseSection { p with lineno := p.lineno + 1 } rest) ∨
      ∃ c rest, lskip text = c :: rest ∧ c ≠ ';' ∧ c ≠ '#' ∧ c ≠ '[' ∧
        parseLine p line = parsePair { p with lineno := p.lineno + 1 } (c :: rest)) := by
  rw [parseLine]
  dsimp only
  generalize htext : rstrip (if p.lineno + 1 = 1 ∧ bom.isPrefixOf line = true then line.drop 3
    else line) = text
  refine ⟨text, ?_, ?_⟩
  · subst htext
    split
    · exact .inr rfl
    · exact .inl rfl
  · cases lskip text with
    | nil => exact .inl rfl
    | cons c rest =>
      dsimp only
      by_cases hcomment : c = ';' ∨ c = '#'
      · exact .inl (if_pos hcomment)
      rw [if_neg hcomment]
      split
      · rename_i hcont
        exact .inr (.inl ⟨hcont.1, List.cons_ne_nil _ _, rfl⟩)
      split
      · rename_i hbracket
        exact .inr (.inr (.inl ⟨rest, by rw [hbracket], rfl⟩))
      · rename_i hbracket
        exact .inr (.inr (.inr ⟨c, rest, rfl, fun h => hcomment (.inl h), fun h => hcomment (.inr h),
          hbracket, rfl⟩))

theorem parseLine_lineno (p : Parser) (line : List Char) :
    (parseLine p line).1.lineno = p.lineno + 1 := by
  obtain ⟨text, -, h | ⟨-, -, h⟩ | ⟨rest, -, h⟩ | ⟨c, rest, -, -, -, -, h⟩⟩ := parseLine_cases p line
  · rw [h]
  · rw [h]
  · rw [h, parseSection]
    dsimp only
    split <;> rfl
  · rw [h, parsePair]
    dsimp only
    split <;> rfl

/-- The loop, in terms of the events of the lines. -/
theorem parseLines_eq (fuel : ℕ) (stream : List Char) (p : Parser) (user : σ) (error : ℕ) :
    parseLines handler fuel stream p user error =
      (after handler user (events p (rawLines fuel stream)),
        if error ≠ 0 then error
        else match (successes handler user (events p (rawLines fuel stream))).findIdx? (!·) with
          | some i => p.lineno + i + 1
          | none => 0) := by
  induction fuel generalizing stream p user error with
  | zero =>
    rw [parseLines, rawLines, events, after, successes]
    split
    · rfl
    · rename_i herror
      rw [not_not.1 herror]
      rfl
  | succ fuel ih =>
    rw [parseLines, rawLines]
    cases reader iniMaxLine stream with
    | none =>
      dsimp only
      rw [events, after, successes]
      split
      · rfl
      · rename_i herror
        rw [not_not.1 herror]
        rfl
    | some r =>
      obtain ⟨line, rest⟩ := r
      dsimp only
      have hlineno := parseLine_lineno p (cString line)
      rw [events, after, List.foldl_cons, successes, List.findIdx?_cons]
      generalize parseLine p (cString line) = result at hlineno ⊢
      obtain ⟨p', event⟩ := result
      dsimp only at hlineno ⊢
      -- a failure before this line keeps its number, and one of this line has the next one
      have hcombine : ∀ (u : σ) (ok : Bool) (error' : ℕ),
          error' = (if !ok && error = 0 then p'.lineno else error) →
          (if error' ≠ 0 then error'
            else match (successes handler u (events p' (rawLines fuel rest))).findIdx? (!·) with
              | some i => p'.lineno + i + 1
              | none => 0) =
          if error ≠ 0 then error
          else match (if !ok then some 0 else Option.map (fun i => i + 1)
              ((successes handler u (events p' (rawLines fuel rest))).findIdx? (!·))) with
            | some i => p.lineno + i + 1
            | none => 0 := by
        rintro u ok error' rfl
        rcases Nat.eq_zero_or_pos error with rfl | hpos
        · cases ok with
          | false => simp [hlineno]
          | true =>
            cases (successes handler u (events p' (rawLines fuel rest))).findIdx? (!·) with
            | none => simp
            | some i => simp [hlineno, Nat.add_assoc, Nat.add_comm 1 i]
        · have hne : error ≠ 0 := hpos.ne'
          simp [hne]
      cases event with
      | ignored =>
        dsimp only
        rw [ih]
        exact congrArg (Prod.mk _) (hcombine user true error rfl)
      | bad =>
        dsimp only
        rw [ih]
        exact congrArg (Prod.mk _) (hcombine user false _ (by simp))
      | call currSection name value =>
        dsimp only
        rw [ih]
        exact congrArg (Prod.mk _) (hcombine _ _ _ rfl)

/-- The state of the handler after the calls of all lines, and the first line that failed. -/
theorem parseStream_after (handler : σ → List Char → List Char → List Char → σ × Bool) (user : σ)
    (stream : List Char) :
    parseStream handler user stream =
      (after handler user (events .init (lines stream)),
        firstFailure (successes handler user (events .init (lines stream)))) := by
  rw [parseStream, parseLines_eq, if_neg (by simp), firstFailure, ← lines]
  cases (successes handler user (events .init (lines stream))).findIdx? (!·) with
  | none => rfl
  | some i => exact congrArg (Prod.mk _) (by simp [Parser.init])

/-- The handler gets the pairs of all lines in their order, also after a line that failed; the number
returned is the one of the first line that failed. The lines are those of the stream, each but the
last up to a line break or, where it is longer, as much as the buffer holds. -/
theorem parseStream_eq (handler : σ → List Char → List Char → List Char → σ × Bool) (user : σ)
    (stream : List Char) :
    parseStream handler user stream =
      (after handler user (events .init (lines stream)),
        firstFailure (successes handler user (events .init (lines stream)))) ∧
    (lines stream).flatten = stream ∧
    (∀ line ∈ lines stream, line ≠ [] ∧ line.length < iniMaxLine ∧
      ∃ l, '\n' ∉ l ∧ (line = l ∨ line = l ++ ['\n'])) ∧
    ∀ line ∈ (lines stream).dropLast,
      line.getLast? = some '\n' ∨ line.length = iniMaxLine - 1 :=
  ⟨parseStream_after handler user stream, rawLines_flatten (Nat.lt_succ_self _),
    rawLines_lines _ _, rawLines_cut _ _⟩

end

end Ini

end Arishem
