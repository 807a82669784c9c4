import Mathlib.Data.List.DropRight

/-!
# The parser of configuration files

Options are read from files and from the command line by a small parser for INI files: lines with a
section in brackets, a comment, or a name and a value. A line that is indented goes on with the value
of the name before it. A string is the list of its characters up to the 0 that ends it, and the
parser runs a handler on each pair of a name and a value.
-/

namespace Arishem

namespace Ini

/-- `INI_MAX_LINE`, `MAX_SECTION` and `MAX_NAME`. -/
def iniMaxLine : ℕ := 2000
def maxSection : ℕ := 50
def maxName : ℕ := 50

/-- `isspace` in the C locale. -/
def isSpace (c : Char) : Bool := c == ' ' || 9 ≤ c.toNat && c.toNat ≤ 13

/-- What the functions on strings see of a buffer. -/
def cString (s : List Char) : List Char := s.takeWhile (· ≠ '\x00')

/-- `rstrip`. -/
def rstrip (s : List Char) : List Char := s.rdropWhile isSpace

/-- `lskip`. -/
def lskip (s : List Char) : List Char := s.dropWhile isSpace

/-- `find_chars_or_comment`: what stands before the first of the characters, or before a comment that
follows a white space, and the rest. -/
def findCharsOrComment (chars : List Char) (wasSpace : Bool) : List Char → List Char × List Char
  | [] => ([], [])
  | c :: s =>
    if chars.contains c || wasSpace && c == ';' then ([], c :: s)
    else
      let (before, rest) := findCharsOrComment chars (isSpace c) s
      (c :: before, rest)

/-- `strncpy0` into a buffer of a size. -/
def strncpy0 (src : List Char) (size : ℕ) : List Char := src.take (size - 1)

/-! ## Reading lines -/

/-- The loop of the reader: at most `n` characters, up to the end of the line. -/
def readChars : ℕ → List Char → List Char × List Char
  | 0, s => ([], s)
  | _ + 1, [] => ([], [])
  | n + 1, c :: s =>
    if c = '\n' then ([c], s)
    else
      let (line, rest) := readChars n s
      (c :: line, rest)

/-- `fgets` and `ini_reader_string`: a line and the rest of the input. -/
def reader (num : ℕ) (s : List Char) : Option (List Char × List Char) :=
  if s = [] ∨ num < 2 then none else some (readChars (num - 1) s)

/-! ## Lines -/

/-- What the parser keeps between lines. -/
structure Parser where
  currSection : List Char
  prevName : List Char
  lineno : ℕ

def Parser.init : Parser := ⟨[], [], 0⟩

/-- What a line makes the parser do. -/
inductive Event
  | ignored
  | call (currSection name value : List Char)
  | bad
deriving DecidableEq

/-- The byte order mark. -/
def bom : List Char := [.ofNat 0xEF, .ofNat 0xBB, .ofNat 0xBF]

/-- A line of a section. -/
def parseSection (p : Parser) (rest : List Char) : Parser × Event :=
  let (currSection, tail) := findCharsOrComment [']'] false rest
  if tail.head? = some ']' then
    ({ p with currSection := strncpy0 currSection maxSection, prevName := [] }, .ignored)
  else (p, .bad)

/-- A line of a name and a value. -/
def parsePair (p : Parser) (start : List Char) : Parser × Event :=
  let (name, tail) := findCharsOrComment ['=', ':'] false start
  if tail.head? = some '=' ∨ tail.head? = some ':' then
    let name := rstrip name
    let value := rstrip (lskip (findCharsOrComment [] false (tail.drop 1)).1)
    ({ p with prevName := strncpy0 name maxName }, .call p.currSection name value)
  else (p, .bad)

/-- The body of the loop of `ini_parse_stream`. -/
def parseLine (p : Parser) (line : List Char) : Parser × Event :=
  let p := { p with lineno := p.lineno + 1 }
  let marked := p.lineno = 1 ∧ bom.isPrefixOf line
  let text := rstrip (if marked then line.drop 3 else line)
  match lskip text with
  | [] => (p, .ignored)
  | c :: rest =>
    if c = ';' ∨ c = '#' then (p, .ignored)
    -- the text starts behind the start of the line
    else if p.prevName ≠ [] ∧ (marked ∨ lskip text ≠ text) then
      (p, .call p.currSection p.prevName (c :: rest))
    else if c = '[' then parseSection p rest
    else parsePair p (c :: rest)

/-! ## Streams -/

section
variable {σ : Type*} (handler : σ → List Char → List Char → List Char → σ × Bool)

/-- The loop of `ini_parse_stream`: the user's data, and the number of the first line that failed. -/
def parseLines : ℕ → List Char → Parser → σ → ℕ → σ × ℕ
  | 0, _, _, user, error => (user, error)
  | fuel + 1, stream, p, user, error =>
    match reader iniMaxLine stream with
    | none => (user, error)
    | some (line, stream) =>
      match parseLine p (cString line) with
      | (p, .ignored) => parseLines fuel stream p user error
      | (p, .bad) => parseLines fuel stream p user (if error = 0 then p.lineno else error)
      | (p, .call currSection name value) =>
        let (user, ok) := handler user currSection name value
        parseLines fuel stream p user (if !ok && error = 0 then p.lineno else error)

/-- `ini_parse_stream`. Each line takes a character at least, so that the input ends before the rounds
do. -/
def parseStream (user : σ) (stream : List Char) : σ × ℕ :=
  parseLines handler (stream.length + 1) stream .init user 0

/-- `ini_parse`, where the file can be opened. -/
def parse (user : σ) (file : Option (List Char)) : σ × ℤ :=
  match file with
  | none => (user, -1)
  | some stream =>
    let (user, error) := parseStream handler user stream
    (user, error)

/-- `ini_parse_string`. -/
def parseString (user : σ) (string : List Char) : σ × ℕ :=
  parseStream handler user (cString string)

end

end Ini

end Arishem
