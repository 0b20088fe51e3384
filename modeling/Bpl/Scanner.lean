import Bpl.Lexeme

namespace Bpl

/-- The bytes of a text. -/
def bytesOf (cs : List Char) : List UInt8 :=
  cs.flatMap String.utf8EncodeChar

/-- Cuts a text behind its first `n` bytes. A text that is shorter cannot be cut, nor can one in
which a character reaches over that place. -/
def cutAt : Nat → List Char → Option (List Char × List Char)
  | 0, cs => some ([], cs)
  | _ + 1, [] => none
  | n + 1, c :: cs =>
    if c.utf8Size ≤ n + 1 then (cutAt (n + 1 - c.utf8Size) cs).map (Prod.map (c :: ·) id) else none

/-- The part of a text between two of its bytes, where the text can be cut at both. -/
def slice? (cs : List Char) (start stop : Nat) : Option (List Char) := do
  guard (start ≤ stop)
  let (_, rest) ← cutAt start cs
  let (text, _) ← cutAt (stop - start) rest
  return text

/-- Whether a byte stands for an ASCII character of a class. -/
def byteIs (p : Char → Bool) (b : UInt8) : Bool :=
  p (Char.ofUInt8 b)

/-- How far a text is read: the byte that comes next, the number of its line and the byte where
that line starts. -/
structure Scanner where
  pos : Nat
  line : Nat
  lineStart : Nat

namespace Scanner

def start : Scanner :=
  ⟨0, 1, 0⟩

def advance (s : Scanner) (n : Nat) : Scanner :=
  { s with pos := s.pos + n }

/-- The scanner moved over the byte `b`. -/
def pass (s : Scanner) (b : UInt8) : Scanner :=
  if b = 10 then ⟨s.pos + 1, s.line + 1, s.pos + 1⟩ else s.advance 1

/-- Where a scanner stands. Its column counts the characters from the start of the line on. -/
def locationOf (source : List Char) (s : Scanner) : Option Location := do
  let text ← slice? source s.lineStart s.pos
  return ⟨s.line, text.length + 1⟩

/-- Passes over the rest of a comment: the bytes behind it, if it is closed, and the scanner
there. -/
def closeComment : List UInt8 → Scanner → Option (List UInt8) × Scanner
  | [], s => (none, s)
  | 42 :: 47 :: bs, s => (some bs, s.advance 2)
  | b :: bs, s => closeComment bs (s.pass b)

theorem closeComment_length {bytes rest : List UInt8} {s s' : Scanner}
    (h : closeComment bytes s = (some rest, s')) : rest.length ≤ bytes.length := by
  fun_induction closeComment bytes s with
  | case1 => cases h
  | case2 bs =>
    cases h
    simp only [List.length_cons]
    omega
  | case3 s b bs _ ih => exact Nat.le_succ_of_le (ih h)

/-- Passes over blanks and comments, byte by byte. -/
def skipTrivia (source : List Char) (bytes : List UInt8) (s : Scanner) :
    Option (Except Diagnostic Unit × Scanner) :=
  match bytes with
  | [] => some (.ok (), s)
  | 47 :: 42 :: bs =>
    match s.locationOf source with
    | none => none
    | some start =>
      match h : closeComment bs (s.advance 2) with
      | (none, s') => some (.error (.scan start .unclosedComment), s')
      | (some rest, s') =>
        have := closeComment_length h
        skipTrivia source rest s'
  | b :: bs =>
    if byteIs Lexeme.isBlank b then skipTrivia source bs (s.pass b) else some (.ok (), s)
termination_by bytes.length
decreasing_by all_goals simp; try omega

/-- What kind of word begins with the byte `b` at `start`, or why there is none, and how many bytes
are read to tell. -/
def wordAt (source : List Char) (start : Nat) (b : UInt8) (bs : List UInt8) :
    Option (Except LexicalFault Token.Kind × Nat) :=
  if byteIs Char.isAlpha b then do
    let size := 1 + (bs.takeWhile (byteIs Lexeme.isWordChar)).length
    let text ← slice? source start (start + size)
    return ((Lexeme.word text).kind, size)
  else if byteIs Char.isDigit b then do
    let size := 1 + (bs.takeWhile (byteIs Char.isDigit)).length
    let text ← slice? source start (start + size)
    return ((Lexeme.number text).kind, size)
  else if b = 34 then
    let inside := bs.takeWhile (byteIs fun c => c != '"' && c != '\n')
    match bs.drop inside.length with
    | 34 :: _ => return (.ok .string, inside.length + 2)
    | _ => return (.error .unclosedString, inside.length + 1)
  else do
    let (_, rest) ← cutAt start source
    match rest with
    | [] => return (.error (.strayCharacter '\x00'), 0)
    | c :: cs => return ((Lexeme.punctuator c cs).kind, byteLength (Lexeme.punctuator c cs).text)

/-- Reads one token, and the scanner behind it. A diagnostic leaves the scanner where it is then.
There is no result only where a text cannot be cut at a byte that is needed. -/
def next (source : List Char) (s : Scanner) : Option (Except Diagnostic Token × Scanner) := do
  match ← skipTrivia source ((bytesOf source).drop s.pos) s with
  | (.error d, s) => return (.error d, s)
  | (.ok (), s) =>
    let location ← s.locationOf source
    match (bytesOf source).drop s.pos with
    | [] => return (.ok ⟨.eof, "", byteLength source, location⟩, s)
    | b :: bs =>
      match ← wordAt source s.pos b bs with
      | (.error fault, size) => return (.error (.scan location fault), s.advance size)
      | (.ok kind, size) =>
        let text ← slice? source s.pos (s.pos + size)
        return (.ok ⟨kind, String.ofList text, s.pos, location⟩, s.advance size)

/-- The scanner after `n` attempts to read a token. -/
def after (source : List Char) : Nat → Option Scanner
  | 0 => some start
  | n + 1 => do
    let s ← after source n
    let (_, s) ← next source s
    return s

end Scanner

end Bpl
