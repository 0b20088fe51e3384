import Bpl.Diagnostic
import Bpl.Token

namespace Bpl

/-- Something read from the head of a list of tokens, and the tokens after it, fewer than
`bound`. -/
structure Parsed (α : Type) (bound : Nat) where
  value : α
  rest : List Token
  lt : rest.length < bound

abbrev Reading (α : Type) (bound : Nat) := Except Diagnostic (Parsed α bound)

/-- A token that is this word of the language or this mark. -/
def Token.isWord (t : Token) (w : String) : Bool :=
  (t.kind == .punctuator || t.kind == .keyword) && t.text == w

namespace Parsing

/-- The place of the next token, or `fin` after the last one. -/
def place (fin : Location) : List Token → Location
  | [] => fin
  | t :: _ => t.location

/-- The next token is not what is `expected`. -/
def unexpected (fin : Location) (expected : String) (ts : List Token) : Diagnostic :=
  .parse (place fin ts) expected <|
    match ts with
    | [] => "EOF"
    | t :: _ => t.describe

/-- Takes the next token if `f` makes something of it. -/
def take? {α : Type} (f : Token → Option α) : (ts : List Token) → Option (Parsed α ts.length)
  | [] => none
  | t :: ts => (f t).map fun a => ⟨a, ts, by simp⟩

/-- Takes the word `w`, for its place. -/
def accept? (w : String) : (ts : List Token) → Option (Parsed Location ts.length) :=
  take? fun t => if t.isWord w then some t.location else none

def expect (fin : Location) (w : String) (ts : List Token) : Reading Location ts.length :=
  match accept? w ts with
  | some p => .ok p
  | none => .error (unexpected fin (quoted w) ts)

/-- Takes an identifier, for its place and its name. -/
def identifier (fin : Location) (ts : List Token) : Reading (Location × String) ts.length :=
  match take? (fun t => if t.kind = .ident then some (t.location, t.text) else none) ts with
  | some p => .ok p
  | none => .error (unexpected fin "an identifier" ts)

/-- The value of a number that stands at `l`. -/
def valueOf (l : Location) : Option Int64 → Except Diagnostic Int64
  | some value => .ok value
  | none => .error (.scan l .numberWithoutValue)

/-- Takes a number, for its place and its value. -/
def number (fin : Location) : (ts : List Token) → Reading (Location × Int64) ts.length
  | [] => .error (unexpected fin "a number" [])
  | t :: ts =>
    match t.kind with
    | .number value => do return ⟨(t.location, ← valueOf t.location value), ts, by simp⟩
    | .ident | .keyword | .punctuator | .string | .eof =>
      .error (unexpected fin "a number" (t :: ts))

end Parsing

end Bpl
