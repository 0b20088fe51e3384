import Bpl.Diagnostic

namespace Bpl

/-- The lines of a text. A line ends at a line feed, which takes one carriage return before it
along; what stands after the last line feed is a line unless it is empty. -/
def linesOf : List Char → List (List Char)
  | [] => []
  | '\n' :: cs => [] :: linesOf cs
  | '\r' :: '\n' :: cs => [] :: linesOf cs
  | c :: cs =>
    match linesOf cs with
    | [] => [[c]]
    | line :: lines => (c :: line) :: lines

/-- Blanks that reach as far as the first `width` characters of a line; tabs stay tabs. -/
def indentTo (width : Nat) (line : List Char) : List Char :=
  (line.take width).map fun c => if c = '\t' then '\t' else ' '

/-- The line at a place, and under it a mark at its column, each on a line of its own. -/
def excerpt (source : String) (l : Location) : String :=
  match (linesOf source.toList)[l.line - 1]? with
  | none => ""
  | some line =>
    "\n" ++ String.ofList line ++ "\n" ++ String.ofList (indentTo (l.column - 1) line) ++ "^"

/-- A diagnostic as shown to the user, with the line of `source` that it is about. -/
def Diagnostic.render (d : Diagnostic) (file source : String) : String :=
  match d.location? with
  | none => d.message
  | some l => file ++ ":" ++ d.message ++ excerpt source l

end Bpl
