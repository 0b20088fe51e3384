namespace Bpl

/-- A place in a source text. Lines and columns count from one, columns in characters. -/
@[ext] structure Location where
  line : Nat
  column : Nat
  deriving DecidableEq, Inhabited

namespace Location

/-- Where every text starts. -/
def first : Location := ⟨1, 1⟩

/-- The place after a character standing at `l`. -/
def next (l : Location) (c : Char) : Location :=
  if c = '\n' then ⟨l.line + 1, 1⟩ else ⟨l.line, l.column + 1⟩

/-- The place after a text that starts at `l`. -/
def after (l : Location) (text : List Char) : Location :=
  text.foldl next l

theorem after_append (l : Location) (s t : List Char) :
    l.after (s ++ t) = (l.after s).after t := by
  simp [after]

def text (l : Location) : String :=
  toString l.line ++ ":" ++ toString l.column

end Location

end Bpl
