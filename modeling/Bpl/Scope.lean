import Bpl.Diagnostic
import Bpl.Tree

namespace Bpl

/-- A declared name. -/
structure Symbol where
  name : String
  ty : Ty
  slot : Slot
  location : Location
  deriving DecidableEq

/-- Declared names, each of them once. -/
@[ext] structure Scope where
  symbols : List Symbol
  distinct : (symbols.map Symbol.name).Nodup

namespace Scope

def empty : Scope :=
  ⟨[], .nil⟩

def find? (s : Scope) (name : String) : Option Symbol :=
  s.symbols.find? (·.name == name)

def declare (s : Scope) (x : Symbol) : Except Diagnostic Scope :=
  if h : x.name ∈ s.symbols.map Symbol.name then
    .error (.semantic x.location (.redeclared x.name))
  else .ok ⟨x :: s.symbols, List.nodup_cons.2 ⟨h, s.distinct⟩⟩

end Scope

end Bpl
