import Bpl.Asm.Text
import Bpl.Cursor
import Bpl.Lowering.Program
import Bpl.Parsing.Program
import Bpl.Typing.Program

namespace Bpl

/-- The program that a text spells, checked. -/
def analyze (source : String) : Logged Program := do
  let p ← .ofExcept (tokenize source >>= parse)
  p.check

/-- Lays out the frames of a program and lowers it. -/
def Program.generate (p : Program) : Logged Assembly :=
  ⟨p.functions.flatMap Frame.events, p.lower.mapError .fault⟩

/-- Compiles a text to assembly. -/
def compile (source : String) : Logged Assembly := do
  let p ← analyze source
  p.generate

end Bpl
