import Bpl.Diagnostic
import Bpl.Path

namespace Bpl

/-- What a command line asks for. -/
structure Options where
  input : Path
  assemblyOnly : Bool
  output : Option Path
  linker : String
  verbosity : Nat
  deriving DecidableEq

namespace Options

/-- The executable is named on the command line, or after the input. -/
def executable (o : Options) : Path :=
  o.output.getD (o.input.stem?.getD o.input)

/-- The assembly file and the executable, if there is to be one. They must differ. -/
def outputs (o : Options) : Except Diagnostic (Path × Option Path) :=
  let assembly := o.executable.withExtension "s"
  if o.assemblyOnly then .ok (assembly, none)
  else if assembly.same o.executable then .error (.outputClash o.executable.text)
  else .ok (assembly, some o.executable)

end Options

end Bpl
