import Bpl.CommandLine
import Bpl.Compile
import Bpl.Excerpt

namespace Bpl

/-- What a run asks of its surroundings: to read a text, to write one, and to make an executable
of an assembly file with the program of the given name. What fails says why. What is logged passes
`strip`, which takes the controls of a terminal from it. -/
structure Host (m : Type → Type) where
  read : Path → m (Except String String)
  write : Path → String → m (Except String Unit)
  link : String → Path → Path → m (Except String Unit)
  strip : String → String

/-- How a run ends, and what it prints. -/
structure Report where
  status : Nat
  stdout : String
  stderr : String
  deriving DecidableEq

def unlines (lines : List String) : String :=
  String.join (lines.map (· ++ "\n"))

namespace Session

/-- Nothing is shown unasked; tracing is shown when asked for twice. -/
def shows (verbosity : Nat) : Severity → Bool
  | .trace => 2 ≤ verbosity
  | .info | .debug => 1 ≤ verbosity

/-- Names of severities are as wide as the longest. -/
def paddedName (s : Severity) : String :=
  String.ofList (s.name.toList ++ List.replicate (5 - s.name.length) ' ')

/-- Further lines of a message are indented. -/
def indentLines (message : String) : String :=
  String.ofList (message.toList.flatMap fun c => if c = '\n' then "\n    ".toList else [c])

/-- An event in the log, before it is stripped: a line. -/
def logEntry (e : Event) : String :=
  "[" ++ paddedName e.severity ++ " " ++ e.origin ++ "] " ++ indentLines e.message ++ "\n"

def logText (strip : String → String) (verbosity : Nat) (events : List Event) : String :=
  String.join ((events.filter (shows verbosity ·.severity)).map fun e => strip (logEntry e))

def failureText (file source : String) : Failure → String
  | .diagnostic d => d.render file source
  | .fault f => f.message

variable {m : Type → Type} [Monad m]

/-- Makes an executable of an assembly file, if one is asked for. -/
def link (host : Host m) (o : Options) (assembly : Path) : Option Path → m (Logged Unit)
  | none => return pure ()
  | some executable => do
    let start := Event.linking o.linker assembly.text executable.text
    match ← host.link o.linker assembly executable with
    | .error reason => return ⟨[start], .error (.diagnostic (.toolchain o.linker reason))⟩
    | .ok () => return ⟨[start, .linkedTo executable.text], .ok ()⟩

/-- Writes an assembly file and goes on to the executable. -/
def emit (host : Host m) (o : Options) (assembly : Path) (executable : Option Path)
    (a : Assembly) : m (Logged Unit) := do
  match ← host.write assembly a.text with
  | .error reason => return .ofExcept (.error (.io assembly.text reason))
  | .ok () =>
    let linked ← link host o assembly executable
    return do
      .report (.wrote assembly.text)
      linked

/-- Compiles a text to the files that the options name. Nothing is written unless all of it is
compiled. -/
def build (host : Host m) (o : Options) (source : String) : m (Logged Unit) :=
  match o.outputs with
  | .error d => return .ofExcept (.error d)
  | .ok (assembly, executable) =>
    let compiled := compile source
    match compiled.outcome with
    | .error e => return ⟨compiled.events, .error e⟩
    | .ok a => do
      let emitted ← emit host o assembly executable a
      return ⟨compiled.events ++ emitted.events, emitted.outcome⟩

/-- Compiles the input of some options. -/
def run (host : Host m) (o : Options) : m Report := do
  match ← host.read o.input with
  | .error reason => return ⟨1, "", (Diagnostic.io o.input.text reason).message ++ "\n"⟩
  | .ok source =>
    let built ← build host o source
    let log := logText host.strip o.verbosity built.events
    match built.outcome with
    | .ok () => return ⟨0, "", log⟩
    | .error e => return ⟨1, "", log ++ failureText o.input.text source e ++ "\n"⟩

def usage : String :=
  "Usage: bplc [OPTIONS] <INFILE>"

def helpText : String := unlines
  ["Compile a BPL program to x86-64 assembly and link it with the C toolchain",
    "",
    usage,
    "",
    "Arguments:",
    "  <INFILE>  Source file to compile",
    "",
    "Options:",
    "  -S                   Stop after writing the assembly file",
    "  -o, --output <NAME>  Name of the executable (defaults to the input file stem)",
    "      --cc <PROGRAM>   Assembler and linker driver [env: BPLC_CC=] [default: cc]",
    "  -v, --verbose...     Increase log verbosity (-v debug, -vv trace)",
    "  -h, --help           Print help",
    "  -V, --version        Print version"]

/-- A command line without a compilation: a question about the program, or a mistake. -/
def refuse : Refusal → Report
  | .help => ⟨0, helpText, ""⟩
  | .version => ⟨0, "bplc 0.1.0\n", ""⟩
  | .mistake m => ⟨2, "", unlines ["error: " ++ m.message, "", usage]⟩

/-- Runs a command line. `environment` names the linker where the line does not. -/
def start (host : Host m) (environment : Option String) (arguments : List String) : m Report :=
  match Options.ofArguments environment arguments with
  | .error r => return refuse r
  | .ok o => run host o

end Session

end Bpl
