import Bpl.Options

namespace Bpl

/-- What is wrong with a command line. -/
inductive Mistake where
  | missingInput
  | unknownArgument
  | invalidValue
  | repeatedOption
  | unexpectedValue
  deriving DecidableEq

def Mistake.message : Mistake → String
  | missingInput => "the input file is missing"
  | unknownArgument => "an argument is not understood"
  | invalidValue => "an option lacks its value"
  | repeatedOption => "an option is given twice"
  | unexpectedValue => "an option takes no value"

/-- Why a command line starts no compilation: it is wrong, or it asks about the program. -/
inductive Refusal where
  | mistake (m : Mistake)
  | help
  | version
  deriving DecidableEq

namespace CommandLine

inductive Flag where
  | assemblyOnly
  | verbose
  | help
  | version

/-- Options that take a value. -/
inductive Setting where
  | output
  | linker

inductive Item where
  | flag (f : Flag)
  | setting (s : Setting)

def short? : Char → Option Item
  | 'S' => some (.flag .assemblyOnly)
  | 'v' => some (.flag .verbose)
  | 'h' => some (.flag .help)
  | 'V' => some (.flag .version)
  | 'o' => some (.setting .output)
  | _ => none

def long? : String → Option Item
  | "verbose" => some (.flag .verbose)
  | "help" => some (.flag .help)
  | "version" => some (.flag .version)
  | "output" => some (.setting .output)
  | "cc" => some (.setting .linker)
  | _ => none

/-- How an argument reads before its place on the line is known. -/
inductive Word where
  | escape
  | long (name : String) (value : Option String)
  | short (letters : List Char)
  | plain

def Word.ofText (text : String) : Word :=
  match text.toList with
  | ['-', '-'] => escape
  | '-' :: '-' :: cs =>
    let name := cs.takeWhile (· != '=')
    let value := match cs.drop name.length with
      | [] => none
      | _ :: value => some (String.ofList value)
    long (String.ofList name) value
  | '-' :: c :: cs => short (c :: cs)
  | _ => plain

/-- What the arguments read so far have settled. -/
structure Draft where
  input : Option Path
  assemblyOnly : Bool
  output : Option Path
  linker : Option String
  verbosity : Nat

/-- The argument before the one that is read. It counts only when the next one is understood. -/
inductive Pending where
  | none
  | input (text : String)
  | setting (s : Setting) (value : Option String)

/-- More repetitions of the verbosity flag are not counted. -/
def maxVerbosity : Nat := 255

def Draft.raise (d : Draft) : Flag → Except Refusal Draft
  | .assemblyOnly =>
    if d.assemblyOnly then .error (.mistake .repeatedOption)
    else .ok { d with assemblyOnly := true }
  | .verbose => .ok { d with verbosity := min maxVerbosity (d.verbosity + 1) }
  | .help => .error .help
  | .version => .error .version

/-- A setting is given once; a path is not empty. -/
def Draft.store (d : Draft) (value : String) : Setting → Except Refusal Draft
  | .output =>
    if d.output.isSome then .error (.mistake .repeatedOption)
    else if value.isEmpty then .error (.mistake .invalidValue)
    else .ok { d with output := some ⟨value⟩ }
  | .linker =>
    if d.linker.isSome then .error (.mistake .repeatedOption)
    else .ok { d with linker := some value }

def Draft.settle (d : Draft) : Pending → Except Refusal Draft
  | .none => .ok d
  | .input text =>
    if text.isEmpty then .error (.mistake .invalidValue)
    else .ok { d with input := some ⟨text⟩ }
  | .setting _ none => .error (.mistake .invalidValue)
  | .setting s (some value) => d.store value s

/-- Reads an argument that is no option. Only one may be the input. -/
def positional (d : Draft) (p : Pending) (text : String) : Except Refusal (Draft × Pending) :=
  match d.input, p with
  | none, .none | none, .setting _ _ => do return (← d.settle p, .input text)
  | _, _ => .error (.mistake .unknownArgument)

/-- Reads letters after a dash. What follows the letter of a setting is its value. -/
def letters (d : Draft) (p : Pending) : List Char → Except Refusal (Draft × Pending)
  | [] => .ok (d, p)
  | c :: cs =>
    match short? c with
    | none => .error (.mistake .unknownArgument)
    | some (.flag f) => do
      let d ← d.settle p
      letters (← d.raise f) .none cs
    | some (.setting s) => do
      let d ← d.settle p
      match cs with
      | [] => return (d, .setting s none)
      | '=' :: value => return (← d.store (String.ofList value) s, .none)
      | value => return (← d.store (String.ofList value) s, .none)

/-- Reads a word after two dashes. -/
def longOption (d : Draft) (p : Pending) (name : String) (value : Option String) :
    Except Refusal (Draft × Pending) :=
  match long? name, value with
  | none, _ => .error (.mistake .unknownArgument)
  | some (.flag _), some _ => .error (.mistake .unexpectedValue)
  | some (.flag f), none => do
    let d ← d.settle p
    return (← d.raise f, .none)
  | some (.setting s), none => do return (← d.settle p, .setting s none)
  | some (.setting s), some value => do
    let d ← d.settle p
    return (← d.store value s, .none)

/-- Reads one argument; the escape is not among them. A setting that lacks its value takes any
plain word. -/
def argument (d : Draft) (p : Pending) (text : String) : Except Refusal (Draft × Pending) :=
  match Word.ofText text with
  | .long name value => longOption d p name value
  | .short cs => letters d p cs
  | .escape | .plain =>
    match p with
    | .setting s none => .ok (d, .setting s (some text))
    | p => positional d p text

/-- Reads the arguments of a command line. After an escape no argument is an option. -/
def arguments (d : Draft) (p : Pending) : List String → Except Refusal Draft
  | [] => d.settle p
  | text :: texts =>
    match Word.ofText text with
    | .escape => do
      let (d, p) ← texts.foldlM (fun (d, p) text => positional d p text) (d, p)
      d.settle p
    | _ => do
      let (d, p) ← argument d p text
      arguments d p texts

end CommandLine

/-- Reads a command line. The linker is named there, or by the environment, or it is `cc`. -/
def Options.ofArguments (environment : Option String) (texts : List String) :
    Except Refusal Options := do
  let d ← CommandLine.arguments ⟨none, false, none, none, 0⟩ .none texts
  match d.input with
  | none => throw (.mistake .missingInput)
  | some input =>
    return ⟨input, d.assemblyOnly, d.output, d.linker.getD (environment.getD "cc"), d.verbosity⟩

end Bpl
