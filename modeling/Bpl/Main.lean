import Bpl.Files

namespace Bpl.Console

/-- What the operating system says about a failure. -/
def reasonOf : IO.Error → String
  | .noFileOrDirectory _ code details | .permissionDenied _ code details
  | .inappropriateType _ code details | .invalidArgument _ code details
  | .resourceExhausted _ code details | .noSuchThing _ code details
  | .alreadyExists _ code details | .illegalOperation code details
  | .otherError code details => details ++ " (os error " ++ toString code ++ ")"
  | e => toString e

def attempt {α : Type} (act : IO α) : IO (Except String α) := do
  match ← act.toBaseIO with
  | .ok a => return .ok a
  | .error e => return .error (reasonOf e)

def readText (p : Path) : IO (Except String String) := do
  match ← attempt (IO.FS.readBinFile p.text) with
  | .error reason => return .error reason
  | .ok bytes =>
    match String.fromUTF8? bytes with
    | some text => return .ok text
    | none => return .error FileFault.notText.message

/-- The file system. No program is started from here: the linker is left to the caller, and
asking for an executable fails after the assembly is written. -/
def host : Host IO where
  read := readText
  write p text := attempt (IO.FS.writeFile p.text text)
  link _ _ _ := return .error "cannot be started"
  strip := Terminal.plain

end Bpl.Console

def main (arguments : List String) : IO UInt32 := do
  let report ← Bpl.Session.start Bpl.Console.host (← IO.getEnv "BPLC_CC") arguments
  IO.print report.stdout
  IO.eprint report.stderr
  return UInt32.ofNat report.status
