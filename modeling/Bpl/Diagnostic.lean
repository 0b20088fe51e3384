import Bpl.Location
import Bpl.Ty

namespace Bpl

/-- Why a text is no sequence of tokens. -/
inductive LexicalFault where
  | unclosedComment
  | unclosedString
  | numberTooLarge (digits : String)
  | strayCharacter (c : Char)
  | numberWithoutValue
  | other (message : String)
  deriving DecidableEq

def LexicalFault.message : LexicalFault → String
  | unclosedComment => "unterminated comment"
  | unclosedString => "unterminated string literal"
  | numberTooLarge digits =>
    "invalid number " ++ digits ++ ": number too large to fit in target type"
  | strayCharacter c => "invalid token: '" ++ c.toString ++ "'"
  | numberWithoutValue => "internal error: numeric token missing value"
  | other message => message

/-- A rule of the language that a program breaks. -/
inductive Violation where
  | undeclared (name : String)
  | redeclared (name : String)
  | typeMismatch (construct expected : String) (found : Ty)
  | argumentCount (name : String) (expected found : Nat)
  | argumentType (name : String) (position : Nat) (expected found : Ty)
  | notAFunction (name : String)
  | functionAsValue (name : String)
  | missingMain
  | malformedMain
  | notLvalue (construct : String)
  | voidValue (name : String)
  | voidVariable (name : String)
  | emptyArray (name : String)
  | arrayTooLarge (name : String)
  | frameTooLarge (function : String)
  | returnMismatch (function : String) (expected found : Ty)
  | missingReturnValue (function : String) (expected : Ty)
  | unexpectedReturnValue (function : String)
  | unwritable (found : Ty)
  deriving DecidableEq

/-- A text between double quotes, as it stands. -/
def quoted (s : String) : String :=
  "\"" ++ s ++ "\""

def Violation.message : Violation → String
  | undeclared name => "name " ++ quoted name ++ " is undefined"
  | redeclared name => quoted name ++ " is already declared in this scope"
  | typeMismatch construct expected found =>
    construct ++ ": expected " ++ expected ++ ", but got " ++ found.text
  | argumentCount name expected found =>
    "wrong number of arguments for function " ++ quoted name ++ " (" ++ toString expected ++
      " expected, " ++ toString found ++ " given)"
  | argumentType name position expected found =>
    "argument " ++ toString position ++ " of " ++ quoted name ++ " has type " ++ found.text ++
      ", but the parameter is declared " ++ expected.text
  | notAFunction name => quoted name ++ " is not a function"
  | functionAsValue name => "function " ++ quoted name ++ " cannot be used as a value"
  | missingMain => "program has no \"main\" function"
  | malformedMain => "\"main\" must be declared as \"void main(void)\""
  | notLvalue construct => construct ++ " requires an assignable location"
  | voidValue name => "void function " ++ quoted name ++ " used as a value"
  | voidVariable name => quoted name ++ " cannot be declared void"
  | emptyArray name => "array " ++ quoted name ++ " must have at least one element"
  | arrayTooLarge name => "array " ++ quoted name ++ " is too large"
  | frameTooLarge function =>
    "locals of function " ++ quoted function ++ " exceed the stack frame limit"
  | returnMismatch function expected found =>
    "returned value has type " ++ found.text ++ ", but " ++ quoted function ++ " returns " ++
      expected.text
  | missingReturnValue function expected =>
    "missing return value in function " ++ quoted function ++ " returning " ++ expected.text
  | unexpectedReturnValue function =>
    "cannot return a value from void function " ++ quoted function
  | unwritable found => "cannot write a value of type " ++ found.text

/-- Why a compilation stops: a fault of the text at a place in it, or one of its
surroundings. -/
inductive Diagnostic where
  | scan (location : Location) (fault : LexicalFault)
  | parse (location : Location) (expected found : String)
  | semantic (location : Location) (violation : Violation)
  | io (path reason : String)
  | toolchain (program reason : String)
  | outputClash (path : String)
  deriving DecidableEq

namespace Diagnostic

def location? : Diagnostic → Option Location
  | scan l _ | parse l _ _ | semantic l _ => some l
  | io _ _ | toolchain _ _ | outputClash _ => none

def message : Diagnostic → String
  | scan l fault => l.text ++ ": " ++ fault.message
  | parse l expected found => l.text ++ ": expected " ++ expected ++ ", but got " ++ quoted found
  | semantic l violation => l.text ++ ": " ++ violation.message
  | io path reason => "could not access " ++ path ++ ": " ++ reason
  | toolchain program reason => program ++ ": " ++ reason
  | outputClash path => "executable " ++ path ++ " would overwrite its own assembly file"

end Diagnostic

end Bpl
