import Bpl.Tree

namespace Bpl

inductive Severity where
  | info
  | debug
  | trace
  deriving DecidableEq

/-- What the compiler reports about its work. -/
inductive Event where
  | linked (location : Location) (name : String) (slot : Slot) (declared : Location)
  | variableTyped (location : Location) (ty : Ty)
  | expressionTyped (location : Location) (ty : Ty)
  | decays (location : Location) (name : String) (ty : Ty)
  | functionChecked (function : String) (params locals : Nat)
  | parameterAt (function name : String) (offset : Int)
  | localAt (function name : String) (offset : Int)
  | frameSize (function : String) (size : Nat)
  | wrote (path : String)
  | linking (linker assembly executable : String)
  | linkedTo (path : String)
  deriving DecidableEq

def Severity.name : Severity → String
  | info => "INFO"
  | debug => "DEBUG"
  | trace => "TRACE"

/-- How events name the kind of a declaration. -/
def Slot.description : Slot → String
  | global => "Global"
  | parameter i => "Parameter(" ++ toString i ++ ")"
  | localVar i => "Local(" ++ toString i ++ ")"

namespace Event

def severity : Event → Severity
  | linked .. | variableTyped .. | expressionTyped .. | decays .. => .trace
  | functionChecked .. | parameterAt .. | localAt .. | frameSize .. | linking .. => .debug
  | wrote .. | linkedTo .. => .info

/-- The part of the compiler that reports the event. -/
def origin : Event → String
  | linked .. | variableTyped .. | expressionTyped .. | decays .. | functionChecked .. =>
    "bplc::checker"
  | parameterAt .. | localAt .. | frameSize .. => "bplc::codegen"
  | wrote .. | linking .. | linkedTo .. => "bplc"

def message : Event → String
  | linked l name slot declared =>
    l.text ++ ": \"" ++ name ++ "\" linked to " ++ slot.description ++ " declaration at " ++
      declared.text
  | variableTyped l ty => l.text ++ ": variable assigned type " ++ ty.text
  | expressionTyped l ty => l.text ++ ": expression assigned type " ++ ty.text
  | decays l name ty => l.text ++ ": array \"" ++ name ++ "\" decays to " ++ ty.text
  | functionChecked function params locals =>
    "checked function " ++ function ++ ": " ++ toString params ++ " parameter(s), " ++
      toString locals ++ " local(s)"
  | parameterAt function name offset =>
    function ++ ": parameter " ++ name ++ " at " ++ toString offset ++ "(%rbp)"
  | localAt function name offset =>
    function ++ ": local " ++ name ++ " at " ++ toString offset ++ "(%rbp)"
  | frameSize function size => function ++ ": " ++ toString size ++ " byte(s) of locals"
  | wrote path => "wrote " ++ path
  | linking linker assembly executable =>
    "running " ++ linker ++ " " ++ assembly ++ " -o " ++ executable
  | linkedTo path => "linked " ++ path

end Event

end Bpl
