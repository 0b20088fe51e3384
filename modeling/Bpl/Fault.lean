import Bpl.Diagnostic

namespace Bpl

/-- A tree that no check has made fit for the step it is used in. -/
inductive Fault where
  | untyped (location : Location)
  | notLvalue (location : Location)
  | unresolved (name : String)
  | slotOutOfRange (count index : Nat)
  | outsideFunction
  deriving DecidableEq

def Fault.message : Fault → String
  | untyped l =>
    "internal error: entered unreachable code: expression at " ++ l.text ++ " was not type checked"
  | notLvalue l =>
    "internal error: entered unreachable code: expression at " ++ l.text ++ " is not an lvalue"
  | unresolved name =>
    "internal error: entered unreachable code: unresolved name " ++ quoted name ++
      " reached code generation"
  | slotOutOfRange count index =>
    "index out of bounds: the len is " ++ toString count ++ " but the index is " ++ toString index
  | outsideFunction =>
    "internal error: entered unreachable code: statement checked outside of a function"

/-- Why checking stops: the program is wrong, or its tree is unfit to be checked. -/
inductive Failure where
  | diagnostic (d : Diagnostic)
  | fault (f : Fault)
  deriving DecidableEq

end Bpl
