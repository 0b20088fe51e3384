import Bpl.Location
import Bpl.Ty

namespace Bpl

inductive BinaryOp where
  | add
  | sub
  | mul
  | div
  | mod
  | eq
  | ne
  | lt
  | le
  | gt
  | ge
  deriving DecidableEq

namespace BinaryOp

def isComparison : BinaryOp → Bool
  | eq | ne | lt | le | gt | ge => true
  | add | sub | mul | div | mod => false

def symbol : BinaryOp → String
  | add => "+"
  | sub => "-"
  | mul => "*"
  | div => "/"
  | mod => "%"
  | eq => "=="
  | ne => "!="
  | lt => "<"
  | le => "<="
  | gt => ">"
  | ge => ">="

end BinaryOp

inductive UnaryOp where
  | neg
  | address
  | deref
  deriving DecidableEq

def UnaryOp.symbol : UnaryOp → String
  | neg => "-"
  | address => "&"
  | deref => "*"

/-- Where a variable lives: in memory of its own, or in the frame of a call as one of its
parameters or locals, counted from zero. -/
inductive Slot where
  | global
  | parameter (index : Nat)
  | localVar (index : Nat)
  deriving DecidableEq

/-- What is known of an expression: where it stands and, once it is checked, its type and whether
it names a place in memory. -/
structure Note where
  location : Location
  ty : Option Ty
  lvalue : Bool
  deriving DecidableEq

/-- The note of an expression that is not checked yet. -/
def Note.new (location : Location) : Note :=
  ⟨location, none, false⟩

/-- Expressions. A bare identifier is a `name`; checking turns it into a `var`, or into a `decay`
where an array stands for a pointer to its first element. -/
inductive Expr where
  | number (note : Note) (value : Int64)
  | string (note : Note) (contents : String)
  | read (note : Note)
  | name (note : Note) (name : String)
  | var (note : Note) (name : String) (slot : Slot)
  | decay (note : Note) (name : String) (slot : Slot)
  | assign (note : Note) (target value : Expr)
  | binary (note : Note) (op : BinaryOp) (left right : Expr)
  | unary (note : Note) (op : UnaryOp) (operand : Expr)
  | index (note : Note) (base index : Expr)
  | call (note : Note) (name : String) (args : List Expr)

namespace Expr

def note : Expr → Note
  | number n _ | string n _ | read n | name n _ | var n _ _ | decay n _ _ | assign n _ _
  | binary n _ _ _ | unary n _ _ | index n _ _ | call n _ _ => n

def location (e : Expr) : Location :=
  e.note.location

def ty? (e : Expr) : Option Ty :=
  e.note.ty

def isLvalue (e : Expr) : Bool :=
  e.note.lvalue

end Expr

/-- A declared variable or parameter. -/
structure Variable where
  name : String
  ty : Ty
  location : Location
  deriving DecidableEq

/-- Bytes that variables take together. -/
def Variable.totalSize (vs : List Variable) : Nat :=
  vs.foldr (fun v n => v.ty.size + n) 0

mutual

inductive Stmt where
  | compound (location : Location) (block : Block)
  | ifThen (location : Location) (condition : Expr) (yes : Stmt)
  | ifElse (location : Location) (condition : Expr) (yes no : Stmt)
  | whileDo (location : Location) (condition : Expr) (body : Stmt)
  | ret (location : Location) (value : Option Expr)
  | expr (location : Location) (value : Expr)
  | write (location : Location) (value : Expr)
  | writeln (location : Location)

/-- Declarations, then statements. -/
inductive Block where
  | mk (location : Location) (decls : List Variable) (stmts : List Stmt)

end

namespace Block

def location : Block → Location
  | mk l _ _ => l

def decls : Block → List Variable
  | mk _ vs _ => vs

def stmts : Block → List Stmt
  | mk _ _ ss => ss

end Block

/-- A function. Checking collects the variables of all blocks of the body as its locals. -/
structure Function where
  name : String
  result : Ty
  params : List Variable
  body : Block
  location : Location
  locals : List Variable

namespace Function

def signature (f : Function) : Ty :=
  .function (f.params.map Variable.ty) f.result

def isMain (f : Function) : Bool :=
  f.name == "main"

end Function

inductive Decl where
  | var (v : Variable)
  | function (f : Function)

/-- A whole program: its declarations in the order of the text. -/
abbrev Program := List Decl

namespace Program

def functions (p : Program) : List Function :=
  p.filterMap fun
    | .function f => some f
    | .var _ => none

def globals (p : Program) : List Variable :=
  p.filterMap fun
    | .var v => some v
    | .function _ => none

end Program

end Bpl
