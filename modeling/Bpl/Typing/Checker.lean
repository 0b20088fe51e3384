import Bpl.Typing.Program

namespace Bpl.Typing

/-- The function that a checker is in: its name and result, and the names that it has declared. -/
structure FunctionScope where
  name : String
  result : Ty
  locals : Locals

def FunctionScope.withLocals (f : FunctionScope) (locals : Locals) : FunctionScope :=
  { f with locals := locals }

/-- What a checker keeps: the global names, and the function that it is in, if it is in one. -/
structure Checker where
  globals : Scope
  current : Option FunctionScope

/-- A computation that reads and changes a checker. What it changes before it fails stays changed. -/
def Checking (α : Type) : Type :=
  Checker → Checker × Logged α

namespace Checking

variable {α β : Type}

def andThen (x : Checking α) (f : α → Checking β) : Checking β := fun c =>
  match (x c).2.outcome with
  | .ok a => ((f a (x c).1).1, do let _ ← (x c).2; (f a (x c).1).2)
  | .error e => ((x c).1, ⟨(x c).2.events, .error e⟩)

instance : Monad Checking where
  pure a c := (c, pure a)
  bind := andThen

/-- Computes from the checker without a change to it. -/
def reading (f : Checker → Logged α) : Checking α := fun c =>
  (c, f c)

def change (f : Checker → Checker) : Checking Unit := fun c =>
  (f c, pure ())

/-- The function that the checker is in. -/
def functionScope : Checking FunctionScope :=
  reading fun c =>
    match c.current with
    | some f => return f
    | none => .fault .outsideFunction

/-- Checks the body of a function and leaves the function, with success or with a diagnostic. A
fault ends the check where it is. -/
def leaving (x : Checking α) : Checking (α × Option FunctionScope) := fun c =>
  let (left, result) := x c
  match result.outcome with
  | .error (.fault f) => (left, ⟨result.events, .error (.fault f)⟩)
  | _ => ({ left with current := none }, return (← result, left.current))

end Checking

namespace Checker

/-- The checker before the first program. -/
def new : Checker :=
  ⟨.empty, none⟩

/-- The names that an expression sees. -/
def env (c : Checker) : Env :=
  ⟨c.globals, (c.current.map (·.locals.scope)).getD .empty⟩

open Checking

def value (e : Expr) : Checking Typed :=
  reading fun c => Typing.expr c.env e

def condition (construct : String) (e : Expr) : Checking Expr := do
  let r ← value e
  reading fun _ => integer construct r

def declareLocal (v : Variable) : Checking Unit := do
  reading fun _ => .ofExcept (validate v)
  let f ← functionScope
  let scope ← reading fun _ => .ofExcept <|
    f.locals.scope.declare ⟨v.name, v.ty, .localVar f.locals.declared.length, v.location⟩
  change fun c => { c with current := c.current.map (·.withLocals ⟨scope, f.locals.declared ++ [v]⟩) }

def declareLocals : List Variable → Checking Unit
  | [] => return ()
  | v :: vs => do
    declareLocal v
    declareLocals vs

mutual

def stmt : Stmt → Checking Stmt
  | .compound l b => do
    let b ← block b
    return .compound l b
  | .ifThen l e yes => do
    let e ← condition "if condition" e
    let yes ← stmt yes
    return .ifThen l e yes
  | .ifElse l e yes no => do
    let e ← condition "if condition" e
    let yes ← stmt yes
    let no ← stmt no
    return .ifElse l e yes no
  | .whileDo l e body => do
    let e ← condition "while condition" e
    let body ← stmt body
    return .whileDo l e body
  | .ret l e => do
    let f ← functionScope
    let e ← reading fun c => Typing.ret ⟨c.globals, f.name, f.result⟩ c.env l e
    return .ret l e
  | .expr l e => do
    let (e, _) ← value e
    return .expr l e
  | .write l e => do
    let r ← value e
    let e ← reading fun _ => writable r
    return .write l e
  | .writeln l => return .writeln l

def block : Block → Checking Block
  | .mk l vs ss => do
    declareLocals vs
    let ss ← stmts ss
    return .mk l vs ss

def stmts : List Stmt → Checking (List Stmt)
  | [] => return []
  | s :: ss => do
    let s ← stmt s
    let ss ← stmts ss
    return s :: ss

end

/-- What is left to check of a function behind its body: the size of its frame. -/
def finish (f : Function) (body : Block) (locals : List Variable) : Logged Function := do
  .ensure (Variable.totalSize locals ≤ Ty.maxObjectSize) f.location (.frameTooLarge f.name)
  .report (.functionChecked f.name f.params.length locals.length)
  return { f with body := body, locals := locals }

/-- Checks a function: its parameters first, then its body with the checker in the function. -/
def function (f : Function) : Checking Function := do
  let scope ← reading fun _ => .ofExcept (params .empty 0 f.params)
  change fun c => { c with current := some ⟨f.name, f.result, ⟨scope, []⟩⟩ }
  let checked ← leaving (block f.body)
  let locals := (checked.2.map (·.locals.declared)).getD f.locals
  reading fun _ => finish f checked.1 locals

def declareAll : List Decl → Checking Unit
  | [] => return ()
  | d :: ds => do
    let globals ← reading fun c => .ofExcept (declareGlobal c.globals d)
    change fun c => { c with globals := globals }
    declareAll ds

def decls : List Decl → Checking (List Decl)
  | [] => return []
  | .var v :: ds => do
    let ds ← decls ds
    return .var v :: ds
  | .function f :: ds => do
    let f ← function f
    let ds ← decls ds
    return .function f :: ds

/-- Checks a program and joins its declarations to those that the checker knows. -/
def program (p : Program) : Checking Program := do
  declareAll p
  let p ← decls p
  reading fun c => .ofExcept (checkMain c.globals)
  return p

end Checker

end Bpl.Typing
