import Bpl.Typing.Expr

namespace Bpl.Typing

/-- Rejects variables that no program may declare. -/
def validate (v : Variable) : Except Diagnostic Unit :=
  match v.ty with
  | .void => .error (.semantic v.location (.voidVariable v.name))
  | .array _ 0 => .error (.semantic v.location (.emptyArray v.name))
  | ty =>
    if ty.size?.any (· ≤ Ty.maxObjectSize) then .ok ()
    else .error (.semantic v.location (.arrayTooLarge v.name))

/-- What a statement may refer to besides the local names. -/
structure Context where
  globals : Scope
  function : String
  result : Ty

/-- The local names of a function, and its locals in the order of their declarations. -/
structure Locals where
  scope : Scope
  declared : List Variable

def Context.env (ctx : Context) (ls : Locals) : Env :=
  ⟨ctx.globals, ls.scope⟩

def Locals.declare (ls : Locals) (v : Variable) : Except Diagnostic Locals := do
  validate v
  let scope ← ls.scope.declare ⟨v.name, v.ty, .localVar ls.declared.length, v.location⟩
  return ⟨scope, ls.declared ++ [v]⟩

/-- A `return` has a value exactly in a function that is not void, and of its result type. -/
def ret (ctx : Context) (env : Env) (l : Location) : Option Expr → Logged (Option Expr)
  | none => do
    .ensure ctx.result.isVoid l (.missingReturnValue ctx.function ctx.result)
    return none
  | some e => do
    .ensure (!ctx.result.isVoid) e.location (.unexpectedReturnValue ctx.function)
    let (e, ty) ← valued (← expr env e)
    .ensure (ty = ctx.result) e.location (.returnMismatch ctx.function ctx.result ty)
    return some e

/-- Integers and strings can be written. -/
def writable (r : Typed) : Logged Expr := do
  let (e, ty) ← valued r
  .ensure (ty = .int || ty = .string) e.location (.unwritable ty)
  return e

mutual

def stmt (ctx : Context) (ls : Locals) : Stmt → Logged (Stmt × Locals)
  | .compound l b => do
    let (b, ls) ← block ctx ls b
    return (.compound l b, ls)
  | .ifThen l condition yes => do
    let condition ← integer "if condition" (← expr (ctx.env ls) condition)
    let (yes, ls) ← stmt ctx ls yes
    return (.ifThen l condition yes, ls)
  | .ifElse l condition yes no => do
    let condition ← integer "if condition" (← expr (ctx.env ls) condition)
    let (yes, ls) ← stmt ctx ls yes
    let (no, ls) ← stmt ctx ls no
    return (.ifElse l condition yes no, ls)
  | .whileDo l condition body => do
    let condition ← integer "while condition" (← expr (ctx.env ls) condition)
    let (body, ls) ← stmt ctx ls body
    return (.whileDo l condition body, ls)
  | .ret l value => do
    let value ← ret ctx (ctx.env ls) l value
    return (.ret l value, ls)
  | .expr l e => do
    let (e, _) ← expr (ctx.env ls) e
    return (.expr l e, ls)
  | .write l e => do
    let e ← writable (← expr (ctx.env ls) e)
    return (.write l e, ls)
  | .writeln l => return (.writeln l, ls)

/-- The names of a block stay declared until the end of the function. -/
def block (ctx : Context) (ls : Locals) : Block → Logged (Block × Locals)
  | .mk l vs ss => do
    let ls ← .ofExcept (vs.foldlM Locals.declare ls)
    let (ss, ls) ← stmts ctx ls ss
    return (.mk l vs ss, ls)

def stmts (ctx : Context) (ls : Locals) : List Stmt → Logged (List Stmt × Locals)
  | [] => return ([], ls)
  | s :: ss => do
    let (s, ls) ← stmt ctx ls s
    let (ss, ls) ← stmts ctx ls ss
    return (s :: ss, ls)

end

end Bpl.Typing
