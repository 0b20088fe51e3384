import Bpl.Logged
import Bpl.Scope

namespace Bpl.Typing

/-- An expression that has been checked, and its type. -/
abbrev Typed := Expr × Ty

/-- The names that a function sees. -/
structure Env where
  globals : Scope
  locals : Scope

/-- A local name hides a global one. -/
def Env.find? (env : Env) (name : String) : Option Symbol :=
  (env.locals.find? name).or (env.globals.find? name)

/-- Notes the type that an expression was found to have. -/
def typed (n : Note) (ty : Ty) (lvalue : Bool) (mk : Note → Expr) : Logged Typed := do
  .report (.expressionTyped n.location ty)
  return (mk ⟨n.location, some ty, lvalue⟩, ty)

/-- Links a name to the variable that it stands for. -/
def resolve (env : Env) (n : Note) (name : String) : Logged Typed :=
  match env.find? name with
  | none => .refuse n.location (.undeclared name)
  | some s => do
    .ensure (!s.ty.isFunction) n.location (.functionAsValue name)
    .report (.linked n.location name s.slot s.location)
    .report (.variableTyped n.location s.ty)
    return (.var ⟨n.location, some s.ty, !s.ty.isArray⟩ name s.slot, s.ty)

/-- A variable that is linked already keeps its type. -/
def recorded (e : Expr) : Logged Typed :=
  match e.ty? with
  | some ty => return (e, ty)
  | none => .fault (.untyped e.location)

/-- The name by which a diagnostic calls an expression without a value. -/
def calleeName : Expr → String
  | .call _ name _ => name
  | _ => "<expression>"

/-- Lets expressions pass that have a value. -/
def valued (r : Typed) : Logged Typed := do
  .ensure (!r.2.isVoid) r.1.location (.voidValue (calleeName r.1))
  return r

/-- Lets integers pass. -/
def integer (construct : String) (r : Typed) : Logged Expr := do
  let (e, ty) ← valued r
  .ensure ty.isInteger e.location (.typeMismatch construct Ty.int.text ty)
  return e

/-- Lets expressions pass that name a place in memory. -/
def assignable (construct : String) (r : Typed) : Logged Typed := do
  let (e, ty) ← valued r
  .ensure e.isLvalue e.location (.notLvalue construct)
  return (e, ty)

/-- Lets expressions pass that have the type `expected`. -/
def ofType (construct : String) (expected : Ty) (r : Typed) : Logged Expr := do
  let (e, ty) ← valued r
  .ensure (ty = expected) e.location (.typeMismatch construct expected.text ty)
  return e

def operandOf (op : BinaryOp) : String :=
  "operand of " ++ quoted op.symbol

/-- The parameters and the result of the function that is called. -/
def callee (globals : Scope) (l : Location) (name : String) (given : Nat) :
    Logged (List Ty × Ty) :=
  match globals.find? name with
  | none => .refuse l (.undeclared name)
  | some s =>
    match s.ty with
    | .function params result => do
      .ensure (params.length = given) l (.argumentCount name params.length given)
      return (params, result)
    | _ => .refuse l (.notAFunction name)

/-- Passes an argument to a parameter of type `param`: the types agree, or the argument is an
array variable that becomes a pointer to its first element. -/
def pass (callee : String) (position : Nat) (param : Ty) (r : Typed) : Logged Expr := do
  let (e, ty) ← valued r
  if ty = param then return e
  match e, ty, param with
  | .var n name slot, .array element _, .pointer target =>
    .ensure (element = target) e.location (.argumentType callee position param ty)
    .report (.decays e.location name param)
    return .decay ⟨n.location, some param, false⟩ name slot
  | _, _, _ => .refuse e.location (.argumentType callee position param ty)

mutual

/-- Resolves the names of an expression and gives each part of it its type. -/
def expr (env : Env) : Expr → Logged Typed
  | .number n value => typed n .int false (.number · value)
  | .string n contents => typed n .string false (.string · contents)
  | .read n => typed n .int false .read
  | .name n name => resolve env n name
  | .var n name slot => recorded (.var n name slot)
  | .decay n name slot => recorded (.decay n name slot)
  | .assign n target value => do
    let (target, ty) ← assignable "assignment" (← expr env target)
    let value ← ofType "assignment" ty (← expr env value)
    typed n ty false (.assign · target value)
  | .binary n op left right => do
    if op.isComparison then
      let (left, ty) ← valued (← expr env left)
      .ensure ty.isComparable left.location
        (.typeMismatch (operandOf op) "int, string or pointer" ty)
      let right ← ofType (operandOf op) ty (← expr env right)
      typed n .int false (.binary · op left right)
    else
      let left ← integer (operandOf op) (← expr env left)
      let right ← integer (operandOf op) (← expr env right)
      typed n .int false (.binary · op left right)
  | .unary n .neg e => do
    let e ← integer "operand of unary \"-\"" (← expr env e)
    typed n .int false (.unary · .neg e)
  | .unary n .address e => do
    let (e, ty) ← assignable "address-of" (← expr env e)
    typed n (.pointer ty) false (.unary · .address e)
  | .unary n .deref e => do
    let (e, ty) ← valued (← expr env e)
    match ty with
    | .pointer base => typed n base true (.unary · .deref e)
    | _ => .refuse e.location (.typeMismatch "dereference" "a pointer" ty)
  | .index n base index => do
    let (base, ty) ← valued (← expr env base)
    match ty.base? with
    | some element =>
      let index ← integer "array index" (← expr env index)
      typed n element true (.index · base index)
    | none => .refuse base.location (.typeMismatch "indexed expression" "an array or pointer" ty)
  | .call n name args => do
    let (params, result) ← callee env.globals n.location name args.length
    let args ← arguments env name 1 args params
    typed n result false (.call · name args)

/-- Arguments and the parameters that they are passed to, from a position on. -/
def arguments (env : Env) (name : String) (position : Nat) :
    List Expr → List Ty → Logged (List Expr)
  | arg :: args, param :: params => do
    let arg ← pass name position param (← expr env arg)
    let args ← arguments env name (position + 1) args params
    return arg :: args
  | args, _ => return args

end

end Bpl.Typing
