import Bpl.Typing.Stmt

namespace Bpl.Typing

/-- Declares parameters, the first of them as number `index`. -/
def params (scope : Scope) (index : Nat) : List Variable → Except Diagnostic Scope
  | [] => return scope
  | v :: vs => do
    validate v
    let scope ← scope.declare ⟨v.name, v.ty, .parameter index, v.location⟩
    params scope (index + 1) vs

/-- Checks a function among the given global names, and collects its locals. -/
def function (globals : Scope) (f : Function) : Logged Function := do
  let scope ← .ofExcept (params .empty 0 f.params)
  let (body, ls) ← block ⟨globals, f.name, f.result⟩ ⟨scope, []⟩ f.body
  .ensure (Variable.totalSize ls.declared ≤ Ty.maxObjectSize) f.location (.frameTooLarge f.name)
  .report (.functionChecked f.name f.params.length ls.declared.length)
  return { f with body := body, locals := ls.declared }

def decl (globals : Scope) : Decl → Logged Decl
  | .var v => return .var v
  | .function f => do return .function (← function globals f)

def declareGlobal (globals : Scope) : Decl → Except Diagnostic Scope
  | .var v => do
    validate v
    globals.declare ⟨v.name, v.ty, .global, v.location⟩
  | .function f => globals.declare ⟨f.name, f.signature, .global, f.location⟩

/-- Declares global names until one is refused; those before it stay declared. -/
def declareGlobals (globals : Scope) : List Decl → Scope × Except Diagnostic Unit
  | [] => (globals, .ok ())
  | d :: ds =>
    match declareGlobal globals d with
    | .ok globals => declareGlobals globals ds
    | .error e => (globals, .error e)

/-- A program starts with `void main(void)`. -/
def checkMain (globals : Scope) : Except Diagnostic Unit :=
  match globals.find? "main" with
  | none => .error (.semantic .first .missingMain)
  | some s =>
    if s.ty = .function [] .void then .ok () else .error (.semantic s.location .malformedMain)

end Typing

/-- Checks a program whose declarations join the given global names. All its names are declared
before the first function is checked. -/
def Program.checkAmong (globals : Scope) (p : Program) : Scope × Logged Program :=
  match Typing.declareGlobals globals p with
  | (globals, .error d) => (globals, .ofExcept (.error d))
  | (globals, .ok ()) => (globals, do
    let p ← p.mapM (Typing.decl globals)
    .ofExcept (Typing.checkMain globals)
    return p)

/-- Resolves all names of a program and gives all its expressions their types. -/
def Program.check (p : Program) : Logged Program :=
  (p.checkAmong .empty).2

end Bpl
