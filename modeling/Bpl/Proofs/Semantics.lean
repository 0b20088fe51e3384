import Bpl.Proofs.Machine.Step
import Bpl.Tree

namespace Bpl

/-- Values of scalar variables and of expressions. -/
inductive Value where
  | int (v : Int64)
  | string (s : String)
  deriving DecidableEq

/-- A word of a variable: that of a scalar under the index zero. -/
inductive Cell where
  | global (name : String) (index : Nat)
  | parameter (number index : Nat)
  | localVar (number index : Nat)
  deriving DecidableEq

/-- A word of the variable that a name is linked to. -/
def Slot.cell (x : String) : Slot → Nat → Cell
  | .global, i => .global x i
  | .parameter k, i => .parameter k i
  | .localVar k, i => .localVar k i

/-- The variables that a call sees, the input that is left and the output so far. A cell without a
value is one that was never assigned. -/
structure Store where
  cells : Cell → Option Value
  input : List Int64
  output : List Output

/-- Why a run stops before its end: an index fell off an array, the language gives no meaning to
what comes next, the next step takes a pointer or a tree that no check accepts, or the run takes
longer or calls deeper than it was watched. -/
inductive Stop where
  | fellOff (output : List Output)
  | undefined
  | stuck
  | outOfFuel

namespace Semantics

abbrev Run := StateT Store (Except Stop)

def undefined {α : Type} : Run α :=
  throw .undefined

def stuck {α : Type} : Run α :=
  throw .stuck

/-- A value that is used has to be there. -/
def needed : Option Value → Run Value
  | some v => return v
  | none => undefined

def integer (v : Option Value) : Run Int64 := do
  match ← needed v with
  | .int x => return x
  | .string _ => stuck

def fetch (c : Cell) : Run Value := do
  needed ((← get).cells c)

def assign (c : Cell) (v : Value) : Run Unit :=
  modify fun s => { s with cells := Function.update s.cells c (some v) }

def emit (o : Output) : Run Unit :=
  modify fun s => { s with output := s.output ++ [o] }

def truth (b : Bool) : Value :=
  .int (if b then 1 else 0)

/-- Arithmetic wraps around; a division needs a divisor and a quotient of 64 bits. -/
def ofInts (x y : Int64) : BinaryOp → Option Value
  | .add => some (.int (x + y))
  | .sub => some (.int (x - y))
  | .mul => some (.int (x * y))
  | .div => if y = 0 ∨ x = .minValue ∧ y = -1 then none else some (.int (x / y))
  | .mod => if y = 0 ∨ x = .minValue ∧ y = -1 then none else some (.int (x % y))
  | .eq => some (truth (x = y))
  | .ne => some (truth (x ≠ y))
  | .lt => some (truth (x < y))
  | .le => some (truth (x ≤ y))
  | .gt => some (truth (y < x))
  | .ge => some (truth (y ≤ x))

/-- Strings are the same if their contents are. Their order is that of the places where their
contents are stored. -/
def ofStrings (order : String → Int64) (s t : String) : BinaryOp → Option Value
  | .eq => some (truth (s = t))
  | .ne => some (truth (s ≠ t))
  | op => ofInts (order s) (order t) op

def combine (order : String → Int64) (op : BinaryOp) : Value → Value → Run Value
  | .int x, .int y => needed (ofInts x y op)
  | .string s, .string t =>
    if op.isComparison then needed (ofStrings order s t op) else stuck
  | _, _ => stuck

/-- The variables at the start of a call: those of the program, the arguments, and locals without
values. -/
def enter (cells : Cell → Option Value) (args : List Value) : Cell → Option Value
  | .global x i => cells (.global x i)
  | .parameter k i => if i = 0 then args[k]? else none
  | .localVar _ _ => none

/-- The variables after a call: those of the program as it left them, all others as before. -/
def leave (before after : Cell → Option Value) : Cell → Option Value
  | .global x i => after (.global x i)
  | c => before c

/-- What is written for a value of a static type. -/
def written : Option Ty → Value → Option Output
  | some .int, .int v => some (.integer v)
  | some .string, .string s => some (.text s)
  | _, _ => none

mutual

/-- The value of an expression, or none if it is a call of a function that has none to return or
returned without one. Pointers have no value here. The first number bounds the steps of the run,
the second one how deep its calls nest. -/
def value (p : Program) (order : String → Int64) : Nat → Nat → Expr → Run (Option Value)
  | 0, _, _ => throw .outOfFuel
  | _ + 1, _, .number _ v => return some (.int v)
  | _ + 1, _, .string _ s => return some (.string s)
  | _ + 1, _, .read _ => do
    match (← get).input with
    | [] => undefined
    | v :: rest => do
      modify fun s => { s with input := rest }
      return some (.int v)
  | _ + 1, _, .var n x slot => do
    if n.ty.any Ty.isArray then return none
    return some (← fetch (slot.cell x 0))
  | fuel + 1, depth, .assign _ target e => do
    let c ← place p order fuel depth target
    let v ← needed (← value p order fuel depth e)
    assign c v
    return some v
  | fuel + 1, depth, .binary _ op left right => do
    let x ← needed (← value p order fuel depth left)
    let y ← needed (← value p order fuel depth right)
    return some (← combine order op x y)
  | fuel + 1, depth, .unary _ .neg e => do
    let x ← integer (← value p order fuel depth e)
    return some (.int (-x))
  | fuel + 1, depth, .index n base i => do
    let c ← place p order fuel depth (.index n base i)
    if n.ty = some .void then return none
    return some (← fetch c)
  | _ + 1, 0, .call .. => throw .outOfFuel
  | fuel + 1, depth + 1, .call _ x args => do
    let vs ← arguments p order fuel (depth + 1) args
    match p.functions.find? (·.name == x) with
    | none => stuck
    | some f => do
      let before := (← get).cells
      modify fun s => { s with cells := enter before vs }
      let result ← block p order fuel depth f.body
      modify fun s => { s with cells := leave before s.cells }
      return if f.result = .void then none else result.join
  | _ + 1, _, .name .. | _ + 1, _, .decay .. | _ + 1, _, .unary _ .address _
  | _ + 1, _, .unary _ .deref _ => stuck
  termination_by structural fuel => fuel

/-- The cell that an expression names. An index is checked against the bounds of its array when
it is evaluated. -/
def place (p : Program) (order : String → Int64) : Nat → Nat → Expr → Run Cell
  | 0, _, _ => throw .outOfFuel
  | _ + 1, _, .var _ x slot => return slot.cell x 0
  | fuel + 1, depth, .index _ (.var n x slot) e =>
    match n.ty with
    | some (.array _ length) => do
      let i ← integer (← value p order fuel depth e)
      if 0 ≤ i.toInt ∧ i.toInt < length.toNat then return slot.cell x i.toInt.toNat
      else throw (.fellOff (← get).output)
    | _ => stuck
  | _ + 1, _, _ => stuck
  termination_by structural fuel => fuel

/-- Arguments from left to right. -/
def arguments (p : Program) (order : String → Int64) : Nat → Nat → List Expr → Run (List Value)
  | 0, _, _ => throw .outOfFuel
  | _ + 1, _, [] => return []
  | fuel + 1, depth, e :: es => do
    let v ← needed (← value p order fuel depth e)
    let vs ← arguments p order fuel depth es
    return v :: vs
  termination_by structural fuel => fuel

/-- Runs a statement. A `return` gives what it returns, which may be no value. -/
def stmt (p : Program) (order : String → Int64) : Nat → Nat → Stmt → Run (Option (Option Value))
  | 0, _, _ => throw .outOfFuel
  | fuel + 1, depth, .compound _ b => block p order fuel depth b
  | fuel + 1, depth, .ifThen _ c yes => do
    let x ← integer (← value p order fuel depth c)
    if x = 0 then return none else stmt p order fuel depth yes
  | fuel + 1, depth, .ifElse _ c yes no => do
    let x ← integer (← value p order fuel depth c)
    if x = 0 then stmt p order fuel depth no else stmt p order fuel depth yes
  | fuel + 1, depth, .whileDo l c body => do
    let x ← integer (← value p order fuel depth c)
    if x = 0 then return none
    match ← stmt p order fuel depth body with
    | none => stmt p order fuel depth (.whileDo l c body)
    | some r => return some r
  | _ + 1, _, .ret _ none => return some none
  | fuel + 1, depth, .ret _ (some e) => do
    let v ← needed (← value p order fuel depth e)
    return some (some v)
  | fuel + 1, depth, .expr _ e => do
    let _ ← value p order fuel depth e
    return none
  | fuel + 1, depth, .write _ e => do
    let v ← needed (← value p order fuel depth e)
    match written e.ty? v with
    | some o => do
      emit o
      return none
    | none => stuck
  | _ + 1, _, .writeln _ => do
    emit .newline
    return none
  termination_by structural fuel => fuel

def block (p : Program) (order : String → Int64) :
    Nat → Nat → Block → Run (Option (Option Value))
  | 0, _, _ => throw .outOfFuel
  | fuel + 1, depth, .mk _ _ ss => stmts p order fuel depth ss
  termination_by structural fuel => fuel

def stmts (p : Program) (order : String → Int64) :
    Nat → Nat → List Stmt → Run (Option (Option Value))
  | 0, _, _ => throw .outOfFuel
  | _ + 1, _, [] => return none
  | fuel + 1, depth, s :: ss => do
    match ← stmt p order fuel depth s with
    | none => stmts p order fuel depth ss
    | some r => return some r
  termination_by structural fuel => fuel

end

/-- The value that a variable of a type starts with in the memory of the program: integers are
zero, strings have none. -/
def cleared : Ty → Option Value
  | .int | .array .int _ => some (.int 0)
  | _ => none

def initial (p : Program) : Cell → Option Value
  | .global x _ => (p.globals.find? (·.name == x)).bind fun v => cleared v.ty
  | _ => none

end Semantics

namespace Program

open Semantics

/-- Runs a program from the start of its main function, with calls up to `depth` inside of each
other. -/
def interpret (p : Program) (order : String → Int64) (fuel depth : Nat) (input : List Int64) :
    Except Stop Store :=
  match p.functions.find? Function.isMain with
  | some main => Prod.snd <$> (block p order fuel depth main.body).run ⟨initial p, input, []⟩
  | none => .error .stuck

end Program

/-- How a program ends: after its main function, or with a message when an index falls off its
array. -/
def Semantics.ending? : Except Stop Store → Option Ending
  | .ok s => some ⟨0, s.output⟩
  | .error (.fellOff output) => some ⟨1, output ++ [.overflow]⟩
  | .error _ => none

end Bpl
