import Bpl.Parsing.Program
import Bpl.Scanner

namespace Bpl

/-- A token that only says where in its source it stands. -/
structure TokenRange where
  kind : Token.Kind
  start : Nat
  length : Nat
  location : Location

namespace TokenRange

variable (source : String) (t : TokenRange)

def slice? : Option (List Char) :=
  Bpl.slice? source.toList t.start (t.start + t.length)

/-- The text of a token, if the source can be cut at both ends of its range. -/
def text? : Option String :=
  (t.slice? source).map String.ofList

/-- How a diagnostic names the token. -/
def describe? : Option String :=
  if t.kind = .eof then some "EOF" else t.text? source

/-- The text of a token without its first and its last byte. -/
def contents? : Option String := do
  let text ← t.slice? source
  return String.ofList (← Bpl.slice? text 1 (byteLength text - 1))

/-- The token with its text. -/
def token : Token :=
  ⟨t.kind, Token.slice source t.start t.length, t.start, t.location⟩

end TokenRange

/-- A walk over tokens that are known by their numbers: from the number of the next one to a result
and the number of the next one then, or to a diagnostic. It comes to nothing where a text cannot be
cut out of the source, and where calls are nested too deep. -/
def Descent (α : Type) : Type :=
  Nat → Option (Except Diagnostic (α × Nat))

namespace Descent

variable {α β : Type}

instance : Monad Descent where
  pure a := fun pos => some (.ok (a, pos))
  bind x f := fun pos =>
    match x pos with
    | none => none
    | some (.error d) => some (.error d)
    | some (.ok (a, pos)) => f a pos

theorem bind_of_ok {x : Descent α} {f : α → Descent β} {a : α} {pos next : Nat}
    (h : x pos = some (.ok (a, next))) : (x >>= f) pos = f a next := by
  simp only [bind, h]

theorem bind_of_error {x : Descent α} {f : α → Descent β} {pos : Nat} {d : Diagnostic}
    (h : x pos = some (.error d)) : (x >>= f) pos = some (.error d) := by
  simp only [bind, h]

theorem ite_of_true {x : Descent Bool} {yes no : Descent α} {pos next : Nat}
    (h : x pos = some (.ok (true, next))) :
    (x >>= fun b => if b = true then yes else no) pos = yes next :=
  bind_of_ok h

theorem ite_of_false {x : Descent Bool} {yes no : Descent α} {pos next : Nat}
    (h : x pos = some (.ok (false, next))) :
    (x >>= fun b => if b = true then yes else no) pos = no next :=
  bind_of_ok h

def fail (d : Diagnostic) : Descent α :=
  fun _ => some (.error d)

/-- A text that was cut out of the source. -/
def cut (x : Option α) : Descent α :=
  fun pos => x.map fun a => .ok (a, pos)

def advance : Descent Unit :=
  fun pos => some (.ok ((), pos + 1))

end Descent

/-- Tokens and the source where they stand. -/
structure TokenStream where
  source : String
  tokens : List TokenRange

namespace TokenStream

open Descent
open Parsing (Level Head)

section tokens

variable {α : Type} (s : TokenStream)

def peek : Descent (Option TokenRange) :=
  fun pos => some (.ok (s.tokens[pos]?, pos))

/-- The text of the next token, if it is of one of these kinds. -/
def peekAmong (kinds : List Token.Kind) : Descent (Option String) := do
  match ← s.peek with
  | none => return none
  | some t => if t.kind ∈ kinds then return some (← cut (t.text? s.source)) else return none

def peekText : Descent (Option String) :=
  s.peekAmong [.punctuator, .keyword]

def peekPunct : Descent (Option String) :=
  s.peekAmong [.punctuator]

/-- The place of the next token, or of the last one behind it. -/
def location : Descent Location := do
  match ← s.peek with
  | none => return (s.tokens.getLast?.map TokenRange.location).getD default
  | some t => return t.location

/-- The next token is not what is `expected`. -/
def unexpected (expected : String) : Descent α := do
  let l ← s.location
  match ← s.peek with
  | none => fail (.parse l expected "EOF")
  | some t => fail (.parse l expected (← cut (t.describe? s.source)))

/-- Takes the next token if it is this mark or keyword. -/
def equal (w : String) : Descent Bool := do
  if (← s.peekText) = some w then
    advance
    return true
  else return false

def skip (w : String) : Descent Unit := do
  if ← s.equal w then return () else s.unexpected (quoted w)

def number : Descent (Location × Int64) := do
  match ← s.peek with
  | none => s.unexpected "a number"
  | some t =>
    match t.kind with
    | .number value => do
      match value with
      | none => fail (.scan t.location .numberWithoutValue)
      | some value =>
        advance
        return (t.location, value)
    | .ident | .keyword | .punctuator | .string | .eof => s.unexpected "a number"

def identifier : Descent (Location × String) := do
  match ← s.peek with
  | none => s.unexpected "an identifier"
  | some t =>
    if t.kind = .ident then
      let name ← cut (t.text? s.source)
      advance
      return (t.location, name)
    else s.unexpected "an identifier"

def string : Descent String := do
  match ← s.peek with
  | none => s.unexpected "a string literal"
  | some t =>
    if t.kind = .string then
      let value ← cut (t.contents? s.source)
      advance
      return value
    else s.unexpected "a string literal"

def baseType : Descent Ty := do
  if ← s.equal "int" then return .int
  else if ← s.equal "string" then return .string
  else if ← s.equal "void" then return .void
  else s.unexpected "a type name"

/-- Takes the bracket that makes a name of a base type an array. -/
def bracket (ty : Ty) : Descent Bool :=
  if ty.isPointer then return false else s.equal "["

/-- Whether the next token is an end token, or there is none. -/
def isEnd : Descent Bool := do
  match ← s.peek with
  | none => return true
  | some t => return t.kind = .eof

end tokens

def comparisonOf : String → Option BinaryOp
  | "==" => some .eq
  | "!=" => some .ne
  | "<" => some .lt
  | "<=" => some .le
  | ">" => some .gt
  | ">=" => some .ge
  | _ => none

def operatorOf : Level → String → Option BinaryOp
  | .sum, "+" => some .add
  | .sum, "-" => some .sub
  | .product, "*" => some .mul
  | .product, "/" => some .div
  | .product, "%" => some .mod
  | _, _ => none

def headOf : String → Option Head
  | "\x7b" => some .brace
  | "if" => some .ifWord
  | "while" => some .whileWord
  | "return" => some .returnWord
  | "write" => some .writeWord
  | "writeln" => some .writelnWord
  | _ => none

/-- The procedures of the parser, and its loops, with the type of what they return. -/
inductive Procedure : Type → Type
  | declarations : Procedure (List Decl)
  | typeSpec : Procedure (Location × Ty)
  | declaration : Procedure Decl
  | variableTail (l : Location) (ty : Ty) (name : String) : Procedure Variable
  | localDeclaration : Procedure Variable
  | params : Procedure (List Variable)
  | moreParams : Procedure (List Variable)
  | param : Procedure Variable
  | compound : Procedure Block
  | localDeclarations : Procedure (List Variable)
  | statements : Procedure (List Stmt)
  | statement : Procedure Stmt
  | condition : Procedure Expr
  | expression : Procedure Expr
  | assignment : Procedure Expr
  | comparison : Procedure Expr
  | chain (level : Level) : Procedure Expr
  | chainTail (level : Level) (left : Expr) : Procedure Expr
  | unary : Procedure Expr
  | factor : Procedure Expr
  | arguments : Procedure (List Expr)
  | moreArguments : Procedure (List Expr)

/-- The operands of a level of operators. -/
def operand : Level → Procedure Expr
  | .sum => .chain .product
  | .product => .unary

variable (s : TokenStream)

/-- What a procedure does, with `call` for the procedures that it calls. A loop calls itself for
each further turn. -/
def body (call : {β : Type} → Procedure β → Descent β) : {α : Type} → Procedure α → Descent α
  | _, .declarations => do
    if ← s.isEnd then return []
    let d ← call .declaration
    let ds ← call .declarations
    return d :: ds
  | _, .typeSpec => do
    let l ← s.location
    let base ← s.baseType
    if ← s.equal "*" then return (l, .pointer base) else return (l, base)
  | _, .declaration => do
    let (l, ty) ← call .typeSpec
    let (_, name) ← s.identifier
    if ← s.equal "(" then
      let ps ← call .params
      s.skip ")"
      let b ← call .compound
      return .function ⟨name, ty, ps, b, l, []⟩
    else return .var (← call (.variableTail l ty name))
  | _, .variableTail l ty name => do
    if ← s.bracket ty then
      let (m, length) ← s.number
      if length < 0 then fail (.parse m "an array size" (toString length))
      else
        s.skip "]"
        s.skip ";"
        return ⟨name, .array ty length.toUInt64, l⟩
    else
      s.skip ";"
      return ⟨name, ty, l⟩
  | _, .localDeclaration => do
    let (l, ty) ← call .typeSpec
    let (_, name) ← s.identifier
    call (.variableTail l ty name)
  | _, .params => do
    if ← s.equal "void" then return []
    let v ← call .param
    let vs ← call .moreParams
    return v :: vs
  | _, .moreParams => do
    if ← s.equal "," then
      let v ← call .param
      let vs ← call .moreParams
      return v :: vs
    else return []
  | _, .param => do
    let (l, ty) ← call .typeSpec
    let (_, name) ← s.identifier
    if ← s.bracket ty then
      s.skip "]"
      return ⟨name, .pointer ty, l⟩
    else return ⟨name, ty, l⟩
  | _, .compound => do
    let l ← s.location
    s.skip "\x7b"
    let vs ← call .localDeclarations
    let ss ← call .statements
    return .mk l vs ss
  | _, .localDeclarations => do
    if (← s.peekText) ∈ [some "int", some "string", some "void"] then
      let v ← call .localDeclaration
      let vs ← call .localDeclarations
      return v :: vs
    else return []
  | _, .statements => do
    if ← s.equal "\x7d" then return []
    let x ← call .statement
    let xs ← call .statements
    return x :: xs
  | _, .statement => do
    let l ← s.location
    match (← s.peekText).bind headOf with
    | some .brace => return .compound l (← call .compound)
    | some .ifWord =>
      s.skip "if"
      let c ← call .condition
      let yes ← call .statement
      if ← s.equal "else" then return .ifElse l c yes (← call .statement)
      else return .ifThen l c yes
    | some .whileWord =>
      s.skip "while"
      let c ← call .condition
      return .whileDo l c (← call .statement)
    | some .returnWord =>
      s.skip "return"
      if ← s.equal ";" then return .ret l none
      else
        let e ← call .expression
        s.skip ";"
        return .ret l (some e)
    | some .writeWord =>
      s.skip "write"
      s.skip "("
      let e ← call .expression
      s.skip ")"
      s.skip ";"
      return .write l e
    | some .writelnWord =>
      s.skip "writeln"
      s.skip "("
      s.skip ")"
      s.skip ";"
      return .writeln l
    | none =>
      let e ← call .expression
      s.skip ";"
      return .expr l e
  | _, .condition => do
    s.skip "("
    let e ← call .expression
    s.skip ")"
    return e
  | _, .expression => call .assignment
  | _, .assignment => do
    let target ← call .comparison
    let l ← s.location
    if ← s.equal "=" then return .assign (.new l) target (← call .assignment)
    else return target
  | _, .comparison => do
    let left ← call (.chain .sum)
    match (← s.peekPunct).bind comparisonOf with
    | none => return left
    | some op =>
      let l ← s.location
      s.skip op.symbol
      return .binary (.new l) op left (← call (.chain .sum))
  | _, .chain level => do
    let left ← call (operand level)
    call (.chainTail level left)
  | _, .chainTail level left => do
    match (← s.peekPunct).bind (operatorOf level) with
    | none => return left
    | some op =>
      let l ← s.location
      s.skip op.symbol
      let right ← call (operand level)
      call (.chainTail level (.binary (.new l) op left right))
  | _, .unary => do
    let l ← s.location
    if ← s.equal "-" then return .unary (.new l) .neg (← call .unary)
    else if ← s.equal "&" then return .unary (.new l) .address (← call .unary)
    else if ← s.equal "*" then return .unary (.new l) .deref (← call .unary)
    else call .factor
  | _, .factor => do
    let l ← s.location
    if ← s.equal "(" then
      let e ← call .expression
      s.skip ")"
      return e
    else if ← s.equal "read" then
      s.skip "("
      s.skip ")"
      return .read (.new l)
    else
      match (← s.peek).map TokenRange.kind with
      | some .ident =>
        let (l, name) ← s.identifier
        if ← s.equal "(" then return .call (.new l) name (← call .arguments)
        else if ← s.equal "[" then
          let index ← call .expression
          s.skip "]"
          return .index (.new l) (.name (.new l) name) index
        else return .name (.new l) name
      | some (.number _) =>
        let (l, value) ← s.number
        return .number (.new l) value
      | some .string => return .string (.new l) (← s.string)
      | some .keyword | some .punctuator | some .eof | none => s.unexpected "an expression"
  | _, .arguments => do
    if ← s.equal ")" then return []
    let e ← call .expression
    let es ← call .moreArguments
    return e :: es
  | _, .moreArguments => do
    if ← s.equal "," then
      let e ← call .expression
      let es ← call .moreArguments
      return e :: es
    else
      s.skip ")"
      return []

/-- A procedure with calls, its own among them, that are nested at most `depth` deep. -/
def run : Nat → {α : Type} → Procedure α → Descent α
  | 0, _, _ => fun _ => none
  | depth + 1, _, p => s.body (run depth) p

end TokenStream

end Bpl
