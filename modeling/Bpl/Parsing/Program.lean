import Bpl.Parsing
import Bpl.Tree

namespace Bpl

namespace Parsing

/-- The two levels of operators that group to the left. -/
inductive Level where
  | sum
  | product

namespace Level

def ops : Level → List BinaryOp
  | sum => [.add, .sub]
  | product => [.mul, .div, .mod]

def rank : Level → Nat
  | sum => 2
  | product => 1

theorem rank_le (level : Level) : level.rank ≤ 2 := by
  cases level <;> simp [rank]

end Level

def comparisons : List BinaryOp :=
  [.eq, .ne, .lt, .le, .gt, .ge]

/-- Takes one of the operators `ops`, for its place and itself. -/
def operator? (ops : List BinaryOp) :
    (ts : List Token) → Option (Parsed (Location × BinaryOp) ts.length) :=
  take? fun t =>
    if t.kind = .punctuator then (ops.find? (·.symbol == t.text)).map (t.location, ·) else none

/-- Takes an operator that stands before its operand. -/
def sign? : (ts : List Token) → Option (Parsed (Location × UnaryOp) ts.length) :=
  take? fun t =>
    ([.neg, .address, .deref].find? fun op : UnaryOp => t.isWord op.symbol).map (t.location, ·)

mutual

/-- An expression: an assignment, which groups to the right, or a comparison. -/
def expr (fin : Location) (ts : List Token) : Reading Expr ts.length := do
  let ⟨target, r, _⟩ ← comparison fin ts
  match accept? "=" r with
  | none => return ⟨target, r, by omega⟩
  | some ⟨l, r, _⟩ =>
    let ⟨value, r, _⟩ ← expr fin r
    return ⟨.assign (.new l) target value, r, by omega⟩
termination_by 8 * ts.length + 7
decreasing_by all_goals omega

/-- At most one comparison of two sums. -/
def comparison (fin : Location) (ts : List Token) : Reading Expr ts.length := do
  let ⟨left, r, _⟩ ← chain fin .sum ts
  match operator? comparisons r with
  | none => return ⟨left, r, by omega⟩
  | some ⟨(l, op), r, _⟩ =>
    let ⟨right, r, _⟩ ← chain fin .sum r
    return ⟨.binary (.new l) op left right, r, by omega⟩
termination_by 8 * ts.length + 6
decreasing_by all_goals simp only [Level.rank]; omega

/-- Operands joined by operators of one level. -/
def chain (fin : Location) (level : Level) (ts : List Token) : Reading Expr ts.length := do
  let ⟨left, r, _⟩ ← operand fin level ts
  let ⟨whole, r, _⟩ ← chainTail fin level left r
  return ⟨whole, r, by omega⟩
termination_by 8 * ts.length + 2 * level.rank + 1
decreasing_by all_goals have := level.rank_le; omega

/-- What may follow the operands of a chain that are read as `left`. -/
def chainTail (fin : Location) (level : Level) (left : Expr) (ts : List Token) :
    Reading Expr (ts.length + 1) :=
  match operator? level.ops ts with
  | none => .ok ⟨left, ts, by omega⟩
  | some ⟨(l, op), r, _⟩ => do
    let ⟨right, r, _⟩ ← operand fin level r
    let ⟨whole, r, _⟩ ← chainTail fin level (.binary (.new l) op left right) r
    return ⟨whole, r, by omega⟩
termination_by 8 * ts.length
decreasing_by all_goals have := level.rank_le; omega

def operand (fin : Location) (level : Level) (ts : List Token) : Reading Expr ts.length :=
  match level with
  | .sum => chain fin .product ts
  | .product => unary fin ts
termination_by 8 * ts.length + 2 * level.rank
decreasing_by all_goals simp only [Level.rank]; omega

def unary (fin : Location) (ts : List Token) : Reading Expr ts.length :=
  match sign? ts with
  | none => factor fin ts
  | some ⟨(l, op), r, _⟩ => do
    let ⟨e, r, _⟩ ← unary fin r
    return ⟨.unary (.new l) op e, r, by omega⟩
termination_by 8 * ts.length + 1
decreasing_by all_goals omega

def factor (fin : Location) (ts : List Token) : Reading Expr ts.length :=
  match ts with
  | [] => .error (unexpected fin "an expression" [])
  | t :: r =>
    if t.isWord "(" then do
      let ⟨e, r, _⟩ ← expr fin r
      let ⟨_, r, _⟩ ← expect fin ")" r
      return ⟨e, r, by simp; omega⟩
    else if t.isWord "read" then do
      let ⟨_, r, _⟩ ← expect fin "(" r
      let ⟨_, r, _⟩ ← expect fin ")" r
      return ⟨.read (.new t.location), r, by simp; omega⟩
    else match t.kind with
      | .ident => do
        let ⟨e, r, _⟩ ← named fin t.location t.text r
        return ⟨e, r, by simp; omega⟩
      | .number value => do
        let value ← valueOf t.location value
        return ⟨.number (.new t.location) value, r, by simp⟩
      | .string => .ok ⟨.string (.new t.location) t.contents, r, by simp⟩
      | .keyword | .punctuator | .eof => .error (unexpected fin "an expression" (t :: r))
termination_by 8 * ts.length
decreasing_by all_goals simp only [List.length_cons] at *; omega

/-- What may follow an identifier in an expression: arguments, an index or nothing. -/
def named (fin l : Location) (name : String) (ts : List Token) :
    Reading Expr (ts.length + 1) :=
  match accept? "(" ts with
  | some ⟨_, r, _⟩ => do
    let ⟨args, r, _⟩ ← arguments fin r
    return ⟨.call (.new l) name args, r, by omega⟩
  | none =>
    match accept? "[" ts with
    | some ⟨_, r, _⟩ => do
      let ⟨index, r, _⟩ ← expr fin r
      let ⟨_, r, _⟩ ← expect fin "]" r
      return ⟨.index (.new l) (.name (.new l) name) index, r, by omega⟩
    | none => .ok ⟨.name (.new l) name, ts, by omega⟩
termination_by 8 * ts.length + 1
decreasing_by all_goals omega

/-- The arguments of a call, with the parenthesis that closes them. -/
def arguments (fin : Location) (ts : List Token) : Reading (List Expr) ts.length :=
  match accept? ")" ts with
  | some ⟨_, r, _⟩ => .ok ⟨[], r, by omega⟩
  | none => do
    let ⟨arg, r, _⟩ ← expr fin ts
    let ⟨args, r, _⟩ ← moreArguments fin r
    return ⟨arg :: args, r, by omega⟩
termination_by 8 * ts.length + 8
decreasing_by all_goals omega

def moreArguments (fin : Location) (ts : List Token) : Reading (List Expr) ts.length :=
  match accept? "," ts with
  | some ⟨_, r, _⟩ => do
    let ⟨arg, r, _⟩ ← expr fin r
    let ⟨args, r, _⟩ ← moreArguments fin r
    return ⟨arg :: args, r, by omega⟩
  | none => do
    let ⟨_, r, _⟩ ← expect fin ")" ts
    return ⟨[], r, by omega⟩
termination_by 8 * ts.length
decreasing_by all_goals omega

end

def baseTypes : List (String × Ty) :=
  [("int", .int), ("string", .string), ("void", .void)]

/-- Takes the name of a base type, for its place and the type. -/
def baseType? : (ts : List Token) → Option (Parsed (Location × Ty) ts.length) :=
  take? fun t => (baseTypes.find? fun (w, _) => t.isWord w).map fun (_, ty) => (t.location, ty)

/-- A base type or a pointer to one, and its place. -/
def typeSpec (fin : Location) (ts : List Token) : Reading (Location × Ty) ts.length :=
  match baseType? ts with
  | none => .error (unexpected fin "a type name" ts)
  | some ⟨(l, ty), r, _⟩ =>
    match accept? "*" r with
    | none => .ok ⟨(l, ty), r, by omega⟩
    | some ⟨_, r, _⟩ => .ok ⟨(l, .pointer ty), r, by omega⟩

/-- Takes the bracket that makes a name of a base type an array. -/
def bracket? (ty : Ty) (ts : List Token) : Option (Parsed Location ts.length) :=
  if ty.isPointer then none else accept? "[" ts

/-- What follows the name of a variable: a semicolon, or the length of an array before it. -/
def variableTail (fin l : Location) (ty : Ty) (name : String) (ts : List Token) :
    Reading Variable ts.length :=
  match bracket? ty ts with
  | none => do
    let ⟨_, r, _⟩ ← expect fin ";" ts
    return ⟨⟨name, ty, l⟩, r, by omega⟩
  | some ⟨_, r, _⟩ => do
    let ⟨(m, length), r, _⟩ ← number fin r
    if length < 0 then throw (.parse m "an array size" (toString length))
    let ⟨_, r, _⟩ ← expect fin "]" r
    let ⟨_, r, _⟩ ← expect fin ";" r
    return ⟨⟨name, .array ty length.toUInt64, l⟩, r, by omega⟩

def variableDecl (fin : Location) (ts : List Token) : Reading Variable ts.length := do
  let ⟨(l, ty), r, _⟩ ← typeSpec fin ts
  let ⟨(_, name), r, _⟩ ← identifier fin r
  let ⟨v, r, _⟩ ← variableTail fin l ty name r
  return ⟨v, r, by omega⟩

/-- All declarations at the head: it goes on as long as a type begins. -/
def variableDecls (fin : Location) (ts : List Token) :
    Reading (List Variable) (ts.length + 1) :=
  match baseType? ts with
  | none => .ok ⟨[], ts, by omega⟩
  | some _ => do
    let ⟨v, r, _⟩ ← variableDecl fin ts
    let ⟨vs, r, _⟩ ← variableDecls fin r
    return ⟨v :: vs, r, by omega⟩
termination_by ts.length
decreasing_by omega

/-- An expression between parentheses. -/
def parenthesised (fin : Location) (ts : List Token) : Reading Expr ts.length := do
  let ⟨_, r, _⟩ ← expect fin "(" ts
  let ⟨e, r, _⟩ ← expr fin r
  let ⟨_, r, _⟩ ← expect fin ")" r
  return ⟨e, r, by omega⟩

/-- The words and the mark that a statement other than an expression begins with. -/
inductive Head where
  | brace
  | ifWord
  | whileWord
  | returnWord
  | writeWord
  | writelnWord

def heads : List (String × Head) :=
  [("\x7b", .brace), ("if", .ifWord), ("while", .whileWord), ("return", .returnWord),
    ("write", .writeWord), ("writeln", .writelnWord)]

/-- Takes the head of a statement, for its place and what it is. -/
def head? : (ts : List Token) → Option (Parsed (Location × Head) ts.length) :=
  take? fun t => (heads.find? fun (w, _) => t.isWord w).map fun (_, head) => (t.location, head)

mutual

/-- The inside of a block whose opening brace stands at `l`, with the brace that closes it. -/
def blockTail (fin l : Location) (ts : List Token) : Reading Block ts.length := do
  let ⟨vs, r, _⟩ ← variableDecls fin ts
  let ⟨ss, r, _⟩ ← stmts fin r
  return ⟨.mk l vs ss, r, by omega⟩
termination_by 4 * ts.length + 3
decreasing_by all_goals omega

def stmts (fin : Location) (ts : List Token) : Reading (List Stmt) ts.length :=
  match accept? "\x7d" ts with
  | some ⟨_, r, _⟩ => .ok ⟨[], r, by omega⟩
  | none => do
    let ⟨s, r, _⟩ ← stmt fin ts
    let ⟨ss, r, _⟩ ← stmts fin r
    return ⟨s :: ss, r, by omega⟩
termination_by 4 * ts.length + 2
decreasing_by all_goals omega

def stmt (fin : Location) (ts : List Token) : Reading Stmt ts.length :=
  match head? ts with
  | none => do
    let ⟨e, r, _⟩ ← expr fin ts
    let ⟨_, r, _⟩ ← expect fin ";" r
    return ⟨.expr (place fin ts) e, r, by omega⟩
  | some ⟨(l, .brace), r, _⟩ => do
    let ⟨b, r, _⟩ ← blockTail fin l r
    return ⟨.compound l b, r, by omega⟩
  | some ⟨(l, .ifWord), r, _⟩ => do
    let ⟨c, r, _⟩ ← parenthesised fin r
    let ⟨yes, r, _⟩ ← stmt fin r
    match accept? "else" r with
    | none => return ⟨.ifThen l c yes, r, by omega⟩
    | some ⟨_, r, _⟩ =>
      let ⟨no, r, _⟩ ← stmt fin r
      return ⟨.ifElse l c yes no, r, by omega⟩
  | some ⟨(l, .whileWord), r, _⟩ => do
    let ⟨c, r, _⟩ ← parenthesised fin r
    let ⟨body, r, _⟩ ← stmt fin r
    return ⟨.whileDo l c body, r, by omega⟩
  | some ⟨(l, .returnWord), r, _⟩ => do
    match accept? ";" r with
    | some ⟨_, r, _⟩ => return ⟨.ret l none, r, by omega⟩
    | none =>
      let ⟨e, r, _⟩ ← expr fin r
      let ⟨_, r, _⟩ ← expect fin ";" r
      return ⟨.ret l (some e), r, by omega⟩
  | some ⟨(l, .writeWord), r, _⟩ => do
    let ⟨e, r, _⟩ ← parenthesised fin r
    let ⟨_, r, _⟩ ← expect fin ";" r
    return ⟨.write l e, r, by omega⟩
  | some ⟨(l, .writelnWord), r, _⟩ => do
    let ⟨_, r, _⟩ ← expect fin "(" r
    let ⟨_, r, _⟩ ← expect fin ")" r
    let ⟨_, r, _⟩ ← expect fin ";" r
    return ⟨.writeln l, r, by omega⟩
termination_by 4 * ts.length + 1
decreasing_by all_goals omega

end

/-- A block, from its opening brace on. -/
def block (fin : Location) (ts : List Token) : Reading Block ts.length := do
  let ⟨l, r, _⟩ ← expect fin "\x7b" ts
  let ⟨b, r, _⟩ ← blockTail fin l r
  return ⟨b, r, by omega⟩

/-- A parameter. An array is passed as a pointer to its elements. -/
def param (fin : Location) (ts : List Token) : Reading Variable ts.length := do
  let ⟨(l, ty), r, _⟩ ← typeSpec fin ts
  let ⟨(_, name), r, _⟩ ← identifier fin r
  match bracket? ty r with
  | none => return ⟨⟨name, ty, l⟩, r, by omega⟩
  | some ⟨_, r, _⟩ =>
    let ⟨_, r, _⟩ ← expect fin "]" r
    return ⟨⟨name, .pointer ty, l⟩, r, by omega⟩

def moreParams (fin : Location) (ts : List Token) : Reading (List Variable) (ts.length + 1) :=
  match accept? "," ts with
  | none => .ok ⟨[], ts, by omega⟩
  | some ⟨_, r, _⟩ => do
    let ⟨v, r, _⟩ ← param fin r
    let ⟨vs, r, _⟩ ← moreParams fin r
    return ⟨v :: vs, r, by omega⟩
termination_by ts.length
decreasing_by omega

/-- The word `void`, or parameters between commas. -/
def params (fin : Location) (ts : List Token) : Reading (List Variable) ts.length :=
  match accept? "void" ts with
  | some ⟨_, r, _⟩ => .ok ⟨[], r, by omega⟩
  | none => do
    let ⟨v, r, _⟩ ← param fin ts
    let ⟨vs, r, _⟩ ← moreParams fin r
    return ⟨v :: vs, r, by omega⟩

def decl (fin : Location) (ts : List Token) : Reading Decl ts.length := do
  let ⟨(l, ty), r, _⟩ ← typeSpec fin ts
  let ⟨(_, name), r, _⟩ ← identifier fin r
  match accept? "(" r with
  | none =>
    let ⟨v, r, _⟩ ← variableTail fin l ty name r
    return ⟨.var v, r, by omega⟩
  | some ⟨_, r, _⟩ =>
    let ⟨ps, r, _⟩ ← params fin r
    let ⟨_, r, _⟩ ← expect fin ")" r
    let ⟨body, r, _⟩ ← block fin r
    return ⟨.function ⟨name, ty, ps, body, l, []⟩, r, by omega⟩

/-- Declarations up to the first end token or the end of the list. -/
def decls (fin : Location) (ts : List Token) : Except Diagnostic (List Decl) :=
  match ts with
  | [] => .ok []
  | t :: r =>
    if t.kind = .eof then .ok []
    else do
      let ⟨d, r', _⟩ ← decl fin (t :: r)
      let ds ← decls fin r'
      return d :: ds
termination_by ts.length
decreasing_by simp only [List.length_cons] at *; omega

end Parsing

/-- The program that a list of tokens spells. What is missing at the end of the list is reported
at its last token. -/
def parse (ts : List Token) : Except Diagnostic Program :=
  Parsing.decls ((ts.getLast?.map Token.location).getD default) ts

end Bpl
