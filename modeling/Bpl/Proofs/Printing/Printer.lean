import Bpl.Proofs.Typing.Plain

namespace Bpl

namespace Token

/-- A word of the language or a mark, which stands nowhere yet. -/
def ofWord (w : String) : Token :=
  ⟨if w ∈ keywords then .keyword else .punctuator, w, 0, .first⟩

def ofName (x : String) : Token :=
  ⟨.ident, x, 0, .first⟩

def ofNumber (v : Int64) : Token :=
  ⟨.number (some v), toString v.toNatClampNeg, 0, .first⟩

def ofString (contents : String) : Token :=
  ⟨.string, String.ofList ('"' :: contents.toList ++ ['"']), 0, .first⟩

theorem isWord_ofWord (w : String) : (ofWord w).isWord w = true := by
  by_cases h : w ∈ keywords <;> simp [ofWord, isWord, h]

theorem isOperator_ofWord (op : BinaryOp) : (ofWord op.symbol).isOperator op := by
  cases op <;> exact ⟨rfl, rfl⟩

theorem contents_ofString (s : String) : (ofString s).contents = s := by
  simp [ofString, contents]

end Token

open Token (ofWord ofName ofNumber ofString)

/-- How tightly an operator holds its operands together. -/
def BinaryOp.strength : BinaryOp → Nat
  | eq | ne | lt | le | gt | ge => 1
  | add | sub => 2
  | mul | div | mod => 3

/-- What the left operand has to hold together with. Sums and products group to the left, and
comparisons do not group. -/
def BinaryOp.leftStrength (op : BinaryOp) : Nat :=
  if op.isComparison then op.strength + 1 else op.strength

namespace Expr

/-- How tightly an expression holds together: from an assignment, which any operator parts, to a
factor, which none does. -/
def strength : Expr → Nat
  | .assign .. => 0
  | .binary _ op _ _ => op.strength
  | .unary .. => 4
  | .number .. | .string .. | .read _ | .name .. | .var .. | .decay .. | .index .. | .call .. => 5

/-- Puts an expression that is spelled `us` between parentheses where it holds together less than
it has to. -/
def guarded (least : Nat) (e : Expr) (us : List Token) : List Token :=
  if e.strength < least then ofWord "(" :: us ++ [ofWord ")"] else us

end Expr

mutual

/-- The tokens of an expression, with the parentheses that it cannot do without. -/
def Expr.spelling : Expr → List Token
  | .number _ v => [ofNumber v]
  | .string _ s => [ofString s]
  | .read _ => [ofWord "read", ofWord "(", ofWord ")"]
  | .name _ x | .var _ x _ | .decay _ x _ => [ofName x]
  | .assign _ target value => target.guarded 1 target.spelling ++ ofWord "=" :: value.spelling
  | .binary _ op left right =>
    left.guarded op.leftStrength left.spelling ++
      ofWord op.symbol :: right.guarded (op.strength + 1) right.spelling
  | .unary _ op e => ofWord op.symbol :: e.guarded 4 e.spelling
  | .index _ base i => base.guarded 5 base.spelling ++ ofWord "[" :: i.spelling ++ [ofWord "]"]
  | .call _ f args => ofName f :: ofWord "(" :: Expr.spellingOfList args ++ [ofWord ")"]

/-- Expressions between commas. -/
def Expr.spellingOfList : List Expr → List Token
  | [] => []
  | e :: es => e.spelling ++ Expr.spellingOfMore es

def Expr.spellingOfMore : List Expr → List Token
  | [] => []
  | e :: es => ofWord "," :: e.spelling ++ Expr.spellingOfMore es

end

/-- What stands in front of a name that has a type. -/
def Ty.spelling : Ty → List Token
  | .int => [ofWord "int"]
  | .string => [ofWord "string"]
  | .void => [ofWord "void"]
  | .pointer t => t.spelling ++ [ofWord "*"]
  | .array t _ => t.spelling
  | .function _ r => r.spelling

namespace Variable

/-- What stands behind the name of a variable that has a type. -/
def lengthSpelling : Ty → List Token
  | .array _ n => [ofWord "[", ofNumber n.toInt64, ofWord "]"]
  | _ => []

theorem lengthSpelling_of_isSpec {ty : Ty} (h : ty.isSpec = true) : lengthSpelling ty = [] := by
  cases ty with
  | array => cases h
  | _ => rfl

def spelling (v : Variable) : List Token :=
  v.ty.spelling ++ ofName v.name :: lengthSpelling v.ty ++ [ofWord ";"]

def paramSpelling (v : Variable) : List Token :=
  v.ty.spelling ++ [ofName v.name]

/-- Parameters between commas, or the word `void` where there are none. -/
def paramsSpelling : List Variable → List Token
  | [] => [ofWord "void"]
  | v :: vs => v.paramSpelling ++ vs.flatMap fun v => ofWord "," :: v.paramSpelling

end Variable

mutual

def Stmt.spelling : Stmt → List Token
  | .compound _ b => b.spelling
  | .ifThen _ e yes => ofWord "if" :: ofWord "(" :: e.spelling ++ ofWord ")" :: yes.spelling
  | .ifElse _ e yes no =>
    ofWord "if" :: ofWord "(" :: e.spelling ++ ofWord ")" :: yes.spelling ++
      ofWord "else" :: no.spelling
  | .whileDo _ e body =>
    ofWord "while" :: ofWord "(" :: e.spelling ++ ofWord ")" :: body.spelling
  | .ret _ none => [ofWord "return", ofWord ";"]
  | .ret _ (some e) => ofWord "return" :: e.spelling ++ [ofWord ";"]
  | .expr _ e => e.spelling ++ [ofWord ";"]
  | .write _ e => ofWord "write" :: ofWord "(" :: e.spelling ++ [ofWord ")", ofWord ";"]
  | .writeln _ => [ofWord "writeln", ofWord "(", ofWord ")", ofWord ";"]

def Block.spelling : Block → List Token
  | .mk _ vs ss =>
    ofWord "\x7b" :: vs.flatMap Variable.spelling ++ Stmt.spellingOfList ss ++ [ofWord "\x7d"]

def Stmt.spellingOfList : List Stmt → List Token
  | [] => []
  | s :: ss => s.spelling ++ Stmt.spellingOfList ss

end

def Function.spelling (f : Function) : List Token :=
  f.result.spelling ++ ofName f.name :: ofWord "(" :: Variable.paramsSpelling f.params ++
    ofWord ")" :: f.body.spelling

def Decl.spelling : Decl → List Token
  | .var v => v.spelling
  | .function f => f.spelling

namespace Program

/-- The tokens of a program, without any that it can do without. -/
def spelling (p : Program) : List Token :=
  p.flatMap Decl.spelling

/-- The text of a program, with a blank between its tokens. -/
def print (p : Program) : String :=
  " ".intercalate (p.spelling.map Token.text)

end Program

end Bpl
