import Bpl.Parsing.Program
import Bpl.Proofs.Tree.Nodes

namespace Bpl

/-- A token that is the mark of an operator between its operands. -/
def Token.isOperator (t : Token) (op : BinaryOp) : Prop :=
  t.kind = .punctuator ∧ t.text = op.symbol

/-- A token that names a base type. -/
def Token.isBaseType (t : Token) (ty : Ty) : Prop :=
  ∃ w, (w, ty) ∈ Parsing.baseTypes ∧ t.isWord w = true

/-- A statement that ends with an `if` that an `else` could still follow. -/
def Stmt.isOpen : Stmt → Bool
  | .ifThen .. => true
  | .ifElse _ _ _ no => no.isOpen
  | .whileDo _ _ body => body.isOpen
  | .compound .. | .ret .. | .expr .. | .write .. | .writeln _ => false

namespace Grammar

open Parsing (Level comparisons)

mutual

/-- `Assignment us e`: the tokens `us` spell the expression `e`. An assignment groups to the
right and is found at its mark. -/
inductive Assignment : List Token → Expr → Prop
  | comparison {us : List Token} {e : Expr} : Comparison us e → Assignment us e
  | assign {us vs : List Token} {t : Token} {target value : Expr} :
      Comparison us target → t.isWord "=" = true → Assignment vs value →
        Assignment (us ++ t :: vs) (.assign (.new t.location) target value)

/-- At most one comparison of two sums. -/
inductive Comparison : List Token → Expr → Prop
  | sum {us : List Token} {e : Expr} : Chain .sum us e → Comparison us e
  | compare {us vs : List Token} {t : Token} {op : BinaryOp} {left right : Expr} :
      Chain .sum us left → op ∈ comparisons → t.isOperator op → Chain .sum vs right →
        Comparison (us ++ t :: vs) (.binary (.new t.location) op left right)

/-- Operands of one level, grouped to the left. An operation is found at its operator. -/
inductive Chain : Level → List Token → Expr → Prop
  | operand {level : Level} {us : List Token} {e : Expr} : Operand level us e → Chain level us e
  | more {level : Level} {us vs : List Token} {t : Token} {op : BinaryOp} {left right : Expr} :
      Chain level us left → op ∈ level.ops → t.isOperator op → Operand level vs right →
        Chain level (us ++ t :: vs) (.binary (.new t.location) op left right)

/-- Products are the operands of sums. -/
inductive Operand : Level → List Token → Expr → Prop
  | product {us : List Token} {e : Expr} : Chain .product us e → Operand .sum us e
  | signed {us : List Token} {e : Expr} : Signed us e → Operand .product us e

/-- A factor behind any number of signs. -/
inductive Signed : List Token → Expr → Prop
  | factor {us : List Token} {e : Expr} : Factor us e → Signed us e
  | sign {us : List Token} {t : Token} {op : UnaryOp} {e : Expr} :
      t.isWord op.symbol = true → Signed us e →
        Signed (t :: us) (.unary (.new t.location) op e)

/-- An index or arguments stand directly after an identifier only. -/
inductive Factor : List Token → Expr → Prop
  | parentheses {us : List Token} {o c : Token} {e : Expr} :
      o.isWord "(" = true → Assignment us e → c.isWord ")" = true → Factor (o :: us ++ [c]) e
  | read {t o c : Token} :
      t.isWord "read" = true → o.isWord "(" = true → c.isWord ")" = true →
        Factor [t, o, c] (.read (.new t.location))
  | number {t : Token} {v : Int64} :
      t.kind = .number (some v) → Factor [t] (.number (.new t.location) v)
  | string {t : Token} : t.kind = .string → Factor [t] (.string (.new t.location) t.contents)
  | name {t : Token} : t.kind = .ident → Factor [t] (.name (.new t.location) t.text)
  | index {us : List Token} {t o c : Token} {e : Expr} :
      t.kind = .ident → o.isWord "[" = true → Assignment us e → c.isWord "]" = true →
        Factor (t :: o :: us ++ [c])
          (.index (.new t.location) (.name (.new t.location) t.text) e)
  | call {us : List Token} {t o c : Token} {es : List Expr} :
      t.kind = .ident → o.isWord "(" = true → Arguments us es → c.isWord ")" = true →
        Factor (t :: o :: us ++ [c]) (.call (.new t.location) t.text es)

/-- Expressions between commas. -/
inductive Arguments : List Token → List Expr → Prop
  | nil : Arguments [] []
  | cons {us vs : List Token} {e : Expr} {es : List Expr} :
      Assignment us e → MoreArguments vs es → Arguments (us ++ vs) (e :: es)

inductive MoreArguments : List Token → List Expr → Prop
  | nil : MoreArguments [] []
  | cons {us vs : List Token} {t : Token} {e : Expr} {es : List Expr} :
      t.isWord "," = true → Assignment us e → MoreArguments vs es →
        MoreArguments (t :: us ++ vs) (e :: es)

end

/-- A base type or a pointer to one. -/
inductive TypeSpec : List Token → Location → Ty → Prop
  | base {t : Token} {ty : Ty} : t.isBaseType ty → TypeSpec [t] t.location ty
  | pointer {t s : Token} {ty : Ty} :
      t.isBaseType ty → s.isWord "*" = true → TypeSpec [t, s] t.location (.pointer ty)

/-- The declaration of a variable. The elements of an array have a base type. -/
inductive VariableDecl : List Token → Variable → Prop
  | scalar {us : List Token} {l : Location} {ty : Ty} {x s : Token} :
      TypeSpec us l ty → x.kind = .ident → s.isWord ";" = true →
        VariableDecl (us ++ [x, s]) ⟨x.text, ty, l⟩
  | array {t x o m c s : Token} {ty : Ty} {length : Int64} :
      t.isBaseType ty → x.kind = .ident → o.isWord "[" = true →
      m.kind = .number (some length) → 0 ≤ length → c.isWord "]" = true →
      s.isWord ";" = true →
        VariableDecl [t, x, o, m, c, s] ⟨x.text, .array ty length.toUInt64, t.location⟩

inductive VariableDecls : List Token → List Variable → Prop
  | nil : VariableDecls [] []
  | cons {us vs : List Token} {v : Variable} {ds : List Variable} :
      VariableDecl us v → VariableDecls vs ds → VariableDecls (us ++ vs) (v :: ds)

mutual

/-- A statement. An `else` belongs to the nearest `if` that has none. -/
inductive Statement : List Token → Stmt → Prop
  | compound {us : List Token} {b : Bpl.Block} :
      Block us b → Statement us (.compound b.location b)
  | ifThen {us vs : List Token} {t o c : Token} {e : Expr} {yes : Stmt} :
      t.isWord "if" = true → o.isWord "(" = true → Assignment us e → c.isWord ")" = true →
      Statement vs yes →
        Statement (t :: o :: us ++ c :: vs) (.ifThen t.location e yes)
  | ifElse {us vs ws : List Token} {t o c w : Token} {e : Expr} {yes no : Stmt} :
      t.isWord "if" = true → o.isWord "(" = true → Assignment us e → c.isWord ")" = true →
      Statement vs yes → yes.isOpen = false → w.isWord "else" = true → Statement ws no →
        Statement (t :: o :: us ++ c :: vs ++ w :: ws) (.ifElse t.location e yes no)
  | whileDo {us vs : List Token} {t o c : Token} {e : Expr} {body : Stmt} :
      t.isWord "while" = true → o.isWord "(" = true → Assignment us e →
      c.isWord ")" = true → Statement vs body →
        Statement (t :: o :: us ++ c :: vs) (.whileDo t.location e body)
  | retNone {t s : Token} :
      t.isWord "return" = true → s.isWord ";" = true → Statement [t, s] (.ret t.location none)
  | retSome {us : List Token} {t s : Token} {e : Expr} :
      t.isWord "return" = true → Assignment us e → s.isWord ";" = true →
        Statement (t :: us ++ [s]) (.ret t.location (some e))
  | write {us : List Token} {t o c s : Token} {e : Expr} :
      t.isWord "write" = true → o.isWord "(" = true → Assignment us e →
      c.isWord ")" = true → s.isWord ";" = true →
        Statement (t :: o :: us ++ [c, s]) (.write t.location e)
  | writeln {t o c s : Token} :
      t.isWord "writeln" = true → o.isWord "(" = true → c.isWord ")" = true →
      s.isWord ";" = true → Statement [t, o, c, s] (.writeln t.location)
  | expr {us : List Token} {t s : Token} {e : Expr} :
      Assignment (t :: us) e → s.isWord ";" = true →
        Statement (t :: us ++ [s]) (.expr t.location e)

/-- Declarations before statements. -/
inductive Block : List Token → Bpl.Block → Prop
  | mk {us vs : List Token} {o c : Token} {ds : List Variable} {ss : List Stmt} :
      o.isWord "\x7b" = true → VariableDecls us ds → Statements vs ss →
      c.isWord "\x7d" = true → Block (o :: us ++ vs ++ [c]) (.mk o.location ds ss)

inductive Statements : List Token → List Stmt → Prop
  | nil : Statements [] []
  | cons {us vs : List Token} {s : Stmt} {ss : List Stmt} :
      Statement us s → Statements vs ss → Statements (us ++ vs) (s :: ss)

end

/-- A parameter. An array is a pointer to its elements. -/
inductive Param : List Token → Variable → Prop
  | scalar {us : List Token} {l : Location} {ty : Ty} {x : Token} :
      TypeSpec us l ty → x.kind = .ident → Param (us ++ [x]) ⟨x.text, ty, l⟩
  | array {t x o c : Token} {ty : Ty} :
      t.isBaseType ty → x.kind = .ident → o.isWord "[" = true → c.isWord "]" = true →
        Param [t, x, o, c] ⟨x.text, .pointer ty, t.location⟩

inductive MoreParams : List Token → List Variable → Prop
  | nil : MoreParams [] []
  | cons {us vs : List Token} {t : Token} {v : Variable} {ps : List Variable} :
      t.isWord "," = true → Param us v → MoreParams vs ps →
        MoreParams (t :: us ++ vs) (v :: ps)

/-- The word `void`, or parameters between commas of which the first does not begin with it. -/
inductive Params : List Token → List Variable → Prop
  | void {t : Token} : t.isWord "void" = true → Params [t] []
  | list {us vs : List Token} {t : Token} {v : Variable} {ps : List Variable} :
      t.isWord "void" = false → Param (t :: us) v → MoreParams vs ps →
        Params (t :: us ++ vs) (v :: ps)

inductive Declaration : List Token → Decl → Prop
  | var {us : List Token} {v : Variable} : VariableDecl us v → Declaration us (.var v)
  | function {us vs ws : List Token} {l : Location} {ty : Ty} {x o c : Token}
      {ps : List Variable} {b : Bpl.Block} :
      TypeSpec us l ty → x.kind = .ident → o.isWord "(" = true → Params vs ps →
      c.isWord ")" = true → Block ws b →
        Declaration (us ++ x :: o :: vs ++ c :: ws) (.function ⟨x.text, ty, ps, b, l, []⟩)

/-- `Program us p`: the tokens `us` spell the program `p`. -/
inductive Program : List Token → Bpl.Program → Prop
  | nil : Program [] []
  | cons {us vs : List Token} {d : Decl} {ds : Bpl.Program} :
      Declaration us d → Program vs ds → Program (us ++ vs) (d :: ds)

end Grammar

end Bpl
