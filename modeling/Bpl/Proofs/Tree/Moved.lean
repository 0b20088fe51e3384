import Mathlib
import Bpl.Token
import Bpl.Tree
import Bpl.Diagnostic

namespace Bpl

/-- A way to put what stands at places of a text at other places. -/
structure Relocation where
  place : Location → Location
  start : Nat → Nat

namespace Relocation

/-- All stays where it is. -/
def stay : Relocation :=
  ⟨id, id⟩

/-- All goes to the start of the text. -/
def gather : Relocation :=
  ⟨fun _ => .first, fun _ => 0⟩

end Relocation

/-- Things that hold places of a text, which can be changed. -/
class Movable (α : Type) where
  moved : Relocation → α → α

export Movable (moved)

section

variable {α β : Type} [Movable α] [Movable β]

instance : Movable Location := ⟨fun m l => m.place l⟩

instance : Movable Int64 := ⟨fun _ => id⟩

instance : Movable String := ⟨fun _ => id⟩

instance : Movable Ty := ⟨fun _ => id⟩

instance : Movable BinaryOp := ⟨fun _ => id⟩

instance : Movable UnaryOp := ⟨fun _ => id⟩

instance : Movable (α × β) := ⟨fun m => Prod.map (moved m) (moved m)⟩

instance : Movable (List α) := ⟨fun m => List.map (moved m)⟩

instance : Movable (Option α) := ⟨fun m => Option.map (moved m)⟩

theorem moved_mk (m : Relocation) (a : α) (b : β) : moved m (a, b) = (moved m a, moved m b) := rfl

theorem moved_ty (m : Relocation) (ty : Ty) : moved m ty = ty := rfl

end

instance : Movable Token where
  moved m t := { t with start := m.start t.start, location := m.place t.location }

instance : Movable Note := ⟨fun m n => { n with location := m.place n.location }⟩

mutual

def Expr.moved (m : Relocation) : Expr → Expr
  | .number n v => .number (Movable.moved m n) v
  | .string n s => .string (Movable.moved m n) s
  | .read n => .read (Movable.moved m n)
  | .name n x => .name (Movable.moved m n) x
  | .var n x slot => .var (Movable.moved m n) x slot
  | .decay n x slot => .decay (Movable.moved m n) x slot
  | .assign n target value => .assign (Movable.moved m n) (target.moved m) (value.moved m)
  | .binary n op left right => .binary (Movable.moved m n) op (left.moved m) (right.moved m)
  | .unary n op e => .unary (Movable.moved m n) op (e.moved m)
  | .index n base i => .index (Movable.moved m n) (base.moved m) (i.moved m)
  | .call n x args => .call (Movable.moved m n) x (Expr.movedList m args)

def Expr.movedList (m : Relocation) : List Expr → List Expr
  | [] => []
  | e :: es => e.moved m :: Expr.movedList m es

end

instance : Movable Expr := ⟨Expr.moved⟩

theorem Expr.movedList_eq (m : Relocation) (es : List Expr) :
    Expr.movedList m es = Movable.moved m es := by
  induction es with
  | nil => rfl
  | cons e es ih =>
    rw [Expr.movedList, ih]
    rfl

instance : Movable Variable := ⟨fun m v => { v with location := m.place v.location }⟩

mutual

def Stmt.moved (m : Relocation) : Stmt → Stmt
  | .compound l b => .compound (m.place l) (b.moved m)
  | .ifThen l e yes => .ifThen (m.place l) (Movable.moved m e) (yes.moved m)
  | .ifElse l e yes no => .ifElse (m.place l) (Movable.moved m e) (yes.moved m) (no.moved m)
  | .whileDo l e body => .whileDo (m.place l) (Movable.moved m e) (body.moved m)
  | .ret l e => .ret (m.place l) (Movable.moved m e)
  | .expr l e => .expr (m.place l) (Movable.moved m e)
  | .write l e => .write (m.place l) (Movable.moved m e)
  | .writeln l => .writeln (m.place l)

def Block.moved (m : Relocation) : Block → Block
  | .mk l vs ss => .mk (m.place l) (Movable.moved m vs) (Stmt.movedList m ss)

def Stmt.movedList (m : Relocation) : List Stmt → List Stmt
  | [] => []
  | s :: ss => s.moved m :: Stmt.movedList m ss

end

instance : Movable Stmt := ⟨Stmt.moved⟩

instance : Movable Block := ⟨Block.moved⟩

theorem Stmt.movedList_eq (m : Relocation) (ss : List Stmt) :
    Stmt.movedList m ss = Movable.moved m ss := by
  induction ss with
  | nil => rfl
  | cons s ss ih =>
    rw [Stmt.movedList, ih]
    rfl

instance : Movable Function where
  moved m f :=
    { f with
      params := moved m f.params, body := moved m f.body, location := m.place f.location,
      locals := moved m f.locals }

instance : Movable Decl where
  moved m
    | .var v => .var (moved m v)
    | .function f => .function (moved m f)

instance : Movable Diagnostic where
  moved m
    | .scan l fault => .scan (m.place l) fault
    | .parse l expected found => .parse (m.place l) expected found
    | .semantic l violation => .semantic (m.place l) violation
    | .io path reason => .io path reason
    | .toolchain program reason => .toolchain program reason
    | .outputClash path => .outputClash path

section stay

theorem moved_stay_list {α : Type} [Movable α] (h : ∀ a : α, moved .stay a = a) (as : List α) :
    moved .stay as = as :=
  List.map_id'' h as

theorem moved_stay_option {α : Type} [Movable α] (h : ∀ a : α, moved .stay a = a) :
    ∀ o : Option α, moved .stay o = o
  | none => rfl
  | some a => congrArg some (h a)

mutual

theorem Expr.moved_stay : ∀ e : Expr, Movable.moved .stay e = e
  | .number .. | .string .. | .read _ | .name .. | .var .. | .decay .. => rfl
  | .assign n l r => congrArg₂ (Expr.assign n) l.moved_stay r.moved_stay
  | .binary n op l r => congrArg₂ (Expr.binary n op) l.moved_stay r.moved_stay
  | .unary n op e => congrArg (Expr.unary n op) e.moved_stay
  | .index n b i => congrArg₂ (Expr.index n) b.moved_stay i.moved_stay
  | .call n x args => congrArg (Expr.call n x) (Expr.movedList_stay args)

theorem Expr.movedList_stay : ∀ es : List Expr, Expr.movedList .stay es = es
  | [] => rfl
  | e :: es => congrArg₂ List.cons e.moved_stay (Expr.movedList_stay es)

end

theorem Variable.moved_stay (v : Variable) : Movable.moved .stay v = v := rfl

mutual

theorem Stmt.moved_stay : ∀ s : Stmt, Movable.moved .stay s = s
  | .compound l b => congrArg (Stmt.compound l) b.moved_stay
  | .ifThen l e yes => congrArg₂ (Stmt.ifThen l) e.moved_stay yes.moved_stay
  | .ifElse l e yes no => by
    change Stmt.ifElse l (Movable.moved .stay e) (Movable.moved .stay yes)
      (Movable.moved .stay no) = _
    rw [e.moved_stay, yes.moved_stay, no.moved_stay]
  | .whileDo l e body => congrArg₂ (Stmt.whileDo l) e.moved_stay body.moved_stay
  | .ret l e => congrArg (Stmt.ret l) (moved_stay_option Expr.moved_stay e)
  | .expr l e => congrArg (Stmt.expr l) e.moved_stay
  | .write l e => congrArg (Stmt.write l) e.moved_stay
  | .writeln _ => rfl

theorem Block.moved_stay : ∀ b : Block, Movable.moved .stay b = b
  | .mk l vs ss =>
    congrArg₂ (Block.mk l) (moved_stay_list Variable.moved_stay vs) (Stmt.movedList_stay ss)

theorem Stmt.movedList_stay : ∀ ss : List Stmt, Stmt.movedList .stay ss = ss
  | [] => rfl
  | s :: ss => congrArg₂ List.cons s.moved_stay (Stmt.movedList_stay ss)

end

theorem Decl.moved_stay : ∀ d : Decl, Movable.moved .stay d = d
  | .var _ => rfl
  | .function f => by
    have hvars := moved_stay_list Variable.moved_stay
    change Decl.function { f with params := _, body := _, location := f.location, locals := _ } = _
    rw [hvars, hvars, f.body.moved_stay]

theorem Token.moved_stay (t : Token) : Movable.moved .stay t = t := rfl

theorem Diagnostic.moved_stay (d : Diagnostic) : Movable.moved .stay d = d := by
  cases d <;> rfl

end stay

end Bpl
