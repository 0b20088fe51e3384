import Mathlib
import Bpl.Compile

namespace Bpl

/-- Things that hold places of a text. `unplaced` puts the start of the text for each of them. -/
class Placed (α : Type) where
  unplaced : α → α

export Placed (unplaced)

section

variable {α β : Type} [Placed α] [Placed β]

instance : Placed Location := ⟨fun _ => .first⟩

instance : Placed Unit := ⟨id⟩

instance : Placed Nat := ⟨id⟩

instance : Placed Int64 := ⟨id⟩

instance : Placed String := ⟨id⟩

instance : Placed Ty := ⟨id⟩

instance : Placed BinaryOp := ⟨id⟩

instance : Placed UnaryOp := ⟨id⟩

instance : Placed Assembly := ⟨id⟩

instance : Placed (α × β) := ⟨Prod.map unplaced unplaced⟩

instance : Placed (List α) := ⟨List.map unplaced⟩

instance : Placed (Option α) := ⟨Option.map unplaced⟩

instance : Placed (Except α β) where
  unplaced
    | .ok b => .ok (unplaced b)
    | .error a => .error (unplaced a)

end

instance : Placed Token := ⟨fun t => { t with start := 0, location := .first }⟩

instance : Placed Note := ⟨fun n => { n with location := .first }⟩

mutual

def Expr.unplaced : Expr → Expr
  | .number n v => .number (Placed.unplaced n) v
  | .string n s => .string (Placed.unplaced n) s
  | .read n => .read (Placed.unplaced n)
  | .name n x => .name (Placed.unplaced n) x
  | .var n x slot => .var (Placed.unplaced n) x slot
  | .decay n x slot => .decay (Placed.unplaced n) x slot
  | .assign n target value => .assign (Placed.unplaced n) target.unplaced value.unplaced
  | .binary n op left right => .binary (Placed.unplaced n) op left.unplaced right.unplaced
  | .unary n op e => .unary (Placed.unplaced n) op e.unplaced
  | .index n base i => .index (Placed.unplaced n) base.unplaced i.unplaced
  | .call n x args => .call (Placed.unplaced n) x (Expr.unplacedList args)

def Expr.unplacedList : List Expr → List Expr
  | [] => []
  | e :: es => e.unplaced :: Expr.unplacedList es

end

instance : Placed Expr := ⟨Expr.unplaced⟩

theorem Expr.unplacedList_eq (es : List Expr) : Expr.unplacedList es = es.map Expr.unplaced := by
  induction es with
  | nil => rfl
  | cons e es ih => rw [Expr.unplacedList, List.map_cons, ih]

instance : Placed Variable := ⟨fun v => { v with location := .first }⟩

theorem totalSize_unplaced (vs : List Variable) :
    Variable.totalSize (unplaced vs) = Variable.totalSize vs := by
  induction vs with
  | nil => rfl
  | cons v vs ih => exact congrArg (v.ty.size + ·) ih

mutual

def Stmt.unplaced : Stmt → Stmt
  | .compound _ b => .compound .first b.unplaced
  | .ifThen _ e yes => .ifThen .first (Placed.unplaced e) yes.unplaced
  | .ifElse _ e yes no => .ifElse .first (Placed.unplaced e) yes.unplaced no.unplaced
  | .whileDo _ e body => .whileDo .first (Placed.unplaced e) body.unplaced
  | .ret _ e => .ret .first (Placed.unplaced e)
  | .expr _ e => .expr .first (Placed.unplaced e)
  | .write _ e => .write .first (Placed.unplaced e)
  | .writeln _ => .writeln .first

def Block.unplaced : Block → Block
  | .mk _ vs ss => .mk .first (Placed.unplaced vs) (Stmt.unplacedList ss)

def Stmt.unplacedList : List Stmt → List Stmt
  | [] => []
  | s :: ss => s.unplaced :: Stmt.unplacedList ss

end

theorem Stmt.unplacedList_eq (ss : List Stmt) : Stmt.unplacedList ss = ss.map Stmt.unplaced := by
  induction ss with
  | nil => rfl
  | cons s ss ih => rw [Stmt.unplacedList, List.map_cons, ih]

instance : Placed Stmt := ⟨Stmt.unplaced⟩

instance : Placed Block := ⟨Block.unplaced⟩

instance : Placed Function where
  unplaced f :=
    { f with
      params := unplaced f.params, body := unplaced f.body, location := .first,
      locals := unplaced f.locals }

instance : Placed Decl where
  unplaced
    | .var v => .var (unplaced v)
    | .function f => .function (unplaced f)

instance : Placed Diagnostic where
  unplaced
    | .scan _ fault => .scan .first fault
    | .parse _ expected found => .parse .first expected found
    | .semantic _ violation => .semantic .first violation
    | .io path reason => .io path reason
    | .toolchain program reason => .toolchain program reason
    | .outputClash path => .outputClash path

instance : Placed Fault where
  unplaced
    | .untyped _ => .untyped .first
    | .notLvalue _ => .notLvalue .first
    | .unresolved name => .unresolved name
    | .slotOutOfRange count index => .slotOutOfRange count index
    | .outsideFunction => .outsideFunction

instance : Placed Failure where
  unplaced
    | .diagnostic d => .diagnostic (unplaced d)
    | .fault f => .fault (unplaced f)

instance : Placed Event where
  unplaced
    | .linked _ name slot _ => .linked .first name slot .first
    | .variableTyped _ ty => .variableTyped .first ty
    | .expressionTyped _ ty => .expressionTyped .first ty
    | .decays _ name ty => .decays .first name ty
    | .functionChecked function params locals => .functionChecked function params locals
    | .parameterAt function name offset => .parameterAt function name offset
    | .localAt function name offset => .localAt function name offset
    | .frameSize function size => .frameSize function size
    | .wrote path => .wrote path
    | .linking linker assembly executable => .linking linker assembly executable
    | .linkedTo path => .linkedTo path

variable {α β : Type} [Placed α] [Placed β]

instance : Placed (Logged α) := ⟨fun x => ⟨unplaced x.events, unplaced x.outcome⟩⟩

theorem Except.bind_unplaced {x x' : Except Diagnostic α} {f f' : α → Except Diagnostic β}
    (hx : x' = unplaced x) (hf : ∀ a, f' (unplaced a) = unplaced (f a)) :
    x' >>= f' = unplaced (x >>= f) := by
  subst hx
  cases x with
  | error d => rfl
  | ok a => exact hf a

namespace Logged

theorem bind_unplaced {x x' : Logged α} {f f' : α → Logged β} (hx : x' = unplaced x)
    (hf : ∀ a, f' (unplaced a) = unplaced (f a)) : x' >>= f' = unplaced (x >>= f) := by
  subst hx
  obtain ⟨events, outcome⟩ := x
  cases outcome with
  | error e => rfl
  | ok a =>
    have h := hf a
    change andThen ⟨unplaced events, .ok (unplaced a)⟩ f' = unplaced (andThen ⟨events, .ok a⟩ f)
    simp only [andThen, h]
    exact Logged.ext (List.map_append).symm rfl

theorem ensure_unplaced (ok : Bool) (l : Location) (v : Violation) :
    ensure ok .first v = unplaced (ensure ok l v) := by
  cases ok <;> rfl

theorem mapM_unplaced {f f' : α → Logged β} (hf : ∀ a, f' (unplaced a) = unplaced (f a))
    (as : List α) : (unplaced as).mapM f' = unplaced (as.mapM f) := by
  induction as with
  | nil => rfl
  | cons a as ih =>
    change (unplaced a :: unplaced as).mapM f' = _
    rw [List.mapM_cons, List.mapM_cons]
    exact bind_unplaced (hf a) fun b => bind_unplaced ih fun bs => rfl

end Logged

end Bpl
