import Bpl.Proofs.Tree.Nodes

namespace Bpl

mutual

/-- A statement with each variable that its blocks declare and each expression replaced. -/
def Stmt.map (onVar : Variable → Variable) (onExpr : Expr → Expr) : Stmt → Stmt
  | .compound l b => .compound l (b.map onVar onExpr)
  | .ifThen l e yes => .ifThen l (onExpr e) (yes.map onVar onExpr)
  | .ifElse l e yes no => .ifElse l (onExpr e) (yes.map onVar onExpr) (no.map onVar onExpr)
  | .whileDo l e body => .whileDo l (onExpr e) (body.map onVar onExpr)
  | .ret l e => .ret l (e.map onExpr)
  | .expr l e => .expr l (onExpr e)
  | .write l e => .write l (onExpr e)
  | .writeln l => .writeln l

def Block.map (onVar : Variable → Variable) (onExpr : Expr → Expr) : Block → Block
  | .mk l vs ss => .mk l (vs.map onVar) (Stmt.mapList onVar onExpr ss)

def Stmt.mapList (onVar : Variable → Variable) (onExpr : Expr → Expr) : List Stmt → List Stmt
  | [] => []
  | s :: ss => s.map onVar onExpr :: Stmt.mapList onVar onExpr ss

end

section

variable (onVar : Variable → Variable) (onExpr : Expr → Expr)

mutual

@[simp] theorem Stmt.locals_map (s : Stmt) :
    (s.map onVar onExpr).locals = s.locals.map onVar := by
  cases s with
  | compound l b => exact b.locals_map
  | ifThen l e yes => exact yes.locals_map
  | ifElse l e yes no =>
    simp only [Stmt.map, Stmt.locals, yes.locals_map, no.locals_map, List.map_append]
  | whileDo l e body => exact body.locals_map
  | ret l e | expr l e | write l e | writeln l => rfl

@[simp] theorem Block.locals_map (b : Block) :
    (b.map onVar onExpr).locals = b.locals.map onVar := by
  cases b with
  | mk l vs ss => simp only [Block.map, Block.locals, Stmt.locals_mapList, List.map_append]

@[simp] theorem Stmt.locals_mapList (ss : List Stmt) :
    Stmt.localsOfList (Stmt.mapList onVar onExpr ss) = (Stmt.localsOfList ss).map onVar := by
  cases ss with
  | nil => rfl
  | cons s ss =>
    simp only [Stmt.mapList, Stmt.localsOfList, s.locals_map, Stmt.locals_mapList ss,
      List.map_append]

end

mutual

@[simp] theorem Stmt.exprs_map (s : Stmt) :
    (s.map onVar onExpr).exprs = s.exprs.map onExpr := by
  cases s with
  | compound l b => exact b.exprs_map
  | ifThen l e yes => simp only [Stmt.map, Stmt.exprs, yes.exprs_map, List.map_cons]
  | ifElse l e yes no =>
    simp only [Stmt.map, Stmt.exprs, yes.exprs_map, no.exprs_map, List.map_cons, List.map_append]
  | whileDo l e body => simp only [Stmt.map, Stmt.exprs, body.exprs_map, List.map_cons]
  | ret l e => cases e <;> rfl
  | expr l e | write l e | writeln l => rfl

@[simp] theorem Block.exprs_map (b : Block) :
    (b.map onVar onExpr).exprs = b.exprs.map onExpr := by
  cases b with
  | mk l vs ss => exact Stmt.exprs_mapList ss

@[simp] theorem Stmt.exprs_mapList (ss : List Stmt) :
    Stmt.exprsOfList (Stmt.mapList onVar onExpr ss) = (Stmt.exprsOfList ss).map onExpr := by
  cases ss with
  | nil => rfl
  | cons s ss =>
    simp only [Stmt.mapList, Stmt.exprsOfList, s.exprs_map, Stmt.exprs_mapList ss,
      List.map_append]

end

end

@[simp] theorem Note.new_location (l : Location) : (Note.new l).location = l := rfl

mutual

/-- An expression as it was before a check: names are not linked, and places alone are noted. -/
def Expr.unchecked : Expr → Expr
  | .number n v => .number (.new n.location) v
  | .string n s => .string (.new n.location) s
  | .read n => .read (.new n.location)
  | .name n x | .var n x _ | .decay n x _ => .name (.new n.location) x
  | .assign n target value => .assign (.new n.location) target.unchecked value.unchecked
  | .binary n op left right => .binary (.new n.location) op left.unchecked right.unchecked
  | .unary n op e => .unary (.new n.location) op e.unchecked
  | .index n base i => .index (.new n.location) base.unchecked i.unchecked
  | .call n x args => .call (.new n.location) x (Expr.uncheckedList args)

def Expr.uncheckedList : List Expr → List Expr
  | [] => []
  | e :: es => e.unchecked :: Expr.uncheckedList es

end

/-- A function as it was before a check, which collects its locals. -/
def Function.unchecked (f : Function) : Function :=
  { f with body := f.body.map id Expr.unchecked, locals := [] }

def Decl.unchecked : Decl → Decl
  | .var v => .var v
  | .function f => .function f.unchecked

def Program.unchecked (p : Program) : Program :=
  List.map Decl.unchecked p

theorem Expr.length_uncheckedList (es : List Expr) :
    (Expr.uncheckedList es).length = es.length := by
  induction es with
  | nil => rfl
  | cons e es ih => exact congrArg (· + 1) ih

mutual

/-- The parts of an expression as it was are its parts as they were. -/
theorem Expr.nodes_unchecked (e : Expr) : e.unchecked.nodes = e.nodes.map Expr.unchecked := by
  cases e with
  | number | string | read | name | var | decay => rfl
  | assign n l r | binary n op l r | index n l r =>
    rw [Expr.unchecked, Expr.nodes, Expr.nodes, List.map_cons, List.map_append,
      l.nodes_unchecked, r.nodes_unchecked, Expr.unchecked]
  | unary n op e =>
    rw [Expr.unchecked, Expr.nodes, Expr.nodes, List.map_cons, e.nodes_unchecked, Expr.unchecked]
  | call n x args =>
    rw [Expr.unchecked, Expr.nodes, Expr.nodes, List.map_cons, Expr.nodesOfList_unchecked args,
      Expr.unchecked]

theorem Expr.nodesOfList_unchecked (es : List Expr) :
    Expr.nodesOfList (Expr.uncheckedList es) = (Expr.nodesOfList es).map Expr.unchecked := by
  cases es with
  | nil => rfl
  | cons e es =>
    rw [Expr.uncheckedList, Expr.nodesOfList, Expr.nodesOfList, List.map_append,
      e.nodes_unchecked, Expr.nodesOfList_unchecked es]

end

theorem Decl.name_unchecked (d : Decl) : d.unchecked.name = d.name := by
  cases d <;> rfl

theorem Decl.ty_unchecked (d : Decl) : d.unchecked.ty = d.ty := by
  cases d <;> rfl

theorem Expr.isLinked_unchecked (e : Expr) : e.unchecked.isLinked = false := by
  cases e <;> rfl

theorem Expr.unlinked_unchecked (e : Expr) : e.unchecked.Unlinked := by
  intro x hx
  rw [e.nodes_unchecked] at hx
  obtain ⟨y, _, rfl⟩ := List.mem_map.1 hx
  exact y.isLinked_unchecked

theorem Program.unlinked_unchecked (p : Program) : p.unchecked.Unlinked := by
  rw [Program.unlinked_iff]
  intro f hf e he
  obtain ⟨d, _, hd⟩ := List.mem_map.1 hf
  cases d with
  | var v => cases hd
  | function g =>
    cases hd
    rw [Function.unchecked, Block.exprs_map] at he
    obtain ⟨e₀, _, rfl⟩ := List.mem_map.1 he
    exact e₀.unlinked_unchecked

end Bpl
