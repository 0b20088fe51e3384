import Bpl.Proofs.Tree.Unchecked

namespace Bpl

/-- What a linked name becomes where the own names of a function are changed by `r`. -/
def Slot.renamed (r : String → String) (x : String) : Slot → String
  | .global => x
  | .parameter _ | .localVar _ => r x

def Variable.renamed (r : String → String) (v : Variable) : Variable :=
  { v with name := r v.name }

mutual

/-- A checked expression with the own names of its function changed. The names of functions that it
calls stay, and so do those of global variables. -/
def Expr.renamed (r : String → String) : Expr → Expr
  | .number n v => .number n v
  | .string n s => .string n s
  | .read n => .read n
  | .name n x => .name n x
  | .var n x slot => .var n (slot.renamed r x) slot
  | .decay n x slot => .decay n (slot.renamed r x) slot
  | .assign n target value => .assign n (target.renamed r) (value.renamed r)
  | .binary n op left right => .binary n op (left.renamed r) (right.renamed r)
  | .unary n op e => .unary n op (e.renamed r)
  | .index n base i => .index n (base.renamed r) (i.renamed r)
  | .call n x args => .call n x (Expr.renamedList r args)

def Expr.renamedList (r : String → String) : List Expr → List Expr
  | [] => []
  | e :: es => e.renamed r :: Expr.renamedList r es

end

theorem Expr.length_renamedList (r : String → String) (es : List Expr) :
    (Expr.renamedList r es).length = es.length := by
  induction es with
  | nil => rfl
  | cons e es ih => simp [Expr.renamedList, ih]

theorem Expr.ty?_renamed (r : String → String) (e : Expr) : (e.renamed r).ty? = e.ty? := by
  cases e <;> rfl

theorem Expr.location_renamed (r : String → String) (e : Expr) :
    (e.renamed r).location = e.location := by
  cases e <;> rfl

/-- A checked function with other names for its parameters and locals. -/
def Function.renamed (r : String → String) (f : Function) : Function :=
  { f with
    params := f.params.map (Variable.renamed r)
    body := f.body.map (Variable.renamed r) (Expr.renamed r)
    locals := f.locals.map (Variable.renamed r) }

/-- Other names within the function `x`. -/
def Decl.renamed (x : String) (r : String → String) : Decl → Decl
  | .var v => .var v
  | .function f => if f.name = x then .function (f.renamed r) else .function f

def Program.renamed (x : String) (r : String → String) (p : Program) : Program :=
  List.map (Decl.renamed x r) p

section

variable (x : String) (r : String → String)

theorem Function.signature_renamed (f : Function) : (f.renamed r).signature = f.signature := by
  have hty : ∀ vs : List Variable,
      (vs.map (Variable.renamed r)).map Variable.ty = vs.map Variable.ty := by
    intro vs
    rw [List.map_map]
    rfl
  rw [Function.signature, Function.signature, Function.renamed, hty]

theorem Decl.name_renamed (d : Decl) : (d.renamed x r).name = d.name := by
  cases d with
  | var v => rfl
  | function f =>
    rw [Decl.renamed]
    split <;> rfl

theorem Decl.ty_renamed (d : Decl) : (d.renamed x r).ty = d.ty := by
  cases d with
  | var v => rfl
  | function f =>
    rw [Decl.renamed]
    split
    · exact f.signature_renamed r
    · rfl

theorem Program.functions_renamed (p : Program) :
    (p.renamed x r).functions =
      p.functions.map fun f => if f.name = x then f.renamed r else f := by
  induction p with
  | nil => rfl
  | cons d p ih =>
    cases d with
    | var v => exact ih
    | function f =>
      rw [Program.renamed, List.map_cons, Decl.renamed]
      by_cases hx : f.name = x
      · rw [if_pos hx]
        exact congrArg₂ List.cons (if_pos hx).symm ih
      · rw [if_neg hx]
        exact congrArg₂ List.cons (if_neg hx).symm ih

theorem Program.globals_renamed (p : Program) : (p.renamed x r).globals = p.globals := by
  induction p with
  | nil => rfl
  | cons d p ih =>
    cases d with
    | var v => exact congrArg (v :: ·) ih
    | function f =>
      rw [Program.renamed, List.map_cons, Decl.renamed]
      split <;> exact ih

end

end Bpl
