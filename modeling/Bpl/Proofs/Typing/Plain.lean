import Bpl.Proofs.Parsing.Sound

namespace Bpl

namespace Ty

def isBase : Ty → Bool
  | int | string | void => true
  | _ => false

/-- A base type or a pointer to one. -/
def isSpec : Ty → Bool
  | pointer t => t.isBase
  | t => t.isBase

/-- A type that a variable may be declared with. Arrays hold values of a base type. -/
def isDeclared : Ty → Bool
  | array t _ => t.isBase
  | t => t.isSpec

theorem isDeclared_of_isSpec {t : Ty} (h : t.isSpec = true) : t.isDeclared = true := by
  cases t with
  | array => cases h
  | _ => exact h

theorem isArray_of_isSpec {t : Ty} (h : t.isSpec = true) : t.isArray = false := by
  cases t with
  | array => cases h
  | _ => rfl

theorem isFunction_of_isDeclared {t : Ty} (h : t.isDeclared = true) : t.isFunction = false := by
  cases t with
  | function => cases h
  | _ => rfl

end Ty

/-- A declaration with types that can be written: a base type, a pointer to one and, for variables
that are no parameters, an array of one. -/
def Decl.Plain : Decl → Prop
  | .var v => v.ty.isDeclared = true
  | .function f => f.result.isSpec = true ∧ (∀ v ∈ f.params, v.ty.isSpec = true) ∧
      ∀ v ∈ f.body.locals, v.ty.isDeclared = true

def Program.Plain (p : Program) : Prop :=
  ∀ d ∈ p, d.Plain

/-- Operators that make pointers or follow them. -/
def Expr.isPointerOp : Expr → Bool
  | .unary _ .address _ | .unary _ .deref _ => true
  | _ => false

def Expr.PointerFree (e : Expr) : Prop :=
  ∀ x ∈ e.nodes, x.isPointerOp = false

/-- A declaration that makes no use of pointers. -/
def Decl.PointerFree : Decl → Prop
  | .var v => v.ty.isPointer = false
  | .function f => f.result.isPointer = false ∧
      (∀ v ∈ f.params ++ f.body.locals, v.ty.isPointer = false) ∧
        ∀ e ∈ f.body.exprs, e.PointerFree

def Program.PointerFree (p : Program) : Prop :=
  ∀ d ∈ p, d.PointerFree

instance (e : Expr) : Decidable e.PointerFree :=
  inferInstanceAs (Decidable (∀ x ∈ e.nodes, x.isPointerOp = false))

instance : DecidablePred Decl.PointerFree
  | .var v => inferInstanceAs (Decidable (v.ty.isPointer = false))
  | .function f => inferInstanceAs (Decidable (f.result.isPointer = false ∧
      (∀ v ∈ f.params ++ f.body.locals, v.ty.isPointer = false) ∧
        ∀ e ∈ f.body.exprs, e.PointerFree))

instance (p : Program) : Decidable p.PointerFree :=
  inferInstanceAs (Decidable (∀ d ∈ p, d.PointerFree))

namespace Grammar

variable {us : List Token}

theorem isBase_of_isBaseType {t : Token} {ty : Ty} (h : t.isBaseType ty) : ty.isBase = true := by
  obtain ⟨w, hw, _⟩ := h
  have hall : ∀ q ∈ Parsing.baseTypes, q.2.isBase = true := by decide
  exact hall _ hw

theorem isSpec_of_isBaseType {t : Token} {ty : Ty} (h : t.isBaseType ty) : ty.isSpec = true := by
  have hb := isBase_of_isBaseType h
  cases ty with
  | pointer => cases hb
  | _ => exact hb

theorem TypeSpec.isSpec {l : Location} {ty : Ty} (h : TypeSpec us l ty) : ty.isSpec = true := by
  cases h with
  | base ht => exact isSpec_of_isBaseType ht
  | pointer ht _ => exact isBase_of_isBaseType ht

theorem VariableDecl.isDeclared {v : Variable} (h : VariableDecl us v) :
    v.ty.isDeclared = true := by
  cases h with
  | scalar hs _ _ => exact Ty.isDeclared_of_isSpec hs.isSpec
  | array ht _ _ _ _ _ _ => exact isBase_of_isBaseType ht

theorem VariableDecls.isDeclared {vs : List Variable} (h : VariableDecls us vs) :
    ∀ v ∈ vs, v.ty.isDeclared = true := by
  induction h with
  | nil => exact List.forall_mem_nil _
  | cons h _ ih => exact List.forall_mem_cons.2 ⟨h.isDeclared, ih⟩

theorem Param.isSpec {v : Variable} (h : Param us v) : v.ty.isSpec = true := by
  cases h with
  | scalar hs _ => exact hs.isSpec
  | array ht _ _ _ => exact isBase_of_isBaseType ht

theorem MoreParams.isSpec {vs : List Variable} (h : MoreParams us vs) :
    ∀ v ∈ vs, v.ty.isSpec = true := by
  induction h with
  | nil => exact List.forall_mem_nil _
  | cons _ h _ ih => exact List.forall_mem_cons.2 ⟨h.isSpec, ih⟩

theorem Params.isSpec {vs : List Variable} (h : Params us vs) : ∀ v ∈ vs, v.ty.isSpec = true := by
  cases h with
  | void => exact List.forall_mem_nil _
  | list _ h hs => exact List.forall_mem_cons.2 ⟨h.isSpec, hs.isSpec⟩

mutual

theorem Statement.isDeclared {us : List Token} {s : Stmt} :
    Statement us s → ∀ v ∈ s.locals, v.ty.isDeclared = true
  | .compound h => h.isDeclared
  | .ifThen _ _ _ _ h | .whileDo _ _ _ _ h => h.isDeclared
  | .ifElse _ _ _ _ h _ _ h' => List.forall_mem_append.2 ⟨h.isDeclared, h'.isDeclared⟩
  | .retNone _ _ | .retSome _ _ _ | .write _ _ _ _ _ | .writeln _ _ _ _ | .expr _ _ =>
    List.forall_mem_nil _

theorem Block.isDeclared {us : List Token} {b : Bpl.Block} :
    Block us b → ∀ v ∈ b.locals, v.ty.isDeclared = true
  | .mk _ hd hs _ => List.forall_mem_append.2 ⟨hd.isDeclared, hs.isDeclared⟩

theorem Statements.isDeclared {us : List Token} {ss : List Stmt} :
    Statements us ss → ∀ v ∈ Stmt.localsOfList ss, v.ty.isDeclared = true
  | .nil => List.forall_mem_nil _
  | .cons h hs => List.forall_mem_append.2 ⟨h.isDeclared, hs.isDeclared⟩

end

theorem Declaration.plain {d : Decl} (h : Declaration us d) : d.Plain := by
  cases h with
  | var hv => exact hv.isDeclared
  | function hs _ _ hp _ hb => exact ⟨hs.isSpec, hp.isSpec, hb.isDeclared⟩

theorem Program.plain {p : Bpl.Program} (h : Program us p) : p.Plain := by
  induction h with
  | nil => exact List.forall_mem_nil _
  | cons h _ ih => exact List.forall_mem_cons.2 ⟨h.plain, ih⟩

end Grammar

/-- The types of a program are those that its text can spell. -/
theorem plain_of_parse {ts : List Token} {p : Program} (h : parse ts = .ok p) : p.Plain := by
  obtain ⟨us, rest, _, j, _⟩ := Parsing.program_of_decls _ ts h
  exact j.plain

end Bpl
