import Mathlib
import Bpl.Tree

namespace Bpl

mutual

/-- An expression and all its parts, each of them before its own parts. -/
def Expr.nodes : Expr → List Expr
  | .number n v => [.number n v]
  | .string n s => [.string n s]
  | .read n => [.read n]
  | .name n x => [.name n x]
  | .var n x slot => [.var n x slot]
  | .decay n x slot => [.decay n x slot]
  | .assign n target value => .assign n target value :: (target.nodes ++ value.nodes)
  | .binary n op left right => .binary n op left right :: (left.nodes ++ right.nodes)
  | .unary n op e => .unary n op e :: e.nodes
  | .index n base i => .index n base i :: (base.nodes ++ i.nodes)
  | .call n x args => .call n x args :: Expr.nodesOfList args

def Expr.nodesOfList : List Expr → List Expr
  | [] => []
  | e :: es => e.nodes ++ Expr.nodesOfList es

end

namespace Expr

/-- Variables that are linked to their declarations already. -/
def isLinked : Expr → Bool
  | .var .. | .decay .. => true
  | _ => false

/-- An expression in which no name is linked to its declaration yet. -/
def Unlinked (e : Expr) : Prop :=
  ∀ x ∈ e.nodes, x.isLinked = false

/-- An expression of which each part has a type. -/
def Annotated (e : Expr) : Prop :=
  ∀ x ∈ e.nodes, x.ty? ≠ none

theorem mem_nodes_self (e : Expr) : e ∈ e.nodes := by
  cases e <;> simp [nodes]

end Expr

mutual

/-- A part of a part is a part. -/
theorem Expr.nodes_subset {x : Expr} : ∀ e : Expr, x ∈ e.nodes → x.nodes ⊆ e.nodes
  | .number .., h | .string .., h | .read _, h | .name .., h | .var .., h | .decay .., h => by
    rw [List.mem_singleton.1 h]
    exact List.Subset.refl _
  | .assign _ l r, h | .binary _ _ l r, h | .index _ l r, h => by
    rw [Expr.nodes] at h ⊢
    rcases List.mem_cons.1 h with rfl | h
    · rw [Expr.nodes]
      exact List.Subset.refl _
    · refine List.subset_cons_of_subset _ ?_
      rcases List.mem_append.1 h with h | h
      · exact List.subset_append_of_subset_left _ (Expr.nodes_subset l h)
      · exact List.subset_append_of_subset_right _ (Expr.nodes_subset r h)
  | .unary _ _ e, h => by
    rw [Expr.nodes] at h ⊢
    rcases List.mem_cons.1 h with rfl | h
    · rw [Expr.nodes]
      exact List.Subset.refl _
    · exact List.subset_cons_of_subset _ (Expr.nodes_subset e h)
  | .call _ _ args, h => by
    rw [Expr.nodes] at h ⊢
    rcases List.mem_cons.1 h with rfl | h
    · rw [Expr.nodes]
      exact List.Subset.refl _
    · exact List.subset_cons_of_subset _ (Expr.nodesOfList_subset args h)

theorem Expr.nodesOfList_subset {x : Expr} : ∀ es : List Expr, x ∈ nodesOfList es →
    x.nodes ⊆ nodesOfList es
  | [], h => by cases h
  | e :: es, h => by
    rw [Expr.nodesOfList] at h ⊢
    rcases List.mem_append.1 h with h | h
    · exact List.subset_append_of_subset_left _ (Expr.nodes_subset e h)
    · exact List.subset_append_of_subset_right _ (nodesOfList_subset es h)

end

mutual

/-- The expressions of a statement, in the order of the text. -/
def Stmt.exprs : Stmt → List Expr
  | .compound _ b => b.exprs
  | .ifThen _ c yes => c :: yes.exprs
  | .ifElse _ c yes no => c :: (yes.exprs ++ no.exprs)
  | .whileDo _ c body => c :: body.exprs
  | .ret _ none | .writeln _ => []
  | .ret _ (some e) | .expr _ e | .write _ e => [e]

def Block.exprs : Block → List Expr
  | .mk _ _ ss => Stmt.exprsOfList ss

def Stmt.exprsOfList : List Stmt → List Expr
  | [] => []
  | s :: ss => s.exprs ++ Stmt.exprsOfList ss

end

mutual

/-- The variables that a statement declares in all its blocks, in the order of the text. -/
def Stmt.locals : Stmt → List Variable
  | .compound _ b => b.locals
  | .ifThen _ _ yes => yes.locals
  | .ifElse _ _ yes no => yes.locals ++ no.locals
  | .whileDo _ _ body => body.locals
  | .ret .. | .expr .. | .write .. | .writeln _ => []

def Block.locals : Block → List Variable
  | .mk _ vs ss => vs ++ Stmt.localsOfList ss

def Stmt.localsOfList : List Stmt → List Variable
  | [] => []
  | s :: ss => s.locals ++ Stmt.localsOfList ss

end

namespace Decl

def name : Decl → String
  | .var v => v.name
  | .function f => f.name

/-- The type under which the whole program knows a name. -/
def ty : Decl → Ty
  | .var v => v.ty
  | .function f => f.signature

def location : Decl → Location
  | .var v => v.location
  | .function f => f.location

end Decl

namespace Program

/-- All expressions of a program, in the order of the text. -/
def exprs (p : Program) : List Expr :=
  p.functions.flatMap fun f => f.body.exprs

/-- A program in which no name is linked to its declaration yet. -/
def Unlinked (p : Program) : Prop :=
  ∀ e ∈ p.exprs, e.Unlinked

/-- A program of which each expression has a type. -/
def Annotated (p : Program) : Prop :=
  ∀ e ∈ p.exprs, e.Annotated

theorem mem_functions {p : Program} {f : Function} : f ∈ p.functions ↔ Decl.function f ∈ p := by
  simp only [functions, List.mem_filterMap]
  constructor
  · rintro ⟨d, hd, h⟩
    cases d with
    | var v => simp at h
    | function g => cases h; exact hd
  · exact fun h => ⟨_, h, rfl⟩

theorem mem_globals {p : Program} {v : Variable} : v ∈ p.globals ↔ Decl.var v ∈ p := by
  simp only [globals, List.mem_filterMap]
  constructor
  · rintro ⟨d, hd, h⟩
    cases d with
    | var u => cases h; exact hd
    | function f => simp at h
  · exact fun h => ⟨_, h, rfl⟩

theorem unlinked_iff {p : Program} :
    p.Unlinked ↔ ∀ f, Decl.function f ∈ p → ∀ e ∈ f.body.exprs, e.Unlinked := by
  constructor
  · intro h f hf e he
    exact h e (List.mem_flatMap.2 ⟨f, mem_functions.2 hf, he⟩)
  · intro h e he
    obtain ⟨f, hf, he⟩ := List.mem_flatMap.1 he
    exact h f (mem_functions.1 hf) e he

theorem functions_names_sublist (p : Program) :
    (p.functions.map Function.name).Sublist (p.map Decl.name) := by
  induction p with
  | nil => exact .slnil
  | cons d p ih =>
    cases d with
    | var v => exact ih.cons _
    | function f => exact ih.cons_cons _

theorem globals_names_sublist (p : Program) :
    (p.globals.map Variable.name).Sublist (p.map Decl.name) := by
  induction p with
  | nil => exact .slnil
  | cons d p ih =>
    cases d with
    | var v => exact ih.cons_cons _
    | function f => exact ih.cons _

end Program

end Bpl
