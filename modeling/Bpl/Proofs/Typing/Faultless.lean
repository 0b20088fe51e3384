import Bpl.Proofs.Tree.Nodes
import Bpl.Typing.Program

namespace Bpl

namespace Logged

variable {α β : Type}

/-- A computation that finds no tree unfit for it, whether it succeeds or not. -/
def Faultless (x : Logged α) : Prop :=
  ∀ f, x.outcome ≠ .error (.fault f)

theorem faultless_pure (a : α) : (pure a : Logged α).Faultless := by
  simp [Faultless]

theorem faultless_report (e : Event) : (report e).Faultless := by
  simp [Faultless]

theorem faultless_refuse (l : Location) (v : Violation) : (refuse l v : Logged α).Faultless := by
  simp [Faultless]

theorem faultless_ensure (ok : Bool) (l : Location) (v : Violation) :
    (ensure ok l v).Faultless := by
  cases ok <;> simp [Faultless, ensure]

theorem faultless_ofExcept (r : Except Diagnostic α) : (ofExcept r).Faultless := by
  cases r <;> simp [Faultless, Except.mapError]

theorem Faultless.bind {x : Logged α} {f : α → Logged β} (hx : x.Faultless)
    (hf : ∀ a, (f a).Faultless) : (x >>= f).Faultless := by
  intro e
  have he := hx e
  rw [outcome_bind]
  cases h : x.outcome with
  | error d =>
    rw [h] at he
    intro hd
    exact he (by simpa [Bind.bind, Except.bind] using hd)
  | ok a => exact hf a e

theorem faultless_mapM {f : α → Logged β} {as : List α} (h : ∀ a ∈ as, (f a).Faultless) :
    (as.mapM f).Faultless := by
  induction as with
  | nil => exact faultless_pure _
  | cons a as ih =>
    rw [List.forall_mem_cons] at h
    rw [List.mapM_cons]
    exact h.1.bind fun _ => (ih h.2).bind fun _ => faultless_pure _

end Logged

namespace Typing

open Logged

theorem faultless_typed (n : Note) (ty : Ty) (lvalue : Bool) (mk : Note → Expr) :
    (typed n ty lvalue mk).Faultless :=
  (faultless_report _).bind fun _ => faultless_pure _

theorem faultless_resolve (env : Env) (n : Note) (x : String) : (resolve env n x).Faultless := by
  unfold resolve
  split
  · exact faultless_refuse _ _
  · exact (faultless_ensure _ _ _).bind fun _ => (faultless_report _).bind fun _ =>
      (faultless_report _).bind fun _ => faultless_pure _

theorem faultless_valued (r : Typed) : (valued r).Faultless :=
  (faultless_ensure _ _ _).bind fun _ => faultless_pure _

theorem faultless_integer (construct : String) (r : Typed) : (integer construct r).Faultless :=
  (faultless_valued r).bind fun _ => (faultless_ensure _ _ _).bind fun _ => faultless_pure _

theorem faultless_assignable (construct : String) (r : Typed) :
    (assignable construct r).Faultless :=
  (faultless_valued r).bind fun _ => (faultless_ensure _ _ _).bind fun _ => faultless_pure _

theorem faultless_ofType (construct : String) (expected : Ty) (r : Typed) :
    (ofType construct expected r).Faultless :=
  (faultless_valued r).bind fun _ => (faultless_ensure _ _ _).bind fun _ => faultless_pure _

theorem faultless_callee (globals : Scope) (l : Location) (x : String) (given : Nat) :
    (callee globals l x given).Faultless := by
  unfold callee
  split
  · exact faultless_refuse _ _
  · split
    · exact (faultless_ensure _ _ _).bind fun _ => faultless_pure _
    · exact faultless_refuse _ _

theorem faultless_pass (x : String) (position : Nat) (param : Ty) (r : Typed) :
    (pass x position param r).Faultless := by
  refine (faultless_valued r).bind fun (e, ty) => ?_
  simp only
  split
  · exact faultless_pure _
  · split
    · exact (faultless_ensure _ _ _).bind fun _ => (faultless_report _).bind fun _ =>
        faultless_pure _
    · exact faultless_refuse _ _

mutual

/-- Only a variable that is linked already could lack a type. -/
theorem faultless_expr (env : Env) (e : Expr) (hu : e.Unlinked) : (expr env e).Faultless := by
  cases e with
  | number n v => rw [expr]; exact faultless_typed _ _ _ _
  | string n s => rw [expr]; exact faultless_typed _ _ _ _
  | read n => rw [expr]; exact faultless_typed _ _ _ _
  | name n x => rw [expr]; exact faultless_resolve _ _ _
  | var n x slot => exact absurd (hu _ (Expr.mem_nodes_self _)) (by simp [Expr.isLinked])
  | decay n x slot => exact absurd (hu _ (Expr.mem_nodes_self _)) (by simp [Expr.isLinked])
  | assign n target value =>
    simp only [Expr.Unlinked, Expr.nodes, List.forall_mem_cons, List.forall_mem_append] at hu
    rw [expr]
    refine (faultless_expr env target hu.2.1).bind fun t => ?_
    refine (faultless_assignable _ t).bind fun _ => ?_
    refine (faultless_expr env value hu.2.2).bind fun v => ?_
    exact (faultless_ofType _ _ v).bind fun _ => faultless_typed _ _ _ _
  | binary n op left right =>
    simp only [Expr.Unlinked, Expr.nodes, List.forall_mem_cons, List.forall_mem_append] at hu
    rw [expr]
    split
    · refine (faultless_expr env left hu.2.1).bind fun l => ?_
      refine (faultless_valued l).bind fun _ => (faultless_ensure _ _ _).bind fun _ => ?_
      refine (faultless_expr env right hu.2.2).bind fun r => ?_
      exact (faultless_ofType _ _ r).bind fun _ => faultless_typed _ _ _ _
    · refine (faultless_expr env left hu.2.1).bind fun l => ?_
      refine (faultless_integer _ l).bind fun _ => ?_
      refine (faultless_expr env right hu.2.2).bind fun r => ?_
      exact (faultless_integer _ r).bind fun _ => faultless_typed _ _ _ _
  | unary n op e =>
    simp only [Expr.Unlinked, Expr.nodes, List.forall_mem_cons] at hu
    cases op with
    | neg =>
      rw [expr]
      refine (faultless_expr env e hu.2).bind fun r => ?_
      exact (faultless_integer _ r).bind fun _ => faultless_typed _ _ _ _
    | address =>
      rw [expr]
      refine (faultless_expr env e hu.2).bind fun r => ?_
      exact (faultless_assignable _ r).bind fun _ => faultless_typed _ _ _ _
    | deref =>
      rw [expr]
      refine (faultless_expr env e hu.2).bind fun r => (faultless_valued r).bind fun (_, ty) => ?_
      cases ty with
      | pointer base => exact faultless_typed _ _ _ _
      | _ => exact faultless_refuse _ _
  | index n base i =>
    simp only [Expr.Unlinked, Expr.nodes, List.forall_mem_cons, List.forall_mem_append] at hu
    rw [expr]
    refine (faultless_expr env base hu.2.1).bind fun b => ?_
    refine (faultless_valued b).bind fun (_, ty) => ?_
    simp only
    cases ty.base? with
    | some element =>
      refine (faultless_expr env i hu.2.2).bind fun r => ?_
      exact (faultless_integer _ r).bind fun _ => faultless_typed _ _ _ _
    | none => exact faultless_refuse _ _
  | call n x args =>
    simp only [Expr.Unlinked, Expr.nodes, List.forall_mem_cons] at hu
    rw [expr]
    refine (faultless_callee _ _ _ _).bind fun _ => ?_
    exact (faultless_arguments env args hu.2 _ _ _).bind fun _ => faultless_typed _ _ _ _

theorem faultless_arguments (env : Env) (es : List Expr)
    (hu : ∀ x ∈ Expr.nodesOfList es, x.isLinked = false) (x : String) (position : Nat)
    (tys : List Ty) : (arguments env x position es tys).Faultless := by
  match es, tys with
  | [], tys => rw [arguments]; exact faultless_pure _; simp
  | e :: es, [] => rw [arguments]; exact faultless_pure _; simp
  | e :: es, ty :: tys =>
    simp only [Expr.nodesOfList, List.forall_mem_append] at hu
    rw [arguments]
    refine (faultless_expr env e hu.1).bind fun r => (faultless_pass _ _ _ r).bind fun _ => ?_
    exact (faultless_arguments env es hu.2 _ _ _).bind fun _ => faultless_pure _

end

theorem faultless_ret (ctx : Context) (env : Env) (l : Location) (value : Option Expr)
    (hu : ∀ e ∈ value, e.Unlinked) : (ret ctx env l value).Faultless := by
  cases value with
  | none => exact (faultless_ensure _ _ _).bind fun _ => faultless_pure _
  | some e =>
    refine (faultless_ensure _ _ _).bind fun _ => ?_
    refine (faultless_expr env e (hu e rfl)).bind fun r => (faultless_valued r).bind fun _ => ?_
    exact (faultless_ensure _ _ _).bind fun _ => faultless_pure _

theorem faultless_writable (r : Typed) : (writable r).Faultless :=
  (faultless_valued r).bind fun _ => (faultless_ensure _ _ _).bind fun _ => faultless_pure _

mutual

theorem faultless_stmt (ctx : Context) (ls : Locals) (s : Stmt)
    (hu : ∀ e ∈ s.exprs, e.Unlinked) : (stmt ctx ls s).Faultless := by
  cases s with
  | compound l b =>
    rw [stmt]
    exact (faultless_block ctx ls b hu).bind fun _ => faultless_pure _
  | ifThen l c yes =>
    simp only [Stmt.exprs, List.forall_mem_cons] at hu
    rw [stmt]
    refine (faultless_expr _ c hu.1).bind fun r => (faultless_integer _ r).bind fun _ => ?_
    exact (faultless_stmt ctx ls yes hu.2).bind fun _ => faultless_pure _
  | ifElse l c yes no =>
    simp only [Stmt.exprs, List.forall_mem_cons, List.forall_mem_append] at hu
    rw [stmt]
    refine (faultless_expr _ c hu.1).bind fun r => (faultless_integer _ r).bind fun _ => ?_
    refine (faultless_stmt ctx ls yes hu.2.1).bind fun q => ?_
    exact (faultless_stmt ctx q.2 no hu.2.2).bind fun _ => faultless_pure _
  | whileDo l c body =>
    simp only [Stmt.exprs, List.forall_mem_cons] at hu
    rw [stmt]
    refine (faultless_expr _ c hu.1).bind fun r => (faultless_integer _ r).bind fun _ => ?_
    exact (faultless_stmt ctx ls body hu.2).bind fun _ => faultless_pure _
  | ret l value =>
    rw [stmt]
    refine (faultless_ret _ _ _ value ?_).bind fun _ => faultless_pure _
    cases value with
    | none => simp
    | some e => simpa [Stmt.exprs] using hu
  | expr l e =>
    rw [stmt]
    exact (faultless_expr _ e (hu e (by simp [Stmt.exprs]))).bind fun _ => faultless_pure _
  | write l e =>
    rw [stmt]
    refine (faultless_expr _ e (hu e (by simp [Stmt.exprs]))).bind fun r => ?_
    exact (faultless_writable r).bind fun _ => faultless_pure _
  | writeln l => rw [stmt]; exact faultless_pure _

theorem faultless_block (ctx : Context) (ls : Locals) (b : Block)
    (hu : ∀ e ∈ b.exprs, e.Unlinked) : (block ctx ls b).Faultless := by
  cases b with
  | mk l vs ss =>
    rw [block]
    refine (faultless_ofExcept _).bind fun ls => ?_
    exact (faultless_stmts ctx ls ss hu).bind fun _ => faultless_pure _

theorem faultless_stmts (ctx : Context) (ls : Locals) (ss : List Stmt)
    (hu : ∀ e ∈ Stmt.exprsOfList ss, e.Unlinked) : (stmts ctx ls ss).Faultless := by
  cases ss with
  | nil => rw [stmts]; exact faultless_pure _
  | cons s ss =>
    simp only [Stmt.exprsOfList, List.forall_mem_append] at hu
    rw [stmts]
    refine (faultless_stmt ctx ls s hu.1).bind fun q => ?_
    exact (faultless_stmts ctx q.2 ss hu.2).bind fun _ => faultless_pure _

end

theorem faultless_decl (globals : Scope) (d : Decl)
    (hu : ∀ f, d = .function f → ∀ e ∈ f.body.exprs, e.Unlinked) : (decl globals d).Faultless := by
  cases d with
  | var v => exact faultless_pure _
  | function f =>
    refine Faultless.bind ?_ fun _ => faultless_pure _
    refine (faultless_ofExcept _).bind fun scope => ?_
    refine (faultless_block _ _ f.body (hu f rfl)).bind fun _ => ?_
    exact (faultless_ensure _ _ _).bind fun _ => (faultless_report _).bind fun _ =>
      faultless_pure _

/-- A check of names that are not linked yet never finds its tree unfit. -/
theorem faultless_checkAmong (globals : Scope) {p : Program} (hu : p.Unlinked) :
    (p.checkAmong globals).2.Faultless := by
  unfold Program.checkAmong
  split
  · exact faultless_ofExcept _
  · refine (faultless_mapM fun d hd => faultless_decl _ d ?_).bind fun _ => ?_
    · rintro f rfl
      exact Program.unlinked_iff.1 hu f hd
    · exact (faultless_ofExcept _).bind fun _ => faultless_pure _

end Typing

end Bpl
