import Mathlib
import Bpl.Compile
import Bpl.Proofs.Tree.Renaming

namespace Bpl

namespace Lowering

open Asm

variable (frame : Frame) (r : String → String)

/-- Parameters and locals are stored in the frame, whatever they are called. -/
theorem storage_renamed (x : String) (slot : Slot) :
    storage frame (slot.renamed r x) slot = storage frame x slot := by
  cases slot <;> rfl

theorem typeOf_renamed (e : Expr) : typeOf (e.renamed r) = typeOf e := by
  rw [typeOf, typeOf, e.ty?_renamed, e.location_renamed]

theorem element_renamed (base : Expr) (indexCode baseCode : Lower Code) :
    element (base.renamed r) indexCode baseCode = element base indexCode baseCode := by
  rw [element, element, typeOf_renamed]

mutual

theorem value_renamed (e : Expr) : value frame (e.renamed r) = value frame e := by
  cases e with
  | number | string | read | name => rfl
  | var n x slot =>
    have hty : typeOf (.var n (slot.renamed r x) slot) = typeOf (.var n x slot) := rfl
    rw [Expr.renamed, value, value, storage_renamed, hty]
  | decay n x slot => rw [Expr.renamed, value, value, storage_renamed]
  | assign n target e =>
    rw [Expr.renamed, value, value, address_renamed target, value_renamed e]
  | binary n op left right =>
    rw [Expr.renamed, value, value, value_renamed left, value_renamed right]
  | unary n op e =>
    cases op with
    | neg => rw [Expr.renamed, value, value, value_renamed e]
    | address => rw [Expr.renamed, value, value, address_renamed e]
    | deref => rw [Expr.renamed, value, value, value_renamed e]
  | index n base i =>
    rw [Expr.renamed, value, value, value_renamed base, value_renamed i, element_renamed]
  | call n x args =>
    have hlength := Expr.length_renamedList r args
    have hempty : (Expr.renamedList r args).isEmpty = args.isEmpty := by
      cases args <;> rfl
    rw [Expr.renamed, value, value, arguments_renamed args, hlength, hempty]

theorem address_renamed (e : Expr) : address frame (e.renamed r) = address frame e := by
  cases e with
  | var n x slot => rw [Expr.renamed, address, address, storage_renamed]
  | unary n op e =>
    cases op with
    | deref => rw [Expr.renamed, address, address, value_renamed e]
    | neg | address => rfl
  | index n base i =>
    rw [Expr.renamed, address, address, value_renamed base, value_renamed i, element_renamed]
  | _ => rfl

theorem arguments_renamed (es : List Expr) :
    arguments frame (Expr.renamedList r es) = arguments frame es := by
  cases es with
  | nil => rfl
  | cons e es =>
    rw [Expr.renamedList, arguments, arguments, value_renamed e, arguments_renamed es]

end

mutual

theorem stmt_renamed (s : Stmt) :
    stmt frame (s.map (Variable.renamed r) (Expr.renamed r)) = stmt frame s := by
  cases s with
  | compound l b => rw [Stmt.map, stmt, stmt, block_renamed b]
  | ifThen l e yes => rw [Stmt.map, stmt, stmt, value_renamed frame r e, stmt_renamed yes]
  | ifElse l e yes no =>
    rw [Stmt.map, stmt, stmt, value_renamed frame r e, stmt_renamed yes, stmt_renamed no]
  | whileDo l e body => rw [Stmt.map, stmt, stmt, value_renamed frame r e, stmt_renamed body]
  | ret l e =>
    cases e with
    | none => rfl
    | some e => rw [Stmt.map, Option.map_some, stmt, stmt, value_renamed frame r e]
  | expr l e => rw [Stmt.map, stmt, stmt, value_renamed frame r e]
  | write l e => rw [Stmt.map, stmt, stmt, value_renamed frame r e, typeOf_renamed]
  | writeln l => rfl

theorem block_renamed (b : Block) :
    block frame (b.map (Variable.renamed r) (Expr.renamed r)) = block frame b := by
  cases b with
  | mk l vs ss => rw [Block.map, block, block, stmts_renamed ss]

theorem stmts_renamed (ss : List Stmt) :
    stmts frame (Stmt.mapList (Variable.renamed r) (Expr.renamed r) ss) = stmts frame ss := by
  cases ss with
  | nil => rfl
  | cons s ss => rw [Stmt.mapList, stmts, stmts, stmt_renamed s, stmts_renamed ss]

end

end Lowering

section

variable (r : String → String)

theorem Frame.localOffsets_renamed (used : Nat) (vs : List Variable) :
    localOffsets used (vs.map (Variable.renamed r)) = localOffsets used vs := by
  induction vs generalizing used with
  | nil => rfl
  | cons v vs ih => exact congrArg (-((used + v.ty.size : Nat) : Int) :: ·) (ih _)

theorem Variable.totalSize_renamed (vs : List Variable) :
    totalSize (vs.map (Variable.renamed r)) = totalSize vs := by
  induction vs with
  | nil => rfl
  | cons v vs ih => exact congrArg (v.ty.size + ·) ih

theorem Frame.layout_renamed (f : Function) : layout (f.renamed r) = layout f := by
  simp only [layout, Function.renamed, List.length_map, localOffsets_renamed,
    Variable.totalSize_renamed]
  rfl

theorem Lowering.function_renamed (f : Function) : function (f.renamed r) = function f := by
  rw [function, function, Frame.layout_renamed]
  simp only [Function.renamed, block_renamed]

/-- The code of a program does not depend on how the own variables of a function are called. -/
theorem Program.lower_renamed (p : Program) (x : String) : (p.renamed x r).lower = p.lower := by
  have hfunction : ∀ f : Function,
      Lowering.function (if f.name = x then f.renamed r else f) = Lowering.function f := by
    intro f
    split
    · exact Lowering.function_renamed r f
    · rfl
  have hfunctions : (p.renamed x r).functions.mapM Lowering.function =
      p.functions.mapM Lowering.function := by
    rw [functions_renamed, List.mapM_map]
    exact congrArg (List.mapM · p.functions) (funext hfunction)
  rw [lower, lower, hfunctions, globals_renamed]

end

end Bpl
