import Bpl.Proofs.Tree.Unchecked

namespace Bpl

mutual

/-- The contents of the string literals of an expression in the order in which code is generated
for them: an index comes before what it is an index into. -/
def Expr.literals : Expr → List String
  | .string _ s => [s]
  | .number .. | .read _ | .name .. | .var .. | .decay .. => []
  | .assign _ left right | .binary _ _ left right => left.literals ++ right.literals
  | .unary _ _ e => e.literals
  | .index _ base i => i.literals ++ base.literals
  | .call _ _ args => Expr.literalsOfList args

def Expr.literalsOfList : List Expr → List String
  | [] => []
  | e :: es => e.literals ++ Expr.literalsOfList es

end

mutual

/-- The literals of an expression are those of its parts that are string literals. -/
theorem Expr.mem_literals {s : String} (e : Expr) :
    s ∈ e.literals ↔ ∃ n, .string n s ∈ e.nodes := by
  cases e with
  | number | string | read | name | var | decay => simp [Expr.literals, Expr.nodes]
  | assign n l r | binary n op l r =>
    simp [Expr.literals, Expr.nodes, l.mem_literals, r.mem_literals, exists_or]
  | unary n op e => simp [Expr.literals, Expr.nodes, e.mem_literals]
  | index n base i =>
    simp [Expr.literals, Expr.nodes, base.mem_literals, i.mem_literals, exists_or, or_comm]
  | call n x args => simp [Expr.literals, Expr.nodes, Expr.mem_literalsOfList args]

theorem Expr.mem_literalsOfList {s : String} (es : List Expr) :
    s ∈ Expr.literalsOfList es ↔ ∃ n, .string n s ∈ Expr.nodesOfList es := by
  cases es with
  | nil => simp [Expr.literalsOfList, Expr.nodesOfList]
  | cons e es =>
    simp [Expr.literalsOfList, Expr.nodesOfList, e.mem_literals, Expr.mem_literalsOfList es,
      exists_or]

end

mutual

theorem Expr.literals_unchecked (e : Expr) : e.unchecked.literals = e.literals := by
  cases e with
  | number | string | read | name | var | decay => rfl
  | assign n l r | binary n op l r | index n l r =>
    rw [Expr.unchecked, Expr.literals, Expr.literals, l.literals_unchecked, r.literals_unchecked]
  | unary n op e => exact e.literals_unchecked
  | call n x args => exact Expr.literalsOfList_unchecked args

theorem Expr.literalsOfList_unchecked (es : List Expr) :
    Expr.literalsOfList (Expr.uncheckedList es) = Expr.literalsOfList es := by
  cases es with
  | nil => rfl
  | cons e es =>
    rw [Expr.uncheckedList, Expr.literalsOfList, Expr.literalsOfList, e.literals_unchecked,
      Expr.literalsOfList_unchecked es]

end

/-- The contents of the string literals of a program, one for each that stands in it. -/
def Program.literals (p : Program) : List String :=
  p.exprs.flatMap Expr.literals

theorem Program.mem_literals {p : Program} {s : String} :
    s ∈ p.literals ↔ ∃ e ∈ p.exprs, ∃ n, .string n s ∈ e.nodes := by
  simp only [Program.literals, List.mem_flatMap, Expr.mem_literals]

theorem Program.functions_unchecked (p : Program) :
    p.unchecked.functions = p.functions.map Function.unchecked := by
  rw [Program.functions, Program.functions, Program.unchecked, List.filterMap_map,
    List.map_filterMap]
  refine List.filterMap_congr fun d _ => ?_
  cases d <;> rfl

theorem Program.exprs_unchecked (p : Program) :
    p.unchecked.exprs = p.exprs.map Expr.unchecked := by
  rw [Program.exprs, Program.exprs, p.functions_unchecked, List.flatMap_map, List.map_flatMap]
  exact List.flatMap_congr fun f _ => Block.exprs_map ..

/-- A check leaves the literals as they are. -/
theorem Program.literals_unchecked (p : Program) : p.unchecked.literals = p.literals := by
  rw [Program.literals, p.exprs_unchecked, List.flatMap_map]
  exact List.flatMap_congr fun e _ => e.literals_unchecked

end Bpl
