import Bpl.Proofs.Tree.Unchecked
import Bpl.Proofs.Typing.Rules

namespace Bpl

namespace Typing

mutual

/-- A judged expression is what was judged, but for what is noted of it. -/
theorem Judges.unchecked {w : View} {e e' : Expr} {ty : Ty} {a : Bool} (j : Judges w e ty a e') :
    e'.unchecked = e.unchecked := by
  match j with
  | .number | .string | .read | .name _ _ => rfl
  | .assign jt _ jv => exact congrArg₂ (Expr.assign _) jt.unchecked jv.unchecked
  | .comparison _ jl _ jr => exact congrArg₂ (Expr.binary _ _) jl.unchecked jr.unchecked
  | .arithmetic _ jl jr => exact congrArg₂ (Expr.binary _ _) jl.unchecked jr.unchecked
  | .neg je => exact congrArg (Expr.unary _ _) je.unchecked
  | .address je _ => exact congrArg (Expr.unary _ _) je.unchecked
  | .deref je => exact congrArg (Expr.unary _ _) je.unchecked
  | .index jb _ ji => exact congrArg₂ (Expr.index _) jb.unchecked ji.unchecked
  | .call _ _ ja => exact congrArg (Expr.call _ _) ja.unchecked

theorem Passes.unchecked {w : View} {e e' : Expr} {ty : Ty} (j : Passes w e ty e') :
    e'.unchecked = e.unchecked := by
  match j with
  | .value je _ => exact je.unchecked
  | .decay _ => rfl

theorem PassesAll.unchecked {w : View} {es es' : List Expr} {tys : List Ty}
    (j : PassesAll w es tys es') : Expr.uncheckedList es' = Expr.uncheckedList es := by
  match j with
  | .nil => rfl
  | .cons je js => exact congrArg₂ List.cons je.unchecked js.unchecked

end

variable {c : Setting}

mutual

theorem Allows.unchecked {ls : List Variable} {s s' : Stmt} (j : Allows c ls s s') :
    s'.map id Expr.unchecked = s.map id Expr.unchecked := by
  match j with
  | .compound jb => simp only [Stmt.map, jb.unchecked]
  | .ifThen je jy => simp only [Stmt.map, je.unchecked, jy.unchecked]
  | .ifElse je jy jn => simp only [Stmt.map, je.unchecked, jy.unchecked, jn.unchecked]
  | .whileDo je jb => simp only [Stmt.map, je.unchecked, jb.unchecked]
  | .retNone _ | .writeln => rfl
  | .retSome _ je => simp only [Stmt.map, Option.map_some, je.unchecked]
  | .expr je => simp only [Stmt.map, je.unchecked]
  | .write je _ => simp only [Stmt.map, je.unchecked]

theorem AllowsBlock.unchecked {ls : List Variable} {b b' : Block} (j : AllowsBlock c ls b b') :
    b'.map id Expr.unchecked = b.map id Expr.unchecked := by
  match j with
  | .mk js => simp only [Block.map, js.unchecked]

theorem AllowsAll.unchecked {ls : List Variable} {ss ss' : List Stmt} (j : AllowsAll c ls ss ss') :
    Stmt.mapList id Expr.unchecked ss' = Stmt.mapList id Expr.unchecked ss := by
  match j with
  | .nil => rfl
  | .cons js jss => simp only [Stmt.mapList, js.unchecked, jss.unchecked]

end

/-- Each part of an allowed body was a part of the body before the check. -/
theorem AllowsBlock.exists_node {ls : List Variable} {b b' : Block} (j : AllowsBlock c ls b b')
    {e' x' : Expr} (he : e' ∈ b'.exprs) (hx : x' ∈ e'.nodes) :
    ∃ e ∈ b.exprs, ∃ x ∈ e.nodes, x.unchecked = x'.unchecked := by
  have hexprs : b'.exprs.map Expr.unchecked = b.exprs.map Expr.unchecked := by
    rw [← Block.exprs_map id, ← Block.exprs_map id, j.unchecked]
  have hmem : e'.unchecked ∈ b.exprs.map Expr.unchecked := by
    rw [← hexprs]
    exact List.mem_map_of_mem he
  obtain ⟨e, he, heq⟩ := List.mem_map.1 hmem
  have hnode : x'.unchecked ∈ e.nodes.map Expr.unchecked := by
    rw [← e.nodes_unchecked, heq, e'.nodes_unchecked]
    exact List.mem_map_of_mem hx
  obtain ⟨x, hx, hxeq⟩ := List.mem_map.1 hnode
  exact ⟨e, he, x, hx, hxeq⟩

theorem AllowsDecl.unchecked {p : Program} {d d' : Decl} (j : AllowsDecl p d d') :
    d'.unchecked = d.unchecked := by
  cases j with
  | var _ => rfl
  | function _ _ _ jb =>
    simp only [Decl.unchecked, Function.unchecked, jb.unchecked]

theorem map_unchecked_of_allows {p : Program} {ds ds' : List Decl}
    (js : List.Forall₂ (AllowsDecl p) ds ds') :
    ds'.map Decl.unchecked = ds.map Decl.unchecked := by
  induction js with
  | nil => rfl
  | cons j _ ih => exact congrArg₂ List.cons j.unchecked ih

end Typing

/-- A check changes nothing but what it notes. -/
theorem Program.Derives.unchecked {p q : Program} (h : p.Derives q) :
    q.unchecked = p.unchecked :=
  Typing.map_unchecked_of_allows h.decls

end Bpl
