import Bpl.Proofs.Tree.Nodes

namespace Bpl

/-- What a reader of a body comes upon, in the order of the text: a declaration, an expression of
which a statement uses the value, or one that stands as a statement. -/
inductive Item where
  | declares (v : Variable)
  | uses (e : Expr)
  | stands (e : Expr)

namespace Item

def local? : Item → Option Variable
  | declares v => some v
  | uses _ | stands _ => none

def expr? : Item → Option Expr
  | declares _ => none
  | uses e | stands e => some e

/-- The variables that are declared among some items. -/
def declared (is : List Item) : List Variable :=
  is.filterMap local?

theorem declared_append (is js : List Item) : declared (is ++ js) = declared is ++ declared js :=
  List.filterMap_append

theorem declared_map (vs : List Variable) : declared (vs.map declares) = vs := by
  rw [declared, List.filterMap_map]
  exact List.filterMap_some

theorem filterMap_expr?_map (vs : List Variable) : (vs.map declares).filterMap expr? = [] := by
  simp [List.filterMap_map, Function.comp_def, expr?]

end Item

mutual

def Stmt.items : Stmt → List Item
  | .compound _ b => b.items
  | .ifThen _ c yes => .uses c :: yes.items
  | .ifElse _ c yes no => .uses c :: (yes.items ++ no.items)
  | .whileDo _ c body => .uses c :: body.items
  | .ret _ none | .writeln _ => []
  | .ret _ (some e) | .write _ e => [.uses e]
  | .expr _ e => [.stands e]

def Block.items : Block → List Item
  | .mk _ vs ss => vs.map .declares ++ Stmt.itemsOfList ss

def Stmt.itemsOfList : List Stmt → List Item
  | [] => []
  | s :: ss => s.items ++ Stmt.itemsOfList ss

end

mutual

theorem Stmt.declared_items (s : Stmt) : Item.declared s.items = s.locals := by
  cases s with
  | compound l b => exact b.declared_items
  | ifThen l c yes => exact yes.declared_items
  | ifElse l c yes no =>
    rw [Stmt.items, Stmt.locals, ← yes.declared_items, ← no.declared_items, ← Item.declared_append]
    rfl
  | whileDo l c body => exact body.declared_items
  | ret l value => cases value <;> rfl
  | expr l e | write l e | writeln l => rfl

theorem Block.declared_items (b : Block) : Item.declared b.items = b.locals := by
  cases b with
  | mk l vs ss =>
    rw [Block.items, Block.locals, Item.declared_append, Item.declared_map,
      Stmt.declared_itemsOfList]

theorem Stmt.declared_itemsOfList (ss : List Stmt) :
    Item.declared (Stmt.itemsOfList ss) = Stmt.localsOfList ss := by
  cases ss with
  | nil => rfl
  | cons s ss =>
    rw [Stmt.itemsOfList, Stmt.localsOfList, Item.declared_append, s.declared_items,
      Stmt.declared_itemsOfList]

end

mutual

theorem Stmt.exprs_items (s : Stmt) : s.items.filterMap Item.expr? = s.exprs := by
  cases s with
  | compound l b => exact b.exprs_items
  | ifThen l c yes =>
    rw [Stmt.items, Stmt.exprs, ← yes.exprs_items]
    rfl
  | ifElse l c yes no =>
    rw [Stmt.items, Stmt.exprs, ← yes.exprs_items, ← no.exprs_items, ← List.filterMap_append]
    rfl
  | whileDo l c body =>
    rw [Stmt.items, Stmt.exprs, ← body.exprs_items]
    rfl
  | ret l value => cases value <;> rfl
  | expr l e | write l e | writeln l => rfl

theorem Block.exprs_items (b : Block) : b.items.filterMap Item.expr? = b.exprs := by
  cases b with
  | mk l vs ss =>
    rw [Block.items, Block.exprs, List.filterMap_append, Item.filterMap_expr?_map,
      Stmt.exprs_itemsOfList]
    rfl

theorem Stmt.exprs_itemsOfList (ss : List Stmt) :
    (Stmt.itemsOfList ss).filterMap Item.expr? = Stmt.exprsOfList ss := by
  cases ss with
  | nil => rfl
  | cons s ss =>
    rw [Stmt.itemsOfList, Stmt.exprsOfList, List.filterMap_append, s.exprs_items,
      Stmt.exprs_itemsOfList]

end

/-- Each expression of a body is one of its items. -/
theorem Block.exists_item {b : Block} {e : Expr} (he : e ∈ b.exprs) :
    ∃ before i after, b.items = before ++ i :: after ∧ i.expr? = some e := by
  rw [← b.exprs_items] at he
  obtain ⟨i, hi, hie⟩ := List.mem_filterMap.1 he
  obtain ⟨before, after, h⟩ := List.append_of_mem hi
  exact ⟨before, i, after, h, hie⟩

end Bpl
