import Bpl.Proofs.Tree.Nodes
import Bpl.Scope
import Bpl.Token

namespace Bpl

/-- Things that hold places of a text, and the list of them. -/
class HasPlaces (α : Type) where
  places : α → List Location

export HasPlaces (places)

/-- All places of a thing have a property. -/
def InPlaces {α : Type} [HasPlaces α] (P : Location → Prop) (a : α) : Prop :=
  ∀ l ∈ places a, P l

variable {P : Location → Prop}

section

variable {α β : Type} [HasPlaces α] [HasPlaces β]

instance : HasPlaces Unit := ⟨fun _ => []⟩

instance : HasPlaces Location := ⟨fun l => [l]⟩

instance : HasPlaces Int64 := ⟨fun _ => []⟩

instance : HasPlaces String := ⟨fun _ => []⟩

instance : HasPlaces Ty := ⟨fun _ => []⟩

instance : HasPlaces (α × β) := ⟨fun r => places r.1 ++ places r.2⟩

instance : HasPlaces (List α) := ⟨List.flatMap places⟩

instance : HasPlaces (Option α) := ⟨fun o => places o.toList⟩

theorem inPlaces_location {l : Location} : InPlaces P l ↔ P l :=
  List.forall_mem_singleton

theorem inPlaces_mk {a : α} {b : β} : InPlaces P (a, b) ↔ InPlaces P a ∧ InPlaces P b :=
  List.forall_mem_append

theorem inPlaces_list {as : List α} : InPlaces P as ↔ ∀ a ∈ as, InPlaces P a := by
  constructor
  · intro h a ha l hl
    exact h l (List.mem_flatMap.2 ⟨a, ha, hl⟩)
  · intro h l hl
    obtain ⟨a, ha, hl⟩ := List.mem_flatMap.1 hl
    exact h a ha l hl

theorem inPlaces_nil : InPlaces P ([] : List α) :=
  List.forall_mem_nil P

theorem inPlaces_cons {a : α} {as : List α} :
    InPlaces P (a :: as) ↔ InPlaces P a ∧ InPlaces P as := by
  rw [inPlaces_list, inPlaces_list, List.forall_mem_cons]

theorem inPlaces_none : InPlaces P (none : Option α) :=
  inPlaces_nil

theorem inPlaces_some {a : α} : InPlaces P (some a) ↔ InPlaces P a := by
  change InPlaces P [a] ↔ _
  rw [inPlaces_cons, and_iff_left inPlaces_nil]

/-- A thing without places. -/
theorem inPlaces_free {a : α} (h : places a = []) : InPlaces P a := by
  rw [InPlaces, h]
  exact List.forall_mem_nil P

theorem inPlaces_mk_free {a : α} {b : β} (h : places b = []) :
    InPlaces P (a, b) ↔ InPlaces P a := by
  rw [inPlaces_mk, and_iff_left (inPlaces_free h)]

theorem InPlaces.place {r : Location × α} (h : InPlaces P r) : P r.1 :=
  inPlaces_location.1 (inPlaces_mk.1 h).1

end

instance : HasPlaces Token := ⟨fun t => [t.location]⟩

theorem inPlaces_token {t : Token} : InPlaces P t ↔ P t.location :=
  List.forall_mem_singleton

instance : HasPlaces Variable := ⟨fun v => [v.location]⟩

theorem inPlaces_variable {v : Variable} : InPlaces P v ↔ P v.location :=
  List.forall_mem_singleton

instance : HasPlaces Expr := ⟨fun e => e.nodes.map Expr.location⟩

section expressions

variable {n : Note} {e e' : Expr}

theorem inPlaces_expr : InPlaces P e ↔ ∀ x ∈ e.nodes, P x.location :=
  List.forall_mem_map

/-- An expression stands where its first part does. -/
theorem InPlaces.location (h : InPlaces P e) : P e.location :=
  inPlaces_expr.1 h e (Expr.mem_nodes_self e)

theorem inPlaces_assign :
    InPlaces P (Expr.assign n e e') ↔ P n.location ∧ InPlaces P e ∧ InPlaces P e' := by
  simp only [inPlaces_expr, Expr.nodes, List.forall_mem_cons, List.forall_mem_append]
  rfl

theorem inPlaces_binary {op : BinaryOp} :
    InPlaces P (Expr.binary n op e e') ↔ P n.location ∧ InPlaces P e ∧ InPlaces P e' := by
  simp only [inPlaces_expr, Expr.nodes, List.forall_mem_cons, List.forall_mem_append]
  rfl

theorem inPlaces_index :
    InPlaces P (Expr.index n e e') ↔ P n.location ∧ InPlaces P e ∧ InPlaces P e' := by
  simp only [inPlaces_expr, Expr.nodes, List.forall_mem_cons, List.forall_mem_append]
  rfl

theorem inPlaces_unary {op : UnaryOp} :
    InPlaces P (Expr.unary n op e) ↔ P n.location ∧ InPlaces P e := by
  simp only [inPlaces_expr, Expr.nodes, List.forall_mem_cons]
  rfl

theorem inPlaces_nodesOfList {es : List Expr} :
    (∀ x ∈ Expr.nodesOfList es, P x.location) ↔ InPlaces P es := by
  induction es with
  | nil => exact ⟨fun _ => inPlaces_nil, fun _ => List.forall_mem_nil _⟩
  | cons e es ih => rw [Expr.nodesOfList, List.forall_mem_append, ih, inPlaces_cons, inPlaces_expr]

theorem inPlaces_call {x : String} {es : List Expr} :
    InPlaces P (Expr.call n x es) ↔ P n.location ∧ InPlaces P es := by
  rw [inPlaces_expr, Expr.nodes, List.forall_mem_cons, inPlaces_nodesOfList]
  rfl

/-- An expression without further parts. -/
theorem inPlaces_leaf (h : e.nodes = [e]) : InPlaces P e ↔ P e.location := by
  rw [inPlaces_expr, h, List.forall_mem_singleton]

end expressions

mutual

/-- The places of a statement, its own before those of its parts. -/
def Stmt.places : Stmt → List Location
  | .compound l b => l :: b.places
  | .ifThen l e yes => l :: (HasPlaces.places e ++ yes.places)
  | .ifElse l e yes no => l :: (HasPlaces.places e ++ (yes.places ++ no.places))
  | .whileDo l e body => l :: (HasPlaces.places e ++ body.places)
  | .ret l e => l :: HasPlaces.places e
  | .expr l e | .write l e => l :: HasPlaces.places e
  | .writeln l => [l]

def Block.places : Block → List Location
  | .mk l vs ss => l :: (HasPlaces.places vs ++ Stmt.placesOfList ss)

def Stmt.placesOfList : List Stmt → List Location
  | [] => []
  | s :: ss => s.places ++ Stmt.placesOfList ss

end

instance : HasPlaces Stmt := ⟨Stmt.places⟩

instance : HasPlaces Block := ⟨Block.places⟩

theorem Stmt.placesOfList_eq (ss : List Stmt) : Stmt.placesOfList ss = HasPlaces.places ss := by
  induction ss with
  | nil => rfl
  | cons s ss ih =>
    rw [placesOfList, ih]
    rfl

section statements

variable {l : Location} {e : Expr} {s s' : Stmt}

theorem inPlaces_compound {b : Block} :
    InPlaces P (Stmt.compound l b) ↔ P l ∧ InPlaces P b :=
  List.forall_mem_cons

theorem inPlaces_ifThen :
    InPlaces P (Stmt.ifThen l e s) ↔ P l ∧ InPlaces P e ∧ InPlaces P s := by
  change (∀ m ∈ l :: (places e ++ s.places), P m) ↔ _
  rw [List.forall_mem_cons, List.forall_mem_append]
  rfl

theorem inPlaces_ifElse :
    InPlaces P (Stmt.ifElse l e s s') ↔ P l ∧ InPlaces P e ∧ InPlaces P s ∧ InPlaces P s' := by
  change (∀ m ∈ l :: (places e ++ (s.places ++ s'.places)), P m) ↔ _
  rw [List.forall_mem_cons, List.forall_mem_append, List.forall_mem_append]
  rfl

theorem inPlaces_whileDo :
    InPlaces P (Stmt.whileDo l e s) ↔ P l ∧ InPlaces P e ∧ InPlaces P s := by
  change (∀ m ∈ l :: (places e ++ s.places), P m) ↔ _
  rw [List.forall_mem_cons, List.forall_mem_append]
  rfl

theorem inPlaces_ret {value : Option Expr} :
    InPlaces P (Stmt.ret l value) ↔ P l ∧ InPlaces P value :=
  List.forall_mem_cons

theorem inPlaces_exprStmt : InPlaces P (Stmt.expr l e) ↔ P l ∧ InPlaces P e :=
  List.forall_mem_cons

theorem inPlaces_write : InPlaces P (Stmt.write l e) ↔ P l ∧ InPlaces P e :=
  List.forall_mem_cons

theorem inPlaces_block {vs : List Variable} {ss : List Stmt} :
    InPlaces P (Block.mk l vs ss) ↔ P l ∧ InPlaces P vs ∧ InPlaces P ss := by
  change (∀ m ∈ l :: (places vs ++ Stmt.placesOfList ss), P m) ↔ _
  rw [List.forall_mem_cons, List.forall_mem_append, Stmt.placesOfList_eq]
  rfl

end statements

instance : HasPlaces Function where
  places f := f.location :: (places f.params ++ (places f.body ++ places f.locals))

theorem inPlaces_function {f : Function} :
    InPlaces P f ↔
      P f.location ∧ InPlaces P f.params ∧ InPlaces P f.body ∧ InPlaces P f.locals := by
  change (∀ l ∈ f.location :: (places f.params ++ (places f.body ++ places f.locals)), P l) ↔ _
  rw [List.forall_mem_cons, List.forall_mem_append, List.forall_mem_append]
  rfl

instance : HasPlaces Decl where
  places
    | .var v => places v
    | .function f => places f

/-- A result that keeps to places with a property: what is returned has such places only, and a
failure is reported at one. -/
inductive Keeps {α : Type} [HasPlaces α] (P : Location → Prop) : Except Diagnostic α → Prop
  | ok {a : α} : InPlaces P a → Keeps P (.ok a)
  | error {d : Diagnostic} {l : Location} : d.location? = some l → P l → Keeps P (.error d)

namespace Keeps

variable {α β : Type} [HasPlaces α] [HasPlaces β]

theorem bind {x : Except Diagnostic α} {f : α → Except Diagnostic β} (hx : Keeps P x)
    (hf : ∀ a, InPlaces P a → Keeps P (f a)) : Keeps P (x >>= f) := by
  cases hx with
  | ok ha => exact hf _ ha
  | error hl hP => exact .error hl hP

theorem inPlaces {a : α} (h : Keeps P (.ok a)) : InPlaces P a := by
  cases h
  assumption

theorem exists_location {d : Diagnostic} (h : Keeps P (.error d : Except Diagnostic α)) :
    ∃ l, d.location? = some l ∧ P l := by
  cases h
  exact ⟨_, ‹_›, ‹_›⟩

end Keeps

end Bpl
