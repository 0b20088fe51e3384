import Bpl.Proofs.Tree.Items
import Bpl.Proofs.Typing.Program

namespace Bpl

/-- A reference to what a place sees: a variable with its type, an array that is passed as a
pointer, or the call of a function. -/
def Expr.SeenIn (w : Typing.View) : Expr → Prop
  | .var n x slot => ∃ ty, w.Sees x ty slot ∧ ty.isFunction = false ∧ n.ty = some ty
  | .decay n x slot => ∃ ty length, w.Sees x (.array ty length) slot ∧ n.ty = some (.pointer ty)
  | .call n x args => ∃ d ∈ w.program, ∃ params result, d.name = x ∧
      d.ty = .function params result ∧ params.length = args.length ∧ n.ty = some result
  | _ => True

namespace Typing

theorem PassesAll.length_right {w : View} {es es' : List Expr} {tys : List Ty}
    (h : PassesAll w es tys es') : es'.length = tys.length := by
  induction es generalizing tys es' with
  | nil => cases h; rfl
  | cons e es ih =>
    cases h with
    | cons _ h => simp [ih h]

/-- A part of a judged expression: it is judged itself, or it is an argument that is passed. -/
def PartIn (w : View) (x : Expr) : Prop :=
  (∃ e ty a, Judges w e ty a x) ∨ ∃ e ty, Passes w e ty x

theorem Judges.partIn {w : View} {e e' : Expr} {ty : Ty} {a : Bool} (j : Judges w e ty a e') :
    PartIn w e' :=
  .inl ⟨_, _, _, j⟩

mutual

theorem Judges.parts {w : View} {e e' : Expr} {ty : Ty} {a : Bool} :
    Judges w e ty a e' → ∀ x ∈ e'.nodes, PartIn w x
  | j@.number | j@.string | j@.read | j@(.name _ _) => List.forall_mem_singleton.2 j.partIn
  | j@(.assign jt _ jv) => List.forall_mem_cons.2
    ⟨j.partIn, List.forall_mem_append.2 ⟨jt.parts, jv.parts⟩⟩
  | j@(.comparison _ jl _ jr) | j@(.arithmetic _ jl jr) => List.forall_mem_cons.2
    ⟨j.partIn, List.forall_mem_append.2 ⟨jl.parts, jr.parts⟩⟩
  | j@(.neg je) | j@(.address je _) | j@(.deref je) => List.forall_mem_cons.2 ⟨j.partIn, je.parts⟩
  | j@(.index jb _ ji) => List.forall_mem_cons.2
    ⟨j.partIn, List.forall_mem_append.2 ⟨jb.parts, ji.parts⟩⟩
  | j@(.call _ _ ja) => List.forall_mem_cons.2 ⟨j.partIn, ja.parts⟩

theorem PassesAll.parts {w : View} {es es' : List Expr} {tys : List Ty} :
    PassesAll w es tys es' → ∀ x ∈ Expr.nodesOfList es', PartIn w x
  | .nil => by simp [Expr.nodesOfList]
  | .cons (.value j _) js => List.forall_mem_append.2 ⟨j.parts, js.parts⟩
  | .cons (.decay hs) js => List.forall_mem_cons.2 ⟨.inr ⟨_, _, .decay hs⟩, js.parts⟩

end

/-- A part of a judged expression refers to what its place sees. -/
theorem PartIn.seenIn {w : View} {x : Expr} (h : PartIn w x) : x.SeenIn w := by
  have judged : ∀ {e : Expr} {ty : Ty} {a : Bool}, Judges w e ty a x → x.SeenIn w := by
    intro e ty a j
    cases j with
    | name hs hf => exact ⟨_, hs, hf, rfl⟩
    | call hd hty ja => exact ⟨_, hd, _, _, rfl, hty, ja.length_right.symm, rfl⟩
    | _ => trivial
  rcases h with ⟨_, _, _, j⟩ | ⟨_, _, _ | hs⟩
  · exact judged j
  · exact judged ‹_›
  · exact ⟨_, _, hs, rfl⟩

/-- A part of a judged expression has a type. -/
theorem PartIn.ty?_ne_none {w : View} {x : Expr} (h : PartIn w x) : x.ty? ≠ none := by
  have judged : ∀ {e : Expr} {ty : Ty} {a : Bool}, Judges w e ty a x → x.ty? ≠ none := by
    intro e ty a j
    rw [j.ty?]
    exact Option.some_ne_none ty
  rcases h with ⟨_, _, _, j⟩ | ⟨_, _, j⟩
  · exact judged j
  · cases j with
    | value j _ => exact judged j
    | decay _ => exact Option.some_ne_none _

end Typing

/-- An item at a place that sees `w`. An expression of which the value is used has one. -/
def Item.JudgedIn (w : Typing.View) : Item → Prop
  | .declares _ => True
  | .uses e => ∃ e₀ ty a, Typing.Judges w e₀ ty a e ∧ ty ≠ .void
  | .stands e => ∃ e₀ ty a, Typing.Judges w e₀ ty a e

theorem Item.JudgedIn.parts {w : Typing.View} {i : Item} (h : i.JudgedIn w) {e : Expr}
    (he : i.expr? = some e) : ∀ x ∈ e.nodes, Typing.PartIn w x := by
  cases i with
  | declares v => cases he
  | uses e' =>
    cases he
    obtain ⟨_, _, _, j, _⟩ := h
    exact j.parts
  | stands e' =>
    cases he
    obtain ⟨_, _, _, j⟩ := h
    exact j.parts

namespace Typing

/-- Items that are each judged after the declarations before it, of which `ls` are the first. -/
def Setting.Judged (c : Setting) : List Variable → List Item → Prop
  | _, [] => True
  | ls, i :: is => i.JudgedIn (c.view ls) ∧ c.Judged (ls ++ Item.declared [i]) is

variable {c : Setting} {ls : List Variable}

theorem Setting.judged_append {is js : List Item} :
    c.Judged ls (is ++ js) ↔ c.Judged ls is ∧ c.Judged (ls ++ Item.declared is) js := by
  induction is generalizing ls with
  | nil => simp [Setting.Judged, Item.declared]
  | cons i is ih =>
    rw [List.cons_append, Setting.Judged, Setting.Judged, ih, and_assoc, List.append_assoc,
      ← Item.declared_append, List.singleton_append]

theorem Setting.judged_map (vs : List Variable) : c.Judged ls (vs.map .declares) := by
  induction vs generalizing ls with
  | nil => trivial
  | cons v vs ih => exact ⟨trivial, ih⟩

theorem Setting.judged_uses {w e : Expr} {ty : Ty} {a : Bool} {is : List Item}
    (j : Judges (c.view ls) w ty a e) (hv : ty ≠ .void) (hs : c.Judged ls is) :
    c.Judged ls (.uses e :: is) := by
  refine ⟨⟨_, _, _, j, hv⟩, ?_⟩
  rw [show Item.declared [.uses e] = [] from rfl, List.append_nil]
  exact hs

mutual

theorem Allows.locals {s s' : Stmt} {ls : List Variable} : Allows c ls s s' → s'.locals = s.locals
  | .compound j => j.locals
  | .ifThen _ jy => jy.locals
  | .ifElse _ jy jn => by rw [Stmt.locals, Stmt.locals, jy.locals, jn.locals]
  | .whileDo _ jb => jb.locals
  | .retNone _ | .retSome _ _ | .expr _ | .write _ _ | .writeln => rfl

theorem AllowsBlock.locals {b b' : Block} {ls : List Variable} :
    AllowsBlock c ls b b' → b'.locals = b.locals
  | .mk j => by rw [Block.locals, Block.locals, j.locals]

theorem AllowsAll.locals {ss ss' : List Stmt} {ls : List Variable} :
    AllowsAll c ls ss ss' → Stmt.localsOfList ss' = Stmt.localsOfList ss
  | .nil => rfl
  | .cons j js => by rw [Stmt.localsOfList, Stmt.localsOfList, j.locals, js.locals]

end

mutual

/-- Each expression of an allowed statement is judged after the declarations before it. -/
theorem Allows.judged {ls : List Variable} {s s' : Stmt} :
    Allows c ls s s' → c.Judged ls s'.items
  | .compound j => j.judged
  | .ifThen jc jy => Setting.judged_uses jc nofun jy.judged
  | .ifElse jc jy jn => by
    refine Setting.judged_uses jc nofun (Setting.judged_append.2 ⟨jy.judged, ?_⟩)
    rw [Stmt.declared_items, jy.locals]
    exact jn.judged
  | .whileDo jc jb => Setting.judged_uses jc nofun jb.judged
  | .retNone _ | .writeln => trivial
  | .retSome hv j => Setting.judged_uses j hv trivial
  | .expr j => ⟨⟨_, _, _, j⟩, trivial⟩
  | .write j hty => Setting.judged_uses j (by rcases hty with rfl | rfl <;> nofun) trivial

theorem AllowsBlock.judged {ls : List Variable} {b b' : Block} :
    AllowsBlock c ls b b' → c.Judged ls b'.items
  | .mk j => by
    refine Setting.judged_append.2 ⟨Setting.judged_map _, ?_⟩
    rw [Item.declared_map]
    exact j.judged

theorem AllowsAll.judged {ls : List Variable} {ss ss' : List Stmt} :
    AllowsAll c ls ss ss' → c.Judged ls (Stmt.itemsOfList ss')
  | .nil => trivial
  | .cons j js => by
    refine Setting.judged_append.2 ⟨j.judged, ?_⟩
    rw [Stmt.declared_items, j.locals]
    exact js.judged

end

end Typing

namespace Program.Derives

variable {p q : Program} {f : Function}

/-- What a checked function comes from. -/
theorem exists_function (h : p.Derives q) (hf : f ∈ q.functions) :
    ∃ g ∈ p.functions, f.params = g.params ∧ f.locals = g.body.locals ∧
      Typing.AllowsBlock ⟨p, f.params, f.result⟩ [] g.body f.body := by
  obtain ⟨d, hd, j⟩ := h.decls.exists_of_mem_right (mem_functions.1 hf)
  cases j with
  | function _ _ _ j => exact ⟨_, mem_functions.2 hd, rfl, rfl, j⟩

/-- A checked function has the variables of all its blocks as its locals. -/
theorem locals (h : p.Derives q) (hf : f ∈ q.functions) : f.locals = f.body.locals := by
  obtain ⟨g, _, _, hl, j⟩ := h.exists_function hf
  rw [j.locals, hl]

theorem nodup_names (h : p.Derives q) (hf : f ∈ q.functions) :
    ((f.params ++ f.locals).map Variable.name).Nodup := by
  obtain ⟨d, _, j⟩ := h.decls.exists_of_mem_right (mem_functions.1 hf)
  cases j with
  | function _ hn _ _ => exact hn

/-- Each item of a checked function is judged after the declarations before it. -/
theorem judged (h : p.Derives q) (hf : f ∈ q.functions) {before after : List Item} {i : Item}
    (hi : f.body.items = before ++ i :: after) :
    i.JudgedIn ⟨p, f.params, Item.declared before⟩ := by
  obtain ⟨g, _, _, _, j⟩ := h.exists_function hf
  have hj := j.judged
  rw [hi, Typing.Setting.judged_append, List.nil_append] at hj
  exact hj.2.1

/-- What an item of a checked function sees of the locals is part of all of them. -/
theorem declared_prefix (h : p.Derives q) (hf : f ∈ q.functions) {before after : List Item}
    {i : Item} (hi : f.body.items = before ++ i :: after) : Item.declared before <+: f.locals := by
  rw [h.locals hf, ← f.body.declared_items, hi, Item.declared_append]
  exact List.prefix_append _ _

end Program.Derives

end Bpl
