import Bpl.Proofs.Tree.Parts
import Bpl.Proofs.Typing.Voids

namespace Bpl

namespace Ty

/-- Types of which no part is an array or a function. -/
def isThin : Ty → Bool
  | int | string | void => true
  | pointer t => t.isThin
  | array .. | function .. => false

theorem isThin_of_isBase {t : Ty} (h : t.isBase = true) : t.isThin = true := by
  cases t with
  | int | string | void => rfl
  | _ => cases h

theorem isThin_of_isSpec {t : Ty} (h : t.isSpec = true) : t.isThin = true := by
  cases t with
  | int | string | void => rfl
  | pointer t => exact isThin_of_isBase (t := t) h
  | _ => cases h

theorem isArray_of_isThin {t : Ty} (h : t.isThin = true) : t.isArray = false := by
  cases t with
  | array => cases h
  | _ => rfl

theorem isThin_of_base? {t element : Ty} (h : t.isThin = true) (hb : t.base? = some element) :
    element.isThin = true := by
  cases t with
  | pointer t =>
    cases hb
    exact h
  | array => cases h
  | _ => cases hb

/-- A type that can be declared holds arrays at its top only. -/
theorem isThin_or_array {t : Ty} (h : t.isDeclared = true) :
    t.isThin = true ∨ ∃ element length, t = .array element length ∧ element.isThin = true := by
  cases t with
  | array element length => exact .inr ⟨element, length, rfl, isThin_of_isBase h⟩
  | _ => exact .inl (isThin_of_isSpec h)

theorem isArray_of_isComparable {t : Ty} (h : t.isComparable = true) : t.isArray = false := by
  cases t with
  | array => cases h
  | _ => rfl

end Ty

namespace Program

variable {p q : Program} {f : Function}

/-- The check leaves the types of declarations as they are. -/
theorem Derives.plain (h : p.Derives q) (hp : p.Plain) : q.Plain := by
  intro d' hd'
  obtain ⟨d, hd, j⟩ := h.decls.exists_of_mem_right hd'
  cases j with
  | var _ => exact hp _ hd
  | function _ _ _ j =>
    obtain ⟨hresult, hparams, hlocals⟩ := hp _ hd
    exact ⟨hresult, hparams, j.locals.symm ▸ hlocals⟩

theorem Plain.isDeclared (hq : q.Plain) (hl : ∀ f ∈ q.functions, f.locals = f.body.locals) :
    ∀ v ∈ q.allVariables, v.ty.isDeclared = true := by
  intro v hv
  rcases List.mem_append.1 hv with hv | hv
  · exact hq _ (mem_globals.1 hv)
  · obtain ⟨f, hf, hv⟩ := List.mem_flatMap.1 hv
    obtain ⟨_, hparams, hlocals⟩ := hq _ (mem_functions.1 hf)
    rcases List.mem_append.1 hv with hv | hv
    · exact Ty.isDeclared_of_isSpec (hparams v hv)
    · exact hlocals v (hl f hf ▸ hv)

end Program

/-- An expression that is noted with the type of an array. -/
def Expr.hasArrayType (e : Expr) : Bool :=
  e.ty?.any Ty.isArray

def Expr.IsVar (e : Expr) : Prop :=
  ∃ n x slot, e = .var n x slot

def Expr.IsDecay (e : Expr) : Prop :=
  ∃ n x slot, e = .decay n x slot

/-- An array that is passed to a parameter which points to its elements. -/
inductive Program.Decays (q : Program) (f : Function) : Expr.Role → Expr → Prop
  | argument {g : Function} {k : Nat} {u v : Variable} {n : Note} {x : String} {slot : Slot}
      {element : Ty} {length : UInt64} :
      g ∈ q.functions → g.params[k]? = some u → u.ty = .pointer element →
        q.Declares f x slot v → v.ty = .array element length → n.ty = some (.pointer element) →
          q.Decays f (.argument g.name k) (.decay n x slot)

namespace Typing

variable {w : View} {q : Program} {f : Function}

theorem PassesAll.exists_passes {es es' : List Expr} {tys : List Ty} (h : PassesAll w es tys es')
    {k : Nat} {y : Expr} (hk : es'[k]? = some y) : ∃ e ty, tys[k]? = some ty ∧ Passes w e ty y := by
  induction es generalizing tys es' k with
  | nil =>
    cases h
    cases hk
  | cons e es ih =>
    cases h with
    | cons h hs =>
      cases k with
      | zero =>
        cases hk
        exact ⟨_, _, rfl, h⟩
      | succ k => exact ih hs hk

/-- What a program declares, as the text of a program can spell it. -/
structure Spelled (q : Program) : Prop where
  plain : q.Plain
  declared : ∀ v ∈ q.allVariables, v.ty.isDeclared = true

theorem Spelled.isFunction_globals (hq : Spelled q) : ∀ v ∈ q.globals, v.ty.isFunction = false :=
  fun v hv => Ty.isFunction_of_isDeclared (hq.declared v (List.mem_append_left _ hv))

theorem Spelled.isFunction_own (hq : Spelled q) (hf : f ∈ q.functions) :
    ∀ v ∈ f.params ++ f.locals, v.ty.isFunction = false :=
  fun _ hv => Ty.isFunction_of_isDeclared (hq.declared _ (Program.mem_allVariables_of_own hf hv))

/-- The type of a judged expression has no arrays in it, or the expression names an array. -/
theorem Judges.isThin_or_var (hq : Spelled q) (hf : f ∈ q.functions) (hw : w.PartOf q f)
    {e e' : Expr} {ty : Ty} {a : Bool} (j : Judges w e ty a e') : ty.isThin = true ∨
      a = false ∧ (∃ element length, ty = .array element length ∧ element.isThin = true) ∧
        ∃ n x slot, e' = .var n x slot := by
  cases j with
  | number | string | read | comparison | arithmetic | neg => exact .inl rfl
  | name hs hn =>
    obtain ⟨v, hd, _, rfl⟩ := hw.declares hs hn
    rcases Ty.isThin_or_array (hq.declared v (hd.mem_allVariables hf)) with h | ⟨t, n, h, ht⟩
    · exact .inl h
    · exact .inr ⟨by rw [h]; rfl, ⟨t, n, h, ht⟩, _, _, _, rfl⟩
  | assign jt _ _ => exact .inl ((jt.isThin_or_var hq hf hw).resolve_right nofun)
  | address j _ => exact .inl ((j.isThin_or_var hq hf hw).resolve_right nofun : Ty.isThin _ = true)
  | deref j =>
    rcases j.isThin_or_var hq hf hw with h | ⟨_, ⟨_, _, h, _⟩, _⟩
    · exact .inl h
    · cases h
  | index jb hb _ =>
    rcases jb.isThin_or_var hq hf hw with h | ⟨_, ⟨_, _, rfl, ht⟩, _⟩
    · exact .inl (Ty.isThin_of_base? h hb)
    · cases hb
      exact .inl ht
  | call hd hty _ =>
    obtain ⟨g, hg, _, _, rfl⟩ := hw.function hd hty hq.isFunction_globals
    exact .inl (Ty.isThin_of_isSpec (hq.plain _ (Program.mem_functions.1 hg)).1)

/-- What is judged to be an array is a variable. -/
theorem Judges.isVar_of_isArray (hq : Spelled q) (hf : f ∈ q.functions) (hw : w.PartOf q f)
    {e e' : Expr} {ty : Ty} {a : Bool} (j : Judges w e ty a e') (h : e'.hasArrayType = true) :
    e'.IsVar := by
  rw [Expr.hasArrayType, j.ty?, Option.any_some] at h
  rcases j.isThin_or_var hq hf hw with hthin | ⟨_, _, hvar⟩
  · rw [Ty.isArray_of_isThin hthin] at h
    cases h
  · exact hvar

theorem Judges.isArray_of_lvalue (hq : Spelled q) (hf : f ∈ q.functions) (hw : w.PartOf q f)
    {e e' : Expr} {ty : Ty} (j : Judges w e ty true e') : ty.isArray = false :=
  Ty.isArray_of_isThin ((j.isThin_or_var hq hf hw).resolve_right nofun)

/-- A part of an expression is judged, and is no array if it is no base of an index, or it is an
array that is passed. -/
def PartAt (w : View) (q : Program) (f : Function) (role : Expr.Role) (y : Expr) : Prop :=
  (∃ e ty a, Judges w e ty a y ∧ (ty.isArray = true → role = .base)) ∨ q.Decays f role y

theorem Judges.partAt {e y : Expr} {ty : Ty} {a : Bool} (j : Judges w e ty a y)
    (h : ty.isArray = false) (role : Expr.Role) : PartAt w q f role y :=
  .inl ⟨e, ty, a, j, fun ht => absurd (h.symm.trans ht) Bool.false_ne_true⟩

theorem Passes.partAt (hq : Spelled q) (hw : w.PartOf q f) {g : Function} (hg : g ∈ q.functions)
    {k : Nat} {u : Variable} (hu : g.params[k]? = some u) {e y : Expr} (h : Passes w e u.ty y) :
    PartAt w q f (.argument g.name k) y := by
  have hspec : u.ty.isSpec = true :=
    (hq.plain _ (Program.mem_functions.1 hg)).2.1 u (List.mem_of_getElem? hu)
  generalize hty : u.ty = ty at h
  cases h with
  | value j _ => exact j.partAt (hty ▸ Ty.isArray_of_isSpec hspec) _
  | decay hs =>
    obtain ⟨v, hd, _, hv⟩ := hw.declares hs rfl
    exact .inr (.argument hg hu hty hd hv.symm rfl)

/-- The parts of a judged expression. -/
theorem Judges.parts_at (hq : Spelled q) (hf : f ∈ q.functions) (hw : w.PartOf q f) {e x : Expr}
    {ty : Ty} {a : Bool} (j : Judges w e ty a x) {role : Expr.Role} {y : Expr}
    (hy : (role, y) ∈ x.parts) : PartAt w q f role y := by
  cases j with
  | number | string | read | name => cases hy
  | assign jt _ jv =>
    have hty := jt.isArray_of_lvalue hq hf hw
    simp only [Expr.parts, List.mem_cons, Prod.mk.injEq, List.not_mem_nil, or_false] at hy
    rcases hy with ⟨rfl, rfl⟩ | ⟨rfl, rfl⟩
    · exact jt.partAt hty _
    · exact jv.partAt hty _
  | comparison _ jl hc jr =>
    have hty := Ty.isArray_of_isComparable hc
    simp only [Expr.parts, List.mem_cons, Prod.mk.injEq, List.not_mem_nil, or_false] at hy
    rcases hy with ⟨rfl, rfl⟩ | ⟨rfl, rfl⟩
    · exact jl.partAt hty _
    · exact jr.partAt hty _
  | arithmetic _ jl jr =>
    simp only [Expr.parts, List.mem_cons, Prod.mk.injEq, List.not_mem_nil, or_false] at hy
    rcases hy with ⟨rfl, rfl⟩ | ⟨rfl, rfl⟩
    · exact jl.partAt rfl _
    · exact jr.partAt rfl _
  | neg j | deref j =>
    obtain ⟨rfl, rfl⟩ := Prod.mk.inj (List.mem_singleton.1 hy)
    exact j.partAt rfl _
  | address j _ =>
    obtain ⟨rfl, rfl⟩ := Prod.mk.inj (List.mem_singleton.1 hy)
    exact j.partAt (j.isArray_of_lvalue hq hf hw) _
  | index jb hb ji =>
    simp only [Expr.parts, List.mem_cons, Prod.mk.injEq, List.not_mem_nil, or_false] at hy
    rcases hy with ⟨rfl, rfl⟩ | ⟨rfl, rfl⟩
    · exact .inl ⟨_, _, _, jb, fun _ => rfl⟩
    · exact ji.partAt rfl _
  | call hd hty ja =>
    obtain ⟨g, hg, hn, rfl, _⟩ := hw.function hd hty hq.isFunction_globals
    obtain ⟨k, hk, he⟩ := List.mem_mapIdx.1 hy
    obtain ⟨rfl, rfl⟩ := Prod.mk.inj he
    obtain ⟨e, ty, ht, hp⟩ := ja.exists_passes (List.getElem?_eq_getElem hk)
    rw [List.getElem?_map] at ht
    obtain ⟨u, hu, rfl⟩ := Option.map_eq_some_iff.1 ht
    exact hn ▸ hp.partAt hq hw hg hu

theorem PartIn.parts_at (hq : Spelled q) (hf : f ∈ q.functions) (hw : w.PartOf q f) {x : Expr}
    (h : PartIn w x) {role : Expr.Role} {y : Expr} (hy : (role, y) ∈ x.parts) :
    PartAt w q f role y := by
  rcases h with ⟨_, _, _, j⟩ | ⟨_, _, j | _⟩
  · exact j.parts_at hq hf hw hy
  · exact j.parts_at hq hf hw hy
  · cases hy

/-- What is known of a part, without what was judged. -/
theorem PartAt.confined (hq : Spelled q) (hf : f ∈ q.functions) (hw : w.PartOf q f)
    {role : Expr.Role} {y : Expr} (h : PartAt w q f role y) :
    (y.hasArrayType = true → role = .base ∧ y.IsVar) ∧ (y.IsDecay → q.Decays f role y) := by
  rcases h with ⟨e, ty, a, j, hrole⟩ | h
  · constructor
    · intro hty
      have harray : ty.isArray = true := by rwa [Expr.hasArrayType, j.ty?] at hty
      exact ⟨hrole harray, j.isVar_of_isArray hq hf hw hty⟩
    · rintro ⟨n, x, slot, rfl⟩
      cases j
  · refine ⟨fun hty => ?_, fun _ => h⟩
    cases h with
    | @argument _ _ _ _ n x slot _ _ _ _ _ _ _ hn =>
      rw [Expr.hasArrayType, show (Expr.decay n x slot).ty? = n.ty from rfl, hn] at hty
      cases hty

variable {c : Setting}

mutual

/-- The value of an expression is used as an integer, a string or the result of the function. -/
theorem Allows.ty_of_uses {ls : List Variable} {s s' : Stmt} : Allows c ls s s' →
    ∀ e, .uses e ∈ s'.items → e.ty? = some .int ∨ e.ty? = some .string ∨ e.ty? = some c.result
  | .compound j => j.ty_of_uses
  | .ifThen jc jy => fun e he => by
    rcases List.mem_cons.1 he with he | he
    · cases he
      exact .inl jc.ty?
    · exact jy.ty_of_uses e he
  | .ifElse jc jy jn => fun e he => by
    rcases List.mem_cons.1 he with he | he
    · cases he
      exact .inl jc.ty?
    · rcases List.mem_append.1 he with he | he
      · exact jy.ty_of_uses e he
      · exact jn.ty_of_uses e he
  | .whileDo jc jb => fun e he => by
    rcases List.mem_cons.1 he with he | he
    · cases he
      exact .inl jc.ty?
    · exact jb.ty_of_uses e he
  | .retNone _ | .writeln => fun e he => by cases he
  | .retSome _ j => fun e he => by
    cases List.mem_singleton.1 he
    exact .inr (.inr j.ty?)
  | .expr j => fun e he => by cases List.mem_singleton.1 he
  | .write j hty => fun e he => by
    cases List.mem_singleton.1 he
    rcases hty with rfl | rfl
    · exact .inl j.ty?
    · exact .inr (.inl j.ty?)

theorem AllowsBlock.ty_of_uses {ls : List Variable} {b b' : Block} : AllowsBlock c ls b b' →
    ∀ e, .uses e ∈ b'.items → e.ty? = some .int ∨ e.ty? = some .string ∨ e.ty? = some c.result
  | .mk j => fun e he => by
    rcases List.mem_append.1 he with he | he
    · obtain ⟨_, _, he⟩ := List.mem_map.1 he
      cases he
    · exact j.ty_of_uses e he

theorem AllowsAll.ty_of_uses {ls : List Variable} {ss ss' : List Stmt} : AllowsAll c ls ss ss' →
    ∀ e, .uses e ∈ Stmt.itemsOfList ss' →
      e.ty? = some .int ∨ e.ty? = some .string ∨ e.ty? = some c.result
  | .nil => fun e he => by cases he
  | .cons j js => fun e he => by
    rcases List.mem_append.1 he with he | he
    · exact j.ty_of_uses e he
    · exact js.ty_of_uses e he

end

end Typing

theorem Item.JudgedIn.exists_judges {w : Typing.View} {i : Item} (h : i.JudgedIn w) {e : Expr}
    (he : i.expr? = some e) : ∃ e₀ ty a, Typing.Judges w e₀ ty a e := by
  cases i with
  | declares v => cases he
  | uses e' =>
    cases he
    obtain ⟨e₀, ty, a, j, _⟩ := h
    exact ⟨e₀, ty, a, j⟩
  | stands e' =>
    cases he
    exact h

/-- Arrays of the function `f` are named where they are indexed, where they are passed as pointers,
and where they stand as statements. No value that is used is an array. -/
structure Program.Confines (q : Program) (f : Function) : Prop where
  uses : ∀ e, .uses e ∈ f.body.items → e.hasArrayType = false ∧ ¬ e.IsDecay
  stands : ∀ e, .stands e ∈ f.body.items → (e.hasArrayType = true → e.IsVar) ∧ ¬ e.IsDecay
  parts : ∀ e ∈ f.body.exprs, ∀ x ∈ e.nodes, ∀ role y, (role, y) ∈ x.parts →
    (y.hasArrayType = true → role = .base ∧ y.IsVar) ∧ (y.IsDecay → q.Decays f role y)
  passed : ∀ e ∈ f.body.exprs, ∀ x ∈ e.nodes, ∀ callee k y, (.argument callee k, y) ∈ x.parts →
    ∀ n z slot v, y = .var n z slot ∨ y = .decay n z slot → q.Declares f z slot v →
      v.ty.isArray = true → q.Decays f (.argument callee k) y
  nodes : ∀ i ∈ f.body.items, ∀ e, i.expr? = some e → ∀ r ∈ e.nodes, r.hasArrayType = true →
    r.IsVar ∧ (i = .stands r ∨ ∃ n j, .index n r j ∈ e.nodes)

namespace Program

variable {p q : Program} {f : Function}

theorem Derives.spelled (h : p.Derives q) (hp : p.Plain) : Typing.Spelled q := by
  have hq := h.plain hp
  exact ⟨hq, hq.isDeclared fun f hf => h.locals hf⟩

theorem Derives.ty_of_uses (h : p.Derives q) (hf : f ∈ q.functions) {e : Expr}
    (he : .uses e ∈ f.body.items) :
    e.ty? = some .int ∨ e.ty? = some .string ∨ e.ty? = some f.result := by
  obtain ⟨g, _, _, _, j⟩ := h.exists_function hf
  exact j.ty_of_uses e he

/-- A name in a place is linked to one variable only. -/
theorem Linked.declares_unique (hq : q.Linked) {x : String} {slot : Slot} {u v : Variable}
    (hu : q.Declares f x slot u) (hv : q.Declares f x slot v) : u = v := by
  cases hu with
  | global hu hn =>
    cases hv with
    | global hv hn' =>
      exact List.inj_on_of_nodup_map (q.globals_names_sublist.nodup hq.distinct) hu hv
        (hn.trans hn'.symm)
  | parameter hu =>
    cases hv with
    | parameter hv => exact Option.some.inj (hu.symm.trans hv)
  | localVar hu =>
    cases hv with
    | localVar hv => exact Option.some.inj (hu.symm.trans hv)

/-- A variable is noted with the type that it is declared with. -/
theorem Linked.ty?_var (hq : q.Linked) (hf : f ∈ q.functions) {e : Expr} (he : e ∈ f.body.exprs)
    {n : Note} {x : String} {slot : Slot} (hx : .var n x slot ∈ e.nodes) {v : Variable}
    (hv : q.Declares f x slot v) : (Expr.var n x slot).ty? = some v.ty := by
  obtain ⟨u, hu, hty, _⟩ := hq.nodes f hf e he _ hx
  rw [hq.declares_unique hv hu]
  exact hty

section confines

variable (h : p.Derives q) (hp : p.Plain) (hf : f ∈ q.functions)
include h hp hf

theorem Derives.hasArrayType_of_uses {e : Expr} (he : .uses e ∈ f.body.items) :
    e.hasArrayType = false := by
  have hresult : f.result.isArray = false :=
    Ty.isArray_of_isSpec ((h.spelled hp).plain _ (mem_functions.1 hf)).1
  rw [Expr.hasArrayType]
  rcases h.ty_of_uses hf he with hty | hty | hty <;> rw [hty]
  · rfl
  · rfl
  · exact hresult

theorem Derives.confined_item {i : Item} (hi : i ∈ f.body.items) {e : Expr}
    (he : i.expr? = some e) : (e.hasArrayType = true → e.IsVar) ∧ ¬ e.IsDecay := by
  obtain ⟨before, after, hi⟩ := List.append_of_mem hi
  obtain ⟨e₀, ty, a, j⟩ := Item.JudgedIn.exists_judges (h.judged hf hi) he
  refine ⟨j.isVar_of_isArray (h.spelled hp) hf (h.partOf hf hi), ?_⟩
  rintro ⟨n, x, slot, rfl⟩
  cases j

theorem Derives.confined_part {e x y : Expr} {role : Expr.Role} (he : e ∈ f.body.exprs)
    (hx : x ∈ e.nodes) (hy : (role, y) ∈ x.parts) :
    (y.hasArrayType = true → role = .base ∧ y.IsVar) ∧ (y.IsDecay → q.Decays f role y) := by
  have hq := h.spelled hp
  obtain ⟨before, i, after, hi, hie⟩ := Block.exists_item he
  have hw := h.partOf hf hi
  exact (((h.judged hf hi).parts hie x hx).parts_at hq hf hw hy).confined hq hf hw

/-- A name or a pointer to an array that is an argument is passed as a pointer: the name itself
would have the type of the array, which no argument has. -/
theorem Derives.decays_of_argument {e x y : Expr} {callee : String} {k : Nat}
    (he : e ∈ f.body.exprs) (hx : x ∈ e.nodes) (hy : (.argument callee k, y) ∈ x.parts)
    {n : Note} {z : String} {slot : Slot} {v : Variable}
    (hyz : y = .var n z slot ∨ y = .decay n z slot) (hv : q.Declares f z slot v)
    (harray : v.ty.isArray = true) : q.Decays f (.argument callee k) y := by
  obtain ⟨hbase, hdecays⟩ := h.confined_part hp hf he hx hy
  rcases hyz with rfl | rfl
  · have hmem := Expr.nodes_subset e hx (Expr.mem_nodes_of_part hy)
    have hty := (h.linked hp).ty?_var hf he hmem hv
    have hnoted : (Expr.var n z slot).hasArrayType = true := by
      rw [Expr.hasArrayType, hty]
      exact harray
    cases (hbase hnoted).1
  · exact hdecays ⟨n, z, slot, rfl⟩

/-- What is noted as an array is a statement of its own, or the base of an indexing. -/
theorem Derives.isVar_of_hasArrayType {i : Item} (hi : i ∈ f.body.items) {e r : Expr}
    (hie : i.expr? = some e) (hr : r ∈ e.nodes) (hty : r.hasArrayType = true) :
    r.IsVar ∧ (i = .stands r ∨ ∃ n j, .index n r j ∈ e.nodes) := by
  have he : e ∈ f.body.exprs := by
    rw [← f.body.exprs_items]
    exact List.mem_filterMap.2 ⟨i, hi, hie⟩
  rcases Expr.eq_or_hasPart e hr with rfl | ⟨x, hx, role, hrx⟩
  · refine ⟨(h.confined_item hp hf hi hie).1 hty, .inl ?_⟩
    cases i with
    | declares v => cases hie
    | uses e =>
      cases hie
      rw [h.hasArrayType_of_uses hp hf hi] at hty
      cases hty
    | stands e =>
      cases hie
      rfl
  · obtain ⟨rfl, hvar⟩ := (h.confined_part hp hf he hx hrx).1 hty
    obtain ⟨n, j, rfl⟩ := Expr.exists_index_of_base hrx
    exact ⟨hvar, .inr ⟨n, j, hx⟩⟩

theorem Derives.confines : q.Confines f where
  uses := fun _ he => ⟨h.hasArrayType_of_uses hp hf he, (h.confined_item hp hf he rfl).2⟩
  stands := fun _ he => h.confined_item hp hf he rfl
  parts := fun _ he _ hx _ _ hy => h.confined_part hp hf he hx hy
  passed := fun _ he _ hx _ _ _ hy _ _ _ _ hyz hv harray =>
    h.decays_of_argument hp hf he hx hy hyz hv harray
  nodes := fun _ hi _ hie _ hr hty => h.isVar_of_hasArrayType hp hf hi hie hr hty

end confines

end Program

theorem spelled_of_analyze {source : String} {q : Program}
    (h : (analyze source).outcome = .ok q) : Typing.Spelled q := by
  obtain ⟨p, hp, hd⟩ := exists_derives_of_analyze h
  exact hd.spelled hp

end Bpl
