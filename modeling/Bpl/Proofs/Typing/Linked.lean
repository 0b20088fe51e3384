import Bpl.Proofs.Lowering.Total
import Bpl.Proofs.Typing.Decision
import Bpl.Proofs.Typing.Plain
import Bpl.Proofs.Typing.Slots

namespace Bpl

/-- The variable that a name is linked to in a function. -/
inductive Program.Declares (q : Program) (f : Function) (x : String) : Slot → Variable → Prop
  | global {v : Variable} : v ∈ q.globals → v.name = x → q.Declares f x .global v
  | parameter {i : Nat} {v : Variable} : f.params[i]? = some v → q.Declares f x (.parameter i) v
  | localVar {i : Nat} {v : Variable} : f.locals[i]? = some v → q.Declares f x (.localVar i) v

/-- A variable that is noted with its declared type, an array that is passed as a pointer to its
elements, or a call with as many arguments as the function has parameters. -/
def Expr.LinkedIn (q : Program) (f : Function) : Expr → Prop
  | .var n x slot => ∃ v, q.Declares f x slot v ∧ n.ty = some v.ty ∧ v.ty.isFunction = false
  | .decay n x slot => ∃ v element length, q.Declares f x slot v ∧
      v.ty = .array element length ∧ n.ty = some (.pointer element)
  | .call _ x args => ∃ g ∈ q.functions, g.name = x ∧ g.params.length = args.length
  | _ => True

/-- What the run of a checked program relies on. -/
structure Program.Linked (q : Program) : Prop where
  distinct : (q.map Decl.name).Nodup
  main : ∃ f ∈ q.functions, f.name = "main" ∧ f.params = [] ∧ f.result = .void
  globals : ∀ v ∈ q.globals, v.Valid
  params : ∀ f ∈ q.functions, ∀ v ∈ f.params, v.ty.isArray = false
  own : ∀ f ∈ q.functions, ∀ v ∈ f.params ++ f.locals, v.Valid
  fits : ∀ f ∈ q.functions, Variable.totalSize f.locals ≤ Ty.maxObjectSize
  nodes : ∀ f ∈ q.functions, ∀ e ∈ f.body.exprs, ∀ x ∈ e.nodes, x.LinkedIn q f

namespace Program.Linked

variable {q : Program} {f g : Function}

theorem function_inj (hq : q.Linked) (hf : f ∈ q.functions) (hg : g ∈ q.functions)
    (hn : f.name = g.name) : f = g :=
  List.inj_on_of_nodup_map (q.functions_names_sublist.nodup hq.distinct) hf hg hn

/-- A function is found by its name. -/
theorem find?_function (hq : q.Linked) (hg : g ∈ q.functions) :
    q.functions.find? (·.name == g.name) = some g := by
  cases hfind : q.functions.find? (·.name == g.name) with
  | none =>
    have hnone := List.find?_eq_none.1 hfind g hg
    simp at hnone
  | some f =>
    have hname : f.name = g.name := by simpa using List.find?_some hfind
    rw [hq.function_inj (List.mem_of_find?_eq_some hfind) hg hname]

/-- The main function takes and gives nothing. -/
theorem of_isMain (hq : q.Linked) (hf : f ∈ q.functions) (h : f.isMain = true) :
    f.params = [] ∧ f.result = .void := by
  obtain ⟨g, hg, hn, hp, hr⟩ := hq.main
  have hfg : f = g := hq.function_inj hf hg ((beq_iff_eq.1 h).trans hn.symm)
  rw [hfg]
  exact ⟨hp, hr⟩

end Program.Linked

namespace Typing

variable {p q : Program}

theorem AllowsDecl.name {d d' : Decl} (h : AllowsDecl p d d') : d'.name = d.name := by
  cases h <;> rfl

theorem AllowsDecl.ty {d d' : Decl} (h : AllowsDecl p d d') : d'.ty = d.ty := by
  cases h <;> rfl

theorem map_name_of_allows {ds ds' : List Decl} (h : List.Forall₂ (AllowsDecl p) ds ds') :
    ds'.map Decl.name = ds.map Decl.name := by
  induction h with
  | nil => rfl
  | cons h _ ih => rw [List.map_cons, List.map_cons, h.name, ih]

/-- A view of a part of the function `f` of a checked program. -/
structure View.PartOf (w : View) (q : Program) (f : Function) : Prop where
  program : ∀ d ∈ w.program, ∃ d' ∈ q, d'.name = d.name ∧ d'.ty = d.ty
  params : w.params = f.params
  locals : w.locals <+: f.locals

theorem View.PartOf.declares {w : View} {f : Function} (h : w.PartOf q f) {x : String} {ty : Ty}
    {slot : Slot} (hs : w.Sees x ty slot) (hf : ty.isFunction = false) :
    ∃ v, q.Declares f x slot v ∧ v.name = x ∧ ty = v.ty := by
  cases hs with
  | parameter hi hn => exact ⟨_, .parameter (h.params ▸ hi), hn, rfl⟩
  | localVar hi hn =>
    refine ⟨_, .localVar ?_, hn, rfl⟩
    obtain ⟨t, ht⟩ := h.locals
    have hlt := (List.getElem?_eq_some_iff.1 hi).1
    rw [← ht, List.getElem?_append_left hlt]
    exact hi
  | global _ hd hn =>
    obtain ⟨d', hd', hname, hty⟩ := h.program _ hd
    rw [← hty] at hf
    cases d' with
    | var v =>
      exact ⟨v, .global (Program.mem_globals.2 hd') (hname.trans hn), hname.trans hn, hty.symm⟩
    | function g => cases hf

theorem View.PartOf.function {w : View} {f : Function} (h : w.PartOf q f) {d : Decl}
    {params : List Ty} {result : Ty} (hd : d ∈ w.program) (hty : d.ty = .function params result)
    (hv : ∀ v ∈ q.globals, v.ty.isFunction = false) :
    ∃ g ∈ q.functions, g.name = d.name ∧ g.params.map Variable.ty = params ∧
      g.result = result := by
  obtain ⟨d', hd', hn, ht⟩ := h.program d hd
  rw [hty] at ht
  cases d' with
  | var v =>
    have := hv v (Program.mem_globals.2 hd')
    rw [show v.ty = _ from ht] at this
    cases this
  | function g =>
    obtain ⟨hp, hr⟩ := Ty.function.inj ht
    exact ⟨g, Program.mem_functions.2 hd', hn, hp, hr⟩

theorem View.PartOf.linked {w : View} {f : Function} (h : w.PartOf q f)
    (hv : ∀ v ∈ q.globals, v.ty.isFunction = false) {e : Expr} (he : e.SeenIn w) :
    e.LinkedIn q f := by
  cases e with
  | var n x slot =>
    obtain ⟨ty, hs, hf, hty⟩ := he
    obtain ⟨v, hd, _, rfl⟩ := h.declares hs hf
    exact ⟨v, hd, hty, hf⟩
  | decay n x slot =>
    obtain ⟨ty, length, hs, hty⟩ := he
    obtain ⟨v, hd, _, ht⟩ := h.declares hs rfl
    exact ⟨v, _, _, hd, ht.symm, hty⟩
  | call n x args =>
    obtain ⟨d, hd, params, result, hn, ht, hlen, _⟩ := he
    obtain ⟨g, hg, hgn, hp, _⟩ := h.function hd ht hv
    refine ⟨g, hg, hgn.trans hn, ?_⟩
    rw [← hlen, ← hp, List.length_map]
  | _ => trivial

/-- A setting of the function `f` of a checked program. -/
structure Setting.PartOf (c : Setting) (q : Program) (f : Function) : Prop where
  program : ∀ d ∈ c.program, ∃ d' ∈ q, d'.name = d.name ∧ d'.ty = d.ty
  params : c.params = f.params

theorem Setting.PartOf.view {c : Setting} {f : Function} (h : c.PartOf q f)
    {ls vs : List Variable} (hl : ls ++ vs <+: f.locals) : (c.view ls).PartOf q f :=
  ⟨h.program, h.params, (List.prefix_append ls vs).trans hl⟩

end Typing

namespace Program

theorem Derives.isFunction_globals {p q : Program} (h : p.Derives q) (hp : p.Plain) :
    ∀ v ∈ q.globals, v.ty.isFunction = false := by
  intro v hv
  obtain ⟨d, hd, j⟩ := h.decls.exists_of_mem_right (mem_globals.1 hv)
  cases j with
  | var _ => exact Ty.isFunction_of_isDeclared (hp _ hd)

/-- Each item of a checked function sees a part of what the function declares. -/
theorem Derives.partOf {p q : Program} (h : p.Derives q) {f : Function} (hf : f ∈ q.functions)
    {before after : List Item} {i : Item} (hi : f.body.items = before ++ i :: after) :
    Typing.View.PartOf ⟨p, f.params, Item.declared before⟩ q f := by
  refine ⟨fun d hd => ?_, rfl, h.declared_prefix hf hi⟩
  obtain ⟨d', hd', j⟩ := h.decls.exists_of_mem_left hd
  exact ⟨d', hd', j.name, j.ty⟩

theorem Derives.distinct_right {p q : Program} (h : p.Derives q) : (q.map Decl.name).Nodup := by
  rw [Typing.map_name_of_allows h.decls]
  exact h.distinct

/-- A program that keeps the rules is linked by the check. -/
theorem Derives.linked {p q : Program} (h : p.Derives q) (hp : p.Plain) : q.Linked := by
  have hglobals := h.isFunction_globals hp
  refine ⟨h.distinct_right, ?_, ?_, ?_, ?_, fun f hf => h.totalSize_le hf, ?_⟩
  · obtain ⟨d, hd, hn, ht⟩ := h.main
    obtain ⟨d', hd', j⟩ := h.decls.exists_of_mem_left hd
    rw [← j.ty] at ht
    rw [← j.name] at hn
    cases d' with
    | var v =>
      have := hglobals v (mem_globals.2 hd')
      rw [show v.ty = _ from ht] at this
      cases this
    | function f =>
      obtain ⟨hparams, hresult⟩ := Ty.function.inj ht
      exact ⟨f, mem_functions.2 hd', hn, List.map_eq_nil_iff.1 hparams, hresult⟩
  · intro v hv
    obtain ⟨d, _, j⟩ := h.decls.exists_of_mem_right (mem_globals.1 hv)
    cases j with
    | var hv => exact hv
  · intro f hf
    obtain ⟨d, hd, j⟩ := h.decls.exists_of_mem_right (mem_functions.1 hf)
    cases j with
    | function _ _ _ _ => exact fun v hv => Ty.isArray_of_isSpec ((hp _ hd).2.1 v hv)
  · intro f hf
    obtain ⟨d, _, j⟩ := h.decls.exists_of_mem_right (mem_functions.1 hf)
    cases j with
    | function hv _ _ _ => exact hv
  · intro f hf e he x hx
    obtain ⟨before, i, after, hi, hie⟩ := Block.exists_item he
    exact (h.partOf hf hi).linked hglobals ((h.judged hf hi).parts hie x hx).seenIn

end Program

/-- What compiles is read, checked and lowered. -/
theorem exists_of_compile {source : String} {a : Assembly} (h : (compile source).outcome = .ok a) :
    ∃ ts p q, tokenize source = .ok ts ∧ parse ts = .ok p ∧ p.check.outcome = .ok q ∧
      q.lower = .ok a := by
  simp only [compile, analyze, Program.generate, Logged.outcome_bind_eq_ok,
    Logged.outcome_ofExcept_eq_ok, Except.bind_eq_ok_iff, Except.mapError_eq_ok_iff] at h
  obtain ⟨q, ⟨p, ⟨ts, hts, hp⟩, hq⟩, ha⟩ := h
  exact ⟨ts, p, q, hts, hp, hq, ha⟩

/-- What is analyzed with success is read and checked. -/
theorem exists_parse_of_analyze {source : String} {q : Program}
    (h : (analyze source).outcome = .ok q) :
    ∃ ts p, tokenize source = .ok ts ∧ parse ts = .ok p ∧ p.check.outcome = .ok q := by
  simp only [analyze, Logged.outcome_bind_eq_ok, Logged.outcome_ofExcept_eq_ok,
    Except.bind_eq_ok_iff] at h
  obtain ⟨p, ⟨ts, hts, hp⟩, hq⟩ := h
  exact ⟨ts, p, hts, hp, hq⟩

/-- What is analyzed with success keeps the rules. -/
theorem exists_derives_of_analyze {source : String} {q : Program}
    (h : (analyze source).outcome = .ok q) : ∃ p : Program, p.Plain ∧ p.Derives q := by
  obtain ⟨ts, p, _, hp, hq⟩ := exists_parse_of_analyze h
  exact ⟨p, plain_of_parse hp, Program.derives_of_check hp hq⟩

/-- What is analyzed with success compiles. -/
theorem exists_compile_of_analyze {source : String} {q : Program}
    (h : (analyze source).outcome = .ok q) :
    ∃ a, (compile source).outcome = .ok a ∧ q.lower = .ok a := by
  obtain ⟨p, _, hd⟩ := exists_derives_of_analyze h
  obtain ⟨a, ha⟩ := hd.exists_lower
  refine ⟨a, ?_, ha⟩
  simp only [compile, Program.generate, Logged.outcome_bind_eq_ok, Except.mapError_eq_ok_iff]
  exact ⟨q, h, ha⟩

/-- What is analyzed with success is linked. -/
theorem linked_of_analyze {source : String} {q : Program} (h : (analyze source).outcome = .ok q) :
    q.Linked := by
  obtain ⟨p, hp, hd⟩ := exists_derives_of_analyze h
  exact hd.linked hp

theorem exists_analyze_of_compile {source : String} {a : Assembly}
    (h : (compile source).outcome = .ok a) :
    ∃ q, (analyze source).outcome = .ok q ∧ q.lower = .ok a := by
  simp only [compile, Program.generate, Logged.outcome_bind_eq_ok,
    Except.mapError_eq_ok_iff] at h
  exact h

end Bpl
