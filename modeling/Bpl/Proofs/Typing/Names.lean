import Bpl.Proofs.Typing.Rules
import Bpl.Typing.Program

namespace Bpl

namespace Scope

theorem find?_eq_some_iff {s : Scope} {x : String} {y : Symbol} :
    s.find? x = some y ↔ y ∈ s.symbols ∧ y.name = x := by
  constructor
  · intro h
    exact ⟨List.mem_of_find?_eq_some h, by simpa using List.find?_some h⟩
  · rintro ⟨hy, rfl⟩
    cases h : s.find? y.name with
    | none => exact absurd (List.find?_eq_none.1 h y hy) (by simp)
    | some z =>
      have hz : z.name = y.name := by simpa using List.find?_some h
      rw [List.inj_on_of_nodup_map s.distinct (List.mem_of_find?_eq_some h) hy hz]

theorem find?_eq_none_iff {s : Scope} {x : String} :
    s.find? x = none ↔ ∀ y ∈ s.symbols, y.name ≠ x := by
  simp [find?]

theorem declare_eq_ok_iff {s s' : Scope} {x : Symbol} :
    s.declare x = .ok s' ↔ s'.symbols = x :: s.symbols := by
  unfold declare
  constructor
  · intro h
    split at h
    · cases h
    · cases h; rfl
  · intro h
    have hd := s'.distinct
    rw [h, List.map_cons, List.nodup_cons] at hd
    rw [dif_neg hd.1]
    exact congrArg Except.ok (Scope.ext h.symm)

/-- A name can be declared if a scope that goes on from there exists. -/
theorem exists_declare {s s' : Scope} {x : Symbol} {xs : List Symbol}
    (h : s'.symbols = xs ++ x :: s.symbols) :
    ∃ s₁, s.declare x = .ok s₁ ∧ s'.symbols = xs ++ s₁.symbols := by
  have hd := s'.distinct
  rw [h, List.map_append, List.nodup_append] at hd
  exact ⟨⟨x :: s.symbols, hd.2.1⟩, declare_eq_ok_iff.2 rfl, h⟩

end Scope

/-- How the whole program knows a declaration. -/
def Decl.symbol (d : Decl) : Symbol :=
  ⟨d.name, d.ty, .global, d.location⟩

namespace Typing

def paramSymbol (i : Nat) (v : Variable) : Symbol :=
  ⟨v.name, v.ty, .parameter i, v.location⟩

def localSymbol (i : Nat) (v : Variable) : Symbol :=
  ⟨v.name, v.ty, .localVar i, v.location⟩

/-- The symbols of the names that belong to a function. -/
def ownSymbols (params locals : List Variable) : List Symbol :=
  params.mapIdx paramSymbol ++ locals.mapIdx localSymbol

theorem mem_ownSymbols {params locals : List Variable} {s : Symbol} :
    s ∈ ownSymbols params locals ↔ (∃ i v, params[i]? = some v ∧ paramSymbol i v = s) ∨
      ∃ i v, locals[i]? = some v ∧ localSymbol i v = s := by
  rw [ownSymbols, List.mem_append]
  simp only [List.mem_iff_getElem?, List.getElem?_mapIdx, Option.map_eq_some_iff]

theorem name_ownSymbols (params locals : List Variable) :
    (ownSymbols params locals).map Symbol.name = (params ++ locals).map Variable.name := by
  have hn (f : Nat → Variable → Symbol) (hf : ∀ i v, (f i v).name = v.name)
      (vs : List Variable) : (vs.mapIdx f).map Symbol.name = vs.map Variable.name := by
    apply List.ext_getElem?
    intro i
    simp only [List.getElem?_map, List.getElem?_mapIdx, Option.map_map]
    cases vs[i]? <;> simp [hf]
  rw [ownSymbols, List.map_append, List.map_append, hn _ (fun _ _ => rfl), hn _ fun _ _ => rfl]

/-- The scopes of a check hold what a place sees, the latest declarations first. -/
structure Shows (env : Env) (w : View) : Prop where
  locals : env.locals.symbols = (ownSymbols w.params w.locals).reverse
  globals : env.globals.symbols = (w.program.map Decl.symbol).reverse

namespace Shows

variable {env : Env} {w : View}

theorem mem_globals (h : Shows env w) {s : Symbol} :
    s ∈ env.globals.symbols ↔ ∃ d ∈ w.program, d.symbol = s := by
  simp [h.globals]

theorem mem_locals (h : Shows env w) {s : Symbol} :
    s ∈ env.locals.symbols ↔ s ∈ ownSymbols w.params w.locals := by
  simp [h.locals]

theorem locals_find?_eq_none (h : Shows env w) {x : String} :
    env.locals.find? x = none ↔ ∀ v ∈ w.params ++ w.locals, v.name ≠ x := by
  rw [Scope.find?_eq_none_iff]
  have hn : (∀ s ∈ ownSymbols w.params w.locals, s.name ≠ x) ↔
      x ∉ (ownSymbols w.params w.locals).map Symbol.name := by
    simp only [List.mem_map, not_exists, not_and, ne_eq]
  simp only [h.mem_locals]
  rw [hn, name_ownSymbols]
  simp only [List.mem_map, not_exists, not_and, ne_eq]

/-- A look-up among the names of the function and then of the program finds what is seen. -/
theorem sees_iff (h : Shows env w) {x : String} {ty : Ty} {slot : Slot} :
    w.Sees x ty slot ↔ ∃ s, env.find? x = some s ∧ s.ty = ty ∧ s.slot = slot := by
  constructor
  · intro hs
    cases hs with
    | @parameter i v hv hx =>
      have hm : paramSymbol i v ∈ env.locals.symbols :=
        h.mem_locals.2 (mem_ownSymbols.2 (.inl ⟨i, v, hv, rfl⟩))
      exact ⟨_, by rw [Env.find?, Scope.find?_eq_some_iff.2 ⟨hm, hx⟩, Option.some_or], rfl, rfl⟩
    | @localVar i v hv hx =>
      have hm : localSymbol i v ∈ env.locals.symbols :=
        h.mem_locals.2 (mem_ownSymbols.2 (.inr ⟨i, v, hv, rfl⟩))
      exact ⟨_, by rw [Env.find?, Scope.find?_eq_some_iff.2 ⟨hm, hx⟩, Option.some_or], rfl, rfl⟩
    | @global d hn hd hx =>
      have hm : d.symbol ∈ env.globals.symbols := h.mem_globals.2 ⟨d, hd, rfl⟩
      refine ⟨d.symbol, ?_, rfl, rfl⟩
      rw [Env.find?, h.locals_find?_eq_none.2 hn, Option.none_or]
      exact Scope.find?_eq_some_iff.2 ⟨hm, hx⟩
  · rintro ⟨s, hs, rfl, rfl⟩
    rw [Env.find?, Option.or_eq_some_iff] at hs
    rcases hs with hl | ⟨hn, hg⟩
    · obtain ⟨hm, hx⟩ := Scope.find?_eq_some_iff.1 hl
      rcases mem_ownSymbols.1 (h.mem_locals.1 hm) with ⟨i, v, hv, rfl⟩ | ⟨i, v, hv, rfl⟩
      · exact .parameter hv hx
      · exact .localVar hv hx
    · obtain ⟨hm, hx⟩ := Scope.find?_eq_some_iff.1 hg
      obtain ⟨d, hd, rfl⟩ := h.mem_globals.1 hm
      exact .global (h.locals_find?_eq_none.1 hn) hd hx

/-- Calls look among the names of the program only. -/
theorem globals_find?_iff (h : Shows env w) {x : String} {ty : Ty} :
    (∃ s, env.globals.find? x = some s ∧ s.ty = ty) ↔ ∃ d ∈ w.program, d.name = x ∧ d.ty = ty := by
  constructor
  · rintro ⟨s, hs, rfl⟩
    obtain ⟨hm, hx⟩ := Scope.find?_eq_some_iff.1 hs
    obtain ⟨d, hd, rfl⟩ := h.mem_globals.1 hm
    exact ⟨d, hd, hx, rfl⟩
  · rintro ⟨d, hd, hx, rfl⟩
    exact ⟨d.symbol, Scope.find?_eq_some_iff.2 ⟨h.mem_globals.2 ⟨d, hd, rfl⟩, hx⟩, rfl⟩

end Shows

end Typing

end Bpl
