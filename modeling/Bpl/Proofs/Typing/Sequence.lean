import Bpl.Proofs.Typing.Checker
import Bpl.Proofs.Typing.TopLevel

namespace Bpl

namespace Typing

/-- Declarations that can be declared after some global names: none of them is an invalid variable,
and their names are new and differ. -/
structure Declarable (globals : Scope) (ds : List Decl) : Prop where
  valid : ∀ v, .var v ∈ ds → v.Valid
  distinct : (ds.map Decl.name).Nodup
  fresh : ∀ d ∈ ds, globals.find? d.name = none

/-- The longest of the beginnings of a program that can be declared. -/
structure LongestDeclarable (globals : Scope) (p : Program) (ds : List Decl) : Prop where
  begins : ds <+: p
  declarable : Declarable globals ds
  longest : ∀ ds', ds' <+: p → Declarable globals ds' → ds' <+: ds

theorem declarable_iff {globals : Scope} {ds : List Decl} :
    Declarable globals ds ↔ ∃ globals', declareGlobals globals ds = (globals', .ok ()) := by
  constructor
  · intro h
    have hn : (((ds.map Decl.symbol).reverse ++ globals.symbols).map Symbol.name).Nodup := by
      rw [List.map_append, List.map_reverse, name_map_symbol, List.nodup_append]
      refine ⟨List.nodup_reverse.2 h.distinct, globals.distinct, ?_⟩
      intro x hx y hy
      obtain ⟨d, hd, rfl⟩ := List.mem_map.1 (List.mem_reverse.1 hx)
      obtain ⟨s, hs, rfl⟩ := List.mem_map.1 hy
      exact (Scope.find?_eq_none_iff.1 (h.fresh d hd) s hs).symm
    exact ⟨⟨_, hn⟩, declareGlobals_eq_ok.2 ⟨h.valid, rfl⟩⟩
  · intro ⟨g, hg⟩
    obtain ⟨hv, hs⟩ := declareGlobals_eq_ok.1 hg
    have hn := g.distinct
    rw [hs, List.map_append, List.map_reverse, name_map_symbol, List.nodup_append] at hn
    refine ⟨hv, List.nodup_reverse.1 hn.1, fun d hd => Scope.find?_eq_none_iff.2 ?_⟩
    intro s hs
    exact (hn.2.2 d.name (List.mem_reverse.2 (List.mem_map_of_mem hd)) s.name
      (List.mem_map_of_mem hs)).symm

/-- The declarations of a program are declared up to the first that fails. -/
theorem exists_split_declareGlobals (globals : Scope) (p : Program) :
    ∃ ds rest, p = ds ++ rest ∧
      declareGlobals globals ds = ((declareGlobals globals p).1, .ok ()) ∧
        ∀ d rest', rest = d :: rest' → ∃ e,
          declareGlobal (declareGlobals globals p).1 d = .error e := by
  induction p generalizing globals with
  | nil => exact ⟨[], [], rfl, rfl, nofun⟩
  | cons d p ih =>
    cases hd : declareGlobal globals d with
    | error e =>
      have hp : declareGlobals globals (d :: p) = (globals, .error e) := by
        rw [declareGlobals, hd]
      refine ⟨[], d :: p, rfl, by rw [hp]; rfl, ?_⟩
      intro d' rest' heq
      cases heq
      exact ⟨e, by rw [hp, hd]⟩
    | ok g =>
      have hcons : ∀ ds, declareGlobals globals (d :: ds) = declareGlobals g ds := by
        intro ds
        rw [declareGlobals, hd]
      obtain ⟨ds, rest, rfl, hds, hrest⟩ := ih g
      rw [hcons]
      exact ⟨d :: ds, rest, rfl, by rw [hcons, hds], hrest⟩

theorem exists_longest (globals : Scope) (p : Program) :
    ∃ ds, LongestDeclarable globals p ds ∧ (declareGlobals globals p).1.symbols =
      (ds.map Decl.symbol).reverse ++ globals.symbols := by
  obtain ⟨ds, rest, rfl, hds, hrest⟩ := exists_split_declareGlobals globals p
  refine ⟨ds, ⟨List.prefix_append _ _, declarable_iff.2 ⟨_, hds⟩, ?_⟩,
    (declareGlobals_eq_ok.1 hds).2⟩
  intro ds' hp hd
  rcases List.prefix_or_prefix_of_prefix hp (List.prefix_append ds rest) with h | ⟨more, rfl⟩
  · exact h
  · -- a longer beginning holds the declaration that failed
    cases more with
    | nil => rw [List.append_nil]
    | cons d more =>
      have hr : ∃ rest', rest = d :: rest' := by
        obtain ⟨rest', hr⟩ := (List.prefix_append_right_inj ds).1 hp
        exact ⟨more ++ rest', hr.symm⟩
      obtain ⟨rest', hr⟩ := hr
      obtain ⟨e, he⟩ := hrest d rest' hr
      obtain ⟨g, hg⟩ := declarable_iff.1 hd
      rw [declareGlobals_append hds, declareGlobals, he] at hg
      cases hg

end Typing

/-- A function without its body. -/
def Function.hollow (f : Function) : Function :=
  { f with body := .mk f.body.location [] [], locals := [] }

def Decl.hollow : Decl → Decl
  | .var v => .var v
  | .function f => .function f.hollow

/-- A program without the bodies of its functions. -/
def Program.hollow (p : Program) : Program :=
  List.map Decl.hollow p

theorem Program.unlinked_hollow (p : Program) : p.hollow.Unlinked := by
  rw [Program.unlinked_iff]
  intro f hf e he
  obtain ⟨d, _, hd⟩ := List.mem_map.1 hf
  cases d with
  | var v => cases hd
  | function g =>
    cases hd
    cases he

namespace Typing.Checker

/-- The checker after it has checked some programs, whatever came of them. -/
def after (c : Checker) (ps : List Program) : Checker :=
  ps.foldl (fun c p => (program p c).1) c

/-- The global names after the declarations of some programs, each as far as they go. -/
def declared (globals : Scope) (ps : List Program) : Scope :=
  ps.foldl (fun globals p => (declareGlobals globals p).1) globals

theorem globals_checkAmong (globals : Scope) (p : Program) :
    (p.checkAmong globals).1 = (declareGlobals globals p).1 := by
  unfold Program.checkAmong
  rcases declareGlobals globals p with ⟨g, e | ⟨⟩⟩ <;> rfl

theorem after_eq (globals : Scope) {ps : List Program} (hps : ∀ p ∈ ps, p.Unlinked) :
    after ⟨globals, none⟩ ps = ⟨declared globals ps, none⟩ := by
  induction ps generalizing globals with
  | nil => rfl
  | cons p ps ih =>
    obtain ⟨hp, hps⟩ := List.forall_mem_cons.1 hps
    have hstep := program_apply globals hp
    rw [globals_checkAmong] at hstep
    have hcons : after ⟨globals, none⟩ (p :: ps) = after (program p ⟨globals, none⟩).1 ps := rfl
    rw [hcons, hstep]
    exact ih _ hps

theorem declared_hollow (globals : Scope) (ps : List Program) :
    declared globals (ps.map Program.hollow) = declared globals ps := by
  have hd : ∀ g d, declareGlobal g (Decl.hollow d) = declareGlobal g d := by
    intro g d
    cases d <;> rfl
  induction ps generalizing globals with
  | nil => rfl
  | cons p ps ih =>
    have hp : declareGlobals globals p.hollow = declareGlobals globals p :=
      declareGlobals_map hd globals p
    have hcons : declared globals ((p :: ps).map Program.hollow) =
      declared (declareGlobals globals p.hollow).1 (ps.map Program.hollow) := rfl
    rw [hcons, hp]
    exact ih _

/-- A declared name keeps its symbol. -/
theorem find?_declareGlobals {globals : Scope} {x : String} {s : Symbol}
    (h : globals.find? x = some s) (p : Program) :
    (declareGlobals globals p).1.find? x = some s := by
  obtain ⟨ds, _, hs⟩ := exists_longest globals p
  rw [Scope.find?_eq_some_iff] at h ⊢
  rw [hs]
  exact ⟨List.mem_append_right _ h.1, h.2⟩

theorem find?_declared {globals : Scope} {x : String} {s : Symbol}
    (h : globals.find? x = some s) (ps : List Program) :
    (declared globals ps).find? x = some s := by
  induction ps generalizing globals with
  | nil => exact h
  | cons p ps ih => exact ih (find?_declareGlobals h p)

/-- Whatever comes of the programs that a checker has checked, it is outside of any function after
them, and checks the next program as the check among the global names alone does. The next program
adds the longest of its beginnings that can be declared, declared names keep their symbols from then
on, and bodies of functions leave nothing. -/
theorem after_program {ps : List Program} (hps : ∀ p ∈ ps, p.Unlinked) {p : Program}
    (hp : p.Unlinked) : ∃ globals globals' : Scope, new.after ps = ⟨globals, none⟩ ∧
      program p (new.after ps) = (⟨globals', none⟩, (p.checkAmong globals).2) ∧
      (∃ ds, LongestDeclarable globals p ds ∧
        globals'.symbols = (ds.map Decl.symbol).reverse ++ globals.symbols) ∧
      (∀ qs : List Program, (∀ q ∈ qs, q.Unlinked) → ∀ x s, globals.find? x = some s →
        ((new.after ps).after qs).globals.find? x = some s) ∧
      new.after (ps.map Program.hollow) = new.after ps := by
  have hnew : new.after ps = ⟨declared .empty ps, none⟩ := after_eq .empty hps
  have hhollow : new.after (ps.map Program.hollow) = ⟨declared .empty ps, none⟩ := by
    have hu : ∀ p ∈ ps.map Program.hollow, p.Unlinked := by
      intro p hp
      obtain ⟨q, _, rfl⟩ := List.mem_map.1 hp
      exact q.unlinked_hollow
    rw [← declared_hollow]
    exact after_eq .empty hu
  obtain ⟨ds, hds, hs⟩ := exists_longest (declared .empty ps) p
  have hrun := program_apply (declared .empty ps) hp
  rw [globals_checkAmong] at hrun
  refine ⟨_, _, hnew, hnew ▸ hrun, ⟨ds, hds, hs⟩, ?_, hhollow.trans hnew.symm⟩
  intro qs hqs x s hx
  rw [hnew, after_eq _ hqs]
  exact find?_declared hx qs

/-- A program whose function fails in its body, behind a parameter and a local. -/
def failsInBody : Program :=
  let l : Location := .first
  [.var ⟨"g", .int, l⟩, .function ⟨"f", .void, [⟨"a", .int, l⟩],
    .mk l [⟨"b", .int, l⟩] [.expr l (.name (.new l) "missing")], l, []⟩]

/-- A program that declares a name of its own and then `g` again. -/
def redeclares : Program :=
  let l : Location := .first
  [.var ⟨"b", .int, l⟩, .var ⟨"g", .string, l⟩, .function ⟨"main", .void, [], .mk l [] [], l, []⟩]

theorem failsInBody_leaves : (∀ p ∈ [failsInBody], p.Unlinked) ∧ redeclares.Unlinked ∧
    (program failsInBody new).2.outcome =
      .error (.diagnostic (.semantic .first (.undeclared "missing"))) ∧
    (program redeclares (new.after [failsInBody])).1.globals.symbols.map Symbol.name =
      ["b", "f", "g"] ∧
    ∃ globals globals' : Scope, new.after [failsInBody] = ⟨globals, none⟩ ∧
      program redeclares (new.after [failsInBody]) =
        (⟨globals', none⟩, (redeclares.checkAmong globals).2) ∧
      (∃ ds, LongestDeclarable globals redeclares ds ∧
        globals'.symbols = (ds.map Decl.symbol).reverse ++ globals.symbols) ∧
      (∀ qs : List Program, (∀ q ∈ qs, q.Unlinked) → ∀ x s, globals.find? x = some s →
        ((new.after [failsInBody]).after qs).globals.find? x = some s) ∧
      new.after ([failsInBody].map Program.hollow) = new.after [failsInBody] := by
  have hfails : failsInBody.Unlinked := by
    simp [Program.Unlinked, Program.exprs, Program.functions, failsInBody, Block.exprs,
      Stmt.exprsOfList, Stmt.exprs, Expr.Unlinked, Expr.nodes, Expr.isLinked]
  have hredeclares : redeclares.Unlinked := by
    simp [Program.Unlinked, Program.exprs, Program.functions, redeclares, Block.exprs,
      Stmt.exprsOfList]
  have hps : ∀ p ∈ [failsInBody], p.Unlinked := List.forall_mem_singleton.2 hfails
  exact ⟨hps, hredeclares, rfl, by decide +kernel, after_program hps hredeclares⟩

end Typing.Checker

end Bpl
