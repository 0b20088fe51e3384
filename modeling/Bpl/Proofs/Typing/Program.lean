import Bpl.Proofs.Typing.Stmt

namespace Bpl.Typing

open Logged

/-- Parameters can be declared if they are valid, and are then found under their numbers. -/
theorem params_eq_ok {scope scope' : Scope} {i : Nat} {vs : List Variable} :
    params scope i vs = .ok scope' ↔ (∀ v ∈ vs, v.Valid) ∧
      scope'.symbols = (vs.mapIdx fun k => paramSymbol (k + i)).reverse ++ scope.symbols := by
  induction vs generalizing scope i with
  | nil =>
    constructor
    · intro h
      cases h
      simp
    · rintro ⟨_, h⟩
      exact congrArg Except.ok (Scope.ext (by simpa using h.symm))
  | cons v vs ih =>
    have hk : ∀ k, k + 1 + i = k + (i + 1) := fun k => by omega
    simp only [params, Except.bind_eq_ok_iff, validate_eq_ok, exists_const, ih,
      List.forall_mem_cons, List.mapIdx_cons, List.reverse_cons, List.append_assoc,
      List.singleton_append, hk, Nat.zero_add]
    constructor
    · rintro ⟨hv, s₁, hd, hvs, hs⟩
      exact ⟨⟨hv, hvs⟩, by rw [hs, Scope.declare_eq_ok_iff.1 hd]; rfl⟩
    · rintro ⟨⟨hv, hvs⟩, hs⟩
      obtain ⟨s₁, hd, hs₁⟩ := Scope.exists_declare hs
      exact ⟨hv, s₁, hd, hvs, hs₁⟩

theorem params_empty_eq_ok {scope : Scope} {vs : List Variable} :
    params .empty 0 vs = .ok scope ↔
      (∀ v ∈ vs, v.Valid) ∧ scope.symbols = (ownSymbols vs []).reverse := by
  simp [params_eq_ok, Scope.empty, ownSymbols]

theorem size_eq_bytes {v : Variable} (h : v.Valid) : v.ty.size = v.ty.bytes := by
  have hf := h.fits
  cases ht : v.ty with
  | array element length =>
    rw [ht, Ty.bytes] at hf
    have hs : Ty.wordSize * length.toNat ≤ Ty.maxSize := hf.trans (by decide)
    simp [Ty.size, Ty.size?, hs, Ty.bytes]
  | _ => simp [Ty.size, Ty.size?, Ty.bytes]

theorem totalSize_eq {vs : List Variable} (h : ∀ v ∈ vs, v.Valid) :
    Variable.totalSize vs = (vs.map (·.ty.bytes)).sum := by
  induction vs with
  | nil => rfl
  | cons v vs ih =>
    obtain ⟨hv, hvs⟩ := List.forall_mem_cons.1 h
    rw [List.map_cons, List.sum_cons, ← size_eq_bytes hv, ← ih hvs]
    rfl

theorem function_eq_ok {globals : Scope} {p : Program} {f f' : Function}
    (hg : globals.symbols = (p.map Decl.symbol).reverse) (hu : ∀ e ∈ f.body.exprs, e.Unlinked) :
    (function globals f).outcome = .ok f' ↔
      AllowsDecl p (.function f) (.function f') := by
  have hcovers : ∀ {scope : Scope}, scope.symbols = (ownSymbols f.params []).reverse →
      Covers ⟨globals, f.name, f.result⟩ ⟨p, f.params, f.result⟩ ⟨scope, []⟩ :=
    fun hs => ⟨hg, rfl, hs⟩
  simp only [function, outcome_bind_eq_ok, outcome_ofExcept_eq_ok, outcome_ensure_eq_ok,
    outcome_report_eq_ok, outcome_pure_eq_ok, decide_eq_true_iff, exists_const, true_and]
  constructor
  · rintro ⟨scope, hs, ⟨body, ls⟩, hb, hfit, rfl⟩
    obtain ⟨hpv, hps⟩ := params_empty_eq_ok.1 hs
    have hc := hcovers hps
    obtain ⟨hd, ha⟩ := (block_eq_ok_iff hc f.body hu).1 hb
    obtain ⟨hc', hl, hlv⟩ := hc.declareAll hd
    rw [List.nil_append] at hl
    have hnames := ls.scope.distinct
    rw [hc'.own, List.map_reverse, List.nodup_reverse, name_ownSymbols, hl] at hnames
    rw [hl, totalSize_eq hlv] at hfit
    rw [hl]
    exact .function (List.forall_mem_append.2 ⟨hpv, hlv⟩) hnames hfit ha
  · intro h
    cases h with
    | function hv hn hfit ha =>
      rw [List.forall_mem_append] at hv
      have hpn : ((ownSymbols f.params []).reverse.map Symbol.name).Nodup := by
        rw [List.map_reverse, List.nodup_reverse, name_ownSymbols, List.append_nil]
        rw [List.map_append, List.nodup_append] at hn
        exact hn.1
      have hln : ((ownSymbols f.params f.body.locals).reverse.map Symbol.name).Nodup := by
        rw [List.map_reverse, List.nodup_reverse, name_ownSymbols]
        exact hn
      have hc := @hcovers ⟨_, hpn⟩ rfl
      have hd := @Covers.exists_declareAll _ _ _ hc _ ⟨_, hln⟩ hv.2 rfl
      refine ⟨_, params_empty_eq_ok.2 ⟨hv.1, rfl⟩, _,
        (block_eq_ok_iff hc f.body hu).2 ⟨hd, ha⟩, ?_, rfl⟩
      rwa [List.nil_append, totalSize_eq hv.2]

theorem declareGlobal_eq_ok {globals globals' : Scope} {d : Decl} :
    declareGlobal globals d = .ok globals' ↔
      (∀ v, d = .var v → v.Valid) ∧ globals.declare d.symbol = .ok globals' := by
  cases d with
  | var v =>
    simp only [declareGlobal, Except.bind_eq_ok_iff, validate_eq_ok, exists_const,
      Decl.var.injEq, forall_eq']
    rfl
  | function f =>
    simp only [declareGlobal, reduceCtorEq, false_implies, implies_true, true_and]
    rfl

theorem declareGlobals_eq_ok {globals globals' : Scope} {ds : List Decl} :
    declareGlobals globals ds = (globals', .ok ()) ↔ (∀ v, .var v ∈ ds → v.Valid) ∧
      globals'.symbols = (ds.map Decl.symbol).reverse ++ globals.symbols := by
  induction ds generalizing globals with
  | nil =>
    simp only [declareGlobals, Prod.mk.injEq, and_true, List.not_mem_nil, false_implies,
      implies_true, true_and, List.map_nil, List.reverse_nil, List.nil_append]
    exact ⟨fun h => h ▸ rfl, fun h => Scope.ext h.symm⟩
  | cons d ds ih =>
    have hv : (∀ v, Decl.var v ∈ d :: ds → v.Valid) ↔
        (∀ v, d = .var v → v.Valid) ∧ ∀ v, .var v ∈ ds → v.Valid := by
      simp only [List.mem_cons, or_imp, forall_and, eq_comm]
    rw [hv, List.map_cons, List.reverse_cons, List.append_assoc, List.singleton_append,
      declareGlobals]
    constructor
    · intro h
      split at h
      · next g hg =>
        obtain ⟨hd, hs⟩ := declareGlobal_eq_ok.1 hg
        obtain ⟨hds, hg'⟩ := ih.1 h
        exact ⟨⟨hd, hds⟩, by rw [hg', Scope.declare_eq_ok_iff.1 hs]⟩
      · cases h
    · rintro ⟨⟨hd, hds⟩, hs⟩
      obtain ⟨g, hg, hg'⟩ := Scope.exists_declare hs
      rw [declareGlobal_eq_ok.2 ⟨hd, hg⟩]
      exact ih.2 ⟨hds, hg'⟩

/-- Declarations can be changed in what their symbols do not show. -/
theorem declareGlobals_map {h : Decl → Decl}
    (hd : ∀ globals d, declareGlobal globals (h d) = declareGlobal globals d) (globals : Scope)
    (ds : List Decl) : declareGlobals globals (ds.map h) = declareGlobals globals ds := by
  induction ds generalizing globals with
  | nil => rfl
  | cons d ds ih =>
    rw [List.map_cons, declareGlobals, declareGlobals, hd]
    cases declareGlobal globals d with
    | ok globals => exact ih globals
    | error e => rfl

theorem checkMain_eq_ok {globals : Scope} {p : Program} {u : Unit}
    (hg : globals.symbols = (p.map Decl.symbol).reverse) :
    checkMain globals = .ok u ↔ ∃ d ∈ p, d.name = "main" ∧ d.ty = .function [] .void := by
  have hfind : ∀ s, globals.find? "main" = some s ↔ ∃ d ∈ p, d.symbol = s ∧ d.name = "main" := by
    intro s
    rw [Scope.find?_eq_some_iff, hg]
    simp only [List.mem_reverse, List.mem_map]
    constructor
    · rintro ⟨⟨d, hd, rfl⟩, hn⟩
      exact ⟨d, hd, rfl, hn⟩
    · rintro ⟨d, hd, rfl, hn⟩
      exact ⟨⟨d, hd, rfl⟩, hn⟩
  unfold checkMain
  split
  · next hnone =>
    simp only [reduceCtorEq, false_iff]
    rintro ⟨d, hd, hn, _⟩
    rw [(hfind d.symbol).2 ⟨d, hd, rfl, hn⟩] at hnone
    cases hnone
  · next s hsome =>
    obtain ⟨d, hd, rfl, hn⟩ := (hfind s).1 hsome
    constructor
    · intro h
      split at h
      · next ht => exact ⟨d, hd, hn, ht⟩
      · cases h
    · rintro ⟨d', hd', hn', ht⟩
      have hs := (hfind d'.symbol).2 ⟨d', hd', rfl, hn'⟩
      rw [hsome] at hs
      have hty : d.symbol.ty = .function [] .void := by rw [Option.some.inj hs]; exact ht
      rw [if_pos hty]

theorem decl_eq_ok {globals : Scope} {p : Program}
    (hg : globals.symbols = (p.map Decl.symbol).reverse) {d d' : Decl}
    (hu : ∀ f, d = .function f → ∀ e ∈ f.body.exprs, e.Unlinked)
    (hv : ∀ v, d = .var v → v.Valid) : (decl globals d).outcome = .ok d' ↔ AllowsDecl p d d' := by
  cases d with
  | var v =>
    simp only [decl, outcome_pure_eq_ok]
    constructor
    · rintro rfl
      exact .var (hv v rfl)
    · intro h
      cases h
      rfl
  | function f =>
    simp only [decl, outcome_bind_eq_ok, outcome_pure_eq_ok, function_eq_ok hg (hu f rfl)]
    constructor
    · rintro ⟨f', hf, rfl⟩
      exact hf
    · intro h
      cases h with
      | function h₁ h₂ h₃ h₄ => exact ⟨_, .function h₁ h₂ h₃ h₄, rfl⟩

theorem decls_eq_ok {globals : Scope} {p : Program}
    (hg : globals.symbols = (p.map Decl.symbol).reverse) {ds ds' : List Decl}
    (hu : ∀ f, .function f ∈ ds → ∀ e ∈ f.body.exprs, e.Unlinked)
    (hv : ∀ v, .var v ∈ ds → v.Valid) :
    (ds.mapM (decl globals)).outcome = .ok ds' ↔ List.Forall₂ (AllowsDecl p) ds ds' := by
  induction ds generalizing ds' with
  | nil => simp [eq_comm]
  | cons d ds ih =>
    have hd : ∀ {d'}, (decl globals d).outcome = .ok d' ↔ AllowsDecl p d d' :=
      decl_eq_ok hg (fun f hf => hu f (hf ▸ List.mem_cons_self)) fun v hv' =>
        hv v (hv' ▸ List.mem_cons_self)
    have ih' : ∀ {ds'}, (ds.mapM (decl globals)).outcome = .ok ds' ↔
        List.Forall₂ (AllowsDecl p) ds ds' :=
      ih (fun f hf => hu f (List.mem_cons_of_mem _ hf)) fun v hv' =>
        hv v (List.mem_cons_of_mem _ hv')
    simp only [List.mapM_cons, outcome_bind_eq_ok, outcome_pure_eq_ok, hd, ih']
    constructor
    · rintro ⟨d', h₁, ds', h₂, rfl⟩
      exact .cons h₁ h₂
    · intro h
      cases h with
      | cons h₁ h₂ => exact ⟨_, h₁, _, h₂, rfl⟩

theorem name_map_symbol (p : Program) : (p.map Decl.symbol).map Symbol.name = p.map Decl.name := by
  rw [List.map_map]
  rfl

/-- Declarations with different names form a scope. -/
theorem exists_globals {p : Program} (hn : (p.map Decl.name).Nodup) :
    ∃ globals : Scope, globals.symbols = (p.map Decl.symbol).reverse := by
  have hs : ((p.map Decl.symbol).reverse.map Symbol.name).Nodup := by
    rw [List.map_reverse, List.nodup_reverse, name_map_symbol]
    exact hn
  exact ⟨⟨_, hs⟩, rfl⟩

theorem valid_of_derives {p p' : Program} (h : p.Derives p') {v : Variable} (hv : Decl.var v ∈ p) :
    v.Valid := by
  obtain ⟨d', _, ha⟩ := h.decls.exists_of_mem_left hv
  cases ha with
  | var h => exact h

/-- All names of a program that keeps the rules can be declared. -/
theorem declareGlobals_of_derives {p p' : Program} (h : p.Derives p') :
    ∃ globals, declareGlobals .empty p = (globals, .ok ()) ∧
      globals.symbols = (p.map Decl.symbol).reverse := by
  obtain ⟨globals, hs⟩ := exists_globals h.distinct
  have hempty : Scope.empty.symbols = [] := rfl
  have hv : ∀ v, Decl.var v ∈ p → v.Valid := fun _ hv => valid_of_derives h hv
  exact ⟨globals, declareGlobals_eq_ok.2 ⟨hv, by rw [hs, hempty, List.append_nil]⟩, hs⟩

/-- A check of names that are not linked yet succeeds exactly on what the rules derive. -/
theorem check_eq_ok_iff_derives {p p' : Program} (hu : p.Unlinked) :
    p.check.outcome = .ok p' ↔ p.Derives p' := by
  have hu' := Program.unlinked_iff.1 hu
  unfold Program.check Program.checkAmong
  constructor
  · intro h
    split at h
    · rw [outcome_ofExcept_eq_ok] at h
      cases h
    · next g hg =>
      obtain ⟨hv, hs⟩ := declareGlobals_eq_ok.1 hg
      rw [show Scope.empty.symbols = [] from rfl, List.append_nil] at hs
      simp only [outcome_bind_eq_ok, outcome_ofExcept_eq_ok, outcome_pure_eq_ok,
        decls_eq_ok hs hu' hv, checkMain_eq_ok hs] at h
      obtain ⟨_, hd, _, hm, rfl⟩ := h
      have hn := g.distinct
      rw [hs, List.map_reverse, List.nodup_reverse, name_map_symbol] at hn
      exact ⟨hn, hm, hd⟩
  · intro h
    obtain ⟨g, hg, hs⟩ := declareGlobals_of_derives h
    have hv : ∀ v, Decl.var v ∈ p → v.Valid := fun _ hv => valid_of_derives h hv
    rw [hg]
    simp only [outcome_bind_eq_ok, outcome_ofExcept_eq_ok, outcome_pure_eq_ok]
    exact ⟨p', (decls_eq_ok hs hu' hv).2 h.decls, (), (checkMain_eq_ok hs).2 h.main, rfl⟩

end Bpl.Typing
