import Bpl.Compile
import Bpl.Proofs.Typing.Decision
import Bpl.Proofs.Typing.Weakening

namespace Bpl

namespace Typing

variable {p : Program}

/-- What the rules make of a declaration is settled by the declarations around it. -/
theorem AllowsDecl.unique (hn : (p.map Decl.name).Nodup) {d d₁ d₂ : Decl}
    (hu : ∀ f, d = .function f → ∀ e ∈ f.body.exprs, e.Unlinked) (h₁ : AllowsDecl p d d₁)
    (h₂ : AllowsDecl p d d₂) : d₁ = d₂ := by
  obtain ⟨g, hg⟩ := exists_globals hn
  have hv : ∀ v, d = .var v → v.Valid := by
    intro v hd
    subst hd
    cases h₁ with
    | var hv => exact hv
  have hr₁ := (decl_eq_ok hg hu hv).2 h₁
  have hr₂ := (decl_eq_ok hg hu hv).2 h₂
  exact Except.ok.inj (hr₁.symm.trans hr₂)

theorem declareGlobals_append {globals globals' : Scope} {ds : List Decl}
    (h : declareGlobals globals ds = (globals', .ok ())) (ds' : List Decl) :
    declareGlobals globals (ds ++ ds') = declareGlobals globals' ds' := by
  induction ds generalizing globals with
  | nil =>
    cases h
    rfl
  | cons d ds ih =>
    rw [declareGlobals] at h
    rw [List.cons_append, declareGlobals]
    cases hd : declareGlobal globals d with
    | error e =>
      rw [hd] at h
      cases h
    | ok g =>
      rw [hd] at h
      exact ih h

end Typing

namespace Program

variable {p p' q : Program}

/-- The rules hold of a program in whatever order its declarations stand. -/
theorem Derives.perm (h : p.Derives q) (hp : p.Perm p') : ∃ q', p'.Derives q' := by
  obtain ⟨q', hq', _⟩ := List.perm_comp_forall₂ hp.symm h.decls
  have hknows : p'.Knows p := knows_of_subset hp.subset
  refine ⟨q', ?_, ?_, Typing.weaken_all hknows hq'⟩
  · exact (hp.map Decl.name).nodup_iff.1 h.distinct
  · obtain ⟨d, hd, hmain⟩ := h.main
    exact ⟨d, hp.mem_iff.1 hd, hmain⟩

theorem Unlinked.perm (h : p.Unlinked) (hp : p.Perm p') : p'.Unlinked := by
  rw [unlinked_iff] at h ⊢
  intro f hf
  exact h f (hp.mem_iff.2 hf)

/-- A declaration that stands in two orders of a program has one judged form. -/
theorem Derives.getElem?_eq {q' : Program} (hu : p.Unlinked) (h : p.Derives q) (h' : p'.Derives q')
    (hp : p.Perm p') {i j : Nat} (hij : p[i]? = p'[j]?) : q[i]? = q'[j]? := by
  have hlength := h.decls.length_eq
  have hlength' := h'.decls.length_eq
  cases hi : p[i]? with
  | none =>
    have hj : p'[j]? = none := hij.symm.trans hi
    rw [List.getElem?_eq_none_iff] at hi hj
    rw [List.getElem?_eq_none (by omega), List.getElem?_eq_none (by omega)]
  | some d =>
    have hj : p'[j]? = some d := hij.symm.trans hi
    obtain ⟨hlt, hpi⟩ := List.getElem?_eq_some_iff.1 hi
    obtain ⟨hlt', hpj⟩ := List.getElem?_eq_some_iff.1 hj
    have hd : d ∈ p := List.mem_of_getElem? hi
    have hq := h.decls.get hlt (by omega)
    have hq' := h'.decls.get hlt' (by omega)
    simp only [List.get_eq_getElem, hpi, hpj] at hq hq'
    have hknows : p.Knows p' := knows_of_subset hp.symm.subset
    have heq := Typing.AllowsDecl.unique h.distinct
      (fun f hf => unlinked_iff.1 hu f (hf ▸ hd)) hq (hq'.weaken hknows)
    rw [List.getElem?_eq_getElem (by omega), List.getElem?_eq_getElem (by omega), heq]

/-- The order of the declarations of a program is irrelevant to the check: it accepts all orders or
none, and wherever a declaration stands, it gives it the same form. -/
theorem check_perm {ts : List Token} (h : parse ts = .ok p) (hp : p.Perm p') :
    ((∃ q, p.check.outcome = .ok q) ↔ ∃ q', p'.check.outcome = .ok q') ∧
      ∀ q q', p.check.outcome = .ok q → p'.check.outcome = .ok q' →
        ∀ i j : Nat, p[i]? = p'[j]? → q[i]? = q'[j]? := by
  have hu : p.Unlinked := unlinked_of_parse h
  have hiff : ∀ q, p.check.outcome = .ok q ↔ p.Derives q := fun q =>
    Typing.check_eq_ok_iff_derives hu
  have hiff' : ∀ q, p'.check.outcome = .ok q ↔ p'.Derives q := fun q =>
    Typing.check_eq_ok_iff_derives (hu.perm hp)
  simp only [hiff, hiff']
  constructor
  · constructor
    · intro ⟨q, hq⟩
      exact hq.perm hp
    · intro ⟨q', hq'⟩
      exact hq'.perm hp.symm
  · intro q q' hq hq' i j hij
    exact hq.getElem?_eq hu hq' hp hij

/-- Functions that use what is declared behind them. -/
def usesLater : String :=
  "void main(void) \x7b x = get(x); \x7d " ++
    "int get(int y) \x7b main(); return x + y; \x7d int x;"

theorem usesLater_perm : ∃ ts, ∃ p p' q q' : Program, tokenize usesLater = .ok ts ∧
    parse ts = .ok p ∧ p.Perm p' ∧ p'.map Decl.name = ["x", "get", "main"] ∧
      p.check.outcome = .ok q ∧ p'.check.outcome = .ok q' ∧
        ((∃ q, p.check.outcome = .ok q) ↔ ∃ q', p'.check.outcome = .ok q') ∧
          ∀ i j : Nat, p[i]? = p'[j]? → q[i]? = q'[j]? := by
  have hok : ((tokenize usesLater).toOption.any fun ts => (parse ts).toOption.any fun p =>
      p.reverse.map Decl.name == ["x", "get", "main"] &&
        p.check.outcome.toOption.any fun _ => true) = true := by
    decide +kernel
  simp only [Except.any_toOption_iff, Bool.and_eq_true, beq_iff_eq] at hok
  obtain ⟨ts, hts, p, hp, hnames, q, hq, _⟩ := hok
  have hperm : p.Perm p.reverse := (List.reverse_perm p).symm
  obtain ⟨hiff, hforms⟩ := check_perm hp hperm
  obtain ⟨q', hq'⟩ := hiff.1 ⟨q, hq⟩
  exact ⟨ts, p, p.reverse, q, q', hts, hp, hperm, hnames, hq, hq', hiff, hforms q q' hq hq'⟩

/-- A check that goes on after a program it has accepted tells of the declarations that follow what
a check of all of them together tells. It knows the same names afterwards. -/
theorem check_append {ts : List Token} (h : parse ts = .ok p) (hq : p.check.outcome = .ok q)
    (p₂ : Program) :
    ((p ++ p₂).checkAmong .empty).1 = (p₂.checkAmong (p.checkAmong .empty).1).1 ∧
      (p ++ p₂).check.outcome =
        (p₂.checkAmong (p.checkAmong .empty).1).2.outcome.map (q ++ ·) := by
  have hu : p.Unlinked := unlinked_of_parse h
  have hd : p.Derives q := derives_of_check h hq
  obtain ⟨g, hg, hs⟩ := Typing.declareGlobals_of_derives hd
  have happend := Typing.declareGlobals_append hg p₂
  have hafter : (p.checkAmong .empty).1 = g := by
    rw [checkAmong, hg]
  rw [hafter, check, checkAmong, happend, checkAmong]
  cases hg₂ : Typing.declareGlobals g p₂ with
  | mk g₂ outcome =>
    cases outcome with
    | error d => exact ⟨rfl, rfl⟩
    | ok _ =>
      have hs₂ : g₂.symbols = ((p ++ p₂).map Decl.symbol).reverse := by
        rw [(Typing.declareGlobals_eq_ok.1 hg₂).2, hs, List.map_append, List.reverse_append]
      have hknows : (p ++ p₂).Knows p := knows_of_subset (List.subset_append_left p p₂)
      have hfirst : (p.mapM (Typing.decl g₂)).outcome = .ok q :=
        (Typing.decls_eq_ok hs₂ (unlinked_iff.1 hu) fun _ hv => Typing.valid_of_derives hd hv).2
          (Typing.weaken_all hknows hd.decls)
      refine ⟨rfl, ?_⟩
      simp only [List.mapM_append, Logged.outcome_bind, hfirst]
      cases (p₂.mapM (Typing.decl g₂)).outcome with
      | error e => rfl
      | ok q₂ => cases Typing.checkMain g₂ <;> rfl

/-- Declarations that go on from those of `usesLater`. -/
def callsEarlier : String :=
  "int y; int twice(void) \x7b return get(y) + get(x); \x7d"

theorem callsEarlier_after : ∃ ts ts₂, ∃ p p₂ q : Program, tokenize usesLater = .ok ts ∧
    parse ts = .ok p ∧ p.check.outcome = .ok q ∧ tokenize callsEarlier = .ok ts₂ ∧
      parse ts₂ = .ok p₂ ∧
        ((p ++ p₂).checkAmong .empty).1 = (p₂.checkAmong (p.checkAmong .empty).1).1 ∧
        (p ++ p₂).check.outcome =
          (p₂.checkAmong (p.checkAmong .empty).1).2.outcome.map (q ++ ·) ∧
            (∃ q₂, (p ++ p₂).check.outcome = .ok (q ++ q₂)) ∧ ∃ e, p₂.check.outcome = .error e := by
  have hok : ((tokenize usesLater).toOption.any fun ts => (parse ts).toOption.any fun p =>
      (p.check.outcome.toOption.any fun _ => true) &&
        (tokenize callsEarlier).toOption.any fun ts₂ => (parse ts₂).toOption.any fun p₂ =>
          ((p₂.checkAmong (p.checkAmong .empty).1).2.outcome.toOption.any fun _ => true) &&
            !p₂.check.outcome.isOk) = true := by
    decide +kernel
  simp only [Except.any_toOption_iff, Bool.and_eq_true] at hok
  obtain ⟨ts, hts, p, hp, ⟨q, hq, _⟩, ts₂, hts₂, p₂, hp₂, ⟨q₂, hq₂, _⟩, halone⟩ := hok
  obtain ⟨hscope, houtcome⟩ := check_append hp hq p₂
  refine ⟨ts, ts₂, p, p₂, q, hts, hp, hq, hts₂, hp₂, hscope, houtcome, ⟨q₂, ?_⟩, ?_⟩
  · rw [houtcome, hq₂]
    rfl
  · cases he : p₂.check.outcome with
    | error e => exact ⟨e, rfl⟩
    | ok q₃ =>
      rw [he] at halone
      cases halone

end Program

end Bpl
