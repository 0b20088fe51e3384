import Bpl.Proofs.Typing.Expr

namespace Bpl.Typing

open Logged

theorem validate_eq_ok {v : Variable} {u : Unit} : validate v = .ok u ↔ v.Valid := by
  obtain ⟨x, ty, l⟩ := v
  have hvalid : ∀ {t : Ty}, Variable.Valid ⟨x, t, l⟩ ↔ t ≠ .void ∧
      (∀ element length, t = .array element length → length ≠ 0) ∧
        t.bytes ≤ Ty.maxObjectSize :=
    ⟨fun h => ⟨h.notVoid, h.notEmpty, h.fits⟩, fun h => ⟨h.1, h.2.1, h.2.2⟩⟩
  rw [hvalid]
  cases ty with
  | array element length =>
    by_cases h0 : length = 0
    · simp [validate, h0]
    · by_cases hn : Ty.wordSize * length.toNat ≤ Ty.maxObjectSize
      · have hs : Ty.wordSize * length.toNat ≤ Ty.maxSize :=
          hn.trans (by decide)
        simp [validate, h0, Ty.size?, hs, hn, Ty.bytes]
      · by_cases hs : Ty.wordSize * length.toNat ≤ Ty.maxSize <;>
          simp [validate, h0, Ty.size?, hs, hn, Ty.bytes]
  | void => simp [validate]
  | _ => simp [validate, Ty.size?, Ty.bytes, Ty.wordSize, Ty.maxObjectSize]

theorem declare_eq_ok {ls ls' : Locals} {v : Variable} :
    ls.declare v = .ok ls' ↔ v.Valid ∧
      ls.scope.declare (localSymbol ls.declared.length v) = .ok ls'.scope ∧
        ls'.declared = ls.declared ++ [v] := by
  simp only [Locals.declare, Except.bind_eq_ok_iff, validate_eq_ok, exists_const]
  constructor
  · rintro ⟨hv, scope, hs, h⟩
    cases h
    exact ⟨hv, hs, rfl⟩
  · rintro ⟨hv, hs, hd⟩
    refine ⟨hv, ls'.scope, hs, ?_⟩
    rw [← hd]
    rfl

/-- The names that a check has collected are those of a setting after some locals. -/
structure Covers (ctx : Context) (c : Setting) (ls : Locals) : Prop where
  globals : ctx.globals.symbols = (c.program.map Decl.symbol).reverse
  result : ctx.result = c.result
  own : ls.scope.symbols = (ownSymbols c.params ls.declared).reverse

theorem ownSymbols_append_singleton (params locals : List Variable) (v : Variable) :
    (ownSymbols params (locals ++ [v])).reverse =
      localSymbol locals.length v :: (ownSymbols params locals).reverse := by
  rw [ownSymbols, ownSymbols, List.mapIdx_append]
  simp

namespace Covers

variable {ctx : Context} {c : Setting} {ls ls' : Locals}

theorem shows (h : Covers ctx c ls) : Shows (ctx.env ls) (c.view ls.declared) :=
  ⟨h.own, h.globals⟩

theorem declare (h : Covers ctx c ls) {v : Variable} (hd : ls.declare v = .ok ls') :
    Covers ctx c ls' := by
  obtain ⟨_, hs, hl⟩ := declare_eq_ok.1 hd
  refine ⟨h.globals, h.result, ?_⟩
  rw [Scope.declare_eq_ok_iff.1 hs, h.own, hl, ownSymbols_append_singleton]

theorem declareAll (h : Covers ctx c ls) {vs : List Variable}
    (hd : vs.foldlM Locals.declare ls = .ok ls') :
    Covers ctx c ls' ∧ ls'.declared = ls.declared ++ vs ∧ ∀ v ∈ vs, v.Valid := by
  induction vs generalizing ls with
  | nil =>
    cases hd
    exact ⟨h, by simp, by simp⟩
  | cons v vs ih =>
    rw [List.foldlM_cons, Except.bind_eq_ok_iff] at hd
    obtain ⟨ls₁, h₁, hd⟩ := hd
    obtain ⟨hc, hl, hv⟩ := ih (h.declare h₁) hd
    obtain ⟨hv₁, _, hl₁⟩ := declare_eq_ok.1 h₁
    exact ⟨hc, by rw [hl, hl₁, List.append_assoc, List.singleton_append],
      List.forall_mem_cons.2 ⟨hv₁, hv⟩⟩

/-- Valid locals can be declared if the names that they lead to form a scope. -/
theorem exists_declareAll (h : Covers ctx c ls) {vs : List Variable} {scope : Scope}
    (hv : ∀ v ∈ vs, v.Valid)
    (hs : scope.symbols = (ownSymbols c.params (ls.declared ++ vs)).reverse) :
    vs.foldlM Locals.declare ls = .ok ⟨scope, ls.declared ++ vs⟩ := by
  induction vs generalizing ls with
  | nil =>
    rw [List.append_nil] at hs ⊢
    rw [List.foldlM_nil, Scope.ext (hs.trans h.own.symm)]
    rfl
  | cons v vs ih =>
    rw [List.forall_mem_cons] at hv
    rw [List.foldlM_cons, Except.bind_eq_ok_iff]
    obtain ⟨xs, hxs⟩ : ∃ xs, scope.symbols = xs ++ localSymbol ls.declared.length v ::
        ls.scope.symbols := by
      refine ⟨(vs.mapIdx fun i => localSymbol (i + (ls.declared.length + 1))).reverse, ?_⟩
      rw [hs, h.own, ownSymbols, ownSymbols, List.mapIdx_append]
      simp [Nat.add_right_comm, Nat.add_assoc]
    obtain ⟨s₁, hd, _⟩ := Scope.exists_declare hxs
    have h₁ : ls.declare v = .ok ⟨s₁, ls.declared ++ [v]⟩ := declare_eq_ok.2 ⟨hv.1, hd, rfl⟩
    refine ⟨_, h₁, ?_⟩
    rw [ih (h.declare h₁) hv.2 (by rw [hs, List.append_assoc, List.singleton_append])]
    simp

end Covers

theorem ret_eq_ok {ctx : Context} {env : Env} {l : Location} {e : Expr} {r : Option Expr} :
    (ret ctx env l (some e)).outcome = .ok r ↔
      ctx.result ≠ .void ∧ ∃ e', (expr env e).outcome = .ok (e', ctx.result) ∧ r = some e' := by
  simp only [ret, outcome_bind_eq_ok, outcome_ensure_eq_ok, valued_eq_ok, outcome_pure_eq_ok,
    Bool.not_eq_true', isVoid_eq_false_iff, decide_eq_true_iff, exists_const]
  constructor
  · rintro ⟨hv, ⟨e', ty⟩, he, _, ⟨rfl, _⟩, rfl, rfl⟩
    exact ⟨hv, e', he, rfl⟩
  · rintro ⟨hv, e', he, rfl⟩
    exact ⟨hv, _, he, _, ⟨rfl, hv⟩, rfl, rfl⟩

theorem ret_none_eq_ok {ctx : Context} {env : Env} {l : Location} {r : Option Expr} :
    (ret ctx env l none).outcome = .ok r ↔ ctx.result = .void ∧ r = none := by
  simp only [ret, outcome_bind_eq_ok, outcome_ensure_eq_ok, outcome_pure_eq_ok, exists_const]
  cases ctx.result <;> simp [Ty.isVoid, eq_comm]

theorem writable_eq_ok {r : Typed} {e : Expr} :
    (writable r).outcome = .ok e ↔ e = r.1 ∧ (r.2 = .int ∨ r.2 = .string) := by
  simp only [writable, outcome_bind_eq_ok, valued_eq_ok, outcome_ensure_eq_ok,
    outcome_pure_eq_ok, Bool.or_eq_true, decide_eq_true_iff, exists_const]
  constructor
  · rintro ⟨_, ⟨rfl, _⟩, h, rfl⟩
    exact ⟨rfl, h⟩
  · rintro ⟨rfl, h⟩
    exact ⟨_, ⟨rfl, by rcases h with h | h <;> simp [h]⟩, h, rfl⟩

variable {ctx : Context} {c : Setting}

mutual

/-- A statement passes the check if its locals can be declared and the rules allow it. -/
theorem stmt_eq_ok_iff {ls : Locals} (h : Covers ctx c ls) (s : Stmt)
    (hu : ∀ e ∈ s.exprs, e.Unlinked) {s' : Stmt} {ls' : Locals} :
    (stmt ctx ls s).outcome = .ok (s', ls') ↔
      s.locals.foldlM Locals.declare ls = .ok ls' ∧ Allows c ls.declared s s' := by
  cases s with
  | compound l b =>
    simp only [stmt, outcome_bind_eq_ok, outcome_pure_eq_ok]
    constructor
    · rintro ⟨⟨b', ls₁⟩, hb, heq⟩
      cases heq
      obtain ⟨hd, ha⟩ := (block_eq_ok_iff h b hu).1 hb
      exact ⟨hd, .compound ha⟩
    · rintro ⟨hd, ha⟩
      cases ha with
      | compound ha => exact ⟨_, (block_eq_ok_iff h b hu).2 ⟨hd, ha⟩, rfl⟩
  | ifThen l e yes =>
    simp only [Stmt.exprs, List.forall_mem_cons] at hu
    simp only [stmt, outcome_bind_eq_ok, integer_eq_ok, outcome_pure_eq_ok]
    constructor
    · rintro ⟨_, he, e', rfl, ⟨yes', ls₁⟩, hy, heq⟩
      cases heq
      obtain ⟨hd, ha⟩ := (stmt_eq_ok_iff h yes hu.2).1 hy
      obtain ⟨a, j⟩ := (expr_eq_ok_iff h.shows hu.1).1 he
      exact ⟨hd, .ifThen j ha⟩
    · rintro ⟨hd, ha⟩
      cases ha with
      | ifThen j ha =>
        exact ⟨_, j.expr_eq_ok h.shows, _, rfl, _, (stmt_eq_ok_iff h yes hu.2).2 ⟨hd, ha⟩, rfl⟩
  | ifElse l e yes no =>
    simp only [Stmt.exprs, List.forall_mem_cons, List.forall_mem_append] at hu
    simp only [stmt, outcome_bind_eq_ok, integer_eq_ok, outcome_pure_eq_ok, Stmt.locals,
      List.foldlM_append, Except.bind_eq_ok_iff]
    constructor
    · rintro ⟨_, he, e', rfl, ⟨yes', ls₁⟩, hy, ⟨no', ls₂⟩, hn, heq⟩
      cases heq
      obtain ⟨a, j⟩ := (expr_eq_ok_iff h.shows hu.1).1 he
      obtain ⟨hd, ha⟩ := (stmt_eq_ok_iff h yes hu.2.1).1 hy
      -- the locals of the first branch stay declared in the second
      obtain ⟨h₁, hl, _⟩ := h.declareAll hd
      obtain ⟨hd', ha'⟩ := (stmt_eq_ok_iff h₁ no hu.2.2).1 hn
      exact ⟨⟨ls₁, hd, hd'⟩, .ifElse j ha (hl ▸ ha')⟩
    · rintro ⟨⟨ls₁, hd, hd'⟩, ha⟩
      cases ha with
      | ifElse j ha ha' =>
        obtain ⟨h₁, hl, _⟩ := h.declareAll hd
        exact ⟨_, j.expr_eq_ok h.shows, _, rfl, _, (stmt_eq_ok_iff h yes hu.2.1).2 ⟨hd, ha⟩, _,
          (stmt_eq_ok_iff h₁ no hu.2.2).2 ⟨hd', hl.symm ▸ ha'⟩, rfl⟩
  | whileDo l e body =>
    simp only [Stmt.exprs, List.forall_mem_cons] at hu
    simp only [stmt, outcome_bind_eq_ok, integer_eq_ok, outcome_pure_eq_ok]
    constructor
    · rintro ⟨_, he, e', rfl, ⟨body', ls₁⟩, hb, heq⟩
      cases heq
      obtain ⟨hd, ha⟩ := (stmt_eq_ok_iff h body hu.2).1 hb
      obtain ⟨a, j⟩ := (expr_eq_ok_iff h.shows hu.1).1 he
      exact ⟨hd, .whileDo j ha⟩
    · rintro ⟨hd, ha⟩
      cases ha with
      | whileDo j ha =>
        exact ⟨_, j.expr_eq_ok h.shows, _, rfl, _, (stmt_eq_ok_iff h body hu.2).2 ⟨hd, ha⟩, rfl⟩
  | ret l value =>
    simp only [stmt, outcome_bind_eq_ok, outcome_pure_eq_ok, Stmt.locals, List.foldlM_nil]
    cases value with
    | none =>
      constructor
      · rintro ⟨_, hr, heq⟩
        obtain ⟨hv, rfl⟩ := ret_none_eq_ok.1 hr
        cases heq
        exact ⟨rfl, .retNone (h.result ▸ hv)⟩
      · rintro ⟨hd, ha⟩
        cases ha with
        | retNone hv =>
          cases hd
          exact ⟨_, ret_none_eq_ok.2 ⟨h.result.trans hv, rfl⟩, rfl⟩
    | some e =>
      simp only [Stmt.exprs, List.forall_mem_singleton] at hu
      constructor
      · rintro ⟨_, hr, heq⟩
        obtain ⟨hv, e', he, rfl⟩ := ret_eq_ok.1 hr
        cases heq
        obtain ⟨a, j⟩ := (expr_eq_ok_iff h.shows hu).1 he
        rw [h.result] at hv j
        exact ⟨rfl, .retSome hv j⟩
      · rintro ⟨hd, ha⟩
        cases ha with
        | retSome hv j =>
          cases hd
          rw [← h.result] at hv j
          exact ⟨_, ret_eq_ok.2 ⟨hv, _, j.expr_eq_ok h.shows, rfl⟩, rfl⟩
  | expr l e =>
    simp only [Stmt.exprs, List.forall_mem_singleton] at hu
    simp only [stmt, outcome_bind_eq_ok, outcome_pure_eq_ok, Stmt.locals, List.foldlM_nil]
    constructor
    · rintro ⟨⟨e', ty⟩, he, heq⟩
      cases heq
      obtain ⟨a, j⟩ := (expr_eq_ok_iff h.shows hu).1 he
      exact ⟨rfl, .expr j⟩
    · rintro ⟨hd, ha⟩
      cases ha with
      | expr j =>
        cases hd
        exact ⟨_, j.expr_eq_ok h.shows, rfl⟩
  | write l e =>
    simp only [Stmt.exprs, List.forall_mem_singleton] at hu
    simp only [stmt, outcome_bind_eq_ok, writable_eq_ok, outcome_pure_eq_ok, Stmt.locals,
      List.foldlM_nil]
    constructor
    · rintro ⟨⟨e', ty⟩, he, _, ⟨rfl, ht⟩, heq⟩
      cases heq
      obtain ⟨a, j⟩ := (expr_eq_ok_iff h.shows hu).1 he
      exact ⟨rfl, .write j ht⟩
    · rintro ⟨hd, ha⟩
      cases ha with
      | write j ht =>
        cases hd
        exact ⟨_, j.expr_eq_ok h.shows, _, ⟨rfl, ht⟩, rfl⟩
  | writeln l =>
    simp only [stmt, outcome_pure_eq_ok, Stmt.locals, List.foldlM_nil]
    constructor
    · intro heq
      cases heq
      exact ⟨rfl, .writeln⟩
    · rintro ⟨hd, ha⟩
      cases ha
      cases hd
      rfl

theorem block_eq_ok_iff {ls : Locals} (h : Covers ctx c ls) (b : Block)
    (hu : ∀ e ∈ b.exprs, e.Unlinked) {b' : Block} {ls' : Locals} :
    (block ctx ls b).outcome = .ok (b', ls') ↔
      b.locals.foldlM Locals.declare ls = .ok ls' ∧ AllowsBlock c ls.declared b b' := by
  cases b with
  | mk l vs ss =>
    simp only [block, outcome_bind_eq_ok, outcome_ofExcept_eq_ok, outcome_pure_eq_ok,
      Block.locals, List.foldlM_append, Except.bind_eq_ok_iff]
    constructor
    · rintro ⟨ls₁, hd, ⟨ss', ls₂⟩, hs, heq⟩
      cases heq
      obtain ⟨h₁, hl, _⟩ := h.declareAll hd
      obtain ⟨hd', ha⟩ := (stmts_eq_ok_iff h₁ ss hu).1 hs
      exact ⟨⟨ls₁, hd, hd'⟩, .mk (hl ▸ ha)⟩
    · rintro ⟨⟨ls₁, hd, hd'⟩, ha⟩
      cases ha with
      | mk ha =>
        obtain ⟨h₁, hl, _⟩ := h.declareAll hd
        exact ⟨ls₁, hd, _, (stmts_eq_ok_iff h₁ ss hu).2 ⟨hd', hl.symm ▸ ha⟩, rfl⟩

theorem stmts_eq_ok_iff {ls : Locals} (h : Covers ctx c ls) (ss : List Stmt)
    (hu : ∀ e ∈ Stmt.exprsOfList ss, e.Unlinked) {ss' : List Stmt} {ls' : Locals} :
    (stmts ctx ls ss).outcome = .ok (ss', ls') ↔
      (Stmt.localsOfList ss).foldlM Locals.declare ls = .ok ls' ∧
        AllowsAll c ls.declared ss ss' := by
  cases ss with
  | nil =>
    simp only [stmts, outcome_pure_eq_ok, Stmt.localsOfList, List.foldlM_nil]
    constructor
    · intro heq
      cases heq
      exact ⟨rfl, .nil⟩
    · rintro ⟨hd, ha⟩
      cases ha
      cases hd
      rfl
  | cons s ss =>
    simp only [Stmt.exprsOfList, List.forall_mem_append] at hu
    simp only [stmts, outcome_bind_eq_ok, outcome_pure_eq_ok, Stmt.localsOfList,
      List.foldlM_append, Except.bind_eq_ok_iff]
    constructor
    · rintro ⟨⟨s', ls₁⟩, hs, ⟨ss', ls₂⟩, hss, heq⟩
      cases heq
      obtain ⟨hd, ha⟩ := (stmt_eq_ok_iff h s hu.1).1 hs
      obtain ⟨h₁, hl, _⟩ := h.declareAll hd
      obtain ⟨hd', ha'⟩ := (stmts_eq_ok_iff h₁ ss hu.2).1 hss
      exact ⟨⟨ls₁, hd, hd'⟩, .cons ha (hl ▸ ha')⟩
    · rintro ⟨⟨ls₁, hd, hd'⟩, ha⟩
      cases ha with
      | cons ha ha' =>
        obtain ⟨h₁, hl, _⟩ := h.declareAll hd
        exact ⟨_, (stmt_eq_ok_iff h s hu.1).2 ⟨hd, ha⟩, _,
          (stmts_eq_ok_iff h₁ ss hu.2).2 ⟨hd', hl.symm ▸ ha'⟩, rfl⟩

end

end Bpl.Typing
