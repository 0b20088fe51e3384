import Bpl.Proofs.Typing.Decision
import Bpl.Proofs.Typing.Unchecked

namespace Bpl

namespace Typing

open Logged

mutual

/-- Notes of an earlier check are not read. -/
theorem expr_unchecked (env : Env) (e : Expr) (hu : e.Unlinked) :
    expr env e.unchecked = expr env e := by
  cases e with
  | number | string | read | name => rfl
  | var | decay => exact absurd (hu _ (Expr.mem_nodes_self _)) (by simp [Expr.isLinked])
  | assign n target value =>
    simp only [Expr.Unlinked, Expr.nodes, List.forall_mem_cons, List.forall_mem_append] at hu
    simp only [Expr.unchecked, expr, expr_unchecked env target hu.2.1,
      expr_unchecked env value hu.2.2, typed, Note.new_location]
  | binary n op left right =>
    simp only [Expr.Unlinked, Expr.nodes, List.forall_mem_cons, List.forall_mem_append] at hu
    simp only [Expr.unchecked, expr, expr_unchecked env left hu.2.1,
      expr_unchecked env right hu.2.2, typed, Note.new_location]
  | unary n op e =>
    simp only [Expr.Unlinked, Expr.nodes, List.forall_mem_cons] at hu
    cases op <;>
      simp only [Expr.unchecked, expr, expr_unchecked env e hu.2, typed, Note.new_location]
  | index n base i =>
    simp only [Expr.Unlinked, Expr.nodes, List.forall_mem_cons, List.forall_mem_append] at hu
    simp only [Expr.unchecked, expr, expr_unchecked env base hu.2.1,
      expr_unchecked env i hu.2.2, typed, Note.new_location]
  | call n x args =>
    simp only [Expr.Unlinked, Expr.nodes, List.forall_mem_cons] at hu
    simp only [Expr.unchecked, expr, Note.new_location, Expr.length_uncheckedList]
    refine bind_congr_of_ok fun r hr => ?_
    have hl : r.1.length = args.length := (callee_eq_ok.1 hr).2
    simp only [arguments_unchecked env args hu.2 hl, typed, Note.new_location]

/-- So are those of as many arguments as there are parameters. -/
theorem arguments_unchecked (env : Env) (es : List Expr)
    (hu : ∀ x ∈ Expr.nodesOfList es, x.isLinked = false) {tys : List Ty}
    (hl : tys.length = es.length) (x : String) (position : Nat) :
    arguments env x position (Expr.uncheckedList es) tys = arguments env x position es tys := by
  match es, tys with
  | [], _ => rfl
  | e :: es, ty :: tys =>
    simp only [Expr.nodesOfList, List.forall_mem_append] at hu
    have hl' : tys.length = es.length := Nat.succ.inj hl
    simp only [Expr.uncheckedList, arguments, expr_unchecked env e hu.1,
      arguments_unchecked env es hu.2 hl']

end

mutual

theorem stmt_unchecked (ctx : Context) (ls : Locals) (s : Stmt)
    (hu : ∀ e ∈ s.exprs, e.Unlinked) : stmt ctx ls (s.map id Expr.unchecked) = stmt ctx ls s := by
  cases s with
  | compound l b => simp only [Stmt.map, stmt, block_unchecked ctx ls b hu]
  | ifThen l c yes =>
    simp only [Stmt.exprs, List.forall_mem_cons] at hu
    simp only [Stmt.map, stmt, expr_unchecked _ c hu.1, stmt_unchecked ctx ls yes hu.2]
  | ifElse l c yes no =>
    simp only [Stmt.exprs, List.forall_mem_cons, List.forall_mem_append] at hu
    simp only [Stmt.map, stmt, expr_unchecked _ c hu.1, stmt_unchecked ctx _ yes hu.2.1,
      stmt_unchecked ctx _ no hu.2.2]
  | whileDo l c body =>
    simp only [Stmt.exprs, List.forall_mem_cons] at hu
    simp only [Stmt.map, stmt, expr_unchecked _ c hu.1, stmt_unchecked ctx ls body hu.2]
  | ret l e =>
    cases e with
    | none => rfl
    | some e =>
      have he : e.Unlinked := hu e List.mem_cons_self
      have hloc : e.unchecked.location = e.location := by cases e <;> rfl
      simp only [Stmt.map, stmt, Option.map_some, ret, expr_unchecked _ e he, hloc]
  | expr l e | write l e =>
    have he : e.Unlinked := hu e List.mem_cons_self
    simp only [Stmt.map, stmt, expr_unchecked _ e he]
  | writeln l => rfl

theorem block_unchecked (ctx : Context) (ls : Locals) (b : Block)
    (hu : ∀ e ∈ b.exprs, e.Unlinked) :
    block ctx ls (b.map id Expr.unchecked) = block ctx ls b := by
  cases b with
  | mk l vs ss => simp only [Block.map, block, List.map_id, stmts_unchecked ctx _ ss hu]

theorem stmts_unchecked (ctx : Context) (ls : Locals) (ss : List Stmt)
    (hu : ∀ e ∈ Stmt.exprsOfList ss, e.Unlinked) :
    stmts ctx ls (Stmt.mapList id Expr.unchecked ss) = stmts ctx ls ss := by
  cases ss with
  | nil => rfl
  | cons s ss =>
    simp only [Stmt.exprsOfList, List.forall_mem_append] at hu
    simp only [Stmt.mapList, stmts, stmt_unchecked ctx _ s hu.1, stmts_unchecked ctx _ ss hu.2]

end

/-- Nor are the locals that an earlier check has collected. -/
theorem function_unchecked (globals : Scope) (f : Function) (hu : ∀ e ∈ f.body.exprs, e.Unlinked) :
    function globals f.unchecked = function globals f := by
  simp only [function, Function.unchecked, block_unchecked _ _ f.body hu]

theorem decl_unchecked (globals : Scope) {d : Decl}
    (hu : ∀ f, d = .function f → ∀ e ∈ f.body.exprs, e.Unlinked) :
    decl globals d.unchecked = decl globals d := by
  cases d with
  | var v => rfl
  | function f => simp only [Decl.unchecked, decl, function_unchecked globals f (hu f rfl)]

theorem declareGlobals_unchecked (globals : Scope) (ds : List Decl) :
    declareGlobals globals (ds.map Decl.unchecked) = declareGlobals globals ds := by
  refine declareGlobals_map (fun globals d => ?_) globals ds
  cases d <;> rfl

theorem decls_unchecked (globals : Scope) {ds : List Decl}
    (hu : ∀ f, .function f ∈ ds → ∀ e ∈ f.body.exprs, e.Unlinked) :
    (ds.map Decl.unchecked).mapM (decl globals) = ds.mapM (decl globals) := by
  induction ds with
  | nil => rfl
  | cons d ds ih =>
    rw [List.map_cons, List.mapM_cons, List.mapM_cons,
      decl_unchecked globals fun f hf => hu f (hf ▸ List.mem_cons_self),
      ih fun f hf => hu f (List.mem_cons_of_mem _ hf)]

end Typing

/-- The check of a program with whatever notes is the check of the program without them. -/
theorem Program.checkAmong_unchecked (globals : Scope) {p : Program} (hu : p.Unlinked) :
    p.unchecked.checkAmong globals = p.checkAmong globals := by
  have hm : ∀ g, (p.map Decl.unchecked).mapM (Typing.decl g) = p.mapM (Typing.decl g) := fun g =>
    Typing.decls_unchecked g (Program.unlinked_iff.1 hu)
  unfold Program.checkAmong Program.unchecked
  simp only [Typing.declareGlobals_unchecked, hm]

namespace Typing

open Logged

variable {env : Env} {w : View}

/-- An argument that was passed once is passed again: it has the type of the parameter now. -/
theorem Passes.pass_again {e e' : Expr} {ty : Ty} (j : Passes w e ty e')
    (ih : ∀ {ty a e'}, Judges w e ty a e' → (expr env e').outcome = .ok (e', ty))
    (x : String) (position : Nat) :
    ∃ r, (expr env e').outcome = .ok r ∧ (pass x position ty r).outcome = .ok e' := by
  cases j with
  | value j hv => exact ⟨_, ih j, Typing.pass_eq_ok.2 ⟨hv, .inl rfl⟩⟩
  | decay hs => exact ⟨(_, _), by rw [expr]; rfl, Typing.pass_eq_ok.2 ⟨by simp, .inl rfl⟩⟩

mutual

/-- A judged expression is checked to be what it is. Its names are linked now, and keep the types
that the first check gave them. -/
theorem Judges.expr_again (h : Shows env w) {e e' : Expr} {ty : Ty} {a : Bool}
    (j : Judges w e ty a e') : (expr env e').outcome = .ok (e', ty) := by
  cases j with
  | number | string | read => rw [expr, typed_eq_ok]; rfl
  | name hs hf => rw [expr]; rfl
  | assign jt hv jv => exact expr_assign (jt.expr_again h) jt.isLvalue hv (jv.expr_again h)
  | comparison hop jl hc jr => exact expr_comparison hop (jl.expr_again h) hc (jr.expr_again h)
  | arithmetic hop jl jr => exact expr_arithmetic hop (jl.expr_again h) (jr.expr_again h)
  | neg j => exact expr_neg (j.expr_again h)
  | address j hv => exact expr_address (j.expr_again h) j.isLvalue hv
  | deref j => exact expr_deref (j.expr_again h)
  | index jb he ji => exact expr_index (jb.expr_again h) he (ji.expr_again h)
  | call hd hty ja => exact expr_call h hd hty ja.length_right.symm (ja.arguments_again h _ _)

theorem PassesAll.arguments_again (h : Shows env w) {es es' : List Expr} {tys : List Ty}
    (j : PassesAll w es tys es') (x : String) (position : Nat) :
    (arguments env x position es' tys).outcome = .ok es' := by
  cases j with
  | nil => simp [arguments]
  | cons j js =>
    obtain ⟨r, hr, hp⟩ := j.pass_again (fun j => j.expr_again h) x position
    exact arguments_cons hr hp (js.arguments_again h x (position + 1))

end

/-- A second check of a judged expression finds what the first one found. -/
theorem Judges.outcome_again (h : Shows env w) {e e' : Expr} {ty : Ty} {a : Bool}
    (j : Judges w e ty a e') : (expr env e').outcome = (expr env e).outcome :=
  (j.expr_again h).trans (j.expr_eq_ok h).symm

variable {ctx : Context} {c : Setting}

mutual

theorem Allows.outcome_again {ls : Locals} (h : Covers ctx c ls) {s s' : Stmt}
    (hu : ∀ e ∈ s.exprs, e.Unlinked) (j : Allows c ls.declared s s') :
    (stmt ctx ls s').outcome = (stmt ctx ls s).outcome := by
  cases j with
  | compound j => simp only [stmt, outcome_bind, j.outcome_again h hu]
  | ifThen je jy =>
    simp only [Stmt.exprs, List.forall_mem_cons] at hu
    simp only [stmt, outcome_bind, je.outcome_again h.shows, jy.outcome_again h hu.2]
  | ifElse je jy jn =>
    simp only [Stmt.exprs, List.forall_mem_cons, List.forall_mem_append] at hu
    simp only [stmt, outcome_bind, je.outcome_again h.shows, jy.outcome_again h hu.2.1]
    refine bind_congr fun _ => bind_congr fun _ => Except.bind_congr_of_ok fun r hr => ?_
    obtain ⟨hd, _⟩ := (stmt_eq_ok_iff h _ hu.2.1).1 hr
    obtain ⟨h₁, hl, _⟩ := h.declareAll hd
    rw [Allows.outcome_again h₁ hu.2.2 (hl ▸ jn)]
  | whileDo je jb =>
    simp only [Stmt.exprs, List.forall_mem_cons] at hu
    simp only [stmt, outcome_bind, je.outcome_again h.shows, jb.outcome_again h hu.2]
  | retNone | writeln => rfl
  | @retSome _ l e e' _ hv je =>
    rw [← h.result] at hv je
    have hret : ∀ d, (expr (ctx.env ls) d).outcome = .ok (e', ctx.result) →
        (ret ctx (ctx.env ls) l (some d)).outcome = .ok (some e') :=
      fun d hd => ret_eq_ok.2 ⟨hv, _, hd, rfl⟩
    simp only [stmt, outcome_bind, hret e (je.expr_eq_ok h.shows), hret e' (je.expr_again h.shows)]
  | expr je => simp only [stmt, outcome_bind, je.outcome_again h.shows]
  | write je ht => simp only [stmt, outcome_bind, je.outcome_again h.shows]

theorem AllowsBlock.outcome_again {ls : Locals} (h : Covers ctx c ls) {b b' : Block}
    (hu : ∀ e ∈ b.exprs, e.Unlinked) (j : AllowsBlock c ls.declared b b') :
    (block ctx ls b').outcome = (block ctx ls b).outcome := by
  cases j with
  | mk js =>
    simp only [block, outcome_bind]
    refine Except.bind_congr_of_ok fun ls₁ hd => ?_
    obtain ⟨h₁, hl, _⟩ := h.declareAll (outcome_ofExcept_eq_ok.1 hd)
    rw [AllowsAll.outcome_again h₁ hu (hl ▸ js)]

theorem AllowsAll.outcome_again {ls : Locals} (h : Covers ctx c ls) {ss ss' : List Stmt}
    (hu : ∀ e ∈ Stmt.exprsOfList ss, e.Unlinked) (j : AllowsAll c ls.declared ss ss') :
    (stmts ctx ls ss').outcome = (stmts ctx ls ss).outcome := by
  cases j with
  | nil => rfl
  | cons js jss =>
    simp only [Stmt.exprsOfList, List.forall_mem_append] at hu
    simp only [stmts, outcome_bind, js.outcome_again h hu.1]
    refine Except.bind_congr_of_ok fun r hr => ?_
    obtain ⟨hd, _⟩ := (stmt_eq_ok_iff h _ hu.1).1 hr
    obtain ⟨h₁, hl, _⟩ := h.declareAll hd
    rw [AllowsAll.outcome_again h₁ hu.2 (hl ▸ jss)]

end

variable {globals : Scope} {p : Program}

theorem function_again (hg : globals.symbols = (p.map Decl.symbol).reverse) {f f' : Function}
    (hu : ∀ e ∈ f.body.exprs, e.Unlinked) (hf : (function globals f).outcome = .ok f') :
    (function globals f').outcome = .ok f' := by
  simp only [function, outcome_bind_eq_ok, outcome_ofExcept_eq_ok, outcome_ensure_eq_ok,
    outcome_report_eq_ok, outcome_pure_eq_ok, exists_const, true_and] at hf ⊢
  obtain ⟨scope, hs, ⟨body, ls⟩, hb, hfit, rfl⟩ := hf
  have hc : Covers ⟨globals, f.name, f.result⟩ ⟨p, f.params, f.result⟩ ⟨scope, []⟩ :=
    ⟨hg, rfl, (params_empty_eq_ok.1 hs).2⟩
  obtain ⟨_, ha⟩ := (block_eq_ok_iff hc f.body hu).1 hb
  exact ⟨scope, hs, _, (ha.outcome_again hc hu).trans hb, hfit, rfl⟩

theorem AllowsDecl.again (hg : globals.symbols = (p.map Decl.symbol).reverse) {d d' : Decl}
    (hu : ∀ f, d = .function f → ∀ e ∈ f.body.exprs, e.Unlinked) (j : AllowsDecl p d d') :
    (decl globals d').outcome = .ok d' := by
  cases d with
  | var v =>
    cases j with
    | var => rfl
  | function f =>
    obtain ⟨f', rfl⟩ : ∃ f', d' = .function f' := by
      cases j with
      | function => exact ⟨_, rfl⟩
    have hf := function_again hg (hu f rfl) ((function_eq_ok hg (hu f rfl)).2 j)
    simp only [decl, outcome_bind_eq_ok, outcome_pure_eq_ok]
    exact ⟨f', hf, rfl⟩

theorem decls_again (hg : globals.symbols = (p.map Decl.symbol).reverse) {ds ds' : List Decl}
    (hu : ∀ f, .function f ∈ ds → ∀ e ∈ f.body.exprs, e.Unlinked)
    (js : List.Forall₂ (AllowsDecl p) ds ds') : (ds'.mapM (decl globals)).outcome = .ok ds' := by
  induction js with
  | nil => rfl
  | cons j _ ih =>
    have hd := j.again hg fun f hf => hu f (hf ▸ List.mem_cons_self)
    have hds := ih fun f hf => hu f (List.mem_cons_of_mem _ hf)
    simp only [List.mapM_cons, outcome_bind_eq_ok, outcome_pure_eq_ok]
    exact ⟨_, hd, _, hds, rfl⟩

end Typing

namespace Program

/-- What a check makes of a program, another check accepts as it is. -/
theorem Derives.check_eq_ok {p q : Program} (hu : p.Unlinked) (h : p.Derives q) :
    q.check.outcome = .ok q := by
  obtain ⟨g, hg, hs⟩ := Typing.declareGlobals_of_derives h
  have hq : Typing.declareGlobals .empty q = (g, .ok ()) := by
    have hmap : q.map Decl.unchecked = p.map Decl.unchecked := h.unchecked
    rw [← Typing.declareGlobals_unchecked, hmap, Typing.declareGlobals_unchecked, hg]
  unfold Program.check Program.checkAmong
  rw [hq]
  simp only [Logged.outcome_bind_eq_ok, Logged.outcome_ofExcept_eq_ok, Logged.outcome_pure_eq_ok]
  exact ⟨q, Typing.decls_again hs (unlinked_iff.1 hu) h.decls, (),
    (Typing.checkMain_eq_ok hs).2 h.main, rfl⟩

/-- A check reads no notes of an earlier one: whatever types, marks of places and locals a tree of
unlinked names carries, the check reports and returns what it does without them. What it returns,
another check accepts as it is. -/
theorem check_again {p : Program} (hu : p.Unlinked) :
    p.check = p.unchecked.check ∧
      ∀ q, p.check.outcome = .ok q → q.Annotated ∧ q.check.outcome = .ok q := by
  refine ⟨?_, fun q hq => ?_⟩
  · exact (congrArg Prod.snd (checkAmong_unchecked .empty hu)).symm
  · have hd := (Typing.check_eq_ok_iff_derives hu).1 hq
    exact ⟨hd.annotated, hd.check_eq_ok hu⟩

/-- An array that is passed to a function, in a tree where each part is noted as a place of a type
that it has not and `main` with a local that it does not declare. -/
def stalePassed : Program :=
  let l : Location := .first
  let stale : Note := ⟨l, some .string, true⟩
  [.var ⟨"a", .array .int 3, l⟩,
    .function ⟨"get", .int, [⟨"p", .pointer .int, l⟩],
      .mk l [] [.ret l (some (.index stale (.name stale "p") (.number stale 0)))], l, []⟩,
    .function ⟨"main", .void, [], .mk l []
      [.expr l (.assign stale (.index stale (.name stale "a") (.number stale 0))
        (.call stale "get" [.name stale "a"]))], l, [⟨"x", .int, l⟩]⟩]

theorem stalePassed_again : stalePassed.Unlinked ∧ stalePassed.check = stalePassed.unchecked.check ∧
    ∃ q, stalePassed.check.outcome = .ok q ∧ q.Annotated ∧ q.check.outcome = .ok q := by
  have hu : stalePassed.Unlinked := by
    simp [Unlinked, exprs, functions, stalePassed, Block.exprs, Stmt.exprsOfList, Stmt.exprs,
      Expr.Unlinked, Expr.nodes, Expr.nodesOfList, Expr.isLinked]
  obtain ⟨heq, hagain⟩ := check_again hu
  obtain ⟨q, hq⟩ : ∃ q, stalePassed.check.outcome = .ok q := ⟨_, rfl⟩
  exact ⟨hu, heq, q, hq, hagain q hq⟩

end Program

end Bpl
