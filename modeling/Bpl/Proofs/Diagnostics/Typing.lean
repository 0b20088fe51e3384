import Bpl.Proofs.Diagnostics.Places
import Bpl.Typing.Program

namespace Bpl

variable {P : Location → Prop}

instance : HasPlaces Symbol := ⟨fun s => [s.location]⟩

instance : HasPlaces Scope := ⟨fun s => places s.symbols⟩

theorem inPlaces_tys {tys : List Ty} : InPlaces P tys :=
  inPlaces_list.2 fun _ _ => inPlaces_free rfl

namespace Scope

theorem inPlaces_symbol {s : Scope} {x : String} {y : Symbol} (hs : InPlaces P s)
    (h : s.find? x = some y) : P y.location :=
  List.forall_mem_singleton.1 (inPlaces_list.1 hs y (List.mem_of_find?_eq_some h))

theorem declare_keeps {s : Scope} {x : Symbol} (hs : InPlaces P s) (hx : P x.location) :
    Keeps P (s.declare x) := by
  unfold declare
  split
  · exact .error rfl hx
  · exact .ok (inPlaces_cons.2 ⟨List.forall_mem_singleton.2 hx, hs⟩)

end Scope

namespace Logged

variable {α β : Type} [HasPlaces α] [HasPlaces β]

/-- A computation that keeps to places with a property. A fault is reported at none. -/
inductive Keeps {α : Type} [HasPlaces α] (P : Location → Prop) : Logged α → Prop
  | ok {events : List Event} {a : α} : InPlaces P a → Keeps P ⟨events, .ok a⟩
  | diagnostic {events : List Event} {d : Diagnostic} {l : Location} :
      d.location? = some l → P l → Keeps P ⟨events, .error (.diagnostic d)⟩
  | fault {events : List Event} {f : Fault} : Keeps P ⟨events, .error (.fault f)⟩

theorem keeps_pure {a : α} (h : InPlaces P a) : (pure a : Logged α).Keeps P :=
  .ok h

theorem keeps_report (e : Event) : (report e).Keeps P :=
  .ok (inPlaces_free rfl)

theorem keeps_refuse {l : Location} (h : P l) (v : Violation) :
    (refuse l v : Logged α).Keeps P :=
  .diagnostic rfl h

theorem keeps_ensure {l : Location} (h : P l) (ok : Bool) (v : Violation) :
    (ensure ok l v).Keeps P := by
  cases ok with
  | false => exact keeps_refuse h v
  | true => exact .ok (inPlaces_free rfl)

theorem keeps_ofExcept {x : Except Diagnostic α} (h : Bpl.Keeps P x) : (ofExcept x).Keeps P := by
  cases h with
  | ok ha => exact .ok ha
  | error hl hP => exact .diagnostic hl hP

theorem Keeps.bind {x : Logged α} {f : α → Logged β} (hx : x.Keeps P)
    (hf : ∀ a, InPlaces P a → (f a).Keeps P) : (x >>= f).Keeps P := by
  cases hx with
  | @ok events a ha =>
    have h := hf a ha
    change Keeps P ⟨events ++ (f a).events, (f a).outcome⟩
    generalize f a = y at h
    cases h with
    | ok hb => exact .ok hb
    | diagnostic hl hP => exact .diagnostic hl hP
    | fault => exact .fault
  | diagnostic hl hP => exact .diagnostic hl hP
  | fault => exact .fault

theorem Keeps.exists_location {x : Logged α} {d : Diagnostic} (h : x.Keeps P)
    (hd : x.outcome = .error (.diagnostic d)) : ∃ l, d.location? = some l ∧ P l := by
  cases h with
  | ok => cases hd
  | diagnostic hl hP =>
    cases hd
    exact ⟨_, hl, hP⟩
  | fault => cases hd

omit [HasPlaces α] in
theorem keeps_mapM {f : α → Logged β} {as : List α} (h : ∀ a ∈ as, (f a).Keeps P) :
    (as.mapM f).Keeps P := by
  induction as with
  | nil => exact keeps_pure inPlaces_nil
  | cons a as ih =>
    rw [List.forall_mem_cons] at h
    rw [List.mapM_cons]
    refine h.1.bind fun b hb => (ih h.2).bind fun bs hbs => ?_
    exact keeps_pure (inPlaces_cons.2 ⟨hb, hbs⟩)

end Logged

namespace Typing

open Logged

theorem keeps_typed {n : Note} {ty : Ty} {lvalue : Bool} {mk : Note → Expr}
    (h : InPlaces P (mk ⟨n.location, some ty, lvalue⟩)) : (typed n ty lvalue mk).Keeps P :=
  (keeps_report _).bind fun _ _ => keeps_pure ((inPlaces_mk_free rfl).2 h)

theorem keeps_resolve (env : Env) {n : Note} (h : P n.location) (x : String) :
    (resolve env n x).Keeps P := by
  unfold resolve
  split
  · exact keeps_refuse h _
  · refine (keeps_ensure h _ _).bind fun _ _ => (keeps_report _).bind fun _ _ => ?_
    refine (keeps_report _).bind fun _ _ => keeps_pure ((inPlaces_mk_free rfl).2 ?_)
    exact (inPlaces_leaf rfl).2 h

theorem keeps_recorded {e : Expr} (h : InPlaces P e) : (recorded e).Keeps P := by
  unfold recorded
  split
  · exact keeps_pure ((inPlaces_mk_free rfl).2 h)
  · exact .fault

section

variable {r : Typed}

theorem place_of_typed (h : InPlaces P r) : P r.1.location :=
  (inPlaces_mk.1 h).1.location

theorem keeps_valued (h : InPlaces P r) : (valued r).Keeps P :=
  (keeps_ensure (place_of_typed h) _ _).bind fun _ _ => keeps_pure h

theorem keeps_integer (construct : String) (h : InPlaces P r) : (integer construct r).Keeps P := by
  refine (keeps_valued h).bind fun r hr => ?_
  exact (keeps_ensure (place_of_typed hr) _ _).bind fun _ _ => keeps_pure (inPlaces_mk.1 hr).1

theorem keeps_assignable (construct : String) (h : InPlaces P r) :
    (assignable construct r).Keeps P := by
  refine (keeps_valued h).bind fun r hr => ?_
  exact (keeps_ensure (place_of_typed hr) _ _).bind fun _ _ => keeps_pure hr

theorem keeps_ofType (construct : String) (expected : Ty) (h : InPlaces P r) :
    (ofType construct expected r).Keeps P := by
  refine (keeps_valued h).bind fun r hr => ?_
  exact (keeps_ensure (place_of_typed hr) _ _).bind fun _ _ => keeps_pure (inPlaces_mk.1 hr).1

theorem keeps_writable (h : InPlaces P r) : (writable r).Keeps P := by
  refine (keeps_valued h).bind fun r hr => ?_
  exact (keeps_ensure (place_of_typed hr) _ _).bind fun _ _ => keeps_pure (inPlaces_mk.1 hr).1

theorem keeps_callee (globals : Scope) {l : Location} (h : P l) (x : String) (given : Nat) :
    (callee globals l x given).Keeps P := by
  unfold callee
  split
  · exact keeps_refuse h _
  · split
    · refine (keeps_ensure h _ _).bind fun _ _ => keeps_pure ?_
      exact (inPlaces_mk_free rfl).2 inPlaces_tys
    · exact keeps_refuse h _

theorem keeps_pass (x : String) (position : Nat) (param : Ty) (h : InPlaces P r) :
    (pass x position param r).Keeps P := by
  refine (keeps_valued h).bind fun (e, ty) hr => ?_
  obtain ⟨he, -⟩ := inPlaces_mk.1 hr
  simp only
  split
  · exact keeps_pure he
  · split
    · refine (keeps_ensure he.location _ _).bind fun _ _ => (keeps_report _).bind fun _ _ => ?_
      exact keeps_pure ((inPlaces_leaf rfl).2 he.location)
    · exact keeps_refuse he.location _

end

mutual

/-- An expression is found at fault where a part of it stands. -/
theorem keeps_expr (env : Env) (e : Expr) (h : InPlaces P e) : (expr env e).Keeps P := by
  cases e with
  | number n v => rw [expr]; exact keeps_typed ((inPlaces_leaf rfl).2 h.location)
  | string n s => rw [expr]; exact keeps_typed ((inPlaces_leaf rfl).2 h.location)
  | read n => rw [expr]; exact keeps_typed ((inPlaces_leaf rfl).2 h.location)
  | name n x => rw [expr]; exact keeps_resolve env h.location x
  | var n x slot => rw [expr]; exact keeps_recorded h
  | decay n x slot => rw [expr]; exact keeps_recorded h
  | assign n target value =>
    obtain ⟨hn, htarget, hvalue⟩ := inPlaces_assign.1 h
    rw [expr]
    refine (keeps_expr env target htarget).bind fun t ht => ?_
    refine (keeps_assignable _ ht).bind fun t ht => ?_
    refine (keeps_expr env value hvalue).bind fun v hv => ?_
    refine (keeps_ofType _ _ hv).bind fun v hv => ?_
    exact keeps_typed (inPlaces_assign.2 ⟨hn, (inPlaces_mk.1 ht).1, hv⟩)
  | binary n op left right =>
    obtain ⟨hn, hleft, hright⟩ := inPlaces_binary.1 h
    rw [expr]
    split
    · refine (keeps_expr env left hleft).bind fun l hl => (keeps_valued hl).bind fun l hl => ?_
      refine (keeps_ensure (place_of_typed hl) _ _).bind fun _ _ => ?_
      refine (keeps_expr env right hright).bind fun r hr => ?_
      refine (keeps_ofType _ _ hr).bind fun r hr => ?_
      exact keeps_typed (inPlaces_binary.2 ⟨hn, (inPlaces_mk.1 hl).1, hr⟩)
    · refine (keeps_expr env left hleft).bind fun l hl => (keeps_integer _ hl).bind fun l hl => ?_
      refine (keeps_expr env right hright).bind fun r hr => ?_
      refine (keeps_integer _ hr).bind fun r hr => ?_
      exact keeps_typed (inPlaces_binary.2 ⟨hn, hl, hr⟩)
  | unary n op e =>
    obtain ⟨hn, he⟩ := inPlaces_unary.1 h
    cases op with
    | neg =>
      rw [expr]
      refine (keeps_expr env e he).bind fun r hr => (keeps_integer _ hr).bind fun r hr => ?_
      exact keeps_typed (inPlaces_unary.2 ⟨hn, hr⟩)
    | address =>
      rw [expr]
      refine (keeps_expr env e he).bind fun r hr => (keeps_assignable _ hr).bind fun r hr => ?_
      exact keeps_typed (inPlaces_unary.2 ⟨hn, (inPlaces_mk.1 hr).1⟩)
    | deref =>
      rw [expr]
      refine (keeps_expr env e he).bind fun r hr => ?_
      refine (keeps_valued hr).bind fun (e, ty) hr => ?_
      obtain ⟨he, -⟩ := inPlaces_mk.1 hr
      cases ty with
      | pointer base => exact keeps_typed (inPlaces_unary.2 ⟨hn, he⟩)
      | _ => exact keeps_refuse he.location _
  | index n base i =>
    obtain ⟨hn, hbase, hi⟩ := inPlaces_index.1 h
    rw [expr]
    refine (keeps_expr env base hbase).bind fun b hb => ?_
    refine (keeps_valued hb).bind fun (b, ty) hb => ?_
    obtain ⟨hb, -⟩ := inPlaces_mk.1 hb
    simp only
    cases ty.base? with
    | some element =>
      refine (keeps_expr env i hi).bind fun r hr => (keeps_integer _ hr).bind fun r hr => ?_
      exact keeps_typed (inPlaces_index.2 ⟨hn, hb, hr⟩)
    | none => exact keeps_refuse hb.location _
  | call n x args =>
    obtain ⟨hn, hargs⟩ := inPlaces_call.1 h
    rw [expr]
    refine (keeps_callee _ hn _ _).bind fun _ _ => ?_
    refine (keeps_arguments env args hargs _ _ _).bind fun args hargs => ?_
    exact keeps_typed (inPlaces_call.2 ⟨hn, hargs⟩)

theorem keeps_arguments (env : Env) (es : List Expr) (h : InPlaces P es) (x : String)
    (position : Nat) (tys : List Ty) : (arguments env x position es tys).Keeps P := by
  match es, tys with
  | [], tys => rw [arguments]; exact keeps_pure h; simp
  | e :: es, [] => rw [arguments]; exact keeps_pure h; simp
  | e :: es, ty :: tys =>
    obtain ⟨he, hes⟩ := inPlaces_cons.1 h
    rw [arguments]
    refine (keeps_expr env e he).bind fun r hr => (keeps_pass _ _ _ hr).bind fun a ha => ?_
    refine (keeps_arguments env es hes _ _ _).bind fun as has => ?_
    exact keeps_pure (inPlaces_cons.2 ⟨ha, has⟩)

end

theorem keeps_ret (ctx : Context) (env : Env) {l : Location} (hl : P l) (value : Option Expr)
    (h : InPlaces P value) : (ret ctx env l value).Keeps P := by
  cases value with
  | none => exact (keeps_ensure hl _ _).bind fun _ _ => keeps_pure inPlaces_none
  | some e =>
    have he := inPlaces_some.1 h
    refine (keeps_ensure he.location _ _).bind fun _ _ => ?_
    refine (keeps_expr env e he).bind fun r hr => (keeps_valued hr).bind fun r hr => ?_
    refine (keeps_ensure (place_of_typed hr) _ _).bind fun _ _ => ?_
    exact keeps_pure (inPlaces_some.2 (inPlaces_mk.1 hr).1)

instance : HasPlaces Locals := ⟨fun ls => places ls.scope ++ places ls.declared⟩

theorem inPlaces_locals {scope : Scope} {declared : List Variable} :
    InPlaces P (Locals.mk scope declared) ↔ InPlaces P scope ∧ InPlaces P declared :=
  List.forall_mem_append

theorem validate_keeps {v : Variable} (h : InPlaces P v) : Keeps P (validate v) := by
  have hv := inPlaces_variable.1 h
  unfold validate
  split
  · exact .error rfl hv
  · exact .error rfl hv
  · split
    · exact .ok (inPlaces_free rfl)
    · exact .error rfl hv

theorem Locals.declare_keeps {ls : Locals} {v : Variable} (hls : InPlaces P ls)
    (hv : InPlaces P v) : Keeps P (ls.declare v) := by
  obtain ⟨hscope, hdeclared⟩ := inPlaces_locals.1 hls
  refine (validate_keeps hv).bind fun _ _ => ?_
  refine (Scope.declare_keeps hscope (inPlaces_variable.1 hv)).bind fun scope hscope => ?_
  refine .ok (inPlaces_locals.2 ⟨hscope, inPlaces_list.2 fun u hu => ?_⟩)
  rcases List.mem_append.1 hu with hu | hu
  · exact inPlaces_list.1 hdeclared u hu
  · exact List.mem_singleton.1 hu ▸ hv

theorem Locals.foldlM_keeps {ls : Locals} {vs : List Variable} (hls : InPlaces P ls)
    (hvs : InPlaces P vs) : Keeps P (vs.foldlM Locals.declare ls) := by
  induction vs generalizing ls with
  | nil => exact .ok hls
  | cons v vs ih =>
    obtain ⟨hv, hvs⟩ := inPlaces_cons.1 hvs
    rw [List.foldlM_cons]
    exact (declare_keeps hls hv).bind fun ls hls => ih hls hvs

mutual

theorem keeps_stmt (ctx : Context) {ls : Locals} (hls : InPlaces P ls) (s : Stmt)
    (h : InPlaces P s) : (stmt ctx ls s).Keeps P := by
  cases s with
  | compound l b =>
    obtain ⟨hl, hb⟩ := inPlaces_compound.1 h
    rw [stmt]
    refine (keeps_block ctx hls b hb).bind fun q hq => ?_
    obtain ⟨hb, hls⟩ := inPlaces_mk.1 hq
    exact keeps_pure (inPlaces_mk.2 ⟨inPlaces_compound.2 ⟨hl, hb⟩, hls⟩)
  | ifThen l c yes =>
    obtain ⟨hl, hc, hyes⟩ := inPlaces_ifThen.1 h
    rw [stmt]
    refine (keeps_expr _ c hc).bind fun r hr => (keeps_integer _ hr).bind fun c hc => ?_
    refine (keeps_stmt ctx hls yes hyes).bind fun q hq => ?_
    obtain ⟨hyes, hls⟩ := inPlaces_mk.1 hq
    exact keeps_pure (inPlaces_mk.2 ⟨inPlaces_ifThen.2 ⟨hl, hc, hyes⟩, hls⟩)
  | ifElse l c yes no =>
    obtain ⟨hl, hc, hyes, hno⟩ := inPlaces_ifElse.1 h
    rw [stmt]
    refine (keeps_expr _ c hc).bind fun r hr => (keeps_integer _ hr).bind fun c hc => ?_
    refine (keeps_stmt ctx hls yes hyes).bind fun q hq => ?_
    obtain ⟨hyes, hls⟩ := inPlaces_mk.1 hq
    refine (keeps_stmt ctx hls no hno).bind fun q hq => ?_
    obtain ⟨hno, hls⟩ := inPlaces_mk.1 hq
    exact keeps_pure (inPlaces_mk.2 ⟨inPlaces_ifElse.2 ⟨hl, hc, hyes, hno⟩, hls⟩)
  | whileDo l c body =>
    obtain ⟨hl, hc, hbody⟩ := inPlaces_whileDo.1 h
    rw [stmt]
    refine (keeps_expr _ c hc).bind fun r hr => (keeps_integer _ hr).bind fun c hc => ?_
    refine (keeps_stmt ctx hls body hbody).bind fun q hq => ?_
    obtain ⟨hbody, hls⟩ := inPlaces_mk.1 hq
    exact keeps_pure (inPlaces_mk.2 ⟨inPlaces_whileDo.2 ⟨hl, hc, hbody⟩, hls⟩)
  | ret l value =>
    obtain ⟨hl, hvalue⟩ := inPlaces_ret.1 h
    rw [stmt]
    refine (keeps_ret ctx _ hl value hvalue).bind fun value hvalue => ?_
    exact keeps_pure (inPlaces_mk.2 ⟨inPlaces_ret.2 ⟨hl, hvalue⟩, hls⟩)
  | expr l e =>
    obtain ⟨hl, he⟩ := inPlaces_exprStmt.1 h
    rw [stmt]
    refine (keeps_expr _ e he).bind fun r hr => ?_
    exact keeps_pure (inPlaces_mk.2 ⟨inPlaces_exprStmt.2 ⟨hl, (inPlaces_mk.1 hr).1⟩, hls⟩)
  | write l e =>
    obtain ⟨hl, he⟩ := inPlaces_write.1 h
    rw [stmt]
    refine (keeps_expr _ e he).bind fun r hr => (keeps_writable hr).bind fun e he => ?_
    exact keeps_pure (inPlaces_mk.2 ⟨inPlaces_write.2 ⟨hl, he⟩, hls⟩)
  | writeln l =>
    rw [stmt]
    exact keeps_pure (inPlaces_mk.2 ⟨h, hls⟩)

theorem keeps_block (ctx : Context) {ls : Locals} (hls : InPlaces P ls) (b : Block)
    (h : InPlaces P b) : (block ctx ls b).Keeps P := by
  cases b with
  | mk l vs ss =>
    obtain ⟨hl, hvs, hss⟩ := inPlaces_block.1 h
    rw [block]
    refine (keeps_ofExcept (Locals.foldlM_keeps hls hvs)).bind fun ls hls => ?_
    refine (keeps_stmts ctx hls ss hss).bind fun q hq => ?_
    obtain ⟨hss, hls⟩ := inPlaces_mk.1 hq
    exact keeps_pure (inPlaces_mk.2 ⟨inPlaces_block.2 ⟨hl, hvs, hss⟩, hls⟩)

theorem keeps_stmts (ctx : Context) {ls : Locals} (hls : InPlaces P ls) (ss : List Stmt)
    (h : InPlaces P ss) : (stmts ctx ls ss).Keeps P := by
  cases ss with
  | nil =>
    rw [stmts]
    exact keeps_pure (inPlaces_mk.2 ⟨inPlaces_nil, hls⟩)
  | cons s ss =>
    obtain ⟨hs, hss⟩ := inPlaces_cons.1 h
    rw [stmts]
    refine (keeps_stmt ctx hls s hs).bind fun q hq => ?_
    obtain ⟨hs, hls⟩ := inPlaces_mk.1 hq
    refine (keeps_stmts ctx hls ss hss).bind fun q hq => ?_
    obtain ⟨hss, hls⟩ := inPlaces_mk.1 hq
    exact keeps_pure (inPlaces_mk.2 ⟨inPlaces_cons.2 ⟨hs, hss⟩, hls⟩)

end

theorem params_keeps {scope : Scope} {index : Nat} {vs : List Variable} (hscope : InPlaces P scope)
    (hvs : InPlaces P vs) : Keeps P (params scope index vs) := by
  induction vs generalizing scope index with
  | nil => exact .ok hscope
  | cons v vs ih =>
    obtain ⟨hv, hvs⟩ := inPlaces_cons.1 hvs
    refine (validate_keeps hv).bind fun _ _ => ?_
    refine (Scope.declare_keeps hscope (inPlaces_variable.1 hv)).bind fun scope hscope => ?_
    exact ih hscope hvs

theorem keeps_function (globals : Scope) {f : Function} (h : InPlaces P f) :
    (function globals f).Keeps P := by
  obtain ⟨hf, hparams, hbody, -⟩ := inPlaces_function.1 h
  refine (keeps_ofExcept (params_keeps inPlaces_nil hparams)).bind fun scope hscope => ?_
  have hls := inPlaces_locals.2 ⟨hscope, inPlaces_nil⟩
  refine (keeps_block _ hls f.body hbody).bind fun q hq => ?_
  obtain ⟨hbody, hls⟩ := inPlaces_mk.1 hq
  refine (keeps_ensure hf _ _).bind fun _ _ => (keeps_report _).bind fun _ _ => ?_
  exact keeps_pure (inPlaces_function.2 ⟨hf, hparams, hbody, (inPlaces_locals.1 hls).2⟩)

theorem keeps_decl (globals : Scope) {d : Decl} (h : InPlaces P d) :
    (decl globals d).Keeps P := by
  cases d with
  | var v => exact keeps_pure h
  | function f => exact (keeps_function globals h).bind fun f hf => keeps_pure hf

theorem declareGlobal_keeps {globals : Scope} {d : Decl} (hglobals : InPlaces P globals)
    (h : InPlaces P d) : Keeps P (declareGlobal globals d) := by
  cases d with
  | var v =>
    refine (validate_keeps h).bind fun _ _ => ?_
    exact Scope.declare_keeps hglobals (inPlaces_variable.1 h)
  | function f => exact Scope.declare_keeps hglobals (inPlaces_function.1 h).1

theorem declareGlobals_keeps {globals : Scope} {p : Program} (hglobals : InPlaces P globals)
    (h : InPlaces P p) :
    InPlaces P (declareGlobals globals p).1 ∧ Keeps P (declareGlobals globals p).2 := by
  induction p generalizing globals with
  | nil => exact ⟨hglobals, .ok (inPlaces_free rfl)⟩
  | cons d p ih =>
    obtain ⟨hd, hp⟩ := inPlaces_cons.1 h
    have hkeeps := declareGlobal_keeps hglobals hd
    rw [declareGlobals]
    split
    · next heq => exact ih (heq ▸ hkeeps).inPlaces hp
    · next heq =>
      obtain ⟨l, hl, hP⟩ := (heq ▸ hkeeps).exists_location
      exact ⟨hglobals, .error hl hP⟩

theorem checkMain_error {globals : Scope} {d : Diagnostic} (h : InPlaces P globals)
    (hd : checkMain globals = .error d) :
    d = .semantic .first .missingMain ∨ ∃ l, d.location? = some l ∧ P l := by
  unfold checkMain at hd
  split at hd
  · cases hd
    exact .inl rfl
  · next s hs =>
    split at hd
    · cases hd
    · cases hd
      exact .inr ⟨s.location, rfl, Scope.inPlaces_symbol h hs⟩

end Typing

/-- A program is found at fault at a place of it, unless it lacks an entry. -/
theorem Program.check_error {p : Program} {d : Diagnostic} (h : InPlaces P p)
    (hd : p.check.outcome = .error (.diagnostic d)) :
    d = .semantic .first .missingMain ∨ ∃ l, d.location? = some l ∧ P l := by
  have hempty : InPlaces P Scope.empty := inPlaces_nil
  obtain ⟨hglobals, hdeclared⟩ := Typing.declareGlobals_keeps hempty h
  unfold check checkAmong at hd
  split at hd
  · next heq =>
    simp only [heq] at hdeclared
    cases hd
    exact .inr hdeclared.exists_location
  · next globals heq =>
    rw [heq] at hglobals
    have hdecls : (p.mapM (Typing.decl globals)).Keeps P :=
      Logged.keeps_mapM fun d hd => Typing.keeps_decl globals (inPlaces_list.1 h d hd)
    simp only [Logged.outcome_bind] at hd
    cases hp : (p.mapM (Typing.decl globals)).outcome with
    | error e =>
      rw [hp] at hd
      cases hd
      exact .inr (hdecls.exists_location hp)
    | ok p =>
      rw [hp] at hd
      cases hmain : Typing.checkMain globals with
      | error e =>
        rw [hmain] at hd
        cases hd
        exact Typing.checkMain_error hglobals hmain
      | ok _ =>
        rw [hmain] at hd
        cases hd

end Bpl
