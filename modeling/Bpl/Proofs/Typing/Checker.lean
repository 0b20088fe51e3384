import Bpl.Proofs.Typing.Faultless
import Bpl.Proofs.Typing.Outcome
import Bpl.Typing.Checker

namespace Bpl

namespace Logged

variable {α β : Type}

theorem ofExcept_pure (a : α) : ofExcept (pure a) = (pure a : Logged α) := rfl

theorem ofExcept_bind (x : Except Diagnostic α) (f : α → Except Diagnostic β) :
    ofExcept (x >>= f) = ofExcept x >>= fun a => ofExcept (f a) := by
  cases x <;> rfl

end Logged

namespace Typing

namespace Checking

variable {α β : Type}

@[simp] theorem pure_apply (a : α) (c : Checker) : (pure a : Checking α) c = (c, pure a) := rfl

@[simp] theorem reading_apply (f : Checker → Logged α) (c : Checker) : reading f c = (c, f c) := rfl

@[simp] theorem change_apply (f : Checker → Checker) (c : Checker) :
    change f c = (f c, pure ()) := rfl

theorem bind_apply_of_ok {x : Checking α} {f : α → Checking β} {c c' c'' : Checker}
    {r : Logged α} {q : Logged β} {a : α} (hx : x c = (c', r)) (hr : r.outcome = .ok a)
    (hf : f a c' = (c'', q)) : (x >>= f) c = (c'', r >>= fun _ => q) := by
  have hbind : (x >>= f) c = andThen x f c := rfl
  rw [hbind, andThen, hx]
  simp only [hr, hf]

theorem bind_apply_of_error {x : Checking α} {f : α → Checking β} {c c' : Checker} {r : Logged α}
    {e : Failure} (hx : x c = (c', r)) (hr : r.outcome = .error e) (g : α → Logged β) :
    (x >>= f) c = (c', r >>= g) := by
  have hbind : (x >>= f) c = andThen x f c := rfl
  have hfails : r >>= g = ⟨r.events, .error e⟩ := by
    change Logged.andThen r g = _
    unfold Logged.andThen
    rw [hr]
  rw [hbind, andThen, hx, hfails]
  simp only [hr]

/-- Where what follows keeps the checker, it is kept whether the first part fails or not. -/
theorem bind_apply {x : Checking α} {f : α → Checking β} {g : α → Logged β} {c c' : Checker}
    {r : Logged α} (hx : x c = (c', r)) (hf : ∀ a, f a c' = (c', g a)) :
    (x >>= f) c = (c', r >>= g) := by
  cases hr : r.outcome with
  | error e => exact bind_apply_of_error hx hr g
  | ok a =>
    rw [bind_apply_of_ok hx hr (hf a)]
    refine congrArg (Prod.mk c') (Logged.bind_congr_of_ok fun b hb => ?_)
    rw [hr] at hb
    cases hb
    rfl

theorem leaving_apply {x : Checking α} {c c' : Checker} {r : Logged α} (hx : x c = (c', r))
    (hr : r.Faultless) :
    leaving x c = (⟨c'.globals, none⟩, r >>= fun a => pure (a, c'.current)) := by
  unfold leaving
  rw [hx]
  cases h : r.outcome with
  | ok a => simp only [h]
  | error e =>
    cases e with
    | diagnostic d => simp only [h]
    | fault f => exact absurd h (hr f)

end Checking

/-- A checker in a function that has declared some locals. -/
def Context.checker (ctx : Context) (ls : Locals) : Checker :=
  ⟨ctx.globals, some ⟨ctx.function, ctx.result, ls⟩⟩

/-- In a function, a computation with a checker does what another does that is handed the locals and
returns them: it leaves the checker in the function, with these locals. -/
def Tracks {α : Type} (ctx : Context) (x : Checking α) (y : Locals → Logged (α × Locals)) : Prop :=
  ∀ ls, ∃ ls', x (ctx.checker ls) = (ctx.checker ls', y ls >>= fun r => pure r.1) ∧
    ∀ r, (y ls).outcome = .ok r → r.2 = ls'

namespace Tracks

variable {α β : Type} {ctx : Context} {x : Checking α} {y : Locals → Logged (α × Locals)}

theorem congr {z : Locals → Logged (α × Locals)} (h : Tracks ctx x y) (hz : ∀ ls, z ls = y ls) :
    Tracks ctx x z := by
  obtain rfl : z = y := funext hz
  exact h

theorem pure (a : α) : Tracks ctx (pure a) fun ls => pure (a, ls) := by
  intro ls
  refine ⟨ls, ?_, ?_⟩
  · rw [Checking.pure_apply, pure_bind]
  · intro r hr
    rw [← Logged.outcome_pure_eq_ok.1 hr]

theorem reading {f : Checker → Logged α} {g : Locals → Logged α}
    (h : ∀ ls, f (ctx.checker ls) = g ls) :
    Tracks ctx (Checking.reading f) fun ls => do return (← g ls, ls) := by
  intro ls
  refine ⟨ls, ?_, ?_⟩
  · rw [Checking.reading_apply, h ls, bind_assoc]
    simp only [pure_bind, bind_pure]
  · intro r hr
    obtain ⟨a, _, ha⟩ := Logged.outcome_bind_eq_ok.1 hr
    rw [← Logged.outcome_pure_eq_ok.1 ha]

theorem change {f : Checker → Checker} {g : Locals → Locals}
    (h : ∀ ls, f (ctx.checker ls) = ctx.checker (g ls)) :
    Tracks ctx (Checking.change f) fun ls => Pure.pure ((), g ls) := by
  intro ls
  refine ⟨g ls, ?_, ?_⟩
  · rw [Checking.change_apply, h ls, pure_bind]
  · intro r hr
    rw [← Logged.outcome_pure_eq_ok.1 hr]

theorem bind {f : α → Checking β} {g : α → Locals → Logged (β × Locals)} (hx : Tracks ctx x y)
    (hf : ∀ a, Tracks ctx (f a) (g a)) :
    Tracks ctx (x >>= f) fun ls => y ls >>= fun r => g r.1 r.2 := by
  intro ls
  obtain ⟨ls₁, hrun, hls⟩ := hx ls
  cases hr : (y ls).outcome with
  | error e =>
    have hfails : (y ls >>= fun r => Pure.pure r.1).outcome = .error e := by
      rw [Logged.outcome_bind, hr]
      rfl
    refine ⟨ls₁, ?_, ?_⟩
    · rw [Checking.bind_apply_of_error hrun hfails fun _ => ⟨[], .error e⟩, bind_assoc, bind_assoc]
      congr 1
      refine Logged.bind_congr_of_ok fun a ha => ?_
      rw [hr] at ha
      cases ha
    · intro r hok
      rw [Logged.outcome_bind, hr] at hok
      cases hok
  | ok r =>
    have hreturns : (y ls >>= fun r => Pure.pure r.1).outcome = .ok r.1 := by
      rw [Logged.outcome_bind, hr]
      rfl
    obtain rfl := hls r hr
    obtain ⟨ls₂, hrun₂, hls₂⟩ := hf r.1 r.2
    refine ⟨ls₂, ?_, ?_⟩
    · rw [Checking.bind_apply_of_ok hrun hreturns hrun₂, bind_assoc, bind_assoc]
      congr 1
      refine Logged.bind_congr_of_ok fun a ha => ?_
      rw [hr] at ha
      cases ha
      rw [pure_bind]
    · intro q hq
      rw [Logged.outcome_bind, hr] at hq
      exact hls₂ q hq

end Tracks

namespace Checker

open Checking

variable {ctx : Context}

theorem tracks_value (e : Expr) :
    Tracks ctx (value e) fun ls => do return (← Typing.expr (ctx.env ls) e, ls) :=
  Tracks.reading fun _ => rfl

theorem tracks_condition (construct : String) (e : Expr) :
    Tracks ctx (condition construct e) fun ls => do
      return (← integer construct (← Typing.expr (ctx.env ls) e), ls) := by
  refine Tracks.congr ((tracks_value e).bind fun r => Tracks.reading fun _ => rfl) fun ls => ?_
  simp only [bind_assoc, pure_bind]

theorem tracks_functionScope :
    Tracks ctx functionScope fun ls => pure (FunctionScope.mk ctx.function ctx.result ls, ls) :=
  (Tracks.reading (g := fun ls => pure ⟨ctx.function, ctx.result, ls⟩) fun _ => rfl).congr
    fun _ => by rw [pure_bind]

theorem tracks_declareLocal (v : Variable) :
    Tracks ctx (declareLocal v) fun ls => do return ((), ← .ofExcept (ls.declare v)) := by
  refine Tracks.congr ((Tracks.reading fun _ => rfl).bind fun _ => tracks_functionScope.bind fun f =>
    (Tracks.reading fun _ => rfl).bind fun scope =>
      Tracks.change (g := fun _ => ⟨scope, f.locals.declared ++ [v]⟩) fun _ => rfl) fun ls => ?_
  simp only [bind_assoc, pure_bind, Locals.declare, Logged.ofExcept_bind, Logged.ofExcept_pure]

theorem tracks_declareLocals (vs : List Variable) :
    Tracks ctx (declareLocals vs) fun ls => do
      return ((), ← .ofExcept (vs.foldlM Locals.declare ls)) := by
  induction vs with
  | nil => exact Tracks.pure ()
  | cons v vs ih =>
    refine Tracks.congr ((tracks_declareLocal v).bind fun _ => ih) fun ls => ?_
    simp only [List.foldlM_cons, Logged.ofExcept_bind, bind_assoc, pure_bind]

mutual

theorem tracks_stmt (s : Stmt) : Tracks ctx (stmt s) fun ls => Typing.stmt ctx ls s := by
  cases s with
  | compound l b =>
    rw [stmt]
    exact ((tracks_block b).bind fun b => Tracks.pure _).congr fun ls => by rw [Typing.stmt]
  | ifThen l e yes =>
    rw [stmt]
    refine ((tracks_condition _ e).bind fun e => (tracks_stmt yes).bind fun yes =>
      Tracks.pure _).congr fun ls => ?_
    simp only [Typing.stmt, bind_assoc, pure_bind]
  | ifElse l e yes no =>
    rw [stmt]
    refine ((tracks_condition _ e).bind fun e => (tracks_stmt yes).bind fun yes =>
      (tracks_stmt no).bind fun no => Tracks.pure _).congr fun ls => ?_
    simp only [Typing.stmt, bind_assoc, pure_bind]
  | whileDo l e body =>
    rw [stmt]
    refine ((tracks_condition _ e).bind fun e => (tracks_stmt body).bind fun body =>
      Tracks.pure _).congr fun ls => ?_
    simp only [Typing.stmt, bind_assoc, pure_bind]
  | ret l e =>
    rw [stmt]
    refine (tracks_functionScope.bind fun f => (Tracks.reading fun _ => rfl).bind fun e =>
      Tracks.pure _).congr fun ls => ?_
    simp only [Typing.stmt, bind_assoc, pure_bind]
    rfl
  | expr l e =>
    rw [stmt]
    refine ((tracks_value e).bind fun r => Tracks.pure _).congr fun ls => ?_
    simp only [Typing.stmt, bind_assoc, pure_bind]
  | write l e =>
    rw [stmt]
    refine ((tracks_value e).bind fun r => (Tracks.reading fun _ => rfl).bind fun e =>
      Tracks.pure _).congr fun ls => ?_
    simp only [Typing.stmt, bind_assoc, pure_bind]
  | writeln l =>
    rw [stmt]
    exact (Tracks.pure _).congr fun ls => by rw [Typing.stmt]

theorem tracks_block (b : Block) : Tracks ctx (block b) fun ls => Typing.block ctx ls b := by
  cases b with
  | mk l vs ss =>
    rw [block]
    refine ((tracks_declareLocals vs).bind fun _ => (tracks_stmts ss).bind fun ss =>
      Tracks.pure _).congr fun ls => ?_
    simp only [Typing.block, bind_assoc, pure_bind]

theorem tracks_stmts (ss : List Stmt) :
    Tracks ctx (stmts ss) fun ls => Typing.stmts ctx ls ss := by
  cases ss with
  | nil =>
    rw [stmts]
    exact (Tracks.pure _).congr fun ls => by rw [Typing.stmts]
  | cons s ss =>
    rw [stmts]
    refine ((tracks_stmt s).bind fun s => (tracks_stmts ss).bind fun ss =>
      Tracks.pure _).congr fun ls => ?_
    simp only [Typing.stmts]

end

open Logged

/-- Outside of a function, the check of a function with a checker is the check of the function among
the global names, and leaves the checker as it was. -/
theorem function_apply (globals : Scope) (f : Function) (hu : ∀ e ∈ f.body.exprs, e.Unlinked) :
    function f ⟨globals, none⟩ = (⟨globals, none⟩, Typing.function globals f) := by
  cases hs : (ofExcept (params .empty 0 f.params)).outcome with
  | error e => exact bind_apply_of_error rfl hs _
  | ok scope =>
    let ctx : Context := ⟨globals, f.name, f.result⟩
    have htracks : Tracks ctx (block f.body) fun ls => Typing.block ctx ls f.body :=
      tracks_block f.body
    obtain ⟨ls, hrun, hls⟩ := htracks ⟨scope, []⟩
    have hfaultless : (Typing.block ctx ⟨scope, []⟩ f.body >>= fun r => pure r.1).Faultless :=
      (faultless_block ctx _ f.body hu).bind fun _ => faultless_pure _
    let rest : Block × Option FunctionScope → Logged Function := fun r =>
      finish f r.1 ((r.2.map (·.locals.declared)).getD f.locals)
    have hbody := bind_apply (f := fun r => reading fun _ => rest r)
      (leaving_apply hrun hfaultless) fun r => reading_apply _ _
    have hall : function f ⟨globals, none⟩ = _ :=
      bind_apply_of_ok (reading_apply _ _) hs (bind_apply_of_ok (change_apply _ _) rfl hbody)
    rw [hall]
    refine congrArg (Prod.mk _) (Logged.bind_congr_of_ok fun scope' hs' => ?_)
    obtain rfl : scope = scope' := Except.ok.inj (hs.symm.trans hs')
    rw [pure_bind, bind_assoc, bind_assoc]
    refine Logged.bind_congr_of_ok fun r hr => ?_
    obtain rfl := hls r hr
    rw [pure_bind, pure_bind]
    rfl

theorem declareAll_apply (globals : Scope) (ds : List Decl) :
    declareAll ds ⟨globals, none⟩ =
      (⟨(declareGlobals globals ds).1, none⟩, .ofExcept (declareGlobals globals ds).2) := by
  induction ds generalizing globals with
  | nil => rfl
  | cons d ds ih =>
    rw [declareGlobals]
    cases hd : declareGlobal globals d with
    | error e =>
      have hfails : (ofExcept (declareGlobal globals d)).outcome = .error (.diagnostic e) := by
        rw [hd]
        rfl
      have hall : declareAll (d :: ds) ⟨globals, none⟩ = _ :=
        bind_apply_of_error (reading_apply _ _) hfails fun _ => pure ()
      rw [hd] at hall
      exact hall
    | ok g =>
      have hdeclares : (ofExcept (declareGlobal globals d)).outcome = .ok g := by
        rw [hd]
        rfl
      have hrest : (change (fun c => { c with globals := g }) >>= fun _ => declareAll ds)
          ⟨globals, none⟩ = _ := bind_apply_of_ok (change_apply _ _) rfl (ih g)
      have hall : declareAll (d :: ds) ⟨globals, none⟩ = _ :=
        bind_apply_of_ok (reading_apply _ _) hdeclares hrest
      rw [hd] at hall
      exact hall

theorem decls_apply (globals : Scope) {ds : List Decl}
    (hu : ∀ f, .function f ∈ ds → ∀ e ∈ f.body.exprs, e.Unlinked) :
    decls ds ⟨globals, none⟩ = (⟨globals, none⟩, ds.mapM (decl globals)) := by
  induction ds with
  | nil => rfl
  | cons d ds ih =>
    have hds := ih fun f hf => hu f (List.mem_cons_of_mem _ hf)
    rw [List.mapM_cons]
    cases d with
    | var v => exact bind_apply hds fun ds => rfl
    | function f =>
      have hf := function_apply globals f (hu f List.mem_cons_self)
      have hall := bind_apply hf fun f => bind_apply hds fun ds =>
        Checking.pure_apply (Decl.function f :: ds) _
      simp only [decl, bind_assoc, pure_bind]
      exact hall

/-- The check of a program with a checker is the check of the program among the names that the
checker knows. The checker knows the declared names then, and is outside of any function. -/
theorem program_apply (globals : Scope) {p : Program} (hu : p.Unlinked) :
    program p ⟨globals, none⟩ = (⟨(p.checkAmong globals).1, none⟩, (p.checkAmong globals).2) := by
  have hdeclare := declareAll_apply globals p
  unfold Program.checkAmong
  rcases hg : declareGlobals globals p with ⟨g, e | ⟨⟩⟩
  · rw [hg] at hdeclare
    exact bind_apply_of_error hdeclare rfl fun _ => .ofExcept (.error e)
  · rw [hg] at hdeclare
    have hrest := bind_apply (decls_apply g (Program.unlinked_iff.1 hu)) fun p =>
      bind_apply (reading_apply (fun c => .ofExcept (checkMain c.globals)) _) fun _ =>
        Checking.pure_apply p _
    exact bind_apply_of_ok hdeclare rfl hrest

end Checker

end Typing

end Bpl
