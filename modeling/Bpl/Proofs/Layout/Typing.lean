import Bpl.Proofs.Layout.Places

namespace Bpl

instance : Placed Symbol := ⟨fun s => { s with location := .first }⟩

theorem map_name_unplaced (ss : List Symbol) :
    (unplaced ss).map Symbol.name = ss.map Symbol.name := by
  induction ss with
  | nil => rfl
  | cons s ss ih => exact congrArg (s.name :: ·) ih

instance : Placed Scope :=
  ⟨fun s => ⟨unplaced s.symbols, (map_name_unplaced s.symbols).symm ▸ s.distinct⟩⟩

theorem Scope.find?_unplaced (s : Scope) (x : String) :
    (unplaced s).find? x = unplaced (s.find? x) := by
  change (s.symbols.map unplaced).find? _ = (s.symbols.find? _).map unplaced
  rw [List.find?_map]
  rfl

theorem Scope.declare_unplaced (s : Scope) (x : Symbol) :
    (unplaced s).declare (unplaced x) = unplaced (s.declare x) := by
  have hname : (unplaced x).name = x.name := rfl
  have hnames : (unplaced s).symbols.map Symbol.name = s.symbols.map Symbol.name :=
    map_name_unplaced s.symbols
  by_cases h : x.name ∈ s.symbols.map Symbol.name
  · rw [declare, declare, dif_pos h, dif_pos (hname.symm ▸ hnames.symm ▸ h)]
    rfl
  · rw [declare, declare, dif_neg h, dif_neg (hname.symm ▸ hnames.symm ▸ h)]
    rfl

namespace Typing

instance : Placed Env := ⟨fun env => ⟨unplaced env.globals, unplaced env.locals⟩⟩

theorem Env.find?_unplaced (env : Env) (x : String) :
    (unplaced env).find? x = unplaced (env.find? x) := by
  have hg := env.globals.find?_unplaced x
  have hl := env.locals.find?_unplaced x
  change ((unplaced env.locals).find? x).or ((unplaced env.globals).find? x) = _
  rw [hg, hl, Env.find?]
  cases env.locals.find? x <;> rfl

open Logged

theorem typed_unplaced (n : Note) (ty : Ty) (lvalue : Bool) {mk mk' : Note → Expr}
    (h : ∀ n, mk' (unplaced n) = unplaced (mk n)) :
    typed (unplaced n) ty lvalue mk' = unplaced (typed n ty lvalue mk) :=
  bind_unplaced rfl fun _ =>
    congrArg (fun e => (pure (e, ty) : Logged Typed)) (h ⟨n.location, some ty, lvalue⟩)

theorem resolve_unplaced (env : Env) (n : Note) (x : String) :
    resolve (unplaced env) (unplaced n) x = unplaced (resolve env n x) := by
  rw [resolve, resolve, Env.find?_unplaced]
  cases env.find? x with
  | none => rfl
  | some s =>
    exact bind_unplaced (ensure_unplaced _ _ _) fun _ => bind_unplaced rfl fun _ =>
      bind_unplaced rfl fun _ => rfl

theorem calleeName_unplaced (e : Expr) : calleeName (unplaced e) = calleeName e := by
  cases e <;> rfl

theorem location_unplaced (e : Expr) : (unplaced e).location = .first := by
  cases e <;> rfl

theorem isLvalue_unplaced (e : Expr) : (unplaced e).isLvalue = e.isLvalue := by
  cases e <;> rfl

theorem ty?_unplaced (e : Expr) : (unplaced e).ty? = e.ty? := by
  cases e <;> rfl

theorem ensureAt_unplaced {ok ok' : Bool} (h : ok' = ok) (e : Expr) (v : Violation) :
    ensure ok' (unplaced e).location v = unplaced (ensure ok e.location v) := by
  rw [h, location_unplaced, ensure_unplaced]

theorem valued_unplaced (r : Typed) : valued (unplaced r) = unplaced (valued r) := by
  refine bind_unplaced ?_ fun _ => rfl
  rw [← calleeName_unplaced r.1]
  exact ensureAt_unplaced rfl r.1 _

theorem integer_unplaced (construct : String) (r : Typed) :
    integer construct (unplaced r) = unplaced (integer construct r) :=
  bind_unplaced (valued_unplaced r) fun r =>
    bind_unplaced (ensureAt_unplaced rfl r.1 _) fun _ => rfl

theorem assignable_unplaced (construct : String) (r : Typed) :
    assignable construct (unplaced r) = unplaced (assignable construct r) :=
  bind_unplaced (valued_unplaced r) fun r =>
    bind_unplaced (ensureAt_unplaced (isLvalue_unplaced r.1) r.1 _) fun _ => rfl

theorem ofType_unplaced (construct : String) (ty : Ty) (r : Typed) :
    ofType construct ty (unplaced r) = unplaced (ofType construct ty r) :=
  bind_unplaced (valued_unplaced r) fun r =>
    bind_unplaced (ensureAt_unplaced rfl r.1 _) fun _ => rfl

theorem callee_unplaced (globals : Scope) (l : Location) (x : String) (given : Nat) :
    callee (unplaced globals) .first x given = unplaced (callee globals l x given) := by
  rw [callee, callee, Scope.find?_unplaced]
  cases globals.find? x with
  | none => rfl
  | some s =>
    obtain ⟨y, ty, slot, l⟩ := s
    cases ty with
    | function params result =>
      refine bind_unplaced (ensure_unplaced _ _ _) fun _ => ?_
      exact congrArg (fun ps => (pure (ps, result) : Logged _)) (List.map_id params).symm
    | _ => rfl

theorem pass_unplaced (callee : String) (position : Nat) (param : Ty) (r : Typed) :
    pass callee position param (unplaced r) = unplaced (pass callee position param r) := by
  refine bind_unplaced (valued_unplaced r) fun r => ?_
  obtain ⟨e, ty⟩ := r
  change (if ty = param then _ else _) = unplaced (if ty = param then _ else _)
  by_cases h : ty = param
  · rw [if_pos h, if_pos h]
    rfl
  · rw [if_neg h, if_neg h]
    cases e with
    | var n x slot =>
      cases ty with
      | array element length =>
        cases param with
        | pointer target =>
          exact bind_unplaced (ensureAt_unplaced rfl (.var n x slot) _) fun _ =>
            bind_unplaced rfl fun _ => rfl
        | _ => rfl
      | _ => rfl
    | _ => rfl

theorem recorded_unplaced (e : Expr) : recorded (unplaced e) = unplaced (recorded e) := by
  rw [recorded, recorded, ty?_unplaced, location_unplaced]
  cases e.ty? <;> rfl

mutual

theorem expr_unplaced (env : Env) (e : Expr) :
    expr (unplaced env) (unplaced e) = unplaced (expr env e) := by
  cases e with
  | number n v => exact typed_unplaced n _ _ fun _ => rfl
  | string n s => exact typed_unplaced n _ _ fun _ => rfl
  | read n => exact typed_unplaced n _ _ fun _ => rfl
  | name n x => exact resolve_unplaced env n x
  | var n x slot => exact recorded_unplaced (.var n x slot)
  | decay n x slot => exact recorded_unplaced (.decay n x slot)
  | assign n target value =>
    refine bind_unplaced (expr_unplaced env target) fun r => ?_
    refine bind_unplaced (assignable_unplaced _ r) fun r => ?_
    refine bind_unplaced (expr_unplaced env value) fun v => ?_
    refine bind_unplaced (ofType_unplaced _ _ v) fun v => ?_
    exact typed_unplaced n _ _ fun _ => rfl
  | binary n op left right =>
    change (if op.isComparison then _ else _) = unplaced (if op.isComparison then _ else _)
    split
    · refine bind_unplaced (expr_unplaced env left) fun r => ?_
      refine bind_unplaced (valued_unplaced r) fun r => ?_
      refine bind_unplaced (ensureAt_unplaced rfl r.1 _) fun _ => ?_
      refine bind_unplaced (expr_unplaced env right) fun v => ?_
      refine bind_unplaced (ofType_unplaced _ _ v) fun v => ?_
      exact typed_unplaced n _ _ fun _ => rfl
    · refine bind_unplaced (expr_unplaced env left) fun r => ?_
      refine bind_unplaced (integer_unplaced _ r) fun r => ?_
      refine bind_unplaced (expr_unplaced env right) fun v => ?_
      refine bind_unplaced (integer_unplaced _ v) fun v => ?_
      exact typed_unplaced n _ _ fun _ => rfl
  | unary n op e =>
    cases op with
    | neg =>
      refine bind_unplaced (expr_unplaced env e) fun r => ?_
      refine bind_unplaced (integer_unplaced _ r) fun r => ?_
      exact typed_unplaced n _ _ fun _ => rfl
    | address =>
      refine bind_unplaced (expr_unplaced env e) fun r => ?_
      refine bind_unplaced (assignable_unplaced _ r) fun r => ?_
      exact typed_unplaced n _ _ fun _ => rfl
    | deref =>
      refine bind_unplaced (expr_unplaced env e) fun r => ?_
      refine bind_unplaced (valued_unplaced r) fun r => ?_
      obtain ⟨e, ty⟩ := r
      cases ty with
      | pointer base => exact typed_unplaced n _ _ fun _ => rfl
      | _ => exact congrArg (refuse · _) (location_unplaced e)
  | index n base i =>
    refine bind_unplaced (expr_unplaced env base) fun r => ?_
    refine bind_unplaced (valued_unplaced r) fun r => ?_
    obtain ⟨base, ty⟩ := r
    change (match ty.base? with | some element => _ | none => _) =
      unplaced (match ty.base? with | some element => _ | none => _)
    cases ty.base? with
    | none => exact congrArg (refuse · _) (location_unplaced base)
    | some element =>
      refine bind_unplaced (expr_unplaced env i) fun r => ?_
      refine bind_unplaced (integer_unplaced _ r) fun r => ?_
      exact typed_unplaced n _ _ fun _ => rfl
  | call n x args =>
    have hargs : Expr.unplacedList args = unplaced args := Expr.unplacedList_eq args
    change callee _ _ x (Expr.unplacedList args).length >>= _ = unplaced (callee _ _ x _ >>= _)
    refine bind_unplaced ?_ fun ps => ?_
    · rw [hargs, show (unplaced args).length = args.length from List.length_map _]
      exact callee_unplaced env.globals n.location x args.length
    · refine bind_unplaced ?_ fun es => ?_
      · rw [hargs, ← arguments_unplaced env x 1 args ps.1]
        exact congrArg _ (List.map_id ps.1)
      · exact typed_unplaced n _ _ fun m =>
          congrArg (Expr.call (unplaced m) x) (Expr.unplacedList_eq es).symm

theorem arguments_unplaced (env : Env) (x : String) (position : Nat) (es : List Expr)
    (params : List Ty) :
    arguments (unplaced env) x position (unplaced es) params =
      unplaced (arguments env x position es params) := by
  cases es with
  | nil => rfl
  | cons e es =>
    cases params with
    | nil => rfl
    | cons param params =>
      refine bind_unplaced (expr_unplaced env e) fun r => ?_
      refine bind_unplaced (pass_unplaced x position param r) fun e => ?_
      refine bind_unplaced (arguments_unplaced env x (position + 1) es params) fun es => ?_
      rfl

end

instance : Placed Context := ⟨fun ctx => { ctx with globals := unplaced ctx.globals }⟩

instance : Placed Locals := ⟨fun ls => ⟨unplaced ls.scope, unplaced ls.declared⟩⟩

theorem validate_unplaced (v : Variable) : validate (unplaced v) = unplaced (validate v) := by
  obtain ⟨x, ty, l⟩ := v
  cases ty with
  | array element length =>
    by_cases hlength : length = 0
    · subst hlength
      rfl
    · have hvalidate : ∀ l, validate ⟨x, .array element length, l⟩ =
          if (Ty.array element length).size?.any (· ≤ Ty.maxObjectSize) then .ok ()
          else .error (.semantic l (.arrayTooLarge x)) := by
        intro l
        unfold validate
        split
        · next h => cases h
        · next h =>
          cases h
          exact absurd rfl hlength
        · rfl
      change validate ⟨x, .array element length, .first⟩ = _
      rw [hvalidate, hvalidate]
      split <;> rfl
  | _ => rfl

theorem Locals.declare_unplaced (ls : Locals) (v : Variable) :
    (unplaced ls).declare (unplaced v) = unplaced (ls.declare v) := by
  refine Except.bind_unplaced (validate_unplaced v) fun _ => ?_
  refine Except.bind_unplaced ?_ fun scope => ?_
  · rw [← Scope.declare_unplaced, show (unplaced ls).declared.length = ls.declared.length from
      List.length_map _]
    rfl
  · have happend : unplaced (ls.declared ++ [v]) = unplaced ls.declared ++ [unplaced v] :=
      List.map_append
    exact congrArg (fun vs => (pure ⟨unplaced scope, vs⟩ : Except Diagnostic Locals)) happend.symm

theorem declareAll_unplaced (ls : Locals) (vs : List Variable) :
    (unplaced vs).foldlM Locals.declare (unplaced ls) =
      unplaced (vs.foldlM Locals.declare ls) := by
  induction vs generalizing ls with
  | nil => rfl
  | cons v vs ih =>
    change (unplaced v :: unplaced vs).foldlM _ _ = _
    rw [List.foldlM_cons, List.foldlM_cons]
    exact Except.bind_unplaced (Locals.declare_unplaced ls v) ih

theorem ofExcept_unplaced {α : Type} [Placed α] {r r' : Except Diagnostic α}
    (h : r' = unplaced r) : ofExcept r' = unplaced (ofExcept r) := by
  subst h
  cases r <;> rfl

theorem ret_unplaced (ctx : Context) (env : Env) (l : Location) (e : Option Expr) :
    ret (unplaced ctx) (unplaced env) .first (unplaced e) = unplaced (ret ctx env l e) := by
  cases e with
  | none => exact bind_unplaced (ensure_unplaced _ _ _) fun _ => rfl
  | some e =>
    refine bind_unplaced (ensureAt_unplaced rfl e _) fun _ => ?_
    refine bind_unplaced (expr_unplaced env e) fun r => ?_
    refine bind_unplaced (valued_unplaced r) fun r => ?_
    exact bind_unplaced (ensureAt_unplaced rfl r.1 _) fun _ => rfl

theorem writable_unplaced (r : Typed) : writable (unplaced r) = unplaced (writable r) :=
  bind_unplaced (valued_unplaced r) fun r =>
    bind_unplaced (ensureAt_unplaced rfl r.1 _) fun _ => rfl

mutual

theorem stmt_unplaced (ctx : Context) (ls : Locals) (s : Stmt) :
    stmt (unplaced ctx) (unplaced ls) (unplaced s) = unplaced (stmt ctx ls s) := by
  cases s with
  | compound l b => exact bind_unplaced (block_unplaced ctx ls b) fun _ => rfl
  | ifThen l e yes =>
    refine bind_unplaced (expr_unplaced (ctx.env ls) e) fun r => ?_
    refine bind_unplaced (integer_unplaced _ r) fun e => ?_
    exact bind_unplaced (stmt_unplaced ctx ls yes) fun _ => rfl
  | ifElse l e yes no =>
    refine bind_unplaced (expr_unplaced (ctx.env ls) e) fun r => ?_
    refine bind_unplaced (integer_unplaced _ r) fun e => ?_
    refine bind_unplaced (stmt_unplaced ctx ls yes) fun r => ?_
    exact bind_unplaced (stmt_unplaced ctx r.2 no) fun _ => rfl
  | whileDo l e body =>
    refine bind_unplaced (expr_unplaced (ctx.env ls) e) fun r => ?_
    refine bind_unplaced (integer_unplaced _ r) fun e => ?_
    exact bind_unplaced (stmt_unplaced ctx ls body) fun _ => rfl
  | ret l e => exact bind_unplaced (ret_unplaced ctx (ctx.env ls) l e) fun _ => rfl
  | expr l e => exact bind_unplaced (expr_unplaced (ctx.env ls) e) fun _ => rfl
  | write l e =>
    refine bind_unplaced (expr_unplaced (ctx.env ls) e) fun r => ?_
    exact bind_unplaced (writable_unplaced r) fun _ => rfl
  | writeln l => rfl

theorem block_unplaced (ctx : Context) (ls : Locals) (b : Block) :
    block (unplaced ctx) (unplaced ls) (unplaced b) = unplaced (block ctx ls b) := by
  obtain ⟨l, vs, ss⟩ := b
  refine bind_unplaced (ofExcept_unplaced (declareAll_unplaced ls vs)) fun ls => ?_
  refine bind_unplaced ?_ fun r => ?_
  · rw [← stmts_unplaced ctx ls ss, Stmt.unplacedList_eq]
    rfl
  · exact congrArg (fun ss => (pure (Block.mk .first (unplaced vs) ss, unplaced r.2) :
      Logged (Block × Locals))) (Stmt.unplacedList_eq r.1).symm

theorem stmts_unplaced (ctx : Context) (ls : Locals) (ss : List Stmt) :
    stmts (unplaced ctx) (unplaced ls) (unplaced ss) = unplaced (stmts ctx ls ss) := by
  cases ss with
  | nil => rfl
  | cons s ss =>
    refine bind_unplaced (stmt_unplaced ctx ls s) fun r => ?_
    exact bind_unplaced (stmts_unplaced ctx r.2 ss) fun _ => rfl

end

theorem params_unplaced (scope : Scope) (i : Nat) (vs : List Variable) :
    params (unplaced scope) i (unplaced vs) = unplaced (params scope i vs) := by
  induction vs generalizing scope i with
  | nil => rfl
  | cons v vs ih =>
    refine Except.bind_unplaced (validate_unplaced v) fun _ => ?_
    refine Except.bind_unplaced ?_ fun scope => ih scope (i + 1)
    rw [← Scope.declare_unplaced]
    rfl

theorem function_unplaced (globals : Scope) (f : Function) :
    function (unplaced globals) (unplaced f) = unplaced (function globals f) := by
  refine bind_unplaced (ofExcept_unplaced (params_unplaced .empty 0 f.params)) fun scope => ?_
  refine bind_unplaced (block_unplaced ⟨globals, f.name, f.result⟩ ⟨scope, []⟩ f.body)
    fun r => ?_
  refine bind_unplaced ?_ fun _ => bind_unplaced ?_ fun _ => rfl
  · rw [← ensure_unplaced, ← totalSize_unplaced r.2.declared]
    rfl
  · rw [show (unplaced f).params.length = f.params.length from List.length_map _,
      show (unplaced r.2).declared.length = r.2.declared.length from List.length_map _]
    rfl

theorem decl_unplaced (globals : Scope) (d : Decl) :
    decl (unplaced globals) (unplaced d) = unplaced (decl globals d) := by
  cases d with
  | var v => rfl
  | function f => exact bind_unplaced (function_unplaced globals f) fun _ => rfl

theorem signature_unplaced (f : Function) : (unplaced f).signature = f.signature := by
  change Ty.function ((f.params.map unplaced).map Variable.ty) f.result = _
  rw [List.map_map]
  rfl

theorem declareGlobal_unplaced (globals : Scope) (d : Decl) :
    declareGlobal (unplaced globals) (unplaced d) = unplaced (declareGlobal globals d) := by
  cases d with
  | var v =>
    refine Except.bind_unplaced (validate_unplaced v) fun _ => ?_
    rw [← Scope.declare_unplaced]
    rfl
  | function f =>
    change (unplaced globals).declare ⟨f.name, (unplaced f).signature, .global, .first⟩ =
      unplaced (globals.declare _)
    rw [signature_unplaced, ← Scope.declare_unplaced]
    rfl

theorem declareGlobals_unplaced (globals : Scope) (p : Program) :
    declareGlobals (unplaced globals) (unplaced p) = unplaced (declareGlobals globals p) := by
  induction p generalizing globals with
  | nil => rfl
  | cons d p ih =>
    change declareGlobals (unplaced globals) (unplaced d :: unplaced p) = _
    rw [declareGlobals, declareGlobals, declareGlobal_unplaced]
    cases declareGlobal globals d with
    | error e => rfl
    | ok globals => exact ih globals

theorem checkMain_unplaced (globals : Scope) :
    checkMain (unplaced globals) = unplaced (checkMain globals) := by
  rw [checkMain, checkMain, Scope.find?_unplaced]
  cases globals.find? "main" with
  | none => rfl
  | some s =>
    change (if s.ty = _ then _ else _) = unplaced (if s.ty = _ then _ else _)
    split <;> rfl

end Typing

/-- The check does not look at places. -/
theorem Program.check_unplaced (p : Program) :
    Program.check (unplaced p) = unplaced (Program.check p) := by
  have hglobals := Typing.declareGlobals_unplaced .empty p
  change (Program.checkAmong (unplaced Scope.empty) (unplaced p)).2 = unplaced (p.checkAmong _).2
  rw [checkAmong, checkAmong, hglobals]
  obtain ⟨globals, outcome⟩ := Typing.declareGlobals .empty p
  cases outcome with
  | error d => rfl
  | ok _ =>
    refine Logged.bind_unplaced (Logged.mapM_unplaced (Typing.decl_unplaced globals) p) fun q => ?_
    exact Logged.bind_unplaced (Typing.ofExcept_unplaced (Typing.checkMain_unplaced globals))
      fun _ => rfl

end Bpl
