import Bpl.Proofs.Layout.Places

namespace Bpl

namespace Lowering

open Asm

variable {α β : Type}

/-- A generation of code that reports no place if it fails. -/
def forget (x : Lower α) : Lower α :=
  fun l => (x l).mapError unplaced

theorem bind_forget {x x' : Lower α} {f f' : α → Lower β} (hx : x' = forget x)
    (hf : ∀ a, f' a = forget (f a)) : x' >>= f' = forget (x >>= f) := by
  subst hx
  funext l
  change (forget x l >>= fun r => f' r.1 r.2) = ((x l) >>= fun r => f r.1 r.2).mapError unplaced
  rw [forget]
  cases x l with
  | error e => rfl
  | ok r => exact congrFun (hf r.1) r.2

theorem mapM_forget {γ : Type} [Placed γ] {f f' : γ → Lower β}
    (hf : ∀ a, f' (unplaced a) = forget (f a)) (as : List γ) :
    (unplaced as).mapM f' = forget (as.mapM f) := by
  induction as with
  | nil => rfl
  | cons a as ih =>
    change (unplaced a :: unplaced as).mapM f' = _
    rw [List.mapM_cons, List.mapM_cons]
    exact bind_forget (hf a) fun b => bind_forget ih fun bs => rfl

theorem ty?_unplaced (e : Expr) : (unplaced e).ty? = e.ty? := by
  cases e <;> rfl

theorem typeOf_unplaced (e : Expr) : typeOf (unplaced e) = forget (typeOf e) := by
  have hlocation : (unplaced e).location = .first := by cases e <;> rfl
  rw [typeOf, typeOf, ty?_unplaced, hlocation]
  cases e.ty? <;> rfl

theorem newLabel_forget : newLabel = forget newLabel := rfl

theorem stringLabel_forget (s : String) : stringLabel s = forget (stringLabel s) := by
  refine bind_forget rfl fun l => ?_
  split
  · rfl
  · exact bind_forget rfl fun n => bind_forget rfl fun _ => rfl

theorem trapLabel_forget : trapLabel = forget trapLabel := by
  refine bind_forget rfl fun l => ?_
  split
  · rfl
  · exact bind_forget rfl fun n => bind_forget rfl fun _ => rfl

theorem storage_forget (frame : Frame) (x : String) (slot : Slot) :
    storage frame x slot = forget (storage frame x slot) := by
  have hoffset : ∀ (offsets : List Int) (i : Nat),
      offsetAt offsets i = forget (offsetAt offsets i) := by
    intro offsets i
    unfold offsetAt
    split <;> rfl
  cases slot with
  | global => rfl
  | parameter i => exact bind_forget (hoffset _ _) fun _ => rfl
  | localVar i => exact bind_forget (hoffset _ _) fun _ => rfl

theorem boundsCheck_forget (ty : Ty) : boundsCheck ty = forget (boundsCheck ty) := by
  cases ty with
  | array element length => exact bind_forget trapLabel_forget fun _ => rfl
  | _ => rfl

theorem element_unplaced (base : Expr) {indexCode indexCode' baseCode baseCode' : Lower Code}
    (hi : indexCode' = forget indexCode) (hb : baseCode' = forget baseCode) :
    element (unplaced base) indexCode' baseCode' = forget (element base indexCode baseCode) := by
  refine bind_forget hi fun index => ?_
  refine bind_forget (typeOf_unplaced base) fun ty => ?_
  refine bind_forget (boundsCheck_forget ty) fun check => ?_
  exact bind_forget hb fun start => rfl

mutual

theorem value_unplaced (frame : Frame) (e : Expr) :
    value frame (unplaced e) = forget (value frame e) := by
  cases e with
  | number n v => rfl
  | string n s => exact bind_forget (stringLabel_forget s) fun _ => rfl
  | read n => rfl
  | name n x => rfl
  | var n x slot =>
    refine bind_forget (typeOf_unplaced (.var n x slot)) fun ty => ?_
    exact bind_forget (storage_forget frame x slot) fun _ => rfl
  | decay n x slot => exact bind_forget (storage_forget frame x slot) fun _ => rfl
  | assign n target e =>
    refine bind_forget (address_unplaced frame target) fun place => ?_
    exact bind_forget (value_unplaced frame e) fun v => rfl
  | binary n op left right =>
    refine bind_forget (value_unplaced frame left) fun l => ?_
    exact bind_forget (value_unplaced frame right) fun r => rfl
  | unary n op e =>
    cases op with
    | neg => exact bind_forget (value_unplaced frame e) fun _ => rfl
    | address => exact address_unplaced frame e
    | deref => exact bind_forget (value_unplaced frame e) fun _ => rfl
  | index n base i =>
    refine bind_forget ?_ fun _ => rfl
    exact element_unplaced base (value_unplaced frame i) (value_unplaced frame base)
  | call n x args =>
    have hargs : Expr.unplacedList args = unplaced args := Expr.unplacedList_eq args
    refine bind_forget ?_ fun pushed => ?_
    · rw [hargs]
      exact arguments_unplaced frame args
    · rw [hargs, show (unplaced args).length = args.length from List.length_map _,
        show (unplaced args).isEmpty = args.isEmpty from List.isEmpty_map]
      rfl

theorem address_unplaced (frame : Frame) (e : Expr) :
    address frame (unplaced e) = forget (address frame e) := by
  cases e with
  | var n x slot => exact bind_forget (storage_forget frame x slot) fun _ => rfl
  | unary n op e =>
    cases op with
    | deref => exact value_unplaced frame e
    | _ => rfl
  | index n base i =>
    exact element_unplaced base (value_unplaced frame i) (value_unplaced frame base)
  | _ => rfl

theorem arguments_unplaced (frame : Frame) (es : List Expr) :
    arguments frame (unplaced es) = forget (arguments frame es) := by
  cases es with
  | nil => rfl
  | cons e es =>
    refine bind_forget (value_unplaced frame e) fun first => ?_
    exact bind_forget (arguments_unplaced frame es) fun others => rfl

end

mutual

theorem stmt_unplaced (frame : Frame) (s : Stmt) :
    stmt frame (unplaced s) = forget (stmt frame s) := by
  cases s with
  | compound l b => exact block_unplaced frame b
  | ifThen l e yes =>
    refine bind_forget (value_unplaced frame e) fun c => bind_forget newLabel_forget fun last => ?_
    exact bind_forget (stmt_unplaced frame yes) fun _ => rfl
  | ifElse l e yes no =>
    refine bind_forget (value_unplaced frame e) fun c => bind_forget newLabel_forget fun other => ?_
    refine bind_forget newLabel_forget fun last => ?_
    refine bind_forget (stmt_unplaced frame yes) fun _ => ?_
    exact bind_forget (stmt_unplaced frame no) fun _ => rfl
  | whileDo l e body =>
    refine bind_forget newLabel_forget fun top => bind_forget newLabel_forget fun last => ?_
    refine bind_forget (value_unplaced frame e) fun c => ?_
    exact bind_forget (stmt_unplaced frame body) fun _ => rfl
  | ret l e =>
    cases e with
    | none => rfl
    | some e => exact bind_forget (value_unplaced frame e) fun _ => rfl
  | expr l e => exact value_unplaced frame e
  | write l e =>
    refine bind_forget (value_unplaced frame e) fun v => ?_
    exact bind_forget (typeOf_unplaced e) fun ty => rfl
  | writeln l => rfl

theorem block_unplaced (frame : Frame) (b : Block) :
    block frame (unplaced b) = forget (block frame b) := by
  obtain ⟨l, vs, ss⟩ := b
  change stmts frame (Stmt.unplacedList ss) = forget (stmts frame ss)
  rw [Stmt.unplacedList_eq]
  exact stmts_unplaced frame ss

theorem stmts_unplaced (frame : Frame) (ss : List Stmt) :
    stmts frame (unplaced ss) = forget (stmts frame ss) := by
  cases ss with
  | nil => rfl
  | cons s ss =>
    refine bind_forget (stmt_unplaced frame s) fun _ => ?_
    exact bind_forget (stmts_unplaced frame ss) fun _ => rfl

end

end Lowering

theorem Frame.localOffsets_unplaced (used : Nat) (vs : List Variable) :
    localOffsets used (unplaced vs) = localOffsets used vs := by
  induction vs generalizing used with
  | nil => rfl
  | cons v vs ih => exact congrArg (-((used + v.ty.size : Nat) : Int) :: ·) (ih _)

theorem Frame.layout_unplaced (f : Function) : layout (unplaced f) = layout f := by
  have hparams : (unplaced f).params.length = f.params.length := List.length_map _
  have hlocals : localOffsets 0 (unplaced f).locals = localOffsets 0 f.locals :=
    localOffsets_unplaced 0 f.locals
  have hsize : Variable.totalSize (unplaced f).locals = Variable.totalSize f.locals :=
    totalSize_unplaced f.locals
  rw [layout, layout, hparams, hlocals, hsize]
  rfl

theorem Frame.events_unplaced (f : Function) : events (unplaced f) = unplaced (events f) := by
  have hnamed : ∀ (vs : List Variable) (offsets : List Int) (mk : String → Int → Event),
      (∀ x o, unplaced (mk x o) = mk x o) →
      ((unplaced vs).zip offsets).map (fun r => mk r.1.name r.2) =
        unplaced ((vs.zip offsets).map fun r => mk r.1.name r.2) := by
    intro vs offsets mk hmk
    change ((vs.map unplaced).zip offsets).map _ = ((vs.zip offsets).map _).map unplaced
    rw [List.zip_map_left, List.map_map, List.map_map]
    exact List.map_congr_left fun r _ => (hmk r.1.name r.2).symm
  have hparams := hnamed f.params (layout f).params (.parameterAt f.name) fun _ _ => rfl
  have hlocals := hnamed f.locals (layout f).locals (.localAt f.name) fun _ _ => rfl
  have happend : ∀ es es' : List Event, unplaced (es ++ es') = unplaced es ++ unplaced es' :=
    fun _ _ => List.map_append
  simp only [events, layout_unplaced, happend, ← hparams, ← hlocals]
  rfl

theorem Lowering.function_unplaced (f : Function) :
    function (unplaced f) = forget (function f) := by
  rw [function, function, Frame.layout_unplaced]
  exact bind_forget (block_unplaced _ f.body) fun _ => rfl

namespace Program

theorem functions_unplaced (p : Program) : functions (unplaced p) = unplaced (functions p) := by
  induction p with
  | nil => rfl
  | cons d p ih =>
    cases d with
    | var v => exact ih
    | function f => exact congrArg (unplaced f :: ·) ih

theorem globals_unplaced (p : Program) : globals (unplaced p) = unplaced (globals p) := by
  induction p with
  | nil => rfl
  | cons d p ih =>
    cases d with
    | var v => exact congrArg (unplaced v :: ·) ih
    | function f => exact ih

theorem lower_unplaced (p : Program) : lower (unplaced p) = (lower p).mapError unplaced := by
  have hfunctions := Lowering.mapM_forget Lowering.function_unplaced p.functions
  have hglobals : (unplaced p.globals).map (fun v => (v.name, v.ty.size)) =
      p.globals.map fun v => (v.name, v.ty.size) := List.map_map
  rw [lower, lower, functions_unplaced, globals_unplaced, hglobals, hfunctions]
  have hrun : ∀ x : Lowering.Lower (List Asm.Code), (Lowering.forget x).run .empty =
      (x.run .empty).mapError unplaced := fun _ => rfl
  rw [hrun]
  cases (p.functions.mapM Lowering.function).run .empty <;> rfl

/-- The code of a program does not depend on places. -/
theorem generate_unplaced (p : Program) : generate (unplaced p) = unplaced (generate p) := by
  refine Logged.ext ?_ ?_
  · change (functions (unplaced p)).flatMap Frame.events = (p.functions.flatMap _).map unplaced
    rw [functions_unplaced, List.map_flatMap]
    exact (List.flatMap_map ..).trans (List.flatMap_congr fun f _ => Frame.events_unplaced f)
  · change (lower (unplaced p)).mapError Failure.fault = unplaced ((lower p).mapError Failure.fault)
    rw [lower_unplaced]
    cases lower p <;> rfl

end Program

end Bpl
