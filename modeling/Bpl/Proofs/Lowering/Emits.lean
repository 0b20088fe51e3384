import Bpl.Asm.Text
import Bpl.Proofs.Lowering.Draws

namespace Bpl.Lowering

open Asm

/-- Where a variable is stored, if the frame has a place for it. -/
def storage? (frame : Frame) (x : String) : Slot → Option Address
  | .global => some (.label (.global x))
  | .parameter i => frame.params[i]?.map (.offset · .rbp)
  | .localVar i => frame.locals[i]?.map (.offset · .rbp)

/-- Code that leads an index outside of an array of some type to the trap. -/
inductive Checks (a : Assembly) : Ty → Code → Prop
  | array {element : Ty} {length : UInt64} {t : Nat} :
      a.trap = some t → Checks a (.array element length)
        (code [loadImm length.toInt64 .rcx, .op .cmp (.reg .rcx) .rax, .jae (.numbered t)])
  | other {ty : Ty} : ty.isArray = false → Checks a ty []

mutual

/-- `EmitsValue a frame e c`: the code `c` is that of the expression `e` in the program `a`. -/
inductive EmitsValue (a : Assembly) (frame : Frame) : Expr → Code → Prop
  | number {n : Note} {v : Int64} : EmitsValue a frame (.number n v) (code [loadImm v .rax])
  | string {n : Note} {s : String} {i : Nat} :
      (i, s) ∈ a.strings →
        EmitsValue a frame (.string n s) (code [.lea (.label (.numbered i)) .rax])
  | read {n : Note} :
      EmitsValue a frame (.read n)
        (code [.op .sub (.imm 8) .rsp, move .rsp .rsi, .lea (.label .readFormat) .rdi] ++
          libraryCall .scanf ++ code [.pop .rax])
  | var {n : Note} {x : String} {slot : Slot} {ty : Ty} {place : Address} :
      n.ty = some ty → storage? frame x slot = some place →
        EmitsValue a frame (.var n x slot)
          (code [if ty.isArray then .lea place .rax else load place .rax])
  | decay {n : Note} {x : String} {slot : Slot} {place : Address} :
      storage? frame x slot = some place →
        EmitsValue a frame (.decay n x slot) (code [.lea place .rax])
  | assign {n : Note} {target e : Expr} {c d : Code} :
      EmitsAddress a frame target c → EmitsValue a frame e d →
        EmitsValue a frame (.assign n target e)
          (c ++ code [.push (.reg .rax)] ++ d ++
            code [.pop .rcx, .mov (.reg .rax) (.mem (.direct .rcx))])
  | binary {n : Note} {op : BinaryOp} {left right : Expr} {c d : Code} :
      EmitsValue a frame left c → EmitsValue a frame right d →
        EmitsValue a frame (.binary n op left right)
          (c ++ code [.push (.reg .rax)] ++ d ++ code [move .rax .rcx, .pop .rax] ++ combine op)
  | neg {n : Note} {e : Expr} {c : Code} :
      EmitsValue a frame e c → EmitsValue a frame (.unary n .neg e) (c ++ code [.neg .rax])
  | address {n : Note} {e : Expr} {c : Code} :
      EmitsAddress a frame e c → EmitsValue a frame (.unary n .address e) c
  | deref {n : Note} {e : Expr} {c : Code} :
      EmitsValue a frame e c →
        EmitsValue a frame (.unary n .deref e) (c ++ code [load (.direct .rax) .rax])
  | index {n : Note} {base i : Expr} {c : Code} :
      EmitsAddress a frame (.index n base i) c →
        EmitsValue a frame (.index n base i) (c ++ code [load (.direct .rax) .rax])
  | call {n : Note} {x : String} {args : List Expr} {c : Code} :
      EmitsArguments a frame args c →
        EmitsValue a frame (.call n x args)
          (c ++ code ([.push (.reg .rbp), .call (.function x), .pop .rbp] ++
            if args.isEmpty then []
            else [.op .add (.imm (Int64.ofNat (Ty.wordSize * args.length))) .rsp]))

/-- The code of the address of an expression. -/
inductive EmitsAddress (a : Assembly) (frame : Frame) : Expr → Code → Prop
  | var {n : Note} {x : String} {slot : Slot} {place : Address} :
      storage? frame x slot = some place →
        EmitsAddress a frame (.var n x slot) (code [.lea place .rax])
  | deref {n : Note} {e : Expr} {c : Code} :
      EmitsValue a frame e c → EmitsAddress a frame (.unary n .deref e) c
  | index {n : Note} {base i : Expr} {ty : Ty} {c d check : Code} :
      EmitsValue a frame i c → base.ty? = some ty → Checks a ty check →
      EmitsValue a frame base d →
        EmitsAddress a frame (.index n base i)
          (c ++ check ++ code [.push (.reg .rax)] ++ d ++
            code [.pop .rcx, .lea (.element .rax .rcx) .rax])

/-- The code of arguments. -/
inductive EmitsArguments (a : Assembly) (frame : Frame) : List Expr → Code → Prop
  | nil : EmitsArguments a frame [] []
  | cons {e : Expr} {es : List Expr} {c d : Code} :
      EmitsValue a frame e c → EmitsArguments a frame es d →
        EmitsArguments a frame (e :: es) (c ++ code [.push (.reg .rax)] ++ d)

end

mutual

/-- The code of a statement. -/
inductive EmitsStmt (a : Assembly) (frame : Frame) : Stmt → Code → Prop
  | compound {l : Location} {b : Block} {c : Code} :
      EmitsBlock a frame b c → EmitsStmt a frame (.compound l b) c
  | ifThen {l : Location} {e : Expr} {yes : Stmt} {c d : Code} {last : Nat} :
      EmitsValue a frame e c → EmitsStmt a frame yes d →
        EmitsStmt a frame (.ifThen l e yes)
          (c ++ unlessTrue last ++ d ++ [.label (.numbered last)])
  | ifElse {l : Location} {e : Expr} {yes no : Stmt} {c d d' : Code} {other last : Nat} :
      EmitsValue a frame e c → EmitsStmt a frame yes d → EmitsStmt a frame no d' →
        EmitsStmt a frame (.ifElse l e yes no)
          (c ++ unlessTrue other ++ d ++ code [.jmp (.numbered last)] ++
            [.label (.numbered other)] ++ d' ++ [.label (.numbered last)])
  | whileDo {l : Location} {e : Expr} {body : Stmt} {c d : Code} {top last : Nat} :
      EmitsValue a frame e c → EmitsStmt a frame body d →
        EmitsStmt a frame (.whileDo l e body)
          ([.label (.numbered top)] ++ c ++ unlessTrue last ++ d ++
            code [.jmp (.numbered top)] ++ [.label (.numbered last)])
  | retNone {l : Location} : EmitsStmt a frame (.ret l none) (epilogue frame)
  | retSome {l : Location} {e : Expr} {c : Code} :
      EmitsValue a frame e c → EmitsStmt a frame (.ret l (some e)) (c ++ epilogue frame)
  | expr {l : Location} {e : Expr} {c : Code} :
      EmitsValue a frame e c → EmitsStmt a frame (.expr l e) c
  | write {l : Location} {e : Expr} {ty : Ty} {c : Code} :
      EmitsValue a frame e c → e.ty? = some ty →
        EmitsStmt a frame (.write l e)
          (c ++ code [move .rax .rsi, .lea (.label (formatOf ty)) .rdi] ++ libraryCall .printf)
  | writeln {l : Location} :
      EmitsStmt a frame (.writeln l)
        (code [.lea (.label .newline) .rdi] ++ libraryCall .printf)

inductive EmitsBlock (a : Assembly) (frame : Frame) : Block → Code → Prop
  | mk {l : Location} {vs : List Variable} {ss : List Stmt} {c : Code} :
      EmitsStmts a frame ss c → EmitsBlock a frame (.mk l vs ss) c

inductive EmitsStmts (a : Assembly) (frame : Frame) : List Stmt → Code → Prop
  | nil : EmitsStmts a frame [] []
  | cons {s : Stmt} {ss : List Stmt} {c d : Code} :
      EmitsStmt a frame s c → EmitsStmts a frame ss d → EmitsStmts a frame (s :: ss) (c ++ d)

end

/-- The code of a whole function. -/
inductive EmitsFunction (a : Assembly) : Function → Code → Prop
  | mk {f : Function} {c : Code} :
      EmitsBlock a (Frame.layout f) f.body c →
        EmitsFunction a f ([.label (.function f.name)] ++ prologue (Frame.layout f) ++ c ++
          epilogue (Frame.layout f))

/-- Labels of which a program keeps all strings and the trap. -/
structure Labels.Within (l : Labels) (a : Assembly) : Prop where
  strings : l.strings ⊆ a.strings
  trap : ∀ t, l.trap = some t → a.trap = some t

theorem Labels.Within.of_draws {l l' : Labels} {c : Code} {a : Assembly} (h : l'.Within a)
    (hd : Draws l c l') : l.Within a :=
  ⟨List.Subset.trans hd.strings h.strings, fun t ht => h.trap t (hd.trap t ht)⟩

theorem run_storage {frame : Frame} {x : String} {slot : Slot} {l l' : Labels} {place : Address}
    (h : (storage frame x slot).run l = .ok (place, l')) :
    storage? frame x slot = some place ∧ l' = l := by
  have hoffset : ∀ {offsets : List Int} {i : Nat} {o : Int} {l' : Labels},
      (offsetAt offsets i).run l = .ok (o, l') → offsets[i]? = some o ∧ l' = l := by
    intro offsets i o l' h
    unfold offsetAt at h
    split at h
    · next ho =>
      obtain ⟨rfl, rfl⟩ := run_pure_eq_ok.1 h
      exact ⟨ho, rfl⟩
    · exact (run_throw_eq_ok.1 h).elim
  cases slot with
  | global =>
    obtain ⟨rfl, rfl⟩ := run_pure_eq_ok.1 h
    exact ⟨rfl, rfl⟩
  | parameter i =>
    simp only [storage, run_bind_eq_ok, run_pure_eq_ok] at h
    obtain ⟨o, _, ho, rfl, rfl⟩ := h
    obtain ⟨hi, rfl⟩ := hoffset ho
    exact ⟨by rw [storage?, hi]; rfl, rfl⟩
  | localVar i =>
    simp only [storage, run_bind_eq_ok, run_pure_eq_ok] at h
    obtain ⟨o, _, ho, rfl, rfl⟩ := h
    obtain ⟨hi, rfl⟩ := hoffset ho
    exact ⟨by rw [storage?, hi]; rfl, rfl⟩

theorem run_typeOf {e : Expr} {l l' : Labels} {ty : Ty}
    (h : (typeOf e).run l = .ok (ty, l')) : e.ty? = some ty ∧ l' = l := by
  unfold typeOf at h
  split at h
  · next ht =>
    obtain ⟨rfl, rfl⟩ := run_pure_eq_ok.1 h
    exact ⟨ht, rfl⟩
  · exact (run_throw_eq_ok.1 h).elim

theorem run_boundsCheck {ty : Ty} {l l' : Labels} {c : Code}
    (h : (boundsCheck ty).run l = .ok (c, l')) :
    Draws l c l' ∧ ∀ a, l'.Within a → Checks a ty c := by
  cases ty with
  | array element length =>
    simp only [boundsCheck, run_bind_eq_ok, run_pure_eq_ok] at h
    obtain ⟨t, _, ht, rfl, rfl⟩ := h
    obtain ⟨hd, ht⟩ := Draws.trapLabel ht
    exact ⟨hd.congr rfl, fun a ha => .array (ha.trap t ht)⟩
  | _ =>
    obtain ⟨rfl, rfl⟩ := run_pure_eq_ok.1 h
    exact ⟨.refl rfl, fun a _ => .other rfl⟩

/-- The code of the address of an element, given what is known of its parts. -/
theorem run_element {base i : Expr} {n : Note} {indexCode baseCode : Lower Code} {l l' : Labels}
    {c : Code} {frame : Frame}
    (hi : ∀ {l l' c}, indexCode.run l = .ok (c, l') →
      Draws l c l' ∧ ∀ a, l'.Within a → EmitsValue a frame i c)
    (hb : ∀ {l l' c}, baseCode.run l = .ok (c, l') →
      Draws l c l' ∧ ∀ a, l'.Within a → EmitsValue a frame base c)
    (h : (element base indexCode baseCode).run l = .ok (c, l')) :
    Draws l c l' ∧ ∀ a, l'.Within a → EmitsAddress a frame (.index n base i) c := by
  simp only [element, run_bind_eq_ok, run_pure_eq_ok] at h
  obtain ⟨ci, l₁, h₁, ty, _, hty, check, l₂, h₂, cb, l₃, h₃, rfl, rfl⟩ := h
  obtain ⟨ht, rfl⟩ := run_typeOf hty
  obtain ⟨d₁, e₁⟩ := hi h₁
  obtain ⟨d₂, e₂⟩ := run_boundsCheck h₂
  obtain ⟨d₃, e₃⟩ := hb h₃
  refine ⟨((d₁.trans d₂).trans d₃).congr (by simp), fun a ha => ?_⟩
  have ha₂ := ha.of_draws d₃
  exact .index (e₁ a (ha₂.of_draws d₂)) ht (e₂ a ha₂) (e₃ a ha)

mutual

/-- Lowering an expression emits its code, and draws numbers for strings and the trap only. -/
theorem run_value {frame : Frame} (e : Expr) {l l' : Labels} {c : Code}
    (h : (value frame e).run l = .ok (c, l')) :
    Draws l c l' ∧ ∀ a, l'.Within a → EmitsValue a frame e c := by
  cases e with
  | number n v =>
    rw [value] at h
    obtain ⟨rfl, rfl⟩ := run_pure_eq_ok.1 h
    exact ⟨.refl rfl, fun a _ => .number⟩
  | string n s =>
    simp only [value, run_bind_eq_ok, run_pure_eq_ok] at h
    obtain ⟨i, _, hs, rfl, rfl⟩ := h
    obtain ⟨hd, hs⟩ := Draws.stringLabel hs
    exact ⟨hd.congr rfl, fun a ha => .string (ha.strings hs)⟩
  | read n =>
    rw [value] at h
    obtain ⟨rfl, rfl⟩ := run_pure_eq_ok.1 h
    exact ⟨.refl rfl, fun a _ => .read⟩
  | name n x =>
    rw [value] at h
    exact (run_throw_eq_ok.1 h).elim
  | var n x slot =>
    simp only [value, run_bind_eq_ok, run_pure_eq_ok] at h
    obtain ⟨ty, _, hty, place, _, hplace, rfl, rfl⟩ := h
    obtain ⟨ht, rfl⟩ := run_typeOf hty
    obtain ⟨hp, rfl⟩ := run_storage hplace
    exact ⟨.refl (numbers_code _), fun a _ => .var ht hp⟩
  | decay n x slot =>
    simp only [value, run_bind_eq_ok, run_pure_eq_ok] at h
    obtain ⟨place, _, hplace, rfl, rfl⟩ := h
    obtain ⟨hp, rfl⟩ := run_storage hplace
    exact ⟨.refl rfl, fun a _ => .decay hp⟩
  | assign n target v =>
    simp only [value, run_bind_eq_ok, run_pure_eq_ok] at h
    obtain ⟨ct, l₁, h₁, cv, l₂, h₂, rfl, rfl⟩ := h
    obtain ⟨d₁, e₁⟩ := run_address target h₁
    obtain ⟨d₂, e₂⟩ := run_value v h₂
    exact ⟨(d₁.trans d₂).congr (by simp), fun a ha => .assign (e₁ a (ha.of_draws d₂)) (e₂ a ha)⟩
  | binary n op left right =>
    simp only [value, run_bind_eq_ok, run_pure_eq_ok] at h
    obtain ⟨cl, l₁, h₁, cr, l₂, h₂, rfl, rfl⟩ := h
    obtain ⟨d₁, e₁⟩ := run_value left h₁
    obtain ⟨d₂, e₂⟩ := run_value right h₂
    have hn : numbers (combine op) = [] := by cases op <;> rfl
    exact ⟨(d₁.trans d₂).congr (by simp [hn]),
      fun a ha => .binary (e₁ a (ha.of_draws d₂)) (e₂ a ha)⟩
  | unary n op e =>
    cases op with
    | neg =>
      simp only [value, run_bind_eq_ok, run_pure_eq_ok] at h
      obtain ⟨c, l₁, h₁, rfl, rfl⟩ := h
      obtain ⟨d₁, e₁⟩ := run_value e h₁
      exact ⟨d₁.congr (by simp), fun a ha => .neg (e₁ a ha)⟩
    | address =>
      rw [value] at h
      obtain ⟨d₁, e₁⟩ := run_address e h
      exact ⟨d₁, fun a ha => .address (e₁ a ha)⟩
    | deref =>
      simp only [value, run_bind_eq_ok, run_pure_eq_ok] at h
      obtain ⟨c, l₁, h₁, rfl, rfl⟩ := h
      obtain ⟨d₁, e₁⟩ := run_value e h₁
      exact ⟨d₁.congr (by simp), fun a ha => .deref (e₁ a ha)⟩
  | index n base i =>
    simp only [value, run_bind_eq_ok, run_pure_eq_ok] at h
    obtain ⟨c, l₁, h₁, rfl, rfl⟩ := h
    obtain ⟨d₁, e₁⟩ := run_element (run_value i) (run_value base) h₁
    exact ⟨d₁.congr (by simp), fun a ha => .index (e₁ a ha)⟩
  | call n x args =>
    simp only [value, run_bind_eq_ok, run_pure_eq_ok] at h
    obtain ⟨c, l₁, h₁, rfl, rfl⟩ := h
    obtain ⟨d₁, e₁⟩ := run_arguments args h₁
    exact ⟨d₁.congr (by simp), fun a ha => .call (e₁ a ha)⟩

theorem run_address {frame : Frame} (e : Expr) {l l' : Labels} {c : Code}
    (h : (address frame e).run l = .ok (c, l')) :
    Draws l c l' ∧ ∀ a, l'.Within a → EmitsAddress a frame e c := by
  cases e with
  | var n x slot =>
    simp only [address, run_bind_eq_ok, run_pure_eq_ok] at h
    obtain ⟨place, _, hplace, rfl, rfl⟩ := h
    obtain ⟨hp, rfl⟩ := run_storage hplace
    exact ⟨.refl rfl, fun a _ => .var hp⟩
  | unary n op e =>
    cases op with
    | deref =>
      rw [address] at h
      obtain ⟨d₁, e₁⟩ := run_value e h
      exact ⟨d₁, fun a ha => .deref (e₁ a ha)⟩
    | _ =>
      rw [address] at h
      · exact (run_throw_eq_ok.1 h).elim
      all_goals simp
  | index n base i =>
    rw [address] at h
    exact run_element (run_value i) (run_value base) h
  | _ =>
    rw [address] at h
    · exact (run_throw_eq_ok.1 h).elim
    all_goals simp

theorem run_arguments {frame : Frame} (es : List Expr) {l l' : Labels} {c : Code}
    (h : (arguments frame es).run l = .ok (c, l')) :
    Draws l c l' ∧ ∀ a, l'.Within a → EmitsArguments a frame es c := by
  cases es with
  | nil =>
    rw [arguments] at h
    obtain ⟨rfl, rfl⟩ := run_pure_eq_ok.1 h
    exact ⟨.refl rfl, fun a _ => .nil⟩
  | cons e es =>
    simp only [arguments, run_bind_eq_ok, run_pure_eq_ok] at h
    obtain ⟨c, l₁, h₁, cs, l₂, h₂, rfl, rfl⟩ := h
    obtain ⟨d₁, e₁⟩ := run_value e h₁
    obtain ⟨d₂, e₂⟩ := run_arguments es h₂
    exact ⟨(d₁.trans d₂).congr (by simp), fun a ha => .cons (e₁ a (ha.of_draws d₂)) (e₂ a ha)⟩

end

theorem numbers_epilogue (frame : Frame) : numbers (epilogue frame) = [] := by
  unfold epilogue
  split <;> exact numbers_code _

mutual

/-- Lowering a statement emits its code, with the numbers that it draws for its jumps. -/
theorem run_stmt {frame : Frame} (s : Stmt) {l l' : Labels} {c : Code}
    (h : (stmt frame s).run l = .ok (c, l')) :
    Draws l c l' ∧ ∀ a, l'.Within a → EmitsStmt a frame s c := by
  cases s with
  | compound loc b =>
    rw [stmt] at h
    obtain ⟨d₁, e₁⟩ := run_block b h
    exact ⟨d₁, fun a ha => .compound (e₁ a ha)⟩
  | ifThen loc e yes =>
    simp only [stmt, run_bind_eq_ok, run_pure_eq_ok] at h
    obtain ⟨c, l₁, h₁, last, l₂, h₂, d, l₃, h₃, rfl, rfl⟩ := h
    obtain ⟨d₁, e₁⟩ := run_value e h₁
    have d₂ := Draws.newLabel h₂
    obtain ⟨d₃, e₃⟩ := run_stmt yes h₃
    refine ⟨((d₁.trans d₂).trans d₃).recount fun n => ?_, fun a ha => ?_⟩
    -- the number is drawn before those of the branch, but its label stands behind them
    · simp only [unlessTrue, numbers_append, numbers_cons_numbered, numbers_nil, numbers_code,
        List.count_append, List.count_nil]
      omega
    · exact .ifThen (e₁ a ((ha.of_draws d₃).of_draws d₂)) (e₃ a ha)
  | ifElse loc e yes no =>
    simp only [stmt, run_bind_eq_ok, run_pure_eq_ok] at h
    obtain ⟨c, l₁, h₁, other, l₂, h₂, last, l₃, h₃, d, l₄, h₄, d', l₅, h₅, rfl, rfl⟩ := h
    obtain ⟨d₁, e₁⟩ := run_value e h₁
    have d₂ := Draws.newLabel h₂
    have d₃ := Draws.newLabel h₃
    obtain ⟨d₄, e₄⟩ := run_stmt yes h₄
    obtain ⟨d₅, e₅⟩ := run_stmt no h₅
    refine ⟨((((d₁.trans d₂).trans d₃).trans d₄).trans d₅).recount fun n => ?_, fun a ha => ?_⟩
    · simp only [unlessTrue, numbers_append, numbers_cons_numbered, numbers_nil, numbers_code,
        List.count_append, List.count_nil]
      omega
    · have ha₄ := ha.of_draws d₅
      exact .ifElse (e₁ a (((ha₄.of_draws d₄).of_draws d₃).of_draws d₂)) (e₄ a ha₄) (e₅ a ha)
  | whileDo loc e body =>
    simp only [stmt, run_bind_eq_ok, run_pure_eq_ok] at h
    obtain ⟨top, l₁, h₁, last, l₂, h₂, c, l₃, h₃, d, l₄, h₄, rfl, rfl⟩ := h
    have d₁ := Draws.newLabel h₁
    have d₂ := Draws.newLabel h₂
    obtain ⟨d₃, e₃⟩ := run_value e h₃
    obtain ⟨d₄, e₄⟩ := run_stmt body h₄
    refine ⟨(((d₁.trans d₂).trans d₃).trans d₄).recount fun n => ?_, fun a ha => ?_⟩
    · simp only [unlessTrue, numbers_append, numbers_cons_numbered, numbers_nil, numbers_code,
        List.count_append, List.count_nil]
      omega
    · exact .whileDo (e₃ a (ha.of_draws d₄)) (e₄ a ha)
  | ret loc e =>
    cases e with
    | none =>
      rw [stmt] at h
      obtain ⟨rfl, rfl⟩ := run_pure_eq_ok.1 h
      exact ⟨.refl (numbers_epilogue frame), fun a _ => .retNone⟩
    | some e =>
      simp only [stmt, run_bind_eq_ok, run_pure_eq_ok] at h
      obtain ⟨c, l₁, h₁, rfl, rfl⟩ := h
      obtain ⟨d₁, e₁⟩ := run_value e h₁
      exact ⟨d₁.congr (by simp [numbers_epilogue]), fun a ha => .retSome (e₁ a ha)⟩
  | expr loc e =>
    rw [stmt] at h
    obtain ⟨d₁, e₁⟩ := run_value e h
    exact ⟨d₁, fun a ha => .expr (e₁ a ha)⟩
  | write loc e =>
    simp only [stmt, run_bind_eq_ok, run_pure_eq_ok] at h
    obtain ⟨c, l₁, h₁, ty, _, hty, rfl, rfl⟩ := h
    obtain ⟨ht, rfl⟩ := run_typeOf hty
    obtain ⟨d₁, e₁⟩ := run_value e h₁
    exact ⟨d₁.congr (by simp [libraryCall]), fun a ha => .write (e₁ a ha) ht⟩
  | writeln loc =>
    rw [stmt] at h
    obtain ⟨rfl, rfl⟩ := run_pure_eq_ok.1 h
    exact ⟨.refl rfl, fun a _ => .writeln⟩

theorem run_block {frame : Frame} (b : Block) {l l' : Labels} {c : Code}
    (h : (block frame b).run l = .ok (c, l')) :
    Draws l c l' ∧ ∀ a, l'.Within a → EmitsBlock a frame b c := by
  cases b with
  | mk loc vs ss =>
    rw [block] at h
    obtain ⟨d₁, e₁⟩ := run_stmts ss h
    exact ⟨d₁, fun a ha => .mk (e₁ a ha)⟩

theorem run_stmts {frame : Frame} (ss : List Stmt) {l l' : Labels} {c : Code}
    (h : (stmts frame ss).run l = .ok (c, l')) :
    Draws l c l' ∧ ∀ a, l'.Within a → EmitsStmts a frame ss c := by
  cases ss with
  | nil =>
    rw [stmts] at h
    obtain ⟨rfl, rfl⟩ := run_pure_eq_ok.1 h
    exact ⟨.refl rfl, fun a _ => .nil⟩
  | cons s ss =>
    simp only [stmts, run_bind_eq_ok, run_pure_eq_ok] at h
    obtain ⟨c, l₁, h₁, cs, l₂, h₂, rfl, rfl⟩ := h
    obtain ⟨d₁, e₁⟩ := run_stmt s h₁
    obtain ⟨d₂, e₂⟩ := run_stmts ss h₂
    exact ⟨d₁.trans d₂, fun a ha => .cons (e₁ a (ha.of_draws d₂)) (e₂ a ha)⟩

end

theorem run_function {f : Function} {l l' : Labels} {c : Code}
    (h : (function f).run l = .ok (c, l')) :
    Draws l c l' ∧ ∀ a, l'.Within a → EmitsFunction a f c := by
  simp only [function, run_bind_eq_ok, run_pure_eq_ok] at h
  obtain ⟨c, l₁, h₁, rfl, rfl⟩ := h
  obtain ⟨d₁, e₁⟩ := run_block f.body h₁
  refine ⟨d₁.congr ?_, fun a ha => .mk (e₁ a ha)⟩
  simp [prologue, numbers_epilogue]

theorem run_functions {fs : List Function} {l l' : Labels} {cs : List Code}
    (h : (fs.mapM function).run l = .ok (cs, l')) :
    Draws l cs.flatten l' ∧ ∀ a, l'.Within a → List.Forall₂ (EmitsFunction a) fs cs := by
  induction fs generalizing l l' cs with
  | nil =>
    rw [List.mapM_nil] at h
    obtain ⟨rfl, rfl⟩ := run_pure_eq_ok.1 h
    exact ⟨.refl rfl, fun a _ => .nil⟩
  | cons f fs ih =>
    simp only [List.mapM_cons, run_bind_eq_ok, run_pure_eq_ok] at h
    obtain ⟨c, l₁, h₁, cs, l₂, h₂, rfl, rfl⟩ := h
    obtain ⟨d₁, e₁⟩ := run_function h₁
    obtain ⟨d₂, e₂⟩ := ih h₂
    exact ⟨d₁.trans d₂, fun a ha => .cons (e₁ a (ha.of_draws d₂)) (e₂ a ha)⟩

end Bpl.Lowering
