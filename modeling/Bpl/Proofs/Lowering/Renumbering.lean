import Bpl.Proofs.Lowering.Emits

namespace Bpl

namespace Asm

variable (ρ : Nat → Nat)

/-- A label with another number, if it has one. -/
def Label.renumbered : Label → Label
  | .numbered n => .numbered (ρ n)
  | l => l

def Address.renumbered : Address → Address
  | .label l => .label (l.renumbered ρ)
  | a => a

def Operand.renumbered : Operand → Operand
  | .mem a => .mem (a.renumbered ρ)
  | o => o

def Instr.renumbered : Instr → Instr
  | .mov src dst => .mov (src.renumbered ρ) (dst.renumbered ρ)
  | .lea src dst => .lea (src.renumbered ρ) dst
  | .push src => .push (src.renumbered ρ)
  | .op o src dst => .op o (src.renumbered ρ) dst
  | .call l => .call (l.renumbered ρ)
  | .jmp l => .jmp (l.renumbered ρ)
  | .je l => .je (l.renumbered ρ)
  | .jae l => .jae (l.renumbered ρ)
  | i => i

def Line.renumbered : Line → Line
  | .label l => .label (l.renumbered ρ)
  | .instr i => .instr (i.renumbered ρ)

end Asm

namespace Lowering

open Asm

variable (ρ : Nat → Nat)

/-- A piece of code with other numbers for all that is numbered. -/
def renumbered (c : Code) : Code :=
  c.map (Line.renumbered ρ)

@[simp] theorem renumbered_nil : renumbered ρ [] = [] := rfl

@[simp] theorem renumbered_append (c d : Code) :
    renumbered ρ (c ++ d) = renumbered ρ c ++ renumbered ρ d :=
  List.map_append

@[simp] theorem renumbered_code (is : List Instr) :
    renumbered ρ (code is) = code (is.map (Instr.renumbered ρ)) := by
  simp only [renumbered, code, List.map_map]
  rfl

@[simp] theorem renumbered_cons_numbered (n : Nat) (c : Code) :
    renumbered ρ (.label (.numbered n) :: c) = .label (.numbered (ρ n)) :: renumbered ρ c := rfl

@[simp] theorem renumbered_libraryCall (r : Routine) :
    renumbered ρ (libraryCall r) = libraryCall r := rfl

@[simp] theorem renumbered_combine (op : BinaryOp) : renumbered ρ (combine op) = combine op := by
  cases op <;> rfl

@[simp] theorem renumbered_unlessTrue (n : Nat) :
    renumbered ρ (unlessTrue n) = unlessTrue (ρ n) := rfl

@[simp] theorem renumbered_prologue (frame : Frame) :
    renumbered ρ (prologue frame) = prologue frame := by
  unfold prologue
  split <;> split <;> rfl

@[simp] theorem renumbered_epilogue (frame : Frame) :
    renumbered ρ (epilogue frame) = epilogue frame := by
  unfold epilogue
  split <;> rfl

@[simp] theorem renumbered_formatOf (ty : Ty) : (formatOf ty).renumbered ρ = formatOf ty := by
  cases ty <;> rfl

@[simp] theorem numbers_renumbered (c : Code) :
    numbers (renumbered ρ c) = (numbers c).map ρ := by
  induction c with
  | nil => rfl
  | cons x c ih =>
    cases x with
    | instr i => exact ih
    | label l =>
      cases l with
      | numbered n => exact congrArg (ρ n :: ·) ih
      | _ => exact ih

variable {ρ} {a b : Assembly} {frame : Frame}

/-- Variables are stored at places that are not numbered. -/
theorem renumbered_storage {x : String} {slot : Slot} {place : Address}
    (h : storage? frame x slot = some place) : place.renumbered ρ = place := by
  cases slot with
  | global =>
    cases h
    rfl
  | parameter i | localVar i =>
    obtain ⟨o, _, rfl⟩ := Option.map_eq_some_iff.1 h
    rfl

/-- The map `ρ` takes the number of a string of one assembly to that of the same string of another,
and that of the trap to that of the trap, as far as both have them. -/
structure Renumbers (ρ : Nat → Nat) (b a : Assembly) : Prop where
  strings : ∀ m n s, (m, s) ∈ b.strings → (n, s) ∈ a.strings → ρ m = n
  trap : ∀ m n, b.trap = some m → a.trap = some n → ρ m = n

theorem Checks.renumbered (hr : Renumbers ρ b a) {ty : Ty} {c d : Code} (jd : Checks b ty d)
    (jc : Checks a ty c) : c = renumbered ρ d := by
  cases jd with
  | array hd =>
    cases jc with
    | array hc =>
      rw [← hr.trap _ _ hd hc]
      rfl
    | other hn => cases hn
  | other hn =>
    cases jc with
    | array hc => cases hn
    | other _ => rfl

mutual

/-- An expression has the same code in both, but for the numbers. -/
theorem EmitsValue.renumbered (hr : Renumbers ρ b a) {e : Expr} {c d : Code}
    (jd : EmitsValue b frame e d) (jc : EmitsValue a frame e c) : c = renumbered ρ d := by
  match jd with
  | .number =>
    cases jc
    rfl
  | .string hd =>
    cases jc with
    | string hc =>
      rw [← hr.strings _ _ _ hd hc]
      rfl
  | .read =>
    cases jc
    rfl
  | .var hty hd =>
    cases jc with
    | var hty' hc =>
      obtain rfl := Option.some.inj (hty.symm.trans hty')
      obtain rfl := Option.some.inj (hd.symm.trans hc)
      have hplace := renumbered_storage (ρ := ρ) hd
      rw [renumbered_code, List.map_singleton]
      split
      · rw [Instr.renumbered, hplace]
      · rw [load, Instr.renumbered, Operand.renumbered, hplace]
        rfl
  | .decay hd =>
    cases jc with
    | decay hc =>
      obtain rfl := Option.some.inj (hd.symm.trans hc)
      rw [renumbered_code, List.map_singleton, Instr.renumbered, renumbered_storage hd]
  | .assign jt jv =>
    cases jc with
    | assign jt' jv' =>
      rw [jt.renumbered hr jt', jv.renumbered hr jv']
      simp only [renumbered_append]
      rfl
  | .binary jl jr =>
    cases jc with
    | binary jl' jr' =>
      rw [jl.renumbered hr jl', jr.renumbered hr jr']
      simp only [renumbered_append, renumbered_combine]
      rfl
  | .neg je =>
    cases jc with
    | neg je' =>
      rw [je.renumbered hr je', renumbered_append]
      rfl
  | .address je =>
    cases jc with
    | address je' => exact je.renumbered hr je'
  | .deref je =>
    cases jc with
    | deref je' =>
      rw [je.renumbered hr je', renumbered_append]
      rfl
  | .index je =>
    cases jc with
    | index je' =>
      rw [je.renumbered hr je', renumbered_append]
      rfl
  | .call ja =>
    cases jc with
    | call ja' =>
      rw [ja.renumbered hr ja', renumbered_append, renumbered_code]
      split <;> rfl

theorem EmitsAddress.renumbered (hr : Renumbers ρ b a) {e : Expr} {c d : Code}
    (jd : EmitsAddress b frame e d) (jc : EmitsAddress a frame e c) : c = renumbered ρ d := by
  match jd with
  | .var hd =>
    cases jc with
    | var hc =>
      obtain rfl := Option.some.inj (hd.symm.trans hc)
      rw [renumbered_code, List.map_singleton, Instr.renumbered, renumbered_storage hd]
  | .deref je =>
    cases jc with
    | deref je' => exact je.renumbered hr je'
  | .index ji hty hd jb =>
    cases jc with
    | index ji' hty' hc jb' =>
      obtain rfl := Option.some.inj (hty.symm.trans hty')
      rw [ji.renumbered hr ji', hd.renumbered hr hc, jb.renumbered hr jb']
      simp only [renumbered_append]
      rfl

theorem EmitsArguments.renumbered (hr : Renumbers ρ b a) {es : List Expr} {c d : Code}
    (jd : EmitsArguments b frame es d) (jc : EmitsArguments a frame es c) :
    c = renumbered ρ d := by
  match jd with
  | .nil =>
    cases jc
    rfl
  | .cons je js =>
    cases jc with
    | cons je' js' =>
      rw [je.renumbered hr je', js.renumbered hr js']
      simp only [renumbered_append]
      rfl

end

/-- Two pieces of code have as many numbers, and if `ρ` takes those of the one in turn to those of
the other, it takes the one to the other. -/
structure Agree (ρ : Nat → Nat) (d c : Code) : Prop where
  length : (numbers c).length = (numbers d).length
  eq : numbers c = (numbers d).map ρ → c = renumbered ρ d

theorem agree_of_eq {d c : Code} (h : c = renumbered ρ d) : Agree ρ d c where
  length := by rw [h, numbers_renumbered, List.length_map]
  eq := fun _ => h

theorem Agree.append {d d' c c' : Code} (h : Agree ρ d c) (h' : Agree ρ d' c') :
    Agree ρ (d ++ d') (c ++ c') where
  length := by rw [numbers_append, numbers_append, List.length_append, List.length_append,
    h.length, h'.length]
  eq := by
    intro hn
    rw [numbers_append, numbers_append, List.map_append] at hn
    obtain ⟨hc, hc'⟩ := List.append_inj hn (by rw [h.length, List.length_map])
    rw [renumbered_append, ← h.eq hc, ← h'.eq hc']

mutual

/-- The code of a statement is the same in both, if its labels have the numbers for it. -/
theorem EmitsStmt.agree (hr : Renumbers ρ b a) {s : Stmt} {c d : Code}
    (jd : EmitsStmt b frame s d) (jc : EmitsStmt a frame s c) : Agree ρ d c := by
  match jd with
  | .compound jb =>
    cases jc with
    | compound jb' => exact jb.agree hr jb'
  | .ifThen je jy =>
    cases jc with
    | ifThen je' jy' =>
      obtain rfl := je.renumbered hr je'
      have hy := jy.agree hr jy'
      constructor
      · simp [unlessTrue, hy.length]
      · intro h
        simp only [numbers_append, unlessTrue, numbers_code, numbers_renumbered,
          numbers_cons_numbered, numbers_nil, List.map_append, List.map_cons, List.map_nil,
          List.append_assoc, List.append_cancel_left_eq] at h
        -- the branch has as many labels in both, so that the last label can be split off
        obtain ⟨hcy, hlast⟩ := List.append_inj h (by rw [hy.length, List.length_map])
        obtain rfl := List.head_eq_of_cons_eq hlast
        rw [hy.eq hcy]
        simp
  | .ifElse je jy jn =>
    cases jc with
    | ifElse je' jy' jn' =>
      obtain rfl := je.renumbered hr je'
      have hy := jy.agree hr jy'
      have hn := jn.agree hr jn'
      constructor
      · simp [unlessTrue, hy.length, hn.length]
      · intro h
        simp only [numbers_append, unlessTrue, numbers_code, numbers_renumbered,
          numbers_cons_numbered, numbers_nil, List.map_append, List.map_cons, List.map_nil,
          List.nil_append, List.cons_append, List.append_assoc, List.append_cancel_left_eq] at h
        obtain ⟨hcy, hother⟩ := List.append_inj h (by rw [hy.length, List.length_map])
        obtain ⟨rfl, hrest⟩ := List.cons.inj hother
        obtain ⟨hcn, hlast⟩ := List.append_inj hrest (by rw [hn.length, List.length_map])
        obtain rfl := List.head_eq_of_cons_eq hlast
        rw [hy.eq hcy, hn.eq hcn]
        simp [Instr.renumbered, Label.renumbered]
  | .whileDo je jb =>
    cases jc with
    | whileDo je' jb' =>
      obtain rfl := je.renumbered hr je'
      have hb := jb.agree hr jb'
      constructor
      · simp [unlessTrue, hb.length]
      · intro h
        simp only [numbers_append, unlessTrue, numbers_code, numbers_renumbered,
          numbers_cons_numbered, numbers_nil, List.map_append, List.map_cons, List.map_nil,
          List.nil_append, List.cons_append, List.append_assoc, List.cons.injEq,
          List.append_cancel_left_eq] at h
        obtain ⟨rfl, h⟩ := h
        obtain ⟨hcb, hlast⟩ := List.append_inj h (by rw [hb.length, List.length_map])
        obtain rfl := List.head_eq_of_cons_eq hlast
        rw [hb.eq hcb]
        simp [Instr.renumbered, Label.renumbered]
  | .retNone =>
    cases jc
    exact agree_of_eq (renumbered_epilogue ρ frame).symm
  | .retSome je =>
    cases jc with
    | retSome je' =>
      apply agree_of_eq
      rw [je.renumbered hr je', renumbered_append, renumbered_epilogue]
  | .expr je =>
    cases jc with
    | expr je' => exact agree_of_eq (je.renumbered hr je')
  | .write je hty =>
    cases jc with
    | write je' hty' =>
      obtain rfl := Option.some.inj (hty.symm.trans hty')
      apply agree_of_eq
      rw [je.renumbered hr je']
      simp [Instr.renumbered, Address.renumbered, Operand.renumbered, move]
  | .writeln =>
    cases jc
    exact agree_of_eq rfl

theorem EmitsBlock.agree (hr : Renumbers ρ b a) {bl : Bpl.Block} {c d : Code}
    (jd : EmitsBlock b frame bl d) (jc : EmitsBlock a frame bl c) : Agree ρ d c := by
  match jd with
  | .mk js =>
    cases jc with
    | mk js' => exact js.agree hr js'

theorem EmitsStmts.agree (hr : Renumbers ρ b a) {ss : List Stmt} {c d : Code}
    (jd : EmitsStmts b frame ss d) (jc : EmitsStmts a frame ss c) : Agree ρ d c := by
  match jd with
  | .nil =>
    cases jc
    exact agree_of_eq rfl
  | .cons j js =>
    cases jc with
    | cons j' js' => exact (j.agree hr j').append (js.agree hr js')

end

/-- A function has the same code in both, if its labels have the numbers for it. -/
theorem EmitsFunction.agree (hr : Renumbers ρ b a) {f : Function} {c d : Code}
    (jd : EmitsFunction b f d) (jc : EmitsFunction a f c) : Agree ρ d c := by
  cases jd with
  | mk jb =>
    cases jc with
    | mk jb' =>
      have hentry : Agree ρ ([.label (.function f.name)] ++ prologue (Frame.layout f))
          ([.label (.function f.name)] ++ prologue (Frame.layout f)) := by
        apply agree_of_eq
        rw [renumbered_append, renumbered_prologue]
        rfl
      have hexit := agree_of_eq (renumbered_epilogue ρ (Frame.layout f)).symm
      exact (hentry.append (jb.agree hr jb')).append hexit

end Lowering

end Bpl
