import Bpl.Proofs.Parsing.Complete
import Bpl.Proofs.Printing.Words

namespace Bpl

open Lexeme (Spells)
open Parsing (Level comparisons)
open Token (ofWord ofName ofNumber ofString isWord_ofWord isOperator_ofWord)

namespace Grammar

/-- Tokens that spell an expression which holds together at least as tightly as `least`. -/
def Tight (least : Nat) : List Token → Expr → Prop :=
  match least with
  | 0 => Assignment
  | 1 => Comparison
  | 2 => Chain .sum
  | 3 => Chain .product
  | 4 => Signed
  | _ + 5 => Factor

variable {us vs : List Token} {e e' : Expr}

theorem Tight.loosen : ∀ {least : Nat}, Tight (least + 1) us e → Tight least us e
  | 0, h => .comparison h
  | 1, h => .sum h
  | 2, h => .operand (.product h)
  | 3, h => .operand (.signed h)
  | 4, h => .factor h
  | _ + 5, h => h

theorem Tight.mono {m n : Nat} (h : Tight n us e) (hm : m ≤ n) : Tight m us e := by
  induction hm with
  | refl => exact h
  | step _ ih => exact ih h.loosen

theorem Tight.assignment {n : Nat} (h : Tight n us e) : Assignment us e :=
  h.mono (Nat.zero_le n)

theorem Factor.tight (h : Factor us e) (least : Nat) : Tight least us e :=
  Tight.mono (n := least + 5) h (Nat.le_add_right _ _)

/-- Parentheses make up for what an expression lacks in strength. -/
theorem Tight.guarded (h : Tight e.strength us e') (least : Nat) :
    Tight least (e.guarded least us) e' := by
  rw [Expr.guarded]
  split
  · exact Factor.tight (.parentheses (isWord_ofWord _) h.assignment (isWord_ofWord _)) least
  · exact h.mono (by omega)

theorem Tight.binary {op : BinaryOp} {left right : Expr} (hl : Tight op.leftStrength us left)
    (hr : Tight (op.strength + 1) vs right) :
    Tight op.strength (us ++ ofWord op.symbol :: vs) (.binary (.new .first) op left right) := by
  have ht := isOperator_ofWord op
  cases op with
  | eq | ne | lt | le | gt | ge => exact Comparison.compare hl (by decide) ht hr
  | add | sub => exact show Chain .sum _ _ from .more hl (by decide) ht (.product hr)
  | mul | div | mod => exact show Chain .product _ _ from .more hl (by decide) ht (.signed hr)

theorem moreArguments_spelling : ∀ {es : List Expr},
    (∀ e ∈ es, Tight e.strength e.spelling e.unplaced) →
      MoreArguments (Expr.spellingOfMore es) (Expr.unplacedList es)
  | [], _ => .nil
  | e :: es, h => by
    rw [List.forall_mem_cons] at h
    exact .cons (isWord_ofWord _) h.1.assignment (moreArguments_spelling h.2)

theorem arguments_spelling {es : List Expr}
    (h : ∀ e ∈ es, Tight e.strength e.spelling e.unplaced) :
    Arguments (Expr.spellingOfList es) (Expr.unplacedList es) := by
  cases es with
  | nil => exact .nil
  | cons e es =>
    rw [List.forall_mem_cons] at h
    exact .cons h.1.assignment (moreArguments_spelling h.2)

/-- What is written for an expression spells it. -/
theorem tight_spelling (h : e.Printable) : Tight e.strength e.spelling e.unplaced := by
  induction h with
  | number _ => exact Factor.number rfl
  | @string _ s _ =>
    have hf := @Factor.string (ofString s) rfl
    rw [Token.contents_ofString] at hf
    exact hf
  | read => exact Factor.read (isWord_ofWord _) (isWord_ofWord _) (isWord_ofWord _)
  | name _ => exact Factor.name rfl
  | assign _ _ ht hv => exact Assignment.assign (ht.guarded 1) (isWord_ofWord _) hv.assignment
  | binary _ _ hl hr => exact Tight.binary (hl.guarded _) (hr.guarded _)
  | unary _ h => exact Signed.sign (isWord_ofWord _) (h.guarded 4)
  | index _ _ h =>
    exact Factor.index rfl (isWord_ofWord _) h.assignment (isWord_ofWord _)
  | call _ _ h =>
    exact Factor.call rfl (isWord_ofWord _) (arguments_spelling h) (isWord_ofWord _)

end Grammar

theorem Ty.exists_spelling {ty : Ty} (h : ty.isBase = true) :
    ∃ w, ty.spelling = [ofWord w] ∧ (ofWord w).isBaseType ty ∧ (w = "void" → ty = .void) := by
  cases ty with
  | int => exact ⟨"int", rfl, ⟨"int", by decide, isWord_ofWord _⟩, by decide⟩
  | string => exact ⟨"string", rfl, ⟨"string", by decide, isWord_ofWord _⟩, by decide⟩
  | void => exact ⟨"void", rfl, ⟨"void", by decide, isWord_ofWord _⟩, fun _ => rfl⟩
  | _ => cases h

/-- A type that is written with the word `void` in front begins with it. -/
theorem Ty.exists_cons_spelling {ty : Ty} (h : ty.isSpec = true) :
    ∃ w us, ty.spelling = ofWord w :: us ∧ (w = "void" → ty.BeginsVoid) := by
  by_cases hb : ty.isBase = true
  · obtain ⟨w, hw, _, hv⟩ := Ty.exists_spelling hb
    exact ⟨w, [], hw, fun h => .inl (hv h)⟩
  · cases ty with
    | pointer t =>
      obtain ⟨w, hw, _, hv⟩ := Ty.exists_spelling (show t.isBase = true from h)
      refine ⟨w, [ofWord "*"], ?_, fun h => .inr (congrArg Ty.pointer (hv h))⟩
      rw [Ty.spelling, hw]
      rfl
    | _ => exact absurd h hb

namespace Grammar

theorem typeSpec_spelling {ty : Ty} (h : ty.isSpec = true) :
    TypeSpec ty.spelling .first ty := by
  by_cases hb : ty.isBase = true
  · obtain ⟨w, hw, ht, _⟩ := Ty.exists_spelling hb
    rw [hw]
    exact .base ht
  · cases ty with
    | pointer t =>
      obtain ⟨w, hw, ht, _⟩ := Ty.exists_spelling (show t.isBase = true from h)
      rw [Ty.spelling, hw]
      exact .pointer ht (isWord_ofWord _)
    | _ => exact absurd h hb

theorem variableDecl_spelling {v : Variable} (h : v.Printable) :
    VariableDecl v.spelling (unplaced v) := by
  obtain ⟨x, ty, l⟩ := v
  by_cases hs : ty.isSpec = true
  · rw [Variable.spelling, Variable.lengthSpelling_of_isSpec hs, List.append_assoc]
    exact .scalar (typeSpec_spelling hs) rfl (isWord_ofWord _)
  · have hd := h.ty
    cases ty with
    | array t n =>
      obtain ⟨w, hw, ht, _⟩ := Ty.exists_spelling (show t.isBase = true from hd)
      have hv := @VariableDecl.array (ofWord w) (ofName x) (ofWord "[") (ofNumber n.toInt64)
        (ofWord "]") (ofWord ";") t n.toInt64 ht rfl (isWord_ofWord _) rfl (h.length _ _ rfl)
        (isWord_ofWord _) (isWord_ofWord _)
      rw [n.toUInt64_toInt64] at hv
      rw [Variable.spelling, Ty.spelling, hw]
      exact hv
    | _ => exact absurd hd hs

theorem variableDecls_spelling : ∀ {vs : List Variable}, (∀ v ∈ vs, v.Printable) →
    VariableDecls (vs.flatMap Variable.spelling) (unplaced vs)
  | [], _ => .nil
  | v :: vs, h => by
    rw [List.forall_mem_cons] at h
    exact .cons (variableDecl_spelling h.1) (variableDecls_spelling h.2)

theorem param_spelling {v : Variable} (h : v.PrintableParam) :
    Param v.paramSpelling (unplaced v) :=
  .scalar (typeSpec_spelling h.ty) rfl

theorem moreParams_spelling : ∀ {vs : List Variable}, (∀ v ∈ vs, v.PrintableParam) →
    MoreParams (vs.flatMap fun v => ofWord "," :: v.paramSpelling) (unplaced vs)
  | [], _ => .nil
  | v :: vs, h => by
    rw [List.forall_mem_cons] at h
    exact .cons (isWord_ofWord _) (param_spelling h.1) (moreParams_spelling h.2)

theorem params_spelling {vs : List Variable} (h : ∀ v ∈ vs, v.PrintableParam)
    (hfirst : ∀ v ∈ vs.head?, ¬v.ty.BeginsVoid) :
    Params (Variable.paramsSpelling vs) (unplaced vs) := by
  cases vs with
  | nil => exact .void (isWord_ofWord _)
  | cons v vs =>
    rw [List.forall_mem_cons] at h
    obtain ⟨w, us, hw, hvoid⟩ := Ty.exists_cons_spelling h.1.ty
    have hparam := param_spelling h.1
    rw [Variable.paramSpelling, hw] at hparam
    rw [Variable.paramsSpelling, Variable.paramSpelling, hw]
    refine .list ?_ hparam (moreParams_spelling h.2)
    rw [Bool.eq_false_iff]
    exact fun h => hfirst v rfl (hvoid (Parsing.isWord_iff.1 h).2)

theorem isOpen_unplaced : ∀ s : Stmt, s.unplaced.isOpen = s.isOpen
  | .compound .. | .ifThen .. | .ret .. | .expr .. | .write .. | .writeln _ => rfl
  | .ifElse _ _ _ no => isOpen_unplaced no
  | .whileDo _ _ body => isOpen_unplaced body

theorem statements_spelling : ∀ {ss : List Stmt},
    (∀ s ∈ ss, Statement s.spelling s.unplaced) →
      Statements (Stmt.spellingOfList ss) (Stmt.unplacedList ss)
  | [], _ => .nil
  | s :: ss, h => by
    rw [List.forall_mem_cons] at h
    exact .cons h.1 (statements_spelling h.2)

theorem statement_spelling {s : Stmt} (h : s.Printable) : Statement s.spelling s.unplaced := by
  induction h with
  | compound hv _ hs =>
    exact .compound (.mk (isWord_ofWord _) (variableDecls_spelling hv) (statements_spelling hs)
      (isWord_ofWord _))
  | ifThen he _ hy =>
    exact .ifThen (isWord_ofWord _) (isWord_ofWord _) (tight_spelling he).assignment
      (isWord_ofWord _) hy
  | ifElse he _ ho _ hy hn =>
    exact .ifElse (isWord_ofWord _) (isWord_ofWord _) (tight_spelling he).assignment
      (isWord_ofWord _) hy ((isOpen_unplaced _).trans ho) (isWord_ofWord _) hn
  | whileDo he _ hb =>
    exact .whileDo (isWord_ofWord _) (isWord_ofWord _) (tight_spelling he).assignment
      (isWord_ofWord _) hb
  | retNone => exact .retNone (isWord_ofWord _) (isWord_ofWord _)
  | retSome he =>
    exact .retSome (isWord_ofWord _) (tight_spelling he).assignment (isWord_ofWord _)
  | write he =>
    exact .write (isWord_ofWord _) (isWord_ofWord _) (tight_spelling he).assignment
      (isWord_ofWord _) (isWord_ofWord _)
  | writeln =>
    exact .writeln (isWord_ofWord _) (isWord_ofWord _) (isWord_ofWord _) (isWord_ofWord _)
  | @expr _ e he =>
    have hs := (tight_spelling he).assignment
    have hp := he.printed
    obtain ⟨t, us, ht, _⟩ := Parsing.Assignment.starts hs
    rw [ht] at hs hp
    have hl : t.location = .first := congrArg Token.location (hp t List.mem_cons_self).1.symm
    have hstatement := Statement.expr hs (isWord_ofWord ";")
    rw [hl] at hstatement
    rw [Stmt.spelling, ht]
    exact hstatement

theorem block_spelling {b : Bpl.Block} (h : b.Printable) : Block b.spelling b.unplaced := by
  obtain ⟨l, vs, ss⟩ := b
  exact .mk (isWord_ofWord _) (variableDecls_spelling h.decls)
    (statements_spelling fun s hs => statement_spelling (h.stmts s hs)) (isWord_ofWord _)

theorem declaration_spelling {d : Decl} (h : d.Printable) :
    Declaration d.spelling (unplaced d) := by
  cases h with
  | var hv => exact .var (variableDecl_spelling hv)
  | @function f hf =>
    have hd := Declaration.function (typeSpec_spelling hf.result) (x := ofName f.name) rfl
      (isWord_ofWord "(") (params_spelling hf.params hf.first) (isWord_ofWord ")")
      (block_spelling hf.body)
    have hu : unplaced f = ⟨f.name, f.result, unplaced f.params, f.body.unplaced, .first, []⟩ := by
      obtain ⟨x, result, params, body, l, locals⟩ := f
      rw [show locals = [] from hf.locals]
      rfl
    change Declaration _ (.function (unplaced f))
    rw [hu]
    exact hd

/-- What is written for a program spells it. -/
theorem program_spelling : ∀ {p : Bpl.Program}, p.Printable → Program p.spelling (unplaced p)
  | [], _ => .nil
  | _ :: _, h => .cons (declaration_spelling (List.forall_mem_cons.1 h).1)
    (program_spelling (List.forall_mem_cons.1 h).2)

end Grammar

end Bpl
