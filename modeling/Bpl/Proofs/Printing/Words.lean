import Bpl.Proofs.Decimal
import Bpl.Proofs.Layout.Places
import Bpl.Proofs.Printing.Printable
import Bpl.Proofs.Printing.Printer

namespace Bpl

open Lexeme (Spells)

namespace Token

/-- Tokens that stand nowhere yet, each of them a word that the scanner reads. -/
def Printed (us : List Token) : Prop :=
  ∀ t ∈ us, unplaced t = t ∧ Spells t.kind t.text.toList

namespace Printed

variable {us vs : List Token}

theorem nil : Printed [] :=
  List.forall_mem_nil _

theorem append (hu : Printed us) (hv : Printed vs) : Printed (us ++ vs) :=
  List.forall_mem_append.2 ⟨hu, hv⟩

theorem word {w : String} (hw : w ∈ keywords ++ punctuators) (h : Printed us) :
    Printed (ofWord w :: us) := by
  refine List.forall_mem_cons.2 ⟨⟨rfl, ?_⟩, h⟩
  by_cases hk : w ∈ keywords
  · rw [ofWord, if_pos hk]
    exact .keyword (by rwa [String.ofList_toList])
  · rw [ofWord, if_neg hk]
    exact .punctuator (List.mem_map_of_mem ((List.mem_append.1 hw).resolve_left hk))

theorem name {x : String} (hx : Spells .ident x.toList) (h : Printed us) :
    Printed (ofName x :: us) :=
  List.forall_mem_cons.2 ⟨⟨rfl, hx⟩, h⟩

/-- A number is spelled by its digits. -/
theorem number {v : Int64} (hv : 0 ≤ v) (h : Printed us) : Printed (ofNumber v :: us) := by
  have hdecimal : Lexeme.decimal (toString v.toNatClampNeg).toList = v.toNatClampNeg := by
    rw [Lexeme.decimal, ← Nat.ofDigitChars_eq_foldl, ofDigitChars_toString]
  have hdigits : ∀ c ∈ (toString v.toNatClampNeg).toList, c.isDigit = true :=
    fun _ => isDigit_of_mem_toString
  refine List.forall_mem_cons.2 ⟨⟨rfl, ?_⟩, h⟩
  rw [ofNumber]
  obtain ⟨c, cs, hcs⟩ := List.exists_cons_of_ne_nil (toList_toString_ne_nil v.toNatClampNeg)
  rw [hcs] at hdecimal hdigits ⊢
  have hs := Spells.number hdigits (hdecimal ▸ v.toNatClampNeg_lt)
  rwa [hdecimal, Int64.ofNat_toNatClampNeg v hv] at hs

theorem string {s : String} (hs : ∀ c ∈ s.toList, c ≠ '"' ∧ c ≠ '\n') (h : Printed us) :
    Printed (ofString s :: us) :=
  List.forall_mem_cons.2 ⟨⟨rfl, String.toList_ofList.symm ▸ Spells.string hs⟩, h⟩

theorem flatMap {α : Type} {f : α → List Token} {as : List α} (h : ∀ a ∈ as, Printed (f a)) :
    Printed (as.flatMap f) := by
  intro t ht
  obtain ⟨a, ha, ht⟩ := List.mem_flatMap.1 ht
  exact h a ha t ht

end Printed

end Token

open Token (ofWord ofNumber Printed)

namespace Expr

theorem printed_guarded {us : List Token} (least : Nat) (e : Expr) (h : Printed us) :
    Printed (e.guarded least us) := by
  rw [guarded]
  split
  · exact .append (.word (by decide) h) (.word (by decide) .nil)
  · exact h

theorem printed_spellingOfMore : ∀ {es : List Expr}, (∀ e ∈ es, Printed e.spelling) →
    Printed (spellingOfMore es)
  | [], _ => .nil
  | _ :: _, h => .append (.word (by decide) (List.forall_mem_cons.1 h).1)
    (printed_spellingOfMore (List.forall_mem_cons.1 h).2)

theorem printed_spellingOfList {es : List Expr} (h : ∀ e ∈ es, Printed e.spelling) :
    Printed (spellingOfList es) := by
  cases es with
  | nil => exact .nil
  | cons e es =>
    rw [List.forall_mem_cons] at h
    exact .append h.1 (printed_spellingOfMore h.2)

theorem Printable.printed {e : Expr} (h : e.Printable) : Printed e.spelling := by
  induction h with
  | number hv => exact .number hv .nil
  | string hs => exact .string hs .nil
  | read => exact .word (by decide) (.word (by decide) (.word (by decide) .nil))
  | name hx => exact .name hx .nil
  | assign _ _ ht hv => exact .append (printed_guarded _ _ ht) (.word (by decide) hv)
  | @binary _ op _ _ _ _ hl hr =>
    have hop : op.symbol ∈ Token.keywords ++ Token.punctuators := by cases op <;> decide
    exact .append (printed_guarded _ _ hl) (.word hop (printed_guarded _ _ hr))
  | @unary _ op _ _ h =>
    have hop : op.symbol ∈ Token.keywords ++ Token.punctuators := by cases op <;> decide
    exact .word hop (printed_guarded _ _ h)
  | index hx _ h =>
    exact .append (.append (.name hx .nil) (.word (by decide) h)) (.word (by decide) .nil)
  | call hx _ h =>
    exact .append (.name hx (.word (by decide) (printed_spellingOfList h)))
      (.word (by decide) .nil)

end Expr

theorem Ty.printed_spelling : ∀ ty : Ty, Printed ty.spelling
  | .int | .string | .void => .word (by decide) .nil
  | .pointer t => .append t.printed_spelling (.word (by decide) .nil)
  | .array t _ => t.printed_spelling
  | .function _ r => r.printed_spelling

namespace Variable

theorem Printable.printed {v : Variable} (h : v.Printable) : Printed v.spelling := by
  have hlength : Printed (lengthSpelling v.ty) := by
    cases hty : v.ty with
    | array t n => exact .word (by decide) (.number (h.length t n hty) (.word (by decide) .nil))
    | _ => exact .nil
  exact .append (.append v.ty.printed_spelling (.name h.name hlength)) (.word (by decide) .nil)

theorem PrintableParam.printed {v : Variable} (h : v.PrintableParam) : Printed v.paramSpelling :=
  .append v.ty.printed_spelling (.name h.name .nil)

theorem printed_paramsSpelling {vs : List Variable} (h : ∀ v ∈ vs, v.PrintableParam) :
    Printed (paramsSpelling vs) := by
  cases vs with
  | nil => exact .word (by decide) .nil
  | cons v vs =>
    rw [List.forall_mem_cons] at h
    exact .append h.1.printed (.flatMap fun v hv => .word (by decide) (h.2 v hv).printed)

end Variable

theorem Stmt.printed_spellingOfList : ∀ {ss : List Stmt}, (∀ s ∈ ss, Printed s.spelling) →
    Printed (Stmt.spellingOfList ss)
  | [], _ => .nil
  | _ :: _, h => .append (List.forall_mem_cons.1 h).1
    (Stmt.printed_spellingOfList (List.forall_mem_cons.1 h).2)

theorem Stmt.Printable.printed {s : Stmt} (h : s.Printable) : Printed s.spelling := by
  induction h with
  | compound hv _ hs =>
    exact .append (.append (.word (by decide) (.flatMap fun v h => (hv v h).printed))
      (Stmt.printed_spellingOfList hs)) (.word (by decide) .nil)
  | ifThen he _ hy | whileDo he _ hy =>
    exact .append (.word (by decide) (.word (by decide) he.printed)) (.word (by decide) hy)
  | ifElse he _ _ _ hy hn =>
    exact .append (.append (.word (by decide) (.word (by decide) he.printed))
      (.word (by decide) hy)) (.word (by decide) hn)
  | retNone => exact .word (by decide) (.word (by decide) .nil)
  | retSome he => exact .append (.word (by decide) he.printed) (.word (by decide) .nil)
  | write he =>
    exact .append (.word (by decide) (.word (by decide) he.printed))
      (.word (by decide) (.word (by decide) .nil))
  | writeln =>
    exact .word (by decide) (.word (by decide) (.word (by decide) (.word (by decide) .nil)))
  | expr he => exact .append he.printed (.word (by decide) .nil)

theorem Block.Printable.printed {b : Block} (h : b.Printable) : Printed b.spelling := by
  obtain ⟨l, vs, ss⟩ := b
  exact (Stmt.Printable.compound (l := l) h.decls h.stmts).printed

theorem Decl.Printable.printed {d : Decl} (h : d.Printable) : Printed d.spelling := by
  cases h with
  | var hv => exact hv.printed
  | @function f hf =>
    exact .append (.append f.result.printed_spelling
      (.name hf.name (.word (by decide) (Variable.printed_paramsSpelling hf.params))))
      (.word (by decide) hf.body.printed)

/-- Each token that is written for a program is a word that the scanner reads. -/
theorem Program.Printable.printed {p : Program} (h : p.Printable) : Printed p.spelling :=
  .flatMap fun d hd => (h d hd).printed

end Bpl
