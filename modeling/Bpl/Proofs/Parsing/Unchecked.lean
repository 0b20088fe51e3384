import Bpl.Proofs.Parsing.Sound
import Bpl.Proofs.Tree.Unchecked

namespace Bpl

namespace Grammar

open Parsing (Level)

mutual

/-- Of an expression that is spelled, nothing is noted but the places of its parts. -/
theorem Assignment.unchecked {us : List Token} {e : Expr} (h : Assignment us e) :
    e.unchecked = e := by
  match h with
  | .comparison h => exact h.unchecked
  | .assign h₁ _ h₂ => simp only [Expr.unchecked, Note.new_location, h₁.unchecked, h₂.unchecked]

theorem Comparison.unchecked {us : List Token} {e : Expr} (h : Comparison us e) :
    e.unchecked = e := by
  match h with
  | .sum h => exact h.unchecked
  | .compare h₁ _ _ h₂ => simp only [Expr.unchecked, Note.new_location, h₁.unchecked, h₂.unchecked]

theorem Chain.unchecked {level : Level} {us : List Token} {e : Expr} (h : Chain level us e) :
    e.unchecked = e := by
  match h with
  | .operand h => exact h.unchecked
  | .more h₁ _ _ h₂ => simp only [Expr.unchecked, Note.new_location, h₁.unchecked, h₂.unchecked]

theorem Operand.unchecked {level : Level} {us : List Token} {e : Expr} (h : Operand level us e) :
    e.unchecked = e := by
  match h with
  | .product h => exact h.unchecked
  | .signed h => exact h.unchecked

theorem Signed.unchecked {us : List Token} {e : Expr} (h : Signed us e) : e.unchecked = e := by
  match h with
  | .factor h => exact h.unchecked
  | .sign _ h => simp only [Expr.unchecked, Note.new_location, h.unchecked]

theorem Factor.unchecked {us : List Token} {e : Expr} (h : Factor us e) : e.unchecked = e := by
  match h with
  | .parentheses _ h _ => exact h.unchecked
  | .read _ _ _ | .number _ | .string _ | .name _ => rfl
  | .index _ _ h _ => simp only [Expr.unchecked, Note.new_location, h.unchecked]
  | .call _ _ h _ => simp only [Expr.unchecked, Note.new_location, h.unchecked]

theorem Arguments.unchecked {us : List Token} {es : List Expr} (h : Arguments us es) :
    Expr.uncheckedList es = es := by
  match h with
  | .nil => rfl
  | .cons h₁ h₂ => simp only [Expr.uncheckedList, h₁.unchecked, h₂.unchecked]

theorem MoreArguments.unchecked {us : List Token} {es : List Expr} (h : MoreArguments us es) :
    Expr.uncheckedList es = es := by
  match h with
  | .nil => rfl
  | .cons _ h₁ h₂ => simp only [Expr.uncheckedList, h₁.unchecked, h₂.unchecked]

end

mutual

theorem Statement.unchecked {us : List Token} {s : Stmt} (h : Statement us s) :
    s.map id Expr.unchecked = s := by
  match h with
  | .compound h => simp only [Stmt.map, h.unchecked]
  | .ifThen _ _ hc _ hy => simp only [Stmt.map, hc.unchecked, hy.unchecked]
  | .ifElse _ _ hc _ hy _ _ hn => simp only [Stmt.map, hc.unchecked, hy.unchecked, hn.unchecked]
  | .whileDo _ _ hc _ hb => simp only [Stmt.map, hc.unchecked, hb.unchecked]
  | .retNone _ _ | .writeln _ _ _ _ => rfl
  | .retSome _ h _ => simp only [Stmt.map, Option.map_some, h.unchecked]
  | .write _ _ h _ _ => simp only [Stmt.map, h.unchecked]
  | .expr h _ => simp only [Stmt.map, h.unchecked]

theorem Block.unchecked {us : List Token} {b : Bpl.Block} (h : Block us b) :
    b.map id Expr.unchecked = b := by
  match h with
  | .mk _ _ hs _ => simp only [Block.map, List.map_id, hs.unchecked]

theorem Statements.unchecked {us : List Token} {ss : List Stmt} (h : Statements us ss) :
    Stmt.mapList id Expr.unchecked ss = ss := by
  match h with
  | .nil => rfl
  | .cons h hs => simp only [Stmt.mapList, h.unchecked, hs.unchecked]

end

theorem Declaration.unchecked {us : List Token} {d : Decl} (h : Declaration us d) :
    d.unchecked = d := by
  cases h with
  | var _ => rfl
  | function _ _ _ _ _ hb =>
    simp only [Decl.unchecked, Function.unchecked, hb.unchecked]

theorem Program.unchecked {us : List Token} {p : Bpl.Program} (h : Program us p) :
    p.unchecked = p := by
  induction h with
  | nil => rfl
  | cons h _ ih => exact congrArg₂ List.cons h.unchecked ih

end Grammar

/-- What the parser makes is as it was before a check. -/
theorem unchecked_of_parse {ts : List Token} {p : Program} (h : parse ts = .ok p) :
    p.unchecked = p := by
  obtain ⟨us, rest, _, j, _⟩ := Parsing.program_of_decls _ ts h
  exact j.unchecked

/-- The parser links no name. -/
theorem unlinked_of_parse {ts : List Token} {p : Program} (h : parse ts = .ok p) : p.Unlinked := by
  rw [← unchecked_of_parse h]
  exact p.unlinked_unchecked

end Bpl
