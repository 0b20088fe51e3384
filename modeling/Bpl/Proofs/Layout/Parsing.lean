import Bpl.Proofs.Layout.Places
import Bpl.Proofs.Parsing.Uniform

namespace Bpl

section gather

variable {α : Type} [Movable α] [Placed α]

/-- To lose its places is to be put at the start of the text. -/
theorem moved_gather_list (h : ∀ a : α, moved .gather a = unplaced a) (as : List α) :
    moved .gather as = unplaced as :=
  List.map_congr_left fun a _ => h a

theorem moved_gather_option (h : ∀ a : α, moved .gather a = unplaced a) :
    ∀ o : Option α, moved .gather o = unplaced o
  | none => rfl
  | some a => congrArg some (h a)

mutual

theorem Expr.moved_gather : ∀ e : Expr, Movable.moved .gather e = Placed.unplaced e
  | .number .. | .string .. | .read _ | .name .. | .var .. | .decay .. => rfl
  | .assign _ l r => congrArg₂ (Expr.assign _) l.moved_gather r.moved_gather
  | .binary _ op l r => congrArg₂ (Expr.binary _ op) l.moved_gather r.moved_gather
  | .unary _ op e => congrArg (Expr.unary _ op) e.moved_gather
  | .index _ b i => congrArg₂ (Expr.index _) b.moved_gather i.moved_gather
  | .call _ x args => congrArg (Expr.call _ x) (Expr.movedList_gather args)

theorem Expr.movedList_gather : ∀ es : List Expr, Expr.movedList .gather es = Expr.unplacedList es
  | [] => rfl
  | e :: es => congrArg₂ List.cons e.moved_gather (Expr.movedList_gather es)

end

mutual

theorem Stmt.moved_gather : ∀ s : Stmt, Movable.moved .gather s = Placed.unplaced s
  | .compound _ b => congrArg (Stmt.compound .first) b.moved_gather
  | .ifThen _ e yes => congrArg₂ (Stmt.ifThen .first) e.moved_gather yes.moved_gather
  | .ifElse _ e yes no => by
    change Stmt.ifElse .first (Movable.moved .gather e) (Movable.moved .gather yes)
      (Movable.moved .gather no) = _
    rw [e.moved_gather, yes.moved_gather, no.moved_gather]
    rfl
  | .whileDo _ e body => congrArg₂ (Stmt.whileDo .first) e.moved_gather body.moved_gather
  | .ret _ e => congrArg (Stmt.ret .first) (moved_gather_option Expr.moved_gather e)
  | .expr _ e => congrArg (Stmt.expr .first) e.moved_gather
  | .write _ e => congrArg (Stmt.write .first) e.moved_gather
  | .writeln _ => rfl

theorem Block.moved_gather : ∀ b : Block, Movable.moved .gather b = Placed.unplaced b
  | .mk _ _ ss => congrArg (Block.mk _ _) (Stmt.movedList_gather ss)

theorem Stmt.movedList_gather : ∀ ss : List Stmt, Stmt.movedList .gather ss = Stmt.unplacedList ss
  | [] => rfl
  | s :: ss => congrArg₂ List.cons s.moved_gather (Stmt.movedList_gather ss)

end

theorem Decl.moved_gather : ∀ d : Decl, Movable.moved .gather d = Placed.unplaced d
  | .var _ => rfl
  | .function f => by
    change Decl.function { f with params := _, body := _, location := .first, locals := _ } = _
    rw [f.body.moved_gather]
    rfl

theorem Diagnostic.moved_gather (d : Diagnostic) :
    Movable.moved .gather d = Placed.unplaced d := by
  cases d <;> rfl

end gather

theorem decls_unplaced (fin : Location) (ts : List Token) :
    Parsing.decls .first (unplaced ts) = unplaced (Parsing.decls fin ts) := by
  let w : Parsing.Twins := ⟨.gather, fin, .first, [], [], nofun, nofun⟩
  have hdecls := w.decls_concur ts
  rw [Parsing.Twins.left, Parsing.Twins.right, List.append_nil, List.append_nil] at hdecls
  change w.Concur (Parsing.decls fin ts) (Parsing.decls .first (unplaced ts)) at hdecls
  revert hdecls
  generalize Parsing.decls fin ts = x
  generalize Parsing.decls .first (unplaced ts) = y
  intro hdecls
  cases hdecls with
  | @ok ds => exact congrArg Except.ok (moved_gather_list Decl.moved_gather ds)
  | @error d => exact congrArg Except.error d.moved_gather
  | ended => rfl

/-- The parser does not look at places. -/
theorem parse_unplaced (ts : List Token) : parse (unplaced ts) = unplaced (parse ts) := by
  cases ts with
  | nil =>
    change parse [] = unplaced (parse [])
    rw [parse, Parsing.decls]
    rfl
  | cons t ts =>
    have hlast : (((unplaced (t :: ts)).getLast?.map Token.location).getD default) = .first := by
      change (((t :: ts).map unplaced).getLast?.map _).getD _ = _
      rw [List.getLast?_map]
      rw [List.getLast?_eq_getLast_of_ne_nil (List.cons_ne_nil t ts)]
      rfl
    rw [parse, parse, hlast]
    exact decls_unplaced _ _

end Bpl
