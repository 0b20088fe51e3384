import Bpl.Proofs.Stack.Statements

namespace Bpl.Lowering

open Asm Stack

mutual

/-- `BoundStmt a frame s ls i`: line `i` of the code `ls` of the statement `s` is a boundary: there
`s` begins or ends, or a statement within it. -/
inductive BoundStmt (a : Assembly) (frame : Frame) : Stmt → Code → Nat → Prop
  | first {s : Stmt} {ls : Code} : EmitsStmt a frame s ls → BoundStmt a frame s ls 0
  | last {s : Stmt} {ls : Code} : EmitsStmt a frame s ls → BoundStmt a frame s ls ls.length
  | compound {l : Location} {b : Block} {c : Code} {i : Nat} :
      BoundBlock a frame b c i → BoundStmt a frame (.compound l b) c i
  | ifThen {l : Location} {e : Expr} {yes : Stmt} {c d : Code} {last i : Nat} :
      EmitsValue a frame e c → BoundStmt a frame yes d i →
        BoundStmt a frame (.ifThen l e yes)
          (c ++ unlessTrue last ++ d ++ [.label (.numbered last)])
          ((c ++ unlessTrue last).length + i)
  | ifElseYes {l : Location} {e : Expr} {yes no : Stmt} {c d d' : Code} {other last i : Nat} :
      EmitsValue a frame e c → BoundStmt a frame yes d i → EmitsStmt a frame no d' →
        BoundStmt a frame (.ifElse l e yes no)
          (c ++ unlessTrue other ++ d ++ code [.jmp (.numbered last)] ++
            [.label (.numbered other)] ++ d' ++ [.label (.numbered last)])
          ((c ++ unlessTrue other).length + i)
  | ifElseNo {l : Location} {e : Expr} {yes no : Stmt} {c d d' : Code} {other last i : Nat} :
      EmitsValue a frame e c → EmitsStmt a frame yes d → BoundStmt a frame no d' i →
        BoundStmt a frame (.ifElse l e yes no)
          (c ++ unlessTrue other ++ d ++ code [.jmp (.numbered last)] ++
            [.label (.numbered other)] ++ d' ++ [.label (.numbered last)])
          ((c ++ unlessTrue other ++ d ++ code [.jmp (.numbered last)] ++
            [Line.label (.numbered other)]).length + i)
  | whileDo {l : Location} {e : Expr} {body : Stmt} {c d : Code} {top last i : Nat} :
      EmitsValue a frame e c → BoundStmt a frame body d i →
        BoundStmt a frame (.whileDo l e body)
          ([.label (.numbered top)] ++ c ++ unlessTrue last ++ d ++
            code [.jmp (.numbered top)] ++ [.label (.numbered last)])
          (([Line.label (.numbered top)] ++ c ++ unlessTrue last).length + i)

inductive BoundBlock (a : Assembly) (frame : Frame) : Block → Code → Nat → Prop
  | mk {l : Location} {vs : List Variable} {ss : List Stmt} {c : Code} {i : Nat} :
      BoundStmts a frame ss c i → BoundBlock a frame (.mk l vs ss) c i

inductive BoundStmts (a : Assembly) (frame : Frame) : List Stmt → Code → Nat → Prop
  | head {s : Stmt} {ss : List Stmt} {c d : Code} {i : Nat} :
      BoundStmt a frame s c i → EmitsStmts a frame ss d → BoundStmts a frame (s :: ss) (c ++ d) i
  | tail {s : Stmt} {ss : List Stmt} {c d : Code} {i : Nat} :
      EmitsStmt a frame s c → BoundStmts a frame ss d i →
        BoundStmts a frame (s :: ss) (c ++ d) (c.length + i)

end

end Bpl.Lowering

namespace Bpl.Stack

open Asm Lowering

/-- Line `i` of a piece of code is reached at the height of a frame without any value on top. -/
structure LevelAt (frame : Frame) (ls : Code) (i : Nat) : Prop where
  within : i ≤ ls.length
  level : Stack.level frame.size frame.size (ls.take i) = frame.size

variable {frame : Frame} {ls b d : Code} {i : Nat}

theorem LevelAt.append_right (h : LevelAt frame ls i) : LevelAt frame (ls ++ d) i where
  within := by
    rw [List.length_append]
    exact h.within.trans (Nat.le_add_right _ _)
  level := by
    rw [List.take_append_of_le_length h.within]
    exact h.level

theorem LevelAt.append_left (hb : Levelled frame b) (h : LevelAt frame ls i) :
    LevelAt frame (b ++ ls) (b.length + i) where
  within := by
    rw [List.length_append]
    exact Nat.add_le_add_left h.within _
  level := by
    rw [List.take_append, List.take_of_length_le (Nat.le_add_right _ _), Nat.add_sub_cancel_left,
      level_append, hb.level, h.level]

theorem Levelled.first : LevelAt frame ls 0 :=
  ⟨Nat.zero_le _, level_nil⟩

theorem Levelled.last (h : Levelled frame ls) : LevelAt frame ls ls.length :=
  ⟨le_refl _, by rw [List.take_length, h.level]⟩

end Bpl.Stack

namespace Bpl.Lowering

open Asm Stack

variable {a : Assembly} {frame : Frame}

mutual

/-- Statements begin and end at the height of the frame. -/
theorem BoundStmt.levelAt {s : Stmt} {ls : Code} {i : Nat} :
    BoundStmt a frame s ls i → (∀ e ∈ s.exprs, ∀ x ∈ e.nodes, x.FewArguments) →
      LevelAt frame ls i
  | .first _, _ => Levelled.first
  | .last h, hs => (h.levelled hs).last
  | .compound h, hs => h.levelAt hs
  | .ifThen he hy, hs => by
    rw [Stmt.exprs, List.forall_mem_cons] at hs
    have hc : Levelled frame _ := (he.moves hs.1).levelled
    exact ((hy.levelAt hs.2).append_left (hc.append (levelled_unlessTrue _))).append_right
  | .ifElseYes he hy _, hs => by
    rw [Stmt.exprs, List.forall_mem_cons, List.forall_mem_append] at hs
    have hc : Levelled frame _ := (he.moves hs.1).levelled
    refine LevelAt.append_right (LevelAt.append_right (LevelAt.append_right
      (LevelAt.append_right ?_)))
    exact (hy.levelAt hs.2.1).append_left (hc.append (levelled_unlessTrue _))
  | .ifElseNo he hy hn, hs => by
    rw [Stmt.exprs, List.forall_mem_cons, List.forall_mem_append] at hs
    have hc : Levelled frame _ := (he.moves hs.1).levelled
    have hd := hy.levelled hs.2.1
    refine ((hn.levelAt hs.2.2).append_left (Levelled.append (Levelled.append ?_ (levelled_jmp _))
      (levelled_label _))).append_right
    exact (hc.append (levelled_unlessTrue _)).append hd
  | .whileDo he hb, hs => by
    rw [Stmt.exprs, List.forall_mem_cons] at hs
    have hc : Levelled frame _ := (he.moves hs.1).levelled
    refine ((hb.levelAt hs.2).append_left ?_).append_right.append_right
    exact ((levelled_label _).append hc).append (levelled_unlessTrue _)

theorem BoundBlock.levelAt {b : Bpl.Block} {ls : Code} {i : Nat} :
    BoundBlock a frame b ls i → (∀ e ∈ b.exprs, ∀ x ∈ e.nodes, x.FewArguments) →
      LevelAt frame ls i
  | .mk h, hs => h.levelAt hs

theorem BoundStmts.levelAt {ss : List Stmt} {ls : Code} {i : Nat} :
    BoundStmts a frame ss ls i → (∀ e ∈ Stmt.exprsOfList ss, ∀ x ∈ e.nodes, x.FewArguments) →
      LevelAt frame ls i
  | .head h _, hs => by
    rw [Stmt.exprsOfList, List.forall_mem_append] at hs
    exact (h.levelAt hs.1).append_right
  | .tail h hss, hs => by
    rw [Stmt.exprsOfList, List.forall_mem_append] at hs
    exact (hss.levelAt hs.2).append_left (h.levelled hs.1)

end

end Bpl.Lowering
