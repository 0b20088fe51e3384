import Bpl.Proofs.Machine.Run
import Bpl.Proofs.Tree.Parts

namespace Bpl

open Machine

/-- The bytes of stack that a call takes, but for the calls inside of it: three words around the
frame, its locals, and a word for each node of its expressions. -/
def Function.span (f : Function) : Nat :=
  24 + Variable.totalSize f.locals + 8 * (Expr.nodesOfList f.body.exprs).length

namespace Program

/-- A call takes no more than this, whichever function it is of. -/
def span (p : Program) : Nat :=
  (p.functions.map Function.span).sum

/-- The bytes of stack for some nodes of expressions, with calls in them up to `depth` inside of
each other. The last 32 are for the library functions. -/
def need (p : Program) (depth nodes : Nat) : Nat :=
  p.span * depth + 8 * nodes + 32

/-- The bytes of stack for a run of the program with calls up to `depth` inside of each other. -/
def room (p : Program) (depth : Nat) : Nat :=
  p.need (depth + 1) 0

theorem span_le {p : Program} {f : Function} (hf : f ∈ p.functions) : f.span ≤ p.span :=
  List.le_sum_of_mem (List.mem_map_of_mem hf)

/-- Another call takes the bytes of its function. -/
theorem need_add_span_le {p : Program} {f : Function} (hf : f ∈ p.functions) (depth nodes : Nat) :
    p.need depth nodes + f.span ≤ p.need (depth + 1) nodes := by
  have hspan := span_le hf
  rw [need, need, Nat.mul_succ]
  omega

end Program

theorem Expr.length_le_nodesOfList (es : List Expr) : es.length ≤ (nodesOfList es).length := by
  induction es with
  | nil => exact Nat.zero_le _
  | cons e es ih =>
    have hpos := List.length_pos_of_mem e.mem_nodes_self
    rw [nodesOfList, List.length_append, List.length_cons]
    omega

namespace Simulation

/-- Between `low` and the stack pointer there is what some nodes need. -/
def Roomy (p : Program) (low : Int) (depth nodes : Nat) (s : State) : Prop :=
  low + p.need depth nodes ≤ s.sp

variable {p : Program} {f : Function} {low : Int} {depth n k j : Nat} {s t : State}

theorem Roomy.low_le_sub (h : Roomy p low depth n s) : low ≤ s.sp - 32 := by
  rw [Roomy, Program.need] at h
  omega

theorem Roomy.low_le (h : Roomy p low depth n s) : low ≤ s.sp := by
  have := h.low_le_sub
  omega

/-- Each word that is pushed is that of a node. -/
theorem Roomy.descend (h : Roomy p low depth n s) (hsp : s.sp ≤ t.sp + 8 * j) (hn : k + j ≤ n) :
    Roomy p low depth k t := by
  rw [Roomy, Program.need] at *
  omega

/-- The nodes that were evaluated leave their room to the next ones. -/
theorem Roomy.of_sp (h : Roomy p low depth n s) (hsp : t.sp = s.sp) (hn : k ≤ n) :
    Roomy p low depth k t :=
  h.descend (j := 0) (by omega) hn

section

-- on entry, two words of the three around the frame are on the stack already
variable (h : low + (p.need depth 0 + f.span : Nat) ≤ s.sp + 16)
include h

theorem low_add_totalSize_le : low + 8 + Variable.totalSize f.locals ≤ s.sp := by
  rw [Program.need, Function.span] at h
  omega

/-- A function that is entered has room for the nodes of its body. -/
theorem Roomy.of_span (hsp : s.sp ≤ t.sp + 8 + Variable.totalSize f.locals) :
    Roomy p low depth (Expr.nodesOfList f.body.exprs).length t := by
  rw [Program.need, Function.span] at h
  rw [Roomy, Program.need]
  omega

end

end Simulation

end Bpl
