import Bpl.Proofs.Simulation.Follows
import Bpl.Proofs.Simulation.Room

namespace Bpl.Simulation

open Asm Machine
open Lowering (EmitsValue EmitsAddress EmitsArguments EmitsStmt EmitsBlock EmitsStmts code load move
  loadImm libraryCall)

variable {a : Assembly} {H : Host a} {p : Program} {f : Function} {low b : Int} {m m' : Store}
  {s s₁ t : State} {fuel depth k : Nat}

/-- A state inside of a call of the program. -/
structure Inside (H : Host a) (p : Program) (f : Function) (b : Int) (m : Store) (s : State) :
    Prop where
  function : f ∈ p.functions
  stands : Stands H f b s
  holds : Holds H p f b m s

theorem Inside.after {n : Nat} (hi : Inside H p f b m s) (hc : Continues H p f b s n m' t) :
    Inside H p f b m' t :=
  ⟨hi.function, hi.stands.after hc, hc.holds⟩

theorem Inside.push {v : Int64} (hm : p.Makes a) (hi : Inside H p f b m s)
    (hl : H.limit ≤ s.sp - 8) : Inside H p f b m (s.pushed v).next :=
  ⟨hi.function, hi.stands.push hl, hi.holds.push hm hi.stands hl⟩

/-- Variables are not changed by a library function. -/
theorem Inside.seen (hm : p.Makes a) (hi : Inside H p f b m s) {c : Cell} {z : Int}
    (hz : Places H p f b c z) : s.sp ≤ z ∨ H.isData z = true := by
  have hb := hi.stands.below
  rcases hz.isData_or_owns hm with hd | ho | ho
  · exact .inr hd
  · exact .inl (by omega)
  · exact .inl (by omega)

/-- Some instructions that only work on registers. -/
theorem Inside.continues {n : Nat} (hi : Inside H p f b m s) (hline : t.line = s.line + n)
    (hs : s.SameMemory t) : Continues H p f b s n m t where
  line := hline
  rsp := hs.rsp
  rbp := hs.rbp
  holds := hi.holds.congr hs.input hs.output fun _ _ _ => congrFun hs.mem _
  keeps := fun _ _ _ _ => congrFun hs.mem _

/-- A library function that did its work, and left its input and output to the store. -/
theorem Inside.continues_alike {n : Nat} (hm : p.Makes a) (hi : Inside H p f b m s)
    (ha : s.Alike H t) (hline : t.line = s.line + n) (hcells : m'.cells = m.cells)
    (hin : t.input = m'.input) (hout : t.output = m'.output) : Continues H p f b s n m' t where
  line := hline
  rsp := ha.rsp
  rbp := ha.rbp
  holds := by
    refine ⟨hin, hout, fun c v z hv hz => ?_⟩
    rw [ha.mem z (hi.seen hm hz)]
    exact hi.holds.cells c v z (hcells ▸ hv) hz
  keeps := fun w hw _ _ => ha.mem w (.inl hw)

theorem Continues.trans {n k : Nat} (h : Continues H p f b s n m s₁)
    (h' : Continues H p f b s₁ k m' t) : Continues H p f b s (n + k) m' t where
  line := by rw [h'.line, h.line, Nat.add_assoc]
  rsp := h'.rsp.trans h.rsp
  rbp := h'.rbp.trans h.rbp
  holds := h'.holds
  keeps := by
    intro w hw hd ho
    rw [h'.keeps w (h.sp ▸ hw) hd ho, h.keeps w hw hd ho]

theorem Roomy.after {n : Nat} (hr : Roomy p low depth k s) (hc : Continues H p f b s n m t) :
    Roomy p low depth k t :=
  hr.of_sp hc.sp le_rfl

/-- A value in `%rax` is pushed to be used later. -/
theorem Inside.pushes {P : Outcome → Prop} {is : List Instr} (hm : p.Makes a)
    (hi : Inside H p f b m s) (hr : Roomy p low depth (k + 1) s)
    (hc : CodeAt a s.line (code (.push (.reg .rax) :: is)))
    (hk : H.limit ≤ s.sp - 8 → Inside H p f b m (s.pushed (s.regs .rax)).next →
      Roomy p low depth k (s.pushed (s.regs .rax)).next →
        Leads H low P (s.pushed (s.regs .rax)).next) : Leads H low P s := by
  have hsp : (s.pushed (s.regs .rax)).next.sp = s.sp - 8 :=
    s.sp_pushed (s.regs .rax) hi.stands.nonneg
  have hlow := hr.low_le_sub
  refine Leads.push hc rfl hi.stands.nonneg hi.stands.sp_aligned (by omega) fun hl => ?_
  exact hk hl (hi.push hm hl) (hr.descend (j := 1) (by omega) le_rfl)

/-- Arguments are on the stack, the first of them on the highest place. -/
structure Pushes (H : Host a) (p : Program) (f : Function) (b : Int) (s : State) (n : Nat)
    (vs : List Value) (m : Store) (t : State) : Prop where
  line : t.line = s.line + n
  rbp : t.regs .rbp = s.regs .rbp
  sp : t.sp = s.sp - 8 * vs.length
  room : H.limit ≤ t.sp
  holds : Holds H p f b m t
  keeps : ∀ w, s.sp ≤ w → H.isData w = false → ¬ Owns f b w → t.mem w = s.mem w
  values : ∀ (k : Nat) (v : Value), vs[k]? = some v → Encodes H v (t.mem (s.sp - 8 * (k + 1)))

/-- A call is left: the machine stands before the return, with the return address on top. -/
structure Returns (H : Host a) (p : Program) (f : Function) (b : Int) (s : State)
    (v : Option Value) (m : Store) (t : State) : Prop where
  line : CodeAt a t.line (code [.ret])
  sp : t.sp = if f.isMain then b + 8 else b
  holds : Holds H p f b m t
  keeps : ∀ w, s.sp ≤ w → H.isData w = false → ¬ Owns f b w → t.mem w = s.mem w
  status : f.isMain = true → t.regs .rax = 0
  value : f.isMain = false → ∀ x, v = some x → Encodes H x (t.regs .rax)

theorem Returns.of_continues {v : Option Value} {n : Nat} (h : Returns H p f b s₁ v m' t)
    (hc : Continues H p f b s n m s₁) : Returns H p f b s v m' t where
  line := h.line
  sp := h.sp
  holds := h.holds
  keeps := by
    intro w hw hd ho
    rw [h.keeps w (hc.sp ▸ hw) hd ho, hc.keeps w hw hd ho]
  status := h.status
  value := h.value

/-- Statements are run to their end, or leave their function. -/
def Completes (H : Host a) (p : Program) (f : Function) (b : Int) (s : State) (n : Nat) :
    Option (Option Value) → Store → State → Prop
  | none => Continues H p f b s n
  | some v => Returns H p f b s v

/-- The machine follows the interpreter in all that it does with some fuel, and with room for the
words that it pushes. -/
structure Simulates (H : Host a) (p : Program) (low : Int) (fuel : Nat) : Prop where
  value : ∀ {depth f b m s e c}, Inside H p f b m s → Roomy p low depth e.nodes.length s →
    (∀ x ∈ e.nodes, x.LinkedIn p f) → EmitsValue a (Frame.layout f) e c → CodeAt a s.line c →
      Follows H low ((Semantics.value p H.order fuel depth e).run m) (Yields H p f b s c.length) s
  place : ∀ {depth f b m s e c}, Inside H p f b m s → Roomy p low depth e.nodes.length s →
    (∀ x ∈ e.nodes, x.LinkedIn p f) → EmitsAddress a (Frame.layout f) e c → CodeAt a s.line c →
      Follows H low ((Semantics.place p H.order fuel depth e).run m)
        (fun d m' t => Continues H p f b s c.length m' t ∧
          Places H p f b d (t.regs .rax).toInt) s
  arguments : ∀ {depth f b m s es c}, Inside H p f b m s →
    Roomy p low depth (Expr.nodesOfList es).length s →
      (∀ x ∈ Expr.nodesOfList es, x.LinkedIn p f) →
        EmitsArguments a (Frame.layout f) es c → CodeAt a s.line c →
          Follows H low ((Semantics.arguments p H.order fuel depth es).run m)
            (fun vs m' t => vs.length = es.length ∧ Pushes H p f b s c.length vs m' t) s
  stmt : ∀ {depth f b m s u c}, Inside H p f b m s →
    Roomy p low depth (Expr.nodesOfList (Stmt.exprs u)).length s →
      (∀ e ∈ Stmt.exprs u, ∀ x ∈ e.nodes, x.LinkedIn p f) →
        EmitsStmt a (Frame.layout f) u c → CodeAt a s.line c →
          Follows H low ((Semantics.stmt p H.order fuel depth u).run m)
            (Completes H p f b s c.length) s
  block : ∀ {depth f b m s u c}, Inside H p f b m s →
    Roomy p low depth (Expr.nodesOfList (Block.exprs u)).length s →
      (∀ e ∈ Block.exprs u, ∀ x ∈ e.nodes, x.LinkedIn p f) →
        EmitsBlock a (Frame.layout f) u c → CodeAt a s.line c →
          Follows H low ((Semantics.block p H.order fuel depth u).run m)
            (Completes H p f b s c.length) s
  stmts : ∀ {depth f b m s us c}, Inside H p f b m s →
    Roomy p low depth (Expr.nodesOfList (Stmt.exprsOfList us)).length s →
      (∀ e ∈ Stmt.exprsOfList us, ∀ x ∈ e.nodes, x.LinkedIn p f) →
        EmitsStmts a (Frame.layout f) us c → CodeAt a s.line c →
          Follows H low ((Semantics.stmts p H.order fuel depth us).run m)
            (Completes H p f b s c.length) s

end Bpl.Simulation
