import Bpl.Proofs.Lowering.Emits
import Bpl.Proofs.Stack.Flow
import Bpl.Proofs.Tree.Nodes

namespace Bpl

/-- The arguments of a call take less than 2^63 bytes together. -/
def Expr.FewArguments : Expr → Prop
  | .call _ _ args => Ty.wordSize * args.length < 2 ^ 63
  | _ => True

namespace Stack

open Asm Lowering

/-- Lines at which paths split or join: labels and jumps within a function. -/
def isJoint : Line → Bool
  | .label _ | .instr (.jmp _) | .instr (.je _) => true
  | .instr _ => false

/-- Straight code that takes the height by `net`, and on its way never below `low`, both counted
from where it starts. -/
structure Moves (c : Code) (low net : Int) : Prop where
  crosses : ∀ h, Reaches c 0 h c.length (h + net)
  level : ∀ base h, level base h c = h + net
  floor : ∀ base h b, b <+: c → h + low ≤ Stack.level base h b
  straight : ∀ x ∈ c, isJoint x = false ∧ x ≠ .instr .ret

variable {c d : Code} {low low' net m n : Int}

theorem Moves.append (hc : Moves c low m) (hd : Moves d low' n) {low'' : Int}
    (hlow : low'' ≤ low) (hlow' : low'' ≤ m + low') (hnet : m + n = net) :
    Moves (c ++ d) low'' net where
  crosses := by
    intro h
    have hfirst : Reaches (c ++ d) 0 h c.length (h + m) := by
      simpa using (hc.crosses h).context (b := []) (d := d)
    have hsecond : Reaches (c ++ d) c.length (h + m) (c ++ d).length (h + m + n) := by
      simpa using (hd.crosses (h + m)).context (b := c) (d := [])
    rw [← hnet, ← Int.add_assoc]
    exact hfirst.trans hsecond
  level := by
    intro base h
    rw [level_append, hc.level, hd.level, Int.add_assoc, hnet]
  floor := by
    intro base h b hb
    rcases List.prefix_or_prefix_of_prefix hb (List.prefix_append c d) with hb' | ⟨b', rfl⟩
    · have := hc.floor base h b hb'
      omega
    · have := hd.floor base (h + m) b' ((List.prefix_append_right_inj c).1 hb)
      rw [level_append, hc.level]
      omega
  straight := by
    intro x hx
    exact (List.mem_append.1 hx).elim (hc.straight x) (hd.straight x)

theorem floor_nil {base h k : Int} (hk : k ≤ h) : ∀ b, b <+: [] → k ≤ level base h b := by
  intro b hb
  rw [List.prefix_nil.1 hb, level_nil]
  exact hk

theorem floor_cons {base h k : Int} {x : Line} (hk : k ≤ h)
    (hc : ∀ b, b <+: c → k ≤ level base (after base h x) b) :
    ∀ b, b <+: x :: c → k ≤ level base h b := by
  intro b hb
  rcases List.prefix_cons_iff.1 hb with rfl | ⟨b', rfl, hb'⟩
  · exact hk
  · exact hc b' hb'

theorem moves_nil : Moves [] 0 0 where
  crosses := fun h => by simpa using Reaches.refl
  level := by simp [level_nil]
  floor := fun base h => floor_nil (Int.le_of_eq (Int.add_zero h))
  straight := by simp

/-- One instruction that is passed. -/
theorem moves_instr {x : Instr} (hx : ∀ h, x.height? h = some (h + net))
    (hj : isJoint (.instr x) = false) (hlow : low ≤ 0) (hnet : low ≤ net) :
    Moves (code [x]) low net where
  crosses := fun h => .step .refl (.pass rfl (hx h))
  level := fun base h => after_of_height? (hx h)
  floor := by
    intro base h
    refine floor_cons (by omega) (floor_nil ?_)
    rw [after_of_height? (hx h)]
    omega
  straight := by
    intro y hy
    rw [List.mem_singleton.1 hy]
    refine ⟨hj, ?_⟩
    rintro ⟨⟩
    cases hx 0

/-- Instructions that leave the stack alone. -/
def isQuiet : Instr → Bool
  | .push _ | .pop _ | .callRoutine _ | .jmp _ | .je _ | .ret => false
  | x => x.written? ≠ some .rsp ∧ x.written? ≠ some .rbp

theorem height?_of_isQuiet {x : Instr} (hx : isQuiet x = true) (h : Int) :
    x.height? h = some h := by
  cases x with
  | mov src dst =>
    have hw := of_decide_eq_true hx
    refine (if_neg ?_).trans (if_neg (not_or.2 hw))
    intro he
    cases he
    exact hw.1 rfl
  | op o src r => cases o <;> cases src <;> cases r <;> first | rfl | cases hx
  | mov32 _ r | lea _ r | neg r | clear r => cases r <;> first | rfl | cases hx
  | _ => first | rfl | cases hx

theorem isJoint_of_isQuiet {x : Instr} (hx : isQuiet x = true) : isJoint (.instr x) = false := by
  cases x <;> first | rfl | cases hx

theorem moves_quiet {is : List Instr} (hx : is.all isQuiet = true) : Moves (code is) 0 0 := by
  induction is with
  | nil => exact moves_nil
  | cons x is ih =>
    rw [List.all_cons, Bool.and_eq_true] at hx
    have hfirst : Moves (code [x]) 0 0 := by
      refine moves_instr (fun h => ?_) (isJoint_of_isQuiet hx.1) (le_refl 0) (le_refl 0)
      rw [height?_of_isQuiet hx.1, Int.add_zero]
    exact hfirst.append (ih hx.2) (le_refl 0) (le_refl 0) rfl

theorem moves_push {src : Operand} (hs : src ≠ .reg .rsp) : Moves (code [.push src]) 0 8 := by
  refine moves_instr (fun h => ?_) rfl (by decide) (by decide)
  cases src with
  | reg r => cases r <;> first | rfl | exact absurd rfl hs
  | _ => rfl

theorem moves_keep : Moves (code [.push (.reg .rax)]) 0 8 :=
  moves_push (by decide)

theorem moves_pop {r : Reg} (hr : r ≠ .rsp) : Moves (code [.pop r]) (-8) (-8) := by
  refine moves_instr (fun h => ?_) rfl (by decide) (by decide)
  cases r <;> first | rfl | exact absurd rfl hr

theorem moves_libraryCall (r : Routine) : Moves (libraryCall r) 0 0 where
  crosses := by
    intro h
    rw [Int.add_zero, ← Nat.zero_add (libraryCall r).length]
    exact .step .refl (.library (List.prefix_refl _))
  level := fun base h => by rw [level_libraryCall, Int.add_zero]
  floor := by
    intro base h
    have hpushed : h + 0 ≤ h + 8 + 8 := by omega
    have hdropped : h + 0 ≤ h + 8 + 8 - 16 := by omega
    exact floor_cons (by omega) (floor_cons (show h + 0 ≤ h + 8 by omega) (floor_cons hpushed
      (floor_cons hpushed (floor_cons hpushed (floor_cons hpushed (floor_nil hdropped))))))
  straight := by simp [libraryCall, code, isJoint, load]

theorem moves_combine (op : BinaryOp) : Moves (combine op) 0 0 := by
  cases op <;> exact moves_quiet rfl

/-- A call keeps the frame pointer on the stack. -/
theorem moves_call (l : Label) : Moves (code [.push (.reg .rbp), .call l, .pop .rbp]) 0 0 := by
  have hkept : Moves (code [.push (.reg .rbp)]) 0 8 := moves_push (by decide)
  have hcalled : Moves (code [.call l]) 0 0 := moves_quiet rfl
  have hback : Moves (code [.call l, .pop .rbp]) (-8) (-8) :=
    hcalled.append (moves_pop (by decide)) (by decide) (le_refl _) rfl
  exact hkept.append hback (le_refl 0) (by decide) rfl

/-- The end of a call, which takes its arguments away. -/
theorem moves_drop {args : List Expr} (hn : Ty.wordSize * args.length < 2 ^ 63) :
    Moves (code (if args.isEmpty then []
      else [.op .add (.imm (Int64.ofNat (Ty.wordSize * args.length))) .rsp]))
      (-(8 * args.length)) (-(8 * args.length)) := by
  cases args with
  | nil => exact moves_nil
  | cons e es =>
    refine moves_instr (fun h => ?_) rfl (by omega) (le_refl _)
    change some (h - (Int64.ofNat (Ty.wordSize * (e :: es).length)).toInt) = _
    rw [Int64.toInt_ofNat_of_lt hn, Int.sub_eq_add_neg, Ty.wordSize, Nat.cast_mul]
    rfl

/-- Two pieces of code of which the value of the first is kept on the stack. -/
theorem Moves.keep (hc : Moves c 0 0) (hd : Moves d 0 0) :
    Moves (c ++ code [.push (.reg .rax)] ++ d) 0 8 := by
  have hkept := hc.append moves_keep (le_refl 0) (by decide) rfl
  exact hkept.append hd (le_refl 0) (by decide) rfl

theorem moves_popThen {r : Reg} {is : List Instr} (hr : r ≠ .rsp) (hx : is.all isQuiet = true) :
    Moves (code (.pop r :: is)) (-8) (-8) :=
  (moves_pop hr).append (moves_quiet hx) (le_refl _) (by decide) rfl

end Stack

namespace Lowering

open Asm Stack

variable {a : Assembly} {frame : Frame}

theorem Checks.moves {ty : Ty} {c : Code} (h : Checks a ty c) : Moves c 0 0 := by
  cases h with
  | array _ => exact moves_quiet rfl
  | other _ => exact moves_nil

mutual

/-- The code of an expression leaves the height as it was, and never goes below it. -/
theorem EmitsValue.moves {e : Expr} {c : Code} :
    EmitsValue a frame e c → (∀ x ∈ e.nodes, x.FewArguments) → Moves c 0 0
  | .number, _ | .string _, _ | .decay _, _ => moves_quiet rfl
  | .var _ _, _ => by
    split <;> exact moves_quiet rfl
  | .read, _ => by
    have hroom : Moves (code [.op .sub (.imm 8) .rsp]) 0 8 :=
      moves_instr (fun h => rfl) rfl (by decide) (by decide)
    have hready : Moves (code [move .rsp .rsi, .lea (.label .readFormat) .rdi]) 0 0 :=
      moves_quiet rfl
    have hbefore := hroom.append hready (le_refl 0) (by decide) rfl
    have hread := hbefore.append (moves_libraryCall .scanf) (le_refl 0) (by decide) rfl
    exact hread.append (moves_pop (r := .rax) (by decide)) (le_refl 0) (by decide) rfl
  | .assign ht hv, he => by
    rw [Expr.nodes, List.forall_mem_cons, List.forall_mem_append] at he
    have hstore : Moves (code [.pop .rcx, .mov (.reg .rax) (.mem (.direct .rcx))]) (-8) (-8) :=
      moves_popThen (by decide) rfl
    exact ((ht.moves he.2.1).keep (hv.moves he.2.2)).append hstore (le_refl 0) (by decide) rfl
  | .binary hl hr, he => by
    rw [Expr.nodes, List.forall_mem_cons, List.forall_mem_append] at he
    have hmoved : Moves (code [move .rax .rcx]) 0 0 := moves_quiet rfl
    have hready : Moves (code [move .rax .rcx, .pop .rax]) (-8) (-8) :=
      hmoved.append (moves_pop (by decide)) (by decide) (le_refl _) rfl
    have hboth :=
      ((hl.moves he.2.1).keep (hr.moves he.2.2)).append hready (le_refl 0) (by decide) rfl
    exact hboth.append (moves_combine _) (le_refl 0) (by decide) rfl
  | .neg h, he | .deref h, he => by
    rw [Expr.nodes, List.forall_mem_cons] at he
    exact (h.moves he.2).append (moves_quiet rfl) (le_refl 0) (by decide) rfl
  | .address h, he => by
    rw [Expr.nodes, List.forall_mem_cons] at he
    exact h.moves he.2
  | .index h, he => (h.moves he).append (moves_quiet rfl) (le_refl 0) (by decide) rfl
  | .call (x := x) h, he => by
    rw [Expr.nodes, List.forall_mem_cons] at he
    rw [code, List.map_append, ← List.append_assoc]
    have hcalled := (h.moves he.2).append (moves_call (.function x)) (le_refl 0) (by omega) rfl
    exact hcalled.append (moves_drop he.1) (le_refl 0) (by omega) (by omega)

theorem EmitsAddress.moves {e : Expr} {c : Code} :
    EmitsAddress a frame e c → (∀ x ∈ e.nodes, x.FewArguments) → Moves c 0 0
  | .var _, _ => moves_quiet rfl
  | .deref h, he => by
    rw [Expr.nodes, List.forall_mem_cons] at he
    exact h.moves he.2
  | .index hi _ hc hb, he => by
    rw [Expr.nodes, List.forall_mem_cons, List.forall_mem_append] at he
    have hchecked := (hi.moves he.2.2).append hc.moves (le_refl 0) (by decide) rfl
    have hend : Moves (code [.pop .rcx, .lea (.element .rax .rcx) .rax]) (-8) (-8) :=
      moves_popThen (by decide) rfl
    exact (hchecked.keep (hb.moves he.2.1)).append hend (le_refl 0) (by decide) rfl

theorem EmitsArguments.moves {es : List Expr} {c : Code} :
    EmitsArguments a frame es c → (∀ x ∈ Expr.nodesOfList es, x.FewArguments) →
      Moves c 0 (8 * es.length)
  | .nil, _ => moves_nil
  | .cons h hs, he => by
    rw [Expr.nodesOfList, List.forall_mem_append] at he
    have hkept := (h.moves he.1).append moves_keep (le_refl 0)
      (by decide) rfl
    refine hkept.append (hs.moves he.2) (le_refl 0) (by decide) ?_
    rw [List.length_cons]
    push_cast
    ring

end

end Lowering

end Bpl
