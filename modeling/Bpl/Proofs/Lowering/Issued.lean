import Bpl.Proofs.Lowering.Labels

namespace Bpl

namespace Asm

def Operand.address? : Operand → Option Address
  | .mem a => some a
  | .imm _ | .reg _ => none

/-- The places in memory that an instruction reads, writes or takes the address of. -/
def Instr.addresses : Instr → List Address
  | .mov src dst => src.address?.toList ++ dst.address?.toList
  | .lea src _ => [src]
  | .push src | .op _ src _ => src.address?.toList
  | .mov32 .. | .pop _ | .neg _ | .clear _ | .cqto | .idiv _ | .set _ | .widen | .call _
  | .callRoutine _ | .jmp _ | .je _ | .jae _ | .ret => []

/-- Places where variables are stored. -/
def Address.isStorage : Address → Bool
  | .label (.global _) | .offset _ .rbp => true
  | .label _ | .offset .. | .direct _ | .element .. => false

/-- Instructions that mention no variable, and of which no number is the size of something. -/
def Instr.isFixed : Instr → Bool
  | .mov (.imm _) (.reg .rcx) => false
  | .op .sub (.imm bytes) .rsp => bytes == 8
  | i => i.addresses.all (!·.isStorage)

end Asm

namespace Lowering

open Asm

/-- What an instruction of a function is issued for, if it is no fixed one: a use of a variable, the
length of an array that is indexed, or the size of the frame. -/
inductive Issued (frame : Frame) (xs : List Expr) : Instr → Prop
  | fixed {i : Instr} : i.isFixed = true → Issued frame xs i
  | value {n : Note} {x : String} {slot : Slot} {ty : Ty} {place : Address} :
      .var n x slot ∈ xs → n.ty = some ty → ty.isArray = false →
        storage? frame x slot = some place → Issued frame xs (load place .rax)
  | address {n : Note} {x : String} {slot : Slot} {place : Address} :
      .var n x slot ∈ xs ∨ .decay n x slot ∈ xs → storage? frame x slot = some place →
        Issued frame xs (.lea place .rax)
  | length {n : Note} {base i : Expr} {element : Ty} {length : UInt64} :
      .index n base i ∈ xs → base.ty? = some (.array element length) →
        Issued frame xs (loadImm length.toInt64 .rcx)
  | size : frame.size ≠ 0 → Issued frame xs (.op .sub (.imm (Int64.ofNat frame.size)) .rsp)

variable {a : Assembly} {frame : Frame} {xs : List Expr}

theorem every_issued_code {is : List Instr} (h : ∀ i ∈ is, i.isFixed = true) :
    Every (Issued frame xs) (code is) :=
  every_code.2 fun i hi => .fixed (h i hi)

theorem every_issued_combine (op : BinaryOp) : Every (Issued frame xs) (combine op) := by
  cases op <;> exact every_issued_code (by decide)

theorem every_issued_libraryCall (r : Routine) : Every (Issued frame xs) (libraryCall r) := by
  cases r <;> exact every_issued_code (by decide)

theorem every_issued_unlessTrue (n : Nat) : Every (Issued frame xs) (unlessTrue n) :=
  every_issued_code (by simp [Instr.isFixed, Instr.addresses, Operand.address?])

theorem every_issued_epilogue : Every (Issued frame xs) (epilogue frame) := by
  unfold epilogue
  split <;> exact every_issued_code (by decide)

theorem every_issued_prologue : Every (Issued frame xs) (prologue frame) := by
  have hmove : Issued frame xs (move .rsp .rbp) := .fixed rfl
  have hpush : Issued frame xs (.push (.reg .rbp)) := .fixed rfl
  rw [prologue, every_code]
  by_cases hm : frame.isMain <;> by_cases hs : frame.size = 0 <;>
    simp [hm, hs, hmove, hpush, Issued.size]

/-- The check of an index is issued for the length of the array. -/
theorem Checks.issued {n : Note} {base i : Expr} {ty : Ty} {c : Code} (h : Checks a ty c)
    (ht : base.ty? = some ty) (hx : .index n base i ∈ xs) : Every (Issued frame xs) c := by
  cases h with
  | array _ =>
    rw [every_code, List.forall_mem_cons]
    exact ⟨.length hx ht, every_code.1 (every_issued_code
      (by simp [Instr.isFixed, Instr.addresses, Operand.address?]))⟩
  | other _ => simp [Every]

mutual

/-- All instructions for an expression are issued for its parts. -/
theorem EmitsValue.issued {e : Expr} {c : Code} :
    EmitsValue a frame e c → e.nodes ⊆ xs → Every (Issued frame xs) c
  | .number, _ | .string _, _ => every_issued_code (by
    simp [Instr.isFixed, Instr.addresses, Operand.address?, Address.isStorage, loadImm])
  | .read, _ => every_append.2 ⟨every_append.2
    ⟨every_issued_code (by decide), every_issued_libraryCall _⟩, every_issued_code (by decide)⟩
  | .var ht hp, he => by
    have hx := he (Expr.mem_nodes_self _)
    rw [every_code, List.forall_mem_singleton]
    split
    · exact .address (.inl hx) hp
    · next hn => exact .value hx ht (Bool.eq_false_of_not_eq_true hn) hp
  | .decay hp, he => by
    rw [every_code, List.forall_mem_singleton]
    exact .address (.inr (he (Expr.mem_nodes_self _))) hp
  | .assign ht hv, he => by
    rw [Expr.nodes, List.cons_subset, List.append_subset] at he
    simp only [every_append]
    exact ⟨⟨⟨ht.issued he.2.1, every_issued_code (by decide)⟩, hv.issued he.2.2⟩,
      every_issued_code (by decide)⟩
  | .binary hl hr, he => by
    rw [Expr.nodes, List.cons_subset, List.append_subset] at he
    simp only [every_append]
    exact ⟨⟨⟨⟨hl.issued he.2.1, every_issued_code (by decide)⟩, hr.issued he.2.2⟩,
      every_issued_code (by decide)⟩, every_issued_combine _⟩
  | .neg h, he => by
    rw [Expr.nodes, List.cons_subset] at he
    exact every_append.2 ⟨h.issued he.2, every_issued_code (by decide)⟩
  | .address h, he => by
    rw [Expr.nodes, List.cons_subset] at he
    exact h.issued he.2
  | .deref h, he => by
    rw [Expr.nodes, List.cons_subset] at he
    exact every_append.2 ⟨h.issued he.2, every_issued_code (by decide)⟩
  | .index h, he => every_append.2 ⟨h.issued he, every_issued_code (by decide)⟩
  | .call h, he => by
    rw [Expr.nodes, List.cons_subset] at he
    refine every_append.2 ⟨h.issued he.2, every_issued_code ?_⟩
    split <;> simp [Instr.isFixed, Instr.addresses, Operand.address?]

theorem EmitsAddress.issued {e : Expr} {c : Code} :
    EmitsAddress a frame e c → e.nodes ⊆ xs → Every (Issued frame xs) c
  | .var hp, he => by
    rw [every_code, List.forall_mem_singleton]
    exact .address (.inl (he (Expr.mem_nodes_self _))) hp
  | .deref h, he => by
    rw [Expr.nodes, List.cons_subset] at he
    exact h.issued he.2
  | .index hi ht hc hb, he => by
    rw [Expr.nodes, List.cons_subset, List.append_subset] at he
    simp only [every_append]
    exact ⟨⟨⟨⟨hi.issued he.2.2, hc.issued ht he.1⟩, every_issued_code (by decide)⟩,
      hb.issued he.2.1⟩, every_issued_code (by decide)⟩

theorem EmitsArguments.issued {es : List Expr} {c : Code} :
    EmitsArguments a frame es c → Expr.nodesOfList es ⊆ xs → Every (Issued frame xs) c
  | .nil, _ => by simp [Every]
  | .cons h hs, he => by
    rw [Expr.nodesOfList, List.append_subset] at he
    simp only [every_append]
    exact ⟨⟨h.issued he.1, every_issued_code (by decide)⟩, hs.issued he.2⟩

end

mutual

theorem EmitsStmt.issued {s : Stmt} {c : Code} :
    EmitsStmt a frame s c → (∀ e ∈ s.exprs, e.nodes ⊆ xs) → Every (Issued frame xs) c
  | .compound h, hs => h.issued hs
  | .ifThen he hy, hs => by
    rw [Stmt.exprs, List.forall_mem_cons] at hs
    simp only [every_append, every_label, and_true]
    exact ⟨⟨he.issued hs.1, every_issued_unlessTrue _⟩, hy.issued hs.2⟩
  | .ifElse he hy hn, hs => by
    rw [Stmt.exprs, List.forall_mem_cons, List.forall_mem_append] at hs
    simp only [every_append, every_label, and_true]
    exact ⟨⟨⟨⟨he.issued hs.1, every_issued_unlessTrue _⟩, hy.issued hs.2.1⟩,
      every_issued_code (by simp [Instr.isFixed, Instr.addresses])⟩, hn.issued hs.2.2⟩
  | .whileDo he hb, hs => by
    rw [Stmt.exprs, List.forall_mem_cons] at hs
    simp only [every_append, every_label, and_true, true_and]
    exact ⟨⟨⟨he.issued hs.1, every_issued_unlessTrue _⟩, hb.issued hs.2⟩,
      every_issued_code (by simp [Instr.isFixed, Instr.addresses])⟩
  | .retNone, _ => every_issued_epilogue
  | .retSome h, hs =>
    every_append.2 ⟨h.issued (hs _ (List.mem_singleton_self _)), every_issued_epilogue⟩
  | .expr h, hs => h.issued (hs _ (List.mem_singleton_self _))
  | .write h _, hs => by
    have hformat : ∀ ty, (Address.label (formatOf ty)).isStorage = false := by
      intro ty
      cases ty <;> rfl
    simp only [every_append]
    refine ⟨⟨h.issued (hs _ (List.mem_singleton_self _)), every_issued_code ?_⟩,
      every_issued_libraryCall _⟩
    simp [Instr.isFixed, Instr.addresses, Operand.address?, move, hformat]
  | .writeln, _ => every_append.2 ⟨every_issued_code (by decide), every_issued_libraryCall _⟩

theorem EmitsBlock.issued {b : Bpl.Block} {c : Code} :
    EmitsBlock a frame b c → (∀ e ∈ b.exprs, e.nodes ⊆ xs) → Every (Issued frame xs) c
  | .mk h, hs => h.issued hs

theorem EmitsStmts.issued {ss : List Stmt} {c : Code} :
    EmitsStmts a frame ss c → (∀ e ∈ Stmt.exprsOfList ss, e.nodes ⊆ xs) →
      Every (Issued frame xs) c
  | .nil, _ => by simp [Every]
  | .cons h hss, hs => by
    rw [Stmt.exprsOfList, List.forall_mem_append] at hs
    exact every_append.2 ⟨h.issued hs.1, hss.issued hs.2⟩

end

/-- The instructions of a function are issued for the parts of its expressions and for its
frame. -/
theorem EmitsFunction.issued {f : Function} {c : Code} (h : EmitsFunction a f c) :
    Every (Issued (Frame.layout f) (f.body.exprs.flatMap Expr.nodes)) c := by
  cases h with
  | mk hb =>
    simp only [every_append, every_label, true_and]
    refine ⟨⟨every_issued_prologue, hb.issued fun e he x hx => ?_⟩, every_issued_epilogue⟩
    exact List.mem_flatMap.2 ⟨e, he, hx⟩

end Lowering

end Bpl
