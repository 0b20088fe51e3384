import Bpl.Proofs.Stack.Balance

namespace Bpl

namespace Stack

open Asm Lowering

/-- Line `i` belongs to code that leaves the function. -/
def Leaves (frame : Frame) (ls : Code) (i : Nat) : Prop :=
  ∃ k, epilogue frame <+: ls.drop k ∧ k ≤ i ∧ i < k + (epilogue frame).length

/-- Code between two boundaries of statements. It begins, ends and is joined at the height of a
frame without any value on top, and goes below it only to leave the function. -/
structure Levelled (frame : Frame) (ls : Code) : Prop where
  level : level frame.size frame.size ls = frame.size
  joint : ∀ i x, ls[i]? = some x → isJoint x = true →
    Stack.level frame.size frame.size (ls.take i) = frame.size
  floor : ∀ i < ls.length,
    frame.size ≤ Stack.level frame.size frame.size (ls.take i) ∨ Leaves frame ls i
  ret : ∀ i, ls[i]? = some (.instr .ret) → epilogue frame <:+ ls.take (i + 1)
  target : ∀ x l, .instr x ∈ ls → isJoint (.instr x) = true → x.target? = some l →
    ∃ n, l = .numbered n

variable {frame : Frame} {ls d : Code} {i : Nat}

theorem Leaves.append_right (h : Leaves frame ls i) : Leaves frame (ls ++ d) i := by
  obtain ⟨k, hk, hki, hik⟩ := h
  have hlen := hk.length_le
  rw [List.length_drop] at hlen
  refine ⟨k, ?_, hki, hik⟩
  rw [List.drop_append_of_le_length (by omega)]
  exact hk.trans (List.prefix_append _ _)

theorem Leaves.append_left (h : Leaves frame d i) : Leaves frame (ls ++ d) (ls.length + i) := by
  obtain ⟨k, hk, hki, hik⟩ := h
  refine ⟨ls.length + k, ?_, by omega, by omega⟩
  rw [← List.drop_drop, List.drop_left]
  exact hk

theorem Levelled.append (hc : Levelled frame ls) (hd : Levelled frame d) :
    Levelled frame (ls ++ d) where
  level := by rw [level_append, hc.level, hd.level]
  joint := by
    intro i x hx hj
    rcases Nat.lt_or_ge i ls.length with hi | hi
    · rw [List.getElem?_append_left hi] at hx
      rw [List.take_append_of_le_length hi.le]
      exact hc.joint i x hx hj
    · rw [List.getElem?_append_right hi] at hx
      rw [List.take_append, List.take_of_length_le hi, level_append, hc.level]
      exact hd.joint _ x hx hj
  floor := by
    intro i hi
    rcases Nat.lt_or_ge i ls.length with hlt | hge
    · rw [List.take_append_of_le_length hlt.le]
      exact (hc.floor i hlt).imp_right Leaves.append_right
    · rw [List.length_append] at hi
      rw [List.take_append, List.take_of_length_le hge, level_append, hc.level]
      refine (hd.floor (i - ls.length) (by omega)).imp_right fun h => ?_
      rw [← Nat.add_sub_cancel' hge]
      exact h.append_left
  ret := by
    intro i hx
    rcases Nat.lt_or_ge i ls.length with hi | hi
    · rw [List.getElem?_append_left hi] at hx
      rw [List.take_append_of_le_length hi]
      exact hc.ret i hx
    · rw [List.getElem?_append_right hi] at hx
      rw [List.take_append, List.take_of_length_le (by omega), Nat.sub_add_comm hi]
      exact (hd.ret _ hx).trans (List.suffix_append _ _)
  target := by
    intro x l hx
    exact (List.mem_append.1 hx).elim (hc.target x l) (hd.target x l)

theorem levelled_nil : Levelled frame [] := by
  constructor <;> simp [level_nil]

theorem Moves.levelled (h : Moves ls 0 0) : Levelled frame ls where
  level := by rw [h.level, Int.add_zero]
  joint := by
    intro i x hx hj
    rw [(h.straight x (List.mem_of_getElem? hx)).1] at hj
    cases hj
  floor := by
    intro i _
    have := h.floor frame.size frame.size (ls.take i) (List.take_prefix i ls)
    exact .inl (by omega)
  ret := fun i hx => absurd rfl (h.straight _ (List.mem_of_getElem? hx)).2
  target := by
    intro x l hx hj
    rw [(h.straight _ hx).1] at hj
    cases hj

/-- A line that is not a return and leaves the height as it was. -/
theorem levelled_line {x : Line} (hx : after frame.size frame.size x = frame.size)
    (hr : x ≠ .instr .ret)
    (hl : ∀ y l, x = .instr y → y.target? = some l → ∃ n, l = .numbered n) :
    Levelled frame [x] where
  level := hx
  joint := by
    intro i y hy _
    cases i with
    | zero => exact level_nil
    | succ i => cases hy
  floor := by
    intro i hi
    rw [Nat.lt_one_iff.1 hi]
    exact .inl (le_refl _)
  ret := by
    intro i hy
    cases i with
    | zero => exact absurd (Option.some.inj hy) hr
    | succ i => cases hy
  target := fun y l hy _ => hl y l (List.mem_singleton.1 hy).symm

theorem levelled_label (l : Label) : Levelled frame [.label l] := by
  refine levelled_line rfl nofun ?_
  rintro _ _ ⟨⟩

theorem levelled_jmp (n : Nat) : Levelled frame (code [.jmp (.numbered n)]) := by
  refine levelled_line rfl nofun ?_
  rintro _ l ⟨⟩ ⟨⟩
  exact ⟨n, rfl⟩

theorem levelled_unlessTrue (n : Nat) : Levelled frame (unlessTrue n) := by
  have hcompared : Moves (code [.op .cmp (.imm 0) .rax]) 0 0 := moves_quiet rfl
  refine hcompared.levelled.append (levelled_line rfl nofun ?_)
  rintro _ l ⟨⟩ ⟨⟩
  exact ⟨n, rfl⟩

theorem isJoint_of_mem_epilogue {x : Line} (hx : x ∈ epilogue frame) : isJoint x = false := by
  revert x
  unfold epilogue
  split <;> simp [code, isJoint, move]

/-- Code that leaves a function. What follows it is entered by jumps only. -/
theorem levelled_epilogue : Levelled frame (epilogue frame) where
  level := by
    unfold epilogue
    split <;> rfl
  joint := by
    intro i x hx hj
    rw [isJoint_of_mem_epilogue (List.mem_of_getElem? hx)] at hj
    cases hj
  floor := by
    intro i hi
    exact .inr ⟨0, List.prefix_refl _, Nat.zero_le i, by omega⟩
  ret := by
    intro i hx
    suffices h : (epilogue frame).length ≤ i + 1 by
      rw [List.take_of_length_le h]
    revert hx
    unfold epilogue
    split
    · rcases i with _ | _ | _ | i <;> simp [code, move]
    · rcases i with _ | i
      · simp [code, move]
      · simp [code]
  target := by
    intro x l hx hj
    rw [isJoint_of_mem_epilogue hx] at hj
    cases hj

end Stack

namespace Lowering

open Asm Stack

variable {a : Assembly} {frame : Frame}

mutual

theorem EmitsStmt.levelled {s : Stmt} {ls : Code} :
    EmitsStmt a frame s ls → (∀ e ∈ s.exprs, ∀ x ∈ e.nodes, x.FewArguments) → Levelled frame ls
  | .compound h, hs => h.levelled hs
  | .ifThen he hy, hs => by
    rw [Stmt.exprs, List.forall_mem_cons] at hs
    have hc : Levelled frame _ := (he.moves hs.1).levelled
    have hd := hy.levelled hs.2
    exact ((hc.append (levelled_unlessTrue _)).append hd).append (levelled_label _)
  | .ifElse he hy hn, hs => by
    rw [Stmt.exprs, List.forall_mem_cons, List.forall_mem_append] at hs
    have hc : Levelled frame _ := (he.moves hs.1).levelled
    have hd := hy.levelled hs.2.1
    have hd' := hn.levelled hs.2.2
    refine Levelled.append ?_ (levelled_label _)
    refine Levelled.append (Levelled.append ?_ (levelled_label _)) hd'
    exact ((hc.append (levelled_unlessTrue _)).append hd).append (levelled_jmp _)
  | .whileDo he hb, hs => by
    rw [Stmt.exprs, List.forall_mem_cons] at hs
    have hc : Levelled frame _ := (he.moves hs.1).levelled
    have hd := hb.levelled hs.2
    refine Levelled.append (Levelled.append ?_ (levelled_jmp _)) (levelled_label _)
    exact (((levelled_label _).append hc).append (levelled_unlessTrue _)).append hd
  | .retNone, _ => levelled_epilogue
  | .retSome h, hs => (h.moves (hs _ (by simp [Stmt.exprs]))).levelled.append levelled_epilogue
  | .expr h, hs => (h.moves (hs _ (by simp [Stmt.exprs]))).levelled
  | .write h _, hs => by
    have hv : Levelled frame _ := (h.moves (hs _ (by simp [Stmt.exprs]))).levelled
    exact (hv.append (moves_quiet rfl).levelled).append (moves_libraryCall .printf).levelled
  | .writeln, _ => (moves_quiet rfl).levelled.append (moves_libraryCall .printf).levelled

theorem EmitsBlock.levelled {b : Bpl.Block} {ls : Code} :
    EmitsBlock a frame b ls → (∀ e ∈ b.exprs, ∀ x ∈ e.nodes, x.FewArguments) → Levelled frame ls
  | .mk h, hs => h.levelled hs

theorem EmitsStmts.levelled {ss : List Stmt} {ls : Code} :
    EmitsStmts a frame ss ls → (∀ e ∈ Stmt.exprsOfList ss, ∀ x ∈ e.nodes, x.FewArguments) →
      Levelled frame ls
  | .nil, _ => levelled_nil
  | .cons h hss, hs => by
    rw [Stmt.exprsOfList, List.forall_mem_append] at hs
    exact (h.levelled hs.1).append (hss.levelled hs.2)

end

end Lowering

end Bpl
