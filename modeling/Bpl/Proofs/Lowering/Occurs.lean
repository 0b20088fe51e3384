import Bpl.Proofs.Lowering.Placed
import Bpl.Proofs.Tree.Nodes

namespace Bpl.Lowering

open Asm

variable {a : Assembly} {frame : Frame} {ls : Code}

/-- The code of an expression stands somewhere in the code `ls`, for its value or for its
address. -/
def Occurs (a : Assembly) (frame : Frame) (ls : Code) (x : Expr) : Prop :=
  ∃ k c, c <+: ls.drop k ∧ (EmitsValue a frame x c ∨ EmitsAddress a frame x c)

mutual

/-- Where the code of an expression stands, the code of everything in it does. -/
theorem EmitsValue.occurs {e x : Expr} {c : Code} {k : Nat} (h : EmitsValue a frame e c)
    (hc : c <+: ls.drop k) (hx : x ∈ e.nodes) : Occurs a frame ls x := by
  have hself : Occurs a frame ls e := ⟨k, c, hc, .inl h⟩
  match h with
  | .number | .string _ | .read | .var _ _ | .decay _ =>
    cases List.mem_singleton.1 hx
    exact hself
  | .assign ht hv =>
    rcases List.mem_cons.1 hx with rfl | hx
    · exact hself
    · repeat rw [List.append_prefix_drop] at hc
      rcases List.mem_append.1 hx with hx | hx
      · exact ht.occurs hc.1.1.1 hx
      · exact hv.occurs hc.1.2 hx
  | .binary hl hr =>
    rcases List.mem_cons.1 hx with rfl | hx
    · exact hself
    · repeat rw [List.append_prefix_drop] at hc
      rcases List.mem_append.1 hx with hx | hx
      · exact hl.occurs hc.1.1.1.1 hx
      · exact hr.occurs hc.1.1.2 hx
  | .neg he | .deref he =>
    rcases List.mem_cons.1 hx with rfl | hx
    · exact hself
    · exact he.occurs (List.append_prefix_drop.1 hc).1 hx
  | .address he =>
    rcases List.mem_cons.1 hx with rfl | hx
    · exact hself
    · exact he.occurs hc hx
  | .index he => exact he.occurs (List.append_prefix_drop.1 hc).1 hx
  | .call hs =>
    rcases List.mem_cons.1 hx with rfl | hx
    · exact hself
    · exact hs.occurs (List.append_prefix_drop.1 hc).1 hx

theorem EmitsAddress.occurs {e x : Expr} {c : Code} {k : Nat} (h : EmitsAddress a frame e c)
    (hc : c <+: ls.drop k) (hx : x ∈ e.nodes) : Occurs a frame ls x := by
  have hself : Occurs a frame ls e := ⟨k, c, hc, .inr h⟩
  match h with
  | .var _ =>
    cases List.mem_singleton.1 hx
    exact hself
  | .deref he =>
    rcases List.mem_cons.1 hx with rfl | hx
    · exact hself
    · exact he.occurs hc hx
  | .index hi _ _ hb =>
    rcases List.mem_cons.1 hx with rfl | hx
    · exact hself
    · repeat rw [List.append_prefix_drop] at hc
      rcases List.mem_append.1 hx with hx | hx
      · exact hb.occurs hc.1.2 hx
      · exact hi.occurs hc.1.1.1.1 hx

theorem EmitsArguments.occurs {es : List Expr} {x : Expr} {c : Code} {k : Nat}
    (h : EmitsArguments a frame es c) (hc : c <+: ls.drop k) (hx : x ∈ Expr.nodesOfList es) :
    Occurs a frame ls x := by
  match h with
  | .nil => cases hx
  | .cons he hs =>
    repeat rw [List.append_prefix_drop] at hc
    rcases List.mem_append.1 hx with hx | hx
    · exact he.occurs hc.1.1 hx
    · exact hs.occurs hc.2 hx

end

mutual

theorem EmitsStmt.occurs {s : Stmt} {e x : Expr} {c : Code} {k : Nat} (h : EmitsStmt a frame s c)
    (hc : c <+: ls.drop k) (he : e ∈ s.exprs) (hx : x ∈ e.nodes) : Occurs a frame ls x := by
  match h with
  | .compound h => exact h.occurs hc he hx
  | .ifThen hv hy =>
    repeat rw [List.append_prefix_drop] at hc
    rcases List.mem_cons.1 he with rfl | he
    · exact hv.occurs hc.1.1.1 hx
    · exact hy.occurs hc.1.2 he hx
  | .ifElse hv hy hn =>
    repeat rw [List.append_prefix_drop] at hc
    rcases List.mem_cons.1 he with rfl | he
    · exact hv.occurs hc.1.1.1.1.1.1 hx
    · rcases List.mem_append.1 he with he | he
      · exact hy.occurs hc.1.1.1.1.2 he hx
      · exact hn.occurs hc.1.2 he hx
  | .whileDo hv hb =>
    repeat rw [List.append_prefix_drop] at hc
    rcases List.mem_cons.1 he with rfl | he
    · exact hv.occurs hc.1.1.1.1.2 hx
    · exact hb.occurs hc.1.1.2 he hx
  | .retNone | .writeln => cases he
  | .retSome hv =>
    cases List.mem_singleton.1 he
    exact hv.occurs (List.append_prefix_drop.1 hc).1 hx
  | .expr hv =>
    cases List.mem_singleton.1 he
    exact hv.occurs hc hx
  | .write hv _ =>
    repeat rw [List.append_prefix_drop] at hc
    cases List.mem_singleton.1 he
    exact hv.occurs hc.1.1 hx

theorem EmitsBlock.occurs {b : Block} {e x : Expr} {c : Code} {k : Nat}
    (h : EmitsBlock a frame b c) (hc : c <+: ls.drop k) (he : e ∈ b.exprs) (hx : x ∈ e.nodes) :
    Occurs a frame ls x := by
  match h with
  | .mk h => exact h.occurs hc he hx

theorem EmitsStmts.occurs {ss : List Stmt} {e x : Expr} {c : Code} {k : Nat}
    (h : EmitsStmts a frame ss c) (hc : c <+: ls.drop k) (he : e ∈ Stmt.exprsOfList ss)
    (hx : x ∈ e.nodes) : Occurs a frame ls x := by
  match h with
  | .nil => cases he
  | .cons h hs =>
    rw [List.append_prefix_drop] at hc
    rcases List.mem_append.1 he with he | he
    · exact h.occurs hc.1 he hx
    · exact hs.occurs hc.2 he hx

end

/-- Everything in the body of a function has its code in the program. -/
theorem EmitsFunction.occurs {f : Function} {e x : Expr} {c : Code} {k : Nat}
    (h : EmitsFunction a f c) (hc : c <+: ls.drop k) (he : e ∈ f.body.exprs) (hx : x ∈ e.nodes) :
    Occurs a (Frame.layout f) ls x := by
  cases h with
  | mk hb =>
    repeat rw [List.append_prefix_drop] at hc
    exact hb.occurs hc.1.2 he hx

/-- The value of an lvalue that is no variable is loaded from its address. -/
theorem emitsValue_index_iff {n : Note} {base i : Expr} {c : Code} :
    EmitsValue a frame (.index n base i) c ↔
      ∃ d, EmitsAddress a frame (.index n base i) d ∧ c = d ++ code [load (.direct .rax) .rax] := by
  constructor
  · intro h
    cases h with
    | index h => exact ⟨_, h, rfl⟩
  · rintro ⟨d, h, rfl⟩
    exact .index h

theorem emitsValue_deref_iff {n : Note} {e : Expr} {c : Code} :
    EmitsValue a frame (.unary n .deref e) c ↔
      ∃ d, EmitsAddress a frame (.unary n .deref e) d ∧
        c = d ++ code [load (.direct .rax) .rax] := by
  constructor
  · intro h
    cases h with
    | deref h => exact ⟨_, .deref h, rfl⟩
  · rintro ⟨d, h, rfl⟩
    cases h with
    | deref h => exact .deref h

/-- The value of an address is the address. -/
theorem emitsValue_address_iff {n : Note} {e : Expr} {c : Code} :
    EmitsValue a frame (.unary n .address e) c ↔ EmitsAddress a frame e c := by
  constructor
  · intro h
    cases h with
    | address h => exact h
  · exact .address

/-- One argument in the code of all: those before it are pushed first. -/
theorem EmitsArguments.split {es : List Expr} {e : Expr} {c : Code} {k : Nat}
    (h : EmitsArguments a frame es c) (he : es[k]? = some e) :
    ∃ before own after, EmitsArguments a frame (es.take k) before ∧ EmitsValue a frame e own ∧
      EmitsArguments a frame (es.drop (k + 1)) after ∧
        c = before ++ own ++ code [.push (.reg .rax)] ++ after := by
  induction es generalizing c k with
  | nil => cases he
  | cons e' es ih =>
    cases h with
    | cons hv hs =>
      cases k with
      | zero =>
        cases he
        exact ⟨[], _, _, .nil, hv, hs, rfl⟩
      | succ k =>
        obtain ⟨before, own, after, hb, ho, ha, rfl⟩ := ih hs he
        exact ⟨_, own, after, .cons hv hb, ho, ha, by simp⟩

end Bpl.Lowering
