import Bpl.Proofs.Printing.Printer

namespace Bpl

open Parsing (Level comparisons)

/-- How tightly the operators of a level hold their operands together. -/
def Parsing.Level.strength : Level → Nat
  | .sum => 2
  | .product => 3

theorem BinaryOp.strength_of_mem_comparisons {op : BinaryOp} (h : op ∈ comparisons) :
    op.strength = 1 ∧ op.leftStrength = 2 := by
  revert h op
  decide

theorem BinaryOp.strength_of_mem_ops {level : Level} {op : BinaryOp} (h : op ∈ level.ops) :
    op.strength = level.strength ∧ op.leftStrength = level.strength := by
  cases level <;> revert op <;> decide

/-- The tokens of an expression that has to hold together at least as tightly as `least`. -/
def Expr.spellingAt (least : Nat) (e : Expr) : List Token :=
  e.guarded least e.spelling

namespace Expr

theorem guarded_of_le {least : Nat} {e : Expr} (h : least ≤ e.strength) (us : List Token) :
    e.guarded least us = us :=
  if_neg (Nat.not_lt.2 h)

theorem spellingAt_of_le {least : Nat} {e : Expr} (h : least ≤ e.strength) :
    e.spellingAt least = e.spelling :=
  guarded_of_le h _

theorem length_spellingAt_le (least : Nat) (e : Expr) :
    (e.spellingAt least).length ≤ e.spelling.length + 2 := by
  rw [spellingAt, guarded]
  split
  · simp
  · exact Nat.le_add_right _ _

/-- The more tightly an expression has to hold together, the longer it is. -/
theorem length_spellingAt_mono {m n : Nat} (e : Expr) (h : m ≤ n) :
    (e.spellingAt m).length ≤ (e.spellingAt n).length := by
  by_cases hn : n ≤ e.strength
  · rw [spellingAt_of_le hn, spellingAt_of_le (h.trans hn)]
  · have hguard : (e.spellingAt n).length = e.spelling.length + 2 := by
      rw [spellingAt, guarded, if_pos (Nat.lt_of_not_le hn)]
      simp
    rw [hguard]
    exact length_spellingAt_le m e

end Expr

theorem Ty.length_spelling_of_isBase {ty : Ty} (h : ty.isBase = true) :
    ty.spelling.length = 1 := by
  cases ty with
  | int | string | void => rfl
  | _ => cases h

namespace Grammar

mutual

theorem Assignment.length_spelling_le {us : List Token} {e : Expr} :
    Assignment us e → e.spelling.length ≤ us.length
  | .comparison h => by
    have hmono := e.length_spellingAt_mono (Nat.zero_le 1)
    rw [Expr.spellingAt_of_le (Nat.zero_le _)] at hmono
    exact hmono.trans h.length_spelling_le
  | @Assignment.assign _ _ _ target value h₁ _ h₂ => by
    have htarget := h₁.length_spelling_le
    have hvalue := h₂.length_spelling_le
    rw [Expr.spellingAt] at htarget
    simp only [Expr.spelling, List.length_append, List.length_cons]
    omega

theorem Comparison.length_spelling_le {us : List Token} {e : Expr} :
    Comparison us e → (e.spellingAt 1).length ≤ us.length
  | .sum h => (e.length_spellingAt_mono (by decide)).trans h.length_spelling_le
  | @Comparison.compare _ _ _ op left right h₁ hop _ h₂ => by
    obtain ⟨hs, hl⟩ := BinaryOp.strength_of_mem_comparisons hop
    have hleft := h₁.length_spelling_le
    have hright := h₂.length_spelling_le
    rw [Expr.spellingAt_of_le hs.ge, Expr.spelling, hs, hl]
    rw [Expr.spellingAt] at hleft hright
    simp only [List.length_append, List.length_cons]
    exact Nat.add_le_add hleft (Nat.succ_le_succ hright)

theorem Chain.length_spelling_le {level : Level} {us : List Token} {e : Expr} :
    Chain level us e → (e.spellingAt level.strength).length ≤ us.length
  | .operand h => (e.length_spellingAt_mono (Nat.le_succ _)).trans h.length_spelling_le
  | @Chain.more _ _ _ _ op left right h₁ hop _ h₂ => by
    obtain ⟨hs, hl⟩ := BinaryOp.strength_of_mem_ops hop
    have hleft := h₁.length_spelling_le
    have hright := h₂.length_spelling_le
    rw [Expr.spellingAt_of_le hs.ge, Expr.spelling, hs, hl]
    rw [Expr.spellingAt] at hleft hright
    simp only [List.length_append, List.length_cons]
    exact Nat.add_le_add hleft (Nat.succ_le_succ hright)

theorem Operand.length_spelling_le {level : Level} {us : List Token} {e : Expr} :
    Operand level us e → (e.spellingAt (level.strength + 1)).length ≤ us.length
  | .product h => h.length_spelling_le
  | .signed h => h.length_spelling_le

theorem Signed.length_spelling_le {us : List Token} {e : Expr} :
    Signed us e → (e.spellingAt 4).length ≤ us.length
  | .factor h => (e.length_spellingAt_mono (by decide)).trans h.length_spelling_le
  | .sign _ h => Nat.succ_le_succ h.length_spelling_le

theorem Factor.length_spelling_le {us : List Token} {e : Expr} :
    Factor us e → (e.spellingAt 5).length ≤ us.length
  | .parentheses _ h _ => by
    -- what is written needs these two at most, and only where it is too weak
    have hinside := h.length_spelling_le
    have hguard := e.length_spellingAt_le 5
    simp only [List.length_append, List.length_cons, List.length_nil]
    omega
  | .read .. | .number _ | .string _ | .name _ => le_refl _
  | .index _ _ h _ => by
    have hindex := h.length_spelling_le
    rw [Expr.spellingAt_of_le (le_refl 5), Expr.spelling, Expr.guarded_of_le (le_refl 5)]
    simp only [Expr.spelling, List.length_append, List.length_cons, List.length_nil]
    omega
  | .call _ _ h _ => by
    have hargs := h.length_spelling_le
    rw [Expr.spellingAt_of_le (le_refl 5)]
    simp only [Expr.spelling, List.length_append, List.length_cons, List.length_nil]
    omega

theorem Arguments.length_spelling_le {us : List Token} {es : List Expr} :
    Arguments us es → (Expr.spellingOfList es).length ≤ us.length
  | .nil => le_refl _
  | .cons h₁ h₂ => by
    have hfirst := h₁.length_spelling_le
    have hmore := h₂.length_spelling_le
    rw [Expr.spellingOfList, List.length_append, List.length_append]
    exact Nat.add_le_add hfirst hmore

theorem MoreArguments.length_spelling_le {us : List Token} {es : List Expr} :
    MoreArguments us es → (Expr.spellingOfMore es).length ≤ us.length
  | .nil => le_refl _
  | .cons _ h₁ h₂ => by
    have hfirst := h₁.length_spelling_le
    have hmore := h₂.length_spelling_le
    rw [Expr.spellingOfMore, List.length_append, List.length_append]
    exact Nat.add_le_add (Nat.succ_le_succ hfirst) hmore

end

theorem TypeSpec.length_spelling_le {us : List Token} {l : Location} {ty : Ty} :
    TypeSpec us l ty → ty.spelling.length ≤ us.length
  | .base ht => (Ty.length_spelling_of_isBase (isBase_of_isBaseType ht)).le
  | .pointer ht _ => by
    rw [Ty.spelling, List.length_append,
      Ty.length_spelling_of_isBase (isBase_of_isBaseType ht)]
    rfl

theorem VariableDecl.length_spelling_le {us : List Token} {v : Variable} :
    VariableDecl us v → v.spelling.length ≤ us.length
  | @VariableDecl.scalar us _ ty _ _ h _ _ => by
    have hty := h.length_spelling_le
    rw [Variable.spelling, Variable.lengthSpelling_of_isSpec h.isSpec]
    simp only [List.length_append, List.length_cons, List.length_nil]
    omega
  | .array ht _ _ _ _ _ _ => by
    rw [Variable.spelling, Ty.spelling, Variable.lengthSpelling]
    simp [Ty.length_spelling_of_isBase (isBase_of_isBaseType ht)]

theorem VariableDecls.length_spelling_le {us : List Token} {vs : List Variable} :
    VariableDecls us vs → (vs.flatMap Variable.spelling).length ≤ us.length
  | .nil => le_refl _
  | .cons h₁ h₂ => by
    rw [List.flatMap_cons, List.length_append, List.length_append]
    exact Nat.add_le_add h₁.length_spelling_le h₂.length_spelling_le

mutual

theorem Statement.length_spelling_le {us : List Token} {s : Stmt} :
    Statement us s → s.spelling.length ≤ us.length
  | .compound h => h.length_spelling_le
  | .ifThen _ _ h₁ _ h₂ | .whileDo _ _ h₁ _ h₂ => by
    have hcondition := h₁.length_spelling_le
    have hbranch := h₂.length_spelling_le
    simp only [Stmt.spelling, List.length_append, List.length_cons]
    omega
  | .ifElse _ _ h₁ _ h₂ _ _ h₃ => by
    have hcondition := h₁.length_spelling_le
    have hyes := h₂.length_spelling_le
    have hno := h₃.length_spelling_le
    simp only [Stmt.spelling, List.length_append, List.length_cons]
    omega
  | .retNone .. | .writeln .. => le_refl _
  | .retSome _ h _ | .write _ _ h _ _ | .expr h _ => by
    have hvalue := h.length_spelling_le
    simp only [Stmt.spelling, List.length_append, List.length_cons, List.length_nil] at hvalue ⊢
    omega

theorem Block.length_spelling_le {us : List Token} {b : Bpl.Block} :
    Block us b → b.spelling.length ≤ us.length
  | .mk _ h₁ h₂ _ => by
    have hdecls := h₁.length_spelling_le
    have hstmts := h₂.length_spelling_le
    simp only [Block.spelling, List.length_append, List.length_cons, List.length_nil]
    omega

theorem Statements.length_spelling_le {us : List Token} {ss : List Stmt} :
    Statements us ss → (Stmt.spellingOfList ss).length ≤ us.length
  | .nil => le_refl _
  | .cons h₁ h₂ => by
    rw [Stmt.spellingOfList, List.length_append, List.length_append]
    exact Nat.add_le_add h₁.length_spelling_le h₂.length_spelling_le

end

theorem Param.length_spelling_le {us : List Token} {v : Variable} :
    Param us v → v.paramSpelling.length ≤ us.length
  | .scalar h _ => by
    rw [Variable.paramSpelling, List.length_append, List.length_append]
    exact Nat.add_le_add_right h.length_spelling_le 1
  | .array ht _ _ _ => by
    rw [Variable.paramSpelling, Ty.spelling]
    simp [Ty.length_spelling_of_isBase (isBase_of_isBaseType ht)]

theorem MoreParams.length_spelling_le {us : List Token} {vs : List Variable} :
    MoreParams us vs →
      (vs.flatMap fun v => Token.ofWord "," :: v.paramSpelling).length ≤ us.length
  | .nil => le_refl _
  | .cons _ h₁ h₂ => by
    rw [List.flatMap_cons, List.length_append, List.length_append]
    exact Nat.add_le_add (Nat.succ_le_succ h₁.length_spelling_le) h₂.length_spelling_le

theorem Params.length_spelling_le {us : List Token} {vs : List Variable} :
    Params us vs → (Variable.paramsSpelling vs).length ≤ us.length
  | .void _ => le_refl _
  | .list _ h₁ h₂ => by
    rw [Variable.paramsSpelling, List.length_append, List.length_append]
    exact Nat.add_le_add h₁.length_spelling_le h₂.length_spelling_le

theorem Declaration.length_spelling_le {us : List Token} {d : Decl} :
    Declaration us d → d.spelling.length ≤ us.length
  | .var h => h.length_spelling_le
  | .function h₁ _ _ h₂ _ h₃ => by
    have hresult := h₁.length_spelling_le
    have hparams := h₂.length_spelling_le
    have hbody := h₃.length_spelling_le
    simp only [Decl.spelling, Function.spelling, List.length_append, List.length_cons]
    omega

/-- No tokens that spell a program are fewer than those that are written for it. -/
theorem Program.length_spelling_le {us : List Token} {p : Bpl.Program} :
    Program us p → p.spelling.length ≤ us.length
  | .nil => le_refl _
  | .cons h₁ h₂ => by
    rw [Bpl.Program.spelling, List.flatMap_cons, List.length_append, List.length_append]
    exact Nat.add_le_add h₁.length_spelling_le h₂.length_spelling_le

end Grammar

end Bpl
