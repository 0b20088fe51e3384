import Bpl.Proofs.Parsing.Grammar

namespace Bpl.Grammar

open Parsing (Level)

theorem ne_eof_of_isWord {t : Token} {w : String} (h : t.isWord w = true) : t.kind ≠ .eof := by
  intro hk
  simp [Token.isWord, hk] at h

theorem ne_eof_of_isBaseType {t : Token} {ty : Ty} (h : t.isBaseType ty) : t.kind ≠ .eof := by
  obtain ⟨w, _, h⟩ := h
  exact ne_eof_of_isWord h

theorem ne_eof_of_isOperator {t : Token} {op : BinaryOp} (h : t.isOperator op) :
    t.kind ≠ .eof := by
  simp [h.1]

mutual

/-- No end token is part of an expression. -/
theorem Assignment.ne_eof {us : List Token} {e : Expr} :
    Assignment us e → ∀ t ∈ us, t.kind ≠ .eof
  | .comparison h => h.ne_eof
  | .assign h₁ ht h₂ => List.forall_mem_append.2
    ⟨h₁.ne_eof, List.forall_mem_cons.2 ⟨ne_eof_of_isWord ht, h₂.ne_eof⟩⟩

theorem Comparison.ne_eof {us : List Token} {e : Expr} :
    Comparison us e → ∀ t ∈ us, t.kind ≠ .eof
  | .sum h => h.ne_eof
  | .compare h₁ _ ht h₂ => List.forall_mem_append.2
    ⟨h₁.ne_eof, List.forall_mem_cons.2 ⟨ne_eof_of_isOperator ht, h₂.ne_eof⟩⟩

theorem Chain.ne_eof {level : Level} {us : List Token} {e : Expr} :
    Chain level us e → ∀ t ∈ us, t.kind ≠ .eof
  | .operand h => h.ne_eof
  | .more h₁ _ ht h₂ => List.forall_mem_append.2
    ⟨h₁.ne_eof, List.forall_mem_cons.2 ⟨ne_eof_of_isOperator ht, h₂.ne_eof⟩⟩

theorem Operand.ne_eof {level : Level} {us : List Token} {e : Expr} :
    Operand level us e → ∀ t ∈ us, t.kind ≠ .eof
  | .product h => h.ne_eof
  | .signed h => h.ne_eof

theorem Signed.ne_eof {us : List Token} {e : Expr} : Signed us e → ∀ t ∈ us, t.kind ≠ .eof
  | .factor h => h.ne_eof
  | .sign ht h => List.forall_mem_cons.2 ⟨ne_eof_of_isWord ht, h.ne_eof⟩

theorem Factor.ne_eof {us : List Token} {e : Expr} : Factor us e → ∀ t ∈ us, t.kind ≠ .eof
  | .parentheses ho h hc => by
    simpa [ne_eof_of_isWord ho, ne_eof_of_isWord hc, or_imp, forall_and] using h.ne_eof
  | .read ht ho hc => by
    simp [ne_eof_of_isWord ht, ne_eof_of_isWord ho, ne_eof_of_isWord hc]
  | .number ht => by simp [ht]
  | .string ht => by simp [ht]
  | .name ht => by simp [ht]
  | .index ht ho h hc => by
    simpa [ht, ne_eof_of_isWord ho, ne_eof_of_isWord hc, or_imp, forall_and] using h.ne_eof
  | .call ht ho h hc => by
    simpa [ht, ne_eof_of_isWord ho, ne_eof_of_isWord hc, or_imp, forall_and] using h.ne_eof

theorem Arguments.ne_eof {us : List Token} {es : List Expr} :
    Arguments us es → ∀ t ∈ us, t.kind ≠ .eof
  | .nil => by simp
  | .cons h₁ h₂ => List.forall_mem_append.2 ⟨h₁.ne_eof, h₂.ne_eof⟩

theorem MoreArguments.ne_eof {us : List Token} {es : List Expr} :
    MoreArguments us es → ∀ t ∈ us, t.kind ≠ .eof
  | .nil => by simp
  | .cons ht h₁ h₂ => List.forall_mem_append.2
    ⟨List.forall_mem_cons.2 ⟨ne_eof_of_isWord ht, h₁.ne_eof⟩, h₂.ne_eof⟩

end

theorem TypeSpec.ne_eof {us : List Token} {l : Location} {ty : Ty} :
    TypeSpec us l ty → ∀ t ∈ us, t.kind ≠ .eof
  | .base ht => by simp [ne_eof_of_isBaseType ht]
  | .pointer ht hs => by simp [ne_eof_of_isBaseType ht, ne_eof_of_isWord hs]

theorem VariableDecl.ne_eof {us : List Token} {v : Variable} :
    VariableDecl us v → ∀ t ∈ us, t.kind ≠ .eof
  | .scalar h hx hs => by
    simpa [hx, ne_eof_of_isWord hs, or_imp, forall_and] using h.ne_eof
  | .array ht hx ho hm _ hc hs => by
    simp [ne_eof_of_isBaseType ht, hx, ne_eof_of_isWord ho, hm, ne_eof_of_isWord hc,
      ne_eof_of_isWord hs]

theorem VariableDecls.ne_eof {us : List Token} {vs : List Variable} :
    VariableDecls us vs → ∀ t ∈ us, t.kind ≠ .eof
  | .nil => by simp
  | .cons h₁ h₂ => List.forall_mem_append.2 ⟨h₁.ne_eof, h₂.ne_eof⟩

mutual

theorem Statement.ne_eof {us : List Token} {s : Stmt} :
    Statement us s → ∀ t ∈ us, t.kind ≠ .eof
  | .compound h => h.ne_eof
  | .ifThen ht ho hc hp hy => by
    have hy := hy.ne_eof
    simpa [ne_eof_of_isWord ht, ne_eof_of_isWord ho, ne_eof_of_isWord hp, or_imp, forall_and]
      using ⟨hc.ne_eof, hy⟩
  | .ifElse ht ho hc hp hy _ hw hn => by
    have hy := hy.ne_eof
    have hn := hn.ne_eof
    simpa [ne_eof_of_isWord ht, ne_eof_of_isWord ho, ne_eof_of_isWord hp, ne_eof_of_isWord hw,
      or_imp, forall_and] using ⟨hc.ne_eof, hy, hn⟩
  | .whileDo ht ho hc hp hb => by
    have hb := hb.ne_eof
    simpa [ne_eof_of_isWord ht, ne_eof_of_isWord ho, ne_eof_of_isWord hp, or_imp, forall_and]
      using ⟨hc.ne_eof, hb⟩
  | .retNone ht hs => by simp [ne_eof_of_isWord ht, ne_eof_of_isWord hs]
  | .retSome ht h hs => by
    simpa [ne_eof_of_isWord ht, ne_eof_of_isWord hs, or_imp, forall_and] using h.ne_eof
  | .write ht ho h hc hs => by
    simpa [ne_eof_of_isWord ht, ne_eof_of_isWord ho, ne_eof_of_isWord hc, ne_eof_of_isWord hs,
      or_imp, forall_and] using h.ne_eof
  | .writeln ht ho hc hs => by
    simp [ne_eof_of_isWord ht, ne_eof_of_isWord ho, ne_eof_of_isWord hc, ne_eof_of_isWord hs]
  | .expr h hs => List.forall_mem_append.2 ⟨h.ne_eof, by simp [ne_eof_of_isWord hs]⟩

theorem Block.ne_eof {us : List Token} {b : Bpl.Block} : Block us b → ∀ t ∈ us, t.kind ≠ .eof
  | .mk ho hd hs hc => by
    have hs := hs.ne_eof
    simpa [ne_eof_of_isWord ho, ne_eof_of_isWord hc, or_imp, forall_and] using ⟨hd.ne_eof, hs⟩

theorem Statements.ne_eof {us : List Token} {ss : List Stmt} :
    Statements us ss → ∀ t ∈ us, t.kind ≠ .eof
  | .nil => by simp
  | .cons h₁ h₂ => List.forall_mem_append.2 ⟨h₁.ne_eof, h₂.ne_eof⟩

end

theorem Param.ne_eof {us : List Token} {v : Variable} : Param us v → ∀ t ∈ us, t.kind ≠ .eof
  | .scalar h hx => by simpa [hx, or_imp, forall_and] using h.ne_eof
  | .array ht hx ho hc => by
    simp [ne_eof_of_isBaseType ht, hx, ne_eof_of_isWord ho, ne_eof_of_isWord hc]

theorem MoreParams.ne_eof {us : List Token} {vs : List Variable} :
    MoreParams us vs → ∀ t ∈ us, t.kind ≠ .eof
  | .nil => by simp
  | .cons ht h₁ h₂ => List.forall_mem_append.2
    ⟨List.forall_mem_cons.2 ⟨ne_eof_of_isWord ht, h₁.ne_eof⟩, h₂.ne_eof⟩

theorem Params.ne_eof {us : List Token} {vs : List Variable} :
    Params us vs → ∀ t ∈ us, t.kind ≠ .eof
  | .void ht => by simp [ne_eof_of_isWord ht]
  | .list _ h₁ h₂ => List.forall_mem_append.2 ⟨h₁.ne_eof, h₂.ne_eof⟩

theorem Declaration.ne_eof {us : List Token} {d : Decl} :
    Declaration us d → ∀ t ∈ us, t.kind ≠ .eof
  | .var h => h.ne_eof
  | .function h hx ho hp hc hb => by
    simpa [hx, ne_eof_of_isWord ho, ne_eof_of_isWord hc, or_imp, forall_and]
      using ⟨h.ne_eof, hp.ne_eof, hb.ne_eof⟩

theorem Program.ne_eof {us : List Token} {p : Bpl.Program} :
    Program us p → ∀ t ∈ us, t.kind ≠ .eof
  | .nil => by simp
  | .cons h₁ h₂ => List.forall_mem_append.2 ⟨h₁.ne_eof, h₂.ne_eof⟩

end Bpl.Grammar
