import Bpl.Proofs.Parsing.Spelled
import Bpl.Proofs.Parsing.Sound

namespace Bpl

namespace Parsing

open Grammar

/-- The marks that continue an identifier. -/
def nameWords : List String :=
  ["(", "["]

/-- The marks that continue an operand of a level. -/
def Level.operandWords : Level → List String
  | .product => nameWords
  | .sum => nameWords ++ Level.product.ops.map BinaryOp.symbol

/-- The marks that continue a chain. -/
def Level.words (level : Level) : List String :=
  level.operandWords ++ level.ops.map BinaryOp.symbol

def comparisonWords : List String :=
  Level.sum.words ++ comparisons.map BinaryOp.symbol

/-- The marks that continue an expression. -/
def exprWords : List String :=
  comparisonWords ++ ["="]

/-- The words that an expression may begin with. -/
def exprStarters : List String :=
  ["(", "read", "-", "&", "*"]

/-- The words that a statement may begin with. -/
def stmtStarters : List String :=
  heads.map Prod.fst ++ exprStarters

/-- Tokens of which the first, if it is a word at all, is one of `ws`. -/
def Starts (ws : List String) (us : List Token) : Prop :=
  ∃ t vs, us = t :: vs ∧ ∀ w, t.isWord w = true → w ∈ ws

section Starts

variable {ws ws' : List String} {t : Token} {us vs : List Token}

theorem Starts.append (h : Starts ws us) : Starts ws (us ++ vs) := by
  obtain ⟨t, us, rfl, h⟩ := h
  exact ⟨t, us ++ vs, rfl, h⟩

theorem Starts.mono (h : Starts ws us) (hs : ws ⊆ ws') : Starts ws' us := by
  obtain ⟨t, us, rfl, h⟩ := h
  exact ⟨t, us, rfl, fun w hw => hs (h w hw)⟩

theorem Starts.stops (h : Starts ws us) (hd : ∀ w ∈ ws', w ∉ ws) : Stops ws' us := by
  obtain ⟨t, us, rfl, h⟩ := h
  intro u hu w hw
  cases hu
  by_contra hc
  exact hd w hw (h w (Bool.eq_true_of_not_eq_false hc))

theorem Starts.accept? {w : String} (h : Starts ws us) (hw : w ∉ ws) :
    accept? w (us ++ vs) = none :=
  accept?_eq_none_iff.2 (h.append.stops (by simpa using hw))

theorem starts_cons {w : String} (h : t.isWord w = true) (hw : w ∈ ws) : Starts ws (t :: us) :=
  ⟨t, us, rfl, fun _ hv => isWord_unique h hv ▸ hw⟩

theorem not_isWord {w : String} (hp : t.kind ≠ .punctuator) (hk : t.kind ≠ .keyword) :
    t.isWord w = false := by
  simp [Token.isWord, hp, hk]

theorem starts_of_kind (hp : t.kind ≠ .punctuator) (hk : t.kind ≠ .keyword) :
    Starts ws (t :: us) :=
  ⟨t, us, rfl, fun w hw => by simp [not_isWord hp hk] at hw⟩

theorem stops_ident (hk : t.kind = .ident) : Stops ws (t :: us) := by
  rintro _ ⟨⟩ _ _
  exact not_isWord (by simp [hk]) (by simp [hk])

end Starts

mutual

theorem Assignment.starts {us : List Token} {e : Expr} : Assignment us e → Starts exprStarters us
  | .comparison h => Comparison.starts h
  | .assign h _ _ => (Comparison.starts h).append

theorem Comparison.starts {us : List Token} {e : Expr} : Comparison us e → Starts exprStarters us
  | .sum h => Chain.starts h
  | .compare h _ _ _ => (Chain.starts h).append

theorem Chain.starts {level : Level} {us : List Token} {e : Expr} :
    Chain level us e → Starts exprStarters us
  | .operand h => Operand.starts h
  | .more h _ _ _ => (Chain.starts h).append

theorem Operand.starts {level : Level} {us : List Token} {e : Expr} :
    Operand level us e → Starts exprStarters us
  | .product h => Chain.starts h
  | .signed h => Signed.starts h

theorem Signed.starts {us : List Token} {e : Expr} : Signed us e → Starts exprStarters us
  | .factor h => Factor.starts h
  | @Signed.sign _ _ op _ ht _ => starts_cons ht (by cases op <;> decide)

theorem Factor.starts {us : List Token} {e : Expr} : Factor us e → Starts exprStarters us
  | .parentheses ho _ _ => starts_cons ho (by decide)
  | .read ht _ _ => starts_cons ht (by decide)
  | .number hk => starts_of_kind (by simp [hk]) (by simp [hk])
  | .string hk => starts_of_kind (by simp [hk]) (by simp [hk])
  | .name hk => starts_of_kind (by simp [hk]) (by simp [hk])
  | .index hk _ _ _ => starts_of_kind (by simp [hk]) (by simp [hk])
  | .call hk _ _ _ => starts_of_kind (by simp [hk]) (by simp [hk])

end

theorem reads_chainTail {fin : Location} {level : Level} {e : Expr} {rest : List Token}
    (hs : Stops level.words rest) : Reads (chainTail fin level e rest) e rest := by
  rw [chainTail, operator?_eq_none (hs.mono (List.subset_append_right _ _))]
  exact reads_ok.2 ⟨rfl, rfl⟩

/-- A factor begins with no sign. -/
theorem starts_factor {us : List Token} {e : Expr} (h : Factor us e) :
    Starts ["(", "read"] us := by
  cases h with
  | parentheses ho _ _ => exact starts_cons ho (by decide)
  | read ht _ _ => exact starts_cons ht (by decide)
  | number hk | string hk | name hk | index hk _ _ _ | call hk _ _ _ =>
    exact starts_of_kind (by simp [hk]) (by simp [hk])

theorem accept?_eq_none {w v : String} {t : Token} {ts : List Token} (ht : t.isWord v = true)
    (hw : v ≠ w) : accept? w (t :: ts) = none :=
  accept?_eq_none_iff.2 (stops_cons ht (by simpa using hw))

theorem reads_factor_named {t : Token} {ts rest : List Token} {e : Expr} {fin : Location}
    (hk : t.kind = .ident) (h : Reads (named fin t.location t.text ts) e rest) :
    Reads (factor fin (t :: ts)) e rest := by
  rw [factor]
  simp only [Token.isWord, hk]
  exact Reads.bind h (reads_pure.2 ⟨rfl, rfl⟩)

theorem stops_moreArguments {us rest : List Token} {es : List Expr} {c : Token}
    (hc : c.isWord ")" = true) (h : MoreArguments us es) :
    Stops exprWords (us ++ c :: rest) := by
  cases h with
  | nil => exact stops_cons hc (by decide)
  | cons ht _ _ => exact stops_cons ht (by decide)

theorem symbol_notMem_operandWords {level : Level} {op : BinaryOp} (h : op ∈ level.ops) :
    op.symbol ∉ level.operandWords := by
  revert op
  cases level <;> decide

theorem symbol_notMem_words {op : BinaryOp} (h : op ∈ comparisons) :
    op.symbol ∉ Level.sum.words := by
  revert op
  decide

variable {fin : Location}

mutual

/-- What is spelled as an expression is read as one, where nothing continues it. -/
theorem reads_assignment {us : List Token} {e : Expr} {rest : List Token} :
    Assignment us e → Stops exprWords rest → Reads (expr fin (us ++ rest)) e rest
  | .comparison h, hs => by
    rw [expr]
    refine Reads.bind (reads_comparison h (hs.mono (List.subset_append_left _ _))) ?_
    simp only [hs.accept? (w := "=") (by decide)]
    exact reads_pure.2 ⟨rfl, rfl⟩
  | .assign h₁ ht h₂, hs => by
    rw [List.append_assoc, List.cons_append, expr]
    refine Reads.bind (reads_comparison h₁ (stops_cons ht (by decide))) ?_
    simp only [accept?_cons ht]
    exact Reads.bind (reads_assignment h₂ hs) (reads_pure.2 ⟨rfl, rfl⟩)

theorem reads_comparison {us : List Token} {e : Expr} {rest : List Token} :
    Comparison us e → Stops comparisonWords rest → Reads (comparison fin (us ++ rest)) e rest
  | .sum h, hs => by
    have hs' : Stops Level.sum.words rest := hs.mono (List.subset_append_left _ _)
    rw [comparison]
    refine Reads.bind (reads_chain h (hs'.mono (List.subset_append_left _ _))
      (reads_chainTail hs')) ?_
    simp only [operator?_eq_none (hs.mono (List.subset_append_right _ _))]
    exact reads_pure.2 ⟨rfl, rfl⟩
  | .compare h₁ hm ht h₂, hs => by
    have hs' : Stops Level.sum.words rest := hs.mono (List.subset_append_left _ _)
    have hop := symbol_notMem_words hm
    rw [List.append_assoc, List.cons_append, comparison]
    refine Reads.bind (reads_chain h₁ (stops_cons (isWord_of_isOperator ht) ?_)
      (reads_chainTail (stops_cons (isWord_of_isOperator ht) hop))) ?_
    · exact fun hm => hop (List.mem_append_left _ hm)
    simp only [operator?_cons hm ht]
    exact Reads.bind (reads_chain h₂ (hs'.mono (List.subset_append_left _ _))
      (reads_chainTail hs')) (reads_pure.2 ⟨rfl, rfl⟩)

/-- A chain is read as far as it goes, and then what is read from there on. -/
theorem reads_chain {level : Level} {us : List Token} {e a : Expr} {rest rest' : List Token} :
    Chain level us e → Stops level.operandWords rest →
      Reads (chainTail fin level e rest) a rest' → Reads (chain fin level (us ++ rest)) a rest'
  | .operand h, hs, ht => by
    rw [chain]
    exact Reads.bind (reads_operand h hs) (Reads.bind ht (reads_pure.2 ⟨rfl, rfl⟩))
  | .more h₁ hm hop h₂, hs, ht => by
    rw [List.append_assoc, List.cons_append]
    refine reads_chain h₁
      (stops_cons (isWord_of_isOperator hop) (symbol_notMem_operandWords hm)) ?_
    rw [chainTail, operator?_cons hm hop]
    exact Reads.bind (reads_operand h₂ hs) (Reads.bind ht (reads_pure.2 ⟨rfl, rfl⟩))

theorem reads_operand {level : Level} {us : List Token} {e : Expr} {rest : List Token} :
    Operand level us e → Stops level.operandWords rest →
      Reads (operand fin level (us ++ rest)) e rest
  | .product h, hs => by
    rw [operand]
    exact reads_chain h (hs.mono (List.subset_append_left _ _)) (reads_chainTail hs)
  | .signed h, hs => by
    rw [operand]
    exact reads_signed h hs

theorem reads_signed {us : List Token} {e : Expr} {rest : List Token} :
    Signed us e → Stops nameWords rest → Reads (unary fin (us ++ rest)) e rest
  | .factor h, hs => by
    rw [unary, sign?_eq_none ((starts_factor h).append.stops (by decide))]
    exact reads_factor h hs
  | .sign ht h, hs => by
    rw [List.cons_append, unary, sign?_cons ht]
    exact Reads.bind (reads_signed h hs) (reads_pure.2 ⟨rfl, rfl⟩)

theorem reads_factor {us : List Token} {e : Expr} {rest : List Token} :
    Factor us e → Stops nameWords rest → Reads (factor fin (us ++ rest)) e rest
  | .parentheses ho h hc, _ => by
    rw [List.append_assoc, List.cons_append, List.singleton_append, factor, if_pos ho]
    refine Reads.bind (reads_assignment h (stops_cons hc (by decide))) ?_
    exact Reads.bind (reads_expect.2 ⟨_, rfl, hc, rfl⟩) (reads_pure.2 ⟨rfl, rfl⟩)
  | .read ht ho hc, _ => by
    rw [List.cons_append, factor, if_neg (fun h => absurd (isWord_unique ht h) (by decide)),
      if_pos ht]
    refine Reads.bind (reads_expect.2 ⟨_, rfl, ho, rfl⟩) ?_
    exact Reads.bind (reads_expect.2 ⟨_, rfl, hc, rfl⟩) (reads_pure.2 ⟨rfl, rfl⟩)
  | .number hk, _ => by
    rw [List.singleton_append, factor]
    simp only [Token.isWord, hk]
    exact reads_pure.2 ⟨rfl, rfl⟩
  | .string hk, _ => by
    rw [List.singleton_append, factor]
    simp only [Token.isWord, hk]
    exact reads_ok.2 ⟨rfl, rfl⟩
  | .name hk, hs => by
    rw [List.singleton_append]
    refine reads_factor_named hk ?_
    rw [named, hs.accept? (by decide), hs.accept? (by decide)]
    exact reads_ok.2 ⟨rfl, rfl⟩
  | .index hk ho h hc, _ => by
    rw [List.append_assoc, List.cons_append, List.cons_append, List.singleton_append]
    refine reads_factor_named hk ?_
    rw [named, accept?_eq_none ho (by decide), accept?_cons ho]
    refine Reads.bind (reads_assignment h (stops_cons hc (by decide))) ?_
    exact Reads.bind (reads_expect.2 ⟨_, rfl, hc, rfl⟩) (reads_pure.2 ⟨rfl, rfl⟩)
  | .call hk ho h hc, _ => by
    rw [List.append_assoc, List.cons_append, List.cons_append, List.singleton_append]
    refine reads_factor_named hk ?_
    rw [named, accept?_cons ho]
    exact Reads.bind (reads_arguments h hc) (reads_pure.2 ⟨rfl, rfl⟩)

theorem reads_arguments {us : List Token} {es : List Expr} {rest : List Token} {c : Token} :
    Arguments us es → c.isWord ")" = true → Reads (arguments fin (us ++ c :: rest)) es rest
  | .nil, hc => by
    rw [List.nil_append, arguments, accept?_cons hc]
    exact reads_ok.2 ⟨rfl, rfl⟩
  | .cons h₁ h₂, hc => by
    rw [List.append_assoc, arguments, (Assignment.starts h₁).accept? (by decide)]
    refine Reads.bind (reads_assignment h₁ (stops_moreArguments hc h₂)) ?_
    exact Reads.bind (reads_moreArguments h₂ hc) (reads_pure.2 ⟨rfl, rfl⟩)

theorem reads_moreArguments {us : List Token} {es : List Expr} {rest : List Token} {c : Token} :
    MoreArguments us es → c.isWord ")" = true →
      Reads (moreArguments fin (us ++ c :: rest)) es rest
  | .nil, hc => by
    rw [List.nil_append, moreArguments, accept?_eq_none hc (by decide)]
    exact Reads.bind (reads_expect.2 ⟨_, rfl, hc, rfl⟩) (reads_pure.2 ⟨rfl, rfl⟩)
  | .cons ht h₁ h₂, hc => by
    rw [List.append_assoc, List.cons_append, moreArguments, accept?_cons ht]
    refine Reads.bind (reads_assignment h₁ (stops_moreArguments hc h₂)) ?_
    exact Reads.bind (reads_moreArguments h₂ hc) (reads_pure.2 ⟨rfl, rfl⟩)

end

theorem isPointer_of_isBaseType {t : Token} {ty : Ty} (h : t.isBaseType ty) :
    ty.isPointer = false := by
  obtain ⟨w, hm, _⟩ := h
  have hall : ∀ p ∈ baseTypes, p.2.isPointer = false := by decide
  exact hall _ hm

theorem reads_typeSpec {us rest : List Token} {l : Location} {ty : Ty} (hs : Stops ["*"] rest) :
    TypeSpec us l ty → Reads (typeSpec fin (us ++ rest)) (l, ty) rest
  | .base ht => by
    rw [List.singleton_append, typeSpec, baseType?_cons ht]
    simp only [hs.accept? (List.mem_singleton.2 rfl)]
    exact reads_ok.2 ⟨rfl, rfl⟩
  | .pointer ht hw => by
    rw [List.cons_append, List.singleton_append, typeSpec, baseType?_cons ht]
    simp only [accept?_cons hw]
    exact reads_ok.2 ⟨rfl, rfl⟩

theorem bracket?_eq_none {ty : Ty} {ts : List Token} (hs : Stops ["["] ts) :
    bracket? ty ts = none := by
  rw [bracket?]
  split
  · rfl
  · exact hs.accept? (List.mem_singleton.2 rfl)

theorem bracket?_cons {t o : Token} {ty : Ty} {ts : List Token} (ht : t.isBaseType ty)
    (ho : o.isWord "[" = true) :
    bracket? ty (o :: ts) = some ⟨o.location, ts, Nat.lt_succ_self _⟩ := by
  rw [bracket?, isPointer_of_isBaseType ht]
  exact accept?_cons ho

/-- A declaration of a variable is a type, a name and a tail that no parenthesis begins. -/
theorem exists_variableTail (fin : Location) {us : List Token} {v : Variable} : VariableDecl us v →
    ∃ us' l ty x vs, us = us' ++ x :: vs ∧ TypeSpec us' l ty ∧ x.kind = .ident ∧
      Starts [";", "["] vs ∧ ∀ rest, Reads (variableTail fin l ty x.text (vs ++ rest)) v rest
  | .scalar hs hx hw => by
    refine ⟨_, _, _, _, [_], rfl, hs, hx, starts_cons hw (by decide), fun rest => ?_⟩
    rw [List.singleton_append, variableTail, bracket?_eq_none (stops_cons hw (by decide))]
    exact Reads.bind (reads_expect.2 ⟨_, rfl, hw, rfl⟩) (reads_pure.2 ⟨rfl, rfl⟩)
  | .array ht hx ho hm hl hc hw => by
    refine ⟨[_], _, _, _, [_, _, _, _], rfl, .base ht, hx, starts_cons ho (by decide),
      fun rest => ?_⟩
    rw [List.cons_append, variableTail, bracket?_cons ht ho]
    refine Reads.bind (reads_number.2 ⟨_, rfl, hm, rfl⟩) ?_
    simp only [if_neg (Int64.not_lt.2 hl)]
    refine Reads.bind (reads_expect.2 ⟨_, rfl, hc, rfl⟩) ?_
    exact Reads.bind (reads_expect.2 ⟨_, rfl, hw, rfl⟩) (reads_pure.2 ⟨rfl, rfl⟩)

theorem reads_variableDecl {us rest : List Token} {v : Variable} (h : VariableDecl us v) :
    Reads (variableDecl fin (us ++ rest)) v rest := by
  obtain ⟨us', l, ty, x, vs, rfl, hs, hx, _, ht⟩ := exists_variableTail fin h
  rw [List.append_assoc, List.cons_append, variableDecl]
  refine Reads.bind (reads_typeSpec (stops_ident hx) hs) ?_
  refine Reads.bind (reads_identifier.2 ⟨x, rfl, hx, rfl, rfl⟩) ?_
  exact Reads.bind (ht rest) (reads_pure.2 ⟨rfl, rfl⟩)

theorem exists_baseType {us : List Token} {l : Location} {ty : Ty} :
    TypeSpec us l ty → ∃ t vs ty', us = t :: vs ∧ t.isBaseType ty'
  | .base ht | .pointer ht _ => ⟨_, _, _, rfl, ht⟩

theorem exists_baseType? {us rest : List Token} {v : Variable} :
    VariableDecl us v → ∃ p, baseType? (us ++ rest) = some p
  | .scalar hs _ _ => by
    obtain ⟨t, vs, ty, rfl, ht⟩ := exists_baseType hs
    exact ⟨_, baseType?_cons ht⟩
  | .array ht _ _ _ _ _ _ => ⟨_, baseType?_cons ht⟩

theorem reads_variableDecls {us rest : List Token} {vs : List Variable}
    (hs : Stops typeWords rest) (h : VariableDecls us vs) :
    Reads (variableDecls fin (us ++ rest)) vs rest := by
  induction h with
  | nil =>
    rw [List.nil_append, variableDecls, baseType?_eq_none_iff.2 hs]
    exact reads_ok.2 ⟨rfl, rfl⟩
  | cons h₁ _ ih =>
    obtain ⟨p, hp⟩ := exists_baseType? h₁
    rw [List.append_assoc, variableDecls, hp]
    refine Reads.bind (reads_variableDecl h₁) ?_
    exact Reads.bind ih (reads_pure.2 ⟨rfl, rfl⟩)

theorem reads_parenthesised {o c : Token} {us rest : List Token} {e : Expr}
    (ho : o.isWord "(" = true) (h : Assignment us e) (hc : c.isWord ")" = true) :
    Reads (parenthesised fin (o :: (us ++ c :: rest))) e rest := by
  rw [parenthesised]
  refine Reads.bind (reads_expect.2 ⟨_, rfl, ho, rfl⟩) ?_
  refine Reads.bind (reads_assignment h (stops_cons hc (by decide))) ?_
  exact Reads.bind (reads_expect.2 ⟨_, rfl, hc, rfl⟩) (reads_pure.2 ⟨rfl, rfl⟩)

theorem starts_statement {us : List Token} {s : Stmt} : Statement us s → Starts stmtStarters us
  | .compound (.mk ho _ _ _) => starts_cons ho (by decide)
  | .ifThen ht _ _ _ _ => starts_cons ht (by decide)
  | .ifElse ht _ _ _ _ _ _ _ => starts_cons ht (by decide)
  | .whileDo ht _ _ _ _ => starts_cons ht (by decide)
  | .retNone ht _ => starts_cons ht (by decide)
  | .retSome ht _ _ => starts_cons ht (by decide)
  | .write ht _ _ _ _ => starts_cons ht (by decide)
  | .writeln ht _ _ _ => starts_cons ht (by decide)
  | .expr h _ => ((Assignment.starts h).mono (List.subset_append_right _ _)).append

/-- After statements stands a brace, after one of them a brace or the next. -/
theorem starts_statements {us rest : List Token} {ss : List Stmt} {c : Token}
    (hc : c.isWord "\x7d" = true) (h : Statements us ss) :
    Starts ("\x7d" :: stmtStarters) (us ++ c :: rest) := by
  cases h with
  | nil => exact starts_cons hc (by decide)
  | cons h _ =>
    rw [List.append_assoc]
    exact ((starts_statement h).mono (List.subset_cons_self _ _)).append

mutual

theorem reads_statement {us : List Token} {s : Stmt} {rest : List Token} :
    Statement us s → (s.isOpen = true → Stops ["else"] rest) →
      Reads (stmt fin (us ++ rest)) s rest
  | .compound h, _ => by
    obtain ⟨o, vs, rfl, ho, hl, hb⟩ := reads_block h rest
    rw [List.cons_append, stmt, head?_cons .brace ho]
    exact Reads.bind hb (reads_pure.2 ⟨by rw [hl], rfl⟩)
  | .ifThen ht ho hc hp hy, hs => by
    rw [List.append_assoc, List.cons_append, List.cons_append, List.cons_append, stmt,
      head?_cons .ifWord ht]
    refine Reads.bind (reads_parenthesised ho hc hp) ?_
    refine Reads.bind (reads_statement hy fun _ => hs rfl) ?_
    simp only [(hs rfl).accept? (List.mem_singleton.2 rfl)]
    exact reads_pure.2 ⟨rfl, rfl⟩
  | .ifElse ht ho hc hp hy hn hw h, hs => by
    rw [List.append_assoc, List.append_assoc, List.cons_append, List.cons_append,
      List.cons_append, List.cons_append, stmt, head?_cons .ifWord ht]
    refine Reads.bind (reads_parenthesised ho hc hp) ?_
    refine Reads.bind (reads_statement hy fun hy => absurd hy (by simp [hn])) ?_
    simp only [accept?_cons hw]
    exact Reads.bind (reads_statement h hs) (reads_pure.2 ⟨rfl, rfl⟩)
  | .whileDo ht ho hc hp hb, hs => by
    rw [List.append_assoc, List.cons_append, List.cons_append, List.cons_append, stmt,
      head?_cons .whileWord ht]
    refine Reads.bind (reads_parenthesised ho hc hp) ?_
    exact Reads.bind (reads_statement hb hs) (reads_pure.2 ⟨rfl, rfl⟩)
  | .retNone ht hw, _ => by
    rw [List.cons_append, List.singleton_append, stmt, head?_cons .returnWord ht]
    simp only [accept?_cons hw]
    exact reads_pure.2 ⟨rfl, rfl⟩
  | .retSome ht h hw, _ => by
    rw [List.append_assoc, List.cons_append, List.singleton_append, stmt,
      head?_cons .returnWord ht]
    simp only [(Assignment.starts h).accept? (w := ";") (by decide)]
    refine Reads.bind (reads_assignment h (stops_cons hw (by decide))) ?_
    exact Reads.bind (reads_expect.2 ⟨_, rfl, hw, rfl⟩) (reads_pure.2 ⟨rfl, rfl⟩)
  | .write ht ho h hc hw, _ => by
    rw [List.append_assoc, List.cons_append, List.cons_append, List.cons_append,
      List.singleton_append, stmt, head?_cons .writeWord ht]
    refine Reads.bind (reads_parenthesised ho h hc) ?_
    exact Reads.bind (reads_expect.2 ⟨_, rfl, hw, rfl⟩) (reads_pure.2 ⟨rfl, rfl⟩)
  | .writeln ht ho hc hw, _ => by
    rw [List.cons_append, stmt, head?_cons .writelnWord ht]
    refine Reads.bind (reads_expect.2 ⟨_, rfl, ho, rfl⟩) ?_
    refine Reads.bind (reads_expect.2 ⟨_, rfl, hc, rfl⟩) ?_
    exact Reads.bind (reads_expect.2 ⟨_, rfl, hw, rfl⟩) (reads_pure.2 ⟨rfl, rfl⟩)
  | .expr h hw, _ => by
    rw [List.append_assoc, List.singleton_append, stmt,
      head?_eq_none_iff.2 ((Assignment.starts h).append.stops (by decide))]
    refine Reads.bind (reads_assignment h (stops_cons hw (by decide))) ?_
    exact Reads.bind (reads_expect.2 ⟨_, rfl, hw, rfl⟩) (reads_pure.2 ⟨rfl, rfl⟩)

theorem reads_block {us : List Token} {b : Bpl.Block} :
    Grammar.Block us b → ∀ rest, ∃ o vs, us = o :: vs ∧ o.isWord "\x7b" = true ∧
      b.location = o.location ∧ Reads (blockTail fin o.location (vs ++ rest)) b rest
  | .mk ho hd hs hc, rest => by
    refine ⟨_, _ ++ _ ++ [_], rfl, ho, rfl, ?_⟩
    rw [List.append_assoc, List.append_assoc, List.singleton_append, blockTail]
    refine Reads.bind (reads_variableDecls ((starts_statements hc hs).stops (by decide)) hd) ?_
    exact Reads.bind (reads_statements hs hc) (reads_pure.2 ⟨rfl, rfl⟩)

theorem reads_statements {us : List Token} {ss : List Stmt} {c : Token} {rest : List Token} :
    Statements us ss → c.isWord "\x7d" = true → Reads (stmts fin (us ++ c :: rest)) ss rest
  | .nil, hc => by
    rw [List.nil_append, stmts, accept?_cons hc]
    exact reads_ok.2 ⟨rfl, rfl⟩
  | .cons h₁ h₂, hc => by
    rw [List.append_assoc, stmts, (starts_statement h₁).accept? (by decide)]
    refine Reads.bind (reads_statement h₁ fun _ => (starts_statements hc h₂).stops (by decide)) ?_
    exact Reads.bind (reads_statements h₂ hc) (reads_pure.2 ⟨rfl, rfl⟩)

end

theorem reads_body {us rest : List Token} {b : Bpl.Block} (h : Grammar.Block us b) :
    Reads (block fin (us ++ rest)) b rest := by
  obtain ⟨o, vs, rfl, ho, _, hb⟩ := @reads_block fin us b h rest
  rw [List.cons_append, block]
  refine Reads.bind (reads_expect.2 ⟨_, rfl, ho, rfl⟩) ?_
  exact Reads.bind hb (reads_pure.2 ⟨rfl, rfl⟩)

theorem reads_param {us rest : List Token} {v : Variable} (hs : Stops ["["] rest) :
    Param us v → Reads (param fin (us ++ rest)) v rest
  | .scalar h hx => by
    rw [List.append_assoc, List.singleton_append, param]
    refine Reads.bind (reads_typeSpec (stops_ident hx) h) ?_
    refine Reads.bind (reads_identifier.2 ⟨_, rfl, hx, rfl, rfl⟩) ?_
    simp only [bracket?_eq_none hs]
    exact reads_pure.2 ⟨rfl, rfl⟩
  | @Param.array t x o c _ ht hx ho hc => by
    change Reads (param fin ([t] ++ x :: o :: c :: rest)) _ _
    rw [param]
    refine Reads.bind (reads_typeSpec (stops_ident hx) (.base ht)) ?_
    refine Reads.bind (reads_identifier.2 ⟨_, rfl, hx, rfl, rfl⟩) ?_
    simp only [bracket?_cons ht ho]
    exact Reads.bind (reads_expect.2 ⟨_, rfl, hc, rfl⟩) (reads_pure.2 ⟨rfl, rfl⟩)

theorem stops_moreParams {us rest : List Token} {vs : List Variable} {c : Token}
    (hc : c.isWord ")" = true) (h : MoreParams us vs) : Stops ["["] (us ++ c :: rest) := by
  cases h with
  | nil => exact stops_cons hc (by decide)
  | cons ht _ _ => exact stops_cons ht (by decide)

theorem reads_moreParams {us rest : List Token} {vs : List Variable} {c : Token}
    (hc : c.isWord ")" = true) (h : MoreParams us vs) :
    Reads (moreParams fin (us ++ c :: rest)) vs (c :: rest) := by
  induction h with
  | nil =>
    rw [List.nil_append, moreParams, accept?_eq_none hc (by decide)]
    exact reads_ok.2 ⟨rfl, rfl⟩
  | cons ht h₁ h₂ ih =>
    rw [List.append_assoc, List.cons_append, moreParams, accept?_cons ht]
    refine Reads.bind (reads_param (stops_moreParams hc h₂) h₁) ?_
    exact Reads.bind ih (reads_pure.2 ⟨rfl, rfl⟩)

theorem reads_params {us rest : List Token} {vs : List Variable} {c : Token}
    (hc : c.isWord ")" = true) :
    Params us vs → Reads (params fin (us ++ c :: rest)) vs (c :: rest)
  | .void ht => by
    rw [List.singleton_append, params, accept?_cons ht]
    exact reads_ok.2 ⟨rfl, rfl⟩
  | .list ht h₁ h₂ => by
    rw [List.append_assoc, params, accept?_eq_none_iff.2 (by simpa [Stops] using ht)]
    refine Reads.bind (reads_param (stops_moreParams hc h₂) h₁) ?_
    exact Reads.bind (reads_moreParams hc h₂) (reads_pure.2 ⟨rfl, rfl⟩)

theorem reads_declaration {us rest : List Token} {d : Decl} :
    Declaration us d → Reads (decl fin (us ++ rest)) d rest
  | .var h => by
    obtain ⟨us', l, ty, x, vs, rfl, hs, hx, hstart, ht⟩ := exists_variableTail fin h
    rw [List.append_assoc, List.cons_append, decl]
    refine Reads.bind (reads_typeSpec (stops_ident hx) hs) ?_
    refine Reads.bind (reads_identifier.2 ⟨x, rfl, hx, rfl, rfl⟩) ?_
    simp only [hstart.accept? (w := "(") (by decide)]
    exact Reads.bind (ht rest) (reads_pure.2 ⟨rfl, rfl⟩)
  | .function hs hx ho hp hc hb => by
    rw [List.append_assoc, List.append_assoc, List.cons_append, List.cons_append,
      List.cons_append, decl]
    refine Reads.bind (reads_typeSpec (stops_ident hx) hs) ?_
    refine Reads.bind (reads_identifier.2 ⟨_, rfl, hx, rfl, rfl⟩) ?_
    simp only [accept?_cons ho]
    refine Reads.bind (reads_params hc hp) ?_
    refine Reads.bind (reads_expect.2 ⟨_, rfl, hc, rfl⟩) ?_
    exact Reads.bind (reads_body hb) (reads_pure.2 ⟨rfl, rfl⟩)

theorem exists_cons_declaration {us : List Token} {d : Decl} :
    Declaration us d → ∃ t vs, us = t :: vs
  | .var h => by
    obtain ⟨us', _, _, x, vs, rfl, hs, _⟩ := exists_variableTail .first h
    obtain ⟨t, ws, _, rfl, _⟩ := exists_baseType hs
    exact ⟨t, _, rfl⟩
  | .function hs _ _ _ _ _ => by
    obtain ⟨t, vs, _, rfl, _⟩ := exists_baseType hs
    exact ⟨t, _, rfl⟩

theorem decls_cons {t : Token} {ts rest : List Token} {d : Decl} (ht : t.kind ≠ .eof)
    (h : Reads (decl fin (t :: ts)) d rest) :
    decls fin (t :: ts) = (d :: ·) <$> decls fin rest := by
  obtain ⟨_, hread⟩ := h
  rw [decls, if_neg ht, hread]
  rfl

/-- Whole declarations are read whatever follows them. -/
theorem decls_append {us : List Token} {ds : List Decl} (h : Grammar.Program us ds)
    (rest : List Token) : decls fin (us ++ rest) = (ds ++ ·) <$> decls fin rest := by
  induction h with
  | nil => exact (id_map _).symm
  | @cons vs ws d ds hd _ ih =>
    obtain ⟨t, vs, rfl⟩ := exists_cons_declaration hd
    have ht : t.kind ≠ .eof := Declaration.ne_eof hd t List.mem_cons_self
    have hread : Reads (decl fin (t :: (vs ++ (ws ++ rest)))) d (ws ++ rest) :=
      reads_declaration hd
    rw [List.append_assoc, List.cons_append, decls_cons ht hread, ih, Functor.map_map]
    rfl

/-- What is spelled as a program is read as one, where the tokens end. -/
theorem decls_of_program {us rest : List Token} {p : Bpl.Program}
    (hend : ∀ t ∈ rest.head?, t.kind = .eof) (h : Grammar.Program us p) :
    decls fin (us ++ rest) = .ok p := by
  have hrest : decls fin rest = .ok [] := by
    cases rest with
    | nil => rw [decls]
    | cons t rest => rw [decls, if_pos (hend t rfl)]
  rw [decls_append h, hrest]
  exact congrArg Except.ok (List.append_nil p)

end Parsing

theorem parse_of_program {us rest : List Token} {p : Program}
    (hend : ∀ t ∈ rest.head?, t.kind = .eof) (h : Grammar.Program us p) :
    parse (us ++ rest) = .ok p :=
  Parsing.decls_of_program hend h

/-- The parser accepts what the grammar spells with the tokens before the first end token, and
gives the one program that they spell. -/
theorem parse_eq_ok_iff_program (ts : List Token) :
    (∀ p, parse ts = .ok p ↔ Grammar.Program (ts.takeWhile (·.kind ≠ .eof)) p) ∧
      ∀ us p p', Grammar.Program us p → Grammar.Program us p' → p = p' := by
  constructor
  · intro p
    constructor
    · intro h
      obtain ⟨us, rest, rfl, j, hend⟩ := Parsing.program_of_decls _ ts h
      have hus : ∀ t ∈ us, decide (t.kind ≠ .eof) = true := fun t ht => by
        simpa using j.ne_eof t ht
      have hrest : rest.takeWhile (fun t => decide (t.kind ≠ .eof)) = [] := by
        cases rest with
        | nil => rfl
        | cons t rest => simp [hend t rfl]
      rw [List.takeWhile_append_of_pos hus, hrest, List.append_nil]
      exact j
    · intro h
      have hend : ∀ t ∈ (ts.dropWhile (·.kind ≠ .eof)).head?, t.kind = .eof := by
        intro t ht
        have := List.head?_dropWhile_not (fun t : Token => decide (t.kind ≠ .eof)) ts
        rw [ht] at this
        simpa using this
      have := parse_of_program hend h
      rwa [List.takeWhile_append_dropWhile] at this
  · intro us p p' h h'
    have hend : ∀ t ∈ ([] : List Token).head?, t.kind = .eof := by simp
    exact Except.ok.inj ((parse_of_program hend h).symm.trans (parse_of_program hend h'))

end Bpl
