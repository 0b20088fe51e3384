import Bpl.Proofs.Parsing.Reads

namespace Bpl.Parsing

open Grammar

mutual

/-- What is read as an expression is spelled by the tokens that the reading takes. -/
theorem assignment_of_reads (fin : Location) (ts : List Token) {e : Expr} {rest : List Token}
    (h : Reads (expr fin ts) e rest) : ∃ us, ts = us ++ rest ∧ Assignment us e := by
  rw [expr] at h
  simp only [reads_bind] at h
  obtain ⟨target, r, hr, ht, h⟩ := h
  obtain ⟨us, hts, jt⟩ := comparison_of_reads fin ts ht
  split at h
  · rw [reads_pure] at h
    obtain ⟨rfl, rfl⟩ := h
    exact ⟨us, hts, .comparison jt⟩
  · next l r₁ hr₁ ha =>
    obtain ⟨t, rfl, hw, rfl⟩ := accept?_eq_some_iff.1 ha
    simp only [reads_bind, reads_pure] at h
    obtain ⟨value, r₂, _, hv, rfl, rfl⟩ := h
    obtain ⟨vs, rfl, jv⟩ := assignment_of_reads fin r₁ hv
    exact ⟨us ++ t :: vs, by simp [hts], .assign jt hw jv⟩
termination_by 8 * ts.length + 7
decreasing_by all_goals simp only [List.length_cons] at *; omega

theorem comparison_of_reads (fin : Location) (ts : List Token) {e : Expr} {rest : List Token}
    (h : Reads (comparison fin ts) e rest) : ∃ us, ts = us ++ rest ∧ Comparison us e := by
  rw [comparison] at h
  simp only [reads_bind] at h
  obtain ⟨left, r, hr, hl, h⟩ := h
  obtain ⟨us, hts, jl⟩ := chain_of_reads fin .sum ts hl
  split at h
  · rw [reads_pure] at h
    obtain ⟨rfl, rfl⟩ := h
    exact ⟨us, hts, .sum jl⟩
  · next l op r₁ hr₁ ho =>
    obtain ⟨t, rfl, hm, hop, rfl⟩ := operator?_eq_some_iff.1 ho
    simp only [reads_bind, reads_pure] at h
    obtain ⟨right, r₂, _, hq, rfl, rfl⟩ := h
    obtain ⟨vs, rfl, jr⟩ := chain_of_reads fin .sum r₁ hq
    exact ⟨us ++ t :: vs, by simp [hts], .compare jl hm hop jr⟩
termination_by 8 * ts.length + 6
decreasing_by all_goals simp only [List.length_cons, Level.rank] at *; omega

theorem chain_of_reads (fin : Location) (level : Level) (ts : List Token) {e : Expr}
    {rest : List Token} (h : Reads (chain fin level ts) e rest) :
    ∃ us, ts = us ++ rest ∧ Chain level us e := by
  simp only [chain, reads_bind, reads_pure] at h
  obtain ⟨left, r, hr, hl, _, _, _, hw, rfl, rfl⟩ := h
  obtain ⟨us, hts, jl⟩ := operand_of_reads fin level ts hl
  obtain ⟨vs, rfl, j⟩ := chain_of_reads_tail fin level r (.operand jl) hw
  exact ⟨us ++ vs, by simp [hts], j⟩
termination_by 8 * ts.length + 2 * level.rank + 1
decreasing_by all_goals have := level.rank_le; omega

/-- A chain goes on from the operands before it. -/
theorem chain_of_reads_tail (fin : Location) (level : Level) (ts : List Token)
    {us : List Token} {left e : Expr} {rest : List Token} (jl : Chain level us left)
    (h : Reads (chainTail fin level left ts) e rest) :
    ∃ vs, ts = vs ++ rest ∧ Chain level (us ++ vs) e := by
  rw [chainTail] at h
  split at h
  · rw [reads_ok] at h
    obtain ⟨rfl, rfl⟩ := h
    exact ⟨[], rfl, by rwa [List.append_nil]⟩
  · next l op r hr ho =>
    obtain ⟨t, rfl, hm, hop, rfl⟩ := operator?_eq_some_iff.1 ho
    simp only [reads_bind, reads_pure] at h
    obtain ⟨right, r₁, _, hq, _, _, _, hw, rfl, rfl⟩ := h
    obtain ⟨vs, hvs, jr⟩ := operand_of_reads fin level r hq
    obtain ⟨ws, rfl, j⟩ := chain_of_reads_tail fin level r₁ (.more jl hm hop jr) hw
    exact ⟨t :: vs ++ ws, by simp [hvs], by simpa using j⟩
termination_by 8 * ts.length
decreasing_by all_goals have := level.rank_le; simp only [List.length_cons] at *; omega

theorem operand_of_reads (fin : Location) (level : Level) (ts : List Token) {e : Expr}
    {rest : List Token} (h : Reads (operand fin level ts) e rest) :
    ∃ us, ts = us ++ rest ∧ Operand level us e := by
  cases hl : level with
  | sum =>
    rw [hl, operand] at h
    obtain ⟨us, hts, j⟩ := chain_of_reads fin .product ts h
    exact ⟨us, hts, .product j⟩
  | product =>
    rw [hl, operand] at h
    obtain ⟨us, hts, j⟩ := signed_of_reads fin ts h
    exact ⟨us, hts, .signed j⟩
termination_by 8 * ts.length + 2 * level.rank
decreasing_by all_goals simp only [hl, Level.rank]; omega

theorem signed_of_reads (fin : Location) (ts : List Token) {e : Expr} {rest : List Token}
    (h : Reads (unary fin ts) e rest) : ∃ us, ts = us ++ rest ∧ Signed us e := by
  rw [unary] at h
  split at h
  · obtain ⟨us, hts, j⟩ := factor_of_reads fin ts h
    exact ⟨us, hts, .factor j⟩
  · next l op r hr hs =>
    obtain ⟨t, rfl, hw, rfl⟩ := sign?_eq_some_iff.1 hs
    simp only [reads_bind, reads_pure] at h
    obtain ⟨_, _, _, he, rfl, rfl⟩ := h
    obtain ⟨us, rfl, j⟩ := signed_of_reads fin r he
    exact ⟨t :: us, rfl, .sign hw j⟩
termination_by 8 * ts.length + 1
decreasing_by all_goals simp only [List.length_cons] at *; omega

theorem factor_of_reads (fin : Location) (ts : List Token) {e : Expr} {rest : List Token}
    (h : Reads (factor fin ts) e rest) : ∃ us, ts = us ++ rest ∧ Factor us e := by
  cases hts : ts with
  | nil =>
    rw [hts, factor] at h
    exact (reads_error.1 h).elim
  | cons t r =>
    rw [hts, factor] at h
    split at h
    · next ho =>
      simp only [reads_bind, reads_pure, reads_expect] at h
      obtain ⟨_, r₁, _, he, _, _, _, ⟨c, rfl, hc, _⟩, rfl, rfl⟩ := h
      obtain ⟨us, rfl, j⟩ := assignment_of_reads fin r he
      exact ⟨t :: us ++ [c], by simp, .parentheses ho j hc⟩
    · split at h
      · next ht =>
        simp only [reads_bind, reads_pure, reads_expect] at h
        obtain ⟨_, _, _, ⟨o, rfl, ho, _⟩, _, _, _, ⟨c, rfl, hc, _⟩, rfl, rfl⟩ := h
        exact ⟨[t, o, c], rfl, .read ht ho hc⟩
      · split at h
        · next hk =>
          simp only [reads_bind, reads_pure] at h
          obtain ⟨_, _, _, hn, rfl, rfl⟩ := h
          exact factor_of_reads_named fin r hk hn
        · next v hk =>
          cases v with
          | none => exact absurd h (by simp [valueOf, Reads, Bind.bind, Except.bind])
          | some v =>
            obtain ⟨rfl, rfl⟩ := reads_pure.1 h
            exact ⟨[t], rfl, .number hk⟩
        · next hk =>
          obtain ⟨rfl, rfl⟩ := reads_ok.1 h
          exact ⟨[t], rfl, .string hk⟩
        all_goals exact (reads_error.1 h).elim
termination_by 8 * ts.length
decreasing_by all_goals simp only [hts, List.length_cons] at *; omega

theorem factor_of_reads_named (fin : Location) (ts : List Token) {t : Token} {e : Expr}
    {rest : List Token} (hk : t.kind = .ident)
    (h : Reads (named fin t.location t.text ts) e rest) :
    ∃ us, t :: ts = us ++ rest ∧ Factor us e := by
  rw [named] at h
  split at h
  · next l r hr ha =>
    obtain ⟨o, rfl, ho, _⟩ := accept?_eq_some_iff.1 ha
    simp only [reads_bind, reads_pure] at h
    obtain ⟨_, _, _, hes, rfl, rfl⟩ := h
    obtain ⟨us, c, rfl, hc, j⟩ := arguments_of_reads fin r hes
    exact ⟨t :: o :: us ++ [c], by simp, .call hk ho j hc⟩
  · split at h
    · next l r hr ha =>
      obtain ⟨o, rfl, ho, _⟩ := accept?_eq_some_iff.1 ha
      simp only [reads_bind, reads_pure, reads_expect] at h
      obtain ⟨_, _, _, he, _, _, _, ⟨c, rfl, hc, _⟩, rfl, rfl⟩ := h
      obtain ⟨us, rfl, j⟩ := assignment_of_reads fin r he
      exact ⟨t :: o :: us ++ [c], by simp, .index hk ho j hc⟩
    · obtain ⟨rfl, rfl⟩ := reads_ok.1 h
      exact ⟨[t], rfl, .name hk⟩
termination_by 8 * ts.length + 1
decreasing_by all_goals simp only [List.length_cons] at *; omega

theorem arguments_of_reads (fin : Location) (ts : List Token) {es : List Expr}
    {rest : List Token} (h : Reads (arguments fin ts) es rest) :
    ∃ us c, ts = us ++ c :: rest ∧ c.isWord ")" = true ∧ Arguments us es := by
  rw [arguments] at h
  split at h
  · next l r hr ha =>
    obtain ⟨c, rfl, hc, _⟩ := accept?_eq_some_iff.1 ha
    obtain ⟨rfl, rfl⟩ := reads_ok.1 h
    exact ⟨[], c, rfl, hc, .nil⟩
  · simp only [reads_bind, reads_pure] at h
    obtain ⟨_, r, _, he, _, _, _, hes, rfl, rfl⟩ := h
    obtain ⟨us, hus, j⟩ := assignment_of_reads fin ts he
    obtain ⟨vs, c, rfl, hc, js⟩ := moreArguments_of_reads fin r hes
    exact ⟨us ++ vs, c, by simp [hus], hc, .cons j js⟩
termination_by 8 * ts.length + 8
decreasing_by all_goals omega

theorem moreArguments_of_reads (fin : Location) (ts : List Token) {es : List Expr}
    {rest : List Token} (h : Reads (moreArguments fin ts) es rest) :
    ∃ us c, ts = us ++ c :: rest ∧ c.isWord ")" = true ∧ MoreArguments us es := by
  rw [moreArguments] at h
  split at h
  · next l r hr ha =>
    obtain ⟨t, rfl, hw, _⟩ := accept?_eq_some_iff.1 ha
    simp only [reads_bind, reads_pure] at h
    obtain ⟨_, r₁, _, he, _, _, _, hes, rfl, rfl⟩ := h
    obtain ⟨us, hus, j⟩ := assignment_of_reads fin r he
    obtain ⟨vs, c, rfl, hc, js⟩ := moreArguments_of_reads fin r₁ hes
    exact ⟨t :: us ++ vs, c, by simp [hus], hc, .cons hw j js⟩
  · simp only [reads_bind, reads_pure, reads_expect] at h
    obtain ⟨_, _, _, ⟨c, rfl, hc, _⟩, rfl, rfl⟩ := h
    exact ⟨[], c, rfl, hc, .nil⟩
termination_by 8 * ts.length
decreasing_by all_goals simp only [List.length_cons] at *; omega

end

theorem typeSpec_of_reads {fin l : Location} {ty : Ty} {ts rest : List Token}
    (h : Reads (typeSpec fin ts) (l, ty) rest) : ∃ us, ts = us ++ rest ∧ TypeSpec us l ty := by
  rw [typeSpec] at h
  split at h
  · exact (reads_error.1 h).elim
  · next l' ty' r hr hb =>
    obtain ⟨t, rfl, ht, rfl⟩ := baseType?_eq_some_iff.1 hb
    split at h
    · obtain ⟨he, rfl⟩ := reads_ok.1 h
      obtain ⟨rfl, rfl⟩ := Prod.mk.inj he
      exact ⟨[t], rfl, .base ht⟩
    · next ha =>
      obtain ⟨s, rfl, hs, _⟩ := accept?_eq_some_iff.1 ha
      obtain ⟨he, rfl⟩ := reads_ok.1 h
      obtain ⟨rfl, rfl⟩ := Prod.mk.inj he
      exact ⟨[t, s], rfl, .pointer ht hs⟩

/-- Only a base type may be that of the elements of an array. -/
theorem bracket?_eq_some {l l' : Location} {ty : Ty} {us ts rest : List Token}
    {h : rest.length < ts.length} (hs : TypeSpec us l ty)
    (hb : bracket? ty ts = some ⟨l', rest, h⟩) :
    ∃ t o, us = [t] ∧ l = t.location ∧ t.isBaseType ty ∧ ts = o :: rest ∧
      o.isWord "[" = true := by
  cases hs with
  | base ht =>
    rw [bracket?] at hb
    split at hb
    · cases hb
    · obtain ⟨o, ho, hw, _⟩ := accept?_eq_some_iff.1 hb
      exact ⟨_, o, rfl, rfl, ht, ho, hw⟩
  | pointer => cases hb

/-- What follows the name of a variable completes its declaration. -/
theorem variableDecl_of_reads_tail {fin l : Location} {ty : Ty} {us ts rest : List Token}
    {x : Token} {v : Variable} (hs : TypeSpec us l ty) (hx : x.kind = .ident)
    (h : Reads (variableTail fin l ty x.text ts) v rest) :
    ∃ vs, ts = vs ++ rest ∧ VariableDecl (us ++ x :: vs) v := by
  rw [variableTail] at h
  split at h
  · simp only [reads_bind, reads_pure, reads_expect] at h
    obtain ⟨_, _, _, ⟨s, rfl, hw, _⟩, rfl, rfl⟩ := h
    exact ⟨[s], rfl, .scalar hs hx hw⟩
  · next l' r hr hb =>
    obtain ⟨t, o, rfl, rfl, ht, rfl, ho⟩ := bracket?_eq_some hs hb
    simp only [reads_bind] at h
    obtain ⟨⟨_, length⟩, r₁, _, hn, h⟩ := h
    obtain ⟨m, rfl, hm, rfl⟩ := reads_number.1 hn
    by_cases hneg : length < 0
    · rw [if_pos hneg] at h
      exact (reads_error.1 h).elim
    · rw [if_neg hneg] at h
      simp only [reads_bind, reads_pure, reads_expect] at h
      obtain ⟨_, _, _, ⟨c, rfl, hc, _⟩, _, _, _, ⟨s, rfl, hw, _⟩, rfl, rfl⟩ := h
      exact ⟨[o, m, c, s], rfl, .array ht hx ho hm (Int64.not_lt.1 hneg) hc hw⟩

theorem variableDecl_of_reads {fin : Location} {ts rest : List Token} {v : Variable}
    (h : Reads (variableDecl fin ts) v rest) : ∃ us, ts = us ++ rest ∧ VariableDecl us v := by
  simp only [variableDecl, reads_bind, reads_pure] at h
  obtain ⟨⟨l, ty⟩, r, _, hs, ⟨l', name⟩, r₁, _, hx, _, _, _, hv, rfl, rfl⟩ := h
  obtain ⟨us, rfl, js⟩ := typeSpec_of_reads hs
  obtain ⟨x, rfl, hk, rfl, rfl⟩ := reads_identifier.1 hx
  obtain ⟨vs, rfl, j⟩ := variableDecl_of_reads_tail js hk hv
  exact ⟨us ++ x :: vs, by simp, j⟩

theorem variableDecls_of_reads (fin : Location) (ts : List Token) {rest : List Token}
    {vs : List Variable} (h : Reads (variableDecls fin ts) vs rest) :
    ∃ us, ts = us ++ rest ∧ VariableDecls us vs := by
  rw [variableDecls] at h
  split at h
  · obtain ⟨rfl, rfl⟩ := reads_ok.1 h
    exact ⟨[], rfl, .nil⟩
  · simp only [reads_bind, reads_pure] at h
    obtain ⟨v, r, _, hv, _, _, _, hvs, rfl, rfl⟩ := h
    obtain ⟨us, hus, j⟩ := variableDecl_of_reads hv
    obtain ⟨ws, rfl, js⟩ := variableDecls_of_reads fin r hvs
    exact ⟨us ++ ws, by simp [hus], .cons j js⟩
termination_by ts.length

theorem assignment_of_reads_parenthesised {fin : Location} {ts rest : List Token} {e : Expr}
    (h : Reads (parenthesised fin ts) e rest) :
    ∃ o us c, ts = o :: us ++ c :: rest ∧ o.isWord "(" = true ∧ Assignment us e ∧
      c.isWord ")" = true := by
  simp only [parenthesised, reads_bind, reads_pure, reads_expect] at h
  obtain ⟨_, _, _, ⟨o, rfl, ho, _⟩, _, _, _, he, _, _, _, ⟨c, rfl, hc, _⟩, rfl, rfl⟩ := h
  obtain ⟨us, rfl, j⟩ := assignment_of_reads fin _ he
  exact ⟨o, us, c, rfl, ho, j, hc⟩

mutual

/-- An open statement is followed by no `else`: it would have taken it. -/
theorem statement_of_reads (fin : Location) (ts : List Token) {s : Stmt} {rest : List Token}
    (h : Reads (stmt fin ts) s rest) :
    ∃ us, ts = us ++ rest ∧ Statement us s ∧ (s.isOpen = true → Stops ["else"] rest) := by
  rw [stmt] at h
  split at h
  · simp only [reads_bind, reads_pure, reads_expect] at h
    obtain ⟨e, r, hr, he, _, _, _, ⟨s, rfl, hs, _⟩, rfl, rfl⟩ := h
    obtain ⟨us, rfl, j⟩ := assignment_of_reads fin _ he
    cases us with
    | nil => simp at hr
    | cons t us => exact ⟨t :: us ++ [s], by simp, .expr j hs, nofun⟩
  · next l r hr hh =>
    obtain ⟨t, rfl, ht, rfl⟩ := head?_eq_some_iff.1 hh
    simp only [reads_bind, reads_pure] at h
    obtain ⟨b, _, _, hb, rfl, rfl⟩ := h
    obtain ⟨us, hus, j, hl⟩ := block_of_reads_tail fin ht r hb
    exact ⟨t :: us, by simp [hus], hl ▸ .compound j, nofun⟩
  · next l r hr hh =>
    obtain ⟨t, rfl, ht, rfl⟩ := head?_eq_some_iff.1 hh
    simp only [reads_bind] at h
    obtain ⟨c, r₁, hr₁, hc, yes, r₂, hr₂, hy, h⟩ := h
    obtain ⟨o, us, p, rfl, ho, jc, hp⟩ := assignment_of_reads_parenthesised hc
    obtain ⟨vs, hvs, jy, hopen⟩ := statement_of_reads fin r₁ hy
    split at h
    · next hn =>
      obtain ⟨rfl, rfl⟩ := reads_pure.1 h
      exact ⟨t :: o :: us ++ p :: vs, by simp [hvs], .ifThen ht ho jc hp jy,
        fun _ => accept?_eq_none_iff.1 hn⟩
    · next l' r₃ hr₃ ha =>
      obtain ⟨w, rfl, hw, _⟩ := accept?_eq_some_iff.1 ha
      simp only [reads_bind, reads_pure] at h
      obtain ⟨no, _, _, hno, rfl, rfl⟩ := h
      obtain ⟨ws, rfl, jn, hopen'⟩ := statement_of_reads fin r₃ hno
      -- were the first branch open, the `else` would be its own
      have hclosed : yes.isOpen = false := by
        by_contra hc
        have := hopen (Bool.eq_true_of_not_eq_false hc) w rfl "else" (List.mem_singleton.2 rfl)
        simp [hw] at this
      exact ⟨t :: o :: us ++ p :: vs ++ w :: ws, by simp [hvs],
        .ifElse ht ho jc hp jy hclosed hw jn, hopen'⟩
  · next l r hr hh =>
    obtain ⟨t, rfl, ht, rfl⟩ := head?_eq_some_iff.1 hh
    simp only [reads_bind, reads_pure] at h
    obtain ⟨c, r₁, hr₁, hc, body, r₂, hr₂, hb, rfl, rfl⟩ := h
    obtain ⟨o, us, p, rfl, ho, jc, hp⟩ := assignment_of_reads_parenthesised hc
    obtain ⟨vs, hvs, jb, hopen⟩ := statement_of_reads fin r₁ hb
    exact ⟨t :: o :: us ++ p :: vs, by simp [hvs], .whileDo ht ho jc hp jb, hopen⟩
  · next l r hr hh =>
    obtain ⟨t, rfl, ht, rfl⟩ := head?_eq_some_iff.1 hh
    split at h
    · next ha =>
      obtain ⟨s, rfl, hs, _⟩ := accept?_eq_some_iff.1 ha
      obtain ⟨rfl, rfl⟩ := reads_pure.1 h
      exact ⟨[t, s], rfl, .retNone ht hs, nofun⟩
    · simp only [reads_bind, reads_pure, reads_expect] at h
      obtain ⟨e, _, _, he, _, _, _, ⟨s, rfl, hs, _⟩, rfl, rfl⟩ := h
      obtain ⟨us, rfl, j⟩ := assignment_of_reads fin _ he
      exact ⟨t :: us ++ [s], by simp, .retSome ht j hs, nofun⟩
  · next l r hr hh =>
    obtain ⟨t, rfl, ht, rfl⟩ := head?_eq_some_iff.1 hh
    simp only [reads_bind, reads_pure, reads_expect] at h
    obtain ⟨e, _, _, he, _, _, _, ⟨s, rfl, hs, _⟩, rfl, rfl⟩ := h
    obtain ⟨o, us, p, rfl, ho, j, hp⟩ := assignment_of_reads_parenthesised he
    exact ⟨t :: o :: us ++ [p, s], by simp, .write ht ho j hp hs, nofun⟩
  · next l r hr hh =>
    obtain ⟨t, rfl, ht, rfl⟩ := head?_eq_some_iff.1 hh
    simp only [reads_bind, reads_pure, reads_expect] at h
    obtain ⟨_, _, _, ⟨o, rfl, ho, _⟩, _, _, _, ⟨c, rfl, hc, _⟩, _, _, _, ⟨s, rfl, hs, _⟩, rfl,
      rfl⟩ := h
    exact ⟨[t, o, c, s], rfl, .writeln ht ho hc hs, nofun⟩
termination_by 4 * ts.length + 1
decreasing_by all_goals simp only [List.length_cons] at *; omega

theorem block_of_reads_tail (fin : Location) {o : Token} (ho : o.isWord "\x7b" = true)
    (ts : List Token) {b : Bpl.Block} {rest : List Token}
    (h : Reads (blockTail fin o.location ts) b rest) :
    ∃ us, ts = us ++ rest ∧ Grammar.Block (o :: us) b ∧ b.location = o.location := by
  simp only [blockTail, reads_bind, reads_pure] at h
  obtain ⟨ds, r, _, hds, ss, _, _, hss, rfl, rfl⟩ := h
  obtain ⟨us, hus, jd⟩ := variableDecls_of_reads fin ts hds
  obtain ⟨vs, c, rfl, hc, js⟩ := statements_of_reads fin r hss
  exact ⟨us ++ vs ++ [c], by simp [hus], by simpa using Grammar.Block.mk ho jd js hc, rfl⟩
termination_by 4 * ts.length + 3
decreasing_by all_goals omega

theorem statements_of_reads (fin : Location) (ts : List Token) {ss : List Stmt}
    {rest : List Token} (h : Reads (stmts fin ts) ss rest) :
    ∃ us c, ts = us ++ c :: rest ∧ c.isWord "\x7d" = true ∧ Statements us ss := by
  rw [stmts] at h
  split at h
  · next l r hr ha =>
    obtain ⟨c, rfl, hc, _⟩ := accept?_eq_some_iff.1 ha
    obtain ⟨rfl, rfl⟩ := reads_ok.1 h
    exact ⟨[], c, rfl, hc, .nil⟩
  · simp only [reads_bind, reads_pure] at h
    obtain ⟨s, r, _, hs, _, _, _, hss, rfl, rfl⟩ := h
    obtain ⟨us, hus, j, _⟩ := statement_of_reads fin ts hs
    obtain ⟨vs, c, rfl, hc, js⟩ := statements_of_reads fin r hss
    exact ⟨us ++ vs, c, by simp [hus], hc, .cons j js⟩
termination_by 4 * ts.length + 2
decreasing_by all_goals omega

end

theorem block_of_reads {fin : Location} {ts rest : List Token} {b : Bpl.Block}
    (h : Reads (block fin ts) b rest) : ∃ us, ts = us ++ rest ∧ Grammar.Block us b := by
  simp only [block, reads_bind, reads_pure, reads_expect] at h
  obtain ⟨_, r, _, ⟨o, rfl, ho, rfl⟩, _, _, _, hb, rfl, rfl⟩ := h
  obtain ⟨us, rfl, j, _⟩ := block_of_reads_tail fin ho r hb
  exact ⟨o :: us, rfl, j⟩

theorem param_of_reads {fin : Location} {ts rest : List Token} {v : Variable}
    (h : Reads (param fin ts) v rest) : ∃ us, ts = us ++ rest ∧ Param us v := by
  simp only [param, reads_bind] at h
  obtain ⟨⟨l, ty⟩, r, _, hs, ⟨l', name⟩, r₁, _, hx, h⟩ := h
  obtain ⟨us, rfl, js⟩ := typeSpec_of_reads hs
  obtain ⟨x, rfl, hk, rfl, rfl⟩ := reads_identifier.1 hx
  split at h
  · obtain ⟨rfl, rfl⟩ := reads_pure.1 h
    exact ⟨us ++ [x], by simp, .scalar js hk⟩
  · next l' r₂ _ hb =>
    obtain ⟨t, o, rfl, rfl, ht, rfl, ho⟩ := bracket?_eq_some js hb
    simp only [reads_bind, reads_pure, reads_expect] at h
    obtain ⟨_, _, _, ⟨c, rfl, hc, _⟩, rfl, rfl⟩ := h
    exact ⟨[t, x, o, c], rfl, .array ht hk ho hc⟩

theorem moreParams_of_reads (fin : Location) (ts : List Token) {rest : List Token}
    {vs : List Variable} (h : Reads (moreParams fin ts) vs rest) :
    ∃ us, ts = us ++ rest ∧ MoreParams us vs := by
  rw [moreParams] at h
  split at h
  · obtain ⟨rfl, rfl⟩ := reads_ok.1 h
    exact ⟨[], rfl, .nil⟩
  · next l r _ ha =>
    obtain ⟨t, rfl, ht, _⟩ := accept?_eq_some_iff.1 ha
    simp only [reads_bind, reads_pure] at h
    obtain ⟨v, r₁, _, hv, _, _, _, hvs, rfl, rfl⟩ := h
    obtain ⟨us, hus, j⟩ := param_of_reads hv
    obtain ⟨ws, rfl, js⟩ := moreParams_of_reads fin r₁ hvs
    exact ⟨t :: us ++ ws, by simp [hus], .cons ht j js⟩
termination_by ts.length
decreasing_by simp only [List.length_cons] at *; omega

theorem params_of_reads {fin : Location} {ts rest : List Token} {vs : List Variable}
    (h : Reads (params fin ts) vs rest) : ∃ us, ts = us ++ rest ∧ Params us vs := by
  rw [params] at h
  split at h
  · next l r _ ha =>
    obtain ⟨t, rfl, ht, _⟩ := accept?_eq_some_iff.1 ha
    obtain ⟨rfl, rfl⟩ := reads_ok.1 h
    exact ⟨[t], rfl, .void ht⟩
  · next hn =>
    simp only [reads_bind, reads_pure] at h
    obtain ⟨v, r, hr, hv, _, _, _, hvs, rfl, rfl⟩ := h
    obtain ⟨us, rfl, j⟩ := param_of_reads hv
    obtain ⟨ws, rfl, js⟩ := moreParams_of_reads fin r hvs
    cases us with
    | nil => simp at hr
    | cons t us =>
      have ht := accept?_eq_none_iff.1 hn t rfl "void" (List.mem_singleton.2 rfl)
      exact ⟨t :: us ++ ws, by simp, .list ht j js⟩

theorem declaration_of_reads {fin : Location} {ts rest : List Token} {d : Decl}
    (h : Reads (decl fin ts) d rest) : ∃ us, ts = us ++ rest ∧ Declaration us d := by
  simp only [decl, reads_bind] at h
  obtain ⟨⟨l, ty⟩, r, _, hs, ⟨l', name⟩, r₁, _, hx, h⟩ := h
  obtain ⟨us, rfl, js⟩ := typeSpec_of_reads hs
  obtain ⟨x, rfl, hk, rfl, rfl⟩ := reads_identifier.1 hx
  split at h
  · simp only [reads_bind, reads_pure] at h
    obtain ⟨v, _, _, hv, rfl, rfl⟩ := h
    obtain ⟨vs, rfl, j⟩ := variableDecl_of_reads_tail js hk hv
    exact ⟨us ++ x :: vs, by simp, .var j⟩
  · next l' r₂ _ ha =>
    obtain ⟨o, rfl, ho, _⟩ := accept?_eq_some_iff.1 ha
    simp only [reads_bind, reads_pure, reads_expect] at h
    obtain ⟨ps, _, _, hps, _, _, _, ⟨c, rfl, hc, _⟩, b, _, _, hb, rfl, rfl⟩ := h
    obtain ⟨vs, rfl, jp⟩ := params_of_reads hps
    obtain ⟨ws, rfl, jb⟩ := block_of_reads hb
    exact ⟨us ++ x :: o :: vs ++ c :: ws, by simp, .function js hk ho jp hc jb⟩

/-- Declarations are read up to the end of the list or its first end token. -/
theorem program_of_decls (fin : Location) (ts : List Token) {p : Bpl.Program}
    (h : decls fin ts = .ok p) :
    ∃ us rest, ts = us ++ rest ∧ Grammar.Program us p ∧ ∀ t ∈ rest.head?, t.kind = .eof := by
  cases hts : ts with
  | nil =>
    rw [hts, decls] at h
    cases h
    exact ⟨[], [], rfl, .nil, by simp⟩
  | cons t r =>
    rw [hts, decls] at h
    split at h
    · next hk =>
      cases h
      exact ⟨[], t :: r, rfl, .nil, by simpa using hk⟩
    · simp only [Except.bind_eq_ok_iff] at h
      obtain ⟨⟨d, r₁, hr₁⟩, hd, ds, hds, h⟩ := h
      cases h
      obtain ⟨us, hus, j⟩ := declaration_of_reads ⟨hr₁, hd⟩
      obtain ⟨vs, rest, rfl, js, hend⟩ := program_of_decls fin r₁ hds
      exact ⟨us ++ vs, rest, by simp [hus], .cons j js, hend⟩
termination_by ts.length
decreasing_by simp only [hts, List.length_cons] at *; omega

end Bpl.Parsing
