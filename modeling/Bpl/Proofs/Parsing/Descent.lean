import Bpl.Proofs.Parsing.Stream

namespace Bpl

namespace Parsing

/-- Declarations up to the first end token or the end of the list, and the tokens from there on. -/
def declarations (fin : Location) (ts : List Token) : Reading (List Decl) (ts.length + 1) :=
  match ts with
  | [] => .ok ⟨[], [], Nat.lt_succ_self _⟩
  | t :: r =>
    if t.kind = .eof then .ok ⟨[], t :: r, Nat.lt_succ_self _⟩
    else do
      let ⟨d, r', hd⟩ ← decl fin (t :: r)
      let ⟨ds, r'', hds⟩ ← declarations fin r'
      return ⟨d :: ds, r'', Nat.lt_succ_of_lt (Nat.lt_of_lt_of_le hds hd)⟩
termination_by ts.length
decreasing_by exact hd

theorem declarations_of_end {fin : Location} {ts : List Token}
    (h : ∀ t ∈ ts.head?, t.kind = .eof) :
    declarations fin ts = .ok ⟨[], ts, Nat.lt_succ_self _⟩ := by
  cases ts with
  | nil => rw [declarations]
  | cons t ts => rw [declarations, if_pos (h t rfl)]

theorem value_declarations (fin : Location) (ts : List Token) :
    (declarations fin ts).map Parsed.value = decls fin ts := by
  fun_induction declarations fin ts with
  | case1 => rw [decls]; rfl
  | case2 t r h => rw [decls, if_pos h]; rfl
  | case3 t r h ih =>
    rw [decls, if_neg h]
    cases decl fin (t :: r) with
    | error d => rfl
    | ok p =>
      obtain ⟨d, r', hlt⟩ := p
      change Except.map _ (declarations fin r' >>= _) = decls fin r' >>= _
      rw [← ih r' hlt]
      cases declarations fin r' <;> rfl

end Parsing

namespace TokenStream

open Descent (bind_of_ok bind_of_error ite_of_true ite_of_false)
open Parsing (Level place accept?)

namespace Procedure

/-- The loops that may end before their first turn, with nothing taken. -/
def isLoop : {α : Type} → Procedure α → Bool
  | _, .declarations | _, .moreParams | _, .localDeclarations | _, .chainTail .. => true
  | _, _ => false

/-- A procedure has a higher rank than those that it calls before it has taken a token. -/
def rank : {α : Type} → Procedure α → Nat
  | _, .typeSpec | _, .variableTail .. | _, .moreParams | _, .compound | _, .condition
  | _, .chainTail .. | _, .factor | _, .moreArguments => 0
  | _, .param | _, .localDeclaration | _, .declaration | _, .unary => 1
  | _, .params | _, .localDeclarations | _, .declarations | _, .chain .product => 2
  | _, .chain .sum => 3
  | _, .comparison => 4
  | _, .assignment => 5
  | _, .expression => 6
  | _, .statement | _, .arguments => 7
  | _, .statements => 8

/-- What a procedure makes of a list of tokens. -/
def reading (fin : Location) : {α : Type} → (p : Procedure α) → (ts : List Token) →
    Reading α (ts.length + p.isLoop.toNat)
  | _, .declarations => Parsing.declarations fin
  | _, .typeSpec => Parsing.typeSpec fin
  | _, .declaration => Parsing.decl fin
  | _, .variableTail l ty name => Parsing.variableTail fin l ty name
  | _, .localDeclaration => Parsing.variableDecl fin
  | _, .params => Parsing.params fin
  | _, .moreParams => Parsing.moreParams fin
  | _, .param => Parsing.param fin
  | _, .compound => Parsing.block fin
  | _, .localDeclarations => Parsing.variableDecls fin
  | _, .statements => Parsing.stmts fin
  | _, .statement => Parsing.stmt fin
  | _, .condition => Parsing.parenthesised fin
  | _, .expression | _, .assignment => Parsing.expr fin
  | _, .comparison => Parsing.comparison fin
  | _, .chain level => Parsing.chain fin level
  | _, .chainTail level left => Parsing.chainTail fin level left
  | _, .unary => Parsing.unary fin
  | _, .factor => Parsing.factor fin
  | _, .arguments => Parsing.arguments fin
  | _, .moreArguments => Parsing.moreArguments fin

end Procedure

/-- A call that may be made by `p` at `pos`: at a later token, or at the same one to a procedure of
a lower rank. -/
def Below {α β : Type} (s : TokenStream) (q : Procedure β) (next : Nat) (p : Procedure α)
    (pos : Nat) : Prop :=
  next ≤ s.tokens.length ∧ (pos < next ∨ next = pos ∧ q.rank < p.rank)

variable {α : Type} {s : TokenStream} {call : {β : Type} → Procedure β → Descent β} {pos : Nat}

/-- The calls that `p` may make at `pos` do what the grammar says. -/
structure Serves (s : TokenStream) (call : {β : Type} → Procedure β → Descent β)
    (p : Procedure α) (pos : Nat) : Prop where
  valid : s.Valid
  le : pos ≤ s.tokens.length
  calls : ∀ {β : Type} (q : Procedure β) (next : Nat), s.Below q next p pos →
    s.Matches (call q next) (q.reading s.fin (s.rest next))

namespace Serves

variable {β : Type} {p : Procedure α}

theorem same (h : s.Serves call p pos) (q : Procedure β) (hq : q.rank < p.rank) :
    s.Matches (call q pos) (q.reading s.fin (s.rest pos)) :=
  h.calls q pos ⟨h.le, .inr ⟨rfl, hq⟩⟩

theorem later (h : s.Serves call p pos) (q : Procedure β) {next : Nat}
    (hle : next ≤ s.tokens.length) (hlt : (s.rest next).length < (s.rest pos).length) :
    s.Matches (call q next) (q.reading s.fin (s.rest next)) := by
  refine h.calls q next ⟨hle, .inl ?_⟩
  rw [length_rest, length_rest] at hlt
  omega

end Serves

theorem assignment_matches (h : s.Serves call .assignment pos) :
    s.Matches (s.body call .assignment pos) (Parsing.expr s.fin (s.rest pos)) := by
  rw [body, Parsing.expr]
  refine Matches.bind (h.same .comparison (by decide)) fun target next hlt hle => ?_
  simp only [bind_of_ok (location_apply s next)]
  rcases equal_cases h.valid "=" next with ⟨hnone, hfalse⟩ | ⟨_, hsome, htrue, hle⟩
  · simp only [hnone, ite_of_false hfalse]
    exact .ok hle
  · simp only [hsome, ite_of_true htrue]
    exact Matches.bind (h.later .assignment hle (by omega)) fun value next _ hle => .ok hle

theorem comparison_matches (h : s.Serves call .comparison pos) :
    s.Matches (s.body call .comparison pos) (Parsing.comparison s.fin (s.rest pos)) := by
  rw [body, Parsing.comparison]
  refine Matches.bind (h.same (.chain .sum) (by decide)) fun left next hlt hle => ?_
  rcases operator_cases h.valid comparisonOf_eq_some_iff next with
    ⟨hnone, w, hpeek, hw⟩ | ⟨op, w, _, hsome, hpeek, hw, hskip, hle⟩
  · simp only [hnone, bind_of_ok hpeek, hw]
    exact .ok hle
  · simp only [hsome, bind_of_ok hpeek, hw, bind_of_ok (location_apply s next), bind_of_ok hskip]
    exact Matches.bind (h.later (.chain .sum) hle (by omega)) fun right next _ hle => .ok hle

theorem operand_matches {level : Level} {next : Nat}
    (h : s.Matches (call (operand level) next) ((operand level).reading s.fin (s.rest next))) :
    s.Matches (call (operand level) next) (Parsing.operand s.fin level (s.rest next)) := by
  cases level with
  | sum =>
    rw [Parsing.operand]
    exact h
  | product =>
    rw [Parsing.operand]
    exact h

theorem chain_matches {level : Level} (h : s.Serves call (.chain level) pos) :
    s.Matches (s.body call (.chain level) pos) (Parsing.chain s.fin level (s.rest pos)) := by
  rw [body, Parsing.chain]
  have hrank : (operand level).rank < (Procedure.chain level).rank := by cases level <;> decide
  refine Matches.bind (operand_matches (h.same _ hrank)) fun left next hlt hle => ?_
  exact Matches.relax (h.later (.chainTail level left) hle hlt) fun whole next _ hle => .ok hle

theorem chainTail_matches {level : Level} {left : Expr}
    (h : s.Serves call (.chainTail level left) pos) :
    s.Matches (s.body call (.chainTail level left) pos)
      (Parsing.chainTail s.fin level left (s.rest pos)) := by
  rw [body, Parsing.chainTail]
  rcases operator_cases h.valid (operatorOf_eq_some_iff level) pos with
    ⟨hnone, w, hpeek, hw⟩ | ⟨op, w, hlt, hsome, hpeek, hw, hskip, hle⟩
  · simp only [hnone, bind_of_ok hpeek, hw]
    exact .ok h.le
  · simp only [hsome, bind_of_ok hpeek, hw, bind_of_ok (location_apply s pos), bind_of_ok hskip]
    refine Matches.bind (operand_matches (h.later _ hle hlt)) fun right next hlt hle => ?_
    have hnext : (s.rest next).length < (s.rest pos).length := by omega
    exact Matches.relax (h.later (.chainTail level _) hle hnext) fun whole next _ hle => .ok hle

theorem sign?_of_accept? (op : UnaryOp) {ts r : List Token} {l : Location}
    {hlt : r.length < ts.length} (h : accept? op.symbol ts = some ⟨l, r, hlt⟩) :
    Parsing.sign? ts = some ⟨(l, op), r, hlt⟩ :=
  Parsing.sign?_eq_some_iff.2 (Parsing.accept?_eq_some_iff.1 h)

/-- An operand behind its sign. -/
theorem signed_matches (h : s.Serves call .unary pos) (op : UnaryOp)
    {hlt : (s.rest (pos + 1)).length < (s.rest pos).length}
    (hsome : accept? op.symbol (s.rest pos) =
      some ⟨place s.fin (s.rest pos), s.rest (pos + 1), hlt⟩) (hle : pos < s.tokens.length) :
    s.Matches ((do return .unary (.new (place s.fin (s.rest pos))) op (← call .unary) :
      Descent Expr) (pos + 1)) (Parsing.unary s.fin (s.rest pos)) := by
  rw [Parsing.unary]
  simp only [sign?_of_accept? op hsome]
  exact Matches.bind (h.later .unary hle hlt) fun e next _ hle => .ok hle

theorem unary_matches (h : s.Serves call .unary pos) :
    s.Matches (s.body call .unary pos) (Parsing.unary s.fin (s.rest pos)) := by
  rw [body, bind_of_ok (location_apply s pos)]
  rcases equal_cases h.valid "-" pos with ⟨hneg, hfalse⟩ | ⟨_, hsome, htrue, hle⟩
  · rw [ite_of_false hfalse]
    rcases equal_cases h.valid "&" pos with ⟨haddress, hfalse⟩ | ⟨_, hsome, htrue, hle⟩
    · rw [ite_of_false hfalse]
      rcases equal_cases h.valid "*" pos with ⟨hderef, hfalse⟩ | ⟨_, hsome, htrue, hle⟩
      · have hnone : Parsing.sign? (s.rest pos) = none := by
          refine Parsing.sign?_eq_none (stops_iff_forall_accept?.2 ?_)
          simp [hneg, haddress, hderef]
        rw [ite_of_false hfalse, Parsing.unary]
        simp only [hnone]
        exact h.same .factor (by decide)
      · rw [ite_of_true htrue]
        exact signed_matches h .deref hsome hle
    · rw [ite_of_true htrue]
      exact signed_matches h .address hsome hle
  · rw [ite_of_true htrue]
    exact signed_matches h .neg hsome hle

theorem isWord_eq_false_of_accept? {t : Token} {ts : List Token} {w : String}
    (h : accept? w (t :: ts) = none) : t.isWord w = false :=
  Parsing.accept?_eq_none_iff.1 h t rfl w (List.mem_singleton_self w)

theorem named_matches (h : s.Serves call .factor pos) {next : Nat} (l : Location) (name : String)
    (hle : next ≤ s.tokens.length) (hlt : (s.rest next).length < (s.rest pos).length) :
    s.Matches ((s.equal "(" >>= fun b =>
        if b = true then do return .call (.new l) name (← call .arguments)
        else do
          if ← s.equal "[" then
            let index ← call .expression
            s.skip "]"
            return .index (.new l) (.name (.new l) name) index
          else return .name (.new l) name) next)
      (Parsing.named s.fin l name (s.rest next)) := by
  rw [Parsing.named]
  rcases equal_cases h.valid "(" next with ⟨hparen, hfalse⟩ | ⟨_, hsome, htrue, hle⟩
  · simp only [hparen, ite_of_false hfalse]
    rcases equal_cases h.valid "[" next with ⟨hbracket, hfalse⟩ | ⟨_, hsome, htrue, hle⟩
    · simp only [hbracket, ite_of_false hfalse]
      exact .ok hle
    · simp only [hsome, ite_of_true htrue]
      refine Matches.bind (h.later .expression hle (by omega)) fun index next hlt hle => ?_
      exact Matches.skip h.valid fun hlt hle => .ok hle
  · simp only [hsome, ite_of_true htrue]
    exact Matches.bind (h.later .arguments hle (by omega)) fun args next _ hle => .ok hle

theorem factor_matches (h : s.Serves call .factor pos) :
    s.Matches (s.body call .factor pos) (Parsing.factor s.fin (s.rest pos)) := by
  have hmiss := unexpected_apply (α := Expr) h.valid "an expression" pos
  rw [body, bind_of_ok (location_apply s pos)]
  rcases equal_cases h.valid "(" pos with ⟨hparen, hfalse⟩ | ⟨hlt, hsome, htrue, hle⟩
  · rw [ite_of_false hfalse]
    rcases equal_cases h.valid "read" pos with ⟨hread, hfalse⟩ | ⟨hlt, hsome, htrue, hle⟩
    · rw [ite_of_false hfalse, bind_of_ok rfl]
      cases ht : s.tokens[pos]? with
      | none =>
        rw [rest_of_none ht] at hmiss ⊢
        rw [Parsing.factor]
        simp only [Option.map_none, hmiss]
        exact .error
      | some t =>
        rw [rest_of_some ht] at hparen hread hmiss ⊢
        rw [Parsing.factor, if_neg (by simp [isWord_eq_false_of_accept? hparen]),
          if_neg (by simp [isWord_eq_false_of_accept? hread])]
        -- The kind decides: a mark or a keyword was taken above, or it begins no factor.
        have hkind : (t.token s.source).kind = t.kind := rfl
        cases hk : t.kind with
        | ident =>
          simp only [Option.map_some, hkind, hk, bind_of_ok (identifier_apply h.valid ht hk)]
          refine Matches.relax ?_ fun e next _ hle => .ok hle
          refine named_matches h t.location _ (lt_of_some ht) ?_
          rw [rest_of_some ht]
          exact Nat.lt_succ_self _
        | number value =>
          have hnumber := number_apply ht hk
          simp only [Option.map_some, hkind, hk]
          cases value with
          | none =>
            rw [bind_of_error hnumber]
            exact .error
          | some value =>
            rw [bind_of_ok hnumber]
            exact .ok (lt_of_some ht)
        | string =>
          simp only [Option.map_some, hkind, hk, bind_of_ok (string_apply h.valid ht hk)]
          exact .ok (lt_of_some ht)
        | _ =>
          simp only [Option.map_some, hkind, hk, hmiss]
          exact .error
    · rw [ite_of_true htrue]
      obtain ⟨t, ht, hw, -⟩ := Parsing.accept?_eq_some_iff.1 hsome
      rw [ht] at hparen ⊢
      rw [Parsing.factor, if_neg (by simp [isWord_eq_false_of_accept? hparen]), if_pos hw]
      refine Matches.skip h.valid fun hlt hle => ?_
      exact Matches.skip h.valid fun hlt hle => .ok hle
  · rw [ite_of_true htrue]
    obtain ⟨t, ht, hw, -⟩ := Parsing.accept?_eq_some_iff.1 hsome
    rw [ht, Parsing.factor, if_pos hw]
    refine Matches.bind (h.later .expression hle hlt) fun e next hlt hle => ?_
    exact Matches.skip h.valid fun hlt hle => .ok hle

theorem arguments_matches (h : s.Serves call .arguments pos) :
    s.Matches (s.body call .arguments pos) (Parsing.arguments s.fin (s.rest pos)) := by
  rw [body, Parsing.arguments]
  rcases equal_cases h.valid ")" pos with ⟨hnone, hfalse⟩ | ⟨hlt, hsome, htrue, hle⟩
  · simp only [hnone, ite_of_false hfalse]
    refine Matches.bind (h.same .expression (by decide)) fun arg next hlt hle => ?_
    exact Matches.bind (h.later .moreArguments hle hlt) fun args next _ hle => .ok hle
  · simp only [hsome, ite_of_true htrue]
    exact .ok hle

theorem moreArguments_matches (h : s.Serves call .moreArguments pos) :
    s.Matches (s.body call .moreArguments pos) (Parsing.moreArguments s.fin (s.rest pos)) := by
  rw [body, Parsing.moreArguments]
  rcases equal_cases h.valid "," pos with ⟨hnone, hfalse⟩ | ⟨hlt, hsome, htrue, hle⟩
  · simp only [hnone, ite_of_false hfalse]
    exact Matches.skip h.valid fun hlt hle => .ok hle
  · simp only [hsome, ite_of_true htrue]
    refine Matches.bind (h.later .expression hle hlt) fun arg next hlt hle => ?_
    exact Matches.bind (h.later .moreArguments hle (by omega)) fun args next _ hle => .ok hle

theorem condition_matches (h : s.Serves call .condition pos) :
    s.Matches (s.body call .condition pos) (Parsing.parenthesised s.fin (s.rest pos)) := by
  rw [body, Parsing.parenthesised]
  refine Matches.skip h.valid fun hlt hle => ?_
  refine Matches.bind (h.later .expression hle hlt) fun e next hlt hle => ?_
  exact Matches.skip h.valid fun hlt hle => .ok hle

theorem expression_matches (h : s.Serves call .expression pos) :
    s.Matches (s.body call .expression pos) (Parsing.expr s.fin (s.rest pos)) := by
  rw [body]
  exact h.same .assignment (by decide)

theorem typeSpec_matches (h : s.Serves call .typeSpec pos) :
    s.Matches (s.body call .typeSpec pos) (Parsing.typeSpec s.fin (s.rest pos)) := by
  rw [body, Parsing.typeSpec, bind_of_ok (location_apply s pos)]
  rcases baseType_cases h.valid pos with ⟨hnone, herror⟩ | ⟨ty, hlt, hsome, hbase, hle⟩
  · rw [bind_of_error herror]
    simp only [hnone]
    exact .error
  · rw [bind_of_ok hbase]
    simp only [hsome]
    rcases equal_cases h.valid "*" (pos + 1) with ⟨hnone, hfalse⟩ | ⟨_, hsome, htrue, hle⟩
    · simp only [hnone, ite_of_false hfalse]
      exact .ok hle
    · simp only [hsome, ite_of_true htrue]
      exact .ok hle

theorem variableTail_matches {l : Location} {ty : Ty} {name : String}
    (h : s.Serves call (.variableTail l ty name) pos) :
    s.Matches (s.body call (.variableTail l ty name) pos)
      (Parsing.variableTail s.fin l ty name (s.rest pos)) := by
  rw [body, Parsing.variableTail]
  rcases bracket_cases h.valid ty pos with ⟨hnone, hfalse⟩ | ⟨hlt, hsome, htrue, hle⟩
  · simp only [hnone, ite_of_false hfalse]
    exact Matches.skip h.valid fun hlt hle => .ok hle
  · simp only [hsome, ite_of_true htrue]
    refine Matches.bind (number_matches h.valid _) fun v next hlt hle => ?_
    obtain ⟨m, length⟩ := v
    change s.Matches ((if length < 0 then _ else _ : Descent Variable) next)
      (if length < 0 then _ else _)
    split
    · exact .error
    · refine Matches.skip h.valid fun hlt hle => ?_
      exact Matches.skip h.valid fun hlt hle => .ok hle

theorem localDeclaration_matches (h : s.Serves call .localDeclaration pos) :
    s.Matches (s.body call .localDeclaration pos) (Parsing.variableDecl s.fin (s.rest pos)) := by
  rw [body, Parsing.variableDecl]
  refine Matches.bind (h.same .typeSpec (by decide)) fun spec next hlt hle => ?_
  refine Matches.bind (identifier_matches h.valid next) fun name next hlt hle => ?_
  exact Matches.relax (h.later (.variableTail _ _ _) hle (by omega)) fun v next _ hle => .ok hle

theorem params_matches (h : s.Serves call .params pos) :
    s.Matches (s.body call .params pos) (Parsing.params s.fin (s.rest pos)) := by
  rw [body, Parsing.params]
  rcases equal_cases h.valid "void" pos with ⟨hnone, hfalse⟩ | ⟨hlt, hsome, htrue, hle⟩
  · simp only [hnone, ite_of_false hfalse]
    refine Matches.bind (h.same .param (by decide)) fun v next hlt hle => ?_
    exact Matches.bind (h.later .moreParams hle hlt) fun vs next _ hle => .ok hle
  · simp only [hsome, ite_of_true htrue]
    exact .ok hle

theorem moreParams_matches (h : s.Serves call .moreParams pos) :
    s.Matches (s.body call .moreParams pos) (Parsing.moreParams s.fin (s.rest pos)) := by
  rw [body, Parsing.moreParams]
  rcases equal_cases h.valid "," pos with ⟨hnone, hfalse⟩ | ⟨hlt, hsome, htrue, hle⟩
  · simp only [hnone, ite_of_false hfalse]
    exact .ok h.le
  · simp only [hsome, ite_of_true htrue]
    refine Matches.bind (h.later .param hle hlt) fun v next hlt hle => ?_
    exact Matches.bind (h.later .moreParams hle (by omega)) fun vs next _ hle => .ok hle

theorem param_matches (h : s.Serves call .param pos) :
    s.Matches (s.body call .param pos) (Parsing.param s.fin (s.rest pos)) := by
  rw [body, Parsing.param]
  refine Matches.bind (h.same .typeSpec (by decide)) fun spec next hlt hle => ?_
  refine Matches.bind (identifier_matches h.valid next) fun name next hlt hle => ?_
  obtain ⟨l, ty⟩ := spec
  obtain ⟨m, x⟩ := name
  rcases bracket_cases h.valid ty next with ⟨hnone, hfalse⟩ | ⟨_, hsome, htrue, hle⟩
  · simp only [hnone, ite_of_false hfalse]
    exact .ok hle
  · simp only [hsome, ite_of_true htrue]
    exact Matches.skip h.valid fun hlt hle => .ok hle

theorem localDeclarations_matches (h : s.Serves call .localDeclarations pos) :
    s.Matches (s.body call .localDeclarations pos)
      (Parsing.variableDecls s.fin (s.rest pos)) := by
  rw [body, Parsing.variableDecls]
  obtain ⟨w, hpeek, hw⟩ := peekText_base h.valid pos
  rw [bind_of_ok hpeek]
  cases hbase : Parsing.baseType? (s.rest pos) with
  | none =>
    rw [if_neg (by rw [hw, hbase]; simp)]
    exact .ok h.le
  | some p =>
    rw [if_pos (by rw [hw, hbase]; simp)]
    refine Matches.bind (h.same .localDeclaration (by decide)) fun v next hlt hle => ?_
    exact Matches.bind (h.later .localDeclarations hle hlt) fun vs next _ hle => .ok hle

theorem compound_matches (h : s.Serves call .compound pos) :
    s.Matches (s.body call .compound pos) (Parsing.block s.fin (s.rest pos)) := by
  rw [body, Parsing.block, bind_of_ok (location_apply s pos)]
  refine Matches.skip h.valid fun hlt hle => ?_
  simp only [Parsing.blockTail, bind_assoc]
  refine Matches.bind (h.later .localDeclarations hle hlt) fun vs next hlt hle => ?_
  refine Matches.bind (h.later .statements hle (by omega)) fun ss next hlt hle => ?_
  exact .ok hle

theorem statements_matches (h : s.Serves call .statements pos) :
    s.Matches (s.body call .statements pos) (Parsing.stmts s.fin (s.rest pos)) := by
  rw [body, Parsing.stmts]
  rcases equal_cases h.valid "\x7d" pos with ⟨hnone, hfalse⟩ | ⟨hlt, hsome, htrue, hle⟩
  · simp only [hnone, ite_of_false hfalse]
    refine Matches.bind (h.same .statement (by decide)) fun x next hlt hle => ?_
    exact Matches.bind (h.later .statements hle hlt) fun xs next _ hle => .ok hle
  · simp only [hsome, ite_of_true htrue]
    exact .ok hle

theorem statement_matches (h : s.Serves call .statement pos) :
    s.Matches (s.body call .statement pos) (Parsing.stmt s.fin (s.rest pos)) := by
  rw [body, Parsing.stmt, bind_of_ok (location_apply s pos)]
  rcases head_cases h.valid pos with
    ⟨hnone, w, hpeek, hw⟩ | ⟨head, w, hlt, hsome, hpeek, hw, hskip, hle⟩
  · rw [bind_of_ok hpeek]
    simp only [hnone, hw]
    refine Matches.bind (h.same .expression (by decide)) fun e next hlt hle => ?_
    exact Matches.skip h.valid fun hlt hle => .ok hle
  · rw [bind_of_ok hpeek]
    simp only [hsome, hw]
    cases head with
    | brace =>
      -- The statement has only seen the brace: the block takes it.
      have hexpect : Parsing.Reads (Parsing.expect s.fin "\x7b" (s.rest pos)) _ _ :=
        Parsing.reads_expect.2 (Parsing.head?_eq_some_iff.1 hsome)
      obtain ⟨_, hbrace⟩ := hexpect
      have hblock := h.same .compound (by decide)
      change s.Matches _ (Parsing.block s.fin (s.rest pos)) at hblock
      rw [Parsing.block, hbrace] at hblock
      exact Matches.bind (Matches.of_relax hblock) fun b next _ hle => .ok hle
    | ifWord =>
      simp only [bind_of_ok (x := s.skip "if") hskip]
      refine Matches.bind (h.later .condition hle hlt) fun c next hc hle => ?_
      refine Matches.bind (h.later .statement hle (hc.trans hlt)) fun yes next hyes hle => ?_
      rcases equal_cases h.valid "else" next with ⟨hnone, hfalse⟩ | ⟨helse, hsome, htrue, hle⟩
      · simp only [hnone, ite_of_false hfalse]
        exact .ok hle
      · simp only [hsome, ite_of_true htrue]
        have hno := helse.trans (hyes.trans (hc.trans hlt))
        exact Matches.bind (h.later .statement hle hno) fun no next _ hle => .ok hle
    | whileWord =>
      simp only [bind_of_ok (x := s.skip "while") hskip]
      refine Matches.bind (h.later .condition hle hlt) fun c next hlt hle => ?_
      exact Matches.bind (h.later .statement hle (by omega)) fun body next _ hle => .ok hle
    | returnWord =>
      simp only [bind_of_ok (x := s.skip "return") hskip]
      rcases equal_cases h.valid ";" (pos + 1) with ⟨hnone, hfalse⟩ | ⟨_, hsome, htrue, hle⟩
      · simp only [hnone, ite_of_false hfalse]
        refine Matches.bind (h.later .expression hle hlt) fun e next hlt hle => ?_
        exact Matches.skip h.valid fun hlt hle => .ok hle
      · simp only [hsome, ite_of_true htrue]
        exact .ok hle
    | writeWord =>
      simp only [bind_of_ok (x := s.skip "write") hskip, Parsing.parenthesised, bind_assoc]
      refine Matches.skip h.valid fun hlt hle => ?_
      refine Matches.bind (h.later .expression hle (by omega)) fun e next hlt hle => ?_
      refine Matches.skip h.valid fun hlt hle => ?_
      exact Matches.skip h.valid fun hlt hle => .ok hle
    | writelnWord =>
      simp only [bind_of_ok (x := s.skip "writeln") hskip]
      refine Matches.skip h.valid fun hlt hle => ?_
      refine Matches.skip h.valid fun hlt hle => ?_
      exact Matches.skip h.valid fun hlt hle => .ok hle

theorem declaration_matches (h : s.Serves call .declaration pos) :
    s.Matches (s.body call .declaration pos) (Parsing.decl s.fin (s.rest pos)) := by
  rw [body, Parsing.decl]
  refine Matches.bind (h.same .typeSpec (by decide)) fun spec next hlt hle => ?_
  refine Matches.bind (identifier_matches h.valid next) fun name next hlt hle => ?_
  obtain ⟨l, ty⟩ := spec
  obtain ⟨m, x⟩ := name
  rcases equal_cases h.valid "(" next with ⟨hnone, hfalse⟩ | ⟨_, hsome, htrue, hle⟩
  · simp only [hnone, ite_of_false hfalse]
    exact Matches.bind (h.later (.variableTail l ty x) hle (by omega)) fun v next _ hle => .ok hle
  · simp only [hsome, ite_of_true htrue]
    refine Matches.bind (h.later .params hle (by omega)) fun ps next hlt hle => ?_
    refine Matches.skip h.valid fun hlt hle => ?_
    exact Matches.bind (h.later .compound hle (by omega)) fun b next _ hle => .ok hle

theorem declarations_matches (h : s.Serves call .declarations pos) :
    s.Matches (s.body call .declarations pos) (Parsing.declarations s.fin (s.rest pos)) := by
  rw [body]
  rcases isEnd_cases s pos with ⟨hend, htrue⟩ | ⟨t, ht, hk, hfalse⟩
  · rw [Parsing.declarations_of_end hend, ite_of_true htrue]
    exact .ok h.le
  · have hdecl := h.same .declaration (by decide)
    change s.Matches _ (Parsing.decl s.fin (s.rest pos)) at hdecl
    rw [ite_of_false hfalse]
    rw [ht] at hdecl ⊢
    rw [Parsing.declarations, if_neg hk]
    refine Matches.bind hdecl fun d next hlt hle => ?_
    rw [← ht] at hlt
    exact Matches.bind (h.later .declarations hle hlt) fun ds next _ hle => .ok hle

/-- A procedure whose calls do what the grammar says does so as well. -/
theorem body_matches {p : Procedure α} (h : s.Serves call p pos) :
    s.Matches (s.body call p pos) (p.reading s.fin (s.rest pos)) := by
  cases p with
  | declarations => exact declarations_matches h
  | typeSpec => exact typeSpec_matches h
  | declaration => exact declaration_matches h
  | variableTail => exact variableTail_matches h
  | localDeclaration => exact localDeclaration_matches h
  | params => exact params_matches h
  | moreParams => exact moreParams_matches h
  | param => exact param_matches h
  | compound => exact compound_matches h
  | localDeclarations => exact localDeclarations_matches h
  | statements => exact statements_matches h
  | statement => exact statement_matches h
  | condition => exact condition_matches h
  | expression => exact expression_matches h
  | assignment => exact assignment_matches h
  | comparison => exact comparison_matches h
  | chain => exact chain_matches h
  | chainTail => exact chainTail_matches h
  | unary => exact unary_matches h
  | factor => exact factor_matches h
  | arguments => exact arguments_matches h
  | moreArguments => exact moreArguments_matches h

end TokenStream

end Bpl
