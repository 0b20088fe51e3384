import Bpl.Parsing.Program
import Bpl.Proofs.Tree.Moved

namespace Bpl

namespace Parsing

/-- Tokens none of which is read: there are none, or the first of them is an end token. -/
def Ended (ts : List Token) : Prop :=
  ∀ t ∈ ts.head?, t.kind = .eof

/-- Two lists of tokens that are the same up to their places, as far as they are read. What is
missing at their ends is reported at `fin` and `fin'`. -/
structure Twins where
  move : Relocation
  fin : Location
  fin' : Location
  rest : List Token
  rest' : List Token
  ended : Ended rest
  ended' : Ended rest'

variable {α β : Type} [Movable α] [Movable β] {m n m' n' : Nat}

namespace Twins

/-- The list that begins with `us`. -/
abbrev left (w : Twins) (us : List Token) : List Token :=
  us ++ w.rest

/-- The list that begins with `us` at other places. -/
abbrev right (w : Twins) (us : List Token) : List Token :=
  moved w.move us ++ w.rest'

/-- The same is taken from both lists, or nothing from either. -/
def Alike (w : Twins) (o : Option (Parsed α m)) (o' : Option (Parsed α n)) : Prop :=
  o = none ∧ o' = none ∨ ∃ v us h h', o = some ⟨v, w.left us, h⟩ ∧
    o' = some ⟨moved w.move v, w.right us, h'⟩

/-- The same is read from both lists, or both are refused for the same reason: at the same token, or
because they end. -/
inductive Agree (w : Twins) : Reading α m → Reading α n → Prop
  | ok {v : α} {us : List Token} {h : (w.left us).length < m} {h' : (w.right us).length < n} :
      w.Agree (.ok ⟨v, w.left us, h⟩) (.ok ⟨moved w.move v, w.right us, h'⟩)
  | error {d : Diagnostic} {l : Location} :
      d.location? = some l → w.Agree (.error d) (.error (moved w.move d))
  | ended {expected : String} : w.Agree (.error (unexpected w.fin expected w.rest))
      (.error (unexpected w.fin' expected w.rest'))

variable {w : Twins}

theorem Agree.bind {x : Reading α m} {y : Reading α n} {f : Parsed α m → Reading β m'}
    {g : Parsed α n → Reading β n'} (hxy : w.Agree x y)
    (hfg : ∀ v us h h', w.Agree (f ⟨v, w.left us, h⟩) (g ⟨moved w.move v, w.right us, h'⟩)) :
    w.Agree (x >>= f) (y >>= g) := by
  cases hxy with
  | ok => exact hfg _ _ _ _
  | error hl => exact .error hl
  | ended => exact .ended

theorem Agree.unexpected {expected : String} (us : List Token) :
    Agree (α := α) (m := m) (n := n) w (.error (unexpected w.fin expected (w.left us)))
      (.error (unexpected w.fin' expected (w.right us))) := by
  cases us with
  | nil => exact .ended
  | cons t us => exact .error rfl

/-- What no end token is taken for is taken from both lists or from neither. -/
theorem take?_alike (w : Twins) {f : Token → Option α} (heof : ∀ t, t.kind = .eof → f t = none)
    (hmove : ∀ t, f (moved w.move t) = moved w.move (f t)) (us : List Token) :
    w.Alike (take? f (w.left us)) (take? f (w.right us)) := by
  have hended : ∀ {ts : List Token}, Ended ts → take? f ts = none := by
    intro ts hts
    cases ts with
    | nil => rfl
    | cons t ts => rw [take?, heof t (hts t rfl), Option.map_none]
  cases us with
  | nil => exact .inl ⟨hended w.ended, hended w.ended'⟩
  | cons t us =>
    have hf := hmove t
    change take? f (t :: w.left us) = none ∧ take? f (moved w.move t :: w.right us) = none ∨
      ∃ v vs h h', take? f (t :: w.left us) = some ⟨v, w.left vs, h⟩ ∧
        take? f (moved w.move t :: w.right us) = some ⟨moved w.move v, w.right vs, h'⟩
    rw [take?, take?, hf]
    cases f t with
    | none => exact .inl ⟨rfl, rfl⟩
    | some a => exact .inr ⟨a, us, _, _, rfl, rfl⟩

theorem isWord_of_eof {t : Token} (ht : t.kind = .eof) (x : String) : t.isWord x = false := by
  simp [Token.isWord, ht]

theorem accept?_alike (w : Twins) (x : String) (us : List Token) :
    w.Alike (accept? x (w.left us)) (accept? x (w.right us)) := by
  refine take?_alike w (fun t ht => by simp [isWord_of_eof ht]) (fun t => ?_) us
  change (if t.isWord x then _ else _) = _
  split <;> rfl

theorem expect_agree (w : Twins) (x : String) (us : List Token) :
    w.Agree (expect w.fin x (w.left us)) (expect w.fin' x (w.right us)) := by
  rw [expect, expect]
  rcases accept?_alike w x us with ⟨h₁, h₂⟩ | ⟨l, us, _, _, h₁, h₂⟩
  · simp only [h₁, h₂]
    exact .unexpected _
  · simp only [h₁, h₂]
    exact .ok

theorem identifier_agree (w : Twins) (us : List Token) :
    w.Agree (identifier w.fin (w.left us)) (identifier w.fin' (w.right us)) := by
  have htake := take?_alike (α := Location × String) w
    (f := fun t => if t.kind = .ident then some (t.location, t.text) else none)
    (fun t ht => by simp [ht])
    (fun t => (apply_ite (moved w.move) (t.kind = .ident) (some (t.location, t.text)) none).symm) us
  rw [identifier, identifier]
  rcases htake with ⟨h₁, h₂⟩ | ⟨l, us, _, _, h₁, h₂⟩
  · simp only [h₁, h₂]
    exact .unexpected _
  · simp only [h₁, h₂]
    exact .ok

theorem number_of_ended {fin : Location} {ts : List Token} (hts : Ended ts) :
    number fin ts = .error (unexpected fin "a number" ts) := by
  cases ts with
  | nil => rfl
  | cons t ts =>
    obtain ⟨kind, text, start, l⟩ := t
    obtain rfl : kind = .eof := hts _ rfl
    rfl

theorem number_agree (w : Twins) (us : List Token) :
    w.Agree (number w.fin (w.left us)) (number w.fin' (w.right us)) := by
  cases us with
  | nil =>
    change w.Agree (number w.fin w.rest) (number w.fin' w.rest')
    rw [number_of_ended w.ended, number_of_ended w.ended']
    exact .ended
  | cons t us =>
    obtain ⟨kind, text, start, l⟩ := t
    cases kind with
    | number v =>
      cases v with
      | none => exact .error rfl
      | some v => exact .ok
    | _ => exact .error rfl

theorem operator?_alike (w : Twins) (ops : List BinaryOp) (us : List Token) :
    w.Alike (operator? ops (w.left us)) (operator? ops (w.right us)) := by
  refine take?_alike w (fun t ht => by simp [ht]) (fun t => ?_) us
  change (if t.kind = .punctuator then
    (ops.find? (·.symbol == t.text)).map (w.move.place t.location, ·) else none) = _
  split
  · cases ops.find? (·.symbol == t.text) <;> rfl
  · rfl

theorem sign?_alike (w : Twins) (us : List Token) :
    w.Alike (sign? (w.left us)) (sign? (w.right us)) := by
  refine take?_alike w (fun t ht => by simp [isWord_of_eof ht]) (fun t => ?_) us
  change (([.neg, .address, .deref].find? fun op : UnaryOp => t.isWord op.symbol).map
    (w.move.place t.location, ·)) = _
  cases [UnaryOp.neg, .address, .deref].find? fun op => t.isWord op.symbol <;> rfl

theorem factor_of_ended {fin : Location} {ts : List Token} (hts : Ended ts) :
    factor fin ts = .error (unexpected fin "an expression" ts) := by
  cases ts with
  | nil => rw [factor]
  | cons t ts =>
    obtain ⟨kind, text, start, l⟩ := t
    obtain rfl : kind = .eof := hts _ rfl
    rw [factor]
    rfl

mutual

theorem expr_agree (w : Twins) (us : List Token) :
    w.Agree (expr w.fin (w.left us)) (expr w.fin' (w.right us)) := by
  rw [expr, expr]
  refine (comparison_agree w us).bind fun target us _ _ => ?_
  rcases accept?_alike w "=" us with ⟨h₁, h₂⟩ | ⟨l, us, _, _, h₁, h₂⟩
  · simp only [h₁, h₂]
    exact .ok
  · simp only [h₁, h₂]
    exact (expr_agree w us).bind fun value us _ _ => .ok
termination_by 8 * (w.left us).length + 7
decreasing_by all_goals omega

theorem comparison_agree (w : Twins) (us : List Token) :
    w.Agree (comparison w.fin (w.left us)) (comparison w.fin' (w.right us)) := by
  rw [comparison, comparison]
  refine (chain_agree w .sum us).bind fun left us _ _ => ?_
  rcases operator?_alike w comparisons us with ⟨h₁, h₂⟩ | ⟨⟨l, op⟩, us, _, _, h₁, h₂⟩
  · simp only [h₁, h₂]
    exact .ok
  · simp only [h₁, h₂]
    exact (chain_agree w .sum us).bind fun right us _ _ => .ok
termination_by 8 * (w.left us).length + 6
decreasing_by all_goals simp only [Level.rank]; omega

theorem chain_agree (w : Twins) (level : Level) (us : List Token) :
    w.Agree (chain w.fin level (w.left us)) (chain w.fin' level (w.right us)) := by
  rw [chain, chain]
  refine (operand_agree w level us).bind fun left us _ _ => ?_
  exact (chainTail_agree w level left us).bind fun whole us _ _ => .ok
termination_by 8 * (w.left us).length + 2 * level.rank + 1
decreasing_by all_goals have := level.rank_le; omega

theorem chainTail_agree (w : Twins) (level : Level) (left : Expr) (us : List Token) :
    w.Agree (chainTail w.fin level left (w.left us))
      (chainTail w.fin' level (moved w.move left) (w.right us)) := by
  rw [chainTail, chainTail]
  rcases operator?_alike w level.ops us with ⟨h₁, h₂⟩ | ⟨⟨l, op⟩, us, _, _, h₁, h₂⟩
  · simp only [h₁, h₂]
    exact .ok
  · simp only [h₁, h₂]
    refine (operand_agree w level us).bind fun right us _ _ => ?_
    exact (chainTail_agree w level (.binary (.new l) op left right) us).bind
      fun whole us _ _ => .ok
termination_by 8 * (w.left us).length
decreasing_by all_goals have := level.rank_le; omega

theorem operand_agree (w : Twins) (level : Level) (us : List Token) :
    w.Agree (operand w.fin level (w.left us)) (operand w.fin' level (w.right us)) := by
  cases level with
  | sum =>
    rw [operand, operand]
    exact chain_agree w .product us
  | product =>
    rw [operand, operand]
    exact unary_agree w us
termination_by 8 * (w.left us).length + 2 * level.rank
decreasing_by all_goals simp only [Level.rank]; omega

theorem unary_agree (w : Twins) (us : List Token) :
    w.Agree (unary w.fin (w.left us)) (unary w.fin' (w.right us)) := by
  rw [unary, unary]
  rcases sign?_alike w us with ⟨h₁, h₂⟩ | ⟨⟨l, op⟩, us, _, _, h₁, h₂⟩
  · simp only [h₁, h₂]
    exact factor_agree w us
  · simp only [h₁, h₂]
    exact (unary_agree w us).bind fun e us _ _ => .ok
termination_by 8 * (w.left us).length + 1
decreasing_by all_goals omega

theorem factor_agree (w : Twins) (us : List Token) :
    w.Agree (factor w.fin (w.left us)) (factor w.fin' (w.right us)) := by
  match us with
  | [] =>
    change w.Agree (factor w.fin w.rest) (factor w.fin' w.rest')
    rw [factor_of_ended w.ended, factor_of_ended w.ended']
    exact .ended
  | t :: us =>
    change w.Agree (factor w.fin (t :: w.left us)) (factor w.fin' (moved w.move t :: w.right us))
    rw [factor, factor]
    change w.Agree (if t.isWord "(" then _ else if t.isWord "read" then _ else _)
      (if t.isWord "(" then _ else if t.isWord "read" then _ else _)
    by_cases hparen : t.isWord "(" = true
    · rw [if_pos hparen, if_pos hparen]
      refine (expr_agree w us).bind fun e us _ _ => ?_
      exact (expect_agree w ")" us).bind fun _ us _ _ => .ok
    rw [if_neg hparen, if_neg hparen]
    by_cases hread : t.isWord "read" = true
    · rw [if_pos hread, if_pos hread]
      refine (expect_agree w "(" us).bind fun _ us _ _ => ?_
      exact (expect_agree w ")" us).bind fun _ us _ _ => .ok
    rw [if_neg hread, if_neg hread]
    obtain ⟨kind, text, start, l⟩ := t
    cases kind with
    | ident => exact (named_agree w l text us).bind fun e us _ _ => .ok
    | number v =>
      cases v with
      | none => exact .error rfl
      | some v => exact .ok
    | string => exact .ok
    | _ => exact .error rfl
termination_by 8 * (w.left us).length
decreasing_by all_goals simp only [left, List.cons_append, List.length_cons] at *; omega

theorem named_agree (w : Twins) (l : Location) (x : String) (us : List Token) :
    w.Agree (named w.fin l x (w.left us)) (named w.fin' (w.move.place l) x (w.right us)) := by
  rw [named, named]
  rcases accept?_alike w "(" us with ⟨h₁, h₂⟩ | ⟨_, us, _, _, h₁, h₂⟩
  · simp only [h₁, h₂]
    rcases accept?_alike w "[" us with ⟨h₁, h₂⟩ | ⟨_, us, _, _, h₁, h₂⟩
    · simp only [h₁, h₂]
      exact .ok
    · simp only [h₁, h₂]
      refine (expr_agree w us).bind fun i us _ _ => ?_
      exact (expect_agree w "]" us).bind fun _ us _ _ => .ok
  · simp only [h₁, h₂]
    refine (arguments_agree w us).bind fun args us _ _ => ?_
    have hcall : moved w.move (Expr.call (.new l) x args) =
        .call (.new (w.move.place l)) x (moved w.move args) :=
      congrArg (Expr.call _ x) (Expr.movedList_eq w.move args)
    simp only [← hcall]
    exact .ok
termination_by 8 * (w.left us).length + 1
decreasing_by all_goals omega

/-- The arguments of a call, with the parenthesis that closes them. -/
theorem arguments_agree (w : Twins) (us : List Token) :
    w.Agree (arguments w.fin (w.left us)) (arguments w.fin' (w.right us)) := by
  rw [arguments, arguments]
  rcases accept?_alike w ")" us with ⟨h₁, h₂⟩ | ⟨_, us, _, _, h₁, h₂⟩
  · simp only [h₁, h₂]
    refine (expr_agree w us).bind fun arg us _ _ => ?_
    exact (moreArguments_agree w us).bind fun args us _ _ => .ok
  · simp only [h₁, h₂]
    exact .ok
termination_by 8 * (w.left us).length + 8
decreasing_by all_goals omega

theorem moreArguments_agree (w : Twins) (us : List Token) :
    w.Agree (moreArguments w.fin (w.left us)) (moreArguments w.fin' (w.right us)) := by
  rw [moreArguments, moreArguments]
  rcases accept?_alike w "," us with ⟨h₁, h₂⟩ | ⟨_, us, _, _, h₁, h₂⟩
  · simp only [h₁, h₂]
    exact (expect_agree w ")" us).bind fun _ us _ _ => .ok
  · simp only [h₁, h₂]
    refine (expr_agree w us).bind fun arg us _ _ => ?_
    exact (moreArguments_agree w us).bind fun args us _ _ => .ok
termination_by 8 * (w.left us).length
decreasing_by all_goals omega

end

theorem baseType?_alike (w : Twins) (us : List Token) :
    w.Alike (baseType? (w.left us)) (baseType? (w.right us)) := by
  refine take?_alike w (fun t ht => by simp [isWord_of_eof ht]) (fun t => ?_) us
  change ((baseTypes.find? fun r => t.isWord r.1).map fun r => (w.move.place t.location, r.2)) = _
  cases baseTypes.find? fun r => t.isWord r.1 <;> rfl

theorem typeSpec_agree (w : Twins) (us : List Token) :
    w.Agree (typeSpec w.fin (w.left us)) (typeSpec w.fin' (w.right us)) := by
  rw [typeSpec, typeSpec]
  rcases baseType?_alike w us with ⟨h₁, h₂⟩ | ⟨⟨l, ty⟩, us, _, _, h₁, h₂⟩
  · simp only [h₁, h₂]
    exact .unexpected _
  · simp only [h₁, h₂]
    rcases accept?_alike w "*" us with ⟨h₁, h₂⟩ | ⟨_, us, _, _, h₁, h₂⟩
    · simp only [h₁, h₂]
      exact .ok
    · simp only [h₁, h₂]
      exact .ok

theorem bracket?_alike (w : Twins) (ty : Ty) (us : List Token) :
    w.Alike (bracket? ty (w.left us)) (bracket? ty (w.right us)) := by
  rw [bracket?, bracket?]
  split
  · exact .inl ⟨rfl, rfl⟩
  · exact accept?_alike w "[" us

theorem variableTail_agree (w : Twins) (l : Location) (ty : Ty) (x : String) (us : List Token) :
    w.Agree (variableTail w.fin l ty x (w.left us))
      (variableTail w.fin' (w.move.place l) ty x (w.right us)) := by
  rw [variableTail, variableTail]
  rcases bracket?_alike w ty us with ⟨h₁, h₂⟩ | ⟨_, us, _, _, h₁, h₂⟩
  · simp only [h₁, h₂]
    exact (expect_agree w ";" us).bind fun _ us _ _ => .ok
  · simp only [h₁, h₂]
    refine (number_agree w us).bind fun v us _ _ => ?_
    obtain ⟨m, length⟩ := v
    change w.Agree (if length < 0 then _ else _) (if length < 0 then _ else _)
    split
    · exact .error rfl
    · refine (expect_agree w "]" us).bind fun _ us _ _ => ?_
      exact (expect_agree w ";" us).bind fun _ us _ _ => .ok

theorem variableDecl_agree (w : Twins) (us : List Token) :
    w.Agree (variableDecl w.fin (w.left us)) (variableDecl w.fin' (w.right us)) := by
  rw [variableDecl, variableDecl]
  refine (typeSpec_agree w us).bind fun spec us _ _ => ?_
  refine (identifier_agree w us).bind fun name us _ _ => ?_
  exact (variableTail_agree w spec.1 spec.2 name.2 us).bind fun v us _ _ => .ok

theorem variableDecls_agree (w : Twins) (us : List Token) :
    w.Agree (variableDecls w.fin (w.left us)) (variableDecls w.fin' (w.right us)) := by
  rw [variableDecls, variableDecls]
  rcases baseType?_alike w us with ⟨h₁, h₂⟩ | ⟨_, _, _, _, h₁, h₂⟩
  · simp only [h₁, h₂]
    exact .ok
  · simp only [h₁, h₂]
    refine (variableDecl_agree w us).bind fun v us _ _ => ?_
    exact (variableDecls_agree w us).bind fun vs us _ _ => .ok
termination_by (w.left us).length
decreasing_by omega

theorem parenthesised_agree (w : Twins) (us : List Token) :
    w.Agree (parenthesised w.fin (w.left us)) (parenthesised w.fin' (w.right us)) := by
  rw [parenthesised, parenthesised]
  refine (expect_agree w "(" us).bind fun _ us _ _ => ?_
  refine (expr_agree w us).bind fun e us _ _ => ?_
  exact (expect_agree w ")" us).bind fun _ us _ _ => .ok

instance : Movable Head := ⟨fun _ => id⟩

theorem moved_head (m : Relocation) (head : Head) : moved m head = head := rfl

theorem head?_alike (w : Twins) (us : List Token) :
    w.Alike (head? (w.left us)) (head? (w.right us)) := by
  refine take?_alike w (fun t ht => by simp [isWord_of_eof ht]) (fun t => ?_) us
  change ((heads.find? fun r => t.isWord r.1).map fun r => (w.move.place t.location, r.2)) = _
  cases heads.find? fun r => t.isWord r.1 <;> rfl

/-- Where tokens have been read, both lists begin at the same of them. -/
theorem place_right (w : Twins) {us vs : List Token}
    (h : (w.left vs).length < (w.left us).length) :
    place w.fin' (w.right us) = w.move.place (place w.fin (w.left us)) := by
  cases us with
  | nil =>
    simp only [left, List.length_append, List.length_nil] at h
    omega
  | cons t us => rfl

mutual

theorem blockTail_agree (w : Twins) (l : Location) (us : List Token) :
    w.Agree (blockTail w.fin l (w.left us)) (blockTail w.fin' (w.move.place l) (w.right us)) := by
  rw [blockTail, blockTail]
  refine (variableDecls_agree w us).bind fun vs us _ _ => ?_
  refine (stmts_agree w us).bind fun ss us _ _ => ?_
  have hblock : moved w.move (Block.mk l vs ss) =
      .mk (w.move.place l) (moved w.move vs) (moved w.move ss) :=
    congrArg (Block.mk _ _) (Stmt.movedList_eq w.move ss)
  simp only [← hblock]
  exact .ok
termination_by 4 * (w.left us).length + 3
decreasing_by all_goals omega

theorem stmts_agree (w : Twins) (us : List Token) :
    w.Agree (stmts w.fin (w.left us)) (stmts w.fin' (w.right us)) := by
  rw [stmts, stmts]
  rcases accept?_alike w "\x7d" us with ⟨h₁, h₂⟩ | ⟨_, us, _, _, h₁, h₂⟩
  · simp only [h₁, h₂]
    refine (stmt_agree w us).bind fun s us _ _ => ?_
    exact (stmts_agree w us).bind fun ss us _ _ => .ok
  · simp only [h₁, h₂]
    exact .ok
termination_by 4 * (w.left us).length + 2
decreasing_by all_goals omega

theorem stmt_agree (w : Twins) (us : List Token) :
    w.Agree (stmt w.fin (w.left us)) (stmt w.fin' (w.right us)) := by
  rw [stmt, stmt]
  rcases head?_alike w us with ⟨h₁, h₂⟩ | ⟨⟨l, head⟩, us, _, _, h₁, h₂⟩
  · simp only [h₁, h₂]
    refine (expr_agree w us).bind fun e vs hlt _ => ?_
    refine (expect_agree w ";" vs).bind fun _ vs _ _ => ?_
    simp only [place_right w hlt]
    exact .ok
  · simp only [h₁, h₂, moved_mk, moved_head]
    cases head with
    | brace => exact (blockTail_agree w l us).bind fun b us _ _ => .ok
    | ifWord =>
      refine (parenthesised_agree w us).bind fun c us _ _ => ?_
      refine (stmt_agree w us).bind fun yes us _ _ => ?_
      rcases accept?_alike w "else" us with ⟨h₁, h₂⟩ | ⟨_, us, _, _, h₁, h₂⟩
      · simp only [h₁, h₂]
        exact .ok
      · simp only [h₁, h₂]
        exact (stmt_agree w us).bind fun no us _ _ => .ok
    | whileWord =>
      refine (parenthesised_agree w us).bind fun c us _ _ => ?_
      exact (stmt_agree w us).bind fun body us _ _ => .ok
    | returnWord =>
      rcases accept?_alike w ";" us with ⟨h₁, h₂⟩ | ⟨_, us, _, _, h₁, h₂⟩
      · simp only [h₁, h₂]
        refine (expr_agree w us).bind fun e us _ _ => ?_
        exact (expect_agree w ";" us).bind fun _ us _ _ => .ok
      · simp only [h₁, h₂]
        exact .ok
    | writeWord =>
      refine (parenthesised_agree w us).bind fun e us _ _ => ?_
      exact (expect_agree w ";" us).bind fun _ us _ _ => .ok
    | writelnWord =>
      refine (expect_agree w "(" us).bind fun _ us _ _ => ?_
      refine (expect_agree w ")" us).bind fun _ us _ _ => ?_
      exact (expect_agree w ";" us).bind fun _ us _ _ => .ok
termination_by 4 * (w.left us).length + 1
decreasing_by all_goals omega

end

theorem block_agree (w : Twins) (us : List Token) :
    w.Agree (block w.fin (w.left us)) (block w.fin' (w.right us)) := by
  rw [block, block]
  refine (expect_agree w "\x7b" us).bind fun l us _ _ => ?_
  exact (blockTail_agree w l us).bind fun b us _ _ => .ok

theorem param_agree (w : Twins) (us : List Token) :
    w.Agree (param w.fin (w.left us)) (param w.fin' (w.right us)) := by
  rw [param, param]
  refine (typeSpec_agree w us).bind fun spec us _ _ => ?_
  refine (identifier_agree w us).bind fun name us _ _ => ?_
  obtain ⟨l, ty⟩ := spec
  obtain ⟨m, x⟩ := name
  rcases bracket?_alike w ty us with ⟨h₁, h₂⟩ | ⟨_, us, _, _, h₁, h₂⟩
  · simp only [h₁, h₂, moved_mk, moved_ty]
    exact .ok
  · simp only [h₁, h₂, moved_mk, moved_ty]
    exact (expect_agree w "]" us).bind fun _ us _ _ => .ok

theorem moreParams_agree (w : Twins) (us : List Token) :
    w.Agree (moreParams w.fin (w.left us)) (moreParams w.fin' (w.right us)) := by
  rw [moreParams, moreParams]
  rcases accept?_alike w "," us with ⟨h₁, h₂⟩ | ⟨_, us, _, _, h₁, h₂⟩
  · simp only [h₁, h₂]
    exact .ok
  · simp only [h₁, h₂]
    refine (param_agree w us).bind fun v us _ _ => ?_
    exact (moreParams_agree w us).bind fun vs us _ _ => .ok
termination_by (w.left us).length
decreasing_by omega

theorem params_agree (w : Twins) (us : List Token) :
    w.Agree (params w.fin (w.left us)) (params w.fin' (w.right us)) := by
  rw [params, params]
  rcases accept?_alike w "void" us with ⟨h₁, h₂⟩ | ⟨_, us, _, _, h₁, h₂⟩
  · simp only [h₁, h₂]
    refine (param_agree w us).bind fun v us _ _ => ?_
    exact (moreParams_agree w us).bind fun vs us _ _ => .ok
  · simp only [h₁, h₂]
    exact .ok

theorem decl_agree (w : Twins) (us : List Token) :
    w.Agree (decl w.fin (w.left us)) (decl w.fin' (w.right us)) := by
  rw [decl, decl]
  refine (typeSpec_agree w us).bind fun spec us _ _ => ?_
  refine (identifier_agree w us).bind fun name us _ _ => ?_
  obtain ⟨l, ty⟩ := spec
  obtain ⟨m, x⟩ := name
  rcases accept?_alike w "(" us with ⟨h₁, h₂⟩ | ⟨_, us, _, _, h₁, h₂⟩
  · simp only [h₁, h₂]
    exact (variableTail_agree w l ty x us).bind fun v us _ _ => .ok
  · simp only [h₁, h₂]
    refine (params_agree w us).bind fun vs us _ _ => ?_
    refine (expect_agree w ")" us).bind fun _ us _ _ => ?_
    exact (block_agree w us).bind fun b us _ _ => .ok

/-- The same tree comes of both lists, or both are refused for the same reason. -/
inductive Concur (w : Twins) : Except Diagnostic α → Except Diagnostic α → Prop
  | ok {v : α} : w.Concur (.ok v) (.ok (moved w.move v))
  | error {d : Diagnostic} {l : Location} :
      d.location? = some l → w.Concur (.error d) (.error (moved w.move d))
  | ended {expected : String} : w.Concur (.error (unexpected w.fin expected w.rest))
      (.error (unexpected w.fin' expected w.rest'))

theorem Agree.concur {x : Reading α m} {y : Reading α n} {f : Parsed α m → Except Diagnostic β}
    {g : Parsed α n → Except Diagnostic β} (hxy : w.Agree x y)
    (hfg : ∀ v us h h', w.Concur (f ⟨v, w.left us, h⟩) (g ⟨moved w.move v, w.right us, h'⟩)) :
    w.Concur (x >>= f) (y >>= g) := by
  cases hxy with
  | ok => exact hfg _ _ _ _
  | error hl => exact .error hl
  | ended => exact .ended

theorem Concur.bind {x y : Except Diagnostic α} {f g : α → Except Diagnostic β}
    (hxy : w.Concur x y) (hfg : ∀ v, w.Concur (f v) (g (moved w.move v))) :
    w.Concur (x >>= f) (y >>= g) := by
  cases hxy with
  | ok => exact hfg _
  | error hl => exact .error hl
  | ended => exact .ended

theorem Concur.eq_of_ok {v : α} {y : Except Diagnostic α} (h : w.Concur (.ok v) y) :
    y = .ok (moved w.move v) := by
  cases h
  rfl

theorem Concur.eq_of_error {d : Diagnostic} {y : Except Diagnostic α}
    (h : w.Concur (.error d) y) :
    (∃ l, d.location? = some l ∧ y = .error (moved w.move d)) ∨
      ∃ expected, d = unexpected w.fin expected w.rest ∧
        y = .error (unexpected w.fin' expected w.rest') := by
  cases h with
  | error hl => exact .inl ⟨_, hl, rfl⟩
  | ended => exact .inr ⟨_, rfl, rfl⟩

theorem decls_of_ended {fin : Location} {ts : List Token} (hts : Ended ts) :
    decls fin ts = .ok [] := by
  cases ts with
  | nil => rw [decls]
  | cons t ts => rw [decls, if_pos (hts t rfl)]

theorem decls_concur (w : Twins) (us : List Token) :
    w.Concur (decls w.fin (w.left us)) (decls w.fin' (w.right us)) := by
  match us with
  | [] =>
    change w.Concur (decls w.fin w.rest) (decls w.fin' w.rest')
    rw [decls_of_ended w.ended, decls_of_ended w.ended']
    exact .ok
  | t :: us =>
    have hdecl := decl_agree w (t :: us)
    change w.Concur (decls w.fin (t :: w.left us)) (decls w.fin' (moved w.move t :: w.right us))
    rw [decls, decls]
    change w.Concur (if t.kind = .eof then _ else _) (if t.kind = .eof then _ else _)
    split
    · exact .ok
    · exact hdecl.concur fun d vs hlt _ => (decls_concur w vs).bind fun ds => .ok
termination_by (w.left us).length
decreasing_by exact hlt

end Twins

end Parsing

end Bpl
