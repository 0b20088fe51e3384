import Bpl.Proofs.Parsing.Descent
import Bpl.Proofs.Scanning.Split

namespace Bpl

namespace TokenStream

variable {α β : Type} {s : TokenStream} {p : Procedure α} {q : Procedure β} {pos next : Nat}

/-- A bound for how deep the calls of a procedure are nested: each token allows for nine of them, one
of each rank. -/
def height (s : TokenStream) (p : Procedure α) (pos : Nat) : Nat :=
  9 * (s.tokens.length - pos) + p.rank

theorem Procedure.rank_lt (p : Procedure α) : p.rank < 9 := by
  cases p with
  | chain level => cases level <;> decide
  | _ => simp [Procedure.rank]

theorem Below.height_lt (h : s.Below q next p pos) : s.height q next < s.height p pos := by
  have hq := q.rank_lt
  obtain ⟨hle, hlt | ⟨rfl, hrank⟩⟩ := h
  · rw [height, height]
    omega
  · exact Nat.add_lt_add_left hrank _

section agreement

variable {m : Nat} {x x' : Option (Except Diagnostic (α × Nat))}

theorem Matches.of_ok {v : Parsed α m} (h : s.Matches x (.ok v)) :
    ∃ next, x = some (.ok (v.value, next)) ∧ next ≤ s.tokens.length ∧ s.rest next = v.rest := by
  generalize hy : (.ok v : Reading α m) = y at h
  cases h with
  | ok hle =>
    cases hy
    exact ⟨_, rfl, hle, rfl⟩
  | error => cases hy

theorem Matches.of_error {d : Diagnostic} (h : s.Matches x (.error d : Reading α m)) :
    x = some (.error d) := by
  cases h
  rfl

/-- The tokens that are left tell the number of the first of them. -/
theorem eq_of_rest_eq (hpos : pos ≤ s.tokens.length) (hnext : next ≤ s.tokens.length)
    (h : s.rest pos = s.rest next) : pos = next := by
  have hlength := congrArg List.length h
  rw [length_rest, length_rest] at hlength
  omega

theorem Matches.unique {y : Reading α m} (h : s.Matches x y) (h' : s.Matches x' y) : x = x' := by
  cases y with
  | error d => rw [h.of_error, h'.of_error]
  | ok v =>
    obtain ⟨pos, rfl, hpos, hrest⟩ := h.of_ok
    obtain ⟨next, rfl, hnext, hrest'⟩ := h'.of_ok
    rw [eq_of_rest_eq hpos hnext (hrest.trans hrest'.symm)]

theorem Matches.map_value {y : Reading α m} (h : s.Matches x y) :
    x.map (Except.map Prod.fst) = some (y.map Parsed.value) := by
  cases h <;> rfl

end agreement

/-- With calls nested as deep as its height, a procedure does what the grammar says. -/
theorem run_matches (hs : s.Valid) {depth : Nat} (hpos : pos ≤ s.tokens.length)
    (hdepth : s.height p pos < depth) :
    s.Matches (s.run depth p pos) (p.reading s.fin (s.rest pos)) := by
  -- on the depth of the calls: each call that is made is of a lower height
  induction depth generalizing α p pos with
  | zero => exact absurd hdepth (Nat.not_lt_zero _)
  | succ depth ih =>
    refine body_matches ⟨hs, hpos, fun q next hbelow => ih hbelow.1 ?_⟩
    exact lt_of_lt_of_le hbelow.height_lt (Nat.le_of_lt_succ hdepth)

/-- What a procedure comes to. -/
def answer (s : TokenStream) (p : Procedure α) : Descent α :=
  fun pos => s.run (s.height p pos + 1) p pos

instance : Decidable (s.Below q next p pos) :=
  inferInstanceAs (Decidable (_ ∧ _))

/-- The answers to the calls that `p` may make at `pos`, and nothing for any other. -/
def answersBelow (s : TokenStream) (p : Procedure α) (pos : Nat) {β : Type} (q : Procedure β) :
    Descent β :=
  fun next => if s.Below q next p pos then s.answer q next else none

theorem answer_matches (hs : s.Valid) (p : Procedure α) (hpos : pos ≤ s.tokens.length) :
    s.Matches (s.answer p pos) (p.reading s.fin (s.rest pos)) :=
  run_matches hs hpos (Nat.lt_succ_self _)

theorem run_eq_answer (hs : s.Valid) {depth : Nat} (hpos : pos ≤ s.tokens.length)
    (hdepth : s.height p pos < depth) : s.run depth p pos = s.answer p pos :=
  (run_matches hs hpos hdepth).unique (answer_matches hs p hpos)

/-- An answer is made of the answers to calls below alone. -/
theorem answer_eq_body (hs : s.Valid) (p : Procedure α) (hpos : pos ≤ s.tokens.length) :
    s.answer p pos = s.body (s.answersBelow p pos) p pos := by
  refine (answer_matches hs p hpos).unique (body_matches ⟨hs, hpos, fun q next hbelow => ?_⟩)
  rw [answersBelow, if_pos hbelow]
  exact answer_matches hs q hbelow.1

/-- A loop may leave the next token where it is, any other procedure takes it. -/
theorem answer_consumes (hs : s.Valid) (p : Procedure α) (hpos : pos ≤ s.tokens.length) :
    ∃ r, s.answer p pos = some r ∧ ∀ a next, r = .ok (a, next) →
      next ≤ s.tokens.length ∧ if p.isLoop then pos ≤ next else pos < next := by
  have h := answer_matches hs p hpos
  cases hr : p.reading s.fin (s.rest pos) with
  | error d =>
    rw [hr] at h
    exact ⟨_, h.of_error, nofun⟩
  | ok v =>
    rw [hr] at h
    obtain ⟨next, heq, hle, hrest⟩ := h.of_ok
    refine ⟨_, heq, ?_⟩
    rintro _ _ ⟨⟩
    have hlt := v.lt
    rw [← hrest, length_rest, length_rest] at hlt
    refine ⟨hle, ?_⟩
    split
    · next hloop =>
      rw [hloop, Bool.toNat_true] at hlt
      omega
    · next hloop =>
      rw [Bool.eq_false_of_not_eq_true hloop, Bool.toNat_false] at hlt
      omega

theorem answer_declarations (hs : s.Valid) :
    (s.answer .declarations 0).map (Except.map Prod.fst) = some (parse s.words) := by
  rw [(answer_matches hs .declarations (Nat.zero_le _)).map_value]
  exact congrArg some (Parsing.value_declarations s.fin s.words)

theorem skip_of_peekPunct (hs : s.Valid) {w : String} {op : BinaryOp}
    (hpeek : s.peekPunct pos = some (.ok (some w, pos)))
    (hop : comparisonOf w = some op ∨ ∃ level, operatorOf level w = some op) :
    s.skip op.symbol pos = some (.ok ((), pos + 1)) := by
  obtain rfl : op.symbol = w := by
    rcases hop with hop | ⟨level, hop⟩
    · exact ((comparisonOf_eq_some_iff w op).1 hop).2
    · exact ((operatorOf_eq_some_iff level w op).1 hop).2
  exact skip_of_peekText (peekText_of_peekPunct hs hpeek)

section scanned

variable {source : String} {ts : List Token}

/-- A token without its text. -/
def rangeOf (t : Token) : TokenRange :=
  ⟨t.kind, t.start, t.length, t.location⟩

def ofTokens (source : String) (ts : List Token) : TokenStream :=
  ⟨source, ts.map rangeOf⟩

theorem valid_token {before w : List Char} {kind : Token.Kind} (rest : List Char)
    (h : before ++ (w ++ rest) = source.toList)
    (hstring : kind = .string → Lexeme.Spells kind w) :
    (rangeOf (Split.token before kind w)).Valid source := by
  have hslice : (rangeOf (Split.token before kind w)).slice? source = some w := by
    have hlength : (Split.token before kind w).length = byteLength w := Split.utf8ByteSize_ofList w
    rw [TokenRange.slice?, rangeOf, hlength, ← h]
    exact slice?_append before w rest
  refine ⟨by rw [TokenRange.text?, hslice]; rfl, fun hk => ?_⟩
  cases hstring hk with
  | @string cs =>
    have hinside := slice?_append ['"'] cs ['"']
    have hstop : byteLength ['"'] + byteLength cs = byteLength ('"' :: cs ++ ['"']) - 1 := by
      rw [byteLength_append, byteLength_cons]
      exact (Nat.add_sub_cancel _ 1).symm
    rw [hstop] at hinside
    change slice? ('"' :: cs ++ ['"']) 1 _ = _ at hinside
    rw [TokenRange.contents?, hslice, Option.bind_eq_bind, Option.bind_some, hinside]
    rfl
  | _ => cases hk

theorem valid_of_mem_tokensAfter {before g : List Char} {ps : List Piece}
    (hfits : Split.Fits [] ⟨ps, g⟩) (h : before ++ Split.text ⟨ps, g⟩ = source.toList) :
    ∀ t ∈ Split.tokensAfter before ps g, (rangeOf t).Valid source := by
  induction ps generalizing before with
  | nil =>
    refine List.forall_mem_singleton.2 (valid_token [] ?_ nofun)
    rw [← h, Split.text_nil, List.append_nil, List.append_nil]
  | cons p ps ih =>
    rw [← List.append_nil (Split.text _), Split.text_cons, List.append_nil] at h
    cases hfits with
    | piece _ hw _ hfits =>
      refine List.forall_mem_cons.2 ⟨valid_token (Split.text ⟨ps, g⟩) ?_ fun _ => hw, ih hfits ?_⟩
      · rw [List.append_assoc, h]
      · rw [← h]
        simp

/-- The tokens that are read from a source can be cut out of it. -/
theorem ofTokens_valid (h : tokenize source = .ok ts) : (ofTokens source ts).Valid := by
  obtain ⟨⟨ps, g⟩, hfits, htext, rfl⟩ := tokenize_eq_ok_iff.1 h
  exact List.forall_mem_map.2 (valid_of_mem_tokensAfter hfits htext)

theorem words_ofTokens (h : tokenize source = .ok ts) : (ofTokens source ts).words = ts := by
  obtain ⟨⟨ps, g⟩, _, htext, rfl⟩ := tokenize_eq_ok_iff.1 h
  rw [ofTokens, words, List.map_map]
  refine (List.map_congr_left fun t ht => ?_).trans (List.map_id _)
  have hslice : Token.slice source t.start t.length = t.text :=
    Split.slice_of_mem_tokensAfter htext t ht
  obtain ⟨kind, text, start, l⟩ := t
  exact congrArg (Token.mk kind · start l) hslice

theorem answer_ofTokens (h : tokenize source = .ok ts) :
    ((ofTokens source ts).answer .declarations 0).map (Except.map Prod.fst) = some (parse ts) := by
  rw [answer_declarations (ofTokens_valid h), words_ofTokens h]

end scanned

/-- A call of a procedure at a token. -/
structure Call where
  {result : Type}
  procedure : Procedure result
  pos : Nat

/-- `s.Makes c d`: the call `c` may make the call `d`. -/
def Makes (s : TokenStream) (c d : Call) : Prop :=
  s.Below d.procedure d.pos c.procedure c.pos

theorem height_lt_of_makes {c d : Call} (h : Relation.TransGen s.Makes c d) :
    s.height d.procedure d.pos < s.height c.procedure c.pos := by
  induction h with
  | single h => exact h.height_lt
  | tail _ h ih => exact h.height_lt.trans ih

/-- No procedure comes back to itself, with whatever arguments, before a token is taken. -/
theorem pos_lt_of_makes (hrank : p.rank ≤ q.rank)
    (h : Relation.TransGen s.Makes ⟨p, pos⟩ ⟨q, next⟩) : pos < next := by
  have hheight := height_lt_of_makes h
  simp only [height] at hheight
  omega

/-- Parsing comes to an end because it takes tokens. Whatever the tokens are, as long as they can be
cut out of the source, it gives what it gives for the list of them with their texts. However deep
calls may be nested, from the height of a call on it returns the same, and other calls than those
below do not matter to it. A procedure that succeeds has taken a token, and a loop has not gone
back. Where calls lead from a procedure to one of no lower rank, as to itself, a token was taken on
the way. An operator that was seen can be taken. -/
theorem procedures_consume (s : TokenStream) (hs : s.Valid) :
    (s.answer .declarations 0).map (Except.map Prod.fst) = some (parse s.words) ∧
    (∀ {α : Type} (p : Procedure α) (pos : Nat), pos ≤ s.tokens.length →
      ∃ r, (∀ depth, s.height p pos < depth → s.run depth p pos = some r) ∧
        s.body (s.answersBelow p pos) p pos = some r ∧
        ∀ a next, r = .ok (a, next) →
          next ≤ s.tokens.length ∧ if p.isLoop then pos ≤ next else pos < next) ∧
    (∀ {α β : Type} (p : Procedure α) (q : Procedure β) (pos next : Nat), p.rank ≤ q.rank →
      Relation.TransGen s.Makes ⟨p, pos⟩ ⟨q, next⟩ → pos < next) ∧
    ∀ pos w op, s.peekPunct pos = some (.ok (some w, pos)) →
      (comparisonOf w = some op ∨ ∃ level, operatorOf level w = some op) →
      s.skip op.symbol pos = some (.ok ((), pos + 1)) := by
  refine ⟨answer_declarations hs, fun p pos hpos => ?_, fun p q pos next => pos_lt_of_makes,
    fun pos w op => skip_of_peekPunct hs⟩
  obtain ⟨r, hr, hconsumes⟩ := answer_consumes hs p hpos
  refine ⟨r, fun depth hdepth => ?_, ?_, hconsumes⟩
  · rw [run_eq_answer hs hpos hdepth, hr]
  · rw [← answer_eq_body hs p hpos, hr]

/-- A declaration whose semicolon is said to be a keyword, an end token, and more behind it. -/
def strayStream : TokenStream where
  source := "int x; \"é\""
  tokens := [⟨.keyword, 0, 3, ⟨1, 1⟩⟩, ⟨.ident, 4, 1, ⟨1, 5⟩⟩, ⟨.keyword, 5, 1, ⟨1, 6⟩⟩,
    ⟨.eof, 6, 0, ⟨1, 7⟩⟩, ⟨.string, 7, 4, ⟨1, 8⟩⟩, ⟨.punctuator, 0, 3, ⟨1, 1⟩⟩]

theorem strayStream_valid : strayStream.Valid := by
  decide

theorem strayStream_consumes : strayStream.Valid ∧
    parse strayStream.words = .ok [.var ⟨"x", .int, ⟨1, 1⟩⟩] := by
  have hparse := (procedures_consume strayStream strayStream_valid).1
  have hanswer : strayStream.answer .declarations 0 =
      some (.ok ([.var ⟨"x", .int, ⟨1, 1⟩⟩], 3)) := by
    rfl
  rw [hanswer] at hparse
  exact ⟨strayStream_valid, (Option.some.inj hparse).symm⟩

end TokenStream

end Bpl
