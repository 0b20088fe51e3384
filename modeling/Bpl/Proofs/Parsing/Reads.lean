import Bpl.Proofs.Except
import Bpl.Proofs.Parsing.Grammar

namespace Bpl.Parsing

variable {α β : Type}

/-- A reading that succeeds with `a` and leaves the tokens `rest`. -/
def Reads {n : Nat} (x : Reading α n) (a : α) (rest : List Token) : Prop :=
  ∃ h, x = .ok ⟨a, rest, h⟩

section

variable {n m : Nat} {a : α} {rest : List Token}

theorem Reads.lt {x : Reading α n} (h : Reads x a rest) : rest.length < n :=
  h.1

theorem reads_ok {b : α} {r : List Token} {h : r.length < n} :
    Reads (.ok ⟨b, r, h⟩) a rest ↔ a = b ∧ rest = r := by
  constructor
  · rintro ⟨_, h⟩
    cases h
    exact ⟨rfl, rfl⟩
  · rintro ⟨rfl, rfl⟩
    exact ⟨h, rfl⟩

theorem reads_pure {b : α} {r : List Token} {h : r.length < n} :
    Reads (pure ⟨b, r, h⟩) a rest ↔ a = b ∧ rest = r :=
  reads_ok

theorem reads_error {d : Diagnostic} : Reads (.error d : Reading α n) a rest ↔ False := by
  simp [Reads]

theorem reads_bind {x : Reading β m} {f : Parsed β m → Reading α n} :
    Reads (x >>= f) a rest ↔
      ∃ b r, ∃ h : r.length < m, Reads x b r ∧ Reads (f ⟨b, r, h⟩) a rest := by
  constructor
  · cases x with
    | error d => exact fun ⟨_, h⟩ => nomatch h
    | ok p => exact fun h => ⟨p.value, p.rest, p.lt, ⟨p.lt, rfl⟩, h⟩
  · rintro ⟨b, r, _, ⟨_, rfl⟩, h⟩
    exact h

end

theorem Reads.bind {n m : Nat} {x : Reading β m} {f : Parsed β m → Reading α n} {a : α} {b : β}
    {r rest : List Token} (hx : Reads x b r) (hf : Reads (f ⟨b, r, hx.lt⟩) a rest) :
    Reads (x >>= f) a rest :=
  reads_bind.2 ⟨b, r, hx.lt, hx, hf⟩

theorem Reads.bind_error {n m : Nat} {x : Reading β m} {f : Parsed β m → Reading α n} {b : β}
    {r : List Token} {d : Diagnostic} (hx : Reads x b r)
    (hf : f ⟨b, r, hx.lt⟩ = .error d) : x >>= f = .error d := by
  obtain ⟨_, rfl⟩ := hx
  exact hf

theorem take?_eq_some_iff {f : Token → Option α} {ts r : List Token} {a : α}
    {h : r.length < ts.length} : take? f ts = some ⟨a, r, h⟩ ↔ ∃ t, ts = t :: r ∧ f t = some a := by
  cases ts with
  | nil => simp [take?]
  | cons t ts =>
    simp only [take?, Option.map_eq_some_iff, Parsed.mk.injEq, List.cons.injEq]
    constructor
    · rintro ⟨a, ha, rfl, rfl⟩
      exact ⟨t, ⟨rfl, rfl⟩, ha⟩
    · rintro ⟨_, ⟨rfl, rfl⟩, ha⟩
      exact ⟨a, ha, rfl, rfl⟩

theorem take?_eq_none_iff {f : Token → Option α} {ts : List Token} :
    take? f ts = none ↔ ∀ t ∈ ts.head?, f t = none := by
  cases ts <;> simp [take?]

/-- Tokens of which the first is none of the words `ws`. -/
def Stops (ws : List String) (ts : List Token) : Prop :=
  ∀ t ∈ ts.head?, ∀ w ∈ ws, t.isWord w = false

theorem Stops.mono {ws ws' : List String} {ts : List Token} (h : Stops ws ts) (hs : ws' ⊆ ws) :
    Stops ws' ts :=
  fun t ht w hw => h t ht w (hs hw)

theorem isWord_iff {t : Token} {w : String} :
    t.isWord w = true ↔ (t.kind = .punctuator ∨ t.kind = .keyword) ∧ t.text = w := by
  simp [Token.isWord]

/-- A token is one word only. -/
theorem isWord_unique {t : Token} {v w : String} (hv : t.isWord v = true)
    (hw : t.isWord w = true) : v = w :=
  (isWord_iff.1 hv).2.symm.trans (isWord_iff.1 hw).2

theorem stops_cons {ws : List String} {t : Token} {ts : List Token} {w : String}
    (h : t.isWord w = true) (hw : w ∉ ws) : Stops ws (t :: ts) := by
  intro u hu v hv
  cases hu
  by_contra hc
  exact hw (isWord_unique h (Bool.eq_true_of_not_eq_false hc) ▸ hv)

section accept

variable {w : String} {ts rest : List Token}

theorem accept?_eq_some_iff {l : Location} {h : rest.length < ts.length} :
    accept? w ts = some ⟨l, rest, h⟩ ↔
      ∃ t, ts = t :: rest ∧ t.isWord w = true ∧ l = t.location := by
  rw [accept?, take?_eq_some_iff]
  refine exists_congr fun t => and_congr_right fun _ => ?_
  cases t.isWord w <;> simp [eq_comm]

theorem accept?_eq_none_iff : accept? w ts = none ↔ Stops [w] ts := by
  simp only [accept?, take?_eq_none_iff, Stops, List.forall_mem_singleton]
  refine forall_congr' fun t => imp_congr_right fun _ => ?_
  cases t.isWord w <;> simp

theorem accept?_cons {t : Token} (h : t.isWord w = true) :
    accept? w (t :: ts) = some ⟨t.location, ts, Nat.lt_succ_self _⟩ :=
  accept?_eq_some_iff.2 ⟨t, rfl, h, rfl⟩

theorem Stops.accept? {ws : List String} (h : Stops ws ts) (hw : w ∈ ws) :
    accept? w ts = none :=
  accept?_eq_none_iff.2 (h.mono (by simpa using hw))

theorem reads_expect {fin l : Location} :
    Reads (expect fin w ts) l rest ↔ ∃ t, ts = t :: rest ∧ t.isWord w = true ∧ l = t.location := by
  unfold expect
  split
  · next p hp =>
    constructor
    · rintro ⟨h, hr⟩
      cases hr
      exact accept?_eq_some_iff.1 hp
    · rintro ⟨t, rfl, hw, rfl⟩
      rw [accept?_cons hw, Option.some.injEq] at hp
      exact reads_ok.2 ⟨congrArg Parsed.value hp, congrArg Parsed.rest hp⟩
  · next hn =>
    rw [accept?_eq_none_iff] at hn
    simp only [reads_error, false_iff]
    rintro ⟨t, rfl, hw, _⟩
    simp [hn t rfl w (List.mem_singleton.2 rfl)] at hw

end accept

theorem reads_identifier {fin l : Location} {x : String} {ts rest : List Token} :
    Reads (identifier fin ts) (l, x) rest ↔
      ∃ t, ts = t :: rest ∧ t.kind = .ident ∧ l = t.location ∧ x = t.text := by
  unfold identifier
  split
  · next p hp =>
    constructor
    · rintro ⟨h, hr⟩
      cases hr
      obtain ⟨t, ht, hf⟩ := take?_eq_some_iff.1 hp
      split at hf
      · next hk =>
        cases hf
        exact ⟨t, ht, hk, rfl, rfl⟩
      · cases hf
    · rintro ⟨t, rfl, hk, rfl, rfl⟩
      rw [take?_eq_some_iff.2 ⟨t, rfl, if_pos hk⟩, Option.some.injEq] at hp
      · exact reads_ok.2 ⟨congrArg Parsed.value hp, congrArg Parsed.rest hp⟩
      · exact Nat.lt_succ_self _
  · next hn =>
    simp only [reads_error, false_iff]
    rintro ⟨t, rfl, hk, _⟩
    simpa [hk] using take?_eq_none_iff.1 hn t rfl

theorem reads_number {fin l : Location} {v : Int64} {ts rest : List Token} :
    Reads (number fin ts) (l, v) rest ↔
      ∃ t, ts = t :: rest ∧ t.kind = .number (some v) ∧ l = t.location := by
  cases ts with
  | nil => simp [number, reads_error]
  | cons t ts =>
    have heq : ∀ {P : Token → Prop}, (∃ u, t :: ts = u :: rest ∧ P u) ↔ rest = ts ∧ P t := by
      simp only [List.cons.injEq]
      intro P
      constructor
      · rintro ⟨_, ⟨rfl, rfl⟩, h⟩
        exact ⟨rfl, h⟩
      · rintro ⟨rfl, h⟩
        exact ⟨t, ⟨rfl, rfl⟩, h⟩
    rw [heq]
    cases hk : t.kind with
    | number value =>
      cases value with
      | none => simp [number, hk, valueOf, Reads, Bind.bind, Except.bind]
      | some value =>
        simp only [number, hk, valueOf, Bind.bind, Except.bind, reads_pure, Prod.mk.injEq,
          Token.Kind.number.injEq, Option.some.injEq]
        tauto
    | _ => simp [number, hk, reads_error]

theorem BinaryOp.symbol_injective {op op' : BinaryOp} (h : op.symbol = op'.symbol) :
    op = op' := by
  revert h
  cases op <;> cases op' <;> decide

/-- In a list where one entry at most has a property, it is found exactly if it is there. -/
theorem find?_eq_some_iff_of_unique {p : α → Bool} {as : List α} {a : α}
    (h : ∀ b ∈ as, ∀ c ∈ as, p b = true → p c = true → b = c) :
    as.find? p = some a ↔ a ∈ as ∧ p a = true := by
  constructor
  · exact fun hf => ⟨List.mem_of_find?_eq_some hf, List.find?_some hf⟩
  · rintro ⟨ha, hp⟩
    obtain ⟨b, hb⟩ := Option.isSome_iff_exists.1 (List.find?_isSome.2 ⟨a, ha, hp⟩)
    rw [hb, h b (List.mem_of_find?_eq_some hb) a ha (List.find?_some hb) hp]

section operators

variable {ts r : List Token} {l : Location} {h : r.length < ts.length}

theorem operator?_eq_some_iff {ops : List BinaryOp} {op : BinaryOp} :
    operator? ops ts = some ⟨(l, op), r, h⟩ ↔
      ∃ t, ts = t :: r ∧ op ∈ ops ∧ t.isOperator op ∧ l = t.location := by
  rw [operator?, take?_eq_some_iff]
  refine exists_congr fun t => and_congr_right fun _ => ?_
  have hu : ∀ b ∈ ops, ∀ c ∈ ops, (b.symbol == t.text) = true → (c.symbol == t.text) = true →
      b = c := by
    intro b _ c _ hb hc
    exact BinaryOp.symbol_injective ((beq_iff_eq.1 hb).trans (beq_iff_eq.1 hc).symm)
  by_cases hk : t.kind = .punctuator
  · simp only [hk, if_pos, Option.map_eq_some_iff, find?_eq_some_iff_of_unique hu, Prod.mk.injEq,
      beq_iff_eq, Token.isOperator, true_and]
    constructor
    · rintro ⟨_, ⟨hm, hs⟩, rfl, rfl⟩
      exact ⟨hm, hs.symm, rfl⟩
    · rintro ⟨hm, hs, rfl⟩
      exact ⟨op, ⟨hm, hs.symm⟩, rfl, rfl⟩
  · simp [hk, Token.isOperator]

theorem operator?_cons {ops : List BinaryOp} {op : BinaryOp} {t : Token} (hm : op ∈ ops)
    (ht : t.isOperator op) :
    operator? ops (t :: ts) = some ⟨(t.location, op), ts, Nat.lt_succ_self _⟩ :=
  operator?_eq_some_iff.2 ⟨t, rfl, hm, ht, rfl⟩

theorem isWord_of_isOperator {t : Token} {op : BinaryOp} (h : t.isOperator op) :
    t.isWord op.symbol = true :=
  isWord_iff.2 ⟨.inl h.1, h.2⟩

theorem operator?_eq_none {ops : List BinaryOp} (hs : Stops (ops.map BinaryOp.symbol) ts) :
    operator? ops ts = none := by
  rw [Option.eq_none_iff_forall_ne_some]
  rintro ⟨⟨l, op⟩, r, h⟩ ho
  obtain ⟨t, rfl, hm, hop, _⟩ := operator?_eq_some_iff.1 ho
  have := hs t rfl _ (List.mem_map_of_mem hm)
  simp [isWord_of_isOperator hop] at this

theorem sign?_eq_some_iff {op : UnaryOp} :
    sign? ts = some ⟨(l, op), r, h⟩ ↔
      ∃ t, ts = t :: r ∧ t.isWord op.symbol = true ∧ l = t.location := by
  rw [sign?, take?_eq_some_iff]
  refine exists_congr fun t => and_congr_right fun _ => ?_
  have hu : ∀ b ∈ [UnaryOp.neg, .address, .deref], ∀ c ∈ [UnaryOp.neg, .address, .deref],
      t.isWord b.symbol = true → t.isWord c.symbol = true → b = c := by
    intro b _ c _ hb hc
    have := isWord_unique hb hc
    revert this
    cases b <;> cases c <;> decide
  simp only [Option.map_eq_some_iff, find?_eq_some_iff_of_unique hu, Prod.mk.injEq]
  constructor
  · rintro ⟨_, ⟨_, hw⟩, rfl, rfl⟩
    exact ⟨hw, rfl⟩
  · rintro ⟨hw, rfl⟩
    exact ⟨op, ⟨by cases op <;> simp, hw⟩, rfl, rfl⟩

theorem sign?_cons {op : UnaryOp} {t : Token} (ht : t.isWord op.symbol = true) :
    sign? (t :: ts) = some ⟨(t.location, op), ts, Nat.lt_succ_self _⟩ :=
  sign?_eq_some_iff.2 ⟨t, rfl, ht, rfl⟩

theorem sign?_eq_none (hs : Stops ["-", "&", "*"] ts) : sign? ts = none := by
  rw [Option.eq_none_iff_forall_ne_some]
  rintro ⟨⟨l, op⟩, r, h⟩ ho
  obtain ⟨t, rfl, hw, _⟩ := sign?_eq_some_iff.1 ho
  have := hs t rfl op.symbol (by cases op <;> decide)
  simp [hw] at this

end operators

/-- The word of a table that a token is, if the words of the table differ. -/
theorem find?_isWord_eq_some_iff {table : List (String × α)} (hn : (table.map Prod.fst).Nodup)
    {t : Token} {p : String × α} :
    table.find? (fun (w, _) => t.isWord w) = some p ↔ p ∈ table ∧ t.isWord p.1 = true :=
  find?_eq_some_iff_of_unique fun _ hb _ hc hwb hwc =>
    List.inj_on_of_nodup_map hn hb hc (isWord_unique hwb hwc)

theorem baseTypes_nodup : (baseTypes.map Prod.fst).Nodup := by
  decide

theorem heads_nodup : (heads.map Prod.fst).Nodup := by
  decide

section words

variable {ts r : List Token} {l : Location} {h : r.length < ts.length}

theorem baseType?_eq_some_iff {ty : Ty} :
    baseType? ts = some ⟨(l, ty), r, h⟩ ↔
      ∃ t, ts = t :: r ∧ t.isBaseType ty ∧ l = t.location := by
  rw [baseType?, take?_eq_some_iff]
  refine exists_congr fun t => and_congr_right fun _ => ?_
  simp only [Option.map_eq_some_iff, find?_isWord_eq_some_iff baseTypes_nodup,
    Prod.mk.injEq, Token.isBaseType]
  constructor
  · rintro ⟨⟨w, ty'⟩, ⟨hm, hw⟩, rfl, rfl⟩
    exact ⟨⟨w, hm, hw⟩, rfl⟩
  · rintro ⟨⟨w, hm, hw⟩, rfl⟩
    exact ⟨(w, ty), ⟨hm, hw⟩, rfl, rfl⟩

theorem baseType?_cons {ty : Ty} {t : Token} (ht : t.isBaseType ty) :
    baseType? (t :: ts) = some ⟨(t.location, ty), ts, Nat.lt_succ_self _⟩ :=
  baseType?_eq_some_iff.2 ⟨t, rfl, ht, rfl⟩

/-- The names of the base types. -/
def typeWords : List String :=
  baseTypes.map Prod.fst

theorem baseType?_eq_none_iff : baseType? ts = none ↔ Stops typeWords ts := by
  simp [baseType?, take?_eq_none_iff, Stops, typeWords]

/-- The word or the mark that a head is. -/
def Head.word : Head → String
  | .brace => "\x7b"
  | .ifWord => "if"
  | .whileWord => "while"
  | .returnWord => "return"
  | .writeWord => "write"
  | .writelnWord => "writeln"

theorem mem_heads_iff {w : String} {head : Head} : (w, head) ∈ heads ↔ w = head.word := by
  cases head <;> simp [heads, Head.word]

theorem head?_eq_some_iff {head : Head} :
    head? ts = some ⟨(l, head), r, h⟩ ↔
      ∃ t, ts = t :: r ∧ t.isWord head.word = true ∧ l = t.location := by
  rw [head?, take?_eq_some_iff]
  refine exists_congr fun t => and_congr_right fun _ => ?_
  simp only [Option.map_eq_some_iff, find?_isWord_eq_some_iff heads_nodup,
    Prod.mk.injEq]
  constructor
  · rintro ⟨⟨w, head⟩, ⟨hm, hw⟩, rfl, rfl⟩
    exact ⟨mem_heads_iff.1 hm ▸ hw, rfl⟩
  · rintro ⟨hw, rfl⟩
    exact ⟨(head.word, head), ⟨mem_heads_iff.2 rfl, hw⟩, rfl, rfl⟩

theorem head?_cons (head : Head) {t : Token} (ht : t.isWord head.word = true) :
    head? (t :: ts) = some ⟨(t.location, head), ts, Nat.lt_succ_self _⟩ :=
  head?_eq_some_iff.2 ⟨t, rfl, ht, rfl⟩

theorem head?_eq_none_iff : head? ts = none ↔ Stops (heads.map Prod.fst) ts := by
  simp [head?, take?_eq_none_iff, Stops]

end words

end Bpl.Parsing
