import Bpl.Proofs.Parsing.Reads
import Bpl.Proofs.Scanning.Bytes
import Bpl.TokenStream

namespace Bpl

section cut

variable {cs before rest text : List Char} {n start stop : Nat}

theorem cutAt_eq_some (h : cutAt n cs = some (before, rest)) :
    before ++ rest = cs ∧ byteLength before = n := by
  fun_induction cutAt n cs generalizing before rest with
  | case1 cs =>
    cases h
    exact ⟨rfl, rfl⟩
  | case2 n => cases h
  | case3 n c cs hle ih =>
    obtain ⟨⟨b, r⟩, hb, heq⟩ := Option.map_eq_some_iff.1 h
    cases heq
    obtain ⟨rfl, hlength⟩ := ih hb
    refine ⟨rfl, ?_⟩
    rw [byteLength_cons, hlength]
    omega
  | case4 n c cs hle => cases h

theorem slice?_eq_some (h : slice? cs start stop = some text) :
    ∃ before rest, cs = before ++ (text ++ rest) ∧ byteLength before = start ∧
      start + byteLength text = stop := by
  simp only [slice?, Option.bind_eq_bind, Option.bind_eq_some_iff, guard] at h
  obtain ⟨_, hle, ⟨before, tail⟩, hbefore, ⟨text', rest⟩, htext, heq⟩ := h
  cases heq
  obtain ⟨rfl, hstart⟩ := cutAt_eq_some hbefore
  obtain ⟨rfl, hstop⟩ := cutAt_eq_some htext
  have hle : start ≤ stop := by
    by_contra hc
    simp [hc] at hle
  refine ⟨before, rest, rfl, hstart, ?_⟩
  change start + byteLength text' = stop
  omega

/-- A text of one byte is one character. -/
theorem eq_singleton_of_byteLength (h : byteLength text = 1) : ∃ c, text = [c] := by
  cases text with
  | nil => cases h
  | cons c text =>
    cases text with
    | nil => exact ⟨c, rfl⟩
    | cons d text =>
      have hc := c.utf8Size_pos
      have hd := d.utf8Size_pos
      rw [byteLength_cons, byteLength_cons] at h
      omega

end cut

namespace TokenRange

variable {source : String} {t : TokenRange}

/-- The source can be cut at the ends of a token and, if it is a string literal, behind its first
byte and before its last, where the quotes stand. -/
structure Valid (source : String) (t : TokenRange) : Prop where
  text : (t.text? source).isSome
  contents : t.kind = .string → (t.contents? source).isSome

instance : Decidable (t.Valid source) :=
  decidable_of_iff (_ ∧ _) ⟨fun h => Valid.mk h.1 h.2, fun h => ⟨h.text, h.contents⟩⟩

theorem slice?_eq {text : List Char} (h : t.slice? source = some text) :
    (t.token source).text = String.ofList text := by
  obtain ⟨before, rest, hsource, hstart, hlength⟩ := slice?_eq_some h
  have hbytes : t.length = byteLength text := by omega
  rw [token, Token.slice, hsource, ← hstart, dropBytes_append, hbytes, takeBytes_append]

theorem Valid.text? (h : t.Valid source) : t.text? source = some (t.token source).text := by
  obtain ⟨x, hx⟩ := Option.isSome_iff_exists.1 h.text
  obtain ⟨text, htext, rfl⟩ := Option.map_eq_some_iff.1 hx
  rw [hx, slice?_eq htext]

theorem Valid.describe? (h : t.Valid source) :
    t.describe? source = some (t.token source).describe := by
  rw [TokenRange.describe?, Token.describe, h.text?]
  split <;> split <;> simp_all [token]

theorem Valid.contents? (h : t.Valid source) (hk : t.kind = .string) :
    t.contents? source = some (t.token source).contents := by
  obtain ⟨x, hx⟩ := Option.isSome_iff_exists.1 (h.contents hk)
  rw [hx]
  simp only [TokenRange.contents?, Option.bind_eq_bind, Option.bind_eq_some_iff] at hx
  obtain ⟨text, htext, inside, hinside, heq⟩ := hx
  cases heq
  obtain ⟨before, rest, hsplit, hbefore, hstop⟩ := slice?_eq_some hinside
  obtain ⟨c, rfl⟩ := eq_singleton_of_byteLength hbefore
  obtain ⟨d, rfl⟩ : ∃ d, rest = [d] := by
    refine eq_singleton_of_byteLength ?_
    have hlength := congrArg byteLength hsplit
    rw [byteLength_append, byteLength_append] at hlength
    omega
  rw [Token.contents, slice?_eq htext, hsplit]
  simp

end TokenRange

namespace TokenStream

open Descent (bind_of_ok bind_of_error ite_of_true ite_of_false)
open Parsing (Head Level accept? place)

variable (s : TokenStream)

/-- The tokens with their texts. -/
def words : List Token :=
  s.tokens.map (·.token s.source)

/-- The tokens from a number on. -/
def rest (pos : Nat) : List Token :=
  s.words.drop pos

/-- Where something that is missing at the end is reported. -/
def fin : Location :=
  (s.words.getLast?.map Token.location).getD default

def Valid : Prop :=
  ∀ t ∈ s.tokens, t.Valid s.source

instance : Decidable s.Valid :=
  inferInstanceAs (Decidable (∀ t ∈ s.tokens, _))

variable {s} {α β : Type} {pos : Nat}

theorem length_rest (pos : Nat) : (s.rest pos).length = s.tokens.length - pos := by
  simp [rest, words]

theorem rest_of_none (h : s.tokens[pos]? = none) : s.rest pos = [] := by
  rw [rest, words, ← List.map_drop, List.drop_eq_nil_of_le (List.getElem?_eq_none_iff.1 h)]
  rfl

theorem rest_of_some {t : TokenRange} (h : s.tokens[pos]? = some t) :
    s.rest pos = t.token s.source :: s.rest (pos + 1) := by
  obtain ⟨hlt, rfl⟩ := List.getElem?_eq_some_iff.1 h
  rw [rest, rest, words, List.drop_eq_getElem_cons (by simpa using hlt), List.getElem_map]

theorem lt_of_some {t : TokenRange} (h : s.tokens[pos]? = some t) : pos < s.tokens.length :=
  (List.getElem?_eq_some_iff.1 h).1

theorem location_apply (s : TokenStream) (pos : Nat) :
    s.location pos = some (.ok (place s.fin (s.rest pos), pos)) := by
  rw [location, bind_of_ok rfl]
  cases h : s.tokens[pos]? with
  | none =>
    rw [rest_of_none h]
    have hlast :
        s.words.getLast?.map Token.location = s.tokens.getLast?.map TokenRange.location := by
      rw [words, List.getLast?_map, Option.map_map]
      rfl
    rw [place, fin, hlast]
    rfl
  | some t =>
    rw [rest_of_some h]
    rfl

theorem unexpected_apply (hs : s.Valid) (expected : String) (pos : Nat) :
    (s.unexpected expected : Descent α) pos =
      some (.error (Parsing.unexpected s.fin expected (s.rest pos))) := by
  rw [unexpected, bind_of_ok (location_apply s pos), bind_of_ok rfl]
  cases h : s.tokens[pos]? with
  | none =>
    rw [rest_of_none h]
    rfl
  | some t =>
    have ht := hs t (List.mem_of_getElem? h)
    rw [rest_of_some h]
    change (Descent.cut (t.describe? s.source) >>= _) pos = _
    rw [ht.describe?, bind_of_ok rfl]
    rfl

/-- The text of the next token, if it is of one of these kinds. -/
theorem peekAmong_apply (hs : s.Valid) (kinds : List Token.Kind) (pos : Nat) :
    s.peekAmong kinds pos = some (.ok ((s.rest pos).head?.bind fun t =>
      if t.kind ∈ kinds then some t.text else none, pos)) := by
  rw [peekAmong, bind_of_ok rfl]
  cases h : s.tokens[pos]? with
  | none =>
    rw [rest_of_none h]
    rfl
  | some t =>
    have ht := hs t (List.mem_of_getElem? h)
    rw [rest_of_some h]
    have hkind : (t.token s.source).kind = t.kind := rfl
    simp only [List.head?_cons, Option.bind_some, hkind]
    split
    · rw [ht.text?, bind_of_ok rfl]
      rfl
    · rfl

/-- Either the next token is the word `w`, and it is taken, or nothing is. -/
theorem equal_cases (hs : s.Valid) (w : String) (pos : Nat) :
    accept? w (s.rest pos) = none ∧ s.equal w pos = some (.ok (false, pos)) ∨
      ∃ h, accept? w (s.rest pos) = some ⟨place s.fin (s.rest pos), s.rest (pos + 1), h⟩ ∧
        s.equal w pos = some (.ok (true, pos + 1)) ∧ pos < s.tokens.length := by
  rw [equal, peekText, bind_of_ok (peekAmong_apply hs _ pos)]
  cases h : s.tokens[pos]? with
  | none =>
    rw [rest_of_none h]
    exact .inl ⟨rfl, rfl⟩
  | some t =>
    rw [rest_of_some h]
    by_cases hw : (t.token s.source).isWord w = true
    · refine .inr ⟨_, Parsing.accept?_cons hw, ?_, lt_of_some h⟩
      obtain ⟨hkind, htext⟩ := Parsing.isWord_iff.1 hw
      rw [if_pos (by simp [hkind, htext])]
      rfl
    · refine .inl ⟨Parsing.accept?_eq_none_iff.2 ?_, ?_⟩
      · intro u hu v hv
        cases hu
        obtain rfl := List.mem_singleton.1 hv
        exact Bool.eq_false_of_not_eq_true hw
      · rw [if_neg (by simpa [Parsing.isWord_iff] using hw)]
        rfl

theorem bracket_cases (hs : s.Valid) (ty : Ty) (pos : Nat) :
    Parsing.bracket? ty (s.rest pos) = none ∧ s.bracket ty pos = some (.ok (false, pos)) ∨
      ∃ h, Parsing.bracket? ty (s.rest pos) =
          some ⟨place s.fin (s.rest pos), s.rest (pos + 1), h⟩ ∧
        s.bracket ty pos = some (.ok (true, pos + 1)) ∧ pos < s.tokens.length := by
  rw [Parsing.bracket?, bracket]
  split
  · exact .inl ⟨rfl, rfl⟩
  · exact equal_cases hs "[" pos

/-- Something is read by numbers as it is from the list of tokens: the same value, and the same
tokens are left, or the same diagnostic. -/
inductive Matches (s : TokenStream) {m : Nat} :
    Option (Except Diagnostic (α × Nat)) → Reading α m → Prop
  | ok {a : α} {pos : Nat} {h : (s.rest pos).length < m} :
      pos ≤ s.tokens.length → Matches s (some (.ok (a, pos))) (.ok ⟨a, s.rest pos, h⟩)
  | error {d : Diagnostic} : Matches s (some (.error d)) (.error d)

section agreement

variable {m n : Nat}

theorem Matches.bind {x : Descent α} {y : Reading α m} {f : α → Descent β}
    {g : Parsed α m → Reading β n} (hxy : s.Matches (x pos) y)
    (hfg : ∀ a next h, next ≤ s.tokens.length →
      s.Matches (f a next) (g ⟨a, s.rest next, h⟩)) :
    s.Matches ((x >>= f) pos) (y >>= g) := by
  generalize hx : x pos = r at hxy
  cases hxy with
  | ok hle =>
    rw [bind_of_ok hx]
    exact hfg _ _ _ hle
  | error =>
    rw [bind_of_error hx]
    exact .error

/-- A result that is passed on under another bound. -/
theorem Matches.relax {x : Option (Except Diagnostic (α × Nat))} {y : Reading α m}
    {g : Parsed α m → Reading α n} (hxy : s.Matches x y)
    (hg : ∀ a next h, next ≤ s.tokens.length →
      s.Matches (some (.ok (a, next))) (g ⟨a, s.rest next, h⟩)) :
    s.Matches x (y >>= g) := by
  cases hxy with
  | ok hle => exact hg _ _ _ hle
  | error => exact .error

theorem Matches.of_relax {x : Option (Except Diagnostic (α × Nat))} {y : Reading α m}
    {hlt : ∀ p : Parsed α m, p.rest.length < n}
    (h : s.Matches x (y >>= fun p => pure ⟨p.value, p.rest, hlt p⟩)) : s.Matches x y := by
  cases y with
  | error d =>
    change s.Matches x (.error d) at h
    cases h
    exact .error
  | ok p =>
    obtain ⟨a, r, hr⟩ := p
    change s.Matches x (.ok ⟨a, r, hlt ⟨a, r, hr⟩⟩) at h
    cases h with
    | ok hle => exact .ok hle

/-- The word `w` is taken from both, or missed in both. -/
theorem Matches.skip (hs : s.Valid) {w : String} {f : Unit → Descent β}
    {g : Parsed Location (s.rest pos).length → Reading β n}
    (hfg : ∀ h, pos < s.tokens.length →
      s.Matches (f () (pos + 1)) (g ⟨place s.fin (s.rest pos), s.rest (pos + 1), h⟩)) :
    s.Matches ((s.skip w >>= f) pos) (Parsing.expect s.fin w (s.rest pos) >>= g) := by
  rw [Parsing.expect]
  rcases equal_cases hs w pos with ⟨hnone, hfalse⟩ | ⟨hlt, hsome, htrue, hpos⟩
  · have hskip : s.skip w pos =
        some (.error (Parsing.unexpected s.fin (quoted w) (s.rest pos))) := by
      rw [TokenStream.skip, bind_of_ok hfalse]
      exact unexpected_apply hs (quoted w) pos
    rw [hnone, bind_of_error hskip]
    exact .error
  · have hskip : s.skip w pos = some (.ok ((), pos + 1)) := by
      rw [TokenStream.skip, bind_of_ok htrue]
      rfl
    rw [hsome, bind_of_ok hskip]
    exact hfg hlt hpos

end agreement

section takes

variable {γ : Type}

theorem identifier_apply (hs : s.Valid) {t : TokenRange} (h : s.tokens[pos]? = some t)
    (hk : t.kind = .ident) :
    s.identifier pos = some (.ok ((t.location, (t.token s.source).text), pos + 1)) := by
  have hpeek : s.peek pos = some (.ok (some t, pos)) := by rw [peek, h]
  rw [identifier, bind_of_ok hpeek]
  simp only [if_pos hk, (hs t (List.mem_of_getElem? h)).text?]
  rfl

theorem identifier_matches (hs : s.Valid) (pos : Nat) :
    s.Matches (s.identifier pos) (Parsing.identifier s.fin (s.rest pos)) := by
  have hmiss := unexpected_apply (α := Location × String) hs "an identifier" pos
  cases h : s.tokens[pos]? with
  | none =>
    rw [rest_of_none h] at hmiss ⊢
    rw [identifier, bind_of_ok rfl]
    simp only [h, hmiss]
    exact .error
  | some t =>
    rw [rest_of_some h] at hmiss ⊢
    have hkind : (t.token s.source).kind = t.kind := rfl
    by_cases hk : t.kind = .ident
    · simp only [Parsing.identifier, Parsing.take?, hkind, if_pos hk, identifier_apply hs h hk]
      exact .ok (lt_of_some h)
    · rw [identifier, bind_of_ok rfl]
      simp only [Parsing.identifier, Parsing.take?, hkind, if_neg hk, h, hmiss]
      exact .error

theorem number_apply {t : TokenRange} (h : s.tokens[pos]? = some t) {value : Option Int64}
    (hk : t.kind = .number value) :
    s.number pos =
      some ((Parsing.valueOf t.location value).map fun v => ((t.location, v), pos + 1)) := by
  have hpeek : s.peek pos = some (.ok (some t, pos)) := by rw [peek, h]
  rw [number, bind_of_ok hpeek]
  simp only [hk]
  cases value <;> rfl

theorem number_matches (hs : s.Valid) (pos : Nat) :
    s.Matches (s.number pos) (Parsing.number s.fin (s.rest pos)) := by
  have hmiss := unexpected_apply (α := Location × Int64) hs "a number" pos
  cases h : s.tokens[pos]? with
  | none =>
    rw [rest_of_none h] at hmiss ⊢
    rw [number, bind_of_ok rfl]
    simp only [h, hmiss]
    exact .error
  | some t =>
    rw [rest_of_some h] at hmiss ⊢
    have hkind : (t.token s.source).kind = t.kind := rfl
    cases hk : t.kind with
    | number value =>
      simp only [Parsing.number, hkind, hk, number_apply h hk]
      cases value with
      | none => exact .error
      | some value => exact .ok (lt_of_some h)
    | _ =>
      rw [number, bind_of_ok rfl]
      simp only [Parsing.number, hkind, hk, h, hmiss]
      exact .error

theorem string_apply (hs : s.Valid) {t : TokenRange} (h : s.tokens[pos]? = some t)
    (hk : t.kind = .string) :
    s.string pos = some (.ok ((t.token s.source).contents, pos + 1)) := by
  have hpeek : s.peek pos = some (.ok (some t, pos)) := by rw [peek, h]
  rw [string, bind_of_ok hpeek]
  simp only [if_pos hk, (hs t (List.mem_of_getElem? h)).contents? hk]
  rfl

/-- Either no token is left to be read, or the next one is no end token. -/
theorem isEnd_cases (s : TokenStream) (pos : Nat) :
    (∀ t ∈ (s.rest pos).head?, t.kind = .eof) ∧ s.isEnd pos = some (.ok (true, pos)) ∨
      ∃ t, s.rest pos = t :: s.rest (pos + 1) ∧ t.kind ≠ .eof ∧
        s.isEnd pos = some (.ok (false, pos)) := by
  rw [isEnd, bind_of_ok rfl]
  cases h : s.tokens[pos]? with
  | none =>
    rw [rest_of_none h]
    exact .inl ⟨nofun, rfl⟩
  | some t =>
    rw [rest_of_some h]
    have hkind : (t.token s.source).kind = t.kind := rfl
    by_cases hk : t.kind = .eof
    · refine .inl ⟨fun u hu => ?_, by simp only [hk]; rfl⟩
      cases hu
      exact hk
    · exact .inr ⟨_, rfl, hk, by simp only [hk]; rfl⟩

/-- What the next token is by its text alone, if it is of one of these kinds. -/
theorem take?_cases (hs : s.Valid) (kinds : List Token.Kind) {f : String → Option γ}
    {g : Token → Option (Location × γ)}
    (hg : ∀ t, g t = if t.kind ∈ kinds then (f t.text).map (t.location, ·) else none) (pos : Nat) :
    (Parsing.take? g (s.rest pos) = none ∧
      ∃ w, s.peekAmong kinds pos = some (.ok (w, pos)) ∧ w.bind f = none) ∨
    ∃ c w h,
      Parsing.take? g (s.rest pos) = some ⟨(place s.fin (s.rest pos), c), s.rest (pos + 1), h⟩ ∧
      s.peekAmong kinds pos = some (.ok (some w, pos)) ∧ f w = some c ∧ pos < s.tokens.length := by
  rw [peekAmong_apply hs]
  cases h : s.tokens[pos]? with
  | none =>
    rw [rest_of_none h]
    exact .inl ⟨rfl, _, rfl, rfl⟩
  | some t =>
    rw [rest_of_some h, Parsing.take?, hg]
    by_cases hk : (t.token s.source).kind ∈ kinds
    · cases hf : f (t.token s.source).text with
      | none => exact .inl ⟨by simp [hk], _, rfl, by simp [hk, hf]⟩
      | some c => exact .inr ⟨c, _, _, by simp [hk]; rfl, by simp [hk], hf, lt_of_some h⟩
    · exact .inl ⟨by simp [hk], _, rfl, by simp [hk]⟩

theorem skip_of_peekText {w : String} (h : s.peekText pos = some (.ok (some w, pos))) :
    s.skip w pos = some (.ok ((), pos + 1)) := by
  have hequal : s.equal w pos = some (.ok (true, pos + 1)) := by
    rw [equal, bind_of_ok h, if_pos rfl]
    rfl
  rw [skip, bind_of_ok hequal]
  rfl

theorem peekText_of_peekPunct (hs : s.Valid) {w : String}
    (h : s.peekPunct pos = some (.ok (some w, pos))) :
    s.peekText pos = some (.ok (some w, pos)) := by
  rw [peekPunct, peekAmong_apply hs] at h
  rw [peekText, peekAmong_apply hs]
  cases hrest : (s.rest pos).head? with
  | none => simp [hrest] at h
  | some t =>
    simp only [hrest, Option.bind_some, List.mem_singleton, Option.some.injEq, Except.ok.injEq,
      Prod.mk.injEq, and_true, Option.ite_none_right_eq_some] at h
    simp [h.1, h.2]

/-- Either the next token is one of the operators `ops`, and it can be taken, or it is none. -/
theorem operator_cases (hs : s.Valid) {opOf : String → Option BinaryOp} {ops : List BinaryOp}
    (hops : ∀ w op, opOf w = some op ↔ op ∈ ops ∧ op.symbol = w) (pos : Nat) :
    (Parsing.operator? ops (s.rest pos) = none ∧
      ∃ w, s.peekPunct pos = some (.ok (w, pos)) ∧ w.bind opOf = none) ∨
    ∃ op w h,
      Parsing.operator? ops (s.rest pos) =
        some ⟨(place s.fin (s.rest pos), op), s.rest (pos + 1), h⟩ ∧
      s.peekPunct pos = some (.ok (w, pos)) ∧ w.bind opOf = some op ∧
      s.skip op.symbol pos = some (.ok ((), pos + 1)) ∧ pos < s.tokens.length := by
  have hfind : ∀ w, opOf w = ops.find? (·.symbol == w) := by
    intro w
    refine Option.ext fun op => ?_
    rw [hops, Parsing.find?_eq_some_iff_of_unique, beq_iff_eq]
    intro b _ c _ hb hc
    exact Parsing.BinaryOp.symbol_injective ((beq_iff_eq.1 hb).trans (beq_iff_eq.1 hc).symm)
  have htake := take?_cases hs [.punctuator] (f := opOf)
    (g := fun t => if t.kind = .punctuator then
      (ops.find? (·.symbol == t.text)).map (t.location, ·) else none)
    (fun t => by simp only [List.mem_singleton, hfind]) pos
  rcases htake with hnone | ⟨op, w, h, hsome, hpeek, hop, hlt⟩
  · exact .inl hnone
  · obtain ⟨_, rfl⟩ := (hops w op).1 hop
    have hskip := skip_of_peekText (peekText_of_peekPunct hs hpeek)
    exact .inr ⟨op, _, h, hsome, hpeek, hop, hskip, hlt⟩

theorem stops_iff_forall_accept? {ws : List String} {ts : List Token} :
    Parsing.Stops ws ts ↔ ∀ w ∈ ws, accept? w ts = none := by
  simp only [Parsing.accept?_eq_none_iff, Parsing.Stops, List.forall_mem_singleton]
  exact ⟨fun h w hw t ht => h t ht w hw, fun h t ht w hw => h w hw t ht⟩

theorem baseType?_of_accept? {ts r : List Token} {l : Location} {w : String} {ty : Ty}
    {hlt : r.length < ts.length} (hm : (w, ty) ∈ Parsing.baseTypes)
    (h : accept? w ts = some ⟨l, r, hlt⟩) : Parsing.baseType? ts = some ⟨(l, ty), r, hlt⟩ := by
  obtain ⟨t, ht, hw, hl⟩ := Parsing.accept?_eq_some_iff.1 h
  exact Parsing.baseType?_eq_some_iff.2 ⟨t, ht, ⟨w, hm, hw⟩, hl⟩

theorem baseType_cases (hs : s.Valid) (pos : Nat) :
    Parsing.baseType? (s.rest pos) = none ∧
      s.baseType pos =
        some (.error (Parsing.unexpected s.fin "a type name" (s.rest pos))) ∨
    ∃ ty h,
      Parsing.baseType? (s.rest pos) =
        some ⟨(place s.fin (s.rest pos), ty), s.rest (pos + 1), h⟩ ∧
      s.baseType pos = some (.ok (ty, pos + 1)) ∧ pos < s.tokens.length := by
  rw [baseType]
  rcases equal_cases hs "int" pos with ⟨hint, hfalse⟩ | ⟨h, hsome, htrue, hlt⟩
  · rw [ite_of_false hfalse]
    rcases equal_cases hs "string" pos with ⟨hstring, hfalse⟩ | ⟨h, hsome, htrue, hlt⟩
    · rw [ite_of_false hfalse]
      rcases equal_cases hs "void" pos with ⟨hvoid, hfalse⟩ | ⟨h, hsome, htrue, hlt⟩
      · rw [ite_of_false hfalse, unexpected_apply hs]
        refine .inl ⟨Parsing.baseType?_eq_none_iff.2 (stops_iff_forall_accept?.2 ?_), rfl⟩
        simp [Parsing.typeWords, Parsing.baseTypes, hint, hstring, hvoid]
      · have hm : ("void", Ty.void) ∈ Parsing.baseTypes := by simp [Parsing.baseTypes]
        exact .inr ⟨_, h, baseType?_of_accept? hm hsome, ite_of_true htrue, hlt⟩
    · have hm : ("string", Ty.string) ∈ Parsing.baseTypes := by simp [Parsing.baseTypes]
      exact .inr ⟨_, h, baseType?_of_accept? hm hsome, ite_of_true htrue, hlt⟩
  · have hm : ("int", Ty.int) ∈ Parsing.baseTypes := by simp [Parsing.baseTypes]
    exact .inr ⟨_, h, baseType?_of_accept? hm hsome, ite_of_true htrue, hlt⟩

/-- The name of a base type can be told by its text. -/
theorem peekText_base (hs : s.Valid) (pos : Nat) :
    ∃ w, s.peekText pos = some (.ok (w, pos)) ∧
      (w ∈ [some "int", some "string", some "void"] ↔
        Parsing.baseType? (s.rest pos) ≠ none) := by
  refine ⟨_, peekAmong_apply hs _ pos, ?_⟩
  rw [Ne, Parsing.baseType?_eq_none_iff]
  cases h : (s.rest pos).head? with
  | none => simp [Parsing.Stops, h]
  | some t =>
    simp [Parsing.Stops, h, Parsing.typeWords, Parsing.baseTypes, Token.isWord];
    tauto

theorem comparisonOf_eq_some_iff (w : String) (op : BinaryOp) :
    comparisonOf w = some op ↔ op ∈ Parsing.comparisons ∧ op.symbol = w := by
  constructor
  · unfold comparisonOf
    split <;> intro h <;> cases h <;> decide
  · rintro ⟨hm, rfl⟩
    revert hm
    cases op <;> decide

theorem operatorOf_eq_some_iff (level : Level) (w : String) (op : BinaryOp) :
    operatorOf level w = some op ↔ op ∈ level.ops ∧ op.symbol = w := by
  constructor
  · unfold operatorOf
    split <;> intro h <;> cases h <;> decide
  · rintro ⟨hm, rfl⟩
    revert hm
    cases level <;> cases op <;> decide

theorem headOf_eq_some_iff {w : String} {head : Head} :
    headOf w = some head ↔ w = head.word := by
  constructor
  · unfold headOf
    split <;> intro h <;> cases h <;> rfl
  · rintro rfl
    cases head <;> rfl

/-- Either the next token is the head of a statement, and it can be taken, or it is none. -/
theorem head_cases (hs : s.Valid) (pos : Nat) :
    (Parsing.head? (s.rest pos) = none ∧
      ∃ w, s.peekText pos = some (.ok (w, pos)) ∧ w.bind headOf = none) ∨
    ∃ head w h,
      Parsing.head? (s.rest pos) =
        some ⟨(place s.fin (s.rest pos), head), s.rest (pos + 1), h⟩ ∧
      s.peekText pos = some (.ok (w, pos)) ∧ w.bind headOf = some head ∧
      s.skip head.word pos = some (.ok ((), pos + 1)) ∧ pos < s.tokens.length := by
  have htake := take?_cases hs [.punctuator, .keyword] (f := headOf)
    (g := fun t => (Parsing.heads.find? fun p => t.isWord p.1).map fun p => (t.location, p.2))
    (fun t => ?_) pos
  · rcases htake with hnone | ⟨head, w, h, hsome, hpeek, hhead, hlt⟩
    · exact .inl hnone
    · obtain rfl := headOf_eq_some_iff.1 hhead
      exact .inr ⟨head, _, h, hsome, hpeek, hhead, skip_of_peekText hpeek, hlt⟩
  · refine Option.ext fun result => ?_
    simp only [Option.map_eq_some_iff, Parsing.find?_isWord_eq_some_iff Parsing.heads_nodup,
      Option.ite_none_right_eq_some, headOf_eq_some_iff, Parsing.isWord_iff, Prod.exists,
      Parsing.mem_heads_iff, List.mem_cons, List.not_mem_nil, or_false]
    constructor
    · rintro ⟨w, head, ⟨rfl, hk, hw⟩, heq⟩
      exact ⟨hk, head, hw, heq⟩
    · rintro ⟨hk, head, hw, heq⟩
      exact ⟨_, head, ⟨rfl, hk, hw⟩, heq⟩

end takes

end TokenStream

end Bpl
