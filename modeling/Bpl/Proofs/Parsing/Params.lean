import Bpl.Proofs.Layout.Invariance
import Bpl.Proofs.Parsing.Complete
import Bpl.Proofs.Printing.Printer

namespace Bpl

namespace Grammar

/-- A parameter and the tokens that spell it. -/
structure SpelledParam where
  tokens : List Token
  param : Variable
  spelled : Param tokens param

/-- The tokens of parameters, each behind one of the commas `cs`. -/
def moreTokens (cs : List Token) (qs : List SpelledParam) : List Token :=
  (cs.zip qs).flatMap fun r => r.1 :: r.2.tokens

/-- The tokens of parameters with the commas `cs` between them. -/
def listTokens (cs : List Token) : List SpelledParam → List Token
  | [] => []
  | q :: qs => q.tokens ++ moreTokens cs qs

/-- The word `void` names the type of the parameter, or of what it points to. -/
def SpelledParam.IsVoid (q : SpelledParam) : Prop :=
  q.param.ty = .void ∨ q.param.ty = .pointer .void

theorem isWord_void_iff {t : Token} {ty : Ty} (h : t.isBaseType ty) :
    t.isWord "void" = true ↔ ty = .void := by
  obtain ⟨w, hm, hw⟩ := h
  have hbase : ∀ p ∈ Parsing.baseTypes, p.1 = "void" ↔ p.2 = .void := by decide
  rw [← hbase _ hm]
  exact ⟨fun ht => Parsing.isWord_unique hw ht, fun hv => hv ▸ hw⟩

/-- A parameter has two tokens or more, and the second is never a parenthesis. -/
theorem SpelledParam.exists_tokens (q : SpelledParam) :
    ∃ t s us, q.tokens = t :: s :: us ∧ (t.isWord "void" = true ↔ q.IsVoid) ∧
      s.isWord ")" = false := by
  have hident : ∀ x : Token, x.kind = .ident → x.isWord ")" = false := fun x hx =>
    Parsing.not_isWord (by simp [hx]) (by simp [hx])
  obtain ⟨us, v, h⟩ := q
  cases h with
  | @scalar _ l ty x hs hx =>
    cases hs with
    | base ht =>
      have hpointer : ty ≠ .pointer .void := by
        rintro rfl
        exact absurd (Parsing.isPointer_of_isBaseType ht) (by decide)
      exact ⟨_, x, [], rfl, (isWord_void_iff ht).trans (by simp [IsVoid, hpointer]), hident x hx⟩
    | @pointer t s _ ht hs =>
      refine ⟨t, s, [x], rfl, (isWord_void_iff ht).trans (by simp [IsVoid]), ?_⟩
      by_contra hp
      exact absurd (Parsing.isWord_unique hs (Bool.eq_true_of_not_eq_false hp)) (by decide)
  | @array t x o c _ ht hx ho hc =>
    exact ⟨t, x, [o, c], rfl, (isWord_void_iff ht).trans (by simp [IsVoid]), hident x hx⟩

section lists

variable {us : List Token} {vs : List Variable}

theorem MoreParams.exists_spelled (h : MoreParams us vs) :
    ∃ cs qs, us = moreTokens cs qs ∧ vs = qs.map (·.param) ∧ cs.length = qs.length ∧
      ∀ c ∈ cs, c.isWord "," = true := by
  induction h with
  | nil => exact ⟨[], [], rfl, rfl, rfl, nofun⟩
  | @cons ws _ t v _ ht hv _ ih =>
    obtain ⟨cs, qs, rfl, rfl, hlength, hcs⟩ := ih
    exact ⟨t :: cs, ⟨ws, v, hv⟩ :: qs, rfl, rfl, congrArg (· + 1) hlength,
      List.forall_mem_cons.2 ⟨ht, hcs⟩⟩

theorem moreParams_of_spelled {cs : List Token} (hcs : ∀ c ∈ cs, c.isWord "," = true)
    (qs : List SpelledParam) (hlength : cs.length = qs.length) :
    MoreParams (moreTokens cs qs) (qs.map (·.param)) := by
  induction qs generalizing cs with
  | nil =>
    obtain rfl := List.eq_nil_of_length_eq_zero hlength
    exact .nil
  | cons q qs ih =>
    cases cs with
    | nil => cases hlength
    | cons c cs =>
      obtain ⟨hc, hcs⟩ := List.forall_mem_cons.1 hcs
      exact .cons hc q.spelled (ih hcs (Nat.succ.inj hlength))

theorem Params.exists_spelled (h : Params us vs) (hvs : vs ≠ []) :
    ∃ cs qs, us = listTokens cs qs ∧ vs = qs.map (·.param) ∧ cs.length + 1 = qs.length ∧
      ∀ c ∈ cs, c.isWord "," = true := by
  cases h with
  | void _ => exact absurd rfl hvs
  | @list ws _ t v _ _ hv hmore =>
    obtain ⟨cs, qs, rfl, rfl, hlength, hcs⟩ := hmore.exists_spelled
    exact ⟨cs, ⟨t :: ws, v, hv⟩ :: qs, rfl, rfl, congrArg (· + 1) hlength, hcs⟩

/-- Parameters in a row are a list of parameters unless the first of them names `void`. -/
theorem params_of_spelled {cs : List Token} (hcs : ∀ c ∈ cs, c.isWord "," = true)
    {q : SpelledParam} (hq : ¬ q.IsVoid) (qs : List SpelledParam)
    (hlength : cs.length = qs.length) :
    Params (listTokens cs (q :: qs)) ((q :: qs).map (·.param)) := by
  obtain ⟨t, s, us, htokens, hvoid, _⟩ := q.exists_tokens
  have ht : t.isWord "void" = false := by
    by_contra ht
    exact hq (hvoid.1 (Bool.eq_true_of_not_eq_false ht))
  have hspelled := q.spelled
  rw [htokens] at hspelled
  rw [listTokens, htokens]
  exact .list ht hspelled (moreParams_of_spelled hcs qs hlength)

end lists

theorem Program.exists_append {us : List Token} {ds ds' : List Decl}
    (h : Program us (ds ++ ds')) :
    ∃ vs ws, us = vs ++ ws ∧ Program vs ds ∧ Program ws ds' := by
  induction ds generalizing us with
  | nil => exact ⟨[], us, rfl, .nil, h⟩
  | cons d ds ih =>
    cases h with
    | @cons xs _ _ _ hd hds =>
      obtain ⟨vs, ws, rfl, h₁, h₂⟩ := ih hds
      exact ⟨xs ++ vs, ws, (List.append_assoc ..).symm, .cons hd h₁, h₂⟩

theorem Program.append {us us' : List Token} {ds ds' : List Decl} (h : Program us ds)
    (h' : Program us' ds') : Program (us ++ us') (ds ++ ds') := by
  induction h with
  | nil => exact h'
  | cons hd _ ih =>
    rw [List.append_assoc]
    exact .cons hd ih

end Grammar

namespace Parsing

open Grammar

variable (fin : Location) {us : List Token} {l : Location} {ty : Ty} {x o t s : Token}

/-- The word `void` at the head of the parameters is taken to stand for all of them. -/
theorem decl_of_void (hs : TypeSpec us l ty) (hx : x.kind = .ident) (ho : o.isWord "(" = true)
    (ht : t.isWord "void" = true) (hp : s.isWord ")" = false) (rest : List Token) :
    decl fin (us ++ x :: o :: t :: s :: rest) =
      .error (unexpected fin (quoted ")") (s :: rest)) := by
  have hparams : Reads (params fin (t :: s :: rest)) [] (s :: rest) := by
    rw [params, accept?_cons ht]
    exact reads_ok.2 ⟨rfl, rfl⟩
  have hexpect : expect fin ")" (s :: rest) = .error (unexpected fin (quoted ")") (s :: rest)) := by
    rw [expect, accept?_eq_none_iff.2 (by simpa [Stops] using hp)]
  rw [decl]
  refine (reads_typeSpec (stops_ident hx) hs).bind_error ?_
  refine (reads_identifier.2 ⟨x, rfl, hx, rfl, rfl⟩).bind_error ?_
  simp only [accept?_cons ho]
  refine hparams.bind_error ?_
  rw [hexpect]
  rfl

theorem decls_of_void (hs : TypeSpec us l ty) (hx : x.kind = .ident) (ho : o.isWord "(" = true)
    (ht : t.isWord "void" = true) (hp : s.isWord ")" = false) (rest : List Token) :
    decls fin (us ++ x :: o :: t :: s :: rest) =
      .error (unexpected fin (quoted ")") (s :: rest)) := by
  have hdecl := decl_of_void fin hs hx ho ht hp rest
  obtain ⟨u, us, _, rfl, hu⟩ := exists_baseType hs
  rw [List.cons_append] at hdecl ⊢
  rw [decls, if_neg (ne_eof_of_isBaseType hu), hdecl]
  rfl

end Parsing

/-- What stands before and behind the parameters of a function that is defined between other
declarations. -/
inductive Grammar.Surrounds :
    List Token → List Token → List Decl → Function → List Decl → Prop
  | mk {us ss ws vs rest : List Token} {ds ds' : List Decl} {l : Location} {ty : Ty}
      {x o c : Token} {ps : List Variable} {b : Bpl.Block} :
      Program us ds → TypeSpec ss l ty → x.kind = .ident → o.isWord "(" = true →
      c.isWord ")" = true → Block ws b → Program vs ds' →
      (∀ t ∈ rest.head?, t.kind = .eof) →
        Surrounds (us ++ ss ++ [x, o]) (c :: ws ++ vs ++ rest) ds ⟨x.text, ty, ps, b, l, []⟩ ds'

namespace Grammar.Surrounds

variable {front back : List Token} {ds ds' : List Decl} {f : Function}

theorem parse_of_params {us : List Token} {ps : List Variable}
    (h : Surrounds front back ds f ds') (hus : Params us ps) :
    parse (front ++ us ++ back) = .ok (ds ++ .function { f with params := ps } :: ds') := by
  cases h with
  | @mk us₁ ss ws vs rest _ _ _ _ x o c _ b hbefore hs hx ho hc hb hafter hend =>
    have hf := Declaration.function hs hx ho hus hc hb
    have hprogram := hbefore.append (.cons hf hafter)
    simpa using parse_of_program hend hprogram

theorem parse_of_void {t s : Token} (h : Surrounds front back ds f ds') (us : List Token)
    (ht : t.isWord "void" = true) (hs : s.isWord ")" = false) :
    ∃ d, parse (front ++ t :: s :: us ++ back) = .error d := by
  cases h with
  | @mk us₁ ss ws vs rest _ _ _ _ x o c _ b hbefore hspec hx ho hc hb hafter hend =>
    let after := us ++ (c :: ws ++ vs ++ rest)
    have hgap : us₁ ++ ss ++ [x, o] ++ t :: s :: us ++ (c :: ws ++ vs ++ rest) =
        us₁ ++ (ss ++ x :: o :: t :: s :: after) := by
      simp [after]
    rw [hgap, parse, Parsing.decls_append hbefore,
      Parsing.decls_of_void _ hspec hx ho ht hs after]
    exact ⟨_, rfl⟩

end Grammar.Surrounds

/-- A definition is found between what surrounds its parameters. -/
theorem exists_surrounds_of_parse {ts : List Token} {ds ds' : List Decl} {f : Function}
    (h : parse ts = .ok (ds ++ .function f :: ds')) :
    ∃ front us back, ts = front ++ us ++ back ∧ Grammar.Params us f.params ∧
      Grammar.Surrounds front back ds f ds' := by
  obtain ⟨us, rest, rfl, hprogram, hend⟩ := Parsing.program_of_decls _ ts h
  obtain ⟨before, ws, rfl, hbefore, hrest⟩ := hprogram.exists_append
  cases hrest with
  | cons hf hafter =>
    cases hf with
    | function hs hx ho hp hc hb =>
      exact ⟨_, _, _, by simp, hp, .mk hbefore hs hx ho hc hb hafter hend⟩

section words

variable {ts ts' : List Token} (h : ts'.map Token.word = ts.map Token.word)
include h

theorem unplaced_parse_of_words : unplaced (parse ts') = unplaced (parse ts) := by
  rw [← parse_unplaced, ← parse_unplaced, unplaced_eq_of_words h]

/-- The same program is read from the same words, wherever they stand. -/
theorem parse_ok_of_words {p : Program} (hp : parse ts = .ok p) :
    ∃ p', parse ts' = .ok p' ∧ unplaced p' = unplaced p := by
  have hsame := unplaced_parse_of_words h
  rw [hp] at hsame
  cases hts' : parse ts' with
  | ok p' =>
    rw [hts'] at hsame
    exact ⟨p', rfl, Except.ok.inj hsame⟩
  | error d =>
    rw [hts'] at hsame
    cases hsame

theorem parse_error_of_words {d : Diagnostic} (hd : parse ts = .error d) :
    ∃ d', parse ts' = .error d' := by
  have hsame := unplaced_parse_of_words h
  rw [hd] at hsame
  cases hts' : parse ts' with
  | ok p =>
    rw [hts'] at hsame
    cases hsame
  | error d' => exact ⟨d', rfl⟩

end words

open Grammar (SpelledParam listTokens)

/-- The parameters of a function may be written in any order of which the first does not name
`void`: the same function is read, with its parameters in that order. With such a parameter at
the head nothing is read, since its first word is taken for an empty list. -/
theorem params_reordered {ts : List Token} {ds ds' : List Decl} {f : Function}
    (h : parse ts = .ok (ds ++ .function f :: ds')) (hf : f.params ≠ []) :
    ∃ (front back cs : List Token) (qs : List SpelledParam),
      ts = front ++ listTokens cs qs ++ back ∧ qs.map (·.param) = f.params ∧
      cs.length + 1 = qs.length ∧ (∀ c ∈ cs, c.isWord "," = true) ∧
      ∀ qs' : List SpelledParam, qs'.Perm qs →
        ((∀ q ∈ qs'.head?, ¬ q.IsVoid) →
          let p := ds ++ .function { f with params := qs'.map (·.param) } :: ds'
          parse (front ++ listTokens cs qs' ++ back) = .ok p ∧
            ∀ ts' : List Token,
              ts'.map Token.word = (front ++ listTokens cs qs' ++ back).map Token.word →
                ∃ p', parse ts' = .ok p' ∧ unplaced p' = unplaced p) ∧
        ((∃ q ∈ qs'.head?, q.IsVoid) →
          ∀ ts' : List Token,
            ts'.map Token.word = (front ++ listTokens cs qs' ++ back).map Token.word →
              ∃ d, parse ts' = .error d) := by
  obtain ⟨front, us, back, rfl, hus, hsurrounds⟩ := exists_surrounds_of_parse h
  obtain ⟨cs, qs, rfl, hparams, hlength, hcs⟩ := hus.exists_spelled hf
  refine ⟨front, back, cs, qs, rfl, hparams.symm, hlength, hcs, fun qs' hperm => ?_⟩
  have hlength' : cs.length + 1 = qs'.length := hlength.trans hperm.length_eq.symm
  cases qs' with
  | nil => cases hlength'
  | cons q qs' =>
    constructor
    · intro hq p
      have hparse : parse (front ++ listTokens cs (q :: qs') ++ back) = .ok p :=
        hsurrounds.parse_of_params
          (Grammar.params_of_spelled hcs (hq q rfl) qs' (Nat.succ.inj hlength'))
      exact ⟨hparse, fun ts' hwords => parse_ok_of_words hwords hparse⟩
    · rintro ⟨_, hhead, hq⟩ ts' hwords
      obtain rfl := Option.some.inj hhead
      obtain ⟨t, s, us, htokens, hvoid, hs⟩ := q.exists_tokens
      have hfront : listTokens cs (q :: qs') = t :: s :: (us ++ Grammar.moreTokens cs qs') := by
        rw [listTokens, htokens]
        rfl
      obtain ⟨d, hparse⟩ := hsurrounds.parse_of_void (us ++ Grammar.moreTokens cs qs')
        (hvoid.2 hq) hs
      rw [← hfront] at hparse
      exact parse_error_of_words hwords hparse

open Token (ofWord ofName)

/-- The tokens of a function with these parameters that does nothing. -/
def idle (us : List Token) : List Token :=
  [ofWord "void", ofName "f", ofWord "("] ++ us ++ [ofWord ")", ofWord "\x7b", ofWord "\x7d"]

/-- A number, a pointer and an array. -/
def mixedParams : List Token :=
  [ofWord "int", ofName "n", ofWord ",", ofWord "string", ofWord "*", ofName "p", ofWord ",",
    ofWord "int", ofName "row", ofWord "[", ofWord "]"]

/-- The types of the parameters where a program is a single function. -/
def paramTypes : Program → Option (List Ty)
  | [.function f] => some (f.params.map (·.ty))
  | _ => none

theorem exists_function_of_paramTypes {ts : List Token} {tys : List Ty}
    (h : (parse ts).toOption.any (paramTypes · == some tys)) :
    ∃ f, parse ts = .ok [.function f] ∧ f.params.map (·.ty) = tys := by
  obtain ⟨p, hparse, hp⟩ := Except.any_toOption_iff.1 h
  have htypes := beq_iff_eq.1 hp
  unfold paramTypes at htypes
  split at htypes
  · exact ⟨_, hparse, Option.some.inj htypes⟩
  · cases htypes

theorem mixedParams_reordered :
    ∃ f, parse (idle mixedParams) = .ok [.function f] ∧
      f.params.map (·.ty) = [.int, .pointer .string, .pointer .int] ∧
      ∃ front back cs qs, idle mixedParams = front ++ listTokens cs qs ++ back ∧
        parse (front ++ listTokens cs qs.reverse ++ back) =
          .ok [.function { f with params := f.params.reverse }] := by
  have hreads : (parse (idle mixedParams)).toOption.any
      (paramTypes · == some [.int, .pointer .string, .pointer .int]) := by
    decide +kernel
  obtain ⟨f, hparse, htypes⟩ := exists_function_of_paramTypes hreads
  have hf : f.params ≠ [] := fun hnil => by simp [hnil] at htypes
  have hsingle : parse (idle mixedParams) = .ok ([] ++ .function f :: []) := hparse
  obtain ⟨front, back, cs, qs, hts, hqs, _, _, hreorder⟩ := params_reordered hsingle hf
  have hback : qs.reverse.map (·.param.ty) = [.pointer .int, .pointer .string, .int] := by
    rw [← hqs, List.map_map] at htypes
    rw [List.map_reverse]
    exact congrArg List.reverse htypes
  have hfirst : ∀ q ∈ qs.reverse.head?, ¬ q.IsVoid := by
    intro q hq
    have hty := congrArg List.head? hback
    rw [List.head?_map, Option.mem_def.1 hq] at hty
    simp [SpelledParam.IsVoid, Option.some.inj hty]
  have hmoved := (hreorder qs.reverse qs.reverse_perm).1 hfirst
  rw [List.map_reverse, hqs] at hmoved
  exact ⟨f, hparse, htypes, front, back, cs, qs, hts, hmoved.1⟩

/-- A pointer to `void` may stand behind another parameter, but not before it. -/
theorem void_not_first :
    let number : List Token := [ofWord "int", ofName "n"]
    let pointer : List Token := [ofWord "void", ofWord "*", ofName "p"]
    (∃ f, parse (idle (number ++ ofWord "," :: pointer)) = .ok [.function f] ∧
      f.params.map (·.ty) = [.int, .pointer .void]) ∧
      ∃ d, parse (idle (pointer ++ ofWord "," :: number)) = .error d := by
  intro number pointer
  constructor
  · exact exists_function_of_paramTypes (by decide +kernel)
  · have hrefused : (parse (idle (pointer ++ ofWord "," :: number))).isOk = false := by
      decide +kernel
    cases hparse : parse (idle (pointer ++ ofWord "," :: number)) with
    | ok p =>
      rw [hparse] at hrefused
      cases hrefused
    | error d => exact ⟨d, rfl⟩

end Bpl
