import Bpl.Proofs.Parsing.Uniform

namespace Bpl

open Parsing (Ended Twins unexpected)

/-- Where something that is missing at the end of a list of tokens is reported. -/
def lastPlace (ts : List Token) : Location :=
  (ts.getLast?.map Token.location).getD default

/-- Lists that differ only where none of their tokens is read are parsed alike, but for the place
at which it is reported that they end. -/
theorem parse_append_ended {rest rest' : List Token} (h : Ended rest) (h' : Ended rest')
    (ts : List Token) :
    parse (ts ++ rest) = parse (ts ++ rest') ∨ ∃ expected,
      parse (ts ++ rest) = .error (unexpected (lastPlace (ts ++ rest)) expected rest) ∧
        parse (ts ++ rest') = .error (unexpected (lastPlace (ts ++ rest')) expected rest') := by
  let w : Twins := ⟨.stay, lastPlace (ts ++ rest), lastPlace (ts ++ rest'), rest, rest', h, h'⟩
  have hts : moved w.move ts = ts := moved_stay_list Token.moved_stay ts
  have hparse := w.decls_concur ts
  rw [Twins.right, hts] at hparse
  change w.Concur (parse (ts ++ rest)) (parse (ts ++ rest')) at hparse
  revert hparse
  generalize parse (ts ++ rest) = x
  generalize parse (ts ++ rest') = y
  intro hparse
  cases hparse with
  | ok => exact .inl (congrArg Except.ok (moved_stay_list Decl.moved_stay _).symm)
  | error => exact .inl (congrArg Except.error (Diagnostic.moved_stay _).symm)
  | ended => exact .inr ⟨_, rfl, rfl⟩

theorem ended_eof {e : Token} (he : e.kind = .eof) (extra : List Token) : Ended (e :: extra) := by
  intro t ht
  rwa [← Option.mem_some_iff.1 ht]

/-- Parsing stops at the first end token. What is behind it does not matter. Nor does it matter
whether there is one: without it the same program is parsed, or the same is refused, except that
what is missing at the end is reported at the last token in place of the end token. -/
theorem parse_stops_at_end {e : Token} (he : e.kind = .eof) (ts extra : List Token) :
    parse (ts ++ e :: extra) = parse (ts ++ [e]) ∧
      (∀ p, parse ts = .ok p ↔ parse (ts ++ [e]) = .ok p) ∧
      ∀ d, parse ts = .error d → ∃ d', parse (ts ++ [e]) = .error d' ∧
        (d' = d ∨ ∃ expected, d = .parse (lastPlace ts) expected "EOF" ∧
          d' = .parse e.location expected "EOF") := by
  have hdescribe : e.describe = "EOF" := by rw [Token.describe, he]
  constructor
  · rcases parse_append_ended (ended_eof he extra) (ended_eof he []) ts with h | ⟨_, h, h'⟩
    · exact h
    · exact h.trans h'.symm
  have hnil : Ended [] := nofun
  have hends := parse_append_ended hnil (ended_eof he []) ts
  rw [List.append_nil] at hends
  rcases hends with h | ⟨expected, h, h'⟩
  · rw [h]
    exact ⟨fun p => Iff.rfl, fun d hd => ⟨d, hd, .inl rfl⟩⟩
  · rw [h, h']
    refine ⟨fun p => ⟨nofun, nofun⟩, ?_⟩
    intro d hd
    obtain rfl := Except.error.inj hd
    refine ⟨_, rfl, .inr ⟨expected, rfl, ?_⟩⟩
    rw [unexpected, hdescribe]
    rfl

/-- A declaration that lacks its semicolon. -/
def unfinished : List Token :=
  [⟨.keyword, "int", 0, ⟨1, 1⟩⟩, ⟨.ident, "x", 4, ⟨1, 5⟩⟩]

theorem unfinished_stops :
    let e : Token := ⟨.eof, "", 6, ⟨2, 1⟩⟩
    let semicolon : Token := ⟨.punctuator, ";", 6, ⟨2, 1⟩⟩
    e.kind = .eof ∧ parse (unfinished ++ [e, semicolon]) = parse (unfinished ++ [e]) ∧
      ∃ d d', parse unfinished = .error d ∧ parse (unfinished ++ [e]) = .error d' ∧
        (d' = d ∨ ∃ expected, d = .parse ⟨1, 5⟩ expected "EOF" ∧
          d' = .parse ⟨2, 1⟩ expected "EOF") := by
  intro e semicolon
  obtain ⟨hsame, _, hfails⟩ := parse_stops_at_end (e := e) rfl unfinished [semicolon]
  have hrefused : (parse unfinished).isOk = false := by decide +kernel
  cases hparse : parse unfinished with
  | ok p =>
    rw [hparse] at hrefused
    cases hrefused
  | error d =>
    obtain ⟨d', hparse', hd⟩ := hfails d hparse
    exact ⟨rfl, hsame, d, d', rfl, hparse', hd⟩

end Bpl
