import Bpl.Proofs.Layout.Lowering
import Bpl.Proofs.Layout.Parsing
import Bpl.Proofs.Layout.Typing
import Bpl.Proofs.Typing.Linked

namespace Bpl

/-- What a token is without its place: its kind, with the value of a number, and its text. -/
def Token.word (t : Token) : Token.Kind × String :=
  (t.kind, t.text)

theorem unplaced_eq_of_words {ts ts' : List Token} (h : ts.map Token.word = ts'.map Token.word) :
    unplaced ts = unplaced ts' := by
  have hword : ∀ us : List Token,
      unplaced us = (us.map Token.word).map fun w => ⟨w.1, w.2, 0, .first⟩ := by
    intro us
    rw [List.map_map]
    rfl
  rw [hword, hword, h]

/-- A compilation depends on the places of its tokens only in the places that it reports. -/
theorem unplaced_compile {source : String} {ts : List Token} (h : tokenize source = .ok ts) :
    unplaced (compile source) =
      .ofExcept (parse (unplaced ts)) >>= Program.check >>= Program.generate := by
  have hparse : tokenize source >>= parse = parse ts := by
    rw [h]
    rfl
  rw [compile, analyze, hparse, parse_unplaced]
  refine (Logged.bind_unplaced ?_ Program.generate_unplaced).symm
  refine Logged.bind_unplaced (Typing.ofExcept_unplaced rfl) Program.check_unplaced

/-- A compilation comes upon no tree that is unfit for a step. -/
theorem compile_ne_fault (source : String) (f : Fault) :
    (compile source).outcome ≠ .error (.fault f) := by
  simp only [compile, analyze, Logged.outcome_bind, Logged.outcome_ofExcept]
  cases hp : tokenize source >>= parse with
  | error d =>
    intro h
    cases h
  | ok p =>
    obtain ⟨ts, _, hts⟩ := Except.bind_eq_ok_iff.1 hp
    -- a parser links no names, and what a check accepts is typed in all its parts
    have hu := unlinked_of_parse hts
    change (p.check.outcome >>= fun q => q.generate.outcome) ≠ _
    cases hq : p.check.outcome with
    | error e =>
      intro h
      cases h
      exact Typing.faultless_checkAmong .empty hu f hq
    | ok q =>
      obtain ⟨a, ha⟩ := ((Typing.check_eq_ok_iff_derives hu).1 hq).exists_lower
      change (q.lower.mapError Failure.fault) ≠ _
      rw [ha]
      intro h
      cases h

/-- Layout never affects the outcome: texts with the same words compile to the same assembly, or
fail for the same reason, at whatever places. -/
theorem compile_layout {s s' : String} {ts ts' : List Token} (h : tokenize s = .ok ts)
    (h' : tokenize s' = .ok ts') (hw : ts.map Token.word = ts'.map Token.word) :
    (∃ a, (compile s).outcome = .ok a ∧ (compile s').outcome = .ok a) ∨
      ∃ d d', (compile s).outcome = .error (.diagnostic d) ∧
        (compile s').outcome = .error (.diagnostic d') ∧ unplaced d = unplaced d' := by
  have hcompile : unplaced (compile s) = unplaced (compile s') := by
    rw [unplaced_compile h, unplaced_compile h', unplaced_eq_of_words hw]
  have houtcome : unplaced (compile s).outcome = unplaced (compile s').outcome :=
    congrArg Logged.outcome hcompile
  cases hs : (compile s).outcome with
  | ok a =>
    cases hs' : (compile s').outcome with
    | ok a' =>
      rw [hs, hs'] at houtcome
      exact .inl ⟨a, rfl, congrArg Except.ok (Except.ok.inj houtcome).symm⟩
    | error e' =>
      rw [hs, hs'] at houtcome
      cases houtcome
  | error e =>
    cases hs' : (compile s').outcome with
    | ok a' =>
      rw [hs, hs'] at houtcome
      cases houtcome
    | error e' =>
      rw [hs, hs'] at houtcome
      have hfail : unplaced e = unplaced e' := Except.error.inj houtcome
      cases e with
      | fault f => exact absurd hs (compile_ne_fault s f)
      | diagnostic d =>
        cases e' with
        | fault f => exact absurd hs' (compile_ne_fault s' f)
        | diagnostic d' => exact .inr ⟨d, d', rfl, rfl, Failure.diagnostic.inj hfail⟩

/-- A program that divides, as short as it can be written. -/
def dense : String :=
  "int x;void main(void)\x7bx=7/2;write(x);\x7d"

def spread : String :=
  "/* half of\n seven */ int x ;\n\nvoid main( void )\n\x7b\n  x = 7 /**/ / 2;\n\twrite (x) ; \x7d\n"

theorem spread_compiles_alike :
    ∃ ts ts', tokenize dense = .ok ts ∧ tokenize spread = .ok ts' ∧
      ts.map Token.word = ts'.map Token.word ∧
      ((∃ a, (compile dense).outcome = .ok a ∧ (compile spread).outcome = .ok a) ∨
        ∃ d d', (compile dense).outcome = .error (.diagnostic d) ∧
          (compile spread).outcome = .error (.diagnostic d') ∧ unplaced d = unplaced d') := by
  have hwords : (tokenize dense).toOption.map (·.map Token.word) =
      (tokenize spread).toOption.map (·.map Token.word) ∧ (tokenize dense).isOk = true := by
    decide +kernel
  obtain ⟨hwords, hdense⟩ := hwords
  cases hd : tokenize dense with
  | error d =>
    rw [hd] at hdense
    cases hdense
  | ok ts =>
    cases hs : tokenize spread with
    | error d =>
      rw [hd, hs] at hwords
      cases hwords
    | ok ts' =>
      rw [hd, hs] at hwords
      have hw := Option.some.inj hwords
      exact ⟨ts, ts', rfl, rfl, hw, compile_layout hd hs hw⟩

end Bpl
