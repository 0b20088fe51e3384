import Bpl.Proofs.Diagnostics.Lines
import Bpl.Proofs.Diagnostics.Parsing
import Bpl.Proofs.Diagnostics.Typing
import Bpl.Proofs.Layout.Invariance

namespace Bpl

open Lexeme (Gap Stuck cutGap)

variable {source : String} {l : Location}

/-- A byte of a text at which a token starts, at which the text ends, or at which a comment or a
string that is not closed, a number that is too large or a stray character starts. -/
inductive IsStart (source : String) : Nat → Prop
  | token {ts : List Token} {t : Token} :
      tokenize source = .ok ts → t ∈ ts → t.kind ≠ .eof → IsStart source t.start
  | ending : IsStart source source.utf8ByteSize
  | stuck {s : Split} {rest : List Char} {fault : LexicalFault} :
      s.Fits rest → Stuck fault rest → s.text ++ rest = source.toList →
        IsStart source (byteLength s.text)

/-- The place of a byte at which something starts, with no blank and no comment behind it. -/
def Marks (source : String) (l : Location) : Prop :=
  ∃ before rest, before ++ rest = source.toList ∧ l = Location.first.after before ∧
    cutGap rest = ([], rest) ∧ IsStart source (byteLength before)

theorem Marks.exists_at (h : Marks source l) :
    ∃ offset, IsStart source offset ∧ l.At source offset := by
  obtain ⟨before, rest, hsource, rfl, _, hstarts⟩ := h
  exact ⟨byteLength before, hstarts, Location.at_of_append hsource⟩

theorem head?_ne_newline {rest : List Char} (h : cutGap rest = ([], rest)) :
    rest.head? ≠ some '\n' := by
  intro hhead
  obtain ⟨cs, rfl⟩ := List.head?_eq_some_iff.1 hhead
  have hgap : Gap ['\n'] := .blank (by decide) .nil
  rw [← List.singleton_append, Lexeme.cutGap_append_of_gap hgap] at h
  cases (Prod.mk.inj h).1

theorem Marks.quotes (h : Marks source l) : Quotes source l (excerpt source l) := by
  obtain ⟨before, rest, hsource, rfl, hcut, _⟩ := h
  exact quotes_excerpt hsource (.inr (head?_ne_newline hcut))

namespace Split

theorem tokensAfter_ne_nil (before g : List Char) (ps : List Piece) :
    tokensAfter before ps g ≠ [] := by
  cases ps <;> exact List.cons_ne_nil _ _

theorem marks_tokensAfter {before g : List Char} {ps : List Piece} (hfits : Fits [] ⟨ps, g⟩)
    (hsource : before ++ text ⟨ps, g⟩ = source.toList)
    (hstarts : ∀ t ∈ tokensAfter before ps g, t.kind ≠ .eof → IsStart source t.start) :
    ∀ t ∈ tokensAfter before ps g, Marks source t.location := by
  induction ps generalizing before with
  | nil =>
    refine List.forall_mem_singleton.2 ⟨before ++ g, [], ?_, rfl, Lexeme.Final.cutGap (.inl rfl), ?_⟩
    · rw [List.append_nil]
      exact hsource
    · have hend : byteLength (before ++ g) = source.utf8ByteSize := by
        rw [← byteLength_toList, ← hsource]
        rfl
      rw [hend]
      exact .ending
  | cons p ps ih =>
    cases hfits with
    | piece hg hs hl hfits =>
      rw [← List.append_nil (text _), text_cons] at hsource
      obtain ⟨hstart, hstarts⟩ := List.forall_mem_cons.1 hstarts
      refine List.forall_mem_cons.2 ⟨?_, ih hfits ?_ hstarts⟩
      · refine ⟨before ++ p.gap, p.word ++ (text ⟨ps, g⟩ ++ []), ?_, rfl, ?_, hstart hs.ne_eof⟩
        · rw [List.append_assoc, hsource]
        · exact Lexeme.cutGap_of_longest hs hl
      · rw [← hsource]
        simp

end Split

/-- Each token stands at the place of its first byte, the end token at that of the end. -/
theorem marks_of_tokenize {ts : List Token} (h : tokenize source = .ok ts) :
    InPlaces (Marks source) ts := by
  obtain ⟨s, hfits, htext, rfl⟩ := tokenize_eq_ok_iff.1 h
  refine inPlaces_list.2 fun t ht => inPlaces_token.2 ?_
  exact Split.marks_tokensAfter hfits htext (fun t ht hk => .token h ht hk) t ht

theorem marks_of_tokenize_error {d : Diagnostic} (h : tokenize source = .error d) :
    ∃ l, d.location? = some l ∧ Marks source l := by
  obtain ⟨s, rest, fault, hfits, hstuck, htext, rfl⟩ := tokenize_eq_error_iff.1 h
  refine ⟨_, rfl, s.text, rest, htext, rfl, Lexeme.cutGap_of_stuck hstuck, ?_⟩
  exact .stuck hfits hstuck htext

/-- A text that is not analyzed lacks an entry, or is found at fault where something starts. -/
theorem marks_of_analyze {d : Diagnostic}
    (h : (analyze source).outcome = .error (.diagnostic d)) :
    d = .semantic .first .missingMain ∨ ∃ l, d.location? = some l ∧ Marks source l := by
  rw [analyze, Logged.outcome_bind, Logged.outcome_ofExcept] at h
  cases hts : tokenize source with
  | error e =>
    rw [hts] at h
    cases h
    exact .inr (marks_of_tokenize_error hts)
  | ok ts =>
    have hne : ts ≠ [] := by
      obtain ⟨s, _, _, rfl⟩ := tokenize_eq_ok_iff.1 hts
      exact Split.tokensAfter_ne_nil _ _ _
    have hparse := parse_keeps hne (marks_of_tokenize hts)
    rw [hts] at h
    change (((parse ts).mapError Failure.diagnostic) >>= fun p => p.check.outcome) = _ at h
    cases hp : parse ts with
    | error e =>
      rw [hp] at h hparse
      cases h
      exact .inr hparse.exists_location
    | ok p =>
      rw [hp] at h hparse
      exact Program.check_error hparse.inPlaces h

/-- A diagnostic that says that a text lacks an entry, at its first character, or one about a line
and column of the text at which something starts. -/
inductive Located (source : String) : Diagnostic → Prop
  | missingMain : Located source (.semantic .first .missingMain)
  | starts {d : Diagnostic} {l : Location} {offset : Nat} :
      d.location? = some l → IsStart source offset → l.At source offset → Located source d

/-- Where a compilation fails, its diagnostic is about a place of the text, and it is shown with
the name of the file in front and the line of that place behind it. -/
theorem located_of_compile {e : Failure} (h : (compile source).outcome = .error e) :
    ∃ d, e = .diagnostic d ∧ Located source d ∧
      ∃ l quotation, d.location? = some l ∧ Quotes source l quotation ∧
        ∀ file, d.render file source = file ++ ":" ++ d.message ++ quotation := by
  cases e with
  | fault f => exact absurd h (compile_ne_fault source f)
  | diagnostic d =>
    have hanalyze : (analyze source).outcome = .error (.diagnostic d) := by
      cases hq : (analyze source).outcome with
      | ok q =>
        obtain ⟨a, ha, _⟩ := exists_compile_of_analyze hq
        rw [h] at ha
        cases ha
      | error e =>
        rw [compile, Logged.outcome_bind, hq] at h
        cases h
        rfl
    have hrender : ∀ l, d.location? = some l → ∀ file,
        d.render file source = file ++ ":" ++ d.message ++ excerpt source l := by
      intro l hl file
      rw [Diagnostic.render, hl]
    refine ⟨d, rfl, ?_⟩
    rcases marks_of_analyze hanalyze with rfl | ⟨l, hl, hmarks⟩
    · have hquotes : Quotes source .first (excerpt source .first) :=
        quotes_excerpt (List.nil_append _) (.inl rfl)
      exact ⟨.missingMain, .first, _, rfl, hquotes, hrender _ rfl⟩
    · obtain ⟨offset, hstarts, hat⟩ := hmarks.exists_at
      exact ⟨.starts hl hstarts hat, l, _, hl, hmarks.quotes, hrender l hl⟩

/-- A program with a misspelled name, behind a tab on a line that ends in a carriage return and a
line feed. -/
def misspelled : String :=
  "int total;\r\nvoid main(void) \x7b\r\n\twrite(tota);\r\n\x7d\r\n"

theorem misspelled_located :
    ∃ e, (compile misspelled).outcome = .error e ∧
      e = .diagnostic (.semantic ⟨3, 8⟩ (.undeclared "tota")) ∧
      ∃ d, e = .diagnostic d ∧ Located misspelled d ∧
        ∃ l quotation, d.location? = some l ∧ Quotes misspelled l quotation ∧
          ∀ file, d.render file misspelled = file ++ ":" ++ d.message ++ quotation := by
  have h : (compile misspelled).outcome =
      .error (.diagnostic (.semantic ⟨3, 8⟩ (.undeclared "tota"))) := by
    decide +kernel
  exact ⟨_, h, rfl, located_of_compile h⟩

example :
    (Diagnostic.semantic ⟨3, 8⟩ (.undeclared "tota")).render "sum.bpl" misspelled =
      "sum.bpl:3:8: name \"tota\" is undefined\n\twrite(tota);\n\t      ^" := by
  decide +kernel

end Bpl
