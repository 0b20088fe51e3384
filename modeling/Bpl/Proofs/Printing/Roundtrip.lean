import Bpl.Proofs.Layout.Invariance
import Bpl.Proofs.Printing.Shortest
import Bpl.Proofs.Printing.Spelling

namespace Bpl

open Lexeme (Spells Longest)
open Token (Printed)

namespace Token

/-- Tokens with a blank in front of each. -/
def spaced (us : List Token) : List Piece :=
  us.map fun t => ⟨[' '], t.kind, t.text.toList⟩

/-- Tokens with a blank between them. -/
def pieces : List Token → List Piece
  | [] => []
  | t :: us => ⟨[], t.kind, t.text.toList⟩ :: spaced us

theorem longest_spaced {t : Token} (us : List Token) (ht : Spells t.kind t.text.toList) :
    Longest t.kind t.text.toList (Split.text ⟨spaced us, []⟩ ++ []) := by
  refine Lexeme.longest_of_beginsGap ht fun c hc => ?_
  cases us with
  | nil => cases hc
  | cons u us =>
    cases hc
    rfl

theorem fits_spaced {us : List Token} (h : Printed us) : Split.Fits [] ⟨spaced us, []⟩ := by
  induction us with
  | nil => exact .last .nil
  | cons t us ih =>
    obtain ⟨⟨_, ht⟩, hus⟩ := List.forall_mem_cons.1 h
    exact .piece (.blank rfl .nil) ht (longest_spaced us ht) (ih hus)

theorem fits_pieces {us : List Token} (h : Printed us) : Split.Fits [] ⟨pieces us, []⟩ := by
  cases us with
  | nil => exact .last .nil
  | cons t us =>
    obtain ⟨⟨_, ht⟩, hus⟩ := List.forall_mem_cons.1 h
    exact .piece .nil ht (longest_spaced us ht) (fits_spaced hus)

theorem text_spaced (t : Token) (us : List Token) :
    t.text.toList ++ Split.text ⟨spaced us, []⟩ =
      [' '].intercalate ((t :: us).map (·.text.toList)) := by
  induction us generalizing t with
  | nil => simp [spaced, Split.text]
  | cons u us ih =>
    have hu := ih u
    rw [List.map_cons] at hu
    rw [List.map_cons, List.map_cons, List.intercalate_cons_cons, ← hu]
    simp [spaced, Split.text]

theorem text_pieces (us : List Token) :
    Split.text ⟨pieces us, []⟩ = (" ".intercalate (us.map text)).toList := by
  rw [String.toList_intercalate, List.map_map]
  cases us with
  | nil => rfl
  | cons t us =>
    rw [show Split.text ⟨pieces (t :: us), []⟩ = t.text.toList ++ Split.text ⟨spaced us, []⟩ by
      simp [pieces, Split.text]]
    exact text_spaced t us

/-- The end of a text in which nothing stands anywhere. -/
def ending : Token :=
  ⟨.eof, "", 0, .first⟩

theorem words_tokensAfter (before g : List Char) (ps : List Piece) :
    (Split.tokensAfter before ps g).map word =
      ps.map (fun p => (p.kind, String.ofList p.word)) ++ [ending.word] := by
  induction ps generalizing before with
  | nil => rfl
  | cons p ps ih =>
    rw [Split.tokensAfter, List.map_cons, ih]
    rfl

theorem words_pieces (us : List Token) :
    (pieces us).map (fun p => (p.kind, String.ofList p.word)) = us.map word := by
  cases us with
  | nil => rfl
  | cons t us => simp [pieces, spaced, word]

end Token

/-- The scanner reads words with a blank between them back. -/
theorem tokenize_intercalate {us : List Token} (h : Printed us) :
    ∃ ts, tokenize (" ".intercalate (us.map Token.text)) = .ok ts ∧
      unplaced ts = us ++ [Token.ending] := by
  refine ⟨Split.tokens ⟨Token.pieces us, []⟩, tokenize_eq_ok_iff.2
    ⟨_, Token.fits_pieces h, Token.text_pieces us, rfl⟩, ?_⟩
  have hwords : (Split.tokens ⟨Token.pieces us, []⟩).map Token.word =
      (us ++ [Token.ending]).map Token.word := by
    rw [Split.tokens, Token.words_tokensAfter, Token.words_pieces, List.map_append]
    rfl
  have hus : us.map unplaced = us := by
    rw [List.map_congr_left fun t ht => (h t ht).1, List.map_id']
  rw [unplaced_eq_of_words hwords]
  change (us ++ [Token.ending]).map unplaced = _
  rw [List.map_append, hus]
  rfl

/-- What is printed for a program is parsed as the program that it is printed for. -/
theorem exists_parse_print {p : Program} (h : p.Printable) :
    ∃ ts p', tokenize p.print = .ok ts ∧ parse ts = .ok p' ∧ unplaced p' = unplaced p ∧
      ts.length = p.spelling.length + 1 := by
  obtain ⟨ts, hts, hunplaced⟩ := tokenize_intercalate h.printed
  have hparse : parse (unplaced ts) = .ok (unplaced p) := by
    rw [hunplaced]
    exact parse_of_program (by rintro _ ⟨⟩; rfl) (Grammar.program_spelling h)
  have hlength : ts.length = p.spelling.length + 1 := by
    have := congrArg List.length hunplaced
    rwa [List.length_append, show (unplaced ts).length = ts.length from List.length_map _] at this
  rw [parse_unplaced] at hparse
  cases hp : parse ts with
  | error d =>
    rw [hp] at hparse
    cases hparse
  | ok p' =>
    rw [hp] at hparse
    exact ⟨ts, p', hts, hp, Except.ok.inj hparse, hlength⟩

namespace Split

/-- Tokens are words that the scanner reads, up to an end token. -/
theorem Fits.spells {s : Split} {rest : List Char} (h : s.Fits rest) (before : List Char) :
    ∀ t ∈ tokensAfter before s.pieces s.last, t.kind = .eof ∨ Spells t.kind t.text.toList := by
  induction h generalizing before with
  | last _ => exact List.forall_mem_singleton.2 (.inl rfl)
  | piece _ hs _ _ ih =>
    exact List.forall_mem_cons.2 ⟨.inr (String.toList_ofList.symm ▸ hs), ih _⟩

theorem exists_eof (before g : List Char) (ps : List Piece) :
    ∃ t ∈ tokensAfter before ps g, t.kind = .eof := by
  induction ps generalizing before with
  | nil => exact ⟨_, List.mem_singleton_self _, rfl⟩
  | cons p ps ih =>
    obtain ⟨t, ht, hk⟩ := ih (before ++ p.gap ++ p.word)
    exact ⟨t, List.mem_cons_of_mem _ ht, hk⟩

end Split

/-- A program that is parsed can be printed, with no more tokens than it was parsed from. -/
theorem printable_of_parse {source : String} {ts : List Token} {p : Program}
    (ht : tokenize source = .ok ts) (hp : parse ts = .ok p) :
    p.Printable ∧ p.spelling.length < ts.length := by
  obtain ⟨s, hfits, _, rfl⟩ := tokenize_eq_ok_iff.1 ht
  obtain ⟨us, rest, hus, hg, _⟩ := Parsing.program_of_decls _ _ hp
  rw [Split.tokens] at hus ⊢
  have hscanned : Token.Scanned us := fun t ht =>
    (hfits.spells [] t (hus ▸ List.mem_append_left rest ht)).resolve_left (hg.ne_eof t ht)
  refine ⟨hg.printable hscanned, ?_⟩
  obtain ⟨t, ht, heof⟩ := Split.exists_eof [] s.last s.pieces
  have hrest : t ∈ rest := by
    rw [hus] at ht
    exact (List.mem_append.1 ht).resolve_left fun h => hg.ne_eof t h heof
  have hpos := List.length_pos_of_mem hrest
  have hle := hg.length_spelling_le
  rw [hus, List.length_append]
  omega

/-- Printing undoes parsing: what is printed for a program is parsed as the same program at other
places, and has no more tokens than the text that the program was parsed from. -/
theorem print_undoes_parse {source : String} {ts : List Token} {p : Program}
    (ht : tokenize source = .ok ts) (hp : parse ts = .ok p) :
    ∃ ts' p', tokenize p.print = .ok ts' ∧ parse ts' = .ok p' ∧ unplaced p' = unplaced p ∧
      ts'.length ≤ ts.length := by
  obtain ⟨hprintable, hlength⟩ := printable_of_parse ht hp
  obtain ⟨ts', p', hts', hp', hu, hlength'⟩ := exists_parse_print hprintable
  exact ⟨ts', p', hts', hp', hu, hlength' ▸ hlength⟩

/-- A program with more parentheses than it needs, signs next to each other, an array for a
parameter and an `else` that belongs to the nearer `if`. -/
def cluttered : String :=
  "int f(int x[])\x7bif((x[0]))if(1<2)return 03;else x[1]=((x[(2)]=5));" ++
    "return((1-(2-3))*-(-4));\x7dvoid main(void)\x7bwrite(\"= \");\x7d"

theorem print_cluttered : (tokenize cluttered >>= parse).toOption.map Program.print = some
    ("int f ( int * x ) \x7b if ( x [ 0 ] ) if ( 1 < 2 ) return 3 ; " ++
      "else x [ 1 ] = x [ 2 ] = 5 ; return ( 1 - ( 2 - 3 ) ) * - - 4 ; \x7d " ++
      "void main ( void ) \x7b write ( \"= \" ) ; \x7d") := by
  decide +kernel

theorem cluttered_parsed_back :
    ∃ ts p, tokenize cluttered = .ok ts ∧ parse ts = .ok p ∧
      ∃ ts' p', tokenize p.print = .ok ts' ∧ parse ts' = .ok p' ∧ unplaced p' = unplaced p ∧
        ts'.length ≤ ts.length := by
  have hprint := print_cluttered
  cases hp : tokenize cluttered >>= parse with
  | error d =>
    rw [hp] at hprint
    cases hprint
  | ok p =>
    obtain ⟨ts, ht, hp⟩ := Except.bind_eq_ok_iff.1 hp
    exact ⟨ts, p, ht, hp, print_undoes_parse ht hp⟩

end Bpl
