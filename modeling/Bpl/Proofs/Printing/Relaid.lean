import Bpl.Proofs.Printing.Roundtrip

namespace Bpl

open Lexeme (Gap beginsGap)

theorem Lexeme.Gap.beginsGap {g : List Char} (h : Gap g) :
    ∀ c ∈ g.head?, Lexeme.beginsGap c = true := by
  intro c hc
  cases h with
  | nil => cases hc
  | blank hb _ =>
    cases hc
    exact Bool.or_eq_true_iff.2 (.inl hb)
  | comment _ _ =>
    cases hc
    rfl

/-- The texts of tokens in their order, each behind a gap of its own. -/
def Token.relaid (gaps : List (List Char)) (ts : List Token) : List Char :=
  (List.zipWith (fun g t => g ++ t.text.toList) gaps ts).flatten

namespace Split

open Token (relaid)

variable {gaps : List (List Char)}

theorem relaid_cons (g : List Char) (gaps : List (List Char)) (t : Token) (ts : List Token) :
    relaid (g :: gaps) (t :: ts) = g ++ t.text.toList ++ relaid gaps ts :=
  rfl

/-- Behind a word, what is laid anew begins with a gap, or with nothing where no token is left. -/
theorem beginsGap_relaid {ps : List Piece} (hlength : gaps.length = ps.length + 1)
    (hgap : ∀ g ∈ gaps, Gap g) (hsep : ∀ g ∈ gaps.dropLast, g ≠ []) (before last : List Char) :
    ∀ c ∈ (relaid gaps (tokensAfter before ps last)).head?, beginsGap c = true := by
  obtain ⟨g, gaps, rfl⟩ := List.exists_cons_of_length_eq_add_one hlength
  cases ps with
  | nil =>
    have hnil : gaps = [] := List.eq_nil_of_length_eq_zero (Nat.succ.inj hlength)
    subst hnil
    have htext : relaid [g] (tokensAfter before [] last) = g := by
      simp [relaid, tokensAfter, token]
    rw [htext]
    exact (hgap g List.mem_cons_self).beginsGap
  | cons p ps =>
    have hne : g ≠ [] := by
      obtain ⟨g', gaps, rfl⟩ := List.exists_cons_of_length_eq_add_one (Nat.succ.inj hlength)
      exact hsep g List.mem_cons_self
    rw [tokensAfter, relaid_cons, List.append_assoc, List.head?_append_of_ne_nil _ hne]
    exact (hgap g List.mem_cons_self).beginsGap

/-- The words of a text fit behind other gaps too, where there is one between any two. -/
theorem Fits.relaid {s : Split} {rest : List Char} (h : s.Fits rest)
    (hlength : gaps.length = s.pieces.length + 1) (hgap : ∀ g ∈ gaps, Gap g)
    (hsep : ∀ g ∈ gaps.tail.dropLast, g ≠ []) (before : List Char) :
    ∃ s' : Split, s'.Fits [] ∧
      s'.text = Token.relaid gaps (tokensAfter before s.pieces s.last) ∧
      s'.pieces.map (fun p => (p.kind, p.word)) = s.pieces.map fun p => (p.kind, p.word) := by
  induction h generalizing gaps before with
  | last _ =>
    obtain ⟨g, rfl⟩ := List.length_eq_one_iff.1 hlength
    refine ⟨⟨[], g⟩, .last (hgap g List.mem_cons_self), ?_, rfl⟩
    simp [Token.relaid, tokensAfter, token, text]
  | @piece p ps last _ hs _ _ ih =>
    obtain ⟨g, gaps, rfl⟩ := List.exists_cons_of_length_eq_add_one hlength
    have hlength' : gaps.length = ps.length + 1 := Nat.succ.inj hlength
    have hgap' : ∀ g ∈ gaps, Gap g := fun g hg => hgap g (List.mem_cons_of_mem _ hg)
    have hsep' : ∀ g ∈ gaps.tail.dropLast, g ≠ [] := by
      intro g hg
      rw [← List.tail_dropLast] at hg
      exact hsep g (List.mem_of_mem_tail hg)
    obtain ⟨s', hfits, htext, hwords⟩ := ih hlength' hgap' hsep' (before ++ p.gap ++ p.word)
    have hbegins := beginsGap_relaid hlength' hgap' hsep (before ++ p.gap ++ p.word) last
    refine ⟨⟨⟨g, p.kind, p.word⟩ :: s'.pieces, s'.last⟩,
      .piece (hgap g List.mem_cons_self) hs ?_ hfits, ?_, ?_⟩
    · rw [← htext, ← List.append_nil s'.text] at hbegins
      exact Lexeme.longest_of_beginsGap hs hbegins
    · rw [tokensAfter, relaid_cons, ← htext, ← List.append_nil (text _), text_cons]
      simp [token]
    · rw [List.map_cons, List.map_cons, hwords]

end Split

/-- Tokens survive any change of the gaps between them that leaves at least a blank or a comment
where one token follows another: the text laid anew has tokens of the same kinds, values and
texts. -/
theorem tokenize_relaid {source : String} {ts : List Token} {gaps : List (List Char)}
    (h : tokenize source = .ok ts) (hlength : gaps.length = ts.length)
    (hgap : ∀ g ∈ gaps, Gap g) (hsep : ∀ g ∈ gaps.tail.dropLast, g ≠ []) :
    ∃ ts', tokenize (String.ofList (Token.relaid gaps ts)) = .ok ts' ∧
      ts'.map Token.word = ts.map Token.word := by
  obtain ⟨s, hfits, _, rfl⟩ := tokenize_eq_ok_iff.1 h
  have hpieces : gaps.length = s.pieces.length + 1 := by
    have hwords := congrArg List.length (Token.words_tokensAfter [] s.last s.pieces)
    rw [List.length_map, List.length_append, List.length_map] at hwords
    exact hlength.trans hwords
  obtain ⟨s', hfits', htext, hwords⟩ := hfits.relaid hpieces hgap hsep []
  refine ⟨s'.tokens, tokenize_eq_ok_iff.2 ⟨s', hfits', ?_, rfl⟩, ?_⟩
  · rw [htext, String.toList_ofList]
    rfl
  · have hspelled := congrArg (List.map fun w => (w.1, String.ofList w.2)) hwords
    rw [List.map_map, List.map_map] at hspelled
    rw [Split.tokens, Split.tokens, Token.words_tokensAfter, Token.words_tokensAfter]
    exact congrArg (· ++ [Token.ending.word]) hspelled

/-- Words that only the rule of the longest word parts, a comment mark in a string and a slash. -/
def munched : String :=
  "1abc<==\"/*\"/x*"

/-- Gaps for the tokens of `munched`: no two of them are alike, and the first is empty. -/
def munchedGaps : List (List Char) :=
  ["", "/**/", " ", "\t\n", "/* \" \n*/", "/***/", "/*/*//*\"*/", "\x0c\r", " "].map String.toList

theorem munched_words : (tokenize munched).toOption.map (·.map Token.text) = some
    ["1", "abc", "<=", "=", "\"/*\"", "/", "x", "*", ""] := by
  decide +kernel

theorem munched_relaid :
    ∃ ts ts', tokenize munched = .ok ts ∧
      tokenize (String.ofList (Token.relaid munchedGaps ts)) = .ok ts' ∧
      ts'.map Token.word = ts.map Token.word := by
  cases h : tokenize munched with
  | error d =>
    have hwords := munched_words
    rw [h] at hwords
    cases hwords
  | ok ts =>
    have hlength : munchedGaps.length = ts.length := by
      have hwords := munched_words
      rw [h] at hwords
      have hcount := congrArg List.length (Option.some.inj hwords)
      rw [List.length_map] at hcount
      exact hcount.symm
    obtain ⟨ts', hts', hwords⟩ := tokenize_relaid h hlength (by decide +kernel) (by decide +kernel)
    exact ⟨ts, ts', rfl, hts', hwords⟩

end Bpl
