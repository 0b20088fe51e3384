import Bpl.Proofs.Scanning.Lexemes

namespace Bpl

open Lexeme (Gap Spells Longest Stuck cutGap ofText)

/-- A word of a text and the gap in front of it. -/
structure Piece where
  gap : List Char
  kind : Token.Kind
  word : List Char

/-- Words with the gaps in front of them, and the gap behind the last word. -/
structure Split where
  pieces : List Piece
  last : List Char

namespace Split

/-- The text that is split. -/
def text (s : Split) : List Char :=
  s.pieces.flatMap (fun p => p.gap ++ p.word) ++ s.last

/-- `s.Fits rest`: in front of `rest` there are gaps between words, each of them as long as it can
be. -/
inductive Fits (rest : List Char) : Split → Prop
  | last {g : List Char} : Gap g → Fits rest ⟨[], g⟩
  | piece {p : Piece} {ps : List Piece} {g : List Char} :
      Gap p.gap → Spells p.kind p.word → Longest p.kind p.word (text ⟨ps, g⟩ ++ rest) →
        Fits rest ⟨ps, g⟩ → Fits rest ⟨p :: ps, g⟩

/-- The token that a word makes which stands behind the text `before`. -/
def token (before : List Char) (kind : Token.Kind) (word : List Char) : Token :=
  ⟨kind, String.ofList word, byteLength before, Location.first.after before⟩

/-- The tokens of words that stand behind the text `before`, and an end token behind `last`. -/
def tokensAfter (before : List Char) : List Piece → List Char → List Token
  | [], last => [token (before ++ last) .eof []]
  | p :: ps, last =>
    token (before ++ p.gap) p.kind p.word :: tokensAfter (before ++ p.gap ++ p.word) ps last

def tokens (s : Split) : List Token :=
  tokensAfter [] s.pieces s.last

end Split

/-- What a text ends in, or where no token can be read. -/
def Lexeme.Final (rest : List Char) : Prop :=
  rest = [] ∨ ∃ fault, Stuck fault rest

namespace Lexeme

theorem Final.cutGap {rest : List Char} (h : Final rest) :
    Lexeme.cutGap rest = ([], rest) := by
  rcases h with rfl | ⟨fault, h⟩
  · rw [Lexeme.cutGap]
  · exact cutGap_of_stuck h

theorem Final.ne_word {rest w cs : List Char} {k : Token.Kind} (h : Final rest) (hs : Spells k w)
    (hl : Longest k w cs) : rest ≠ w ++ cs := by
  rcases h with rfl | ⟨fault, h⟩
  · exact fun he => hs.ne_nil (List.append_eq_nil_iff.1 he.symm).1
  · rintro rfl
    have hk := ofText_of_stuck h
    rw [ofText_of_longest hs hl] at hk
    cases hk

end Lexeme

namespace Split

variable {rest : List Char}

theorem text_nil (g : List Char) : text ⟨[], g⟩ = g :=
  rfl

theorem text_cons (p : Piece) (ps : List Piece) (g : List Char) :
    text ⟨p :: ps, g⟩ ++ rest = p.gap ++ (p.word ++ (text ⟨ps, g⟩ ++ rest)) := by
  simp [text]

/-- Each text is split up to its end or to where no token can be read. -/
theorem exists_fits (cs : List Char) :
    ∃ s : Split, ∃ rest, s.Fits rest ∧ Lexeme.Final rest ∧ s.text ++ rest = cs := by
  induction hn : cs.length using Nat.strong_induction_on generalizing cs with
  | _ n ih =>
    have hgap := Lexeme.gap_cutGap cs
    have hcs := Lexeme.cutGap_append cs
    rcases Lexeme.eq_nil_or_begins (Lexeme.cutGap_cutGap cs) with
      hnil | ⟨k, w, rest, hw, hs, hl⟩ | hstuck
    · exact ⟨⟨[], _⟩, _, .last hgap, .inl hnil, hcs⟩
    · rw [← hw] at hcs
      have hpos : 0 < w.length := List.length_pos_iff.2 hs.ne_nil
      have hlt : rest.length < n := by
        rw [← hn, ← hcs, List.length_append, List.length_append]
        omega
      obtain ⟨⟨ps, g⟩, final, hfits, hfinal, htext⟩ := ih _ hlt rest rfl
      rw [← htext] at hl hcs
      refine ⟨⟨⟨_, k, w⟩ :: ps, g⟩, final, .piece hgap hs hl hfits, hfinal, ?_⟩
      rw [text_cons]
      exact hcs
    · exact ⟨⟨[], _⟩, _, .last hgap, .inr hstuck, hcs⟩

theorem utf8ByteSize_ofList (w : List Char) : (String.ofList w).utf8ByteSize = byteLength w := by
  rw [String.utf8ByteSize_ofList]
  induction w with
  | nil => rfl
  | cons c w ih => rw [String.utf8Len_cons, ih, byteLength_cons, Nat.add_comm]

theorem slice_token {source : String} {before w : List Char} (k : Token.Kind)
    (rest : List Char) (h : before ++ (w ++ rest) = source.toList) :
    Token.slice source (token before k w).start (token before k w).length =
      (token before k w).text := by
  rw [Token.slice, ← h, Token.length, token, utf8ByteSize_ofList, dropBytes_append,
    takeBytes_append]

/-- Each token is the part of the source that lies at its bytes. -/
theorem slice_of_mem_tokensAfter {source : String} {before g : List Char} {ps : List Piece}
    (h : before ++ text ⟨ps, g⟩ = source.toList) :
    ∀ t ∈ tokensAfter before ps g, Token.slice source t.start t.length = t.text := by
  induction ps generalizing before with
  | nil =>
    refine List.forall_mem_singleton.2 (slice_token _ [] ?_)
    rw [← h, text_nil, List.append_nil, List.append_nil]
  | cons p ps ih =>
    rw [← List.append_nil (text _), text_cons, List.append_nil] at h
    refine List.forall_mem_cons.2 ⟨slice_token _ (text ⟨ps, g⟩) ?_, ih ?_⟩
    · rw [List.append_assoc, h]
    · rw [← h]
      simp

theorem cutGap_last {g : List Char} (hg : Gap g) (hr : Lexeme.Final rest) :
    cutGap (g ++ rest) = (g, rest) := by
  rw [Lexeme.cutGap_append_of_gap hg, hr.cutGap]
  simp

theorem cutGap_word {g w : List Char} {k : Token.Kind} (hg : Gap g) (hs : Spells k w)
    (hl : Longest k w rest) : cutGap (g ++ (w ++ rest)) = (g, w ++ rest) := by
  rw [Lexeme.cutGap_append_of_gap hg, Lexeme.cutGap_of_longest hs hl]
  simp

/-- A text begins with one word only, of one kind. -/
theorem piece_unique {p q : Piece} {rest' : List Char} (hp : Gap p.gap)
    (hs : Spells p.kind p.word) (hl : Longest p.kind p.word rest) (hq : Gap q.gap)
    (hs' : Spells q.kind q.word) (hl' : Longest q.kind q.word rest')
    (he : p.gap ++ (p.word ++ rest) = q.gap ++ (q.word ++ rest')) : p = q ∧ rest = rest' := by
  have hcut := cutGap_word hp hs hl
  rw [he, cutGap_word hq hs' hl'] at hcut
  obtain ⟨hgap, hrest⟩ := Prod.mk.inj hcut
  have hhead := Lexeme.ofText_of_longest hs hl
  rw [← hrest, Lexeme.ofText_of_longest hs' hl'] at hhead
  obtain ⟨hkind, hword⟩ := Lexeme.mk.inj hhead
  rw [hword, List.append_cancel_left_eq] at hrest
  cases p
  cases q
  simp_all

/-- A text is split in one way only. -/
theorem Fits.unique {s t : Split} {rest' : List Char} (hs : s.Fits rest) (ht : t.Fits rest')
    (hr : Lexeme.Final rest) (hr' : Lexeme.Final rest')
    (he : s.text ++ rest = t.text ++ rest') : s = t ∧ rest = rest' := by
  induction hs generalizing t with
  | last hg =>
    cases ht with
    | last hg' =>
      have hcut := cutGap_last hg hr
      rw [text_nil, text_nil] at he
      rw [he] at hcut
      obtain ⟨rfl, rfl⟩ := Prod.mk.inj ((cutGap_last hg' hr').symm.trans hcut)
      exact ⟨rfl, rfl⟩
    | piece hg' hw hl _ =>
      have hcut := cutGap_last hg hr
      rw [text_nil, text_cons] at he
      rw [he, cutGap_word hg' hw hl] at hcut
      exact absurd (Prod.mk.inj hcut).2.symm (hr.ne_word hw hl)
  | @piece p ps g hg hw hl _ ih =>
    cases ht with
    | last hg' =>
      have hcut := cutGap_last hg' hr'
      rw [text_nil, text_cons] at he
      rw [← he, cutGap_word hg hw hl] at hcut
      exact absurd (Prod.mk.inj hcut).2.symm (hr'.ne_word hw hl)
    | @piece q qs g' hg' hw' hl' hfits' =>
      rw [text_cons, text_cons] at he
      obtain ⟨rfl, hrest⟩ := piece_unique hg hw hl hg' hw' hl' he
      obtain ⟨htail, rfl⟩ := ih hfits' hrest
      obtain ⟨rfl, rfl⟩ := Split.mk.inj htail
      exact ⟨rfl, rfl⟩

end Split

namespace Cursor

theorem tokens_of_eof {c c' : Cursor} {t : Token} (h : c.next = (.ok t, c')) (ht : t.kind = .eof) :
    c.tokens = .ok [t] := by
  rw [tokens]
  split
  · next h' => rw [h] at h'; cases h'
  · next h' =>
    rw [h] at h'
    cases h'
    rw [dif_pos ht]

theorem tokens_of_next {c c' : Cursor} {t : Token} (h : c.next = (.ok t, c'))
    (ht : t.kind ≠ .eof) : c.tokens = c'.tokens.map (t :: ·) := by
  rw [tokens]
  split
  · next h' => rw [h] at h'; cases h'
  · next h' =>
    rw [h] at h'
    cases h'
    rw [dif_neg ht]

theorem tokens_of_error {c c' : Cursor} {d : Diagnostic} (h : c.next = (.error d, c')) :
    c.tokens = .error d := by
  rw [tokens]
  split
  · next h' =>
    rw [h] at h'
    cases h'
    rfl
  · next h' => rw [h] at h'; cases h'

/-- The cursor behind the text `before`. -/
def behind (before rest : List Char) : Cursor :=
  ⟨rest, byteLength before, Location.first.after before⟩

theorem past_behind (before text rest : List Char) :
    (behind before (text ++ rest)).past text = behind (before ++ text) rest := by
  simp [behind, past, byteLength_append, Location.after_append]

theorem atLexeme_behind {before g rest : List Char} (hg : Gap g)
    (hr : cutGap rest = ([], rest)) :
    (behind before (g ++ rest)).atLexeme = behind (before ++ g) rest := by
  have hcut : (cutGap (g ++ rest)).1 = g := by
    rw [Lexeme.cutGap_append_of_gap hg, hr]
    simp
  rw [atLexeme, show (behind before (g ++ rest)).rest = g ++ rest from rfl, hcut, past_behind]

theorem next_of_longest {before g w rest : List Char} {k : Token.Kind} (hg : Gap g)
    (hs : Spells k w) (hl : Longest k w rest) :
    (behind before (g ++ (w ++ rest))).next =
      (.ok (Split.token (before ++ g) k w), behind (before ++ g ++ w) rest) := by
  simp only [next, atLexeme_behind hg (Lexeme.cutGap_of_longest hs hl)]
  rw [show (behind (before ++ g) (w ++ rest)).rest = w ++ rest from rfl,
    Lexeme.ofText_of_longest hs hl, past_behind]
  rfl

theorem next_of_nil {before g : List Char} (hg : Gap g) :
    (behind before (g ++ [])).next =
      (.ok (Split.token (before ++ g) .eof []), behind (before ++ g) []) := by
  simp only [next, atLexeme_behind hg (Lexeme.Final.cutGap (.inl rfl))]
  rfl

theorem next_of_stuck {before g rest : List Char} {fault : LexicalFault} (hg : Gap g)
    (hr : Stuck fault rest) :
    (behind before (g ++ rest)).next.1 =
      .error (.scan (Location.first.after (before ++ g)) fault) := by
  simp only [next, atLexeme_behind hg (Lexeme.cutGap_of_stuck hr)]
  rw [show (behind (before ++ g) rest).rest = rest from rfl, Lexeme.ofText_of_stuck hr]
  rfl

theorem tokens_of_fits {s : Split} (h : s.Fits []) (before : List Char) :
    (behind before (s.text ++ [])).tokens = .ok (Split.tokensAfter before s.pieces s.last) := by
  induction h generalizing before with
  | last hg => exact tokens_of_eof (next_of_nil hg) rfl
  | piece hg hs hl _ ih =>
    rw [Split.text_cons, tokens_of_next (next_of_longest hg hs hl) hs.ne_eof, ih]
    rfl

theorem tokens_of_fits_stuck {s : Split} {rest : List Char} {fault : LexicalFault}
    (h : s.Fits rest) (hr : Stuck fault rest) (before : List Char) :
    (behind before (s.text ++ rest)).tokens =
      .error (.scan (Location.first.after (before ++ s.text)) fault) := by
  induction h generalizing before with
  | @last g hg => exact tokens_of_error (Prod.ext (next_of_stuck hg hr) rfl)
  | @piece p ps g hg hs hl _ ih =>
    have htext : before ++ Split.text ⟨p :: ps, g⟩ =
        before ++ p.gap ++ p.word ++ Split.text ⟨ps, g⟩ := by simp [Split.text]
    rw [Split.text_cons, tokens_of_next (next_of_longest hg hs hl) hs.ne_eof, ih, htext]
    rfl

end Cursor

theorem tokenize_eq_ok_iff {source : String} {ts : List Token} :
    tokenize source = .ok ts ↔
      ∃ s : Split, s.Fits [] ∧ s.text = source.toList ∧ s.tokens = ts := by
  constructor
  · intro h
    obtain ⟨s, rest, hfits, hfinal, htext⟩ := Split.exists_fits source.toList
    rw [tokenize, Cursor.ofSource, ← htext] at h
    rcases hfinal with rfl | ⟨fault, hstuck⟩
    · rw [List.append_nil] at htext
      exact ⟨s, hfits, htext, Except.ok.inj ((Cursor.tokens_of_fits hfits []).symm.trans h)⟩
    · cases (Cursor.tokens_of_fits_stuck hfits hstuck []).symm.trans h
  · rintro ⟨s, hfits, htext, rfl⟩
    rw [tokenize, Cursor.ofSource, ← htext, ← List.append_nil s.text]
    exact Cursor.tokens_of_fits hfits []

theorem tokenize_eq_error_iff {source : String} {d : Diagnostic} :
    tokenize source = .error d ↔ ∃ (s : Split) (rest : List Char) (fault : LexicalFault),
      s.Fits rest ∧ Stuck fault rest ∧ s.text ++ rest = source.toList ∧
        d = .scan (Location.first.after s.text) fault := by
  constructor
  · intro h
    obtain ⟨s, rest, hfits, hfinal, htext⟩ := Split.exists_fits source.toList
    rcases hfinal with rfl | ⟨fault, hstuck⟩
    · rw [List.append_nil] at htext
      rw [tokenize_eq_ok_iff.2 ⟨s, hfits, htext, rfl⟩] at h
      cases h
    · refine ⟨s, rest, fault, hfits, hstuck, htext, ?_⟩
      rw [tokenize, Cursor.ofSource, ← htext] at h
      exact Except.error.inj (h.symm.trans (Cursor.tokens_of_fits_stuck hfits hstuck []))
  · rintro ⟨s, rest, fault, hfits, hstuck, htext, rfl⟩
    rw [tokenize, Cursor.ofSource, ← htext]
    exact Cursor.tokens_of_fits_stuck hfits hstuck []

/-- The tokens of a text are the longest words between its gaps, in the one way in which these
split it, and an end token behind them; each lies at its bytes of the text. Where a text cannot be
split to its end, it is refused at the place up to which it can, for what stands there. -/
theorem tokenize_splits (source : String) :
    (∀ ts, tokenize source = .ok ts ↔
      ∃ s : Split, s.Fits [] ∧ s.text = source.toList ∧ s.tokens = ts) ∧
    (∀ ts, tokenize source = .ok ts →
      ∀ t ∈ ts, Token.slice source t.start t.length = t.text) ∧
    (∀ s t : Split, s.Fits [] → t.Fits [] → s.text = source.toList → t.text = source.toList →
      s = t) ∧
    ∀ d, tokenize source = .error d ↔ ∃ (s : Split) (rest : List Char) (fault : LexicalFault),
      s.Fits rest ∧ Stuck fault rest ∧ s.text ++ rest = source.toList ∧
        d = .scan (Location.first.after s.text) fault := by
  refine ⟨fun ts => tokenize_eq_ok_iff, fun ts h => ?_, fun s t hs ht hs' ht' => ?_, fun d =>
    tokenize_eq_error_iff⟩
  · obtain ⟨s, _, htext, rfl⟩ := tokenize_eq_ok_iff.1 h
    exact Split.slice_of_mem_tokensAfter htext
  · exact (hs.unique ht (.inl rfl) (.inl rfl) (by rw [hs', ht'])).1

end Bpl
