import Bpl.Lexeme

namespace Bpl

/-- A place in a text that is being read: what is still to come, the bytes before it and where
it stands. -/
structure Cursor where
  rest : List Char
  offset : Nat
  location : Location

namespace Cursor

def ofSource (source : String) : Cursor :=
  ⟨source.toList, 0, .first⟩

/-- The cursor moved over `text`, with which its rest begins. -/
def past (c : Cursor) (text : List Char) : Cursor :=
  ⟨c.rest.drop text.length, c.offset + byteLength text, c.location.after text⟩

/-- The cursor where the next lexeme starts. -/
def atLexeme (c : Cursor) : Cursor :=
  c.past (Lexeme.cutGap c.rest).1

/-- Reads one token. A stray character is left in place; any other fault is passed over. At the
end of the text stands an endless row of end tokens. -/
def next (c : Cursor) : Except Diagnostic Token × Cursor :=
  let start := c.atLexeme
  let lexeme := Lexeme.ofText start.rest
  let token := match lexeme.kind with
    | .ok kind => .ok ⟨kind, String.ofList lexeme.text, start.offset, start.location⟩
    | .error fault => .error (.scan start.location fault)
  (token, start.past lexeme.text)

theorem next_length {c c' : Cursor} {t : Token} (h : c.next = (.ok t, c'))
    (ht : t.kind ≠ .eof) : c'.rest.length < c.rest.length := by
  have hs : c.atLexeme.rest.length ≤ c.rest.length := by simp [atLexeme, past]
  obtain ⟨hn, rfl⟩ := Prod.mk.inj h
  split at hn
  · next kind hk =>
    have hl := Lexeme.ofText_length hk (by cases hn; exact ht)
    simp only [past, List.length_drop]
    omega
  · simp at hn

/-- The tokens from a cursor on, the end token among them. -/
def tokens (c : Cursor) : Except Diagnostic (List Token) :=
  match h : c.next with
  | (.error d, _) => .error d
  | (.ok t, c') =>
    if ht : t.kind = .eof then .ok [t]
    else
      have := next_length h ht
      c'.tokens.map (t :: ·)
termination_by c.rest.length

/-- What each of the first `n` attempts to read a token gives. -/
def pulls : Nat → Cursor → List (Except Diagnostic Token)
  | 0, _ => []
  | n + 1, c => c.next.1 :: pulls n c.next.2

end Cursor

/-- The tokens of a text, closed by an end token. -/
def tokenize (source : String) : Except Diagnostic (List Token) :=
  (Cursor.ofSource source).tokens

end Bpl
