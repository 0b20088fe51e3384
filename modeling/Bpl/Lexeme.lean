import Bpl.Diagnostic
import Bpl.Token

namespace Bpl

/-- A word at the head of a text, or the reason why there is none, and the characters that are
used up in either case. -/
structure Lexeme where
  kind : Except LexicalFault Token.Kind
  text : List Char

namespace Lexeme

/-- Blanks are ASCII; the vertical tab is not one. -/
def isBlank (c : Char) : Bool :=
  c == ' ' || c == '\t' || c == '\n' || c == '\x0c' || c == '\r'

/-- Cuts a text after the first mark that closes a comment. -/
def cutComment : List Char → Option (List Char × List Char)
  | [] => none
  | '*' :: '/' :: cs => some (['*', '/'], cs)
  | c :: cs => (cutComment cs).map fun (comment, rest) => (c :: comment, rest)

theorem cutComment_append {cs comment rest : List Char}
    (h : cutComment cs = some (comment, rest)) : comment ++ rest = cs := by
  fun_induction cutComment cs generalizing comment rest with
  | case1 => simp at h
  | case2 cs =>
    obtain ⟨rfl, rfl⟩ := Prod.mk.inj (Option.some.inj h)
    rfl
  | case3 c cs _ ih =>
    obtain ⟨⟨b, r⟩, hb, he⟩ := Option.map_eq_some_iff.1 h
    obtain ⟨rfl, rfl⟩ := Prod.mk.inj he
    simp [ih hb]

theorem cutComment_length {cs comment rest : List Char}
    (h : cutComment cs = some (comment, rest)) : rest.length ≤ cs.length := by
  rw [← cutComment_append h, List.length_append]
  omega

/-- Cuts a text after its leading blanks and closed comments. -/
def cutGap (cs : List Char) : List Char × List Char :=
  match cs with
  | [] => ([], [])
  | '/' :: '*' :: cs =>
    match h : cutComment cs with
    | none => ([], '/' :: '*' :: cs)
    | some (comment, rest) =>
      have := cutComment_length h
      (cutGap rest).map ('/' :: '*' :: comment ++ ·) id
  | c :: cs => if isBlank c then (cutGap cs).map (c :: ·) id else ([], c :: cs)
termination_by cs.length
decreasing_by all_goals simp; try omega

theorem cutGap_append (cs : List Char) : (cutGap cs).1 ++ (cutGap cs).2 = cs := by
  fun_induction cutGap cs with
  | case1 => rfl
  | case2 => rfl
  | case3 cs comment rest h _ ih => simp [ih, cutComment_append h]
  | case4 c cs _ _ ih => simp [ih]
  | case5 => rfl

/-- The number that decimal digits spell. -/
def decimal (digits : List Char) : Nat :=
  digits.foldl (fun n c => 10 * n + (c.toNat - '0'.toNat)) 0

def isWordChar (c : Char) : Bool :=
  c.isAlphanum || c == '_'

def word (text : List Char) : Lexeme :=
  ⟨.ok (if Token.keywords.contains (String.ofList text) then .keyword else .ident), text⟩

/-- Numbers stay below 2^63. -/
def number (digits : List Char) : Lexeme :=
  if decimal digits < 0x8000000000000000 then
    ⟨.ok (.number (some (Int64.ofNat (decimal digits)))), digits⟩
  else ⟨.error (.numberTooLarge (String.ofList digits)), digits⟩

@[simp] theorem number_text (digits : List Char) : (number digits).text = digits := by
  rw [number]
  split <;> rfl

/-- A string literal ends on the line where it starts. -/
def string (cs : List Char) : Lexeme :=
  let inside := cs.takeWhile fun c => c != '"' && c != '\n'
  match cs.drop inside.length with
  | '"' :: _ => ⟨.ok .string, '"' :: inside ++ ['"']⟩
  | _ => ⟨.error .unclosedString, '"' :: inside⟩

def punctuator (c : Char) (cs : List Char) : Lexeme :=
  match (Token.punctuators.map String.toList).find? (·.isPrefixOf (c :: cs)) with
  | some text => ⟨.ok .punctuator, text⟩
  | none => ⟨.error (.strayCharacter c), []⟩

/-- The lexeme at the head of a text without a leading gap. -/
def ofText : List Char → Lexeme
  | [] => ⟨.ok .eof, []⟩
  | '/' :: '*' :: cs => ⟨.error .unclosedComment, '/' :: '*' :: cs⟩
  | '"' :: cs => string cs
  | c :: cs =>
    if c.isAlpha then word (c :: cs.takeWhile isWordChar)
    else if c.isDigit then number (c :: cs.takeWhile Char.isDigit)
    else punctuator c cs

theorem ne_nil_of_punctuator {p : List Char} (h : p ∈ Token.punctuators.map String.toList) :
    p ≠ [] := by
  revert p
  decide

/-- Only the end of the text takes no character. -/
theorem ofText_length {cs : List Char} {k : Token.Kind} (h : (ofText cs).kind = .ok k)
    (hk : k ≠ .eof) : 0 < (ofText cs).text.length ∧ 0 < cs.length := by
  revert h
  fun_cases ofText cs with
  | case1 => exact fun h => absurd (Except.ok.inj h).symm hk
  | case2 => exact fun h => nomatch h
  | case3 cs => simp only [string]; split <;> simp
  | case4 => simp [word]
  | case5 => simp
  | case6 c cs =>
    simp only [punctuator]
    split
    · next p hp => simp [List.length_pos_iff, ne_nil_of_punctuator (List.mem_of_find?_eq_some hp)]
    · exact fun h => nomatch h

end Lexeme

end Bpl
