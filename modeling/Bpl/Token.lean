import Bpl.Location

namespace Bpl

/-- What a token is. The scanner gives every number its value; a token made by hand may lack it. -/
inductive Token.Kind where
  | ident
  | keyword
  | punctuator
  | number (value : Option Int64)
  | string
  | eof
  deriving DecidableEq

/-- A word of a source text, with the byte and the place where it starts. -/
structure Token where
  kind : Token.Kind
  text : String
  start : Nat
  location : Location
  deriving DecidableEq

namespace Token

def keywords : List String :=
  ["int", "void", "string", "if", "else", "while", "return", "write", "writeln", "read"]

/-- Longer punctuators stand before those that they begin with. -/
def punctuators : List String :=
  ["<=", "==", "!=", ">=", "=", ";", ",", "[", "]", "\x7b", "\x7d", "(", ")", "<", ">", "+", "-",
    "*", "/", "%", "&"]

/-- Bytes that the token takes in its source. -/
def length (t : Token) : Nat :=
  t.text.utf8ByteSize

/-- How a diagnostic names the token. -/
def describe (t : Token) : String :=
  match t.kind with
  | .eof => "EOF"
  | _ => t.text

/-- What a string literal holds between its quotes. -/
def contents (t : Token) : String :=
  String.ofList t.text.toList.tail.dropLast

end Token

/-- Bytes that a text takes. -/
def byteLength (cs : List Char) : Nat :=
  cs.foldr (fun c n => c.utf8Size + n) 0

theorem byteLength_cons (c : Char) (s : List Char) :
    byteLength (c :: s) = c.utf8Size + byteLength s :=
  rfl

theorem byteLength_append (s t : List Char) :
    byteLength (s ++ t) = byteLength s + byteLength t := by
  induction s with
  | nil => simp [byteLength]
  | cons c s ih => rw [List.cons_append, byteLength_cons, byteLength_cons, ih, Nat.add_assoc]

/-- A text without its first `n` bytes. -/
def dropBytes (n : Nat) : List Char → List Char
  | [] => []
  | c :: cs => if n = 0 then c :: cs else dropBytes (n - c.utf8Size) cs

/-- The first `n` bytes of a text. -/
def takeBytes (n : Nat) : List Char → List Char
  | [] => []
  | c :: cs => if n = 0 then [] else c :: takeBytes (n - c.utf8Size) cs

theorem dropBytes_append (s t : List Char) : dropBytes (byteLength s) (s ++ t) = t := by
  induction s with
  | nil => cases t <;> simp [byteLength, dropBytes]
  | cons c s ih =>
    have h := Nat.pos_iff_ne_zero.1 c.utf8Size_pos
    simp [dropBytes, byteLength_cons, h, ih]

theorem takeBytes_append (s t : List Char) : takeBytes (byteLength s) (s ++ t) = s := by
  induction s with
  | nil => cases t <;> simp [byteLength, takeBytes]
  | cons c s ih =>
    have h := Nat.pos_iff_ne_zero.1 c.utf8Size_pos
    simp [takeBytes, byteLength_cons, h, ih]

/-- The text of `length` bytes from byte `start` of a source on. -/
def Token.slice (source : String) (start length : Nat) : String :=
  String.ofList (takeBytes length (dropBytes start source.toList))

end Bpl
