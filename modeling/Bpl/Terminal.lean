namespace Bpl.Terminal

/-- The control sequences that let blanks through: behind the escape character, behind its
intermediate characters, and a control sequence proper. -/
inductive Sequence where
  | escape
  | intermediate
  | control
  deriving DecidableEq

/-- Where a text stands: outside of any sequence, inside one, in the text behind a blank that
suspends one, in the three parts of the head of a device control string, in a string that a string
terminator ends, or in an operating system command. -/
inductive Mode where
  | ground
  | inside (q : Sequence)
  | suspended (q : Sequence)
  | deviceEntry
  | deviceParameter
  | deviceIntermediate
  | string
  | command
  deriving DecidableEq

/-- Blanks that are control characters. -/
def isSpacing (c : Char) : Bool :=
  c == '\t' || c == '\n' || c == '\x0c' || c == '\r'

def isControl (c : Char) : Bool :=
  c.toNat < 0x20 || c == '\x7f'

/-- Characters from `first` to `last`. -/
def between (first last c : Char) : Bool :=
  first ≤ c && c ≤ last

/-- The string terminator is seen by its byte, also among the bytes of another character. -/
def endsString (c : Char) : Bool :=
  (String.utf8EncodeChar c).contains 0x9c

/-- How a sequence goes on after a character that is no blank. -/
def Sequence.next (c : Char) : Sequence → Mode
  | escape =>
    if between ' ' '/' c then .inside intermediate
    else if c = '[' then .inside control
    else if c = ']' then .command
    else if c = 'P' then .deviceEntry
    else if c = 'X' || c = '^' || c = '_' then .string
    else if between '0' '~' c then .ground
    else .inside escape
  | intermediate => if between '0' '~' c then .ground else .inside intermediate
  | control => if between '@' '~' c then .ground else .inside control

/-- Whether a character is shown, and how the text goes on after it. Cancel and substitute break
off any sequence, and an escape begins a new one. A blank suspends a sequence: the text behind it
is shown, until a control character takes the sequence up again or a character beyond ASCII drops
it. -/
def Mode.step (m : Mode) (c : Char) : Bool × Mode :=
  if c = '\x18' || c = '\x1a' then (false, ground)
  else if c = '\x1b' then (false, inside .escape)
  else match m with
    | ground => (!isControl c || isSpacing c, ground)
    | inside q => if isSpacing c then (true, suspended q) else (false, q.next c)
    | suspended q =>
      if isControl c && !isSpacing c then (false, inside q)
      else (true, if c.toNat < 0x80 then suspended q else ground)
    | deviceEntry =>
      (false,
        if between ' ' '/' c then deviceIntermediate
        else if between '0' '?' c then deviceParameter
        else if between '@' '~' c then string
        else deviceEntry)
    | deviceParameter =>
      (false,
        if between ' ' '/' c then deviceIntermediate
        else if between '<' '~' c then string
        else deviceParameter)
    | deviceIntermediate => (false, if between '0' '~' c then string else deviceIntermediate)
    | string => (false, if endsString c then ground else string)
    | command => (false, if c = '\x07' then ground else command)

/-- What is shown of a text that goes on in a mode. -/
def shown (m : Mode) : List Char → List Char
  | [] => []
  | c :: cs =>
    match m.step c with
    | (true, m') => c :: shown m' cs
    | (false, m') => shown m' cs

/-- A text without control sequences and control characters, blanks apart. -/
def plain (s : String) : String :=
  String.ofList (shown .ground s.toList)

end Bpl.Terminal
