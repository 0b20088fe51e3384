import Bpl.Asm

namespace Bpl.Asm

namespace Reg

def name : Reg → String
  | rax => "rax"
  | rcx => "rcx"
  | rdx => "rdx"
  | rdi => "rdi"
  | rsi => "rsi"
  | rsp => "rsp"
  | rbp => "rbp"

/-- A register of 64 bits. -/
def text (r : Reg) : String :=
  "%" ++ r.name

/-- Its lower 32 bits. -/
def text32 (r : Reg) : String :=
  "%e" ++ String.ofList (r.name.toList.drop 1)

end Reg

def Label.text : Label → String
  | integerFormat => ".WriteIntString"
  | newline => ".WritelnString"
  | stringFormat => ".WriteStringString"
  | overflowMessage => ".ArrayOverflowString"
  | readFormat => ".ReadIntString"
  | numbered n => ".L" ++ toString n
  | global name => "_g_" ++ name
  | function name => if name = "main" then name else "_f_" ++ name

def Address.text : Address → String
  | label l => l.text ++ "(%rip)"
  | offset bytes base => toString bytes ++ "(" ++ base.text ++ ")"
  | direct base => "(" ++ base.text ++ ")"
  | element base index => "(" ++ base.text ++ "," ++ index.text ++ ",8)"

def Operand.text : Operand → String
  | imm value => "$" ++ toString value
  | reg r => r.text
  | mem a => a.text

def Op.text : Op → String
  | add => "addq"
  | sub => "subq"
  | imul => "imulq"
  | and => "andq"
  | cmp => "cmpq"

def Cond.text : Cond → String
  | e => "e"
  | ne => "ne"
  | l => "l"
  | le => "le"
  | g => "g"
  | ge => "ge"

def Routine.text : Routine → String
  | printf => "printf"
  | scanf => "scanf"
  | exit => "exit"

/-- Whether a value fits an immediate operand of 32 bits with its sign. -/
def isShort (value : Int64) : Bool :=
  -0x80000000 ≤ value.toInt ∧ value.toInt < 0x80000000

namespace Instr

/-- Only a move takes a long immediate, under a name of its own. -/
def moveName : Operand → String
  | .imm value => if isShort value then "movq" else "movabsq"
  | _ => "movq"

def text : Instr → String
  | mov src dst => moveName src ++ " " ++ src.text ++ ", " ++ dst.text
  | mov32 value dst => "movl $" ++ toString value ++ ", " ++ dst.text32
  | lea src dst => "leaq " ++ src.text ++ ", " ++ dst.text
  | push src => "pushq " ++ src.text
  | pop dst => "popq " ++ dst.text
  | op o src dst => o.text ++ " " ++ src.text ++ ", " ++ dst.text
  | neg dst => "negq " ++ dst.text
  | clear dst => "xorl " ++ dst.text32 ++ ", " ++ dst.text32
  | cqto => "cqto"
  | idiv src => "idivq " ++ src.text
  | set cond => "set" ++ cond.text ++ " %al"
  | widen => "movzbq %al, %rax"
  | call function => "call " ++ function.text
  | callRoutine routine => "call " ++ routine.text ++ "@PLT"
  | jmp target => "jmp " ++ target.text
  | je target => "je " ++ target.text
  | jae target => "jae " ++ target.text
  | ret => "ret"

end Instr

/-- Everything but labels is indented. -/
def indent (s : String) : String :=
  "    " ++ s

def Line.text : Line → String
  | label l => l.text ++ ":"
  | instr i => indent i.text

/-- A string literal as a directive takes it. -/
def escape (s : String) : String :=
  String.ofList (s.toList.flatMap fun c => if c = '\\' ∨ c = '"' then ['\\', c] else [c])

/-- A text with a character replaced wherever it stands. -/
def replaceChar (c : Char) (new cs : List Char) : List Char :=
  cs.flatMap fun d => if d = c then new else [d]

/-- The quotes may be escaped after the backslashes, in a pass of their own. -/
theorem escape_eq_replaceChar (s : String) :
    escape s =
      String.ofList (replaceChar '"' ['\\', '"'] (replaceChar '\\' ['\\', '\\'] s.toList)) := by
  rw [escape, replaceChar, replaceChar, List.flatMap_assoc]
  congr 2
  funext c
  by_cases hb : c = '\\'
  · subst hb
    rfl
  · by_cases hq : c = '"'
    · subst hq
      rfl
    · simp [hb, hq]

/-- A string under a label, which is written as it stands between quotes. -/
def stringLine (l : Label) (written : String) : String :=
  l.text ++ ": .string \"" ++ written ++ "\""

def fixedStrings : List String :=
  [stringLine .integerFormat "%ld ", stringLine .newline "\\n", stringLine .stringFormat "%s ",
    stringLine .overflowMessage "You fell off the end of an array.\\n",
    stringLine .readFormat "%ld"]

/-- The message for a bad index, and the end of the run. -/
def trapCode (n : Nat) : Code :=
  [.label (.numbered n), .instr (.lea (.label .overflowMessage) .rdi),
    .instr (.op .and (.imm (-16)) .rsp), .instr (.clear .rax), .instr (.callRoutine .printf),
    .instr (.mov32 1 .rdi), .instr (.callRoutine .exit)]

end Bpl.Asm

namespace Bpl.Assembly

open Asm

/-- All code, the trap after the functions. -/
def code (a : Assembly) : Code :=
  a.functions.flatten ++ (a.trap.map trapCode).getD []

def stringLines (a : Assembly) : List String :=
  a.strings.map fun (n, s) => stringLine (.numbered n) (escape s)

def globalLines (a : Assembly) : List String :=
  if a.globals.isEmpty then []
  else indent ".data" :: indent ".align 8" ::
    a.globals.flatMap fun (name, size) =>
      [(Line.label (.global name)).text, indent (".zero " ++ toString size)]

def lines (a : Assembly) : List String :=
  indent ".section .rodata" :: fixedStrings ++ a.stringLines ++ a.globalLines ++
    indent ".text" :: indent ".globl main" :: a.code.map Line.text ++
    [indent ".section .note.GNU-stack,\"\",@progbits"]

/-- The text for the assembler. -/
def text (a : Assembly) : String :=
  String.join (a.lines.map (· ++ "\n"))

end Bpl.Assembly
