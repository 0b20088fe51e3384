namespace Bpl.Asm

inductive Reg where
  | rax
  | rcx
  | rdx
  | rdi
  | rsi
  | rsp
  | rbp
  deriving DecidableEq

/-- Names of places in code and data: five fixed strings, numbered places, and the variables and
functions of the program. -/
inductive Label where
  | integerFormat
  | newline
  | stringFormat
  | overflowMessage
  | readFormat
  | numbered (n : Nat)
  | global (name : String)
  | function (name : String)
  deriving DecidableEq

/-- Places in memory: at a label, `offset` bytes from where a register points, exactly there, or
at one of the words of an array that starts there. -/
inductive Address where
  | label (l : Label)
  | offset (bytes : Int) (base : Reg)
  | direct (base : Reg)
  | element (base index : Reg)
  deriving DecidableEq

inductive Operand where
  | imm (value : Int64)
  | reg (r : Reg)
  | mem (a : Address)
  deriving DecidableEq

/-- Two-operand operations; `cmp` only sets the flags. -/
inductive Op where
  | add
  | sub
  | imul
  | and
  | cmp
  deriving DecidableEq

/-- Outcomes of a signed comparison. -/
inductive Cond where
  | e
  | ne
  | l
  | le
  | g
  | ge
  deriving DecidableEq

/-- Functions of the C library. -/
inductive Routine where
  | printf
  | scanf
  | exit
  deriving DecidableEq

/-- Instructions. The source stands before the destination. -/
inductive Instr where
  | mov (src dst : Operand)
  | mov32 (value : Int64) (dst : Reg)
  | lea (src : Address) (dst : Reg)
  | push (src : Operand)
  | pop (dst : Reg)
  | op (op : Op) (src : Operand) (dst : Reg)
  | neg (dst : Reg)
  | clear (dst : Reg)
  | cqto
  | idiv (src : Reg)
  | set (cond : Cond)
  | widen
  | call (function : Label)
  | callRoutine (routine : Routine)
  | jmp (target : Label)
  | je (target : Label)
  | jae (target : Label)
  | ret
  deriving DecidableEq

inductive Line where
  | label (l : Label)
  | instr (i : Instr)
  deriving DecidableEq

abbrev Code := List Line

end Bpl.Asm

namespace Bpl

/-- A compiled program: its string literals under their numbers, its global variables with their
sizes, the code of each of its functions and the place that a bad index leads to. -/
structure Assembly where
  strings : List (Nat × String)
  globals : List (String × Nat)
  functions : List Asm.Code
  trap : Option Nat
  deriving DecidableEq

end Bpl
