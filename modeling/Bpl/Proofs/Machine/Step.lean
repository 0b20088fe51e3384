import Mathlib
import Bpl.Asm.Text

namespace Bpl

/-- What a program writes, piece by piece. -/
inductive Output where
  | integer (value : Int64)
  | text (contents : String)
  | newline
  | overflow
  deriving DecidableEq

/-- How a run ends: its status and all that it has written. -/
structure Ending where
  status : Int64
  output : List Output
  deriving DecidableEq

namespace Machine

open Asm

/-- A state of the machine. Memory is made of aligned words, each under its address. The operands
of the last comparison stand for the flags, and the next line of the code for its address. -/
structure State where
  regs : Reg → Int64
  mem : Int → Int64
  compared : Option (Int64 × Int64)
  line : Nat
  input : List Int64
  output : List Output

namespace State

def set (s : State) (r : Reg) (v : Int64) : State :=
  { s with regs := Function.update s.regs r v }

def put (s : State) (z : Int) (v : Int64) : State :=
  { s with mem := Function.update s.mem z v }

def next (s : State) : State :=
  { s with line := s.line + 1 }

def goto (s : State) (line : Nat) : State :=
  { s with line := line }

/-- Arithmetic leaves no comparison behind. -/
def spoilFlags (s : State) : State :=
  { s with compared := none }

end State

/-- The place where a label stands in the code. -/
def lineOf? (a : Assembly) (l : Label) : Option Nat :=
  a.code.findIdx? (· == .label l)

/-- Where the loader puts the parts of a program, where the host waits for its end, the stack that
it may use, and what the library functions leave in the registers and in the memory that they need
not keep. -/
structure Host (a : Assembly) where
  dataAddress : Label → Int64
  codeAddress : Nat → Int64
  lineAt : Int64 → Option Nat
  exit : Int64
  limit : Int
  top : Int
  scratch : State → State
  lineAt_codeAddress : ∀ i instr, a.code[i]? = some (.instr instr) →
    lineAt (codeAddress i) = some i
  lineAt_exit : lineAt exit = none
  limit_nonneg : 0 ≤ limit
  limit_le_top : limit ≤ top
  top_lt : top + 8 < 2 ^ 63
  top_aligned : top % 8 = 0
  formats : [dataAddress .integerFormat, dataAddress .newline, dataAddress .stringFormat,
    dataAddress .overflowMessage, dataAddress .readFormat].Nodup
  strings : ∀ m ∈ a.strings, ∀ n ∈ a.strings,
    dataAddress (.numbered m.1) = dataAddress (.numbered n.1) → m.1 = n.1
  global_aligned : ∀ g ∈ a.globals, (dataAddress (.global g.1)).toInt % 8 = 0
  global_fits : ∀ g ∈ a.globals, (dataAddress (.global g.1)).toInt + g.2 < 2 ^ 63
  global_apart : ∀ g ∈ a.globals, ∀ h ∈ a.globals, g.1 ≠ h.1 →
    (dataAddress (.global g.1)).toInt + g.2 ≤ (dataAddress (.global h.1)).toInt ∨
      (dataAddress (.global h.1)).toInt + h.2 ≤ (dataAddress (.global g.1)).toInt
  global_stack : ∀ g ∈ a.globals, (dataAddress (.global g.1)).toInt + g.2 ≤ limit ∨
    top + 8 ≤ (dataAddress (.global g.1)).toInt

/-- What a step leads to. -/
inductive Outcome where
  | next (s : State)
  | ended (e : Ending)
  | exhausted

variable {a : Assembly}

namespace Host

/-- The words of the global variables. -/
def isData (H : Host a) (z : Int) : Bool :=
  a.globals.any fun g =>
    (H.dataAddress (.global g.1)).toInt ≤ z ∧ z < (H.dataAddress (.global g.1)).toInt + g.2

/-- The string literal at an address. -/
def stringAt? (H : Host a) (x : Int64) : Option String :=
  (a.strings.find? fun p => H.dataAddress (.numbered p.1) == x).map Prod.snd

/-- A library function keeps the stack and frame pointers, the stack in use and the global
variables. -/
def called (H : Host a) (s : State) : State :=
  { s with
    regs := fun r => if r = .rsp ∨ r = .rbp then s.regs r else (H.scratch s).regs r
    mem := fun z => if (s.regs .rsp).toInt ≤ z ∨ H.isData z then s.mem z else (H.scratch s).mem z
    compared := none }

end Host

namespace State

variable (H : Host a) (s : State)

def locate : Address → Int64
  | .label l => H.dataAddress l
  | .offset bytes base => s.regs base + .ofInt bytes
  | .direct base => s.regs base
  | .element base index => s.regs base + 8 * s.regs index

/-- The word at an address, if it is aligned. -/
def load? (x : Int64) : Option Int64 :=
  if x.toInt % 8 = 0 then some (s.mem x.toInt) else none

def store? (x v : Int64) : Option State :=
  if x.toInt % 8 = 0 then some (s.put x.toInt v) else none

def read? : Operand → Option Int64
  | .imm v => some v
  | .reg r => some (s.regs r)
  | .mem x => s.load? (s.locate H x)

def push? (v : Int64) : Option State :=
  (s.set .rsp (s.regs .rsp - 8)).store? (s.regs .rsp - 8) v

def jump? (a : Assembly) (l : Label) : Option State :=
  (lineOf? a l).map s.goto

/-- What `printf` writes: the value or the string in the second argument, or a fixed text. -/
def printed? : Option Output :=
  let format := s.regs .rdi
  if format = H.dataAddress .integerFormat then some (.integer (s.regs .rsi))
  else if format = H.dataAddress .stringFormat then
    (H.stringAt? (s.regs .rsi)).map .text
  else if format = H.dataAddress .newline then some .newline
  else if format = H.dataAddress .overflowMessage then some .overflow
  else none

/-- A library function is called with an aligned stack, and one that takes a variable number of
arguments with zero in `%rax`. -/
def mayCall (r : Routine) : Bool :=
  (s.regs .rsp).toInt % 16 = 0 ∧ (r = .exit ∨ s.regs .rax = 0)

end State

def Cond.holds : Cond → Int64 → Int64 → Bool
  | .e, x, y => x = y
  | .ne, x, y => x ≠ y
  | .l, x, y => x < y
  | .le, x, y => x ≤ y
  | .g, x, y => y < x
  | .ge, x, y => y ≤ x

/-- The quotient and the remainder of a dividend of 128 bits, unless they do not fit. -/
def divide? (high low divisor : Int64) : Option (Int64 × Int64) :=
  let dividend := high.toInt * 2 ^ 64 + low.toUInt64.toNat
  let quotient := dividend.tdiv divisor.toInt
  if divisor ≠ 0 ∧ -2 ^ 63 ≤ quotient ∧ quotient < 2 ^ 63 then
    some (.ofInt quotient, .ofInt (dividend.tmod divisor.toInt))
  else none

/-- A library function does its work. A `scanf` that finds no number stores none. -/
def callRoutine (H : Host a) (s : State) : Routine → Option Outcome
  | .printf => do
    let piece ← s.printed? H
    return .next { (H.called s).next with output := s.output ++ [piece] }
  | .scanf => do
    guard (s.regs .rdi = H.dataAddress .readFormat)
    match s.input with
    | [] => return .next (H.called s).next
    | v :: rest => do
      let t ← (H.called s).store? (s.regs .rsi) v
      return .next { t.next with input := rest }
  | .exit => return .ended ⟨s.regs .rdi, s.output⟩

/-- The effect of an instruction. There is none where the instruction would fault. -/
def exec (H : Host a) (s : State) : Instr → Option Outcome
  | .mov src (.reg r) => do return .next ((s.set r (← s.read? H src)).next)
  | .mov src (.mem x) => do return .next (← s.store? (s.locate H x) (← s.read? H src)).next
  | .mov _ (.imm _) => none
  | .mov32 v r => some (.next (s.set r (.ofNat (v.toUInt64.toNat % 2 ^ 32))).next)
  | .lea x r => some (.next (s.set r (s.locate H x)).next)
  | .push src => do return .next (← s.push? (← s.read? H src)).next
  | .pop r => do
    let v ← s.load? (s.regs .rsp)
    return .next ((s.set .rsp (s.regs .rsp + 8)).set r v).next
  | .op .add src r => do return .next (s.set r (s.regs r + (← s.read? H src))).spoilFlags.next
  | .op .sub src r => do return .next (s.set r (s.regs r - (← s.read? H src))).spoilFlags.next
  | .op .imul src r => do return .next (s.set r (s.regs r * (← s.read? H src))).spoilFlags.next
  | .op .and src r => do return .next (s.set r (s.regs r &&& (← s.read? H src))).spoilFlags.next
  | .op .cmp src r => do
    let v ← s.read? H src
    return .next { s with compared := some (s.regs r, v) }.next
  | .neg r => some (.next (s.set r (-s.regs r)).spoilFlags.next)
  | .clear r => some (.next (s.set r 0).spoilFlags.next)
  | .cqto => some (.next (s.set .rdx (if s.regs .rax < 0 then -1 else 0)).next)
  | .idiv r => do
    let (quotient, remainder) ← divide? (s.regs .rdx) (s.regs .rax) (s.regs r)
    return .next ((s.set .rax quotient).set .rdx remainder).spoilFlags.next
  | .set c => do
    let (x, y) ← s.compared
    let bit : Int64 := if Cond.holds c x y then 1 else 0
    return .next (s.set .rax (s.regs .rax &&& -256 ||| bit)).next
  | .widen => some (.next (s.set .rax (s.regs .rax &&& 255)).next)
  | .call f => do
    let t ← s.push? (H.codeAddress (s.line + 1))
    return .next (← t.jump? a f)
  | .callRoutine r => if s.mayCall r then callRoutine H s r else none
  | .jmp l => do return .next (← s.jump? a l)
  | .je l => do
    let (x, y) ← s.compared
    if x = y then return .next (← s.jump? a l) else return .next s.next
  | .jae l => do
    let (x, y) ← s.compared
    if y.toUInt64 ≤ x.toUInt64 then return .next (← s.jump? a l) else return .next s.next
  | .ret => do
    let x ← s.load? (s.regs .rsp)
    match H.lineAt x with
    | some i => return .next ((s.set .rsp (s.regs .rsp + 8)).goto i)
    | none => if x = H.exit then return .ended ⟨s.regs .rax, s.output⟩ else none

/-- A stack that grows over its limit is exhausted. -/
def Host.settle (H : Host a) : Outcome → Outcome
  | .next s => if (s.regs .rsp).toInt < H.limit then .exhausted else .next s
  | o => o

/-- One step: a label takes none but to be passed. -/
def step (H : Host a) (s : State) : Option Outcome :=
  match a.code[s.line]? with
  | none => none
  | some (.label _) => some (.next s.next)
  | some (.instr i) => (exec H s i).map H.settle

/-- Where a run begins: the host has called the main function, and the global variables are
cleared. -/
structure Starts (H : Host a) (input : List Int64) (s : State) : Prop where
  line : lineOf? a (.function "main") = some s.line
  rsp : s.regs .rsp = .ofInt H.top
  returnAddress : s.mem H.top = H.exit
  cleared : ∀ z, H.isData z → s.mem z = 0
  input_eq : s.input = input
  output_eq : s.output = []

/-- The state after some steps, if the run goes on for so long. -/
def stateAfter (H : Host a) : Nat → State → Option State
  | 0, s => some s
  | n + 1, s =>
    match step H s with
    | some (.next t) => stateAfter H n t
    | _ => none

/-- The run from a state comes to an outcome with the property `P`, unless it exhausts the stack,
and it does that only where the limit of the stack is above `low`. -/
inductive Leads (H : Host a) (low : Int) (P : Outcome → Prop) : State → Prop
  | here {s : State} : P (.next s) → Leads H low P s
  | last {s : State} {e : Ending} : step H s = some (.ended e) → P (.ended e) → Leads H low P s
  | exhausted {s : State} : low < H.limit → step H s = some .exhausted → Leads H low P s
  | step {s s' : State} : step H s = some (.next s') → Leads H low P s' → Leads H low P s

/-- The run from a state ends as `e` tells, unless it exhausts the stack. -/
def Ends (H : Host a) (e : Ending) (s : State) : Prop :=
  ∃ low, Leads H low (· = .ended e) s

/-- The run from a state comes to its end, and ends as `e` tells. -/
def Halts (H : Host a) (e : Ending) (s : State) : Prop :=
  ∃ n t, stateAfter H n s = some t ∧ step H t = some (.ended e)

end Machine

end Bpl
