import Bpl.Asm
import Bpl.Fault
import Bpl.Frame

namespace Bpl.Lowering

open Asm

/-- The numbered labels that are in use: the next free number, the string literals seen so far,
each under its number, and the place that bad indices lead to. -/
structure Labels where
  next : Nat
  strings : List (Nat × String)
  trap : Option Nat

def Labels.empty : Labels :=
  ⟨0, [], none⟩

/-- Code generation draws numbered labels, and gives up on trees that no check accepted. -/
abbrev Lower := StateT Labels (Except Fault)

def newLabel : Lower Nat :=
  modifyGet fun s => (s.next, { s with next := s.next + 1 })

/-- The number of a string literal: literals with the same contents share it. -/
def stringLabel (contents : String) : Lower Nat := do
  match (← get).strings.find? (·.2 == contents) with
  | some (n, _) => return n
  | none =>
    let n ← newLabel
    modify fun s => { s with strings := s.strings ++ [(n, contents)] }
    return n

def trapLabel : Lower Nat := do
  match (← get).trap with
  | some n => return n
  | none =>
    let n ← newLabel
    modify fun s => { s with trap := some n }
    return n

/-- The type that an expression was given. -/
def typeOf (e : Expr) : Lower Ty :=
  match e.ty? with
  | some ty => return ty
  | none => throw (.untyped e.location)

def offsetAt (offsets : List Int) (index : Nat) : Lower Int :=
  match offsets[index]? with
  | some offset => return offset
  | none => throw (.slotOutOfRange offsets.length index)

/-- Where a variable is stored. -/
def storage (frame : Frame) (name : String) : Slot → Lower Address
  | .global => return .label (.global name)
  | .parameter i => return .offset (← offsetAt frame.params i) .rbp
  | .localVar i => return .offset (← offsetAt frame.locals i) .rbp

def code (is : List Instr) : Code :=
  is.map .instr

def move (src dst : Reg) : Instr :=
  .mov (.reg src) (.reg dst)

def load (src : Address) (dst : Reg) : Instr :=
  .mov (.mem src) (.reg dst)

def loadImm (value : Int64) (dst : Reg) : Instr :=
  .mov (.imm value) (.reg dst)

/-- Calls a library function with the stack pointer aligned to 16 bytes. The old one is pushed
twice, so that one copy of it is found above the aligned place. -/
def libraryCall (r : Routine) : Code :=
  code [.push (.reg .rsp), .push (.mem (.direct .rsp)), .op .and (.imm (-16)) .rsp, .clear .rax,
    .callRoutine r, load (.offset 8 .rsp) .rsp]

/-- Combines `%rax` on the left and `%rcx` on the right. -/
def combine : BinaryOp → Code
  | .add => code [.op .add (.reg .rcx) .rax]
  | .sub => code [.op .sub (.reg .rcx) .rax]
  | .mul => code [.op .imul (.reg .rcx) .rax]
  | .div => code [.cqto, .idiv .rcx]
  | .mod => code [.cqto, .idiv .rcx, move .rdx .rax]
  | .eq => compare .e
  | .ne => compare .ne
  | .lt => compare .l
  | .le => compare .le
  | .gt => compare .g
  | .ge => compare .ge
where
  compare (c : Cond) : Code := code [.op .cmp (.reg .rcx) .rax, .set c, .widen]

/-- Leads an index in `%rax` outside of an array to the trap. The comparison is unsigned, so that
negative indices are outside too. Through a pointer nothing is checked. -/
def boundsCheck : Ty → Lower Code
  | .array _ length => do
    let trap ← trapLabel
    return code [loadImm length.toInt64 .rcx, .op .cmp (.reg .rcx) .rax, .jae (.numbered trap)]
  | _ => return []

/-- The address of an element, from code for the index and for the start of the array. -/
def element (base : Expr) (indexCode baseCode : Lower Code) : Lower Code := do
  let index ← indexCode
  let check ← boundsCheck (← typeOf base)
  let start ← baseCode
  return index ++ check ++ code [.push (.reg .rax)] ++ start ++
    code [.pop .rcx, .lea (.element .rax .rcx) .rax]

mutual

/-- Code that leaves the value of an expression in `%rax`. -/
def value (frame : Frame) : Expr → Lower Code
  | .number _ v => return code [loadImm v .rax]
  | .string _ contents => do
    return code [.lea (.label (.numbered (← stringLabel contents))) .rax]
  | .read _ =>
    return code [.op .sub (.imm 8) .rsp, move .rsp .rsi, .lea (.label .readFormat) .rdi] ++
      libraryCall .scanf ++ code [.pop .rax]
  | .name _ name => throw (.unresolved name)
  | .var n name slot => do
    let ty ← typeOf (.var n name slot)
    let place ← storage frame name slot
    return code [if ty.isArray then .lea place .rax else load place .rax]
  | .decay _ name slot => do
    return code [.lea (← storage frame name slot) .rax]
  | .assign _ target v => do
    let place ← address frame target
    let v ← value frame v
    return place ++ code [.push (.reg .rax)] ++ v ++
      code [.pop .rcx, .mov (.reg .rax) (.mem (.direct .rcx))]
  | .binary _ op left right => do
    let left ← value frame left
    let right ← value frame right
    return left ++ code [.push (.reg .rax)] ++ right ++ code [move .rax .rcx, .pop .rax] ++
      combine op
  | .unary _ .neg e => return (← value frame e) ++ code [.neg .rax]
  | .unary _ .address e => address frame e
  | .unary _ .deref e => return (← value frame e) ++ code [load (.direct .rax) .rax]
  | .index _ base index => do
    let place ← element base (value frame index) (value frame base)
    return place ++ code [load (.direct .rax) .rax]
  | .call _ name args => do
    let pushed ← arguments frame args
    let drop := if args.isEmpty then []
      else [Instr.op .add (.imm (Int64.ofNat (Ty.wordSize * args.length))) .rsp]
    return pushed ++
      code ([.push (.reg .rbp), .call (.function name), .pop .rbp] ++ drop)

/-- Code that leaves the address of an expression in `%rax`. -/
def address (frame : Frame) : Expr → Lower Code
  | .var _ name slot => do
    return code [.lea (← storage frame name slot) .rax]
  | .unary _ .deref e => value frame e
  | .index _ base index => element base (value frame index) (value frame base)
  | e => throw (.notLvalue e.location)

/-- Code that pushes arguments from left to right. -/
def arguments (frame : Frame) : List Expr → Lower Code
  | [] => return []
  | e :: es => do
    let first ← value frame e
    let others ← arguments frame es
    return first ++ code [.push (.reg .rax)] ++ others

end

end Bpl.Lowering
