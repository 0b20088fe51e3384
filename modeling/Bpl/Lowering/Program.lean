import Bpl.Lowering.Expr

namespace Bpl.Lowering

open Asm

/-- Leaves a function. The main function is called by the platform, and so gives back its frame
pointer and a status of zero. -/
def epilogue (frame : Frame) : Code :=
  if frame.isMain then code [.clear .rax, move .rbp .rsp, .pop .rbp, .ret]
  else code [move .rbp .rsp, .ret]

/-- Enters a function and makes room for its locals. -/
def prologue (frame : Frame) : Code :=
  code ((if frame.isMain then [Instr.push (.reg .rbp)] else []) ++ [move .rsp .rbp] ++
    (if frame.size = 0 then [] else [.op .sub (.imm (Int64.ofNat frame.size)) .rsp]))

/-- Skips to a label if the condition in `%rax` is false. -/
def unlessTrue (target : Nat) : Code :=
  code [.op .cmp (.imm 0) .rax, .je (.numbered target)]

def formatOf : Ty → Label
  | .string => .stringFormat
  | _ => .integerFormat

mutual

def stmt (frame : Frame) : Stmt → Lower Code
  | .compound _ b => block frame b
  | .ifThen _ condition yes => do
    let condition ← value frame condition
    let last ← newLabel
    let yes ← stmt frame yes
    return condition ++ unlessTrue last ++ yes ++ [.label (.numbered last)]
  | .ifElse _ condition yes no => do
    let condition ← value frame condition
    let other ← newLabel
    let last ← newLabel
    let yes ← stmt frame yes
    let no ← stmt frame no
    return condition ++ unlessTrue other ++ yes ++ code [.jmp (.numbered last)] ++
      [.label (.numbered other)] ++ no ++ [.label (.numbered last)]
  | .whileDo _ condition body => do
    let top ← newLabel
    let last ← newLabel
    let condition ← value frame condition
    let body ← stmt frame body
    return [.label (.numbered top)] ++ condition ++ unlessTrue last ++ body ++
      code [.jmp (.numbered top)] ++ [.label (.numbered last)]
  | .ret _ none => return epilogue frame
  | .ret _ (some e) => return (← value frame e) ++ epilogue frame
  | .expr _ e => value frame e
  | .write _ e => do
    let v ← value frame e
    let ty ← typeOf e
    return v ++ code [move .rax .rsi, .lea (.label (formatOf ty)) .rdi] ++ libraryCall .printf
  | .writeln _ => return code [.lea (.label .newline) .rdi] ++ libraryCall .printf

def block (frame : Frame) : Block → Lower Code
  | .mk _ _ ss => stmts frame ss

def stmts (frame : Frame) : List Stmt → Lower Code
  | [] => return []
  | s :: ss => return (← stmt frame s) ++ (← stmts frame ss)

end

def function (f : Function) : Lower Code := do
  let frame := Frame.layout f
  let body ← block frame f.body
  return [.label (.function f.name)] ++ prologue frame ++ body ++ epilogue frame

end Lowering

/-- The machine code of a checked program. -/
def Program.lower (p : Program) : Except Fault Assembly := do
  let (functions, labels) ← (p.functions.mapM Lowering.function).run .empty
  return ⟨labels.strings, p.globals.map fun v => (v.name, v.ty.size), functions, labels.trap⟩

end Bpl
