import Bpl.Lowering.Program

namespace Bpl.Asm

/-- The register that an instruction writes, besides those of a division. -/
def Instr.written? : Instr → Option Reg
  | .mov _ (.reg r) | .mov32 _ r | .lea _ r | .pop r | .neg r | .clear r => some r
  | .op .cmp _ _ => none
  | .op _ _ r => some r
  | .mov _ (.imm _) | .mov _ (.mem _) | .push _ | .cqto | .idiv _ | .set _ | .widen | .call _
  | .callRoutine _ | .jmp _ | .je _ | .jae _ | .ret => none

/-- The height of the stack, from the stack pointer up to the frame pointer, after an instruction
that is passed at height `h`. A function of the program leaves it as it was. The instruction alone
does not tell it where a call of the library begins or is made, nor where either pointer is
written in any other way; and a jump or a return is not passed. -/
def Instr.height? (h : Int) (x : Instr) : Option Int :=
  match x with
  | .push src => if src = .reg .rsp then none else some (h + 8)
  | .pop dst => if dst = .rsp then none else some (h - 8)
  | .op .sub (.imm k) .rsp => some (h + k.toInt)
  | .op .add (.imm k) .rsp => some (h - k.toInt)
  | .callRoutine _ | .jmp _ | .ret => none
  | x =>
    if x = .mov (.reg .rbp) (.reg .rsp) then some 0
    else if x.written? = some .rsp ∨ x.written? = some .rbp then none
    else some h

/-- Where an instruction may jump to. -/
def Instr.target? : Instr → Option Label
  | .jmp l | .je l | .jae l => some l
  | _ => none

end Bpl.Asm

namespace Bpl.Stack

open Asm Lowering

/-- `Flows ls i h j k`: in the code `ls`, control goes from line `i` at height `h` to line `j` at
height `k`. A call of the library is passed as a whole. -/
inductive Flows (ls : Code) : Nat → Int → Nat → Int → Prop
  | label {i : Nat} {h : Int} {l : Label} : ls[i]? = some (.label l) → Flows ls i h (i + 1) h
  | pass {i : Nat} {h k : Int} {x : Instr} :
      ls[i]? = some (.instr x) → x.height? h = some k → Flows ls i h (i + 1) k
  | jump {i j : Nat} {h : Int} {x : Instr} {l : Label} :
      ls[i]? = some (.instr x) → x.target? = some l → ls[j]? = some (.label l) → Flows ls i h j h
  | library {i : Nat} {h : Int} {r : Routine} :
      libraryCall r <+: ls.drop i → Flows ls i h (i + (libraryCall r).length) h

/-- `Reaches ls i h j k`: some path leads from line `i` at height `h` to line `j` at height `k`. -/
inductive Reaches (ls : Code) (i : Nat) (h : Int) : Nat → Int → Prop
  | refl : Reaches ls i h i h
  | step {j m : Nat} {k n : Int} : Reaches ls i h j k → Flows ls j k m n → Reaches ls i h m n

variable {b ls d : Code} {i j m : Nat} {h k n base : Int}

theorem Reaches.trans (h₁ : Reaches ls i h j k) (h₂ : Reaches ls j k m n) : Reaches ls i h m n := by
  induction h₂ with
  | refl => exact h₁
  | step _ hf ih => exact ih.step hf

theorem getElem?_context {x : Line} (hi : ls[i]? = some x) :
    (b ++ ls ++ d)[b.length + i]? = some x := by
  have hlt := (List.getElem?_eq_some_iff.1 hi).1
  rw [List.append_assoc, List.getElem?_append_right (by omega), Nat.add_sub_cancel_left,
    List.getElem?_append_left hlt, hi]

/-- Control flows through a piece of code as it does with more code around it. -/
theorem Flows.context (hf : Flows ls i h j k) :
    Flows (b ++ ls ++ d) (b.length + i) h (b.length + j) k := by
  cases hf with
  | label hi => exact .label (getElem?_context hi)
  | pass hi hx => exact .pass (getElem?_context hi) hx
  | jump hi hx hj => exact .jump (getElem?_context hi) hx (getElem?_context hj)
  | library hr =>
    rw [← Nat.add_assoc]
    refine .library ?_
    have hlen : i ≤ ls.length := by
      have hle := hr.length_le
      simp only [libraryCall, code, List.length_map, List.length_cons, List.length_drop] at hle
      omega
    rw [List.append_assoc, ← List.drop_drop, List.drop_left, List.drop_append_of_le_length hlen]
    exact hr.trans (List.prefix_append _ _)

theorem Reaches.context (hr : Reaches ls i h j k) :
    Reaches (b ++ ls ++ d) (b.length + i) h (b.length + j) k := by
  induction hr with
  | refl => exact .refl
  | step _ hf ih => exact ih.step hf.context

/-- The height after a line, if no path jumped there. Behind a return the body of a function goes
on at `base`. A call of the library pushes the stack pointer twice and takes both copies away at
its end; what it aligns does not count. -/
def after (base h : Int) : Line → Int
  | .label _ => h
  | .instr .ret => base
  | .instr (.push (.reg .rsp)) => h + 8
  | .instr (.mov (.mem (.offset _ .rsp)) (.reg .rsp)) => h - 16
  | .instr x => (x.height? h).getD h

/-- The height after a piece of code that is read from height `h` on, line by line. -/
def level (base h : Int) (ls : Code) : Int :=
  ls.foldl (after base) h

theorem level_nil : level base h [] = h :=
  rfl

theorem level_append : level base h (ls ++ d) = level base (level base h ls) d :=
  List.foldl_append

theorem after_of_height? {x : Instr} (hx : x.height? h = some k) :
    after base h (.instr x) = k := by
  unfold after
  split
  · next heq => cases heq
  -- what is treated by itself has no height of its own
  · next heq => cases heq; cases hx
  · next heq => cases heq; cases hx
  · next heq => cases heq; cases hx
  · next heq =>
    cases heq
    rw [hx, Option.getD_some]

theorem level_libraryCall (r : Routine) : level base h (libraryCall r) = h := by
  change h + 8 + 8 - 16 = h
  omega

/-- The height at line `i`, of code that is entered at line `p` at height `h`. -/
def levelAt (base h : Int) (ls : Code) (p i : Nat) : Int :=
  level base h ((ls.take i).drop p)

theorem levelAt_add {p : Nat} (hp : p ≤ i) (hi : i ≤ ls.length) (hd : d <+: ls.drop i) :
    levelAt base h ls p (i + d.length) = level base (levelAt base h ls p i) d := by
  have htake : ls.take (i + d.length) = ls.take i ++ d := by
    rw [List.take_add, ← List.prefix_iff_eq_take.1 hd]
  have hlen : p ≤ (ls.take i).length := by
    rw [List.length_take]
    omega
  rw [levelAt, htake, List.drop_append_of_le_length hlen, level_append, levelAt]

/-- Where jumps join lines of one height, all paths from the entry give a line the height that it
has when the code is read line by line. -/
theorem Reaches.eq_levelAt {p : Nat} (hp : p ≤ ls.length)
    (hjump : ∀ i j x l, p ≤ i → ls[i]? = some (.instr x) → x.target? = some l →
      ls[j]? = some (.label l) → p ≤ j ∧ levelAt base h ls p j = levelAt base h ls p i)
    (hr : Reaches ls p h i k) : p ≤ i ∧ i ≤ ls.length ∧ k = levelAt base h ls p i := by
  induction hr with
  | refl => simp [hp, levelAt, level_nil]
  | @step i j k n _ hf ih =>
    obtain ⟨hpi, hi, rfl⟩ := ih
    have hnext : ∀ {x : Line}, ls[i]? = some x →
        i + 1 ≤ ls.length ∧ after base (levelAt base h ls p i) x = levelAt base h ls p (i + 1) := by
      intro x hx
      have hx' : [x] <+: ls.drop i := by
        rw [List.singleton_prefix_iff_head?_eq_some, List.head?_drop, hx]
      exact ⟨(List.getElem?_eq_some_iff.1 hx).1, (levelAt_add hpi hi hx').symm⟩
    cases hf with
    | label hx => exact ⟨by omega, hnext hx⟩
    | pass hx hk => exact ⟨by omega, after_of_height? hk ▸ hnext hx⟩
    | jump hx hl hj =>
      obtain ⟨hpj, he⟩ := hjump i j _ _ hpi hx hl hj
      exact ⟨hpj, Nat.le_of_lt (List.getElem?_eq_some_iff.1 hj).1, he.symm⟩
    | library hd =>
      have hle := hd.length_le
      rw [List.length_drop] at hle
      rw [levelAt_add hpi hi hd, level_libraryCall]
      exact ⟨by omega, by omega, rfl⟩

end Bpl.Stack
