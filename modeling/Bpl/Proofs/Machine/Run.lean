import Bpl.Proofs.Lowering.Placed
import Bpl.Proofs.Machine.Words

namespace Bpl.Machine

open Asm Lowering

namespace State

/-- The address of the top of the stack. -/
def sp (s : State) : Int :=
  (s.regs .rsp).toInt

/-- The state after a word is pushed. -/
def pushed (s : State) (v : Int64) : State :=
  (s.set .rsp (s.regs .rsp - 8)).put (s.regs .rsp - 8).toInt v

/-- The state after the topmost word is popped into a register. -/
def popped (s : State) (r : Reg) : State :=
  (s.set .rsp (s.regs .rsp + 8)).set r (s.mem s.sp)

variable (s : State) (r r' : Reg) (v : Int64) (z w : Int)

@[simp] theorem set_regs : (s.set r v).regs r' = if r' = r then v else s.regs r' := by
  simp [set, Function.update_apply]

@[simp] theorem set_mem : (s.set r v).mem = s.mem := rfl
@[simp] theorem set_line : (s.set r v).line = s.line := rfl
@[simp] theorem set_input : (s.set r v).input = s.input := rfl
@[simp] theorem set_output : (s.set r v).output = s.output := rfl
@[simp] theorem set_compared : (s.set r v).compared = s.compared := rfl

@[simp] theorem put_mem : (s.put z v).mem w = if w = z then v else s.mem w := by
  simp [put, Function.update_apply]

@[simp] theorem put_regs : (s.put z v).regs = s.regs := rfl
@[simp] theorem put_line : (s.put z v).line = s.line := rfl
@[simp] theorem put_input : (s.put z v).input = s.input := rfl
@[simp] theorem put_output : (s.put z v).output = s.output := rfl

@[simp] theorem next_regs : s.next.regs = s.regs := rfl
@[simp] theorem next_mem : s.next.mem = s.mem := rfl
@[simp] theorem next_line : s.next.line = s.line + 1 := rfl
@[simp] theorem next_input : s.next.input = s.input := rfl
@[simp] theorem next_output : s.next.output = s.output := rfl
@[simp] theorem next_compared : s.next.compared = s.compared := rfl

@[simp] theorem goto_regs (k : Nat) : (s.goto k).regs = s.regs := rfl
@[simp] theorem goto_mem (k : Nat) : (s.goto k).mem = s.mem := rfl
@[simp] theorem goto_line (k : Nat) : (s.goto k).line = k := rfl
@[simp] theorem goto_input (k : Nat) : (s.goto k).input = s.input := rfl
@[simp] theorem goto_output (k : Nat) : (s.goto k).output = s.output := rfl

@[simp] theorem spoilFlags_regs : s.spoilFlags.regs = s.regs := rfl
@[simp] theorem spoilFlags_mem : s.spoilFlags.mem = s.mem := rfl
@[simp] theorem spoilFlags_line : s.spoilFlags.line = s.line := rfl
@[simp] theorem spoilFlags_input : s.spoilFlags.input = s.input := rfl
@[simp] theorem spoilFlags_output : s.spoilFlags.output = s.output := rfl

@[simp] theorem pushed_line : (s.pushed v).line = s.line := rfl
@[simp] theorem pushed_input : (s.pushed v).input = s.input := rfl
@[simp] theorem pushed_output : (s.pushed v).output = s.output := rfl
@[simp] theorem popped_mem : (s.popped r).mem = s.mem := rfl
@[simp] theorem popped_line : (s.popped r).line = s.line := rfl
@[simp] theorem popped_input : (s.popped r).input = s.input := rfl
@[simp] theorem popped_output : (s.popped r).output = s.output := rfl

@[simp] theorem pushed_regs :
    (s.pushed v).regs r = if r = .rsp then s.regs .rsp - 8 else s.regs r := by
  simp [pushed]

@[simp] theorem popped_regs : (s.popped r).regs r' =
    if r' = r then s.mem s.sp else if r' = .rsp then s.regs .rsp + 8 else s.regs r' := by
  simp [popped]

/-- States that differ in other registers than the stack and frame pointers only. -/
structure SameMemory (s t : State) : Prop where
  rsp : t.regs .rsp = s.regs .rsp
  rbp : t.regs .rbp = s.regs .rbp
  mem : t.mem = s.mem
  input : t.input = s.input
  output : t.output = s.output

theorem load?_of_aligned {x : Int64} (h : x.toInt % 8 = 0) : s.load? x = some (s.mem x.toInt) :=
  if_pos h

theorem store?_of_aligned {x : Int64} (h : x.toInt % 8 = 0) :
    s.store? x v = some (s.put x.toInt v) :=
  if_pos h

theorem sp_next : s.next.sp = s.sp := rfl

theorem sp_goto (k : Nat) : (s.goto k).sp = s.sp := rfl

theorem sp_pushed (h : 0 ≤ s.sp) : (s.pushed v).sp = s.sp - 8 := by
  rw [sp, pushed_regs, if_pos rfl]
  exact Int64.toInt_sub_eight h

theorem mem_pushed (h : 0 ≤ s.sp) :
    (s.pushed v).mem w = if w = s.sp - 8 then v else s.mem w := by
  rw [pushed, put_mem, set_mem, Int64.toInt_sub_eight h]
  rfl

theorem push?_of_aligned (h : 0 ≤ s.sp) (ha : s.sp % 8 = 0) : s.push? v = some (s.pushed v) := by
  have hsp : (s.regs .rsp - 8).toInt = s.sp - 8 := Int64.toInt_sub_eight h
  rw [push?, store?_of_aligned]
  · rfl
  · omega

end State

variable {a : Assembly} {H : Host a} {low : Int} {P : Outcome → Prop} {Q R : State → Prop}
  {s t : State}

theorem State.sp_popped {r : Reg} (hr : r ≠ .rsp) (h : s.sp + 8 < 2 ^ 63) :
    (s.popped r).sp = s.sp + 8 := by
  rw [State.sp, State.popped_regs, if_neg hr.symm, if_pos rfl]
  exact Int64.toInt_add_eight h

/-- A run begins with the stack at its top. -/
theorem Starts.sp_eq {input : List Int64} (h : Starts H input s) : s.sp = H.top := by
  have hlimit := H.limit_nonneg
  have hroom := H.limit_le_top
  have hlt := H.top_lt
  rw [State.sp, h.rsp]
  exact Int64.toInt_ofInt_of_le (by omega) (by omega)

/-- The run comes to a state with the property `Q`, unless it exhausts the stack. -/
def Reaches (H : Host a) (low : Int) (Q : State → Prop) (s : State) : Prop :=
  Leads H low (fun o => ∃ t, o = .next t ∧ Q t) s

theorem Leads.after (h : Reaches H low Q s) (hq : ∀ t, Q t → Leads H low P t) :
    Leads H low P s := by
  induction h with
  | here h =>
    obtain ⟨t, ht, h⟩ := h
    cases ht
    exact hq _ h
  | last _ h =>
    obtain ⟨t, ht, _⟩ := h
    cases ht
  | exhausted hlow h => exact .exhausted hlow h
  | step h _ ih => exact .step h ih

theorem Leads.mono {P' : Outcome → Prop} (h : Leads H low P s) (hp : ∀ o, P o → P' o) :
    Leads H low P' s := by
  induction h with
  | here h => exact .here (hp _ h)
  | last h h' => exact .last h (hp _ h')
  | exhausted hlow h => exact .exhausted hlow h
  | step h _ ih => exact .step h ih

/-- With a stack that reaches down far enough, the run does come to its end. -/
theorem Leads.halts {e : Ending} (h : Leads H low (· = .ended e) s) (hlow : H.limit ≤ low) :
    Halts H e s := by
  induction h with
  | here h => cases h
  | last h h' =>
    cases h'
    exact ⟨0, _, rfl, h⟩
  | exhausted hless => omega
  | step h _ ih =>
    obtain ⟨n, t, ht, he⟩ := ih
    refine ⟨n + 1, t, ?_, he⟩
    rw [stateAfter, h]
    exact ht

theorem Reaches.here (h : Q s) : Reaches H low Q s :=
  Leads.here ⟨s, rfl, h⟩

section

variable {c : Code} {i : Instr} {is : List Instr}

@[simp] theorem length_code : (code is).length = is.length :=
  List.length_map _

@[simp] theorem codeAt_nil {k : Nat} : CodeAt a k [] :=
  List.nil_prefix

theorem codeAt_code_cons {k : Nat} :
    CodeAt a k (code (i :: is)) ↔ a.code[k]? = some (.instr i) ∧ CodeAt a (k + 1) (code is) :=
  codeAt_cons

/-- One instruction. The run goes on if there is still room on the stack. -/
theorem Leads.instr (hc : CodeAt a s.line (code (i :: is))) (he : exec H s i = some (.next t))
    (hlow : low ≤ t.sp) (ht : H.limit ≤ t.sp → Leads H low P t) : Leads H low P s := by
  have hi := (codeAt_code_cons.1 hc).1
  have hs : Machine.step H s = some (H.settle (.next t)) := by
    rw [Machine.step, hi]
    exact congrArg (Option.map H.settle) he
  by_cases hl : t.sp < H.limit
  · exact .exhausted (by omega) (hs.trans (congrArg some (if_pos hl)))
  · exact .step (hs.trans (congrArg some (if_neg hl))) (ht (by omega))

theorem Leads.finish {e : Ending} (hc : CodeAt a s.line (code (i :: is)))
    (he : exec H s i = some (.ended e)) (hp : P (.ended e)) : Leads H low P s := by
  have hi := (codeAt_code_cons.1 hc).1
  refine .last (e := e) ?_ hp
  rw [Machine.step, hi]
  exact congrArg (Option.map H.settle) he

theorem Leads.label {l : Label} (hc : CodeAt a s.line (.label l :: c)) (hn : Leads H low P s.next) :
    Leads H low P s := by
  have hl := (codeAt_cons.1 hc).1
  have hs : Machine.step H s = some (.next s.next) := by rw [Machine.step, hl]
  exact .step hs hn

theorem exec_push {src : Operand} {v : Int64} (hv : s.read? H src = some v) (hr : 0 ≤ s.sp)
    (ha : s.sp % 8 = 0) : exec H s (.push src) = some (.next (s.pushed v).next) := by
  rw [exec, hv, Option.bind_eq_bind, Option.bind_some, State.push?_of_aligned _ _ hr ha]
  rfl

theorem exec_pop {r : Reg} (ha : s.sp % 8 = 0) :
    exec H s (.pop r) = some (.next (s.popped r).next) := by
  rw [exec, State.load?_of_aligned _ ha]
  rfl

theorem exec_load {x : Address} {r : Reg} (ha : (s.locate H x).toInt % 8 = 0) :
    exec H s (load x r) = some (.next (s.set r (s.mem (s.locate H x).toInt)).next) := by
  rw [load, exec, State.read?, State.load?_of_aligned _ ha]
  rfl

theorem Leads.push {src : Operand} {v : Int64} (hc : CodeAt a s.line (code (.push src :: is)))
    (hv : s.read? H src = some v) (hr : 0 ≤ s.sp) (ha : s.sp % 8 = 0) (hlow : low ≤ s.sp - 8)
    (ht : H.limit ≤ s.sp - 8 → Leads H low P (s.pushed v).next) : Leads H low P s := by
  rw [← s.sp_pushed v hr] at hlow ht
  exact .instr hc (exec_push hv hr ha) hlow ht

theorem Leads.pop {r : Reg} (hc : CodeAt a s.line (code (.pop r :: is))) (hr : r ≠ .rsp)
    (hfit : s.sp + 8 < 2 ^ 63) (ha : s.sp % 8 = 0) (hlow : low ≤ s.sp)
    (ht : Leads H low P (s.popped r).next) : Leads H low P s := by
  have hsp : (s.popped r).next.sp = s.sp + 8 := State.sp_popped hr hfit
  exact .instr hc (exec_pop ha) (by omega) fun _ => ht

/-- A word is loaded from an aligned address. -/
theorem Leads.fetch {x : Address} {r : Reg} (hc : CodeAt a s.line (code (load x r :: is)))
    (ha : (s.locate H x).toInt % 8 = 0)
    (hlow : low ≤ (s.set r (s.mem (s.locate H x).toInt)).sp)
    (ht : Leads H low P (s.set r (s.mem (s.locate H x).toInt)).next) : Leads H low P s :=
  .instr hc (exec_load ha) hlow fun _ => ht

/-- A register is stored at an aligned address. -/
theorem Leads.store {x : Address} {r : Reg}
    (hc : CodeAt a s.line (code (.mov (.reg r) (.mem x) :: is)))
    (ha : (s.locate H x).toInt % 8 = 0) (hlow : low ≤ s.sp)
    (ht : Leads H low P (s.put (s.locate H x).toInt (s.regs r)).next) : Leads H low P s := by
  refine .instr hc (t := (s.put _ _).next) ?_ hlow fun _ => ht
  rw [exec, State.read?, Option.bind_eq_bind, Option.bind_some, State.store?_of_aligned _ _ ha]
  rfl

theorem Leads.jump {l : Label} {k : Nat} (hc : CodeAt a s.line (code (.jmp l :: is)))
    (hl : lineOf? a l = some k) (hlow : low ≤ s.sp) (ht : Leads H low P (s.goto k)) :
    Leads H low P s := by
  refine .instr hc (t := s.goto k) ?_ hlow fun _ => ht
  rw [exec, State.jump?, hl]
  rfl

/-- A call pushes the place behind itself. -/
theorem Leads.call {l : Label} {k : Nat} (hc : CodeAt a s.line (code (.call l :: is)))
    (hl : lineOf? a l = some k) (hr : 0 ≤ s.sp) (ha : s.sp % 8 = 0) (hlow : low ≤ s.sp - 8)
    (ht : H.limit ≤ s.sp - 8 →
      Leads H low P ((s.pushed (H.codeAddress (s.line + 1))).goto k)) : Leads H low P s := by
  rw [← s.sp_pushed (H.codeAddress (s.line + 1)) hr] at hlow ht
  refine .instr hc (t := (s.pushed (H.codeAddress (s.line + 1))).goto k) ?_ hlow ht
  rw [exec, State.push?_of_aligned _ _ hr ha, Option.bind_eq_bind, Option.bind_some,
    State.jump?, hl]
  rfl

theorem Leads.ret {k : Nat} (hc : CodeAt a s.line (code [.ret])) (hfit : s.sp + 8 < 2 ^ 63)
    (ha : s.sp % 8 = 0) (hx : s.mem s.sp = H.codeAddress k)
    (hk : a.code[k]? = some (.instr i)) (hlow : low ≤ s.sp)
    (ht : Leads H low P ((s.set .rsp (s.regs .rsp + 8)).goto k)) : Leads H low P s := by
  have hsp : ((s.set .rsp (s.regs .rsp + 8)).goto k).sp = s.sp + 8 := Int64.toInt_add_eight hfit
  refine .instr hc ?_ (by omega) fun _ => ht
  have hload : s.load? (s.regs .rsp) = some (H.codeAddress k) := by
    rw [State.load?_of_aligned _ ha]
    exact congrArg some hx
  rw [exec, hload, Option.bind_eq_bind, Option.bind_some, H.lineAt_codeAddress k i hk]
  rfl

/-- The return of the first call goes back to the host, and ends the run. -/
theorem Leads.exits (hc : CodeAt a s.line (code [.ret])) (ha : s.sp % 8 = 0)
    (hx : s.mem s.sp = H.exit) (hp : P (.ended ⟨s.regs .rax, s.output⟩)) : Leads H low P s := by
  refine .finish hc ?_ hp
  have hload : s.load? (s.regs .rsp) = some H.exit := by
    rw [State.load?_of_aligned _ ha]
    exact congrArg some hx
  rw [exec, hload, Option.bind_eq_bind, Option.bind_some, H.lineAt_exit]
  exact if_pos rfl

/-- A jump that depends on a comparison. -/
theorem Leads.branch {l : Label} {k : Nat} {i : Instr} {c : Prop} [Decidable c]
    (hc : CodeAt a s.line (code (i :: is))) (hl : lineOf? a l = some k) (hlow : low ≤ s.sp)
    (he : exec H s i = if c then (s.jump? a l).map .next else some (.next s.next))
    (hj : c → Leads H low P (s.goto k)) (hn : ¬ c → Leads H low P s.next) : Leads H low P s := by
  by_cases h : c
  · refine .instr hc (t := s.goto k) ?_ hlow fun _ => hj h
    rw [he, if_pos h, State.jump?, hl]
    rfl
  · refine .instr hc (t := s.next) ?_ hlow fun _ => hn h
    rw [he, if_neg h]

theorem Leads.jae {l : Label} {k : Nat} {x y : Int64} (hc : CodeAt a s.line (code (.jae l :: is)))
    (hl : lineOf? a l = some k) (hlow : low ≤ s.sp) (hs : s.compared = some (x, y))
    (hj : y.toUInt64 ≤ x.toUInt64 → Leads H low P (s.goto k))
    (hn : ¬ y.toUInt64 ≤ x.toUInt64 → Leads H low P s.next) : Leads H low P s := by
  refine .branch hc hl hlow ?_ hj hn
  simp only [exec, hs, Option.bind_eq_bind, Option.bind_some]
  split
  · cases s.jump? a l <;> rfl
  · rfl

theorem Leads.je {l : Label} {k : Nat} {x y : Int64} (hc : CodeAt a s.line (code (.je l :: is)))
    (hl : lineOf? a l = some k) (hlow : low ≤ s.sp) (hs : s.compared = some (x, y))
    (hj : x = y → Leads H low P (s.goto k)) (hn : x ≠ y → Leads H low P s.next) :
    Leads H low P s := by
  refine .branch hc hl hlow ?_ hj hn
  simp only [exec, hs, Option.bind_eq_bind, Option.bind_some]
  split
  · cases s.jump? a l <;> rfl
  · rfl

end

end Bpl.Machine
