import Bpl.Proofs.Machine.Library
import Bpl.Proofs.Stack.Flow

namespace Bpl.Machine

open Asm Lowering

variable {a : Assembly} {H : Host a} {s t : State}

theorem stateAfter_add (m n : Nat) (s : State) :
    stateAfter H (m + n) s = (stateAfter H m s).bind (stateAfter H n) := by
  induction m generalizing s with
  | zero =>
    rw [Nat.zero_add]
    rfl
  | succ m ih =>
    rw [Nat.add_right_comm, stateAfter, stateAfter]
    split
    · exact ih _
    · rfl

section

variable {i : Instr} {is : List Instr}

theorem step_of_exec (hi : a.code[s.line]? = some (.instr i)) (he : exec H s i = some (.next t))
    (hroom : H.limit ≤ t.sp) : step H s = some (.next t) := by
  have hsettle : H.settle (.next t) = .next t := if_neg (by change ¬ t.sp < H.limit; omega)
  rw [step, hi]
  exact (congrArg (Option.map H.settle) he).trans (congrArg some hsettle)

/-- One instruction, with room on the stack after it. -/
theorem stateAfter_instr {n : Nat} (hc : CodeAt a s.line (code (i :: is)))
    (he : exec H s i = some (.next t)) (hroom : H.limit ≤ t.sp) :
    stateAfter H (n + 1) s = stateAfter H n t := by
  rw [stateAfter, step_of_exec (codeAt_code_cons.1 hc).1 he hroom]

theorem line_of_store {x v : Int64} (h : s.store? x v = some t) : t.line = s.line := by
  unfold State.store? at h
  split at h
  · cases h
    rfl
  · cases h

theorem line_of_jump {l : Label} (h : s.jump? a l = some t) : lineOf? a l = some t.line := by
  obtain ⟨k, hk, rfl⟩ := Option.map_eq_some_iff.1 h
  exact hk

theorem line_of_callRoutine {r : Routine} (he : callRoutine H s r = some (.next t)) :
    t.line = s.line + 1 := by
  cases r with
  | printf =>
    obtain ⟨piece, _, he⟩ := Option.bind_eq_some_iff.1 he
    cases he
    rfl
  | scanf =>
    obtain ⟨_, _, he⟩ := Option.bind_eq_some_iff.1 he
    split at he
    · cases he
      rfl
    · obtain ⟨u, hu, he⟩ := Option.bind_eq_some_iff.1 he
      cases he
      exact congrArg (· + 1) (line_of_store (s := H.called s) hu)
  | exit => cases he

/-- Where the run goes on after an instruction: at the next line, at a label that it names or, after
a return, wherever the stack tells. -/
theorem line_of_exec (he : exec H s i = some (.next t)) :
    t.line = s.line + 1 ∨ (∃ l, (i.target? = some l ∨ i = .call l) ∧ lineOf? a l = some t.line) ∨
      i = .ret := by
  cases i with
  | mov src dst =>
    cases dst with
    | imm v => cases he
    | reg r =>
      obtain ⟨v, _, he⟩ := Option.bind_eq_some_iff.1 he
      cases he
      exact .inl rfl
    | mem x =>
      obtain ⟨v, _, he⟩ := Option.bind_eq_some_iff.1 he
      obtain ⟨u, hu, he⟩ := Option.bind_eq_some_iff.1 he
      cases he
      exact .inl (congrArg (· + 1) (line_of_store hu))
  | push src =>
    obtain ⟨v, _, he⟩ := Option.bind_eq_some_iff.1 he
    obtain ⟨u, hu, he⟩ := Option.bind_eq_some_iff.1 he
    cases he
    exact .inl (congrArg (· + 1) (line_of_store (s := s.set .rsp (s.regs .rsp - 8)) hu))
  | pop r =>
    obtain ⟨v, _, he⟩ := Option.bind_eq_some_iff.1 he
    cases he
    exact .inl rfl
  | op o src r =>
    cases o with
    | _ =>
      obtain ⟨v, _, he⟩ := Option.bind_eq_some_iff.1 he
      cases he
      exact .inl rfl
  | mov32 | lea | neg | clear | cqto | widen =>
    cases he
    exact .inl rfl
  | idiv r | set c =>
    obtain ⟨_, _, he⟩ := Option.bind_eq_some_iff.1 he
    cases he
    exact .inl rfl
  | call f =>
    obtain ⟨u, _, he⟩ := Option.bind_eq_some_iff.1 he
    obtain ⟨v, hv, he⟩ := Option.bind_eq_some_iff.1 he
    cases he
    exact .inr (.inl ⟨f, .inr rfl, line_of_jump hv⟩)
  | callRoutine r =>
    simp only [exec] at he
    split at he
    · exact .inl (line_of_callRoutine he)
    · cases he
  | jmp l =>
    obtain ⟨v, hv, he⟩ := Option.bind_eq_some_iff.1 he
    cases he
    exact .inr (.inl ⟨l, .inl rfl, line_of_jump hv⟩)
  | je l | jae l =>
    obtain ⟨⟨x, y⟩, _, he⟩ := Option.bind_eq_some_iff.1 he
    dsimp only at he
    split at he
    · obtain ⟨v, hv, he⟩ := Option.bind_eq_some_iff.1 he
      cases he
      exact .inr (.inl ⟨l, .inl rfl, line_of_jump hv⟩)
    · cases he
      exact .inl rfl
  | ret => exact .inr (.inr rfl)

end

theorem step_cases (hs : step H s = some (.next t)) :
    (∃ l, a.code[s.line]? = some (.label l) ∧ t = s.next) ∨
      ∃ i, a.code[s.line]? = some (.instr i) ∧ exec H s i = some (.next t) := by
  unfold step at hs
  split at hs
  · cases hs
  · next l hl =>
    cases hs
    exact .inl ⟨l, hl, rfl⟩
  · next i hi =>
    obtain ⟨o, ho, hsettle⟩ := Option.map_eq_some_iff.1 hs
    refine .inr ⟨i, hi, ?_⟩
    cases o with
    | next u =>
      rw [ho]
      rw [Host.settle] at hsettle
      split at hsettle
      · cases hsettle
      · exact congrArg some hsettle
    | ended e => cases hsettle
    | exhausted => cases hsettle

theorem getElem?_of_codeAt {k j : Nat} {ls : Code} (hc : CodeAt a k ls) (hj : j < ls.length) :
    a.code[k + j]? = some ls[j] := by
  rw [← List.getElem?_drop]
  exact List.prefix_iff_getElem?.1 hc j hj

/-- Code without labels is entered from above: each of its lines comes after the one before it,
unless a return leads there. -/
theorem line_before {k : Nat} {is : List Instr} (hc : CodeAt a k (code is))
    (hs : step H s = some (.next t)) (hk : k ≤ t.line) (hlt : t.line < k + is.length) :
    t.line = s.line + 1 ∨ a.code[s.line]? = some (.instr .ret) := by
  rcases step_cases hs with ⟨l, _, rfl⟩ | ⟨i, hi, he⟩
  · exact .inl rfl
  · rcases line_of_exec he with h | ⟨l, _, hl⟩ | rfl
    · exact .inl h
    · obtain ⟨j, hj⟩ := Nat.exists_eq_add_of_le hk
      have hlabel := getElem?_of_codeAt hc (by rw [length_code]; omega : j < (code is).length)
      rw [← hj, getElem?_of_lineOf? hl] at hlabel
      simp [code] at hlabel
    · exact .inr hi

/-- The code of an element of an array: its index in `%rax` is compared with the length and led to
the trap if it is not below, and only then the place of the array is formed. -/
def guardedCode (trap : Nat) (length : UInt64) (place : Address) : List Instr :=
  [loadImm length.toInt64 .rcx, .op .cmp (.reg .rcx) .rax, .jae (.numbered trap),
    .push (.reg .rax), .lea place .rax, .pop .rcx, .lea (.element .rax .rcx) .rax]

section

variable {trap n : Nat} {length : UInt64} {place : Address}

/-- The check leaves memory and the index as they are, and goes on if the index is inside. -/
theorem exists_stateAfter_check (hc : CodeAt a s.line (code (guardedCode n length place)))
    (hline : lineOf? a (.numbered n) = some trap) (hlen : length.toNat < 2 ^ 63)
    (hroom : H.limit ≤ s.sp) :
    ∃ t, stateAfter H 3 s = some t ∧ s.SameMemory t ∧ t.regs .rax = s.regs .rax ∧
      t.line = if 0 ≤ (s.regs .rax).toInt ∧ (s.regs .rax).toInt < length.toNat
        then s.line + 3 else trap := by
  have h₁ := (codeAt_code_cons.1 hc).2
  have h₂ := (codeAt_code_cons.1 h₁).2
  have hiff := Int64.toUInt64_lt_iff (x := s.regs .rax) hlen
  set s₁ := (s.set .rcx length.toInt64).next with hs₁
  set s₂ := State.next { s₁ with compared := some (s₁.regs .rax, s₁.regs .rcx) } with hs₂
  rw [stateAfter_instr (t := s₁) hc rfl hroom, stateAfter_instr (s := s₁) (t := s₂) h₁ rfl hroom]
  by_cases hin : 0 ≤ (s.regs .rax).toInt ∧ (s.regs .rax).toInt < length.toNat
  · have he : exec H s₂ (.jae (.numbered n)) = some (.next s₂.next) := by
      exact if_neg (hiff.2 hin)
    refine ⟨s₂.next, ?_, ⟨rfl, rfl, rfl, rfl, rfl⟩, rfl, ?_⟩
    · rw [stateAfter_instr (s := s₂) h₂ he hroom]
      rfl
    · rw [if_pos hin]
      rfl
  · have hle : length ≤ (s.regs .rax).toUInt64 := by
      by_contra hlt
      exact hin (hiff.1 hlt)
    have he : exec H s₂ (.jae (.numbered n)) = some (.next (s₂.goto trap)) := by
      refine (if_pos hle).trans ?_
      rw [State.jump?, hline]
      rfl
    refine ⟨s₂.goto trap, ?_, ⟨rfl, rfl, rfl, rfl, rfl⟩, rfl, ?_⟩
    · rw [stateAfter_instr (s := s₂) h₂ he hroom]
      rfl
    · rw [if_neg hin]
      rfl

/-- The place of a variable depends on the frame pointer alone. -/
theorem locate_of_storage {frame : Frame} {x : String} {slot : Slot}
    (hp : storage? frame x slot = some place) (hb : t.regs .rbp = s.regs .rbp) :
    t.locate H place = s.locate H place := by
  cases slot with
  | global =>
    cases hp
    rfl
  | parameter i | localVar i =>
    obtain ⟨o, _, rfl⟩ := Option.map_eq_some_iff.1 hp
    rw [State.locate, State.locate, hb]

/-- The address of an element is formed from its index and from what some instruction leaves in
`%rax`. No memory is written but a word of the stack that is free again. -/
theorem exists_stateAfter_formed {i : Instr} {w : Int64}
    (hc : CodeAt a s.line (code [.push (.reg .rax), i, .pop .rcx,
      .lea (.element .rax .rcx) .rax]))
    (hi : exec H (s.pushed (s.regs .rax)).next i =
      some (.next ((s.pushed (s.regs .rax)).next.set .rax w).next))
    (hroom : H.limit ≤ s.sp - 8) (haligned : s.sp % 8 = 0) :
    ∃ t, stateAfter H 4 s = some t ∧ t.line = s.line + 4 ∧ t.regs .rax = w + 8 * s.regs .rax ∧
      t.regs .rsp = s.regs .rsp ∧ ∀ z, z ≠ s.sp - 8 → t.mem z = s.mem z := by
  have hlimit := H.limit_nonneg
  have h₁ := (codeAt_code_cons.1 hc).2
  have h₂ := (codeAt_code_cons.1 h₁).2
  have h₃ := (codeAt_code_cons.1 h₂).2
  set s₁ := (s.pushed (s.regs .rax)).next with hs₁
  have hsp₁ : s₁.sp = s.sp - 8 := s.sp_pushed (s.regs .rax) (by omega)
  have hpush : exec H s (.push (.reg .rax)) = some (.next s₁) :=
    exec_push rfl (by omega) haligned
  set s₂ := (s₁.set .rax w).next with hs₂
  set s₃ := (s₂.popped .rcx).next with hs₃
  have hpop : exec H s₂ (.pop .rcx) = some (.next s₃) := exec_pop (by change s₁.sp % 8 = 0; omega)
  set s₄ := (s₃.set .rax (s₃.locate H (.element .rax .rcx))).next with hs₄
  have hrcx : s₃.regs .rcx = s.regs .rax := by
    change (s₂.popped .rcx).regs .rcx = _
    rw [State.popped_regs, if_pos rfl]
    change (s.pushed (s.regs .rax)).mem s₁.sp = _
    rw [s.mem_pushed _ _ (by omega), if_pos hsp₁]
  -- the pop takes back what was pushed, so that the stack is as it was
  have hrsp : s₃.regs .rsp = s.regs .rsp := by
    change (s₂.popped .rcx).regs .rsp = _
    rw [State.popped_regs, if_neg (by decide), if_pos rfl]
    change (s.pushed (s.regs .rax)).regs .rsp + 8 = _
    rw [State.pushed_regs, if_pos rfl, Int64.sub_add_cancel]
  have hrax : s₃.regs .rax = w := by
    change (s₂.popped .rcx).regs .rax = _
    rw [State.popped_regs, if_neg (by decide), if_neg (by decide)]
    change (s₁.set .rax w).regs .rax = _
    rw [State.set_regs, if_pos rfl]
  have hroom₃ : H.limit ≤ s₃.sp := by
    rw [State.sp, hrsp]
    change _ ≤ s.sp
    omega
  refine ⟨s₄, ?_, rfl, ?_, hrsp, ?_⟩
  · rw [stateAfter_instr (t := s₁) hc hpush (by omega),
      stateAfter_instr (s := s₁) (t := s₂) h₁ hi (by change _ ≤ s₁.sp; omega),
      stateAfter_instr (s := s₂) (t := s₃) h₂ hpop hroom₃,
      stateAfter_instr (s := s₃) (t := s₄) h₃ rfl hroom₃]
    rfl
  · change (s₃.set .rax (s₃.regs .rax + 8 * s₃.regs .rcx)).regs .rax = _
    rw [State.set_regs, if_pos rfl, hrax, hrcx]
  · intro z hz
    change (s.pushed (s.regs .rax)).mem z = _
    rw [s.mem_pushed _ _ (by omega), if_neg (by omega)]

/-- The address of an element of a variable is formed from where the variable is. -/
theorem exists_stateAfter_address {frame : Frame} {x : String} {slot : Slot}
    (hc : CodeAt a s.line (code [.push (.reg .rax), .lea place .rax, .pop .rcx,
      .lea (.element .rax .rcx) .rax]))
    (hp : storage? frame x slot = some place) (hroom : H.limit ≤ s.sp - 8)
    (haligned : s.sp % 8 = 0) :
    ∃ t, stateAfter H 4 s = some t ∧ t.line = s.line + 4 ∧
      t.regs .rax = s.locate H place + 8 * s.regs .rax ∧ t.regs .rsp = s.regs .rsp ∧
        ∀ z, z ≠ s.sp - 8 → t.mem z = s.mem z := by
  have hlocate : (s.pushed (s.regs .rax)).next.locate H place = s.locate H place :=
    locate_of_storage hp rfl
  have hlea : exec H (s.pushed (s.regs .rax)).next (.lea place .rax) =
      some (.next ((s.pushed (s.regs .rax)).next.set .rax (s.locate H place)).next) := by
    rw [exec, hlocate]
  exact exists_stateAfter_formed hc hlea hroom haligned

/-- Behind the check, the address of the element is formed. -/
theorem exists_stateAfter_element {frame : Frame} {x : String} {slot : Slot}
    (hc : CodeAt a s.line (code (guardedCode n length place)))
    (hline : lineOf? a (.numbered n) = some trap) (hlen : length.toNat < 2 ^ 63)
    (hp : storage? frame x slot = some place) (hroom : H.limit ≤ s.sp - 8)
    (haligned : s.sp % 8 = 0)
    (hin : 0 ≤ (s.regs .rax).toInt ∧ (s.regs .rax).toInt < length.toNat) :
    ∃ t, stateAfter H 7 s = some t ∧ t.line = s.line + 7 ∧
      t.regs .rax = s.locate H place + 8 * s.regs .rax ∧ t.regs .rsp = s.regs .rsp ∧
        ∀ z, z ≠ s.sp - 8 → t.mem z = s.mem z := by
  obtain ⟨u, hu, hsame, hrax, hline⟩ :=
    exists_stateAfter_check hc hline hlen (by omega : H.limit ≤ s.sp)
  rw [if_pos hin] at hline
  have hsp : u.sp = s.sp := congrArg Int64.toInt hsame.rsp
  have hcode : CodeAt a u.line (code [.push (.reg .rax), .lea place .rax, .pop .rcx,
      .lea (.element .rax .rcx) .rax]) := by
    rw [hline]
    exact (codeAt_append (c := code [_, _, _]).1 hc).2
  rw [← hsp] at hroom haligned
  obtain ⟨t, ht, hline', hrax', hrsp, hmem⟩ := exists_stateAfter_address hcode hp hroom haligned
  refine ⟨t, ?_, ?_, ?_, hrsp.trans hsame.rsp, ?_⟩
  · rw [stateAfter_add 3 4, hu, Option.bind_some, ht]
  · rw [hline', hline]
  · rw [hrax', hrax, locate_of_storage hp hsame.rbp]
  · intro z hz
    rw [hmem z (hsp ▸ hz), hsame.mem]

/-- What the machine does from line `k` on, where the index of an element of an array is in `%rax`.
The trap stands at another line, and the array at a place. -/
structure Guarded (H : Host a) (k trap : Nat) (place : Address) (length size : Nat) : Prop where
  checks : ∀ s : State, s.line = k → H.limit ≤ s.sp →
    ∃ t, stateAfter H 3 s = some t ∧ s.SameMemory t ∧ t.regs .rax = s.regs .rax ∧
      (t.line = trap ∨ t.line = k + 3) ∧
        (t.line = trap ↔ (s.regs .rax).toInt < 0 ∨ length ≤ (s.regs .rax).toInt)
  addresses : ∀ s : State, s.line = k → H.limit ≤ s.sp - 8 → s.sp % 8 = 0 →
    ¬ ((s.regs .rax).toInt < 0 ∨ length ≤ (s.regs .rax).toInt) →
      0 ≤ 8 * (s.regs .rax).toInt ∧ 8 * (s.regs .rax).toInt + 8 ≤ size ∧
        ∃ t, stateAfter H 7 s = some t ∧ t.line = k + 7 ∧ t.regs .rsp = s.regs .rsp ∧
          t.regs .rax = s.locate H place + 8 * s.regs .rax ∧
          ((s.locate H place).toInt + size < 2 ^ 63 →
            (t.regs .rax).toInt = (s.locate H place).toInt + 8 * (s.regs .rax).toInt) ∧
          ∀ z, z ≠ s.sp - 8 → t.mem z = s.mem z
  entered : ∀ s t : State, step H s = some (.next t) → k < t.line → t.line < k + 7 →
    t.line = s.line + 1 ∨ a.code[s.line]? = some (.instr .ret)

theorem guarded_of_codeAt {frame : Frame} {x : String} {slot : Slot} {k size : Nat}
    (hc : CodeAt a k (code (guardedCode n length place)))
    (hline : lineOf? a (.numbered n) = some trap) (hp : storage? frame x slot = some place)
    (hsize : size = 8 * length.toNat) (hmax : size < 2 ^ 63) (H : Host a) :
    Guarded H k trap place length.toNat size where
  checks := by
    intro s hs hroom
    have hapart : trap ≠ k + 3 := by
      intro h
      have hlabel := getElem?_of_lineOf? hline
      have hpush := getElem?_of_codeAt hc (by decide : 3 < 7)
      rw [← h, hlabel] at hpush
      cases hpush
    obtain ⟨t, ht, hmem, hrax, hgoes⟩ :=
      exists_stateAfter_check (hs ▸ hc) hline (by omega) hroom
    refine ⟨t, ht, hmem, hrax, ?_, ?_⟩ <;> split at hgoes <;> omega
  addresses := by
    intro s hs hroom haligned hin
    obtain ⟨t, ht, hgoes, hrax, hrsp, hmem⟩ := exists_stateAfter_element (H := H) (hs ▸ hc) hline
      (by omega) hp hroom haligned (by omega)
    refine ⟨by omega, by omega, t, ht, hs ▸ hgoes, hrsp, hrax, fun hfits => ?_, hmem⟩
    have hidx : (s.regs .rax).toInt = (s.regs .rax).toInt.toNat := by omega
    rw [hrax, Int64.toInt_add_eight_mul hidx (by omega) (by omega), ← hidx]
  entered := fun _ _ hs hk hlt => line_before hc hs hk.le hlt

end

theorem trapCode_passed {n : Nat} {i : Instr} (hi : .instr i ∈ trapCode n) :
    i.target? = none ∧ (∀ l, i ≠ .call l) ∧ i ≠ .ret := by
  simp only [trapCode, List.mem_cons, List.not_mem_nil, or_false, Line.instr.injEq, reduceCtorEq,
    false_or] at hi
  rcases hi with rfl | rfl | rfl | rfl | rfl | rfl <;> simp [Instr.target?]

/-- From a line of the trap the run goes on at the next one, and from the last it does not. -/
theorem step_trap {k n : Nat} (hc : CodeAt a k (trapCode n)) (hk : k ≤ s.line)
    (hlt : s.line < k + 7) (hs : step H s = some (.next t)) : k ≤ t.line ∧ t.line < k + 7 := by
  obtain ⟨j, hj⟩ := Nat.exists_eq_add_of_le hk
  have hjlt : j < (trapCode n).length := by
    change j < 7
    omega
  have hline := getElem?_of_codeAt hc hjlt
  rw [← hj] at hline
  have hnext : t.line = s.line + 1 := by
    rcases step_cases hs with ⟨l, _, rfl⟩ | ⟨i, hi, he⟩
    · rfl
    · have hmem : .instr i ∈ trapCode n := by
        rw [hi] at hline
        rw [Option.some.inj hline]
        exact List.getElem_mem _
      obtain ⟨htarget, hcall, hret⟩ := trapCode_passed hmem
      rcases line_of_exec he with h | ⟨l, h | h, _⟩ | h
      · exact h
      · cases htarget.symm.trans h
      · exact absurd h (hcall l)
      · exact absurd h hret
  have hlast : j ≠ 6 := by
    rintro rfl
    have hexit : a.code[s.line]? = some (.instr (.callRoutine .exit)) := hline
    rcases step_cases hs with ⟨l, hl, _⟩ | ⟨i, hi, he⟩
    · cases hl.symm.trans hexit
    · cases hi.symm.trans hexit
      simp only [exec, callRoutine] at he
      split at he <;> cases he
  omega

theorem stateAfter_trap {k n m : Nat} (hc : CodeAt a k (trapCode n)) (hk : k ≤ s.line)
    (hlt : s.line < k + 7) (hs : stateAfter H m s = some t) : k ≤ t.line ∧ t.line < k + 7 := by
  induction m generalizing s with
  | zero =>
    cases hs
    exact ⟨hk, hlt⟩
  | succ m ih =>
    rw [stateAfter] at hs
    split at hs
    · next hstep =>
      have hstay := step_trap hc hk hlt hstep
      exact ih hstay.1 hstay.2 hs
    · cases hs

end Bpl.Machine
