import Bpl.Proofs.Machine.Bounds
import Bpl.Proofs.Stack.Pieces

namespace Bpl.Machine

open Asm Lowering Stack

variable {a : Assembly} {H : Host a} {s t u : State} {i : Instr} {is : List Instr} {n : Nat}

/-- A step from an instruction has its effect, and leaves the stack in its limits. -/
theorem step_instr (hi : a.code[s.line]? = some (.instr i)) (hs : step H s = some (.next t)) :
    exec H s i = some (.next t) ∧ H.limit ≤ t.sp := by
  rw [step, hi] at hs
  obtain ⟨o, ho, hsettle⟩ := Option.map_eq_some_iff.1 hs
  cases o with
  | next u =>
    rw [Host.settle] at hsettle
    split at hsettle
    · cases hsettle
    · next hlimit =>
      cases hsettle
      exact ⟨ho, Int.not_lt.1 hlimit⟩
  | ended e => cases hsettle
  | exhausted => cases hsettle

theorem stateAfter_label {l : Label} (hl : a.code[s.line]? = some (.label l)) :
    stateAfter H (n + 1) s = stateAfter H n s.next := by
  have hstep : step H s = some (.next s.next) := by rw [step, hl]
  rw [stateAfter, hstep]

theorem stateAfter_succ :
    stateAfter H (n + 1) s = some t ↔
      ∃ u, step H s = some (.next u) ∧ stateAfter H n u = some t := by
  rw [stateAfter]
  split
  · next u hu =>
    rw [hu]
    simp
  · next hnone =>
    simp only [reduceCtorEq, false_iff, not_exists, not_and]
    exact fun u hu => absurd hu (hnone u)

theorem stateAfter_step (h : stateAfter H n s = some t) (hs : step H t = some (.next u)) :
    stateAfter H (n + 1) s = some u := by
  rw [stateAfter_add, h]
  exact stateAfter_succ.2 ⟨u, hs, rfl⟩

/-- The first instruction of some code that is run. -/
theorem exec_of_stateAfter (hc : CodeAt a s.line (code (i :: is)))
    (h : stateAfter H (n + 1) s = some t) :
    ∃ u, exec H s i = some (.next u) ∧ H.limit ≤ u.sp ∧ stateAfter H n u = some t := by
  obtain ⟨u, hu, ht⟩ := stateAfter_succ.1 h
  obtain ⟨he, hlimit⟩ := step_instr (codeAt_code_cons.1 hc).1 hu
  exact ⟨u, he, hlimit, ht⟩

theorem pushed_of_push? {v : Int64} (h : s.push? v = some t) (hs : 0 ≤ s.sp) :
    s.sp % 8 = 0 ∧ t = s.pushed v := by
  have hsp : (s.regs .rsp - 8).toInt = s.sp - 8 := Int64.toInt_sub_eight hs
  have haligned : s.sp % 8 = 0 := by
    by_contra hodd
    rw [State.push?, State.store?, if_neg (by omega)] at h
    cases h
  rw [State.push?_of_aligned _ _ hs haligned] at h
  exact ⟨haligned, (Option.some.inj h).symm⟩

theorem pushed_of_exec {src : Operand} (h : exec H s (.push src) = some (.next t))
    (hs : 0 ≤ s.sp) : ∃ v, s.read? H src = some v ∧ s.sp % 8 = 0 ∧ t = (s.pushed v).next := by
  obtain ⟨v, hv, h⟩ := Option.bind_eq_some_iff.1 h
  obtain ⟨u, hu, h⟩ := Option.bind_eq_some_iff.1 h
  cases h
  obtain ⟨haligned, rfl⟩ := pushed_of_push? hu hs
  exact ⟨v, hv, haligned, rfl⟩

theorem loaded_of_exec {x : Address} {r : Reg} (h : exec H s (load x r) = some (.next t)) :
    t = (s.set r (s.mem (s.locate H x).toInt)).next := by
  obtain ⟨v, hv, h⟩ := Option.bind_eq_some_iff.1 h
  cases h
  rw [State.read?, State.load?] at hv
  split at hv
  · cases hv
    rfl
  · cases hv

theorem popped_of_exec {r : Reg} (h : exec H s (.pop r) = some (.next t)) :
    s.sp % 8 = 0 ∧ t = (s.popped r).next := by
  obtain ⟨v, hv, h⟩ := Option.bind_eq_some_iff.1 h
  cases h
  rw [State.load?] at hv
  split at hv
  · next haligned =>
    cases hv
    exact ⟨haligned, rfl⟩
  · cases hv

theorem called_of_exec {l : Label} (h : exec H s (.call l) = some (.next t)) (hs : 0 ≤ s.sp) :
    ∃ k, lineOf? a l = some k ∧ s.sp % 8 = 0 ∧
      t = (s.pushed (H.codeAddress (s.line + 1))).goto k := by
  obtain ⟨u, hu, h⟩ := Option.bind_eq_some_iff.1 h
  obtain ⟨v, hv, h⟩ := Option.bind_eq_some_iff.1 h
  cases h
  obtain ⟨haligned, rfl⟩ := pushed_of_push? hu hs
  obtain ⟨k, hk, rfl⟩ := Option.map_eq_some_iff.1 hv
  exact ⟨k, hk, haligned, rfl⟩

/-- Only jumps, calls and returns lead elsewhere than to the next line. -/
theorem line_of_exec_next (h : exec H s i = some (.next t)) (htarget : i.target? = none)
    (hcall : ∀ l, i ≠ .call l) (hret : i ≠ .ret) : t.line = s.line + 1 := by
  rcases line_of_exec h with h | ⟨l, h | h, _⟩ | h
  · exact h
  · cases htarget.symm.trans h
  · exact absurd h (hcall l)
  · exact absurd h hret

/-- The stack and frame pointers are kept, and so is each word but one that the instruction
stores. -/
structure State.Still (H : Host a) (i : Instr) (s t : State) : Prop where
  rsp : t.regs .rsp = s.regs .rsp
  rbp : t.regs .rbp = s.regs .rbp
  mem : ∀ w, t.mem w = s.mem w ∨ ∃ src x, i = .mov src (.mem x) ∧ (s.locate H x).toInt = w

theorem State.Still.of_set {r : Reg} {v : Int64} (hr : r ≠ .rsp ∧ r ≠ .rbp)
    (hregs : t.regs = (s.set r v).regs) (hmem : t.mem = s.mem) : State.Still H i s t where
  rsp := by rw [hregs, State.set_regs, if_neg hr.1.symm]
  rbp := by rw [hregs, State.set_regs, if_neg hr.2.symm]
  mem := fun w => .inl (congrFun hmem w)

theorem written_of_isStill (hx : isStill i = true) {r : Reg} (hr : i.written? = some r) :
    r ≠ .rsp ∧ r ≠ .rbp := by
  cases i with
  | push | pop | callRoutine | jmp | je | ret | call => cases hx
  | cqto | idiv | set | widen | jae => cases hr
  | _ =>
    have hw := of_decide_eq_true hx
    rw [hr] at hw
    simpa using hw

theorem still_of_jumped {l : Label} (h : t = s.next ∨ s.jump? a l = some t) :
    State.Still H i s t := by
  rcases h with rfl | h
  · exact ⟨rfl, rfl, fun _ => .inl rfl⟩
  · obtain ⟨k, _, rfl⟩ := Option.map_eq_some_iff.1 h
    exact ⟨rfl, rfl, fun _ => .inl rfl⟩

theorem still_of_exec (hx : isStill i = true) (h : exec H s i = some (.next t)) :
    State.Still H i s t := by
  cases i with
  | push | pop | callRoutine | jmp | je | ret | call => cases hx
  | mov src dst =>
    cases dst with
    | imm v => cases h
    | reg r =>
      obtain ⟨v, _, h⟩ := Option.bind_eq_some_iff.1 h
      cases h
      exact .of_set (written_of_isStill hx rfl) rfl rfl
    | mem x =>
      obtain ⟨v, _, h⟩ := Option.bind_eq_some_iff.1 h
      obtain ⟨u, hu, h⟩ := Option.bind_eq_some_iff.1 h
      cases h
      rw [State.store?] at hu
      split at hu
      · cases hu
        refine ⟨rfl, rfl, fun w => ?_⟩
        rw [State.next_mem, State.put_mem]
        split
        · next hw => exact .inr ⟨src, x, rfl, hw.symm⟩
        · exact .inl rfl
      · cases hu
  | mov32 v r | lea x r | neg r | clear r =>
    cases h
    exact .of_set (written_of_isStill hx rfl) rfl rfl
  | op o src r =>
    cases o with
    | cmp =>
      obtain ⟨v, _, h⟩ := Option.bind_eq_some_iff.1 h
      cases h
      exact ⟨rfl, rfl, fun _ => .inl rfl⟩
    | _ =>
      obtain ⟨v, _, h⟩ := Option.bind_eq_some_iff.1 h
      cases h
      exact .of_set (written_of_isStill hx rfl) rfl rfl
  | cqto | widen =>
    cases h
    exact .of_set (by decide) rfl rfl
  | set c =>
    obtain ⟨_, _, h⟩ := Option.bind_eq_some_iff.1 h
    cases h
    exact .of_set (by decide) rfl rfl
  | idiv r =>
    obtain ⟨⟨q, m⟩, _, h⟩ := Option.bind_eq_some_iff.1 h
    cases h
    refine ⟨?_, ?_, fun _ => .inl rfl⟩ <;> simp
  | jae l =>
    obtain ⟨⟨x, y⟩, _, h⟩ := Option.bind_eq_some_iff.1 h
    dsimp only at h
    split at h
    · obtain ⟨v, hv, h⟩ := Option.bind_eq_some_iff.1 h
      cases h
      exact still_of_jumped (.inr hv)
    · cases h
      exact still_of_jumped (l := l) (.inl rfl)

/-- A jump leaves everything but the line as it is. -/
theorem still_of_exec_joint (hx : isJoint (.instr i) = true) (h : exec H s i = some (.next t)) :
    State.Still H i s t := by
  cases i with
  | jmp l =>
    obtain ⟨v, hv, h⟩ := Option.bind_eq_some_iff.1 h
    cases h
    exact still_of_jumped (.inr hv)
  | je l =>
    obtain ⟨⟨x, y⟩, _, h⟩ := Option.bind_eq_some_iff.1 h
    dsimp only at h
    split at h
    · obtain ⟨v, hv, h⟩ := Option.bind_eq_some_iff.1 h
      cases h
      exact still_of_jumped (.inr hv)
    · cases h
      exact still_of_jumped (l := l) (.inl rfl)
  | _ => cases hx

/-- A library function keeps the stack and frame pointers and the stack in use, but for the word
that is read into. -/
theorem kept_of_callRoutine {r : Routine} (h : callRoutine H s r = some (.next t)) :
    t.regs .rsp = s.regs .rsp ∧ t.regs .rbp = s.regs .rbp ∧
      ∀ w, s.sp ≤ w → (r = .scanf → w ≠ (s.regs .rsi).toInt) → t.mem w = s.mem w := by
  have hrsp : (H.called s).regs .rsp = s.regs .rsp := called_regs .rsp (.inl rfl)
  have hrbp : (H.called s).regs .rbp = s.regs .rbp := called_regs .rbp (.inr rfl)
  have hmem : ∀ w, s.sp ≤ w → (H.called s).mem w = s.mem w := fun w hw => called_mem (.inl hw)
  cases r with
  | printf =>
    obtain ⟨piece, _, h⟩ := Option.bind_eq_some_iff.1 h
    cases h
    exact ⟨hrsp, hrbp, fun w hw _ => hmem w hw⟩
  | scanf =>
    obtain ⟨_, _, h⟩ := Option.bind_eq_some_iff.1 h
    split at h
    · cases h
      exact ⟨hrsp, hrbp, fun w hw _ => hmem w hw⟩
    · obtain ⟨u, hu, h⟩ := Option.bind_eq_some_iff.1 h
      cases h
      rw [State.store?] at hu
      split at hu
      · cases hu
        refine ⟨hrsp, hrbp, fun w hw hne => ?_⟩
        change ((H.called s).put (s.regs .rsi).toInt _).mem w = _
        rw [State.put_mem, if_neg (hne rfl), hmem w hw]
      · cases hu
  | exit => cases h

/-- A run through the call of a library function prepares the stack first. -/
theorem prepared_of_stateAfter {r : Routine} (hc : CodeAt a s.line (libraryCall r))
    (h : stateAfter H (n + 4) s = some t) (hroom : H.limit ≤ s.sp) (htop : s.sp ≤ H.top) :
    s.Prepared H s.prepare ∧ stateAfter H n s.prepare = some t := by
  have hlimit := H.limit_nonneg
  have h₁ := (codeAt_code_cons.1 hc).2
  have h₂ := (codeAt_code_cons.1 h₁).2
  have h₃ := (codeAt_code_cons.1 h₂).2
  obtain ⟨s₁, he₁, hl₁, h⟩ := exec_of_stateAfter hc h
  obtain ⟨v, hv, haligned, rfl⟩ := pushed_of_exec he₁ (by omega)
  cases hv
  have hsp₁ := s.sp_pushed (s.regs .rsp) (by omega)
  rw [State.sp_next, hsp₁] at hl₁
  obtain ⟨s₂, he₂, hl₂, h⟩ := exec_of_stateAfter (s := (s.pushed (s.regs .rsp)).next) h₁ h
  obtain ⟨v, hv, _, rfl⟩ := pushed_of_exec he₂ (by rw [State.sp_next]; omega)
  rw [State.read?_pushed (by omega) haligned] at hv
  cases hv
  rw [State.sp_next, State.sp_pushed _ _ (by rw [State.sp_next]; omega), State.sp_next, hsp₁]
    at hl₂
  obtain ⟨s₃, he₃, _, h⟩ := exec_of_stateAfter
    (s := ((s.pushed (s.regs .rsp)).next.pushed (s.regs .rsp)).next) h₂ h
  cases he₃
  obtain ⟨s₄, he₄, _, h⟩ := exec_of_stateAfter h₃ h
  cases he₄
  exact ⟨State.prepared (by omega) htop haligned, h⟩

/-- A library function comes back with the old stack pointer. -/
theorem library_of_stateAfter {r : Routine} (hc : CodeAt a s.line (libraryCall r))
    (h : stateAfter H 6 s = some t) (hroom : H.limit ≤ s.sp) (htop : s.sp ≤ H.top)
    (hr : r = .scanf → s.sp ≤ (s.regs .rsi).toInt) :
    t.line = s.line + 6 ∧ t.regs .rsp = s.regs .rsp ∧ t.regs .rbp = s.regs .rbp ∧
      ∀ w, s.sp ≤ w → (r = .scanf → w ≠ (s.regs .rsi).toInt) → t.mem w = s.mem w := by
  have hlt := H.top_lt
  obtain ⟨hp, h⟩ := prepared_of_stateAfter hc h hroom htop
  have hbelow := hp.below
  have hrsi : s.prepare.regs .rsi = s.regs .rsi := hp.regs .rsi nofun nofun
  have hcall : CodeAt a s.prepare.line (code [.callRoutine r, load (.offset 8 .rsp) .rsp]) :=
    (codeAt_append (c := code [_, _, _, _]).1 hc).2
  obtain ⟨u, hu, _, h⟩ := exec_of_stateAfter hcall h
  have hu : (if s.prepare.mayCall r then callRoutine H s.prepare r else none) = some (.next u) := hu
  split at hu
  · obtain ⟨hrsp, hrbp, hmem⟩ := kept_of_callRoutine hu
    have hline : u.line = s.prepare.line + 1 := line_of_callRoutine hu
    have hload : CodeAt a u.line (code [load (.offset 8 .rsp) .rsp]) := by
      rw [hline]
      exact (codeAt_code_cons.1 hcall).2
    obtain ⟨v, hv, _, h⟩ := exec_of_stateAfter hload h
    cases h
    cases loaded_of_exec hv
    have hplace : (u.regs .rsp + Int64.ofInt 8).toInt = s.prepare.sp + 8 := by
      rw [hrsp]
      exact Int64.toInt_add_eight (by change s.prepare.sp + 8 < _; omega)
    refine ⟨?_, ?_, hrbp.trans (hp.regs .rbp nofun nofun), fun w hw hne => ?_⟩
    · rw [State.next_line, State.set_line, hline, hp.line]
    · change u.mem (u.regs .rsp + Int64.ofInt 8).toInt = _
      rw [hplace, hmem _ (by omega) ?_, hp.saved]
      intro hscanf
      have hrsi' := hr hscanf
      rw [hrsi]
      omega
    · change u.mem w = _
      rw [hmem w (by omega) (hrsi ▸ hne), hp.mem w (.inl hw)]
  · cases hu

/-- A number is read into a word below the stack, which is free again afterwards. -/
theorem read_of_stateAfter (hc : CodeAt a s.line readCode) (h : stateAfter H 10 s = some t)
    (hroom : H.limit ≤ s.sp) (htop : s.sp ≤ H.top) :
    t.line = s.line + 10 ∧ t.sp = s.sp ∧ t.regs .rbp = s.regs .rbp ∧
      ∀ w, s.sp ≤ w → t.mem w = s.mem w := by
  have hlimit := H.limit_nonneg
  have hlt := H.top_lt
  rw [readCode, codeAt_append, codeAt_append] at hc
  obtain ⟨⟨hc, hcall⟩, hpop⟩ := hc
  have h₁ := (codeAt_code_cons.1 hc).2
  have h₂ := (codeAt_code_cons.1 h₁).2
  obtain ⟨s₁, he₁, hl₁, h⟩ := exec_of_stateAfter hc h
  cases he₁
  obtain ⟨s₂, he₂, _, h⟩ := exec_of_stateAfter h₁ h
  cases he₂
  obtain ⟨s₃, he₃, _, h⟩ := exec_of_stateAfter h₂ h
  cases he₃
  set s₁ := (s.set .rsp (s.regs .rsp - 8)).spoilFlags.next with hs₁
  have hsp₁ : s₁.sp = s.sp - 8 := Int64.toInt_sub_eight (by change 0 ≤ s.sp; omega)
  set s₃ := ((s₁.set .rsi (s₁.regs .rsp)).next.set .rdi (H.dataAddress .readFormat)).next
    with hs₃
  have hsp₃ : s₃.sp = s.sp - 8 := hsp₁
  have hrsi : (s₃.regs .rsi).toInt = s.sp - 8 := hsp₁
  rw [stateAfter_add 6 1] at h
  obtain ⟨s₄, h₄, h⟩ := Option.bind_eq_some_iff.1 h
  obtain ⟨hline, hrsp, hrbp, hmem⟩ := library_of_stateAfter (s := s₃) hcall h₄ (by omega)
    (by omega) fun _ => by omega
  have hline : s₄.line = s.line + 9 := hline
  have hsp₄ : s₄.sp = s.sp - 8 := (congrArg Int64.toInt hrsp).trans hsp₁
  have hpop : CodeAt a s₄.line (code [.pop .rax]) := by
    rw [hline]
    exact hpop
  obtain ⟨u, he, _, h⟩ := exec_of_stateAfter hpop h
  cases h
  obtain ⟨_, rfl⟩ := popped_of_exec he
  refine ⟨?_, ?_, ?_, fun w hw => ?_⟩
  · rw [State.next_line, State.popped_line, hline]
  · change (s₄.regs .rsp + 8).toInt = s.sp
    rw [Int64.toInt_add_eight (by change s₄.sp + 8 < _; omega)]
    change s₄.sp + 8 = s.sp
    omega
  · exact hrbp
  · change s₄.mem w = _
    rw [hmem w (by omega) fun _ => by omega]
    rfl

end Bpl.Machine
