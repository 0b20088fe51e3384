import Bpl.Proofs.Machine.Exec
import Bpl.Proofs.Simulation.Call
import Bpl.Proofs.Stack.Discipline

namespace Bpl.Machine

open Asm Lowering Simulation Stack

variable {a : Assembly} {H : Host a} {s t u : State} {f : Function} {frame : Frame}

theorem length_prologue (frame : Frame) : (prologue frame).length + 1 = bodyLine frame := by
  unfold prologue bodyLine entry room
  rw [length_code, length_code]
  split <;> split <;> rfl

/-- The frame pointer is set, and there is room for the locals below. -/
theorem framed_of_stateAfter (hc : CodeAt a s.line (code [move .rsp .rbp] ++ room frame))
    (hsize : frame.size < 2 ^ 63) (hs : 0 ≤ s.sp)
    (h : stateAfter H ((room frame).length + 1) s = some t) :
    t.line = s.line + 1 + (room frame).length ∧ t.regs .rbp = s.regs .rsp ∧
      t.sp = s.sp - frame.size ∧ t.mem = s.mem ∧ H.limit ≤ t.sp := by
  obtain ⟨hset, hroom⟩ := codeAt_append.1 hc
  obtain ⟨u, hu, hlimit, h⟩ := exec_of_stateAfter hset h
  cases hu
  rw [length_code] at hroom
  unfold room at hroom h ⊢
  split at hroom
  · next hzero =>
    rw [if_pos hzero] at h ⊢
    cases h
    refine ⟨rfl, rfl, ?_, rfl, hlimit⟩
    rw [hzero, Nat.cast_zero, Int.sub_zero]
    rfl
  · next hzero =>
    rw [if_neg hzero] at h ⊢
    obtain ⟨v, hv, hlimit', h⟩ := exec_of_stateAfter (s := (s.set .rbp (s.regs .rsp)).next) hroom h
    cases hv
    cases h
    refine ⟨rfl, rfl, ?_, rfl, hlimit'⟩
    have hn : (Int64.ofNat frame.size).toInt = frame.size := Int64.toInt_ofNat_of_lt hsize
    have hlt := (s.regs .rsp).toInt_lt
    change (s.regs .rsp - Int64.ofNat frame.size).toInt = (s.regs .rsp).toInt - frame.size
    have hreg : 0 ≤ (s.regs .rsp).toInt := hs
    rw [Int64.toInt_sub_of_fits, hn]
    all_goals
      rw [hn]
      omega

theorem exists_stateAfter_framed (hc : CodeAt a s.line (code [move .rsp .rbp] ++ room frame))
    (hsize : frame.size < 2 ^ 63) (hroom : H.limit ≤ s.sp - frame.size) :
    ∃ t, stateAfter H ((room frame).length + 1) s = some t := by
  have hlimit := H.limit_nonneg
  obtain ⟨hset, hsub⟩ := codeAt_append.1 hc
  rw [stateAfter_instr hset rfl (by change H.limit ≤ s.sp; omega)]
  rw [length_code] at hsub
  unfold room at hsub ⊢
  split at hsub
  · next hzero =>
    rw [if_pos hzero]
    exact ⟨_, rfl⟩
  · next hzero =>
    rw [if_neg hzero]
    have hn : (Int64.ofNat frame.size).toInt = frame.size := Int64.toInt_ofNat_of_lt hsize
    have hlt := (s.regs .rsp).toInt_lt
    have hreg : 0 ≤ (s.regs .rsp).toInt := by
      change 0 ≤ s.sp
      omega
    have hsp : (s.regs .rsp - Int64.ofNat frame.size).toInt = s.sp - frame.size := by
      rw [Int64.toInt_sub_of_fits, hn]
      · rfl
      all_goals
        rw [hn]
        omega
    refine ⟨_, (stateAfter_instr (s := (s.set .rbp (s.regs .rsp)).next) hsub rfl ?_).trans rfl⟩
    change H.limit ≤ (s.regs .rsp - Int64.ofNat frame.size).toInt
    rw [hsp]
    exact hroom

/-- A function of the program is entered: its frame pointer is set, and there is room for its
locals. The main function keeps the frame pointer of its caller. -/
structure Opens (f : Function) (s t : State) : Prop where
  line : t.line = s.line + bodyLine (Frame.layout f)
  rbp : (t.regs .rbp).toInt = entryBase f s.sp
  sp : t.sp = entryBase f s.sp - (Frame.layout f).size
  mem : ∀ w, s.sp ≤ w → t.mem w = s.mem w
  saved : f.isMain = true → t.mem (entryBase f s.sp) = s.regs .rbp

theorem codeAt_prologue {x : String} {k : Nat} :
    CodeAt a k (.label (.function x) :: prologue frame) ↔
      a.code[k]? = some (.label (.function x)) ∧
        CodeAt a (k + 1) (code (if frame.isMain then [.push (.reg .rbp)] else [])) ∧
        CodeAt a (k + 1 + if frame.isMain then 1 else 0) (code [move .rsp .rbp] ++ room frame) := by
  have hsplit : prologue frame = code (if frame.isMain then [.push (.reg .rbp)] else []) ++
      (code [move .rsp .rbp] ++ room frame) := by
    simp [prologue, room, code]
  rw [codeAt_cons, hsplit, codeAt_append, length_code]
  split <;> rfl

theorem opens_of_stateAfter {x : String}
    (hc : CodeAt a s.line (.label (.function x) :: prologue (Frame.layout f)))
    (hsize : (Frame.layout f).size < 2 ^ 63) (hs : H.limit ≤ s.sp)
    (h : stateAfter H (bodyLine (Frame.layout f)) s = some t) : Opens f s t ∧ H.limit ≤ t.sp := by
  have hlimit := H.limit_nonneg
  obtain ⟨hlabel, hpush, hframe⟩ := codeAt_prologue.1 hc
  have hmain : (Frame.layout f).isMain = f.isMain := rfl
  rw [bodyLine, entry, hmain] at h
  rw [hmain] at hpush hframe
  cases hf : f.isMain with
  | true =>
    -- `main` pushes the frame pointer of its caller itself
    rw [hf, if_pos rfl, Nat.add_comm] at h
    rw [hf, if_pos rfl] at hpush hframe
    rw [stateAfter_label hlabel] at h
    obtain ⟨s₂, hs₂, hl₂, h⟩ := exec_of_stateAfter (s := s.next) hpush h
    obtain ⟨v, hv, _, rfl⟩ := pushed_of_exec hs₂ (by rw [State.sp_next]; omega)
    cases hv
    rw [State.next_regs] at hl₂ h
    have hsp := s.next.sp_pushed (s.regs .rbp) (by rw [State.sp_next]; omega)
    rw [State.sp_next] at hsp hl₂
    obtain ⟨hline, hrbp, hsp', hmem, hlimit'⟩ := framed_of_stateAfter
      (s := (s.next.pushed (s.regs .rbp)).next) hframe hsize (by rw [State.sp_next]; omega) h
    have hbase : entryBase f s.sp = s.sp - 8 := by rw [entryBase, hf, if_pos rfl]
    have hword : ∀ w, t.mem w = if w = s.sp - 8 then s.regs .rbp else s.mem w := by
      intro w
      rw [hmem, State.next_mem, s.next.mem_pushed _ _ (by rw [State.sp_next]; omega)]
      rfl
    refine ⟨⟨?_, ?_, ?_, fun w hw => ?_, fun _ => ?_⟩, hlimit'⟩
    · rw [hline, bodyLine, entry, hmain, hf, if_pos rfl]
      simp only [State.next_line, State.pushed_line]
      omega
    · rw [hrbp, hbase, ← hsp]
      rfl
    · rw [hsp', State.sp_next, hsp, hbase]
    · rw [hword, if_neg (by omega)]
    · rw [hword, if_pos hbase]
  | false =>
    rw [hf, if_neg Bool.false_ne_true, Nat.add_comm] at h
    rw [hf, if_neg Bool.false_ne_true] at hframe
    rw [stateAfter_label hlabel] at h
    obtain ⟨hline, hrbp, hsp', hmem, hlimit'⟩ := framed_of_stateAfter (s := s.next) hframe hsize
      (by rw [State.sp_next]; omega) h
    have hbase : entryBase f s.sp = s.sp := by rw [entryBase, hf, if_neg Bool.false_ne_true]
    refine ⟨⟨?_, ?_, ?_, fun w _ => congrFun hmem w, fun hf' => ?_⟩, hlimit'⟩
    · rw [hline, bodyLine, entry, hmain, hf, if_neg Bool.false_ne_true, State.next_line]
      omega
    · rw [hrbp, hbase]
      rfl
    · rw [hsp', hbase]
      rfl
    · cases hf.symm.trans hf'

/-- A function is entered if there is room for its frame. -/
theorem exists_opens {x : String}
    (hc : CodeAt a s.line (.label (.function x) :: prologue (Frame.layout f)))
    (hsize : (Frame.layout f).size < 2 ^ 63) (haligned : s.sp % 8 = 0)
    (hroom : H.limit ≤ entryBase f s.sp - (Frame.layout f).size) :
    ∃ t, stateAfter H (bodyLine (Frame.layout f)) s = some t ∧ Opens f s t := by
  have hlimit := H.limit_nonneg
  have hbase : entryBase f s.sp ≤ s.sp := by
    rw [entryBase]
    split <;> omega
  have hsome : ∃ t, stateAfter H (bodyLine (Frame.layout f)) s = some t := by
    obtain ⟨hlabel, hpush, hframe⟩ := codeAt_prologue.1 hc
    have hmain : (Frame.layout f).isMain = f.isMain := rfl
    rw [hmain] at hpush hframe
    rw [entryBase] at hroom
    rw [bodyLine, entry, hmain]
    split at hroom
    · next hf =>
      rw [if_pos hf, Nat.add_comm, stateAfter_label hlabel]
      rw [if_pos hf] at hpush hframe
      have hsp := s.next.sp_pushed (s.regs .rbp) (by rw [State.sp_next]; omega)
      rw [State.sp_next] at hsp
      have he : exec H s.next (.push (.reg .rbp)) =
          some (.next (s.next.pushed (s.regs .rbp)).next) :=
        exec_push rfl (by rw [State.sp_next]; omega) haligned
      rw [stateAfter_instr (s := s.next) hpush he (by rw [State.sp_next]; omega)]
      exact exists_stateAfter_framed (s := (s.next.pushed (s.regs .rbp)).next) hframe hsize
        (by rw [State.sp_next]; omega)
    · next hf =>
      rw [if_neg hf, Nat.add_comm, stateAfter_label hlabel]
      rw [if_neg hf] at hframe
      exact exists_stateAfter_framed (s := s.next) hframe hsize (by rw [State.sp_next]; omega)
  obtain ⟨t, ht⟩ := hsome
  exact ⟨t, ht, (opens_of_stateAfter hc hsize (by omega) ht).1⟩

/-- A function is left: the stack is where it was when the function was entered. -/
theorem left_of_stateAfter {r : Int} (hc : CodeAt a s.line (epilogue (Frame.layout f)))
    (hrbp : (s.regs .rbp).toInt = entryBase f r) (htop : r ≤ H.top)
    (h : stateAfter H (leave (Frame.layout f)).length s = some t) :
    t.line = s.line + (leave (Frame.layout f)).length ∧ t.sp = r ∧ t.mem = s.mem := by
  have hlt := H.top_lt
  have hmain : (Frame.layout f).isMain = f.isMain := rfl
  rw [epilogue_eq, codeAt_append] at hc
  obtain ⟨hc, -⟩ := hc
  rw [leave, hmain] at hc h ⊢
  rw [entryBase] at hrbp
  split at hrbp
  · next hf =>
    rw [if_pos hf] at hc h ⊢
    simp only [length_code, List.length_cons, List.length_nil] at h ⊢
    obtain ⟨s₁, h₁, _, h⟩ := exec_of_stateAfter hc h
    cases h₁
    have hc₁ := (codeAt_code_cons.1 hc).2
    obtain ⟨s₂, h₂, _, h⟩ := exec_of_stateAfter (s := (s.set .rax 0).spoilFlags.next) hc₁ h
    cases h₂
    set s₂ := ((s.set .rax 0).spoilFlags.next.set .rsp (s.regs .rbp)).next with hs₂
    have hc₂ := (codeAt_code_cons.1 hc₁).2
    obtain ⟨s₃, h₃, _, h⟩ := exec_of_stateAfter (s := s₂) hc₂ h
    cases h
    obtain ⟨_, rfl⟩ := popped_of_exec h₃
    have hsp₂ : s₂.sp = r - 8 := hrbp
    refine ⟨rfl, ?_, rfl⟩
    rw [State.sp_next, s₂.sp_popped (by decide) (by omega), hsp₂, Int.sub_add_cancel]
  · next hf =>
    rw [if_neg hf] at hc h ⊢
    obtain ⟨s₁, h₁, _, h⟩ := exec_of_stateAfter hc h
    cases h₁
    cases h
    exact ⟨rfl, hrbp, rfl⟩

variable {l : Label} {k : Nat}

/-- A call pushes the frame pointer of the caller and the return address. -/
theorem enters_of_stateAfter (hc : CodeAt a s.line (callCode l)) (hroom : H.limit ≤ s.sp)
    (htop : s.sp ≤ H.top) (h : stateAfter H 2 s = some t) :
    lineOf? a l = some t.line ∧ s.sp % 8 = 0 ∧ t.regs .rbp = s.regs .rbp ∧ Enters H s t := by
  have hlimit := H.limit_nonneg
  obtain ⟨s₁, h₁, hl₁, h⟩ := exec_of_stateAfter hc h
  obtain ⟨v, hv, haligned, rfl⟩ := pushed_of_exec h₁ (by omega)
  cases hv
  set s₁ := (s.pushed (s.regs .rbp)).next with hs₁
  have hsp₁ : s₁.sp = s.sp - 8 := by rw [hs₁, State.sp_next, s.sp_pushed _ (by omega)]
  obtain ⟨s₂, h₂, hl₂, h⟩ := exec_of_stateAfter (s := s₁) (codeAt_code_cons.1 hc).2 h
  cases h
  obtain ⟨k, hk, _, rfl⟩ := called_of_exec h₂ (by omega)
  rw [State.sp_goto, s₁.sp_pushed _ (by omega)] at hl₂
  have hrbp : ((s₁.pushed (H.codeAddress (s₁.line + 1))).goto k).regs .rbp = s.regs .rbp := by
    rw [State.goto_regs, State.pushed_regs, if_neg (by decide), hs₁, State.next_regs,
      State.pushed_regs, if_neg (by decide)]
  exact ⟨hk, haligned, hrbp, enters_calling k (by omega) htop⟩

theorem exists_enters (hc : CodeAt a s.line (callCode l)) (hk : lineOf? a l = some k)
    (haligned : s.sp % 8 = 0) (hroom : H.limit ≤ s.sp - 16) :
    ∃ t, stateAfter H 2 s = some t := by
  have hlimit := H.limit_nonneg
  have hpush : exec H s (.push (.reg .rbp)) = some (.next (s.pushed (s.regs .rbp)).next) :=
    exec_push rfl (by omega) haligned
  have hsp := s.sp_pushed (s.regs .rbp) (by omega)
  rw [stateAfter_instr hc hpush (by rw [State.sp_next]; omega)]
  set s₁ := (s.pushed (s.regs .rbp)).next with hs₁
  have hsp₁ : s₁.sp = s.sp - 8 := hsp
  have hcall : exec H s₁ (.call l) =
      some (.next ((s₁.pushed (H.codeAddress (s₁.line + 1))).goto k)) := by
    rw [exec, State.push?_of_aligned _ _ (by omega) (by omega), Option.bind_eq_bind,
      Option.bind_some, State.jump?, hk]
    rfl
  have hsp₂ := s₁.sp_pushed (H.codeAddress (s₁.line + 1)) (by omega)
  rw [stateAfter_instr (s := s₁) (codeAt_code_cons.1 hc).2 hcall
    (by rw [State.sp_goto]; omega)]
  exact ⟨_, rfl⟩

/-- The return from a call leads behind it, if the words that were pushed for it are kept. -/
theorem exists_step_ret (hc : CodeAt a s.line (callCode l)) (he : Enters H s t)
    (hret : a.code[u.line]? = some (.instr .ret)) (hsp : u.sp = t.sp)
    (hkept : u.mem t.sp = t.mem t.sp) (haligned : s.sp % 8 = 0) (htop : s.sp ≤ H.top) :
    ∃ v, step H u = some (.next v) ∧ v.line = s.line + 2 ∧ v.sp = s.sp - 8 ∧ v.mem = u.mem := by
  have hlt := H.top_lt
  have hroom := he.room
  have hsp' := he.sp
  have hpop := (codeAt_code_cons.1 (codeAt_code_cons.1 (codeAt_code_cons.1 hc).2).2).1
  have hload : u.load? (u.regs .rsp) = some (H.codeAddress (s.line + 1 + 1)) := by
    rw [State.load?_of_aligned _ (by change u.sp % 8 = 0; omega), ← he.returnAddress, ← hkept,
      ← hsp]
    rfl
  have hexec : exec H u .ret =
      some (.next ((u.set .rsp (u.regs .rsp + 8)).goto (s.line + 1 + 1))) := by
    rw [exec, hload, Option.bind_eq_bind, Option.bind_some, H.lineAt_codeAddress _ _ hpop]
    rfl
  have hsp'' : ((u.set .rsp (u.regs .rsp + 8)).goto (s.line + 1 + 1)).sp = u.sp + 8 :=
    Int64.toInt_add_eight (by change u.sp + 8 < _; omega)
  refine ⟨_, step_of_exec hret hexec ?_, rfl, ?_, rfl⟩ <;> omega

/-- Behind the return, the frame pointer of the caller is taken from the stack, and then the
arguments are. -/
theorem exists_restored {es : List Expr}
    (hc : CodeAt a s.line (code ([.pop .rbp] ++ if es.isEmpty then []
      else [.op .add (.imm (Int64.ofNat (Ty.wordSize * es.length))) .rsp])))
    (haligned : s.sp % 8 = 0) (hroom : H.limit ≤ s.sp)
    (htop : s.sp + 8 + 8 * es.length ≤ H.top) :
    ∃ t, stateAfter H (if es.isEmpty then 1 else 2) s = some t ∧
      t.line = s.line + (if es.isEmpty then 1 else 2) ∧ t.sp = s.sp + 8 + 8 * es.length ∧
        t.regs .rbp = s.mem s.sp := by
  have hlt := H.top_lt
  have hlimit := H.limit_nonneg
  have hsp := s.sp_popped (r := .rbp) (by decide) (by omega)
  have hrbp : (s.popped .rbp).regs .rbp = s.mem s.sp := by rw [State.popped_regs, if_pos rfl]
  have hpop : ∀ n, stateAfter H (n + 1) s = stateAfter H n (s.popped .rbp).next := fun n =>
    stateAfter_instr hc (exec_pop haligned) (by rw [State.sp_next]; omega)
  cases es with
  | nil =>
    refine ⟨(s.popped .rbp).next, hpop 0, rfl, ?_, hrbp⟩
    rw [State.sp_next, hsp, List.length_nil, Nat.cast_zero, Int.mul_zero, Int.add_zero]
  | cons e es =>
    set n := (e :: es).length with hn
    have hnat : (Int64.ofNat (Ty.wordSize * n)).toInt = 8 * n := by
      rw [Int64.toInt_ofNat_of_lt] <;> simp only [Ty.wordSize] <;> omega
    set s₁ := (s.popped .rbp).next with hs₁
    have hsp₁ : (s₁.regs .rsp).toInt = s.sp + 8 := hsp
    set s₂ := (s₁.set .rsp (s₁.regs .rsp + Int64.ofNat (Ty.wordSize * n))).spoilFlags.next
      with hs₂
    have hsp₂ : s₂.sp = s.sp + 8 + 8 * n := by
      change (s₁.regs .rsp + Int64.ofNat (Ty.wordSize * n)).toInt = _
      rw [Int64.toInt_add_of_fits, hnat, hsp₁]
      all_goals
        rw [hnat]
        omega
    refine ⟨s₂, ?_, rfl, hsp₂, hrbp⟩
    have hadd := (codeAt_code_cons.1 hc).2
    exact (hpop 1).trans (stateAfter_instr (s := s₁) (t := s₂) hadd rfl (by omega))

end Bpl.Machine
