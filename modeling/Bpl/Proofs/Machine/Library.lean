import Bpl.Proofs.Machine.Run

namespace Bpl.Machine

open Asm Lowering

variable {a : Assembly} {H : Host a} {low : Int} {P : Outcome → Prop} {s t : State}

/-- The stack lies apart from the global variables. -/
theorem Host.isData_eq_false {z : Int} (hl : H.limit ≤ z) (ht : z < H.top + 8) :
    H.isData z = false := by
  rw [Host.isData, List.any_eq_false]
  intro g hg
  have hs := H.global_stack g hg
  simp only [decide_eq_true_eq]
  omega

/-- Everything that a library function keeps and a caller sees. -/
structure State.Alike (H : Host a) (s t : State) : Prop where
  rsp : t.regs .rsp = s.regs .rsp
  rbp : t.regs .rbp = s.regs .rbp
  mem : ∀ w, s.sp ≤ w ∨ H.isData w → t.mem w = s.mem w

/-- The stack is aligned for a library function, and the old stack pointer is found above. -/
structure State.Prepared (H : Host a) (s t : State) : Prop where
  line : t.line = s.line + 4
  regs : ∀ r, r ≠ .rsp → r ≠ .rax → t.regs r = s.regs r
  rax : t.regs .rax = 0
  aligned : t.sp % 16 = 0
  below : t.sp ≤ s.sp - 16
  above : s.sp - 24 ≤ t.sp
  saved : t.mem (t.sp + 8) = s.regs .rsp
  mem : ∀ w, s.sp ≤ w ∨ H.isData w → t.mem w = s.mem w
  input : t.input = s.input
  output : t.output = s.output

/-- The word that was pushed last is found where the stack pointer tells. -/
theorem State.read?_pushed {v : Int64} (h : 0 ≤ s.sp) (ha : s.sp % 8 = 0) :
    (s.pushed v).next.read? H (.mem (.direct .rsp)) = some v := by
  have hsp : (s.pushed v).next.sp = s.sp - 8 := s.sp_pushed v h
  change (s.pushed v).next.load? ((s.pushed v).next.regs .rsp) = _
  rw [State.load?_of_aligned _ (by change (s.pushed v).next.sp % 8 = 0; omega)]
  change some ((s.pushed v).mem (s.pushed v).next.sp) = _
  rw [s.mem_pushed v _ h, if_pos hsp]

/-- Two copies of the stack pointer are pushed, and it is aligned. -/
def State.prepare (s : State) : State :=
  let t := ((s.pushed (s.regs .rsp)).next.pushed (s.regs .rsp)).next
  ((t.set .rsp (t.regs .rsp &&& -16)).spoilFlags.next.set .rax 0).spoilFlags.next

theorem State.sp_prepare (h : 0 ≤ s.sp - 16) :
    s.prepare.sp = s.sp - 16 - (s.sp - 16) % 16 := by
  set s₁ := (s.pushed (s.regs .rsp)).next with hs₁
  have hsp₁ : s₁.sp = s.sp - 8 := s.sp_pushed (s.regs .rsp) (by omega)
  set s₂ := (s₁.pushed (s.regs .rsp)).next with hs₂
  have hsp₂ : s₂.sp = s₁.sp - 8 := by
    rw [hs₂, State.sp_next, s₁.sp_pushed (s.regs .rsp) (by omega)]
  have hrsp : s.prepare.regs .rsp = s₂.regs .rsp &&& -16 := by
    simp only [State.prepare, State.next_regs, State.spoilFlags_regs, State.set_regs,
      reduceCtorEq, if_true, if_false, hs₂, hs₁]
  have hmask : (s₂.regs .rsp &&& -16).toInt = s₂.sp - s₂.sp % 16 :=
    Int64.toInt_and_mask (by change 0 ≤ s₂.sp; omega)
  rw [State.sp, hrsp, hmask]
  omega

theorem State.mem_prepare (h : 0 ≤ s.sp - 16) (w : Int) :
    s.prepare.mem w = if w = s.sp - 16 ∨ w = s.sp - 8 then s.regs .rsp else s.mem w := by
  set s₁ := (s.pushed (s.regs .rsp)).next with hs₁
  have hsp₁ : s₁.sp = s.sp - 8 := s.sp_pushed (s.regs .rsp) (by omega)
  have hm₁ : ∀ w, s₁.mem w = if w = s.sp - 8 then s.regs .rsp else s.mem w :=
    fun w => s.mem_pushed (s.regs .rsp) w (by omega)
  change (s₁.pushed (s.regs .rsp)).mem w = _
  rw [s₁.mem_pushed (s.regs .rsp) w (by omega), hm₁, hsp₁]
  split_ifs <;> first | rfl | omega

theorem State.prepared (hroom : H.limit ≤ s.sp - 16) (htop : s.sp ≤ H.top)
    (haligned : s.sp % 8 = 0) : s.Prepared H s.prepare := by
  have hlimit := H.limit_nonneg
  have hsp := State.sp_prepare (s := s) (by omega)
  refine ⟨rfl, ?_, rfl, by omega, by omega, by omega, ?_, ?_, rfl, rfl⟩
  · intro r hr hr'
    simp [State.prepare, hr, hr']
  · rw [State.mem_prepare (by omega), if_pos (by omega)]
  · intro w hw
    rw [State.mem_prepare (by omega), if_neg]
    intro hw'
    rcases hw with hw | hw
    · omega
    · rw [Host.isData_eq_false (by omega) (by omega)] at hw
      cases hw

theorem reaches_prepared {r : Routine} (hc : CodeAt a s.line (libraryCall r))
    (hroom : H.limit ≤ s.sp) (htop : s.sp ≤ H.top) (ha : s.sp % 8 = 0) (hlow : low ≤ s.sp - 24) :
    Reaches H low (State.Prepared H s) s := by
  have hlimit := H.limit_nonneg
  have h₁ := (codeAt_code_cons.1 hc).2
  have h₂ := (codeAt_code_cons.1 h₁).2
  have h₃ := (codeAt_code_cons.1 h₂).2
  refine Leads.push hc rfl (by omega) ha (by omega) fun hl₁ => ?_
  set s₁ := (s.pushed (s.regs .rsp)).next with hs₁
  have hsp₁ : s₁.sp = s.sp - 8 := s.sp_pushed (s.regs .rsp) (by omega)
  have hread : s₁.read? H (.mem (.direct .rsp)) = some (s.regs .rsp) :=
    State.read?_pushed (by omega) ha
  refine Leads.push (s := s₁) h₁ hread (by omega) (by omega) (by omega) fun hl₂ => ?_
  set s₂ := (s₁.pushed (s.regs .rsp)).next with hs₂
  have hp : s.Prepared H s.prepare := State.prepared (by omega) htop ha
  have hlow : low ≤ s.prepare.sp := hlow.trans hp.above
  refine Leads.instr (s := s₂) h₂ rfl hlow fun _ => ?_
  set s₃ := ((s₂.set .rsp (s₂.regs .rsp &&& -16)).spoilFlags.next) with hs₃
  exact Leads.instr (s := s₃) h₃ rfl hlow fun _ => Reaches.here hp

theorem called_regs (r : Reg) (h : r = .rsp ∨ r = .rbp) : (H.called s).regs r = s.regs r :=
  if_pos h

theorem called_mem {w : Int} (h : s.sp ≤ w ∨ H.isData w) : (H.called s).mem w = s.mem w :=
  if_pos h

/-- A library function that does not end the run comes back, with the old stack pointer. -/
theorem Leads.library {r : Routine} (hc : CodeAt a s.line (libraryCall r))
    (hroom : H.limit ≤ s.sp) (htop : s.sp ≤ H.top) (ha : s.sp % 8 = 0) (hlow : low ≤ s.sp - 24)
    (hr : ∀ t, s.Prepared H t → ∃ u, callRoutine H t r = some (.next u) ∧ u.line = t.line + 1 ∧
      u.regs .rsp = t.regs .rsp ∧ u.mem (t.sp + 8) = t.mem (t.sp + 8) ∧
      ∀ x, x.regs .rsp = s.regs .rsp → x.regs .rbp = u.regs .rbp → x.mem = u.mem →
        x.line = s.line + 6 → x.input = u.input → x.output = u.output → Leads H low P x) :
    Leads H low P s := by
  refine Leads.after (reaches_prepared hc hroom htop ha hlow) fun t ht => ?_
  obtain ⟨u, hu, hline, hrsp, hsaved, hnext⟩ := hr t ht
  have h₄ : CodeAt a t.line (code [.callRoutine r, load (.offset 8 .rsp) .rsp]) := by
    rw [ht.line]
    exact (codeAt_append (c := code [_, _, _, _]).1 hc).2
  have hmay : t.mayCall r = true := by
    have haligned : (t.regs .rsp).toInt % 16 = 0 := ht.aligned
    simp [State.mayCall, haligned, ht.rax]
  have hsp : u.sp = t.sp := congrArg Int64.toInt hrsp
  have habove := ht.above
  refine Leads.instr (t := u) h₄ ?_ (by omega) fun hl => ?_
  · rw [exec, if_pos hmay, hu]
  · have h₅ := (codeAt_code_cons.1 h₄).2
    rw [← hline] at h₅
    have hplace : (u.regs .rsp + Int64.ofInt 8).toInt = t.sp + 8 := by
      have := Int64.toInt_add_eight (x := u.regs .rsp) (by
        have hlt := H.top_lt
        have hb := ht.below
        change u.sp + 8 < _
        omega)
      rw [show Int64.ofInt 8 = 8 from rfl, this]
      change u.sp + 8 = _
      rw [hsp]
    have hback : u.mem (u.regs .rsp + Int64.ofInt 8).toInt = s.regs .rsp := by
      rw [hplace, hsaved, ht.saved]
    refine Leads.fetch h₅ ?_ ?_ (hnext _ hback ?_ rfl ?_ rfl rfl)
    · change (u.regs .rsp + Int64.ofInt 8).toInt % 8 = 0
      have := ht.aligned
      omega
    · change low ≤ (u.mem (u.regs .rsp + Int64.ofInt 8).toInt).toInt
      rw [hback]
      change low ≤ s.sp
      omega
    · rfl
    · change u.line + 1 = _
      rw [hline, ht.line]

theorem State.printed?_congr (hd : t.regs .rdi = s.regs .rdi) (hs : t.regs .rsi = s.regs .rsi) :
    t.printed? H = s.printed? H := by
  rw [State.printed?, State.printed?, hd, hs]

section

variable (s)

theorem State.printed?_integer (h : s.regs .rdi = H.dataAddress .integerFormat) :
    s.printed? H = some (.integer (s.regs .rsi)) :=
  if_pos h

theorem State.printed?_string (h : s.regs .rdi = H.dataAddress .stringFormat) :
    s.printed? H = (H.stringAt? (s.regs .rsi)).map .text := by
  have hn := H.formats
  simp only [List.nodup_cons, List.mem_cons, not_or] at hn
  rw [State.printed?, h, if_neg (Ne.symm hn.1.2.1), if_pos rfl]

theorem State.printed?_newline (h : s.regs .rdi = H.dataAddress .newline) :
    s.printed? H = some .newline := by
  have hn := H.formats
  simp only [List.nodup_cons, List.mem_cons, not_or] at hn
  rw [State.printed?, h, if_neg (Ne.symm hn.1.1), if_neg hn.2.1.1, if_pos rfl]

theorem State.printed?_overflow (h : s.regs .rdi = H.dataAddress .overflowMessage) :
    s.printed? H = some .overflow := by
  have hn := H.formats
  simp only [List.nodup_cons, List.mem_cons, not_or] at hn
  rw [State.printed?, h, if_neg (Ne.symm hn.1.2.2.1), if_neg (Ne.symm hn.2.2.1.1),
    if_neg (Ne.symm hn.2.1.2.1), if_pos rfl]

end

theorem Leads.printf {o : Output} (hc : CodeAt a s.line (libraryCall .printf))
    (hroom : H.limit ≤ s.sp) (htop : s.sp ≤ H.top) (ha : s.sp % 8 = 0) (hlow : low ≤ s.sp - 24)
    (ho : s.printed? H = some o)
    (hn : ∀ x, s.Alike H x → x.line = s.line + 6 → x.input = s.input →
      x.output = s.output ++ [o] → Leads H low P x) : Leads H low P s := by
  refine .library hc hroom htop ha hlow fun t ht => ?_
  have hp : t.printed? H = some o := by
    rw [← ho]
    exact State.printed?_congr (ht.regs .rdi nofun nofun) (ht.regs .rsi nofun nofun)
  refine ⟨{ (H.called t).next with output := t.output ++ [o] }, ?_, rfl, ?_, ?_, ?_⟩
  · rw [callRoutine, hp]
    rfl
  · exact called_regs (H := H) .rsp (.inl rfl)
  · exact called_mem (.inl (by omega))
  · intro x hrsp hrbp hmem hline hin hout
    refine hn x ⟨hrsp, ?_, fun w hw => ?_⟩ hline (hin.trans ht.input) ?_
    · have hcalled := called_regs (H := H) (s := t) .rbp (.inr rfl)
      exact (hrbp.trans hcalled).trans (ht.regs .rbp nofun nofun)
    · have hb := ht.below
      have hw' : t.sp ≤ w ∨ H.isData w := hw.imp_left fun h => by omega
      exact (congrFun hmem w).trans ((called_mem hw').trans (ht.mem w hw))
    · exact hout.trans (congrArg (· ++ [o]) ht.output)

theorem Leads.scanf {v : Int64} {rest : List Int64} (hc : CodeAt a s.line (libraryCall .scanf))
    (hroom : H.limit ≤ s.sp) (htop : s.sp ≤ H.top) (ha : s.sp % 8 = 0) (hlow : low ≤ s.sp - 24)
    (hf : s.regs .rdi = H.dataAddress .readFormat) (hz : s.sp ≤ (s.regs .rsi).toInt)
    (hza : (s.regs .rsi).toInt % 8 = 0) (hi : s.input = v :: rest)
    (hn : ∀ x, (s.put (s.regs .rsi).toInt v).Alike H x → x.line = s.line + 6 → x.input = rest →
      x.output = s.output → Leads H low P x) : Leads H low P s := by
  refine .library hc hroom htop ha hlow fun t ht => ?_
  have hrdi : t.regs .rdi = H.dataAddress .readFormat := (ht.regs .rdi nofun nofun).trans hf
  have hrsi : t.regs .rsi = s.regs .rsi := ht.regs .rsi nofun nofun
  have hinput : t.input = v :: rest := ht.input.trans hi
  have hb := ht.below
  set z := (s.regs .rsi).toInt with hzdef
  refine ⟨{ ((H.called t).put z v).next with input := rest }, ?_, rfl, ?_, ?_, ?_⟩
  · have hstore : (H.called t).store? (t.regs .rsi) v = some ((H.called t).put z v) := by
      rw [hrsi]
      exact State.store?_of_aligned _ _ hza
    rw [callRoutine, hinput]
    simp [guard, hrdi, hstore]
  · exact called_regs (H := H) .rsp (.inl rfl)
  · change ((H.called t).put z v).mem (t.sp + 8) = _
    rw [State.put_mem, if_neg (by omega)]
    exact called_mem (.inl (by omega))
  · intro x hrsp hrbp hmem hline hin hout
    refine hn x ⟨hrsp, ?_, fun w hw => ?_⟩ hline hin (hout.trans ht.output)
    · have hcalled := called_regs (H := H) (s := t) .rbp (.inr rfl)
      exact (hrbp.trans hcalled).trans (ht.regs .rbp nofun nofun)
    · have hw : s.sp ≤ w ∨ H.isData w := hw
      have hw' : t.sp ≤ w ∨ H.isData w := hw.imp_left fun h => by omega
      refine (congrFun hmem w).trans ?_
      change ((H.called t).put z v).mem w = _
      rw [State.put_mem, State.put_mem, called_mem hw', ht.mem w hw]

/-- A number is read into a word on the stack, and popped from there. -/
theorem Leads.reads {v : Int64} {rest : List Int64}
    (hc : CodeAt a s.line (code [.op .sub (.imm 8) .rsp, move .rsp .rsi,
      .lea (.label .readFormat) .rdi] ++ libraryCall .scanf ++ code [.pop .rax]))
    (hroom : H.limit ≤ s.sp) (htop : s.sp ≤ H.top) (ha : s.sp % 8 = 0) (hlow : low ≤ s.sp - 32)
    (hi : s.input = v :: rest)
    (hn : ∀ x, s.Alike H x → x.regs .rax = v → x.line = s.line + 10 → x.input = rest →
      x.output = s.output → Leads H low P x) : Leads H low P s := by
  have hlimit := H.limit_nonneg
  obtain ⟨hc, hpop⟩ := codeAt_append.1 hc
  obtain ⟨hc, hcall⟩ := codeAt_append.1 hc
  have h₁ := (codeAt_code_cons.1 hc).2
  have h₂ := (codeAt_code_cons.1 h₁).2
  have h8 : (s.regs .rsp - 8).toInt = s.sp - 8 :=
    Int64.toInt_sub_eight (hlimit.trans hroom)
  -- the word for the number is the lowest on the stack: the rest of it is spared
  have hlow₁ : low ≤ (s.regs .rsp - 8).toInt := by omega
  refine Leads.instr hc rfl hlow₁ fun hl => ?_
  set s₁ := (s.set .rsp (s.regs .rsp - 8)).spoilFlags.next with hs₁
  have hl : H.limit ≤ s.sp - 8 := h8 ▸ hl
  refine Leads.instr (s := s₁) h₁ rfl hlow₁ fun _ => Leads.instr h₂ rfl hlow₁ fun _ => ?_
  set s₂ := (s₁.set .rsi (s₁.regs .rsp)).next.set .rdi (H.dataAddress .readFormat) with hs₂
  have hrsi : (s₂.next.regs .rsi).toInt = s.sp - 8 := h8
  have hsp₂ : s₂.next.sp = s.sp - 8 := h8
  refine Leads.scanf (s := s₂.next) hcall (by omega) (by omega) (by omega) (by omega) rfl ?_ ?_ hi
    fun x hx hline hin hout => ?_
  · rw [hsp₂, hrsi]
  · rw [hrsi]
    omega
  · have hrsp : x.regs .rsp = s.regs .rsp - 8 := hx.rsp
    have hsp : x.sp = s.sp - 8 := (congrArg Int64.toInt hrsp).trans h8
    have hmem : ∀ w, s.sp - 8 ≤ w ∨ H.isData w → x.mem w = if w = s.sp - 8 then v else s.mem w := by
      intro w hw
      rw [hx.mem w (hw.imp_left fun h => hsp₂.trans_le h), State.put_mem, hrsi]
      rfl
    have hpop : CodeAt a x.line (code [.pop .rax]) := by
      rw [hline]
      exact hpop
    have hlt := H.top_lt
    refine Leads.pop hpop nofun (by omega) (by omega) (by omega) ?_
    refine hn _ ⟨?_, hx.rbp, fun w hw => ?_⟩ ?_ ?_ hin hout
    · rw [State.next_regs, State.popped_regs, if_neg nofun, if_pos rfl, hrsp]
      exact Int64.sub_add_cancel _ _
    · rw [State.next_mem, State.popped_mem, hmem w (hw.imp_left fun h => by omega), if_neg]
      rintro rfl
      rcases hw with hw | hw
      · omega
      · rw [Host.isData_eq_false hl (by omega)] at hw
        cases hw
    · rw [State.next_regs, State.popped_regs, if_pos rfl, hmem _ (.inl hsp.ge), if_pos hsp]
    · change x.line + 1 = _
      rw [hline]
      rfl

theorem Leads.lastCalls {out : List Output} (hc : CodeAt a s.line
      (code [.callRoutine .printf, .mov32 1 .rdi, .callRoutine .exit]))
    (hd : s.regs .rdi = H.dataAddress .overflowMessage) (hx : s.regs .rax = 0)
    (ha : s.sp % 16 = 0) (hlow : low ≤ s.sp) (ho : s.output = out) :
    Leads H low (· = .ended ⟨1, out ++ [.overflow]⟩) s := by
  subst ho
  have h₁ := (codeAt_code_cons.1 hc).2
  have h₂ := (codeAt_code_cons.1 h₁).2
  have haligned : (s.regs .rsp).toInt % 16 = 0 := ha
  refine Leads.instr (t := { (H.called s).next with output := s.output ++ [.overflow] }) hc ?_
    hlow fun _ => ?_
  · rw [exec, if_pos (by simp [State.mayCall, hx, haligned]), callRoutine,
      s.printed?_overflow hd]
    rfl
  · refine Leads.instr h₁ rfl hlow fun _ => ?_
    refine Leads.finish h₂ (e := ⟨1, s.output ++ [.overflow]⟩) ?_ rfl
    rw [exec, if_pos (by simp [State.mayCall, Host.called, haligned])]
    rfl

/-- The trap tells that an index fell off its array, and ends the run with the status one. -/
theorem Leads.trap {n : Nat} (hc : CodeAt a s.line (trapCode n)) (hs : 0 ≤ s.sp)
    (hlow : low ≤ s.sp - 16) : Leads H low (· = .ended ⟨1, s.output ++ [.overflow]⟩) s := by
  have h₁ : CodeAt a (s.line + 1) (code [.lea (.label .overflowMessage) .rdi,
      .op .and (.imm (-16)) .rsp, .clear .rax, .callRoutine .printf, .mov32 1 .rdi,
      .callRoutine .exit]) := (codeAt_cons.1 hc).2
  have h₂ := (codeAt_code_cons.1 h₁).2
  have h₃ := (codeAt_code_cons.1 h₂).2
  have h₄ := (codeAt_code_cons.1 h₃).2
  have hmask : (s.regs .rsp &&& -16).toInt = s.sp - s.sp % 16 := Int64.toInt_and_mask hs
  have hlow₁ : low ≤ s.sp := by omega
  have hlow₂ : low ≤ (s.regs .rsp &&& -16).toInt := by omega
  refine Leads.label hc ?_
  refine Leads.instr (s := s.next) h₁ rfl hlow₁ fun _ => ?_
  refine Leads.instr h₂ rfl hlow₂ fun _ => ?_
  refine Leads.instr h₃ rfl hlow₂ fun _ => ?_
  refine Leads.lastCalls h₄ ?_ ?_ ?_ hlow₂ rfl
  · rfl
  · rfl
  · change (s.regs .rsp &&& -16).toInt % 16 = 0
    omega

end Bpl.Machine
