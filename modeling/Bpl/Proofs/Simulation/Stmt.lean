import Bpl.Proofs.Simulation.Call
import Bpl.Proofs.Simulation.Expr

namespace Bpl.Simulation

open Asm Machine
open Lowering (EmitsValue EmitsStmt EmitsBlock EmitsStmts code move libraryCall unlessTrue formatOf
  epilogue)

variable {a : Assembly} {H : Host a} {p : Program} {f : Function} {low b : Int} {m m' : Store}
  {s s₁ t : State} {fuel depth n k : Nat} {c d d' : Code} {P : Outcome → Prop}

theorem Completes.of_continues {r : Option (Option Value)} {i : Nat}
    (h : Completes H p f b s₁ k r m' t) (hc : Continues H p f b s n m s₁) (hi : n + k = i) :
    Completes H p f b s i r m' t := by
  subst hi
  cases r with
  | none => exact hc.trans h
  | some v => exact Returns.of_continues h hc

/-- The label at the end of a statement is passed. -/
theorem Follows.label {r : Except Stop (Option (Option Value) × Store)} {l : Label}
    (h : Follows H low r (Completes H p f b s₁ k) s₁) (hf : f ∈ p.functions)
    (hs : Stands H f b s₁) (hc : CodeAt a (s₁.line + k) [.label l]) :
    Follows H low r (Completes H p f b s₁ (k + 1)) s₁ := by
  refine h.extend fun x m t ht => ?_
  cases x with
  | none =>
    have ht : Continues H p f b s₁ k m t := ht
    rw [← ht.line] at hc
    have hi : Inside H p f b m t := ⟨hf, hs.after ht, ht.holds⟩
    refine Leads.label hc (Leads.here ⟨t.next, rfl, ?_⟩)
    exact ht.trans (hi.continues rfl ⟨rfl, rfl, rfl, rfl, rfl⟩)
  | some v => exact Leads.here ⟨t, rfl, ht⟩

theorem lineOf?_numbered (hm : p.Makes a) {i : Nat} (hc : CodeAt a k (.label (.numbered i) :: c)) :
    lineOf? a (.numbered i) = some k :=
  hm.numbered i k (codeAt_cons.1 hc).1

/-- A condition is tested, and what depends on it is skipped if it is false. -/
theorem leads_test {i : Nat} {x : Int64} (hc : CodeAt a s.line (unlessTrue i))
    (hlow : low ≤ s.sp) (hx : s.regs .rax = x) (hk : lineOf? a (.numbered i) = some k)
    (hz : x = 0 → ∀ t, t.line = k → s.SameMemory t → Leads H low P t)
    (hnz : x ≠ 0 → ∀ t, t.line = s.line + 2 → s.SameMemory t → Leads H low P t) :
    Leads H low P s := by
  have h₁ := (codeAt_code_cons.1 hc).2
  refine Leads.instr hc rfl hlow fun _ => ?_
  refine Leads.je h₁ hk hlow (x := s.regs .rax) (y := 0) rfl ?_ ?_
  · intro h
    exact hz (hx ▸ h) _ rfl ⟨rfl, rfl, rfl, rfl, rfl⟩
  · intro h
    exact hnz (hx ▸ h) _ rfl ⟨rfl, rfl, rfl, rfl, rfl⟩

section

variable {l : Location}

theorem follows_ifThen (hm : p.Makes a) (hn : Simulates H p low fuel) {e : Expr} {yes : Stmt}
    {last : Nat} (hi : Inside H p f b m s)
    (hr : Roomy p low depth (Expr.nodesOfList (Stmt.ifThen l e yes).exprs).length s)
    (hx : ∀ u ∈ (Stmt.ifThen l e yes).exprs, ∀ x ∈ u.nodes, x.LinkedIn p f)
    (he : EmitsValue a (Frame.layout f) e c) (hy : EmitsStmt a (Frame.layout f) yes d)
    (hc : CodeAt a s.line (c ++ unlessTrue last ++ d ++ [.label (.numbered last)])) :
    Follows H low ((Semantics.stmt p H.order (fuel + 1) depth (.ifThen l e yes)).run m)
      (Completes H p f b s (c.length + 2 + d.length + 1)) s := by
  rw [Stmt.exprs, List.forall_mem_cons] at hx
  rw [Stmt.exprs, Expr.nodesOfList, List.length_append] at hr
  have htest : (unlessTrue last).length = 2 := rfl
  simp only [codeAt_append, List.length_append, htest, ← Nat.add_assoc] at hc
  obtain ⟨⟨⟨hcond, htest⟩, hyes⟩, hlast⟩ := hc
  rw [Semantics.stmt]
  refine (hn.value hi (hr.of_sp rfl (by omega)) hx.1 he hcond).bind fun v m₁ s₁ ⟨k₁, e₁⟩ => ?_
  refine .integer fun x hx' => ?_
  have hi₁ := hi.after k₁
  rw [← k₁.line] at htest hyes hlast
  refine leads_test htest (hr.after k₁).low_le (e₁ _ hx').eq (lineOf?_numbered hm hlast) ?_ ?_
  · intro hz s₂ hline hs₂
    rw [if_pos hz]
    have hlast : CodeAt a s₂.line [.label (.numbered last)] := by
      rw [hline]
      exact hlast
    have k₂ : Continues H p f b s₁ (2 + d.length) m₁ s₂ :=
      hi₁.continues (by rw [hline, Nat.add_assoc]) hs₂
    have k₃ := k₂.trans ((hi₁.after k₂).continues (t := s₂.next) rfl ⟨rfl, rfl, rfl, rfl, rfl⟩)
    have hend : Completes H p f b s₁ (2 + d.length + 1) none m₁ s₂.next := k₃
    exact Leads.label hlast (Follows.pure (hend.of_continues k₁ (by omega)))
  · intro hnz s₂ hline hs₂
    rw [if_neg hnz]
    have k₂ := k₁.trans (hi₁.continues hline hs₂)
    have hi₂ := hi.after k₂
    rw [← hline] at hyes hlast
    have hr₂ := hr.of_sp k₂.sp (Nat.le_add_left _ _)
    refine Follows.extend
      (Follows.label (hn.stmt hi₂ hr₂ hx.2 hy hyes) hi.function hi₂.stands hlast) ?_
    exact fun r m t ht => Leads.here ⟨t, rfl, ht.of_continues k₂ (by omega)⟩

theorem follows_ifElse (hm : p.Makes a) (hn : Simulates H p low fuel) {e : Expr} {yes no : Stmt}
    {other last : Nat} (hi : Inside H p f b m s)
    (hr : Roomy p low depth (Expr.nodesOfList (Stmt.ifElse l e yes no).exprs).length s)
    (hx : ∀ u ∈ (Stmt.ifElse l e yes no).exprs, ∀ x ∈ u.nodes, x.LinkedIn p f)
    (he : EmitsValue a (Frame.layout f) e c) (hy : EmitsStmt a (Frame.layout f) yes d)
    (hno : EmitsStmt a (Frame.layout f) no d')
    (hc : CodeAt a s.line (c ++ unlessTrue other ++ d ++ code [.jmp (.numbered last)] ++
      [.label (.numbered other)] ++ d' ++ [.label (.numbered last)])) :
    Follows H low ((Semantics.stmt p H.order (fuel + 1) depth (.ifElse l e yes no)).run m)
      (Completes H p f b s (c.length + 2 + d.length + 1 + d'.length + 2)) s := by
  rw [Stmt.exprs, List.forall_mem_cons, List.forall_mem_append] at hx
  rw [Stmt.exprs, Expr.nodesOfList, Expr.nodesOfList_append, List.length_append,
    List.length_append] at hr
  have htest : (unlessTrue other).length = 2 := rfl
  simp only [codeAt_append, List.length_append, htest, length_code, List.length_cons,
    List.length_nil, Nat.zero_add, ← Nat.add_assoc] at hc
  obtain ⟨⟨⟨⟨⟨⟨hcond, htest⟩, hyes⟩, hjump⟩, hother⟩, hnoCode⟩, hlast⟩ := hc
  rw [Semantics.stmt]
  refine (hn.value hi (hr.of_sp rfl (by omega)) hx.1 he hcond).bind fun v m₁ s₁ ⟨k₁, e₁⟩ => ?_
  refine .integer fun x hx' => ?_
  have hi₁ := hi.after k₁
  rw [← k₁.line] at htest hyes hjump hother hnoCode hlast
  refine leads_test htest (hr.after k₁).low_le (e₁ _ hx').eq (lineOf?_numbered hm hother) ?_ ?_
  · intro hz s₂ hline hs₂
    rw [if_pos hz]
    have k₂ : Continues H p f b s₁ (2 + d.length + 1) m₁ s₂ :=
      hi₁.continues (by rw [hline]; omega) hs₂
    rw [← hline] at hother hnoCode hlast
    have k₃ := k₁.trans (k₂.trans ((hi₁.after k₂).continues (t := s₂.next) rfl
      ⟨rfl, rfl, rfl, rfl, rfl⟩))
    have hi₃ := hi.after k₃
    refine Leads.label hother ?_
    have hr₃ := hr.of_sp (k := (Expr.nodesOfList no.exprs).length) k₃.sp (by omega)
    refine Follows.extend (Follows.label (hn.stmt hi₃ hr₃ hx.2.2 hno hnoCode) hi.function hi₃.stands
      hlast) ?_
    exact fun r m t ht => Leads.here ⟨t, rfl, ht.of_continues k₃ (by omega)⟩
  · intro hnz s₂ hline hs₂
    rw [if_neg hnz]
    have k₂ := k₁.trans (hi₁.continues hline hs₂)
    have hi₂ := hi.after k₂
    rw [← hline] at hyes hjump hlast
    have hr₂ := hr.of_sp (k := (Expr.nodesOfList yes.exprs).length) k₂.sp (by omega)
    refine Follows.extend (hn.stmt hi₂ hr₂ hx.2.1 hy hyes) fun r m₃ s₃ h₃ => ?_
    cases r with
    | some v => exact Leads.here ⟨s₃, rfl, Returns.of_continues h₃ k₂⟩
    | none =>
      have k₃ := k₂.trans h₃
      have hi₃ := hi.after k₃
      have hjump : CodeAt a s₃.line (code [.jmp (.numbered last)]) := by
        rw [Continues.line h₃]
        exact hjump
      -- the jump behind the branch leads over the other one
      have hlow := (hr.after k₃).low_le
      refine Leads.jump hjump (lineOf?_numbered hm hlast) hlow (Leads.label hlast ?_)
      set t := (s₃.goto (s₂.line + d.length + 1 + 1 + d'.length)).next with ht
      have hline₃ : s₃.line = s₂.line + d.length := Continues.line h₃
      have hline₄ : t.line = s₃.line + (1 + 1 + d'.length + 1) := by
        rw [ht, State.next_line, State.goto_line, hline₃]
        omega
      have k₄ := hi₃.continues hline₄ ⟨rfl, rfl, rfl, rfl, rfl⟩
      have hend : Completes H p f b s₃ (1 + 1 + d'.length + 1) none m₃ t := k₄
      exact Leads.here ⟨t, rfl, hend.of_continues k₃ (by omega)⟩

theorem follows_whileDo (hm : p.Makes a) (hn : Simulates H p low fuel) {e : Expr} {body : Stmt}
    {top last : Nat} (hi : Inside H p f b m s)
    (hr : Roomy p low depth (Expr.nodesOfList (Stmt.whileDo l e body).exprs).length s)
    (hx : ∀ u ∈ (Stmt.whileDo l e body).exprs, ∀ x ∈ u.nodes, x.LinkedIn p f)
    (he : EmitsValue a (Frame.layout f) e c) (hb : EmitsStmt a (Frame.layout f) body d)
    (hc : CodeAt a s.line ([.label (.numbered top)] ++ c ++ unlessTrue last ++ d ++
      code [.jmp (.numbered top)] ++ [.label (.numbered last)])) :
    Follows H low ((Semantics.stmt p H.order (fuel + 1) depth (.whileDo l e body)).run m)
      (Completes H p f b s (c.length + 2 + d.length + 3)) s := by
  have hall : EmitsStmt a (Frame.layout f) (.whileDo l e body)
      ([.label (.numbered top)] ++ c ++ unlessTrue last ++ d ++ code [.jmp (.numbered top)] ++
        [.label (.numbered last)]) := .whileDo he hb
  have hcode := hc
  have hx' := hx
  rw [Stmt.exprs, List.forall_mem_cons] at hx'
  have hr' := hr
  rw [Stmt.exprs, Expr.nodesOfList, List.length_append] at hr'
  have htest : (unlessTrue last).length = 2 := rfl
  simp only [codeAt_append, List.length_append, htest, length_code, List.length_cons,
    List.length_nil, Nat.zero_add, ← Nat.add_assoc] at hc
  obtain ⟨⟨⟨⟨⟨htop, hcond⟩, htest⟩, hbody⟩, hjump⟩, hlast⟩ := hc
  have hback := lineOf?_numbered hm htop
  rw [Semantics.stmt]
  refine Leads.label htop ?_
  have k₀ := hi.continues (t := s.next) rfl ⟨rfl, rfl, rfl, rfl, rfl⟩
  have hr₀ := hr'.of_sp k₀.sp (Nat.le_add_right _ _)
  refine (hn.value (hi.after k₀) hr₀ hx'.1 he hcond).bind fun v m₁ s₁ ⟨h₁, e₁⟩ => ?_
  refine .integer fun x hx₁ => ?_
  have k₁ := k₀.trans h₁
  have hi₁ := hi.after k₁
  have hline₁ : s₁.line = s.line + 1 + c.length := h₁.line
  rw [← hline₁] at htest hbody hjump hlast
  refine leads_test htest (hr.after k₁).low_le (e₁ _ hx₁).eq (lineOf?_numbered hm hlast) ?_ ?_
  · intro hz s₂ hline hs₂
    rw [if_pos hz]
    have hlast : CodeAt a s₂.line [.label (.numbered last)] := by
      rw [hline]
      exact hlast
    have k₂ : Continues H p f b s₁ (2 + d.length + 1) m₁ s₂ :=
      hi₁.continues (by rw [hline]; omega) hs₂
    have k₃ := k₂.trans ((hi₁.after k₂).continues (t := s₂.next) rfl ⟨rfl, rfl, rfl, rfl, rfl⟩)
    have hend : Completes H p f b s₁ (2 + d.length + 1 + 1) none m₁ s₂.next := k₃
    exact Leads.label hlast (Follows.pure (hend.of_continues k₁ (by omega)))
  · intro hnz s₂ hline hs₂
    rw [if_neg hnz]
    have k₂ := k₁.trans (hi₁.continues hline hs₂)
    have hi₂ := hi.after k₂
    rw [← hline] at hbody hjump
    have hr₂ := hr'.of_sp k₂.sp (Nat.le_add_left _ _)
    refine Follows.bind (hn.stmt hi₂ hr₂ hx'.2 hb hbody) fun r m₃ s₃ h₃ => ?_
    cases r with
    | some v => exact Follows.pure (Returns.of_continues h₃ k₂)
    | none =>
      have k₃ := k₂.trans h₃
      have hjump : CodeAt a s₃.line (code [.jmp (.numbered top)]) := by
        rw [Continues.line h₃]
        exact hjump
      refine Leads.jump hjump hback (hr.after k₃).low_le ?_
      -- the state is at the top again, where the whole loop begins, with as much room as before
      set t := s₃.goto s.line with ht
      have k₄ : Continues H p f b s 0 m₃ t :=
        ⟨rfl, k₃.rsp, k₃.rbp, k₃.holds.congr rfl rfl fun _ _ _ => rfl, k₃.keeps⟩
      refine Follows.extend (hn.stmt (hi.after k₄) (hr.after k₄) hx hall hcode) fun r m₅ s₅ h₅ => ?_
      refine Leads.here ⟨s₅, rfl, h₅.of_continues k₄ ?_⟩
      simp only [List.length_append, length_code, List.length_cons, List.length_nil]
      omega

theorem follows_retNone (hi : Inside H p f b m s) (hlow : low ≤ s.sp)
    (hc : CodeAt a s.line (epilogue (Frame.layout f))) :
    Follows H low ((Semantics.stmt p H.order (fuel + 1) depth (.ret l none)).run m)
      (Completes H p f b s n) s := by
  rw [Semantics.stmt]
  exact leads_epilogue (v := none) hi hlow nofun hc fun t ht => Follows.pure ht

theorem follows_retSome (hn : Simulates H p low fuel) {e : Expr} (hi : Inside H p f b m s)
    (hr : Roomy p low depth e.nodes.length s) (hx : ∀ x ∈ e.nodes, x.LinkedIn p f)
    (he : EmitsValue a (Frame.layout f) e c)
    (hc : CodeAt a s.line (c ++ epilogue (Frame.layout f))) :
    Follows H low ((Semantics.stmt p H.order (fuel + 1) depth (.ret l (some e))).run m)
      (Completes H p f b s n) s := by
  obtain ⟨hc, hepi⟩ := codeAt_append.1 hc
  rw [Semantics.stmt]
  refine (hn.value hi hr hx he hc).bind fun u m₁ s₁ ⟨k₁, e₁⟩ => ?_
  refine .needed fun v hv => ?_
  rw [← k₁.line] at hepi
  have hv : ∀ x, some v = some x → Encodes H x (s₁.regs .rax) := fun x hx => e₁ x (hv.trans hx)
  exact leads_epilogue (hi.after k₁) (hr.after k₁).low_le hv hepi fun t ht =>
    Follows.pure (ht.of_continues k₁)

theorem follows_expr (hn : Simulates H p low fuel) {e : Expr} (hi : Inside H p f b m s)
    (hr : Roomy p low depth e.nodes.length s) (hx : ∀ x ∈ e.nodes, x.LinkedIn p f)
    (he : EmitsValue a (Frame.layout f) e c)
    (hc : CodeAt a s.line c) :
    Follows H low ((Semantics.stmt p H.order (fuel + 1) depth (.expr l e)).run m)
      (Completes H p f b s c.length) s := by
  rw [Semantics.stmt]
  exact (hn.value hi hr hx he hc).bind fun _ _ _ h => Follows.pure h.1

/-- What is printed for a value of a type. -/
theorem printed?_of_written (hm : p.Makes a) {ty : Ty} {v : Value} {o : Output}
    (ho : Semantics.written (some ty) v = some o) (hv : Encodes H v (s.regs .rsi))
    (hf : s.regs .rdi = H.dataAddress (formatOf ty)) : s.printed? H = some o := by
  cases ty with
  | int =>
    cases v with
    | int x =>
      cases ho
      rw [s.printed?_integer hf, hv.eq]
    | string _ => cases ho
  | string =>
    cases v with
    | int _ => cases ho
    | string u =>
      cases ho
      rw [s.printed?_string hf, hv.stringAt?_eq hm]
      rfl
  | void | pointer _ | array _ _ | function _ _ => cases ho

theorem follows_write (hm : p.Makes a) (hn : Simulates H p low fuel) {e : Expr} {ty : Ty}
    (hi : Inside H p f b m s) (hr : Roomy p low depth e.nodes.length s)
    (hx : ∀ x ∈ e.nodes, x.LinkedIn p f)
    (he : EmitsValue a (Frame.layout f) e c) (ht : e.ty? = some ty)
    (hc : CodeAt a s.line (c ++ code [move .rax .rsi, .lea (.label (formatOf ty)) .rdi] ++
      libraryCall .printf)) :
    Follows H low ((Semantics.stmt p H.order (fuel + 1) depth (.write l e)).run m)
      (Completes H p f b s (c.length + 2 + 6)) s := by
  simp only [codeAt_append, List.length_append, length_code, List.length_cons,
    List.length_nil, Nat.zero_add, ← Nat.add_assoc] at hc
  obtain ⟨⟨hce, hmove⟩, hcall⟩ := hc
  rw [Semantics.stmt]
  refine (hn.value hi hr hx he hce).bind fun u m₁ s₁ ⟨k₁, e₁⟩ => ?_
  refine .needed fun v hv => ?_
  rw [ht]
  cases ho : Semantics.written (some ty) v with
  | none => exact Follows.stuck
  | some o =>
    have hi₁ := hi.after k₁
    rw [← k₁.line] at hmove hcall
    have hlea := (codeAt_code_cons.1 hmove).2
    have hr₁ := hr.after k₁
    refine Leads.instr hmove rfl hr₁.low_le fun _ => Leads.instr hlea rfl hr₁.low_le fun _ => ?_
    set s₂ := ((s₁.set .rsi (s₁.regs .rax)).next.set .rdi (H.dataAddress (formatOf ty))).next
      with hs₂
    have hs₂' : s₁.SameMemory s₂ := ⟨rfl, rfl, rfl, rfl, rfl⟩
    have k₂ := hi₁.continues (n := 2) rfl hs₂'
    have hi₂ := hi₁.after k₂
    have hprint : s₂.printed? H = some o := printed?_of_written hm ho (e₁ v hv) rfl
    have hs := hi₂.stands
    have hlow := (hr₁.after k₂).low_le_sub
    refine Leads.printf (s := s₂) hcall hs.room hs.le_top hs.sp_aligned (by omega) hprint ?_
    intro t ht hline hin hout
    refine Follows.modify (Follows.pure ?_)
    have hout : t.output = m₁.output ++ [o] := hout.trans (by rw [hi₂.holds.output])
    have k₃ : Continues H p f b s₂ 6 { m₁ with output := m₁.output ++ [o] } t :=
      hi₂.continues_alike hm ht hline rfl (hin.trans hi₂.holds.input) hout
    exact k₁.trans (k₂.trans k₃)

theorem follows_writeln (hm : p.Makes a) (hi : Inside H p f b m s) (hlow : low ≤ s.sp - 24)
    (hc : CodeAt a s.line (code [.lea (.label .newline) .rdi] ++ libraryCall .printf)) :
    Follows H low ((Semantics.stmt p H.order (fuel + 1) depth (.writeln l)).run m)
      (Completes H p f b s (1 + 6)) s := by
  obtain ⟨hlea, hcall⟩ := codeAt_append.1 hc
  rw [Semantics.stmt]
  have hlow₁ : low ≤ s.sp := by omega
  refine Leads.instr hlea rfl hlow₁ fun _ => ?_
  set s₁ := (s.set .rdi (H.dataAddress .newline)).next with hs₁
  have k₁ : Continues H p f b s 1 m s₁ := hi.continues rfl ⟨rfl, rfl, rfl, rfl, rfl⟩
  have hi₁ := hi.after k₁
  have hs := hi₁.stands
  refine Leads.printf (s := s₁) hcall hs.room hs.le_top hs.sp_aligned hlow
    (s₁.printed?_newline rfl) ?_
  intro t ht hline hin hout
  refine Follows.modify (Follows.pure ?_)
  have hout : t.output = m.output ++ [.newline] := hout.trans (by rw [hi₁.holds.output])
  have k₂ : Continues H p f b s₁ 6 { m with output := m.output ++ [.newline] } t :=
    hi₁.continues_alike hm ht hline rfl (hin.trans hi₁.holds.input) hout
  exact k₁.trans k₂

end

@[simp] theorem length_unlessTrue {i : Nat} : (unlessTrue i).length = 2 := rfl

@[simp] theorem length_libraryCall {r : Routine} : (libraryCall r).length = 6 := rfl

theorem Simulates.zero : Simulates H p low 0 where
  value := by
    intro depth f b m s e c hi hr hx he hc
    rw [Semantics.value]
    exact .outOfFuel
  place := by
    intro depth f b m s e c hi hr hx he hc
    rw [Semantics.place]
    exact .outOfFuel
  arguments := by
    intro depth f b m s es c hi hr hx he hc
    rw [Semantics.arguments]
    exact .outOfFuel
  stmt := by
    intro depth f b m s u c hi hr hx he hc
    rw [Semantics.stmt]
    exact .outOfFuel
  block := by
    intro depth f b m s u c hi hr hx he hc
    rw [Semantics.block]
    exact .outOfFuel
  stmts := by
    intro depth f b m s us c hi hr hx he hc
    rw [Semantics.stmts]
    exact .outOfFuel

/-- With more fuel, the machine follows the interpreter through one more layer of the tree. -/
theorem Simulates.succ (hl : p.Linked) (hm : p.Makes a) (hn : Simulates H p low fuel) :
    Simulates H p low (fuel + 1) where
  value := by
    intro depth f b m s e c hi hr hx he hc
    cases he with
    | number => exact follows_number hi hr.low_le hc
    | string hu => exact follows_string hi hr.low_le hu hc
    | read => exact follows_read hm hi hr.low_le_sub hc
    | var ht hp => exact follows_var hl hm hi hr.low_le (hx _ (Expr.mem_nodes_self _)) ht hp hc
    | assign ht he => simpa [Nat.add_assoc] using follows_assign hl hm hn hi hr hx ht he hc
    | binary hleft hright =>
      simpa [Nat.add_assoc] using follows_binary hm hn hi hr hx hleft hright hc
    | neg he => simpa [Nat.add_assoc] using follows_neg hn hi hr hx he hc
    | index he => simpa [Nat.add_assoc] using follows_index hl hm hn hi hr hx he hc
    | call ha =>
      cases depth with
      | zero =>
        rw [Semantics.value]
        exact .outOfFuel
      | succ depth => exact follows_call hl hm hn hi hr hx ha hc
    -- an address is no value of the interpreter, so that there is no run to follow
    | decay | address | deref =>
      rw [Semantics.value]
      exact .stuck
  place := by
    intro depth f b m s e c hi hr hx he hc
    cases he with
    | var hp => exact follows_placeVar hl hi hr.low_le (hx _ (Expr.mem_nodes_self _)) hp hc
    | deref _ =>
      rw [Semantics.place]
      · exact .stuck
      all_goals simp
    | @index _ base i ty _ _ _ hi' ht hck hb =>
      rw [Expr.nodes, List.forall_mem_cons, List.forall_mem_append] at hx
      rw [Expr.nodes, List.length_cons, List.length_append] at hr
      cases base with
      | var nb y slot =>
        have hty : nb.ty = some ty := ht
        cases ty with
        | array element length =>
          cases hb with
          | var ht' hp =>
            cases hty.symm.trans ht'
            simpa [Nat.add_assoc] using follows_element hl hm hn hi (hr.of_sp rfl (by omega))
              (hx.2.1 _ (Expr.mem_nodes_self _)) hx.2.2 hty hi' hck hp hc
        | _ =>
          simp only [Semantics.place, hty]
          exact .stuck
      | _ =>
        rw [Semantics.place]
        · exact .stuck
        all_goals simp
  arguments := by
    intro depth f b m s es c hi hr hx he hc
    cases he with
    | nil => exact follows_noArguments hi
    | cons he hes => simpa [Nat.add_assoc] using follows_moreArguments hm hn hi hr hx he hes hc
  stmt := by
    intro depth f b m s u c hi hr hx he hc
    cases he with
    | compound hb =>
      rw [Semantics.stmt]
      rw [Stmt.exprs] at hx hr
      exact hn.block hi hr hx hb hc
    | ifThen hc' hy => simpa [Nat.add_assoc] using follows_ifThen hm hn hi hr hx hc' hy hc
    | ifElse hc' hy hno =>
      simpa [Nat.add_assoc] using follows_ifElse hm hn hi hr hx hc' hy hno hc
    | whileDo hc' hb => simpa [Nat.add_assoc] using follows_whileDo hm hn hi hr hx hc' hb hc
    | retNone => exact follows_retNone hi hr.low_le hc
    | retSome he =>
      rw [Stmt.exprs, Expr.nodesOfList_singleton] at hr
      exact follows_retSome hn hi hr (by simpa [Stmt.exprs] using hx) he hc
    | expr he =>
      rw [Stmt.exprs, Expr.nodesOfList_singleton] at hr
      exact follows_expr hn hi hr (by simpa [Stmt.exprs] using hx) he hc
    | write he ht =>
      rw [Stmt.exprs, Expr.nodesOfList_singleton] at hr
      simpa [Nat.add_assoc] using
        follows_write hm hn hi hr (by simpa [Stmt.exprs] using hx) he ht hc
    | writeln =>
      have hlow := hr.low_le_sub
      exact follows_writeln hm hi (by omega) hc
  block := by
    intro depth f b m s u c hi hr hx he hc
    cases he with
    | mk hss =>
      rw [Semantics.block]
      rw [Block.exprs] at hx hr
      exact hn.stmts hi hr hx hss hc
  stmts := by
    intro depth f b m s us c hi hr hx he hc
    cases he with
    | nil =>
      rw [Semantics.stmts]
      exact Follows.pure (hi.continues rfl ⟨rfl, rfl, rfl, rfl, rfl⟩)
    | cons hu hus =>
      rw [Stmt.exprsOfList, List.forall_mem_append] at hx
      rw [Stmt.exprsOfList, Expr.nodesOfList_append, List.length_append] at hr
      obtain ⟨hc, hcs⟩ := codeAt_append.1 hc
      rw [Semantics.stmts, List.length_append]
      have hr₀ := hr.of_sp (t := s) rfl (Nat.le_add_right _ _)
      refine Follows.bind (hn.stmt hi hr₀ hx.1 hu hc) fun r m₁ s₁ h₁ => ?_
      cases r with
      -- after a return, the statements behind it are not run
      | some v => exact Follows.pure h₁
      | none =>
        rw [← Continues.line h₁] at hcs
        have hr₁ := hr.of_sp (Continues.sp h₁) (Nat.le_add_left _ _)
        refine (hn.stmts (hi.after h₁) hr₁ hx.2 hus hcs).extend fun r m₂ s₂ h₂ => ?_
        exact Leads.here ⟨s₂, rfl, h₂.of_continues h₁ rfl⟩

/-- The machine follows the interpreter. -/
theorem simulates (hl : p.Linked) (hm : p.Makes a) : ∀ fuel, Simulates H p low fuel
  | 0 => .zero
  -- on the fuel, not on the tree: a loop runs itself again, and a call the body of a function
  | fuel + 1 => (simulates hl hm fuel).succ hl hm

end Bpl.Simulation
