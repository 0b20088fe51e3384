import Bpl.Proofs.Simulation.Follows

namespace Bpl.Simulation

open Asm Machine
open Lowering (code move)
open Semantics (ofInts ofStrings truth)

variable {a : Assembly} {H : Host a} {p : Program} {low : Int} {P : Outcome → Prop}
  {s : State}

section

variable {u v : String} {w w' : Int64}

/-- A string literal is found at the place that orders it. -/
theorem Encodes.order_eq (hm : p.Makes a) (h : Encodes H (.string u) w) : H.order u = w := by
  cases h with
  | @string n _ hn =>
    rw [Host.order]
    cases hf : a.strings.find? (·.2 == u) with
    | none =>
      have := List.find?_eq_none.1 hf _ hn
      simp at this
    | some q =>
      have hq := List.mem_of_find?_eq_some hf
      have hu : q.2 = u := by simpa using List.find?_some hf
      have heq : q = (n, u) := List.inj_on_of_nodup_map hm.contents hq hn hu
      rw [heq]

theorem Encodes.string_inj (hm : p.Makes a) (h : Encodes H (.string u) w)
    (h' : Encodes H (.string v) w) : u = v := by
  generalize hw : w = w' at h'
  cases h with
  | @string n _ hn =>
    cases h' with
    | @string k _ hk =>
      have hnk := H.strings _ hn _ hk hw
      exact congrArg Prod.snd (List.inj_on_of_nodup_map hm.strings hn hk hnk)

/-- A string literal is printed from its place. -/
theorem Encodes.stringAt?_eq (hm : p.Makes a) (h : Encodes H (.string u) w) :
    H.stringAt? w = some u := by
  cases h with
  | @string n _ hn =>
    rw [Host.stringAt?]
    cases hf : a.strings.find? fun q => H.dataAddress (.numbered q.1) ==
        H.dataAddress (.numbered n) with
    | none =>
      have := List.find?_eq_none.1 hf _ hn
      simp at this
    | some q =>
      have hq := List.mem_of_find?_eq_some hf
      have ha : H.dataAddress (.numbered q.1) = H.dataAddress (.numbered n) := by
        simpa using List.find?_some hf
      have hnq := H.strings _ hq _ hn ha
      have heq : q = (n, u) := List.inj_on_of_nodup_map hm.strings hq hn hnq
      rw [heq]
      rfl

/-- Strings are compared by their places. -/
theorem Follows.combine {α : Type} {R : α → Store → State → Prop} {k : Value → Semantics.Run α}
    {m : Store} (hm : p.Makes a) {op : BinaryOp} {x y : Value} (hx : Encodes H x w)
    (hy : Encodes H y w')
    (hk : ∀ z, ofInts w w' op = some z → Follows H low ((k z).run m) R s) :
    Follows H low ((Semantics.combine H.order op x y >>= k).run m) R s := by
  cases x with
  | int i =>
    cases y with
    | int j =>
      rw [← hx.eq, ← hy.eq, Semantics.combine]
      exact .needed hk
    | string t => exact stuck_bind
  | string u =>
    cases y with
    | int j => exact stuck_bind
    | string v =>
      have hiff : u = v ↔ w = w' := by
        constructor
        · rintro rfl
          rw [← hx.order_eq hm, ← hy.order_eq hm]
        · rintro rfl
          exact hx.string_inj hm hy
      have hsame : ofStrings H.order u v op = ofInts w w' op := by
        rw [← hx.order_eq hm, ← hy.order_eq hm] at *
        cases op <;> simp [ofStrings, ofInts, hiff]
      rw [Semantics.combine]
      split
      · rw [hsame]
        exact .needed hk
      · exact stuck_bind

end

/-- A comparison leaves one or zero. -/
theorem leads_compare {c : Cond} (hc : CodeAt a s.line (Lowering.combine.compare c))
    (hlow : low ≤ s.sp)
    (hk : ∀ t, t.line = s.line + 3 → s.SameMemory t →
      t.regs .rax = (if Cond.holds c (s.regs .rax) (s.regs .rcx) then 1 else 0) →
        Leads H low P t) : Leads H low P s := by
  have h₁ := (codeAt_code_cons.1 hc).2
  have h₂ := (codeAt_code_cons.1 h₁).2
  refine Leads.instr hc rfl hlow fun _ => ?_
  refine Leads.instr h₁ rfl hlow fun _ => ?_
  refine Leads.instr h₂ rfl hlow fun _ => ?_
  refine hk _ rfl ⟨rfl, rfl, rfl, rfl, rfl⟩ ?_
  apply Int64.low_byte
  split
  · exact .inr rfl
  · exact .inl rfl

/-- A division leaves the quotient and the remainder. -/
theorem leads_divide {is : List Instr} (hc : CodeAt a s.line (code (.cqto :: .idiv .rcx :: is)))
    (hlow : low ≤ s.sp) (hy : s.regs .rcx ≠ 0)
    (hxy : ¬ (s.regs .rax = .minValue ∧ s.regs .rcx = -1))
    (hk : ∀ t, t.line = s.line + 2 → s.SameMemory t →
      t.regs .rax = s.regs .rax / s.regs .rcx → t.regs .rdx = s.regs .rax % s.regs .rcx →
        Leads H low P t) : Leads H low P s := by
  have h₁ := (codeAt_code_cons.1 hc).2
  refine Leads.instr hc rfl hlow fun _ => ?_
  set s₁ := (s.set .rdx (if s.regs .rax < 0 then -1 else 0)).next with hs₁
  have he : exec H s₁ (.idiv .rcx) = some (.next ((s₁.set .rax (s.regs .rax / s.regs .rcx)).set
      .rdx (s.regs .rax % s.regs .rcx)).spoilFlags.next) := by
    have hd : divide? (s₁.regs .rdx) (s₁.regs .rax) (s₁.regs .rcx) =
        some (s.regs .rax / s.regs .rcx, s.regs .rax % s.regs .rcx) :=
      divide?_eq_some hy hxy
    rw [exec, hd]
    rfl
  exact Leads.instr (s := s₁) h₁ he hlow fun _ => hk _ rfl ⟨rfl, rfl, rfl, rfl, rfl⟩ rfl rfl

/-- The code of an operator works on `%rax` and `%rcx` as the operator does. -/
theorem leads_combine {op : BinaryOp} {z : Value}
    (hz : ofInts (s.regs .rax) (s.regs .rcx) op = some z)
    (hc : CodeAt a s.line (Lowering.combine op)) (hlow : low ≤ s.sp)
    (hk : ∀ t, t.line = s.line + (Lowering.combine op).length → s.SameMemory t →
      Encodes H z (t.regs .rax) → Leads H low P t) : Leads H low P s := by
  have hdefined : ∀ {v : Value}, (if s.regs .rcx = 0 ∨ s.regs .rax = .minValue ∧
      s.regs .rcx = -1 then none else some v) = some z →
        s.regs .rcx ≠ 0 ∧ ¬ (s.regs .rax = .minValue ∧ s.regs .rcx = -1) ∧ v = z := by
    intro v hv
    split at hv
    · cases hv
    · next h =>
      rw [not_or] at h
      exact ⟨h.1, h.2, Option.some.inj hv⟩
  cases op with
  | add =>
    cases hz
    exact Leads.instr hc rfl hlow fun _ => hk _ rfl ⟨rfl, rfl, rfl, rfl, rfl⟩ .int
  | sub =>
    cases hz
    exact Leads.instr hc rfl hlow fun _ => hk _ rfl ⟨rfl, rfl, rfl, rfl, rfl⟩ .int
  | mul =>
    cases hz
    exact Leads.instr hc rfl hlow fun _ => hk _ rfl ⟨rfl, rfl, rfl, rfl, rfl⟩ .int
  | div =>
    obtain ⟨hy, hxy, rfl⟩ := hdefined hz
    refine leads_divide hc hlow hy hxy fun t hline ht hrax _ => hk t hline ht ?_
    rw [hrax]
    exact .int
  | mod =>
    obtain ⟨hy, hxy, rfl⟩ := hdefined hz
    refine leads_divide hc hlow hy hxy fun t hline ht _ hrdx => ?_
    have h₂ := (codeAt_code_cons.1 (codeAt_code_cons.1 hc).2).2
    have hmove : CodeAt a t.line (code [move .rdx .rax]) := by
      rw [hline]
      exact h₂
    have hlow : low ≤ t.sp := hlow.trans_eq (congrArg Int64.toInt ht.rsp.symm)
    refine Leads.instr hmove rfl hlow fun _ => hk _ ?_ ?_ ?_
    · exact congrArg (· + 1) hline
    · exact ⟨ht.rsp, ht.rbp, ht.mem, ht.input, ht.output⟩
    · change Encodes H _ (t.regs .rdx)
      rw [hrdx]
      exact .int
  | eq | ne | lt | le | gt | ge =>
    cases hz
    refine leads_compare hc hlow fun t hline ht hrax => hk t hline ht ?_
    rw [hrax]
    exact .int

end Bpl.Simulation
