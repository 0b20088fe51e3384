import Bpl.Proofs.Simulation.Inside
import Bpl.Proofs.Simulation.Operators

namespace Bpl.Simulation

open Asm Machine
open Lowering (Checks EmitsValue EmitsAddress EmitsArguments code load move loadImm libraryCall)

variable {a : Assembly} {H : Host a} {p : Program} {f : Function} {low b : Int} {m m' : Store}
  {s s₁ t : State} {fuel depth : Nat}

section

variable {n : Note} {x : String} {slot : Slot} {c : Code}

theorem follows_number {v : Int64} (hi : Inside H p f b m s) (hlow : low ≤ s.sp)
    (hc : CodeAt a s.line (code [loadImm v .rax])) :
    Follows H low ((Semantics.value p H.order (fuel + 1) depth (.number n v)).run m)
      (Yields H p f b s 1) s := by
  rw [Semantics.value]
  refine Leads.instr hc rfl hlow fun _ => Follows.pure ⟨?_, ?_⟩
  · exact hi.continues rfl ⟨rfl, rfl, rfl, rfl, rfl⟩
  · intro y hy
    cases hy
    exact .int

theorem follows_string {u : String} {i : Nat} (hi : Inside H p f b m s) (hlow : low ≤ s.sp)
    (hu : (i, u) ∈ a.strings)
    (hc : CodeAt a s.line (code [.lea (.label (.numbered i)) .rax])) :
    Follows H low ((Semantics.value p H.order (fuel + 1) depth (.string n u)).run m)
      (Yields H p f b s 1) s := by
  rw [Semantics.value]
  refine Leads.instr hc rfl hlow fun _ => Follows.pure ⟨?_, ?_⟩
  · exact hi.continues rfl ⟨rfl, rfl, rfl, rfl, rfl⟩
  · intro y hy
    cases hy
    exact .string hu

theorem follows_var (hl : p.Linked) (hm : p.Makes a) {place : Address} {ty : Ty}
    (hi : Inside H p f b m s) (hlow : low ≤ s.sp) (hx : (Expr.var n x slot).LinkedIn p f)
    (ht : n.ty = some ty)
    (hp : Lowering.storage? (Frame.layout f) x slot = some place)
    (hc : CodeAt a s.line (code [if ty.isArray then .lea place .rax else load place .rax])) :
    Follows H low ((Semantics.value p H.order (fuel + 1) depth (.var n x slot)).run m)
      (Yields H p f b s 1) s := by
  obtain ⟨v, hd, hv, hfun⟩ := hx
  cases ht.symm.trans hv
  have hvalid := valid_of_declares hl hi.function hd
  have hplace := places_of_storage hl hi.function hi.stands (i := 0) hd hp
    (word_le_size hvalid hfun)
  rw [Nat.cast_zero, mul_zero, add_zero] at hplace
  rw [Semantics.value, ht, Option.any_some]
  by_cases hty : v.ty.isArray
  · rw [if_pos hty] at hc ⊢
    refine Leads.instr hc rfl hlow fun _ => Follows.pure ⟨?_, nofun⟩
    exact hi.continues rfl ⟨rfl, rfl, rfl, rfl, rfl⟩
  · rw [if_neg hty] at hc ⊢
    refine Leads.fetch hc (hplace.aligned hl hm hi.function hi.stands.base_aligned) hlow ?_
    refine Follows.fetch fun y hy => Follows.pure ⟨?_, ?_⟩
    · exact hi.continues rfl ⟨rfl, rfl, rfl, rfl, rfl⟩
    · intro y' hy'
      cases hy'
      exact hi.holds.cells _ y _ hy hplace

theorem follows_read (hm : p.Makes a) (hi : Inside H p f b m s) (hlow : low ≤ s.sp - 32)
    (hc : CodeAt a s.line (code [.op .sub (.imm 8) .rsp, move .rsp .rsi,
      .lea (.label .readFormat) .rdi] ++ libraryCall .scanf ++ code [.pop .rax])) :
    Follows H low ((Semantics.value p H.order (fuel + 1) depth (.read n)).run m)
      (Yields H p f b s 10) s := by
  rw [Semantics.value]
  refine Follows.get ?_
  cases hin : m.input with
  | nil => exact .undefined
  | cons v rest =>
    have hs := hi.stands
    refine Leads.reads hc hs.room hs.le_top hs.sp_aligned hlow (hi.holds.input.trans hin) ?_
    intro t ht hrax hline hin' hout
    refine Follows.modify (Follows.pure ⟨?_, ?_⟩)
    · exact hi.continues_alike hm ht hline rfl hin' (hout.trans hi.holds.output)
    · intro y hy
      cases hy
      rw [hrax]
      exact .int

variable {c d : Code}

theorem follows_binary (hm : p.Makes a) (hn : Simulates H p low fuel) {op : BinaryOp}
    {left right : Expr} (hi : Inside H p f b m s)
    (hr : Roomy p low depth (Expr.binary n op left right).nodes.length s)
    (hx : ∀ x ∈ (Expr.binary n op left right).nodes, x.LinkedIn p f)
    (hcl : EmitsValue a (Frame.layout f) left c) (hcr : EmitsValue a (Frame.layout f) right d)
    (hc : CodeAt a s.line (c ++ code [.push (.reg .rax)] ++ d ++
      code [move .rax .rcx, .pop .rax] ++ Lowering.combine op)) :
    Follows H low ((Semantics.value p H.order (fuel + 1) depth (.binary n op left right)).run m)
      (Yields H p f b s (c.length + 1 + d.length + 2 + (Lowering.combine op).length)) s := by
  rw [Expr.nodes, List.forall_mem_cons, List.forall_mem_append] at hx
  rw [Expr.nodes, List.length_cons, List.length_append] at hr
  simp only [codeAt_append, List.length_append, length_code, List.length_cons, List.length_nil,
    Nat.zero_add, ← Nat.add_assoc] at hc
  obtain ⟨⟨⟨⟨hleft, hpush⟩, hright⟩, hmove⟩, hop⟩ := hc
  rw [Semantics.value]
  refine (hn.value hi (hr.of_sp rfl (by omega)) hx.2.1 hcl hleft).bind fun u m₁ s₁ ⟨k₁, e₁⟩ => ?_
  refine .needed fun y hy => ?_
  have hi₁ := hi.after k₁
  have hr₁ : Roomy p low depth (right.nodes.length + 1) s₁ := hr.of_sp k₁.sp (by omega)
  rw [← k₁.line] at hpush hright hmove hop
  refine hi₁.pushes hm hr₁ hpush fun hroom hi₂ hr₂ => ?_
  refine (hn.value hi₂ hr₂ hx.2.2 hcr hright).bind fun u' m₂ s₂ ⟨k₂, e₂⟩ => ?_
  refine .needed fun y' hy' => ?_
  refine Follows.combine hm (e₁ y hy) (e₂ y' hy') fun z hz => ?_
  have hover := k₁.over hi.stands hroom k₂
  have hline : s₂.line = s₁.line + 1 + d.length := k₂.line
  rw [← hline] at hmove hop
  have hpop := (codeAt_code_cons.1 hmove).2
  have hstands := (hi₂.after k₂).stands
  have hlow := (hr₂.after k₂).low_le
  refine Leads.instr hmove rfl hlow fun _ => ?_
  set s₃ := (s₂.set .rcx (s₂.regs .rax)).next with hs₃
  refine Leads.pop (s := s₃) hpop nofun hstands.fits hstands.sp_aligned hlow ?_
  set s₄ := (s₃.popped .rax).next with hs₄
  have hrax : s₄.regs .rax = s₁.regs .rax := hover.saved
  have hz : Semantics.ofInts (s₄.regs .rax) (s₄.regs .rcx) op = some z := by
    rw [hrax]
    exact hz
  have hlow₄ : low ≤ s₄.sp := hr.low_le.trans_eq (congrArg Int64.toInt hover.rsp.symm)
  refine leads_combine (s := s₄) hz hop hlow₄ fun t hline' ht hz => Follows.pure ⟨?_, ?_⟩
  · refine hover.continues k₂.holds ?_ ht.rsp ht.rbp ht.mem ht.input ht.output
    have hline₄ : s₄.line = s₂.line + 2 := rfl
    rw [hline', hline₄, hline, k₁.line]
    omega
  · intro v hv
    cases hv
    exact hz

theorem follows_assign (hl : p.Linked) (hm : p.Makes a) (hn : Simulates H p low fuel)
    {target e : Expr} (hi : Inside H p f b m s)
    (hr : Roomy p low depth (Expr.assign n target e).nodes.length s)
    (hx : ∀ x ∈ (Expr.assign n target e).nodes, x.LinkedIn p f)
    (ht : EmitsAddress a (Frame.layout f) target c) (he : EmitsValue a (Frame.layout f) e d)
    (hc : CodeAt a s.line (c ++ code [.push (.reg .rax)] ++ d ++
      code [.pop .rcx, .mov (.reg .rax) (.mem (.direct .rcx))])) :
    Follows H low ((Semantics.value p H.order (fuel + 1) depth (.assign n target e)).run m)
      (Yields H p f b s (c.length + 1 + d.length + 2)) s := by
  rw [Expr.nodes, List.forall_mem_cons, List.forall_mem_append] at hx
  rw [Expr.nodes, List.length_cons, List.length_append] at hr
  simp only [codeAt_append, List.length_append, length_code, List.length_cons, List.length_nil,
    Nat.zero_add, ← Nat.add_assoc] at hc
  obtain ⟨⟨⟨hct, hpush⟩, hce⟩, hpop⟩ := hc
  rw [Semantics.value]
  refine (hn.place hi (hr.of_sp rfl (by omega)) hx.2.1 ht hct).bind fun cell m₁ s₁ ⟨k₁, hcell⟩ => ?_
  have hi₁ := hi.after k₁
  have hr₁ : Roomy p low depth (e.nodes.length + 1) s₁ := hr.of_sp k₁.sp (by omega)
  rw [← k₁.line] at hpush hce hpop
  refine hi₁.pushes hm hr₁ hpush fun hroom hi₂ hr₂ => ?_
  refine (hn.value hi₂ hr₂ hx.2.2 he hce).bind fun u m₂ s₂ ⟨k₂, e₂⟩ => ?_
  refine .needed fun v hv => ?_
  have hover := k₁.over hi.stands hroom k₂
  have hstands := (hi₂.after k₂).stands
  have hline : s₂.line = s₁.line + 1 + d.length := k₂.line
  rw [← hline] at hpop
  have hstore := (codeAt_code_cons.1 hpop).2
  have hlow := (hr₂.after k₂).low_le
  refine Leads.pop hpop nofun hstands.fits hstands.sp_aligned hlow ?_
  set s₃ := (s₂.popped .rcx).next with hs₃
  have hrcx : s₃.regs .rcx = s₁.regs .rax := hover.saved
  have hplace : Places H p f b cell (s₃.regs .rcx).toInt := by
    rw [hrcx]
    exact hcell
  have haligned := hplace.aligned hl hm hi.function hi.stands.base_aligned
  have k₃ : Continues H p f b s (c.length + 1 + d.length + 1) m₂ s₃ := by
    refine hover.continues k₂.holds ?_ rfl rfl rfl rfl rfl
    change s₂.line + 1 = _
    rw [hline, k₁.line]
    omega
  refine Leads.store (s := s₃) hstore haligned (hr.after k₃).low_le
    (Follows.modify (Follows.pure ⟨?_, ?_⟩))
  · have hstored := k₃.holds.assign hm (hi.stands.after k₃) hplace (e₂ v hv)
    refine ⟨congrArg (· + 1) k₃.line, k₃.rsp, k₃.rbp, ?_, fun w hw hd ho => ?_⟩
    · exact hstored.congr rfl rfl fun _ _ _ => rfl
    · rw [State.next_mem, State.put_mem, if_neg, k₃.keeps w hw hd ho]
      rintro rfl
      rcases hplace.isData_or_owns hm with hd' | ho'
      · exact absurd (hd.symm.trans hd') nofun
      · exact ho ho'
  · intro y hy
    cases hy
    exact e₂ v hv

theorem follows_neg (hn : Simulates H p low fuel) {e : Expr} (hi : Inside H p f b m s)
    (hr : Roomy p low depth (Expr.unary n .neg e).nodes.length s)
    (hx : ∀ x ∈ (Expr.unary n .neg e).nodes, x.LinkedIn p f)
    (he : EmitsValue a (Frame.layout f) e c)
    (hc : CodeAt a s.line (c ++ code [.neg .rax])) :
    Follows H low ((Semantics.value p H.order (fuel + 1) depth (.unary n .neg e)).run m)
      (Yields H p f b s (c.length + 1)) s := by
  rw [Expr.nodes, List.forall_mem_cons] at hx
  rw [Expr.nodes, List.length_cons] at hr
  obtain ⟨hc, hneg⟩ := codeAt_append.1 hc
  rw [Semantics.value]
  refine (hn.value hi (hr.of_sp rfl (by omega)) hx.2 he hc).bind fun u m₁ s₁ ⟨k₁, e₁⟩ => ?_
  refine .integer fun y hy => ?_
  rw [← k₁.line] at hneg
  have hi₁ := hi.after k₁
  refine Leads.instr hneg rfl (hr.after k₁).low_le fun _ => Follows.pure ⟨k₁.trans ?_, ?_⟩
  · exact hi₁.continues rfl ⟨rfl, rfl, rfl, rfl, rfl⟩
  · intro v hv
    cases hv
    have hrax : s₁.regs .rax = y := (e₁ _ hy).eq
    have hneg : (s₁.set .rax (-s₁.regs .rax)).regs .rax = -y := by
      rw [State.set_regs, if_pos rfl, hrax]
    change Encodes H (.int (-y)) ((s₁.set .rax (-s₁.regs .rax)).regs .rax)
    rw [hneg]
    exact .int

/-- The check of an index leaves it alone, or leads to the trap. -/
theorem leads_check {P : Outcome → Prop} {element : Ty} {length : UInt64} {check : Code}
    (hm : p.Makes a) (hck : Checks a (.array element length) check)
    (hlen : length.toNat < 2 ^ 63) (hsp : 0 ≤ s.sp) (hlow : low ≤ s.sp - 16)
    (hc : CodeAt a s.line check)
    (hin : 0 ≤ (s.regs .rax).toInt → (s.regs .rax).toInt < length.toNat →
      ∀ t, t.line = s.line + check.length → s.SameMemory t → t.regs .rax = s.regs .rax →
        Leads H low P t)
    (hout : ¬ (0 ≤ (s.regs .rax).toInt ∧ (s.regs .rax).toInt < length.toNat) →
      P (.ended ⟨1, s.output ++ [.overflow]⟩)) : Leads H low P s := by
  cases hck with
  | @array _ _ n hn =>
    obtain ⟨k, hk⟩ := hm.trap n hn
    have hline := hm.numbered n k (codeAt_cons.1 hk).1
    have h₁ := (codeAt_code_cons.1 hc).2
    have h₂ := (codeAt_code_cons.1 h₁).2
    have hlow₁ : low ≤ s.sp := by omega
    refine Leads.instr hc rfl hlow₁ fun _ => Leads.instr h₁ rfl hlow₁ fun _ => ?_
    refine Leads.jae h₂ hline hlow₁ (x := s.regs .rax) (y := length.toInt64) rfl ?_ ?_
    · intro hle
      have hout := hout fun h => (Int64.toUInt64_lt_iff hlen).2 h hle
      refine Leads.mono (Leads.trap (n := n) hk hsp hlow) ?_
      rintro o rfl
      exact hout
    · intro hlt
      have hbounds := (Int64.toUInt64_lt_iff hlen).1 hlt
      exact hin hbounds.1 hbounds.2 _ rfl ⟨rfl, rfl, rfl, rfl, rfl⟩ rfl
  | other ho => cases ho

theorem follows_placeVar (hl : p.Linked) {x : String} {slot : Slot} {place : Address}
    (hi : Inside H p f b m s) (hlow : low ≤ s.sp) (hx : (Expr.var n x slot).LinkedIn p f)
    (hp : Lowering.storage? (Frame.layout f) x slot = some place)
    (hc : CodeAt a s.line (code [.lea place .rax])) :
    Follows H low ((Semantics.place p H.order (fuel + 1) depth (.var n x slot)).run m)
      (fun d m' t => Continues H p f b s 1 m' t ∧ Places H p f b d (t.regs .rax).toInt) s := by
  obtain ⟨v, hd, hv, hfun⟩ := hx
  have hvalid := valid_of_declares hl hi.function hd
  have hplace := places_of_storage hl hi.function hi.stands (i := 0) hd hp
    (word_le_size hvalid hfun)
  rw [Nat.cast_zero, mul_zero, add_zero] at hplace
  rw [Semantics.place]
  refine Leads.instr hc rfl hlow fun _ => Follows.pure ⟨?_, hplace⟩
  exact hi.continues rfl ⟨rfl, rfl, rfl, rfl, rfl⟩

theorem follows_element (hl : p.Linked) (hm : p.Makes a) (hn : Simulates H p low fuel)
    {x : String} {slot : Slot} {nb : Note} {i : Expr} {element : Ty} {length : UInt64}
    {check : Code} {place : Address} (hi : Inside H p f b m s)
    (hr : Roomy p low depth (i.nodes.length + 1) s) (hx : (Expr.var nb x slot).LinkedIn p f)
    (hix : ∀ x ∈ i.nodes, x.LinkedIn p f)
    (ht : nb.ty = some (.array element length)) (he : EmitsValue a (Frame.layout f) i c)
    (hck : Checks a (.array element length) check)
    (hp : Lowering.storage? (Frame.layout f) x slot = some place)
    (hc : CodeAt a s.line (c ++ check ++ code [.push (.reg .rax)] ++ code [.lea place .rax] ++
      code [.pop .rcx, .lea (.element .rax .rcx) .rax])) :
    Follows H low ((Semantics.place p H.order (fuel + 1) depth (.index n (.var nb x slot) i)).run m)
      (fun d m' t => Continues H p f b s (c.length + check.length + 1 + 1 + 2) m' t ∧
        Places H p f b d (t.regs .rax).toInt) s := by
  simp only [codeAt_append, List.length_append, length_code, List.length_cons, List.length_nil,
    Nat.zero_add, ← Nat.add_assoc] at hc
  obtain ⟨⟨⟨⟨hci, hcheck⟩, hpush⟩, hlea⟩, hpop⟩ := hc
  obtain ⟨v, hd, hv, hfun⟩ := hx
  have hvalid := valid_of_declares hl hi.function hd
  have hty : v.ty = .array element length := (Option.some.inj (ht.symm.trans hv)).symm
  have hsize : v.ty.size = 8 * length.toNat := by
    rw [Typing.size_eq_bytes hvalid, hty]
    rfl
  have hle := v.ty.size_le
  have hmax : Ty.maxSize = 2 ^ 63 - 1 := rfl
  simp only [Semantics.place, ht]
  refine (hn.value hi (hr.of_sp rfl (by omega)) hix he hci).bind fun u m₁ s₁ ⟨k₁, e₁⟩ => ?_
  refine .integer fun j hj => ?_
  have hi₁ := hi.after k₁
  have hrax : s₁.regs .rax = j := (e₁ _ hj).eq
  rw [← k₁.line] at hcheck hpush hlea hpop
  -- the interpreter checks the index as the code does: within the array, or the run ends
  have hlow := (hr.after k₁).low_le_sub
  refine leads_check hm hck (by omega) hi₁.stands.nonneg (by omega) hcheck ?_ ?_
  · intro hlo hhi s₂ hline₂ hs₂ hrax₂
    rw [hrax] at hlo hhi
    rw [if_pos ⟨hlo, hhi⟩]
    have k₂ : Continues H p f b s (c.length + check.length) m₁ s₂ :=
      k₁.trans (hi₁.continues hline₂ hs₂)
    have hi₂ := hi.after k₂
    rw [← hline₂] at hpush hlea hpop
    refine hi₂.pushes hm (hr.after k₂) hpush fun hroom hi₃ hr₃ => ?_
    have hplace := places_of_storage hl hi.function hi₃.stands (i := j.toInt.toNat) hd hp
      (by omega)
    refine Leads.instr hlea rfl hr₃.low_le fun _ => ?_
    set s₃ := ((s₂.pushed (s₂.regs .rax)).next.set .rax
      ((s₂.pushed (s₂.regs .rax)).next.locate H place)).next with hs₃
    have k₃ : Continues H p f b (s₂.pushed (s₂.regs .rax)).next 1 m₁ s₃ :=
      hi₃.continues rfl ⟨rfl, rfl, rfl, rfl, rfl⟩
    have hover := k₂.over hi.stands hroom k₃
    have hlast := (codeAt_code_cons.1 hpop).2
    have hstands := (hi₃.after k₃).stands
    have hlow₃ := (hr₃.after k₃).low_le
    refine Leads.pop (s := s₃) hpop nofun hstands.fits hstands.sp_aligned hlow₃ ?_
    set s₄ := (s₃.popped .rcx).next with hs₄
    have hlow₄ : low ≤ s₄.sp := hr.low_le.trans_eq (congrArg Int64.toInt hover.rsp.symm)
    have hrcx : s₄.regs .rcx = j := hover.saved.trans (hrax₂.trans hrax)
    have haddress : (s₄.regs .rax + 8 * s₄.regs .rcx).toInt =
        (s₃.regs .rax).toInt + 8 * j.toInt.toNat := by
      have hlt := hplace.lt hm hi₃.stands
      have hj : (s₄.regs .rcx).toInt = j.toInt.toNat := by
        rw [hrcx]
        omega
      exact Int64.toInt_add_eight_mul hj hlt (by omega)
    refine Leads.instr (s := s₄) hlast rfl hlow₄ fun _ => Follows.pure ⟨?_, ?_⟩
    · refine hover.continues k₃.holds ?_ rfl rfl rfl rfl rfl
      change s₂.line + 1 + 1 + 1 + 1 = _
      rw [k₂.line]
      omega
    · change Places H p f b _ (s₄.regs .rax + 8 * s₄.regs .rcx).toInt
      rw [haddress]
      exact hplace
  · intro hout
    rw [hrax] at hout
    rw [if_neg hout, hi₁.holds.output]
    rfl

theorem follows_index (hl : p.Linked) (hm : p.Makes a) (hn : Simulates H p low fuel)
    {base i : Expr} (hi : Inside H p f b m s)
    (hr : Roomy p low depth (Expr.index n base i).nodes.length s)
    (hx : ∀ x ∈ (Expr.index n base i).nodes, x.LinkedIn p f)
    (he : EmitsAddress a (Frame.layout f) (.index n base i) c)
    (hc : CodeAt a s.line (c ++ code [load (.direct .rax) .rax])) :
    Follows H low ((Semantics.value p H.order (fuel + 1) depth (.index n base i)).run m)
      (Yields H p f b s (c.length + 1)) s := by
  obtain ⟨hc, hload⟩ := codeAt_append.1 hc
  rw [Semantics.value]
  refine (hn.place hi hr hx he hc).bind fun cell m₁ s₁ ⟨k₁, hcell⟩ => ?_
  rw [← k₁.line] at hload
  have hi₁ := hi.after k₁
  have haligned := hcell.aligned hl hm hi.function hi.stands.base_aligned
  refine Leads.fetch hload haligned (hr.after k₁).low_le ?_
  set s₂ := (s₁.set .rax (s₁.mem (s₁.locate H (.direct .rax)).toInt)).next with hs₂
  have k₂ : Continues H p f b s (c.length + 1) m₁ s₂ :=
    k₁.trans (hi₁.continues rfl ⟨rfl, rfl, rfl, rfl, rfl⟩)
  split
  · exact Follows.pure ⟨k₂, nofun⟩
  · refine Follows.fetch fun v hv => Follows.pure ⟨k₂, ?_⟩
    intro y hy
    cases hy
    exact hi₁.holds.cells cell v _ hv hcell

end

end Bpl.Simulation
