import Bpl.Proofs.Simulation.Inside

namespace Bpl.Simulation

open Asm Machine
open Lowering (EmitsFunction code move epilogue prologue)

variable {a : Assembly} {H : Host a} {p : Program} {f : Function} {low b : Int} {m m' : Store}
  {s s₁ t : State} {fuel depth : Nat} {P : Outcome → Prop}

/-- The end of a function: the frame is given back, and the main function makes its status zero. -/
theorem leads_epilogue (hi : Inside H p f b m s) (hlow : low ≤ s.sp) {v : Option Value}
    (hv : ∀ x, v = some x → Encodes H x (s.regs .rax))
    (hc : CodeAt a s.line (epilogue (Frame.layout f)))
    (hk : ∀ t, Returns H p f b s v m t → Leads H low P t) : Leads H low P s := by
  have hbase := hi.stands.base_aligned
  have hrbp := hi.stands.rbp
  have htop := H.top_lt
  have hin := hi.stands.within
  have hbelow := hi.stands.below
  have hlow_base : low ≤ (s.regs .rbp).toInt := by omega
  rw [epilogue] at hc
  have hmain : (Frame.layout f).isMain = f.isMain := rfl
  rw [hmain] at hc
  cases hf : f.isMain with
  | true =>
    rw [hf, if_pos rfl] at hc
    have h₁ := (codeAt_code_cons.1 hc).2
    have h₂ := (codeAt_code_cons.1 h₁).2
    have h₃ := (codeAt_code_cons.1 h₂).2
    -- `main` pops the frame pointer of its caller, and returns from the word above
    refine Leads.instr hc rfl hlow fun _ => Leads.instr h₁ rfl hlow_base fun _ => ?_
    set s₁ := ((s.set .rax 0).spoilFlags.next.set .rsp (s.regs .rbp)).next with hs₁
    have hsp : s₁.sp = b := hrbp
    refine Leads.pop (s := s₁) h₂ nofun (by omega) (by omega) (by omega)
      (hk _ ⟨h₃, ?_, ?_, ?_, ?_, ?_⟩)
    · rw [hf, if_pos rfl]
      change (s₁.regs .rsp + 8).toInt = b + 8
      rw [Int64.toInt_add_eight (by change s₁.sp + 8 < _; omega)]
      change s₁.sp + 8 = b + 8
      rw [hsp]
    · exact hi.holds.congr rfl rfl fun _ _ _ => rfl
    · exact fun _ _ _ _ => rfl
    · exact fun _ => rfl
    · intro hf'
      rw [hf] at hf'
      cases hf'
  | false =>
    rw [hf, if_neg nofun] at hc
    have h₁ := (codeAt_code_cons.1 hc).2
    refine Leads.instr hc rfl hlow_base fun _ => hk _ ⟨h₁, ?_, ?_, ?_, ?_, ?_⟩
    · rw [hf, if_neg nofun]
      exact hrbp
    · exact hi.holds.congr rfl rfl fun _ _ _ => rfl
    · exact fun _ _ _ _ => rfl
    · intro hf'
      rw [hf] at hf'
      cases hf'
    · exact fun _ => hv

theorem locals_aligned (hl : p.Linked) (hf : f ∈ p.functions) :
    Variable.totalSize f.locals % 8 = 0 :=
  totalSize_aligned fun v hv => size_aligned (hl.own f hf v (List.mem_append_right _ hv))

/-- The frame pointer is set, and there is room for the locals below. -/
theorem leads_frame (hl : p.Linked) (hf : f ∈ p.functions) (hb : s.sp = b)
    (haligned : b % 8 = 0) (hin : b + 16 + 8 * f.params.length ≤ H.top + 8)
    (hroom : H.limit ≤ s.sp) (hlow : low + Variable.totalSize f.locals ≤ s.sp)
    (hh : Holds H p f b m s)
    (hc : CodeAt a s.line (code ([move .rsp .rbp] ++
      if Variable.totalSize f.locals = 0 then []
      else [.op .sub (.imm (Int64.ofNat (Variable.totalSize f.locals))) .rsp])))
    (hk : ∀ t, t.line = s.line + (1 + if Variable.totalSize f.locals = 0 then 0 else 1) →
      Inside H p f b m t → t.sp = b - Variable.totalSize f.locals → t.mem = s.mem →
        Leads H low P t) : Leads H low P s := by
  have hlimit := H.limit_nonneg
  have hsize := locals_aligned hl hf
  have hfits := hl.fits f hf
  have hmax : Ty.maxObjectSize = 2 ^ 31 - 1 := rfl
  set size := Variable.totalSize f.locals with hsizedef
  have hlow₁ : low ≤ s.sp := by omega
  refine Leads.instr hc rfl hlow₁ fun hroom₁ => ?_
  have h₁ := (codeAt_code_cons.1 hc).2
  set s₁ := (s.set .rbp (s.regs .rsp)).next with hs₁
  have hh₁ : Holds H p f b m s₁ := hh.congr rfl rfl fun _ _ _ => rfl
  have hsp₁ : s₁.sp = b := hb
  by_cases h : size = 0
  · rw [if_pos h] at hk
    exact hk s₁ rfl ⟨hf, ⟨hsp₁, by omega, hroom₁, by omega, haligned, hin⟩, hh₁⟩ (by omega) rfl
  · rw [if_neg h] at hk h₁
    have hn : (Int64.ofNat size).toInt = size := Int64.toInt_ofNat_of_lt (by omega)
    have hlt := (s₁.regs .rsp).toInt_lt
    have hreg : (s₁.regs .rsp).toInt = b := hsp₁
    have hsp₂ : (s₁.regs .rsp - Int64.ofNat size).toInt = b - size := by
      rw [Int64.toInt_sub_of_fits, hn, hreg]
      all_goals
        rw [hn]
        omega
    have hlow₂ : low ≤ (s₁.regs .rsp - Int64.ofNat size).toInt := by omega
    refine Leads.instr (s := s₁) h₁ rfl hlow₂ fun hroom₂ => ?_
    set s₂ := (s₁.set .rsp (s₁.regs .rsp - Int64.ofNat size)).spoilFlags.next with hs₂
    have hsp : s₂.sp = b - size := hsp₂
    refine hk s₂ rfl ⟨hf, ⟨hsp₁, hsp.le, hroom₂, by omega, haligned, hin⟩, ?_⟩ hsp rfl
    exact hh₁.congr rfl rfl fun _ _ _ => rfl

/-- Where the frame pointer is put when a function is entered with the return address at `r`. -/
def entryBase (f : Function) (r : Int) : Int :=
  if f.isMain then r - 8 else r

/-- A function is entered. The main function keeps the frame pointer of its caller. -/
theorem leads_prologue (hm : p.Makes a) (hl : p.Linked) (hf : f ∈ p.functions)
    (hb : b = entryBase f s.sp) (hroom : H.limit ≤ s.sp) (haligned : s.sp % 8 = 0)
    (hlow : low + 8 + Variable.totalSize f.locals ≤ s.sp)
    (hin : b + 16 + 8 * f.params.length ≤ H.top + 8) (hh : Holds H p f b m s)
    (hc : CodeAt a s.line (prologue (Frame.layout f)))
    (hk : ∀ t, t.line = s.line + (prologue (Frame.layout f)).length → Inside H p f b m t →
      t.sp = b - Variable.totalSize f.locals → (∀ w, s.sp ≤ w → t.mem w = s.mem w) →
        Leads H low P t) : Leads H low P s := by
  have hlimit := H.limit_nonneg
  have hmain : (Frame.layout f).isMain = f.isMain := rfl
  have hsize : (Frame.layout f).size = Variable.totalSize f.locals := rfl
  rw [prologue, hmain, hsize] at hc hk
  rw [length_code] at hk
  cases hf' : f.isMain with
  | true =>
    rw [entryBase, hf', if_pos rfl] at hb
    rw [hf', if_pos rfl, List.append_assoc] at hc hk
    have h₁ := (codeAt_code_cons.1 hc).2
    refine Leads.push hc rfl (by omega) haligned (by omega) fun hroom₁ => ?_
    set s₁ := (s.pushed (s.regs .rbp)).next with hs₁
    have hsp₁ : s₁.sp = s.sp - 8 := s.sp_pushed (s.regs .rbp) (by omega)
    have hmem : ∀ w, w ≠ b → s₁.mem w = s.mem w := by
      intro w hw
      rw [hs₁, State.next_mem, s.mem_pushed (s.regs .rbp) w (by omega), if_neg (by omega)]
    -- the word that `main` pushes for the frame pointer is that of no variable
    have hh₁ : Holds H p f b m s₁ := by
      refine hh.congr rfl rfl fun c z hz => hmem z ?_
      rintro rfl
      rcases hz.isData_or_owns hm with hd | ho | ho
      · rw [Host.isData_eq_false (by omega) (by omega)] at hd
        cases hd
      · omega
      · omega
    refine leads_frame (s := s₁) hl hf (by omega) (by omega) hin (by omega) (by omega) hh₁ h₁ ?_
    intro t hline ht hsp hmem'
    refine hk t ?_ ht hsp fun w hw => ?_
    · rw [hline]
      split <;> rfl
    · rw [hmem', hmem w (by omega)]
  | false =>
    rw [entryBase, hf', if_neg Bool.false_ne_true] at hb
    rw [hf', if_neg Bool.false_ne_true, List.nil_append] at hc hk
    refine leads_frame hl hf hb.symm (by omega) hin hroom (by omega) hh hc ?_
    intro t hline ht hsp hmem
    refine hk t ?_ ht hsp fun w _ => congrFun hmem w
    rw [hline]
    split <;> rfl

/-- The body of a function is run, up to its return. -/
theorem Simulates.function (hn : Simulates H p low fuel) (hm : p.Makes a) (hl : p.Linked)
    (hf : f ∈ p.functions) {c : Code} (hc : CodeAt a s.line c) (he : EmitsFunction a f c)
    (hb : b = entryBase f s.sp) (hroom : H.limit ≤ s.sp) (haligned : s.sp % 8 = 0)
    (hlow : low + (p.need depth 0 + f.span : Nat) ≤ s.sp + 16)
    (hin : b + 16 + 8 * f.params.length ≤ H.top + 8) (hh : Holds H p f b m s) :
    Follows H low ((Semantics.block p H.order fuel depth f.body).run m)
      (fun v m' t => Returns H p f b s v.join m' t) s := by
  cases he with
  | @mk c hbody =>
    simp only [codeAt_append, List.length_append, ← Nat.add_assoc] at hc
    obtain ⟨⟨⟨hlabel, hpro⟩, hbodyCode⟩, hepi⟩ := hc
    refine Leads.label hlabel ?_
    have hh' : Holds H p f b m s.next := hh.congr rfl rfl fun _ _ _ => rfl
    refine leads_prologue (s := s.next) hm hl hf hb hroom haligned (low_add_totalSize_le hlow) hin
      hh' hpro ?_
    intro s₁ hline hi₁ hsp₁ hmem
    have hline : s₁.line = s.line + 1 + (prologue (Frame.layout f)).length := hline
    have hmem : ∀ w, s.sp ≤ w → s₁.mem w = s.mem w := hmem
    have hbase : s.sp - 8 ≤ b ∧ b ≤ s.sp := by
      rw [entryBase] at hb
      split at hb <;> omega
    have hr₁ : Roomy p low depth (Expr.nodesOfList f.body.exprs).length s₁ :=
      Roomy.of_span hlow (by omega)
    have hreturn : ∀ {v m' t}, Returns H p f b s₁ v m' t → Returns H p f b s v m' t := by
      intro v m' t ht
      refine ⟨ht.line, ht.sp, ht.holds, fun w hw hd ho => ?_, ht.status, ht.value⟩
      rw [ht.keeps w (by omega) hd ho, hmem w hw]
    have hbodyCode : CodeAt a s₁.line c := by
      rw [hline]
      exact hbodyCode
    refine Follows.extend (hn.block hi₁ hr₁ (hl.nodes f hf) hbody hbodyCode) ?_
    intro r m' t ht
    cases r with
    | none =>
      have hc : Continues H p f b s₁ c.length m' t := ht
      have hepi : CodeAt a t.line (epilogue (Frame.layout f)) := by
        rw [hc.line, hline]
        exact hepi
      exact leads_epilogue (v := none) (hi₁.after hc) (hr₁.after hc).low_le nofun hepi fun t' ht' =>
        Leads.here ⟨t', rfl, hreturn (ht'.of_continues hc)⟩
    | some v => exact Leads.here ⟨t, rfl, hreturn ht⟩

end Bpl.Simulation
