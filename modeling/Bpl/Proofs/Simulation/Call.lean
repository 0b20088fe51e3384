import Bpl.Proofs.Simulation.Function

namespace Bpl.Simulation

open Asm Machine
open Lowering (EmitsValue EmitsArguments code load move)

variable {a : Assembly} {H : Host a} {p : Program} {f g : Function} {low b : Int}
  {m m₁ m₂ : Store} {s s₁ s₂ t u : State} {fuel depth n k : Nat} {c d : Code} {vs : List Value}
  {P : Outcome → Prop}

theorem follows_noArguments (hi : Inside H p f b m s) :
    Follows H low ((Semantics.arguments p H.order (fuel + 1) depth []).run m)
      (fun vs m' t => vs.length = 0 ∧ Pushes H p f b s 0 vs m' t) s := by
  rw [Semantics.arguments]
  refine Follows.pure ⟨rfl, rfl, rfl, ?_, hi.stands.room, hi.holds, fun _ _ _ _ => rfl, nofun⟩
  simp

theorem follows_moreArguments (hm : p.Makes a) (hn : Simulates H p low fuel) {e : Expr}
    {es : List Expr} (hi : Inside H p f b m s)
    (hr : Roomy p low depth (Expr.nodesOfList (e :: es)).length s)
    (hx : ∀ x ∈ Expr.nodesOfList (e :: es), x.LinkedIn p f)
    (he : EmitsValue a (Frame.layout f) e c) (hes : EmitsArguments a (Frame.layout f) es d)
    (hc : CodeAt a s.line (c ++ code [.push (.reg .rax)] ++ d)) :
    Follows H low ((Semantics.arguments p H.order (fuel + 1) depth (e :: es)).run m)
      (fun vs m' t => vs.length = es.length + 1 ∧
        Pushes H p f b s (c.length + 1 + d.length) vs m' t) s := by
  rw [Expr.nodesOfList, List.forall_mem_append] at hx
  rw [Expr.nodesOfList, List.length_append] at hr
  have hpos := List.length_pos_of_mem e.mem_nodes_self
  simp only [codeAt_append, List.length_append, length_code, List.length_cons, List.length_nil,
    Nat.zero_add, ← Nat.add_assoc] at hc
  obtain ⟨⟨hce, hpush⟩, hces⟩ := hc
  rw [Semantics.arguments]
  refine (hn.value hi (hr.of_sp rfl (by omega)) hx.1 he hce).bind fun r m₁ s₁ ⟨k₁, e₁⟩ => ?_
  refine .needed fun v hv => ?_
  have hi₁ := hi.after k₁
  have hr₁ : Roomy p low depth ((Expr.nodesOfList es).length + 1) s₁ :=
    hr.of_sp k₁.sp (by omega)
  rw [← k₁.line] at hpush hces
  refine hi₁.pushes hm hr₁ hpush fun hroom hi₂ hr₂ => ?_
  set s₂ := (s₁.pushed (s₁.regs .rax)).next with hs₂
  refine (hn.arguments hi₂ hr₂ hx.2 hes hces).bind fun vs m₂ t ⟨hlen, hp⟩ => ?_
  have hsp₁ := k₁.sp
  have hsp₂ : s₂.sp = s₁.sp - 8 := s₁.sp_pushed (s₁.regs .rax) hi₁.stands.nonneg
  have hmem : ∀ w, s₂.mem w = if w = s₁.sp - 8 then s₁.regs .rax else s₁.mem w :=
    fun w => s₁.mem_pushed (s₁.regs .rax) w hi₁.stands.nonneg
  have hbelow := hi.stands.below
  refine Follows.pure ⟨by rw [List.length_cons, hlen], ?_, hp.rbp.trans k₁.rbp, ?_, hp.room,
    hp.holds, fun w hw hd ho => ?_, fun j v' hj => ?_⟩
  · rw [hp.line, hs₂, State.next_line, State.pushed_line, k₁.line]
    omega
  · rw [hp.sp, List.length_cons]
    omega
  · rw [hp.keeps w (by omega) hd ho, hmem, if_neg (by omega), k₁.keeps w hw hd ho]
  · cases j with
    | zero =>
      cases hj
      obtain ⟨hd, ho⟩ := hi.stands.free (w := s₁.sp - 8) hroom (by omega)
      have hz : s.sp - 8 * ((0 : Nat) + 1) = s₁.sp - 8 := by omega
      rw [hz, hp.keeps _ (by omega) hd ho, hmem, if_pos rfl]
      exact e₁ v hv
    | succ j =>
      have hz : s.sp - 8 * ((j + 1 : Nat) + 1) = s₂.sp - 8 * (j + 1) := by omega
      rw [hz]
      exact hp.values j v' hj

/-- A function is entered from a call: the frame pointer and the return address are pushed. -/
structure Enters (H : Host a) (s t : State) : Prop where
  sp : t.sp = s.sp - 16
  room : H.limit ≤ t.sp
  returnAddress : t.mem t.sp = H.codeAddress (s.line + 1 + 1)
  saved : t.mem (t.sp + 8) = s.regs .rbp
  mem : ∀ w, s.sp ≤ w ∨ H.isData w → t.mem w = s.mem w
  input : t.input = s.input
  output : t.output = s.output

/-- Where a function begins that is called. -/
def calling (H : Host a) (s : State) (k : Nat) : State :=
  ((s.pushed (s.regs .rbp)).next.pushed (H.codeAddress (s.line + 1 + 1))).goto k

theorem enters_calling (k : Nat) (hroom : H.limit ≤ s.sp - 16) (htop : s.sp ≤ H.top) :
    Enters H s (calling H s k) := by
  have hlimit := H.limit_nonneg
  set s₁ := (s.pushed (s.regs .rbp)).next with hs₁
  have hsp₁ : s₁.sp = s.sp - 8 := by rw [hs₁, State.sp_next, s.sp_pushed _ (by omega)]
  have hm₁ : ∀ w, s₁.mem w = if w = s.sp - 8 then s.regs .rbp else s.mem w :=
    fun w => s.mem_pushed (s.regs .rbp) w (by omega)
  set s₂ := s₁.pushed (H.codeAddress (s.line + 1 + 1)) with hs₂
  have hsp₂ : s₂.sp = s₁.sp - 8 := s₁.sp_pushed _ (by omega)
  have hm₂ : ∀ w, s₂.mem w =
      if w = s₁.sp - 8 then H.codeAddress (s.line + 1 + 1) else s₁.mem w :=
    fun w => s₁.mem_pushed _ w (by omega)
  have hcalling : calling H s k = s₂.goto k := rfl
  rw [hcalling]
  refine ⟨?_, ?_, ?_, ?_, fun w hw => ?_, ?_, ?_⟩
  · rw [State.sp_goto]
    omega
  · rw [State.sp_goto]
    omega
  · rw [State.sp_goto, State.goto_mem, hm₂, if_pos hsp₂]
  · rw [State.sp_goto, State.goto_mem, hm₂, if_neg (by omega), hm₁, if_pos (by omega)]
  · have hfree : w ≠ s.sp - 8 ∧ w ≠ s.sp - 16 := by
      constructor <;>
      · rintro rfl
        rcases hw with hw | hw
        · omega
        · rw [Host.isData_eq_false (by omega) (by omega)] at hw
          cases hw
    rw [State.goto_mem, hm₂, if_neg (by omega), hm₁, if_neg hfree.1]
  · rw [State.goto_input, hs₂, State.pushed_input, hs₁, State.next_input, State.pushed_input]
  · rw [State.goto_output, hs₂, State.pushed_output, hs₁, State.next_output, State.pushed_output]

theorem leads_enter {is : List Instr} {l : Label}
    (hc : CodeAt a s.line (code (.push (.reg .rbp) :: .call l :: is)))
    (hk : lineOf? a l = some k) (hroom : H.limit ≤ s.sp) (htop : s.sp ≤ H.top)
    (ha : s.sp % 8 = 0) (hlow : low ≤ s.sp - 16)
    (ht : ∀ t, t.line = k → Enters H s t → Leads H low P t) : Leads H low P s := by
  have hlimit := H.limit_nonneg
  have h₁ := (codeAt_code_cons.1 hc).2
  refine Leads.push hc rfl (by omega) ha (by omega) fun hl₁ => ?_
  set s₁ := (s.pushed (s.regs .rbp)).next with hs₁
  have hsp₁ : s₁.sp = s.sp - 8 := s.sp_pushed (s.regs .rbp) (by omega)
  refine Leads.call (s := s₁) h₁ hk (by omega) (by omega) (by omega) fun hl₂ => ?_
  exact ht (calling H s k) rfl (enters_calling k (by omega) htop)

theorem Places.of_global {b' : Int} {x : String} {i : Nat} {z : Int}
    (h : Places H p f b (.global x i) z) : Places H p g b' (.global x i) z := by
  cases h with
  | global hv hn hi => exact .global hv hn hi

/-- The function that is called finds its arguments. -/
theorem Pushes.holds_enter (hm : p.Makes a) (hp : Pushes H p f b s n vs m₁ s₁)
    (he : Enters H s₁ t) (hlen : vs.length = g.params.length)
    (hmain : g.isMain = true → g.params = []) :
    Holds H p g (entryBase g t.sp) { m₁ with cells := Semantics.enter m₁.cells vs } t := by
  have hsp := hp.sp
  have hsp' := he.sp
  refine ⟨he.input.trans hp.holds.input, he.output.trans hp.holds.output, fun c v z hv hz => ?_⟩
  cases c with
  | global x i =>
    rw [he.mem z (.inr (hz.isData hm))]
    exact hp.holds.cells _ v z hv hz.of_global
  | parameter j i =>
    cases hz with
    | parameter hj =>
      have hg : g.isMain = false := by
        cases hg : g.isMain with
        | false => rfl
        | true =>
          rw [hmain hg] at hj
          cases hj
      have hz : entryBase g t.sp + Frame.paramOffset g.params.length j =
          s.sp - 8 * (j + 1) := by
        rw [entryBase, hg, if_neg Bool.false_ne_true]
        simp only [Frame.paramOffset, Ty.wordSize]
        omega
      rw [hz, he.mem _ (.inl (by omega))]
      exact hp.values j v hv
  | localVar j i => cases hv

/-- The return address, the frame pointer of the caller and all above the arguments are none of
the variables of the function that is called. -/
theorem not_owns {r w : Int} (hmain : g.isMain = true → g.params = [])
    (hw : w = r ∨ w = r + 8 ∨ r + 16 + 8 * g.params.length ≤ w) :
    ¬ Owns g (entryBase g r) w := by
  rw [entryBase]
  split
  · next h =>
    have hlen : g.params.length = 0 := by rw [hmain h, List.length_nil]
    rintro (ho | ho) <;> omega
  · rintro (ho | ho) <;> omega

theorem Returns.sp_eq {v : Option Value} (h : Returns H p g (entryBase g s.sp) s v m t) :
    t.sp = s.sp := by
  have hsp := h.sp
  rw [entryBase] at hsp
  split at hsp <;> omega

/-- The caller goes on behind the call, with its own frame pointer. -/
theorem leads_leave {v : Option Value} {is : List Instr} (he : Enters H s s₁)
    (hr : Returns H p g (entryBase g s₁.sp) s₁ v m t) (hmain : g.isMain = true → g.params = [])
    (ha : s.sp % 8 = 0) (htop : s.sp ≤ H.top) (hlow : low ≤ s.sp - 16)
    (hc : CodeAt a (s.line + 1 + 1) (code (.pop .rbp :: is)))
    (hk : ∀ u, u.line = s.line + 3 → u.sp = s.sp → u.regs .rbp = s.regs .rbp →
      u.regs .rax = t.regs .rax → u.mem = t.mem → u.input = t.input → u.output = t.output →
        Leads H low P u) : Leads H low P t := by
  have hsp₁ := he.sp
  have hroom := he.room
  have hlt := H.top_lt
  have hsp := hr.sp_eq
  have hkeeps : ∀ w, w = s₁.sp ∨ w = s₁.sp + 8 → t.mem w = s₁.mem w := by
    intro w hw
    refine hr.keeps w (by omega) (Host.isData_eq_false (by omega) (by omega)) ?_
    exact not_owns hmain (hw.imp_right .inl)
  have hreturn : t.mem t.sp = H.codeAddress (s.line + 1 + 1) := by
    rw [hsp, hkeeps _ (.inl rfl)]
    exact he.returnAddress
  refine Leads.ret hr.line (by omega) (by omega) hreturn (codeAt_code_cons.1 hc).1 (by omega) ?_
  set t₁ := (t.set .rsp (t.regs .rsp + 8)).goto (s.line + 1 + 1) with ht₁
  have hsp₂ : t₁.sp = t.sp + 8 := Int64.toInt_add_eight (by change t.sp + 8 < _; omega)
  refine Leads.pop (s := t₁) hc nofun (by omega) (by omega) (by omega)
    (hk _ rfl ?_ ?_ rfl rfl rfl rfl)
  · change (t₁.regs .rsp + 8).toInt = s.sp
    have hfit : t₁.sp + 8 < 2 ^ 63 := by omega
    rw [Int64.toInt_add_eight hfit]
    change t₁.sp + 8 = s.sp
    omega
  · change t.mem t₁.sp = s.regs .rbp
    rw [hsp₂, hsp, hkeeps _ (.inr rfl)]
    exact he.saved

/-- The arguments are dropped after a call. -/
theorem leads_drop {es : List Expr} (hc : CodeAt a s.line (code (if es.isEmpty then []
      else [.op .add (.imm (Int64.ofNat (Ty.wordSize * es.length))) .rsp])))
    (hsp : 0 ≤ s.sp) (hfit : s.sp + 8 * es.length < 2 ^ 63) (hlow : low ≤ s.sp)
    (hk : ∀ u, u.line = s.line + (if es.isEmpty then [] else
        [Instr.op .add (.imm (Int64.ofNat (Ty.wordSize * es.length))) .rsp]).length →
      u.sp = s.sp + 8 * es.length → u.regs .rbp = s.regs .rbp → u.regs .rax = s.regs .rax →
        u.mem = s.mem → u.input = s.input → u.output = s.output → Leads H low P u) :
    Leads H low P s := by
  cases es with
  | nil => exact hk s rfl (by simp) rfl rfl rfl rfl rfl
  | cons e es =>
    set n := (e :: es).length with hn
    have hnat : (Int64.ofNat (Ty.wordSize * n)).toInt = 8 * n := by
      rw [Int64.toInt_ofNat_of_lt] <;> simp only [Ty.wordSize] <;> omega
    have hsum : (s.regs .rsp + Int64.ofNat (Ty.wordSize * n)).toInt = s.sp + 8 * n := by
      have hreg : (s.regs .rsp).toInt = s.sp := rfl
      rw [Int64.toInt_add_of_fits, hnat, hreg]
      all_goals
        rw [hnat]
        omega
    have hlow' : low ≤ (s.regs .rsp + Int64.ofNat (Ty.wordSize * n)).toInt := by omega
    exact Leads.instr hc rfl hlow' fun _ => hk _ rfl hsum rfl rfl rfl rfl rfl

/-- What a call leaves of the words from the stack pointer of the caller on. -/
theorem Returns.keeps_caller {v : Option Value} (hp : Pushes H p f b s n vs m₁ s₁)
    (he : Enters H s₁ s₂) (hr : Returns H p g (entryBase g s₂.sp) s₂ v m₂ t)
    (hmain : g.isMain = true → g.params = []) (hlen : vs.length = g.params.length) {w : Int}
    (hw : s.sp ≤ w) (hd : H.isData w = false) : t.mem w = s₁.mem w := by
  have hsp := hp.sp
  have hsp₂ := he.sp
  rw [hr.keeps w (by omega) hd (not_owns hmain (.inr (.inr (by omega)))),
    he.mem w (.inl (by omega))]

/-- The variables after a call: those of the caller are as before. -/
theorem Returns.holds_leave {v : Option Value} (hs : Stands H f b s)
    (hp : Pushes H p f b s n vs m₁ s₁) (he : Enters H s₁ s₂)
    (hr : Returns H p g (entryBase g s₂.sp) s₂ v m₂ t) (hmain : g.isMain = true → g.params = [])
    (hlen : vs.length = g.params.length) :
    Holds H p f b { m₂ with cells := Semantics.leave m₁.cells m₂.cells } t := by
  have hown : ∀ {c v z}, m₁.cells c = some v → Places H p f b c z → Owns f b z →
      Encodes H v (t.mem z) := by
    intro c v z hv hz ho
    have hlow : s.sp ≤ z := by
      have := hs.below
      rcases ho with ho | ho <;> omega
    rw [hr.keeps_caller hp he hmain hlen hlow (ho.isData_eq_false hs)]
    exact hp.holds.cells c v z hv hz
  refine ⟨hr.holds.input, hr.holds.output, fun c v z hv hz => ?_⟩
  cases c with
  | global x i => exact hr.holds.cells _ v z hv hz.of_global
  | parameter j i => exact hown hv hz (.inr hz.parameter_bounds)
  | localVar j i => exact hown hv hz (.inl hz.local_bounds)

theorem follows_call (hl : p.Linked) (hm : p.Makes a) (hn : Simulates H p low fuel) {nt : Note}
    {x : String} {args : List Expr} (hi : Inside H p f b m s)
    (hr : Roomy p low (depth + 1) (Expr.call nt x args).nodes.length s)
    (hx : ∀ y ∈ (Expr.call nt x args).nodes, y.LinkedIn p f)
    (ha : EmitsArguments a (Frame.layout f) args c)
    (hc : CodeAt a s.line (c ++ code ([.push (.reg .rbp), .call (.function x), .pop .rbp] ++
      if args.isEmpty then []
      else [.op .add (.imm (Int64.ofNat (Ty.wordSize * args.length))) .rsp]))) :
    Follows H low ((Semantics.value p H.order (fuel + 1) (depth + 1) (.call nt x args)).run m)
      (Yields H p f b s (c ++ code ([.push (.reg .rbp), .call (.function x), .pop .rbp] ++
        if args.isEmpty then []
        else [.op .add (.imm (Int64.ofNat (Ty.wordSize * args.length))) .rsp])).length) s := by
  rw [Expr.nodes, List.forall_mem_cons] at hx
  rw [Expr.nodes, List.length_cons] at hr
  obtain ⟨⟨g, hg, rfl, hparams⟩, hargs⟩ := hx
  obtain ⟨hca, hcall⟩ := codeAt_append.1 hc
  rw [Semantics.value]
  refine (hn.arguments hi (hr.of_sp rfl (by omega)) hargs ha hca).bind fun vs m₁ s₁ ⟨hvs, hp⟩ => ?_
  rw [hl.find?_function hg]
  refine Follows.get (Follows.modify ?_)
  obtain ⟨k, cg, hk, hcg, heg⟩ := hm.functions g hg
  rw [← hp.line] at hcall
  have hmain := fun h => (hl.of_isMain hg h).1
  have hlen : vs.length = g.params.length := hvs.trans hparams.symm
  have hsp₁ := hp.sp
  have haligned := hi.stands.sp_aligned
  have htop := hi.stands.le_top
  have hlt := H.top_lt
  -- the words of the arguments are those of their nodes, and the callee has its own span
  have hargs := Expr.length_le_nodesOfList args
  have hr₁ : Roomy p low (depth + 1) 0 s₁ := hr.descend (j := args.length) (by omega) (by omega)
  have hlow := hr₁.low_le_sub
  refine leads_enter hcall hk hp.room (by omega) (by omega) (by omega) fun s₂ hline he => ?_
  have hsp₂ := he.sp
  -- the words that were pushed for the parameters are below the top of the stack
  have hin : entryBase g s₂.sp + 16 + 8 * g.params.length ≤ H.top + 8 := by
    rw [entryBase]
    split <;> omega
  have hcg : CodeAt a s₂.line cg := by
    rw [hline]
    exact hcg
  have hspan : low + (p.need depth 0 + g.span : Nat) ≤ s₂.sp + 16 := by
    have := p.need_add_span_le hg depth 0
    rw [Roomy] at hr₁
    omega
  refine Follows.bind (hn.function hm hl hg hcg heg rfl he.room (by omega) hspan hin
    (hp.holds_enter hm he hlen hmain)) fun r m₂ t hr => Follows.modify ?_
  have hpop := (codeAt_code_cons.1 (codeAt_code_cons.1 hcall).2).2
  refine leads_leave he hr hmain (by omega) (by omega) (by omega) hpop ?_
  intro u hline hsp hrbp hrax hmem hin hout
  have hdrop := (codeAt_code_cons.1 hpop).2
  have hdrop : CodeAt a u.line (code (if args.isEmpty then []
      else [.op .add (.imm (Int64.ofNat (Ty.wordSize * args.length))) .rsp])) := by
    rw [hline]
    exact hdrop
  have hroom := hp.room
  have hlimit := H.limit_nonneg
  refine leads_drop hdrop (by omega) (by omega) (by omega) ?_
  intro u' hline' hsp' hrbp' hrax' hmem' hin' hout'
  have hholds := hr.holds_leave hi.stands hp he hmain hlen
  refine Follows.pure ⟨⟨?_, ?_, ?_, ?_, fun w hw hd ho => ?_⟩, fun y hy => ?_⟩
  · rw [hline', hline, hp.line, List.length_append, length_code, List.length_append]
    simp only [List.length_cons, List.length_nil]
    omega
  · apply Int64.toInt_inj.1
    change u'.sp = s.sp
    omega
  · rw [hrbp', hrbp, hp.rbp]
  · exact hholds.congr (hin'.trans hin) (hout'.trans hout)
      fun _ _ _ => congrFun (hmem'.trans hmem) _
  · rw [hmem', hmem, hr.keeps_caller hp he hmain hlen hw hd, hp.keeps w hw hd ho]
  · rw [hrax', hrax]
    split at hy
    · cases hy
    · next hvoid =>
      have hf : g.isMain = false := by
        cases hf : g.isMain with
        | false => rfl
        | true => exact absurd (hl.of_isMain hg hf).2 hvoid
      exact hr.value hf y hy

end Bpl.Simulation
