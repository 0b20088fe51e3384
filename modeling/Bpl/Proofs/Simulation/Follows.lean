import Bpl.Proofs.Simulation.Variables

namespace Bpl.Simulation

open Machine Semantics

variable {a : Assembly} {H : Host a} {low : Int} {α β : Type}

/-- What a run may come to if the interpreter comes to `r`: a state with the property `Q` of the
result, the message of the trap where an index fell off its array, and anything where the language
tells nothing. -/
def Matches (Q : α → Store → State → Prop) : Except Stop (α × Store) → Outcome → Prop
  | .ok (x, m), o => ∃ t, o = .next t ∧ Q x m t
  | .error (.fellOff output), o => o = .ended ⟨1, output ++ [.overflow]⟩
  | .error _, _ => True

/-- The run from a state follows a run of the interpreter. -/
def Follows (H : Host a) (low : Int) (r : Except Stop (α × Store))
    (Q : α → Store → State → Prop) (s : State) : Prop :=
  Leads H low (Matches Q r) s

section

variable {Q : α → Store → State → Prop} {R : β → Store → State → Prop} {S : State → Prop}
  {m : Store} {s t : State} {k : Value → Run β}

theorem Follows.bind {x : Run α} {k : α → Run β} (h : Follows H low (x.run m) Q s)
    (hk : ∀ y m' t, Q y m' t → Follows H low ((k y).run m') R t) :
    Follows H low ((x >>= k).run m) R s := by
  rw [StateT.run_bind]
  cases hx : x.run m with
  | ok r =>
    rw [hx] at h
    exact Leads.after h fun t ht => hk r.1 r.2 t ht
  | error e =>
    rw [hx] at h
    cases e with
    | fellOff output => exact h
    | undefined => exact h
    | stuck => exact h
    | outOfFuel => exact h

theorem Follows.pure {x : α} (h : Q x m s) : Follows H low ((pure x : Run α).run m) Q s :=
  Leads.here ⟨s, rfl, h⟩

/-- What follows a run of the interpreter may go on for a while. -/
theorem Follows.extend {Q' : α → Store → State → Prop} {r : Except Stop (α × Store)}
    (h : Follows H low r Q s) (hk : ∀ x m t, Q x m t → Follows H low (.ok (x, m)) Q' t) :
    Follows H low r Q' s := by
  cases r with
  | ok r => exact Leads.after h fun t ht => hk r.1 r.2 t ht
  | error e =>
    cases e with
    | fellOff output => exact h
    | undefined => exact h
    | stuck => exact h
    | outOfFuel => exact h

theorem Follows.undefined : Follows H low ((undefined : Run α).run m) Q s :=
  Leads.here trivial

theorem Follows.stuck : Follows H low ((stuck : Run α).run m) Q s :=
  Leads.here trivial

theorem Follows.outOfFuel : Follows H low ((throw .outOfFuel : Run α).run m) Q s :=
  Leads.here trivial

theorem Follows.undefined_bind {k : α → Run β} :
    Follows H low (((Semantics.undefined : Run α) >>= k).run m) R s :=
  Leads.here trivial

theorem Follows.stuck_bind {k : α → Run β} :
    Follows H low (((Semantics.stuck : Run α) >>= k).run m) R s :=
  Leads.here trivial

theorem Follows.get {k : Store → Run α} (h : Follows H low ((k m).run m) Q s) :
    Follows H low ((get >>= k).run m) Q s :=
  h

theorem Follows.modify {g : Store → Store} {k : PUnit → Run α}
    (h : Follows H low ((k ⟨⟩).run (g m)) Q s) : Follows H low ((modify g >>= k).run m) Q s :=
  h

theorem Follows.needed {v : Option Value}
    (hk : ∀ x, v = some x → Follows H low ((k x).run m) R s) :
    Follows H low ((needed v >>= k).run m) R s := by
  cases v with
  | none => exact undefined_bind
  | some x => exact hk x rfl

theorem Follows.fetch {c : Cell} (hk : ∀ v, m.cells c = some v → Follows H low ((k v).run m) R s) :
    Follows H low ((Semantics.fetch c >>= k).run m) R s := by
  have hr : (Semantics.fetch c >>= k).run m = (Semantics.needed (m.cells c) >>= k).run m := rfl
  rw [hr]
  exact needed hk

theorem Follows.integer {v : Option Value} {k : Int64 → Run β}
    (hk : ∀ x, v = some (.int x) → Follows H low ((k x).run m) R s) :
    Follows H low ((integer v >>= k).run m) R s := by
  rw [Semantics.integer, bind_assoc]
  refine .needed fun x hx => ?_
  cases x with
  | int x => exact hk x hx
  | string _ => exact stuck_bind

end

section

variable {p : Program} {f : Function} {b : Int} {m m' : Store} {s s₁ t : State} {n k : Nat}
  {v : Int64} {w : Int}

/-- A piece of code of a call was run to its end: it took `n` lines, the stack is as before, and
in the memory from the stack pointer on only variables have changed. -/
structure Continues (H : Host a) (p : Program) (f : Function) (b : Int) (s : State) (n : Nat)
    (m : Store) (t : State) : Prop where
  line : t.line = s.line + n
  rsp : t.regs .rsp = s.regs .rsp
  rbp : t.regs .rbp = s.regs .rbp
  holds : Holds H p f b m t
  keeps : ∀ w, s.sp ≤ w → H.isData w = false → ¬ Owns f b w → t.mem w = s.mem w

theorem Continues.sp (h : Continues H p f b s n m t) : t.sp = s.sp :=
  congrArg Int64.toInt h.rsp

/-- The value of an expression is in `%rax` after its code. -/
def Yields (H : Host a) (p : Program) (f : Function) (b : Int) (s : State) (n : Nat)
    (v : Option Value) (m : Store) (t : State) : Prop :=
  Continues H p f b s n m t ∧ ∀ x, v = some x → Encodes H x (t.regs .rax)

theorem Stands.nonneg (h : Stands H f b s) : 0 ≤ s.sp :=
  H.limit_nonneg.trans h.room

theorem Stands.le_top (h : Stands H f b s) : s.sp ≤ H.top := by
  have := h.below
  have := h.within
  omega

theorem Stands.fits (h : Stands H f b s) : s.sp + 8 < 2 ^ 63 := by
  have := h.le_top
  have := H.top_lt
  omega

theorem Stands.of_regs (h : Stands H f b s) (hrsp : t.regs .rsp = s.regs .rsp)
    (hrbp : t.regs .rbp = s.regs .rbp) : Stands H f b t := by
  have hsp : t.sp = s.sp := congrArg Int64.toInt hrsp
  refine ⟨?_, ?_, ?_, ?_, h.base_aligned, h.within⟩
  · rw [hrbp, h.rbp]
  · rw [hsp]
    exact h.below
  · rw [hsp]
    exact h.room
  · rw [hsp]
    exact h.sp_aligned

theorem Stands.after (h : Stands H f b s) (hc : Continues H p f b s n m t) : Stands H f b t :=
  h.of_regs hc.rsp hc.rbp

/-- The words below the frame are neither global variables nor variables of the call. -/
theorem Stands.free (h : Stands H f b s) (hl : H.limit ≤ w)
    (hw : w < b - Variable.totalSize f.locals) : H.isData w = false ∧ ¬ Owns f b w := by
  have hin := h.within
  refine ⟨Host.isData_eq_false hl (by omega), ?_⟩
  rintro (hw' | hw') <;> omega

theorem Stands.push (h : Stands H f b s) (hl : H.limit ≤ s.sp - 8) :
    Stands H f b (s.pushed v).next := by
  have hsp : (s.pushed v).next.sp = s.sp - 8 := s.sp_pushed v h.nonneg
  have hb := h.below
  have ha := h.sp_aligned
  refine ⟨?_, ?_, ?_, ?_, h.base_aligned, h.within⟩
  · rw [State.next_regs, State.pushed_regs]
    exact h.rbp
  all_goals omega

/-- What is pushed is no variable. -/
theorem Holds.push (hm : p.Makes a) (h : Holds H p f b m s) (hs : Stands H f b s)
    (hl : H.limit ≤ s.sp - 8) : Holds H p f b m (s.pushed v).next := by
  refine h.congr rfl rfl fun c z hz => ?_
  rw [State.next_mem, s.mem_pushed v z hs.nonneg, if_neg]
  rintro rfl
  have hb := hs.below
  obtain ⟨hd, ho⟩ := hs.free hl (by omega)
  rcases hz.isData_or_owns hm with hz | hz
  · rw [hd] at hz
    cases hz
  · exact ho hz

/-- The stack after some code, a word that is pushed, and more code above it. -/
structure Continues.Over (H : Host a) (f : Function) (b : Int) (s : State) (v : Int64)
    (t : State) : Prop where
  saved : t.mem t.sp = v
  sp : t.sp = s.sp - 8
  rsp : t.regs .rsp + 8 = s.regs .rsp
  rbp : t.regs .rbp = s.regs .rbp
  keeps : ∀ w, s.sp ≤ w → H.isData w = false → ¬ Owns f b w → t.mem w = s.mem w

theorem Continues.Over.continues (h : Continues.Over H f b s v t) (hh : Holds H p f b m t)
    (hline : s₁.line = s.line + n) (hrsp : s₁.regs .rsp = t.regs .rsp + 8)
    (hrbp : s₁.regs .rbp = t.regs .rbp) (hmem : s₁.mem = t.mem) (hin : s₁.input = t.input)
    (hout : s₁.output = t.output) : Continues H p f b s n m s₁ where
  line := hline
  rsp := hrsp.trans h.rsp
  rbp := hrbp.trans h.rbp
  holds := hh.congr hin hout fun _ _ _ => congrFun hmem _
  keeps := fun w hw hd ho => (congrFun hmem w).trans (h.keeps w hw hd ho)

theorem Continues.over (h : Continues H p f b s n m s₁) (hs : Stands H f b s)
    (hl : H.limit ≤ s₁.sp - 8) (h' : Continues H p f b (s₁.pushed v).next k m' t) :
    Continues.Over H f b s v t := by
  have hs₁ := hs.after h
  have hsp₁ := h.sp
  have hsp : (s₁.pushed v).next.sp = s₁.sp - 8 := s₁.sp_pushed v hs₁.nonneg
  have hmem : ∀ w, (s₁.pushed v).next.mem w = if w = s₁.sp - 8 then v else s₁.mem w :=
    fun w => s₁.mem_pushed v w hs₁.nonneg
  have hbelow := hs.below
  have hsp' := h'.sp
  refine ⟨?_, by omega, ?_, ?_, fun w hw hd ho => ?_⟩
  · obtain ⟨hd, ho⟩ := hs.free (w := s₁.sp - 8) hl (by omega)
    rw [hsp', hsp, h'.keeps _ (by omega) hd ho, hmem, if_pos rfl]
  · rw [h'.rsp, State.next_regs, State.pushed_regs, if_pos rfl, h.rsp]
    exact Int64.sub_add_cancel _ _
  · rw [h'.rbp, State.next_regs, State.pushed_regs, if_neg nofun, h.rbp]
  · rw [h'.keeps w (by omega) hd ho, hmem, if_neg (by omega), h.keeps w hw hd ho]

end

end Bpl.Simulation
