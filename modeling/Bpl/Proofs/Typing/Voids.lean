import Bpl.Proofs.Typing.Linked

namespace Bpl

/-- Types in which `void` stands somewhere. -/
inductive Ty.MentionsVoid : Ty → Prop
  | void : MentionsVoid .void
  | pointer {t : Ty} : MentionsVoid t → MentionsVoid (.pointer t)
  | array {t : Ty} {length : UInt64} : MentionsVoid t → MentionsVoid (.array t length)
  | param {t result : Ty} {params : List Ty} :
      t ∈ params → MentionsVoid t → MentionsVoid (.function params result)
  | result {result : Ty} {params : List Ty} :
      MentionsVoid result → MentionsVoid (.function params result)

theorem Ty.MentionsVoid.of_base? {t element : Ty} (hb : t.base? = some element)
    (h : element.MentionsVoid) : t.MentionsVoid := by
  cases t with
  | pointer t =>
    cases hb
    exact .pointer h
  | array t length =>
    cases hb
    exact .array h
  | _ => cases hb

theorem Ty.ne_void_of_base? {t element : Ty} (h : t.base? = some element) : t ≠ .void := by
  rintro rfl
  cases h

theorem Ty.ne_void_of_isComparable {t : Ty} (h : t.isComparable = true) : t ≠ .void := by
  rintro rfl
  cases h

namespace Program

/-- All variables that a program declares. -/
def allVariables (q : Program) : List Variable :=
  q.globals ++ q.functions.flatMap fun f => f.params ++ f.locals

/-- A program whose declarations write `void` as the result of functions only. -/
structure VoidOnlyReturned (q : Program) : Prop where
  declared : ∀ v ∈ q.allVariables, ¬ v.ty.MentionsVoid
  results : ∀ f ∈ q.functions, f.result.MentionsVoid → f.result = .void

variable {q : Program} {f : Function}

theorem mem_allVariables_of_own (hf : f ∈ q.functions) {v : Variable}
    (hv : v ∈ f.params ++ f.locals) : v ∈ q.allVariables :=
  List.mem_append_right _ (List.mem_flatMap.2 ⟨f, hf, hv⟩)

theorem Declares.mem_allVariables {x : String} {slot : Slot} {v : Variable}
    (hf : f ∈ q.functions) (h : q.Declares f x slot v) : v ∈ q.allVariables := by
  cases h with
  | global hv _ => exact List.mem_append_left _ hv
  | parameter hi =>
    exact mem_allVariables_of_own hf (List.mem_append_left _ (List.mem_of_getElem? hi))
  | localVar hi =>
    exact mem_allVariables_of_own hf (List.mem_append_right _ (List.mem_of_getElem? hi))

/-- No variable of a linked program has the type `void`. -/
theorem Linked.ne_void (hq : q.Linked) : ∀ v ∈ q.allVariables, v.ty ≠ .void := by
  intro v hv
  rcases List.mem_append.1 hv with hv | hv
  · exact (hq.globals v hv).notVoid
  · obtain ⟨f, hf, hv⟩ := List.mem_flatMap.1 hv
    exact (hq.own f hf v hv).notVoid

end Program

namespace Typing

variable {w : View}

/-- Where the whole of a judged expression is not of type `void`, no part of it is. -/
theorem Judges.eq_of_void_of_ne {e e' x : Expr} {ty : Ty} {a : Bool} (j : Judges w e ty a e')
    (hwhole : ∀ r ∈ e'.nodes, r.ty? = some .void → r = e') (hty : ty ≠ .void) :
    ∀ r ∈ e'.nodes, r.ty? = some .void → r = x := by
  intro r hr hv
  have hre := hwhole r hr hv
  rw [hre, j.ty?] at hv
  exact absurd (Option.some.inj hv) hty

mutual

/-- Of a judged expression only the whole can have the type `void`. -/
theorem Judges.eq_of_void {e e' : Expr} {ty : Ty} {a : Bool} :
    Judges w e ty a e' → ∀ r ∈ e'.nodes, r.ty? = some .void → r = e'
  | .number | .string | .read | .name _ _ => List.forall_mem_singleton.2 fun _ => rfl
  | .assign jt hty jv => List.forall_mem_cons.2 ⟨fun _ => rfl, List.forall_mem_append.2
    ⟨jt.eq_of_void_of_ne jt.eq_of_void hty, jv.eq_of_void_of_ne jv.eq_of_void hty⟩⟩
  | .comparison _ jl hc jr => List.forall_mem_cons.2 ⟨fun _ => rfl, List.forall_mem_append.2
    ⟨jl.eq_of_void_of_ne jl.eq_of_void (Ty.ne_void_of_isComparable hc),
      jr.eq_of_void_of_ne jr.eq_of_void (Ty.ne_void_of_isComparable hc)⟩⟩
  | .arithmetic _ jl jr => List.forall_mem_cons.2 ⟨fun _ => rfl, List.forall_mem_append.2
    ⟨jl.eq_of_void_of_ne jl.eq_of_void nofun, jr.eq_of_void_of_ne jr.eq_of_void nofun⟩⟩
  | .neg j | .deref j => List.forall_mem_cons.2
    ⟨fun _ => rfl, j.eq_of_void_of_ne j.eq_of_void nofun⟩
  | .address j hty => List.forall_mem_cons.2
    ⟨fun _ => rfl, j.eq_of_void_of_ne j.eq_of_void hty⟩
  | .index jb hb ji => List.forall_mem_cons.2 ⟨fun _ => rfl, List.forall_mem_append.2
    ⟨jb.eq_of_void_of_ne jb.eq_of_void (Ty.ne_void_of_base? hb),
      ji.eq_of_void_of_ne ji.eq_of_void nofun⟩⟩
  | .call _ _ ja => List.forall_mem_cons.2
    ⟨fun _ => rfl, fun r hr hv => absurd hv (ja.ne_void r hr)⟩

/-- No part of an argument has the type `void`. -/
theorem PassesAll.ne_void {es es' : List Expr} {tys : List Ty} :
    PassesAll w es tys es' → ∀ r ∈ Expr.nodesOfList es', r.ty? ≠ some .void
  | .nil => by simp [Expr.nodesOfList]
  | .cons (.value j hty) js => by
    refine List.forall_mem_append.2 ⟨fun r hr hv => ?_, js.ne_void⟩
    have hre := j.eq_of_void r hr hv
    rw [hre, j.ty?] at hv
    exact hty (Option.some.inj hv)
  | .cons (.decay _) js => List.forall_mem_cons.2 ⟨nofun, js.ne_void⟩

end

variable {q : Program} {f : Function}

/-- Where declarations write `void` as a result only, what a judged expression has of it is the
result of a call. -/
theorem Judges.call_of_mentionsVoid (hq : q.VoidOnlyReturned) (hf : f ∈ q.functions)
    (hw : w.PartOf q f) (hv : ∀ v ∈ q.globals, v.ty.isFunction = false) {e e' : Expr} {ty : Ty}
    {a : Bool} (j : Judges w e ty a e') (h : ty.MentionsVoid) : ty = .void ∧
      ∃ n x args, e' = .call n x args ∧ ∃ g ∈ q.functions, g.name = x ∧ g.result = .void := by
  cases j with
  | number | string | read | comparison | arithmetic | neg => cases h
  | name hs hn =>
    obtain ⟨v, hd, _, rfl⟩ := hw.declares hs hn
    exact absurd h (hq.declared v (hd.mem_allVariables hf))
  | assign jt hty _ => exact absurd (jt.call_of_mentionsVoid hq hf hw hv h).1 hty
  | address j hty =>
    cases h with
    | pointer h => exact absurd (j.call_of_mentionsVoid hq hf hw hv h).1 hty
  | deref j => cases (j.call_of_mentionsVoid hq hf hw hv (.pointer h)).1
  | index jb hb _ =>
    have hbase := (jb.call_of_mentionsVoid hq hf hw hv (.of_base? hb h)).1
    exact absurd hbase (Ty.ne_void_of_base? hb)
  | call hd hty _ =>
    obtain ⟨g, hg, hn, _, rfl⟩ := hw.function hd hty hv
    have hvoid := hq.results g hg h
    exact ⟨hvoid, _, _, _, rfl, g, hg, hn, hvoid⟩

/-- The same of all parts of a judged expression. -/
theorem PartIn.call_of_mentionsVoid (hq : q.VoidOnlyReturned) (hf : f ∈ q.functions)
    (hw : w.PartOf q f) (hv : ∀ v ∈ q.globals, v.ty.isFunction = false) {r : Expr} {ty : Ty}
    (h : PartIn w r) (hr : r.ty? = some ty) (hm : ty.MentionsVoid) : ty = .void ∧
      ∃ n x args, r = .call n x args ∧ ∃ g ∈ q.functions, g.name = x ∧ g.result = .void := by
  have judged : ∀ {e : Expr} {t : Ty} {a : Bool}, Judges w e t a r → ty = .void ∧
      ∃ n x args, r = .call n x args ∧ ∃ g ∈ q.functions, g.name = x ∧ g.result = .void := by
    intro e t a j
    obtain rfl := Option.some.inj (hr.symm.trans j.ty?)
    exact j.call_of_mentionsVoid hq hf hw hv hm
  rcases h with ⟨_, _, _, j⟩ | ⟨_, _, _ | hs⟩
  · exact judged j
  · exact judged ‹_›
  · obtain ⟨v, hd, _, hty⟩ := hw.declares hs rfl
    obtain rfl := Option.some.inj hr
    cases hm with
    | pointer h => exact absurd (hty ▸ .array h) (hq.declared v (hd.mem_allVariables hf))

end Typing

/-- An expression of type `void` stands as a statement. -/
theorem Item.JudgedIn.eq_stands_of_void {w : Typing.View} {i : Item} (h : i.JudgedIn w)
    {e r : Expr} (he : i.expr? = some e) (hr : r ∈ e.nodes) (hv : r.ty? = some .void) :
    i = .stands r := by
  cases i with
  | declares v => cases he
  | uses e' =>
    cases he
    obtain ⟨_, ty, _, j, hty⟩ := h
    have hre := j.eq_of_void r hr hv
    rw [hre, j.ty?] at hv
    exact absurd (Option.some.inj hv) hty
  | stands e' =>
    cases he
    obtain ⟨_, _, _, j⟩ := h
    rw [j.eq_of_void r hr hv]

variable {source : String} {q : Program}

/-- In what is analyzed with success no variable is of type `void`, and an expression of that type
stands as a whole statement. If moreover no declared pointer or array is of `void`, then all that
expressions have of `void` are such statements, and they are calls of functions without a result. -/
theorem void_stands (h : (analyze source).outcome = .ok q) :
    (∀ v ∈ q.allVariables, v.ty ≠ .void) ∧ ∀ f ∈ q.functions, ∀ i ∈ f.body.items, ∀ e,
      i.expr? = some e → ∀ r ∈ e.nodes, (r.ty? = some .void → i = .stands r) ∧
        (q.VoidOnlyReturned → ∀ ty, r.ty? = some ty → ty.MentionsVoid → i = .stands r ∧
          ∃ n x args, r = .call n x args ∧ ∃ g ∈ q.functions, g.name = x ∧ g.result = .void) := by
  obtain ⟨p, hp, hd⟩ := exists_derives_of_analyze h
  refine ⟨(hd.linked hp).ne_void, fun f hf i hi e he r hr => ?_⟩
  obtain ⟨before, after, hi⟩ := List.append_of_mem hi
  have hj := hd.judged hf hi
  have hstands : r.ty? = some .void → i = .stands r := hj.eq_stands_of_void he hr
  refine ⟨hstands, fun hq ty hty hm => ?_⟩
  obtain ⟨rfl, hcall⟩ := (hj.parts he r hr).call_of_mentionsVoid hq hf (hd.partOf hf hi)
    (hd.isFunction_globals hp) hty hm
  exact ⟨hstands hty, hcall⟩

/-- A program that calls a function without a result. -/
def callsVoid : String :=
  "int x; void set(int y) \x7b x = y; \x7d void main(void) \x7b set(1); \x7d"

theorem callsVoid_stands : ∃ q, (analyze callsVoid).outcome = .ok q ∧ q.VoidOnlyReturned ∧
    ∃ f ∈ q.functions, ∃ i ∈ f.body.items, ∃ r, r.ty? = some .void ∧ i = .stands r ∧
      ∃ n x args, r = .call n x args ∧ ∃ g ∈ q.functions, g.name = x ∧ g.result = .void := by
  have hok : ((analyze callsVoid).outcome.toOption.any fun q =>
      q.allVariables.all (·.ty == .int) && q.functions.all (·.result == .void) &&
        q.functions.any fun f => f.body.exprs.any fun e => e.nodes.any fun r =>
          r.ty? == some .void) = true := by
    decide +kernel
  cases hq : (analyze callsVoid).outcome with
  | error e => simp [hq, Except.toOption] at hok
  | ok q =>
    simp only [hq, Except.toOption, Option.any_some, Bool.and_eq_true, List.all_eq_true,
      List.any_eq_true, beq_iff_eq] at hok
    obtain ⟨⟨hvars, hresults⟩, f, hf, e, he, r, hr, hty⟩ := hok
    have hreturned : q.VoidOnlyReturned := by
      refine ⟨fun v hv h => ?_, fun g hg _ => hresults g hg⟩
      rw [hvars v hv] at h
      cases h
    obtain ⟨before, i, after, hi, hie⟩ := Block.exists_item he
    have himem : i ∈ f.body.items := hi ▸ List.mem_append_right _ List.mem_cons_self
    obtain ⟨hs, hcall⟩ := ((void_stands hq).2 f hf i himem e hie r hr).2 hreturned _ hty .void
    exact ⟨q, rfl, hreturned, f, hf, i, himem, r, hty, hs, hcall⟩

/-- A program that declares a pointer to `void` and follows it. -/
def followsVoid : String :=
  "void *p; void main(void) \x7b *p; \x7d"

/-- Pointers to `void` can be declared, and what follows one has the type `void` and is no call. -/
theorem followsVoid_accepted : ∃ q, (analyze followsVoid).outcome = .ok q ∧
    (∃ v ∈ q.allVariables, v.ty.MentionsVoid) ∧ ∃ f ∈ q.functions, ∃ e ∈ f.body.exprs,
      ∃ r ∈ e.nodes, r.ty? = some .void ∧ ¬ ∃ n x args, r = .call n x args := by
  have hok : ((analyze followsVoid).outcome.toOption.any fun q =>
      q.allVariables.any (·.ty == .pointer .void) && q.functions.any fun f =>
        f.body.exprs.any fun e => e.nodes.any fun r => r.ty? == some .void && r.isPointerOp) =
          true := by
    decide +kernel
  cases hq : (analyze followsVoid).outcome with
  | error e => simp [hq, Except.toOption] at hok
  | ok q =>
    simp only [hq, Except.toOption, Option.any_some, Bool.and_eq_true, List.any_eq_true,
      beq_iff_eq] at hok
    obtain ⟨⟨v, hv, hvoid⟩, f, hf, e, he, r, hr, hty, hop⟩ := hok
    refine ⟨q, rfl, ⟨v, hv, hvoid ▸ .pointer .void⟩, f, hf, e, he, r, hr, hty, ?_⟩
    rintro ⟨n, x, args, rfl⟩
    cases hop

end Bpl
