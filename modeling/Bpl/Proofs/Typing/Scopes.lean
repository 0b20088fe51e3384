import Bpl.Proofs.Typing.Linked

namespace Bpl

/-- The name and the slot of a reference to a variable. -/
def Expr.reference? : Expr → Option (String × Slot)
  | .var _ x slot | .decay _ x slot => some (x, slot)
  | _ => none

/-- A reference that denotes the declared variable of its name. It is noted with the declared type,
or with a pointer to the elements where an array is passed as one. -/
def Expr.DenotesIn (q : Program) (f : Function) : Expr → Prop
  | .var n x slot => ∃ v, q.Declares f x slot v ∧ v.name = x ∧ n.ty = some v.ty
  | .decay n x slot => ∃ v element length, q.Declares f x slot v ∧ v.name = x ∧
      v.ty = .array element length ∧ n.ty = some (.pointer element)
  | _ => True

namespace Typing.View

variable {w : View} {x : String} {slot : Slot}

theorem PartOf.denotes {q : Program} {f : Function} (h : w.PartOf q f) {e : Expr}
    (he : e.SeenIn w) : e.DenotesIn q f := by
  cases e with
  | var n x slot =>
    obtain ⟨ty, hs, hf, hty⟩ := he
    obtain ⟨v, hd, hn, rfl⟩ := h.declares hs hf
    exact ⟨v, hd, hn, hty⟩
  | decay n x slot =>
    obtain ⟨ty, length, hs, hty⟩ := he
    obtain ⟨v, hd, hn, ht⟩ := h.declares hs rfl
    exact ⟨v, _, _, hd, hn, ht.symm, hty⟩
  | _ => trivial

/-- A name stands for a global declaration only where no own variable of that name is seen. -/
theorem Sees.eq_global_iff {ty : Ty} (h : w.Sees x ty slot) :
    slot = .global ↔ ∀ v ∈ w.params ++ w.locals, v.name ≠ x := by
  cases h with
  | parameter hi hn =>
    have hv := List.mem_append_left w.locals (List.mem_of_getElem? hi)
    exact ⟨nofun, fun h => absurd hn (h _ hv)⟩
  | localVar hi hn =>
    have hv := List.mem_append_right w.params (List.mem_of_getElem? hi)
    exact ⟨nofun, fun h => absurd hn (h _ hv)⟩
  | global h _ _ => exact ⟨fun _ => h, fun _ => rfl⟩

/-- A reference is to a global variable only where its place sees no own variable of its name. -/
theorem eq_global_iff_of_reference {e : Expr} (he : e.SeenIn w)
    (hr : e.reference? = some (x, slot)) :
    slot = .global ↔ ∀ v ∈ w.params ++ w.locals, v.name ≠ x := by
  cases e with
  | var n y s =>
    cases hr
    obtain ⟨_, hs, _, _⟩ := he
    exact hs.eq_global_iff
  | decay n y s =>
    cases hr
    obtain ⟨_, _, hs, _⟩ := he
    exact hs.eq_global_iff
  | _ => cases hr

end Typing.View

variable {source : String} {q : Program} {f : Function}

/-- In what is analyzed with success, the locals of a function are the variables that the blocks of
its body declare, in the order of the text. Its parameters and locals have different names, and each
reference in its body denotes the declared variable of its name. -/
theorem references_denote (h : (analyze source).outcome = .ok q) (hf : f ∈ q.functions) :
    f.locals = f.body.locals ∧ ((f.params ++ f.locals).map Variable.name).Nodup ∧
      ∀ e ∈ f.body.exprs, ∀ x ∈ e.nodes, x.DenotesIn q f := by
  obtain ⟨p, _, hd⟩ := exists_derives_of_analyze h
  refine ⟨hd.locals hf, hd.nodup_names hf, fun e he x hx => ?_⟩
  obtain ⟨before, i, after, hi, hie⟩ := Block.exists_item he
  exact (hd.partOf hf hi).denotes ((hd.judged hf hi).parts hie x hx).seenIn

/-- A program with a local in an inner block and an array that is passed as a pointer. -/
def passesArray : String :=
  "int a[3]; int get(int p[]) \x7b return p[0]; \x7d " ++
    "void main(void) \x7b int x; x = get(a); \x7b int a; a = x; \x7d \x7d"

theorem passesArray_denotes : ∃ q, (analyze passesArray).outcome = .ok q ∧
    ∃ f ∈ q.functions, f.name = "main" ∧ f.locals = f.body.locals ∧
      ((f.params ++ f.locals).map Variable.name).Nodup ∧
        ∀ e ∈ f.body.exprs, ∀ x ∈ e.nodes, x.DenotesIn q f := by
  have hok : ((analyze passesArray).outcome.toOption.any fun q =>
      q.functions.any (·.name == "main")) = true := by
    decide +kernel
  cases hq : (analyze passesArray).outcome with
  | error e => simp [hq, Except.toOption] at hok
  | ok q =>
    rw [hq] at hok
    obtain ⟨f, hf, hn⟩ := List.any_eq_true.1 hok
    exact ⟨q, rfl, f, hf, beq_iff_eq.1 hn, references_denote hq hf⟩

/-- A reference is to a global variable exactly if its name is that of no parameter and of no local
that is declared before the item it stands in. -/
theorem global_iff_undeclared_before (h : (analyze source).outcome = .ok q)
    (hf : f ∈ q.functions) {before after : List Item} {i : Item}
    (hi : f.body.items = before ++ i :: after) {e r : Expr} (he : i.expr? = some e)
    (hr : r ∈ e.nodes) {x : String} {slot : Slot} (hx : r.reference? = some (x, slot)) :
    slot = .global ↔ ∀ v ∈ f.params ++ Item.declared before, v.name ≠ x := by
  obtain ⟨p, _, hd⟩ := exists_derives_of_analyze h
  exact Typing.View.eq_global_iff_of_reference ((hd.judged hf hi).parts he r hr).seenIn hx

/-- A program that uses a name before it declares it as a local. -/
def declaresLate : String :=
  "int x; void main(void) \x7b x = 1; \x7b int x; x = 2; \x7d \x7d"

theorem declaresLate_reference : ∃ q, (analyze declaresLate).outcome = .ok q ∧
    ∃ f ∈ q.functions, (∃ v ∈ f.locals, v.name = "x") ∧ ∃ e ∈ f.body.exprs, ∃ r ∈ e.nodes,
      r.reference? = some ("x", .global) := by
  have hok : ((analyze declaresLate).outcome.toOption.any fun q => q.functions.any fun f =>
      (f.locals.any (·.name == "x")) && f.body.exprs.any fun e => e.nodes.any fun r =>
        decide (r.reference? = some ("x", .global))) = true := by
    decide +kernel
  cases hq : (analyze declaresLate).outcome with
  | error e => simp [hq, Except.toOption] at hok
  | ok q =>
    simp only [hq, Except.toOption, Option.any_some, List.any_eq_true, Bool.and_eq_true,
      beq_iff_eq, decide_eq_true_iff] at hok
    exact ⟨q, rfl, hok⟩

theorem declaresLate_undeclared_before : ∃ q, (analyze declaresLate).outcome = .ok q ∧
    ∃ f ∈ q.functions, ∃ before i after, f.body.items = before ++ i :: after ∧
      ∃ e, i.expr? = some e ∧ ∃ r ∈ e.nodes, r.reference? = some ("x", .global) ∧
        ∀ v ∈ f.params ++ Item.declared before, v.name ≠ "x" := by
  obtain ⟨q, hq, f, hf, _, e, he, r, hr, hx⟩ := declaresLate_reference
  obtain ⟨before, i, after, hi, hie⟩ := Block.exists_item he
  exact ⟨q, hq, f, hf, before, i, after, hi, e, hie, r, hr, hx,
    (global_iff_undeclared_before hq hf hi hie hr hx).1 rfl⟩

/-- A local does not hide a global variable of its name in all of its function. -/
theorem declaresLate_not_hidden : ¬ ∀ q, (analyze declaresLate).outcome = .ok q →
    ∀ f ∈ q.functions, ∀ v ∈ f.params ++ f.locals, ∀ e ∈ f.body.exprs, ∀ r ∈ e.nodes,
      r.reference? ≠ some (v.name, .global) := by
  intro h
  obtain ⟨q, hq, f, hf, ⟨v, hv, hn⟩, e, he, r, hr, hx⟩ := declaresLate_reference
  exact h q hq f hf v (List.mem_append_right _ hv) e he r hr (hn ▸ hx)

end Bpl
