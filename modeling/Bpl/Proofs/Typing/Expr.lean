import Bpl.Proofs.Typing.Names
import Bpl.Proofs.Typing.Outcome

namespace Bpl.Typing

open Logged

variable {env : Env} {w : View}

namespace Judges

theorem isLvalue {e e' : Expr} {ty : Ty} {a : Bool} (h : Judges w e ty a e') :
    e'.isLvalue = a := by
  cases h <;> rfl

theorem ty? {e e' : Expr} {ty : Ty} {a : Bool} (h : Judges w e ty a e') : e'.ty? = some ty := by
  cases h <;> rfl

/-- Only a name becomes a variable. -/
theorem of_var {e : Expr} {ty : Ty} {a : Bool} {m : Note} {x : String} {slot : Slot}
    (h : Judges w e ty a (.var m x slot)) :
    ∃ n, e = .name n x ∧ m.location = n.location ∧ w.Sees x ty slot := by
  cases h with
  | name hs _ => exact ⟨_, rfl, rfl, hs⟩

end Judges

theorem PassesAll.length_eq {es es' : List Expr} {tys : List Ty} (h : PassesAll w es tys es') :
    es.length = tys.length := by
  induction es generalizing tys es' with
  | nil => cases h; rfl
  | cons e es ih =>
    cases h with
    | cons _ h => simp [ih h]

mutual

theorem Judges.of_expr (h : Shows env w) (e : Expr) (hu : e.Unlinked) {r : Typed}
    (hr : (expr env e).outcome = .ok r) : Judges w e r.2 r.1.isLvalue r.1 := by
  cases e with
  | number n v =>
    rw [expr, typed_eq_ok] at hr
    subst hr
    exact .number
  | string n s =>
    rw [expr, typed_eq_ok] at hr
    subst hr
    exact .string
  | read n =>
    rw [expr, typed_eq_ok] at hr
    subst hr
    exact .read
  | name n x =>
    rw [expr, resolve_eq_ok] at hr
    obtain ⟨s, hs, hf, rfl⟩ := hr
    exact .name (h.sees_iff.2 ⟨s, hs, rfl, rfl⟩) hf
  -- only a check makes these two
  | var n x slot => exact absurd (hu _ (Expr.mem_nodes_self _)) (by simp [Expr.isLinked])
  | decay n x slot => exact absurd (hu _ (Expr.mem_nodes_self _)) (by simp [Expr.isLinked])
  | assign n target value =>
    simp only [Expr.Unlinked, Expr.nodes, List.forall_mem_cons, List.forall_mem_append] at hu
    simp only [expr, outcome_bind_eq_ok, assignable_eq_ok, ofType_eq_ok, typed_eq_ok] at hr
    obtain ⟨t, ht, _, ⟨rfl, hv, hl⟩, v, hv', _, ⟨rfl, _⟩, rfl⟩ := hr
    have jt := Judges.of_expr h target hu.2.1 ht
    have jv := Judges.of_expr h value hu.2.2 hv'
    rw [hl] at jt
    exact .assign jt hv jv
  | binary n op left right =>
    simp only [Expr.Unlinked, Expr.nodes, List.forall_mem_cons, List.forall_mem_append] at hu
    rw [expr] at hr
    split at hr
    · next hop =>
      simp only [outcome_bind_eq_ok, valued_eq_ok, outcome_ensure_eq_ok, ofType_eq_ok,
        typed_eq_ok] at hr
      obtain ⟨l, hl, _, ⟨rfl, _⟩, _, hc, q, hq, _, ⟨rfl, _⟩, rfl⟩ := hr
      exact .comparison hop (Judges.of_expr h left hu.2.1 hl) hc
        (Judges.of_expr h right hu.2.2 hq)
    · next hop =>
      simp only [outcome_bind_eq_ok, integer_eq_ok, typed_eq_ok] at hr
      obtain ⟨l, hl, _, rfl, q, hq, _, rfl, rfl⟩ := hr
      exact .arithmetic (by simpa using hop) (Judges.of_expr h left hu.2.1 hl)
        (Judges.of_expr h right hu.2.2 hq)
  | unary n op e =>
    simp only [Expr.Unlinked, Expr.nodes, List.forall_mem_cons] at hu
    cases op with
    | neg =>
      simp only [expr, outcome_bind_eq_ok, integer_eq_ok, typed_eq_ok] at hr
      obtain ⟨q, hq, _, rfl, rfl⟩ := hr
      exact .neg (Judges.of_expr h e hu.2 hq)
    | address =>
      simp only [expr, outcome_bind_eq_ok, assignable_eq_ok, typed_eq_ok] at hr
      obtain ⟨q, hq, _, ⟨rfl, hv, hl⟩, rfl⟩ := hr
      have j := Judges.of_expr h e hu.2 hq
      rw [hl] at j
      exact .address j hv
    | deref =>
      simp only [expr, outcome_bind_eq_ok, valued_eq_ok] at hr
      obtain ⟨⟨e', ty⟩, hq, _, ⟨rfl, _⟩, hr⟩ := hr
      split at hr
      · next base hb =>
        rw [typed_eq_ok] at hr
        have j := Judges.of_expr h e hu.2 hq
        subst hr
        simp only at hb
        subst hb
        exact .deref j
      · simp at hr
  | index n base i =>
    simp only [Expr.Unlinked, Expr.nodes, List.forall_mem_cons, List.forall_mem_append] at hu
    simp only [expr, outcome_bind_eq_ok, valued_eq_ok] at hr
    obtain ⟨b, hb, _, ⟨rfl, _⟩, hr⟩ := hr
    split at hr
    · next element he =>
      simp only [outcome_bind_eq_ok, integer_eq_ok, typed_eq_ok] at hr
      obtain ⟨q, hq, _, rfl, rfl⟩ := hr
      exact .index (Judges.of_expr h base hu.2.1 hb) he (Judges.of_expr h i hu.2.2 hq)
    · simp at hr
  | call n x args =>
    simp only [Expr.Unlinked, Expr.nodes, List.forall_mem_cons] at hu
    simp only [expr, outcome_bind_eq_ok, callee_eq_ok, typed_eq_ok] at hr
    obtain ⟨⟨params, result⟩, ⟨hs, hl⟩, args', ha, rfl⟩ := hr
    obtain ⟨d, hd, rfl, hty⟩ := h.globals_find?_iff.1 hs
    exact .call hd hty (PassesAll.of_arguments h args hu.2 hl ha)

theorem PassesAll.of_arguments (h : Shows env w) (es : List Expr)
    (hu : ∀ x ∈ Expr.nodesOfList es, x.isLinked = false) {x : String} {position : Nat}
    {tys : List Ty} {es' : List Expr} (hl : tys.length = es.length)
    (hr : (arguments env x position es tys).outcome = .ok es') : PassesAll w es tys es' := by
  cases es with
  | nil =>
    obtain rfl := List.eq_nil_of_length_eq_zero hl
    rw [arguments, outcome_pure_eq_ok] at hr
    · subst hr
      exact .nil
    · simp
  | cons e es =>
    cases tys with
    | nil => simp at hl
    | cons ty tys =>
      simp only [Expr.nodesOfList, List.forall_mem_append] at hu
      simp only [arguments, outcome_bind_eq_ok, pass_eq_ok, outcome_pure_eq_ok] at hr
      obtain ⟨r, hr, e', ⟨hv, hp⟩, es', hes, rfl⟩ := hr
      have j := Judges.of_expr h e hu.1 hr
      refine .cons ?_ (PassesAll.of_arguments h es hu.2 (by simpa using hl) hes)
      rcases hp with rfl | ⟨_, m, y, slot, t, length, rfl, rfl, rfl⟩
      · exact .value j hv
      · obtain ⟨n, rfl, hm, hs⟩ := j.of_var
        have hn : m.judged (.pointer t) false = n.judged (.pointer t) false := by
          simp [Note.judged, hm]
        rw [hn]
        exact .decay hs

end

theorem ne_void_of_isComparable {ty : Ty} (h : ty.isComparable = true) : ty ≠ .void := by
  rintro rfl
  cases h

/-! What the parts of an expression are checked to be settles what the whole is checked to be. -/

section

variable {n : Note} {e e' left left' right right' : Expr} {ty : Ty}

theorem expr_assign (hl : (expr env left).outcome = .ok (left', ty)) (ha : left'.isLvalue = true)
    (hv : ty ≠ .void) (hr : (expr env right).outcome = .ok (right', ty)) :
    (expr env (.assign n left right)).outcome =
      .ok (.assign (n.judged ty false) left' right', ty) := by
  simp only [expr, outcome_bind_eq_ok, assignable_eq_ok, ofType_eq_ok, typed_eq_ok]
  exact ⟨_, hl, _, ⟨rfl, hv, ha⟩, _, hr, _, ⟨rfl, hv⟩, rfl⟩

theorem expr_comparison {op : BinaryOp} (hop : op.isComparison = true)
    (hl : (expr env left).outcome = .ok (left', ty)) (hc : ty.isComparable = true)
    (hr : (expr env right).outcome = .ok (right', ty)) :
    (expr env (.binary n op left right)).outcome =
      .ok (.binary (n.judged .int false) op left' right', .int) := by
  have hv : ty ≠ .void := ne_void_of_isComparable hc
  rw [expr, if_pos hop]
  simp only [outcome_bind_eq_ok, valued_eq_ok, outcome_ensure_eq_ok, ofType_eq_ok, typed_eq_ok]
  exact ⟨_, hl, _, ⟨rfl, hv⟩, (), hc, _, hr, _, ⟨rfl, hv⟩, rfl⟩

theorem expr_arithmetic {op : BinaryOp} (hop : op.isComparison = false)
    (hl : (expr env left).outcome = .ok (left', .int))
    (hr : (expr env right).outcome = .ok (right', .int)) :
    (expr env (.binary n op left right)).outcome =
      .ok (.binary (n.judged .int false) op left' right', .int) := by
  rw [expr, if_neg (by simp [hop])]
  simp only [outcome_bind_eq_ok, integer_eq_ok, typed_eq_ok]
  exact ⟨_, hl, _, rfl, _, hr, _, rfl, rfl⟩

theorem expr_neg (he : (expr env e).outcome = .ok (e', .int)) :
    (expr env (.unary n .neg e)).outcome = .ok (.unary (n.judged .int false) .neg e', .int) := by
  simp only [expr, outcome_bind_eq_ok, integer_eq_ok, typed_eq_ok]
  exact ⟨_, he, _, rfl, rfl⟩

theorem expr_address (he : (expr env e).outcome = .ok (e', ty)) (ha : e'.isLvalue = true)
    (hv : ty ≠ .void) : (expr env (.unary n .address e)).outcome =
      .ok (.unary (n.judged (.pointer ty) false) .address e', .pointer ty) := by
  simp only [expr, outcome_bind_eq_ok, assignable_eq_ok, typed_eq_ok]
  exact ⟨_, he, _, ⟨rfl, hv, ha⟩, rfl⟩

theorem expr_deref (he : (expr env e).outcome = .ok (e', .pointer ty)) :
    (expr env (.unary n .deref e)).outcome = .ok (.unary (n.judged ty true) .deref e', ty) := by
  simp only [expr, outcome_bind_eq_ok, valued_eq_ok]
  refine ⟨_, he, _, ⟨rfl, by simp⟩, ?_⟩
  rw [typed_eq_ok]

theorem expr_index {element : Ty} (hl : (expr env left).outcome = .ok (left', ty))
    (hb : ty.base? = some element) (hr : (expr env right).outcome = .ok (right', .int)) :
    (expr env (.index n left right)).outcome =
      .ok (.index (n.judged element true) left' right', element) := by
  have hv : ty ≠ .void := by
    rintro rfl
    simp [Ty.base?] at hb
  simp only [expr, outcome_bind_eq_ok, valued_eq_ok]
  refine ⟨_, hl, _, ⟨rfl, hv⟩, ?_⟩
  simp only [hb, outcome_bind_eq_ok, integer_eq_ok, typed_eq_ok]
  exact ⟨_, hr, _, rfl, rfl⟩

theorem expr_call (h : Shows env w) {d : Decl} {params : List Ty} {args args' : List Expr}
    (hd : d ∈ w.program) (hty : d.ty = .function params ty) (hl : params.length = args.length)
    (ha : (arguments env d.name 1 args params).outcome = .ok args') :
    (expr env (.call n d.name args)).outcome =
      .ok (.call (n.judged ty false) d.name args', ty) := by
  simp only [expr, outcome_bind_eq_ok, callee_eq_ok, typed_eq_ok]
  exact ⟨(_, _), ⟨h.globals_find?_iff.2 ⟨_, hd, rfl, hty⟩, hl⟩, _, ha, rfl⟩

theorem arguments_cons {x : String} {position : Nat} {tys : List Ty} {es es' : List Expr}
    {r : Typed} (he : (expr env e).outcome = .ok r)
    (hp : (pass x position ty r).outcome = .ok e')
    (hes : (arguments env x (position + 1) es tys).outcome = .ok es') :
    (arguments env x position (e :: es) (ty :: tys)).outcome = .ok (e' :: es') := by
  simp only [arguments, outcome_bind_eq_ok, outcome_pure_eq_ok]
  exact ⟨_, he, _, hp, _, hes, rfl⟩

end

theorem Passes.pass_eq_ok {e e' : Expr} {ty : Ty} (j : Passes w e ty e')
    (ih : ∀ {ty a e'}, Judges w e ty a e' → (expr env e).outcome = .ok (e', ty))
    (x : String) (position : Nat) :
    ∃ r, (expr env e).outcome = .ok r ∧ (pass x position ty r).outcome = .ok e' := by
  cases j with
  | value j hv => exact ⟨_, ih j, Typing.pass_eq_ok.2 ⟨hv, .inl rfl⟩⟩
  | decay hs =>
    exact ⟨_, ih (.name hs rfl), Typing.pass_eq_ok.2
      ⟨by simp, .inr ⟨by simp, _, _, _, _, _, rfl, rfl, rfl⟩⟩⟩

mutual

theorem Judges.expr_eq_ok (h : Shows env w) {e e' : Expr} {ty : Ty} {a : Bool}
    (j : Judges w e ty a e') : (expr env e).outcome = .ok (e', ty) := by
  cases j with
  | number | string | read => rw [expr, typed_eq_ok]
  | name hs hf =>
    obtain ⟨s, hf', rfl, rfl⟩ := h.sees_iff.1 hs
    rw [expr, resolve_eq_ok]
    exact ⟨s, hf', hf, rfl⟩
  | assign jt hv jv => exact expr_assign (jt.expr_eq_ok h) jt.isLvalue hv (jv.expr_eq_ok h)
  | comparison hop jl hc jr => exact expr_comparison hop (jl.expr_eq_ok h) hc (jr.expr_eq_ok h)
  | arithmetic hop jl jr => exact expr_arithmetic hop (jl.expr_eq_ok h) (jr.expr_eq_ok h)
  | neg j => exact expr_neg (j.expr_eq_ok h)
  | address j hv => exact expr_address (j.expr_eq_ok h) j.isLvalue hv
  | deref j => exact expr_deref (j.expr_eq_ok h)
  | index jb he ji => exact expr_index (jb.expr_eq_ok h) he (ji.expr_eq_ok h)
  | call hd hty ja => exact expr_call h hd hty ja.length_eq.symm (ja.arguments_eq_ok h _ _)

theorem PassesAll.arguments_eq_ok (h : Shows env w) {es es' : List Expr} {tys : List Ty}
    (j : PassesAll w es tys es') (x : String) (position : Nat) :
    (arguments env x position es tys).outcome = .ok es' := by
  cases j with
  | nil => simp [arguments]
  | cons j js =>
    obtain ⟨r, hr, hp⟩ := j.pass_eq_ok (fun j => j.expr_eq_ok h) x position
    exact arguments_cons hr hp (js.arguments_eq_ok h x (position + 1))

end

/-- Checking an expression finds what the rules judge, and nothing else. -/
theorem expr_eq_ok_iff (h : Shows env w) {e e' : Expr} (hu : e.Unlinked) {ty : Ty} :
    (expr env e).outcome = .ok (e', ty) ↔ ∃ a, Judges w e ty a e' :=
  ⟨fun hr => ⟨_, Judges.of_expr h e hu hr⟩, fun ⟨_, j⟩ => j.expr_eq_ok h⟩

end Bpl.Typing
