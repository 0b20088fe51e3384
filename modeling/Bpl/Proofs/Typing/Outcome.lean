import Bpl.Proofs.Except
import Bpl.Proofs.Typing.Rules
import Bpl.Typing.Program

namespace Bpl

namespace Logged

variable {α β : Type}

theorem outcome_bind_eq_ok {x : Logged α} {f : α → Logged β} {b : β} :
    (x >>= f).outcome = .ok b ↔ ∃ a, x.outcome = .ok a ∧ (f a).outcome = .ok b := by
  rw [outcome_bind, Except.bind_eq_ok_iff]

theorem outcome_ensure_eq_ok {ok : Bool} {l : Location} {v : Violation} {u : Unit} :
    (ensure ok l v).outcome = .ok u ↔ ok = true := by
  cases ok <;> simp [ensure]

theorem outcome_pure_eq_ok {a b : α} : (pure a : Logged α).outcome = .ok b ↔ a = b := by
  simp

theorem outcome_report_eq_ok {e : Event} {u : Unit} : (report e).outcome = .ok u ↔ True := by
  simp

theorem outcome_ofExcept_eq_ok {r : Except Diagnostic α} {a : α} :
    (ofExcept r).outcome = .ok a ↔ r = .ok a := by
  rw [outcome_ofExcept, Except.mapError_eq_ok_iff]

theorem bind_congr_of_ok {x : Logged α} {f g : α → Logged β}
    (h : ∀ a, x.outcome = .ok a → f a = g a) : x >>= f = x >>= g := by
  change andThen x f = andThen x g
  unfold andThen
  cases hx : x.outcome with
  | error e => rfl
  | ok a => simp only [h a hx]

end Logged

namespace Typing

open Logged

theorem isVoid_eq_false_iff {ty : Ty} : ty.isVoid = false ↔ ty ≠ .void := by
  cases ty <;> simp [Ty.isVoid]

theorem isInteger_iff {ty : Ty} : ty.isInteger = true ↔ ty = .int := by
  cases ty <;> simp [Ty.isInteger]

theorem typed_eq_ok {n : Note} {ty : Ty} {lvalue : Bool} {mk : Note → Expr} {r : Typed} :
    (typed n ty lvalue mk).outcome = .ok r ↔ r = (mk (n.judged ty lvalue), ty) := by
  simp only [typed, outcome_bind_eq_ok, outcome_report_eq_ok, outcome_pure_eq_ok, exists_const,
    true_and]
  exact eq_comm

theorem valued_eq_ok {r q : Typed} : (valued r).outcome = .ok q ↔ q = r ∧ r.2 ≠ .void := by
  simp only [valued, outcome_bind_eq_ok, outcome_ensure_eq_ok, outcome_pure_eq_ok,
    Bool.not_eq_true', isVoid_eq_false_iff]
  constructor
  · rintro ⟨_, h, rfl⟩
    exact ⟨rfl, h⟩
  · rintro ⟨rfl, h⟩
    exact ⟨(), h, rfl⟩

theorem integer_eq_ok {construct : String} {r : Typed} {e : Expr} :
    (integer construct r).outcome = .ok e ↔ r = (e, .int) := by
  simp only [integer, outcome_bind_eq_ok, valued_eq_ok, outcome_ensure_eq_ok, outcome_pure_eq_ok,
    isInteger_iff]
  constructor
  · rintro ⟨_, ⟨rfl, _⟩, _, h, rfl⟩
    exact Prod.ext rfl h
  · rintro rfl
    exact ⟨_, ⟨rfl, by simp⟩, (), rfl, rfl⟩

theorem assignable_eq_ok {construct : String} {r q : Typed} :
    (assignable construct r).outcome = .ok q ↔ q = r ∧ r.2 ≠ .void ∧ r.1.isLvalue = true := by
  simp only [assignable, outcome_bind_eq_ok, valued_eq_ok, outcome_ensure_eq_ok,
    outcome_pure_eq_ok]
  constructor
  · rintro ⟨_, ⟨rfl, hv⟩, _, h, rfl⟩
    exact ⟨rfl, hv, h⟩
  · rintro ⟨rfl, hv, h⟩
    exact ⟨_, ⟨rfl, hv⟩, (), h, rfl⟩

theorem ofType_eq_ok {construct : String} {expected : Ty} {r : Typed} {e : Expr} :
    (ofType construct expected r).outcome = .ok e ↔ r = (e, expected) ∧ expected ≠ .void := by
  simp only [ofType, outcome_bind_eq_ok, valued_eq_ok, outcome_ensure_eq_ok, outcome_pure_eq_ok,
    decide_eq_true_iff]
  constructor
  · rintro ⟨_, ⟨rfl, hv⟩, _, h, rfl⟩
    exact ⟨Prod.ext rfl h, h ▸ hv⟩
  · rintro ⟨rfl, hv⟩
    exact ⟨_, ⟨rfl, hv⟩, (), rfl, rfl⟩

theorem resolve_eq_ok {env : Env} {n : Note} {x : String} {r : Typed} :
    (resolve env n x).outcome = .ok r ↔
      ∃ s, env.find? x = some s ∧ s.ty.isFunction = false ∧
        r = (.var (n.judged s.ty (!s.ty.isArray)) x s.slot, s.ty) := by
  unfold resolve
  cases env.find? x with
  | none => simp
  | some s =>
    simp only [outcome_bind_eq_ok, outcome_ensure_eq_ok, outcome_pure_eq_ok,
      outcome_report_eq_ok, Bool.not_eq_true', Option.some.injEq, exists_eq_left', exists_const,
      true_and]
    exact and_congr_right fun _ => eq_comm

theorem callee_eq_ok {globals : Scope} {l : Location} {x : String} {given : Nat}
    {r : List Ty × Ty} :
    (callee globals l x given).outcome = .ok r ↔
      (∃ s, globals.find? x = some s ∧ s.ty = .function r.1 r.2) ∧ r.1.length = given := by
  unfold callee
  cases globals.find? x with
  | none => simp
  | some s =>
    cases hs : s.ty with
    | function params result =>
      simp only [outcome_bind_eq_ok, outcome_ensure_eq_ok, outcome_pure_eq_ok,
        decide_eq_true_iff, exists_const, Option.some.injEq, exists_eq_left', hs,
        Ty.function.injEq]
      constructor
      · rintro ⟨h, rfl⟩
        exact ⟨⟨rfl, rfl⟩, h⟩
      · rintro ⟨⟨hp, hr⟩, h⟩
        exact ⟨hp ▸ h, Prod.ext hp hr⟩
    | _ => simp [hs]

theorem pass_eq_ok {x : String} {position : Nat} {param : Ty} {r : Typed} {e : Expr} :
    (pass x position param r).outcome = .ok e ↔
      r.2 ≠ .void ∧ (r = (e, param) ∨ r.2 ≠ param ∧ ∃ n y slot ty length,
        r = (.var n y slot, .array ty length) ∧ param = .pointer ty ∧
          e = .decay (n.judged param false) y slot) := by
  obtain ⟨f, found⟩ := r
  simp only [pass, outcome_bind_eq_ok, valued_eq_ok]
  constructor
  · rintro ⟨_, ⟨rfl, hv⟩, h⟩
    refine ⟨hv, ?_⟩
    by_cases heq : found = param
    · rw [if_pos heq, outcome_pure_eq_ok] at h
      exact .inl (Prod.ext h heq)
    · rw [if_neg heq] at h
      refine .inr ⟨heq, ?_⟩
      split at h
      · next n y slot ty length target he ht =>
        simp only [outcome_bind_eq_ok, outcome_ensure_eq_ok, outcome_report_eq_ok,
          outcome_pure_eq_ok, decide_eq_true_iff, exists_const, true_and] at h
        obtain ⟨rfl, rfl⟩ := h
        exact ⟨n, y, slot, ty, length, Prod.ext he ht, rfl, rfl⟩
      · simp at h
  · rintro ⟨hv, h⟩
    refine ⟨_, ⟨rfl, hv⟩, ?_⟩
    rcases h with h | ⟨heq, n, y, slot, ty, length, h, rfl, rfl⟩
    · cases h
      simp
    · cases h
      rw [if_neg heq]
      simp only [outcome_bind_eq_ok, outcome_ensure_eq_ok, outcome_report_eq_ok,
        outcome_pure_eq_ok, decide_true, exists_const, true_and]
      rfl

end Typing

end Bpl
