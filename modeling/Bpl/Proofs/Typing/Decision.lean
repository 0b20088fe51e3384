import Bpl.Proofs.Parsing.Complete
import Bpl.Proofs.Parsing.Unchecked
import Bpl.Proofs.Typing.Slots

namespace Bpl

namespace Program

/-- What is parsed and accepted keeps the rules. -/
theorem derives_of_check {ts : List Token} {p q : Program} (hp : parse ts = .ok p)
    (hq : p.check.outcome = .ok q) : p.Derives q :=
  (Typing.check_eq_ok_iff_derives (unlinked_of_parse hp)).1 hq

theorem Derives.annotated {p p' : Program} (h : p.Derives p') : p'.Annotated := by
  intro e he x hx
  obtain ⟨f, hf, he⟩ := List.mem_flatMap.1 he
  obtain ⟨before, i, after, hi, hie⟩ := Block.exists_item he
  exact ((h.judged hf hi).parts hie x hx).ty?_ne_none

/-- What the parser makes is accepted by the check exactly if it keeps the rules of the language.
The result of the check is the judged program of the derivation, and all of it is typed. -/
theorem check_of_parse {ts : List Token} {p : Program} (h : parse ts = .ok p) :
    (∀ p', p.check.outcome = .ok p' ↔ p.Derives p') ∧
      ∀ p', p.check.outcome = .ok p' → p'.Annotated := by
  have hiff : ∀ p', p.check.outcome = .ok p' ↔ p.Derives p' :=
    fun _ => Typing.check_eq_ok_iff_derives (unlinked_of_parse h)
  exact ⟨hiff, fun p' hp => ((hiff p').1 hp).annotated⟩

/-- The tokens of `int x; void main(void) { x = 1; }`. -/
def storesOne : List Token :=
  let word (w : String) : Token := ⟨.keyword, w, 0, .first⟩
  let mark (w : String) : Token := ⟨.punctuator, w, 0, .first⟩
  let name (x : String) : Token := ⟨.ident, x, 0, .first⟩
  [word "int", name "x", mark ";", word "void", name "main", mark "(", word "void", mark ")",
    mark "\x7b", name "x", mark "=", ⟨.number (some 1), "1", 0, .first⟩, mark ";", mark "\x7d"]

theorem storesOne_checks : ∃ p, parse storesOne = .ok p ∧
    (∀ p', p.check.outcome = .ok p' ↔ p.Derives p') ∧
      (∀ p', p.check.outcome = .ok p' → p'.Annotated) ∧ ∃ p', p.Derives p' := by
  have hok : ((parse storesOne).toOption.any fun p => p.check.outcome.isOk) = true := by
    decide +kernel
  cases hp : parse storesOne with
  | error d => simp [hp, Except.toOption] at hok
  | ok p =>
    obtain ⟨hiff, hann⟩ := check_of_parse hp
    cases hc : p.check.outcome with
    | error f => simp [hp, hc, Except.toOption, Except.isOk, Except.toBool] at hok
    | ok p' => exact ⟨p, rfl, hiff, hann, p', (hiff p').1 hc⟩

end Program

end Bpl
