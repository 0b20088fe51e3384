import Bpl.Proofs.Parsing.Bytes
import Bpl.Proofs.Stack.Balance
import Bpl.Proofs.Typing.Linked
import Bpl.Proofs.Typing.Unchecked

namespace Bpl

/-- The check leaves the number of arguments of a call as it is. -/
theorem Expr.writtenIn_unchecked {n : Nat} (e : Expr) : e.unchecked.WrittenIn n ↔ e.WrittenIn n := by
  cases e with
  | call note x args => rw [Expr.unchecked, WrittenIn, WrittenIn, Expr.length_uncheckedList]
  | _ => exact Iff.rfl

/-- In a source of less than 2^63 bytes, the arguments of a call are few. -/
theorem fewArguments_of_analyze {source : String} {q : Program}
    (h : (analyze source).outcome = .ok q) (hsize : source.utf8ByteSize < 2 ^ 63) :
    ∀ f ∈ q.functions, ∀ e ∈ f.body.exprs, ∀ x ∈ e.nodes, x.FewArguments := by
  have hlinked := linked_of_analyze h
  obtain ⟨ts, p, ht, hp, hq⟩ := exists_parse_of_analyze h
  have hd := Program.derives_of_check hp hq
  obtain ⟨m, n, hmn, hparams, hcalls⟩ := exists_holds_of_parse ht hp
  intro f hf e he x hx
  cases x with
  | call note y args =>
    obtain ⟨g, hg, _, hlen⟩ := hlinked.nodes f hf e he _ hx
    obtain ⟨g₀, hg₀, hgp, _⟩ := hd.exists_function hg
    obtain ⟨f₀, hf₀, _, _, j⟩ := hd.exists_function hf
    obtain ⟨e₀, he₀, x₀, hx₀, heq⟩ := j.exists_node he hx
    have hwritten : (Expr.call note y args).WrittenIn n := by
      rw [← Expr.writtenIn_unchecked, ← heq, Expr.writtenIn_unchecked]
      exact hcalls f₀ hf₀ e₀ he₀ x₀ hx₀
    rw [Expr.WrittenIn] at hwritten
    have hsix := hparams g₀ hg₀
    rw [← hgp, hlen] at hsix
    change Ty.wordSize * args.length < 2 ^ 63
    rw [Ty.wordSize]
    omega
  | _ => trivial

end Bpl
