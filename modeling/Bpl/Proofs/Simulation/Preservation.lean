import Bpl.Proofs.Semantics.Progress
import Bpl.Proofs.Simulation.Program
import Bpl.Proofs.Typing.Decision

namespace Bpl

open Machine

/-- The compiled form of a program without pointers does what the program does. The program never
gets stuck, and where its run tells how it ends, the machine ends in the same way, with the same
output: after the main function, or in the trap if an index falls off its array. It does come to
that end on every stack with room for calls as deep as those of the run, however long the run is. A
smaller stack may be exhausted before. -/
theorem compile_preserves {source : String} {a : Assembly}
    (h : (compile source).outcome = .ok a) :
    ∃ p q, tokenize source >>= parse = .ok p ∧ (analyze source).outcome = .ok q ∧
      (p.PointerFree → ∀ (H : Host a) (input : List Int64) (s : State), Starts H input s →
        ∀ fuel depth, q.interpret H.order fuel depth input ≠ .error .stuck ∧
          ∀ e, Semantics.ending? (q.interpret H.order fuel depth input) = some e →
            Ends H e s ∧ (q.room depth ≤ H.top - H.limit → Halts H e s)) := by
  obtain ⟨ts, p, q, hts, hp, hq, ha⟩ := exists_of_compile h
  have hparse : tokenize source >>= parse = .ok p := Except.bind_eq_ok_iff.2 ⟨ts, hts, hp⟩
  refine ⟨p, q, hparse, ?_, fun hfree H input s hs fuel depth => ?_⟩
  · simp only [analyze, Logged.outcome_bind_eq_ok, Logged.outcome_ofExcept_eq_ok]
    exact ⟨p, hparse, hq⟩
  · have hd := Program.derives_of_check hp hq
    have hl := hd.linked (plain_of_parse hp)
    have hflat := Program.Flat.of_derives hd (plain_of_parse hp) hfree
    have hm := Lowering.makes_of_lower hl.distinct ha
    refine ⟨hflat.interpret_ne_stuck H.order fuel depth input, fun e he => ?_⟩
    have hleads : Leads H (H.top - q.room depth) (· = .ended e) s :=
      Simulation.leads_of_ending hl hm hs (by omega) he
    exact ⟨⟨_, hleads⟩, fun hroom => hleads.halts (by omega)⟩

/-- Reads a number into an element of an array and writes its factorial. -/
def writesFactorial : String :=
  "int a[2]; int f(int n) \x7b if (n == 0) return 1; return n * f(n - 1); \x7d " ++
    "void main(void) \x7b a[1] = read(); write(f(a[1])); \x7d"

def factorial : Assembly :=
  (compile writesFactorial).outcome.toOption.getD ⟨[], [], [], none⟩

/-- The line that the address after it stands for. -/
def lineBefore (x : Int64) : Option Nat :=
  if 0 < x.toInt then some (x.toInt.toNat - 1) else none

theorem lineBefore_ofNat {i : Nat} (hi : i + 1 < 2 ^ 63) :
    lineBefore (.ofNat (i + 1)) = some i := by
  have hx : (Int64.ofNat (i + 1)).toInt = (i + 1 : Nat) := Int64.toInt_ofNat_of_lt hi
  rw [lineBefore, hx, if_pos (by omega)]
  congr 1

/-- A host with room for a few thousand words, for a short program that has no strings and one
global variable at most. -/
def smallHost (a : Assembly) (hcode : a.code.length < 100) (hstrings : a.strings = [])
    (hglobals : ∀ g ∈ a.globals, g.2 ≤ 4096 ∧ ∀ h ∈ a.globals, g.1 = h.1) : Host a where
  dataAddress
    | .integerFormat => 1
    | .newline => 2
    | .stringFormat => 3
    | .overflowMessage => 4
    | .readFormat => 5
    | .global _ => 4096
    | _ => 0
  codeAddress i := .ofNat (i + 1)
  lineAt := lineBefore
  exit := 0
  limit := 8192
  top := 65536
  scratch := id
  lineAt_codeAddress := by
    intro i x hi
    have hlt := (List.getElem?_eq_some_iff.1 hi).1
    exact lineBefore_ofNat (by omega)
  lineAt_exit := rfl
  limit_nonneg := by decide
  limit_le_top := by decide
  top_lt := by decide
  top_aligned := by decide
  formats := by decide
  strings := by simp [hstrings]
  global_aligned := by
    intro g _
    change (4096 : Int64).toInt % 8 = 0
    decide
  global_fits := by
    intro g hg
    have hsize := (hglobals g hg).1
    change 4096 + (g.2 : Int) < 2 ^ 63
    omega
  global_apart := fun g hg h hh hne => absurd ((hglobals g hg).2 h hh) hne
  global_stack := by
    intro g hg
    have hsize := (hglobals g hg).1
    left
    change 4096 + (g.2 : Int) ≤ 8192
    omega

theorem factorial_small : factorial.code.length < 100 ∧ factorial.strings = [] ∧
    ∀ g ∈ factorial.globals, g.2 ≤ 4096 ∧ ∀ h ∈ factorial.globals, g.1 = h.1 := by
  decide +kernel

def factorialHost : Host factorial :=
  smallHost factorial factorial_small.1 factorial_small.2.1 factorial_small.2.2

/-- The first state of the run that reads `v`. -/
def factorialStart (v : Int64) : State where
  regs
    | .rsp => 65536
    | _ => 0
  mem _ := 0
  compared := none
  line := (lineOf? factorial (.function "main")).getD 0
  input := [v]
  output := []

theorem factorial_preserved :
    (compile writesFactorial).outcome = .ok factorial ∧
      Starts factorialHost [3] (factorialStart 3) ∧
        Ends factorialHost ⟨0, [.integer 6]⟩ (factorialStart 3) ∧
          Halts factorialHost ⟨0, [.integer 6]⟩ (factorialStart 3) := by
  have hsome : (compile writesFactorial).outcome.toOption = some factorial := by decide +kernel
  have hok : (compile writesFactorial).outcome = .ok factorial := by
    cases hc : (compile writesFactorial).outcome with
    | error e => simp [hc, Except.toOption] at hsome
    | ok a => simpa [hc, Except.toOption] using hsome
  have hstarts : Starts factorialHost [3] (factorialStart 3) := by
    refine ⟨?_, rfl, rfl, fun _ _ => rfl, rfl, rfl⟩
    decide +kernel
  obtain ⟨p, q, hp, hq, hends⟩ := compile_preserves hok
  have hfree : ((tokenize writesFactorial >>= parse).toOption.any fun p =>
      decide p.PointerFree) = true := by
    decide +kernel
  -- one call from the main function, and three inside of that
  have hending : ((analyze writesFactorial).outcome.toOption.any fun q =>
      decide (Semantics.ending? (q.interpret factorialHost.order 40 4 [3]) =
        some ⟨0, [.integer 6]⟩ ∧ q.room 4 ≤ 2000)) = true := by
    decide +kernel
  rw [hp] at hfree
  rw [hq] at hending
  have hfree : p.PointerFree := of_decide_eq_true hfree
  obtain ⟨hending, hroom⟩ := of_decide_eq_true hending
  obtain ⟨hends, hhalts⟩ := (hends hfree factorialHost [3] _ hstarts 40 4).2 _ hending
  have hstack : factorialHost.top - factorialHost.limit = 57344 := rfl
  exact ⟨hok, hstarts, hends, hhalts (by omega)⟩

end Bpl
