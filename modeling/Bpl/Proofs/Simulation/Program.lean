import Bpl.Proofs.Simulation.Stmt

namespace Bpl.Simulation

open Asm Machine

variable {a : Assembly} {H : Host a} {p : Program} {f : Function} {low : Int} {s : State}
  {input : List Int64} {fuel depth : Nat}

/-- At the start, the memory of the global variables is cleared. -/
theorem holds_initial (hm : p.Makes a) {b : Int} (hs : Starts H input s) :
    Holds H p f b ⟨Semantics.initial p, input, []⟩ s := by
  refine ⟨hs.input_eq, hs.output_eq, fun c v z hv hz => ?_⟩
  cases c with
  | global x i =>
    rw [hs.cleared z (hz.isData hm)]
    have hv : (p.globals.find? (·.name == x)).bind (fun u => Semantics.cleared u.ty) = some v := hv
    obtain ⟨u, _, hu⟩ := Option.bind_eq_some_iff.1 hv
    have hzero : ∀ {ty : Ty}, Semantics.cleared ty = some v → v = .int 0 := by
      intro ty h
      unfold Semantics.cleared at h
      split at h <;> cases h <;> rfl
    rw [hzero hu]
    exact .int
  | parameter k i => cases hv
  | localVar k i => cases hv

/-- The main function is run from the start up to its return. -/
theorem follows_main (hl : p.Linked) (hm : p.Makes a) (hf : f ∈ p.functions)
    (hmain : f.isMain = true) (hs : Starts H input s) (hlow : low + p.room depth ≤ H.top) :
    Follows H low
      ((Semantics.block p H.order fuel depth f.body).run ⟨Semantics.initial p, input, []⟩)
      (fun v m t => Returns H p f (entryBase f s.sp) s v.join m t) s := by
  obtain ⟨k, c, hk, hc, he⟩ := hm.functions f hf
  rw [beq_iff_eq.1 hmain, hs.line] at hk
  cases hk
  have hroom := H.limit_le_top
  have hsp := hs.sp_eq
  have haligned := H.top_aligned
  have hin : entryBase f s.sp + 16 + 8 * f.params.length ≤ H.top + 8 := by
    rw [entryBase, if_pos hmain, (hl.of_isMain hf hmain).1, List.length_nil]
    omega
  have hspan := p.need_add_span_le hf depth 0
  rw [Program.room] at hlow
  exact (simulates hl hm fuel).function hm hl hf hc he rfl (by omega) (by omega) (by omega) hin
    (holds_initial hm hs)

/-- A machine that is started on a compiled program ends as the program does. -/
theorem leads_of_ending (hl : p.Linked) (hm : p.Makes a) (hs : Starts H input s)
    (hlow : low + p.room depth ≤ H.top) {e : Ending}
    (he : Semantics.ending? (p.interpret H.order fuel depth input) = some e) :
    Leads H low (· = .ended e) s := by
  rw [Program.interpret] at he
  cases hfind : p.functions.find? Function.isMain with
  | none =>
    rw [hfind] at he
    cases he
  | some f =>
    rw [hfind] at he
    have hf := List.mem_of_find?_eq_some hfind
    have hmain := List.find?_some hfind
    have hrun : Follows H low ((Semantics.block p H.order fuel depth f.body).run
        ⟨Semantics.initial p, input, []⟩) _ s := follows_main hl hm hf hmain hs hlow
    dsimp only at he
    cases hr : (Semantics.block p H.order fuel depth f.body).run
        ⟨Semantics.initial p, input, []⟩ with
    | ok r =>
      rw [hr] at he hrun
      cases he
      refine Leads.after hrun fun t ht => ?_
      have hsp := ht.sp_eq
      have hroom := H.limit_le_top
      have htop := hs.sp_eq
      have haligned := H.top_aligned
      -- `main` and what it calls leave the return address to the host as it was
      have hexit : t.mem t.sp = H.exit := by
        have hd : H.isData t.sp = false := Host.isData_eq_false (by omega) (by omega)
        have ho := not_owns (w := t.sp) (fun h => (hl.of_isMain hf h).1) (.inl hsp)
        rw [ht.keeps t.sp hsp.ge hd ho, hsp, htop, hs.returnAddress]
      refine Leads.exits ht.line (by omega) hexit ?_
      rw [ht.status hmain, ht.holds.output]
    | error e' =>
      rw [hr] at he hrun
      cases e' with
      | fellOff output =>
        cases he
        exact hrun
      | undefined => cases he
      | stuck => cases he
      | outOfFuel => cases he

end Bpl.Simulation
