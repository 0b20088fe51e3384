import Bpl.Proofs.Simulation.Variables

namespace Bpl

open Simulation

/-- How the words of a frame are shared out. From the frame pointer down its locals lie one below
the other, without a gap. The words up to 16 bytes above it are left for the return address and
the frame pointer of the caller; from there up to the first are the parameters. -/
structure Frame.Tiles (f : Function) : Prop where
  locals : (Frame.layout f).locals.length = f.locals.length
  aligned : ∀ o ∈ (Frame.layout f).locals, o % 8 = 0
  downward : ∀ (k l : Nat) v w (o o' : Int), k < l → f.locals[k]? = some v →
    (Frame.layout f).locals[k]? = some o → f.locals[l]? = some w →
      (Frame.layout f).locals[l]? = some o' → o' + w.ty.size ≤ o
  tile : ∀ z : Int, -((Frame.layout f).size : Int) ≤ z ∧ z < 0 ↔
    ∃ (k : Nat) (v : Variable) (o : Int), f.locals[k]? = some v ∧
      (Frame.layout f).locals[k]? = some o ∧ o ≤ z ∧ z < o + v.ty.size
  params : (Frame.layout f).params.reverse =
    (List.range f.params.length).map fun k : Nat => 16 + 8 * (k : Int)
  distinct : (Frame.layout f).params.Nodup

/-- Each byte below those in use belongs to one of the locals. -/
theorem Frame.localOffsets_tile {vs : List Variable} {used : Nat} {z : Int} :
    -((used + Variable.totalSize vs : Nat) : Int) ≤ z ∧ z < -used ↔
      ∃ (k : Nat) (v : Variable) (o : Int), vs[k]? = some v ∧
        (Frame.localOffsets used vs)[k]? = some o ∧ o ≤ z ∧ z < o + v.ty.size := by
  constructor
  · intro hz
    induction vs generalizing used with
    | nil =>
      have hnone : Variable.totalSize [] = 0 := rfl
      omega
    | cons u us ih =>
      have hsum : Variable.totalSize (u :: us) = u.ty.size + Variable.totalSize us := rfl
      by_cases hfirst : -((used + u.ty.size : Nat) : Int) ≤ z
      · exact ⟨0, u, _, rfl, rfl, hfirst, by omega⟩
      · have hrest : -((used + u.ty.size + Variable.totalSize us : Nat) : Int) ≤ z ∧
            z < -((used + u.ty.size : Nat) : Int) := by
          omega
        obtain ⟨k, v, o, hv, ho, hin⟩ := ih hrest
        exact ⟨k + 1, v, o, hv, ho, hin⟩
  · rintro ⟨k, v, o, hv, ho, hlo, hhi⟩
    have hbounds := localOffsets_bounds hv ho
    omega

theorem Frame.reverse_params (f : Function) : (Frame.layout f).params.reverse =
    (List.range f.params.length).map fun k : Nat => 16 + 8 * (k : Int) := by
  apply List.ext_getElem
  · simp [Frame.layout]
  · intro k hk _
    have hlt : k < f.params.length := by simpa [Frame.layout] using hk
    simp only [Frame.layout, List.getElem_reverse, List.getElem_map, List.getElem_range,
      List.length_map, List.length_range, Frame.paramOffset, Ty.wordSize]
    omega

theorem Program.Linked.tiles {q : Program} (hl : q.Linked) {f : Function} (hf : f ∈ q.functions) :
    Frame.Tiles f where
  locals := Frame.length_localOffsets 0 f.locals
  aligned := by
    intro o ho
    obtain ⟨k, hk⟩ := List.getElem?_of_mem ho
    have hsizes : ∀ v ∈ f.locals, v.ty.size % 8 = 0 := fun v hv =>
      size_aligned (hl.own f hf v (List.mem_append_right _ hv))
    exact localOffsets_aligned hsizes rfl hk
  downward := fun k l v w o o' hkl hv ho hw ho' => localOffsets_apart hv ho hw ho' hkl
  tile := by
    intro z
    have htile : -((0 + Variable.totalSize f.locals : Nat) : Int) ≤ z ∧ z < -(0 : Nat) ↔
        ∃ (k : Nat) (v : Variable) (o : Int), f.locals[k]? = some v ∧
          (Frame.layout f).locals[k]? = some o ∧ o ≤ z ∧ z < o + v.ty.size :=
      Frame.localOffsets_tile
    rwa [Nat.zero_add, Nat.cast_zero, Int.neg_zero] at htile
  params := Frame.reverse_params f
  distinct := by
    rw [← List.nodup_reverse, Frame.reverse_params]
    refine List.Nodup.map ?_ List.nodup_range
    intro k l hkl
    have hkl : 16 + 8 * (k : Int) = 16 + 8 * l := hkl
    omega

end Bpl
