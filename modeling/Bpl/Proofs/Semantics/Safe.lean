import Bpl.Proofs.Semantics
import Bpl.Proofs.Typing.Linked

namespace Bpl

/-- What a word of a variable holds. -/
def Ty.word : Ty → Ty
  | .array t _ => t
  | t => t

theorem Ty.word_of_isArray {t : Ty} (h : t.isArray = false) : t.word = t := by
  cases t with
  | array => cases h
  | _ => rfl

namespace Program

variable {q : Program} {f g : Function} {x y : String} {slot slot' : Slot} {v u : Variable}

/-- A cell belongs to one variable only. -/
theorem Linked.declares_inj {i j : Nat} (hq : q.Linked) (hv : q.Declares f x slot v)
    (hu : q.Declares f y slot' u) (h : slot.cell x i = slot'.cell y j) : v = u := by
  cases hv with
  | global hv hn =>
    cases hu with
    | global hu hn' =>
      obtain ⟨hxy, _⟩ := Cell.global.inj h
      have hnames := q.globals_names_sublist.nodup hq.distinct
      exact List.inj_on_of_nodup_map hnames hv hu (hn.trans (hxy.trans hn'.symm))
    | parameter _ => cases h
    | localVar _ => cases h
  | parameter hv =>
    cases hu with
    | parameter hu =>
      obtain ⟨hk, _⟩ := Cell.parameter.inj h
      exact Option.some.inj (hv.symm.trans (hk ▸ hu))
    | global _ _ => cases h
    | localVar _ => cases h
  | localVar hv =>
    cases hu with
    | localVar hu =>
      obtain ⟨hk, _⟩ := Cell.localVar.inj h
      exact Option.some.inj (hv.symm.trans (hk ▸ hu))
    | global _ _ => cases h
    | parameter _ => cases h

end Program

namespace Semantics

/-- Values of a type. -/
inductive Of : Ty → Value → Prop
  | int {v : Int64} : Of .int (.int v)
  | string {s : String} : Of .string (.string s)

/-- The variables that a call of `f` sees hold values of their types. -/
def WellTyped (q : Program) (f : Function) (cells : Cell → Option Value) : Prop :=
  ∀ x slot v i w, q.Declares f x slot v → cells (slot.cell x i) = some w → Of v.ty.word w

/-- A run of a call of `f` that does not get stuck. If it ends, its result has the property `P`
and the variables hold values of their types. -/
def Safe {α : Type} (q : Program) (f : Function) (P : α → Prop) :
    Except Stop (α × Store) → Prop
  | .ok (x, m) => P x ∧ WellTyped q f m.cells
  | .error e => e ≠ .stuck

section

variable {q : Program} {f g : Function} {cells after : Cell → Option Value} {x : String}
  {slot : Slot} {v : Variable} {w : Value}

theorem WellTyped.assign {i : Nat} (h : WellTyped q f cells) (hq : q.Linked)
    (hd : q.Declares f x slot v) (hw : Of v.ty.word w) :
    WellTyped q f (Function.update cells (slot.cell x i) (some w)) := by
  intro y slot' u j w' hu hw'
  by_cases hc : slot'.cell y j = slot.cell x i
  · rw [hc, Function.update_self] at hw'
    cases hw'
    rwa [hq.declares_inj hu hd hc]
  · rw [Function.update_of_ne hc] at hw'
    exact h y slot' u j w' hu hw'

/-- Arguments of the types of the parameters make a call that is well typed. -/
theorem WellTyped.enter {vs : List Value} (h : WellTyped q f cells)
    (ha : ∀ v ∈ g.params, v.ty.isArray = false)
    (hvs : List.Forall₂ Of (g.params.map Variable.ty) vs) :
    WellTyped q g (Semantics.enter cells vs) := by
  intro x slot v i w hd hw
  cases hd with
  | global hv hn => exact h x .global v i w (.global hv hn) hw
  | @parameter k _ hv =>
    have hw : (if i = 0 then vs[k]? else none) = some w := hw
    split at hw
    · obtain ⟨hk, hwk⟩ := List.getElem?_eq_some_iff.1 hw
      have hlen := hvs.length_eq
      have hkm : k < (g.params.map Variable.ty).length := by omega
      have hof := (List.forall₂_iff_get.1 hvs).2 k hkm hk
      obtain ⟨hkp, hvk⟩ := List.getElem?_eq_some_iff.1 hv
      rw [Ty.word_of_isArray (ha v (List.mem_of_getElem? hv)), ← hvk, ← hwk]
      simpa using hof
    · cases hw
  | localVar _ => cases hw

/-- A call that is left leaves the variables of its caller well typed. -/
theorem WellTyped.leave (h : WellTyped q f cells) (hg : WellTyped q g after) :
    WellTyped q f (Semantics.leave cells after) := by
  intro x slot v i w hd hw
  cases hd with
  | global hv hn => exact hg x .global v i w (.global hv hn) hw
  | parameter hv => exact h x _ v i w (.parameter hv) hw
  | localVar hv => exact h x _ v i w (.localVar hv) hw

theorem WellTyped.initial (hq : q.Linked) : WellTyped q f (Semantics.initial q) := by
  intro x slot v i w hd hw
  cases hd with
  | global hv hn =>
    obtain ⟨u, hu, hc⟩ := Option.bind_eq_some_iff.1 hw
    have hux : u.name = x := by simpa using List.find?_some hu
    have hd' : q.Declares f x .global u := .global (List.mem_of_find?_eq_some hu) hux
    rw [hq.declares_inj (i := 0) (j := 0) (.global hv hn) hd' rfl]
    unfold cleared at hc
    split at hc
    · next ht =>
      cases hc
      rw [ht]
      exact .int
    · next ht =>
      cases hc
      rw [ht]
      exact .int
    · cases hc
  | parameter _ => cases hw
  | localVar _ => cases hw

end

section

variable {q : Program} {f : Function} {α β : Type} {P P' : α → Prop} {R : β → Prop} {m : Store}

theorem Safe.bind {x : Run α} {k : α → Run β} (h : Safe q f P (x.run m))
    (hk : ∀ y m', P y → WellTyped q f m'.cells → Safe q f R ((k y).run m')) :
    Safe q f R ((x >>= k).run m) := by
  rw [StateT.run_bind]
  cases hx : x.run m with
  | ok r =>
    rw [hx] at h
    exact hk r.1 r.2 h.1 h.2
  | error e =>
    rw [hx] at h
    exact h

theorem Safe.pure {x : α} (hx : P x) (hm : WellTyped q f m.cells) :
    Safe q f P ((pure x : Run α).run m) :=
  ⟨hx, hm⟩

theorem Safe.outOfFuel : Safe q f P ((throw .outOfFuel : Run α).run m) :=
  Stop.noConfusion

theorem Safe.get {k : Store → Run α} (h : Safe q f P ((k m).run m)) :
    Safe q f P ((get >>= k).run m) :=
  h

theorem Safe.modify {change : Store → Store} {k : PUnit → Run α}
    (h : Safe q f P ((k ⟨⟩).run (change m))) : Safe q f P ((modify change >>= k).run m) :=
  h

theorem Safe.needed {v : Option Value} {P : Value → Prop} (hv : ∀ x, v = some x → P x)
    (hm : WellTyped q f m.cells) : Safe q f P ((needed v).run m) := by
  cases v with
  | none => exact Stop.noConfusion
  | some x => exact ⟨hv x rfl, hm⟩

/-- A value that is used has the type of its expression. -/
theorem Safe.use {x : Run (Option Value)} {k : Value → Run β} {ty : Ty}
    (h : Safe q f (fun v => ∀ y, v = some y → Of ty y) (x.run m))
    (hk : ∀ y m', Of ty y → WellTyped q f m'.cells → Safe q f R ((k y).run m')) :
    Safe q f R ((x >>= fun v => Semantics.needed v >>= k).run m) :=
  h.bind fun _ _ hv hm => (needed hv hm).bind hk

theorem Safe.integer {x : Run (Option Value)} {k : Int64 → Run β}
    (h : Safe q f (fun v => ∀ y, v = some y → Of .int y) (x.run m))
    (hk : ∀ y m', WellTyped q f m'.cells → Safe q f R ((k y).run m')) :
    Safe q f R ((x >>= fun v => Semantics.integer v >>= k).run m) := by
  refine h.bind fun v m' hv hm => ?_
  rw [Semantics.integer, bind_assoc]
  refine (needed hv hm).bind fun y m' hy hm => ?_
  cases hy
  exact hk _ m' hm

theorem Safe.combine {order : String → Int64} {op : BinaryOp} {ty : Ty} {x y : Value}
    (hx : Of ty x) (hy : Of ty y) (hop : op.isComparison = true ∨ ty = .int)
    (hm : WellTyped q f m.cells) : Safe q f (Of .int) ((combine order op x y).run m) := by
  have hints : ∀ {i j : Int64} {v : Value}, ofInts i j op = some v → Of .int v := by
    intro i j v h
    cases op
    case div | mod =>
      simp only [ofInts] at h
      split at h
      · cases h
      · cases h
        exact .int
    all_goals
      cases h
      exact .int
  cases hx with
  | int =>
    cases hy
    exact needed (fun _ => hints) hm
  | string =>
    cases hy
    have hop : op.isComparison = true := hop.resolve_right Ty.noConfusion
    rw [Semantics.combine, if_pos hop]
    refine needed (fun v hv => ?_) hm
    unfold ofStrings at hv
    split at hv
    · cases hv
      exact .int
    · cases hv
      exact .int
    · exact hints hv

end

end Semantics

end Bpl
