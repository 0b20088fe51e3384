import Bpl.Proofs.Lowering.Sizes

namespace Bpl

open Asm Lowering

variable {q : Program} {f : Function} {x y : String} {slot slot' : Slot} {u v : Variable}
  {place : Address} {o : Int}

theorem Frame.getElem?_params {k : Nat} (h : (Frame.layout f).params[k]? = some o) :
    o = paramOffset f.params.length k := by
  obtain ⟨k', hk, rfl⟩ := Option.map_eq_some_iff.1 ((List.getElem?_map ..).symm.trans h)
  rw [(List.getElem?_eq_some_iff.1 hk).2.symm, List.getElem_range]

theorem Frame.pos_of_getElem?_params {k : Nat} (h : (Frame.layout f).params[k]? = some o) :
    0 < o := by
  have hlt := (List.getElem?_eq_some_iff.1 h).1
  rw [Frame.layout, List.length_map, List.length_range] at hlt
  rw [Frame.getElem?_params h, paramOffset, Ty.wordSize]
  omega

/-- Different variables are stored in different places. -/
theorem Program.Linked.eq_of_storage (hl : q.Linked) (hq : Typing.Spelled q)
    (hf : f ∈ q.functions) (hu : q.Declares f x slot u) (hv : q.Declares f y slot' v)
    (hx : storage? (Frame.layout f) x slot = some place)
    (hy : storage? (Frame.layout f) y slot' = some place) : u = v := by
  -- globals have labels, locals lie below the frame pointer and parameters above it
  have hneg : ∀ {k : Nat} {o : Int}, (Frame.layout f).locals[k]? = some o → o < 0 :=
    fun ho => (hl.bounds_of_mem_locals hq hf (List.mem_of_getElem? ho)).2
  cases hu with
  | global hu hn =>
    cases hx
    cases hv with
    | global hv hn' =>
      cases hy
      exact hl.declares_unique (f := f) (.global hu hn) (.global hv hn')
    | parameter | localVar =>
      obtain ⟨o, _, ho⟩ := Option.map_eq_some_iff.1 hy
      cases ho
  | @parameter k _ hu =>
    obtain ⟨o, ho, rfl⟩ := Option.map_eq_some_iff.1 hx
    cases hv with
    | global => cases hy
    | @parameter l _ hv =>
      obtain ⟨o', ho', he⟩ := Option.map_eq_some_iff.1 hy
      cases he
      have hk := (Frame.getElem?_params ho).symm.trans (Frame.getElem?_params ho')
      simp only [Frame.paramOffset, Ty.wordSize] at hk
      obtain rfl : k = l := by omega
      exact Option.some.inj (hu.symm.trans hv)
    | localVar hv =>
      obtain ⟨o', ho', he⟩ := Option.map_eq_some_iff.1 hy
      cases he
      have := Frame.pos_of_getElem?_params ho
      have := hneg ho'
      omega
  | @localVar k _ hu =>
    obtain ⟨o, ho, rfl⟩ := Option.map_eq_some_iff.1 hx
    cases hv with
    | global => cases hy
    | parameter hv =>
      obtain ⟨o', ho', he⟩ := Option.map_eq_some_iff.1 hy
      cases he
      have := Frame.pos_of_getElem?_params ho'
      have := hneg ho
      omega
    | @localVar l _ hv =>
      obtain ⟨o', ho', he⟩ := Option.map_eq_some_iff.1 hy
      cases he
      have hwide : ∀ v ∈ f.locals, 8 ≤ v.ty.size := fun v hv =>
        Simulation.word_le_size (hl.valid_of_mem_locals hf v hv)
          (hq.isFunction_own hf v (List.mem_append_right _ hv))
      have hu' := hwide u (List.mem_of_getElem? hu)
      have hv' := hwide v (List.mem_of_getElem? hv)
      rcases Nat.lt_trichotomy k l with hkl | rfl | hkl
      · have := Simulation.localOffsets_apart hu ho hv ho' hkl
        omega
      · exact Option.some.inj (hu.symm.trans hv)
      · have := Simulation.localOffsets_apart hv ho' hu ho hkl
        omega

/-- The storage of a declared variable is the place of a variable. -/
theorem isStorage_of_storage? {frame : Frame} (h : storage? frame x slot = some place) :
    place.isStorage = true := by
  cases slot with
  | global =>
    cases h
    rfl
  | parameter i | localVar i =>
    obtain ⟨o, _, rfl⟩ := Option.map_eq_some_iff.1 h
    rfl

/-- An instruction that mentions the storage of an array takes its address. -/
theorem Program.Linked.eq_lea_of_issued (hl : q.Linked) (hq : Typing.Spelled q)
    (hf : f ∈ q.functions) {i : Instr}
    (hi : Issued (Frame.layout f) (f.body.exprs.flatMap Expr.nodes) i)
    (hv : q.Declares f x slot v) (harray : v.ty.isArray = true)
    (hp : storage? (Frame.layout f) x slot = some place) (h : place ∈ i.addresses) :
    i = .lea place .rax := by
  cases hi with
  | fixed hfixed =>
    rw [isFixed_eq_false h (isStorage_of_storage? hp)] at hfixed
    cases hfixed
  | @value n y slot' ty place' hx hty hn hp' =>
    obtain rfl : place = place' := List.mem_singleton.1 h
    obtain ⟨e, he, hx⟩ := List.mem_flatMap.1 hx
    obtain ⟨u, hu, huty, _⟩ := hl.nodes f hf e he _ hx
    rw [hl.eq_of_storage hq hf hv hu hp hp', ← Option.some.inj (hty.symm.trans huty), hn] at harray
    cases harray
  | address _ hp' =>
    obtain rfl := List.mem_singleton.1 h
    rfl
  | length | size => cases h

/-- Arrays never flow as words. In what is analyzed with success, an expression of an array type is
a variable that is indexed or stands as a statement, an array that is passed is noted as a pointer
to its elements and passed to a parameter of that type, and code mentions the storage of an array
only to take its address. -/
theorem arrays_confined {source : String} (h : (analyze source).outcome = .ok q) :
    ∃ a, (compile source).outcome = .ok a ∧
      List.Forall₂ (fun f c => q.Confines f ∧ EmitsFunction a f c ∧
        ∀ x slot v place, q.Declares f x slot v → v.ty.isArray = true →
          storage? (Frame.layout f) x slot = some place →
            ∀ i, .instr i ∈ c → place ∈ i.addresses → i = .lea place .rax)
        q.functions a.functions := by
  obtain ⟨p, hp, hd⟩ := exists_derives_of_analyze h
  obtain ⟨a, hcompile, ha⟩ := exists_compile_of_analyze h
  have hl := hd.linked hp
  have hq := hd.spelled hp
  have hmem := (List.forall₂_and_left _ _).2 ⟨fun f hf => hf, emits_of_lower ha⟩
  refine ⟨a, hcompile, hmem.imp fun f c hfc => ⟨hd.confines hp hfc.1, hfc.2, ?_⟩⟩
  intro x slot v place hv harray hplace i hi hmention
  exact hl.eq_lea_of_issued hq hfc.1 (hfc.2.issued i hi) hv harray hplace hmention

/-- Names arrays in all the ways that are allowed. -/
def namesArrays : String :=
  "int g[3]; int first(int* p) \x7b return p[0]; \x7d " ++
    "void main(void) \x7b int a[2]; a; a[1] = first(g) + first(a); \x7d"

theorem namesArrays_confined : ∃ q a, (analyze namesArrays).outcome = .ok q ∧
    (compile namesArrays).outcome = .ok a ∧ ∃ f ∈ q.functions, f.isMain = true ∧ q.Confines f ∧
      (∃ i ∈ f.body.items, ∃ e, i.expr? = some e ∧ ∃ r ∈ e.nodes, r.IsVar ∧
        (i = .stands r ∨ ∃ n j, .index n r j ∈ e.nodes)) ∧
      ∃ v ∈ f.locals, v.ty.isArray = true ∧ ∃ place, storage? (Frame.layout f) v.name
        (.localVar 0) = some place ∧ ∃ c ∈ a.functions, ∀ i, .instr i ∈ c →
          place ∈ i.addresses → i = .lea place .rax := by
  have hok : ((analyze namesArrays).outcome.toOption.any fun q => q.functions.any fun f =>
      f.isMain && f.locals[0]?.any (·.ty.isArray) && (Frame.layout f).locals[0]?.isSome &&
        f.body.exprs.any fun e => e.nodes.any Expr.hasArrayType) = true := by
    decide +kernel
  obtain ⟨q, hq, hfind⟩ := Except.any_toOption_iff.1 hok
  simp only [List.any_eq_true, Bool.and_eq_true, Option.any_eq_true, Option.isSome_iff_exists]
    at hfind
  obtain ⟨f, hf, ⟨⟨hmain, v, hv, harray⟩, o, ho⟩, e, he, r, hr, hty⟩ := hfind
  obtain ⟨a, ha, hall⟩ := arrays_confined hq
  obtain ⟨c, hc, hconfines, _, hcode⟩ := hall.exists_of_mem_left hf
  obtain ⟨before, i, after, hi, hie⟩ := Block.exists_item he
  have himem : i ∈ f.body.items := hi ▸ List.mem_append_right _ List.mem_cons_self
  have hplace : storage? (Frame.layout f) v.name (.localVar 0) = some (.offset o .rbp) :=
    Option.map_eq_some_iff.2 ⟨o, ho, rfl⟩
  exact ⟨q, a, hq, ha, f, hf, hmain, hconfines,
    ⟨i, himem, e, hie, r, hr, hconfines.nodes i himem e hie r hr hty⟩,
    v, List.mem_of_getElem? hv, harray, _, hplace, c, hc,
    hcode _ _ v _ (.localVar hv) harray hplace⟩

end Bpl
