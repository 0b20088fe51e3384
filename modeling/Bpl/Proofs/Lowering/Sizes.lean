import Bpl.Proofs.Lowering.Issued
import Bpl.Proofs.Simulation.Indexing
import Bpl.Proofs.Typing.Arrays
import Bpl.Proofs.Typing.Sizes

namespace Bpl

open Asm Lowering

namespace Lowering

/-- A place that is stored at an offset from the frame pointer is a parameter or a local. -/
theorem mem_of_storage? {frame : Frame} {x : String} {slot : Slot} {o : Int}
    (h : storage? frame x slot = some (.offset o .rbp)) : o ∈ frame.params ∨ o ∈ frame.locals := by
  cases slot with
  | global => cases h
  | parameter i =>
    obtain ⟨o', ho, he⟩ := Option.map_eq_some_iff.1 h
    cases he
    exact .inl (List.mem_of_getElem? ho)
  | localVar i =>
    obtain ⟨o', ho, he⟩ := Option.map_eq_some_iff.1 h
    cases he
    exact .inr (List.mem_of_getElem? ho)

theorem isFixed_eq_false {i : Instr} {place : Address} (h : place ∈ i.addresses)
    (hp : place.isStorage = true) : i.isFixed = false := by
  unfold Instr.isFixed
  split
  · rfl
  · cases h
  · exact List.all_eq_false.2 ⟨place, h, by simp [hp]⟩

end Lowering

/-- The numbers in the code `c` of a function that come from the sizes of its variables are exact,
and fit the fields of instructions. -/
structure Function.FitsFields (f : Function) (c : Code) : Prop where
  sizes : ∀ v ∈ f.locals, v.ty.size? = some v.ty.bytes ∧ v.ty.bytes ≤ 2 ^ 31 - 1
  offsets : ∀ o ∈ (Frame.layout f).locals, -2 ^ 31 ≤ o ∧ o < 0
  displacements : ∀ i, .instr i ∈ c → ∀ o, .offset o .rbp ∈ i.addresses →
    o ∈ (Frame.layout f).params ∨ o ∈ (Frame.layout f).locals
  immediates : ∀ k, .instr (.op .sub (.imm k) .rsp) ∈ c → 0 < k.toInt ∧ k.toInt < 2 ^ 31 ∧
    (k.toInt = 8 ∨ k.toInt = (((f.locals.map (·.ty.bytes)).sum : Nat) : Int))
  lengths : ∀ k, .instr (loadImm k .rcx) ∈ c → 0 < k.toInt ∧ 8 * k.toInt < 2 ^ 31 ∧
    ∃ n base i element length, .index n base i ∈ f.body.exprs.flatMap Expr.nodes ∧
      base.ty? = some (.array element length) ∧ k.toInt = length.toNat

variable {a : Assembly} {f : Function} {c : Code}

theorem Variable.Valid.size?_eq {v : Variable} (h : v.Valid) : v.ty.size? = some v.ty.bytes := by
  have hfits := h.fits
  cases hty : v.ty with
  | array element length =>
    rw [hty] at hfits
    exact if_pos (hfits.trans (by decide))
  | _ => rfl

namespace Program.Linked

variable {q : Program}

theorem valid_of_mem_locals (hl : q.Linked) (hf : f ∈ q.functions) :
    ∀ v ∈ f.locals, v.Valid :=
  fun v hv => hl.own f hf v (List.mem_append_right _ hv)

/-- The offset of a local is negative, and within the frame. -/
theorem bounds_of_mem_locals (hl : q.Linked) (hq : Typing.Spelled q) (hf : f ∈ q.functions)
    {o : Int} (ho : o ∈ (Frame.layout f).locals) : -2 ^ 31 ≤ o ∧ o < 0 := by
  obtain ⟨k, hk⟩ := List.mem_iff_getElem?.1 ho
  have hlt := (List.getElem?_eq_some_iff.1 hk).1
  have hlen : k < f.locals.length := (Frame.length_localOffsets 0 f.locals) ▸ hlt
  have hv := List.getElem?_eq_getElem hlen
  have hvalid := hl.valid_of_mem_locals hf _ (List.mem_of_getElem? hv)
  have hbounds := Simulation.localOffsets_bounds hv hk
  have hmem := List.mem_append_right f.params (List.mem_of_getElem? hv)
  have hword := Simulation.word_le_size hvalid (hq.isFunction_own hf _ hmem)
  have hfits := hl.fits f hf
  rw [Ty.maxObjectSize] at hfits
  constructor <;> omega

end Program.Linked

theorem sub_of_issued {frame : Frame} {xs : List Expr} {k : Int64}
    (h : Issued frame xs (.op .sub (.imm k) .rsp)) :
    k = 8 ∨ frame.size ≠ 0 ∧ k = Int64.ofNat frame.size := by
  cases h with
  | fixed h => exact .inl (beq_iff_eq.1 h)
  | size h => exact .inr ⟨h, rfl⟩

theorem length_of_issued {frame : Frame} {xs : List Expr} {k : Int64}
    (h : Issued frame xs (loadImm k .rcx)) : ∃ n base i element length, .index n base i ∈ xs ∧
      base.ty? = some (.array element length) ∧ k = length.toInt64 := by
  generalize hi : loadImm k .rcx = i at h
  cases h with
  | fixed h =>
    subst hi
    cases h
  | length hx ht =>
    cases hi
    exact ⟨_, _, _, _, _, hx, ht, rfl⟩
  | _ => cases hi

theorem offset_of_issued {frame : Frame} {xs : List Expr} {i : Instr} {o : Int}
    (h : Issued frame xs i) (ho : .offset o .rbp ∈ i.addresses) :
    o ∈ frame.params ∨ o ∈ frame.locals := by
  cases h with
  | fixed h =>
    rw [isFixed_eq_false ho rfl] at h
    cases h
  | value _ _ _ hp | address _ hp =>
    obtain rfl := List.mem_singleton.1 ho
    exact mem_of_storage? hp
  | length | size => cases ho

/-- What the check of sizes is for. -/
theorem fitsFields_of_emits {source : String} {q : Program}
    (h : (analyze source).outcome = .ok q) (hf : f ∈ q.functions) (he : EmitsFunction a f c) :
    f.FitsFields c := by
  have hl := linked_of_analyze h
  have hvalid := hl.valid_of_mem_locals hf
  have hsum := Typing.totalSize_eq hvalid
  have hfits := hl.fits f hf
  have hissued := he.issued
  refine ⟨fun v hv => ⟨(hvalid v hv).size?_eq, (hvalid v hv).fits⟩,
    fun o ho => hl.bounds_of_mem_locals (spelled_of_analyze h) hf ho,
    fun i hi o ho => offset_of_issued (hissued i hi) ho, fun k hk => ?_, fun k hk => ?_⟩
  · rw [← hsum]
    rcases sub_of_issued (hissued _ hk) with rfl | ⟨hne, rfl⟩
    · exact ⟨by decide, by decide, .inl rfl⟩
    · have hsize : (Frame.layout f).size = Variable.totalSize f.locals := rfl
      rw [hsize] at hne ⊢
      rw [Ty.toInt_ofNat (hfits.trans (by decide))]
      rw [Ty.maxObjectSize] at hfits
      exact ⟨by omega, by omega, .inr rfl⟩
  · obtain ⟨n, base, i, element, length, hx, hty, rfl⟩ := length_of_issued (hissued _ hk)
    obtain ⟨e, hemem, hxe⟩ := List.mem_flatMap.1 hx
    obtain ⟨m, x, slot, v, rfl, hm, _, hv, _⟩ := exists_var_of_index h hf hemem hxe
    have hvty : v.ty = .array element length := Option.some.inj (hm.symm.trans hty)
    obtain ⟨hpos, hle⟩ := (Typing.validate_array hvty).1 (Typing.validate_eq_ok.2 hv)
    have hmax : length.toNat ≤ Ty.maxSize := by
      rw [Ty.maxSize]
      omega
    rw [Ty.toInt_toInt64 hmax]
    exact ⟨by omega, by omega, n, _, i, element, length, hx, hty, rfl⟩

/-- Sizes are computed exactly. An array is accepted for what its length times eight is, also where
machine words could not hold it, and a function for what the sizes of its locals add up to. In what
is analyzed with success, all numbers of the code that come from sizes are therefore exact and fit:
displacements and the room for locals as signed numbers of 32 bits, and lengths as positive
words. -/
theorem sizes_exact :
    (∀ (v : Variable) (element : Ty) (length : UInt64), v.ty = .array element length →
      (Typing.validate v = .ok () ↔ 1 ≤ length.toNat ∧ 8 * length.toNat ≤ 2 ^ 31 - 1) ∧
        v.ty.size? = (Ty.checkedBytes? length).map (·.toInt.toNat)) ∧
    (∀ (globals scope : Scope) (f : Function) (body : Block) (ls : Typing.Locals),
      Typing.params .empty 0 f.params = .ok scope →
      (Typing.block ⟨globals, f.name, f.result⟩ ⟨scope, []⟩ f.body).outcome = .ok (body, ls) →
        ((Typing.function globals f).outcome =
            .error (.diagnostic (.semantic f.location (.frameTooLarge f.name))) ↔
          2 ^ 31 - 1 < (ls.declared.map (·.ty.bytes)).sum) ∧
        ((Variable.checkedTotal? 0 ls.declared).any (·.toInt ≤ (Ty.maxObjectSize : Int)) = true ↔
          (ls.declared.map (·.ty.bytes)).sum ≤ 2 ^ 31 - 1)) ∧
    ∀ source q, (analyze source).outcome = .ok q → ∃ a, (compile source).outcome = .ok a ∧
      List.Forall₂ (fun f c => EmitsFunction a f c ∧ f.FitsFields c) q.functions a.functions := by
  refine ⟨fun v element length hty => ⟨Typing.validate_array hty, ?_⟩, ?_, ?_⟩
  · rw [hty, Ty.size?_array]
  · intro globals scope f body ls hp hb
    have hv : ∀ v ∈ ls.declared, v.Valid := Typing.valid_of_block hb (by simp)
    rw [Typing.function_outcome hp hb, Variable.any_checkedTotal? (by decide) _ (by decide),
      Typing.totalSize_eq hv]
    have hmax : Ty.maxObjectSize = 2 ^ 31 - 1 := rfl
    constructor
    · split <;> simp <;> omega
    · have hzero : (0 : Int64).toInt = 0 := rfl
      omega
  · intro source q h
    obtain ⟨a, hcompile, ha⟩ := exists_compile_of_analyze h
    have hmem := (List.forall₂_and_left _ _).2 ⟨fun f hf => hf, emits_of_lower ha⟩
    exact ⟨a, hcompile, hmem.imp fun f c hfc => ⟨hfc.2, fitsFields_of_emits h hfc.1 hfc.2⟩⟩

/-- A program whose locals fill the largest frame. -/
def fillsFrame : String :=
  "int g[268435455]; void main(void) \x7b int a[268435454]; int x; x = 1; a[x] = g[x]; \x7d"

/-- `void f(void) { int a[268435455]; int x; }` -/
def overflowsFrame : Function :=
  ⟨"f", .void, [], .mk .first
    [⟨"a", .array .int 268435455, .first⟩, ⟨"x", .int, .first⟩] [], .first, []⟩

theorem fillsFrame_exact :
    Typing.validate ⟨"a", .array .int 2305843009213693952, .first⟩ ≠ .ok () ∧
    (Typing.function .empty overflowsFrame).outcome =
      .error (.diagnostic (.semantic .first (.frameTooLarge "f"))) ∧
    ∃ q a, (analyze fillsFrame).outcome = .ok q ∧ (compile fillsFrame).outcome = .ok a ∧
      ∃ f ∈ q.functions, ∃ c ∈ a.functions, f.FitsFields c ∧
        (Frame.layout f).size = 2147483640 := by
  obtain ⟨harrays, hfunctions, hprograms⟩ := sizes_exact
  refine ⟨?_, ?_, ?_⟩
  · rw [ne_eq, (harrays _ .int 2305843009213693952 rfl).1]
    decide
  · exact (hfunctions .empty .empty overflowsFrame _ _ rfl rfl).1.2 (by decide)
  · have hok : ((analyze fillsFrame).outcome.toOption.any fun q =>
        q.functions.any fun f => (Frame.layout f).size == 2147483640) = true := by
      decide +kernel
    obtain ⟨q, hq, hfind⟩ := Except.any_toOption_iff.1 hok
    simp only [List.any_eq_true, beq_iff_eq] at hfind
    obtain ⟨f, hf, hsize⟩ := hfind
    obtain ⟨a, ha, hall⟩ := hprograms _ q hq
    obtain ⟨c, hc, _, hfits⟩ := hall.exists_of_mem_left hf
    exact ⟨q, a, hq, ha, f, hf, c, hc, hfits, hsize⟩

end Bpl
