import Bpl.Proofs.Machine.Library
import Bpl.Proofs.Semantics
import Bpl.Proofs.Typing.Linked

namespace Bpl

open Machine

variable {a : Assembly}

/-- Strings are ordered by the places where their contents are stored. -/
def Machine.Host.order (H : Host a) (s : String) : Int64 :=
  match a.strings.find? (·.2 == s) with
  | some m => H.dataAddress (.numbered m.1)
  | none => 0

namespace Simulation

/-- `Encodes H v w`: the word `w` stands for the value `v`. -/
inductive Encodes (H : Host a) : Value → Int64 → Prop
  | int {v : Int64} : Encodes H (.int v) v
  | string {n : Nat} {s : String} :
      (n, s) ∈ a.strings → Encodes H (.string s) (H.dataAddress (.numbered n))

theorem Encodes.eq {H : Host a} {v w : Int64} (h : Encodes H (.int v) w) : w = v := by
  cases h
  rfl

/-- `Places H p f b c z`: a call of `f` with the frame pointer `b` finds the cell `c` at `z`. -/
inductive Places (H : Host a) (p : Program) (f : Function) (b : Int) : Cell → Int → Prop
  | global {x : String} {i : Nat} {v : Variable} :
      v ∈ p.globals → v.name = x → 8 * i + 8 ≤ v.ty.size →
        Places H p f b (.global x i) ((H.dataAddress (.global x)).toInt + 8 * i)
  | parameter {k : Nat} :
      k < f.params.length →
        Places H p f b (.parameter k 0) (b + Frame.paramOffset f.params.length k)
  | localVar {k i : Nat} {v : Variable} {o : Int} :
      f.locals[k]? = some v → (Frame.localOffsets 0 f.locals)[k]? = some o →
        8 * i + 8 ≤ v.ty.size → Places H p f b (.localVar k i) (b + o + 8 * i)

/-- The words of the locals and parameters of a call. -/
def Owns (f : Function) (b w : Int) : Prop :=
  b - Variable.totalSize f.locals ≤ w ∧ w < b ∨ b + 16 ≤ w ∧ w < b + 16 + 8 * f.params.length

/-- A call of `f` with the frame pointer `b` has its frame on the stack, and the stack pointer
below. -/
structure Stands (H : Host a) (f : Function) (b : Int) (s : State) : Prop where
  rbp : (s.regs .rbp).toInt = b
  below : s.sp ≤ b - Variable.totalSize f.locals
  room : H.limit ≤ s.sp
  sp_aligned : s.sp % 8 = 0
  base_aligned : b % 8 = 0
  within : b + 16 + 8 * f.params.length ≤ H.top + 8

/-- The memory holds what the variables of a call do. -/
structure Holds (H : Host a) (p : Program) (f : Function) (b : Int) (m : Store) (s : State) :
    Prop where
  input : s.input = m.input
  output : s.output = m.output
  cells : ∀ c v z, m.cells c = some v → Places H p f b c z → Encodes H v (s.mem z)

section

variable {vs : List Variable} {used k l : Nat} {v w : Variable} {o o' : Int}

theorem localOffsets_bounds (hv : vs[k]? = some v)
    (ho : (Frame.localOffsets used vs)[k]? = some o) :
    -((used + Variable.totalSize vs : Nat) : Int) ≤ o ∧ o + v.ty.size ≤ -used := by
  induction vs generalizing used k with
  | nil => cases hv
  | cons u us ih =>
    have ht : Variable.totalSize (u :: us) = u.ty.size + Variable.totalSize us := rfl
    cases k with
    | zero =>
      cases hv
      cases ho
      omega
    | succ k =>
      have := ih hv ho
      omega

/-- A local lies below all those that are declared before it. -/
theorem localOffsets_apart (hv : vs[k]? = some v)
    (ho : (Frame.localOffsets used vs)[k]? = some o) (hw : vs[l]? = some w)
    (ho' : (Frame.localOffsets used vs)[l]? = some o') (hkl : k < l) : o' + w.ty.size ≤ o := by
  induction vs generalizing used k l with
  | nil => cases hv
  | cons u us ih =>
    cases l with
    | zero => omega
    | succ l =>
      cases k with
      | zero =>
        cases ho
        have hw : us[l]? = some w := hw
        have ho' : (Frame.localOffsets (used + u.ty.size) us)[l]? = some o' := ho'
        have := (localOffsets_bounds hw ho').2
        omega
      | succ k => exact ih hv ho hw ho' (by omega)

theorem localOffsets_aligned (hs : ∀ v ∈ vs, v.ty.size % 8 = 0) (hu : used % 8 = 0)
    (ho : (Frame.localOffsets used vs)[k]? = some o) : o % 8 = 0 := by
  induction vs generalizing used k with
  | nil => cases ho
  | cons u us ih =>
    obtain ⟨hu', hus⟩ := List.forall_mem_cons.1 hs
    cases k with
    | zero =>
      cases ho
      omega
    | succ k => exact ih hus (by omega) ho

theorem totalSize_aligned (hs : ∀ v ∈ vs, v.ty.size % 8 = 0) : Variable.totalSize vs % 8 = 0 := by
  induction vs with
  | nil => rfl
  | cons u us ih =>
    have ht : Variable.totalSize (u :: us) = u.ty.size + Variable.totalSize us := rfl
    obtain ⟨hu, hus⟩ := List.forall_mem_cons.1 hs
    have := ih hus
    omega

theorem size_aligned (h : v.Valid) : v.ty.size % 8 = 0 := by
  rw [Typing.size_eq_bytes h]
  cases v.ty <;> simp [Ty.bytes, Ty.wordSize]

end

section

variable {H : Host a} {p : Program} {f : Function} {b : Int} {c c' : Cell} {z z' : Int}
  {m : Store} {s t : State} {v : Value} {w : Int64}

theorem Places.functional (h : Places H p f b c z) (h' : Places H p f b c z') : z = z' := by
  cases h with
  | global => cases h' with | global => rfl
  | parameter => cases h' with | parameter => rfl
  | localVar _ ho =>
    cases h' with
    | localVar _ ho' =>
      cases ho.symm.trans ho'
      rfl

theorem mem_globals (hm : p.Makes a) {v : Variable} (hv : v ∈ p.globals) :
    (v.name, v.ty.size) ∈ a.globals := by
  rw [hm.globals]
  exact List.mem_map_of_mem hv

theorem Places.isData (hm : p.Makes a) {x : String} {i : Nat}
    (h : Places H p f b (.global x i) z) : H.isData z = true := by
  cases h with
  | global hv hn hi =>
    subst hn
    rw [Host.isData, List.any_eq_true]
    refine ⟨_, mem_globals hm hv, ?_⟩
    simp only [decide_eq_true_eq]
    omega

theorem Places.parameter_bounds {k i : Nat} (h : Places H p f b (.parameter k i) z) :
    b + 16 ≤ z ∧ z < b + 16 + 8 * f.params.length := by
  cases h with
  | parameter hk =>
    simp only [Frame.paramOffset, Ty.wordSize]
    omega

theorem Places.local_bounds {k i : Nat} (h : Places H p f b (.localVar k i) z) :
    b - Variable.totalSize f.locals ≤ z ∧ z < b := by
  cases h with
  | localVar hv ho hi =>
    have := localOffsets_bounds hv ho
    omega

theorem Places.isData_or_owns (hm : p.Makes a) (h : Places H p f b c z) :
    H.isData z = true ∨ Owns f b z := by
  cases c with
  | global x i => exact .inl (h.isData hm)
  | parameter k i => exact .inr (.inr h.parameter_bounds)
  | localVar k i => exact .inr (.inl h.local_bounds)

theorem Places.lt (hm : p.Makes a) (hs : Stands H f b s) (h : Places H p f b c z) :
    z < 2 ^ 63 := by
  have h₁ := H.top_lt
  have h₂ := hs.within
  cases c with
  | global x i =>
    cases h with
    | global hv hn hi =>
      subst hn
      have := H.global_fits _ (mem_globals hm hv)
      dsimp only at this
      omega
  | parameter k i =>
    have := h.parameter_bounds
    omega
  | localVar k i =>
    have := h.local_bounds
    omega

theorem Owns.isData_eq_false (hs : Stands H f b s) (h : Owns f b z) : H.isData z = false := by
  have h₁ := hs.below
  have h₂ := hs.room
  have h₃ := hs.within
  rcases h with h | h <;> exact Host.isData_eq_false (by omega) (by omega)

theorem Places.global_injective (hm : p.Makes a) {x y : String} {i j : Nat}
    (h : Places H p f b (.global x i) z) (h' : Places H p f b (.global y j) z) :
    Cell.global x i = .global y j := by
  cases h with
  | @global _ _ v hv hn hi =>
    generalize hz : (H.dataAddress (.global x)).toInt + 8 * (i : Int) = z at h'
    cases h' with
    | @global _ _ w hw hn' hj =>
      by_cases hxy : x = y
      · subst hxy
        have : i = j := by omega
        rw [this]
      · subst hn hn'
        have := H.global_apart _ (mem_globals hm hv) _ (mem_globals hm hw) hxy
        dsimp only at this
        omega

theorem Places.parameter_injective {k l i j : Nat} (h : Places H p f b (.parameter k i) z)
    (h' : Places H p f b (.parameter l j) z) : Cell.parameter k i = .parameter l j := by
  cases h with
  | parameter hk =>
    generalize hz : b + Frame.paramOffset f.params.length k = z at h'
    cases h' with
    | parameter hl =>
      simp only [Frame.paramOffset, Ty.wordSize] at hz
      have : k = l := by omega
      rw [this]

theorem Places.localVar_injective {k l i j : Nat} (h : Places H p f b (.localVar k i) z)
    (h' : Places H p f b (.localVar l j) z) : Cell.localVar k i = .localVar l j := by
  cases h with
  | @localVar _ _ v o hv ho hi =>
    generalize hz : b + o + 8 * (i : Int) = z at h'
    cases h' with
    | @localVar _ _ w o' hw ho' hj =>
      rcases Nat.lt_trichotomy k l with hkl | hkl | hkl
      · have := localOffsets_apart hv ho hw ho' hkl
        omega
      · subst hkl
        cases ho.symm.trans ho'
        have : i = j := by omega
        rw [this]
      · have := localOffsets_apart hw ho' hv ho hkl
        omega

/-- Different words of variables have different places. -/
theorem Places.injective (hm : p.Makes a) (hs : Stands H f b s) (h : Places H p f b c z)
    (h' : Places H p f b c' z) : c = c' := by
  -- words of different kinds lie apart: globals among the data, parameters above the frame
  -- pointer and locals below it
  have hdata : ∀ {w}, Owns f b w → H.isData w ≠ true := by
    intro w hw
    rw [hw.isData_eq_false hs]
    nofun
  cases c with
  | global x i =>
    cases c' with
    | global y j => exact h.global_injective hm h'
    | parameter l j => exact absurd (h.isData hm) (hdata (.inr h'.parameter_bounds))
    | localVar l j => exact absurd (h.isData hm) (hdata (.inl h'.local_bounds))
  | parameter k i =>
    cases c' with
    | global y j => exact absurd (h'.isData hm) (hdata (.inr h.parameter_bounds))
    | parameter l j => exact h.parameter_injective h'
    | localVar l j =>
      have := h.parameter_bounds
      have := h'.local_bounds
      omega
  | localVar k i =>
    cases c' with
    | global y j => exact absurd (h'.isData hm) (hdata (.inl h.local_bounds))
    | parameter l j =>
      have := h'.parameter_bounds
      have := h.local_bounds
      omega
    | localVar l j => exact h.localVar_injective h'

theorem Places.aligned (hl : p.Linked) (hm : p.Makes a) (hf : f ∈ p.functions)
    (hb : b % 8 = 0) (h : Places H p f b c z) : z % 8 = 0 := by
  cases h with
  | global hv hn =>
    subst hn
    have := H.global_aligned _ (mem_globals hm hv)
    dsimp only at this
    omega
  | parameter _ =>
    simp only [Frame.paramOffset, Ty.wordSize]
    omega
  | localVar _ ho _ =>
    have hs : ∀ v ∈ f.locals, v.ty.size % 8 = 0 := fun v hv =>
      size_aligned (hl.own f hf v (List.mem_append_right _ hv))
    have := localOffsets_aligned hs rfl ho
    omega

theorem Holds.congr (h : Holds H p f b m s) (hi : t.input = s.input) (ho : t.output = s.output)
    (hc : ∀ c z, Places H p f b c z → t.mem z = s.mem z) : Holds H p f b m t where
  input := hi.trans h.input
  output := ho.trans h.output
  cells := by
    intro c v z hv hz
    rw [hc c z hz]
    exact h.cells c v z hv hz

/-- An assignment changes the word of its variable only. -/
theorem Holds.assign (hm : p.Makes a) (hs : Stands H f b s) (h : Holds H p f b m s)
    (hc : Places H p f b c z) (hv : Encodes H v w) :
    Holds H p f b { m with cells := Function.update m.cells c (some v) } (s.put z w) where
  input := h.input
  output := h.output
  cells := by
    intro c' v' z' hv' hz'
    have hv' : Function.update m.cells c (some v) c' = some v' := hv'
    rw [State.put_mem]
    by_cases he : c' = c
    · subst he
      rw [Function.update_self] at hv'
      cases hv'
      rwa [if_pos (hz'.functional hc)]
    · rw [Function.update_of_ne he] at hv'
      rw [if_neg]
      · exact h.cells c' v' z' hv' hz'
      · rintro rfl
        exact he (hz'.injective hm hs hc)

/-- A variable that is used has at least one word. -/
theorem word_le_size {x : Variable} (h : x.Valid) (hf : x.ty.isFunction = false) :
    8 ≤ x.ty.size := by
  rw [Typing.size_eq_bytes h]
  cases ht : x.ty with
  | void => exact absurd ht h.notVoid
  | function ps r =>
    rw [ht] at hf
    cases hf
  | array element length =>
    have hne := h.notEmpty element length ht
    have hpos : length.toNat ≠ 0 := by
      intro h0
      exact hne (UInt64.toNat_inj.1 h0)
    simp only [Ty.bytes, Ty.wordSize]
    omega
  | int => simp [Ty.bytes, Ty.wordSize]
  | string => simp [Ty.bytes, Ty.wordSize]
  | pointer _ => simp [Ty.bytes, Ty.wordSize]

theorem valid_of_declares (hl : p.Linked) (hf : f ∈ p.functions) {x : String} {slot : Slot}
    {u : Variable} (hd : p.Declares f x slot u) : u.Valid := by
  cases hd with
  | global hu _ => exact hl.globals u hu
  | parameter hu => exact hl.own f hf u (List.mem_append_left _ (List.mem_of_getElem? hu))
  | localVar hu => exact hl.own f hf u (List.mem_append_right _ (List.mem_of_getElem? hu))

/-- An offset into the frame of a call is not too far from its frame pointer. -/
theorem Stands.toInt_offset (hs : Stands H f b s) {o : Int}
    (hlo : -(Variable.totalSize f.locals : Int) ≤ o) (hhi : o ≤ 8 + 8 * f.params.length) :
    (s.regs .rbp + .ofInt o).toInt = b + o := by
  have h₁ := hs.below
  have h₂ := hs.room
  have h₃ := hs.within
  have h₄ := H.limit_nonneg
  have h₅ := H.top_lt
  have ho : (Int64.ofInt o).toInt = o := Int64.toInt_ofInt_of_le (by omega) (by omega)
  rw [Int64.toInt_add_of_fits, ho, hs.rbp]
  all_goals
    rw [ho, hs.rbp]
    omega

/-- The code finds a variable where its words are. -/
theorem places_of_storage (hl : p.Linked) (hf : f ∈ p.functions) (hs : Stands H f b s)
    {x : String} {slot : Slot} {u : Variable} {place : Asm.Address} {i : Nat}
    (hd : p.Declares f x slot u) (hp : Lowering.storage? (Frame.layout f) x slot = some place)
    (hi : 8 * i + 8 ≤ u.ty.size) :
    Places H p f b (slot.cell x i) ((s.locate H place).toInt + 8 * i) := by
  have hu := valid_of_declares hl hf hd
  cases hd with
  | global hu' hn =>
    cases hp
    exact .global hu' hn hi
  | @parameter k _ hk =>
    have hlt := (List.getElem?_eq_some_iff.1 hk).1
    have hparam := hl.params f hf u (List.mem_of_getElem? hk)
    -- no parameter is an array, so that each is one word
    have hi0 : i = 0 := by
      rw [Typing.size_eq_bytes hu] at hi
      cases ht : u.ty with
      | array _ _ =>
        rw [ht] at hparam
        cases hparam
      | _ =>
        rw [ht] at hi
        simp only [Ty.bytes, Ty.wordSize] at hi
        omega
    subst hi0
    have ho : (Frame.layout f).params[k]? = some (Frame.paramOffset f.params.length k) := by
      simp [Frame.layout, hlt]
    rw [Lowering.storage?, ho] at hp
    cases hp
    have hz := hs.toInt_offset (o := Frame.paramOffset f.params.length k)
      (by simp only [Frame.paramOffset, Ty.wordSize]; omega)
      (by simp only [Frame.paramOffset, Ty.wordSize]; omega)
    rw [State.locate, hz]
    simpa [Slot.cell] using Places.parameter hlt
  | @localVar k _ hk =>
    have hlt := (List.getElem?_eq_some_iff.1 hk).1
    obtain ⟨o, ho⟩ : ∃ o, (Frame.localOffsets 0 f.locals)[k]? = some o :=
      ⟨_, List.getElem?_eq_getElem (by rwa [Frame.length_localOffsets])⟩
    have ho' : (Frame.layout f).locals[k]? = some o := ho
    rw [Lowering.storage?, ho'] at hp
    cases hp
    have hb := localOffsets_bounds hk ho
    rw [State.locate, hs.toInt_offset (by omega) (by omega)]
    exact .localVar hk ho hi

end

end Simulation

end Bpl
