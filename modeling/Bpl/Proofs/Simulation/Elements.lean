import Bpl.Proofs.Lowering.Arrays
import Bpl.Proofs.Lowering.Occurs
import Bpl.Proofs.Simulation.Preservation

namespace Bpl

open Asm Machine Lowering

namespace Machine

variable {a : Assembly} {H : Host a} {s : State}

/-- The address `z` is formed in `n` steps. No memory is written but a word of the stack that is
free again. -/
def Forms (H : Host a) (n : Nat) (s : State) (z : Int) : Prop :=
  ∃ t, stateAfter H n s = some t ∧ t.line = s.line + n ∧ (t.regs .rax).toInt = z ∧
    t.regs .rsp = s.regs .rsp ∧ ∀ w, w ≠ s.sp - 8 → t.mem w = s.mem w

/-- The place of a variable is pushed. -/
theorem exists_stateAfter_lea_push {place : Address} {is : List Instr}
    (hc : CodeAt a s.line (code (.lea place .rax :: .push (.reg .rax) :: is)))
    (hroom : H.limit ≤ s.sp - 8) (haligned : s.sp % 8 = 0) :
    ∃ t, stateAfter H 2 s = some t ∧ t.line = s.line + 2 ∧ t.sp = s.sp - 8 ∧
      t.mem t.sp = s.locate H place := by
  have hlimit := H.limit_nonneg
  have h₁ := (codeAt_code_cons.1 hc).2
  set s₁ := (s.set .rax (s.locate H place)).next with hs₁
  have hsp₁ : s₁.sp = s.sp := rfl
  set s₂ := (s₁.pushed (s₁.regs .rax)).next with hs₂
  have hsp₂ : s₂.sp = s₁.sp - 8 := s₁.sp_pushed (s₁.regs .rax) (by omega)
  have hpush : exec H s₁ (.push (.reg .rax)) = some (.next s₂) :=
    exec_push rfl (by omega) (by omega)
  refine ⟨s₂, ?_, rfl, by omega, ?_⟩
  · rw [stateAfter_instr (t := s₁) hc rfl (by omega),
      stateAfter_instr (s := s₁) (t := s₂) h₁ hpush (by omega)]
    rfl
  · change (s₁.pushed (s₁.regs .rax)).mem s₂.sp = _
    rw [s₁.mem_pushed _ _ (by omega), if_pos hsp₂]
    rfl

end Machine

namespace Lowering

variable {a : Assembly} {frame : Frame} {n m : Note} {x : String} {slot : Slot} {ty : Ty} {d : Code}

/-- The address of an element of a variable: behind the index and its check, what the variable is
or holds is taken as the start. -/
theorem EmitsAddress.split_index {i : Expr}
    (h : EmitsAddress a frame (.index n (.var m x slot) i) d)
    (hty : m.ty = some ty) :
    ∃ c check place, EmitsValue a frame i c ∧ Checks a ty check ∧
      storage? frame x slot = some place ∧
        d = c ++ (check ++ code [.push (.reg .rax),
          if ty.isArray then .lea place .rax else load place .rax,
          .pop .rcx, .lea (.element .rax .rcx) .rax]) := by
  cases h with
  | index hi ht hck hb =>
    cases hty.symm.trans ht
    obtain ⟨place, hp, rfl⟩ := emitsValue_var hb hty
    refine ⟨_, _, place, hi, hck, hp, ?_⟩
    simp only [List.append_assoc]
    rfl

theorem EmitsAddress.split_deref (h : EmitsAddress a frame (.unary n .deref (.var m x slot)) d)
    (hty : m.ty = some ty) (hthin : ty.isArray = false) :
    ∃ place, storage? frame x slot = some place ∧ d = code [load place .rax] := by
  cases h with
  | deref hv =>
    obtain ⟨place, hp, rfl⟩ := emitsValue_var hv hty
    rw [hthin]
    exact ⟨place, hp, rfl⟩

end Lowering

namespace Simulation

variable {a : Assembly} {H : Host a} {q : Program} {f g : Function} {b : Int} {s t : State}
  {x : String} {slot : Slot} {v u : Variable} {place param : Address} {element : Ty}
  {length : UInt64} {i k n : Nat} {w : Int64}

/-- A state of a call with room for one word more on the stack, in which `P` holds. -/
structure Ready (H : Host a) (f : Function) (b : Int) (P : State → Prop) (s : State) : Prop where
  stands : Stands H f b s
  room : H.limit ≤ s.sp - 8
  holds : P s

/-- Wherever the variable is indexed in `f`, the last `n` instructions form the address of the
element: from an index in `%rax` that is less than `length`, that of the word so far behind `z`. -/
def Indexes (H : Host a) (f : Function) (x : String) (slot : Slot) (n length : Nat)
    (ready : State → Prop) (z : Int) : Prop :=
  ∀ e ∈ f.body.exprs, ∀ l m j, .index l (.var m x slot) j ∈ e.nodes →
    ∀ k d, CodeAt a k d → EmitsAddress a (Frame.layout f) (.index l (.var m x slot) j) d →
      ∃ c, EmitsValue a (Frame.layout f) j c ∧ c <+: d ∧ d.length = c.length + n ∧
        ∀ s, ready s → s.line = k + c.length → ∀ i < length, (s.regs .rax).toInt = i →
          Forms H n s (z + 8 * i)

/-- Wherever the variable is dereferenced in `f`, one instruction forms the address `z`. -/
def Dereferences (H : Host a) (f : Function) (x : String) (slot : Slot) (ready : State → Prop)
    (z : Int) : Prop :=
  ∀ e ∈ f.body.exprs, ∀ l m, .unary l .deref (.var m x slot) ∈ e.nodes →
    ∀ k d, CodeAt a k d → EmitsAddress a (Frame.layout f) (.unary l .deref (.var m x slot)) d →
      d.length = 1 ∧ ∀ s, ready s → s.line = k → Forms H 1 s z

/-- The frame has a place for what the function declares. -/
theorem exists_storage (hv : q.Declares f x slot v) :
    ∃ place, storage? (Frame.layout f) x slot = some place := by
  cases hv with
  | global => exact ⟨_, rfl⟩
  | @parameter k _ hk =>
    have hlt := (List.getElem?_eq_some_iff.1 hk).1
    have ho : (Frame.layout f).params[k]? = some (Frame.paramOffset f.params.length k) := by
      simp [Frame.layout, hlt]
    exact ⟨_, by rw [storage?, ho]; rfl⟩
  | @localVar k _ hk =>
    have hlt := (List.getElem?_eq_some_iff.1 hk).1
    have ho : k < (Frame.layout f).locals.length := by
      rwa [Frame.layout, Frame.length_localOffsets]
    exact ⟨_, by rw [storage?, List.getElem?_eq_getElem ho]; rfl⟩

/-- The place of a variable depends on the frame pointer of the call alone. -/
theorem Stands.locate_eq (hs : Stands H f b s) (ht : Stands H f b t)
    (hp : storage? (Frame.layout f) x slot = some place) : t.locate H place = s.locate H place :=
  locate_of_storage hp (Int64.toInt_inj.1 (ht.rbp.trans hs.rbp.symm))

/-- A variable is at an aligned place, and none that a push writes to. -/
theorem Stands.locate_word (hl : q.Linked) (hm : q.Makes a) (hf : f ∈ q.functions)
    (hs : Stands H f b s) (hv : q.Declares f x slot v)
    (hp : storage? (Frame.layout f) x slot = some place) (hsize : 8 ≤ v.ty.size) :
    (s.locate H place).toInt % 8 = 0 ∧
      (H.limit ≤ s.sp - 8 → (s.locate H place).toInt ≠ s.sp - 8) := by
  have hplaces := places_of_storage hl hf hs hv hp (i := 0) hsize
  rw [Nat.cast_zero, Int.mul_zero, Int.add_zero] at hplaces
  refine ⟨hplaces.aligned hl hm hf hs.base_aligned, ?_⟩
  intro hroom heq
  have hbelow := hs.below
  obtain ⟨hdata, howns⟩ := hs.free hroom (by omega)
  rcases hplaces.isData_or_owns hm with h | h
  · rw [heq, hdata] at h
    cases h
  · exact howns (heq ▸ h)

/-- The words of an array are those of its cells. -/
theorem Stands.array_words (hl : q.Linked) (hm : q.Makes a) (hf : f ∈ q.functions)
    (hs : Stands H f b s) (hv : q.Declares f x slot v) (hty : v.ty = .array element length)
    (hp : storage? (Frame.layout f) x slot = some place) :
    v.ty.size = 8 * length.toNat ∧ ∀ i < length.toNat,
      Places H q f b (slot.cell x i) ((s.locate H place).toInt + 8 * i) ∧
        (s.locate H place).toInt + 8 * i < 2 ^ 63 := by
  have hsize : v.ty.size = 8 * length.toNat := by
    rw [Typing.size_eq_bytes (valid_of_declares hl hf hv), hty]
    rfl
  refine ⟨hsize, fun i hi => ?_⟩
  have hplaces := places_of_storage hl hf hs hv hp (i := i) (by omega)
  exact ⟨hplaces, hplaces.lt hm hs⟩

/-- A variable that is a part of something is noted with its declared type. -/
theorem note_of_part (hl : q.Linked) (hf : f ∈ q.functions) {e y : Expr}
    (he : e ∈ f.body.exprs) (hy : y ∈ e.nodes) {role : Expr.Role} {m : Note}
    (hx : (role, .var m x slot) ∈ y.parts) (hv : q.Declares f x slot v) : m.ty = some v.ty :=
  hl.ty?_var hf he (Expr.nodes_subset e hy (Expr.mem_nodes_of_part hx)) hv

theorem indexes_array (hl : q.Linked) (hm : q.Makes a) (hf : f ∈ q.functions)
    (hs : Stands H f b s) (hv : q.Declares f x slot v) (hty : v.ty = .array element length)
    (hp : storage? (Frame.layout f) x slot = some place) :
    Indexes H f x slot 7 length.toNat (Ready H f b fun _ => True) (s.locate H place).toInt := by
  intro e he l m j hx k d hd hcode
  have hnote : m.ty = some (.array element length) :=
    hty ▸ note_of_part hl hf he hx List.mem_cons_self hv
  obtain ⟨c, check, place', hc, hck, hp', rfl⟩ := hcode.split_index hnote
  cases hp.symm.trans hp'
  obtain ⟨hsize, hwords⟩ := hs.array_words hl hm hf hv hty hp
  cases hck with
  | other h => cases h
  | @array _ _ trap htrap =>
    have hline := hm.numbered trap _ (codeAt_cons.1 (codeAt_trapCode htrap)).1
    have hguarded : CodeAt a (k + c.length) (code (guardedCode trap length place)) :=
      (codeAt_append.1 hd).2
    refine ⟨c, hc, List.prefix_append _ _, by simp, ?_⟩
    intro t ht hat i hi hrax
    have hmax := v.ty.size_le
    rw [Ty.maxSize] at hmax
    obtain ⟨t', ht', hgoes, hrax', hrsp, hmem'⟩ := exists_stateAfter_element (hat ▸ hguarded) hline
      (by omega) hp ht.room ht.stands.sp_aligned (by omega)
    refine ⟨t', ht', hgoes, ?_, hrsp, hmem'⟩
    have hfits := (hwords i hi).2
    rw [← hs.locate_eq ht.stands hp] at hfits ⊢
    rw [hrax', Int64.toInt_add_eight_mul hrax hfits (by omega)]

theorem indexes_pointer (hl : q.Linked) (hm : q.Makes a) (hf : f ∈ q.functions)
    (hv : q.Declares f x slot v) (hty : v.ty = .pointer element)
    (hp : storage? (Frame.layout f) x slot = some place)
    (hfits : ∀ i < n, w.toInt + 8 * (i : Int) < 2 ^ 63 ∧ 8 * i < 2 ^ 63) :
    Indexes H f x slot 4 n (Ready H f b fun t => t.mem (t.locate H place).toInt = w) w.toInt := by
  intro e he l m j hx k d hd hcode
  have hnote : m.ty = some (.pointer element) :=
    hty ▸ note_of_part hl hf he hx List.mem_cons_self hv
  obtain ⟨c, check, place', hc, hck, hp', rfl⟩ := hcode.split_index hnote
  cases hp.symm.trans hp'
  rw [hck.eq_nil rfl] at hd ⊢
  refine ⟨c, hc, List.prefix_append _ _, by simp, ?_⟩
  intro s hs hat i hi hrax
  have hsize : 8 ≤ v.ty.size :=
    word_le_size (valid_of_declares hl hf hv) (hty ▸ rfl)
  obtain ⟨haligned, hapart⟩ := hs.stands.locate_word hl hm hf hv hp hsize
  have hword : s.mem (s.locate H place).toInt = w := hs.holds
  have hlocate : (s.pushed (s.regs .rax)).next.locate H place = s.locate H place :=
    locate_of_storage hp rfl
  have hload : exec H (s.pushed (s.regs .rax)).next (load place .rax) =
      some (.next ((s.pushed (s.regs .rax)).next.set .rax w).next) := by
    rw [exec_load (by rw [hlocate]; exact haligned), hlocate, State.next_mem,
      s.mem_pushed _ _ hs.stands.nonneg, if_neg (hapart hs.room), hword]
  obtain ⟨t, ht, hgoes, hrax', hrsp, hmem'⟩ := exists_stateAfter_formed
    (hat ▸ (codeAt_append.1 hd).2) hload hs.room hs.stands.sp_aligned
  refine ⟨t, ht, hgoes, ?_, hrsp, hmem'⟩
  rw [hrax', Int64.toInt_add_eight_mul hrax (hfits i hi).1 (by have := (hfits i hi).2; omega)]

theorem dereferences_pointer (hl : q.Linked) (hm : q.Makes a) (hf : f ∈ q.functions)
    (hv : q.Declares f x slot v) (hty : v.ty = .pointer element)
    (hp : storage? (Frame.layout f) x slot = some place) :
    Dereferences H f x slot (Ready H f b fun t => t.mem (t.locate H place).toInt = w) w.toInt := by
  intro e he l m hx k d hd hcode
  have hnote : m.ty = some (.pointer element) :=
    hty ▸ note_of_part hl hf he hx List.mem_cons_self hv
  obtain ⟨place', hp', rfl⟩ := hcode.split_deref hnote rfl
  cases hp.symm.trans hp'
  refine ⟨rfl, ?_⟩
  intro s hs hat
  have hsize : 8 ≤ v.ty.size :=
    word_le_size (valid_of_declares hl hf hv) (hty ▸ rfl)
  obtain ⟨haligned, _⟩ := hs.stands.locate_word hl hm hf hv hp hsize
  have hword : s.mem (s.locate H place).toInt = w := hs.holds
  have hload : exec H s (load place .rax) = some (.next (s.set .rax w).next) := by
    rw [exec_load haligned, hword]
  refine ⟨(s.set .rax w).next, ?_, rfl, rfl, rfl, fun _ _ => rfl⟩
  rw [stateAfter_instr (hat ▸ hd) hload hs.stands.room]
  rfl

/-- Wherever the call stands, the code of its argument `k` comes behind that of the arguments before
it, and pushes the word `w`. -/
def Passes (H : Host a) (f : Function) (n : Note) (callee : String) (args : List Expr) (k : Nat)
    (place : Address) (ready : State → Prop) (w : Int64) : Prop :=
  ∀ j c, CodeAt a j c → EmitsValue a (Frame.layout f) (.call n callee args) c →
    ∃ before after, EmitsArguments a (Frame.layout f) (args.take k) before ∧
      c = before ++ code [.lea place .rax, .push (.reg .rax)] ++ after ∧
        ∀ s, ready s → s.line = j + before.length →
          ∃ t, stateAfter H 2 s = some t ∧ t.line = s.line + 2 ∧ t.sp = s.sp - 8 ∧ t.mem t.sp = w

theorem passes_array (hs : Stands H f b s) {n m : Note} {callee : String} {args : List Expr}
    (hk : args[k]? = some (.decay m x slot))
    (hp : storage? (Frame.layout f) x slot = some place) :
    Passes H f n callee args k place (Ready H f b fun _ => True) (s.locate H place) := by
  intro j c hc hcode
  cases hcode with
  | call hargs =>
    obtain ⟨before, own, after, hbefore, hown, _, rfl⟩ := hargs.split hk
    cases hown with
    | decay hp' =>
      cases hp.symm.trans hp'
      rw [List.append_assoc before] at hc ⊢
      refine ⟨before, _, hbefore, List.append_assoc _ after _, ?_⟩
      intro t ht hat
      have hpush : CodeAt a t.line (code [.lea place .rax, .push (.reg .rax)]) := by
        rw [hat]
        exact (codeAt_append.1 (codeAt_append.1 (codeAt_append.1 hc).1).1).2
      obtain ⟨t', ht', hgoes, hsp, hword⟩ :=
        exists_stateAfter_lea_push hpush ht.room ht.stands.sp_aligned
      exact ⟨t', ht', hgoes, hsp, hword.trans (hs.locate_eq ht.stands hp)⟩

/-- A call of `f` with the frame pointer `b` and all calls of `g` that are passed its array as the
parameter `k` find the same elements, one behind the other from `w` on. -/
structure Shares (H : Host a) (q : Program) (f g : Function) (b : Int) (x : String) (slot : Slot)
    (v : Variable) (length k : Nat) (param : Address) (w : Int64) : Prop where
  cells : ∀ i < length, Places H q f b (slot.cell x i) (w.toInt + 8 * i) ∧ 8 * i + 8 ≤ v.ty.size
  own : ∀ c z, Places H q f b c z → w.toInt ≤ z → z < w.toInt + v.ty.size →
    ∃ i < length, c = slot.cell x i
  apart : ∀ i < length, ∀ j < length, i ≠ j →
    w.toInt + 8 * i + 8 ≤ w.toInt + 8 * j ∨ w.toInt + 8 * j + 8 ≤ w.toInt + 8 * i
  named : Indexes H f x slot 7 length (Ready H f b fun _ => True) w.toInt
  pointed : ∀ b' y, Indexes H g y (.parameter k) 4 length
    (Ready H g b' fun t => t.mem (t.locate H param).toInt = w) w.toInt
  dereferenced : ∀ b' y, Dereferences H g y (.parameter k)
    (Ready H g b' fun t => t.mem (t.locate H param).toInt = w) w.toInt

theorem shares_array (hl : q.Linked) (hm : q.Makes a) (hf : f ∈ q.functions)
    (hg : g ∈ q.functions) (hs : Stands H f b s) (hv : q.Declares f x slot v)
    (hty : v.ty = .array element length) (hp : storage? (Frame.layout f) x slot = some place)
    (hu : g.params[k]? = some u) (huty : u.ty = .pointer element)
    (hparam : storage? (Frame.layout g) u.name (.parameter k) = some param) :
    Shares H q f g b x slot v length.toNat k param (s.locate H place) := by
  obtain ⟨hsize, hwords⟩ := hs.array_words hl hm hf hv hty hp
  have hmax := v.ty.size_le
  rw [Ty.maxSize] at hmax
  refine ⟨fun i hi => ⟨(hwords i hi).1, by omega⟩, ?_, by omega,
    indexes_array hl hm hf hs hv hty hp, ?_, ?_⟩
  · intro c z hz hlo hhi
    have hzero := (hwords 0 (by omega)).1.aligned hl hm hf hs.base_aligned
    have haligned := hz.aligned hl hm hf hs.base_aligned
    obtain ⟨i, hi⟩ : ∃ i : Nat, z = (s.locate H place).toInt + 8 * i :=
      ⟨((z - (s.locate H place).toInt) / 8).toNat, by omega⟩
    have hlt : i < length.toNat := by omega
    exact ⟨i, hlt, (hi ▸ hz).injective hm hs (hwords i hlt).1⟩
  · intro b' y
    exact indexes_pointer hl hm hg (.parameter hu) huty hparam
      fun i hi => ⟨(hwords i hi).2, by omega⟩
  · intro b' y
    exact dereferences_pointer hl hm hg (.parameter hu) huty hparam

/-- An array that is named as an argument is passed to a parameter which points to its elements. -/
theorem exists_parameter (hl : q.Linked) (hc : q.Confines f) {e y : Expr}
    (he : e ∈ f.body.exprs) {n m : Note} {callee : String} {args : List Expr}
    (hx : .call n callee args ∈ e.nodes) (hk : args[k]? = some y)
    (hy : y = .var m x slot ∨ y = .decay m x slot) (hv : q.Declares f x slot v)
    (hty : v.ty = .array element length) :
    y = .decay m x slot ∧ ∃ g ∈ q.functions, g.name = callee ∧ ∃ u, g.params[k]? = some u ∧
      u.ty = .pointer element := by
  have hpart : (.argument callee k, y) ∈ (Expr.call n callee args).parts := by
    obtain ⟨hlt, rfl⟩ := List.getElem?_eq_some_iff.1 hk
    exact List.mem_mapIdx.2 ⟨k, hlt, rfl⟩
  have hdecays := hc.passed e he _ hx _ _ _ hpart m x slot v hy hv (hty ▸ rfl)
  cases hdecays with
  | @argument g _ u v' _ _ _ _ _ hg hu huty hv' hty' _ =>
    rcases hy with hy | hy
    · cases hy
    · cases hy
      cases hl.declares_unique hv hv'
      cases hty.symm.trans hty'
      exact ⟨rfl, g, hg, rfl, u, hu, huty⟩

end Simulation

open Simulation

/-- Caller and callee address the same elements. In what is analyzed with success, an array of any
storage that is named as an argument passes the address where it starts, and from that word the
function that is called computes the addresses of the elements that the caller does: those of the
words of the array in their order, which are inside of it and no words of other variables. -/
theorem elements_shared {source : String} {q : Program} (h : (analyze source).outcome = .ok q) :
    ∃ a, (compile source).outcome = .ok a ∧
      (∀ f ∈ q.functions, ∀ e ∈ f.body.exprs, ∀ x ∈ e.nodes, Occurs a (Frame.layout f) a.code x) ∧
      (∀ frame n base i c, EmitsValue a frame (.index n base i) c ↔
        ∃ d, EmitsAddress a frame (.index n base i) d ∧ c = d ++ code [load (.direct .rax) .rax]) ∧
      (∀ frame n e c, EmitsValue a frame (.unary n .deref e) c ↔
        ∃ d, EmitsAddress a frame (.unary n .deref e) d ∧
          c = d ++ code [load (.direct .rax) .rax]) ∧
      (∀ frame n e c, EmitsValue a frame (.unary n .address e) c ↔ EmitsAddress a frame e c) ∧
      ∀ f ∈ q.functions, ∀ e ∈ f.body.exprs, ∀ n callee args, .call n callee args ∈ e.nodes →
        ∀ k y m x slot v element length, args[k]? = some y →
          y = .var m x slot ∨ y = .decay m x slot → q.Declares f x slot v →
            v.ty = .array element length →
              ∃ g ∈ q.functions, g.name = callee ∧ ∃ u, g.params[k]? = some u ∧
                u.ty = .pointer element ∧ ∃ place param,
                  storage? (Frame.layout f) x slot = some place ∧
                  storage? (Frame.layout g) u.name (.parameter k) = some param ∧
                    ∀ (H : Host a) b s, Stands H f b s →
                      Passes H f n callee args k place (Ready H f b fun _ => True)
                        (s.locate H place) ∧
                      Shares H q f g b x slot v length.toNat k param (s.locate H place) := by
  obtain ⟨p, hp, hd⟩ := exists_derives_of_analyze h
  obtain ⟨a, hcompile, ha⟩ := exists_compile_of_analyze h
  have hl := hd.linked hp
  have hm := makes_of_lower hl.distinct ha
  refine ⟨a, hcompile, ?_, fun _ _ _ _ _ => emitsValue_index_iff,
    fun _ _ _ _ => emitsValue_deref_iff, fun _ _ _ _ => emitsValue_address_iff, ?_⟩
  · intro f hf e he x hx
    obtain ⟨k, c, _, hc, hemits⟩ := hm.functions f hf
    exact hemits.occurs hc he hx
  · intro f hf e he n callee args hx k y m x slot v element length hk hy hv hty
    obtain ⟨rfl, g, hg, hname, u, hu, huty⟩ :=
      exists_parameter hl (hd.confines hp hf) he hx hk hy hv hty
    obtain ⟨place, hplace⟩ := exists_storage hv
    obtain ⟨param, hparam⟩ := exists_storage (q := q) (x := u.name) (.parameter hu)
    refine ⟨g, hg, hname, u, hu, huty, place, param, hplace, hparam, ?_⟩
    intro H b s hs
    exact ⟨passes_array hs hk hplace, shares_array hl hm hf hg hs hv hty hplace hu huty hparam⟩

/-- Passes arrays of both storages, and reads elements through the parameter in all ways. -/
def passesArrays : String :=
  "int g[3]; int sum(int n, int* p) \x7b int* r; r = &p[n]; return p[0] + *r + *p; \x7d " ++
    "void main(void) \x7b int a[2]; a[1] = 5; write(sum(1, a) + sum(2, g)); \x7d"

def shared : Assembly :=
  (compile passesArrays).outcome.toOption.getD ⟨[], [], [], none⟩

theorem shared_small : shared.code.length < 100 ∧ shared.strings = [] ∧
    ∀ g ∈ shared.globals, g.2 ≤ 4096 ∧ ∀ h ∈ shared.globals, g.1 = h.1 := by
  decide +kernel

def sharedHost : Host shared :=
  smallHost shared shared_small.1 shared_small.2.1 shared_small.2.2

/-- A state of the main function, with nothing but its array on the stack. -/
def sharedState : State where
  regs
    | .rbp => 32768
    | .rsp => 32752
    | _ => 0
  mem _ := 0
  compared := none
  line := 0
  input := []
  output := []

/-- The variables that a place can be of. -/
def Slot.variables (q : Program) (f : Function) : Slot → List Variable
  | .global => q.globals
  | .parameter _ => f.params
  | .localVar _ => f.locals

theorem Program.Declares.mem_variables {q : Program} {f : Function} {x : String} {slot : Slot}
    {v : Variable} (h : q.Declares f x slot v) : v ∈ slot.variables q f := by
  cases h with
  | global hv => exact hv
  | parameter hv | localVar hv => exact List.mem_of_getElem? hv

/-- A call whose second argument is an array of some storage, which stands at `z`. -/
def Expr.passesArray (frame : Frame) (slot : Slot) (z : Int) : Expr → Bool
  | .call _ _ args => args[1]?.any fun
    | .decay _ x slot' => slot' == slot && (storage? frame x slot).any fun place =>
        (sharedState.locate sharedHost place).toInt == z
    | _ => false
  | _ => false

theorem passesArrays_shared : (compile passesArrays).outcome = .ok shared ∧
    ∃ q, (analyze passesArrays).outcome = .ok q ∧
      ∀ p ∈ [(Slot.global, (4096 : Int), (3 : UInt64)), (.localVar 0, 32752, 2)],
        ∃ f ∈ q.functions, ∃ g ∈ q.functions, ∃ x v param w, q.Declares f x p.1 v ∧
          v.ty = .array .int p.2.2 ∧ w.toInt = p.2.1 ∧ Stands sharedHost f 32768 sharedState ∧
            Shares sharedHost q f g 32768 x p.1 v p.2.2.toNat 1 param w := by
  have hall : ((analyze passesArrays).outcome.toOption.any fun q =>
      [(Slot.global, (4096 : Int), (3 : UInt64)), (.localVar 0, 32752, 2)].all fun p =>
        q.functions.any fun f => (f.params.isEmpty && Variable.totalSize f.locals == 16) &&
          ((p.1.variables q f).all fun v => decide (v.ty = .array .int p.2.2)) &&
            f.body.exprs.any fun e => e.nodes.any (Expr.passesArray (Frame.layout f) p.1 p.2.1)) =
      true := by
    decide +kernel
  obtain ⟨q, hq, hall⟩ := Except.any_toOption_iff.1 hall
  obtain ⟨a, ha, _, _, _, _, hshared⟩ := elements_shared hq
  have hcompile : ((compile passesArrays).outcome.toOption.any fun a => decide (a = shared)) =
      true := by
    decide +kernel
  rw [ha] at hcompile
  obtain rfl : a = shared := of_decide_eq_true hcompile
  refine ⟨ha, q, hq, ?_⟩
  rintro ⟨slot, z, length⟩ hp
  have hfind := List.all_eq_true.1 hall _ hp
  simp only [List.any_eq_true, List.all_eq_true, Bool.and_eq_true, List.isEmpty_iff, beq_iff_eq,
    decide_eq_true_eq] at hfind
  obtain ⟨f, hf, ⟨⟨hparams, hsize⟩, hvariables⟩, e, he, y, hy, hpass⟩ := hfind
  have hstands : Stands sharedHost f 32768 sharedState := by
    refine ⟨by decide, ?_, by decide, by decide, by decide, ?_⟩
    · rw [hsize]
      decide
    · rw [hparams]
      decide
  cases y with
  | call n callee args =>
    rw [Expr.passesArray, Option.any_eq_true] at hpass
    obtain ⟨arg, harg, hpass⟩ := hpass
    cases arg with
    | decay m x slot' =>
      rw [Bool.and_eq_true, beq_iff_eq, Option.any_eq_true] at hpass
      obtain ⟨rfl, place, hplace, hz⟩ := hpass
      have hmem : Expr.decay m x slot' ∈ e.nodes := by
        refine Expr.nodes_subset e hy (List.mem_cons_of_mem _ ?_)
        exact Expr.nodes_subset_nodesOfList (List.mem_of_getElem? harg) (Expr.mem_nodes_self _)
      obtain ⟨v, _, _, hv, _⟩ := (linked_of_analyze hq).nodes f hf e he _ hmem
      have hty := hvariables v hv.mem_variables
      obtain ⟨g, hg, _, u, _, _, place', param, hplace', _, hall⟩ := hshared f hf e he n callee args
        hy 1 _ m x slot' v .int length harg (.inr rfl) hv hty
      cases hplace.symm.trans hplace'
      exact ⟨f, hf, g, hg, x, v, param, _, hv, hty, beq_iff_eq.1 hz, hstands,
        (hall sharedHost 32768 sharedState hstands).2⟩
    | _ => cases hpass
  | _ => cases hpass

end Bpl
