import Bpl.Proofs.Lowering.Emits
import Bpl.Proofs.Lowering.Total
import Bpl.Proofs.Machine.Step

theorem List.getElem?_inj_of_filterMap {α β : Type} {f : α → Option β} {as : List α}
    (hn : (as.filterMap f).Nodup) {i j : Nat} {x y : α} {b : β} (hi : as[i]? = some x)
    (hj : as[j]? = some y) (hx : f x = some b) (hy : f y = some b) : i = j := by
  induction as generalizing i j with
  | nil => simp at hi
  | cons a as ih =>
    have hmem : ∀ {k z}, as[k]? = some z → f z = some b → b ∈ as.filterMap f :=
      fun hk hz => List.mem_filterMap.2 ⟨_, List.mem_of_getElem? hk, hz⟩
    have htail : (as.filterMap f).Nodup := by
      rw [List.filterMap_cons] at hn
      split at hn
      · exact hn
      · exact (List.nodup_cons.1 hn).2
    have hhead : f a = some b → b ∉ as.filterMap f := by
      intro ha
      rw [List.filterMap_cons_some ha] at hn
      exact (List.nodup_cons.1 hn).1
    cases i with
    | zero =>
      cases j with
      | zero => rfl
      | succ j =>
        cases hi
        exact absurd (hmem hj hy) (hhead hx)
    | succ i =>
      cases j with
      | zero =>
        cases hj
        exact absurd (hmem hi hx) (hhead hy)
      | succ j => rw [ih htail hi hj]

theorem List.append_prefix_drop {α : Type} {as bs cs : List α} {k : Nat} :
    as ++ bs <+: cs.drop k ↔ as <+: cs.drop k ∧ bs <+: cs.drop (k + as.length) := by
  rw [← List.drop_drop]
  constructor
  · rintro ⟨t, ht⟩
    rw [← ht, List.append_assoc, List.drop_left]
    exact ⟨List.prefix_append _ _, List.prefix_append _ _⟩
  · rintro ⟨⟨t, ht⟩, h⟩
    rw [← ht, List.drop_left] at h
    rw [← ht]
    exact List.prefix_append_right_inj _ |>.2 h

namespace Bpl

namespace Lowering

open Asm

/-- The functions that begin in a piece of code. -/
def names (c : Code) : List String :=
  c.filterMap fun
    | .label (.function x) => some x
    | _ => none

@[simp] theorem names_append (c d : Code) : names (c ++ d) = names c ++ names d :=
  List.filterMap_append

@[simp] theorem names_code (is : List Instr) : names (code is) = [] := by
  simp [names, code]

@[simp] theorem names_nil : names [] = [] := rfl

@[simp] theorem names_cons_function (x : String) (c : Code) :
    names (.label (.function x) :: c) = x :: names c := rfl

/-- A piece of code in which all labels are numbered. -/
def OnlyNumbered (c : Code) : Prop :=
  ∀ l, .label l ∈ c → ∃ n, l = .numbered n

theorem OnlyNumbered.names {c : Code} (h : OnlyNumbered c) : names c = [] := by
  refine List.filterMap_eq_nil_iff.2 fun x hx => ?_
  cases x with
  | instr i => rfl
  | label l =>
    obtain ⟨n, rfl⟩ := h l hx
    rfl

@[simp] theorem onlyNumbered_nil : OnlyNumbered [] := by
  simp [OnlyNumbered]

@[simp] theorem onlyNumbered_append {c d : Code} :
    OnlyNumbered (c ++ d) ↔ OnlyNumbered c ∧ OnlyNumbered d := by
  simp only [OnlyNumbered, List.mem_append, or_imp, forall_and]

@[simp] theorem onlyNumbered_code (is : List Instr) : OnlyNumbered (code is) := by
  simp [OnlyNumbered, code]

@[simp] theorem onlyNumbered_cons_numbered (n : Nat) (c : Code) :
    OnlyNumbered (.label (.numbered n) :: c) ↔ OnlyNumbered c := by
  simp [OnlyNumbered]

@[simp] theorem onlyNumbered_epilogue (frame : Frame) : OnlyNumbered (epilogue frame) := by
  unfold epilogue
  split <;> exact onlyNumbered_code _

@[simp] theorem onlyNumbered_combine (op : BinaryOp) : OnlyNumbered (combine op) := by
  cases op <;> exact onlyNumbered_code _

@[simp] theorem onlyNumbered_libraryCall (r : Routine) : OnlyNumbered (libraryCall r) :=
  onlyNumbered_code _

@[simp] theorem onlyNumbered_unlessTrue (n : Nat) : OnlyNumbered (unlessTrue n) :=
  onlyNumbered_code _

variable {a : Assembly} {frame : Frame}

theorem Checks.onlyNumbered {ty : Ty} {c : Code} : Checks a ty c → OnlyNumbered c
  | .array _ => onlyNumbered_code _
  | .other _ => onlyNumbered_nil

mutual

theorem EmitsValue.onlyNumbered {e : Expr} {c : Code} : EmitsValue a frame e c → OnlyNumbered c
  | .number | .string _ | .var _ _ | .decay _ => onlyNumbered_code _
  | .read => by simp
  | .assign ht hv => by simp [ht.onlyNumbered, hv.onlyNumbered]
  | .binary hl hr => by simp [hl.onlyNumbered, hr.onlyNumbered]
  | .neg h | .deref h => by simp [h.onlyNumbered]
  | .address h => h.onlyNumbered
  | .index h => by simp [h.onlyNumbered]
  | .call h => by simp [h.onlyNumbered]

theorem EmitsAddress.onlyNumbered {e : Expr} {c : Code} :
    EmitsAddress a frame e c → OnlyNumbered c
  | .var _ => onlyNumbered_code _
  | .deref h => h.onlyNumbered
  | .index hi _ hc hb => by simp [hi.onlyNumbered, hc.onlyNumbered, hb.onlyNumbered]

theorem EmitsArguments.onlyNumbered {es : List Expr} {c : Code} :
    EmitsArguments a frame es c → OnlyNumbered c
  | .nil => onlyNumbered_nil
  | .cons h hs => by simp [h.onlyNumbered, hs.onlyNumbered]

end

mutual

theorem EmitsStmt.onlyNumbered {s : Stmt} {c : Code} : EmitsStmt a frame s c → OnlyNumbered c
  | .compound h => h.onlyNumbered
  | .ifThen hc hy => by simp [hc.onlyNumbered, hy.onlyNumbered]
  | .ifElse hc hy hn => by simp [hc.onlyNumbered, hy.onlyNumbered, hn.onlyNumbered]
  | .whileDo hc hb => by simp [hc.onlyNumbered, hb.onlyNumbered]
  | .retNone => onlyNumbered_epilogue _
  | .retSome h => by simp [h.onlyNumbered]
  | .expr h => h.onlyNumbered
  | .write h _ => by simp [h.onlyNumbered]
  | .writeln => by simp

theorem EmitsBlock.onlyNumbered {b : Block} {c : Code} :
    EmitsBlock a frame b c → OnlyNumbered c
  | .mk h => h.onlyNumbered

theorem EmitsStmts.onlyNumbered {ss : List Stmt} {c : Code} :
    EmitsStmts a frame ss c → OnlyNumbered c
  | .nil => onlyNumbered_nil
  | .cons h hs => by simp [h.onlyNumbered, hs.onlyNumbered]

end

theorem names_epilogue (frame : Frame) : names (epilogue frame) = [] :=
  (onlyNumbered_epilogue frame).names

theorem EmitsFunction.names {f : Function} {c : Code} : EmitsFunction a f c → names c = [f.name]
  | .mk h => by simp [prologue, h.onlyNumbered.names, names_epilogue]

theorem names_flatten {fs : List Function} {cs : List Code}
    (h : List.Forall₂ (EmitsFunction a) fs cs) : names cs.flatten = fs.map Function.name := by
  induction h with
  | nil => rfl
  | cons h _ ih => simp [h.names, ih]

end Lowering

namespace Machine

open Asm Lowering

/-- The code `c` stands in a program from line `k` on. -/
def CodeAt (a : Assembly) (k : Nat) (c : Code) : Prop :=
  c <+: a.code.drop k

variable {a : Assembly} {k : Nat} {c d : Code}

theorem codeAt_append : CodeAt a k (c ++ d) ↔ CodeAt a k c ∧ CodeAt a (k + c.length) d :=
  List.append_prefix_drop

theorem codeAt_cons {x : Line} :
    CodeAt a k (x :: c) ↔ a.code[k]? = some x ∧ CodeAt a (k + 1) c := by
  rw [← List.singleton_append, codeAt_append]
  refine and_congr_left fun _ => ?_
  rw [CodeAt, List.singleton_prefix_iff_head?_eq_some, List.head?_drop]

theorem CodeAt.of_prefix_drop {i : Nat} (hd : CodeAt a k d) (hc : c <+: d.drop i) :
    CodeAt a (k + i) c := by
  have hdrop := hd.drop i
  rw [List.drop_drop] at hdrop
  exact hc.trans hdrop

/-- A label that stands on one line only is found there. -/
theorem lineOf?_eq_some {l : Label} (hk : a.code[k]? = some (.label l))
    (hu : ∀ j, a.code[j]? = some (.label l) → j = k) : lineOf? a l = some k := by
  obtain ⟨hlt, hget⟩ := List.getElem?_eq_some_iff.1 hk
  rw [lineOf?, List.findIdx?_eq_some_iff_getElem]
  refine ⟨hlt, by simp [hget], fun j hj => ?_⟩
  simp only [beq_iff_eq]
  intro he
  have := hu j (List.getElem?_eq_some_iff.2 ⟨hj.trans hlt, he⟩)
  omega

theorem getElem?_of_lineOf? {l : Label} {k : Nat} (h : lineOf? a l = some k) :
    a.code[k]? = some (.label l) := by
  rw [lineOf?, List.findIdx?_eq_some_iff_getElem] at h
  obtain ⟨hlt, hk, _⟩ := h
  rw [List.getElem?_eq_getElem hlt, beq_iff_eq.1 hk]

end Machine

/-- An assembly that is made from a program: each of its functions has its code at its label,
labels stand on one line each, and the trap is there if it is needed. -/
structure Program.Makes (p : Program) (a : Assembly) : Prop where
  functions : ∀ f ∈ p.functions, ∃ k c, Machine.lineOf? a (.function f.name) = some k ∧
    Machine.CodeAt a k c ∧ Lowering.EmitsFunction a f c
  numbered : ∀ n k, a.code[k]? = some (.label (.numbered n)) →
    Machine.lineOf? a (.numbered n) = some k
  trap : ∀ t, a.trap = some t → ∃ k, Machine.CodeAt a k (Asm.trapCode t)
  strings : (a.strings.map Prod.fst).Nodup
  contents : (a.strings.map Prod.snd).Nodup
  globals : a.globals = p.globals.map fun v => (v.name, v.ty.size)

namespace Lowering

open Asm Machine

theorem Draws.nodup_code {cs : List Code} {l : Labels} (h : Draws .empty cs.flatten l) :
    (numbers (cs.flatten ++ (l.trap.map trapCode).getD [])).Nodup := by
  rw [numbers_append, List.nodup_append]
  refine ⟨h.nodup, ?_, ?_⟩
  · cases l.trap <;> simp [trapCode, numbers]
  · intro m hm n hn hmn
    cases ht : l.trap with
    | none => simp [ht] at hn
    | some t =>
      have hn : n = t := by simpa [ht, trapCode, numbers] using hn
      rcases h.trap_fresh t ht with ht | ⟨_, _, hf⟩
      · cases ht
      · exact hf (hn ▸ hmn ▸ hm)

theorem exists_codeAt {a : Assembly} {fs : List Function} {cs : List Code}
    (h : List.Forall₂ (EmitsFunction a) fs cs) {k : Nat} (hcs : CodeAt a k cs.flatten)
    {f : Function} (hf : f ∈ fs) : ∃ i c, CodeAt a i c ∧
      i + c.length ≤ k + cs.flatten.length ∧ EmitsFunction a f c := by
  induction h generalizing k with
  | nil => cases hf
  | cons h _ ih =>
    rw [List.flatten_cons, codeAt_append] at hcs
    rw [List.flatten_cons, List.length_append]
    rcases List.mem_cons.1 hf with rfl | hf
    · exact ⟨k, _, hcs.1, by omega, h⟩
    · obtain ⟨i, c, hi, hle, he⟩ := ih hcs.2 hf
      exact ⟨i, c, hi, by omega, he⟩

/-- The parts of an assembly that is lowered from a program. -/
theorem exists_run_of_lower {p : Program} (h : p.lower = .ok a) :
    ∃ l, (p.functions.mapM function).run .empty = .ok (a.functions, l) ∧
      a.strings = l.strings ∧ a.trap = l.trap ∧
      a.globals = p.globals.map fun v => (v.name, v.ty.size) := by
  rw [Program.lower, Except.bind_eq_ok_iff] at h
  obtain ⟨⟨cs, l⟩, hrun, h⟩ := h
  cases h
  exact ⟨l, hrun, rfl, rfl, rfl⟩

theorem emits_of_lower {p : Program} (h : p.lower = .ok a) :
    List.Forall₂ (EmitsFunction a) p.functions a.functions := by
  obtain ⟨l, hrun, hs, ht, _⟩ := exists_run_of_lower h
  exact (run_functions hrun).2 a ⟨hs ▸ List.Subset.refl _, fun t h => ht ▸ h⟩

theorem names_of_lower {p : Program} (h : p.lower = .ok a) :
    names a.code = p.functions.map Function.name := by
  have htrap : names ((a.trap.map trapCode).getD []) = [] := by
    cases a.trap <;> rfl
  rw [Assembly.code, names_append, htrap, List.append_nil, names_flatten (emits_of_lower h)]

/-- The code of a function stands at its label, which is on no other line. -/
theorem exists_placed_of_lower {p : Program} (hn : (p.map Decl.name).Nodup) (h : p.lower = .ok a)
    {f : Function} (hf : f ∈ p.functions) :
    ∃ k c, lineOf? a (.function f.name) = some k ∧ CodeAt a k c ∧
      k + c.length ≤ a.functions.flatten.length ∧ EmitsFunction a f c := by
  have hcode : CodeAt a 0 (a.functions.flatten ++ (a.trap.map trapCode).getD []) :=
    List.prefix_refl _
  have hnames : (names a.code).Nodup := by
    rw [names_of_lower h]
    exact p.functions_names_sublist.nodup hn
  obtain ⟨k, c, hk, hle, hc⟩ :=
    exists_codeAt (emits_of_lower h) (codeAt_append.1 hcode).1 hf
  rw [Nat.zero_add] at hle
  refine ⟨k, c, ?_, hk, hle, hc⟩
  cases hc with
  | mk hb =>
    rw [List.append_assoc, List.append_assoc, List.singleton_append, codeAt_cons] at hk
    exact lineOf?_eq_some hk.1 fun j hj =>
      List.getElem?_inj_of_filterMap hnames hj hk.1 rfl rfl

/-- The trap stands behind all functions. -/
theorem codeAt_trapCode {t : Nat} (ht : a.trap = some t) :
    CodeAt a a.functions.flatten.length (trapCode t) := by
  have hcode : CodeAt a 0 (a.functions.flatten ++ (a.trap.map trapCode).getD []) :=
    List.prefix_refl _
  have hc := (codeAt_append.1 hcode).2
  rw [ht, Nat.zero_add] at hc
  exact hc

/-- Lowering a program whose functions have different names makes an assembly from it. -/
theorem makes_of_lower {p : Program} {a : Assembly} (hn : (p.map Decl.name).Nodup)
    (h : p.lower = .ok a) : p.Makes a := by
  obtain ⟨l, hrun, hs, ht, hg⟩ := exists_run_of_lower h
  have hd := (run_functions hrun).1
  have hnumbers : (numbers a.code).Nodup := by
    rw [Assembly.code, ht]
    exact hd.nodup_code
  have hsane := hd.sane ⟨by simp [Labels.empty], by simp [Labels.empty], by simp [Labels.empty]⟩
  refine ⟨?_, ?_, ?_, hs ▸ hsane.numbers, hs ▸ hsane.contents, hg⟩
  · intro f hf
    obtain ⟨k, c, hline, hk, _, hc⟩ := exists_placed_of_lower hn h hf
    exact ⟨k, c, hline, hk, hc⟩
  · intro n k hk
    exact lineOf?_eq_some hk fun j hj =>
      List.getElem?_inj_of_filterMap hnumbers hj hk rfl rfl
  · intro t ht
    exact ⟨_, codeAt_trapCode ht⟩

end Lowering

end Bpl
