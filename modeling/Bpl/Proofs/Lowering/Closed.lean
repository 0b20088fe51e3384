import Bpl.Proofs.Lowering.Trap

namespace Bpl

namespace Lowering

open Asm

variable {a : Assembly} {frame : Frame}

mutual

/-- Code that indexes an array finds the trap. -/
theorem EmitsValue.trap {e : Expr} {c : Code} :
    EmitsValue a frame e c → ∀ x ∈ e.nodes, x.indexesArray = true → a.trap.isSome = true
  | .number | .string _ | .read | .var _ _ | .decay _ => by simp [Expr.nodes, Expr.indexesArray]
  | .assign ht hv => by
    rw [Expr.nodes, List.forall_mem_cons, List.forall_mem_append]
    exact ⟨by simp [Expr.indexesArray], ht.trap, hv.trap⟩
  | .binary hl hr => by
    rw [Expr.nodes, List.forall_mem_cons, List.forall_mem_append]
    exact ⟨by simp [Expr.indexesArray], hl.trap, hr.trap⟩
  | .neg h | .address h | .deref h => by
    rw [Expr.nodes, List.forall_mem_cons]
    exact ⟨by simp [Expr.indexesArray], h.trap⟩
  | .index h => h.trap
  | .call h => by
    rw [Expr.nodes, List.forall_mem_cons]
    exact ⟨by simp [Expr.indexesArray], h.trap⟩

theorem EmitsAddress.trap {e : Expr} {c : Code} :
    EmitsAddress a frame e c → ∀ x ∈ e.nodes, x.indexesArray = true → a.trap.isSome = true
  | .var _ => by simp [Expr.nodes, Expr.indexesArray]
  | .deref h => by
    rw [Expr.nodes, List.forall_mem_cons]
    exact ⟨by simp [Expr.indexesArray], h.trap⟩
  | .index hi ht hc hb => by
    rw [Expr.nodes, List.forall_mem_cons, List.forall_mem_append]
    refine ⟨fun h => ?_, hb.trap, hi.trap⟩
    rw [Expr.indexesArray, ht] at h
    cases hc with
    | array htrap => simp [htrap]
    | other hn => simp [hn] at h

theorem EmitsArguments.trap {es : List Expr} {c : Code} :
    EmitsArguments a frame es c →
      ∀ x ∈ Expr.nodesOfList es, x.indexesArray = true → a.trap.isSome = true
  | .nil => by simp [Expr.nodesOfList]
  | .cons h hs => by
    rw [Expr.nodesOfList, List.forall_mem_append]
    exact ⟨h.trap, hs.trap⟩

end

mutual

theorem EmitsStmt.trap {s : Stmt} {c : Code} :
    EmitsStmt a frame s c →
      ∀ e ∈ s.exprs, ∀ x ∈ e.nodes, x.indexesArray = true → a.trap.isSome = true
  | .compound h => h.trap
  | .ifThen he hy => List.forall_mem_cons.2 ⟨he.trap, hy.trap⟩
  | .ifElse he hy hn =>
    List.forall_mem_cons.2 ⟨he.trap, List.forall_mem_append.2 ⟨hy.trap, hn.trap⟩⟩
  | .whileDo he hb => List.forall_mem_cons.2 ⟨he.trap, hb.trap⟩
  | .retNone | .writeln => by simp [Stmt.exprs]
  | .retSome h | .expr h | .write h _ => List.forall_mem_singleton.2 h.trap

theorem EmitsBlock.trap {b : Bpl.Block} {c : Code} :
    EmitsBlock a frame b c →
      ∀ e ∈ b.exprs, ∀ x ∈ e.nodes, x.indexesArray = true → a.trap.isSome = true
  | .mk h => h.trap

theorem EmitsStmts.trap {ss : List Stmt} {c : Code} :
    EmitsStmts a frame ss c →
      ∀ e ∈ Stmt.exprsOfList ss, ∀ x ∈ e.nodes, x.indexesArray = true → a.trap.isSome = true
  | .nil => by simp [Stmt.exprsOfList]
  | .cons h hs => List.forall_mem_append.2 ⟨h.trap, hs.trap⟩

end

theorem EmitsFunction.trap {f : Function} {c : Code} (h : EmitsFunction a f c) :
    ∀ e ∈ f.body.exprs, ∀ x ∈ e.nodes, x.indexesArray = true → a.trap.isSome = true := by
  cases h with
  | mk h => exact h.trap

/-- The trap is there if and only if an array of known length is indexed. -/
theorem trap_isSome_iff {p : Program} (h : p.lower = .ok a) :
    a.trap.isSome = true ↔ ∃ e ∈ p.exprs, ∃ x ∈ e.nodes, x.indexesArray = true := by
  constructor
  · intro ht
    by_contra hnone
    obtain ⟨l, hrun, _, htrap, _⟩ := exists_run_of_lower h
    have hall : ∀ f ∈ p.functions, ∀ e ∈ f.body.exprs, ∀ x ∈ e.nodes,
        x.indexesArray = false := by
      intro f hf e he x hx
      rw [← Bool.not_eq_true]
      intro hi
      exact hnone ⟨e, List.mem_flatMap.2 ⟨f, hf, he⟩, x, hx, hi⟩
    rw [htrap, keepsTrap_functions hall _ _ _ hrun] at ht
    cases ht
  · rintro ⟨e, he, x, hx, hi⟩
    obtain ⟨f, hf, he⟩ := List.mem_flatMap.1 he
    obtain ⟨c, _, hc⟩ := (emits_of_lower h).exists_of_mem_left hf
    exact hc.trap e he x hx hi

end Lowering

namespace Asm

/-- The number of a numbered label. -/
def Label.number? : Label → Option Nat
  | .numbered n => some n
  | _ => none

/-- The function that starts at a label. -/
def Label.name? : Label → Option String
  | .function x => some x
  | _ => none

/-- The variable that is stored at a label. -/
def Label.global? : Label → Option String
  | .global x => some x
  | _ => none

end Asm

open Asm Lowering

variable {a : Assembly}

theorem filterMap_labels {β : Type} (f : Label → Option β)
    (hf : ∀ l ∈ [Label.integerFormat, .newline, .stringFormat, .overflowMessage, .readFormat],
      f l = none) :
    a.labels.filterMap f = a.strings.filterMap (fun s => f (.numbered s.1)) ++
      a.globals.filterMap (fun g => f (.global g.1)) ++
        a.code.filterMap (fun x => x.label?.bind f) := by
  rw [Assembly.labels, List.filterMap_append, List.filterMap_append, List.filterMap_append,
    List.filterMap_eq_nil_iff.2 hf, List.filterMap_map, List.filterMap_map,
    List.filterMap_filterMap]
  rfl

theorem filterMap_number?_labels :
    a.labels.filterMap Label.number? = a.strings.map Prod.fst ++ numbers a.code := by
  have hcode : a.code.filterMap (fun x => x.label?.bind Label.number?) = numbers a.code := by
    refine List.filterMap_congr fun x _ => ?_
    cases x with
    | instr i => rfl
    | label l => cases l <;> rfl
  rw [filterMap_labels _ (by simp [Label.number?]), hcode]
  simp [Label.number?, List.filterMap_eq_map']

theorem filterMap_name?_labels : a.labels.filterMap Label.name? = names a.code := by
  have hcode : a.code.filterMap (fun x => x.label?.bind Label.name?) = names a.code := by
    refine List.filterMap_congr fun x _ => ?_
    cases x with
    | instr i => rfl
    | label l => cases l <;> rfl
  rw [filterMap_labels _ (by simp [Label.name?]), hcode]
  simp [Label.name?]

theorem filterMap_global?_labels
    (hc : ∀ l, .label l ∈ a.code → (∃ n, l = .numbered n) ∨ ∃ x, l = .function x) :
    a.labels.filterMap Label.global? = a.globals.map Prod.fst := by
  have hcode : a.code.filterMap (fun x => x.label?.bind Label.global?) = [] := by
    refine List.filterMap_eq_nil_iff.2 fun x hx => ?_
    cases x with
    | instr i => rfl
    | label l => rcases hc l hx with ⟨n, rfl⟩ | ⟨x, rfl⟩ <;> rfl
  rw [filterMap_labels _ (by simp [Label.global?]), hcode]
  simp [Label.global?, List.filterMap_eq_map']

/-- A label stands as often as what it alone is made of. -/
theorem count_label {β : Type} [BEq β] [LawfulBEq β] (f : Label → Option β) (l : Label) (b : β)
    (h : ∀ l', f l' = some b ↔ l' = l) : a.labels.count l = (a.labels.filterMap f).count b := by
  rw [List.count_filterMap, List.count]
  refine List.countP_congr fun l' _ => ?_
  rw [beq_iff_eq, beq_iff_eq, h]

/-- Labels stand once if those of each kind do. -/
theorem nodup_labels (hn : (a.labels.filterMap Label.number?).Nodup)
    (hg : (a.globals.map Prod.fst).Nodup) (hf : (names a.code).Nodup)
    (hc : ∀ l, .label l ∈ a.code → (∃ n, l = .numbered n) ∨ ∃ x, l = .function x) :
    a.labels.Nodup := by
  -- only the five labels of the runtime are of no such kind, and those differ
  have hrest : ∀ l ∈ a.strings.map (fun s => Label.numbered s.1) ++
      (a.globals.map (fun g => Label.global g.1) ++ a.code.filterMap Line.label?),
      (∃ n, l = .numbered n) ∨ (∃ x, l = .global x) ∨ ∃ x, l = .function x := by
    intro l hl
    simp only [List.mem_append, List.mem_map, List.mem_filterMap] at hl
    rcases hl with ⟨s, _, rfl⟩ | ⟨g, _, rfl⟩ | ⟨x, hx, hl⟩
    · exact .inl ⟨_, rfl⟩
    · exact .inr (.inl ⟨_, rfl⟩)
    · cases x with
      | instr i => cases hl
      | label l' =>
        cases hl
        rcases hc _ hx with hn | hf
        · exact .inl hn
        · exact .inr (.inr hf)
  have hfixed : ∀ l, ¬((∃ n, l = .numbered n) ∨ (∃ x, l = .global x) ∨ ∃ x, l = .function x) →
      a.labels.count l ≤ 1 := by
    intro l hl
    rw [Assembly.labels, List.append_assoc, List.append_assoc, List.count_append,
      List.count_eq_zero_of_not_mem (mt (hrest l) hl)]
    exact List.nodup_iff_count_le_one.1 (by decide) l
  rw [List.nodup_iff_count_le_one]
  intro l
  cases l with
  | numbered n =>
    rw [count_label Label.number? _ n (fun l' => by cases l' <;> simp [Label.number?])]
    exact List.nodup_iff_count_le_one.1 hn n
  | global x =>
    rw [count_label Label.global? _ x (fun l' => by cases l' <;> simp [Label.global?]),
      filterMap_global?_labels hc]
    exact List.nodup_iff_count_le_one.1 hg x
  | function x =>
    rw [count_label Label.name? _ x (fun l' => by cases l' <;> simp [Label.name?]),
      filterMap_name?_labels]
    exact List.nodup_iff_count_le_one.1 hf x
  | _ => exact hfixed _ (by simp)

/-- The labels in the code of a program that is lowered. -/
theorem label_mem_code {p : Program} (h : p.lower = .ok a) {l : Label} (hl : .label l ∈ a.code) :
    (∃ n, l = .numbered n) ∨ ∃ x, l = .function x := by
  rcases List.mem_append.1 hl with hl | hl
  · obtain ⟨c, hc, hl⟩ := List.mem_flatten.1 hl
    obtain ⟨f, _, he⟩ := (emits_of_lower h).exists_of_mem_right hc
    cases he with
    | mk hb =>
      simp only [List.mem_append, List.mem_singleton] at hl
      rcases hl with ((hl | hl) | hl) | hl
      · exact .inr ⟨f.name, Line.label.inj hl⟩
      · exact .inl (onlyNumbered_code _ l hl)
      · exact .inl (hb.onlyNumbered l hl)
      · exact .inl (onlyNumbered_epilogue _ l hl)
  · cases ht : a.trap with
    | none => simp [ht] at hl
    | some t => exact .inl ⟨t, by simpa [ht, trapCode] using hl⟩

/-- The numbers of labels are those below some number. -/
theorem exists_perm_range {p : Program} (h : p.lower = .ok a) :
    ∃ n, (a.labels.filterMap Label.number?).Perm (.range n) := by
  obtain ⟨l, hrun, hs, ht, _⟩ := exists_run_of_lower h
  have hexact := (run_functions hrun).1.exact [] (by simp [Labels.used, Labels.empty])
  refine ⟨l.next, List.Perm.trans ?_ hexact⟩
  have htrap : numbers ((a.trap.map trapCode).getD []) = l.trap.toList := by
    rw [← ht]
    cases a.trap <;> rfl
  rw [filterMap_number?_labels, Assembly.code, numbers_append, htrap, hs, List.nil_append,
    Labels.used, ← List.append_assoc]
  exact List.perm_append_comm.append_right _

theorem every_trap : Every (Resolved a []) ((a.trap.map trapCode).getD []) := by
  cases a.trap with
  | none => simp [Every]
  | some t =>
    simp [Every, trapCode, Resolved, Instr.labels, Operand.label?, Address.label?,
      mem_labels_fixed]

/-- What an instruction mentions is defined, if its jumps are in the code. -/
theorem Lowering.Resolved.mem_labels {p : Program} {block : Code} {i : Instr}
    (h : Resolved a block i) (hp : Provides p a) (hb : block ⊆ a.code) :
    ∀ l ∈ i.labels, l ∈ a.labels := by
  cases i with
  | jmp l | je l => exact List.forall_mem_singleton.2 (mem_labels_code (hb h))
  | jae l =>
    obtain ⟨t, ht, rfl⟩ := h
    exact List.forall_mem_singleton.2 (hp.trap t ht)
  | _ => exact h

/-- In the assembly that a text compiles to, labels are closed and unique. Each label is defined
once, also as it is written. Each that an instruction mentions is defined: those of jumps in the
same function, except that a bad index leads to the trap. The trap is there if and only if an
array of known length is indexed. The numbered labels are numbered from zero, without a gap. -/
theorem labels_closed {source : String} {a : Assembly} (h : (compile source).outcome = .ok a) :
    ∃ q, (analyze source).outcome = .ok q ∧
      (a.labels.map Label.text).Nodup ∧
      (∀ i, .instr i ∈ a.code → ∀ l ∈ i.labels, l ∈ a.labels) ∧
      (∀ c ∈ a.functions, ∀ l, .instr (.jmp l) ∈ c ∨ .instr (.je l) ∈ c → .label l ∈ c) ∧
      (∀ l, .instr (.jae l) ∈ a.code → ∃ t, a.trap = some t ∧ l = .numbered t) ∧
      (a.trap.isSome = true ↔ ∃ e ∈ q.exprs, ∃ x ∈ e.nodes, x.indexesArray = true) ∧
      ∃ n, (a.labels.filterMap Label.number?).Perm (.range n) := by
  obtain ⟨q, hq, hlower⟩ := exists_analyze_of_compile h
  have hl := linked_of_analyze hq
  have hp := provides_of_makes (makes_of_lower hl.distinct hlower)
  have hfunction : ∀ c ∈ a.functions, Every (Resolved a c) c := by
    intro c hc
    obtain ⟨f, hf, he⟩ := (emits_of_lower hlower).exists_of_mem_right hc
    exact he.resolved hp hl hf
  have hcode : ∀ i, .instr i ∈ a.code → ∃ c, c ⊆ a.code ∧ Resolved a c i := by
    intro i hi
    rcases List.mem_append.1 hi with hi | hi
    · obtain ⟨c, hc, hi⟩ := List.mem_flatten.1 hi
      refine ⟨c, fun x hx => ?_, hfunction c hc i hi⟩
      exact List.mem_append_left _ (List.mem_flatten_of_mem hc hx)
    · exact ⟨[], List.nil_subset _, every_trap i hi⟩
  obtain ⟨n, hn⟩ := exists_perm_range hlower
  have hglobals : (a.globals.map Prod.fst).Nodup := by
    obtain ⟨_, _, _, _, hg⟩ := exists_run_of_lower hlower
    rw [hg, List.map_map]
    exact q.globals_names_sublist.nodup hl.distinct
  have hnames : (names a.code).Nodup := by
    rw [names_of_lower hlower]
    exact q.functions_names_sublist.nodup hl.distinct
  have hnumbers : (a.labels.filterMap Label.number?).Nodup := hn.nodup_iff.2 List.nodup_range
  have hnodup := nodup_labels hnumbers hglobals hnames fun _ => label_mem_code hlower
  refine ⟨q, hq, hnodup.map Label.text_injective, ?_, ?_, ?_, trap_isSome_iff hlower, n, hn⟩
  · intro i hi l hl
    obtain ⟨c, hc, hr⟩ := hcode i hi
    exact hr.mem_labels hp hc l hl
  · rintro c hc l (hi | hi)
    · exact hfunction c hc _ hi
    · exact hfunction c hc _ hi
  · intro l hi
    obtain ⟨c, _, hr⟩ := hcode _ hi
    exact hr

/-- A program whose labels are of every kind. -/
def countdown : String :=
  "int n; int a[3]; void show(int i) \x7b write(a[i]); \x7d " ++
  "void main(void) \x7b n = 3; while (n > 0) \x7b n = n - 1; a[n] = n; " ++
  "if (n == 1) show(n); else write(\"more\"); \x7d \x7d"

theorem countdown_labels_closed :
    ∃ a, (compile countdown).outcome = .ok a ∧ a.trap.isSome = true ∧
      (a.labels.map Label.text).Nodup ∧
      (∀ i, .instr i ∈ a.code → ∀ l ∈ i.labels, l ∈ a.labels) ∧
      ∃ n, (a.labels.filterMap Label.number?).Perm (.range n) := by
  have htrap : (compile countdown).outcome.toOption.any (·.trap.isSome) = true := by
    decide +kernel
  cases hc : (compile countdown).outcome with
  | error e =>
    rw [hc] at htrap
    cases htrap
  | ok a =>
    rw [hc] at htrap
    obtain ⟨q, _, hnodup, hmentioned, _, _, _, hnumbers⟩ := labels_closed hc
    exact ⟨a, rfl, htrap, hnodup, hmentioned, hnumbers⟩

end Bpl
