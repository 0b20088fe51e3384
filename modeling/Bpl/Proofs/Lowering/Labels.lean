import Bpl.Proofs.Lowering.Placed
import Bpl.Proofs.Typing.Linked

namespace Bpl

namespace Asm

theorem toDigits_inj {m n : Nat} : Nat.toDigits 10 m = Nat.toDigits 10 n ↔ m = n := by
  rw [← Nat.repr_inj, Nat.repr, Nat.repr, String.ofList_inj]

theorem Label.toList_text_function (x : String) : (Label.function x).text.toList =
    if x = "main" then ['m', 'a', 'i', 'n'] else '_' :: 'f' :: '_' :: x.toList := by
  rw [Label.text]
  split
  · next h => simp [h]
  · simp

/-- Different labels are written differently. -/
theorem Label.text_injective : Function.Injective Label.text := by
  intro l l' h
  have h := congrArg String.toList h
  cases l with
  | function x =>
    rw [toList_text_function] at h
    cases l' with
    | function y =>
      rw [toList_text_function] at h
      split at h <;> split at h <;> simp_all [String.ext_iff]
    | _ => split at h <;> simp [Label.text] at h
  | _ =>
    cases l' with
    | function y =>
      rw [toList_text_function] at h
      split at h <;> simp [Label.text] at h
    | _ => simp_all [Label.text, String.ext_iff, toDigits_inj]

def Address.label? : Address → Option Label
  | .label l => some l
  | .offset .. | .direct _ | .element .. => none

def Operand.label? : Operand → Option Label
  | .mem a => a.label?
  | .imm _ | .reg _ => none

/-- The labels that an instruction mentions. Routines of the library are none. -/
def Instr.labels : Instr → List Label
  | .mov src dst => src.label?.toList ++ dst.label?.toList
  | .lea src _ => src.label?.toList
  | .push src | .op _ src _ => src.label?.toList
  | .call l | .jmp l | .je l | .jae l => [l]
  | .mov32 .. | .pop _ | .neg _ | .clear _ | .cqto | .idiv _ | .set _ | .widen | .callRoutine _
  | .ret => []

def Line.label? : Line → Option Label
  | .label l => some l
  | .instr _ => none

end Asm

open Asm

/-- The labels that an assembly defines, in the order of its text. -/
def Assembly.labels (a : Assembly) : List Label :=
  [.integerFormat, .newline, .stringFormat, .overflowMessage, .readFormat] ++
    a.strings.map (fun s => .numbered s.1) ++ a.globals.map (fun g => .global g.1) ++
    a.code.filterMap Line.label?

/-- An index into an array whose length is known. -/
def Expr.indexesArray : Expr → Bool
  | .index _ base _ => base.ty?.any Ty.isArray
  | _ => false

namespace Lowering

/-- What is needed of the labels that an instruction mentions: jumps stay within a block of code,
except for those to the trap. -/
def Resolved (a : Assembly) (block : Code) : Instr → Prop
  | .jmp l | .je l => .label l ∈ block
  | .jae l => ∃ t, a.trap = some t ∧ l = .numbered t
  | i => ∀ l ∈ i.labels, l ∈ a.labels

/-- All instructions of a piece of code have a property. -/
def Every (P : Instr → Prop) (c : Code) : Prop :=
  ∀ i, .instr i ∈ c → P i

variable {P : Instr → Prop} {a : Assembly} {frame : Frame} {block : Code}

theorem every_append {c d : Code} : Every P (c ++ d) ↔ Every P c ∧ Every P d := by
  simp only [Every, List.mem_append, or_imp, forall_and]

theorem every_code {is : List Instr} : Every P (code is) ↔ ∀ i ∈ is, P i := by
  simp [Every, code]

theorem every_label {l : Label} : Every P [.label l] := by
  simp [Every]

theorem mem_labels_fixed {l : Label}
    (h : l ∈ [Label.integerFormat, .newline, .stringFormat, .overflowMessage, .readFormat]) :
    l ∈ a.labels := by
  simp only [Assembly.labels, List.mem_append]
  exact .inl (.inl (.inl h))

theorem mem_labels_string {n : Nat} {s : String} (h : (n, s) ∈ a.strings) :
    .numbered n ∈ a.labels := by
  simp only [Assembly.labels, List.mem_append, List.mem_map]
  exact .inl (.inl (.inr ⟨_, h, rfl⟩))

theorem mem_labels_global {x : String} (h : x ∈ a.globals.map Prod.fst) :
    .global x ∈ a.labels := by
  obtain ⟨g, hg, rfl⟩ := List.mem_map.1 h
  simp only [Assembly.labels, List.mem_append, List.mem_map]
  exact .inl (.inr ⟨g, hg, rfl⟩)

theorem mem_labels_code {l : Label} (h : .label l ∈ a.code) : l ∈ a.labels := by
  simp only [Assembly.labels, List.mem_append, List.mem_filterMap]
  exact .inr ⟨_, h, rfl⟩

/-- What an assembly defines besides its strings: the trap if it is needed, and the functions and
global variables of a program. -/
structure Provides (p : Program) (a : Assembly) : Prop where
  trap : ∀ t, a.trap = some t → .numbered t ∈ a.labels
  functions : ∀ f ∈ p.functions, .function f.name ∈ a.labels
  globals : ∀ v ∈ p.globals, .global v.name ∈ a.labels

theorem provides_of_makes {p : Program} (hm : p.Makes a) : Provides p a where
  trap := by
    intro t ht
    obtain ⟨k, hk⟩ := hm.trap t ht
    exact mem_labels_code (List.mem_of_getElem? (Machine.codeAt_cons.1 hk).1)
  functions := by
    intro f hf
    obtain ⟨k, c, hk, _⟩ := hm.functions f hf
    exact mem_labels_code (List.mem_of_getElem? (Machine.getElem?_of_lineOf? hk))
  globals := by
    intro v hv
    refine mem_labels_global ?_
    rw [hm.globals, List.map_map]
    exact List.mem_map_of_mem hv

variable {p : Program} {f : Function}

theorem Provides.storage (h : Provides p a) {x : String} {slot : Slot} {v : Variable}
    {place : Address} (hp : storage? frame x slot = some place) (hd : p.Declares f x slot v) :
    ∀ l ∈ place.label?, l ∈ a.labels := by
  intro l hl
  cases hd with
  | global hv hn =>
    cases hp
    cases hl
    exact hn ▸ h.globals v hv
  | parameter _ =>
    obtain ⟨o, _, rfl⟩ := Option.map_eq_some_iff.1 hp
    cases hl
  | localVar _ =>
    obtain ⟨o, _, rfl⟩ := Option.map_eq_some_iff.1 hp
    cases hl

theorem every_libraryCall (r : Routine) : Every (Resolved a block) (libraryCall r) := by
  simp [libraryCall, every_code, Resolved, Instr.labels, Operand.label?, Address.label?, load]

theorem every_combine (op : BinaryOp) : Every (Resolved a block) (combine op) := by
  cases op <;>
    simp [combine, combine.compare, every_code, Resolved, Instr.labels, Operand.label?, move]

theorem every_epilogue : Every (Resolved a block) (epilogue frame) := by
  unfold epilogue
  split <;> simp [every_code, Resolved, Instr.labels, Operand.label?, move]

theorem Checks.resolved {ty : Ty} {c : Code} (h : Checks a ty c) :
    Every (Resolved a block) c := by
  cases h with
  | array ht => simp [every_code, Resolved, Instr.labels, Operand.label?, loadImm, ht]
  | other _ => simp [Every]

mutual

theorem EmitsValue.resolved (hp : Provides p a) {e : Expr} {c : Code} :
    EmitsValue a frame e c → (∀ x ∈ e.nodes, x.LinkedIn p f) → Every (Resolved a block) c
  | .number, _ => by simp [every_code, Resolved, Instr.labels, Operand.label?, loadImm]
  | .string hs, _ => by
    simp [every_code, Resolved, Instr.labels, Address.label?, mem_labels_string hs]
  | .read, _ => by
    simp [every_append, every_code, every_libraryCall, Resolved, Instr.labels, Operand.label?,
      Address.label?, move, mem_labels_fixed]
  | .var ht hs, he => by
    obtain ⟨v, hd, _⟩ := he _ (Expr.mem_nodes_self _)
    have hl := hp.storage hs hd
    rw [every_code, List.forall_mem_singleton]
    split <;> simpa [Resolved, Instr.labels, load, Operand.label?] using hl
  | .decay hs, he => by
    obtain ⟨v, _, _, hd, _⟩ := he _ (Expr.mem_nodes_self _)
    simpa [every_code, Resolved, Instr.labels] using hp.storage hs hd
  | .assign ht hv, he => by
    rw [Expr.nodes, List.forall_mem_cons, List.forall_mem_append] at he
    simp [every_append, every_code, ht.resolved hp he.2.1, hv.resolved hp he.2.2, Resolved,
      Instr.labels, Operand.label?, Address.label?]
  | .binary hl hr, he => by
    rw [Expr.nodes, List.forall_mem_cons, List.forall_mem_append] at he
    simp [every_append, every_code, every_combine, hl.resolved hp he.2.1, hr.resolved hp he.2.2,
      Resolved, Instr.labels, Operand.label?, move]
  | .neg h, he => by
    rw [Expr.nodes, List.forall_mem_cons] at he
    simp [every_append, every_code, h.resolved hp he.2, Resolved, Instr.labels]
  | .address h, he => by
    rw [Expr.nodes, List.forall_mem_cons] at he
    exact h.resolved hp he.2
  | .deref h, he => by
    rw [Expr.nodes, List.forall_mem_cons] at he
    simp [every_append, every_code, h.resolved hp he.2, Resolved, Instr.labels, load,
      Operand.label?, Address.label?]
  | .index h, he => by
    simp [every_append, every_code, h.resolved hp he, Resolved, Instr.labels, load,
      Operand.label?, Address.label?]
  | .call h, he => by
    rw [Expr.nodes, List.forall_mem_cons] at he
    obtain ⟨g, hg, hx, _⟩ := he.1
    have hcall := hx ▸ hp.functions g hg
    rw [every_append, every_code]
    refine ⟨h.resolved hp he.2, ?_⟩
    split <;> simp [Resolved, Instr.labels, Operand.label?, hcall]

theorem EmitsAddress.resolved (hp : Provides p a) {e : Expr} {c : Code} :
    EmitsAddress a frame e c → (∀ x ∈ e.nodes, x.LinkedIn p f) → Every (Resolved a block) c
  | .var hs, he => by
    obtain ⟨v, hd, _⟩ := he _ (Expr.mem_nodes_self _)
    simpa [every_code, Resolved, Instr.labels] using hp.storage hs hd
  | .deref h, he => by
    rw [Expr.nodes, List.forall_mem_cons] at he
    exact h.resolved hp he.2
  | .index hi _ hc hb, he => by
    rw [Expr.nodes, List.forall_mem_cons, List.forall_mem_append] at he
    simp [every_append, every_code, hi.resolved hp he.2.2, hc.resolved, hb.resolved hp he.2.1,
      Resolved, Instr.labels, Operand.label?, Address.label?]

theorem EmitsArguments.resolved (hp : Provides p a) {es : List Expr} {c : Code} :
    EmitsArguments a frame es c → (∀ x ∈ Expr.nodesOfList es, x.LinkedIn p f) →
      Every (Resolved a block) c
  | .nil, _ => by simp [Every]
  | .cons h hs, he => by
    rw [Expr.nodesOfList, List.forall_mem_append] at he
    simp [every_append, every_code, h.resolved hp he.1, hs.resolved hp he.2, Resolved,
      Instr.labels, Operand.label?]

end

theorem every_unlessTrue {n : Nat} (h : .label (.numbered n) ∈ block) :
    Every (Resolved a block) (unlessTrue n) := by
  simp [unlessTrue, every_code, Resolved, Instr.labels, Operand.label?, h]

theorem formatOf_mem_labels (ty : Ty) : formatOf ty ∈ a.labels := by
  refine mem_labels_fixed ?_
  cases ty <;> simp [formatOf]

mutual

theorem EmitsStmt.resolved (hp : Provides p a) {s : Stmt} {c : Code} (hc : c ⊆ block) :
    EmitsStmt a frame s c → (∀ e ∈ s.exprs, ∀ x ∈ e.nodes, x.LinkedIn p f) →
      Every (Resolved a block) c
  | .compound h, hs => h.resolved hp hc hs
  | .ifThen he hy, hs => by
    rw [Stmt.exprs, List.forall_mem_cons] at hs
    simp only [List.append_subset, List.cons_subset] at hc
    simp only [every_append, every_label, and_true]
    exact ⟨⟨he.resolved hp hs.1, every_unlessTrue hc.2.1⟩, hy.resolved hp hc.1.2 hs.2⟩
  | .ifElse he hy hn, hs => by
    rw [Stmt.exprs, List.forall_mem_cons, List.forall_mem_append] at hs
    simp only [List.append_subset, List.cons_subset] at hc
    obtain ⟨⟨⟨⟨⟨⟨_, _⟩, hy'⟩, _⟩, hother⟩, hn'⟩, hlast⟩ := hc
    simp only [every_append, every_label, and_true]
    refine ⟨⟨⟨⟨he.resolved hp hs.1, every_unlessTrue hother.1⟩, hy.resolved hp hy' hs.2.1⟩, ?_⟩,
      hn.resolved hp hn' hs.2.2⟩
    simpa [every_code, Resolved] using hlast.1
  | .whileDo he hb, hs => by
    rw [Stmt.exprs, List.forall_mem_cons] at hs
    simp only [List.append_subset, List.cons_subset] at hc
    obtain ⟨⟨⟨⟨⟨htop, _⟩, _⟩, hb'⟩, _⟩, hlast⟩ := hc
    simp only [every_append, every_label, and_true, true_and]
    refine ⟨⟨⟨he.resolved hp hs.1, every_unlessTrue hlast.1⟩, hb.resolved hp hb' hs.2⟩, ?_⟩
    simpa [every_code, Resolved] using htop.1
  | .retNone, _ => every_epilogue
  | .retSome h, hs => every_append.2 ⟨h.resolved hp (hs _ (by simp [Stmt.exprs])), every_epilogue⟩
  | .expr h, hs => h.resolved hp (hs _ (by simp [Stmt.exprs]))
  | .write h _, hs => by
    have hv : Every (Resolved a block) _ := h.resolved hp (hs _ (by simp [Stmt.exprs]))
    simp [every_append, every_code, hv, every_libraryCall, Resolved, Instr.labels, move,
      Operand.label?, Address.label?, formatOf_mem_labels]
  | .writeln, _ => by
    simp [every_append, every_code, every_libraryCall, Resolved, Instr.labels, Address.label?,
      mem_labels_fixed]

theorem EmitsBlock.resolved (hp : Provides p a) {b : Bpl.Block} {c : Code} (hc : c ⊆ block) :
    EmitsBlock a frame b c → (∀ e ∈ b.exprs, ∀ x ∈ e.nodes, x.LinkedIn p f) →
      Every (Resolved a block) c
  | .mk h, hs => h.resolved hp hc hs

theorem EmitsStmts.resolved (hp : Provides p a) {ss : List Stmt} {c : Code} (hc : c ⊆ block) :
    EmitsStmts a frame ss c → (∀ e ∈ Stmt.exprsOfList ss, ∀ x ∈ e.nodes, x.LinkedIn p f) →
      Every (Resolved a block) c
  | .nil, _ => by simp [Every]
  | .cons h hss, hs => by
    rw [Stmt.exprsOfList, List.forall_mem_append] at hs
    rw [List.append_subset] at hc
    exact every_append.2 ⟨h.resolved hp hc.1 hs.1, hss.resolved hp hc.2 hs.2⟩

end

theorem EmitsFunction.resolved (hp : Provides p a) (hl : p.Linked) (hf : f ∈ p.functions)
    {c : Code} (h : EmitsFunction a f c) : Every (Resolved a c) c := by
  cases h with
  | @mk d hb =>
    have hbody : d ⊆ [.label (.function f.name)] ++ prologue (Frame.layout f) ++ d ++
        epilogue (Frame.layout f) := by
      intro l hl
      simp [hl]
    have hprologue : ∀ block, Every (Resolved a block) (prologue (Frame.layout f)) := by
      intro block
      rw [prologue, every_code]
      split <;> split <;> simp [Resolved, Instr.labels, Operand.label?, move]
    simp only [every_append, every_label, true_and]
    exact ⟨⟨hprologue _, hb.resolved hp hbody (hl.nodes f hf)⟩, every_epilogue⟩

end Lowering

end Bpl
