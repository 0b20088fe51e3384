import Bpl.Proofs.Lowering.Labels

namespace Bpl.Lowering

open Asm

variable {α β : Type}

/-- A generation of code that leaves the trap as it is. -/
def KeepsTrap (x : Lower α) : Prop :=
  ∀ l a l', x.run l = .ok (a, l') → l'.trap = l.trap

theorem keepsTrap_pure (a : α) : KeepsTrap (pure a) := by
  intro l b l' h
  rw [(run_pure_eq_ok.1 h).2]

theorem keepsTrap_throw (f : Fault) : KeepsTrap (throw f : Lower α) := by
  intro l b l' h
  exact (run_throw_eq_ok.1 h).elim

theorem KeepsTrap.bind {x : Lower α} {f : α → Lower β} (hx : KeepsTrap x)
    (hf : ∀ a, KeepsTrap (f a)) : KeepsTrap (x >>= f) := by
  intro l b l' h
  obtain ⟨a, l₁, ha, hb⟩ := run_bind_eq_ok.1 h
  rw [hf a l₁ b l' hb, hx l a l₁ ha]

theorem keepsTrap_newLabel : KeepsTrap newLabel := by
  intro l n l' h
  rw [(run_newLabel_eq_ok.1 h).2]

theorem keepsTrap_stringLabel (s : String) : KeepsTrap (stringLabel s) := by
  refine KeepsTrap.bind ?_ fun l => ?_
  · intro l _ l' h
    cases h
    rfl
  · split
    · exact keepsTrap_pure _
    · refine keepsTrap_newLabel.bind fun n => KeepsTrap.bind ?_ fun _ => keepsTrap_pure _
      intro l _ l' h
      cases h
      rfl

theorem keepsTrap_typeOf (e : Expr) : KeepsTrap (typeOf e) := by
  intro l ty l' h
  rw [(run_typeOf h).2]

theorem keepsTrap_storage (frame : Frame) (x : String) (slot : Slot) :
    KeepsTrap (storage frame x slot) := by
  intro l place l' h
  rw [(run_storage h).2]

theorem keepsTrap_element {n : Note} {base i : Expr} {indexCode baseCode : Lower Code}
    (h : (Expr.index n base i).indexesArray = false) (hi : KeepsTrap indexCode)
    (hb : KeepsTrap baseCode) : KeepsTrap (element base indexCode baseCode) := by
  intro l c l' hc
  simp only [element, run_bind_eq_ok, run_pure_eq_ok] at hc
  obtain ⟨_, l₁, h₁, ty, l₂, hty, _, l₃, hcheck, _, l₄, h₂, _, rfl⟩ := hc
  obtain ⟨ht, rfl⟩ := run_typeOf hty
  have harray : ty.isArray = false := by simpa [Expr.indexesArray, ht] using h
  have hkeep : KeepsTrap (boundsCheck ty) := by
    cases ty with
    | array _ _ => cases harray
    | _ => exact keepsTrap_pure _
  rw [hb _ _ _ h₂, hkeep _ _ _ hcheck, hi _ _ _ h₁]

mutual

theorem keepsTrap_value {frame : Frame} (e : Expr) (h : ∀ x ∈ e.nodes, x.indexesArray = false) :
    KeepsTrap (value frame e) := by
  cases e with
  | number _ _ | read _ | name _ _ =>
    rw [value]
    first
    | exact keepsTrap_pure _
    | exact keepsTrap_throw _
  | string _ s =>
    rw [value]
    exact (keepsTrap_stringLabel s).bind fun _ => keepsTrap_pure _
  | var n x slot =>
    rw [value]
    exact (keepsTrap_typeOf _).bind fun _ => (keepsTrap_storage frame x slot).bind fun _ =>
      keepsTrap_pure _
  | decay n x slot =>
    rw [value]
    exact (keepsTrap_storage frame x slot).bind fun _ => keepsTrap_pure _
  | assign _ target e =>
    rw [Expr.nodes, List.forall_mem_cons, List.forall_mem_append] at h
    rw [value]
    exact (keepsTrap_address target h.2.1).bind fun _ => (keepsTrap_value e h.2.2).bind fun _ =>
      keepsTrap_pure _
  | binary _ _ left right =>
    rw [Expr.nodes, List.forall_mem_cons, List.forall_mem_append] at h
    rw [value]
    exact (keepsTrap_value left h.2.1).bind fun _ => (keepsTrap_value right h.2.2).bind fun _ =>
      keepsTrap_pure _
  | unary _ op e =>
    rw [Expr.nodes, List.forall_mem_cons] at h
    cases op with
    | neg =>
      rw [value]
      exact (keepsTrap_value e h.2).bind fun _ => keepsTrap_pure _
    | address =>
      rw [value]
      exact keepsTrap_address e h.2
    | deref =>
      rw [value]
      exact (keepsTrap_value e h.2).bind fun _ => keepsTrap_pure _
  | index _ base i =>
    rw [Expr.nodes, List.forall_mem_cons, List.forall_mem_append] at h
    rw [value]
    exact (keepsTrap_element h.1 (keepsTrap_value i h.2.2) (keepsTrap_value base h.2.1)).bind
      fun _ => keepsTrap_pure _
  | call _ _ args =>
    rw [Expr.nodes, List.forall_mem_cons] at h
    rw [value]
    exact (keepsTrap_arguments args h.2).bind fun _ => keepsTrap_pure _

theorem keepsTrap_address {frame : Frame} (e : Expr)
    (h : ∀ x ∈ e.nodes, x.indexesArray = false) : KeepsTrap (address frame e) := by
  cases e with
  | var n x slot =>
    rw [address]
    exact (keepsTrap_storage frame x slot).bind fun _ => keepsTrap_pure _
  | unary _ op e =>
    rw [Expr.nodes, List.forall_mem_cons] at h
    cases op with
    | deref =>
      rw [address]
      exact keepsTrap_value e h.2
    | _ =>
      rw [address]
      · exact keepsTrap_throw _
      all_goals simp
  | index _ base i =>
    rw [Expr.nodes, List.forall_mem_cons, List.forall_mem_append] at h
    rw [address]
    exact keepsTrap_element h.1 (keepsTrap_value i h.2.2) (keepsTrap_value base h.2.1)
  | _ =>
    rw [address]
    · exact keepsTrap_throw _
    all_goals simp

theorem keepsTrap_arguments {frame : Frame} (es : List Expr)
    (h : ∀ x ∈ Expr.nodesOfList es, x.indexesArray = false) :
    KeepsTrap (arguments frame es) := by
  cases es with
  | nil =>
    rw [arguments]
    exact keepsTrap_pure _
  | cons e es =>
    rw [Expr.nodesOfList, List.forall_mem_append] at h
    rw [arguments]
    exact (keepsTrap_value e h.1).bind fun _ => (keepsTrap_arguments es h.2).bind fun _ =>
      keepsTrap_pure _

end

mutual

theorem keepsTrap_stmt {frame : Frame} (s : Stmt)
    (h : ∀ e ∈ s.exprs, ∀ x ∈ e.nodes, x.indexesArray = false) : KeepsTrap (stmt frame s) := by
  cases s with
  | compound _ b =>
    rw [stmt]
    exact keepsTrap_block b h
  | ifThen _ e yes =>
    rw [Stmt.exprs, List.forall_mem_cons] at h
    rw [stmt]
    exact (keepsTrap_value e h.1).bind fun _ => keepsTrap_newLabel.bind fun _ =>
      (keepsTrap_stmt yes h.2).bind fun _ => keepsTrap_pure _
  | ifElse _ e yes no =>
    rw [Stmt.exprs, List.forall_mem_cons, List.forall_mem_append] at h
    rw [stmt]
    exact (keepsTrap_value e h.1).bind fun _ => keepsTrap_newLabel.bind fun _ =>
      keepsTrap_newLabel.bind fun _ => (keepsTrap_stmt yes h.2.1).bind fun _ =>
        (keepsTrap_stmt no h.2.2).bind fun _ => keepsTrap_pure _
  | whileDo _ e body =>
    rw [Stmt.exprs, List.forall_mem_cons] at h
    rw [stmt]
    exact keepsTrap_newLabel.bind fun _ => keepsTrap_newLabel.bind fun _ =>
      (keepsTrap_value e h.1).bind fun _ => (keepsTrap_stmt body h.2).bind fun _ =>
        keepsTrap_pure _
  | ret _ e =>
    cases e with
    | none =>
      rw [stmt]
      exact keepsTrap_pure _
    | some e =>
      rw [stmt]
      exact (keepsTrap_value e (h e (by simp [Stmt.exprs]))).bind fun _ => keepsTrap_pure _
  | expr _ e =>
    rw [stmt]
    exact keepsTrap_value e (h e (by simp [Stmt.exprs]))
  | write _ e =>
    rw [stmt]
    exact (keepsTrap_value e (h e (by simp [Stmt.exprs]))).bind fun _ =>
      (keepsTrap_typeOf e).bind fun _ => keepsTrap_pure _
  | writeln _ =>
    rw [stmt]
    exact keepsTrap_pure _

theorem keepsTrap_block {frame : Frame} (b : Bpl.Block)
    (h : ∀ e ∈ b.exprs, ∀ x ∈ e.nodes, x.indexesArray = false) : KeepsTrap (block frame b) := by
  cases b with
  | mk _ _ ss =>
    rw [block]
    exact keepsTrap_stmts ss h

theorem keepsTrap_stmts {frame : Frame} (ss : List Stmt)
    (h : ∀ e ∈ Stmt.exprsOfList ss, ∀ x ∈ e.nodes, x.indexesArray = false) :
    KeepsTrap (stmts frame ss) := by
  cases ss with
  | nil =>
    rw [stmts]
    exact keepsTrap_pure _
  | cons s ss =>
    rw [Stmt.exprsOfList, List.forall_mem_append] at h
    rw [stmts]
    exact (keepsTrap_stmt s h.1).bind fun _ => (keepsTrap_stmts ss h.2).bind fun _ =>
      keepsTrap_pure _

end

theorem keepsTrap_functions {fs : List Function}
    (h : ∀ f ∈ fs, ∀ e ∈ f.body.exprs, ∀ x ∈ e.nodes, x.indexesArray = false) :
    KeepsTrap (fs.mapM function) := by
  induction fs with
  | nil => exact keepsTrap_pure _
  | cons f fs ih =>
    rw [List.forall_mem_cons] at h
    rw [List.mapM_cons]
    refine KeepsTrap.bind ?_ fun _ => (ih h.2).bind fun _ => keepsTrap_pure _
    exact (keepsTrap_block f.body h.1).bind fun _ => keepsTrap_pure _

end Bpl.Lowering
