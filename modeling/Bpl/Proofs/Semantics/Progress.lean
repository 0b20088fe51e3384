import Bpl.Proofs.Semantics.Safe

namespace Bpl

open Typing

/-- A base type or an array of one. -/
def Ty.isFlat : Ty → Bool
  | .array t _ => t.isBase
  | t => t.isBase

theorem Ty.isFlat_of_isDeclared {t : Ty} (h : t.isDeclared = true) (hp : t.isPointer = false) :
    t.isFlat = true := by
  cases t with
  | pointer => cases hp
  | _ => exact h

/-- A type without pointers is a base type or that of an array. -/
theorem Ty.isFlat_iff {t : Ty} :
    t.isFlat = true ↔ t.isBase = true ∨ ∃ u n, t = .array u n ∧ u.isBase = true := by
  cases t <;> simp [Ty.isFlat, Ty.isBase]

theorem Ty.base?_of_isBase {t : Ty} (h : t.isBase = true) : t.base? = none := by
  cases t <;> first | rfl | cases h

/-- A checked program that makes no use of pointers: all its types are flat, and the bodies of its
functions come from bodies without pointers. -/
structure Program.Flat (p q : Program) : Prop where
  linked : q.Linked
  declared : ∀ f ∈ q.functions, ∀ x slot v, q.Declares f x slot v → v.ty.isFlat = true
  results : ∀ f ∈ q.functions, f.result.isBase = true
  functions : ∀ v ∈ q.globals, v.ty.isFunction = false
  program : ∀ d ∈ p, ∃ d' ∈ q, d'.name = d.name ∧ d'.ty = d.ty
  bodies : ∀ f ∈ q.functions, ∃ b, AllowsBlock ⟨p, f.params, f.result⟩ [] b f.body ∧
    b.locals = f.locals ∧ ∀ e ∈ b.exprs, e.PointerFree

namespace Program.Flat

variable {p q : Program}

theorem of_derives (h : p.Derives q) (hp : p.Plain) (hfree : p.PointerFree) : p.Flat q := by
  refine ⟨h.linked hp, ?_, ?_, h.isFunction_globals hp, ?_, ?_⟩
  · intro f hf x slot v hv
    have hown : ∀ v ∈ f.params ++ f.locals, v.ty.isFlat = true := by
      obtain ⟨d, hd, j⟩ := h.decls.exists_of_mem_right (mem_functions.1 hf)
      cases j with
      | function _ _ _ _ =>
        obtain ⟨_, hparams, hlocals⟩ := hp _ hd
        intro v hv
        refine Ty.isFlat_of_isDeclared ?_ ((hfree _ hd).2.1 v hv)
        rcases List.mem_append.1 hv with hv | hv
        · exact Ty.isDeclared_of_isSpec (hparams v hv)
        · exact hlocals v hv
    cases hv with
    | global hv _ =>
      obtain ⟨d, hd, j⟩ := h.decls.exists_of_mem_right (mem_globals.1 hv)
      cases j with
      | var _ => exact Ty.isFlat_of_isDeclared (hp _ hd) (hfree _ hd)
    | parameter hv => exact hown v (List.mem_append_left _ (List.mem_of_getElem? hv))
    | localVar hv => exact hown v (List.mem_append_right _ (List.mem_of_getElem? hv))
  · intro f hf
    obtain ⟨d, hd, j⟩ := h.decls.exists_of_mem_right (mem_functions.1 hf)
    cases j with
    | @function g _ _ _ _ _ =>
      have hs := (hp _ hd).1
      have hr := (hfree _ hd).1
      change g.result.isBase = true
      cases ht : g.result with
      | pointer => rw [ht] at hr; cases hr
      | _ => rw [ht] at hs; exact hs
  · intro d hd
    obtain ⟨d', hd', j⟩ := h.decls.exists_of_mem_left hd
    exact ⟨d', hd', j.name, j.ty⟩
  · intro f hf
    obtain ⟨d, hd, j⟩ := h.decls.exists_of_mem_right (mem_functions.1 hf)
    cases j with
    | @function g _ _ _ _ j => exact ⟨g.body, j, rfl, (hfree _ hd).2.2⟩

variable {f : Function} {w : View}

/-- In a program without pointers an expression has a base type, or it is the name of an array. -/
theorem isBase_or_name (hq : p.Flat q) (hf : f ∈ q.functions) (hw : w.PartOf q f) {e e' : Expr}
    {ty : Ty} {a : Bool} (j : Judges w e ty a e') (hfree : e.PointerFree) :
    ty.isBase = true ∨ ∃ n x slot t length, e' = .var n x slot ∧ n.ty = some ty ∧
      ty = .array t length ∧ t.isBase = true ∧ a = false := by
  cases j with
  | number | string | read | comparison | arithmetic | neg => exact .inl rfl
  | @name n x _ slot hs hfun =>
    obtain ⟨v, hd, _, rfl⟩ := hw.declares hs hfun
    rcases Ty.isFlat_iff.1 (hq.declared f hf x slot v hd) with h | ⟨t, length, ht, hb⟩
    · exact .inl h
    · exact .inr ⟨_, x, slot, t, length, rfl, rfl, ht, hb, by simp [ht, Ty.isArray]⟩
  | assign jt _ _ =>
    rw [Expr.PointerFree, Expr.nodes, List.forall_mem_cons, List.forall_mem_append] at hfree
    refine (hq.isBase_or_name hf hw jt hfree.2.1).imp_right ?_
    rintro ⟨_, _, _, _, _, _, _, _, _, ha⟩
    cases ha
  | address => exact absurd (hfree _ (Expr.mem_nodes_self _)) nofun
  | deref => exact absurd (hfree _ (Expr.mem_nodes_self _)) nofun
  | index jb hbase _ =>
    rw [Expr.PointerFree, Expr.nodes, List.forall_mem_cons, List.forall_mem_append] at hfree
    rcases hq.isBase_or_name hf hw jb hfree.2.1 with hb | ⟨_, _, _, _, _, _, _, rfl, hb, _⟩
    · rw [Ty.base?_of_isBase hb] at hbase
      cases hbase
    · cases hbase
      exact .inl hb
  | call hd hty _ =>
    obtain ⟨g, hg, _, _, rfl⟩ := hw.function hd hty hq.functions
    exact .inl (hq.results g hg)

end Program.Flat

namespace Semantics

variable {p q : Program} {f g : Function} {w : View} {order : String → Int64}
  {fuel depth : Nat} {m : Store}

/-- The word that a cell names is one of a variable of the call, and holds values of a type. -/
def Names (q : Program) (f : Function) (ty : Ty) (c : Cell) : Prop :=
  ∃ x slot v i, c = slot.cell x i ∧ q.Declares f x slot v ∧ v.ty.word = ty

/-- With some fuel, no part of a call gets stuck. -/
structure Progresses (p q : Program) (order : String → Int64) (fuel : Nat) : Prop where
  value : ∀ {depth f w e e' ty a m}, f ∈ q.functions → w.PartOf q f → Judges w e ty a e' →
    e.PointerFree → WellTyped q f m.cells →
      Safe q f (fun v => ∀ y, v = some y → Of ty y) ((value q order fuel depth e').run m)
  place : ∀ {depth f w e e' ty m}, f ∈ q.functions → w.PartOf q f → Judges w e ty true e' →
    e.PointerFree → WellTyped q f m.cells →
      Safe q f (Names q f ty) ((place q order fuel depth e').run m)
  arguments : ∀ {depth f w es es' tys m}, f ∈ q.functions → w.PartOf q f → PassesAll w es tys es' →
    (∀ ty ∈ tys, ty.isPointer = false) → (∀ x ∈ Expr.nodesOfList es, x.isPointerOp = false) →
      WellTyped q f m.cells →
        Safe q f (List.Forall₂ Of tys) ((arguments q order fuel depth es').run m)
  stmt : ∀ {depth f c ls s s' m}, f ∈ q.functions → Setting.PartOf c q f →
    ls ++ s.locals <+: f.locals → Allows c ls s s' → (∀ e ∈ s.exprs, e.PointerFree) →
      WellTyped q f m.cells →
        Safe q f (fun r => ∀ y, r = some (some y) → Of c.result y)
          ((stmt q order fuel depth s').run m)
  block : ∀ {depth f c ls b b' m}, f ∈ q.functions → Setting.PartOf c q f →
    ls ++ b.locals <+: f.locals → AllowsBlock c ls b b' → (∀ e ∈ b.exprs, e.PointerFree) →
      WellTyped q f m.cells →
        Safe q f (fun r => ∀ y, r = some (some y) → Of c.result y)
          ((block q order fuel depth b').run m)
  stmts : ∀ {depth f c ls ss ss' m}, f ∈ q.functions → Setting.PartOf c q f →
    ls ++ Stmt.localsOfList ss <+: f.locals → AllowsAll c ls ss ss' →
      (∀ e ∈ Stmt.exprsOfList ss, e.PointerFree) → WellTyped q f m.cells →
        Safe q f (fun r => ∀ y, r = some (some y) → Of c.result y)
          ((stmts q order fuel depth ss').run m)

theorem Progresses.zero : Progresses p q order 0 where
  value := by
    intro depth f w e e' ty a m _ _ _ _ _
    rw [Semantics.value]
    exact Safe.outOfFuel
  place := by
    intro depth f w e e' ty m _ _ _ _ _
    rw [Semantics.place]
    exact Safe.outOfFuel
  arguments := by
    intro depth f w es es' tys m _ _ _ _ _ _
    rw [Semantics.arguments]
    exact Safe.outOfFuel
  stmt := by
    intro depth f c ls s s' m _ _ _ _ _ _
    rw [Semantics.stmt]
    exact Safe.outOfFuel
  block := by
    intro depth f c ls b b' m _ _ _ _ _ _
    rw [Semantics.block]
    exact Safe.outOfFuel
  stmts := by
    intro depth f c ls ss ss' m _ _ _ _ _ _
    rw [Semantics.stmts]
    exact Safe.outOfFuel

theorem Safe.fetch {c : Cell} {ty : Ty} (hc : Names q f ty c) (hm : WellTyped q f m.cells) :
    Safe q f (Of ty) ((Semantics.fetch c).run m) := by
  obtain ⟨x, slot, v, i, rfl, hd, rfl⟩ := hc
  have hr : (Semantics.fetch (slot.cell x i)).run m =
      (Semantics.needed (m.cells (slot.cell x i))).run m := rfl
  rw [hr]
  exact Safe.needed (fun y hy => hm x slot v i y hd hy) hm

/-- The body of a function is run without getting stuck. -/
theorem Progresses.body (hn : Progresses p q order fuel) (hq : p.Flat q) (hf : f ∈ q.functions)
    (hm : WellTyped q f m.cells) :
    Safe q f (fun r => ∀ y, r = some (some y) → Of f.result y)
      ((Semantics.block q order fuel depth f.body).run m) := by
  obtain ⟨b, j, hlocals, hfree⟩ := hq.bodies f hf
  refine hn.block hf ⟨hq.program, rfl⟩ ?_ j hfree hm
  rw [hlocals]
  exact List.prefix_refl _

/-- A call of a function goes on with the variables of its caller. -/
theorem safe_call {β : Type} {R : β → Prop} {x : Run (Option (Option Value))}
    {k : Option (Option Value) → Run β} {args : List Value}
    (h : Safe q g (fun r => ∀ y, r = some (some y) → Of g.result y)
      (x.run { m with cells := enter m.cells args }))
    (hm : WellTyped q f m.cells)
    (hk : ∀ r m', (∀ y, r = some (some y) → Of g.result y) → WellTyped q f m'.cells →
      Safe q f R ((k r).run m')) :
    Safe q f R ((do
      let before := (← get).cells
      modify fun s => { s with cells := enter before args }
      let r ← x
      modify fun s => { s with cells := leave before s.cells }
      k r : Run β).run m) := by
  refine Safe.get (Safe.modify ?_)
  rw [StateT.run_bind]
  cases hx : x.run { m with cells := enter m.cells args } with
  | ok r =>
    rw [hx] at h
    exact hk r.1 _ h.1 (hm.leave h.2)
  | error e =>
    rw [hx] at h
    exact h

section

variable (hn : Progresses p q order fuel) (hf : f ∈ q.functions) (hw : w.PartOf q f)
  (hm : WellTyped q f m.cells)
include hn hf hw hm

theorem safe_value (hq : p.Flat q) {e e' : Expr} {ty : Ty} {a : Bool} (j : Judges w e ty a e')
    (hfree : e.PointerFree) :
    Safe q f (fun v => ∀ y, v = some y → Of ty y) ((value q order (fuel + 1) depth e').run m) := by
  cases j with
  | number =>
    rw [value]
    exact Safe.pure (by rintro y ⟨⟩; exact .int) hm
  | string =>
    rw [value]
    exact Safe.pure (by rintro y ⟨⟩; exact .string) hm
  | read =>
    rw [value]
    refine Safe.get ?_
    split
    · exact Stop.noConfusion
    · exact Safe.modify (Safe.pure (by rintro y ⟨⟩; exact .int) hm)
  | @name n x _ slot hs hfun =>
    obtain ⟨v, hd, _, rfl⟩ := hw.declares hs hfun
    rw [value]
    split
    · exact Safe.pure nofun hm
    · next ha =>
      have hword : v.ty.word = v.ty := Ty.word_of_isArray (by simpa [Note.judged] using ha)
      refine (Safe.fetch ⟨x, slot, v, 0, rfl, hd, hword⟩ hm).bind fun y m' hy hm' => ?_
      exact Safe.pure (by rintro z ⟨⟩; exact hy) hm'
  | assign jt _ jv =>
    rw [Expr.PointerFree, Expr.nodes, List.forall_mem_cons, List.forall_mem_append] at hfree
    rw [value]
    refine (hn.place hf hw jt hfree.2.1 hm).bind fun c m₁ hc hm₁ => ?_
    refine (hn.value hf hw jv hfree.2.2 hm₁).use fun y m₂ hy hm₂ => ?_
    obtain ⟨x, slot, v, i, rfl, hd, rfl⟩ := hc
    refine Safe.modify (Safe.pure ?_ (hm₂.assign hq.linked hd hy))
    rintro z ⟨⟩
    exact hy
  | comparison hop jl _ jr =>
    rw [Expr.PointerFree, Expr.nodes, List.forall_mem_cons, List.forall_mem_append] at hfree
    rw [value]
    refine (hn.value hf hw jl hfree.2.1 hm).use fun x m₁ hx hm₁ => ?_
    refine (hn.value hf hw jr hfree.2.2 hm₁).use fun y m₂ hy hm₂ => ?_
    refine (Safe.combine hx hy (.inl hop) hm₂).bind fun z m₃ hz hm₃ => ?_
    exact Safe.pure (by rintro z ⟨⟩; exact hz) hm₃
  | arithmetic hop jl jr =>
    rw [Expr.PointerFree, Expr.nodes, List.forall_mem_cons, List.forall_mem_append] at hfree
    rw [value]
    refine (hn.value hf hw jl hfree.2.1 hm).use fun x m₁ hx hm₁ => ?_
    refine (hn.value hf hw jr hfree.2.2 hm₁).use fun y m₂ hy hm₂ => ?_
    refine (Safe.combine hx hy (.inr rfl) hm₂).bind fun z m₃ hz hm₃ => ?_
    exact Safe.pure (by rintro z ⟨⟩; exact hz) hm₃
  | neg j =>
    rw [Expr.PointerFree, Expr.nodes, List.forall_mem_cons] at hfree
    rw [value]
    refine (hn.value hf hw j hfree.2 hm).integer fun x m₁ hm₁ => ?_
    exact Safe.pure (by rintro z ⟨⟩; exact .int) hm₁
  | address => exact absurd (hfree _ (Expr.mem_nodes_self _)) nofun
  | deref => exact absurd (hfree _ (Expr.mem_nodes_self _)) nofun
  | index jb hbase ji =>
    rw [value]
    refine (hn.place hf hw (.index jb hbase ji) hfree hm).bind fun c m₁ hc hm₁ => ?_
    split
    · exact Safe.pure nofun hm₁
    · refine (Safe.fetch hc hm₁).bind fun y m₂ hy hm₂ => ?_
      exact Safe.pure (by rintro z ⟨⟩; exact hy) hm₂
  | call hd hty ja =>
    rw [Expr.PointerFree, Expr.nodes, List.forall_mem_cons] at hfree
    obtain ⟨g, hg, hname, rfl, rfl⟩ := hw.function hd hty hq.functions
    have hparams := hq.linked.params g hg
    have hflat : ∀ ty ∈ g.params.map Variable.ty, ty.isPointer = false := by
      intro ty hty
      obtain ⟨v, hv, rfl⟩ := List.mem_map.1 hty
      obtain ⟨k, hk⟩ := List.mem_iff_getElem?.1 hv
      rcases Ty.isFlat_iff.1 (hq.declared g hg v.name (.parameter k) v (.parameter hk))
        with h | ⟨_, _, h, _⟩
      · cases ht : v.ty <;> first | rfl | (rw [ht] at h; cases h)
      · rw [h]
        rfl
    -- the callee begins with parameters of their types, and leaves the cells of the caller alone
    cases depth with
    | zero =>
      rw [value]
      exact Safe.outOfFuel
    | succ depth =>
      rw [value]
      refine (hn.arguments hf hw ja hflat hfree.2 hm).bind fun vs m₁ hvs hm₁ => ?_
      rw [← hname]
      rw [hq.linked.find?_function hg]
      refine safe_call (hn.body hq hg (hm₁.enter hparams hvs)) hm₁ fun r m₂ hr hm₂ => ?_
      refine Safe.pure ?_ hm₂
      intro y hy
      split at hy
      · cases hy
      · refine hr y ?_
        cases r with
        | none => cases hy
        | some r => rw [show r = some y from hy]

theorem safe_place (hq : p.Flat q) {e e' : Expr} {ty : Ty} (j : Judges w e ty true e')
    (hfree : e.PointerFree) :
    Safe q f (Names q f ty) ((place q order (fuel + 1) depth e').run m) := by
  generalize ha : true = a at j
  cases j with
  | @name n x _ slot hs hfun =>
    obtain ⟨v, hd, _, rfl⟩ := hw.declares hs hfun
    have hword : v.ty.word = v.ty := Ty.word_of_isArray (by simpa using ha)
    rw [place]
    exact Safe.pure ⟨x, slot, v, 0, rfl, hd, hword⟩ hm
  | deref => exact absurd (hfree _ (Expr.mem_nodes_self _)) nofun
  | @index n base base' _ _ tb element _ _ jb hbase ji =>
    rw [Expr.PointerFree, Expr.nodes, List.forall_mem_cons, List.forall_mem_append] at hfree
    rcases hq.isBase_or_name hf hw jb hfree.2.1 with
      hb | ⟨nb, x, slot, t, length, rfl, hnb, rfl, hb, _⟩
    · rw [Ty.base?_of_isBase hb] at hbase
      cases hbase
    · cases hbase
      cases jb with
      | name hs hfun =>
        obtain ⟨v, hd, _, hv⟩ := hw.declares hs hfun
        rw [place, hnb]
        refine (hn.value hf hw ji hfree.2.2 hm).integer fun i m₁ hm₁ => ?_
        split
        · refine Safe.pure ⟨x, slot, v, _, rfl, hd, ?_⟩ hm₁
          rw [← hv]
          rfl
        · exact Stop.noConfusion
  | _ => cases ha

theorem safe_arguments {es es' : List Expr} {tys : List Ty} (j : PassesAll w es tys es')
    (hflat : ∀ ty ∈ tys, ty.isPointer = false)
    (hfree : ∀ x ∈ Expr.nodesOfList es, x.isPointerOp = false) :
    Safe q f (List.Forall₂ Of tys) ((arguments q order (fuel + 1) depth es').run m) := by
  cases j with
  | nil =>
    rw [arguments]
    exact Safe.pure .nil hm
  | cons j js =>
    rw [Expr.nodesOfList, List.forall_mem_append] at hfree
    rw [List.forall_mem_cons] at hflat
    cases j with
    | value j _ =>
      rw [arguments]
      refine (hn.value hf hw j hfree.1 hm).use fun y m₁ hy hm₁ => ?_
      refine (hn.arguments hf hw js hflat.2 hfree.2 hm₁).bind fun ys m₂ hys hm₂ => ?_
      exact Safe.pure (.cons hy hys) hm₂
    | decay _ => cases hflat.1

end

section

variable {c : Setting} {ls : List Variable} (hn : Progresses p q order fuel)
  (hf : f ∈ q.functions) (hc : c.PartOf q f) (hm : WellTyped q f m.cells)
include hn hf hc hm

theorem safe_stmt {s s' : Stmt} (hl : ls ++ s.locals <+: f.locals) (j : Allows c ls s s')
    (hfree : ∀ e ∈ s.exprs, e.PointerFree) :
    Safe q f (fun r => ∀ y, r = some (some y) → Of c.result y)
      ((stmt q order (fuel + 1) depth s').run m) := by
  have hw : (c.view ls).PartOf q f := hc.view hl
  cases j with
  | compound j =>
    rw [Stmt.locals] at hl
    rw [Stmt.exprs] at hfree
    rw [stmt]
    exact hn.block hf hc hl j hfree hm
  | ifThen jc jy =>
    rw [Stmt.locals] at hl
    rw [Stmt.exprs, List.forall_mem_cons] at hfree
    rw [stmt]
    refine (hn.value hf hw jc hfree.1 hm).integer fun x m₁ hm₁ => ?_
    split
    · exact Safe.pure nofun hm₁
    · exact hn.stmt hf hc hl jy hfree.2 hm₁
  | ifElse jc jy jn =>
    rw [Stmt.locals, ← List.append_assoc] at hl
    rw [Stmt.exprs, List.forall_mem_cons, List.forall_mem_append] at hfree
    rw [stmt]
    refine (hn.value hf hw jc hfree.1 hm).integer fun x m₁ hm₁ => ?_
    split
    · exact hn.stmt hf hc hl jn hfree.2.2 hm₁
    · exact hn.stmt hf hc ((List.prefix_append _ _).trans hl) jy hfree.2.1 hm₁
  | whileDo jc jb =>
    rw [Stmt.locals] at hl
    have hfree' := hfree
    rw [Stmt.exprs, List.forall_mem_cons] at hfree'
    rw [stmt]
    refine (hn.value hf hw jc hfree'.1 hm).integer fun x m₁ hm₁ => ?_
    split
    · exact Safe.pure nofun hm₁
    · refine (hn.stmt hf hc hl jb hfree'.2 hm₁).bind fun r m₂ hr hm₂ => ?_
      cases r with
      | none => exact hn.stmt hf hc (by rwa [Stmt.locals]) (.whileDo jc jb) hfree hm₂
      | some r => exact Safe.pure hr hm₂
  | retNone _ =>
    rw [stmt]
    exact Safe.pure nofun hm
  | retSome _ j =>
    rw [Stmt.exprs, List.forall_mem_singleton] at hfree
    rw [stmt]
    refine (hn.value hf hw j hfree hm).use fun y m₁ hy hm₁ => ?_
    exact Safe.pure (by rintro z ⟨⟩; exact hy) hm₁
  | expr j =>
    rw [Stmt.exprs, List.forall_mem_singleton] at hfree
    rw [stmt]
    exact (hn.value hf hw j hfree hm).bind fun _ _ _ hm₁ => Safe.pure nofun hm₁
  | write j hty =>
    rw [Stmt.exprs, List.forall_mem_singleton] at hfree
    rw [stmt, j.ty?]
    refine (hn.value hf hw j hfree hm).use fun y m₁ hy hm₁ => ?_
    rcases hty with rfl | rfl
    · cases hy
      exact Safe.modify (Safe.pure nofun hm₁)
    · cases hy
      exact Safe.modify (Safe.pure nofun hm₁)
  | writeln =>
    rw [stmt]
    exact Safe.modify (Safe.pure nofun hm)

theorem safe_stmts {ss ss' : List Stmt} (hl : ls ++ Stmt.localsOfList ss <+: f.locals)
    (j : AllowsAll c ls ss ss') (hfree : ∀ e ∈ Stmt.exprsOfList ss, e.PointerFree) :
    Safe q f (fun r => ∀ y, r = some (some y) → Of c.result y)
      ((stmts q order (fuel + 1) depth ss').run m) := by
  cases j with
  | nil =>
    rw [stmts]
    exact Safe.pure nofun hm
  | cons j js =>
    rw [Stmt.localsOfList, ← List.append_assoc] at hl
    rw [Stmt.exprsOfList, List.forall_mem_append] at hfree
    rw [stmts]
    have hprefix := (List.prefix_append _ _).trans hl
    refine (hn.stmt hf hc hprefix j hfree.1 hm).bind fun r m₁ hr hm₁ => ?_
    cases r with
    | none => exact hn.stmts hf hc hl js hfree.2 hm₁
    | some r => exact Safe.pure hr hm₁

end

/-- With more fuel, one more layer of the tree is run without getting stuck. -/
theorem Progresses.succ (hq : p.Flat q) (hn : Progresses p q order fuel) :
    Progresses p q order (fuel + 1) where
  value := fun hf hw j hfree hm => safe_value hn hf hw hm hq j hfree
  place := fun hf hw j hfree hm => safe_place hn hf hw hm hq j hfree
  arguments := fun hf hw j hflat hfree hm => safe_arguments hn hf hw hm j hflat hfree
  stmt := fun hf hc hl j hfree hm => safe_stmt hn hf hc hm hl j hfree
  block := by
    intro depth f c ls b b' m hf hc hl j hfree hm
    cases j with
    | mk j =>
      rw [Block.locals, ← List.append_assoc] at hl
      rw [Block.exprs] at hfree
      rw [Semantics.block]
      exact hn.stmts hf hc hl j hfree hm
  stmts := fun hf hc hl j hfree hm => safe_stmts hn hf hc hm hl j hfree

theorem progresses (hq : p.Flat q) : ∀ fuel, Progresses p q order fuel
  | 0 => .zero
  | fuel + 1 => (progresses hq fuel).succ hq

end Semantics

/-- A program without pointers that keeps the rules of the language never gets stuck. -/
theorem Program.Flat.interpret_ne_stuck {p q : Program} (hq : p.Flat q) (order : String → Int64)
    (fuel depth : Nat) (input : List Int64) :
    q.interpret order fuel depth input ≠ .error .stuck := by
  obtain ⟨main, hmain, hname, _⟩ := hq.linked.main
  rw [interpret]
  cases hfind : q.functions.find? Function.isMain with
  | none =>
    have := List.find?_eq_none.1 hfind main hmain
    simp [Function.isMain, hname] at this
  | some f =>
    have hn : Semantics.Progresses p q order fuel := Semantics.progresses hq fuel
    have hrun : Semantics.Safe q f _ ((Semantics.block q order fuel depth f.body).run
        ⟨Semantics.initial q, input, []⟩) :=
      hn.body hq (List.mem_of_find?_eq_some hfind) (.initial hq.linked)
    dsimp only
    cases hr : (Semantics.block q order fuel depth f.body).run ⟨Semantics.initial q, input, []⟩ with
    | ok r => nofun
    | error e =>
      rw [hr] at hrun
      rintro ⟨⟩
      exact hrun rfl

end Bpl
