import Bpl.Compile
import Bpl.Proofs.Typing.Faultless
import Bpl.Proofs.Typing.Program

namespace Bpl

namespace Lowering

variable {α β : Type}

/-- A generation of code that succeeds, whatever labels are in use. -/
def Total (x : Lower α) : Prop :=
  ∀ l, ∃ r, x.run l = .ok r

theorem total_pure (a : α) : Total (pure a) :=
  fun l => ⟨(a, l), rfl⟩

theorem Total.bind {x : Lower α} {f : α → Lower β} (hx : Total x) (hf : ∀ a, Total (f a)) :
    Total (x >>= f) := by
  intro l
  obtain ⟨⟨a, l₁⟩, ha⟩ := hx l
  obtain ⟨r, hr⟩ := hf a l₁
  refine ⟨r, ?_⟩
  rw [StateT.run_bind, ha]
  exact hr

theorem total_mapM {f : α → Lower β} {as : List α} (h : ∀ a ∈ as, Total (f a)) :
    Total (as.mapM f) := by
  induction as with
  | nil => exact total_pure _
  | cons a as ih =>
    rw [List.forall_mem_cons] at h
    rw [List.mapM_cons]
    exact h.1.bind fun _ => (ih h.2).bind fun _ => total_pure _

theorem total_newLabel : Total newLabel :=
  fun _ => ⟨_, rfl⟩

theorem total_stringLabel (contents : String) : Total (stringLabel contents) := by
  refine Total.bind (fun l => ⟨(l, l), rfl⟩) fun l => ?_
  split
  · exact total_pure _
  · exact total_newLabel.bind fun n => Total.bind (fun _ => ⟨_, rfl⟩) fun _ => total_pure _

theorem total_trapLabel : Total trapLabel := by
  refine Total.bind (fun l => ⟨(l, l), rfl⟩) fun l => ?_
  split
  · exact total_pure _
  · exact total_newLabel.bind fun n => Total.bind (fun _ => ⟨_, rfl⟩) fun _ => total_pure _

theorem total_typeOf {e : Expr} {ty : Ty} (h : e.ty? = some ty) : Total (typeOf e) := by
  rw [typeOf, h]
  exact total_pure _

theorem total_boundsCheck (ty : Ty) : Total (boundsCheck ty) := by
  unfold boundsCheck
  split
  · exact total_trapLabel.bind fun _ => total_pure _
  · exact total_pure _

theorem total_offsetAt {offsets : List Int} {i : Nat} (h : i < offsets.length) :
    Total (offsetAt offsets i) := by
  rw [offsetAt, List.getElem?_eq_getElem h]
  exact total_pure _

/-- A frame that has a place for all that a part of the function sees. -/
structure Fits (frame : Frame) (w : Typing.View) : Prop where
  params : w.params.length ≤ frame.params.length
  locals : w.locals.length ≤ frame.locals.length

variable {frame : Frame} {w : Typing.View}

theorem Fits.total_storage (h : Fits frame w) {x : String} {ty : Ty} {slot : Slot}
    (hs : w.Sees x ty slot) (name : String) : Total (storage frame name slot) := by
  cases hs with
  | parameter hi _ =>
    have hi := (List.getElem?_eq_some_iff.1 hi).1
    exact (total_offsetAt (hi.trans_le h.params)).bind fun _ => total_pure _
  | localVar hi _ =>
    have hi := (List.getElem?_eq_some_iff.1 hi).1
    exact (total_offsetAt (hi.trans_le h.locals)).bind fun _ => total_pure _
  | global => exact total_pure _

theorem total_element {base : Expr} {ty : Ty} (h : base.ty? = some ty)
    {indexCode baseCode : Lower Asm.Code} (hi : Total indexCode) (hb : Total baseCode) :
    Total (element base indexCode baseCode) :=
  hi.bind fun _ => (total_typeOf h).bind fun ty => (total_boundsCheck ty).bind fun _ =>
    hb.bind fun _ => total_pure _

open Typing

mutual

theorem total_value (h : Fits frame w) (e : Expr) {e' : Expr} {ty : Ty} {a : Bool}
    (j : Judges w e ty a e') : Total (value frame e') := by
  cases j with
  | number => rw [value]; exact total_pure _
  | string => rw [value]; exact (total_stringLabel _).bind fun _ => total_pure _
  | read => rw [value]; exact total_pure _
  | name hs _ =>
    rw [value]
    exact (total_typeOf rfl).bind fun _ => (h.total_storage hs _).bind fun _ => total_pure _
  | assign jt _ jv =>
    rw [value]
    exact (total_address h _ jt rfl).bind fun _ => (total_value h _ jv).bind fun _ => total_pure _
  | comparison _ jl _ jr =>
    rw [value]
    exact (total_value h _ jl).bind fun _ => (total_value h _ jr).bind fun _ => total_pure _
  | arithmetic _ jl jr =>
    rw [value]
    exact (total_value h _ jl).bind fun _ => (total_value h _ jr).bind fun _ => total_pure _
  | neg j =>
    rw [value]
    exact (total_value h _ j).bind fun _ => total_pure _
  | address j _ =>
    rw [value]
    exact total_address h _ j rfl
  | deref j =>
    rw [value]
    exact (total_value h _ j).bind fun _ => total_pure _
  | index jb _ ji =>
    rw [value]
    exact (total_element jb.ty? (total_value h _ ji) (total_value h _ jb)).bind fun _ =>
      total_pure _
  | call _ _ ja =>
    rw [value]
    exact (total_arguments h _ ja).bind fun _ => total_pure _

theorem total_address (h : Fits frame w) (e : Expr) {e' : Expr} {ty : Ty} {a : Bool}
    (j : Judges w e ty a e') (ha : a = true) : Total (address frame e') := by
  cases j with
  | name hs _ =>
    rw [address]
    exact (h.total_storage hs _).bind fun _ => total_pure _
  | deref j =>
    rw [address]
    exact total_value h _ j
  | index jb _ ji =>
    rw [address]
    exact total_element jb.ty? (total_value h _ ji) (total_value h _ jb)
  | _ => cases ha

theorem total_arguments (h : Fits frame w) (es : List Expr) {es' : List Expr} {tys : List Ty}
    (j : PassesAll w es tys es') : Total (arguments frame es') := by
  cases j with
  | nil => rw [arguments]; exact total_pure _
  | cons j js =>
    rw [arguments]
    cases j with
    | value j _ =>
      exact (total_value h _ j).bind fun _ => (total_arguments h _ js).bind fun _ =>
        total_pure _
    | decay hs =>
      refine Total.bind ?_ fun _ => (total_arguments h _ js).bind fun _ => total_pure _
      rw [value]
      exact (h.total_storage hs _).bind fun _ => total_pure _

end

variable {c : Setting}

theorem Fits.of_append {ls vs : List Variable} (h : Fits frame (c.view (ls ++ vs))) :
    Fits frame (c.view ls) :=
  ⟨h.params, (List.sublist_append_left ls vs).length_le.trans h.locals⟩

mutual

/-- A statement can be lowered if the frame has a place for the locals before it and its own. -/
theorem total_stmt {ls : List Variable} (s : Stmt) (h : Fits frame (c.view (ls ++ s.locals)))
    {s' : Stmt} (j : Allows c ls s s') : Total (stmt frame s') := by
  have hls : Fits frame (c.view ls) := h.of_append
  cases j with
  | compound j =>
    rw [Stmt.locals] at h
    rw [stmt]
    exact total_block _ h j
  | ifThen jc j =>
    rw [Stmt.locals] at h
    rw [stmt]
    exact (total_value hls _ jc).bind fun _ => total_newLabel.bind fun _ =>
      (total_stmt _ h j).bind fun _ => total_pure _
  | ifElse jc jy jn =>
    rw [Stmt.locals, ← List.append_assoc] at h
    rw [stmt]
    exact (total_value hls _ jc).bind fun _ => total_newLabel.bind fun _ =>
      total_newLabel.bind fun _ => (total_stmt _ h.of_append jy).bind fun _ =>
        (total_stmt _ h jn).bind fun _ => total_pure _
  | whileDo jc j =>
    rw [Stmt.locals] at h
    rw [stmt]
    exact total_newLabel.bind fun _ => total_newLabel.bind fun _ =>
      (total_value hls _ jc).bind fun _ => (total_stmt _ h j).bind fun _ => total_pure _
  | retNone => rw [stmt]; exact total_pure _
  | retSome _ j =>
    rw [stmt]
    exact (total_value hls _ j).bind fun _ => total_pure _
  | expr j =>
    rw [stmt]
    exact total_value hls _ j
  | write j _ =>
    rw [stmt]
    exact (total_value hls _ j).bind fun _ => (total_typeOf j.ty?).bind fun _ => total_pure _
  | writeln => rw [stmt]; exact total_pure _

theorem total_block {ls : List Variable} (b : Block) (h : Fits frame (c.view (ls ++ b.locals)))
    {b' : Block} (j : AllowsBlock c ls b b') : Total (block frame b') := by
  cases j with
  | mk j =>
    rw [Block.locals, ← List.append_assoc] at h
    rw [block]
    exact total_stmts _ h j

theorem total_stmts {ls : List Variable} (ss : List Stmt)
    (h : Fits frame (c.view (ls ++ Stmt.localsOfList ss))) {ss' : List Stmt}
    (j : AllowsAll c ls ss ss') : Total (stmts frame ss') := by
  cases j with
  | nil => rw [stmts]; exact total_pure _
  | cons j js =>
    rw [Stmt.localsOfList, ← List.append_assoc] at h
    rw [stmts]
    exact (total_stmt _ h.of_append j).bind fun _ => (total_stmts _ h js).bind fun _ => total_pure _

end

theorem total_function {p : Program} {d : Decl} {f : Function}
    (j : AllowsDecl p d (.function f)) : Total (function f) := by
  cases j with
  | function _ _ _ j =>
    refine Total.bind (total_block _ ?_ j) fun _ => total_pure _
    constructor
    · simp [Setting.view, Frame.layout]
    · simp [Setting.view, Frame.layout, Frame.length_localOffsets]

end Lowering

/-- The offset of a local is a sum of sizes on the way to the whole frame. -/
theorem Frame.neg_le_of_mem_localOffsets {used : Nat} {vs : List Variable} {offset : Int}
    (h : offset ∈ localOffsets used vs) : -offset ≤ used + Variable.totalSize vs := by
  induction vs generalizing used with
  | nil => cases h
  | cons v vs ih =>
    have ht : Variable.totalSize (v :: vs) = v.ty.size + Variable.totalSize vs := rfl
    rw [ht]
    rcases List.mem_cons.1 h with rfl | h
    · omega
    · have := ih h
      omega

namespace Program

/-- A program can be lowered if each of its functions can. -/
theorem exists_lower_of_total {q : Program}
    (h : ∀ f ∈ q.functions, Lowering.Total (Lowering.function f)) : ∃ a, q.lower = .ok a := by
  obtain ⟨r, hr⟩ := Lowering.total_mapM h .empty
  refine ⟨⟨r.2.strings, q.globals.map fun v => (v.name, v.ty.size), r.1, r.2.trap⟩, ?_⟩
  rw [lower, hr]
  rfl

theorem Derives.total_function {p p' : Program} (h : p.Derives p') {f : Function}
    (hf : f ∈ p'.functions) : Lowering.Total (Lowering.function f) := by
  obtain ⟨d, _, j⟩ := h.decls.exists_of_mem_right (mem_functions.1 hf)
  exact Lowering.total_function j

/-- A program that keeps the rules of the language can be lowered. -/
theorem Derives.exists_lower {p p' : Program} (h : p.Derives p') : ∃ a, p'.lower = .ok a :=
  exists_lower_of_total fun _ hf => h.total_function hf

/-- The locals of a function fit into one object. -/
theorem Derives.totalSize_le {p p' : Program} (h : p.Derives p') {f : Function}
    (hf : f ∈ p'.functions) : Variable.totalSize f.locals ≤ Ty.maxObjectSize := by
  obtain ⟨d, _, j⟩ := h.decls.exists_of_mem_right (mem_functions.1 hf)
  cases j with
  | function hv _ hfit _ =>
    rw [List.forall_mem_append] at hv
    rwa [← Typing.totalSize_eq hv.2] at hfit

/-- A program whose names are not linked yet is checked without a fault. If the check accepts it,
so is its result laid out and lowered: all that the code generator asks of a tree holds, and no
sum of sizes in a frame exceeds what a machine word can count. -/
theorem generate_of_check {p : Program} (hu : p.Unlinked) :
    (∀ f, p.check.outcome ≠ .error (.fault f)) ∧
      ∀ p', p.check.outcome = .ok p' → (∃ a, p'.generate.outcome = .ok a) ∧
        ∀ f ∈ p'.functions, (Frame.layout f).size ≤ Ty.maxSize ∧
          ∀ offset ∈ (Frame.layout f).locals, -offset ≤ Ty.maxSize := by
  refine ⟨Typing.faultless_checkAmong .empty hu, fun p' h => ?_⟩
  have hd := (Typing.check_eq_ok_iff_derives hu).1 h
  constructor
  · obtain ⟨a, ha⟩ := hd.exists_lower
    exact ⟨a, Except.mapError_eq_ok_iff.2 ha⟩
  · intro f hf
    have hs : Variable.totalSize f.locals ≤ Ty.maxSize :=
      (hd.totalSize_le hf).trans (by decide)
    refine ⟨hs, fun offset ho => ?_⟩
    have hb := Frame.neg_le_of_mem_localOffsets ho
    omega

/-- `int a[3]; void main(void) { int i; a[i] = 7; }`, with notes and locals that no check has
made. -/
def storesElement : Program :=
  let l : Location := .first
  let stale : Note := ⟨l, some .void, true⟩
  [.var ⟨"a", .array .int 3, l⟩,
    .function ⟨"main", .void, [], .mk l [⟨"i", .int, l⟩]
      [.expr l (.assign stale (.index stale (.name stale "a") (.name stale "i"))
        (.number stale 7))], l, [⟨"a", .string, l⟩]⟩]

theorem storesElement_generates : storesElement.Unlinked ∧
    (∀ f, storesElement.check.outcome ≠ .error (.fault f)) ∧
      ∃ p', storesElement.check.outcome = .ok p' ∧ (∃ a, p'.generate.outcome = .ok a) ∧
        ∀ f ∈ p'.functions, (Frame.layout f).size ≤ Ty.maxSize ∧
          ∀ offset ∈ (Frame.layout f).locals, -offset ≤ Ty.maxSize := by
  have hu : storesElement.Unlinked := by
    simp [Unlinked, exprs, functions, storesElement, Block.exprs, Stmt.exprsOfList, Stmt.exprs,
      Expr.Unlinked, Expr.nodes, Expr.isLinked]
  obtain ⟨hf, hok⟩ := generate_of_check hu
  obtain ⟨p', hp⟩ : ∃ p', storesElement.check.outcome = .ok p' := ⟨_, rfl⟩
  exact ⟨hu, hf, p', hp, hok p' hp⟩

end Program

end Bpl
