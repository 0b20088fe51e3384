import Bpl.Proofs.Lowering.Labels
import Bpl.Proofs.Tree.Literals

namespace Bpl.Lowering

open Asm

variable {α β : Type} {ls ms : List String} {frame : Frame} {a : Assembly}

/-- A generation of code that comes upon the string literals `ls`, in this order: where the table of
strings held those of `seen` in the order in which they first occurred, it holds those of `ls` too
afterwards. -/
def Interns (ls : List String) (x : Lower α) : Prop :=
  ∀ l b l', x.run l = .ok (b, l') → ∀ seen : List String,
    l.strings.map Prod.snd = seen.eraseDups → l'.strings.map Prod.snd = (seen ++ ls).eraseDups

theorem interns_of_keeps {x : Lower α}
    (h : ∀ l b l', x.run l = .ok (b, l') → l'.strings = l.strings) : Interns [] x := by
  intro l b l' hx seen hseen
  rw [List.append_nil, h l b l' hx, hseen]

theorem interns_pure (b : α) : Interns [] (pure b) :=
  interns_of_keeps fun l _ l' h => by rw [(run_pure_eq_ok.1 h).2]

theorem interns_throw (f : Fault) : Interns ls (throw f : Lower α) :=
  fun _ _ _ h => (run_throw_eq_ok.1 h).elim

theorem Interns.bind {x : Lower α} {f : α → Lower β} (hx : Interns ls x)
    (hf : ∀ b, Interns ms (f b)) : Interns (ls ++ ms) (x >>= f) := by
  intro l b l' h seen hseen
  obtain ⟨c, l₁, hc, hb⟩ := run_bind_eq_ok.1 h
  rw [← List.append_assoc]
  exact hf c l₁ b l' hb _ (hx l c l₁ hc seen hseen)

theorem Interns.before {x : Lower α} {f : α → Lower β} (hx : Interns ls x)
    (hf : ∀ b, Interns [] (f b)) : Interns ls (x >>= f) := by
  have h := hx.bind hf
  rwa [List.append_nil] at h

theorem Interns.bind_pure {x : Lower α} {f : α → β} (hx : Interns ls x) :
    Interns ls (x >>= fun b => pure (f b)) :=
  hx.before fun b => interns_pure (f b)

theorem Interns.after {x : Lower α} {f : α → Lower β} (hx : Interns [] x)
    (hf : ∀ b, Interns ls (f b)) : Interns ls (x >>= f) :=
  hx.bind hf

theorem interns_newLabel : Interns [] newLabel :=
  interns_of_keeps fun l _ l' h => by rw [(run_newLabel_eq_ok.1 h).2]

/-- A string that was seen before is found, and any other one comes last. -/
theorem interns_stringLabel (s : String) : Interns [s] (stringLabel s) := by
  intro l n l' h seen hseen
  have hmem : ∀ t, t ∈ seen ↔ ∃ p ∈ l.strings, p.2 = t := by
    intro t
    rw [← List.mem_eraseDups, ← hseen, List.mem_map]
  rw [List.eraseDups_append, ← hseen]
  simp only [stringLabel, run_bind_eq_ok] at h
  obtain ⟨_, _, hg, h⟩ := h
  cases hg
  split at h
  · next m t hf =>
    obtain ⟨rfl, rfl⟩ := run_pure_eq_ok.1 h
    have ht : t = s := by simpa using List.find?_some hf
    have hs : s ∈ seen := (hmem s).2 ⟨_, List.mem_of_find?_eq_some hf, ht⟩
    simp [List.removeAll, hs]
  · next hf =>
    simp only [run_bind_eq_ok, run_newLabel_eq_ok, run_pure_eq_ok] at h
    obtain ⟨m, _, ⟨rfl, rfl⟩, _, _, hm, rfl, rfl⟩ := h
    cases hm
    have hs : s ∉ seen := by
      rw [hmem]
      rintro ⟨p, hp, rfl⟩
      have hne := List.find?_eq_none.1 hf p hp
      simp at hne
    simp [List.removeAll, hs, List.eraseDups_cons]

theorem interns_typeOf (e : Expr) : Interns [] (typeOf e) :=
  interns_of_keeps fun l _ l' h => by rw [(run_typeOf h).2]

theorem interns_storage (x : String) (slot : Slot) : Interns [] (storage frame x slot) :=
  interns_of_keeps fun l _ l' h => by rw [(run_storage h).2]

theorem interns_boundsCheck (ty : Ty) : Interns [] (boundsCheck ty) := by
  cases ty with
  | array element length =>
    refine Interns.bind_pure (interns_of_keeps fun l n l' h => ?_)
    simp only [trapLabel, run_bind_eq_ok] at h
    obtain ⟨_, _, hg, h⟩ := h
    cases hg
    split at h
    · rw [(run_pure_eq_ok.1 h).2]
    · simp only [run_bind_eq_ok, run_newLabel_eq_ok, run_pure_eq_ok] at h
      obtain ⟨m, _, ⟨rfl, rfl⟩, _, _, hm, rfl, rfl⟩ := h
      cases hm
      rfl
  | _ => exact interns_pure _

theorem interns_element {base : Expr} {indexCode baseCode : Lower Code}
    (hi : Interns ls indexCode) (hb : Interns ms baseCode) :
    Interns (ls ++ ms) (element base indexCode baseCode) :=
  hi.bind fun _ => (interns_typeOf base).after fun ty => (interns_boundsCheck ty).after fun _ =>
    hb.bind_pure

mutual

theorem interns_value (e : Expr) : Interns e.literals (value frame e) := by
  cases e with
  | number _ _ | read _ | name _ _ =>
    rw [value]
    first
    | exact interns_pure _
    | exact interns_throw _
  | string _ s =>
    rw [value]
    exact (interns_stringLabel s).bind_pure
  | var n x slot =>
    rw [value]
    exact (interns_typeOf _).after fun _ => (interns_storage x slot).bind_pure
  | decay n x slot =>
    rw [value]
    exact (interns_storage x slot).bind_pure
  | assign _ target e =>
    rw [value]
    exact (interns_address target).bind fun _ => (interns_value e).bind_pure
  | binary _ _ left right =>
    rw [value]
    exact (interns_value left).bind fun _ => (interns_value right).bind_pure
  | unary _ op e =>
    cases op with
    | neg | deref =>
      rw [value]
      exact (interns_value e).bind_pure
    | address =>
      rw [value]
      exact interns_address e
  | index _ base i =>
    rw [value]
    exact (interns_element (interns_value i) (interns_value base)).bind_pure
  | call _ _ args =>
    rw [value]
    exact (interns_arguments args).bind_pure

theorem interns_address (e : Expr) : Interns e.literals (address frame e) := by
  cases e with
  | var n x slot =>
    rw [address]
    exact (interns_storage x slot).bind_pure
  | unary _ op e =>
    cases op with
    | deref =>
      rw [address]
      exact interns_value e
    | _ =>
      rw [address]
      · exact interns_throw _
      all_goals simp
  | index _ base i =>
    rw [address]
    exact interns_element (interns_value i) (interns_value base)
  | _ =>
    rw [address]
    · exact interns_throw _
    all_goals simp

theorem interns_arguments (es : List Expr) :
    Interns (Expr.literalsOfList es) (arguments frame es) := by
  cases es with
  | nil =>
    rw [arguments]
    exact interns_pure _
  | cons e es =>
    rw [arguments]
    exact (interns_value e).bind fun _ => (interns_arguments es).bind_pure

end

mutual

theorem interns_stmt (s : Stmt) : Interns (s.exprs.flatMap Expr.literals) (stmt frame s) := by
  cases s with
  | compound _ b =>
    rw [stmt]
    exact interns_block b
  | ifThen _ e yes =>
    rw [stmt]
    exact (interns_value e).bind fun _ => interns_newLabel.after fun _ =>
      (interns_stmt yes).bind_pure
  | ifElse _ e yes no =>
    rw [stmt, Stmt.exprs, List.flatMap_cons, List.flatMap_append]
    exact (interns_value e).bind fun _ => interns_newLabel.after fun _ =>
      interns_newLabel.after fun _ => (interns_stmt yes).bind fun _ => (interns_stmt no).bind_pure
  | whileDo _ e body =>
    rw [stmt]
    exact interns_newLabel.after fun _ => interns_newLabel.after fun _ =>
      (interns_value e).bind fun _ => (interns_stmt body).bind_pure
  | ret _ e =>
    cases e with
    | none =>
      rw [stmt]
      exact interns_pure _
    | some e =>
      rw [stmt, Stmt.exprs, List.flatMap_singleton]
      exact (interns_value e).bind_pure
  | expr _ e =>
    rw [stmt, Stmt.exprs, List.flatMap_singleton]
    exact interns_value e
  | write _ e =>
    rw [stmt, Stmt.exprs, List.flatMap_singleton]
    exact (interns_value e).before fun _ => (interns_typeOf e).bind_pure
  | writeln _ =>
    rw [stmt]
    exact interns_pure _

theorem interns_block (b : Bpl.Block) :
    Interns (b.exprs.flatMap Expr.literals) (block frame b) := by
  cases b with
  | mk _ _ ss =>
    rw [block]
    exact interns_stmts ss

theorem interns_stmts (ss : List Stmt) :
    Interns ((Stmt.exprsOfList ss).flatMap Expr.literals) (stmts frame ss) := by
  cases ss with
  | nil =>
    rw [stmts]
    exact interns_pure _
  | cons s ss =>
    rw [stmts, Stmt.exprsOfList, List.flatMap_append]
    exact (interns_stmt s).bind fun _ => (interns_stmts ss).bind_pure

end

theorem interns_functions (fs : List Function) :
    Interns ((fs.flatMap fun f => f.body.exprs).flatMap Expr.literals) (fs.mapM function) := by
  induction fs with
  | nil => exact interns_pure _
  | cons f fs ih =>
    rw [List.mapM_cons, List.flatMap_cons, List.flatMap_append]
    exact Interns.bind (interns_block f.body).bind_pure fun _ => ih.bind_pure

/-- The table of strings holds the literals of a program in the order in which they first occur. -/
theorem strings_of_lower {p : Program} (h : p.lower = .ok a) :
    a.strings.map Prod.snd = p.literals.eraseDups := by
  obtain ⟨l, hrun, hs, _⟩ := exists_run_of_lower h
  rw [hs]
  exact interns_functions p.functions _ _ _ hrun [] rfl

/-- Strings in the table that have the same number or the same contents are the same. -/
theorem sane_of_lower {p : Program} (h : p.lower = .ok a) :
    (a.strings.map Prod.fst).Nodup ∧ (a.strings.map Prod.snd).Nodup := by
  obtain ⟨l, hrun, hs, _⟩ := exists_run_of_lower h
  have hsane := (run_functions hrun).1.sane
    ⟨by simp [Labels.empty], by simp [Labels.empty], by simp [Labels.empty]⟩
  rw [hs]
  exact ⟨hsane.numbers, hsane.contents⟩

/-- The numbers of the strings whose places a piece of code loads, in the order of the code. -/
def stringLoads (c : Code) : List Nat :=
  c.filterMap fun
    | .instr (.lea (.label (.numbered n)) _) => some n
    | _ => none

/-- A piece of code loads the places of the literals `ls` of a program, in this order. -/
def Loads (a : Assembly) (ls : List String) (c : Code) : Prop :=
  List.Forall₂ (fun s n => (n, s) ∈ a.strings) ls (stringLoads c)

variable {c d : Code}

@[simp] theorem stringLoads_append (c d : Code) :
    stringLoads (c ++ d) = stringLoads c ++ stringLoads d :=
  List.filterMap_append

theorem loads_nil (h : stringLoads c = []) : Loads a [] c := by
  rw [Loads, h]
  exact .nil

theorem Loads.append (hc : Loads a ls c) (hd : Loads a ms d) : Loads a (ls ++ ms) (c ++ d) := by
  rw [Loads, stringLoads_append]
  exact List.rel_append hc hd

theorem Loads.before (h : Loads a ls c) (hd : stringLoads d = []) : Loads a ls (c ++ d) := by
  rw [Loads, stringLoads_append, hd, List.append_nil]
  exact h

theorem Loads.after (h : Loads a ls c) (hd : stringLoads d = []) : Loads a ls (d ++ c) := by
  rw [Loads, stringLoads_append, hd, List.nil_append]
  exact h

theorem stringLoads_lea_storage {x : String} {slot : Slot} {place : Address}
    (h : storage? frame x slot = some place) (r : Reg) :
    stringLoads (code [.lea place r]) = [] := by
  cases slot with
  | global =>
    cases h
    rfl
  | parameter i | localVar i =>
    obtain ⟨o, _, rfl⟩ := Option.map_eq_some_iff.1 h
    rfl

theorem stringLoads_combine (op : BinaryOp) : stringLoads (combine op) = [] := by
  cases op <;> rfl

theorem Checks.stringLoads {ty : Ty} (h : Checks a ty c) : Lowering.stringLoads c = [] := by
  cases h <;> rfl

mutual

theorem EmitsValue.loads {e : Expr} {c : Code} (h : EmitsValue a frame e c) :
    Loads a e.literals c := by
  cases h with
  | number | read => exact loads_nil rfl
  | string hs => exact .cons hs .nil
  | var ht hs =>
    refine loads_nil ?_
    split
    · exact stringLoads_lea_storage hs .rax
    · rfl
  | decay hs => exact loads_nil (stringLoads_lea_storage hs .rax)
  | assign ht hv => exact ((ht.loads.before rfl).append hv.loads).before rfl
  | binary hl hr =>
    exact (((hl.loads.before rfl).append hr.loads).before rfl).before (stringLoads_combine _)
  | neg h | deref h => exact h.loads.before rfl
  | address h => exact h.loads
  | index h => exact h.loads.before rfl
  | call h =>
    refine h.loads.before ?_
    split <;> rfl

theorem EmitsAddress.loads {e : Expr} {c : Code} (h : EmitsAddress a frame e c) :
    Loads a e.literals c := by
  cases h with
  | var hs => exact loads_nil (stringLoads_lea_storage hs .rax)
  | deref h => exact h.loads
  | index hi _ hc hb =>
    exact (((hi.loads.before hc.stringLoads).before rfl).append hb.loads).before rfl

theorem EmitsArguments.loads {es : List Expr} {c : Code} (h : EmitsArguments a frame es c) :
    Loads a (Expr.literalsOfList es) c := by
  cases h with
  | nil => exact loads_nil rfl
  | cons h hs => exact (h.loads.before rfl).append hs.loads

end

theorem stringLoads_epilogue : stringLoads (epilogue frame) = [] := by
  unfold epilogue
  split <;> rfl

theorem stringLoads_entry (l : Label) : stringLoads ([.label l] ++ prologue frame) = [] := by
  unfold prologue
  split <;> split <;> rfl

mutual

theorem EmitsStmt.loads {s : Stmt} {c : Code} (h : EmitsStmt a frame s c) :
    Loads a (s.exprs.flatMap Expr.literals) c := by
  cases h with
  | compound h => exact h.loads
  | ifThen he hy => exact (((he.loads.before rfl).append hy.loads).before rfl)
  | ifElse he hy hn =>
    rw [Stmt.exprs, List.flatMap_cons, List.flatMap_append, ← List.append_assoc]
    exact ((((((he.loads.before rfl).append hy.loads).before rfl).before rfl).append
      hn.loads).before rfl)
  | whileDo he hb =>
    exact (((((he.loads.after rfl).before rfl).append hb.loads).before rfl).before rfl)
  | retNone => exact loads_nil stringLoads_epilogue
  | retSome h =>
    rw [Stmt.exprs, List.flatMap_singleton]
    exact h.loads.before stringLoads_epilogue
  | expr h =>
    rw [Stmt.exprs, List.flatMap_singleton]
    exact h.loads
  | write h _ =>
    rw [Stmt.exprs, List.flatMap_singleton]
    refine (h.loads.before ?_).before rfl
    unfold formatOf
    split <;> rfl
  | writeln => exact loads_nil rfl

theorem EmitsBlock.loads {b : Bpl.Block} {c : Code} (h : EmitsBlock a frame b c) :
    Loads a (b.exprs.flatMap Expr.literals) c := by
  cases h with
  | mk h => exact h.loads

theorem EmitsStmts.loads {ss : List Stmt} {c : Code} (h : EmitsStmts a frame ss c) :
    Loads a ((Stmt.exprsOfList ss).flatMap Expr.literals) c := by
  cases h with
  | nil => exact loads_nil rfl
  | cons h hs =>
    rw [Stmt.exprsOfList, List.flatMap_append]
    exact h.loads.append hs.loads

end

theorem loads_functions {fs : List Function} {cs : List Code}
    (h : List.Forall₂ (EmitsFunction a) fs cs) :
    Loads a ((fs.flatMap fun f => f.body.exprs).flatMap Expr.literals) cs.flatten := by
  induction h with
  | nil => exact loads_nil rfl
  | cons h _ ih =>
    rw [List.flatMap_cons, List.flatMap_append, List.flatten_cons]
    cases h with
    | mk h => exact ((h.loads.after (stringLoads_entry _)).before stringLoads_epilogue).append ih

/-- For each literal of a program, its code loads the place of a string with these contents. -/
theorem loads_of_lower {p : Program} (h : p.lower = .ok a) : Loads a p.literals a.code := by
  refine (loads_functions (emits_of_lower h)).before ?_
  cases a.trap <;> rfl

end Bpl.Lowering
