import Bpl.Proofs.Lowering.Labels

namespace Bpl

mutual

/-- The indexings in an expression, wherever they stand, in the order in which their indices are
evaluated. -/
def Expr.indexings : Expr → List Expr
  | .number .. | .string .. | .read _ | .name .. | .var .. | .decay .. => []
  | .assign _ l r | .binary _ _ l r => l.indexings ++ r.indexings
  | .unary _ _ e => e.indexings
  | .index n base i => i.indexings ++ .index n base i :: base.indexings
  | .call _ _ args => Expr.indexingsOfList args

def Expr.indexingsOfList : List Expr → List Expr
  | [] => []
  | e :: es => e.indexings ++ Expr.indexingsOfList es

end

def Block.indexings (b : Block) : List Expr :=
  b.exprs.flatMap Expr.indexings

mutual

/-- No indexing is left out. -/
theorem Expr.index_mem_indexings {n : Note} {base i : Expr} : ∀ {e : Expr},
    .index n base i ∈ e.nodes → .index n base i ∈ e.indexings
  | .number .., h | .string .., h | .read _, h | .name .., h | .var .., h | .decay .., h => by
    cases List.mem_singleton.1 h
  | .assign _ l r, h | .binary _ _ l r, h => by
    rcases List.mem_cons.1 h with h | h
    · cases h
    · rcases List.mem_append.1 h with h | h
      · exact List.mem_append_left _ (Expr.index_mem_indexings h)
      · exact List.mem_append_right _ (Expr.index_mem_indexings h)
  | .unary _ _ e, h => by
    rcases List.mem_cons.1 h with h | h
    · cases h
    · exact Expr.index_mem_indexings (e := e) h
  | .index _ l r, h => by
    rw [Expr.indexings]
    rcases List.mem_cons.1 h with h | h
    · rw [h]
      exact List.mem_append_right _ List.mem_cons_self
    · rcases List.mem_append.1 h with h | h
      · exact List.mem_append_right _ (List.mem_cons_of_mem _ (Expr.index_mem_indexings h))
      · exact List.mem_append_left _ (Expr.index_mem_indexings h)
  | .call _ _ args, h => by
    rcases List.mem_cons.1 h with h | h
    · cases h
    · rw [Expr.indexings]
      exact Expr.index_mem_indexingsOfList h

theorem Expr.index_mem_indexingsOfList {n : Note} {base i : Expr} : ∀ {es : List Expr},
    .index n base i ∈ nodesOfList es → .index n base i ∈ indexingsOfList es
  | [], h => by cases h
  | e :: es, h => by
    rcases List.mem_append.1 h with h | h
    · exact List.mem_append_left _ (Expr.index_mem_indexings h)
    · exact List.mem_append_right _ (Expr.index_mem_indexingsOfList h)

end

theorem Block.index_mem_indexings {b : Block} {e : Expr} (he : e ∈ b.exprs) {n : Note}
    {base i : Expr} (h : .index n base i ∈ e.nodes) : .index n base i ∈ b.indexings :=
  List.mem_flatMap.2 ⟨e, he, Expr.index_mem_indexings h⟩

namespace Lowering

open Asm Machine

/-- The lines of a piece of code from line `k` on that jump where a value is not below another, as
unsigned numbers. -/
def jaeLines (k : Nat) (c : Code) : List Nat :=
  (c.zipIdx k).filterMap fun
    | (.instr (.jae _), i) => some i
    | _ => none

@[simp] theorem jaeLines_append (k : Nat) (c d : Code) :
    jaeLines k (c ++ d) = jaeLines k c ++ jaeLines (k + c.length) d := by
  rw [jaeLines, List.zipIdx_append, List.filterMap_append]
  rfl

@[simp] theorem jaeLines_nil (k : Nat) : jaeLines k [] = [] := rfl

@[simp] theorem jaeLines_label (k : Nat) (l : Label) (c : Code) :
    jaeLines k (.label l :: c) = jaeLines (k + 1) c := rfl

theorem jaeLines_code {k : Nat} {is : List Instr} (h : ∀ i ∈ is, ∀ l, i ≠ .jae l) :
    jaeLines k (code is) = [] := by
  induction is generalizing k with
  | nil => rfl
  | cons i is ih =>
    rw [List.forall_mem_cons] at h
    have hcode : code (i :: is) = [.instr i] ++ code is := rfl
    rw [hcode, jaeLines_append, ih h.2, List.append_nil]
    cases i with
    | jae l => exact absurd rfl (h.1 l)
    | _ => rfl

@[simp] theorem jaeLines_combine (k : Nat) (op : BinaryOp) : jaeLines k (combine op) = [] := by
  cases op <;> rfl

@[simp] theorem jaeLines_libraryCall (k : Nat) (r : Routine) : jaeLines k (libraryCall r) = [] :=
  rfl

@[simp] theorem jaeLines_unlessTrue (k n : Nat) : jaeLines k (unlessTrue n) = [] := rfl

@[simp] theorem jaeLines_epilogue (k : Nat) (frame : Frame) :
    jaeLines k (epilogue frame) = [] := by
  unfold epilogue
  split <;> rfl

@[simp] theorem jaeLines_prologue (k : Nat) (frame : Frame) :
    jaeLines k (prologue frame) = [] := by
  unfold prologue
  split <;> split <;> rfl

variable {a : Assembly} {frame : Frame}

/-- `Site a frame x k`: at line `k` of the program the index of the indexing `x` is evaluated. What
follows is the check for the type of its base, and then the code of the base itself. -/
inductive Site (a : Assembly) (frame : Frame) : Expr → Nat → Prop
  | mk {n : Note} {base i : Expr} {ty : Ty} {c check d : Code} {j : Nat} :
      EmitsValue a frame i c → base.ty? = some ty → Checks a ty check → EmitsValue a frame base d →
      CodeAt a j (c ++ check ++ code [.push (.reg .rax)] ++ d ++
        code [.pop .rcx, .lea (.element .rax .rcx) .rax]) →
        Site a frame (.index n base i) (j + c.length)

/-- The jump that guards an indexing into an array. One through a pointer has none. -/
def guardLines (x : Expr) (k : Nat) : List Nat :=
  if x.indexesArray then [k + 2] else []

/-- Indexings have their sites in a program, and their guards are the given lines. -/
def Sites (a : Assembly) (frame : Frame) (xs : List Expr) (lines : List Nat) : Prop :=
  ∃ ks, List.Forall₂ (Site a frame) xs ks ∧ lines = (List.zipWith guardLines xs ks).flatten

theorem Sites.nil : Sites a frame [] [] :=
  ⟨[], .nil, rfl⟩

theorem Sites.single {x : Expr} {k : Nat} (h : Site a frame x k) :
    Sites a frame [x] (guardLines x k) :=
  ⟨[k], .cons h .nil, (List.append_nil _).symm⟩

theorem Sites.append {xs ys : List Expr} {lines lines' : List Nat} (h : Sites a frame xs lines)
    (h' : Sites a frame ys lines') : Sites a frame (xs ++ ys) (lines ++ lines') := by
  obtain ⟨ks, hks, rfl⟩ := h
  obtain ⟨ks', hks', rfl⟩ := h'
  refine ⟨ks ++ ks', List.rel_append hks hks', ?_⟩
  rw [List.zipWith_append hks.length_eq, List.flatten_append]

theorem Sites.exists_site {xs : List Expr} {lines : List Nat} (h : Sites a frame xs lines)
    {x : Expr} (hx : x ∈ xs) : ∃ k, Site a frame x k := by
  obtain ⟨ks, hks, _⟩ := h
  obtain ⟨k, _, hk⟩ := hks.exists_of_mem_left hx
  exact ⟨k, hk⟩

/-- There is one guard for each indexing into an array. -/
theorem Sites.length_eq {xs : List Expr} {lines : List Nat} (h : Sites a frame xs lines) :
    lines.length = xs.countP Expr.indexesArray := by
  obtain ⟨ks, hks, rfl⟩ := h
  induction hks with
  | nil => rfl
  | @cons x k xs ks _ _ ih =>
    rw [List.zipWith_cons_cons, List.flatten_cons, List.length_append, ih, List.countP_cons,
      guardLines]
    split <;> simp [Nat.add_comm]

theorem Checks.jaeLines {ty : Ty} {check : Code} (h : Checks a ty check) {base : Expr}
    (ht : base.ty? = some ty) (n : Note) (i : Expr) (k : Nat) :
    jaeLines k check = guardLines (.index n base i) k := by
  rw [guardLines, Expr.indexesArray, ht, Option.any_some]
  cases h with
  | array _ => rfl
  | other h =>
    rw [h]
    rfl

mutual

/-- The unsigned jumps in the code of an expression are the guards of its indexings. -/
theorem EmitsValue.sites {e : Expr} {c : Code} {k : Nat} (h : EmitsValue a frame e c)
    (hc : CodeAt a k c) : Sites a frame e.indexings (jaeLines k c) := by
  match h with
  | .number | .string _ | .read | .decay _ => exact Sites.nil
  | .var _ _ =>
    rw [jaeLines_code]
    · exact Sites.nil
    · rw [List.forall_mem_singleton]
      split <;> simp [load]
  | .assign ht hv =>
    repeat rw [codeAt_append] at hc
    simpa [Expr.indexings, jaeLines_code, Nat.add_assoc] using
      (ht.sites hc.1.1.1).append (hv.sites hc.1.2)
  | .binary hl hr =>
    repeat rw [codeAt_append] at hc
    simpa [Expr.indexings, jaeLines_code, move, Nat.add_assoc] using
      (hl.sites hc.1.1.1.1).append (hr.sites hc.1.1.2)
  | .neg h | .deref h =>
    simpa [Expr.indexings, jaeLines_code, load] using h.sites (codeAt_append.1 hc).1
  | .address h => exact h.sites hc
  | .index h =>
    simpa [jaeLines_code, load] using h.sites (codeAt_append.1 hc).1
  | .call h =>
    have hsites := h.sites (codeAt_append.1 hc).1
    rw [jaeLines_append, jaeLines_code, List.append_nil]
    · exact hsites
    · split <;> simp

theorem EmitsAddress.sites {e : Expr} {c : Code} {k : Nat} (h : EmitsAddress a frame e c)
    (hc : CodeAt a k c) : Sites a frame e.indexings (jaeLines k c) := by
  match h with
  | .var _ => exact Sites.nil
  | .deref h => exact h.sites hc
  | .index (n := n) hi ht hck hb =>
    have hsite := Sites.single (Site.mk (n := n) hi ht hck hb hc)
    rw [← hck.jaeLines ht] at hsite
    repeat rw [codeAt_append] at hc
    have hbase := hb.sites hc.1.2
    simpa [Expr.indexings, jaeLines_code, Nat.add_assoc] using
      (hi.sites hc.1.1.1.1).append (hsite.append hbase)

theorem EmitsArguments.sites {es : List Expr} {c : Code} {k : Nat}
    (h : EmitsArguments a frame es c) (hc : CodeAt a k c) :
    Sites a frame (Expr.indexingsOfList es) (jaeLines k c) := by
  match h with
  | .nil => exact Sites.nil
  | .cons h hs =>
    repeat rw [codeAt_append] at hc
    simpa [Expr.indexingsOfList, jaeLines_code, Nat.add_assoc] using
      (h.sites hc.1.1).append (hs.sites hc.2)

end

mutual

theorem EmitsStmt.sites {s : Stmt} {c : Code} {k : Nat} (h : EmitsStmt a frame s c)
    (hc : CodeAt a k c) : Sites a frame (s.exprs.flatMap Expr.indexings) (jaeLines k c) := by
  match h with
  | .compound h => exact h.sites hc
  | .ifThen he hy =>
    repeat rw [codeAt_append] at hc
    simpa [Stmt.exprs, Nat.add_assoc] using (he.sites hc.1.1.1).append (hy.sites hc.1.2)
  | .ifElse he hy hn =>
    repeat rw [codeAt_append] at hc
    have hyes := hy.sites hc.1.1.1.1.2
    simpa [Stmt.exprs, jaeLines_code, Nat.add_assoc] using
      (he.sites hc.1.1.1.1.1.1).append (hyes.append (hn.sites hc.1.2))
  | .whileDo he hb =>
    repeat rw [codeAt_append] at hc
    simpa [Stmt.exprs, jaeLines_code, Nat.add_assoc, Nat.add_comm, Nat.add_left_comm] using
      (he.sites hc.1.1.1.1.2).append (hb.sites hc.1.1.2)
  | .retNone =>
    rw [jaeLines_epilogue]
    exact Sites.nil
  | .retSome h =>
    simpa [Stmt.exprs] using h.sites (codeAt_append.1 hc).1
  | .expr h =>
    simpa [Stmt.exprs] using h.sites hc
  | .write h _ =>
    repeat rw [codeAt_append] at hc
    simpa [Stmt.exprs, jaeLines_code, move, Nat.add_assoc] using h.sites hc.1.1
  | .writeln => exact Sites.nil

theorem EmitsBlock.sites {b : Bpl.Block} {c : Code} {k : Nat} (h : EmitsBlock a frame b c)
    (hc : CodeAt a k c) : Sites a frame b.indexings (jaeLines k c) := by
  match h with
  | .mk h => exact h.sites hc

theorem EmitsStmts.sites {ss : List Stmt} {c : Code} {k : Nat} (h : EmitsStmts a frame ss c)
    (hc : CodeAt a k c) :
    Sites a frame ((Stmt.exprsOfList ss).flatMap Expr.indexings) (jaeLines k c) := by
  match h with
  | .nil => exact Sites.nil
  | .cons h hs =>
    rw [codeAt_append] at hc
    simpa [Stmt.exprsOfList] using (h.sites hc.1).append (hs.sites hc.2)

end

/-- The unsigned jumps in the code of a function are the guards of the indexings into arrays in its
body, one for each and in their order. -/
theorem EmitsFunction.sites {f : Function} {c : Code} {k : Nat} (h : EmitsFunction a f c)
    (hc : CodeAt a k c) : Sites a (Frame.layout f) f.body.indexings (jaeLines k c) := by
  cases h with
  | mk hb =>
    repeat rw [codeAt_append] at hc
    simpa [Nat.add_assoc, Nat.add_comm] using hb.sites hc.1.2

end Lowering

end Bpl
