import Bpl.Proofs.Stack.Statements

namespace Bpl.Stack

open Asm Lowering

/-- Reads a number into a word on the stack, and takes it from there. -/
def readCode : Code :=
  code [.op .sub (.imm 8) .rsp, move .rsp .rsi, .lea (.label .readFormat) .rdi] ++
    libraryCall .scanf ++ code [.pop .rax]

/-- Calls a function, with the frame pointer of the caller on the stack. -/
def callCode (l : Label) : Code :=
  code [.push (.reg .rbp), .call l, .pop .rbp]

/-- Instructions that leave the stack alone and are no calls. -/
def isStill : Instr → Bool
  | .call _ => false
  | x => isQuiet x

/-- `Piece frame h c k`: the code `c` is run as a whole, and takes the height of the stack from `h`
to `k`. What comes behind code that leaves the function is reached by jumps only. -/
inductive Piece (frame : Frame) : Int → Code → Int → Prop
  | still {h : Int} {x : Instr} : isStill x = true → Piece frame h (code [x]) h
  | push {h : Int} : Piece frame h (code [.push (.reg .rax)]) (h + 8)
  | pop {h : Int} {r : Reg} :
      r ≠ .rsp → r ≠ .rbp → 8 ≤ h → Piece frame h (code [.pop r]) (h - 8)
  | drop {h : Int} {k : Int64} :
      0 ≤ k.toInt → k.toInt ≤ h → k.toInt % 8 = 0 →
        Piece frame h (code [.op .add (.imm k) .rsp]) (h - k.toInt)
  | label {n : Nat} : Piece frame frame.size [.label (.numbered n)] frame.size
  | jmp {n : Nat} : Piece frame frame.size (code [.jmp (.numbered n)]) frame.size
  | je {n : Nat} : Piece frame frame.size (code [.je (.numbered n)]) frame.size
  | write {h : Int} : Piece frame h (libraryCall .printf) h
  | read {h : Int} : Piece frame h readCode h
  | call {h : Int} {x : String} : Piece frame h (callCode (.function x)) h
  | leave {h : Int} : Piece frame h (epilogue frame) frame.size

/-- Pieces of code, one behind the other, none of which begins below the frame pointer. -/
inductive Takes (frame : Frame) : Int → Code → Int → Prop
  | nil {h : Int} : Takes frame h [] h
  | cons {h m k : Int} {c d : Code} :
      0 ≤ h → Piece frame h c m → Takes frame m d k → Takes frame h (c ++ d) k

/-- Lines that stand within a piece of code, but do not begin one. -/
def isInner : Line → Bool
  | .instr (.push (.mem _)) | .instr (.push (.reg .rsp)) | .instr (.op .and _ _)
  | .instr (.clear _) | .instr (.callRoutine _) | .instr (.mov _ (.reg .rsp))
  | .instr (.mov _ (.reg .rsi)) | .instr (.lea _ .rdi) | .instr (.mov32 _ _) | .instr (.pop _)
  | .instr (.call _) | .instr .ret => true
  | _ => false

/-- Lines from which the run goes on at the next line. -/
def isPassed : Line → Bool
  | .instr (.call _) | .instr .ret | .instr (.jmp _) | .instr (.je _) | .instr (.jae _) => false
  | _ => true

variable {frame : Frame} {h m k : Int} {c d : Code}

theorem isQuiet_of_isStill {x : Instr} (hx : isStill x = true) : isQuiet x = true := by
  cases x with
  | call => cases hx
  | _ => exact hx

theorem Takes.single (hh : 0 ≤ h) (hc : Piece frame h c k) : Takes frame h c k := by
  have htakes : Takes frame h (c ++ []) k := .cons hh hc .nil
  rwa [List.append_nil] at htakes

theorem Takes.append (hc : Takes frame h c m) (hd : Takes frame m d k) :
    Takes frame h (c ++ d) k := by
  induction hc with
  | nil => exact hd
  | cons hh hp _ ih =>
    rw [List.append_assoc]
    exact .cons hh hp (ih hd)

theorem takes_still {is : List Instr} (hx : is.all isStill = true) (hh : 0 ≤ h) :
    Takes frame h (code is) h := by
  induction is with
  | nil => exact .nil
  | cons x is ih =>
    rw [List.all_cons, Bool.and_eq_true] at hx
    exact .cons hh (.still hx.1) (ih hx.2)

theorem takes_keep (hh : 0 ≤ h) : Takes frame h (code [.push (.reg .rax)]) (h + 8) :=
  .single hh .push

/-- A value is taken from the stack again. -/
theorem takes_popThen {r : Reg} {is : List Instr} (hsp : r ≠ .rsp) (hbp : r ≠ .rbp)
    (hx : is.all isStill = true) (hh : 0 ≤ h) : Takes frame (h + 8) (code (.pop r :: is)) h := by
  have hpop : Piece frame (h + 8) (code [.pop r]) (h + 8 - 8) := .pop hsp hbp (by omega)
  rw [Int.add_sub_cancel] at hpop
  exact .cons (by omega) hpop (takes_still hx hh)

/-- The end of a call, which takes its arguments away. -/
theorem takes_drop {args : List Expr} (hn : Ty.wordSize * args.length < 2 ^ 63) (hh : 0 ≤ h) :
    Takes frame (h + 8 * args.length) (code (if args.isEmpty then []
      else [.op .add (.imm (Int64.ofNat (Ty.wordSize * args.length))) .rsp])) h := by
  cases args with
  | nil =>
    rw [List.length_nil, Nat.cast_zero, Int.mul_zero, Int.add_zero]
    exact .nil
  | cons e es =>
    have hk : (Int64.ofNat (Ty.wordSize * (e :: es).length)).toInt = 8 * (e :: es).length := by
      rw [Int64.toInt_ofNat_of_lt hn, Ty.wordSize, Nat.cast_mul]
      rfl
    have hdrop : Piece frame (h + 8 * (e :: es).length) _ _ :=
      .drop (k := Int64.ofNat (Ty.wordSize * (e :: es).length)) (by omega) (by omega) (by omega)
    rw [hk, Int.add_sub_cancel] at hdrop
    exact .single (by omega) hdrop

/-- Two pieces of code of which the value of the first is kept on the stack. -/
theorem Takes.keep (hh : 0 ≤ h) (hc : Takes frame h c h) (hd : Takes frame (h + 8) d (h + 8)) :
    Takes frame h (c ++ code [.push (.reg .rax)] ++ d) (h + 8) :=
  (hc.append (takes_keep hh)).append hd

theorem takes_combine (op : BinaryOp) (hh : 0 ≤ h) : Takes frame h (combine op) h := by
  cases op <;> exact takes_still rfl hh

theorem takes_label (n : Nat) : Takes frame frame.size [.label (.numbered n)] frame.size :=
  .single (Int.natCast_nonneg _) .label

theorem takes_jmp (n : Nat) : Takes frame frame.size (code [.jmp (.numbered n)]) frame.size :=
  .single (Int.natCast_nonneg _) .jmp

theorem takes_unlessTrue (n : Nat) : Takes frame frame.size (unlessTrue n) frame.size :=
  .cons (Int.natCast_nonneg _) (.still rfl) (.single (Int.natCast_nonneg _) .je)

/-- Pieces of code take the height to where it is when the code is read line by line. -/
theorem Piece.level (hc : Piece frame h c k) : level frame.size h c = k := by
  cases hc with
  | still hx => exact after_of_height? (height?_of_isQuiet (isQuiet_of_isStill hx) h)
  | push | drop | label | jmp | je => rfl
  | @pop _ r hsp _ _ => cases r <;> first | rfl | exact absurd rfl hsp
  | write => exact level_libraryCall .printf
  | read =>
    rw [readCode, level_append, level_append, level_libraryCall]
    change h + 8 - 8 = h
    omega
  | call =>
    change h + 8 - 8 = h
    omega
  | leave =>
    unfold epilogue
    split <;> rfl

theorem Takes.level (hc : Takes frame h c k) : level frame.size h c = k := by
  induction hc with
  | nil => rfl
  | cons _ hp _ ih => rw [level_append, hp.level, ih]

theorem Piece.aligned (hc : Piece frame h c k) (hframe : (frame.size : Int) % 8 = 0)
    (hh : h % 8 = 0) : k % 8 = 0 := by
  cases hc <;> omega

theorem Takes.aligned (hc : Takes frame h c k) (hframe : (frame.size : Int) % 8 = 0)
    (hh : h % 8 = 0) : k % 8 = 0 := by
  induction hc with
  | nil => exact hh
  | cons _ hp _ ih => exact ih (hp.aligned hframe hh)

/-- The lines of a piece of code, but for the first, do not begin one. -/
theorem Piece.isInner_of_mem_tail (hc : Piece frame h c k) {x : Line} (hx : x ∈ c.tail) :
    isInner x = true := by
  revert x
  cases hc with
  | leave =>
    unfold epilogue
    split <;> simp [code, move, isInner]
  | _ => simp [code, libraryCall, readCode, callCode, load, move, isInner]

/-- Where a piece begins, the stack pointer is not above the frame pointer. -/
theorem Takes.level_nonneg (hc : Takes frame h c k) {pre post : Code} {x : Line}
    (hsplit : c = pre ++ x :: post) (hx : isInner x = false) :
    0 ≤ Stack.level frame.size h pre := by
  induction hc generalizing pre with
  | nil => simp at hsplit
  | @cons h m k c d hh hp hd ih =>
    rcases List.append_eq_append_iff.1 hsplit with ⟨rest, rfl, hrest⟩ | ⟨rest, hpre, hrest⟩
    · rw [level_append, hp.level]
      exact ih hrest
    · cases rest with
      | nil =>
        rw [List.append_nil] at hpre
        have hbegin : d = [] ++ x :: post := hrest.symm
        rw [← hpre, hp.level]
        exact ih hbegin
      | cons y rest =>
        cases hrest
        cases pre with
        | nil => exact hh
        | cons z pre =>
          rw [hp.isInner_of_mem_tail (by simp [hpre])] at hx
          cases hx

theorem Piece.length_pos (hc : Piece frame h c k) : 0 < c.length := by
  cases hc with
  | leave =>
    unfold epilogue
    split <;> decide
  | _ => simp [code, libraryCall, readCode, callCode]

/-- But for a call, only the end of a piece leads elsewhere. -/
theorem Piece.isPassed_of_mem_dropLast (hc : Piece frame h c k) {x : Line} (hx : x ∈ c.dropLast) :
    isPassed x = true ∨ ∃ l, x = .instr (.call l) := by
  revert x
  cases hc with
  | leave =>
    unfold epilogue
    split <;> simp [code, move, isPassed]
  | _ => simp [code, libraryCall, readCode, callCode, load, move, isPassed]

theorem Piece.isPassed_of_mem_take (hc : Piece frame h c k) {j : Nat} (hj : j < c.length)
    (hcalls : ∀ l, .instr (.call l) ∉ c.take j) : ∀ x ∈ c.take j, isPassed x = true := by
  intro x hx
  have hlast : x ∈ c.dropLast := by
    rw [List.dropLast_eq_take]
    exact List.take_subset_take_left c (Nat.le_sub_one_of_lt hj) hx
  rcases hc.isPassed_of_mem_dropLast hlast with hpassed | ⟨l, rfl⟩
  · exact hpassed
  · exact absurd hx (hcalls l)

/-- A call stands in the midst of its own piece. -/
theorem Piece.eq_of_call (hd : Piece frame h d k) {l : Label} {j : Nat}
    (hj : d[j]? = some (.instr (.call l))) :
    ∃ x, l = .function x ∧ d = callCode (.function x) ∧ j = 1 ∧ k = h := by
  have hmem := List.mem_of_getElem? hj
  cases hd with
  | still hx =>
    cases List.mem_singleton.1 hmem
    cases hx
  | leave =>
    exfalso
    revert hmem
    unfold epilogue
    split <;> simp [code, move]
  | @call _ x =>
    have hl : l = .function x := by simpa [callCode, code] using hmem
    rcases j with _ | _ | _ | j <;> first | exact ⟨x, hl, rfl, rfl, rfl⟩ | cases hj
  | _ => simp [code, libraryCall, readCode, load, move] at hmem

/-- A return stands at the end of the code that leaves the function. -/
theorem Piece.eq_of_ret (hd : Piece frame h d k) {j : Nat} (hj : d[j]? = some (.instr .ret)) :
    d = epilogue frame ∧ j + 1 = d.length := by
  have hmem := List.mem_of_getElem? hj
  cases hd with
  | still hx =>
    cases List.mem_singleton.1 hmem
    cases hx
  | leave =>
    refine ⟨rfl, ?_⟩
    revert hj
    unfold epilogue
    split <;> rcases j with _ | _ | _ | _ | j <;> simp [code, move]
  | _ => simp [code, libraryCall, readCode, callCode, load, move] at hmem

theorem Piece.eq_of_label (hc : Piece frame h c k) {l : Label} (hl : .label l ∈ c) :
    c = [.label l] ∧ h = frame.size := by
  cases hc with
  | label =>
    cases List.mem_singleton.1 hl
    exact ⟨rfl, rfl⟩
  | leave =>
    have hjoint := isJoint_of_mem_epilogue hl
    cases hjoint
  | _ => simp [code, libraryCall, readCode, callCode] at hl

/-- Labels stand at the height of the frame, between pieces of code. -/
theorem Takes.exists_of_label (hc : Takes frame h c k) {l : Label} (hl : .label l ∈ c) :
    ∃ before after, c = before ++ .label l :: after ∧ Takes frame h before frame.size ∧
      Takes frame frame.size (.label l :: after) k := by
  induction hc with
  | nil => cases hl
  | @cons h m k c d hh hp hd ih =>
    rcases List.mem_append.1 hl with hl | hl
    · obtain ⟨rfl, rfl⟩ := hp.eq_of_label hl
      exact ⟨[], d, rfl, .nil, .cons hh hp hd⟩
    · obtain ⟨before, after, rfl, hbefore, hafter⟩ := ih hl
      exact ⟨c ++ before, after, (List.append_assoc _ _ _).symm, .cons hh hp hbefore, hafter⟩

/-- The code begins where a piece does, whatever stands before it. -/
def Begins (c : Code) : Prop :=
  ∃ x d, c = x :: d ∧ isInner x = false

theorem Begins.append (hc : Begins c) : Begins (c ++ d) := by
  obtain ⟨x, c', rfl, hx⟩ := hc
  exact ⟨x, c' ++ d, rfl, hx⟩

end Bpl.Stack

namespace Bpl.Lowering

open Asm Stack

variable {a : Assembly} {frame : Frame} {h : Int}

theorem Checks.takes {ty : Ty} {c : Code} (hc : Checks a ty c) (hh : 0 ≤ h) :
    Takes frame h c h := by
  cases hc with
  | array _ => exact takes_still rfl hh
  | other _ => exact .nil

mutual

/-- The code of an expression is made of pieces, and leaves the height as it was. -/
theorem EmitsValue.takes {e : Expr} {c : Code} {h : Int} :
    EmitsValue a frame e c → (∀ x ∈ e.nodes, x.FewArguments) → 0 ≤ h → Takes frame h c h
  | .number, _, hh | .string _, _, hh | .decay _, _, hh => takes_still rfl hh
  | .var _ _, _, hh => by
    split <;> exact takes_still rfl hh
  | .read, _, hh => .single hh .read
  | .assign ht hv, he, hh => by
    rw [Expr.nodes, List.forall_mem_cons, List.forall_mem_append] at he
    have hboth := (ht.takes he.2.1 hh).keep hh (hv.takes he.2.2 (by omega))
    exact hboth.append (takes_popThen (by decide) (by decide) rfl hh)
  | .binary hl hr, he, hh => by
    rw [Expr.nodes, List.forall_mem_cons, List.forall_mem_append] at he
    have hboth := (hl.takes he.2.1 hh).keep hh (hr.takes he.2.2 (by omega))
    have hmoved : Takes frame (h + 8) (code [move .rax .rcx]) (h + 8) :=
      takes_still rfl (by omega)
    have hback : Takes frame (h + 8) (code [.pop .rax]) h :=
      takes_popThen (by decide) (by decide) rfl hh
    exact (hboth.append (hmoved.append hback)).append (takes_combine _ hh)
  | .neg h, he, hh | .deref h, he, hh => by
    rw [Expr.nodes, List.forall_mem_cons] at he
    exact (h.takes he.2 hh).append (takes_still rfl hh)
  | .address h, he, hh => by
    rw [Expr.nodes, List.forall_mem_cons] at he
    exact h.takes he.2 hh
  | .index h, he, hh => (h.takes he hh).append (takes_still rfl hh)
  | .call (x := x) hs, he, hh => by
    rw [Expr.nodes, List.forall_mem_cons] at he
    rw [code, List.map_append, ← List.append_assoc]
    have hcall := (hs.takes he.2 hh).append (.single (by omega) (.call (x := x)))
    exact hcall.append (takes_drop he.1 hh)

theorem EmitsAddress.takes {e : Expr} {c : Code} {h : Int} :
    EmitsAddress a frame e c → (∀ x ∈ e.nodes, x.FewArguments) → 0 ≤ h → Takes frame h c h
  | .var _, _, hh => takes_still rfl hh
  | .deref h, he, hh => by
    rw [Expr.nodes, List.forall_mem_cons] at he
    exact h.takes he.2 hh
  | .index hi _ hc hb, he, hh => by
    rw [Expr.nodes, List.forall_mem_cons, List.forall_mem_append] at he
    have hchecked := (hi.takes he.2.2 hh).append (hc.takes hh)
    have hboth := hchecked.keep hh (hb.takes he.2.1 (by omega))
    exact hboth.append (takes_popThen (by decide) (by decide) rfl hh)

theorem EmitsArguments.takes {es : List Expr} {c : Code} {h : Int} :
    EmitsArguments a frame es c → (∀ x ∈ Expr.nodesOfList es, x.FewArguments) → 0 ≤ h →
      Takes frame h c (h + 8 * es.length)
  | .nil, _, _ => by
    rw [List.length_nil, Nat.cast_zero, Int.mul_zero, Int.add_zero]
    exact .nil
  | .cons he hs, hx, hh => by
    rw [Expr.nodesOfList, List.forall_mem_append] at hx
    have hrest := hs.takes hx.2 (by omega : 0 ≤ h + 8)
    rw [List.length_cons, Nat.cast_add, Int.mul_add, Int.add_comm (8 * _), ← Int.add_assoc]
    exact ((he.takes hx.1 hh).append (takes_keep hh)).append hrest

end

mutual

theorem EmitsValue.begins {e : Expr} {c : Code} : EmitsValue a frame e c → Begins c
  | .number | .string _ | .read | .decay _ => ⟨_, _, rfl, rfl⟩
  | .var _ _ => by
    split <;> exact ⟨_, _, rfl, rfl⟩
  | .assign ht _ => ht.begins.append.append.append
  | .binary hl _ => hl.begins.append.append.append.append
  | .neg h | .deref h | .index h => h.begins.append
  | .address h => h.begins
  | .call h => h.begins

theorem EmitsAddress.begins {e : Expr} {c : Code} : EmitsAddress a frame e c → Begins c
  | .var _ => ⟨_, _, rfl, rfl⟩
  | .deref h => h.begins
  | .index hi _ _ _ => hi.begins.append.append.append.append

theorem EmitsArguments.begins {es : List Expr} {c : Code} {is : List Instr} :
    EmitsArguments a frame es c → Begins (c ++ code (.push (.reg .rbp) :: is))
  | .nil => ⟨_, _, rfl, rfl⟩
  | .cons h _ => h.begins.append.append.append

end

mutual

/-- Statements begin and end at the height of the frame. -/
theorem EmitsStmt.takes {s : Stmt} {c : Code} :
    EmitsStmt a frame s c → (∀ e ∈ s.exprs, ∀ x ∈ e.nodes, x.FewArguments) →
      Takes frame frame.size c frame.size
  | .compound h, hs => h.takes hs
  | .ifThen he hy, hs => by
    rw [Stmt.exprs, List.forall_mem_cons] at hs
    have hc : Takes frame frame.size _ frame.size := he.takes hs.1 (Int.natCast_nonneg _)
    have hd := hy.takes hs.2
    exact ((hc.append (takes_unlessTrue _)).append hd).append (takes_label _)
  | .ifElse he hy hn, hs => by
    rw [Stmt.exprs, List.forall_mem_cons, List.forall_mem_append] at hs
    have hc : Takes frame frame.size _ frame.size := he.takes hs.1 (Int.natCast_nonneg _)
    have hd := hy.takes hs.2.1
    have hd' := hn.takes hs.2.2
    refine Takes.append ?_ (takes_label _)
    refine Takes.append (Takes.append ?_ (takes_label _)) hd'
    exact ((hc.append (takes_unlessTrue _)).append hd).append (takes_jmp _)
  | .whileDo he hb, hs => by
    rw [Stmt.exprs, List.forall_mem_cons] at hs
    have hc : Takes frame frame.size _ frame.size := he.takes hs.1 (Int.natCast_nonneg _)
    have hd := hb.takes hs.2
    refine Takes.append (Takes.append ?_ (takes_jmp _)) (takes_label _)
    exact (((takes_label _).append hc).append (takes_unlessTrue _)).append hd
  | .retNone, _ => .single (Int.natCast_nonneg _) .leave
  | .retSome he, hs => by
    have hc := he.takes (h := frame.size) (hs _ (by simp [Stmt.exprs])) (Int.natCast_nonneg _)
    exact hc.append (.single (Int.natCast_nonneg _) .leave)
  | .expr he, hs => he.takes (hs _ (by simp [Stmt.exprs])) (Int.natCast_nonneg _)
  | .write he _, hs => by
    have hc : Takes frame frame.size _ frame.size :=
      he.takes (hs _ (by simp [Stmt.exprs])) (Int.natCast_nonneg _)
    refine Takes.append (hc.append (takes_still ?_ (Int.natCast_nonneg _)))
      (.single (Int.natCast_nonneg _) .write)
    rfl
  | .writeln, _ =>
    (takes_still rfl (Int.natCast_nonneg _)).append (.single (Int.natCast_nonneg _) .write)

theorem EmitsBlock.takes {b : Bpl.Block} {c : Code} :
    EmitsBlock a frame b c → (∀ e ∈ b.exprs, ∀ x ∈ e.nodes, x.FewArguments) →
      Takes frame frame.size c frame.size
  | .mk h, hs => h.takes hs

theorem EmitsStmts.takes {ss : List Stmt} {c : Code} :
    EmitsStmts a frame ss c → (∀ e ∈ Stmt.exprsOfList ss, ∀ x ∈ e.nodes, x.FewArguments) →
      Takes frame frame.size c frame.size
  | .nil, _ => .nil
  | .cons h hss, hs => by
    rw [Stmt.exprsOfList, List.forall_mem_append] at hs
    exact (h.takes hs.1).append (hss.takes hs.2)

end

end Bpl.Lowering
