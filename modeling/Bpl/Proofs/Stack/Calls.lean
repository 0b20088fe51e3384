import Bpl.Proofs.Lowering.Occurs
import Bpl.Proofs.Machine.Within
import Bpl.Proofs.Simulation.Preservation
import Bpl.Proofs.Stack.Frames
import Bpl.Proofs.Tree.Parts

namespace Bpl

open Asm Lowering Machine Simulation Stack

variable {a : Assembly} {q : Program} {f g : Function}

/-- The code of a function that is lowered is made of pieces. -/
theorem exists_body (hl : q.Linked) (h : q.lower = .ok a) (hf : f ∈ q.functions)
    (hfew : ∀ e ∈ f.body.exprs, ∀ x ∈ e.nodes, x.FewArguments) :
    ∃ k d, EmitsBlock a (Frame.layout f) f.body d ∧
      Body a f k (d ++ epilogue (Frame.layout f)) := by
  obtain ⟨k, c, hline, hcode, hle, he⟩ := exists_placed_of_lower hl.distinct h hf
  have hresolved := he.resolved (provides_of_makes (makes_of_lower hl.distinct h)) hl hf
  cases he with
  | @mk d hd =>
    have hlen := length_prologue (Frame.layout f)
    have hlevelled : Levelled (Frame.layout f) (d ++ epilogue (Frame.layout f)) :=
      (hd.levelled hfew).append levelled_epilogue
    have hbehind : ∀ {x}, x ∈ d ++ epilogue (Frame.layout f) →
        x ∈ [.label (.function f.name)] ++ prologue (Frame.layout f) ++ d ++
          epilogue (Frame.layout f) := by
      intro x hx
      rw [List.append_assoc _ d]
      exact List.mem_append_right _ hx
    refine ⟨k, d, hd, hline, ?_, ?_, ?_, ?_, ?_, ?_, ?_, ?_⟩
    · rw [List.append_assoc _ d] at hcode
      exact hcode
    · simp only [List.length_append, List.length_singleton] at hle ⊢
      omega
    · exact (hd.takes hfew).append (.single (Int.natCast_nonneg _) .leave)
    · rw [epilogue_eq, ← List.append_assoc]
      exact List.getLast?_concat
    · intro l hl'
      have hin : .label l ∈ [.label (.function f.name)] ++ prologue (Frame.layout f) ++ d ++
          epilogue (Frame.layout f) := by
        rcases hl' with hl' | hl' <;> exact hresolved _ (hbehind hl')
      obtain ⟨n, rfl⟩ : ∃ n, l = .numbered n := by
        rcases hl' with hl' | hl' <;> exact hlevelled.target _ l hl' rfl rfl
      rw [List.append_assoc _ d, List.mem_append] at hin
      refine hin.resolve_left fun hin => ?_
      have hprologue : .label (.numbered n) ∉ prologue (Frame.layout f) := by
        simp [prologue, code]
      rcases List.mem_append.1 hin with hin | hin
      · cases List.mem_singleton.1 hin
      · exact hprologue hin
    · exact fun l hl' => hresolved _ (hbehind hl')
    · exact (hl.fits f hf).trans_lt (by decide)
    · have haligned := locals_aligned hl hf
      change ((Variable.totalSize f.locals : Nat) : Int) % 8 = 0
      omega

theorem bodies_of_lower (hl : q.Linked) (h : q.lower = .ok a)
    (hfew : ∀ f ∈ q.functions, ∀ e ∈ f.body.exprs, ∀ x ∈ e.nodes, x.FewArguments) :
    Bodies a q where
  makes := makes_of_lower hl.distinct h
  functions := by
    intro g hg
    obtain ⟨k, d, _, hb⟩ := exists_body hl h hg (hfew g hg)
    exact ⟨k, _, hb⟩
  names := by
    intro x hx
    have hname : x ∈ names a.code := List.mem_filterMap.2 ⟨_, hx, rfl⟩
    rw [names_of_lower h] at hname
    exact List.mem_map.1 hname

namespace Stack

/-- What a call does behind its arguments. -/
def transferCode (x : String) (args : List Expr) : List Instr :=
  [.push (.reg .rbp), .call (.function x), .pop .rbp] ++
    if args.isEmpty then []
    else [.op .add (.imm (Int64.ofNat (Ty.wordSize * args.length))) .rsp]

theorem length_transferCode (x : String) (args : List Expr) :
    (transferCode x args).length = 2 + if args.isEmpty then 1 else 2 := by
  unfold transferCode
  split <;> rfl

/-- A call of `g` with the arguments `args` is made from the state `s`, where they are pushed
already: the stack pointer was at `z` before the first. Where the call begins, and after it, the
registers are as the protocol wants them; in between, the callee finds its parameters and what it
has to keep. -/
structure Transfers (H : Host a) (g : Function) (args : List Expr) (start behind : Nat) (z : Int)
    (s : State) : Prop where
  sp : s.sp = z - 8 * args.length
  calls : H.limit ≤ s.sp - 16 → ∃ u, stateAfter H 2 s = some u
  called : ∀ u, stateAfter H 2 s = some u → Entered H start u ∧ u.sp = s.sp - 16 ∧
    u.mem u.sp = H.codeAddress (s.line + 2) ∧ u.mem (u.sp + 8) = s.regs .rbp
  opens : H.limit ≤ entryBase g (s.sp - 16) - (Frame.layout g).size →
    ∃ v, stateAfter H (2 + bodyLine (Frame.layout g)) s = some v
  opened : ∀ v b, stateAfter H (2 + bodyLine (Frame.layout g)) s = some v →
    (v.regs .rbp).toInt = b → v.line = start + bodyLine (Frame.layout g) ∧
      v.sp = b - (Frame.layout g).size ∧
      (g.isMain = false → v.mem b = H.codeAddress (s.line + 2) ∧ v.mem (b + 8) = s.regs .rbp) ∧
      (g.isMain = true → v.mem b = s.regs .rbp ∧ v.mem (b + 8) = H.codeAddress (s.line + 2)) ∧
      ∀ i < args.length, ∀ y, ∃ place, storage? (Frame.layout g) y (.parameter i) = some place ∧
        (v.locate H place).toInt = z - 8 * (i + 1)
  returns : ∀ u w, stateAfter H 2 s = some u → Within H {u.sp, u.sp + 8} u w →
    a.code[w.line]? = some (.instr .ret) →
      ∃ x, stateAfter H (if args.isEmpty then 2 else 3) w = some x ∧ x.line = behind ∧
        x.sp = z ∧ x.regs .rbp = s.regs .rbp

variable {H : Host a} {k start : Nat} {ls ls' : Code} {z : Int} {args : List Expr} {s : State}

/-- The place of a parameter is that of the word which is pushed for it. -/
theorem toInt_locate_parameter {v : State} {i : Nat} (hlen : g.params.length = args.length)
    (hrbp : (v.regs .rbp).toInt = z - 8 * args.length - 16) (hi : i < args.length)
    (hbase : 0 ≤ z - 8 * args.length - 16) (htop : z < 2 ^ 63) (y : String) :
    ∃ place, storage? (Frame.layout g) y (.parameter i) = some place ∧
      (v.locate H place).toInt = z - 8 * (i + 1) := by
  have hoffset : (Frame.layout g).params[i]? =
      some (Frame.paramOffset g.params.length i) := by
    simp [Frame.layout, hlen, hi]
  refine ⟨.offset (Frame.paramOffset g.params.length i) .rbp, ?_, ?_⟩
  · rw [storage?, hoffset]
    rfl
  · have ho : Frame.paramOffset g.params.length i = 8 * args.length + 8 - 8 * i := by
      simp only [Frame.paramOffset, Ty.wordSize, hlen]
      omega
    have hofInt : (Int64.ofInt (Frame.paramOffset g.params.length i)).toInt =
        8 * args.length + 8 - 8 * i := by
      rw [ho]
      exact Int64.toInt_ofInt_of_le (by omega) (by omega)
    rw [State.locate, Int64.toInt_add_of_fits, hofInt, hrbp]
    · omega
    all_goals
      rw [hofInt, hrbp]
      omega

/-- Behind the prologue of a function that was entered, its frame is open: the return address and the
frame pointer of the caller are in place, and each parameter is the word that was pushed for it. -/
theorem opened_of_enters {u v : State} {b : Int} (hg : Body a g start ls)
    (hlen : g.params.length = args.length) (hmain : g.isMain = true → g.params = [])
    (hz : s.sp = z - 8 * args.length) (htop : z ≤ H.top) (he : Enters H s u)
    (hentered : Entered H start u) (hrbp : u.regs .rbp = s.regs .rbp)
    (hv : stateAfter H (bodyLine (Frame.layout g)) u = some v) (hb : (v.regs .rbp).toInt = b) :
    v.line = start + bodyLine (Frame.layout g) ∧ v.sp = b - (Frame.layout g).size ∧
      (g.isMain = false → v.mem b = H.codeAddress (s.line + 2) ∧ v.mem (b + 8) = s.regs .rbp) ∧
      (g.isMain = true → v.mem b = s.regs .rbp ∧ v.mem (b + 8) = H.codeAddress (s.line + 2)) ∧
      ∀ i < args.length, ∀ y, ∃ place, storage? (Frame.layout g) y (.parameter i) = some place ∧
        (v.locate H place).toInt = z - 8 * (i + 1) := by
  have hlimit := H.limit_nonneg
  have hlt := H.top_lt
  have hentry : CodeAt a start (.label (.function g.name) :: prologue (Frame.layout g)) :=
    (codeAt_append.1 hg.code).1
  obtain ⟨ho, hroom⟩ := opens_of_stateAfter (hentered.line ▸ hentry) hg.fits hentered.room hv
  have hsp := he.sp
  have hreturn : v.mem u.sp = H.codeAddress (s.line + 2) := by
    rw [ho.mem _ (le_refl _)]
    exact he.returnAddress
  have hbase := ho.rbp.symm.trans hb
  have hsp' := ho.sp
  rw [hbase] at hsp'
  refine ⟨by rw [ho.line, hentered.line], hsp', fun hf => ?_, fun hf => ?_, fun i hi y => ?_⟩
  · rw [entryBase, hf, if_neg Bool.false_ne_true] at hbase
    rw [← hbase, ho.mem _ (by omega : u.sp ≤ u.sp + 8)]
    exact ⟨hreturn, he.saved⟩
  · -- `main` pushes the frame pointer of the caller once more, below the return address
    have hword := ho.saved hf
    rw [hbase] at hword
    rw [entryBase, hf, if_pos rfl] at hbase
    have hnext : b + 8 = u.sp := by omega
    rw [hword, hrbp, hnext]
    exact ⟨rfl, hreturn⟩
  · have hf : g.isMain = false := by
      cases hf : g.isMain with
      | false => rfl
      | true =>
        rw [hmain hf, List.length_nil] at hlen
        omega
    rw [entryBase, hf, if_neg Bool.false_ne_true] at hbase
    have hsize : (0 : Int) ≤ (Frame.layout g).size := Int.natCast_nonneg _
    exact toInt_locate_parameter hlen (by omega) hi (by omega) (by omega) y

/-- A callee that kept its two words gives back what its caller had: the line behind the call, the
stack from before the arguments and the frame pointer. -/
theorem exists_returned {u w : State} (hq : Bodies a q) (hg : Body a g start ls)
    (hc : CodeAt a s.line (code (transferCode g.name args)))
    (hz : s.sp = z - 8 * args.length) (htop : z ≤ H.top) (haligned : s.sp % 8 = 0)
    (he : Enters H s u) (hentered : Entered H start u) (hw : Within H {u.sp, u.sp + 8} u w)
    (hret : a.code[w.line]? = some (.instr .ret)) :
    ∃ x, stateAfter H (if args.isEmpty then 2 else 3) w = some x ∧
      x.line = s.line + (transferCode g.name args).length ∧ x.sp = z ∧
        x.regs .rbp = s.regs .rbp := by
  have hlimit := H.limit_nonneg
  have hlt := H.top_lt
  have hsp := he.sp
  have hroom := he.room
  have hcall : CodeAt a s.line (callCode (.function g.name)) :=
    (codeAt_append (c := callCode (.function g.name)).1 hc).1
  have habove : ∀ x ∈ ({u.sp, u.sp + 8} : Set Int), u.sp ≤ x := by
    rintro x (rfl | rfl) <;> omega
  obtain ⟨hsp', hkept⟩ := (hw.inside hq hg hentered habove).at_ret hg hentered hret
  obtain ⟨v, hv, hline, hsp'', hmem⟩ := exists_step_ret hcall he hret hsp'
    (hkept _ (Set.mem_insert _ _)) haligned (by omega)
  have hpop : CodeAt a v.line (code ([.pop .rbp] ++ if args.isEmpty then []
      else [.op .add (.imm (Int64.ofNat (Ty.wordSize * args.length))) .rsp])) := by
    rw [hline]
    exact (codeAt_append (c := code [_, _]).1 hc).2
  obtain ⟨x, hx, hline', hxsp, hxrbp⟩ := exists_restored (H := H) hpop (by omega) (by omega)
    (by omega)
  have hword : v.sp = u.sp + 8 := by omega
  refine ⟨x, ?_, ?_, by omega, ?_⟩
  · have hsteps : (if args.isEmpty then 2 else 3) = (if args.isEmpty then 1 else 2) + 1 := by
      split <;> rfl
    rw [hsteps]
    exact stateAfter_succ.2 ⟨v, hv, hx⟩
  · rw [hline', hline, length_transferCode, Nat.add_assoc]
  · rw [hxrbp, hmem, hword, hkept _ (Set.mem_insert_of_mem _ rfl)]
    exact he.saved

theorem transfers_of_codeAt (hq : Bodies a q) (hg : Body a g start ls)
    (hc : CodeAt a s.line (code (transferCode g.name args)))
    (hlen : g.params.length = args.length) (hmain : g.isMain = true → g.params = [])
    (hz : s.sp = z - 8 * args.length) (hroom : H.limit ≤ s.sp) (htop : z ≤ H.top)
    (haligned : s.sp % 8 = 0) :
    Transfers H g args start (s.line + (transferCode g.name args).length) z s := by
  have hlimit := H.limit_nonneg
  have hlt := H.top_lt
  have hcall : CodeAt a s.line (callCode (.function g.name)) :=
    (codeAt_append (c := callCode (.function g.name)).1 hc).1
  have hentry : CodeAt a start (.label (.function g.name) :: prologue (Frame.layout g)) :=
    (codeAt_append.1 hg.code).1
  have henters : ∀ u, stateAfter H 2 s = some u →
      Entered H start u ∧ u.regs .rbp = s.regs .rbp ∧ Enters H s u := by
    intro u hu
    obtain ⟨hline, _, hrbp, he⟩ := enters_of_stateAfter hcall hroom (by omega) hu
    have hsp := he.sp
    have hstart := Option.some.inj (hline.symm.trans hg.start)
    exact ⟨⟨hstart, he.room, by omega, by omega⟩, hrbp, he⟩
  refine ⟨hz, exists_enters hcall hg.start haligned, ?_, ?_, ?_, ?_⟩
  · intro u hu
    obtain ⟨hentered, _, he⟩ := henters u hu
    exact ⟨hentered, he.sp, he.returnAddress, he.saved⟩
  · intro hframe
    have hbase := entryBase_le g (s.sp - 16)
    obtain ⟨u, hu⟩ := exists_enters (H := H) hcall hg.start haligned (by omega)
    obtain ⟨hentered, _, he⟩ := henters u hu
    rw [← he.sp] at hframe
    obtain ⟨v, hv, _⟩ := exists_opens (hentered.line ▸ hentry) hg.fits hentered.aligned hframe
    refine ⟨v, ?_⟩
    rw [stateAfter_add, hu]
    exact hv
  · intro v b hv hb
    rw [stateAfter_add, Option.bind_eq_some_iff] at hv
    obtain ⟨u, hu, hv⟩ := hv
    obtain ⟨hentered, hrbp, he⟩ := henters u hu
    exact opened_of_enters hg hlen hmain hz htop he hentered hrbp hv hb
  · intro u w hu hw hret
    obtain ⟨hentered, _, he⟩ := henters u hu
    exact exists_returned hq hg hc hz htop haligned he hentered hw hret

/-- The code `c` of a call of `g` in the function `f`, at line `j`. In each run of `f` its frame
pointer is the same there and behind, and the stack pointer is `h` bytes below; the arguments are
pushed from there down, one word each. -/
structure Protocol (H : Host a) (f g : Function) (k start j : Nat) (args : List Expr) (c : Code)
    (h : Int) : Prop where
  begins : ∀ e s, Entered H k e → Within H ∅ e s → s.line = j →
    (s.regs .rbp).toInt = entryBase f e.sp ∧ s.sp = entryBase f e.sp - h
  pushes : ∀ (i : Nat) x, args[i]? = some x → ∃ before own behind,
    EmitsArguments a (Frame.layout f) (args.take i) before ∧ EmitsValue a (Frame.layout f) x own ∧
      c = before ++ own ++ code [.push (.reg .rax)] ++ behind ∧
        ∀ e s t, Entered H k e → Within H ∅ e s → s.line = j + (before ++ own).length →
          step H s = some (.next t) →
            t.sp = entryBase f e.sp - h - 8 * (i + 1) ∧ t.mem t.sp = s.regs .rax
  transfers : ∃ pushed, EmitsArguments a (Frame.layout f) args pushed ∧
    c = pushed ++ code (transferCode g.name args) ∧
      ∀ e s, Entered H k e → Within H ∅ e s → s.line = j + pushed.length →
        (s.regs .rbp).toInt = entryBase f e.sp ∧
          Transfers H g args start (j + c.length) (entryBase f e.sp - h) s

/-- A line that begins a piece of code is reached with the stack at its height. -/
theorem between_of_within {pre post : Code} {x : Line} {e : State} (hq : Bodies a q)
    (hb : Body a f k ls) (he : Entered H k e) (hw : Within H ∅ e s) (hls : ls = pre ++ x :: post)
    (hx : isInner x = false) (hline : s.line = k + bodyLine (Frame.layout f) + pre.length) :
    Between H f k ∅ e pre (level (Frame.layout f).size (Frame.layout f).size pre) s :=
  (hw.inside hq hb he fun _ hmem => hmem.elim).between hb he.line hls hx hline

theorem pushed_of_step {t : State} (hget : a.code[s.line]? = some (.instr (.push (.reg .rax))))
    (hs : 0 ≤ s.sp) (hstep : step H s = some (.next t)) :
    t.sp = s.sp - 8 ∧ t.mem t.sp = s.regs .rax := by
  obtain ⟨v, hv, _, rfl⟩ := pushed_of_exec (step_instr hget hstep).1 hs
  cases hv
  have hsp := s.sp_pushed (s.regs .rax) hs
  rw [State.sp_next, State.next_mem, s.mem_pushed _ _ hs, if_pos hsp]
  exact ⟨hsp, rfl⟩

theorem level_arguments {base h : Int} {es : List Expr} {c : Code}
    (hc : EmitsArguments a (Frame.layout f) es c)
    (hfew : ∀ x ∈ Expr.nodesOfList es, x.FewArguments) :
    level base h c = h + 8 * es.length :=
  (hc.moves hfew).level base h

/-- The word that is pushed for an argument is on the stack below those of the arguments before it. -/
theorem pushed_argument {e t : State} {x : Expr} {l : Nat} {pre before own behind : Code}
    (hq : Bodies a q) (hb : Body a f k ls)
    (hls : ls = pre ++ (before ++ own ++ code [.push (.reg .rax)] ++ behind))
    (hx : args[l]? = some x) (hfew : ∀ z ∈ Expr.nodesOfList args, z.FewArguments)
    (hbefore : EmitsArguments a (Frame.layout f) (args.take l) before)
    (hown : EmitsValue a (Frame.layout f) x own) (he : Entered H k e) (hw : Within H ∅ e s)
    (hline : s.line = k + bodyLine (Frame.layout f) + pre.length + (before ++ own).length)
    (hstep : step H s = some (.next t)) :
    t.sp = entryBase f e.sp - level (Frame.layout f).size (Frame.layout f).size pre -
        8 * (l + 1) ∧ t.mem t.sp = s.regs .rax := by
  have hat : ls = (pre ++ (before ++ own)) ++ .instr (.push (.reg .rax)) :: behind := by
    rw [hls]
    simp only [List.append_assoc]
    rfl
  have ht := between_of_within hq hb he hw hat rfl
    (by rw [hline, Nat.add_assoc, ← List.length_append])
  have hget : a.code[s.line]? = some (.instr (.push (.reg .rax))) := by
    rw [ht.line]
    exact (codeAt_cons.1 (hb.code_piece (c := [.instr (.push (.reg .rax))]) hat)).1
  have hlevel : level (Frame.layout f).size (Frame.layout f).size (pre ++ (before ++ own)) =
      level (Frame.layout f).size (Frame.layout f).size pre + 8 * l := by
    have hsplit := Expr.nodesOfList_append (args.take l) (args.drop l)
    rw [List.take_append_drop] at hsplit
    have hlt := (List.getElem?_eq_some_iff.1 hx).1
    rw [level_append, level_append,
      level_arguments hbefore fun z hz => hfew z (hsplit ▸ List.mem_append_left _ hz),
      (hown.moves fun z hz => hfew z
        (Expr.nodes_subset_nodesOfList (List.mem_of_getElem? hx) hz)).level,
      Int.add_zero, List.length_take, min_eq_left hlt.le]
  have hsp := ht.sp
  have hroom := ht.room
  obtain ⟨hsp', hword⟩ := pushed_of_step hget (by have := H.limit_nonneg; omega) hstep
  exact ⟨by omega, hword⟩

/-- Behind its arguments a call is made, from the height at which the first of them was pushed. -/
theorem transfers_of_within {e : State} {pre pushed behind : Code} (hq : Bodies a q)
    (hb : Body a f k ls) (hg : Body a g start ls')
    (hls : ls = pre ++ (pushed ++ code (transferCode g.name args) ++ behind))
    (hpushed : EmitsArguments a (Frame.layout f) args pushed)
    (hfew : ∀ z ∈ Expr.nodesOfList args, z.FewArguments)
    (hnonneg : 0 ≤ level (Frame.layout f).size (Frame.layout f).size pre)
    (hlen : g.params.length = args.length) (hmain : g.isMain = true → g.params = [])
    (he : Entered H k e) (hw : Within H ∅ e s)
    (hline : s.line = k + bodyLine (Frame.layout f) + pre.length + pushed.length) :
    (s.regs .rbp).toInt = entryBase f e.sp ∧
      Transfers H g args start (s.line + (transferCode g.name args).length)
        (entryBase f e.sp - level (Frame.layout f).size (Frame.layout f).size pre) s := by
  have hat : ls = (pre ++ pushed) ++ (code (transferCode g.name args) ++ behind) := by
    rw [hls]
    simp only [List.append_assoc]
  have ht := between_of_within (x := .instr (.push (.reg .rbp))) hq hb he hw hat rfl
    (by rw [hline, Nat.add_assoc, ← List.length_append])
  have hlevel : level (Frame.layout f).size (Frame.layout f).size (pre ++ pushed) =
      level (Frame.layout f).size (Frame.layout f).size pre + 8 * args.length := by
    rw [level_append, level_arguments hpushed hfew]
  have hcode : CodeAt a s.line (code (transferCode g.name args)) := by
    rw [ht.line]
    exact hb.code_piece hat
  have hsp := ht.sp
  have hbase := entryBase_le f e.sp
  have htop := he.top
  exact ⟨ht.rbp, transfers_of_codeAt hq hg hcode hlen hmain (by omega) ht.room (by omega)
    (ht.aligned hb he)⟩

theorem exists_protocol {d c : Code} {i : Nat} {n : Note} (hq : Bodies a q)
    (hb : Body a f k (d ++ epilogue (Frame.layout f))) (hg : Body a g start ls)
    (hfew : ∀ x ∈ (Expr.call n g.name args).nodes, x.FewArguments)
    (hlen : g.params.length = args.length) (hmain : g.isMain = true → g.params = [])
    (hc : c <+: d.drop i) (hemits : EmitsValue a (Frame.layout f) (.call n g.name args) c) :
    ∃ h, ∀ H : Host a, Protocol H f g k start (k + bodyLine (Frame.layout f) + i) args c h := by
  obtain ⟨x, c', hbegins, hx⟩ := hemits.begins
  obtain ⟨rest, hrest⟩ := hc
  rw [Expr.nodes, List.forall_mem_cons] at hfew
  obtain ⟨_, hfew⟩ := hfew
  have hi : (d.take i).length = i := by
    rw [List.length_take, min_eq_left]
    by_contra hlt
    rw [List.drop_of_length_le (by omega), hbegins] at hrest
    cases hrest
  set pre := d.take i with hpre
  set behind := rest ++ epilogue (Frame.layout f) with hbehind
  have hls : d ++ epilogue (Frame.layout f) = pre ++ (c ++ behind) := by
    rw [hbehind, ← List.append_assoc c, hrest, hpre, ← List.append_assoc, List.take_append_drop]
  have hfirst : d ++ epilogue (Frame.layout f) = pre ++ x :: (c' ++ behind) := by
    rw [hls, hbegins]
    rfl
  have hnonneg := hb.takes.level_nonneg hfirst hx
  refine ⟨level (Frame.layout f).size (Frame.layout f).size pre, fun H => ⟨?_, ?_, ?_⟩⟩
  · intro e s he hw hline
    have ht := between_of_within hq hb he hw hfirst hx (by omega)
    exact ⟨ht.rbp, ht.sp⟩
  · intro l y hy
    cases hemits with
    | @call _ _ _ pushed hs =>
      obtain ⟨before, own, later, hbefore, hown, _, rfl⟩ := hs.split hy
      refine ⟨before, own, later ++ code (transferCode g.name args), hbefore, hown,
        List.append_assoc _ _ _, ?_⟩
      have hat : d ++ epilogue (Frame.layout f) = pre ++ (before ++ own ++
          code [.push (.reg .rax)] ++ (later ++ (code (transferCode g.name args) ++ behind))) := by
        rw [hls]
        simp only [List.append_assoc]
        rfl
      intro e s t he hw hline hstep
      rw [← hi] at hline
      exact pushed_argument hq hb hat hy hfew hbefore hown he hw hline hstep
  · cases hemits with
    | @call _ _ _ pushed hs =>
      refine ⟨pushed, hs, rfl, fun e s he hw hline => ?_⟩
      have htransfers := transfers_of_within hq hb hg hls hs hfew hnonneg hlen hmain he hw
        (by rw [hline, hi])
      rw [hline, Nat.add_assoc] at htransfers
      rw [List.length_append, length_code]
      exact htransfers

end Stack

/-- The main function is entered where a run begins. -/
theorem entered_of_starts {H : Host a} {input : List Int64} {k : Nat} {s : State}
    (h : Starts H input s) (hk : lineOf? a (.function "main") = some k) : Entered H k s := by
  have hle := H.limit_le_top
  have hsp := h.sp_eq
  exact ⟨Option.some.inj (h.line.symm.trans hk), hsp ▸ hle, hsp.le, hsp ▸ H.top_aligned⟩

/-- The layout of frames and the protocol of calls agree. In what is analyzed with success, the
locals of each function fill the bytes below its frame pointer, and its parameters are the words
from 16 bytes above it on. Wherever a function calls another, the callee finds each parameter at the
word that was pushed for it, with the return address and the frame pointer of the caller between
those words and its locals; and a return leads back to the stack and frame pointers from before the
first push, if no assignment changed the two words. No text in memory has more bytes than are asked
for here. -/
theorem calls_agree {source : String} {q : Program} (h : (analyze source).outcome = .ok q)
    (hsize : source.utf8ByteSize < 2 ^ 63) :
    ∃ a, (compile source).outcome = .ok a ∧ (∀ f ∈ q.functions, Frame.Tiles f) ∧
      ∀ f ∈ q.functions, ∃ k d, lineOf? a (.function f.name) = some k ∧
        CodeAt a k ([.label (.function f.name)] ++ prologue (Frame.layout f) ++ d ++
          epilogue (Frame.layout f)) ∧ EmitsBlock a (Frame.layout f) f.body d ∧
        (∀ (H : Host a) input s, f.isMain = true → Starts H input s → Entered H k s) ∧
        ∀ e ∈ f.body.exprs, ∀ n x args, .call n x args ∈ e.nodes →
          (∃ i c, c <+: d.drop i ∧ EmitsValue a (Frame.layout f) (.call n x args) c) ∧
          ∃ g ∈ q.functions, g.name = x ∧ g.params.length = args.length ∧
            ∃ start, lineOf? a (.function x) = some start ∧
              ∀ i c, c <+: d.drop i → EmitsValue a (Frame.layout f) (.call n x args) c →
                ∃ h, ∀ H : Host a,
                  Protocol H f g k start (k + bodyLine (Frame.layout f) + i) args c h := by
  obtain ⟨a, hcompile, ha⟩ := exists_compile_of_analyze h
  have hl := linked_of_analyze h
  have hfew := fewArguments_of_analyze h hsize
  have hq := bodies_of_lower hl ha hfew
  refine ⟨a, hcompile, fun f hf => hl.tiles hf, fun f hf => ?_⟩
  obtain ⟨k, d, hd, hb⟩ := exists_body hl ha hf (hfew f hf)
  refine ⟨k, d, hb.start, ?_, hd, ?_, ?_⟩
  · rw [List.append_assoc _ d]
    exact hb.code
  · intro H input s hmain hs
    exact entered_of_starts hs (beq_iff_eq.1 hmain ▸ hb.start)
  · intro e he n x args hx
    obtain ⟨g, hg, rfl, hlen⟩ := hl.nodes f hf e he _ hx
    obtain ⟨start, d', _, hb'⟩ := exists_body hl ha hg (hfew g hg)
    refine ⟨?_, g, hg, rfl, hlen, start, hb'.start, ?_⟩
    · obtain ⟨i, c, hc, hv | hv⟩ := hd.occurs (k := 0) (List.prefix_refl d) he hx
      · exact ⟨i, c, hc, hv⟩
      · cases hv
    · intro i c hc hv
      have hargs : ∀ y ∈ (Expr.call n g.name args).nodes, y.FewArguments :=
        fun y hy => hfew f hf e he y (Expr.nodes_subset e hx hy)
      exact exists_protocol hq hb hb' hargs hlen (fun hm => (hl.of_isMain hg hm).1) hc hv

/-- Calls a function with two arguments, one that writes above its own frame, and itself. -/
def callsThrice : String :=
  "int sub(int a, int b) \x7b int x; x = a; return x - b; \x7d " ++
    "void f(void) \x7b int x; int *p; p = &x; p[2] = 5; \x7d " ++
    "void main(void) \x7b sub(7, 2); f(); main(); \x7d"

def thrice : Assembly where
  strings := []
  globals := []
  functions := [
    .label (.function "sub") :: code [move .rsp .rbp, .op .sub (.imm 8) .rsp,
      .lea (.offset (-8) .rbp) .rax, .push (.reg .rax), load (.offset 24 .rbp) .rax, .pop .rcx,
      .mov (.reg .rax) (.mem (.direct .rcx)), load (.offset (-8) .rbp) .rax, .push (.reg .rax),
      load (.offset 16 .rbp) .rax, move .rax .rcx, .pop .rax, .op .sub (.reg .rcx) .rax,
      move .rbp .rsp, .ret, move .rbp .rsp, .ret],
    .label (.function "f") :: code [move .rsp .rbp, .op .sub (.imm 16) .rsp,
      .lea (.offset (-16) .rbp) .rax, .push (.reg .rax), .lea (.offset (-8) .rbp) .rax, .pop .rcx,
      .mov (.reg .rax) (.mem (.direct .rcx)), loadImm 2 .rax, .push (.reg .rax),
      load (.offset (-16) .rbp) .rax, .pop .rcx, .lea (.element .rax .rcx) .rax, .push (.reg .rax),
      loadImm 5 .rax, .pop .rcx, .mov (.reg .rax) (.mem (.direct .rcx)), move .rbp .rsp, .ret],
    .label (.function "main") :: code [.push (.reg .rbp), move .rsp .rbp, loadImm 7 .rax,
      .push (.reg .rax), loadImm 2 .rax, .push (.reg .rax), .push (.reg .rbp),
      .call (.function "sub"), .pop .rbp, .op .add (.imm 16) .rsp, .push (.reg .rbp),
      .call (.function "f"), .pop .rbp, .push (.reg .rbp), .call (.function "main"), .pop .rbp,
      .clear .rax, move .rbp .rsp, .pop .rbp, .ret]]
  trap := none

def thriceHost : Host thrice :=
  smallHost thrice (by decide) rfl nofun

/-- The first state of its run. -/
def thriceStart : State where
  regs
    | .rsp => 65536
    | _ => 0
  mem _ := 0
  compared := none
  line := (lineOf? thrice (.function "main")).getD 0
  input := []
  output := []

theorem starts_thrice : Starts thriceHost [] thriceStart := by
  refine ⟨?_, rfl, rfl, fun _ _ => rfl, rfl, rfl⟩
  decide +kernel

theorem compile_callsThrice : (compile callsThrice).outcome = .ok thrice := by
  have hsome : ((compile callsThrice).outcome.toOption.any fun a => decide (a = thrice)) =
      true := by
    decide +kernel
  obtain ⟨a, ha, heq⟩ := Except.any_toOption_iff.1 hsome
  rw [ha, of_decide_eq_true heq]

/-- Whether an expression calls a function with some number of arguments. -/
def Expr.isCallOf (x : String) (count : Nat) : Expr → Bool
  | .call _ y args => y == x && args.length == count
  | _ => false

theorem callsThrice_agree : callsThrice.utf8ByteSize < 2 ^ 63 ∧
    (∃ q, (analyze callsThrice).outcome = .ok q ∧ ∀ f ∈ q.functions, Frame.Tiles f) ∧
      (compile callsThrice).outcome = .ok thrice ∧ Starts thriceHost [] thriceStart ∧
        ∃ s u w x, Within thriceHost ∅ thriceStart s ∧
          thrice.code[s.line + 1]? = some (.instr (.call (.function "sub"))) ∧
          stateAfter thriceHost 2 s = some u ∧ Within thriceHost {u.sp, u.sp + 8} u w ∧
            thrice.code[w.line]? = some (.instr .ret) ∧ stateAfter thriceHost 3 w = some x ∧
              x.line = s.line + 4 ∧ x.sp = s.sp + 16 ∧ x.regs .rbp = s.regs .rbp := by
  have hsize : callsThrice.utf8ByteSize < 2 ^ 63 := by decide +kernel
  have hrun : ((stateAfter thriceHost 7 thriceStart).any fun s =>
      (stateAfter thriceHost 2 s).any fun u => (stateAfter thriceHost 15 u).any fun w =>
        decide (s.line = 44 ∧ thrice.code[w.line]? = some (.instr .ret) ∧
          ∀ i < 15, (stateAfter thriceHost i u).any (goesOn thriceHost [u.sp, u.sp + 8]))) =
      true := by
    decide +kernel
  have hgoes : ∀ i < 7,
      (stateAfter thriceHost i thriceStart).any (goesOn thriceHost []) = true := by
    decide +kernel
  have honly : ∀ i < 58, thrice.code[i]? = some (.instr (.call (.function "sub"))) → i = 45 := by
    decide +kernel
  have hfind : ((analyze callsThrice).outcome.toOption.any fun q => q.functions.any fun f =>
      f.isMain && f.body.exprs.any fun e => e.nodes.any (Expr.isCallOf "sub" 2)) = true := by
    decide +kernel
  obtain ⟨q, hq, hfind⟩ := Except.any_toOption_iff.1 hfind
  simp only [List.any_eq_true, Bool.and_eq_true] at hfind
  obtain ⟨f, hf, hmain, e, he, y, hy, hcall⟩ := hfind
  obtain ⟨a, hcompile, htiles, hagree⟩ := calls_agree hq hsize
  cases hcompile.symm.trans compile_callsThrice
  obtain ⟨k, d, hk, hcode, _, hentered, hcalls⟩ := hagree f hf
  have hentered := hentered thriceHost [] thriceStart hmain starts_thrice
  cases y with
  | call n x args =>
    rw [Expr.isCallOf, Bool.and_eq_true, beq_iff_eq, beq_iff_eq] at hcall
    obtain ⟨rfl, hlen⟩ := hcall
    obtain ⟨⟨i, c, hc, hv⟩, g, _, hname, _, start, _, hprotocol⟩ := hcalls e he n _ args hy
    obtain ⟨h, hp⟩ := hprotocol i c hc hv
    obtain ⟨pushed, _, rfl, htransfers⟩ := (hp thriceHost).transfers
    obtain ⟨s, hs, hrun⟩ := (Option.any_eq_true _ _).1 hrun
    obtain ⟨u, hu, hrun⟩ := (Option.any_eq_true _ _).1 hrun
    obtain ⟨w, hw, hrun⟩ := (Option.any_eq_true _ _).1 hrun
    obtain ⟨hline, hret, hstays⟩ := of_decide_eq_true hrun
    have hwithin : Within thriceHost ∅ thriceStart s :=
      within_of_stateAfter (fun _ hmem => hmem.elim) hs hgoes
    -- the only call of the function in the code is the one that is meant
    have hbody : CodeAt thrice (k + bodyLine (Frame.layout f)) d := by
      have hd := (codeAt_append.1 (codeAt_append.1 hcode).1).2
      rwa [List.length_append, List.length_singleton, Nat.add_comm 1, length_prologue] at hd
    have htransfer := (codeAt_append.1 (hbody.of_prefix_drop hc)).2
    have hget := (codeAt_code_cons.1 (codeAt_code_cons.1 htransfer).2).1
    have hplace := honly _ (List.getElem?_eq_some_iff.1 hget).1 (hname ▸ hget)
    have hat : s.line = k + bodyLine (Frame.layout f) + i + pushed.length := by omega
    obtain ⟨_, ht⟩ := htransfers thriceStart s hentered hwithin hat
    have hwithin' : Within thriceHost {u.sp, u.sp + 8} u w := by
      have hwords : ∀ z ∈ ({u.sp, u.sp + 8} : Set Int), z ∈ [u.sp, u.sp + 8] := by
        intro z hz
        simpa using hz
      exact within_of_stateAfter hwords hw hstays
    obtain ⟨x, hx, hxline, hxsp, hxrbp⟩ := ht.returns u w hu hwithin' hret
    have hargs : args.isEmpty = false := by
      cases args with
      | nil => cases hlen
      | cons => rfl
    have hsp := ht.sp
    rw [hargs] at hx
    rw [List.length_append, length_code, length_transferCode, hargs] at hxline
    refine ⟨hsize, ⟨q, hq, htiles⟩, hcompile, starts_thrice, s, u, w, x, hwithin, ?_, hu, hwithin',
      hret, hx, ?_, ?_, hxrbp⟩
    · rw [hat]
      exact hname ▸ hget
    · rw [hxline, hat]
      simp only [Bool.false_eq_true, if_false]
      omega
    · rw [hlen] at hsp
      omega
  | _ => cases hcall

/-- The protocol does not hold of all calls alike. An assignment through a pointer can change the
frame pointer that is kept for the caller, which then comes back with another. And when the main
function is called, it is not its return address that is found at its frame pointer, nor the frame
pointer of its caller in the word above. -/
theorem thrice_disagrees : (compile callsThrice).outcome = .ok thrice ∧
    Starts thriceHost [] thriceStart ∧
    (∃ s t, stateAfter thriceHost 27 thriceStart = some s ∧
      thrice.code[s.line]? = some (.instr (.push (.reg .rbp))) ∧
      thrice.code[s.line + 1]? = some (.instr (.call (.function "f"))) ∧
      thrice.code[s.line + 2]? = some (.instr (.pop .rbp)) ∧
      stateAfter thriceHost 22 s = some t ∧ t.line = s.line + 3 ∧
        t.regs .rbp ≠ s.regs .rbp) ∧
    ∃ s v, stateAfter thriceHost 49 thriceStart = some s ∧
      thrice.code[s.line]? = some (.instr (.push (.reg .rbp))) ∧
      thrice.code[s.line + 1]? = some (.instr (.call (.function "main"))) ∧
      thrice.code[s.line + 2]? = some (.instr (.pop .rbp)) ∧
      stateAfter thriceHost 5 s = some v ∧
      lineOf? thrice (.function "main") = some (v.line - 3) ∧
        v.mem ((v.regs .rbp).toInt + 8) ≠ s.regs .rbp ∧
        v.mem (v.regs .rbp).toInt ≠ thriceHost.codeAddress (s.line + 2) := by
  have hsmashed : ((stateAfter thriceHost 27 thriceStart).any fun s =>
      (stateAfter thriceHost 22 s).any fun t =>
        decide (thrice.code[s.line]? = some (.instr (.push (.reg .rbp))) ∧
          thrice.code[s.line + 1]? = some (.instr (.call (.function "f"))) ∧
          thrice.code[s.line + 2]? = some (.instr (.pop .rbp)) ∧
          t.line = s.line + 3 ∧ t.regs .rbp ≠ s.regs .rbp)) = true := by
    decide +kernel
  have hmain : ((stateAfter thriceHost 49 thriceStart).any fun s =>
      (stateAfter thriceHost 5 s).any fun v =>
        decide (thrice.code[s.line]? = some (.instr (.push (.reg .rbp))) ∧
          thrice.code[s.line + 1]? = some (.instr (.call (.function "main"))) ∧
          thrice.code[s.line + 2]? = some (.instr (.pop .rbp)) ∧
          lineOf? thrice (.function "main") = some (v.line - 3) ∧
          v.mem ((v.regs .rbp).toInt + 8) ≠ s.regs .rbp ∧
          v.mem (v.regs .rbp).toInt ≠ thriceHost.codeAddress (s.line + 2))) = true := by
    decide +kernel
  obtain ⟨s, hs, h⟩ := (Option.any_eq_true _ _).1 hsmashed
  obtain ⟨t, ht, h⟩ := (Option.any_eq_true _ _).1 h
  obtain ⟨hpush, hcall, hpop, hline, hrbp⟩ := of_decide_eq_true h
  obtain ⟨s', hs', h'⟩ := (Option.any_eq_true _ _).1 hmain
  obtain ⟨v, hv, h'⟩ := (Option.any_eq_true _ _).1 h'
  obtain ⟨hpush', hcall', hpop', hstart, habove, hat⟩ := of_decide_eq_true h'
  exact ⟨compile_callsThrice, starts_thrice,
    ⟨s, t, hs, hpush, hcall, hpop, ht, hline, hrbp⟩,
    s', v, hs', hpush', hcall', hpop', hv, hstart, habove, hat⟩

end Bpl
