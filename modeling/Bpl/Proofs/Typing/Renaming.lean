import Bpl.Compile
import Bpl.Proofs.Lowering.Renaming
import Bpl.Proofs.Lowering.Total
import Bpl.Proofs.Parsing.Unchecked
import Bpl.Proofs.Typing.Decision
import Bpl.Proofs.Typing.Scopes
import Bpl.Proofs.Typing.Unchecked
import Bpl.Proofs.Typing.Weakening

namespace Bpl

namespace Expr

/-- None of the variables `vs` is given the name of a global variable that the expression uses. -/
def Avoids (r : String → String) (vs : List Variable) (e : Expr) : Prop :=
  ∀ x ∈ e.nodes, ∀ v ∈ vs, x.reference? ≠ some (r v.name, .global)

instance (r : String → String) (vs : List Variable) (e : Expr) : Decidable (e.Avoids r vs) :=
  inferInstanceAs (Decidable (∀ x ∈ e.nodes, ∀ v ∈ vs, x.reference? ≠ some (r v.name, .global)))

theorem Avoids.mono {r : String → String} {us vs : List Variable} {e : Expr} (h : e.Avoids r vs)
    (hs : us ⊆ vs) : e.Avoids r us :=
  fun x hx v hv => h x hx v (hs hv)

end Expr

namespace Typing

variable {r : String → String}

/-- The same place in a function whose own variables are called otherwise. -/
def View.renamed (r : String → String) (w : View) : View :=
  ⟨w.program, w.params.map (Variable.renamed r), w.locals.map (Variable.renamed r)⟩

def Setting.renamed (r : String → String) (c : Setting) : Setting :=
  ⟨c.program, c.params.map (Variable.renamed r), c.result⟩

/-- A name keeps what it stands for. A global variable does so if no own variable gets its name. -/
theorem View.Sees.renamed {w : View} {x : String} {ty : Ty} {slot : Slot} (h : w.Sees x ty slot)
    (ha : ∀ v ∈ w.params ++ w.locals, some (x, slot) ≠ some (r v.name, .global)) :
    (w.renamed r).Sees (slot.renamed r x) ty slot := by
  cases h with
  | @parameter i v hi hx =>
    have hi' : (w.renamed r).params[i]? = some (v.renamed r) := by simp [View.renamed, hi]
    have hx' : (v.renamed r).name = r x := congrArg r hx
    exact View.Sees.parameter (v := v.renamed r) hi' hx'
  | @localVar i v hi hx =>
    have hi' : (w.renamed r).locals[i]? = some (v.renamed r) := by simp [View.renamed, hi]
    have hx' : (v.renamed r).name = r x := congrArg r hx
    exact View.Sees.localVar (v := v.renamed r) hi' hx'
  | global hn hd hx =>
    have hn' : ∀ u ∈ (w.renamed r).params ++ (w.renamed r).locals, u.name ≠ x := by
      intro u hu hux
      rw [View.renamed, ← List.map_append] at hu
      obtain ⟨v, hv, rfl⟩ := List.mem_map.1 hu
      exact ha v hv (by rw [← hux]; rfl)
    exact .global hn' hd hx

mutual

/-- An expression with other names is judged as it was, and linked to the same slots. -/
theorem Judges.renamed {w : View} {e e' : Expr} {ty : Ty} {a : Bool} (j : Judges w e ty a e')
    (ha : e'.Avoids r (w.params ++ w.locals)) :
    Judges (w.renamed r) (e'.renamed r).unchecked ty a (e'.renamed r) := by
  match j with
  | .number => exact .number
  | .string => exact .string
  | .read => exact .read
  | .name hs hf => exact .name (hs.renamed (ha _ (Expr.mem_nodes_self _))) hf
  | .assign jt hv jv =>
    obtain ⟨_, hparts⟩ := List.forall_mem_cons.1 ha
    obtain ⟨ht, he⟩ := List.forall_mem_append.1 hparts
    exact .assign (jt.renamed ht) hv (jv.renamed he)
  | .comparison hop jl hc jr =>
    obtain ⟨_, hparts⟩ := List.forall_mem_cons.1 ha
    obtain ⟨hl, hr⟩ := List.forall_mem_append.1 hparts
    exact .comparison hop (jl.renamed hl) hc (jr.renamed hr)
  | .arithmetic hop jl jr =>
    obtain ⟨_, hparts⟩ := List.forall_mem_cons.1 ha
    obtain ⟨hl, hr⟩ := List.forall_mem_append.1 hparts
    exact .arithmetic hop (jl.renamed hl) (jr.renamed hr)
  | .neg je => exact .neg (je.renamed (List.forall_mem_cons.1 ha).2)
  | .address je hv => exact .address (je.renamed (List.forall_mem_cons.1 ha).2) hv
  | .deref je => exact .deref (je.renamed (List.forall_mem_cons.1 ha).2)
  | .index jb he ji =>
    obtain ⟨_, hparts⟩ := List.forall_mem_cons.1 ha
    obtain ⟨hb, hi⟩ := List.forall_mem_append.1 hparts
    exact .index (jb.renamed hb) he (ji.renamed hi)
  | .call hd hty ja => exact .call hd hty (ja.renamed (List.forall_mem_cons.1 ha).2)

theorem Passes.renamed {w : View} {e e' : Expr} {ty : Ty} (j : Passes w e ty e')
    (ha : e'.Avoids r (w.params ++ w.locals)) :
    Passes (w.renamed r) (e'.renamed r).unchecked ty (e'.renamed r) := by
  match j with
  | .value je hv => exact .value (je.renamed ha) hv
  | .decay hs => exact .decay (hs.renamed (ha _ (Expr.mem_nodes_self _)))

theorem PassesAll.renamed {w : View} {es es' : List Expr} {tys : List Ty}
    (j : PassesAll w es tys es')
    (ha : ∀ x ∈ Expr.nodesOfList es', ∀ v ∈ w.params ++ w.locals,
      x.reference? ≠ some (r v.name, .global)) :
    PassesAll (w.renamed r) (Expr.uncheckedList (Expr.renamedList r es')) tys
      (Expr.renamedList r es') := by
  match j with
  | .nil => exact .nil
  | .cons je js =>
    obtain ⟨he, hes⟩ := List.forall_mem_append.1 ha
    exact .cons (je.renamed he) (js.renamed hes)

end

variable {c : Setting} {vs : List Variable}

mutual

theorem Allows.renamed {ls : List Variable} {s s' : Stmt} (j : Allows c ls s s')
    (hp : c.params ⊆ vs) (hl : ls ⊆ vs) (hs : s.locals ⊆ vs) (ha : ∀ e ∈ s'.exprs, e.Avoids r vs) :
    Allows (c.renamed r) (ls.map (Variable.renamed r))
      ((s'.map (Variable.renamed r) (Expr.renamed r)).map id Expr.unchecked)
      (s'.map (Variable.renamed r) (Expr.renamed r)) := by
  have hview : c.params ++ ls ⊆ vs := List.append_subset.2 ⟨hp, hl⟩
  match j with
  | .compound jb => exact .compound (jb.renamed hp hl hs ha)
  | .ifThen je jy =>
    obtain ⟨he, hy⟩ := List.forall_mem_cons.1 ha
    exact .ifThen (je.renamed (he.mono hview)) (jy.renamed hp hl hs hy)
  | .ifElse je jy jn =>
    obtain ⟨he, hbranches⟩ := List.forall_mem_cons.1 ha
    obtain ⟨hy, hn⟩ := List.forall_mem_append.1 hbranches
    obtain ⟨hsy, hsn⟩ := List.append_subset.1 hs
    have hno := jn.renamed hp (List.append_subset.2 ⟨hl, hsy⟩) hsn hn
    rw [List.map_append, ← jy.locals] at hno
    exact .ifElse (je.renamed (he.mono hview)) (jy.renamed hp hl hsy hy) (by simpa using hno)
  | .whileDo je jb =>
    obtain ⟨he, hb⟩ := List.forall_mem_cons.1 ha
    exact .whileDo (je.renamed (he.mono hview)) (jb.renamed hp hl hs hb)
  | .retNone hv => exact .retNone hv
  | .retSome hv je =>
    have he := List.forall_mem_singleton.1 ha
    exact .retSome hv (je.renamed (he.mono hview))
  | .expr je =>
    have he := List.forall_mem_singleton.1 ha
    exact .expr (je.renamed (he.mono hview))
  | .write je hty =>
    have he := List.forall_mem_singleton.1 ha
    exact .write (je.renamed (he.mono hview)) hty
  | .writeln => exact .writeln

theorem AllowsBlock.renamed {ls : List Variable} {b b' : Block} (j : AllowsBlock c ls b b')
    (hp : c.params ⊆ vs) (hl : ls ⊆ vs) (hs : b.locals ⊆ vs) (ha : ∀ e ∈ b'.exprs, e.Avoids r vs) :
    AllowsBlock (c.renamed r) (ls.map (Variable.renamed r))
      ((b'.map (Variable.renamed r) (Expr.renamed r)).map id Expr.unchecked)
      (b'.map (Variable.renamed r) (Expr.renamed r)) := by
  match j with
  | .mk jss =>
    obtain ⟨hus, hss⟩ := List.append_subset.1 hs
    have h := jss.renamed hp (List.append_subset.2 ⟨hl, hus⟩) hss ha
    rw [List.map_append] at h
    simp only [Block.map, List.map_id]
    exact .mk h

theorem AllowsAll.renamed {ls : List Variable} {ss ss' : List Stmt} (j : AllowsAll c ls ss ss')
    (hp : c.params ⊆ vs) (hl : ls ⊆ vs) (hs : Stmt.localsOfList ss ⊆ vs)
    (ha : ∀ e ∈ Stmt.exprsOfList ss', e.Avoids r vs) :
    AllowsAll (c.renamed r) (ls.map (Variable.renamed r))
      (Stmt.mapList id Expr.unchecked (Stmt.mapList (Variable.renamed r) (Expr.renamed r) ss'))
      (Stmt.mapList (Variable.renamed r) (Expr.renamed r) ss') := by
  match j with
  | .nil => exact .nil
  | .cons js jss =>
    obtain ⟨hfirst, hrest⟩ := List.forall_mem_append.1 ha
    obtain ⟨hsfirst, hsrest⟩ := List.append_subset.1 hs
    have h := jss.renamed hp (List.append_subset.2 ⟨hl, hsfirst⟩) hsrest hrest
    rw [List.map_append, ← js.locals] at h
    exact .cons (js.renamed hp hl hsfirst hfirst) (by simpa using h)

end

variable {p : Program} {f : Function}

/-- What the rules make of a function that is as it was before a check. -/
theorem allowsDecl_unchecked (hl : f.locals = f.body.locals)
    (hv : ∀ v ∈ f.params ++ f.locals, v.Valid)
    (hn : ((f.params ++ f.locals).map Variable.name).Nodup)
    (hfit : (f.locals.map (·.ty.bytes)).sum ≤ Ty.maxObjectSize)
    (jb : AllowsBlock ⟨p, f.params, f.result⟩ [] f.unchecked.body f.body) :
    AllowsDecl p (.function f.unchecked) (.function f) := by
  have hlocals : f.unchecked.body.locals = f.locals := by
    rw [Function.unchecked, Block.locals_map, List.map_id, hl]
  rw [← hlocals] at hv hn hfit
  have h := AllowsDecl.function hv hn hfit jb
  rw [hlocals] at h
  exact h

/-- A function may have other names for its own variables, as long as they differ and none of them
hides a global variable that the function uses. -/
theorem AllowsDecl.renamed {d : Decl} (j : AllowsDecl p d (.function f))
    (hr : ∀ u ∈ f.params ++ f.locals, ∀ v ∈ f.params ++ f.locals,
      r u.name = r v.name → u.name = v.name)
    (ha : ∀ e ∈ f.body.exprs, e.Avoids r (f.params ++ f.locals)) :
    AllowsDecl p (.function (f.renamed r).unchecked) (.function (f.renamed r)) := by
  have hvars : (f.renamed r).params ++ (f.renamed r).locals =
      (f.params ++ f.locals).map (Variable.renamed r) := List.map_append.symm
  cases j with
  | function hv hn hfit jb =>
    apply allowsDecl_unchecked
    · rw [Function.renamed, Block.locals_map, jb.locals]
    · intro v hmem
      rw [hvars] at hmem
      obtain ⟨u, hu, rfl⟩ := List.mem_map.1 hmem
      have h := hv u hu
      exact ⟨h.notVoid, h.notEmpty, h.fits⟩
    · have h := List.Nodup.map_on (f := r) (by
        intro x hx y hy
        obtain ⟨u, hu, rfl⟩ := List.mem_map.1 hx
        obtain ⟨v, hv, rfl⟩ := List.mem_map.1 hy
        exact hr u hu v hv) hn
      rw [List.map_map] at h
      rw [hvars, List.map_map]
      exact h
    · rw [Function.renamed, List.map_map]
      exact hfit
    · exact jb.renamed (List.subset_append_left _ _) (List.nil_subset _)
        (List.subset_append_right _ _) ha

end Typing

namespace Program

variable {p q : Program} {f : Function} {r : String → String}

/-- New names for the variables of a function leave all that other functions know of a program. -/
theorem knows_renamed (q : Program) (x : String) (r : String → String) :
    (q.renamed x r).unchecked.Knows q.unchecked := by
  intro d' hd'
  obtain ⟨d, hd, rfl⟩ := List.mem_map.1 hd'
  have hmem : (d.renamed x r).unchecked ∈ (q.renamed x r).unchecked :=
    List.mem_map_of_mem (List.mem_map_of_mem hd)
  refine ⟨_, hmem, ?_, ?_⟩
  · rw [Decl.name_unchecked, Decl.name_unchecked, Decl.name_renamed]
  · rw [Decl.ty_unchecked, Decl.ty_unchecked, Decl.ty_renamed]

theorem map_name_renamed (q : Program) (x : String) (r : String → String) :
    (q.renamed x r).unchecked.map Decl.name = q.unchecked.map Decl.name := by
  simp only [Program.renamed, Program.unchecked, List.map_map, Function.comp_def,
    Decl.name_unchecked, Decl.name_renamed]

/-- The rules hold of a program with other names for the variables of a function. -/
theorem Derives.renamed (h : q.unchecked.Derives q) (hf : f ∈ q.functions)
    (hr : ∀ u ∈ f.params ++ f.locals, ∀ v ∈ f.params ++ f.locals,
      r u.name = r v.name → u.name = v.name)
    (ha : ∀ e ∈ f.body.exprs, e.Avoids r (f.params ++ f.locals)) :
    (q.renamed f.name r).unchecked.Derives (q.renamed f.name r) := by
  have hknows := knows_renamed q f.name r
  have hnames := map_name_renamed q f.name r
  have hall : ∀ d ∈ q, Typing.AllowsDecl q.unchecked d.unchecked d :=
    List.forall₂_same.1 (List.forall₂_map_left_iff.1 h.decls)
  have hrenamed : ∀ d ∈ q, Typing.AllowsDecl (q.renamed f.name r).unchecked
      (d.renamed f.name r).unchecked (d.renamed f.name r) := by
    intro d hd
    cases d with
    | var v => exact (hall _ hd).weaken hknows
    | function g =>
      by_cases hx : g.name = f.name
      · have hg : Decl.function g = Decl.function f :=
          List.inj_on_of_nodup_map h.distinct_right hd (mem_functions.1 hf) hx
        rw [hg, Decl.renamed, if_pos rfl]
        exact ((hall _ (mem_functions.1 hf)).renamed hr ha).weaken hknows
      · rw [Decl.renamed, if_neg hx]
        exact (hall _ hd).weaken hknows
  constructor
  · rw [hnames]
    exact h.distinct
  · obtain ⟨d, hd, hname, hty⟩ := h.main
    obtain ⟨d', hd', hname', hty'⟩ := hknows d hd
    exact ⟨d', hd', hname'.trans hname, hty'.trans hty⟩
  · apply List.forall₂_map_left_iff.2
    exact List.forall₂_same.2 (List.forall_mem_map.2 hrenamed)

/-- The parameters and locals of a function of an accepted program may be called otherwise, wherever
they are declared and referred to: as long as different ones have different names, none of them the
name of a global variable that the function uses, the check accepts the program and the generator
makes the same assembly of it. -/
theorem generate_renamed {ts : List Token} (hp : parse ts = .ok p) (hq : p.check.outcome = .ok q)
    (hf : f ∈ q.functions)
    (hr : ∀ u ∈ f.params ++ f.locals, ∀ v ∈ f.params ++ f.locals,
      r u.name = r v.name → u.name = v.name)
    (ha : ∀ e ∈ f.body.exprs, e.Avoids r (f.params ++ f.locals)) :
    q.unchecked = p ∧
      (q.renamed f.name r).unchecked.check.outcome = .ok (q.renamed f.name r) ∧
        ∃ a, q.generate.outcome = .ok a ∧ (q.renamed f.name r).generate.outcome = .ok a := by
  have hd : p.Derives q := derives_of_check hp hq
  have hunchecked : q.unchecked = p := hd.unchecked.trans (unchecked_of_parse hp)
  obtain ⟨a, ha'⟩ := hd.exists_lower
  have hgenerate : q.generate.outcome = .ok a := Except.mapError_eq_ok_iff.2 ha'
  refine ⟨hunchecked, ?_, a, hgenerate, ?_⟩
  · rw [Typing.check_eq_ok_iff_derives (unlinked_unchecked _)]
    rw [← hunchecked] at hd
    exact hd.renamed hf hr ha
  · rw [generate, lower_renamed]
    exact hgenerate

/-- A program with a global variable that is used before a local of the same name is declared, and
a function that calls itself. -/
def hidesLater : String :=
  "int x; int count(int a) \x7b x = a; \x7b int x; x = a - 1; if (x > 0) return count(x); \x7d " ++
    "return x; \x7d void main(void) \x7b write(count(3)); \x7d"

/-- Gives the local `x` of `hidesLater` the name of the parameter, which gets the name of the
function. -/
def shifted (x : String) : String :=
  if x = "x" then "a" else "count"

theorem hidesLater_shifted : ∃ ts, ∃ p q : Program, ∃ f ∈ q.functions,
    tokenize hidesLater = .ok ts ∧ parse ts = .ok p ∧ p.check.outcome = .ok q ∧
      (f.params ++ f.locals).map (fun v => shifted v.name) = ["count", "a"] ∧
        q.unchecked = p ∧
          (q.renamed f.name shifted).unchecked.check.outcome = .ok (q.renamed f.name shifted) ∧
            ∃ a, q.generate.outcome = .ok a ∧
              (q.renamed f.name shifted).generate.outcome = .ok a := by
  have hok : ((tokenize hidesLater).toOption.any fun ts => (parse ts).toOption.any fun p =>
      p.check.outcome.toOption.any fun q => q.functions.any fun f =>
        (f.params ++ f.locals).map (fun v => shifted v.name) == ["count", "a"] &&
          decide (∀ u ∈ f.params ++ f.locals, ∀ v ∈ f.params ++ f.locals,
            shifted u.name = shifted v.name → u.name = v.name) &&
          decide (∀ e ∈ f.body.exprs, e.Avoids shifted (f.params ++ f.locals))) = true := by
    decide +kernel
  simp only [Except.any_toOption_iff, List.any_eq_true, Bool.and_eq_true, beq_iff_eq,
    decide_eq_true_eq] at hok
  obtain ⟨ts, hts, p, hp, q, hq, f, hf, ⟨hnames, hr⟩, ha⟩ := hok
  exact ⟨ts, p, q, f, hf, hts, hp, hq, hnames, generate_renamed hp hq hf hr ha⟩

end Program

end Bpl
