import Bpl.Proofs.Typing.Rules

namespace Bpl

/-- `p.Knows q`: the program `p` declares all names of `q`, each under the same type. -/
def Program.Knows (p q : Program) : Prop :=
  ∀ d ∈ q, ∃ d' ∈ p, d'.name = d.name ∧ d'.ty = d.ty

theorem Program.knows_of_subset {p q : Program} (h : q ⊆ p) : p.Knows q := by
  intro d hd
  exact ⟨d, h hd, rfl, rfl⟩

namespace Typing

/-- The same place in a function of another program. -/
def View.among (w : View) (p : Program) : View :=
  ⟨p, w.params, w.locals⟩

def Setting.among (c : Setting) (p : Program) : Setting :=
  ⟨p, c.params, c.result⟩

variable {p : Program}

theorem View.Sees.weaken {w : View} (h : p.Knows w.program) {x : String} {ty : Ty} {slot : Slot}
    (hs : w.Sees x ty slot) : (w.among p).Sees x ty slot := by
  cases hs with
  | parameter hi hx => exact .parameter hi hx
  | localVar hi hx => exact .localVar hi hx
  | global hn hd hx =>
    obtain ⟨d', hd', hname, hty⟩ := h _ hd
    rw [← hty]
    exact .global hn hd' (hname.trans hx)

mutual

/-- Further declarations of a program change no judgement: a look-up that succeeds finds the same
declaration among more of them. -/
theorem Judges.weaken {w : View} (h : p.Knows w.program) {e e' : Expr} {ty : Ty} {a : Bool}
    (j : Judges w e ty a e') : Judges (w.among p) e ty a e' := by
  match j with
  | .number => exact .number
  | .string => exact .string
  | .read => exact .read
  | .name hs hf => exact .name (hs.weaken h) hf
  | .assign jt hv jv => exact .assign (jt.weaken h) hv (jv.weaken h)
  | .comparison hop jl hc jr => exact .comparison hop (jl.weaken h) hc (jr.weaken h)
  | .arithmetic hop jl jr => exact .arithmetic hop (jl.weaken h) (jr.weaken h)
  | .neg je => exact .neg (je.weaken h)
  | .address je hv => exact .address (je.weaken h) hv
  | .deref je => exact .deref (je.weaken h)
  | .index jb he ji => exact .index (jb.weaken h) he (ji.weaken h)
  | .call hd hty ja =>
    obtain ⟨d', hd', hname, hty'⟩ := h _ hd
    rw [← hname]
    exact .call hd' (hty'.trans hty) (ja.weaken h)

theorem Passes.weaken {w : View} (h : p.Knows w.program) {e e' : Expr} {ty : Ty}
    (j : Passes w e ty e') : Passes (w.among p) e ty e' := by
  match j with
  | .value je hv => exact .value (je.weaken h) hv
  | .decay hs => exact .decay (hs.weaken h)

theorem PassesAll.weaken {w : View} (h : p.Knows w.program) {es es' : List Expr} {tys : List Ty}
    (j : PassesAll w es tys es') : PassesAll (w.among p) es tys es' := by
  match j with
  | .nil => exact .nil
  | .cons je js => exact .cons (je.weaken h) (js.weaken h)

end

variable {c : Setting}

mutual

theorem Allows.weaken (h : p.Knows c.program) {ls : List Variable} {s s' : Stmt}
    (j : Allows c ls s s') : Allows (c.among p) ls s s' := by
  match j with
  | .compound jb => exact .compound (jb.weaken h)
  | .ifThen je jy => exact .ifThen (je.weaken h) (jy.weaken h)
  | .ifElse je jy jn => exact .ifElse (je.weaken h) (jy.weaken h) (jn.weaken h)
  | .whileDo je jb => exact .whileDo (je.weaken h) (jb.weaken h)
  | .retNone hv => exact .retNone hv
  | .retSome hv je => exact .retSome hv (je.weaken h)
  | .expr je => exact .expr (je.weaken h)
  | .write je hty => exact .write (je.weaken h) hty
  | .writeln => exact .writeln

theorem AllowsBlock.weaken (h : p.Knows c.program) {ls : List Variable} {b b' : Block}
    (j : AllowsBlock c ls b b') : AllowsBlock (c.among p) ls b b' := by
  match j with
  | .mk js => exact .mk (js.weaken h)

theorem AllowsAll.weaken (h : p.Knows c.program) {ls : List Variable} {ss ss' : List Stmt}
    (j : AllowsAll c ls ss ss') : AllowsAll (c.among p) ls ss ss' := by
  match j with
  | .nil => exact .nil
  | .cons js jss => exact .cons (js.weaken h) (jss.weaken h)

end

/-- A declaration that keeps the rules keeps them among more declarations, with the same result. -/
theorem AllowsDecl.weaken {q : Program} (h : p.Knows q) {d d' : Decl} (j : AllowsDecl q d d') :
    AllowsDecl p d d' := by
  cases j with
  | var hv => exact .var hv
  | function hv hn hfit jb => exact .function hv hn hfit (jb.weaken h)

theorem weaken_all {q : Program} (h : p.Knows q) {ds ds' : List Decl}
    (js : List.Forall₂ (AllowsDecl q) ds ds') : List.Forall₂ (AllowsDecl p) ds ds' := by
  induction js with
  | nil => exact .nil
  | cons j _ ih => exact .cons (j.weaken h) ih

end Typing

end Bpl
