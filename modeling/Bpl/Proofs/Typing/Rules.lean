import Bpl.Proofs.Tree.Nodes

theorem List.Forall₂.exists_of_mem_left {α β : Type} {R : α → β → Prop} {as : List α}
    {bs : List β} (h : List.Forall₂ R as bs) {a : α} (ha : a ∈ as) : ∃ b ∈ bs, R a b := by
  induction h with
  | nil => cases ha
  | cons hr _ ih =>
    rcases List.mem_cons.1 ha with rfl | ha
    · exact ⟨_, List.mem_cons_self, hr⟩
    · obtain ⟨b, hb, hr⟩ := ih ha
      exact ⟨b, List.mem_cons_of_mem _ hb, hr⟩

theorem List.Forall₂.exists_of_mem_right {α β : Type} {R : α → β → Prop} {as : List α}
    {bs : List β} (h : List.Forall₂ R as bs) {b : β} (hb : b ∈ bs) : ∃ a ∈ as, R a b :=
  h.flip.exists_of_mem_left hb

namespace Bpl

/-- Bytes that a variable of a type takes, however many they are. -/
def Ty.bytes : Ty → Nat
  | .array _ n => wordSize * n.toNat
  | .void | .function _ _ => 0
  | .int | .string | .pointer _ => wordSize

/-- A variable that a program may declare. -/
structure Variable.Valid (v : Variable) : Prop where
  notVoid : v.ty ≠ .void
  notEmpty : ∀ element length, v.ty = .array element length → length ≠ 0
  fits : v.ty.bytes ≤ Ty.maxObjectSize

/-- The note of an expression that is found to have a type. -/
def Note.judged (n : Note) (ty : Ty) (lvalue : Bool) : Note :=
  ⟨n.location, some ty, lvalue⟩

namespace Typing

/-- The declarations that a place in a function sees: those of the program, the parameters of the
function, and those of its locals that are declared so far. -/
structure View where
  program : Program
  params : List Variable
  locals : List Variable

/-- What a name stands for. Parameters and locals hide the declarations of the program. -/
inductive View.Sees (w : View) (x : String) : Ty → Slot → Prop
  | parameter {i : Nat} {v : Variable} :
      w.params[i]? = some v → v.name = x → w.Sees x v.ty (.parameter i)
  | localVar {i : Nat} {v : Variable} :
      w.locals[i]? = some v → v.name = x → w.Sees x v.ty (.localVar i)
  | global {d : Decl} :
      (∀ v ∈ w.params ++ w.locals, v.name ≠ x) → d ∈ w.program → d.name = x →
        w.Sees x d.ty .global

mutual

/-- `Judges w e ty lvalue e'`: the expression `e` has the type `ty`, it names a place in memory if
`lvalue` is set, and `e'` is `e` with its names linked and each part noted with its type. -/
inductive Judges (w : View) : Expr → Ty → Bool → Expr → Prop
  | number {n : Note} {v : Int64} :
      Judges w (.number n v) .int false (.number (n.judged .int false) v)
  | string {n : Note} {s : String} :
      Judges w (.string n s) .string false (.string (n.judged .string false) s)
  | read {n : Note} : Judges w (.read n) .int false (.read (n.judged .int false))
  | name {n : Note} {x : String} {ty : Ty} {slot : Slot} :
      w.Sees x ty slot → ty.isFunction = false →
        Judges w (.name n x) ty (!ty.isArray) (.var (n.judged ty (!ty.isArray)) x slot)
  | assign {n : Note} {target target' value value' : Expr} {ty : Ty} {a : Bool} :
      Judges w target ty true target' → ty ≠ .void → Judges w value ty a value' →
        Judges w (.assign n target value) ty false (.assign (n.judged ty false) target' value')
  | comparison {n : Note} {op : BinaryOp} {left left' right right' : Expr} {ty : Ty}
      {a b : Bool} :
      op.isComparison = true → Judges w left ty a left' → ty.isComparable = true →
        Judges w right ty b right' →
          Judges w (.binary n op left right) .int false
            (.binary (n.judged .int false) op left' right')
  | arithmetic {n : Note} {op : BinaryOp} {left left' right right' : Expr} {a b : Bool} :
      op.isComparison = false → Judges w left .int a left' → Judges w right .int b right' →
        Judges w (.binary n op left right) .int false
          (.binary (n.judged .int false) op left' right')
  | neg {n : Note} {e e' : Expr} {a : Bool} :
      Judges w e .int a e' →
        Judges w (.unary n .neg e) .int false (.unary (n.judged .int false) .neg e')
  | address {n : Note} {e e' : Expr} {ty : Ty} :
      Judges w e ty true e' → ty ≠ .void →
        Judges w (.unary n .address e) (.pointer ty) false
          (.unary (n.judged (.pointer ty) false) .address e')
  | deref {n : Note} {e e' : Expr} {ty : Ty} {a : Bool} :
      Judges w e (.pointer ty) a e' →
        Judges w (.unary n .deref e) ty true (.unary (n.judged ty true) .deref e')
  | index {n : Note} {base base' index index' : Expr} {ty element : Ty} {a b : Bool} :
      Judges w base ty a base' → ty.base? = some element → Judges w index .int b index' →
        Judges w (.index n base index) element true
          (.index (n.judged element true) base' index')
  | call {n : Note} {d : Decl} {params : List Ty} {result : Ty} {args args' : List Expr} :
      d ∈ w.program → d.ty = .function params result → PassesAll w args params args' →
        Judges w (.call n d.name args) result false (.call (n.judged result false) d.name args')

/-- An argument that may be passed to a parameter of a type: its type is the same, or it is the
name of an array and becomes a pointer to the first element. -/
inductive Passes (w : View) : Expr → Ty → Expr → Prop
  | value {e e' : Expr} {ty : Ty} {a : Bool} :
      Judges w e ty a e' → ty ≠ .void → Passes w e ty e'
  | decay {n : Note} {x : String} {ty : Ty} {length : UInt64} {slot : Slot} :
      w.Sees x (.array ty length) slot →
        Passes w (.name n x) (.pointer ty) (.decay (n.judged (.pointer ty) false) x slot)

/-- As many arguments as parameters, each passed to its own. -/
inductive PassesAll (w : View) : List Expr → List Ty → List Expr → Prop
  | nil : PassesAll w [] [] []
  | cons {e e' : Expr} {ty : Ty} {es es' : List Expr} {tys : List Ty} :
      Passes w e ty e' → PassesAll w es tys es' → PassesAll w (e :: es) (ty :: tys) (e' :: es')

end

/-- What all of a function sees, and the type that it returns. -/
structure Setting where
  program : Program
  params : List Variable
  result : Ty

def Setting.view (c : Setting) (ls : List Variable) : View :=
  ⟨c.program, c.params, ls⟩

mutual

/-- `Allows c ls s s'`: after the locals `ls` are declared, the statement `s` keeps the rules, and
`s'` is `s` with all its expressions judged. -/
inductive Allows (c : Setting) : List Variable → Stmt → Stmt → Prop
  | compound {ls : List Variable} {l : Location} {b b' : Block} :
      AllowsBlock c ls b b' → Allows c ls (.compound l b) (.compound l b')
  | ifThen {ls : List Variable} {l : Location} {e e' : Expr} {a : Bool} {yes yes' : Stmt} :
      Judges (c.view ls) e .int a e' → Allows c ls yes yes' →
        Allows c ls (.ifThen l e yes) (.ifThen l e' yes')
  | ifElse {ls : List Variable} {l : Location} {e e' : Expr} {a : Bool}
      {yes yes' no no' : Stmt} :
      Judges (c.view ls) e .int a e' → Allows c ls yes yes' →
        Allows c (ls ++ yes.locals) no no' →
          Allows c ls (.ifElse l e yes no) (.ifElse l e' yes' no')
  | whileDo {ls : List Variable} {l : Location} {e e' : Expr} {a : Bool} {body body' : Stmt} :
      Judges (c.view ls) e .int a e' → Allows c ls body body' →
        Allows c ls (.whileDo l e body) (.whileDo l e' body')
  | retNone {ls : List Variable} {l : Location} :
      c.result = .void → Allows c ls (.ret l none) (.ret l none)
  | retSome {ls : List Variable} {l : Location} {e e' : Expr} {a : Bool} :
      c.result ≠ .void → Judges (c.view ls) e c.result a e' →
        Allows c ls (.ret l (some e)) (.ret l (some e'))
  | expr {ls : List Variable} {l : Location} {e e' : Expr} {ty : Ty} {a : Bool} :
      Judges (c.view ls) e ty a e' → Allows c ls (.expr l e) (.expr l e')
  | write {ls : List Variable} {l : Location} {e e' : Expr} {ty : Ty} {a : Bool} :
      Judges (c.view ls) e ty a e' → ty = .int ∨ ty = .string →
        Allows c ls (.write l e) (.write l e')
  | writeln {ls : List Variable} {l : Location} : Allows c ls (.writeln l) (.writeln l)

inductive AllowsBlock (c : Setting) : List Variable → Block → Block → Prop
  | mk {ls : List Variable} {l : Location} {vs : List Variable} {ss ss' : List Stmt} :
      AllowsAll c (ls ++ vs) ss ss' → AllowsBlock c ls (.mk l vs ss) (.mk l vs ss')

inductive AllowsAll (c : Setting) : List Variable → List Stmt → List Stmt → Prop
  | nil {ls : List Variable} : AllowsAll c ls [] []
  | cons {ls : List Variable} {s s' : Stmt} {ss ss' : List Stmt} :
      Allows c ls s s' → AllowsAll c (ls ++ s.locals) ss ss' →
        AllowsAll c ls (s :: ss) (s' :: ss')

end

/-- A declaration of the program `p` that keeps the rules, and its form with all expressions
judged. The locals of a function are those of all its blocks. -/
inductive AllowsDecl (p : Program) : Decl → Decl → Prop
  | var {v : Variable} : v.Valid → AllowsDecl p (.var v) (.var v)
  | function {f : Function} {body : Block} :
      (∀ v ∈ f.params ++ f.body.locals, v.Valid) →
      ((f.params ++ f.body.locals).map Variable.name).Nodup →
      (f.body.locals.map (·.ty.bytes)).sum ≤ Ty.maxObjectSize →
      AllowsBlock ⟨p, f.params, f.result⟩ [] f.body body →
        AllowsDecl p (.function f)
          (.function { f with body := body, locals := f.body.locals })

end Typing

/-- `p.Derives p'`: the program `p` keeps all rules of the language, and `p'` is `p` with all its
expressions judged. -/
structure Program.Derives (p p' : Program) : Prop where
  distinct : (p.map Decl.name).Nodup
  main : ∃ d ∈ p, d.name = "main" ∧ d.ty = .function [] .void
  decls : List.Forall₂ (Typing.AllowsDecl p) p p'

end Bpl
