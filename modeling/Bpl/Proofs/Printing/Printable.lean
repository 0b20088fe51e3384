import Bpl.Proofs.Scanning.Split
import Bpl.Proofs.Typing.Plain

namespace Bpl

open Lexeme (Spells)

/-- Expressions that a text can spell: their names, numbers and strings can be written, and an
index stands behind a name only. -/
inductive Expr.Printable : Expr → Prop
  | number {l : Location} {v : Int64} : 0 ≤ v → Printable (.number (.new l) v)
  | string {l : Location} {s : String} :
      (∀ c ∈ s.toList, c ≠ '"' ∧ c ≠ '\n') → Printable (.string (.new l) s)
  | read {l : Location} : Printable (.read (.new l))
  | name {l : Location} {x : String} : Spells .ident x.toList → Printable (.name (.new l) x)
  | assign {l : Location} {target value : Expr} :
      Printable target → Printable value → Printable (.assign (.new l) target value)
  | binary {l : Location} {op : BinaryOp} {left right : Expr} :
      Printable left → Printable right → Printable (.binary (.new l) op left right)
  | unary {l : Location} {op : UnaryOp} {e : Expr} :
      Printable e → Printable (.unary (.new l) op e)
  | index {l m : Location} {x : String} {i : Expr} :
      Spells .ident x.toList → Printable i →
        Printable (.index (.new l) (.name (.new m) x) i)
  | call {l : Location} {x : String} {args : List Expr} :
      Spells .ident x.toList → (∀ e ∈ args, Printable e) → Printable (.call (.new l) x args)

structure Variable.Printable (v : Variable) : Prop where
  name : Spells .ident v.name.toList
  ty : v.ty.isDeclared = true
  length : ∀ t n, v.ty = .array t n → 0 ≤ n.toInt64

structure Variable.PrintableParam (v : Variable) : Prop where
  name : Spells .ident v.name.toList
  ty : v.ty.isSpec = true

/-- A type that begins with the word `void`. -/
def Ty.BeginsVoid (ty : Ty) : Prop :=
  ty = .void ∨ ty = .pointer .void

/-- Statements of printable parts in which an `else` stands behind no other open `if` than its
own. -/
inductive Stmt.Printable : Stmt → Prop
  | compound {l m : Location} {vs : List Variable} {ss : List Stmt} :
      (∀ v ∈ vs, v.Printable) → (∀ s ∈ ss, Printable s) → Printable (.compound l (.mk m vs ss))
  | ifThen {l : Location} {e : Expr} {yes : Stmt} :
      e.Printable → Printable yes → Printable (.ifThen l e yes)
  | ifElse {l : Location} {e : Expr} {yes no : Stmt} :
      e.Printable → Printable yes → yes.isOpen = false → Printable no →
        Printable (.ifElse l e yes no)
  | whileDo {l : Location} {e : Expr} {body : Stmt} :
      e.Printable → Printable body → Printable (.whileDo l e body)
  | retNone {l : Location} : Printable (.ret l none)
  | retSome {l : Location} {e : Expr} : e.Printable → Printable (.ret l (some e))
  | write {l : Location} {e : Expr} : e.Printable → Printable (.write l e)
  | writeln {l : Location} : Printable (.writeln l)
  | expr {l : Location} {e : Expr} : e.Printable → Printable (.expr l e)

structure Block.Printable (b : Block) : Prop where
  decls : ∀ v ∈ b.decls, v.Printable
  stmts : ∀ s ∈ b.stmts, s.Printable

/-- A function that is not checked yet. Its first parameter is not taken for an empty list. -/
structure Function.Printable (f : Function) : Prop where
  name : Spells .ident f.name.toList
  result : f.result.isSpec = true
  params : ∀ v ∈ f.params, v.PrintableParam
  first : ∀ v ∈ f.params.head?, ¬v.ty.BeginsVoid
  body : f.body.Printable
  locals : f.locals = []

inductive Decl.Printable : Decl → Prop
  | var {v : Variable} : v.Printable → Printable (.var v)
  | function {f : Function} : f.Printable → Printable (.function f)

/-- Programs that a text can spell. -/
def Program.Printable (p : Program) : Prop :=
  ∀ d ∈ p, d.Printable

/-- The parts of a printable expression are printable. -/
theorem Expr.Printable.nodes {e : Expr} (h : e.Printable) : ∀ x ∈ e.nodes, x.Printable := by
  induction h with
  | number h => exact List.forall_mem_singleton.2 (.number h)
  | string h => exact List.forall_mem_singleton.2 (.string h)
  | read => exact List.forall_mem_singleton.2 .read
  | name h => exact List.forall_mem_singleton.2 (.name h)
  | assign h h' ih ih' =>
    exact List.forall_mem_cons.2 ⟨.assign h h', List.forall_mem_append.2 ⟨ih, ih'⟩⟩
  | binary h h' ih ih' =>
    exact List.forall_mem_cons.2 ⟨.binary h h', List.forall_mem_append.2 ⟨ih, ih'⟩⟩
  | unary h ih => exact List.forall_mem_cons.2 ⟨.unary h, ih⟩
  | index hx h ih =>
    refine List.forall_mem_cons.2 ⟨.index hx h, List.forall_mem_append.2 ⟨?_, ih⟩⟩
    exact List.forall_mem_singleton.2 (.name hx)
  | @call l x args hx h ih =>
    refine List.forall_mem_cons.2 ⟨.call hx h, ?_⟩
    clear h
    induction args with
    | nil => exact List.forall_mem_nil _
    | cons e es ih' =>
      rw [List.forall_mem_cons] at ih
      exact List.forall_mem_append.2 ⟨ih.1, ih' ih.2⟩

theorem Stmt.Printable.exprs {s : Stmt} (h : s.Printable) : ∀ e ∈ s.exprs, e.Printable := by
  induction h with
  | @compound l m vs ss _ h ih =>
    clear h
    change ∀ e ∈ Stmt.exprsOfList ss, e.Printable
    induction ss with
    | nil => exact List.forall_mem_nil _
    | cons s ss ih' =>
      rw [List.forall_mem_cons] at ih
      exact List.forall_mem_append.2 ⟨ih.1, ih' ih.2⟩
  | ifThen h _ ih => exact List.forall_mem_cons.2 ⟨h, ih⟩
  | ifElse h _ _ _ ih ih' => exact List.forall_mem_cons.2 ⟨h, List.forall_mem_append.2 ⟨ih, ih'⟩⟩
  | whileDo h _ ih => exact List.forall_mem_cons.2 ⟨h, ih⟩
  | retNone | writeln => exact List.forall_mem_nil _
  | retSome h | write h | expr h => exact List.forall_mem_singleton.2 h

theorem Block.Printable.exprs {b : Block} (h : b.Printable) : ∀ e ∈ b.exprs, e.Printable := by
  obtain ⟨l, vs, ss⟩ := b
  exact (Stmt.Printable.compound (l := l) (m := l) h.decls h.stmts).exprs

/-- Tokens of which each is a word that the scanner reads. -/
def Token.Scanned (us : List Token) : Prop :=
  ∀ t ∈ us, Spells t.kind t.text.toList

namespace Token

variable {t : Token} {us vs : List Token}

theorem Scanned.left (h : Scanned (us ++ vs)) : Scanned us :=
  (List.forall_mem_append.1 h).1

theorem Scanned.right (h : Scanned (us ++ vs)) : Scanned vs :=
  (List.forall_mem_append.1 h).2

theorem Scanned.head (h : Scanned (t :: us)) : Spells t.kind t.text.toList :=
  h t List.mem_cons_self

theorem Scanned.tail (h : Scanned (t :: us)) : Scanned us :=
  (List.forall_mem_cons.1 h).2

theorem Scanned.ident (h : Scanned (t :: us)) (ht : t.kind = .ident) :
    Spells .ident t.text.toList :=
  ht ▸ h.head

theorem Scanned.number {v : Int64} (h : Scanned (t :: us)) (ht : t.kind = .number (some v)) :
    0 ≤ v := by
  have hs := h.head
  rw [ht] at hs
  generalize t.text.toList = w at hs
  cases hs with
  | @number c cs _ hlt =>
    rw [Int64.le_iff_toInt_le, Int64.toInt_ofNat_of_lt (by simpa using hlt)]
    exact Int.natCast_nonneg _

theorem Scanned.string (h : Scanned (t :: us)) (ht : t.kind = .string) :
    ∀ c ∈ t.contents.toList, c ≠ '"' ∧ c ≠ '\n' := by
  have hs := h.head
  rw [ht] at hs
  rw [Token.contents]
  generalize t.text.toList = w at hs ⊢
  cases hs with
  | string hcs => simpa using hcs

end Token

open Token (Scanned)

namespace Grammar

open Parsing (Level)

mutual

theorem Assignment.printable {us : List Token} {e : Expr} :
    Assignment us e → Scanned us → e.Printable
  | .comparison h, hs => h.printable hs
  | .assign h₁ _ h₂, hs => .assign (h₁.printable hs.left) (h₂.printable hs.right.tail)

theorem Comparison.printable {us : List Token} {e : Expr} :
    Comparison us e → Scanned us → e.Printable
  | .sum h, hs => h.printable hs
  | .compare h₁ _ _ h₂, hs => .binary (h₁.printable hs.left) (h₂.printable hs.right.tail)

theorem Chain.printable {level : Level} {us : List Token} {e : Expr} :
    Chain level us e → Scanned us → e.Printable
  | .operand h, hs => h.printable hs
  | .more h₁ _ _ h₂, hs => .binary (h₁.printable hs.left) (h₂.printable hs.right.tail)

theorem Operand.printable {level : Level} {us : List Token} {e : Expr} :
    Operand level us e → Scanned us → e.Printable
  | .product h, hs => h.printable hs
  | .signed h, hs => h.printable hs

theorem Signed.printable {us : List Token} {e : Expr} : Signed us e → Scanned us → e.Printable
  | .factor h, hs => h.printable hs
  | .sign _ h, hs => .unary (h.printable hs.tail)

theorem Factor.printable {us : List Token} {e : Expr} : Factor us e → Scanned us → e.Printable
  | .parentheses _ h _, hs => h.printable hs.tail.left
  | .read .., _ => .read
  | .number ht, hs => .number (hs.number ht)
  | .string ht, hs => .string (hs.string ht)
  | .name ht, hs => .name (hs.ident ht)
  | .index ht _ h _, hs => .index (hs.ident ht) (h.printable hs.tail.tail.left)
  | .call ht _ h _, hs => .call (hs.ident ht) (h.printable hs.tail.tail.left)

theorem Arguments.printable {us : List Token} {es : List Expr} :
    Arguments us es → Scanned us → ∀ e ∈ es, e.Printable
  | .nil, _ => nofun
  | .cons h₁ h₂, hs => List.forall_mem_cons.2 ⟨h₁.printable hs.left, h₂.printable hs.right⟩

theorem MoreArguments.printable {us : List Token} {es : List Expr} :
    MoreArguments us es → Scanned us → ∀ e ∈ es, e.Printable
  | .nil, _ => nofun
  | .cons _ h₁ h₂, hs => List.forall_mem_cons.2
    ⟨h₁.printable hs.tail.left, h₂.printable hs.right⟩

end

theorem VariableDecl.printable {us : List Token} {v : Variable} (h : VariableDecl us v)
    (hs : Scanned us) : v.Printable := by
  refine ⟨?_, h.isDeclared, ?_⟩
  · cases h with
    | scalar _ hx _ => exact hs.right.ident hx
    | array _ hx _ _ _ _ _ => exact hs.tail.ident hx
  · rintro t n ht
    cases h with
    | scalar h _ _ =>
      have ha := Ty.isArray_of_isSpec h.isSpec
      dsimp only at ht
      rw [ht] at ha
      cases ha
    | @array _ _ _ _ _ _ _ length _ _ _ _ hn _ _ =>
      cases ht
      rwa [length.toInt64_toUInt64]

theorem VariableDecls.printable {us : List Token} {vs : List Variable} :
    VariableDecls us vs → Scanned us → ∀ v ∈ vs, v.Printable
  | .nil, _ => nofun
  | .cons h₁ h₂, hs => List.forall_mem_cons.2 ⟨h₁.printable hs.left, h₂.printable hs.right⟩

mutual

theorem Statement.printable {us : List Token} {s : Stmt} :
    Statement us s → Scanned us → s.Printable
  | .compound (.mk _ h₁ h₂ _), hs =>
    .compound (h₁.printable hs.left.left.tail) (h₂.printable hs.left.right)
  | .ifThen _ _ h₁ _ h₂, hs =>
    .ifThen (h₁.printable hs.tail.tail.left) (h₂.printable hs.right.tail)
  | .ifElse _ _ h₁ _ h₂ ho _ h₃, hs =>
    .ifElse (h₁.printable hs.left.tail.tail.left) (h₂.printable hs.left.right.tail) ho
      (h₃.printable hs.right.tail)
  | .whileDo _ _ h₁ _ h₂, hs =>
    .whileDo (h₁.printable hs.tail.tail.left) (h₂.printable hs.right.tail)
  | .retNone .., _ => .retNone
  | .retSome _ h _, hs => .retSome (h.printable hs.tail.left)
  | .write _ _ h _ _, hs => .write (h.printable hs.tail.tail.left)
  | .writeln .., _ => .writeln
  | .expr h _, hs => .expr (h.printable hs.left)

theorem Statements.printable {us : List Token} {ss : List Stmt} :
    Statements us ss → Scanned us → ∀ s ∈ ss, s.Printable
  | .nil, _ => nofun
  | .cons h₁ h₂, hs => List.forall_mem_cons.2 ⟨h₁.printable hs.left, h₂.printable hs.right⟩

end

theorem Block.printable {us : List Token} {b : Bpl.Block} :
    Block us b → Scanned us → b.Printable
  | .mk _ h₁ h₂ _, hs => ⟨h₁.printable hs.left.left.tail, h₂.printable hs.left.right⟩

theorem Param.printable {us : List Token} {v : Variable} :
    Param us v → Scanned us → v.PrintableParam
  | .scalar h hx, hs => ⟨hs.right.ident hx, h.isSpec⟩
  | .array ht hx _ _, hs => ⟨hs.tail.ident hx, isBase_of_isBaseType ht⟩

theorem MoreParams.printable {us : List Token} {vs : List Variable} :
    MoreParams us vs → Scanned us → ∀ v ∈ vs, v.PrintableParam
  | .nil, _ => nofun
  | .cons _ h₁ h₂, hs => List.forall_mem_cons.2
    ⟨h₁.printable hs.tail.left, h₂.printable hs.right⟩

theorem Params.printable {us : List Token} {vs : List Variable} :
    Params us vs → Scanned us → ∀ v ∈ vs, v.PrintableParam
  | .void _, _ => nofun
  | .list _ h₁ h₂, hs => List.forall_mem_cons.2 ⟨h₁.printable hs.left, h₂.printable hs.right⟩

theorem not_beginsVoid_of_isBaseType {t : Token} {ty : Ty} (ht : t.isWord "void" = false)
    (h : t.isBaseType ty) : ¬ty.BeginsVoid ∧ ¬(Ty.pointer ty).BeginsVoid := by
  obtain ⟨w, hw, htw⟩ := h
  have hne : w ≠ "void" := by
    rintro rfl
    rw [ht] at htw
    cases htw
  simp only [Parsing.baseTypes, List.mem_cons, Prod.mk.injEq, List.not_mem_nil, or_false] at hw
  rcases hw with ⟨_, rfl⟩ | ⟨_, rfl⟩ | ⟨hv, _⟩
  · simp [Ty.BeginsVoid]
  · simp [Ty.BeginsVoid]
  · exact absurd hv hne

/-- A parameter that does not begin with the word `void` has no type that does. -/
theorem Param.not_beginsVoid {t : Token} {us vs : List Token} {v : Variable}
    (ht : t.isWord "void" = false) (h : Param us v) (hus : us = t :: vs) : ¬v.ty.BeginsVoid := by
  cases h with
  | scalar h _ =>
    cases h with
    | base hb =>
      obtain ⟨rfl, _⟩ := List.cons.inj hus
      exact (not_beginsVoid_of_isBaseType ht hb).1
    | pointer hb _ =>
      obtain ⟨rfl, _⟩ := List.cons.inj hus
      exact (not_beginsVoid_of_isBaseType ht hb).2
  | array hb _ _ _ =>
    obtain ⟨rfl, _⟩ := List.cons.inj hus
    exact (not_beginsVoid_of_isBaseType ht hb).2

theorem Params.first {us : List Token} {vs : List Variable} :
    Params us vs → ∀ v ∈ vs.head?, ¬v.ty.BeginsVoid
  | .void _ => nofun
  | .list ht h _ => by
    rintro _ ⟨⟩
    exact h.not_beginsVoid ht rfl

theorem Declaration.printable {us : List Token} {d : Decl} :
    Declaration us d → Scanned us → d.Printable
  | .var h, hs => .var (h.printable hs)
  | .function h₁ hx _ h₂ _ h₃, hs =>
    .function ⟨hs.left.right.ident hx, h₁.isSpec, h₂.printable hs.left.right.tail.tail, h₂.first,
      h₃.printable hs.right.tail, rfl⟩

theorem Program.printable {us : List Token} {p : Bpl.Program} :
    Program us p → Scanned us → p.Printable
  | .nil, _ => nofun
  | .cons h₁ h₂, hs => List.forall_mem_cons.2 ⟨h₁.printable hs.left, h₂.printable hs.right⟩

end Grammar

end Bpl
