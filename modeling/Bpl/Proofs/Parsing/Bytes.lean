import Bpl.Proofs.Parsing.Complete
import Bpl.Proofs.Scanning.Split

namespace Bpl

namespace Token

/-- The gap that stands at least behind a word of the language if a name follows. -/
def gap (t : Token) : List Token → Nat
  | [] => 0
  | u :: _ => if t.text ∈ keywords ∧ u.kind = .ident then 1 else 0

/-- Bytes that a text of some tokens has at least. -/
def bytes : List Token → Nat
  | [] => 0
  | t :: ts => max 1 t.length + t.gap ts + bytes ts

theorem gap_append (t : Token) (us vs : List Token) : t.gap us ≤ t.gap (us ++ vs) := by
  cases us with
  | nil => exact Nat.zero_le _
  | cons u us => exact le_refl _

theorem bytes_append (us vs : List Token) : bytes us + bytes vs ≤ bytes (us ++ vs) := by
  induction us with
  | nil => simp [bytes]
  | cons t us ih =>
    have := t.gap_append us vs
    rw [List.cons_append, bytes, bytes]
    omega

theorem bytes_cons (t : Token) (us : List Token) : 1 + bytes us ≤ bytes (t :: us) := by
  rw [bytes]
  omega

theorem one_le_bytes {ws : List String} {us : List Token} (h : Parsing.Starts ws us) :
    1 ≤ bytes us := by
  obtain ⟨t, us, rfl, _⟩ := h
  have := bytes_cons t us
  omega

theorem isBaseType.length {t : Token} {ty : Ty} (ht : t.isBaseType ty) :
    t.text ∈ keywords ∧ 3 ≤ t.length := by
  obtain ⟨w, hw, htw⟩ := ht
  have hbase : ∀ w ∈ Parsing.baseTypes.map Prod.fst, w ∈ keywords ∧ 3 ≤ w.utf8ByteSize := by
    decide
  rw [Token.length, (Parsing.isWord_iff.1 htw).2]
  exact hbase w (List.mem_map_of_mem hw)

/-- A word of a base type and a name take five bytes. -/
theorem isBaseType.bytes {t x : Token} {ty : Ty} (ht : t.isBaseType ty) (hx : x.kind = .ident)
    (us : List Token) : 5 + bytes us ≤ bytes (t :: x :: us) := by
  obtain ⟨hkey, hlen⟩ := isBaseType.length ht
  have hgap : t.gap (x :: us) = 1 := if_pos ⟨hkey, hx⟩
  have := bytes_cons x us
  rw [Token.bytes, hgap]
  omega

end Token

/-- What is written like a word of the language is one. -/
theorem Lexeme.Spells.eq_keyword {k : Token.Kind} {w : List Char} (h : Spells k w)
    (hw : String.ofList w ∈ Token.keywords) : k = .keyword := by
  obtain ⟨c, cs, hc, ha, _⟩ := chars_of_keyword hw
  rw [String.toList_ofList] at hc
  cases h with
  | keyword _ => rfl
  | ident _ _ hn => exact absurd hw hn
  | number hd _ =>
    obtain ⟨rfl, rfl⟩ := List.cons.inj hc
    rw [isAlpha_of_isDigit (hd _ List.mem_cons_self)] at ha
    cases ha
  | string _ =>
    obtain ⟨rfl, _⟩ := List.cons.inj hc
    cases ha
  | punctuator hp =>
    have hnone : ∀ p ∈ Token.punctuators.map String.toList, String.ofList p ∉ Token.keywords := by
      decide
    exact absurd hw (hnone _ hp)

namespace Split

/-- What stands in front of the first word. -/
def firstGap : List Piece → List Char → List Char
  | [], g => g
  | p :: _, _ => p.gap

theorem one_le_byteLength (c : Char) (cs : List Char) : 1 ≤ byteLength (c :: cs) := by
  have := c.utf8Size_pos
  rw [byteLength_cons]
  omega

/-- A word of the language that a name follows has a gap behind it. -/
theorem gap_le_firstGap (before : List Char) {g : List Char} {p : Piece} {ps : List Piece}
    (t : Token) (ht : t.text = String.ofList p.word) (hs : Lexeme.Spells p.kind p.word)
    (hl : Lexeme.Longest p.kind p.word (text ⟨ps, g⟩ ++ [])) (hfits : Fits [] ⟨ps, g⟩) :
    t.gap (tokensAfter before ps g) ≤ byteLength (firstGap ps g) := by
  cases hfits with
  | last _ => exact (if_neg (by simp [token])).trans_le (Nat.zero_le _)
  | @piece q qs _ _ hq _ _ =>
    rw [tokensAfter, Token.gap]
    split
    · next h =>
      -- the name begins with a letter, so that without a gap the word would be longer
      rw [ht] at h
      have hkind := hs.eq_keyword h.1
      rw [hkind, List.append_nil] at hl
      have hgap : q.gap ≠ [] := by
        intro hnil
        rw [show (token _ q.kind q.word).kind = q.kind from rfl] at h
        rw [h.2] at hq
        cases hw : q.word with
        | nil => exact hq.ne_nil hw
        | cons c cs =>
          rw [hw] at hq
          have hc := hl c (by simp [text, hnil, hw])
          cases hq with
          | ident ha _ _ => simp [Lexeme.isWordChar, Char.isAlphanum, ha] at hc
      obtain ⟨c, cs, hcs⟩ := List.exists_cons_of_ne_nil hgap
      rw [firstGap, hcs]
      exact one_le_byteLength c cs
    · exact Nat.zero_le _

/-- A text has at least the bytes of its tokens. -/
theorem bytes_tokensAfter {s : Split} (h : s.Fits []) (before : List Char) :
    byteLength (firstGap s.pieces s.last) + Token.bytes (tokensAfter before s.pieces s.last) ≤
      byteLength s.text + 1 := by
  induction h generalizing before with
  | @last g _ => simp [firstGap, tokensAfter, Token.bytes, Token.gap, token, Token.length, text]
  | @piece p ps g _ hs hl hfits ih =>
    obtain ⟨c, cs, hw⟩ := List.exists_cons_of_ne_nil hs.ne_nil
    have hone : 1 ≤ byteLength p.word := hw ▸ one_le_byteLength c cs
    have hgap := gap_le_firstGap (before ++ p.gap ++ p.word)
      (token (before ++ p.gap) p.kind p.word) rfl hs hl hfits
    have hrest := ih (before ++ p.gap ++ p.word)
    dsimp only at hrest
    have htext : text ⟨p :: ps, g⟩ ++ [] = p.gap ++ (p.word ++ (text ⟨ps, g⟩ ++ [])) :=
      text_cons p ps g
    rw [List.append_nil, List.append_nil] at htext
    rw [htext]
    simp only [firstGap, tokensAfter]
    rw [Token.bytes, byteLength_append, byteLength_append, Token.length,
      show (token _ p.kind p.word).text = String.ofList p.word from rfl,
      utf8ByteSize_ofList]
    omega

end Split

open Token (bytes)

/-- A call in an expression that is written in `n` bytes. -/
def Expr.WrittenIn (n : Nat) : Expr → Prop
  | .call _ _ args => 2 * args.length + 2 ≤ n
  | _ => True

/-- Expressions that are written with some tokens. -/
def Expr.Written (us : List Token) (es : List Expr) : Prop :=
  ∀ e ∈ es, e.WrittenIn (bytes us)

namespace Expr

variable {us vs : List Token} {es : List Expr}

theorem WrittenIn.mono {m n : Nat} {e : Expr} (h : e.WrittenIn m) (hn : m ≤ n) :
    e.WrittenIn n := by
  cases e with
  | call => exact le_trans h hn
  | _ => trivial

theorem Written.left (h : Written us es) : Written (us ++ vs) es := by
  have := Token.bytes_append us vs
  exact fun e he => (h e he).mono (by omega)

theorem Written.right (h : Written vs es) : Written (us ++ vs) es := by
  have := Token.bytes_append us vs
  exact fun e he => (h e he).mono (by omega)

theorem Written.tail {t : Token} (h : Written us es) : Written (t :: us) es := by
  have := Token.bytes_cons t us
  exact fun e he => (h e he).mono (by omega)

end Expr

open Bpl.Expr (Written)

namespace Grammar

theorem MoreArguments.two_mul_length_le {us : List Token} {es : List Expr}
    (h : MoreArguments us es) : 2 * es.length ≤ bytes us := by
  cases h with
  | nil => exact Nat.zero_le _
  | @cons us vs t e es _ h₁ h₂ =>
    have hrest := h₂.two_mul_length_le
    have hone := Token.one_le_bytes (Parsing.Assignment.starts h₁)
    have hcomma := Token.bytes_cons t us
    have hboth := Token.bytes_append (t :: us) vs
    rw [List.length_cons]
    omega

theorem Arguments.two_mul_length_le {us : List Token} {es : List Expr} (h : Arguments us es) :
    2 * es.length ≤ bytes us + 1 := by
  cases h with
  | nil => exact Nat.zero_le _
  | @cons us vs e es h₁ h₂ =>
    have hrest := h₂.two_mul_length_le
    have hone := Token.one_le_bytes (Parsing.Assignment.starts h₁)
    have hboth := Token.bytes_append us vs
    rw [List.length_cons]
    omega

mutual

/-- Each call takes two bytes for each of its arguments. -/
theorem Assignment.written {us : List Token} {e : Expr} : Assignment us e → Written us e.nodes
  | .comparison h => h.written
  | .assign h₁ _ h₂ => List.forall_mem_cons.2
    ⟨trivial, List.forall_mem_append.2 ⟨h₁.written.left, h₂.written.tail.right⟩⟩

theorem Comparison.written {us : List Token} {e : Expr} : Comparison us e → Written us e.nodes
  | .sum h => h.written
  | .compare h₁ _ _ h₂ => List.forall_mem_cons.2
    ⟨trivial, List.forall_mem_append.2 ⟨h₁.written.left, h₂.written.tail.right⟩⟩

theorem Chain.written {level : Parsing.Level} {us : List Token} {e : Expr} :
    Chain level us e → Written us e.nodes
  | .operand h => h.written
  | .more h₁ _ _ h₂ => List.forall_mem_cons.2
    ⟨trivial, List.forall_mem_append.2 ⟨h₁.written.left, h₂.written.tail.right⟩⟩

theorem Operand.written {level : Parsing.Level} {us : List Token} {e : Expr} :
    Operand level us e → Written us e.nodes
  | .product h => h.written
  | .signed h => h.written

theorem Signed.written {us : List Token} {e : Expr} : Signed us e → Written us e.nodes
  | .factor h => h.written
  | .sign _ h => List.forall_mem_cons.2 ⟨trivial, h.written.tail⟩

theorem Factor.written {us : List Token} {e : Expr} : Factor us e → Written us e.nodes
  | .parentheses _ h _ => h.written.tail.left
  | .read .. | .number _ | .string _ | .name _ => List.forall_mem_singleton.2 trivial
  | .index _ _ h _ => List.forall_mem_cons.2
    ⟨trivial, List.forall_mem_cons.2 ⟨trivial, h.written.tail.tail.left⟩⟩
  | @Factor.call us t o c es _ _ h _ => by
    have hcount := h.two_mul_length_le
    have hopen := Token.bytes_cons o us
    have hname := Token.bytes_cons t (o :: us)
    have hclose := Token.bytes_append (t :: o :: us) [c]
    have hlast := Token.bytes_cons c []
    refine List.forall_mem_cons.2 ⟨?_, h.written.tail.tail.left⟩
    change _ ≤ _
    omega

theorem Arguments.written {us : List Token} {es : List Expr} :
    Arguments us es → Written us (Expr.nodesOfList es)
  | .nil => by simp [Written, Expr.nodesOfList]
  | .cons h₁ h₂ => List.forall_mem_append.2 ⟨h₁.written.left, h₂.written.right⟩

theorem MoreArguments.written {us : List Token} {es : List Expr} :
    MoreArguments us es → Written us (Expr.nodesOfList es)
  | .nil => by simp [Written, Expr.nodesOfList]
  | .cons _ h₁ h₂ => List.forall_mem_append.2 ⟨h₁.written.tail.left, h₂.written.right⟩

end

mutual

theorem Statement.written {us : List Token} {s : Stmt} :
    Statement us s → ∀ e ∈ s.exprs, Written us e.nodes
  | .compound h => h.written
  | .ifThen _ _ h₁ _ h₂ => List.forall_mem_cons.2
    ⟨h₁.written.tail.tail.left, fun e he => (h₂.written e he).tail.right⟩
  | .ifElse _ _ h₁ _ h₂ _ _ h₃ => List.forall_mem_cons.2
    ⟨h₁.written.tail.tail.left.left, List.forall_mem_append.2
      ⟨fun e he => (h₂.written e he).tail.right.left, fun e he => (h₃.written e he).tail.right⟩⟩
  | .whileDo _ _ h₁ _ h₂ => List.forall_mem_cons.2
    ⟨h₁.written.tail.tail.left, fun e he => (h₂.written e he).tail.right⟩
  | .retNone .. | .writeln .. => by simp [Stmt.exprs]
  | .retSome _ h _ => List.forall_mem_singleton.2 h.written.tail.left
  | .write _ _ h _ _ => List.forall_mem_singleton.2 h.written.tail.tail.left
  | .expr h _ => List.forall_mem_singleton.2 h.written.left

theorem Block.written {us : List Token} {b : Bpl.Block} :
    Block us b → ∀ e ∈ b.exprs, Written us e.nodes
  | .mk _ _ h _ => fun e he => (h.written e he).right.left

theorem Statements.written {us : List Token} {ss : List Stmt} :
    Statements us ss → ∀ e ∈ Stmt.exprsOfList ss, Written us e.nodes
  | .nil => by simp [Stmt.exprsOfList]
  | .cons h₁ h₂ => List.forall_mem_append.2
    ⟨fun e he => (h₁.written e he).left, fun e he => (h₂.written e he).right⟩

end

theorem Param.five_le {us : List Token} {v : Variable} (h : Param us v) : 5 ≤ bytes us := by
  cases h with
  | @scalar _ _ _ x h hx =>
    cases h with
    | base ht => exact ht.bytes hx []
    | @pointer t s _ ht _ =>
      have htype := (Token.isBaseType.length ht).2
      have hstar := Token.bytes_cons s [x]
      have hname := Token.bytes_cons x []
      rw [List.cons_append, Token.bytes]
      change 5 ≤ _ + bytes [s, x]
      omega
  | array ht hx _ _ => exact le_trans (Nat.le_add_right _ _) (ht.bytes hx _)

theorem MoreParams.six_mul_length_le {us : List Token} {ps : List Variable} :
    MoreParams us ps → 6 * ps.length ≤ bytes us
  | .nil => Nat.zero_le _
  | @MoreParams.cons us vs t v ps _ h₁ h₂ => by
    have hrest := h₂.six_mul_length_le
    have hfirst := h₁.five_le
    have hcomma := Token.bytes_cons t us
    have hboth := Token.bytes_append (t :: us) vs
    rw [List.length_cons]
    omega

theorem Params.six_mul_length_le {us : List Token} {ps : List Variable} :
    Params us ps → 6 * ps.length ≤ bytes us + 1
  | .void _ => Nat.zero_le _
  | @Params.list us vs t v ps _ h₁ h₂ => by
    have hrest := h₂.six_mul_length_le
    have hfirst := h₁.five_le
    have hboth := Token.bytes_append (t :: us) vs
    rw [List.length_cons]
    omega

/-- The parameters and the bodies of functions that are written with some tokens take `m` and `n`
bytes of them. -/
structure Holds (us : List Token) (fs : List Function) (m n : Nat) : Prop where
  within : m + n ≤ bytes us
  params : ∀ f ∈ fs, 6 * f.params.length ≤ m + 1
  calls : ∀ f ∈ fs, ∀ e ∈ f.body.exprs, ∀ x ∈ e.nodes, x.WrittenIn n

theorem Declaration.exists_holds {us : List Token} {d : Decl} :
    Declaration us d → ∃ m n, Holds us (Bpl.Program.functions [d]) m n
  | .var _ => ⟨0, 0, Nat.zero_le _, nofun, nofun⟩
  | @Declaration.function us vs ws _ _ x o c ps b _ _ _ h₁ _ h₂ => by
    refine ⟨bytes vs, bytes ws, ?_, ?_, ?_⟩
    · have hopen := Token.bytes_append us (x :: o :: vs)
      have hname := Token.bytes_cons x (o :: vs)
      have hclose := Token.bytes_cons o vs
      have hparams := Token.bytes_cons c ws
      have hall := Token.bytes_append (us ++ x :: o :: vs) (c :: ws)
      omega
    · exact List.forall_mem_singleton.2 h₁.six_mul_length_le
    · exact List.forall_mem_singleton.2 h₂.written

theorem Program.exists_holds {us : List Token} {p : Bpl.Program} :
    Program us p → ∃ m n, Holds us p.functions m n
  | .nil => ⟨0, 0, Nat.zero_le _, nofun, nofun⟩
  | @Program.cons us vs d ds h₁ h₂ => by
    obtain ⟨m, n, hd⟩ := h₁.exists_holds
    obtain ⟨m', n', hds⟩ := h₂.exists_holds
    have happend := Token.bytes_append us vs
    have hfunctions : Bpl.Program.functions (d :: ds) =
        Bpl.Program.functions [d] ++ Bpl.Program.functions ds := by
      rw [← List.singleton_append]
      exact List.filterMap_append
    refine ⟨m + m', n + n', ?_, ?_, ?_⟩
    · have := hd.within
      have := hds.within
      omega
    · rw [hfunctions]
      refine List.forall_mem_append.2 ⟨fun f hf => ?_, fun f hf => ?_⟩
      · exact (hd.params f hf).trans (by omega)
      · exact (hds.params f hf).trans (by omega)
    · rw [hfunctions]
      refine List.forall_mem_append.2 ⟨fun f hf e he x hx => ?_, fun f hf e he x hx => ?_⟩
      · exact (hd.calls f hf e he x hx).mono (by omega)
      · exact (hds.calls f hf e he x hx).mono (by omega)

end Grammar

/-- The parameters of a function take six bytes of a source each, and the arguments of a call two
bytes more. -/
theorem exists_holds_of_parse {source : String} {ts : List Token} {p : Program}
    (ht : tokenize source = .ok ts) (hp : parse ts = .ok p) :
    ∃ m n, m + n ≤ source.utf8ByteSize + 1 ∧ (∀ f ∈ p.functions, 6 * f.params.length ≤ m + 1) ∧
      ∀ f ∈ p.functions, ∀ e ∈ f.body.exprs, ∀ x ∈ e.nodes, x.WrittenIn n := by
  obtain ⟨s, hfits, htext, rfl⟩ := tokenize_eq_ok_iff.1 ht
  obtain ⟨us, rest, hus, hg, _⟩ := Parsing.program_of_decls _ _ hp
  obtain ⟨m, n, h⟩ := hg.exists_holds
  refine ⟨m, n, ?_, h.params, h.calls⟩
  have hbytes := Split.bytes_tokensAfter hfits []
  have hrest := Token.bytes_append us rest
  have hwithin := h.within
  have hsize : source.utf8ByteSize = byteLength s.text := by
    rw [htext, ← Split.utf8ByteSize_ofList, String.ofList_toList]
  rw [← hus] at hrest
  rw [Split.tokens] at hrest
  omega

end Bpl
