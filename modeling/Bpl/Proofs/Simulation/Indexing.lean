import Bpl.Proofs.Lowering.Indexing
import Bpl.Proofs.Machine.Bounds
import Bpl.Proofs.Printing.Roundtrip
import Bpl.Proofs.Simulation.Variables
import Bpl.Proofs.Typing.Unchecked

namespace Bpl

open Asm Machine Lowering

/-- Through a type that is no array, nothing is checked. -/
theorem Lowering.Checks.eq_nil {a : Assembly} {ty : Ty} {check : Code} (h : Checks a ty check)
    (hty : ty.isArray = false) : check = [] := by
  cases h with
  | array _ => cases hty
  | other _ => rfl

namespace Typing

/-- What is indexed is judged to be an array or a pointer. -/
theorem PartIn.judges_base {w : View} {n : Note} {base i : Expr}
    (h : PartIn w (.index n base i)) :
    ∃ e ty a, Judges w e ty a base ∧ ty.base? ≠ none := by
  have judged : ∀ {e : Expr} {ty : Ty} {a : Bool}, Judges w e ty a (.index n base i) →
      ∃ e ty a, Judges w e ty a base ∧ ty.base? ≠ none := by
    intro e ty a j
    cases j with
    | index jb hb _ => exact ⟨_, _, _, jb, hb ▸ Option.some_ne_none _⟩
  rcases h with ⟨_, _, _, j⟩ | ⟨_, _, j⟩
  · exact judged j
  · cases j with
    | value j _ => exact judged j

/-- A judged expression that was a name is a variable. -/
theorem Judges.exists_var {w : View} {e e' : Expr} {ty : Ty} {a : Bool} (j : Judges w e ty a e')
    {m : Note} {x : String} (h : e'.unchecked = .name m x) :
    ∃ n slot, e' = .var n x slot ∧ n.ty = some ty := by
  cases j with
  | name _ _ =>
    cases h
    exact ⟨_, _, rfl, rfl⟩
  | _ => cases h

end Typing

/-- In a checked program, an index stands behind a variable of an array or pointer type only. -/
theorem exists_var_of_index {source : String} {q : Program}
    (h : (analyze source).outcome = .ok q) {f : Function} (hf : f ∈ q.functions) {e : Expr}
    (he : e ∈ f.body.exprs) {n : Note} {base i : Expr} (hx : .index n base i ∈ e.nodes) :
    ∃ m x slot v, base = .var m x slot ∧ m.ty = some v.ty ∧ q.Declares f x slot v ∧ v.Valid ∧
      ((∃ element length, v.ty = .array element length) ∨ ∃ element, v.ty = .pointer element) := by
  have hl := linked_of_analyze h
  obtain ⟨ts, p, hts, hp, hq⟩ := exists_parse_of_analyze h
  have hd := Program.derives_of_check hp hq
  obtain ⟨g, hg, _, _, j⟩ := hd.exists_function hf
  -- before the check, the base was a name
  obtain ⟨e₀, he₀, x₀, hx₀, heq⟩ := j.exists_node he hx
  have hbody : g.body.Printable := by
    cases (printable_of_parse hts hp).1 _ (Program.mem_functions.1 hg) with
    | function hprintable => exact hprintable.body
  have hname : ∃ m x, base.unchecked = .name m x := by
    have hprintable := (hbody.exprs e₀ he₀).nodes x₀ hx₀
    cases hprintable with
    | @index l m x i₀ _ _ =>
      rw [Expr.unchecked, Expr.unchecked, Expr.unchecked, Expr.index.injEq] at heq
      exact ⟨_, _, heq.2.1.symm⟩
    | _ => cases heq
  obtain ⟨m, x, hname⟩ := hname
  obtain ⟨before, item, after, hitem, hie⟩ := Block.exists_item he
  have hpart := (hd.judged hf hitem).parts hie _ hx
  obtain ⟨_, ty, _, jbase, hbase⟩ := hpart.judges_base
  obtain ⟨m, slot, rfl, hty⟩ := jbase.exists_var hname
  have hnode : Expr.var m x slot ∈ e.nodes := by
    refine Expr.nodes_subset e hx ?_
    exact List.mem_cons_of_mem _ (List.mem_append_left _ (Expr.mem_nodes_self _))
  obtain ⟨v, hv, hvty, _⟩ := hl.nodes f hf e he _ hnode
  cases hty.symm.trans hvty
  refine ⟨m, x, slot, v, rfl, hvty, hv, Simulation.valid_of_declares hl hf hv, ?_⟩
  cases hshape : v.ty with
  | array element length => exact .inl ⟨element, length, rfl⟩
  | pointer element => exact .inr ⟨element, rfl⟩
  | _ =>
    rw [hshape] at hbase
    exact absurd rfl hbase

/-- The code of a variable of an array type leaves its place. That of any other loads from it. -/
theorem emitsValue_var {a : Assembly} {frame : Frame} {m : Note} {x : String} {slot : Slot}
    {d : Code} (h : EmitsValue a frame (.var m x slot) d) {ty : Ty} (ht : m.ty = some ty) :
    ∃ place, storage? frame x slot = some place ∧
      d = code [if ty.isArray then .lea place .rax else load place .rax] := by
  cases h with
  | var ht' hp =>
    cases ht.symm.trans ht'
    exact ⟨_, hp, rfl⟩

/-- The code of an indexing through a variable of a type, from line `k` on, where its index is
evaluated: an array is guarded by the length that it is declared with, and a pointer is not. -/
inductive Guards (a : Assembly) (frame : Frame) (x : String) (slot : Slot) (k : Nat) : Ty → Prop
  | array {element : Ty} {length : UInt64} {place : Address} {t : Nat} :
      storage? frame x slot = some place → a.trap = some t →
      CodeAt a k (code (guardedCode t length place)) →
      (∀ H : Host a, Guarded H k a.functions.flatten.length place length.toNat
        (Ty.array element length).size) →
        Guards a frame x slot k (.array element length)
  | pointer {element : Ty} {place : Address} :
      storage? frame x slot = some place →
      CodeAt a k (code [.push (.reg .rax), load place .rax, .pop .rcx,
        .lea (.element .rax .rcx) .rax]) →
        Guards a frame x slot k (.pointer element)

theorem Lowering.Site.guards {p : Program} {a : Assembly} {f : Function} (hm : p.Makes a)
    {n m : Note} {x : String} {slot : Slot} {v : Variable} {i : Expr} {k : Nat}
    (h : Site a (Frame.layout f) (.index n (.var m x slot) i) k) (hty : m.ty = some v.ty)
    (hv : v.Valid)
    (hshape : (∃ element length, v.ty = .array element length) ∨
      ∃ element, v.ty = .pointer element) :
    Guards a (Frame.layout f) x slot k v.ty := by
  cases h with
  | @mk _ _ _ _ c check d j hi ht hck hb hc =>
    cases hty.symm.trans ht
    obtain ⟨place, hp, rfl⟩ := emitsValue_var hb hty
    simp only [List.append_assoc] at hc
    have hrest := (codeAt_append.1 hc).2
    rcases hshape with ⟨element, length, hshape⟩ | ⟨element, hshape⟩
    · have hsize : v.ty.size = 8 * length.toNat := by
        rw [Typing.size_eq_bytes hv, hshape]
        rfl
      have hle := v.ty.size_le
      have hmax : Ty.maxSize = 2 ^ 63 - 1 := rfl
      rw [hshape] at hck hrest hsize hle ⊢
      cases hck with
      | @array _ _ t htrap =>
        have hline := hm.numbered t _ (codeAt_cons.1 (codeAt_trapCode htrap)).1
        have hcode : CodeAt a (j + c.length) (code (guardedCode t length place)) := hrest
        exact .array hp htrap hcode fun H =>
          guarded_of_codeAt hcode hline hp hsize (by omega) H
      | other h => cases h
    · rw [hshape] at hck hrest ⊢
      rw [hck.eq_nil rfl] at hrest
      exact .pointer hp hrest

/-- No element of an array is touched unchecked. In the code of a program that is analyzed with
success, each indexing has its place, and the unsigned jumps are those of the indexings into arrays,
one for each. There the index is compared with the declared length before the place of the array is
formed: whatever the index is, the run goes to the trap if it is negative or not below the length,
and otherwise on to the address of the element, inside of the array. An index behind a pointer is
not checked. The trap stands behind all functions, never comes back from there, and ends the run. -/
theorem guards_of_analyze {source : String} {q : Program}
    (h : (analyze source).outcome = .ok q) :
    ∃ a, (compile source).outcome = .ok a ∧
      (∀ f ∈ q.functions, ∃ start c, lineOf? a (.function f.name) = some start ∧
        CodeAt a start c ∧ EmitsFunction a f c ∧
          Sites a (Frame.layout f) f.body.indexings (jaeLines start c)) ∧
      (∀ f ∈ q.functions, ∀ e ∈ f.body.exprs, ∀ n base i, .index n base i ∈ e.nodes →
        .index n base i ∈ f.body.indexings ∧
          ∃ m x slot v, base = .var m x slot ∧ m.ty = some v.ty ∧ q.Declares f x slot v ∧
            ∀ k, Site a (Frame.layout f) (.index n base i) k →
              Guards a (Frame.layout f) x slot k v.ty) ∧
      ∀ t, a.trap = some t → lineOf? a (.numbered t) = some a.functions.flatten.length ∧
        CodeAt a a.functions.flatten.length (trapCode t) ∧
        ∀ (H : Host a) (s : State), s.line = a.functions.flatten.length →
          (∀ k u, stateAfter H k s = some u → a.functions.flatten.length ≤ u.line ∧
            u.line < a.functions.flatten.length + (trapCode t).length) ∧
            (0 ≤ s.sp → Ends H ⟨1, s.output ++ [.overflow]⟩ s) := by
  have hl := linked_of_analyze h
  obtain ⟨a, hcompile, ha⟩ := exists_compile_of_analyze h
  have hm := makes_of_lower hl.distinct ha
  refine ⟨a, hcompile, ?_, ?_, ?_⟩
  · intro f hf
    obtain ⟨start, c, hstart, hc, he⟩ := hm.functions f hf
    exact ⟨start, c, hstart, hc, he, he.sites hc⟩
  · intro f hf e he n base i hx
    obtain ⟨m, x, slot, v, rfl, hty, hv, hvalid, hshape⟩ := exists_var_of_index h hf he hx
    refine ⟨Block.index_mem_indexings he hx, m, x, slot, v, rfl, hty, hv, ?_⟩
    intro k hk
    exact hk.guards hm hty hvalid hshape
  · intro t ht
    have hc := codeAt_trapCode ht
    refine ⟨hm.numbered t _ (codeAt_cons.1 hc).1, hc, ?_⟩
    intro H s hs
    exact ⟨fun k u hu => stateAfter_trap hc hs.ge (by omega) hu,
      fun hsp => ⟨_, Leads.trap (hs ▸ hc) hsp le_rfl⟩⟩

/-- Reads and writes elements under subscripts that are elements again, and passes the address of
one on. -/
def nestedSubscripts : String :=
  "int a[4]; int second(int* p) \x7b return p[1]; \x7d " ++
    "void main(void) \x7b int b[2]; b[0] = 1; a[b[0]] = a[b[a[2]]]; write(second(&a[1])); \x7d"

theorem nestedSubscripts_guarded :
    ∃ q a, (analyze nestedSubscripts).outcome = .ok q ∧
      (compile nestedSubscripts).outcome = .ok a ∧
        ∃ f ∈ q.functions, f.isMain = true ∧
          (∃ start c, lineOf? a (.function f.name) = some start ∧ CodeAt a start c ∧
            (jaeLines start c).length = 7) ∧
          ∃ k place length t, a.trap = some t ∧ CodeAt a k (code (guardedCode t length place)) := by
  have hall : ((analyze nestedSubscripts).outcome.toOption.any fun q => q.functions.any fun f =>
      f.isMain && f.body.indexings.countP Expr.indexesArray == 7 &&
        f.body.exprs.any fun e => e.nodes.any Expr.indexesArray) = true := by
    decide +kernel
  obtain ⟨q, hq, hfind⟩ := Except.any_toOption_iff.1 hall
  simp only [List.any_eq_true, Bool.and_eq_true, beq_iff_eq] at hfind
  obtain ⟨f, hf, ⟨hmain, hcount⟩, e, he, x, hx, harray⟩ := hfind
  obtain ⟨a, ha, hsites, hguards, _⟩ := guards_of_analyze hq
  obtain ⟨start, c, hstart, hc, _, hs⟩ := hsites f hf
  refine ⟨q, a, hq, ha, f, hf, hmain, ⟨start, c, hstart, hc, hs.length_eq.trans hcount⟩, ?_⟩
  cases x with
  | index n base i =>
    obtain ⟨hmem, m, y, slot, v, rfl, hty, _, hk⟩ := hguards f hf e he n base i hx
    obtain ⟨k, hsite⟩ := hs.exists_site hmem
    have hv : v.ty.isArray = true := by
      rw [Expr.indexesArray, show (Expr.var m y slot).ty? = m.ty from rfl, hty] at harray
      exact harray
    cases hg : v.ty with
    | array element length =>
      have hguard := hk k hsite
      rw [hg] at hguard
      cases hguard with
      | array _ htrap hcode _ => exact ⟨k, _, _, _, htrap, hcode⟩
    | _ =>
      rw [hg] at hv
      cases hv
  | _ => cases harray

end Bpl
