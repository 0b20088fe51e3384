import Bpl.Diagnostic
import Bpl.Proofs.Decimal

namespace Bpl

namespace Ty

/-- Types in which no function has `void` as its one parameter. Such a function would be spelled
like one without parameters. -/
inductive Clear : Ty → Prop
  | int : Clear .int
  | string : Clear .string
  | void : Clear .void
  | pointer {t : Ty} : Clear t → Clear (.pointer t)
  | array {t : Ty} {n : UInt64} : Clear t → Clear (.array t n)
  | function {ps : List Ty} {r : Ty} :
      ps ≠ [.void] → (∀ p ∈ ps, Clear p) → Clear r → Clear (.function ps r)

/-- A part of a spelling that stands behind the word it begins with. -/
inductive Modifier where
  | pointer
  | array (length : UInt64)
  | function (params : List Ty)

namespace Modifier

/-- The type that a modifier makes of the one in front of it. -/
def apply (t : Ty) : Modifier → Ty
  | pointer => .pointer t
  | array n => .array t n
  | function ps => .function ps t

/-- The parameters as they are written, the first of them and the others. -/
def written : List Ty → Ty × List Ty
  | [] => (.void, [])
  | p :: ps => (p, ps)

def chars : Modifier → List Char
  | pointer => ['*']
  | array n => '[' :: (toString n.toNat).toList ++ [']']
  | function ps => '(' :: (written ps).1.text.toList ++ (moreText (written ps).2).toList ++ [')']

/-- The types that are written between parentheses have a property, and `void` alone stands there
for no parameters. -/
def All (P : Ty → Prop) : Modifier → Prop
  | function ps => ps ≠ [.void] ∧ P (written ps).1 ∧ ∀ p ∈ (written ps).2, P p
  | pointer | array _ => True

theorem written_inj {ps qs : List Ty} (hps : ps ≠ [.void]) (hqs : qs ≠ [.void])
    (h : written ps = written qs) : ps = qs := by
  cases ps <;> cases qs <;> simp_all [written]

theorem written_forall {P : Ty → Prop} {ps : List Ty} (hvoid : P .void) (hps : ∀ p ∈ ps, P p) :
    P (written ps).1 ∧ ∀ p ∈ (written ps).2, P p := by
  cases ps with
  | nil => exact ⟨hvoid, List.forall_mem_nil P⟩
  | cons p ps => exact List.forall_mem_cons.1 hps

end Modifier

/-- The type that the first word of a spelling names. -/
def root : Ty → Ty
  | pointer t | array t _ | function _ t => t.root
  | int => .int
  | string => .string
  | void => .void

/-- The modifiers in the order in which they are written. -/
def modifiers : Ty → List Modifier
  | pointer t => t.modifiers ++ [.pointer]
  | array t n => t.modifiers ++ [.array n]
  | function ps r => r.modifiers ++ [.function ps]
  | int | string | void => []

theorem foldl_modifiers : ∀ t : Ty, t.modifiers.foldl Modifier.apply t.root = t
  | int | string | void => rfl
  | pointer t | array t _ | function _ t => by
    rw [modifiers, root, List.foldl_append, foldl_modifiers t]
    rfl

theorem toList_text_eq : ∀ t : Ty,
    t.text.toList = t.root.text.toList ++ t.modifiers.flatMap Modifier.chars
  | int | string | void => by simp [root, modifiers]
  | pointer t | array t _ | function [] t | function (_ :: _) t => by
    simp [text, moreText, root, modifiers, Modifier.chars, Modifier.written, toList_text_eq t]

/-- A property that goes from the types in its modifiers to a type goes to all types in them. -/
theorem Clear.modifiers_all {P : Ty → Prop}
    (hP : ∀ t : Ty, t.Clear → (∀ m ∈ t.modifiers, m.All P) → P t) {t : Ty} (h : t.Clear) :
    ∀ m ∈ t.modifiers, m.All P := by
  induction h with
  | int | string | void => exact List.forall_mem_nil _
  | pointer _ ih | array _ ih =>
    exact List.forall_mem_append.2 ⟨ih, List.forall_mem_singleton.2 trivial⟩
  | function hne hps _ ihps ih =>
    refine List.forall_mem_append.2 ⟨ih, List.forall_mem_singleton.2 ⟨hne, ?_⟩⟩
    have hvoid : P .void := hP .void .void (List.forall_mem_nil _)
    exact Modifier.written_forall hvoid fun p hp => hP p (hps p hp) (ihps p hp)

/-- A text that does not go on with a type in front of it. -/
def Ended (s : List Char) : Prop :=
  ∀ c ∈ s.head?, c = ',' ∨ c = ')'

/-- A type that is known from its spelling, whatever ends it. -/
def Readable (t : Ty) : Prop :=
  ∀ u : Ty, u.Clear → ∀ s s' : List Char, Ended s → Ended s' →
    t.text.toList ++ s = u.text.toList ++ s' → t = u ∧ s = s'

theorem ended_more (ps : List Ty) (x : List Char) : Ended ((moreText ps).toList ++ ')' :: x) := by
  cases ps <;> simp [moreText, Ended]

theorem moreText_inj {x x' : List Char} : ∀ {ps qs : List Ty}, (∀ p ∈ ps, p.Readable) →
    (∀ q ∈ qs, q.Clear) →
    (moreText ps).toList ++ ')' :: x = (moreText qs).toList ++ ')' :: x' → ps = qs ∧ x = x'
  | [], [], _, _, h => by simpa [moreText] using h
  | [], _ :: _, _, _, h | _ :: _, [], _, _, h => by simp [moreText] at h
  | p :: ps, q :: qs, hpps, hqqs, h => by
    obtain ⟨hp, hps⟩ := List.forall_mem_cons.1 hpps
    obtain ⟨hq, hqs⟩ := List.forall_mem_cons.1 hqqs
    have heads : p.text.toList ++ ((moreText ps).toList ++ ')' :: x) =
        q.text.toList ++ ((moreText qs).toList ++ ')' :: x') := by
      simpa [moreText] using h
    obtain ⟨rfl, hmore⟩ := hp q hq _ _ (ended_more ps x) (ended_more qs x') heads
    obtain ⟨rfl, hx⟩ := moreText_inj hps hqs hmore
    exact ⟨rfl, hx⟩

/-- A number is known from its digits and the mark that ends them. -/
theorem toString_inj {m n : Nat} {x x' : List Char}
    (h : (toString m).toList ++ ']' :: x = (toString n).toList ++ ']' :: x') : m = n ∧ x = x' := by
  have hdigits (k : Nat) (y : List Char) :
      ((toString k).toList ++ ']' :: y).takeWhile Char.isDigit = (toString k).toList := by
    rw [List.takeWhile_append_of_pos fun _ hc => isDigit_of_mem_toString hc,
      List.takeWhile_cons_of_neg (by decide), List.append_nil]
  have heq : (toString m).toList = (toString n).toList := by
    rw [← hdigits m x, h, hdigits n x']
  constructor
  · exact Nat.repr_inj.1 (String.toList_injective heq)
  · rw [heq] at h
    exact (List.cons.inj (List.append_cancel_left h)).2

/-- A modifier is known from its text, whatever is behind it. -/
theorem Modifier.chars_inj {m m' : Modifier} {x x' : List Char} (hm : m.All Readable)
    (hm' : m'.All Clear) (h : m.chars ++ x = m'.chars ++ x') : m = m' ∧ x = x' := by
  cases m with
  | pointer =>
    cases m' with
    | pointer => exact ⟨rfl, (List.cons.inj h).2⟩
    | array n | function ps => simp [chars] at h
  | array n =>
    cases m' with
    | pointer | function ps => simp [chars] at h
    | array n' =>
      have hnumber : (toString n.toNat).toList ++ ']' :: x =
          (toString n'.toNat).toList ++ ']' :: x' := by
        simpa [chars] using h
      obtain ⟨hn, hx⟩ := toString_inj hnumber
      exact ⟨congrArg _ (UInt64.toNat_inj.1 hn), hx⟩
  | function ps =>
    cases m' with
    | pointer | array n => simp [chars] at h
    | function qs =>
      obtain ⟨hne, hfirst, hmore⟩ := hm
      obtain ⟨hne', hfirst', hmore'⟩ := hm'
      have htexts : (written ps).1.text.toList ++ ((moreText (written ps).2).toList ++ ')' :: x) =
          (written qs).1.text.toList ++ ((moreText (written qs).2).toList ++ ')' :: x') := by
        simpa [chars] using h
      obtain ⟨heq, hrest⟩ := hfirst _ hfirst' _ _ (ended_more _ x) (ended_more _ x') htexts
      obtain ⟨heq', hx⟩ := moreText_inj hmore hmore' hrest
      exact ⟨congrArg _ (written_inj hne hne' (Prod.ext heq heq')), hx⟩

/-- No modifier begins like what may stand behind a type. -/
theorem not_ended_chars (m : Modifier) (x : List Char) : ¬ Ended (m.chars ++ x) := by
  cases m <;> simp [Modifier.chars, Ended]

theorem chars_modifiers_inj {s s' : List Char} (hs : Ended s) (hs' : Ended s') :
    ∀ {ms ms' : List Modifier}, (∀ m ∈ ms, m.All Readable) → (∀ m ∈ ms', m.All Clear) →
      ms.flatMap Modifier.chars ++ s = ms'.flatMap Modifier.chars ++ s' → ms = ms' ∧ s = s'
  | [], [], _, _, h => ⟨rfl, h⟩
  | [], m' :: ms', _, _, h => by
    rw [List.flatMap_cons, List.append_assoc, List.flatMap_nil, List.nil_append] at h
    exact absurd (h ▸ hs) (not_ended_chars m' _)
  | m :: ms, [], _, _, h => by
    rw [List.flatMap_cons, List.append_assoc, List.flatMap_nil, List.nil_append] at h
    exact absurd (h ▸ hs') (not_ended_chars m _)
  | m :: ms, m' :: ms', hms, hms', h => by
    obtain ⟨hm, hrest⟩ := List.forall_mem_cons.1 hms
    obtain ⟨hm', hrest'⟩ := List.forall_mem_cons.1 hms'
    rw [List.flatMap_cons, List.append_assoc, List.flatMap_cons, List.append_assoc] at h
    obtain ⟨rfl, hbehind⟩ := Modifier.chars_inj hm hm' h
    obtain ⟨rfl, heq⟩ := chars_modifiers_inj hs hs' hrest hrest' hbehind
    exact ⟨rfl, heq⟩

theorem root_cases : ∀ t : Ty, t.root = .int ∨ t.root = .string ∨ t.root = .void
  | int | string | void => by simp [root]
  | pointer t | array t _ | function _ t => root_cases t

/-- The first word of a type is known from its first letter. -/
theorem root_inj {t u : Ty} {x x' : List Char}
    (h : t.root.text.toList ++ x = u.root.text.toList ++ x') : t.root = u.root ∧ x = x' := by
  rcases root_cases t with ht | ht | ht <;> rcases root_cases u with hu | hu | hu <;>
    simp_all [text]

theorem readable_of_modifiers {t : Ty} (ht : ∀ m ∈ t.modifiers, m.All Readable) :
    t.Readable := by
  intro u hu s s' hs hs' h
  rw [toList_text_eq t, toList_text_eq u, List.append_assoc, List.append_assoc] at h
  obtain ⟨hroot, hmodifiers⟩ := root_inj h
  have hu' : ∀ m ∈ u.modifiers, m.All Clear := hu.modifiers_all fun _ h _ => h
  obtain ⟨hms, heq⟩ := chars_modifiers_inj hs hs' ht hu' hmodifiers
  refine ⟨?_, heq⟩
  rw [← foldl_modifiers t, ← foldl_modifiers u, hroot, hms]

theorem Clear.readable {t : Ty} (h : t.Clear) : t.Readable :=
  readable_of_modifiers (h.modifiers_all fun _ _ => readable_of_modifiers)

theorem Clear.eq_of_text {t u : Ty} (ht : t.Clear) (hu : u.Clear) (h : t.text = u.text) :
    t = u := by
  have hnil : Ended [] := by simp [Ended]
  exact (ht.readable u hu [] [] hnil hnil (by rw [h])).1

/-- Two types in one text are known from it, if a comma is behind the first. -/
theorem Clear.eq_of_texts {t u t' u' : Ty} (lead middle : String) (ht : t.Clear) (hu : u.Clear)
    (ht' : t'.Clear) (hu' : u'.Clear) (hm : middle.toList.head? = some ',')
    (h : lead ++ t.text ++ middle ++ u.text = lead ++ t'.text ++ middle ++ u'.text) :
    t = t' ∧ u = u' := by
  have hended (v : Ty) : Ended (middle.toList ++ v.text.toList) := by
    intro c hc
    rw [List.head?_append, hm, Option.some_or, Option.mem_some_iff] at hc
    exact .inl hc.symm
  have hlists : t.text.toList ++ (middle.toList ++ u.text.toList) =
      t'.text.toList ++ (middle.toList ++ u'.text.toList) := by
    have := congrArg String.toList h
    simpa only [String.toList_append, List.append_assoc, List.append_cancel_left_eq] using this
  obtain ⟨rfl, hrest⟩ := ht.readable t' ht' _ _ (hended u) (hended u') hlists
  exact ⟨rfl, hu.eq_of_text hu' (String.toList_injective (List.append_cancel_left hrest))⟩

end Ty

/-- What two types are compared for: an operand, an argument or a result. -/
inductive Mismatch where
  | operand (construct : String)
  | argument (name : String) (position : Nat)
  | result (function : String)

/-- The violation that reports a type that is found in place of the one that is expected. -/
def Mismatch.violation (expected found : Ty) : Mismatch → Violation
  | operand construct => .typeMismatch construct expected.text found
  | argument name position => .argumentType name position expected found
  | result function => .returnMismatch function expected found

/-- The message of a mismatch tells both of its types. -/
theorem Mismatch.types_of_message {t u t' u' : Ty} (m : Mismatch) (ht : t.Clear) (hu : u.Clear)
    (ht' : t'.Clear) (hu' : u'.Clear)
    (h : (m.violation t u).message = (m.violation t' u').message) : t = t' ∧ u = u' := by
  cases m with
  | operand construct =>
    change construct ++ ": expected " ++ t.text ++ ", but got " ++ u.text =
      construct ++ ": expected " ++ t'.text ++ ", but got " ++ u'.text at h
    exact ht.eq_of_texts (construct ++ ": expected ") ", but got " hu ht' hu' (by simp) h
  | argument name position =>
    let lead := "argument " ++ toString position ++ " of " ++ quoted name ++ " has type "
    let middle := ", but the parameter is declared "
    change lead ++ u.text ++ middle ++ t.text = lead ++ u'.text ++ middle ++ t'.text at h
    exact (hu.eq_of_texts lead middle ht hu' ht' (by simp [middle]) h).symm
  | result function =>
    let lead := "returned value has type "
    let middle := ", but " ++ quoted function ++ " returns "
    change lead ++ u.text ++ ", but " ++ quoted function ++ " returns " ++ t.text =
      lead ++ u'.text ++ ", but " ++ quoted function ++ " returns " ++ t'.text at h
    refine (hu.eq_of_texts lead middle ht hu' ht' (by simp [middle]) ?_).symm
    simpa only [middle, String.append_assoc] using h

/-- Types that are spelled alike are the same type, and mismatches that read alike are about the
same types. -/
theorem types_told_apart {t u : Ty} (ht : t.Clear) (hu : u.Clear) :
    (t.text = u.text → t = u) ∧ ∀ (m : Mismatch) (t' u' : Ty), t'.Clear → u'.Clear →
      (m.violation t u).message = (m.violation t' u').message → t = t' ∧ u = u' :=
  ⟨ht.eq_of_text hu, fun m _ _ ht' hu' h => m.types_of_message ht hu ht' hu' h⟩

/-- A function with the one parameter `void` is spelled like one without parameters. -/
example : (Ty.function [.void] .int).text = (Ty.function [] .int).text := rfl

/-- A pointer to an array is not taken for an array of pointers. -/
theorem pointerToArray_told_apart :
    let t := Ty.function [.pointer (.array .int 3)] (.function [] .void)
    let u := Ty.function [.array (.pointer .int) 3] (.function [] .void)
    t.Clear ∧ u.Clear ∧ t.text ≠ u.text ∧
      ∀ m : Mismatch, (m.violation t u).message ≠ (m.violation u t).message := by
  intro t u
  have hresult : (Ty.function [] .void).Clear := .function nofun nofun .void
  have ht : t.Clear :=
    .function nofun (List.forall_mem_singleton.2 (.pointer (.array .int))) hresult
  have hu : u.Clear :=
    .function nofun (List.forall_mem_singleton.2 (.array (.pointer .int))) hresult
  have hne : t ≠ u := by decide
  obtain ⟨htext, hmessage⟩ := types_told_apart ht hu
  exact ⟨ht, hu, fun h => hne (htext h), fun m h => hne (hmessage m u t hu ht h).1⟩

end Bpl
