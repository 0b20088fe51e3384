import Bpl.Proofs.Decimal
import Bpl.Proofs.Lowering.Strings
import Bpl.Proofs.Machine.Step
import Bpl.Proofs.Printing.Roundtrip
import Bpl.Proofs.Typing.Unchecked

namespace Bpl

namespace Asm

/-- Reads a string as an assembler does: what stands in front of the quote that ends it, and what
is behind. A backslash is there only to say that the backslash or the quote behind it is meant as it
is. -/
def readString : List Char → Option (List Char × List Char)
  | [] => none
  | '"' :: cs => some ([], cs)
  | '\\' :: c :: cs =>
    if c = '\\' ∨ c = '"' then (readString cs).map (Prod.map (c :: ·) id) else none
  | c :: cs => (readString cs).map (Prod.map (c :: ·) id)

/-- What is escaped is read back, whatever is behind the quote that ends it. -/
theorem readString_escape (s : String) (rest : List Char) :
    readString ((escape s).toList ++ '"' :: rest) = some (s.toList, rest) := by
  rw [escape, String.toList_ofList]
  induction s.toList with
  | nil => rfl
  | cons c cs ih =>
    rw [List.flatMap_cons, List.append_assoc]
    by_cases hc : c = '\\' ∨ c = '"'
    · rw [if_pos hc, List.cons_append, List.cons_append, List.nil_append, readString, if_pos hc, ih]
      rfl
    · rw [if_neg hc, List.cons_append, List.nil_append, readString, ih]
      · rfl
      · rintro rfl
        exact hc (.inr rfl)
      · rintro d ds rfl
        exact absurd (Or.inl rfl) hc

theorem newline_notMem_escape {s : String} (h : '\n' ∉ s.toList) : '\n' ∉ (escape s).toList := by
  rw [escape, String.toList_ofList, List.mem_flatMap]
  rintro ⟨c, hc, hmem⟩
  have hne : '\n' ≠ c := fun heq => h (heq ▸ hc)
  split at hmem
  · rcases List.mem_cons.1 hmem with heq | hmem
    · exact absurd heq (by decide)
    · exact hne (List.mem_singleton.1 hmem)
  · exact hne (List.mem_singleton.1 hmem)

/-- A string that has no line feed takes one line of the table. -/
theorem newline_notMem_stringLine {s : String} (h : '\n' ∉ s.toList) (n : Nat) :
    '\n' ∉ (stringLine (.numbered n) (escape s)).toList := by
  have hs := newline_notMem_escape h
  have hn : '\n' ∉ (toString n).toList := fun hmem => nomatch isDigit_of_mem_toString hmem
  simp only [stringLine, Label.text, String.toList_append, List.mem_append, not_or]
  exact ⟨⟨⟨⟨by decide, hn⟩, by decide⟩, hs⟩, by decide⟩

end Asm

open Asm Lowering

/-- The literals of a text hold no quote and no line feed. -/
theorem literal_of_analyze {source : String} {q : Program} (h : (analyze source).outcome = .ok q) :
    ∀ s ∈ q.literals, ∀ c ∈ s.toList, c ≠ '"' ∧ c ≠ '\n' := by
  obtain ⟨ts, p, hts, hp, hq⟩ := exists_parse_of_analyze h
  have hprintable := (printable_of_parse hts hp).1
  have hsame : q.literals = p.literals := by
    rw [← q.literals_unchecked, (Program.derives_of_check hp hq).unchecked, p.literals_unchecked]
  intro s hs
  rw [hsame, Program.mem_literals] at hs
  obtain ⟨e, he, n, hn⟩ := hs
  obtain ⟨f, hf, hfe⟩ := List.mem_flatMap.1 he
  cases hprintable _ (Program.mem_functions.1 hf) with
  | function hprint =>
    cases (hprint.body.exprs e hfe).nodes _ hn with
    | string hfree => exact hfree

/-- What the table of strings of a program is: one line for each of the contents of its literals, in
the order in which they first occur, from which an assembler reads these contents back. The code
loads the place of a string for each literal, and two literals have the same place if and only if
they have the same contents. -/
structure Assembly.TablesStrings (q : Program) (a : Assembly) : Prop where
  contents : a.strings.map Prod.snd = q.literals.eraseDups
  lines : ∃ rest, a.lines = indent ".section .rodata" :: fixedStrings ++
    a.strings.map (fun (n, s) => stringLine (.numbered n) (escape s)) ++ rest ∧
      (rest.head? = some (indent ".data") ∨ rest.head? = some (indent ".text"))
  line : ∀ n s, (n, s) ∈ a.strings → '\n' ∉ (stringLine (.numbered n) (escape s)).toList
  read : ∀ n s, (n, s) ∈ a.strings → ∀ rest,
    readString ((escape s).toList ++ '"' :: rest) = some (s.toList, rest)
  loads : List.Forall₂ (fun s n => (n, s) ∈ a.strings) q.literals (stringLoads a.code)
  labels : ∀ (i j m n : Nat) (s t : String), q.literals[i]? = some s → q.literals[j]? = some t →
    (stringLoads a.code)[i]? = some m → (stringLoads a.code)[j]? = some n →
      ((Label.numbered m).text = (Label.numbered n).text ↔ s = t) ∧
        ∀ H : Machine.Host a, H.dataAddress (.numbered m) = H.dataAddress (.numbered n) ↔ s = t

theorem lines_strings (a : Assembly) :
    ∃ rest, a.lines = indent ".section .rodata" :: fixedStrings ++
      a.strings.map (fun (n, s) => stringLine (.numbered n) (escape s)) ++ rest ∧
      (rest.head? = some (indent ".data") ∨ rest.head? = some (indent ".text")) := by
  refine ⟨a.globalLines ++ indent ".text" :: indent ".globl main" :: a.code.map Line.text ++
    [indent ".section .note.GNU-stack,\"\",@progbits"], ?_, ?_⟩
  · simp [Assembly.lines, Assembly.stringLines]
  · rw [Assembly.globalLines]
    split
    · exact .inr rfl
    · exact .inl rfl

theorem Lowering.Loads.mem_strings {a : Assembly} {ls : List String} {c : Code} {i n : Nat}
    {s : String} (h : Loads a ls c) (hs : ls[i]? = some s) (hn : (stringLoads c)[i]? = some n) :
    (n, s) ∈ a.strings := by
  obtain ⟨hi, rfl⟩ := List.getElem?_eq_some_iff.1 hs
  obtain ⟨hi', rfl⟩ := List.getElem?_eq_some_iff.1 hn
  exact List.Forall₂.get h hi hi'

/-- Numbers of two strings in a table are the same if and only if the contents are. -/
theorem number_eq_iff {p : Program} {a : Assembly} (h : p.lower = .ok a) {m n : Nat} {s t : String}
    (hm : (m, s) ∈ a.strings) (hn : (n, t) ∈ a.strings) : m = n ↔ s = t := by
  obtain ⟨hnumbers, hcontents⟩ := sane_of_lower h
  constructor
  · intro heq
    exact congrArg Prod.snd (List.inj_on_of_nodup_map hnumbers hm hn heq)
  · intro heq
    exact congrArg Prod.fst (List.inj_on_of_nodup_map hcontents hm hn heq)

/-- The table of strings of an accepted program is exact. -/
theorem tablesStrings_of_compile {source : String} {a : Assembly}
    (h : (compile source).outcome = .ok a) :
    ∃ q, (analyze source).outcome = .ok q ∧ a.TablesStrings q := by
  obtain ⟨q, hq, ha⟩ := exists_analyze_of_compile h
  have hloads := loads_of_lower ha
  have hcontents := strings_of_lower ha
  refine ⟨q, hq, hcontents, lines_strings a, ?_, fun n s _ => readString_escape s, hloads, ?_⟩
  · intro n s hs
    have hmem : s ∈ q.literals := by
      rw [← List.mem_eraseDups, ← hcontents]
      exact List.mem_map_of_mem hs
    exact newline_notMem_stringLine (fun hc => (literal_of_analyze hq s hmem _ hc).2 rfl) n
  · intro i j m n s t hs ht hm hn
    have hms := hloads.mem_strings hs hm
    have hnt := hloads.mem_strings ht hn
    have heq := number_eq_iff ha hms hnt
    refine ⟨?_, fun H => ?_⟩
    · rw [Label.text_injective.eq_iff, Label.numbered.injEq]
      exact heq
    · rw [← heq]
      exact ⟨fun hd => H.strings _ hms _ hnt hd, fun he => by rw [he]⟩

/-- A program in which a string ends in a backslash, one is empty, and each of two stands twice. -/
def repeatsStrings : String :=
  "void say(string s) \x7b write(s); write(\"b\"); \x7d " ++
    "void main(void) \x7b say(\"a\\\"); if (\"b\" == \"a\\\") write(\"\"); \x7d"

theorem repeatsStrings_compiles : (compile repeatsStrings).outcome.toOption.any (fun a =>
    a.stringLines ==
      [".L0: .string \"b\"", ".L1: .string \"a\\\\\"", ".L3: .string \"\""]) = true := by
  decide +kernel

theorem repeatsStrings_tables : ∃ a, (compile repeatsStrings).outcome = .ok a ∧
    ∃ q, (analyze repeatsStrings).outcome = .ok q ∧ a.TablesStrings q := by
  have hok := repeatsStrings_compiles
  rw [Except.any_toOption_iff] at hok
  obtain ⟨a, ha, _⟩ := hok
  exact ⟨a, ha, tablesStrings_of_compile ha⟩

end Bpl
