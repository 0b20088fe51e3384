import Bpl.Excerpt
import Bpl.Proofs.Scanning.Positions

namespace Bpl

variable {before rest w cs : List Char}

/-- A line without the carriage return that belongs to the line feed behind it. -/
def dropReturn : List Char → List Char
  | [] => []
  | ['\r'] => []
  | c :: cs => c :: dropReturn cs

theorem linesOf_cons {c : Char} {line : List Char} {lines : List (List Char)} (hc : c ≠ '\n')
    (hr : c = '\r' → cs.head? ≠ some '\n') (h : linesOf cs = line :: lines) :
    linesOf (c :: cs) = (c :: line) :: lines := by
  rw [linesOf, h]
  · exact hc
  · rintro cs' rfl rfl
    exact hr rfl rfl

/-- A text up to its first line feed is a line, but for a carriage return at its end. -/
theorem linesOf_feed (hw : '\n' ∉ w) (cs : List Char) :
    linesOf (w ++ '\n' :: cs) = dropReturn w :: linesOf cs := by
  fun_induction dropReturn w with
  | case1 => rw [List.nil_append, linesOf]
  | case2 => rw [List.cons_append, List.nil_append, linesOf]
  | case3 c w hr ih =>
    rw [List.mem_cons, not_or] at hw
    refine linesOf_cons (Ne.symm hw.1) ?_ (ih hw.2)
    rintro rfl hhead
    cases w with
    | nil => exact hr rfl rfl
    | cons d w =>
      cases hhead
      exact hw.2 List.mem_cons_self

/-- What stands behind the last line feed is a line unless it is empty. -/
theorem linesOf_last (hw : '\n' ∉ w) (hne : w ≠ []) : linesOf w = [w] := by
  induction w with
  | nil => exact absurd rfl hne
  | cons c w ih =>
    rw [List.mem_cons, not_or] at hw
    cases w with
    | nil =>
      rw [linesOf]
      · rfl
      · exact Ne.symm hw.1
      · rintro cs rfl h
        cases h
    | cons d w =>
      refine linesOf_cons (Ne.symm hw.1) ?_ (ih hw.2 (List.cons_ne_nil d w))
      rintro rfl hhead
      cases hhead
      exact hw.2 List.mem_cons_self

theorem exists_feed {cs : List Char} (h : '\n' ∈ cs) :
    ∃ w tail, cs = w ++ '\n' :: tail ∧ '\n' ∉ w := by
  obtain ⟨w, tail, rfl, hrun, htail⟩ := Lexeme.exists_run (· != '\n') cs
  have hw : '\n' ∉ w := fun hmem => by simpa using hrun _ hmem
  cases tail with
  | nil => exact absurd (List.append_nil w ▸ h) hw
  | cons c tail =>
    have hc : c = '\n' := by simpa using htail c rfl
    exact ⟨w, tail, by rw [hc], hw⟩

theorem lastLine_of_notMem (hw : '\n' ∉ w) : lastLine w = w := by
  rw [← List.nil_append w, lastLine_append hw]
  rfl

theorem lastLine_feed_append (w cs : List Char) : lastLine (w ++ '\n' :: cs) = lastLine cs := by
  induction cs using List.reverseRecOn with
  | nil => exact lastLine_feed w
  | append_singleton cs c ih =>
    rw [← List.cons_append, ← List.append_assoc]
    by_cases hc : c = '\n'
    · rw [hc, lastLine_feed, lastLine_feed]
    · have hfree : '\n' ∉ [c] := by simpa using Ne.symm hc
      rw [lastLine_append hfree, lastLine_append hfree, ih]

/-- The line on which a text ends, and those behind it, are lines of what begins with the text. -/
theorem drop_linesOf (before rest : List Char) :
    (linesOf (before ++ rest)).drop (before.count '\n') = linesOf (lastLine before ++ rest) := by
  induction hn : before.length using Nat.strong_induction_on generalizing before with
  | _ n ih =>
    by_cases h : '\n' ∈ before
    · obtain ⟨w, tail, rfl, hw⟩ := exists_feed h
      have hlt : tail.length < n := by
        rw [← hn, List.length_append, List.length_cons]
        omega
      have hcount : (w ++ '\n' :: tail).count '\n' = tail.count '\n' + 1 := by
        rw [List.count_append, List.count_eq_zero_of_not_mem hw, List.count_cons_self, Nat.zero_add]
      rw [hcount, List.append_assoc, List.cons_append, linesOf_feed hw, List.drop_succ_cons,
        ih _ hlt tail rfl, lastLine_feed_append]
    · rw [List.count_eq_zero_of_not_mem h, List.drop_zero, lastLine_of_notMem h]

theorem prefix_dropReturn (w : List Char) {cs : List Char} (h : cs ≠ []) :
    w <+: dropReturn (w ++ cs) := by
  induction w with
  | nil => exact List.nil_prefix
  | cons c w ih =>
    rw [List.cons_append, dropReturn]
    · exact List.cons_prefix_cons.2 ⟨rfl, ih⟩
    · rintro rfl hnil
      exact h (List.append_eq_nil_iff.1 hnil).2

/-- The first line of a text begins as the text does, as far as no line feed comes, unless it ends
right there. -/
theorem head?_linesOf {lead rest : List Char} (hlead : '\n' ∉ lead)
    (hrest : lead = [] ∨ rest.head? ≠ some '\n') (hne : lead ++ rest ≠ []) :
    ∃ line, (linesOf (lead ++ rest)).head? = some line ∧ lead <+: line := by
  by_cases h : '\n' ∈ rest
  · obtain ⟨w, tail, rfl, hw⟩ := exists_feed h
    have hfree : '\n' ∉ lead ++ w := by
      rw [List.mem_append, not_or]
      exact ⟨hlead, hw⟩
    refine ⟨dropReturn (lead ++ w), ?_, ?_⟩
    · rw [← List.append_assoc, linesOf_feed hfree]
      rfl
    · rcases hrest with rfl | hhead
      · exact List.nil_prefix
      · refine prefix_dropReturn lead ?_
        rintro rfl
        exact hhead rfl
  · have hfree : '\n' ∉ lead ++ rest := by
      rw [List.mem_append, not_or]
      exact ⟨hlead, h⟩
    refine ⟨lead ++ rest, ?_, List.prefix_append lead rest⟩
    rw [linesOf_last hfree hne]
    rfl

/-- `Quotes source l text`: the text quotes the line of a place, and under it has a mark at its
column that tabs and blanks lead to, a tab exactly where the line has one. It is empty where the
source has no such line: only its end can stand on a line without characters that no line feed
ends. -/
inductive Quotes (source : String) (l : Location) : String → Prop
  | none : (linesOf source.toList)[l.line - 1]? = none →
      (source = "" ∨ l.At source source.utf8ByteSize ∧ source.toList.getLast? = some '\n') →
        Quotes source l ""
  | line {row caret : List Char} : (linesOf source.toList)[l.line - 1]? = some row →
      caret.length = l.column - 1 →
      (∀ i < l.column - 1, ∃ c, row[i]? = some c ∧
        caret[i]? = some (if c = '\t' then '\t' else ' ')) →
      Quotes source l ("\n" ++ String.ofList row ++ "\n" ++ String.ofList caret ++ "^")

theorem quotes_of_line {source : String} {l : Location} {lead row : List Char}
    (hrow : (linesOf source.toList)[l.line - 1]? = some row) (hlead : lead <+: row)
    (hcolumn : l.column = 1 + lead.length) : Quotes source l (excerpt source l) := by
  have hwidth : l.column - 1 = lead.length := by omega
  have htake : row.take lead.length = lead := List.prefix_iff_eq_take.1 hlead |>.symm
  rw [excerpt, hrow]
  refine .line hrow ?_ fun i hi => ?_
  · rw [indentTo, hwidth, htake, List.length_map]
  · rw [hwidth] at hi
    have hc : row[i]? = some lead[i] := by
      obtain ⟨t, rfl⟩ := hlead
      rw [List.getElem?_append_left hi, List.getElem?_eq_getElem hi]
    refine ⟨lead[i], hc, ?_⟩
    rw [indentTo, hwidth, htake, List.getElem?_map, List.getElem?_eq_getElem hi]
    rfl

theorem eq_nil_or_getLast?_of_lastLine (h : lastLine before = []) :
    before = [] ∨ before.getLast? = some '\n' := by
  by_cases hne : before = []
  · exact .inl hne
  · have hlast := List.rtakeWhile_eq_nil_iff.1 h hne
    rw [List.getLast?_eq_getLast_of_ne_nil hne]
    refine .inr (congrArg some ?_)
    simpa using hlast

/-- Where no line feed comes next, and at the start of each line, a place is quoted. -/
theorem quotes_excerpt {source : String} {before rest : List Char}
    (hsource : before ++ rest = source.toList)
    (hrest : lastLine before = [] ∨ rest.head? ≠ some '\n') :
    Quotes source (Location.first.after before) (excerpt source (Location.first.after before)) := by
  have hlines := drop_linesOf before rest
  have hindex : (linesOf source.toList)[(Location.first.after before).line - 1]? =
      (linesOf (lastLine before ++ rest)).head? := by
    rw [Location.first_after, ← hlines, hsource, List.head?_drop, Nat.add_sub_cancel_left]
  by_cases hne : lastLine before ++ rest = []
  · obtain ⟨hlast, rfl⟩ := List.append_eq_nil_iff.1 hne
    have hnone : (linesOf source.toList)[(Location.first.after before).line - 1]? = none := by
      rw [hindex, hne]
      rfl
    have hat := Location.at_of_append hsource
    rw [List.append_nil] at hsource
    rw [hsource, byteLength_toList] at hat
    rw [excerpt, hnone]
    refine .none hnone ?_
    rcases eq_nil_or_getLast?_of_lastLine hlast with hnil | hfeed
    · rw [hnil] at hsource
      exact .inl (String.toList_eq_nil_iff.1 hsource.symm)
    · rw [hsource] at hfeed ⊢
      exact .inr ⟨hat, hfeed⟩
  · obtain ⟨row, hrow, hlead⟩ := head?_linesOf (newline_notMem_lastLine before) hrest hne
    refine quotes_of_line (hindex.trans hrow) hlead ?_
    rw [Location.first_after]

end Bpl
