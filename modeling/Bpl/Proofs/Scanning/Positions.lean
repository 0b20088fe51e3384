import Bpl.Proofs.Scanning.Split

namespace Bpl

/-- The lines of a text that are ended by a line feed. -/
def endedLines (before : List Char) : List Char :=
  before.rdropWhile (· != '\n')

/-- What stands on the last line of a text, behind its last line feed. -/
def lastLine (before : List Char) : List Char :=
  before.rtakeWhile (· != '\n')

variable {before w : List Char}

theorem endedLines_append_lastLine (before : List Char) :
    endedLines before ++ lastLine before = before :=
  List.rdropWhile_append_rtakeWhile

theorem endedLines_feed (before : List Char) :
    endedLines (before ++ ['\n']) = before ++ ['\n'] :=
  List.rdropWhile_concat_neg _ _ _ (by decide)

theorem lastLine_feed (before : List Char) : lastLine (before ++ ['\n']) = [] :=
  List.rtakeWhile_concat_neg _ _ _ (by decide)

theorem endedLines_append (hw : '\n' ∉ w) : endedLines (before ++ w) = endedLines before := by
  induction w using List.reverseRecOn with
  | nil => rw [List.append_nil]
  | append_singleton w c ih =>
    rw [List.mem_append, not_or, List.mem_singleton] at hw
    rw [← List.append_assoc, ← ih hw.1]
    exact List.rdropWhile_concat_pos _ _ _ (by simpa using Ne.symm hw.2)

theorem lastLine_append (hw : '\n' ∉ w) : lastLine (before ++ w) = lastLine before ++ w := by
  have hwhole := endedLines_append_lastLine (before ++ w)
  rw [endedLines_append hw] at hwhole
  rw [← List.append_cancel_left_eq (endedLines before), hwhole, ← List.append_assoc,
    endedLines_append_lastLine]

theorem newline_notMem_lastLine (before : List Char) : '\n' ∉ lastLine before := by
  intro hmem
  have h := List.mem_rtakeWhile_imp hmem
  simp at h

/-- The place behind a text, by its line feeds and by what stands on its last line. -/
theorem Location.first_after (before : List Char) :
    Location.first.after before = ⟨1 + before.count '\n', 1 + (lastLine before).length⟩ := by
  induction before using List.reverseRecOn with
  | nil => rfl
  | append_singleton before c ih =>
    rw [Location.after_append, ih]
    by_cases hc : c = '\n'
    · rw [hc, lastLine_feed, List.count_append]
      rfl
    · rw [lastLine_append (by simpa using Ne.symm hc), List.count_append]
      simp [Location.after, Location.next, hc, Nat.add_assoc]

/-- `l.At source offset`: the byte `offset` of the text stands between two characters, and `l` is
its line and column, counted from the line feeds and the characters before it. -/
structure Location.At (source : String) (offset : Nat) (l : Location) : Prop where
  valid : (String.Pos.Raw.mk offset).IsValid source
  line : l.line = 1 + (takeBytes offset source.toList).count '\n'
  column : l.column = 1 + (lastLine (takeBytes offset source.toList)).length

theorem byteLength_toList (source : String) : byteLength source.toList = source.utf8ByteSize := by
  rw [← Split.utf8ByteSize_ofList, String.ofList_toList]

theorem isValid_of_append {source : String} {before rest : List Char}
    (h : before ++ rest = source.toList) :
    (String.Pos.Raw.mk (byteLength before)).IsValid source := by
  refine String.Pos.Raw.isValid_iff_exists_append.2
    ⟨String.ofList before, String.ofList rest, ?_, ?_⟩
  · rw [← String.ofList_append, h, String.ofList_toList]
  · rw [← Split.utf8ByteSize_ofList]
    rfl

theorem Location.at_of_append {source : String} {before rest : List Char}
    (h : before ++ rest = source.toList) :
    (Location.first.after before).At source (byteLength before) := by
  have htake : takeBytes (byteLength before) source.toList = before := by
    rw [← h, takeBytes_append]
  rw [Location.first_after]
  exact ⟨isValid_of_append h, by rw [htake], by rw [htake]⟩

end Bpl
