import Bpl.Proofs.Scanning.Scanner

namespace Bpl

open Lexeme (cutGap ofText)

/-- An answer that a scanner stays with: the end of the text or a character that begins no token. -/
def Settled : Except Diagnostic Token → Prop
  | .ok t => t.kind = .eof
  | .error d => ∃ l c, d = .scan l (.strayCharacter c)

/-- Nothing is used up only at the end of a text and in front of a stray character. -/
theorem Lexeme.text_eq_nil_iff (cs : List Char) :
    (ofText cs).text = [] ↔
      (ofText cs).kind = .ok .eof ∨ ∃ c, (ofText cs).kind = .error (.strayCharacter c) := by
  fun_cases ofText cs with
  | case1 => simp
  | case2 => simp
  | case3 cs => rw [string]; split <;> simp
  | case4 c cs => rw [word]; split <;> simp
  | case5 c cs => rw [number]; split <;> simp
  | case6 c cs =>
    rw [punctuator]
    split
    · next p hp => simp [ne_nil_of_punctuator (List.mem_of_find?_eq_some hp)]
    · simp

theorem Cursor.settled_next_iff (before rest : List Char) :
    Settled (behind before rest).next.1 ↔ (ofText (cutGap rest).2).text = [] := by
  rw [Lexeme.text_eq_nil_iff, next_behind]
  cases (ofText (cutGap rest).2).kind with
  | ok kind => simp [Settled, Split.token]
  | error fault => simp [Settled]

namespace Scanner

/-- What the call number `n` gives, counted from zero. -/
def answer (source : List Char) (n : Nat) : Option (Except Diagnostic Token) := do
  let s ← after source n
  let (r, _) ← next source s
  return r

/-- All tokens from a scanner on, with at most the given number of calls. -/
def collect (source : List Char) : Nat → Scanner → Option (Except Diagnostic (List Token))
  | 0, _ => none
  | calls + 1, s => do
    match ← next source s with
    | (.error d, _) => return .error d
    | (.ok t, s) =>
      if t.kind = .eof then return .ok [t]
      else return (← collect source calls s).map (t :: ·)

variable {source before rest : List Char} {n : Nat} {s s' : Scanner}
  {r : Except Diagnostic Token}

theorem after_succ (hs : after source n = some s) (hr : next source s = some (r, s')) :
    after source (n + 1) = some s' := by
  simp [after, hs, hr]

theorem answer_eq (hs : after source n = some s) (hr : next source s = some (r, s')) :
    answer source n = some r := by
  simp [answer, hs, hr]

/-- A call that uses nothing up leaves the scanner where the next call does the same. -/
theorem next_again (before : List Char) (h : (ofText (cutGap rest).2).text = []) :
    next (before ++ rest) (behind (before ++ (cutGap rest).1)) =
      next (before ++ rest) (behind before) := by
  have hsource : before ++ rest = before ++ (cutGap rest).1 ++ (cutGap rest).2 := by
    rw [List.append_assoc, Lexeme.cutGap_append]
  have hnext := next_behind (before ++ (cutGap rest).1) (cutGap rest).2
  rw [← hsource] at hnext
  rw [hnext, next_behind before rest, Cursor.next_behind, Cursor.next_behind,
    Lexeme.cutGap_cutGap]
  simp [h]

/-- One call: it goes on by a byte behind the gap at least, or gives what all later calls give. -/
theorem next_settles (hsource : before ++ rest = source) :
    ∃ r before' rest', before' ++ rest' = source ∧
      next source (behind before) = some (r, behind before') ∧
      (byteLength before + byteLength (cutGap rest).1 < byteLength before' ∨ Settled r) ∧
      (Settled r → next source (behind before') = some (r, behind before')) := by
  have hnext := next_behind before rest
  have hsettled := Cursor.settled_next_iff before rest
  have hprefix := List.prefix_iff_eq_append.1 (Lexeme.ofText_prefix (cutGap rest).2)
  rw [hsource] at hnext
  refine ⟨_, _, (cutGap rest).2.drop (ofText (cutGap rest).2).text.length, ?_, hnext, ?_, ?_⟩
  · rw [List.append_assoc, hprefix, List.append_assoc, Lexeme.cutGap_append, hsource]
  · rw [hsettled, byteLength_append, byteLength_append]
    cases (ofText (cutGap rest).2).text with
    | nil => exact .inr rfl
    | cons c text =>
      have hpos := c.utf8Size_pos
      rw [byteLength_cons]
      exact .inl (by omega)
  · intro hr
    have hempty := hsettled.1 hr
    have hagain := next_again before hempty
    rw [hsource] at hagain
    rw [hempty, List.append_nil] at hnext ⊢
    rw [hagain, hnext]

/-- A scanner that has given such an answer gives it again and again. -/
theorem answer_of_settled (hs : after source n = some s) (hr : next source s = some (r, s'))
    (hagain : next source s' = some (r, s')) {m : Nat} (hm : n ≤ m) :
    answer source m = some r := by
  have hafter : ∀ k, after source (n + k + 1) = some s' := by
    intro k
    induction k with
    | zero => exact after_succ hs hr
    | succ k ih => exact after_succ ih hagain
  obtain ⟨k, rfl⟩ := Nat.exists_eq_add_of_le hm
  cases k with
  | zero => exact answer_eq hs hr
  | succ k => exact answer_eq (hafter k) hagain

/-- One of the first `n` calls gave an answer to stay with, or each of them went on by a byte. -/
theorem exists_settled_or_le (source : List Char) (n : Nat) :
    (∃ r, Settled r ∧ ∀ m, n ≤ m + 1 → answer source m = some r) ∨
      ∃ before rest, before ++ rest = source ∧ after source n = some (behind before) ∧
        n ≤ byteLength before := by
  induction n with
  | zero => exact .inr ⟨[], source, rfl, rfl, Nat.zero_le _⟩
  | succ n ih =>
    rcases ih with ⟨r, hr, hstays⟩ | ⟨before, rest, hsource, hafter, hle⟩
    · exact .inl ⟨r, hr, fun m hm => hstays m (by omega)⟩
    · obtain ⟨r, before', rest', hsource', hnext, hprogress, hagain⟩ := next_settles hsource
      rcases hprogress with hlt | hr
      · exact .inr ⟨before', rest', hsource', after_succ hafter hnext, by omega⟩
      · exact .inl ⟨r, hr, fun m hm => answer_of_settled hafter hnext (hagain hr) (by omega)⟩

/-- With one call more than there are bytes all tokens are collected. -/
theorem collect_behind (hsource : before ++ rest = source) {calls : Nat}
    (h : byteLength rest < calls) :
    collect source calls (behind before) = some (Cursor.behind before rest).tokens := by
  induction calls generalizing before rest with
  | zero => exact absurd h (Nat.not_lt_zero _)
  | succ calls ih =>
    let text := (ofText (cutGap rest).2).text
    let rest' := (cutGap rest).2.drop text.length
    have hnext := next_behind before rest
    have hsettled := Cursor.settled_next_iff before rest
    have hcursor : (Cursor.behind before rest).next =
        ((Cursor.behind before rest).next.1,
          Cursor.behind (before ++ (cutGap rest).1 ++ text) rest') :=
      Prod.ext rfl (by rw [Cursor.next_behind])
    have hrest : (cutGap rest).1 ++ (text ++ rest') = rest := by
      rw [List.prefix_iff_eq_append.1 (Lexeme.ofText_prefix _), Lexeme.cutGap_append]
    rw [hsource] at hnext
    rw [collect]
    simp only [hnext, Option.bind_eq_bind, Option.bind_some]
    revert hcursor hsettled
    cases (Cursor.behind before rest).next.1 with
    | error d =>
      intro _ hcursor
      rw [Cursor.tokens_of_error hcursor]
      rfl
    | ok t =>
      intro hsettled hcursor
      by_cases ht : t.kind = .eof
      · rw [Cursor.tokens_of_eof hcursor ht]
        simp [ht]
      -- any token but that of the end has taken a byte
      · have hlt : byteLength rest' < calls := by
          obtain ⟨c, cs, htext⟩ : ∃ c cs, text = c :: cs :=
            List.exists_cons_of_ne_nil fun hnil => ht (hsettled.2 hnil)
          have hpos := c.utf8Size_pos
          rw [← hrest, byteLength_append, byteLength_append, htext, byteLength_cons] at h
          omega
        have hmore : collect source calls (behind (before ++ (cutGap rest).1 ++ text)) =
            some (Cursor.behind (before ++ (cutGap rest).1 ++ text) rest').tokens :=
          ih (by rw [List.append_assoc, List.append_assoc, hrest, hsource]) hlt
        rw [Cursor.tokens_of_next hcursor ht]
        simp only [if_neg ht]
        rw [hmore]
        rfl

end Scanner

/-- Every call of a scanner uses up a byte behind the gap at least, or it finds the end of the text
or a character that begins no token. From then on all calls give the same, and that comes to pass in
one call more than the text has bytes. So many calls give all tokens of the text, or its first
fault. -/
theorem scanner_settles (source : String) :
    (∀ n, ∃ s r s', Scanner.after source.toList n = some s ∧
      s.next source.toList = some (r, s') ∧
      ((Cursor.ofSource source).pulls (n + 1))[n]? = some r ∧
      (s.pos + byteLength (cutGap (dropBytes s.pos source.toList)).1 < s'.pos ∨ Settled r) ∧
      s'.pos ≤ source.utf8ByteSize ∧
      (Settled r → ∀ m, n ≤ m → Scanner.answer source.toList m = some r)) ∧
    (∃ r, Settled r ∧ ∀ m, source.utf8ByteSize ≤ m → Scanner.answer source.toList m = some r) ∧
    ∀ calls, source.utf8ByteSize < calls →
      Scanner.collect source.toList calls .start = some (tokenize source) := by
  have hsize := byteLength_toList source
  refine ⟨fun n => ?_, ?_, fun calls hcalls => ?_⟩
  · obtain ⟨before, rest, hsource, hafter, hcursor⟩ := Scanner.after_behind source.toList n
    obtain ⟨r, before', rest', hsource', hnext, hprogress, hagain⟩ := Scanner.next_settles hsource
    have hdrop : dropBytes (byteLength before) source.toList = rest := by
      rw [← hsource, dropBytes_append]
    have hread := Scanner.next_behind before rest
    rw [hsource, hnext] at hread
    obtain rfl : r = (Cursor.behind before rest).next.1 :=
      congrArg (fun x => x.1) (Option.some.inj hread)
    refine ⟨_, _, _, hafter, hnext, ?_, ?_, ?_, fun hr m hm =>
      Scanner.answer_of_settled hafter hnext (hagain hr) hm⟩
    · rw [Cursor.getElem?_pulls]
      exact congrArg (fun c => some c.next.1) hcursor
    · rw [Scanner.behind, hdrop]
      exact hprogress
    · rw [← hsize, ← hsource', byteLength_append]
      exact Nat.le_add_right _ _
  · rcases Scanner.exists_settled_or_le source.toList (source.utf8ByteSize + 1) with
      ⟨r, hr, hstays⟩ | ⟨before, rest, hsource, -, hle⟩
    · exact ⟨r, hr, fun m hm => hstays m (by omega)⟩
    · rw [← hsize, ← hsource, byteLength_append] at hle
      omega
  · rw [← hsize] at hcalls
    exact Scanner.collect_behind (List.nil_append source.toList) hcalls

/-- The third call meets a character that begins no token, and no later call gets past it. -/
theorem strayMark_settles : ∀ m, 2 ≤ m → Scanner.answer "7 a#b".toList m =
    some (.error (.scan ⟨1, 4⟩ (.strayCharacter '#'))) := by
  intro m hm
  obtain ⟨s, r, s', -, -, hpull, -, -, hstays⟩ := (scanner_settles "7 a#b").1 2
  have hread : ((Cursor.ofSource "7 a#b").pulls 3)[2]? =
      some (.error (.scan ⟨1, 4⟩ (.strayCharacter '#'))) := by
    decide +kernel
  obtain rfl := Option.some.inj (hpull.symm.trans hread)
  exact hstays ⟨_, _, rfl⟩ m hm

end Bpl
