import Mathlib
import Bpl.Lexeme

namespace Bpl.Lexeme

/-- Blanks and comments. A comment runs from its opening mark to the first mark that closes it. -/
inductive Gap : List Char → Prop
  | nil : Gap []
  | blank {c : Char} {g : List Char} : isBlank c = true → Gap g → Gap (c :: g)
  | comment {inside g : List Char} : ¬['*', '/'] <:+: inside → Gap g →
      Gap ('/' :: '*' :: inside ++ ['*', '/'] ++ g)

theorem not_prefix_of_no_close {c : Char} {cs : List Char} (rest : List Char)
    (hm : ∀ tail, c = '*' → cs ++ rest = '/' :: tail → False) : ¬['*', '/'] <+: c :: cs := by
  rintro ⟨t, ht⟩
  obtain ⟨rfl, rfl⟩ := List.cons.inj ht
  exact hm (t ++ rest) rfl rfl

theorem cutComment_cons {c : Char} {cs : List Char} (h : ¬['*', '/'] <+: c :: cs) :
    cutComment (c :: cs) = (cutComment cs).map fun (comment, rest) => (c :: comment, rest) := by
  rw [cutComment]
  rintro tail rfl rfl
  exact h ⟨tail, rfl⟩

theorem cutComment_append_of_not_infix {inside : List Char} (h : ¬['*', '/'] <:+: inside)
    (rest : List Char) :
    cutComment (inside ++ '*' :: '/' :: rest) = some (inside ++ ['*', '/'], rest) := by
  induction inside with
  | nil => rfl
  | cons c cs ih =>
    rw [List.infix_cons_iff, not_or] at h
    rw [List.cons_append, cutComment_cons, ih h.2, Option.map_some, List.cons_append]
    -- the mark could also begin with the last character of the comment
    rintro ⟨t, ht⟩
    obtain ⟨rfl, ht'⟩ := List.cons.inj ht
    cases cs with
    | nil => cases ht'
    | cons d cs =>
      obtain ⟨rfl, _⟩ := List.cons.inj ht'
      exact h.1 ⟨cs, rfl⟩

theorem exists_of_cutComment {cs comment rest : List Char}
    (h : cutComment cs = some (comment, rest)) :
    ∃ inside, ¬['*', '/'] <:+: inside ∧ comment = inside ++ ['*', '/'] := by
  fun_induction cutComment cs generalizing comment rest with
  | case1 => cases h
  | case2 => cases h; exact ⟨[], by decide, rfl⟩
  | case3 c cs hm ih =>
    obtain ⟨⟨b, r⟩, hb, he⟩ := Option.map_eq_some_iff.1 h
    obtain ⟨inside, hi, rfl⟩ := ih hb
    cases he
    refine ⟨c :: inside, ?_, rfl⟩
    rw [List.infix_cons_iff, not_or]
    refine ⟨not_prefix_of_no_close (['*', '/'] ++ rest) fun tail hc ht => ?_, hi⟩
    refine hm tail hc ?_
    rw [← cutComment_append hb, List.append_assoc, ht]

theorem cutComment_eq_none_iff {cs : List Char} :
    cutComment cs = none ↔ ¬['*', '/'] <:+: cs := by
  fun_induction cutComment cs with
  | case1 => simp
  | case2 cs => simpa using List.infix_append' [] ['*', '/'] cs
  | case3 c cs hm ih =>
    have hc : ¬['*', '/'] <+: c :: cs :=
      not_prefix_of_no_close [] fun tail hc ht => hm tail hc (by simpa using ht)
    rw [Option.map_eq_none_iff, ih, List.infix_cons_iff, not_or]
    exact ⟨fun h => ⟨hc, h⟩, And.right⟩

/-- What is cut off in front of a lexeme is a gap. -/
theorem gap_cutGap (cs : List Char) : Gap (cutGap cs).1 := by
  fun_induction cutGap cs with
  | case1 | case2 | case5 => exact .nil
  | case3 cs comment rest h _ ih =>
    obtain ⟨inside, hi, rfl⟩ := exists_of_cutComment h
    exact .comment hi ih
  | case4 c cs _ hc ih => exact .blank hc ih

theorem cutGap_of_blank {c : Char} {cs : List Char} (h : isBlank c = true) :
    cutGap (c :: cs) = (cutGap cs).map (c :: ·) id := by
  rw [cutGap.eq_def (c :: cs)]
  split
  · next h' => cases h'
  · next h' =>
    cases h'
    cases h
  · next h' =>
    cases h'
    rw [if_pos h]

theorem cutGap_of_comment {inside : List Char} (h : ¬['*', '/'] <:+: inside) (rest : List Char) :
    cutGap ('/' :: '*' :: inside ++ '*' :: '/' :: rest) =
      (cutGap rest).map ('/' :: '*' :: inside ++ ['*', '/'] ++ ·) id := by
  have hc := cutComment_append_of_not_infix h rest
  rw [List.cons_append, List.cons_append, cutGap]
  split
  · next h' => rw [hc] at h'; cases h'
  · next h' => rw [hc] at h'; cases h'; rfl

/-- A character that is no blank, and does not open a comment, begins no gap. -/
theorem cutGap_cons {c : Char} {cs : List Char} (hb : isBlank c = false)
    (hc : ¬['/', '*'] <+: c :: cs) : cutGap (c :: cs) = ([], c :: cs) := by
  unfold cutGap
  split
  · next h => cases h
  · next cs' h => exact absurd (h ▸ List.prefix_append ['/', '*'] cs') hc
  · next h =>
    cases h
    rw [if_neg (by simp [hb])]

theorem cutGap_of_unclosed {cs : List Char} (h : ¬['*', '/'] <:+: cs) :
    cutGap ('/' :: '*' :: cs) = ([], '/' :: '*' :: cs) := by
  have hc := cutComment_eq_none_iff.2 h
  rw [cutGap]
  split
  · rfl
  · next h' => rw [hc] at h'; cases h'

/-- All of a gap is cut off, and what follows it is cut as without it. -/
theorem cutGap_append_of_gap {g : List Char} (h : Gap g) (rest : List Char) :
    cutGap (g ++ rest) = (cutGap rest).map (g ++ ·) id := by
  induction h with
  | nil => rfl
  | blank hc _ ih =>
    rw [List.cons_append, cutGap_of_blank hc, ih]
    rfl
  | @comment inside g hi _ ih =>
    have hassoc : '/' :: '*' :: inside ++ ['*', '/'] ++ g ++ rest =
        '/' :: '*' :: inside ++ '*' :: '/' :: (g ++ rest) := by simp
    rw [hassoc, cutGap_of_comment hi, ih]
    simp [Prod.map]

theorem gap_iff {g : List Char} : Gap g ↔ cutGap g = (g, []) := by
  constructor
  · intro h
    have hcut := cutGap_append_of_gap h []
    rw [List.append_nil, cutGap] at hcut
    simpa using hcut
  · intro h
    have hgap := gap_cutGap g
    rw [h] at hgap
    exact hgap

instance (g : List Char) : Decidable (Gap g) :=
  decidable_of_iff _ gap_iff.symm

/-- Behind a gap that is cut off there is no further one. -/
theorem cutGap_cutGap (cs : List Char) : cutGap (cutGap cs).2 = ([], (cutGap cs).2) := by
  fun_induction cutGap cs with
  | case1 => rw [cutGap]
  | case2 cs h => exact cutGap_of_unclosed (cutComment_eq_none_iff.1 h)
  | case3 cs comment rest h _ ih => exact ih
  | case4 c cs _ hc ih => exact ih
  | case5 c cs hm hc =>
    refine cutGap_cons (by simpa using hc) ?_
    rintro ⟨t, ht⟩
    obtain ⟨rfl, rfl⟩ := List.cons.inj ht
    exact hm t rfl rfl

end Bpl.Lexeme
