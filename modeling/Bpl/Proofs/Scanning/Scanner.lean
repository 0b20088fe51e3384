import Bpl.Proofs.Scanning.Bytes
import Bpl.Proofs.Scanning.Positions

namespace Bpl

namespace Lexeme

variable {cs : List Char}

theorem string_text (cs : List Char) :
    (string cs).text <+: '"' :: cs ∧ '\n' ∉ (string cs).text := by
  obtain ⟨inside, rest, rfl, hi, hr⟩ := exists_run (fun c => c != '"' && c != '\n') cs
  have hfree : '\n' ∉ inside := fun hmem => by simpa using hi _ hmem
  simp only [string, takeWhile_append hi hr, List.drop_left]
  split
  · next tail => exact ⟨⟨tail, by simp⟩, by simpa using hfree⟩
  · exact ⟨⟨rest, rfl⟩, by simpa using hfree⟩

theorem takeWhile_text {p : Char → Bool} {c : Char} (hc : c ≠ '\n') (hp : p '\n' = false)
    (cs : List Char) : c :: cs.takeWhile p <+: c :: cs ∧ '\n' ∉ c :: cs.takeWhile p := by
  refine ⟨List.cons_prefix_cons.2 ⟨rfl, List.takeWhile_prefix p⟩, ?_⟩
  rintro (_ | ⟨_, hmem⟩)
  · exact hc rfl
  · rw [List.mem_takeWhile_imp hmem] at hp
    cases hp

theorem punctuator_text (c : Char) (cs : List Char) :
    (punctuator c cs).text <+: c :: cs ∧ '\n' ∉ (punctuator c cs).text := by
  have hfree : ∀ p ∈ Token.punctuators.map String.toList, '\n' ∉ p := by decide
  rw [punctuator]
  split
  · next p hp =>
    exact ⟨List.isPrefixOf_iff_prefix.1 (by simpa using List.find?_some hp),
      hfree p (List.mem_of_find?_eq_some hp)⟩
  · exact ⟨List.nil_prefix, List.not_mem_nil⟩

/-- What is read for a word stands at the head of the text and on one line. -/
theorem ofText_text (h : ¬['/', '*'] <+: cs) :
    (ofText cs).text <+: cs ∧ '\n' ∉ (ofText cs).text := by
  revert h
  fun_cases ofText cs with
  | case1 => exact fun _ => ⟨List.prefix_rfl, List.not_mem_nil⟩
  | case2 cs => exact fun h => absurd (List.prefix_append ['/', '*'] cs) h
  | case3 cs => exact fun _ => string_text cs
  | case4 c cs _ _ ha =>
    refine fun _ => takeWhile_text ?_ rfl cs
    rintro rfl
    cases ha
  | case5 c cs _ _ _ hd =>
    rw [number_text]
    refine fun _ => takeWhile_text ?_ rfl cs
    rintro rfl
    cases hd
  | case6 c cs => exact fun _ => punctuator_text c cs

theorem ofText_prefix (cs : List Char) : (ofText cs).text <+: cs := by
  by_cases h : ['/', '*'] <+: cs
  · obtain ⟨t, rfl⟩ := h
    exact List.prefix_rfl
  · exact (ofText_text h).1

end Lexeme

open Lexeme (Stuck cutComment cutGap ofText)

namespace Cursor

theorem atLexeme_cutGap (before cs : List Char) :
    (behind before cs).atLexeme = behind (before ++ (cutGap cs).1) (cutGap cs).2 := by
  have hcut : (behind before ((cutGap cs).1 ++ (cutGap cs).2)).atLexeme =
      behind (before ++ (cutGap cs).1) (cutGap cs).2 :=
    atLexeme_behind (Lexeme.gap_cutGap cs) (Lexeme.cutGap_cutGap cs)
  rw [Lexeme.cutGap_append] at hcut
  exact hcut

/-- What a cursor behind the text `before` reads, and where it is then. -/
theorem next_behind (before cs : List Char) :
    (behind before cs).next =
      (match (ofText (cutGap cs).2).kind with
        | .ok kind => .ok (Split.token (before ++ (cutGap cs).1) kind (ofText (cutGap cs).2).text)
        | .error fault => .error (.scan (Location.first.after (before ++ (cutGap cs).1)) fault),
      behind (before ++ (cutGap cs).1 ++ (ofText (cutGap cs).2).text)
        ((cutGap cs).2.drop (ofText (cutGap cs).2).text.length)) := by
  have hpast := past_behind (before ++ (cutGap cs).1) (ofText (cutGap cs).2).text
    ((cutGap cs).2.drop (ofText (cutGap cs).2).text.length)
  rw [List.prefix_iff_eq_append.1 (Lexeme.ofText_prefix _)] at hpast
  simp only [next, atLexeme_cutGap]
  exact Prod.ext rfl hpast

end Cursor

namespace Scanner

variable {before w rest : List Char} {c : Char}

/-- The scanner that has read the text `before`. -/
def behind (before : List Char) : Scanner :=
  ⟨byteLength before, 1 + before.count '\n', byteLength (endedLines before)⟩

theorem advance_behind (hw : '\n' ∉ w) :
    (behind before).advance (byteLength w) = behind (before ++ w) := by
  simp [behind, advance, byteLength_append, endedLines_append hw, List.count_eq_zero_of_not_mem hw]

theorem foldl_pass {bs : List UInt8} (h : 10 ∉ bs) (s : Scanner) :
    bs.foldl pass s = s.advance bs.length := by
  induction bs generalizing s with
  | nil => rfl
  | cons b bs ih =>
    rw [List.mem_cons, not_or] at h
    rw [List.foldl_cons, pass, if_neg (Ne.symm h.1), ih h.2]
    simp [advance, Nat.add_assoc, Nat.add_comm 1]

/-- A scanner that passes over the bytes of a character passes over the character. -/
theorem foldl_pass_encode (before : List Char) (c : Char) :
    (String.utf8EncodeChar c).foldl pass (behind before) = behind (before ++ [c]) := by
  by_cases hc : c = '\n'
  · rw [hc, encode_ascii (by decide)]
    change pass (behind before) 10 = _
    rw [pass, if_pos rfl, behind, behind, endedLines_feed, byteLength_append, List.count_append]
    rfl
  · have hfree : 10 ∉ String.utf8EncodeChar c := fun hmem =>
      hc (eq_of_mem_encode (d := '\n') (by decide) hmem)
    rw [foldl_pass hfree, String.length_utf8EncodeChar,
      ← advance_behind (w := [c]) (by simpa using Ne.symm hc)]
    rfl

theorem locationOf_behind (before rest : List Char) :
    (behind before).locationOf (before ++ rest) = some (Location.first.after before) := by
  have hsplit : before ++ rest = endedLines before ++ (lastLine before ++ rest) := by
    rw [← List.append_assoc, endedLines_append_lastLine]
  have hlength :
      byteLength before = byteLength (endedLines before) + byteLength (lastLine before) := by
    rw [← byteLength_append, endedLines_append_lastLine]
  have hslice : slice? (before ++ rest) (behind before).lineStart (behind before).pos =
      some (lastLine before) := by
    rw [hsplit, behind, hlength]
    exact slice?_append _ _ _
  rw [locationOf, hslice, Location.first_after, Nat.add_comm 1 (lastLine before).length]
  rfl

theorem closeComment_cons {b : UInt8} {bs : List UInt8} (h : ¬[42, 47] <+: b :: bs) (s : Scanner) :
    closeComment (b :: bs) s = closeComment bs (s.pass b) := by
  rw [closeComment]
  rintro bs' rfl rfl
  exact h ⟨bs', rfl⟩

theorem closeComment_append {bs : List UInt8} (h : 42 ∉ bs) (more : List UInt8) (s : Scanner) :
    closeComment (bs ++ more) s = closeComment more (bs.foldl pass s) := by
  induction bs generalizing s with
  | nil => rfl
  | cons b bs ih =>
    rw [List.mem_cons, not_or] at h
    have hb : ¬[42, 47] <+: b :: (bs ++ more) := by
      rintro ⟨t, ht⟩
      exact h.1 (List.cons.inj ht).1
    rw [List.cons_append, closeComment_cons hb, ih h.2, List.foldl_cons]

/-- A mark of two ASCII characters stands at the head of the bytes only where it stands at the head
of the text. -/
theorem prefix_of_prefix_bytesOf {d e : Char} {cs : List Char} (hd : d.toNat < 128)
    (he : e.toNat < 128) (h : [d.toUInt8, e.toUInt8] <+: bytesOf cs) : [d, e] <+: cs := by
  obtain ⟨t, ht⟩ := h
  obtain ⟨tail, rfl, htail⟩ := exists_of_bytesOf_eq_cons hd ht.symm
  obtain ⟨rest, rfl, _⟩ := exists_of_bytesOf_eq_cons he htail
  exact ⟨rest, rfl⟩

theorem closeComment_char (h : ¬['*', '/'] <+: c :: rest) :
    closeComment (bytesOf (c :: rest)) (behind before) =
      closeComment (bytesOf rest) (behind (before ++ [c])) := by
  by_cases hc : c = '*'
  · have hbytes : bytesOf ('*' :: rest) = 42 :: bytesOf rest := bytesOf_ascii (by decide) rest
    subst hc
    have hmark : ¬[42, 47] <+: 42 :: bytesOf rest := fun hp =>
      h (prefix_of_prefix_bytesOf (by decide) (by decide) (hbytes ▸ hp))
    rw [hbytes, closeComment_cons hmark, ← foldl_pass_encode]
    rfl
  · have hfree : 42 ∉ String.utf8EncodeChar c := fun hmem =>
      hc (eq_of_mem_encode (d := '*') (by decide) hmem)
    rw [bytesOf_cons, closeComment_append hfree, foldl_pass_encode]

/-- A scanner finds the end of a comment where `cutComment` does. -/
theorem closeComment_behind (before cs : List Char) :
    closeComment (bytesOf cs) (behind before) =
      match cutComment cs with
      | some (comment, rest) => (some (bytesOf rest), behind (before ++ comment))
      | none => (none, behind (before ++ cs)) := by
  fun_induction cutComment cs generalizing before with
  | case1 => simp [bytesOf, closeComment]
  | case2 cs =>
    have hbytes : bytesOf ('*' :: '/' :: cs) = 42 :: 47 :: bytesOf cs := rfl
    have hpos : (behind before).advance 2 = behind (before ++ ['*', '/']) :=
      advance_behind (w := ['*', '/']) (by decide)
    rw [hbytes, closeComment, hpos]
  | case3 c cs hm ih =>
    have hmark : ¬['*', '/'] <+: c :: cs := by
      rintro ⟨t, ht⟩
      exact hm t (List.cons.inj ht).1.symm (List.cons.inj ht).2.symm
    rw [closeComment_char hmark, ih]
    cases cutComment cs with
    | none => simp
    | some cut => simp

theorem skipTrivia_blank {source : List Char} {b : UInt8} {bs : List UInt8}
    (hb : byteIs Lexeme.isBlank b = true) (s : Scanner) :
    skipTrivia source (b :: bs) s = skipTrivia source bs (s.pass b) := by
  rw [skipTrivia, if_pos hb]
  rintro bs' rfl
  cases hb

theorem skipTrivia_word {source : List Char} {b : UInt8} {bs : List UInt8}
    (hb : byteIs Lexeme.isBlank b = false) (h : ¬[47, 42] <+: b :: bs) (s : Scanner) :
    skipTrivia source (b :: bs) s = some (.ok (), s) := by
  rw [skipTrivia, if_neg (by simp [hb])]
  rintro bs' rfl rfl
  exact h ⟨bs', rfl⟩

/-- What passing over a comment comes to, with the scanner behind its opening mark. -/
theorem skipTrivia_comment {source : List Char} {bs : List UInt8} {s : Scanner} {l : Location}
    (hl : s.locationOf source = some l) :
    skipTrivia source (47 :: 42 :: bs) s =
      match closeComment bs (s.advance 2) with
      | (none, s') => some (.error (.scan l .unclosedComment), s')
      | (some rest, s') => skipTrivia source rest s' := by
  rw [skipTrivia, hl]
  split <;> split <;> simp_all

/-- A scanner in front of a comment comes to stand behind it, or at the end of the text where the
comment has none. -/
theorem skipTrivia_opening (before cs : List Char) :
    skipTrivia (before ++ '/' :: '*' :: cs) (bytesOf ('/' :: '*' :: cs)) (behind before) =
      match cutComment cs with
      | some (comment, rest) =>
        skipTrivia (before ++ '/' :: '*' :: cs) (bytesOf rest)
          (behind (before ++ ['/', '*'] ++ comment))
      | none =>
        some (.error (.scan (Location.first.after before) .unclosedComment),
          behind (before ++ ['/', '*'] ++ cs)) := by
  have hbytes : bytesOf ('/' :: '*' :: cs) = 47 :: 42 :: bytesOf cs := rfl
  have hpos : (behind before).advance 2 = behind (before ++ ['/', '*']) :=
    advance_behind (w := ['/', '*']) (by decide)
  rw [hbytes, skipTrivia_comment (locationOf_behind before _), hpos, closeComment_behind]
  cases cutComment cs <;> rfl

/-- A scanner passes over the gap that `cutGap` cuts off, up to the start of a comment that has no
end or of something else. -/
theorem skipTrivia_behind (before cs : List Char) :
    skipTrivia (before ++ cs) (bytesOf cs) (behind before) =
      if ['/', '*'] <+: (cutGap cs).2 then
        some (.error (.scan (Location.first.after (before ++ (cutGap cs).1)) .unclosedComment),
          behind (before ++ cs))
      else some (.ok (), behind (before ++ (cutGap cs).1)) := by
  fun_induction cutGap cs generalizing before with
  | case1 => simp [bytesOf, skipTrivia]
  | case2 cs hnone =>
    rw [skipTrivia_opening, hnone]
    simp
  | case3 cs comment rest hsome _ ih =>
    have hcs : before ++ '/' :: '*' :: cs = before ++ ['/', '*'] ++ comment ++ rest := by
      simp [Lexeme.cutComment_append hsome]
    rw [skipTrivia_opening, hsome, hcs]
    simp only [ih]
    simp
  | case4 c cs _ hc ih =>
    have hascii := ascii_of not_isBlank_of_le hc
    have hpass : (behind before).pass c.toUInt8 = behind (before ++ [c]) := by
      rw [← foldl_pass_encode, encode_ascii hascii]
      rfl
    have hcs : before ++ c :: cs = before ++ [c] ++ cs := by simp
    rw [bytesOf_ascii hascii, skipTrivia_blank ((byteIs_toUInt8 _ hascii).trans hc), hpass, hcs, ih]
    simp
  | case5 c cs hm hc =>
    have hmark : ¬['/', '*'] <+: c :: cs := by
      rintro ⟨t, ht⟩
      exact hm t (List.cons.inj ht).1.symm (List.cons.inj ht).2.symm
    have hbmark : ¬[47, 42] <+: bytesOf (c :: cs) := fun hp =>
      hmark (prefix_of_prefix_bytesOf (by decide) (by decide) hp)
    obtain ⟨b, bs, hbytes⟩ := exists_cons_encode c
    have hb : byteIs Lexeme.isBlank b = false := by
      rw [bytewise_isBlank c b (by rw [hbytes]; exact List.mem_cons_self)]
      exact Bool.eq_false_iff.2 hc
    rw [bytesOf_cons, hbytes, List.cons_append] at hbmark ⊢
    rw [skipTrivia_word hb hbmark, if_neg hmark, List.append_nil]

/-- A run of a class behind an ASCII character takes as many bytes as are found of it. -/
theorem length_run {p : Char → Bool} (hp : Bytewise p) (hc : c.toNat < 128) (cs : List Char) :
    1 + ((bytesOf cs).takeWhile (byteIs p)).length = byteLength (c :: cs.takeWhile p) := by
  rw [hp.takeWhile, length_bytesOf, byteLength_cons, ← String.length_utf8EncodeChar,
    encode_ascii hc]
  rfl

theorem slice_run (before : List Char) (c : Char) (cs : List Char) (p : Char → Bool) :
    slice? (before ++ c :: cs) (byteLength before)
      (byteLength before + byteLength (c :: cs.takeWhile p)) = some (c :: cs.takeWhile p) := by
  have hcs : before ++ c :: cs = before ++ (c :: cs.takeWhile p ++ cs.dropWhile p) := by
    rw [List.cons_append, List.takeWhile_append_dropWhile]
  rw [hcs, slice?_append]

theorem wordAt_alpha (before cs : List Char) (hc : c.isAlpha = true) :
    wordAt (before ++ c :: cs) (byteLength before) c.toUInt8 (bytesOf cs) =
      some ((ofText (c :: cs)).kind, byteLength (ofText (c :: cs)).text) := by
  have hascii := ascii_of not_isAlpha_of_le hc
  have hb : byteIs Char.isAlpha c.toUInt8 = true := (byteIs_toUInt8 _ hascii).trans hc
  have hsize := length_run bytewise_isWordChar hascii cs
  have hslice := slice_run before c cs Lexeme.isWordChar
  rw [wordAt, if_pos hb, Lexeme.ofText_alpha hc]
  simp only [hsize, hslice]
  rfl

theorem wordAt_digit (before cs : List Char) (hc : c.isDigit = true) :
    wordAt (before ++ c :: cs) (byteLength before) c.toUInt8 (bytesOf cs) =
      some ((ofText (c :: cs)).kind, byteLength (ofText (c :: cs)).text) := by
  have hascii := ascii_of not_isDigit_of_le hc
  have hb : byteIs Char.isDigit c.toUInt8 = true := (byteIs_toUInt8 _ hascii).trans hc
  have ha : ¬byteIs Char.isAlpha c.toUInt8 = true := by
    rw [byteIs_toUInt8 _ hascii, Lexeme.isAlpha_of_isDigit hc]
    exact Bool.false_ne_true
  have hsize := length_run bytewise_isDigit hascii cs
  have hslice := slice_run before c cs Char.isDigit
  rw [wordAt, if_neg ha, if_pos hb, Lexeme.ofText_digit hc, Lexeme.number_text]
  simp only [hsize, hslice]
  rfl

theorem wordAt_string (source : List Char) (start : Nat) (cs : List Char) :
    wordAt source start 34 (bytesOf cs) =
      some ((Lexeme.string cs).kind, byteLength (Lexeme.string cs).text) := by
  obtain ⟨inside, rest, rfl, hi, hr⟩ := Lexeme.exists_run (fun c => c != '"' && c != '\n') cs
  have htake : (bytesOf (inside ++ rest)).takeWhile (byteIs fun c => c != '"' && c != '\n') =
      bytesOf inside := by
    rw [bytewise_inString.takeWhile, Lexeme.takeWhile_append hi hr]
  rw [wordAt, if_neg (by decide), if_neg (by decide), if_pos rfl]
  simp only [htake, length_bytesOf, drop_bytesOf, Lexeme.string, Lexeme.takeWhile_append hi hr,
    List.drop_left]
  have hopen : byteLength inside + 1 = byteLength ('"' :: inside) := Nat.add_comm _ _
  cases rest with
  | nil => rw [hopen]; rfl
  | cons d rest =>
    have hd := hr d rfl
    simp only [Bool.and_eq_false_iff, bne_eq_false_iff_eq] at hd
    rcases hd with rfl | rfl
    · have hclose : byteLength inside + 2 = byteLength ('"' :: inside ++ ['"']) := by
        rw [byteLength_append, ← hopen]
        rfl
      rw [hclose]
      rfl
    · rw [hopen]
      rfl

/-- The bytes from the first one of a word on tell what `ofText` does. -/
theorem wordAt_behind {b : UInt8} {bs : List UInt8} (before : List Char)
    (h : ¬['/', '*'] <+: c :: rest) (hbytes : bytesOf (c :: rest) = b :: bs) :
    wordAt (before ++ c :: rest) (byteLength before) b bs =
      some ((ofText (c :: rest)).kind, byteLength (ofText (c :: rest)).text) := by
  have hbyte : ∀ p, Bytewise p → byteIs p b = p c := by
    intro p hp
    obtain ⟨d, more, hd⟩ := exists_cons_encode c
    refine hp c b ?_
    rw [bytesOf_cons, hd] at hbytes
    rw [hd, ← (List.cons.inj hbytes).1]
    exact List.mem_cons_self
  by_cases hq : c = '"'
  · subst hq
    have hb : 34 :: bytesOf rest = b :: bs := hbytes
    rw [← (List.cons.inj hb).1, ← (List.cons.inj hb).2]
    exact wordAt_string _ _ rest
  by_cases ha : c.isAlpha = true
  · rw [bytesOf_ascii (ascii_of not_isAlpha_of_le ha)] at hbytes
    rw [← (List.cons.inj hbytes).1, ← (List.cons.inj hbytes).2]
    exact wordAt_alpha before rest ha
  by_cases hd : c.isDigit = true
  · rw [bytesOf_ascii (ascii_of not_isDigit_of_le hd)] at hbytes
    rw [← (List.cons.inj hbytes).1, ← (List.cons.inj hbytes).2]
    exact wordAt_digit before rest hd
  have hb : b ≠ 34 := by
    rintro rfl
    obtain ⟨tail, htail, _⟩ := exists_of_bytesOf_eq_cons (d := '"') (by decide) hbytes
    exact hq (List.cons.inj htail).1
  rw [wordAt, hbyte _ bytewise_isAlpha, hbyte _ bytewise_isDigit, if_neg ha, if_neg hd, if_neg hb,
    cutAt_append, Lexeme.ofText_cons h hq, if_neg ha, if_neg hd]
  rfl

/-- A scanner reads what a cursor at the same place does, and finds each of its slices. -/
theorem next_behind (before cs : List Char) :
    next (before ++ cs) (behind before) = some ((Cursor.behind before cs).next.1,
      behind (before ++ (cutGap cs).1 ++ (ofText (cutGap cs).2).text)) := by
  have htrivia := skipTrivia_behind before cs
  rw [← drop_bytesOf before cs] at htrivia
  have hpos : (behind before).pos = byteLength before := rfl
  have hsource : before ++ cs = before ++ (cutGap cs).1 ++ (cutGap cs).2 := by
    rw [List.append_assoc, Lexeme.cutGap_append]
  rw [next, hpos, htrivia, Cursor.next_behind]
  by_cases hm : ['/', '*'] <+: (cutGap cs).2
  · -- nothing is behind a comment that has no end
    obtain ⟨t, ht⟩ := hm
    have hall : (ofText (cutGap cs).2).text = (cutGap cs).2 := by
      rw [← ht]
      rfl
    have hkind : (ofText (cutGap cs).2).kind = .error .unclosedComment := by
      rw [← ht]
      rfl
    rw [if_pos ⟨t, ht⟩, hkind, hall, ← hsource]
    rfl
  · rw [if_neg hm, hsource]
    -- from here on it does not matter that a gap was cut off
    generalize before ++ (cutGap cs).1 = front at *
    generalize (cutGap cs).2 = rest at *
    have hfront : (behind front).pos = byteLength front := rfl
    simp only [Option.bind_eq_bind, Option.bind_some, locationOf_behind, hfront, drop_bytesOf]
    cases rest with
    | nil =>
      have hnil : ofText [] = ⟨.ok .eof, []⟩ := rfl
      rw [hnil, List.append_nil]
      rfl
    | cons c rest =>
      obtain ⟨b, bs, hbytes⟩ : ∃ b bs, bytesOf (c :: rest) = b :: bs := by
        obtain ⟨b, bs, hb⟩ := exists_cons_encode c
        exact ⟨b, bs ++ bytesOf rest, by rw [bytesOf_cons, hb, List.cons_append]⟩
      have hslice : slice? (front ++ c :: rest) (byteLength front)
          (byteLength front + byteLength (ofText (c :: rest)).text) =
            some (ofText (c :: rest)).text := by
        obtain ⟨more, hmore⟩ := Lexeme.ofText_prefix (c :: rest)
        conv_lhs => arg 1; rw [← hmore]
        exact slice?_append _ _ _
      simp only [hbytes, wordAt_behind front hm hbytes, Option.bind_some]
      cases (ofText (c :: rest)).kind with
      | error fault => simp [advance_behind (Lexeme.ofText_text hm).2]
      | ok kind => simp [hslice, advance_behind (Lexeme.ofText_text hm).2, Split.token]

/-- After any number of tokens the scanner and the cursor have read the same text. -/
theorem after_behind (source : List Char) (n : Nat) :
    ∃ before rest, before ++ rest = source ∧ after source n = some (behind before) ∧
      (fun c => c.next.2)^[n] (Cursor.behind [] source) = Cursor.behind before rest := by
  induction n with
  | zero => exact ⟨[], source, rfl, rfl, rfl⟩
  | succ n ih =>
    obtain ⟨before, rest, hsource, hafter, hcursor⟩ := ih
    have hnext := next_behind before rest
    rw [hsource] at hnext
    refine ⟨before ++ (cutGap rest).1 ++ (ofText (cutGap rest).2).text,
      (cutGap rest).2.drop (ofText (cutGap rest).2).text.length, ?_, ?_, ?_⟩
    · rw [List.append_assoc, List.prefix_iff_eq_append.1 (Lexeme.ofText_prefix _),
        List.append_assoc, Lexeme.cutGap_append, hsource]
    · rw [after, hafter]
      simp only [Option.bind_eq_bind, Option.bind_some, hnext]
      rfl
    · rw [Function.iterate_succ_apply', hcursor, Cursor.next_behind]

/-- `s.InPlace source`: the scanner stands between two characters of the text, its line is that of
the byte where it stands, and it knows the byte where this line starts. -/
structure InPlace (source : String) (s : Scanner) : Prop where
  le : s.pos ≤ source.utf8ByteSize
  valid : (String.Pos.Raw.mk s.pos).IsValid source
  line : s.line = 1 + (takeBytes s.pos source.toList).count '\n'
  lineStart : s.lineStart = byteLength (endedLines (takeBytes s.pos source.toList))

theorem inPlace_behind {source : String} {before rest : List Char}
    (h : before ++ rest = source.toList) : (behind before).InPlace source := by
  have htake : takeBytes (byteLength before) source.toList = before := by
    rw [← h, takeBytes_append]
  have hvalid := isValid_of_append h
  exact ⟨hvalid.le_rawEndPos, hvalid, by rw [behind, htake], by rw [behind, htake]⟩

end Scanner

theorem Lexeme.stuck_of_ofText {cs : List Char} {fault : LexicalFault}
    (h : cutGap cs = ([], cs)) (hfault : (ofText cs).kind = .error fault) : Stuck fault cs := by
  rcases eq_nil_or_begins h with rfl | ⟨k, w, rest, rfl, hs, hl⟩ | ⟨fault', hstuck⟩
  · cases hfault
  · rw [ofText_of_longest hs hl] at hfault
    cases hfault
  · rw [ofText_of_stuck hstuck] at hfault
    cases hfault
    exact hstuck

/-- `StartsAt source offset r`: the token or the diagnostic `r` is about the byte `offset` of a text
and carries its place. -/
def StartsAt (source : String) (offset : Nat) : Except Diagnostic Token → Prop
  | .ok t => t.start = offset ∧ t.location.At source offset
  | .error d => ∃ l fault, d = .scan l fault ∧ l.At source offset ∧
      Stuck fault (dropBytes offset source.toList)

theorem startsAt_next {source : String} {before rest : List Char}
    (h : before ++ rest = source.toList) :
    StartsAt source (byteLength (before ++ (cutGap rest).1))
      (Cursor.behind before rest).next.1 := by
  have hsource : before ++ (cutGap rest).1 ++ (cutGap rest).2 = source.toList := by
    rw [List.append_assoc, Lexeme.cutGap_append, h]
  have hat := Location.at_of_append hsource
  rw [Cursor.next_behind]
  cases hkind : (ofText (cutGap rest).2).kind with
  | ok kind => exact ⟨rfl, hat⟩
  | error fault =>
    refine ⟨_, fault, rfl, hat, ?_⟩
    rw [← hsource, dropBytes_append]
    exact Lexeme.stuck_of_ofText (Lexeme.cutGap_cutGap rest) hkind

theorem Cursor.getElem?_pulls (n : Nat) (c : Cursor) :
    (c.pulls (n + 1))[n]? = some ((fun c => c.next.2)^[n] c).next.1 := by
  induction n generalizing c with
  | zero => rfl
  | succ n ih =>
    rw [pulls, List.getElem?_cons_succ, ih, Function.iterate_succ_apply]

/-- After any number of attempts to read a token, failed ones and ones behind the end among them, a
scanner stands in place. The next attempt gives what the cursor does: a token or a diagnostic about
the byte behind the gap, with its line and column. -/
theorem scanner_stays_in_place (source : String) (n : Nat) :
    ∃ s r s', Scanner.after source.toList n = some s ∧ s.InPlace source ∧
      s.next source.toList = some (r, s') ∧
      StartsAt source (s.pos + byteLength (cutGap (dropBytes s.pos source.toList)).1) r ∧
      ((Cursor.ofSource source).pulls (n + 1))[n]? = some r := by
  obtain ⟨before, rest, hsource, hafter, hcursor⟩ := Scanner.after_behind source.toList n
  have hnext := Scanner.next_behind before rest
  rw [hsource] at hnext
  have hdrop : dropBytes (byteLength before) source.toList = rest := by
    rw [← hsource, dropBytes_append]
  refine ⟨_, _, _, hafter, Scanner.inPlace_behind hsource, hnext, ?_, ?_⟩
  · rw [Scanner.behind, hdrop, ← byteLength_append]
    exact startsAt_next hsource
  · rw [Cursor.getElem?_pulls]
    exact congrArg (fun c => some c.next.1) hcursor

end Bpl
