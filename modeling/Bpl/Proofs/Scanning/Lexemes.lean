import Bpl.Cursor
import Bpl.Proofs.Scanning.Gaps

namespace Bpl

namespace Lexeme

/-- `Spells k w`: the characters `w` are a whole word of kind `k`. -/
inductive Spells : Token.Kind → List Char → Prop
  | keyword {w : List Char} : String.ofList w ∈ Token.keywords → Spells .keyword w
  | ident {c : Char} {cs : List Char} :
      c.isAlpha = true → (∀ d ∈ cs, isWordChar d = true) →
        String.ofList (c :: cs) ∉ Token.keywords → Spells .ident (c :: cs)
  | number {c : Char} {cs : List Char} :
      (∀ d ∈ c :: cs, d.isDigit = true) → decimal (c :: cs) < 2 ^ 63 →
        Spells (.number (some (Int64.ofNat (decimal (c :: cs))))) (c :: cs)
  | string {cs : List Char} :
      (∀ d ∈ cs, d ≠ '"' ∧ d ≠ '\n') → Spells .string ('"' :: cs ++ ['"'])
  | punctuator {w : List Char} :
      w ∈ Token.punctuators.map String.toList → Spells .punctuator w

/-- No longer word of its kind begins where `w` stands in front of `rest`. The slash that opens a
comment is no punctuator. -/
def Longest : Token.Kind → List Char → List Char → Prop
  | .keyword, _, rest | .ident, _, rest => ∀ c ∈ rest.head?, isWordChar c = false
  | .number _, _, rest => ∀ c ∈ rest.head?, c.isDigit = false
  | .string, _, _ => True
  | .punctuator, w, rest =>
    (∀ p ∈ Token.punctuators.map String.toList, p <+: w ++ rest → p.length ≤ w.length) ∧
      ¬['/', '*'] <+: w ++ rest
  | .eof, _, _ => False

/-- `Stuck fault cs`: the text `cs` begins with what would be a comment, a string or a number if
it were not incomplete or too large, or with a character that begins nothing. -/
inductive Stuck : LexicalFault → List Char → Prop
  | comment {cs : List Char} : ¬['*', '/'] <:+: cs → Stuck .unclosedComment ('/' :: '*' :: cs)
  | string {inside rest : List Char} :
      (∀ d ∈ inside, d ≠ '"' ∧ d ≠ '\n') → (∀ c ∈ rest.head?, c = '\n') →
        Stuck .unclosedString ('"' :: inside ++ rest)
  | number {c : Char} {cs rest : List Char} :
      (∀ d ∈ c :: cs, d.isDigit = true) → (∀ d ∈ rest.head?, d.isDigit = false) →
        2 ^ 63 ≤ decimal (c :: cs) →
          Stuck (.numberTooLarge (String.ofList (c :: cs))) (c :: cs ++ rest)
  | character {c : Char} {cs : List Char} :
      isBlank c = false → c.isAlpha = false → c.isDigit = false → c ≠ '"' →
        (∀ p ∈ Token.punctuators.map String.toList, ¬p <+: c :: cs) →
          Stuck (.strayCharacter c) (c :: cs)

variable {c : Char} {cs w rest : List Char} {k : Token.Kind} {fault : LexicalFault}

theorem Spells.ne_nil (h : Spells k w) : w ≠ [] := by
  rintro rfl
  cases h with
  | keyword hw => exact absurd hw (by decide)
  | punctuator hw => exact ne_nil_of_punctuator hw rfl

theorem Spells.ne_eof (h : Spells k w) : k ≠ .eof := by
  rintro rfl
  cases h

theorem takeWhile_append {p : Char → Bool} (hcs : ∀ d ∈ cs, p d = true)
    (hr : ∀ d ∈ rest.head?, p d = false) : (cs ++ rest).takeWhile p = cs := by
  have hrest : rest.takeWhile p = [] := by
    cases rest with
    | nil => rfl
    | cons d rest => rw [List.takeWhile_cons_of_neg (by simp [hr d rfl])]
  rw [List.takeWhile_append_of_pos hcs, hrest, List.append_nil]

/-- A text is a run of characters of a class and what follows it. -/
theorem exists_run (p : Char → Bool) (cs : List Char) :
    ∃ run rest, run ++ rest = cs ∧ (∀ d ∈ run, p d = true) ∧ ∀ d ∈ rest.head?, p d = false := by
  refine ⟨cs.takeWhile p, cs.dropWhile p, List.takeWhile_append_dropWhile,
    fun _ hd => List.mem_takeWhile_imp hd, fun d hd => ?_⟩
  have h := List.head?_dropWhile_not p cs
  rw [Option.mem_def.1 hd] at h
  simpa using h

/-- The punctuator that is found is the longest one. -/
theorem length_le_of_find?_punctuator {p q : List Char}
    (hp : (Token.punctuators.map String.toList).find? (·.isPrefixOf cs) = some p)
    (hq : q ∈ Token.punctuators.map String.toList) (hqc : q <+: cs) : q.length ≤ p.length := by
  -- longer punctuators stand before those that they begin with
  have hfirst : ∀ q ∈ Token.punctuators.map String.toList,
      (Token.punctuators.map String.toList).find? (·.isPrefixOf q) = some q := by
    decide +kernel
  by_contra hlt
  obtain ⟨hpc, before, after, htable, hbefore⟩ := List.find?_eq_some_iff_append.1 hp
  have hpq : p <+: q :=
    List.prefix_of_prefix_length_le (List.isPrefixOf_iff_prefix.1 hpc) hqc (by omega)
  have hfind : (Token.punctuators.map String.toList).find? (·.isPrefixOf q) = some p := by
    refine List.find?_eq_some_iff_append.2
      ⟨List.isPrefixOf_iff_prefix.2 hpq, before, after, htable, fun x hx => ?_⟩
    have hxc := hbefore x hx
    simp only [Bool.not_eq_true', Bool.eq_false_iff, ne_eq, List.isPrefixOf_iff_prefix] at hxc ⊢
    exact fun hxq => hxc (hxq.trans hqc)
  rw [hfirst q hq] at hfind
  rw [Option.some.inj hfind] at hlt
  exact hlt (le_refl _)

theorem ofText_cons (hs : ¬['/', '*'] <+: c :: cs) (hq : c ≠ '"') :
    ofText (c :: cs) =
      if c.isAlpha then word (c :: cs.takeWhile isWordChar)
      else if c.isDigit then number (c :: cs.takeWhile Char.isDigit)
      else punctuator c cs := by
  unfold ofText
  split
  · next h => cases h
  · next cs' h => exact absurd (h ▸ List.prefix_append ['/', '*'] cs') hs
  · next h => exact absurd (List.cons.inj h).1 hq
  · next h =>
    cases h
    rfl

theorem not_opening {c : Char} (hc : c ≠ '/') (cs : List Char) : ¬['/', '*'] <+: c :: cs := by
  rintro ⟨t, ht⟩
  exact hc (List.cons.inj ht).1.symm

theorem ofText_alpha (hc : c.isAlpha = true) :
    ofText (c :: cs) = word (c :: cs.takeWhile isWordChar) := by
  rw [ofText_cons (not_opening ?_ cs), if_pos hc]
  all_goals
    rintro rfl
    revert hc
    decide

theorem isAlpha_of_isDigit (hc : c.isDigit = true) : c.isAlpha = false := by
  simp only [Char.isDigit, Bool.and_eq_true, decide_eq_true_eq] at hc
  simp only [Char.isAlpha, Char.isUpper, Char.isLower]
  grind

theorem ofText_digit (hc : c.isDigit = true) :
    ofText (c :: cs) = number (c :: cs.takeWhile Char.isDigit) := by
  rw [ofText_cons (not_opening ?_ cs), if_neg (by simp [isAlpha_of_isDigit hc]), if_pos hc]
  all_goals
    rintro rfl
    revert hc
    decide

theorem chars_of_keyword {w : String} (hw : w ∈ Token.keywords) :
    ∃ c cs, w.toList = c :: cs ∧ c.isAlpha = true ∧ ∀ d ∈ cs, isWordChar d = true := by
  have hletters : ∀ w ∈ Token.keywords, w.toList ≠ [] ∧ w.toList.all Char.isAlpha = true := by
    decide +kernel
  obtain ⟨hne, hd⟩ := hletters w hw
  cases hcs : w.toList with
  | nil => exact absurd hcs hne
  | cons c cs =>
    rw [hcs, List.all_cons, Bool.and_eq_true, List.all_eq_true] at hd
    exact ⟨c, cs, rfl, hd.1, fun d h => by simp [isWordChar, Char.isAlphanum, hd.2 d h]⟩

/-- A punctuator begins with a character that begins nothing else. -/
theorem chars_of_punctuator (hw : w ∈ Token.punctuators.map String.toList) :
    ∃ c cs, w = c :: cs ∧ isBlank c = false ∧ c.isAlpha = false ∧ c.isDigit = false ∧ c ≠ '"' := by
  have hhead : ∀ q ∈ Token.punctuators.map String.toList, q.head?.all (fun c =>
      !isBlank c && !c.isAlpha && !c.isDigit && c != '"') = true := by decide +kernel
  cases w with
  | nil => exact absurd rfl (ne_nil_of_punctuator hw)
  | cons c cs =>
    have hc := hhead _ hw
    simp only [List.head?_cons, Option.all_some, Bool.and_eq_true, Bool.not_eq_true',
      bne_iff_ne] at hc
    exact ⟨c, cs, rfl, hc.1.1.1, hc.1.1.2, hc.1.2, hc.2⟩

theorem punctuator_of_longest (hw : w ∈ Token.punctuators.map String.toList)
    (hl : Longest .punctuator w rest) : ofText (w ++ rest) = ⟨.ok .punctuator, w⟩ := by
  obtain ⟨c, cs, rfl, _, ha, hd, hq⟩ := chars_of_punctuator hw
  have hs := hl.2
  rw [List.cons_append] at hs ⊢
  rw [ofText_cons hs hq, if_neg (by simp [ha]), if_neg (by simp [hd]),
    punctuator]
  cases hp : (Token.punctuators.map String.toList).find? (·.isPrefixOf (c :: (cs ++ rest))) with
  | none =>
    have hnone := List.find?_eq_none.1 hp _ hw
    exact absurd (List.isPrefixOf_iff_prefix.2 (List.prefix_append (c :: cs) rest)) hnone
  | some p =>
    have hpc : p <+: c :: cs ++ rest :=
      List.isPrefixOf_iff_prefix.1 (by simpa using List.find?_some hp)
    have hle := hl.1 p (List.mem_of_find?_eq_some hp) hpc
    have hge := length_le_of_find?_punctuator hp hw (List.prefix_append _ _)
    have hpw := List.prefix_of_prefix_length_le hpc (List.prefix_append _ _) hle
    rw [hpw.eq_of_length (by omega)]

/-- The scanner cuts a text behind the longest word at its head. -/
theorem ofText_of_longest (h : Spells k w) (hl : Longest k w rest) :
    ofText (w ++ rest) = ⟨.ok k, w⟩ := by
  cases h with
  | keyword hw =>
    obtain ⟨c, cs, hcs, hc, hd⟩ := chars_of_keyword hw
    rw [String.toList_ofList] at hcs
    subst hcs
    rw [List.cons_append, ofText_alpha hc, takeWhile_append hd hl, word,
      if_pos (List.contains_iff_mem.2 hw)]
  | ident hc hcs hk =>
    rw [List.cons_append, ofText_alpha hc, takeWhile_append hcs hl, word,
      if_neg (mt List.contains_iff_mem.1 hk)]
  | number hd hlt =>
    rw [List.forall_mem_cons] at hd
    rw [List.cons_append, ofText_digit hd.1, takeWhile_append hd.2 hl, number]
    exact if_pos hlt
  | @string cs hcs =>
    have htake : (cs ++ '"' :: rest).takeWhile (fun c => c != '"' && c != '\n') = cs :=
      takeWhile_append (by simpa using hcs) (by simp)
    rw [List.append_assoc]
    change string (cs ++ '"' :: rest) = _
    simp only [string, htake, List.drop_left]
  | punctuator hw => exact punctuator_of_longest hw hl

/-- Where a gap can begin. -/
def beginsGap (c : Char) : Bool :=
  isBlank c || c == '/'

theorem not_isWordChar_of_beginsGap (hc : beginsGap c = true) :
    isWordChar c = false ∧ c.isDigit = false := by
  simp only [beginsGap, isBlank, Bool.or_eq_true, beq_iff_eq] at hc
  rcases hc with ((((rfl | rfl) | rfl) | rfl) | rfl) | rfl <;> decide

theorem prefix_of_beginsGap {q : List Char} (hw : w ≠ []) (hq : q.tail.any beginsGap = false)
    (hr : ∀ d ∈ rest.head?, beginsGap d = true) (h : q <+: w ++ rest) : q <+: w := by
  rcases List.prefix_or_prefix_of_prefix h (List.prefix_append w rest) with h' | ⟨t, rfl⟩
  · exact h'
  · rw [List.prefix_append_right_inj] at h
    cases t with
    | nil => rw [List.append_nil]
    | cons d t =>
      obtain ⟨_, rfl⟩ := h
      rw [List.tail_append_of_ne_nil hw, List.any_append, List.any_cons,
        hr d rfl, Bool.true_or, Bool.or_true] at hq
      cases hq

/-- A word in front of a gap is as long as it can be. -/
theorem longest_of_beginsGap (h : Spells k w) (hr : ∀ d ∈ rest.head?, beginsGap d = true) :
    Longest k w rest := by
  cases h with
  | keyword _ | ident _ _ _ => exact fun d hd => (not_isWordChar_of_beginsGap (hr d hd)).1
  | number _ _ => exact fun d hd => (not_isWordChar_of_beginsGap (hr d hd)).2
  | string _ => trivial
  | punctuator hw =>
    have hne := ne_nil_of_punctuator hw
    have htail : ∀ p ∈ Token.punctuators.map String.toList, p.tail.any beginsGap = false := by
      decide +kernel
    have hopening : ∀ p ∈ Token.punctuators.map String.toList, ¬['/', '*'] <+: p := by
      decide +kernel
    exact ⟨fun p hp hpw => (prefix_of_beginsGap hne (htail p hp) hr hpw).length_le,
      fun h => hopening w hw (prefix_of_beginsGap hne (by decide) hr h)⟩

theorem ofText_of_stuck (h : Stuck fault cs) : (ofText cs).kind = .error fault := by
  cases h with
  | comment _ => rfl
  | @string inside rest hi hr =>
    have htake : (inside ++ rest).takeWhile (fun c => c != '"' && c != '\n') = inside := by
      refine takeWhile_append (by simpa using hi) fun c hc => ?_
      simp [hr c hc]
    change (string (inside ++ rest)).kind = _
    simp only [string, htake, List.drop_left]
    split
    · next h => exact absurd (hr '"' rfl) (by decide)
    · rfl
  | number hd hr hlarge =>
    rw [List.forall_mem_cons] at hd
    rw [List.cons_append, ofText_digit hd.1, takeWhile_append hd.2 hr, number]
    exact congrArg Lexeme.kind (if_neg (Nat.not_lt.2 hlarge))
  | @character c cs hb ha hd hq hp =>
    have hs : ¬['/', '*'] <+: c :: cs := by
      rintro ⟨t, ht⟩
      exact hp ['/'] (by decide) ⟨'*' :: t, ht⟩
    have hnone : (Token.punctuators.map String.toList).find? (·.isPrefixOf (c :: cs)) = none :=
      List.find?_eq_none.2 fun p hm => mt List.isPrefixOf_iff_prefix.1 (hp p hm)
    rw [ofText_cons hs hq, if_neg (by simp [ha]), if_neg (by simp [hd]), punctuator, hnone]

theorem isBlank_of_isAlpha (hc : c.isAlpha = true) : isBlank c = false := by
  rw [Bool.eq_false_iff]
  intro hb
  simp only [isBlank, Bool.or_eq_true, beq_iff_eq] at hb
  rcases hb with (((rfl | rfl) | rfl) | rfl) | rfl <;> revert hc <;> decide

theorem isBlank_of_isDigit (hc : c.isDigit = true) : isBlank c = false := by
  rw [Bool.eq_false_iff]
  intro hb
  simp only [isBlank, Bool.or_eq_true, beq_iff_eq] at hb
  rcases hb with (((rfl | rfl) | rfl) | rfl) | rfl <;> revert hc <;> decide

/-- No gap stands in front of a word. -/
theorem cutGap_of_longest (h : Spells k w) (hl : Longest k w rest) :
    cutGap (w ++ rest) = ([], w ++ rest) := by
  have halpha : ∀ {c : Char} (cs : List Char), c.isAlpha = true →
      cutGap (c :: cs) = ([], c :: cs) := by
    intro c cs hc
    refine cutGap_cons (isBlank_of_isAlpha hc) (not_opening ?_ cs)
    rintro rfl
    revert hc
    decide
  cases h with
  | keyword hw =>
    obtain ⟨c, cs, hcs, hc, _⟩ := chars_of_keyword hw
    rw [String.toList_ofList] at hcs
    subst hcs
    exact halpha _ hc
  | ident hc _ _ => exact halpha _ hc
  | number hd _ =>
    have hc := (List.forall_mem_cons.1 hd).1
    refine cutGap_cons (isBlank_of_isDigit hc) (not_opening ?_ _)
    rintro rfl
    revert hc
    decide
  | string _ => exact cutGap_cons rfl (not_opening (by decide) _)
  | punctuator hw =>
    obtain ⟨c, cs, rfl, hb, _⟩ := chars_of_punctuator hw
    exact cutGap_cons hb hl.2

theorem cutGap_of_stuck (h : Stuck fault cs) : cutGap cs = ([], cs) := by
  cases h with
  | comment h => exact cutGap_of_unclosed h
  | string _ _ => exact cutGap_cons rfl (not_opening (by decide) _)
  | number hd _ _ =>
    have hc := (List.forall_mem_cons.1 hd).1
    refine cutGap_cons (isBlank_of_isDigit hc) (not_opening ?_ _)
    rintro rfl
    revert hc
    decide
  | character hb _ _ _ hp =>
    refine cutGap_cons hb ?_
    rintro ⟨t, ht⟩
    exact hp ['/'] (by decide) ⟨'*' :: t, ht⟩

/-- A text that begins with a word, or with what keeps one from being read. -/
def Begins (cs : List Char) : Prop :=
  (∃ k w rest, w ++ rest = cs ∧ Spells k w ∧ Longest k w rest) ∨ ∃ fault, Stuck fault cs

theorem begins_string (cs : List Char) : Begins ('"' :: cs) := by
  obtain ⟨inside, rest, rfl, hi, hr⟩ := exists_run (fun c => c != '"' && c != '\n') cs
  simp only [Bool.and_eq_true, bne_iff_ne] at hi
  cases rest with
  | nil => exact .inr ⟨_, .string hi (by simp)⟩
  | cons d rest =>
    have hd := hr d rfl
    simp only [Bool.and_eq_false_iff, bne_eq_false_iff_eq] at hd
    rcases hd with rfl | rfl
    · exact .inl ⟨.string, '"' :: inside ++ ['"'], rest, by simp, .string hi, trivial⟩
    · exact .inr ⟨_, .string hi (by simp)⟩

theorem begins_alpha (hc : c.isAlpha = true) (cs : List Char) : Begins (c :: cs) := by
  obtain ⟨run, rest, rfl, hrun, hr⟩ := exists_run isWordChar cs
  by_cases hk : String.ofList (c :: run) ∈ Token.keywords
  · exact .inl ⟨.keyword, c :: run, rest, rfl, .keyword hk, hr⟩
  · exact .inl ⟨.ident, c :: run, rest, rfl, .ident hc hrun hk, hr⟩

theorem begins_digit (hc : c.isDigit = true) (cs : List Char) : Begins (c :: cs) := by
  obtain ⟨run, rest, rfl, hrun, hr⟩ := exists_run Char.isDigit cs
  have hall : ∀ d ∈ c :: run, d.isDigit = true := List.forall_mem_cons.2 ⟨hc, hrun⟩
  rcases Nat.lt_or_ge (decimal (c :: run)) (2 ^ 63) with hlt | hge
  · exact .inl ⟨_, c :: run, rest, rfl, .number hall hlt, hr⟩
  · exact .inr ⟨_, .number hall hr hge⟩

/-- What begins nothing else begins a punctuator or is a stray character. -/
theorem begins_mark (hb : isBlank c = false) (ha : c.isAlpha = false) (hd : c.isDigit = false)
    (hq : c ≠ '"') (hs : ¬['/', '*'] <+: c :: cs) : Begins (c :: cs) := by
  cases hp : (Token.punctuators.map String.toList).find? (·.isPrefixOf (c :: cs)) with
  | none =>
    refine .inr ⟨_, .character hb ha hd hq fun p hm hpc => ?_⟩
    exact List.find?_eq_none.1 hp p hm (List.isPrefixOf_iff_prefix.2 hpc)
  | some p =>
    obtain ⟨rest, hrest⟩ : p <+: c :: cs :=
      List.isPrefixOf_iff_prefix.1 (by simpa using List.find?_some hp)
    refine .inl ⟨.punctuator, p, rest, hrest, .punctuator (List.mem_of_find?_eq_some hp), ?_⟩
    rw [← hrest] at hp hs
    exact ⟨fun q hq hqc => length_le_of_find?_punctuator hp hq hqc, hs⟩

/-- Where no gap begins, a text is at its end, begins with a word or is stuck. -/
theorem eq_nil_or_begins (h : cutGap cs = ([], cs)) : cs = [] ∨ Begins cs := by
  cases cs with
  | nil => exact .inl rfl
  | cons c cs =>
    refine .inr ?_
    by_cases hs : ['/', '*'] <+: c :: cs
    · obtain ⟨t, ht⟩ := hs
      rw [← ht] at h ⊢
      refine .inr ⟨.unclosedComment, .comment fun hclosed => ?_⟩
      rw [List.cons_append, List.cons_append, List.nil_append, cutGap] at h
      split at h
      · next hnone => exact cutComment_eq_none_iff.1 hnone hclosed
      · cases h
    by_cases hq : c = '"'
    · rw [hq]
      exact begins_string cs
    by_cases ha : c.isAlpha = true
    · exact begins_alpha ha cs
    by_cases hd : c.isDigit = true
    · exact begins_digit hd cs
    have hb : isBlank c = false := by
      rw [Bool.eq_false_iff]
      intro hb
      rw [cutGap_of_blank hb] at h
      cases h
    exact begins_mark hb (Bool.eq_false_iff.2 ha) (Bool.eq_false_iff.2 hd) hq hs

end Lexeme

end Bpl
