import Mathlib
import Bpl.Scanner

namespace Bpl

variable {c : Char} {cs before rest : List Char}

theorem bytesOf_cons (c : Char) (cs : List Char) :
    bytesOf (c :: cs) = String.utf8EncodeChar c ++ bytesOf cs :=
  List.flatMap_cons

theorem bytesOf_append (s t : List Char) : bytesOf (s ++ t) = bytesOf s ++ bytesOf t :=
  List.flatMap_append

theorem length_bytesOf (cs : List Char) : (bytesOf cs).length = byteLength cs := by
  induction cs with
  | nil => rfl
  | cons c cs ih =>
    rw [bytesOf_cons, List.length_append, String.length_utf8EncodeChar, ih, byteLength_cons]

theorem drop_bytesOf (before rest : List Char) :
    (bytesOf (before ++ rest)).drop (byteLength before) = bytesOf rest := by
  rw [bytesOf_append, ← length_bytesOf, List.drop_left]

theorem exists_cons_encode (c : Char) : ∃ b bs, String.utf8EncodeChar c = b :: bs :=
  List.exists_cons_of_ne_nil String.utf8EncodeChar_ne_nil

/-- An ASCII character is one byte. -/
theorem encode_ascii (hc : c.toNat < 128) : String.utf8EncodeChar c = [c.toUInt8] := by
  have hv : c.val.toNat ≤ 0x7f := by
    have heq : c.val.toNat = c.toNat := rfl
    omega
  rw [String.utf8EncodeChar]
  exact if_pos hv

theorem ofUInt8_toUInt8 (hc : c.toNat < 128) : Char.ofUInt8 c.toUInt8 = c := by
  apply Char.ext
  apply UInt32.toNat_inj.1
  change c.val.toUInt8.toNat = c.val.toNat
  rw [UInt32.toNat_toUInt8]
  have heq : c.val.toNat = c.toNat := rfl
  omega

theorem bytesOf_ascii (hc : c.toNat < 128) (cs : List Char) :
    bytesOf (c :: cs) = c.toUInt8 :: bytesOf cs := by
  rw [bytesOf_cons, encode_ascii hc]
  rfl

/-- No byte of another character is that of an ASCII character. -/
theorem le_of_mem_encode (hc : 128 ≤ c.toNat) {b : UInt8} (hb : b ∈ String.utf8EncodeChar c) :
    128 ≤ b.toNat := by
  have hv : ¬c.val.toNat ≤ 0x7f := by
    have heq : c.val.toNat = c.toNat := rfl
    omega
  have hbyte : ∀ n, 128 ≤ n → n < 256 → 128 ≤ (UInt8.ofNat n).toNat := by
    intro n hle hlt
    rw [UInt8.toNat_ofNat_of_lt' hlt]
    exact hle
  simp only [String.utf8EncodeChar, hv, if_false] at hb
  split at hb <;> try split at hb
  all_goals
    simp only [List.mem_cons, List.not_mem_nil, or_false] at hb
    rcases hb with rfl | rfl | rfl | rfl <;> exact hbyte _ (by omega) (by omega)

theorem byteIs_toUInt8 (p : Char → Bool) (hc : c.toNat < 128) : byteIs p c.toUInt8 = p c := by
  rw [byteIs, ofUInt8_toUInt8 hc]

/-- A class that each byte of a character belongs to if and only if the character does. -/
def Bytewise (p : Char → Bool) : Prop :=
  ∀ c, ∀ b ∈ String.utf8EncodeChar c, byteIs p b = p c

/-- A class that does not tell the characters beyond ASCII from each other can be read off the
bytes. -/
theorem bytewise_of_ascii {p : Char → Bool} (v : Bool) (hp : ∀ c : Char, 128 ≤ c.toNat → p c = v) :
    Bytewise p := by
  intro c b hb
  rcases Nat.lt_or_ge c.toNat 128 with hc | hc
  · rw [encode_ascii hc, List.mem_singleton] at hb
    rw [hb, byteIs_toUInt8 p hc]
  · have hb' : 128 ≤ (Char.ofUInt8 b).toNat := le_of_mem_encode hc hb
    rw [hp c hc, byteIs, hp _ hb']

theorem Bytewise.takeWhile {p : Char → Bool} (hp : Bytewise p) (cs : List Char) :
    (bytesOf cs).takeWhile (byteIs p) = bytesOf (cs.takeWhile p) := by
  induction cs with
  | nil => rfl
  | cons c cs ih =>
    rw [bytesOf_cons]
    by_cases hc : p c = true
    · rw [List.takeWhile_cons_of_pos hc, bytesOf_cons,
        List.takeWhile_append_of_pos fun b hb => (hp c b hb).trans hc, ih]
    · rw [List.takeWhile_cons_of_neg hc]
      obtain ⟨b, bs, hbytes⟩ := exists_cons_encode c
      have hb : ¬byteIs p b = true := by
        rw [hp c b (by rw [hbytes]; exact List.mem_cons_self)]
        exact hc
      rw [hbytes]
      exact List.takeWhile_cons_of_neg hb

theorem not_isAlpha_of_le (hc : 128 ≤ c.toNat) : c.isAlpha = false := by
  have hv : 128 ≤ c.val := UInt32.le_iff_toNat_le.2 hc
  simp only [Char.isAlpha, Char.isUpper, Char.isLower]
  grind

theorem not_isDigit_of_le (hc : 128 ≤ c.toNat) : c.isDigit = false := by
  have hv : 128 ≤ c.val := UInt32.le_iff_toNat_le.2 hc
  simp only [Char.isDigit]
  grind

theorem ne_of_le {d : Char} (hd : d.toNat < 128) (hc : 128 ≤ c.toNat) : c ≠ d := by
  rintro rfl
  omega

/-- A class that holds nothing beyond ASCII holds ASCII characters only. -/
theorem ascii_of {p : Char → Bool} (hp : 128 ≤ c.toNat → p c = false) (hc : p c = true) :
    c.toNat < 128 := by
  by_contra hle
  rw [hp (Nat.le_of_not_lt hle)] at hc
  cases hc

theorem bytewise_isAlpha : Bytewise Char.isAlpha :=
  bytewise_of_ascii false fun _ hc => not_isAlpha_of_le hc

theorem bytewise_isDigit : Bytewise Char.isDigit :=
  bytewise_of_ascii false fun _ hc => not_isDigit_of_le hc

theorem bytewise_isWordChar : Bytewise Lexeme.isWordChar := by
  refine bytewise_of_ascii false fun c hc => ?_
  rw [Lexeme.isWordChar, Char.isAlphanum, not_isAlpha_of_le hc, not_isDigit_of_le hc]
  simpa using ne_of_le (by decide) hc

theorem not_isBlank_of_le (hc : 128 ≤ c.toNat) : Lexeme.isBlank c = false := by
  have hne : ∀ d : Char, d.toNat < 128 → (c == d) = false := fun d hd =>
    beq_false_of_ne (ne_of_le hd hc)
  rw [Lexeme.isBlank, hne ' ' (by decide), hne '\t' (by decide), hne '\n' (by decide),
    hne '\x0c' (by decide), hne '\r' (by decide)]
  rfl

theorem bytewise_isBlank : Bytewise Lexeme.isBlank :=
  bytewise_of_ascii false fun _ hc => not_isBlank_of_le hc

theorem bytewise_inString : Bytewise fun c => c != '"' && c != '\n' := by
  refine bytewise_of_ascii true fun c hc => ?_
  simpa using ⟨ne_of_le (by decide) hc, ne_of_le (by decide) hc⟩

/-- Only the character itself has the byte of an ASCII character. -/
theorem eq_of_mem_encode {d : Char} (hd : d.toNat < 128)
    (h : d.toUInt8 ∈ String.utf8EncodeChar c) : c = d := by
  rcases Nat.lt_or_ge c.toNat 128 with hc | hc
  · rw [encode_ascii hc, List.mem_singleton] at h
    rw [← ofUInt8_toUInt8 hc, ← h, ofUInt8_toUInt8 hd]
  · have hb : 128 ≤ d.toUInt8.toNat := le_of_mem_encode hc h
    have hlt : d.toUInt8.toNat = d.toNat := by
      have hsame := congrArg Char.toNat (ofUInt8_toUInt8 hd)
      exact hsame
    omega

/-- The bytes of a text begin with an ASCII character only where the text does. -/
theorem exists_of_bytesOf_eq_cons {d : Char} (hd : d.toNat < 128) {bs : List UInt8}
    (h : bytesOf cs = d.toUInt8 :: bs) : ∃ tail, cs = d :: tail ∧ bytesOf tail = bs := by
  cases cs with
  | nil => cases h
  | cons c tail =>
    have hc : c = d := by
      obtain ⟨b, more, hbytes⟩ := exists_cons_encode c
      rw [bytesOf_cons, hbytes] at h
      refine eq_of_mem_encode hd ?_
      rw [hbytes, (List.cons.inj h).1]
      exact List.mem_cons_self
    rw [hc, bytesOf_ascii hd] at h
    exact ⟨tail, by rw [hc], (List.cons.inj h).2⟩

theorem cutAt_append (before rest : List Char) :
    cutAt (byteLength before) (before ++ rest) = some (before, rest) := by
  induction before with
  | nil => cases rest <;> rfl
  | cons c cs ih =>
    have hpos := c.utf8Size_pos
    obtain ⟨n, hn⟩ : ∃ n, byteLength (c :: cs) = n + 1 :=
      Nat.exists_eq_succ_of_ne_zero (by rw [byteLength_cons]; omega)
    have hcs : n + 1 - c.utf8Size = byteLength cs := by
      rw [← hn, byteLength_cons]
      omega
    have hle : c.utf8Size ≤ n + 1 := by
      rw [← hn, byteLength_cons]
      omega
    rw [hn, List.cons_append, cutAt, if_pos hle, hcs, ih]
    rfl

theorem slice?_append (before text rest : List Char) :
    slice? (before ++ (text ++ rest)) (byteLength before) (byteLength before + byteLength text) =
      some text := by
  have hle : byteLength before ≤ byteLength before + byteLength text := Nat.le_add_right _ _
  simp [slice?, guard, hle, cutAt_append]

end Bpl
