import Mathlib
import Bpl.Path

namespace Bpl.Path

theorem same_iff {p q : Path} : p.same q = true ↔ p.components = q.components :=
  beq_iff_eq

/-- A path of one part. -/
def lone (part : Part) : Path :=
  ⟨String.ofList part⟩

/-- A part that names a file, rather than a directory by dots alone. -/
def Names (part : Part) : Prop :=
  '/' ∉ part ∧ idle part = false ∧ part ≠ ['.', '.']

/-- A name without an extension: only its first character may be a dot. -/
def Bare (name : Part) : Prop :=
  Names name ∧ '.' ∉ name.tail

theorem Names.ne_nil {name : Part} (h : Names name) : name ≠ [] := by
  rintro rfl
  exact absurd h.2.1 (by decide)

section split

variable {cs : List Char} {part : Part}

theorem split_of_notMem (h : '/' ∉ cs) : split cs = [cs] := by
  fun_induction split cs with
  | case1 => rfl
  | case2 cs => simp at h
  | case3 c cs _ hs => exact absurd hs (split_ne_nil cs)
  | case4 c cs _ part parts hs ih =>
    rw [hs] at ih
    have hpart := ih (fun hc => h (List.mem_cons_of_mem c hc))
    rw [List.cons.injEq] at hpart
    rw [hpart.1, hpart.2]

theorem notMem_of_mem_split (h : part ∈ split cs) : '/' ∉ part := by
  fun_induction split cs generalizing part with
  | case1 => simp_all
  | case2 cs ih =>
    rcases List.mem_cons.1 h with rfl | h
    · exact List.not_mem_nil
    · exact ih h
  | case3 c cs _ hs => exact absurd hs (split_ne_nil cs)
  | case4 c cs hc first rest hs ih =>
    rw [hs] at ih
    rcases List.mem_cons.1 h with rfl | h
    · exact List.not_mem_cons_of_ne_of_not_mem (fun hslash => hc hslash.symm)
        (ih List.mem_cons_self)
    · exact ih (List.mem_cons_of_mem first h)

theorem parts_lone (h : '/' ∉ part) : (lone part).parts = [part] := by
  rw [parts, lone, String.toList_ofList, split_of_notMem h]

theorem components_lone (h : '/' ∉ part) (hne : part ≠ []) : (lone part).components = [part] := by
  rw [components, parts_lone h]
  split <;> simp_all

theorem fileName?_lone (h : '/' ∉ part) :
    (lone part).fileName? = (some part).filter fun p => !idle p && p != ['.', '.'] := by
  rw [fileName?, significant, parts_lone h]
  rfl

theorem fileName?_lone_eq_none (h : '/' ∉ part) (hn : ¬ Names part) :
    (lone part).fileName? = none := by
  rw [fileName?_lone h, Option.filter_eq_none_iff]
  rintro _ ⟨⟩ hc
  exact hn ⟨h, by simpa using hc⟩

theorem fileName?_lone_eq_some (h : Names part) : (lone part).fileName? = some part := by
  obtain ⟨hslash, hidle, hdots⟩ := h
  simp [fileName?_lone hslash, Option.filter, hidle, hdots]

end split

section join

variable {parts : List Part}

theorem join_cons (part : Part) (parts : List Part) :
    join (part :: parts) = part ++ parts.flatMap ('/' :: ·) := by
  induction parts generalizing part with
  | nil => simp [join]
  | cons next parts ih =>
    rw [join, ih, List.flatMap_cons, List.cons_append]
    exact List.cons_ne_nil next parts

/-- The text of a path, from its directories, a name and the parts behind it. -/
theorem join_append_cons (dirs : List Part) (name : Part) (trail : List Part) :
    join (dirs ++ name :: trail) =
      dirs.flatMap (· ++ ['/']) ++ name ++ trail.flatMap ('/' :: ·) := by
  induction dirs with
  | nil => exact join_cons name trail
  | cons dir dirs ih =>
    have hcons : join (dir :: (dirs ++ name :: trail)) =
        dir ++ '/' :: join (dirs ++ name :: trail) := by
      cases dirs <;> rfl
    rw [List.cons_append, hcons, ih]
    simp

theorem split_append_slash {part : Part} (h : '/' ∉ part) (cs : List Char) :
    split (part ++ '/' :: cs) = part :: split cs := by
  induction part with
  | nil => rw [List.nil_append, split]
  | cons c part ih =>
    rw [List.mem_cons, not_or] at h
    rw [List.cons_append, split, ih h.2]
    exact fun hc => h.1 hc.symm

theorem split_join (hp : parts ≠ []) (h : ∀ part ∈ parts, '/' ∉ part) :
    split (join parts) = parts := by
  induction parts with
  | nil => exact absurd rfl hp
  | cons part parts ih =>
    have hpart := h part List.mem_cons_self
    cases parts with
    | nil => exact split_of_notMem hpart
    | cons next parts =>
      rw [join, split_append_slash hpart,
        ih (by simp) fun q hq => h q (List.mem_cons_of_mem part hq)]
      exact fun hnil => by simp at hnil

end join

section ends

variable {p : Path} {dirs trail : List Part} {name : Part}

/-- `p.Ends dirs name trail`: the parts of a path are `dirs`, the part that it ends in and, behind
that, parts that lead nowhere else. -/
structure Ends (p : Path) (dirs : List Part) (name : Part) (trail : List Part) : Prop where
  parts_eq : p.parts = dirs ++ name :: trail
  counts : idle name = false
  trail_idle : ∀ part ∈ trail, idle part = true

theorem exists_trimEnd (parts : List Part) :
    ∃ trail, parts = trimEnd parts ++ trail ∧ ∀ part ∈ trail, idle part = true := by
  induction parts with
  | nil => exact ⟨[], rfl, nofun⟩
  | cons part parts ih =>
    obtain ⟨trail, hparts, htrail⟩ := ih
    rw [trimEnd]
    cases htrim : trimEnd parts with
    | nil =>
      rw [htrim, List.nil_append] at hparts
      cases hidle : idle part with
      | true => exact ⟨part :: trail, by simp [← hparts], by simpa [hidle] using htrail⟩
      | false => exact ⟨trail, by simp [← hparts], htrail⟩
    | cons first rest =>
      rw [htrim] at hparts
      exact ⟨trail, by rw [List.cons_append, ← hparts], htrail⟩

theorem trimEnd_of_idle (h : ∀ part ∈ trail, idle part = true) : trimEnd trail = [] := by
  induction trail with
  | nil => rfl
  | cons part trail ih =>
    rw [trimEnd, ih fun q hq => h q (List.mem_cons_of_mem part hq)]
    simp [h part List.mem_cons_self]

theorem trimEnd_append (hname : idle name = false) (htrail : ∀ part ∈ trail, idle part = true) :
    trimEnd (dirs ++ name :: trail) = dirs ++ [name] := by
  induction dirs with
  | nil => simp [trimEnd, trimEnd_of_idle htrail, hname]
  | cons dir dirs ih =>
    rw [List.cons_append, trimEnd, ih]
    cases dirs <;> rfl

theorem exists_ends (h : p.fileName? = some name) : ∃ dirs trail, p.Ends dirs name trail := by
  obtain ⟨hlast, hname⟩ := Option.filter_eq_some_iff.1 h
  have hidle : idle name = false := by
    rw [Bool.and_eq_true, Bool.not_eq_true'] at hname
    exact hname.1
  obtain ⟨dirs, hdirs⟩ := List.getLast?_eq_some_iff.1 hlast
  cases hparts : p.parts with
  | nil => simp [significant, hparts] at hdirs
  | cons part parts =>
    obtain ⟨trail, hsplit, htrail⟩ := exists_trimEnd parts
    simp only [significant, hparts] at hdirs
    refine ⟨dirs, trail, ?_, hidle, htrail⟩
    calc p.parts = part :: (trimEnd parts ++ trail) := by rw [hparts, ← hsplit]
      _ = (part :: trimEnd parts) ++ trail := rfl
      _ = dirs ++ name :: trail := by rw [hdirs, List.append_assoc, List.singleton_append]

/-- The steps that lead to what a path ends in. -/
def leading : List Part → List Part
  | [] => []
  | dir :: dirs => dir :: dirs.filter (!idle ·)

theorem Ends.significant_eq (h : p.Ends dirs name trail) : p.significant = dirs ++ [name] := by
  rw [significant, h.parts_eq]
  cases dirs with
  | nil => simp [trimEnd_of_idle h.trail_idle]
  | cons dir dirs => simp [trimEnd_append h.counts h.trail_idle]

theorem Ends.fileName?_eq (h : p.Ends dirs name trail) :
    p.fileName? = if name = ['.', '.'] then none else some name := by
  rw [fileName?, h.significant_eq, List.getLast?_concat]
  split <;> simp_all [Option.filter, h.counts]

theorem Ends.components_eq (h : p.Ends dirs name trail) :
    p.components = leading dirs ++ [name] := by
  have htrail : trail.filter (!idle ·) = [] := by
    simpa [List.filter_eq_nil_iff] using h.trail_idle
  have hname : name ≠ [] := by
    rintro rfl
    exact absurd h.counts (by decide)
  rw [components, h.parts_eq]
  cases dirs with
  | nil => split <;> simp_all [leading]
  | cons dir dirs =>
    have hlast : (dirs ++ name :: trail).filter (!idle ·) = dirs.filter (!idle ·) ++ [name] := by
      simp [h.counts, htrail]
    rw [List.cons_append]
    split
    · simp_all
    · simp_all
    · next part parts _ heq =>
      obtain ⟨rfl, rfl⟩ := List.cons.inj heq
      rw [hlast, leading, List.cons_append]

theorem Ends.slash_notMem (h : p.Ends dirs name trail) {part : Part}
    (hpart : part ∈ dirs ++ name :: trail) : '/' ∉ part :=
  notMem_of_mem_split (h.parts_eq ▸ hpart)

theorem Ends.text_eq (h : p.Ends dirs name trail) :
    p.text.toList = dirs.flatMap (· ++ ['/']) ++ name ++ trail.flatMap ('/' :: ·) := by
  rw [← join_append_cons, ← h.parts_eq]
  exact (join_split _).symm

/-- The file name is the last step of a path. -/
theorem getLast?_components (h : p.fileName? = some name) :
    p.components.getLast? = some name ∧ Names name := by
  obtain ⟨dirs, trail, hends⟩ := exists_ends h
  have hdots : name ≠ ['.', '.'] := by
    rintro rfl
    rw [hends.fileName?_eq, if_pos rfl] at h
    cases h
  exact ⟨by rw [hends.components_eq, List.getLast?_concat],
    hends.slash_notMem (by simp), hends.counts, hdots⟩

end ends

/-- The file name of a path of one step is that step. -/
theorem eq_of_components_eq {p : Path} {name part : Part} (h : p.fileName? = some name)
    (hp : p.components = [part]) : name = part := by
  have hlast := (getLast?_components h).1
  rw [hp] at hlast
  exact (Option.some.inj hlast).symm

section stem

variable {stem extension name : Part}

theorem stemOf_append (hs : stem ≠ []) (he : '.' ∉ extension) :
    stemOf (stem ++ '.' :: extension) = stem := by
  have hbefore : ∀ c ∈ extension.reverse, (c != '.') = true := fun c hc => by
    rw [bne_iff_ne]
    rintro rfl
    exact he (List.mem_reverse.1 hc)
  have hdrop : (stem ++ '.' :: extension).reverse.dropWhile (· != '.') = '.' :: stem.reverse := by
    rw [List.reverse_append, List.reverse_cons, List.append_assoc,
      List.dropWhile_append_of_pos hbefore]
    rfl
  rw [stemOf, hdrop]
  cases hr : stem.reverse with
  | nil => exact absurd (List.reverse_eq_nil_iff.1 hr) hs
  | cons c cs =>
    change (c :: cs).reverse = stem
    rw [← hr, List.reverse_reverse]

theorem stemOf_of_notMem (h : '.' ∉ name.tail) : stemOf name = name := by
  cases name with
  | nil => rfl
  | cons c cs =>
    have hbefore : ∀ d ∈ cs.reverse, (d != '.') = true := fun d hd => by
      rw [bne_iff_ne]
      rintro rfl
      exact h (List.mem_reverse.1 hd)
    rw [stemOf, List.reverse_cons, List.dropWhile_append_of_pos hbefore]
    cases hc : c != '.' <;> simp [hc]

/-- A name has no extension, or it is a stem with an extension. -/
theorem exists_stem (name : Part) :
    '.' ∉ name.tail ∨
      ∃ stem extension, stem ≠ [] ∧ '.' ∉ extension ∧ name = stem ++ '.' :: extension := by
  by_cases h : '.' ∈ name.tail
  · obtain ⟨before, after, hsplit, hbefore⟩ :=
      List.eq_append_cons_of_mem (List.mem_reverse.2 (List.mem_of_mem_tail h))
    have hname : name = after.reverse ++ '.' :: before.reverse := by
      rw [← List.reverse_reverse name, hsplit]
      simp
    refine .inr ⟨_, _, ?_, fun hc => hbefore (List.mem_reverse.1 hc), hname⟩
    intro hnil
    rw [hname, hnil] at h
    exact hbefore (List.mem_reverse.1 h)
  · exact .inl h

theorem mem_tail_append (hs : stem ≠ []) : '.' ∈ (stem ++ '.' :: extension).tail := by
  rw [List.tail_append_of_ne_nil hs]
  simp

theorem stemOf_eq_self_iff : stemOf name = name ↔ '.' ∉ name.tail := by
  refine ⟨fun h => ?_, stemOf_of_notMem⟩
  rcases exists_stem name with hname | ⟨stem, extension, hs, he, rfl⟩
  · exact hname
  · rw [stemOf_append hs he] at h
    simpa using congrArg List.length h

theorem stemOf_prefix (name : Part) : stemOf name <+: name := by
  rcases exists_stem name with h | ⟨stem, extension, hs, he, rfl⟩
  · rw [stemOf_of_notMem h]
  · rw [stemOf_append hs he]
    exact List.prefix_append _ _

theorem stemOf_ne_nil (h : name ≠ []) : stemOf name ≠ [] := by
  rcases exists_stem name with hname | ⟨stem, extension, hs, he, rfl⟩
  · rwa [stemOf_of_notMem hname]
  · rwa [stemOf_append hs he]

theorem extensionOf_of_notMem (h : '.' ∉ name.tail) : extensionOf name = [] := by
  rw [extensionOf, stemOf_of_notMem h]
  simp

theorem extensionOf_append (hs : stem ≠ []) (he : '.' ∉ extension) :
    extensionOf (stem ++ '.' :: extension) = extension := by
  rw [extensionOf, stemOf_append hs he]
  simp

end stem

section withExtension

variable {p : Path} {stem old : Part}

theorem shortened_of_unnamed (h : p.fileName? = none) : p.shortened = p := by
  rw [shortened, h]

theorem extended_of_unnamed (h : p.fileName? = none) (e : String) : p.extended e = p := by
  rw [extended, h]

theorem withExtension_of_unnamed (h : p.fileName? = none) (e : String) : p.withExtension e = p := by
  rw [withExtension, shortened_of_unnamed h, extended_of_unnamed h]

theorem extended_lone (h : Names stem) (e : String) :
    (lone stem).extended e = lone (stemOf stem ++ '.' :: e.toList) := by
  rw [extended, fileName?_lone_eq_some h]
  rw [significant, parts_lone h.1]
  rfl

theorem withExtension_lone_of_bare (h : Bare stem) (e : String) :
    (lone stem).withExtension e = lone (stem ++ '.' :: e.toList) := by
  have hshort : (lone stem).shortened = lone stem := by
    rw [shortened, fileName?_lone_eq_some h.1]
    simp [extensionOf_of_notMem h.2, lone]
  rw [withExtension, hshort, extended_lone h.1, stemOf_of_notMem h.2]

/-- Where the stem is a dot, the name without its extension is that of the directory around. -/
theorem withExtension_lone_append (h : Names (stem ++ '.' :: old)) (hs : stem ≠ [])
    (he : '.' ∉ old) (e : String) :
    (lone (stem ++ '.' :: old)).withExtension e =
      lone (if stem = ['.'] then ['.', '.'] else stem ++ '.' :: e.toList) := by
  have hshort : (lone (stem ++ '.' :: old)).shortened = lone (stem ++ ['.']) := by
    have htext : stem ++ '.' :: old = (stem ++ ['.']) ++ old := by simp
    rw [shortened, fileName?_lone_eq_some h]
    simp only [extensionOf_append hs he, lone, String.toList_ofList]
    rw [htext, List.length_append, Nat.add_sub_cancel, List.take_left]
  rw [withExtension, hshort]
  split
  · next hdot =>
    rw [hdot]
    exact extended_of_unnamed (by decide) e
  · next hdot =>
    have hnames : Names (stem ++ ['.']) := by
      refine ⟨fun hslash => h.1 ?_, ?_, ?_⟩
      · rw [List.mem_append, List.mem_singleton] at hslash
        exact List.mem_append.2 (hslash.imp_right (absurd · (by decide)))
      · simp [idle, hs]
      · exact fun hdots : stem ++ ['.'] = ['.'] ++ ['.'] =>
          hdot (List.append_cancel_right hdots)
    rw [extended_lone hnames, stemOf_append hs List.not_mem_nil]

end withExtension

section named

variable {p : Path} {dirs trail : List Part} {name stem old : Part}

theorem ends_of_text (htext : p.text.toList = dirs.flatMap (· ++ ['/']) ++ name ++
    trail.flatMap ('/' :: ·)) (hslash : ∀ part ∈ dirs ++ name :: trail, '/' ∉ part)
    (hname : idle name = false) (htrail : ∀ part ∈ trail, idle part = true) :
    p.Ends dirs name trail :=
  ⟨by rw [parts, htext, ← join_append_cons, split_join (by simp) hslash], hname, htrail⟩

theorem idle_append (hs : stem ≠ []) (e : Part) : idle (stem ++ '.' :: e) = false := by
  cases stem with
  | nil => exact absurd rfl hs
  | cons c stem => simp [idle]

theorem Ends.extended (h : p.Ends dirs name trail) (hdots : name ≠ ['.', '.']) {e : String}
    (he : '/' ∉ e.toList) : (p.extended e).Ends dirs (stemOf name ++ '.' :: e.toList) [] := by
  have hne : name ≠ [] := by
    rintro rfl
    exact absurd h.counts (by decide)
  have hname : '/' ∉ name := h.slash_notMem (by simp)
  rw [Path.extended, h.fileName?_eq, if_neg hdots]
  refine ends_of_text ?_ ?_ (idle_append (stemOf_ne_nil hne) _) nofun
  · simp only [String.toList_ofList]
    rw [h.significant_eq, List.dropLast_concat, join_append_cons]
  · intro part hpart
    rcases List.mem_append.1 hpart with hdir | hlast
    · exact h.slash_notMem (List.mem_append_left _ hdir)
    · obtain rfl := List.mem_singleton.1 hlast
      have hbegins := stemOf_prefix name
      have hstem : '/' ∉ stemOf name := fun hc => hname (hbegins.mem hc)
      simp [hstem, he]

/-- What leads nowhere else still does so where its end is cut off. -/
theorem exists_trail_take (h : ∀ part ∈ trail, idle part = true) (k : Nat) :
    ∃ left : List Part, (∀ part ∈ left, idle part = true ∧ '/' ∉ part) ∧
      (trail.flatMap ('/' :: ·)).take k = left.flatMap ('/' :: ·) := by
  induction trail generalizing k with
  | nil => exact ⟨[], nofun, by simp⟩
  | cons part trail ih =>
    cases k with
    | zero => exact ⟨[], nofun, by simp⟩
    | succ k =>
      obtain ⟨left, hleft, htake⟩ :=
        ih (fun q hq => h q (List.mem_cons_of_mem part hq)) (k - part.length)
      have hpart : part = [] ∨ part = ['.'] := by simpa [idle] using h part List.mem_cons_self
      have hcut : part.take k = [] ∨ part.take k = ['.'] := by
        rcases hpart with rfl | rfl <;> cases k <;> simp
      refine ⟨part.take k :: left, ?_, ?_⟩
      · rintro q (_ | ⟨_, hq⟩)
        · rcases hcut with hcut | hcut <;> rw [hcut] <;> decide
        · exact hleft q hq
      · rw [List.flatMap_cons, List.cons_append, List.take_succ_cons, List.take_append, htake,
          List.flatMap_cons, List.cons_append]

/-- A path loses as many characters as its extension has. The stem keeps its place, the dot behind
it too, and nothing stands behind the dot only if the path ended there. -/
theorem Ends.shortened (h : p.Ends dirs (stem ++ '.' :: old) trail) (hs : stem ≠ [])
    (hold : '.' ∉ old) (hdots : stem ++ '.' :: old ≠ ['.', '.']) :
    ∃ kept left, p.shortened.Ends dirs (stem ++ '.' :: kept) left ∧ '.' ∉ kept ∧
      (kept = [] ↔ old = [] ∨ trail = []) := by
  let tail := trail.flatMap ('/' :: ·)
  obtain ⟨left, hleft, htake⟩ := exists_trail_take h.trail_idle (tail.length - old.length)
  let kept := old.take tail.length
  have hkept : ∀ c, c ∈ kept → c ∈ old := fun c => List.mem_of_mem_take
  have hslash : '/' ∉ stem ++ '.' :: old := h.slash_notMem (by simp)
  have htext : p.text.toList =
      (dirs.flatMap (· ++ ['/']) ++ stem ++ ['.']) ++ (old ++ tail) := by
    rw [h.text_eq]
    simp [tail]
  have hlength : p.text.toList.length - old.length =
      (dirs.flatMap (· ++ ['/']) ++ stem ++ ['.']).length + tail.length := by
    rw [htext]
    simp only [List.length_append]
    omega
  refine ⟨kept, left, ?_, fun hc => hold (hkept _ hc), ?_⟩
  · refine ends_of_text ?_ ?_ (idle_append hs _) fun part hpart => (hleft part hpart).1
    · rw [Path.shortened, h.fileName?_eq, if_neg hdots]
      simp only [extensionOf_append hs hold, String.toList_ofList]
      rw [hlength, htext, List.take_length_add_append, List.take_append, htake]
      simp [kept]
    · intro part hpart
      rcases List.mem_append.1 hpart with hdir | _ | ⟨_, htrail⟩
      · exact h.slash_notMem (List.mem_append_left _ hdir)
      · intro hc
        refine hslash ?_
        simp only [List.mem_append, List.mem_cons] at hc ⊢
        exact hc.imp_right (Or.imp_right (hkept _))
      · exact (hleft part htrail).2
  · rw [List.take_eq_nil_iff, List.length_eq_zero_iff, or_comm]
    cases trail <;> simp [tail]

/-- With an extension a path leads to the directory that it led to before, and there to the name
with that extension. Only the name that is left of two dots and an extension at the end of a path is
the directory around. -/
theorem Ends.components_withExtension (h : p.Ends dirs name trail) (hdots : name ≠ ['.', '.'])
    {e : String} (he : '/' ∉ e.toList) :
    (p.withExtension e).components = leading dirs ++
      [if stemOf name = ['.'] ∧ trail = [] then ['.', '.']
        else stemOf name ++ '.' :: e.toList] := by
  rw [withExtension]
  rcases exists_stem name with hbare | ⟨stem, old, hs, hold, rfl⟩
  · have hshort : p.shortened = p := by
      rw [Path.shortened, h.fileName?_eq, if_neg hdots]
      simp [extensionOf_of_notMem hbare]
    have hname : stemOf name ≠ ['.'] := by
      rw [stemOf_of_notMem hbare]
      rintro rfl
      exact absurd h.counts (by decide)
    rw [hshort, (h.extended hdots he).components_eq, if_neg fun hc => hname hc.1]
  · obtain ⟨kept, left, hshort, hkept, hnil⟩ := h.shortened hs hold hdots
    rw [stemOf_append hs hold]
    by_cases hlost : stem = ['.'] ∧ trail = []
    · obtain ⟨rfl, htrail⟩ := hlost
      rw [hnil.2 (.inr htrail)] at hshort
      have hnone : p.shortened.fileName? = none := hshort.fileName?_eq.trans (if_pos rfl)
      rw [extended_of_unnamed hnone, hshort.components_eq, if_pos ⟨rfl, htrail⟩]
      rfl
    · have hstands : stem ++ '.' :: kept ≠ ['.', '.'] := by
        intro heq
        have hlength : stem.length + (kept.length + 1) = 2 := by
          simpa using congrArg List.length heq
        have hpos := List.length_pos_iff.2 hs
        have hempty : kept = [] := List.eq_nil_of_length_eq_zero (by omega)
        rw [hempty] at heq
        have hstem : stem = ['.'] := List.append_cancel_right (heq : stem ++ ['.'] = ['.'] ++ ['.'])
        rcases hnil.1 hempty with rfl | htrail
        · exact hdots heq
        · exact hlost ⟨hstem, htrail⟩
      rw [(hshort.extended hstands he).components_eq, stemOf_append hs hkept, if_neg hlost]

theorem Ends.getLast?_parts_eq_iff (h : p.Ends dirs name trail) {part : Part}
    (hpart : idle part = false) : p.parts.getLast? = some part ↔ name = part ∧ trail = [] := by
  rw [h.parts_eq]
  rcases List.eq_nil_or_concat' trail with rfl | ⟨before, last, rfl⟩
  · simp
  · have hlast : idle last = true := h.trail_idle last (by simp)
    have hne : last ≠ part := by
      rintro rfl
      rw [hpart] at hlast
      cases hlast
    have hparts : dirs ++ name :: (before ++ [last]) = (dirs ++ name :: before) ++ [last] := by simp
    rw [hparts, List.getLast?_concat]
    simp [hne]

/-- The steps to the directory in which the last step of a path is taken. The root and the empty
path have no last step. -/
def parent? (p : Path) : Option (List Part) :=
  if p.components = [] ∨ p.components = [[]] then none else some p.components.dropLast

theorem parent?_of_components {steps : List Part} (h : p.components = steps ++ [name])
    (hname : name ≠ []) : p.parent? = some steps := by
  have hne : ¬ (p.components = [] ∨ p.components = [[]]) := by
    rw [h]
    rintro (hnil | hroot)
    · simp at hnil
    · have hlast := congrArg List.getLast? hroot
      rw [List.getLast?_concat] at hlast
      exact hname (Option.some.inj hlast)
  rw [parent?, if_neg hne, h, List.dropLast_concat]

/-- With an extension a path keeps its directory. It stays the same path exactly if its name is a
stem with that extension already, but for two dots and the extension at the end of the path: of them
only the dots are left. -/
theorem withExtension_of_named (h : p.fileName? = some name) {e : String} (he : '/' ∉ e.toList)
    (hext : '.' ∉ e.toList) :
    (p.withExtension e).parent? = p.parent? ∧
      ((p.withExtension e).same p = true ↔
        (∃ stem, stem ≠ [] ∧ name = stem ++ '.' :: e.toList) ∧
          p.parts.getLast? ≠ some (['.'] ++ '.' :: e.toList)) := by
  obtain ⟨dirs, trail, hends⟩ := exists_ends h
  have hname : Names name := (getLast?_components h).2
  have hdots : name ≠ ['.', '.'] := hname.2.2
  have hne : name ≠ [] := hname.ne_nil
  have hsteps := hends.components_withExtension hdots he
  constructor
  · have hlast : (if stemOf name = ['.'] ∧ trail = [] then ['.', '.']
        else stemOf name ++ '.' :: e.toList) ≠ [] := by
      split <;> simp
    rw [parent?_of_components hsteps hlast, parent?_of_components hends.components_eq hne]
  · rw [same_iff, hsteps, hends.components_eq, List.append_right_inj, List.singleton_inj,
      Ne, hends.getLast?_parts_eq_iff (idle_append (by decide) _)]
    by_cases hlost : stemOf name = ['.'] ∧ trail = []
    · rw [if_pos hlost]
      refine ⟨fun hname => absurd hname.symm hdots, ?_⟩
      rintro ⟨⟨stem, hs, rfl⟩, hlast⟩
      rw [stemOf_append hs hext] at hlost
      exact absurd ⟨by rw [hlost.1], hlost.2⟩ hlast
    · rw [if_neg hlost]
      constructor
      · intro hname
        refine ⟨⟨_, stemOf_ne_nil hne, hname.symm⟩, ?_⟩
        rintro ⟨hdot, htrail⟩
        exact hlost ⟨by rw [hdot, stemOf_append (by decide) hext], htrail⟩
      · rintro ⟨⟨stem, hs, rfl⟩, -⟩
        rw [stemOf_append hs hext]

end named

end Bpl.Path
