import Bpl.Files
import Bpl.Proofs.Except

namespace Bpl

/-- What a host does to files: `contents s q` is what the file at the place `q` holds, if there is
one, and `place? s p` is where a path leads to. Reading changes nothing. A text that is written with
success is all that its file holds then, and the other files hold what they held. -/
structure FileSystem {σ : Type} (host : Host (StateM σ)) (Place : Type) where
  contents : σ → Place → Option ByteArray
  place? : σ → Path → Option Place
  read_keeps : ∀ s p, ((host.read p).run s).2 = s
  write_puts : ∀ {s s' p text}, (host.write p text).run s = (.ok (), s') →
    (∀ q, place? s p = some q → contents s' q = some text.toUTF8) ∧
      ∀ q, place? s p ≠ some q → contents s' q = contents s q

/-- A host that touches no more than it has to. A write, even one that fails, changes at most the
file that its path leads to, and no path leads elsewhere after it. Linking changes at most the
executable. -/
structure FileSystem.Confined {σ Place : Type} {host : Host (StateM σ)}
    (fs : FileSystem host Place) : Prop where
  write_keeps : ∀ s p text q, fs.place? s p ≠ some q →
    fs.contents ((host.write p text).run s).2 q = fs.contents s q
  write_leads : ∀ s p text p', fs.place? ((host.write p text).run s).2 p' = fs.place? s p'
  link_keeps : ∀ s linker assembly executable q, fs.place? s executable ≠ some q →
    fs.contents ((host.link linker assembly executable).run s).2 q = fs.contents s q

namespace Files

/-- What the file with the given names holds. -/
def contents? (fs : Files) (names : List Path.Part) : Option ByteArray :=
  (fs.entries.find? (·.1 == names)).map Prod.snd

theorem find?_put (fs : Files) {names q : List Path.Part} (bytes : ByteArray) :
    (fs.put (.below names) bytes).entries.find? (·.1 == q) =
      if names = q then some (names, bytes) else fs.entries.find? (·.1 == q) := by
  have hkept : (fs.entries.filter (·.1 != names)).find? (·.1 == q) =
      if names = q then none else fs.entries.find? (·.1 == q) := by
    induction fs.entries with
    | nil => simp
    | cons e es ih =>
      by_cases hn : e.1 = names
      · rw [List.filter_cons_of_neg (by simp [hn]), ih, List.find?_cons]
        by_cases h : names = q
        · rw [if_pos h, if_pos h]
        · rw [if_neg h, if_neg h, hn, beq_eq_false_iff_ne.2 h]
      · rw [List.filter_cons_of_pos (by simp [hn]), List.find?_cons, List.find?_cons, ih]
        by_cases h : names = q
        · rw [if_pos h, if_pos h, ← h, beq_eq_false_iff_ne.2 hn]
        · rw [if_neg h, if_neg h]
  rw [put, List.find?_append, hkept]
  by_cases h : names = q
  · simp [h]
  · simp [h]

theorem contents?_put (fs : Files) (names : List Path.Part) (bytes : ByteArray)
    (q : List Path.Part) :
    (fs.put (.below names) bytes).contents? q =
      if names = q then some bytes else fs.contents? q := by
  rw [contents?, find?_put]
  split <;> rfl

/-- A place that was walked to: every directory on the way down is there. -/
def Reached (fs : Files) : Place → Prop
  | .below names =>
    ∀ before, before <+: names → before ≠ names → fs.node (.below before) = .directory
  | .above | .elsewhere => True

theorem reached_enter {fs : Files} {place : Place} (h : fs.Reached place)
    (hd : fs.node place = .directory) (part : Path.Part) : fs.Reached (place.enter part) := by
  unfold Place.enter
  split
  · exact h
  · cases place with
    | above | elsewhere =>
      dsimp only
      split <;> exact trivial
    | below names =>
      dsimp only
      split
      · intro before hb hne
        rcases List.prefix_concat_iff.1 hb with rfl | hb
        · exact absurd rfl hne
        · by_cases heq : before = names
          · rwa [heq]
          · exact h before hb heq
      · split
        · exact trivial
        · next hnames =>
          intro before hb _
          refine h before (hb.trans (List.dropLast_prefix names)) ?_
          rintro rfl
          have hlength := hb.length_le
          have hpos := List.length_pos_iff.2 (fun hnil : before = [] => hnames (by simp [hnil]))
          rw [List.length_dropLast] at hlength
          omega

theorem reached_of_follow {fs : Files} {place place' : Place} {parts : List Path.Part}
    (h : fs.Reached place) (hf : fs.follow place parts = .ok place') : fs.Reached place' := by
  induction parts generalizing place with
  | nil =>
    cases hf
    exact h
  | cons part parts ih =>
    rw [follow] at hf
    cases hn : fs.node place with
    | directory =>
      rw [hn] at hf
      exact ih (reached_enter h hn part) hf
    | file _ | absent =>
      rw [hn] at hf
      cases hf

theorem reached_of_locate {fs : Files} {p : Path} {place : Place}
    (h : fs.locate p = .ok place) : fs.Reached place := by
  have hroot : fs.Reached (.below []) := fun before hb hne =>
    absurd (List.prefix_nil.1 hb) hne
  rw [locate] at h
  split at h
  · exact reached_of_follow (show fs.Reached .above from trivial) h
  · exact reached_of_follow hroot h

/-- A file that is put where one may be leaves everything else what it is. -/
theorem node_put {fs : Files} {names : List Path.Part} (h : fs.Reached (.below names))
    (bytes : ByteArray) {place : Place} (hne : place ≠ .below names) :
    (fs.put (.below names) bytes).node place = fs.node place := by
  cases place with
  | above | elsewhere => rfl
  | below q =>
    have hq : names ≠ q := fun heq => hne (heq ▸ rfl)
    -- A place on the way to the file is a directory before and after. The others do not see it.
    by_cases hprefix : q <+: names
    · have hdirectory := h q hprefix hq.symm
      rw [hdirectory]
      rw [node] at hdirectory ⊢
      rw [find?_put, if_neg hq]
      split at hdirectory
      · cases hdirectory
      · rw [if_pos]
        simp [put, List.isPrefixOf_iff_prefix.2 hprefix]
    · have hany : (fs.put (.below names) bytes).entries.any (q.isPrefixOf ·.1) =
          fs.entries.any (q.isPrefixOf ·.1) := by
        rw [Bool.eq_iff_iff, List.any_eq_true, List.any_eq_true]
        have hother : ∀ e : List Path.Part × ByteArray, q.isPrefixOf e.1 = true → e.1 ≠ names :=
          fun e hp he => hprefix (he ▸ List.isPrefixOf_iff_prefix.1 hp)
        constructor
        · rintro ⟨e, he, hp⟩
          rcases List.mem_append.1 he with he | he
          · exact ⟨e, (List.mem_filter.1 he).1, hp⟩
          · exact absurd (congrArg Prod.fst (List.mem_singleton.1 he)) (hother e hp)
        · rintro ⟨e, he, hp⟩
          have hkept : e ∈ fs.entries.filter (·.1 != names) :=
            List.mem_filter.2 ⟨he, by simpa using hother e hp⟩
          exact ⟨e, List.mem_append_left _ hkept, hp⟩
      rw [node, node, find?_put, if_neg hq, hany]

theorem node_put_self (fs : Files) (names : List Path.Part) (bytes : ByteArray) :
    (fs.put (.below names) bytes).node (.below names) = .file bytes := by
  rw [node, find?_put, if_pos rfl]

/-- No path leads elsewhere after a file is put. -/
theorem follow_put {fs : Files} {names : List Path.Part} (h : fs.Reached (.below names))
    (hd : fs.node (.below names) ≠ .directory) (bytes : ByteArray) (place : Place)
    (parts : List Path.Part) :
    ((fs.put (.below names) bytes).follow place parts).toOption =
      (fs.follow place parts).toOption := by
  induction parts generalizing place with
  | nil => rfl
  | cons part parts ih =>
    rw [follow, follow]
    by_cases hplace : place = .below names
    -- Neither the file nor a gap in its place can be passed.
    · rw [hplace, node_put_self]
      cases hn : fs.node (.below names) with
      | directory => exact absurd hn hd
      | file _ | absent => rfl
    · rw [node_put h bytes hplace]
      cases fs.node place with
      | directory => exact ih _
      | file _ | absent => rfl

/-- Where a path leads to, if that is below the directory. -/
def place? (fs : Files) (p : Path) : Option (List Path.Part) :=
  match fs.locate p with
  | .ok (.below names) => some names
  | _ => none

def Place.names? : Place → Option (List Path.Part)
  | .below names => some names
  | .above | .elsewhere => none

theorem place?_eq (fs : Files) (p : Path) :
    fs.place? p = (fs.locate p).toOption.bind Place.names? := by
  rw [place?]
  cases fs.locate p with
  | error e => rfl
  | ok place => cases place <;> rfl

theorem run_write (linker : String → Except String Unit) (fs : Files) (p : Path) (text : String) :
    ((host linker).write p text).run fs =
      match fs.write p text with
      | .ok fs' => (.ok (), fs')
      | .error e => (.error e.message, fs) := by
  change StateT.run (match fs.write p text with
    | .ok fs' => (do
      set fs'
      return .ok () : StateM Files (Except String Unit))
    | .error e => return .error e.message) fs = _
  cases fs.write p text <;> rfl

theorem write_eq_ok {fs fs' : Files} {p : Path} {text : String} (h : fs.write p text = .ok fs') :
    ∃ place, fs.locate p = .ok place ∧ fs.node place ≠ .directory ∧
      fs' = fs.put place text.toUTF8 := by
  obtain ⟨place, hp, h⟩ := Except.bind_eq_ok_iff.1 h
  refine ⟨place, hp, ?_⟩
  cases hn : fs.node place with
  | directory =>
    rw [hn] at h
    cases h
  | absent | file _ =>
    rw [hn] at h
    cases h
    exact ⟨nofun, rfl⟩

theorem place?_of_write {fs fs' : Files} {p : Path} {text : String}
    (h : fs.write p text = .ok fs') (q : Path) : fs'.place? q = fs.place? q := by
  obtain ⟨place, hp, hd, rfl⟩ := write_eq_ok h
  cases place with
  | above | elsewhere => rfl
  | below names =>
    have hlocate : ((fs.put (.below names) text.toUTF8).locate q).toOption =
        (fs.locate q).toOption := by
      rw [locate, locate]
      split <;> exact follow_put (reached_of_locate hp) hd _ _ _
    rw [place?_eq, place?_eq, hlocate]

/-- Files that are read and written are a file system. -/
def fileSystem (linker : String → Except String Unit) :
    FileSystem (host linker) (List Path.Part) where
  contents := contents?
  place? := place?
  read_keeps _ _ := rfl
  write_puts {fs fs' p text} h := by
    rw [run_write] at h
    cases hw : fs.write p text with
    | error e =>
      rw [hw] at h
      cases h
    | ok written =>
      rw [hw] at h
      cases h
      obtain ⟨place, hp, hd, rfl⟩ := write_eq_ok hw
      cases place with
      | above => exact absurd rfl hd
      | elsewhere =>
        have hplace : fs.place? p = none := by rw [place?, hp]
        rw [hplace]
        exact ⟨nofun, fun _ _ => rfl⟩
      | below names =>
        have hplace : fs.place? p = some names := by rw [place?, hp]
        rw [hplace]
        constructor
        · intro q hq
          rw [contents?_put, if_pos (Option.some.inj hq)]
        · intro q hq
          rw [contents?_put, if_neg fun h => hq (congrArg some h)]

theorem fileSystem_confined (linker : String → Except String Unit) :
    (fileSystem linker).Confined where
  write_keeps fs p text q hq := by
    change contents? _ q = contents? fs q
    rw [run_write]
    cases hw : fs.write p text with
    | error e => rfl
    | ok fs' =>
      have hrun : ((host linker).write p text).run fs = (.ok (), fs') := by rw [run_write, hw]
      exact ((fileSystem linker).write_puts hrun).2 q hq
  write_leads fs p text p' := by
    change place? _ p' = place? fs p'
    rw [run_write]
    cases hw : fs.write p text with
    | error e => rfl
    | ok fs' => exact place?_of_write hw p'
  link_keeps _ _ _ _ _ _ := rfl

end Files

end Bpl
