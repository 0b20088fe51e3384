namespace Bpl

/-- The name of a file or directory, as it was written. -/
structure Path where
  text : String
  deriving DecidableEq, Inhabited

namespace Path

/-- What stands between slashes. -/
abbrev Part := List Char

/-- The parts of a text; there is always one more than there are slashes. -/
def split : List Char → List Part
  | [] => [[]]
  | '/' :: cs => [] :: split cs
  | c :: cs =>
    match split cs with
    | [] => [[c]]
    | part :: parts => (c :: part) :: parts

/-- Parts with slashes between them. -/
def join : List Part → List Char
  | [] => []
  | [part] => part
  | part :: parts => part ++ '/' :: join parts

theorem split_ne_nil (cs : List Char) : split cs ≠ [] := by
  fun_cases split cs <;> simp

theorem join_split (cs : List Char) : join (split cs) = cs := by
  fun_induction split cs with
  | case1 => rfl
  | case2 cs ih =>
    cases h : split cs with
    | nil => exact absurd h (split_ne_nil cs)
    | cons part parts =>
      rw [h] at ih
      simp [join, ih]
  | case3 c cs _ h => exact absurd h (split_ne_nil cs)
  | case4 c cs _ part parts h ih =>
    rw [h] at ih
    cases parts <;> simp_all [join]

def parts (p : Path) : List Part :=
  split p.text.toList

/-- A part that leads nowhere else. -/
def idle (part : Part) : Bool :=
  part == [] || part == ['.']

/-- Parts without the idle ones at the end. -/
def trimEnd : List Part → List Part
  | [] => []
  | part :: parts =>
    match trimEnd parts with
    | [] => if idle part then [] else [part]
    | rest => part :: rest

/-- The parts up to the last one that counts. The first part always counts: it says whether the
path is absolute. -/
def significant (p : Path) : List Part :=
  match p.parts with
  | [] => []
  | part :: parts => part :: trimEnd parts

/-- The last name in a path, if it does not end in a directory that is named by dots alone. -/
def fileName? (p : Path) : Option Part :=
  p.significant.getLast?.filter fun part => !idle part && part != ['.', '.']

/-- A name up to its last dot, if something stands before that; else all of it. -/
def stemOf (name : Part) : Part :=
  match name.reverse.dropWhile (· != '.') with
  | _ :: c :: cs => (c :: cs).reverse
  | _ => name

/-- The file name without its extension. -/
def stem? (p : Path) : Option Path :=
  p.fileName?.map fun name => ⟨String.ofList (stemOf name)⟩

/-- What follows the stem of a name and a dot. -/
def extensionOf (name : Part) : Part :=
  name.drop ((stemOf name).length + 1)

/-- The path without as many characters at its end as its extension has. -/
def shortened (p : Path) : Path :=
  match p.fileName? with
  | none => p
  | some name =>
    let cs := p.text.toList
    ⟨String.ofList (cs.take (cs.length - (extensionOf name).length))⟩

/-- The path with an extension after the stem of its file name, if it has a file name. -/
def extended (p : Path) (extension : String) : Path :=
  match p.fileName? with
  | none => p
  | some name =>
    ⟨String.ofList (join (p.significant.dropLast ++ [stemOf name ++ '.' :: extension.toList]))⟩

/-- The path with another extension. The old one goes first: where it leaves nothing but two dots,
no file is named any more, and no extension is put. -/
def withExtension (p : Path) (extension : String) : Path :=
  p.shortened.extended extension

/-- The steps that a path takes: an empty first part stands for the root, and a dot counts only
at the start. -/
def components (p : Path) : List Part :=
  match p.parts with
  | [[]] | [] => []
  | part :: parts => part :: parts.filter (!idle ·)

/-- Whether two paths take the same steps. -/
def same (p q : Path) : Bool :=
  p.components == q.components

end Path

end Bpl
