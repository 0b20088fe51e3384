import Bpl.Proofs.Outputs

namespace Bpl

namespace Path

/-- A path that would be its own assembly file: it ends in no file name, or its name is a stem with
the extension of assembly. Where a path ends in the name `..s`, its assembly file is called `..`,
and that is another path. -/
def IsOwnAssembly (p : Path) : Prop :=
  p.fileName? = none ∨
    (∃ stem, stem ≠ [] ∧ p.fileName? = some (stem ++ ".s".toList)) ∧
      p.parts.getLast? ≠ some "..s".toList

theorem same_assembly_iff_isOwnAssembly (p : Path) :
    (p.withExtension "s").same p = true ↔ p.IsOwnAssembly := by
  rw [IsOwnAssembly]
  cases hf : p.fileName? with
  | none => simp [withExtension_of_unnamed hf, same_iff]
  | some name =>
    rw [(withExtension_of_named hf (by decide) (by decide)).2]
    simp

theorem parent?_assembly (p : Path) : (p.withExtension "s").parent? = p.parent? := by
  cases hf : p.fileName? with
  | none => rw [withExtension_of_unnamed hf]
  | some name => exact (withExtension_of_named hf (by decide) (by decide)).1

end Path

namespace Options

theorem outputs_of_linked {o : Options} (h : o.assemblyOnly = false) :
    o.outputs = if (o.executable.withExtension "s").same o.executable
      then .error (.outputClash o.executable.text)
      else .ok (o.executable.withExtension "s", some o.executable) := by
  simp [outputs, h]

theorem outputs_of_assemblyOnly {o : Options} (h : o.assemblyOnly = true) :
    o.outputs = .ok (o.executable.withExtension "s", none) := by
  simp [outputs, h]

/-- The outputs of a command line clash exactly if something is to be linked and the executable
would be its own assembly file. Otherwise they are named: the assembly file alone where nothing is
linked, and else two different paths in one directory. -/
theorem outputs_clash_exactly (o : Options) :
    (∀ d, o.outputs = .error d ↔ o.assemblyOnly = false ∧ o.executable.IsOwnAssembly ∧
      d = .outputClash o.executable.text) ∧
    (o.assemblyOnly = true → ∃ assembly, o.outputs = .ok (assembly, none)) ∧
    (o.assemblyOnly = false → ¬ o.executable.IsOwnAssembly → ∃ assembly,
      o.outputs = .ok (assembly, some o.executable) ∧
        assembly.components ≠ o.executable.components ∧
        assembly.parent? = o.executable.parent?) := by
  refine ⟨fun d => ?_, fun hS => ⟨_, outputs_of_assemblyOnly hS⟩, fun hS hown => ?_⟩
  · cases hS : o.assemblyOnly with
    | true => simp [outputs_of_assemblyOnly hS]
    | false =>
      rw [outputs_of_linked hS, ← Path.same_assembly_iff_isOwnAssembly]
      split
      · next hsame => simp [hsame, eq_comm]
      · next hsame => simp [hsame]
  · rw [← Path.same_assembly_iff_isOwnAssembly] at hown
    refine ⟨_, by rw [outputs_of_linked hS, if_neg hown], ?_, Path.parent?_assembly _⟩
    exact fun hsame => hown (Path.same_iff.2 hsame)

/-- An executable that is named `..s` has the name of an assembly file, and yet it does not clash
with its own. -/
theorem dottedName_accepted :
    let o : Options := ⟨⟨"q"⟩, false, some ⟨"..s"⟩, "cc", 0⟩
    Options.ofArguments none ["-o", "..s", "q"] = .ok o ∧
      o.executable.fileName? = some (".".toList ++ ".s".toList) ∧
      o.outputs = .ok (⟨".."⟩, some ⟨"..s"⟩) := by
  intro o
  exact ⟨rfl, by decide +kernel, by decide +kernel⟩

theorem dottedNames_outputs :
    let o : Options := ⟨⟨"q"⟩, false, some ⟨"..s/"⟩, "cc", 0⟩
    let o' : Options := ⟨⟨"a/..s"⟩, false, some ⟨"a/..s"⟩, "cc", 0⟩
    o.outputs = .error (.outputClash "..s/") ∧
      (∃ assembly, Options.outputs { o with assemblyOnly := true } = .ok (assembly, none)) ∧
      ¬ o'.executable.IsOwnAssembly ∧
      ∃ assembly, o'.outputs = .ok (assembly, some ⟨"a/..s"⟩) ∧
        assembly.components ≠ Path.components ⟨"a/..s"⟩ ∧ assembly.parent? = some ["a".toList] := by
  intro o o'
  have hown : o.executable.IsOwnAssembly :=
    .inr ⟨⟨".".toList, by decide, by decide +kernel⟩, by decide +kernel⟩
  have hfree : ¬ o'.executable.IsOwnAssembly := by
    rintro (hnone | ⟨-, hlast⟩)
    · revert hnone
      decide +kernel
    · revert hlast
      decide +kernel
  have hparent : o'.executable.parent? = some ["a".toList] := by decide +kernel
  obtain ⟨assembly, houtputs, hne, hsame⟩ := (outputs_clash_exactly o').2.2 rfl hfree
  exact ⟨((outputs_clash_exactly o).1 _).2 ⟨rfl, hown, rfl⟩, (outputs_clash_exactly _).2.1 rfl,
    hfree, assembly, houtputs, hne, hsame.trans hparent⟩

end Options

end Bpl
