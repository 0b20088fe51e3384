import Bpl.Proofs.Files
import Bpl.Proofs.Paths
import Bpl.Proofs.Session

namespace Bpl

open Bpl.Path (lone Bare Names stemOf)

namespace Options

variable {o : Options} {assembly : Path} {executable : Option Path} {name : Path.Part}

theorem outputs_eq_ok (h : o.outputs = .ok (assembly, executable)) :
    assembly = o.executable.withExtension "s" ∧
      executable = (if o.assemblyOnly then none else some o.executable) ∧
      (o.assemblyOnly = false → assembly.same o.executable = false) := by
  rw [outputs] at h
  split at h
  · next hS =>
    cases h
    simp [hS]
  · next hS =>
    split at h
    · cases h
    · next hsame =>
      cases h
      simpa [hS] using hsame

theorem executable_of_named (ho : o.output = none) (h : o.input.fileName? = some name) :
    o.executable = lone (stemOf name) := by
  rw [executable, ho, Path.stem?, h]
  rfl

theorem executable_of_unnamed (ho : o.output = none) (h : o.input.fileName? = none) :
    o.executable = o.input := by
  rw [executable, ho, Path.stem?, h]
  rfl

/-- An input is where its executable goes if it is a name without an extension. -/
theorem same_executable_iff (ho : o.output = none) (h : o.input.fileName? = some name) :
    o.executable.same o.input = true ↔ ∃ x, Bare x ∧ o.input.components = [x] := by
  have hname := (Path.getLast?_components h).2
  have hslash : '/' ∉ stemOf name := fun hc => hname.1 ((Path.stemOf_prefix name).mem hc)
  rw [executable_of_named ho h, Path.same_iff,
    Path.components_lone hslash (Path.stemOf_ne_nil hname.ne_nil)]
  constructor
  · intro hx
    have hself : stemOf name = name := (Path.eq_of_components_eq h hx.symm).symm
    rw [hself] at hx
    exact ⟨name, ⟨hname, Path.stemOf_eq_self_iff.1 hself⟩, hx.symm⟩
  · rintro ⟨x, hx, hcomponents⟩
    rw [hcomponents, Path.eq_of_components_eq h hcomponents, Path.stemOf_of_notMem hx.2]

/-- An input is where its assembly file goes if it is a name with that extension and no other. -/
theorem same_assembly_iff (ho : o.output = none) (h : o.input.fileName? = some name) :
    (o.executable.withExtension "s").same o.input = true ↔
      ∃ x, Bare x ∧ o.input.components = [x ++ ".s".toList] := by
  change _ ↔ ∃ x, Bare x ∧ o.input.components = [x ++ ['.', 's']]
  have hname := (Path.getLast?_components h).2
  have hslash : '/' ∉ stemOf name := fun hc => hname.1 ((Path.stemOf_prefix name).mem hc)
  have hne : stemOf name ≠ [] := Path.stemOf_ne_nil hname.ne_nil
  have hext : ∀ {w : Path.Part}, w ≠ [] → stemOf (w ++ ['.', 's']) = w := fun hw =>
    Path.stemOf_append hw (by decide)
  have hstem : ∀ x, Bare x → o.input.components = [x ++ ['.', 's']] → stemOf name = x :=
    fun x hx hcomponents => by
      rw [Path.eq_of_components_eq h hcomponents, hext hx.1.ne_nil]
  rw [executable_of_named ho h, Path.same_iff]
  -- Only a bare stem is kept whole in the name of the assembly file. A stem with an extension of its
  -- own loses that, and one that is dots alone takes none.
  by_cases hnames : Names (stemOf name)
  · rcases Path.exists_stem (stemOf name) with hbare | ⟨w, e, hw, he, hsplit⟩
    · rw [Path.withExtension_lone_of_bare ⟨hnames, hbare⟩]
      change (lone (stemOf name ++ ['.', 's'])).components = _ ↔ _
      rw [Path.components_lone (by simp [hslash]) (by simp)]
      constructor
      · exact fun hx => ⟨_, ⟨hnames, hbare⟩, hx.symm⟩
      · rintro ⟨x, hx, hcomponents⟩
        rw [hcomponents, hstem x hx hcomponents]
    · have hslash' : '/' ∉ w := fun hc => hslash (hsplit ▸ List.mem_append_left _ hc)
      rw [hsplit] at hnames
      rw [hsplit, Path.withExtension_lone_append hnames hw he]
      change (lone (if w = ['.'] then ['.', '.'] else w ++ ['.', 's'])).components = _ ↔ _
      constructor
      · intro hx
        exfalso
        split at hx
        · rw [Path.components_lone (by decide) (by decide)] at hx
          exact hname.2.2 (Path.eq_of_components_eq h hx.symm)
        · rw [Path.components_lone (by simp [hslash']) (by simp)] at hx
          rw [Path.eq_of_components_eq h hx.symm, hext hw] at hsplit
          simpa using congrArg List.length hsplit
      · rintro ⟨x, hx, hcomponents⟩
        have hxw : w ++ '.' :: e = x := hsplit.symm.trans (hstem x hx hcomponents)
        exact absurd (hxw ▸ Path.mem_tail_append hw) hx.2
  · rw [Path.withExtension_of_unnamed (Path.fileName?_lone_eq_none hslash hnames),
      Path.components_lone hslash hne]
    constructor
    · intro hx
      exact absurd (Path.eq_of_components_eq h hx.symm ▸ hname) hnames
    · rintro ⟨x, hx, hcomponents⟩
      exact absurd (hstem x hx hcomponents ▸ hx.1) hnames

variable (ho : o.outputs = .ok (assembly, executable))
include ho

/-- The outputs that are named after an input are the input itself if that is a lone name which has
no extension, or none but that of the output. -/
theorem same_input_of_derived (hn : o.output = none) :
    (executable.any (·.same o.input) = true ↔
      o.assemblyOnly = false ∧ ∃ x, Bare x ∧ o.input.components = [x]) ∧
    (assembly.same o.input = true ↔
      (∃ x, Bare x ∧ o.input.components = [x ++ ".s".toList]) ∨
        o.assemblyOnly = true ∧ o.input.fileName? = none) := by
  obtain ⟨rfl, rfl, hclash⟩ := outputs_eq_ok ho
  cases hf : o.input.fileName? with
  | none =>
    have hassembly : o.executable.withExtension "s" = o.input := by
      rw [executable_of_unnamed hn hf, Path.withExtension_of_unnamed hf]
    have hS : o.assemblyOnly = true := by
      by_contra hS
      have hsame := hclash (Bool.eq_false_of_not_eq_true hS)
      rw [hassembly, executable_of_unnamed hn hf] at hsame
      simp [Path.same] at hsame
    simp [hS, hassembly, Path.same_iff]
  | some name =>
    constructor
    · rw [← same_executable_iff hn hf]
      cases o.assemblyOnly <;> simp
    · simpa using same_assembly_iff hn hf

theorem same_input_of_named {name : Path} (hn : o.output = some name) :
    (executable.any (·.same o.input) = true ↔
      o.assemblyOnly = false ∧ name.same o.input = true) ∧
    (assembly.same o.input = true ↔ (name.withExtension "s").same o.input = true) := by
  obtain ⟨rfl, rfl, -⟩ := outputs_eq_ok ho
  have hexecutable : o.executable = name := by
    rw [executable, hn]
    rfl
  rw [hexecutable]
  cases o.assemblyOnly <;> simp

end Options

namespace Session

variable {σ Place : Type} {host : Host (StateM σ)} {fs : FileSystem host Place}
  (hc : fs.Confined) {o : Options} {s : σ} {q : Place}

section keeps
include hc

theorem link_keeps {executable : Option Path}
    (he : ∀ e ∈ executable, fs.place? s e ≠ some q) (assembly : Path) :
    fs.contents ((link host o assembly executable).run s).2 q = fs.contents s q := by
  cases executable with
  | none => rfl
  | some e =>
    have hkept := hc.link_keeps s o.linker assembly e q (he e rfl)
    rw [link, StateT.run_bind]
    rcases hl : (host.link o.linker assembly e).run s with ⟨reason | ⟨⟩, s'⟩ <;>
      · rw [hl] at hkept
        exact hkept

theorem emit_keeps {assembly : Path} {executable : Option Path}
    (ha : fs.place? s assembly ≠ some q) (he : ∀ e ∈ executable, fs.place? s e ≠ some q)
    (a : Assembly) :
    fs.contents ((emit host o assembly executable a).run s).2 q = fs.contents s q := by
  have hkept := hc.write_keeps s assembly a.text q ha
  have hleads := hc.write_leads s assembly a.text
  rw [emit, StateT.run_bind]
  rcases hw : (host.write assembly a.text).run s with ⟨reason | ⟨⟩, s'⟩ <;>
    rw [hw] at hkept hleads
  · exact hkept
  · have hlinked := link_keeps hc (o := o) (s := s') (q := q)
      (fun e hmem => by rw [hleads]; exact he e hmem) assembly
    exact hlinked.trans hkept

theorem build_keeps (source : String)
    (h : ∀ assembly executable, o.outputs = .ok (assembly, executable) →
      fs.place? s assembly ≠ some q ∧ ∀ e ∈ executable, fs.place? s e ≠ some q) :
    fs.contents ((build host o source).run s).2 q = fs.contents s q := by
  cases ho : o.outputs with
  | error d =>
    rw [build_of_clash ho]
    rfl
  | ok outputs =>
    obtain ⟨assembly, executable⟩ := outputs
    obtain ⟨ha, he⟩ := h assembly executable ho
    cases hcompiled : (compile source).outcome with
    | error e =>
      rw [build_of_refused ho hcompiled]
      rfl
    | ok a =>
      have hkept := emit_keeps hc ha he a (o := o)
      rcases hemit : (emit host o assembly executable a).run s with ⟨emitted, s'⟩
      rw [build_of_compiled ho hcompiled hemit]
      rw [hemit] at hkept
      exact hkept

/-- A run changes only the files that its outputs lead to. -/
theorem run_keeps (h : ∀ assembly executable, o.outputs = .ok (assembly, executable) →
      fs.place? s assembly ≠ some q ∧ ∀ e ∈ executable, fs.place? s e ≠ some q) :
    fs.contents ((run host o).run s).2 q = fs.contents s q := by
  have hread : (host.read o.input).run s = (((host.read o.input).run s).1, s) :=
    Prod.ext rfl (fs.read_keeps s o.input)
  cases hr : ((host.read o.input).run s).1 with
  | error reason =>
    rw [hr] at hread
    rw [run_of_unreadable hread]
  | ok source =>
    rw [hr] at hread
    have hkept := build_keeps hc source h
    rcases hb : (build host o source).run s with ⟨built, s'⟩
    rw [hb] at hkept
    rw [run_of_read hread hb]
    exact hkept

end keeps

/-- Only their names keep the outputs of a run apart from its input. Named after the input, the
executable is the input exactly if that is a lone name without an extension. The assembly file is
the input exactly if that is such a name with the extension of assembly or, where nothing is linked,
a path that ends in no file name. With a name of its own, each is the input exactly if that name is.
A file changes only if one of the outputs leads to it. -/
theorem input_kept_apart (hc : fs.Confined) (o : Options) :
    (∀ assembly executable, o.outputs = .ok (assembly, executable) →
      (o.output = none →
        (executable.any (·.same o.input) = true ↔
          o.assemblyOnly = false ∧ ∃ x, Bare x ∧ o.input.components = [x]) ∧
        (assembly.same o.input = true ↔
          (∃ x, Bare x ∧ o.input.components = [x ++ ".s".toList]) ∨
            o.assemblyOnly = true ∧ o.input.fileName? = none)) ∧
      ∀ name, o.output = some name →
        (executable.any (·.same o.input) = true ↔
          o.assemblyOnly = false ∧ name.same o.input = true) ∧
        (assembly.same o.input = true ↔ (name.withExtension "s").same o.input = true)) ∧
    ∀ s q, fs.contents ((run host o).run s).2 q ≠ fs.contents s q →
      ∃ assembly executable, o.outputs = .ok (assembly, executable) ∧
        (fs.place? s assembly = some q ∨ ∃ e ∈ executable, fs.place? s e = some q) := by
  constructor
  · intro assembly executable ho
    exact ⟨Options.same_input_of_derived ho, fun name => Options.same_input_of_named ho⟩
  · intro s q hchanged
    by_contra hnone
    refine hchanged (run_keeps hc fun assembly executable ho => ?_)
    exact ⟨fun ha => hnone ⟨assembly, executable, ho, .inl ha⟩,
      fun e hmem he => hnone ⟨assembly, executable, ho, .inr ⟨e, hmem, he⟩⟩⟩

/-- A program that is named like an assembly file is lost. -/
theorem source_lost :
    let bench := Files.host fun _ => .ok ()
    let files : Files := ⟨[(["x.s".toList], "void main(void) \x7b \x7d".toUTF8)]⟩
    ∃ o assembly, Options.ofArguments none ["-S", "x.s"] = .ok o ∧
      o.outputs = .ok (assembly, none) ∧ assembly.same o.input = true ∧
      ((start bench none ["-S", "x.s"]).run files).2.contents? ["x.s".toList] ≠
        files.contents? ["x.s".toList] := by
  intro bench files
  exact ⟨⟨⟨"x.s"⟩, true, none, "cc", 0⟩, ⟨"x.s"⟩, rfl, by decide +kernel, by decide +kernel,
    by decide +kernel⟩

theorem workbench_kept :
    let bench := Files.host fun _ => .ok ()
    (Files.fileSystem fun _ => .ok ()).Confined ∧
    Options.ofArguments none ["--cc", "true", "-o", "q", "p.bpl"] =
      .ok ⟨⟨"p.bpl"⟩, false, some ⟨"q"⟩, "true", 0⟩ ∧
    ((start bench none ["--cc", "true", "-o", "q", "p.bpl"]).run workbench).1.status = 0 ∧
    ((start bench none ["--cc", "true", "-o", "q", "p.bpl"]).run workbench).2.contents?
      ["p.bpl".toList] = workbench.contents? ["p.bpl".toList] := by
  intro bench
  let fs : FileSystem bench (List Path.Part) := Files.fileSystem _
  have hc : fs.Confined := Files.fileSystem_confined _
  set o : Options := ⟨⟨"p.bpl"⟩, false, some ⟨"q"⟩, "true", 0⟩
  have hargs : Options.ofArguments none ["--cc", "true", "-o", "q", "p.bpl"] = .ok o := rfl
  refine ⟨hc, hargs, by decide +kernel, ?_⟩
  rw [start_run hargs]
  by_contra hchanged
  obtain ⟨assembly, executable, ho, hplace⟩ :=
    (input_kept_apart hc o).2 workbench ["p.bpl".toList] hchanged
  have houtputs : o.outputs = .ok (⟨"q.s"⟩, some ⟨"q"⟩) := by decide +kernel
  rw [houtputs] at ho
  cases ho
  revert hplace
  decide +kernel

end Session

end Bpl
