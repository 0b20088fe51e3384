import Bpl.Proofs.Files
import Bpl.Proofs.Layout.Invariance

namespace Bpl

namespace Session

variable {σ : Type} {host : Host (StateM σ)} {o : Options} {s s' : σ} {source : String}

/-- A text that cannot be read ends the run. -/
theorem run_of_unreadable {reason : String} (hr : (host.read o.input).run s = (.error reason, s')) :
    (run host o).run s =
      (⟨1, "", (Diagnostic.io o.input.text reason).message ++ "\n"⟩, s') := by
  rw [run, StateT.run_bind, hr]
  rfl

/-- What comes of a text that can be read. -/
def reportOf (strip : String → String) (o : Options) (source : String) (built : Logged Unit) :
    Report :=
  let log := logText strip o.verbosity built.events
  match built.outcome with
  | .ok () => ⟨0, "", log⟩
  | .error e => ⟨1, "", log ++ failureText o.input.text source e ++ "\n"⟩

theorem run_of_read {s'' : σ} {built : Logged Unit}
    (hr : (host.read o.input).run s = (.ok source, s'))
    (hb : (build host o source).run s' = (built, s'')) :
    (run host o).run s = (reportOf host.strip o source built, s'') := by
  rw [run, StateT.run_bind, hr]
  change (build host o source >>= _).run s' = _
  rw [StateT.run_bind, hb]
  unfold reportOf
  obtain ⟨events, outcome⟩ := built
  cases outcome with
  | ok u => rfl
  | error e => rfl

theorem build_of_clash {d : Diagnostic} (ho : o.outputs = .error d) :
    build host o source = pure (.ofExcept (.error d)) := by
  rw [build, ho]

theorem build_of_refused {outputs : Path × Option Path} {e : Failure}
    (ho : o.outputs = .ok outputs) (hc : (compile source).outcome = .error e) :
    build host o source = pure ⟨(compile source).events, .error e⟩ := by
  rw [build, ho]
  simp only [hc]

theorem build_of_compiled {assembly : Path} {executable : Option Path} {a : Assembly}
    {emitted : Logged Unit} (ho : o.outputs = .ok (assembly, executable))
    (hc : (compile source).outcome = .ok a)
    (he : (emit host o assembly executable a).run s = (emitted, s')) :
    (build host o source).run s =
      (⟨(compile source).events ++ emitted.events, emitted.outcome⟩, s') := by
  rw [build, ho]
  simp only [hc]
  rw [StateT.run_bind, he]
  rfl

theorem emit_of_unwritten {assembly : Path} {executable : Option Path} {a : Assembly}
    {reason : String} (hw : (host.write assembly a.text).run s = (.error reason, s')) :
    (emit host o assembly executable a).run s =
      (.ofExcept (.error (.io assembly.text reason)), s') := by
  rw [emit, StateT.run_bind, hw]
  rfl

theorem emit_of_written {assembly : Path} {a : Assembly}
    (hw : (host.write assembly a.text).run s = (.ok (), s')) :
    (emit host o assembly none a).run s = (⟨[.wrote assembly.text], .ok ()⟩, s') := by
  rw [emit, StateT.run_bind, hw]
  rfl

theorem logText_zero (strip : String → String) (events : List Event) :
    logText strip 0 events = "" := by
  have hnone : events.filter (shows 0 ·.severity) = [] := by
    rw [List.filter_eq_nil_iff]
    intro e _
    cases e.severity <;> simp [shows]
  rw [logText, hnone]
  rfl

theorem start_run {environment : Option String} {arguments : List String}
    (h : Options.ofArguments environment arguments = .ok o) :
    (start host environment arguments).run s = (run host o).run s := by
  rw [start, h]

/-- Where the executable would overwrite its assembly file, the text is not even compiled. -/
theorem run_of_clash {d : Diagnostic} (hr : (host.read o.input).run s = (.ok source, s'))
    (ho : o.outputs = .error d) :
    (run host o).run s = (⟨1, "", d.render o.input.text source ++ "\n"⟩, s') := by
  have hb : (build host o source).run s' = (.ofExcept (.error d), s') := by
    rw [build_of_clash ho]
    rfl
  have hempty : logText host.strip o.verbosity [] = "" := rfl
  rw [run_of_read hr hb]
  change (Report.mk 1 "" (logText host.strip o.verbosity [] ++ d.render o.input.text source ++
    "\n"), s') = _
  rw [hempty, String.empty_append]

/-- Where a text is refused, the run ends behind the log. -/
theorem run_of_refused {outputs : Path × Option Path} {e : Failure}
    (hr : (host.read o.input).run s = (.ok source, s')) (ho : o.outputs = .ok outputs)
    (hc : (compile source).outcome = .error e) :
    (run host o).run s =
      (⟨1, "", logText host.strip o.verbosity (compile source).events ++
        failureText o.input.text source e ++ "\n"⟩, s') := by
  have hb : (build host o source).run s' = (⟨(compile source).events, .error e⟩, s') := by
    rw [build_of_refused ho hc]
    rfl
  exact run_of_read hr hb

/-- A run that stops after the assembly file and succeeds has read a text, compiled it and written
what came of it, in this order and nothing else. -/
theorem exists_written_of_run (hS : o.assemblyOnly = true)
    (hstatus : ((run host o).run s).1.status = 0) :
    ∃ source s' a, (host.read o.input).run s = (.ok source, s') ∧
      (compile source).outcome = .ok a ∧
      (host.write (o.executable.withExtension "s") a.text).run s' =
        (.ok (), ((run host o).run s).2) := by
  have houtputs : o.outputs = .ok (o.executable.withExtension "s", none) := by
    rw [Options.outputs, if_pos hS]
  rcases hr : (host.read o.input).run s with ⟨reason | source, s'⟩
  · rw [run_of_unreadable hr] at hstatus
    cases hstatus
  · cases hc : (compile source).outcome with
    | error e =>
      rw [run_of_refused hr houtputs hc] at hstatus
      cases hstatus
    | ok a =>
      rcases hw : (host.write (o.executable.withExtension "s") a.text).run s'
        with ⟨reason | ⟨⟩, s''⟩
      · rw [run_of_read hr (build_of_compiled houtputs hc (emit_of_unwritten hw))] at hstatus
        cases hstatus
      · rw [run_of_read hr (build_of_compiled houtputs hc (emit_of_written hw))]
        exact ⟨source, s', a, rfl, hc, hw⟩

/-- A run that fails leaves no trace. Whether the input cannot be read, the executable would
overwrite its assembly file or the text is refused, the status is 1, nothing is printed but the
error behind the log, and no file has changed. A run that stops after the assembly file and succeeds
puts the compiled text there, and no other file has changed. -/
theorem run_leaves_no_trace {Place : Type} (fs : FileSystem host Place) (o : Options) (s : σ) :
    let before := ((host.read o.input).run s).1
    let run := (run host o).run s
    (∀ reason, before = .error reason →
      run = (⟨1, "", (Diagnostic.io o.input.text reason).render o.input.text "" ++ "\n"⟩, s)) ∧
    (∀ source d, before = .ok source → o.outputs = .error d →
      run = (⟨1, "", d.render o.input.text source ++ "\n"⟩, s)) ∧
    (∀ source outputs e, before = .ok source → o.outputs = .ok outputs →
      (compile source).outcome = .error e → ∃ d log, e = .diagnostic d ∧
        (o.verbosity = 0 → log = "") ∧
        run = (⟨1, "", log ++ d.render o.input.text source ++ "\n"⟩, s)) ∧
    (o.assemblyOnly = true → run.1.status = 0 →
      ∃ source assembly a, before = .ok source ∧ o.outputs = .ok (assembly, none) ∧
        (compile source).outcome = .ok a ∧
        (∀ q, fs.place? s assembly = some q → fs.contents run.2 q = some a.text.toUTF8) ∧
        ∀ q, fs.place? s assembly ≠ some q → fs.contents run.2 q = fs.contents s q) := by
  intro before result
  have hread : (host.read o.input).run s = (before, s) := Prod.ext rfl (fs.read_keeps s o.input)
  refine ⟨?_, ?_, ?_, ?_⟩
  · intro reason hr
    rw [hr] at hread
    exact run_of_unreadable hread
  · intro source d hr ho
    rw [hr] at hread
    exact run_of_clash hread ho
  · intro source outputs e hr ho hc
    rw [hr] at hread
    cases e with
    | fault f => exact absurd hc (compile_ne_fault source f)
    | diagnostic d =>
      refine ⟨d, _, rfl, fun hv => ?_, run_of_refused hread ho hc⟩
      rw [hv, logText_zero]
  · intro hS hstatus
    obtain ⟨source, s', a, hr, hc, hw⟩ := exists_written_of_run hS hstatus
    obtain ⟨hsource, rfl⟩ := Prod.mk.inj (hread.symm.trans hr)
    have houtputs : o.outputs = .ok (o.executable.withExtension "s", none) := by
      rw [Options.outputs, if_pos hS]
    exact ⟨source, _, a, hsource, houtputs, hc, fs.write_puts hw⟩

/-- A directory with a program, a text that is none, and an assembly file. -/
def workbench : Files :=
  let file (name contents : String) := ([name.toList], contents.toUTF8)
  ⟨[file "p.bpl" "void main(void) \x7b writeln(); \x7d", file "q.bpl" "int", file "p.s" "old"]⟩

theorem workbench_left : let bench := Files.host fun _ => .ok ()
    (start bench none ["r.bpl"]).run workbench =
      (⟨1, "", "could not access r.bpl: No such file or directory (os error 2)\n"⟩, workbench) ∧
    (start bench none ["p.bpl", "-o", "p.s"]).run workbench =
      (⟨1, "", "executable p.s would overwrite its own assembly file\n"⟩, workbench) ∧
    (∃ d, (start bench none ["q.bpl"]).run workbench =
      (⟨1, "", Diagnostic.render d "q.bpl" "int" ++ "\n"⟩, workbench)) ∧
    ∃ a, (compile "void main(void) \x7b writeln(); \x7d").outcome = .ok a ∧
      ((start bench none ["-S", "p.bpl"]).run workbench).2.contents? ["p.s".toList] =
        some a.text.toUTF8 ∧
      ((start bench none ["-S", "p.bpl"]).run workbench).2.contents? ["q.bpl".toList] =
        some "int".toUTF8 := by
  intro bench
  let fs : FileSystem bench (List Path.Part) := Files.fileSystem _
  have hread : ((bench.read ⟨"p.bpl"⟩).run workbench).1 =
      .ok "void main(void) \x7b writeln(); \x7d" := by decide +kernel
  refine ⟨?_, ?_, ?_, ?_⟩
  · obtain ⟨hunreadable, _⟩ :=
      run_leaves_no_trace fs ⟨⟨"r.bpl"⟩, false, none, "cc", 0⟩ workbench
    exact (start_run rfl).trans
      (hunreadable "No such file or directory (os error 2)" (by decide +kernel))
  · obtain ⟨_, hclash, _⟩ :=
      run_leaves_no_trace fs ⟨⟨"p.bpl"⟩, false, some ⟨"p.s"⟩, "cc", 0⟩ workbench
    exact (start_run rfl).trans (hclash _ (.outputClash "p.s") hread (by decide +kernel))
  · obtain ⟨_, _, hrefused, _⟩ :=
      run_leaves_no_trace fs ⟨⟨"q.bpl"⟩, false, none, "cc", 0⟩ workbench
    have hq : ((bench.read ⟨"q.bpl"⟩).run workbench).1 = .ok "int" := by decide +kernel
    have hfails : (compile "int").outcome.isOk = false := by decide +kernel
    obtain ⟨e, he⟩ : ∃ e, (compile "int").outcome = .error e := by
      cases he : (compile "int").outcome with
      | error e => exact ⟨e, rfl⟩
      | ok a =>
        rw [he] at hfails
        cases hfails
    obtain ⟨d, log, _, hlog, hrun⟩ :=
      hrefused "int" (⟨"q.s"⟩, some ⟨"q"⟩) e hq (by decide +kernel) he
    rw [hlog rfl, String.empty_append] at hrun
    exact ⟨d, (start_run rfl).trans hrun⟩
  · set o : Options := ⟨⟨"p.bpl"⟩, true, none, "cc", 0⟩
    have hstart : (start bench none ["-S", "p.bpl"]).run workbench = (run bench o).run workbench :=
      start_run rfl
    obtain ⟨_, _, _, hassembly⟩ := run_leaves_no_trace fs o workbench
    have hstatus : ((run bench o).run workbench).1.status = 0 := by decide +kernel
    obtain ⟨source, assembly, a, hs, houtputs, hc, hput, hkept⟩ := hassembly rfl hstatus
    obtain rfl : _ = source := Except.ok.inj (hread.symm.trans hs)
    have hplace : fs.place? workbench assembly = some ["p.s".toList] := by
      have hoption : o.outputs = .ok (⟨"p.s"⟩, none) := by decide +kernel
      rw [hoption] at houtputs
      cases houtputs
      decide +kernel
    rw [hstart]
    refine ⟨a, hc, hput _ hplace, (hkept ["q.bpl".toList] ?_).trans (by decide +kernel)⟩
    rw [hplace]
    decide +kernel

end Session

end Bpl
