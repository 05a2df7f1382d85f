import StraightForth.Proofs.Foretelling
import StraightForth.Proofs.Steps

/-!
# What compiling a file shows

Running a file shows every diagnostic and the fatal one last. Compiling it shows the reports of
the listing, or the fatal diagnostic alone. The main statement is the exact condition for both
to show the same: no fatal fault, or none before it.
-/

namespace StraightForth

open Assembly

/-- The lines on the standard error that show some diagnostics. -/
def complaints (reports : List Diagnostic) : String :=
  (Transcript.ofDiagnostics reports).stderr

theorem complaints_eq (reports : List Diagnostic) :
    complaints reports = Text.unlines (reports.map fun report => "?" ++ report.text) := rfl

theorem complaints_singleton (report : Diagnostic) :
    complaints [report] = "?" ++ report.text ++ "\n" := by
  simp [complaints_eq, Text.unlines]

theorem complaints_append (first second : List Diagnostic) :
    complaints (first ++ second) = complaints first ++ complaints second := by
  simp [complaints, Transcript.ofDiagnostics, Text.unlines, String.join_append]

/-- A diagnostic is shown by some text, even by a question mark at least. -/
theorem complaints_ne_empty {reports : List Diagnostic} (h : reports ≠ []) :
    complaints reports ≠ "" := by
  obtain ⟨report, rest, rfl⟩ := List.exists_cons_of_ne_nil h
  simp [complaints, Transcript.ofDiagnostics, Text.unlines, Diagnostic.complaint,
    String.append_eq_empty_iff]

/-- The fatal diagnostic has the last line on the standard error, and the exit code tells of it. -/
theorem Response.finish_eq (transcript : Transcript) (fatal : Option Diagnostic) :
    finish transcript fatal =
      ⟨⟨transcript.stdout, transcript.stderr ++ complaints fatal.toList⟩,
        if fatal.isSome then 1 else 0⟩ := by
  cases fatal with
  | none =>
      have hnone : complaints [] = "" := rfl
      simp [finish, hnone]
  | some fatal => rfl

namespace Session

/-- Only a fatal diagnostic ends a text. -/
theorem isFatal_of_execute {session : Session} {source : String} {report : Diagnostic}
    (h : (session.execute source).2 = some report) : report.isFatal = true :=
  (isFatal_of_takeAll (Prod.ext rfl h)).1

end Session

/-- A path that leads to no directory can be written. -/
theorem Files.write_of_locate {files : Files} {path content : String} {place : Place}
    (hplace : files.locate path = .ok place) (hslash : Path.endsInSlash path = false)
    (hentry : files.entry? place ≠ some .directory) :
    files.write path content = .ok (files.put place (.file content.toUTF8)) := by
  simp [write, hplace, hslash, hentry, bind, Except.bind, pure, Except.pure]

/-- A failure to write leaves the files in memory as they are. -/
theorem Files.write_host (files : Files) (path content : String) :
    host.write path content files =
      match files.write path content with
      | .ok after => (.ok (), after)
      | .error failure => (.error failure, files) := by
  simp only [host, bind, StateT.bind, get, getThe, MonadStateOf.get, StateT.get, pure]
  cases files.write path content <;> rfl

namespace Invocation

/-- What an invocation answers when the files are kept in memory. -/
def respond (invocation : Invocation) (files : Files) : Response :=
  ((invocation.perform Files.host).run files).1

theorem fromUTF8?_toUTF8 (text : String) : String.fromUTF8? text.toUTF8 = some text :=
  dif_pos text.isValidUTF8

section

variable {files : Files} (invocation : Invocation) {source : String}

/-- A run shows the diagnostics in their order and the fatal one last. -/
theorem respond_of_run (readable : files.read invocation.file = .ok source.toUTF8)
    (run : invocation.output = none) :
    let result := (Session.new invocation.options).execute source
    invocation.respond files =
      .finish (Transcript.ofEvents result.1.events.toList) result.2 := by
  have hread : Files.host.read invocation.file files = (.ok source.toUTF8, files) := by
    rw [← readable]
    rfl
  simp only [respond, perform, StateT.run, bind, StateT.bind, hread, sourceOf, fromUTF8?_toUTF8,
    run]
  rfl

/-- A compilation of a file ends at the first thing that fails: reading, compiling, writing. Only
one that gets as far as the writing changes the files. -/
theorem run_emit {output : String} (emit : invocation.output = some output) (files : Files) :
    (invocation.perform Files.host).run files =
      match sourceOf invocation.file (files.read invocation.file) with
      | .error fatal => (.finish ⟨"", ""⟩ (some fatal), files)
      | .ok source =>
          match compile invocation.recover source with
          | .error fatal => (.finish ⟨"", ""⟩ (some fatal), files)
          | .ok listing =>
              match files.write output listing.render with
              | .error failure =>
                  (.finish (Transcript.ofDiagnostics listing.errors)
                    (some (fileDiagnostic .internalError output failure.text)), files)
              | .ok after => (.finish (Transcript.ofDiagnostics listing.errors) none, after) := by
  have hread : Files.host.read invocation.file files = (files.read invocation.file, files) := rfl
  simp only [perform, StateT.run, bind, StateT.bind, hread, pure]
  cases sourceOf invocation.file (files.read invocation.file) with
  | error fatal => rfl
  | ok source =>
      simp only [emit, Invocation.emit]
      cases compile invocation.recover source with
      | error fatal => rfl
      | ok listing =>
          simp only [bind, StateT.bind, Files.write_host]
          cases files.write output listing.render <;> rfl

theorem respond_of_emit {output : String}
    (readable : files.read invocation.file = .ok source.toUTF8)
    (emit : invocation.output = some output)
    (writable : ∀ text, ∃ after, files.write output text = .ok after) :
    invocation.respond files =
      match compile invocation.recover source with
      | .error fatal => .finish ⟨"", ""⟩ (some fatal)
      | .ok listing => .finish (Transcript.ofDiagnostics listing.errors) none := by
  have hsource : sourceOf invocation.file (.ok source.toUTF8) = .ok source := by
    simp only [sourceOf, fromUTF8?_toUTF8]
  simp only [respond, invocation.run_emit emit, readable, hsource]
  cases compile invocation.recover source with
  | error fatal => rfl
  | ok listing =>
      obtain ⟨after, hafter⟩ := writable listing.render
      simp only [hafter]

/-- Reports that stand for the diagnostics of a run and its fatal diagnostic end with that
fatal diagnostic. -/
theorem eq_append_of_foretells {early reports : List Diagnostic} {fatal : Diagnostic}
    (h : List.Forall₂ Diagnostic.Foretells early (reports ++ [fatal]))
    (hfatal : fatal.isFatal = true) :
    ∃ before, early = before ++ [fatal] ∧ before.length = reports.length := by
  have hreverse := List.rel_reverse h
  rw [List.reverse_append, List.reverse_singleton, List.singleton_append] at hreverse
  obtain ⟨last, before, hlast, hbefore, hearly⟩ := List.forall₂_cons_right_iff.1 hreverse
  obtain rfl := hlast.eq_of_isFatal hfatal
  refine ⟨before.reverse, ?_, ?_⟩
  · rw [← List.reverse_reverse early, hearly, List.reverse_cons]
  · simpa using hbefore.length_eq

/-- Compiling a file ends with the exit code of a run. It shows what a run shows, as far as it
can be known before, exactly when no fatal fault ends the program or none came before it. The
reports before a fatal fault are lost. -/
theorem emit_shows_reports_iff {output : String}
    (readable : files.read invocation.file = .ok source.toUTF8)
    (writable : ∀ text, ∃ after, files.write output text = .ok after) :
    let ran := ({ invocation with output := none }).respond files
    let emitted := ({ invocation with output := some output }).respond files
    let result := (Session.new invocation.options).execute source
    let reports := result.1.diagnostics ++ result.2.toList
    emitted.exitCode = ran.exitCode ∧
      ran.transcript.stderr = complaints reports ∧
      ((∃ early, List.Forall₂ Diagnostic.Foretells early reports ∧
          emitted.transcript.stderr = complaints early) ↔
        result.2 = none ∨ result.1.diagnostics = []) ∧
      ∀ fatal, result.2 = some fatal → emitted.transcript.stderr = complaints [fatal] := by
  intro ran emitted result reports
  have hran : ran = .finish (Transcript.ofEvents result.1.events.toList) result.2 :=
    respond_of_run { invocation with output := none } readable rfl
  have hemitted := respond_of_emit { invocation with output := some output } readable rfl
    writable
  rcases compile_cases invocation.options source with ⟨listing, hcompile, hnone, hreports⟩ |
    ⟨fatal, hcompile, hsome⟩
  · replace hnone : result.2 = none := hnone
    replace hemitted : emitted = .finish (Transcript.ofDiagnostics listing.errors) none := by
      simpa only [show compile invocation.recover source = _ from hcompile] using hemitted
    have hall : reports = result.1.diagnostics := by simp [reports, hnone]
    refine ⟨?_, ?_, ?_, ?_⟩
    · rw [hran, hemitted, hnone]
      rfl
    · rw [hran, hall, hnone]
      rfl
    · refine ⟨fun _ => .inl hnone, fun _ => ⟨listing.errors, hall ▸ hreports, ?_⟩⟩
      rw [hemitted]
      rfl
    · intro fatal hsome
      rw [hnone] at hsome
      cases hsome
  · replace hsome : result.2 = some fatal := hsome
    replace hemitted : emitted = .finish ⟨"", ""⟩ (some fatal) := by
      simpa only [show compile invocation.recover source = _ from hcompile] using hemitted
    have hstderr : emitted.transcript.stderr = complaints [fatal] := by
      rw [hemitted]
      exact String.empty_append
    have hfatal := Session.isFatal_of_execute hsome
    have hall : reports = result.1.diagnostics ++ [fatal] := by simp [reports, hsome]
    refine ⟨?_, ?_, ⟨?_, ?_⟩, ?_⟩
    · rw [hran, hemitted, hsome]
      rfl
    · rw [hran, hall, hsome, complaints_append]
      rfl
    · rintro ⟨early, hearly, hshown⟩
      obtain ⟨before, rfl, hlength⟩ := eq_append_of_foretells (hall ▸ hearly) hfatal
      rw [hstderr, complaints_append] at hshown
      have hempty : complaints before = "" := by
        have hlist := congrArg String.toList hshown
        rw [String.toList_append] at hlist
        exact String.toList_eq_nil_iff.1 (List.self_eq_append_left.1 hlist)
      have hbefore : before = [] := by_contra fun hne => complaints_ne_empty hne hempty
      refine .inr (List.length_eq_zero_iff.1 ?_)
      rw [← hlength, hbefore, List.length_nil]
    · rintro (hnone | hnil)
      · rw [hsome] at hnone
        cases hnone
      · refine ⟨[fatal], ?_, hstderr⟩
        rw [hall, hnil]
        exact .cons (Diagnostic.foretells_refl (Diagnostic.not_tellsInteger_of_isFatal hfatal)) .nil
    · intro other hother
      obtain rfl : fatal = other := Option.some.inj (hsome.symm.trans hother)
      exact hstderr

end

/-- Files with one program. -/
def program (source : String) : Files := ⟨[(["p.fs"], .file source.toUTF8)]⟩

theorem program_writable (source text : String) :
    ∃ after, (program source).write "p.s" text = .ok after := by
  have hnames : Path.names "p.s" = ["p.s"] := by decide +kernel
  have hplace : (program source).locate "p.s" = .ok ["p.s"] := by
    simp only [Files.locate]
    rw [hnames]
    rfl
  have hentry : Files.entry? (program source) ["p.s"] = none := rfl
  exact ⟨_, Files.write_of_locate hplace (by decide +kernel) (by simp [hentry])⟩

/-- The integer in the place of a name is reported by both, but only a run tells its value. -/
theorem emit_shows_integer_for_name :
    (program "5 @").read "p.fs" = .ok "5 @".toUTF8 ∧
      (∀ text, ∃ after, (program "5 @").write "p.s" text = .ok after) ∧
      ∃ early,
        List.Forall₂ Diagnostic.Foretells early ((Session.new {}).execute "5 @").1.diagnostics ∧
        (({ file := "p.fs", output := some "p.s" } : Invocation).respond
          (program "5 @")).transcript.stderr = complaints early := by
  have readable : (program "5 @").read "p.fs" = .ok "5 @".toUTF8 := by decide +kernel
  have writable := program_writable "5 @"
  have hnone : ((Session.new {}).execute "5 @").2 = none := by decide +kernel
  refine ⟨readable, writable, ?_⟩
  obtain ⟨early, hearly, hshown⟩ :=
    (emit_shows_reports_iff { file := "p.fs" } readable writable).2.2.1.2
      (.inl hnone)
  have hoptions : ({ file := "p.fs" } : Invocation).options = {} := rfl
  rw [hoptions, hnone] at hearly
  exact ⟨early, by simpa using hearly, hshown⟩

/-- The first fault of the two is shown by a run but not by a compilation. -/
theorem emit_loses_report :
    let files := program "+\nx 1 +"
    let ran := ({ file := "p.fs" } : Invocation).respond files
    let emitted := ({ file := "p.fs", output := some "p.s" } : Invocation).respond files
    ran.transcript.stderr = "?STACK UNDERFLOW IN 1 (0..1)\n" ++
          "?TYPE MISMATCH IN 2 (4..5); expected integer, found x\n" ∧
      emitted.transcript.stderr = "?TYPE MISMATCH IN 2 (4..5); expected integer, found x\n" ∧
      ∀ text, ∃ after, files.write "p.s" text = .ok after :=
  ⟨by decide +kernel, by decide +kernel, program_writable _⟩

end Invocation

end StraightForth
