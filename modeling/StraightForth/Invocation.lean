import StraightForth.Assembly.Compile
import StraightForth.Files
import StraightForth.Session

/-!
# Running a file

A program file is either run, with prints on the standard output and diagnostics on the standard
error, or compiled to a listing. The listing is written only when it is complete, so a fatal
fault leaves the output file as it was.
-/

namespace StraightForth

/-- The line on the standard error that shows a diagnostic. -/
def Diagnostic.complaint (d : Diagnostic) : String := "?" ++ d.text

/-- The text of a print. -/
def Event.printed? : Event → Option String
  | .print text => some text
  | .diagnostic _ => none

/-- The report of a diagnostic. -/
def Event.report? : Event → Option Diagnostic
  | .print _ => none
  | .diagnostic report => some report

/-- What a run writes on the two standard streams. -/
structure Transcript where
  stdout : String
  stderr : String
deriving DecidableEq

namespace Transcript

/-- The lines that show diagnostics, and nothing on the standard output. -/
def ofDiagnostics (reports : List Diagnostic) : Transcript :=
  ⟨"", Text.unlines (reports.map Diagnostic.complaint)⟩

/-- Each event on its stream. -/
def ofEvents (events : List Event) : Transcript :=
  ⟨String.join (events.filterMap Event.printed?),
    (ofDiagnostics (events.filterMap Event.report?)).stderr⟩

/-- A transcript with one more diagnostic at its end. -/
def complain (transcript : Transcript) (report : Diagnostic) : Transcript :=
  ⟨transcript.stdout, transcript.stderr ++ (ofDiagnostics [report]).stderr⟩

end Transcript

/-- What the caller of the program sees of it. -/
structure Response where
  transcript : Transcript
  exitCode : UInt32
deriving DecidableEq

/-- The response of a program that shows its fatal diagnostic last, if there is one. -/
def Response.finish (transcript : Transcript) : Option Diagnostic → Response
  | none => ⟨transcript, 0⟩
  | some fatal => ⟨transcript.complain fatal, 1⟩

/-- Run a text in a new session. -/
def interpret (options : Options) (source : String) : Transcript × Option Diagnostic :=
  let run := (Session.new options).execute source
  (Transcript.ofEvents run.1.events.toList, run.2)

/-- What the program is asked to do. -/
structure Invocation where
  /-- The program file. -/
  file : String
  /-- Where the listing goes. Without it the file is run. -/
  output : Option String := none
  /-- Treat fatal faults like any others. -/
  recover : Bool := false
  /-- Start every text afresh, which a single file does anyway. -/
  fresh : Bool := false
deriving DecidableEq

namespace Invocation

/-- The options of the session that an invocation starts. -/
def options (invocation : Invocation) : Options :=
  { recover := invocation.recover, persist := !invocation.fresh }

/-- A diagnostic about the file at a path. -/
def fileDiagnostic (kind : DiagnosticKind) (path reason : String) : Diagnostic :=
  (Diagnostic.ofKind kind).withMessage (path ++ ": " ++ reason)

/-- The diagnostic of a program file that cannot be read. -/
def readFailure (path : String) (failure : AccessFailure) : Diagnostic :=
  fileDiagnostic (if failure = .missing then .fileNotFound else .internalError) path failure.text

/-- The text of a program file, which has to be valid UTF-8. -/
def sourceOf (path : String) (found : Except AccessFailure ByteArray) :
    Except Diagnostic String :=
  match found with
  | .error failure => .error (readFailure path failure)
  | .ok content =>
      match String.fromUTF8? content with
      | some source => .ok source
      | none =>
          .error (fileDiagnostic .internalError path "stream did not contain valid UTF-8")

/-- Compile a text and write its listing. The faults in it are shown before the writing. -/
def emit {m : Type → Type} [Monad m] (host : Host m) (recover : Bool) (output source : String) :
    m Response := do
  match Assembly.compile recover source with
  | .error fatal => return .finish ⟨"", ""⟩ fatal
  | .ok listing =>
      let shown := Transcript.ofDiagnostics listing.errors
      match ← host.write output listing.render with
      | .ok () => return .finish shown none
      | .error failure =>
          return .finish shown (fileDiagnostic .internalError output failure.text)

/-- Do what is asked. -/
def perform {m : Type → Type} [Monad m] (host : Host m) (invocation : Invocation) :
    m Response := do
  match sourceOf invocation.file (← host.read invocation.file) with
  | .error fatal => return .finish ⟨"", ""⟩ fatal
  | .ok source =>
      match invocation.output with
      | some output => emit host invocation.recover output source
      | none =>
          let (transcript, fatal) := interpret invocation.options source
          return .finish transcript fatal

/-- Read arguments, given the program file and the output file that came before them. Only the
program file has no option in front of it, and each file is named once. -/
def collect (file output : Option String) (recover fresh : Bool) :
    List String → Option Invocation
  | [] => file.map fun path => ⟨path, output, recover, fresh⟩
  | "--recover" :: rest => collect file output true fresh rest
  | "--fresh" :: rest => collect file output recover true rest
  | "--log-level" :: _ :: rest => collect file output recover fresh rest
  | "--emit-asm" :: path :: rest =>
      if output.isSome then none else collect file (some path) recover fresh rest
  | path :: rest =>
      if file.isSome || path.startsWith "-" then none
      else collect (some path) output recover fresh rest

/-- Read the arguments of the command line. A log level is accepted, but nothing is logged. -/
def ofArguments? (arguments : List String) : Option Invocation :=
  collect none none false false arguments

end Invocation

end StraightForth
