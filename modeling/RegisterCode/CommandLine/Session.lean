import RegisterCode.Code.Image
import RegisterCode.CommandLine.Demo
import RegisterCode.CommandLine.Folder
import RegisterCode.CommandLine.Options
import RegisterCode.Machine.Run

/-!
A session of the command line: from the arguments, the files at hand, the input
and the chosen threshold to what is written and the exit code.
-/

namespace RegisterCode.CommandLine

/-- What a session writes to its two outputs, and its exit code. -/
structure Reply where
  code : Nat
  out : String
  err : String
deriving DecidableEq, Repr

/-- The lines of the help text. -/
def usageLines : List String := [
  "MINUET - register bytecode compiler core and VM",
  "",
  "Usage:",
  "  minuet                     Compile and run the built-in demo",
  "  minuet <image.mnb>         Run a bytecode image",
  "  minuet --dump [image.mnb]  Print the instruction listing",
  "  --registers N              Register file size",
  "  --stack N                  Operand stack size",
  "  --depth N                  Maximum call depth",
  "  --steps N                  Stop after N instructions",
  "  --help, -h                 Show this help",
  "",
  "Set MINUET_LOG=trace|debug|info|warn|error for diagnostics."]

def usage : String := usageLines.foldl (fun s line => s ++ line ++ "\n") ""

/-- The variable of the environment that names the threshold of the notes. -/
def thresholdVariable : String := "MINUET_LOG"

/-- Warnings are shown unless another threshold is named. -/
def threshold (name : Option String) : Threshold :=
  (name.bind Threshold.ofName?).getD (some .warn)

/-- The notes a reader with this threshold sees, a line each. -/
def noteText (threshold : Threshold) (notes : Array Note) : String :=
  (shownLines threshold notes).foldl (fun s line => s ++ line ++ "\n") ""

/-- Why a session has no program to show or to run. -/
inductive SessionError where
  /-- A path without the extension of images. -/
  | notAnImage (path : String)
  | unreadable (path : String) (f : ReadFailure)
  | badImage (e : ImageError)
  | notCompiled (e : CompileError)
deriving DecidableEq, Repr

def SessionError.message : SessionError → String
  | notAnImage path => s!"Error: expected a .mnb image, got {path}"
  | unreadable path f => s!"Failed to read '{path}': {f.message}"
  | badImage e => e.message
  | notCompiled e => e.message

/-- The program of a session, with the notes of its making. -/
structure Prepared where
  program : Except SessionError Program
  notes : Array Note

/-- The program in an image that was found at a path. -/
def ofImage (path : String) (content : Except ReadFailure (List UInt8)) :
    Except SessionError Program :=
  match content with
  | .error f => .error (.unreadable path f)
  | .ok bytes => (Program.ofBytes bytes).mapError .badImage

/-- The program a job is about. Only paths with the extension of images are
looked up. -/
def prepare {m : Type → Type} [Monad m]
    (read : String → m (Except ReadFailure (List UInt8))) (job : Job) : m Prepared := do
  match job.image with
  | none => return ⟨demo.program.mapError .notCompiled, demo.notes⟩
  | some path =>
    if extension? path = some "mnb" then return ⟨ofImage path (← read path), #[]⟩
    else return ⟨.error (.notAnImage path), #[]⟩

/-- The last lines of a run: the result, and the status unless all is well. -/
def Reply.ofRun (m : Machine) : Reply where
  code := m.status.code.toNatClampNeg
  out :=
    match m.register? 0 with
    | some v => s!"main returned {v.text}\n"
    | none => ""
  err := if m.status.isOk then "" else s!"Run failed: {m.status.text}\n"

/-- The reply when there is nothing to run. -/
def Reply.refusal (reason : String) : Reply := ⟨1, "", reason ++ "\n"⟩

/-- Puts what was written before in front. -/
def Reply.after (out err : String) (r : Reply) : Reply := ⟨r.code, out ++ r.out, err ++ r.err⟩

def settingOf (job : Job) (program : Program) : Setting :=
  ⟨job.limits, program, Procedure.standard⟩

/-- Does a job, once its program is at hand. -/
def perform (threshold : Threshold) (input : List UInt8) (job : Job) (prepared : Prepared) :
    Reply :=
  let notes := noteText threshold prepared.notes
  match prepared.program with
  | .error e => (Reply.refusal e.message).after "" notes
  | .ok program =>
    if job.listing then ⟨0, program.text, notes⟩
    else
      let (m, kept) :=
        (Machine.initial job.limits input).runNoted (settingOf job program) threshold #[]
      (Reply.ofRun m).after m.output (notes ++ noteText threshold kept)

/-- The whole session. -/
def respond (folder : Folder) (input : List UInt8) (threshold : Threshold)
    (args : List String) : Reply :=
  match Request.ofArgs args with
  | .help => ⟨0, usage, ""⟩
  | .refused e => .refusal s!"Error: {e.message}"
  | .work job =>
    perform threshold input job (Id.run (prepare (fun path => return folder.read path) job))

end RegisterCode.CommandLine
