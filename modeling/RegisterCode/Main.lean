import RegisterCode.CommandLine.Session

/-!
The program itself: reads images and lines as they are needed, and writes what
a run prints and remarks as it goes along.
-/

namespace RegisterCode.CommandLine

/-- The number of a failure, which may come with its sign turned. -/
def failureNumber (code : UInt32) : Nat := min code.toNat (0 - code).toNat

/-- Reads a file, with its failures in the numbering of the platform. -/
def readFile (path : String) : IO (Except ReadFailure (List UInt8)) := do
  try
    return .ok (← IO.FS.readBinFile path).toList
  catch e =>
    match e with
    | .noFileOrDirectory .. => return .error .noSuchFile
    | .permissionDenied .. => return .error .permissionDenied
    | .inappropriateType _ code _ =>
      return .error (if failureNumber code = 20 then .notAFolder else .isAFolder)
    | .invalidArgument _ code _ =>
      let number := failureNumber code
      return .error (if number = 36 then .nameTooLong else ⟨number, "Invalid argument"⟩)
    | e => return .error ⟨5, toString e⟩

/-- Whether the next step reads a line of the input. -/
def wantsLine (s : Setting) (m : Machine) : Bool :=
  m.isRunning && m.input.isEmpty &&
    (m.scene s).request.any fun (name, _) =>
      name = Procedure.promptInt.name || name = Procedure.promptFloat.name

/-- Writes what is new and forgets it. -/
def flush (m : Machine) (kept : Array Note) : IO Machine := do
  IO.eprint (noteText (some .trace) kept)
  IO.print m.output
  (← IO.getStdout).flush
  return { m with output := "" }

/-- The bytes of the next line, its end included. -/
partial def nextLine (line : Array UInt8) : IO (List UInt8) := do
  let bytes ← (← IO.getStdin).read 1
  match bytes.toList with
  | [] => return line.toList
  | b :: _ => if b = 10 then return (line.push b).toList else nextLine (line.push b)

/-- Steps on to the end of the run, with its input and output attached. -/
partial def follow (s : Setting) (threshold : Threshold) (m : Machine) : IO Machine := do
  let line ← if wantsLine s m then nextLine #[] else pure []
  let m := { m with input := m.input ++ line }
  let (more, m, kept) := m.stepNoted s threshold #[]
  let m ← flush m kept
  if more then follow s threshold m else return m

def run (s : Setting) (threshold : Threshold) : IO Machine := do
  let start := Machine.initial s.limits []
  let m ← flush (start.begin s) (Machine.keep threshold #[] (start.beginNotes s))
  let m ← if m.status.isOk then follow s threshold m else pure m
  flush m.judge (Machine.keep threshold #[] m.judgeNotes)

def say (r : Reply) : IO UInt32 := do
  IO.eprint r.err
  IO.print r.out
  return UInt32.ofNat r.code

end RegisterCode.CommandLine

open RegisterCode RegisterCode.CommandLine in
def main (args : List String) : IO UInt32 := do
  let threshold := threshold (← IO.getEnv thresholdVariable)
  match Request.ofArgs args with
  | .work job =>
    let prepared ← prepare readFile job
    match prepared.program with
    | .ok program =>
      if job.listing then say (perform threshold [] job prepared)
      else
        IO.eprint (noteText threshold prepared.notes)
        say (.ofRun (← run (settingOf job program) threshold))
    | .error _ => say (perform threshold [] job prepared)
  | _ => say (respond [] [] threshold args)
