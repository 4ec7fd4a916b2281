import RegisterCode.Machine.Basic
import RegisterCode.Text.Integer

/-!
The words of the command line, which are the name of the program and its
arguments. Four flags are followed by a number each, and the first occurrence
of such a flag among the words counts. The first argument that is neither a
flag nor stands behind one of these four is the image to run.
-/

namespace RegisterCode.CommandLine

/-- The flags that are followed by a number. -/
def valueFlags : List String := ["--registers", "--stack", "--depth", "--steps"]

/-- Where the number of a flag stands. -/
def numberIndex? (words : List String) (flag : String) : Option Nat :=
  (words.idxOf? flag).map (· + 1)

/-- A flag without the number it needs. -/
inductive FlagError where
  | missing (flag : String)
  | notANumber (flag raw : String)
deriving DecidableEq, Repr

def FlagError.message : FlagError → String
  | missing flag => s!"{flag} expects a number"
  | notANumber flag raw => s!"{flag} expects a number, got '{raw}'"

/-- The number that a flag is followed by, if the flag is there. -/
def number? (words : List String) (flag : String) : Except FlagError (Option Nat) :=
  match numberIndex? words flag with
  | none => .ok none
  | some index =>
    match words[index]? with
    | none => .error (.missing flag)
    | some raw =>
      match Text.readWord? raw with
      | some n => .ok (some n)
      | none => .error (.notANumber flag raw)

/-- The bounds of the run that the flags ask for. -/
def limits (words : List String) : Except FlagError Limits := do
  let registers ← number? words "--registers"
  let operands ← number? words "--stack"
  let depth ← number? words "--depth"
  let steps ← number? words "--steps"
  let standard := Limits.standard
  return ⟨registers.getD standard.registers, operands.getD standard.operands,
    depth.getD standard.depth, steps⟩

/-- Where the image stands among the arguments. -/
def imageIndex? : List String → Option Nat
  | [] => none
  | [arg] => if arg ∈ valueFlags ∨ arg.startsWith "-" then none else some 0
  | arg :: next :: rest =>
    if arg ∈ valueFlags then (imageIndex? rest).map (· + 2)
    else if arg.startsWith "-" then (imageIndex? (next :: rest)).map (· + 1)
    else some 0

/-- Where the image stands among the words. The name of the program is passed
over. -/
def imagePlace? (words : List String) : Option Nat :=
  (imageIndex? words.tail).map (· + 1)

def image? (words : List String) : Option String :=
  (imagePlace? words).bind (words[·]?)

/-- What a program is to be made of and what is to be done with it. -/
structure Job where
  /-- Show the listing instead of running. -/
  listing : Bool
  limits : Limits
  /-- The image to read; without one the built-in program is taken. -/
  image : Option String
deriving Repr

/-- What the words ask for. -/
inductive Request where
  | help
  | refused (reason : FlagError)
  | work (job : Job)
deriving Repr

def Request.ofWords (words : List String) : Request :=
  if "--help" ∈ words ∨ "-h" ∈ words then .help
  else
    match limits words with
    | .error reason => .refused reason
    | .ok limits => .work ⟨"--dump" ∈ words, limits, image? words⟩

/-- What the arguments ask for when the program is started under its own name. -/
def Request.ofArgs (args : List String) : Request := ofWords ("minuet" :: args)

end RegisterCode.CommandLine
