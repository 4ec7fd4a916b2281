/-!
Notes that the compiler and the machine make about their own work. A note is a
level and a text; a reader chooses a threshold and sees the notes at or above
it. Notes never influence a result, so they are kept apart from the values the
stages compute.
-/

namespace RegisterCode

/-- How urgent a note is, from most to least. -/
inductive Level where
  | error
  | warn
  | info
  | debug
  | trace
deriving DecidableEq, Repr

/-- Position of a level in the order of urgency. -/
def Level.rank : Level → Nat
  | .error => 1
  | .warn => 2
  | .info => 3
  | .debug => 4
  | .trace => 5

def Level.name : Level → String
  | .error => "ERROR"
  | .warn => "WARN"
  | .info => "INFO"
  | .debug => "DEBUG"
  | .trace => "TRACE"

def Level.all : List Level := [.error, .warn, .info, .debug, .trace]

/-- The levels a reader wants to see: none of them, or all up to a rank. -/
abbrev Threshold := Option Level

/-- A threshold is written as a level's name or `off`, in any letter case. -/
def Threshold.ofName? (name : String) : Option Threshold :=
  let upper := name.map Char.toUpper
  if upper = "OFF" then some none
  else (Level.all.find? fun level => level.name = upper).map some

/-- One remark with its urgency. -/
structure Note where
  level : Level
  text : String
deriving DecidableEq, Repr

/-- The line a note is shown as. -/
def Note.line (note : Note) : String :=
  s!"[{note.level.name}] {note.text}"

/-- Whether a reader with this threshold sees the note. -/
def Note.shownAt (note : Note) : Threshold → Bool
  | none => false
  | some level => note.level.rank ≤ level.rank

/-- The lines a reader with this threshold sees, in order. -/
def shownLines (threshold : Threshold) (notes : Array Note) : Array String :=
  (notes.filter (·.shownAt threshold)).map Note.line

end RegisterCode
