import RegisterCode.Journal
import RegisterCode.Machine.Dispatch

/-!
Runs of the machine: entering the entry function, single steps, and steps until
the run is over. Beside each of them stand the notes that the machine makes of
it, which are read off what happened and change nothing.
-/

namespace RegisterCode

namespace Machine

/-- Forgets the run before, but not which function it was in, nor the input and
the output. -/
def cleared (limits : Limits) (m : Machine) : Machine :=
  { initial limits m.input with func := m.func, output := m.output }

/-- Enters the entry function, which gets a frame like any other. -/
def enter (limits : Limits) (func : Nat) : Action Unit := do
  modify fun m => { m with func := func }
  saveSpecials limits
  modify fun m => { m with frames := m.frames.push ⟨func, 0, 0, 0⟩ }

/-- Starts a run from the beginning. -/
def begin (s : Setting) (m : Machine) : Machine :=
  let m := m.cleared s.limits
  match s.program.entry? with
  | none => { m with status := .entryError }
  | some func =>
    match enter s.limits func m with
    | .ok _ m => m
    | .error fault m => { m with status := fault.status }

/-- What became of a step. -/
inductive Outcome where
  /-- The run was over already. -/
  | ended (m : Machine)
  /-- The number of steps allowed was used up. -/
  | exhausted (limit : Nat) (m : Machine)
  | done (m : Machine)
  | failed (fault : Fault) (m : Machine)

/-- The limit on steps, once it is reached. -/
def reachedLimit? (limits : Limits) (m : Machine) : Option Nat :=
  limits.steps.filter (· ≤ m.steps)

/-- Executes one instruction, if the run is not over and its limit allows. -/
def attempt (s : Setting) (m : Machine) : Outcome :=
  if m.isRunning then
    match m.reachedLimit? s.limits with
    | some limit => .exhausted limit m
    | none =>
      let instruction := s.program.fetch? m.func m.place
      let m := { m with steps := m.steps + 1 }
      match (need .endOfCode instruction >>= dispatch s) m with
      | .ok _ m => .done m
      | .error fault m => .failed fault m
  else .ended m

/-- The machine after a step, and whether the run goes on. -/
def Outcome.settle : Outcome → Bool × Machine
  | ended m => (false, m)
  | exhausted _ m => (false, { m with status := .anyError })
  | done m => (m.isRunning, m)
  | failed fault m => (false, { m with status := fault.status })

def step (s : Setting) (m : Machine) : Bool × Machine := (m.attempt s).settle

/-- Takes up to `n` steps, as long as the run goes on. -/
def follow (s : Setting) : Nat → Machine → Machine
  | 0, m => m
  | n + 1, m =>
    match m.step s with
    | (true, m) => follow s n m
    | (false, m) => m

/-- Runs the entry function to its end. -/
def execute (s : Setting) (m : Machine) : Machine :=
  let m := m.begin s
  if m.status.isOk then m.follow s (s.limits.horizon) else m

/-- A clean run counts as one only if the entry function returned zero. -/
def judge (m : Machine) : Machine :=
  if m.status.isOk && m.register? 0 ≠ some (.int 0) then { m with status := .userError } else m

/-- Runs the entry function to its end and judges what it returned. -/
def run (s : Setting) (m : Machine) : Machine := (m.execute s).judge

/-! ### Notes -/

/-- What a fault gives cause to remark, apart from the end of the run. -/
def faultNotes (limits : Limits) (m : Machine) : Fault → List Note
  | .callDepthLimit => [⟨.error, s!"call depth limit exceeded ({limits.depth})"⟩]
  | .operandStackLimit => [⟨.error, s!"operand stack limit exceeded ({limits.operands})"⟩]
  | .storeFull => m.store.refusalNotes
  | _ => []

def beginNotes (s : Setting) (m : Machine) : List Note :=
  match s.program.entry? with
  | none =>
    let entry := match s.program.entry with
      | none => "None"
      | some id => s!"Some({id})"
    [⟨.error, s!"no runnable entry function (entry id {entry})"⟩]
  | some func =>
    match enter s.limits func (m.cleared s.limits) with
    | .ok _ _ => []
    | .error fault m => faultNotes s.limits m fault

/-- What the notes of a step need to know of the machine before it. -/
structure Scene where
  func : Nat
  place : Nat
  base : Nat
  instruction : Option Instruction
  /-- The name of the procedure about to be called, and its argument count. -/
  request : Option (String × UInt16)

def scene (s : Setting) (m : Machine) : Scene :=
  let instruction := s.program.fetch? m.func m.place
  let request := match instruction with
    | some i =>
      match i.op with
      | .nativeCall =>
        match requested s i m with
        | .ok (procedure, argc) _ => some (procedure.name, argc)
        | .error _ _ => none
      | _ => none
    | none => none
  ⟨m.func, m.place, m.base, instruction, request⟩

/-- The instruction that is about to be executed. -/
def Scene.instructionNotes (scene : Scene) : List Note :=
  match scene.instruction with
  | some i => [⟨.trace, s!"{scene.func}:{Text.zeroPadded 4 scene.place} {i.text}"⟩]
  | none => []

def Scene.requestNotes (scene : Scene) : List Note :=
  match scene.request with
  | some (name, argc) => [⟨.debug, s!"native {name} with {argc} arg(s)"⟩]
  | none => []

/-- A call or a return that succeeded. -/
def Scene.frameNotes (scene : Scene) (m : Machine) : List Note :=
  match scene.instruction.map Instruction.op with
  | some .call =>
    [⟨.debug, s!"call #{m.func} with {m.top - m.base} arg(s), depth {m.depth}"⟩]
  | some .ret =>
    let v := (m.register? scene.base).getD .dud
    [⟨.debug, s!"ret {v.text} from #{scene.func} to #{m.func}"⟩]
  | _ => []

/-- The notes of a step that began in the given scene. -/
def stepNotes (limits : Limits) (scene : Scene) : Outcome → List Note
  | .ended _ => []
  | .exhausted limit _ => [⟨.error, s!"execution step limit exceeded ({limit})"⟩]
  | .done m => scene.instructionNotes ++ scene.requestNotes ++ scene.frameNotes m
  | .failed fault m =>
    let ending : Note :=
      ⟨.error, s!"{fault.status.text} at function #{scene.func} ip {scene.place}"⟩
    scene.instructionNotes ++ scene.requestNotes ++ faultNotes limits m fault ++ [ending]

/-- Adds the notes that a reader with this threshold sees. -/
def keep (threshold : Threshold) (kept : Array Note) (notes : List Note) : Array Note :=
  notes.foldl (fun kept note => if note.shownAt threshold then kept.push note else kept) kept

/-- A step, with the notes kept so far and those of the step. -/
def stepNoted (s : Setting) (threshold : Threshold) (m : Machine) (kept : Array Note) :
    Bool × Machine × Array Note :=
  let scene := m.scene s
  let outcome := m.attempt s
  let kept := keep threshold kept (stepNotes s.limits scene outcome)
  let (more, m) := outcome.settle
  (more, m, kept)

/-- Takes up to `n` steps and keeps their notes. -/
def followNoted (s : Setting) (threshold : Threshold) :
    Nat → Machine → Array Note → Machine × Array Note
  | 0, m, kept => (m, kept)
  | n + 1, m, kept =>
    match m.stepNoted s threshold kept with
    | (true, m, kept) => followNoted s threshold n m kept
    | (false, m, kept) => (m, kept)

/-- Keeping notes does not change what happens. -/
theorem followNoted_fst (s : Setting) (threshold : Threshold) (n : Nat) (m : Machine)
    (kept : Array Note) : (m.followNoted s threshold n kept).1 = m.follow s n := by
  induction n generalizing m kept with
  | zero => rfl
  | succ n ih =>
    simp only [followNoted, follow, stepNoted, step]
    rcases (m.attempt s).settle with ⟨more, m'⟩
    cases more
    · rfl
    · exact ih m' _

def executeNoted (s : Setting) (threshold : Threshold) (m : Machine) (kept : Array Note) :
    Machine × Array Note :=
  let kept := keep threshold kept (m.beginNotes s)
  let m := m.begin s
  if m.status.isOk then m.followNoted s threshold (s.limits.horizon) kept else (m, kept)

def judgeNotes (m : Machine) : List Note :=
  if m.status.isOk && m.register? 0 ≠ some (.int 0) then
    [⟨.warn, s!"entry function returned {((m.register? 0).getD .dud).text}"⟩]
  else []

def runNoted (s : Setting) (threshold : Threshold) (m : Machine) (kept : Array Note) :
    Machine × Array Note :=
  let (m, kept) := m.executeNoted s threshold kept
  (m.judge, keep threshold kept m.judgeNotes)

end Machine

end RegisterCode
