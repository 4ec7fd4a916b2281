import RegisterCode.Code.OfFlow
import RegisterCode.Flow.Condense
import RegisterCode.Flow.OfTree

/-!
The whole way from a forest of declarations to a program: flow graphs,
condensing, code.
-/

namespace RegisterCode

/-- Why a forest has no program. -/
inductive CompileError where
  | rejected (reasons : Array Rejection)
  | noCode (reason : EmissionError)
deriving DecidableEq, Repr

def CompileError.message : CompileError → String
  | rejected reasons => Rejection.summary reasons
  | noCode reason => reason.message

/-- What became of a forest, with the notes made on the way. -/
structure Compiled where
  program : Except CompileError Program
  notes : Array Note

/-- Compiles a forest, condensing it on the way. -/
def compile (procedures : Registry) (sources : Array String) (forest : List SourceUnit) :
    Compiled :=
  let draft := Draft.ofForest procedures sources forest
  match draft.bundle? with
  | .error rs => ⟨.error (.rejected rs), draft.notes⟩
  | .ok bundle =>
    let condensed := bundle.condense
    let emitted := condensed.bundle.emit
    ⟨emitted.result.mapError .noCode,
      draft.notes ++ condensed.notes ++ emitted.notes⟩

end RegisterCode
