import RegisterCode.Compile
import RegisterCode.Machine.Procedure
import RegisterCode.Tree.Writer

/-!
The built-in program: a function `main` that defines `x` as `2 + 3 * 4` and
returns zero if that is below twenty, else `x`.
-/

namespace RegisterCode.CommandLine

/-- The tree of the built-in program, its text being written along with it. -/
def demoTree : StateM TextWriter Stmt := do
  let main ← modifyGet (TextWriter.identifier "main")
  let x ← modifyGet (TextWriter.identifier "x")
  let two ← modifyGet (TextWriter.int 2)
  let three ← modifyGet (TextWriter.int 3)
  let four ← modifyGet (TextWriter.int 4)
  let compared ← modifyGet (TextWriter.name "x")
  let twenty ← modifyGet (TextWriter.int 20)
  let zero ← modifyGet (TextWriter.int 0)
  let fallback ← modifyGet (TextWriter.name "x")
  return .function main [] (.block [
    .define x (.mkBinary .add two (.mkBinary .mul three four)),
    .ifThen (.mkBinary .lesser compared twenty) (.block [.ret zero]),
    .ret fallback])

/-- The built-in program, compiled with the standard procedures. -/
def demo : Compiled :=
  let (tree, w) := demoTree.run .empty
  compile .standard #[w.text] [⟨tree, 0⟩]

end RegisterCode.CommandLine
