/-!
The pieces of a text that spans of bytes name.
-/

namespace RegisterCode.Text

/-- The piece of a text between two byte offsets. There is none when the span
is reversed, leaves the text, or cuts a character apart. -/
def slice? (text : String) (start stop : Nat) : Option String := do
  let first ← text.pos? ⟨start⟩
  let last ← text.pos? ⟨stop⟩
  if start ≤ stop then some (text.extract first last) else none

end RegisterCode.Text
