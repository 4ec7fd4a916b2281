import RegisterCode.Tree.Basic

/-!
Building a source text and the tokens that span into it at the same time, for
trees that are made rather than read.
-/

namespace RegisterCode

/-- The text written so far. -/
structure TextWriter where
  text : String
deriving Repr, Inhabited

namespace TextWriter

def empty : TextWriter := ⟨""⟩

/-- Writes a lexeme, after a blank unless the text is still empty, and hands
out the token that spans it. -/
def token (kind : TokenKind) (lexeme : String) (w : TextWriter) : Token × TextWriter :=
  let before := if w.text.isEmpty then w.text else w.text.push ' '
  let after := before ++ lexeme
  (⟨kind, before.utf8ByteSize, after.utf8ByteSize⟩, ⟨after⟩)

def identifier (name : String) : TextWriter → Token × TextWriter :=
  token .identifier name

/-- Writes the lexeme of a literal and hands out the expression of it. -/
def literal (kind : TokenKind) (lexeme : String) (w : TextWriter) : Expr × TextWriter :=
  let (t, w) := w.token kind lexeme
  (.ofToken t, w)

def int (n : Int) : TextWriter → Expr × TextWriter := literal .int (toString n)

def float (lexeme : String) : TextWriter → Expr × TextWriter := literal .float lexeme

def bool (b : Bool) : TextWriter → Expr × TextWriter :=
  if b then literal .true "true" else literal .false "false"

def name (name : String) : TextWriter → Expr × TextWriter := literal .identifier name

end TextWriter

end RegisterCode
