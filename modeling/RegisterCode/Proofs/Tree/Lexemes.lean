import RegisterCode.Tree.Writer

/-!
The tokens of a text that is being written. A span that names a piece of a text names the same
piece of every longer text that begins with it (`slice?_append`). So a writer that puts lexemes one
behind the other hands out tokens that can be looked up as soon as they are there and ever after
(`placed_tokens`), and that come in the order of their lexemes without sharing a byte.
-/

namespace RegisterCode

namespace Text

variable {text piece : String} {start stop : Nat}

/-- There is a position at an offset when the bytes before it are whole characters. -/
theorem pos?_eq_some_iff {p : text.Pos} :
    text.pos? ⟨start⟩ = some p ↔ p.offset.byteIdx = start := by
  rw [String.pos?, Option.map_eq_some_iff, String.Slice.pos?]
  constructor
  · rintro ⟨q, found, rfl⟩
    split at found
    · cases found
      rfl
    · cases found
  · rintro rfl
    have valid : String.Pos.Raw.isValidForSlice text.toSlice p.offset = true :=
      String.Pos.Raw.isValidForSlice_eq_true_iff.2 p.toSlice.isValidForSlice
    exact ⟨p.toSlice, dif_pos valid, rfl⟩

/-- A span names a piece when the text can be cut at both of its ends, with the piece between. -/
theorem slice?_eq_some_iff :
    slice? text start stop = some piece ↔ ∃ before after, text = before ++ piece ++ after ∧
      start = before.utf8ByteSize ∧ stop = (before ++ piece).utf8ByteSize := by
  constructor
  · intro found
    simp only [slice?, Option.bind_eq_bind, Option.bind_eq_some_iff, Option.ite_none_right_eq_some,
      Option.some.injEq] at found
    obtain ⟨first, atFirst, last, atLast, ordered, rfl⟩ := found
    rw [pos?_eq_some_iff] at atFirst atLast
    have le : first ≤ last := by
      rw [String.Pos.le_iff, String.Pos.Raw.le_iff, atFirst, atLast]
      exact ordered
    obtain ⟨before, after, split, split'⟩ :=
      String.copy_slice_eq_iff_splits.1 ⟨le, (String.extract_eq_copy_slice first last le).symm⟩
    refine ⟨before, after, split'.eq_append, ?_, ?_⟩
    · rw [← atFirst, split.offset_eq_rawEndPos, String.byteIdx_rawEndPos]
    · rw [← atLast, split'.offset_eq_rawEndPos, String.byteIdx_rawEndPos]
  · rintro ⟨before, after, rfl, rfl, rfl⟩
    have split := String.Pos.splits_ofEqAppend (@String.append_assoc before piece after)
    have split' := String.Pos.splits_ofEqAppend (Eq.refl (before ++ piece ++ after))
    obtain ⟨le, copied⟩ := String.copy_slice_eq_iff_splits.2 ⟨before, after, split, split'⟩
    have ordered : before.utf8ByteSize ≤ (before ++ piece).utf8ByteSize := by
      rw [String.utf8ByteSize_append]
      exact Nat.le_add_right _ _
    simp only [slice?, Option.bind_eq_bind, Option.bind_eq_some_iff, Option.ite_none_right_eq_some,
      Option.some.injEq]
    refine ⟨_, pos?_eq_some_iff.2 ?_, _, pos?_eq_some_iff.2 ?_, ordered,
      (String.extract_eq_copy_slice _ _ le).trans copied⟩
    · rw [split.offset_eq_rawEndPos, String.byteIdx_rawEndPos]
    · rw [split'.offset_eq_rawEndPos, String.byteIdx_rawEndPos]

/-- The ends of a span that names a piece are in order and within the text. -/
theorem le_of_slice? (found : slice? text start stop = some piece) :
    start ≤ stop ∧ stop ≤ text.utf8ByteSize := by
  obtain ⟨before, after, rfl, rfl, rfl⟩ := slice?_eq_some_iff.1 found
  simp only [String.utf8ByteSize_append]
  omega

/-- What a span names stays when the text goes on. -/
theorem slice?_append (found : slice? text start stop = some piece) (rest : String) :
    slice? (text ++ rest) start stop = some piece := by
  obtain ⟨before, after, rfl, first, last⟩ := slice?_eq_some_iff.1 found
  exact slice?_eq_some_iff.2 ⟨before, after ++ rest, String.append_assoc, first, last⟩

end Text

/-! ### Tokens in order -/

theorem Token.lexeme_of_slice? {token : Token} {text lexeme : String}
    (named : Text.slice? text token.span.start token.span.stop = some lexeme) :
    token.lexeme text = lexeme := by
  rw [Token.lexeme, Span.text, named, Option.getD_some]

/-- The tokens name lexemes of a text, each of them behind the one before. The first does not start
before a given place. -/
inductive Placed (text : String) : Nat → List Token → List (TokenKind × String) → Prop where
  | nil {place : Nat} : Placed text place [] []
  | cons {place : Nat} {token : Token} {lexeme : String} {tokens : List Token}
      {lexemes : List (TokenKind × String)} (behind : place ≤ token.span.start)
      (named : Text.slice? text token.span.start token.span.stop = some lexeme)
      (others : Placed text token.span.stop tokens lexemes) :
      Placed text place (token :: tokens) ((token.kind, lexeme) :: lexemes)

namespace Placed

variable {text : String} {place : Nat} {tokens : List Token} {lexemes : List (TokenKind × String)}

theorem append (placed : Placed text place tokens lexemes) (rest : String) :
    Placed (text ++ rest) place tokens lexemes := by
  induction placed with
  | nil => exact nil
  | cons behind named _ ih => exact cons behind (Text.slice?_append named rest) ih

/-- All of the tokens can be looked up, and what is found are the lexemes. -/
theorem lexemes_eq (placed : Placed text place tokens lexemes) :
    tokens.map (fun token => (token.kind, token.lexeme text)) = lexemes := by
  induction placed with
  | nil => rfl
  | cons _ named _ ih => rw [List.map_cons, ih, Token.lexeme_of_slice? named]

theorem slice?_eq (placed : Placed text place tokens lexemes) {token : Token}
    (mem : token ∈ tokens) :
    Text.slice? text token.span.start token.span.stop = some (token.lexeme text) := by
  induction placed with
  | nil => cases mem
  | cons _ named _ ih =>
    rcases List.mem_cons.1 mem with rfl | mem
    · rw [Token.lexeme_of_slice? named]
      exact named
    · exact ih mem

theorem le_start (placed : Placed text place tokens lexemes) {token : Token}
    (mem : token ∈ tokens) : place ≤ token.span.start := by
  induction placed with
  | nil => cases mem
  | cons behind named _ ih =>
    rcases List.mem_cons.1 mem with rfl | mem
    · exact behind
    · exact Nat.le_trans (Nat.le_trans behind (Text.le_of_slice? named).1) (ih mem)

/-- No two of the tokens share a byte, and the later one comes behind. -/
theorem pairwise (placed : Placed text place tokens lexemes) :
    tokens.Pairwise fun token next => token.span.stop ≤ next.span.start := by
  induction placed with
  | nil => exact .nil
  | cons _ _ others ih => exact .cons (fun _ => others.le_start) ih

end Placed

/-! ### Writing -/

namespace TextWriter

/-- Writes lexemes one behind the other and hands out their tokens. -/
def tokens : List (TokenKind × String) → TextWriter → List Token × TextWriter
  | [], w => ([], w)
  | (kind, lexeme) :: lexemes, w =>
    let (token, w) := w.token kind lexeme
    let (tokens, w) := w.tokens lexemes
    (token :: tokens, w)

theorem tokens_append (lexemes later : List (TokenKind × String)) (w : TextWriter) :
    w.tokens (lexemes ++ later) =
      ((w.tokens lexemes).1 ++ ((w.tokens lexemes).2.tokens later).1,
        ((w.tokens lexemes).2.tokens later).2) := by
  induction lexemes generalizing w with
  | nil => rfl
  | cons item lexemes ih => simp only [List.cons_append, tokens, ih]

/-- What writing a lexeme does: something goes in between, then the lexeme is put at the end, and
the token spans these last bytes. -/
theorem exists_gap (kind : TokenKind) (lexeme : String) (w : TextWriter) :
    ∃ gap, w.token kind lexeme =
      (⟨kind, (w.text ++ gap).utf8ByteSize, (w.text ++ gap ++ lexeme).utf8ByteSize⟩,
        ⟨w.text ++ gap ++ lexeme⟩) := by
  rw [token]
  split
  · exact ⟨"", by rw [String.append_empty]⟩
  · exact ⟨String.singleton ' ', by rw [String.push_eq_append]⟩

/-- Writing only adds to the text. -/
theorem text_tokens (lexemes : List (TokenKind × String)) (w : TextWriter) :
    ∃ rest, (w.tokens lexemes).2.text = w.text ++ rest := by
  induction lexemes generalizing w with
  | nil => exact ⟨"", String.append_empty.symm⟩
  | cons item lexemes ih =>
    obtain ⟨gap, written⟩ := exists_gap item.1 item.2 w
    obtain ⟨rest, grown⟩ := ih (w.token item.1 item.2).2
    refine ⟨gap ++ item.2 ++ rest, ?_⟩
    rw [tokens, grown, written]
    simp only [String.append_assoc]

/-- The tokens of a run are placed in the text at its end, behind what was there before. The
induction takes the first lexeme off; what the rest of the run adds stands behind it. -/
theorem placed_tokens (lexemes : List (TokenKind × String)) (w : TextWriter) :
    Placed (w.tokens lexemes).2.text w.text.utf8ByteSize (w.tokens lexemes).1 lexemes := by
  induction lexemes generalizing w with
  | nil => exact .nil
  | cons item lexemes ih =>
    obtain ⟨kind, lexeme⟩ := item
    obtain ⟨gap, written⟩ := exists_gap kind lexeme w
    obtain ⟨rest, grown⟩ := text_tokens lexemes (w.token kind lexeme).2
    have others := ih (w.token kind lexeme).2
    rw [tokens]
    rw [written] at grown others ⊢
    refine .cons ?_ ?_ others
    · rw [String.utf8ByteSize_append]
      exact Nat.le_add_right _ _
    · rw [grown]
      exact Text.slice?_eq_some_iff.2 ⟨w.text ++ gap, rest, rfl, rfl, rfl⟩

/-- Whatever lexemes are written, and whatever is written later, the tokens handed out for them are
looked up to just these lexemes, in order, and none is missed in the text. Their spans run forward,
and no two of them overlap. -/
theorem lexemes_of_tokens (lexemes later : List (TokenKind × String)) :
    let handed := (empty.tokens lexemes).1
    let text := (empty.tokens (lexemes ++ later)).2.text
    handed <+: (empty.tokens (lexemes ++ later)).1 ∧
      handed.map (fun token => (token.kind, token.lexeme text)) = lexemes ∧
      (∀ token ∈ handed, token.span.start ≤ token.span.stop ∧
        Text.slice? text token.span.start token.span.stop = some (token.lexeme text)) ∧
      handed.Pairwise fun token next => token.span.stop ≤ next.span.start := by
  intro handed text
  have run := tokens_append lexemes later empty
  obtain ⟨rest, grown⟩ := text_tokens later (empty.tokens lexemes).2
  have placed : Placed text 0 handed lexemes := by
    have longer : text = (empty.tokens lexemes).2.text ++ rest :=
      (congrArg (·.2.text) run).trans grown
    rw [longer]
    exact (placed_tokens lexemes empty).append rest
  refine ⟨?_, placed.lexemes_eq, fun token mem => ?_, placed.pairwise⟩
  · rw [run]
    exact List.prefix_append _ _
  · exact ⟨(Text.le_of_slice? (placed.slice?_eq mem)).1, placed.slice?_eq mem⟩

/-- No blank is written before the first byte. -/
example : (empty.tokens [(.identifier, ""), (.identifier, "é"), (.int, "2")]).1.map Token.span =
    [⟨0, 0⟩, ⟨0, 2⟩, ⟨3, 4⟩] := by decide

end TextWriter

end RegisterCode
