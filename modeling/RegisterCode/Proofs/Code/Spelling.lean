import Mathlib.Data.List.Forall2
import RegisterCode.Proofs.Code.RoundTrip

/-!
The spellings of an image. A number may be spelled in more bytes than it needs, and an
image has a number at almost every place, so many images hold the same program. Here an
image is taken apart into its pieces (`bodyPieces`): numbers, which have several spellings
(`Spells`), and bytes that have only one. What is written takes for each number the one
spelling that is shortest (`Spells.eq_or_lt`).
-/

namespace RegisterCode

namespace Image

variable {α : Type}

/-! ### Spellings of a number -/

/-- The spellings of a number in at most as many bytes as there is room for. All bytes but the
last have the eighth bit set, and one that takes the last room is bounded. -/
inductive Spells (lastByte : UInt8) : Nat → Nat → List UInt8 → Prop where
  | last {room : Nat} {b : UInt8} (low : b < 128) (fits : room = 0 → b ≤ lastByte) :
      Spells lastByte (room + 1) b.toNat [b]
  | more {room n : Nat} {b : UInt8} {bytes : List UInt8} (high : 128 ≤ b)
      (rest : Spells lastByte room n bytes) :
      Spells lastByte (room + 1) (b.toNat - 128 + 128 * n) (b :: bytes)

theorem writeVarint_of_lt {n : Nat} (h : n < 128) : writeVarint n = [UInt8.ofNat n] := by
  rw [writeVarint, if_pos h]

theorem writeVarint_of_ne_zero {b : UInt8} (high : 128 ≤ b) {n : Nat} (more : n ≠ 0) :
    writeVarint (b.toNat - 128 + 128 * n) = b :: writeVarint n := by
  have least : 128 ≤ b.toNat := UInt8.le_iff_toNat_le.1 high
  have most : b.toNat < 256 := b.toNat_lt
  have first : 128 + (b.toNat - 128 + 128 * n) % 128 = b.toNat := by omega
  have others : (b.toNat - 128 + 128 * n) / 128 = n := by omega
  rw [writeVarint, if_neg (by omega), first, others, UInt8.ofNat_toNat]

namespace Spells

variable {lastByte : UInt8} {room n : Nat} {bytes : List UInt8}

theorem recovers (h : Spells lastByte room n bytes) :
    Recovers (readVarintBytes lastByte room) bytes n := by
  induction h with
  | @last room b low fits =>
      have ends : ¬ (room = 0 ∧ lastByte < b) := fun h => UInt8.not_lt.2 (fits h.1) h.2
      refine (readByte_recovers b).done ?_
      rw [if_pos low, if_neg ends]
      exact .pure _
  | @more room n b bytes high rest ih =>
      have read := ih.map (f := fun n => b.toNat - 128 + 128 * n)
      refine (readByte_recovers b).bind (?_ : Recovers _ bytes _)
      rwa [if_neg (UInt8.not_lt.2 high)]

theorem length_pos (h : Spells lastByte room n bytes) : 0 < bytes.length := by
  cases h <;> exact Nat.succ_pos _

theorem room_pos (h : Spells lastByte room n bytes) : 0 < room := by
  cases h <;> exact Nat.succ_pos _

/-- A number that has a spelling is spelled by what is written for it. -/
theorem written (h : Spells lastByte room n bytes) :
    Spells lastByte room n (writeVarint n) := by
  induction h with
  | @last room b low fits =>
      rw [writeVarint_of_lt (UInt8.lt_iff_toNat_lt.1 low), UInt8.ofNat_toNat]
      exact .last low fits
  | @more room n b bytes high rest ih =>
      by_cases none : n = 0
      · have most : b.toNat < 256 := b.toNat_lt
        have one : b.toNat - 128 + 128 * n < 128 := by omega
        have byte : (UInt8.ofNat (b.toNat - 128 + 128 * n)).toNat = b.toNat - 128 + 128 * n :=
          UInt8.toNat_ofNat_of_lt' (Nat.lt_trans one (by decide))
        have small : UInt8.ofNat (b.toNat - 128 + 128 * n) < 128 := by
          rwa [UInt8.lt_iff_toNat_lt, byte]
        have spells : Spells lastByte (room + 1) _ _ :=
          .last small fun no => absurd no (Nat.ne_of_gt rest.room_pos)
        rw [writeVarint_of_lt one]
        rwa [byte] at spells
      · rw [writeVarint_of_ne_zero high none]
        exact .more high ih

/-- Every other spelling is longer than the one that is written. -/
theorem eq_or_lt (h : Spells lastByte room n bytes) :
    bytes = writeVarint n ∨ (writeVarint n).length < bytes.length := by
  induction h with
  | @last room b low fits =>
      rw [writeVarint_of_lt (UInt8.lt_iff_toNat_lt.1 low), UInt8.ofNat_toNat]
      exact .inl rfl
  | @more room n b bytes high rest ih =>
      by_cases none : n = 0
      · -- The bytes behind the first say nothing.
        have most : b.toNat < 256 := b.toNat_lt
        rw [writeVarint_of_lt (by omega)]
        exact .inr (Nat.succ_lt_succ rest.length_pos)
      · rw [writeVarint_of_ne_zero high none]
        exact ih.imp (congrArg (b :: ·)) Nat.succ_lt_succ

/-- What has a spelling in so many bytes is bounded. -/
theorem short (h : Spells lastByte (room + 1) n bytes) :
    Short lastByte room n := by
  rw [Short]
  induction room generalizing n bytes with
  | zero =>
      cases h with
      | @last _ b low fits =>
          have least : b.toNat ≤ lastByte.toNat := UInt8.le_iff_toNat_le.1 (fits rfl)
          rw [Nat.pow_zero, Nat.one_mul]
          exact Nat.lt_succ_of_le least
      | more high rest => exact absurd rest.room_pos (Nat.lt_irrefl 0)
  | succ room ih =>
      have split : 128 ^ (room + 1) * (lastByte.toNat + 1) =
          128 * (128 ^ room * (lastByte.toNat + 1)) := by
        rw [Nat.pow_succ, Nat.mul_comm (128 ^ room), Nat.mul_assoc]
      have some : 0 < 128 ^ room * (lastByte.toNat + 1) :=
        Nat.mul_pos (Nat.pow_pos (by decide)) (Nat.succ_pos _)
      rw [split]
      cases h with
      | @last _ b low fits =>
          have low : b.toNat < 128 := UInt8.lt_iff_toNat_lt.1 low
          omega
      | @more _ n b bytes high rest =>
          have most : b.toNat < 256 := b.toNat_lt
          have fewer := ih rest
          omega

end Spells

/-! ### Pieces of an image -/

/-- One thing of those that an image is put together from. -/
inductive Piece where
  | number (w : Width) (n : Nat)
  /-- Bytes that have no other spelling. -/
  | fixed (bytes : List UInt8)

namespace Piece

/-- What is written for the piece. -/
def write : Piece → List UInt8
  | number _ n => writeVarint n
  | fixed bytes => bytes

/-- The bytes are read as the piece. -/
def SpelledBy : Piece → List UInt8 → Prop
  | number w n, bytes => Spells w.lastByte w.bytes n bytes
  | fixed bytes', bytes => bytes = bytes'

/-- If the piece is a number, no other spelling of it has fewer bytes. -/
def Briefly : Piece → List UInt8 → Prop
  | number w n, bytes =>
      ∀ other, Spells w.lastByte w.bytes n other → bytes.length ≤ other.length
  | fixed _, _ => True

namespace SpelledBy

variable {x : Piece} {bytes : List UInt8}

theorem eq_or_lt (h : x.SpelledBy bytes) :
    bytes = x.write ∨ x.write.length < bytes.length := by
  cases x with
  | number w n => exact Spells.eq_or_lt h
  | fixed bytes' => exact .inl h

theorem length_le (h : x.SpelledBy bytes) : x.write.length ≤ bytes.length := by
  rcases h.eq_or_lt with rfl | longer
  · exact Nat.le_refl _
  · exact Nat.le_of_lt longer

theorem briefly_iff (h : x.SpelledBy bytes) : x.Briefly bytes ↔ bytes = x.write := by
  cases x with
  | number w n =>
      constructor
      · intro fewest
        exact h.eq_or_lt.resolve_right (Nat.not_lt.2 (fewest _ (Spells.written h)))
      · rintro rfl other spells
        exact SpelledBy.length_le (x := .number w n) spells
  | fixed bytes' => exact ⟨fun _ => h, fun _ => trivial⟩

/-- It is clear where a piece ends. -/
theorem unique (h : x.SpelledBy bytes) {bytes' rest rest' : List UInt8}
    (h' : x.SpelledBy bytes') (same : bytes ++ rest = bytes' ++ rest') :
    bytes = bytes' ∧ rest = rest' := by
  have behind : rest = rest' := by
    cases x with
    | number w n =>
        have read := Spells.recovers h rest
        rw [same, Spells.recovers h' rest'] at read
        cases read
        rfl
    | fixed fix =>
        obtain rfl : bytes = fix := h
        obtain rfl : bytes' = bytes := h'
        exact List.append_cancel_left same
  subst behind
  exact ⟨List.append_cancel_right same, rfl⟩

end SpelledBy

end Piece

/-- Each part spells its piece. -/
abbrev Spelling (pieces : List Piece) (parts : List (List UInt8)) : Prop :=
  List.Forall₂ Piece.SpelledBy pieces parts

namespace Spelling

variable {pieces : List Piece} {parts : List (List UInt8)}

theorem length_le (h : Spelling pieces parts) :
    (pieces.flatMap Piece.write).length ≤ parts.flatten.length := by
  induction h with
  | nil => exact Nat.le_refl _
  | cons first _ ih =>
      rw [List.flatMap_cons, List.flatten_cons, List.length_append, List.length_append]
      exact Nat.add_le_add first.length_le ih

/-- Parts are what is written just when none of them is longer than it needs to be. -/
theorem eq_write_iff (h : Spelling pieces parts) :
    pieces.flatMap Piece.write = parts.flatten ↔ List.Forall₂ Piece.Briefly pieces parts := by
  induction h with
  | nil => exact ⟨fun _ => .nil, fun _ => rfl⟩
  | @cons x part pieces parts first others ih =>
      rw [List.flatMap_cons, List.flatten_cons, List.forall₂_cons, first.briefly_iff, ← ih]
      constructor
      · intro same
        -- A longer part could not be made up for by the others.
        have size : part.length = x.write.length := by
          have lengths := congrArg List.length same
          rw [List.length_append, List.length_append] at lengths
          have least := first.length_le
          have least' := length_le others
          omega
        obtain ⟨same, same'⟩ := List.append_inj same size.symm
        exact ⟨same.symm, same'⟩
      · rintro ⟨rfl, same⟩
        rw [same]

theorem unique (h : Spelling pieces parts) {parts' : List (List UInt8)}
    (h' : Spelling pieces parts') {rest rest' : List UInt8}
    (same : parts.flatten ++ rest = parts'.flatten ++ rest') : parts = parts' ∧ rest = rest' := by
  induction h generalizing parts' with
  | nil =>
      cases h'
      exact ⟨rfl, same⟩
  | cons first _ ih =>
      cases h' with
      | cons first' others' =>
          rw [List.flatten_cons, List.flatten_cons, List.append_assoc, List.append_assoc] at same
          obtain ⟨rfl, behind⟩ := first.unique first' same
          obtain ⟨rfl, rfl⟩ := ih others' behind
          exact ⟨rfl, rfl⟩

end Spelling

/-! ### Programs as pieces -/

def instructionPieces (i : Instruction) : List Piece :=
  [.number width32 i.op.index, .number width16 (zigzag i.args.first.toInt),
    .number width16 (zigzag i.args.second.toInt), .number width16 (zigzag i.args.third.toInt),
    .number width16 i.metadata.toNat]

def valuePieces : Value → List Piece
  | .dud => [.number width32 0]
  | .bool b => [.number width32 1, .fixed (writeFlag b)]
  | .int n => [.number width32 2, .number width32 (zigzag n.toInt)]
  | .float x => [.number width32 3, .fixed (writeBits 8 x.bits.toNat)]
  | .object id => [.number width32 4, .number width32 id.toNat]

def rowPieces (item : α → List Piece) (xs : Array α) : List Piece :=
  .number width64 xs.size :: xs.toList.flatMap item

def entryPieces : Option UInt64 → List Piece
  | none => [.fixed (writeFlag false)]
  | some n => [.fixed (writeFlag true), .number width64 n.toNat]

/-- What stands behind the mark in an image of the program. -/
def bodyPieces (p : Program) : List Piece :=
  rowPieces (rowPieces instructionPieces) p.chunks ++ rowPieces valuePieces p.constants ++
    entryPieces p.entry

theorem rowPieces_write {item : α → List Piece} {write : α → List UInt8}
    (h : ∀ x, (item x).flatMap Piece.write = write x) (xs : Array α) :
    (rowPieces item xs).flatMap Piece.write = writeRow write xs := by
  rw [rowPieces, List.flatMap_cons, List.flatMap_assoc, writeRow]
  simp only [h]
  rfl

theorem bodyPieces_write (p : Program) :
    (bodyPieces p).flatMap Piece.write = writeBody p := by
  have instruction (i : Instruction) :
      (instructionPieces i).flatMap Piece.write = writeInstruction i := by
    simp only [instructionPieces, Piece.write, writeInstruction, writeInt16, List.flatMap_cons,
      List.flatMap_nil, List.append_nil, List.append_assoc]
  have value (v : Value) : (valuePieces v).flatMap Piece.write = writeValue v := by
    cases v <;> simp only [valuePieces, Piece.write, writeValue, List.flatMap_cons,
      List.flatMap_nil, List.append_nil]
  have entry (e : Option UInt64) : (entryPieces e).flatMap Piece.write = writeEntry e := by
    cases e <;> simp only [entryPieces, Piece.write, writeEntry, List.flatMap_cons,
      List.flatMap_nil, List.append_nil]
  rw [bodyPieces, List.flatMap_append, List.flatMap_append, rowPieces_write value,
    rowPieces_write (rowPieces_write instruction), entry, writeBody]

end Image

end RegisterCode
