import Mathlib.Data.List.Nodup
import RegisterCode.Proofs.Code.Spelling

/-!
Images that are read and written again. Whatever is read as a program spells the pieces of
that program (`readBody_sound`), so writing the program gives an image that holds the same
and is no longer, and that another reading and writing leaves as it is
(`rewritten_of_ofBytes`).
-/

namespace RegisterCode

namespace Image

variable {α β : Type}

/-! ### What is read -/

/-- The bytes begin with a spelling of the pieces, and this is what stands behind it. -/
def Spelled (pieces : List Piece) (bytes rest : List UInt8) : Prop :=
  ∃ parts, Spelling pieces parts ∧ bytes = parts.flatten ++ rest

namespace Spelled

theorem nil (rest : List UInt8) : Spelled [] rest rest := ⟨[], .nil, rfl⟩

theorem append {pieces pieces' : List Piece} {bytes mid rest : List UInt8}
    (h : Spelled pieces bytes mid) (h' : Spelled pieces' mid rest) :
    Spelled (pieces ++ pieces') bytes rest := by
  obtain ⟨parts, spelling, rfl⟩ := h
  obtain ⟨parts', spelling', rfl⟩ := h'
  refine ⟨parts ++ parts', List.rel_append spelling spelling', ?_⟩
  rw [List.flatten_append, List.append_assoc]

theorem one {x : Piece} {bytes : List UInt8} (h : x.SpelledBy bytes) (rest : List UInt8) :
    Spelled [x] (bytes ++ rest) rest :=
  ⟨[bytes], .cons h .nil, by rw [List.flatten_singleton]⟩

end Spelled

section Read

variable {read : Reader α} {bytes rest : List UInt8}

theorem ok_of_bind {k : α → Reader β} {y : β} (h : (read >>= k) bytes = .ok (y, rest)) :
    ∃ x mid, read bytes = .ok (x, mid) ∧ k x mid = .ok (y, rest) := by
  have apply : (read >>= k) bytes = (read bytes).bind fun (x, rest) => k x rest := rfl
  rw [apply] at h
  cases first : read bytes with
  | ok p => exact ⟨p.1, p.2, rfl, by rwa [first] at h⟩
  | error d =>
      rw [first] at h
      cases h

theorem ok_of_pure {x y : α} (h : (pure x : Reader α) bytes = .ok (y, rest)) :
    x = y ∧ bytes = rest := by
  cases h
  exact ⟨rfl, rfl⟩

end Read

theorem readByte_sound {bytes rest : List UInt8} {b : UInt8}
    (h : readByte bytes = .ok (b, rest)) : bytes = b :: rest := by
  cases bytes with
  | nil => cases h
  | cons b' bytes =>
      cases h
      rfl

theorem readVarintBytes_sound {lastByte : UInt8} {room n : Nat} {bytes rest : List UInt8}
    (h : readVarintBytes lastByte room bytes = .ok (n, rest)) :
    ∃ used, Spells lastByte room n used ∧ bytes = used ++ rest := by
  induction room generalizing n bytes with
  | zero => cases h
  | succ room ih =>
      obtain ⟨b, mid, first, more⟩ := ok_of_bind h
      obtain rfl := readByte_sound first
      by_cases low : b < 128
      · rw [if_pos low] at more
        by_cases ends : room = 0 ∧ lastByte < b
        · rw [if_pos ends] at more
          cases more
        · rw [if_neg ends] at more
          obtain ⟨rfl, rfl⟩ := ok_of_pure more
          exact ⟨[b], .last low fun no => UInt8.not_lt.1 fun above => ends ⟨no, above⟩, rfl⟩
      · rw [if_neg low] at more
        obtain ⟨v, mid', second, done⟩ := ok_of_bind more
        obtain ⟨rfl, rfl⟩ := ok_of_pure done
        obtain ⟨used, spells, rfl⟩ := ih second
        exact ⟨b :: used, .more (UInt8.not_lt.1 low) spells, rfl⟩

theorem readVarint_sound {w : Width} {n : Nat} {bytes rest : List UInt8}
    (h : readVarint w bytes = .ok (n, rest)) : Spelled [.number w n] bytes rest := by
  obtain ⟨used, spells, rfl⟩ := readVarintBytes_sound h
  exact .one (x := .number w n) spells rest

/-- A number that was read is below a bound. -/
theorem readVarint_short {w : Width} {room n : Nat} {bytes rest : List UInt8}
    (h : readVarint w bytes = .ok (n, rest)) (size : w.bytes = room + 1) :
    Short w.lastByte room n := by
  obtain ⟨used, spells, -⟩ := readVarintBytes_sound h
  rw [size] at spells
  exact spells.short

theorem readVarint16_lt {n : Nat} {bytes rest : List UInt8}
    (h : readVarint width16 bytes = .ok (n, rest)) : n < UInt16.size :=
  readVarint_short h rfl

theorem readVarint32_lt {n : Nat} {bytes rest : List UInt8}
    (h : readVarint width32 bytes = .ok (n, rest)) : n < UInt32.size :=
  readVarint_short h rfl

theorem readVarint64_lt {n : Nat} {bytes rest : List UInt8}
    (h : readVarint width64 bytes = .ok (n, rest)) : n < UInt64.size :=
  readVarint_short h rfl

theorem zigzag_unzigzag (n : Nat) : zigzag (unzigzag n) = n := by
  unfold zigzag unzigzag
  split <;> split <;> omega

theorem unzigzag_bounds {n bound : Nat} (h : n < 2 * bound) :
    -(bound : Int) ≤ unzigzag n ∧ unzigzag n < bound := by
  unfold unzigzag
  split <;> omega

theorem readInt16_sound {n : Int16} {bytes rest : List UInt8}
    (h : readInt16 bytes = .ok (n, rest)) :
    Spelled [.number width16 (zigzag n.toInt)] bytes rest := by
  obtain ⟨v, mid, first, done⟩ := ok_of_bind h
  obtain ⟨rfl, rfl⟩ := ok_of_pure done
  have bounds : -2 ^ 15 ≤ unzigzag v ∧ unzigzag v < 2 ^ 15 :=
    unzigzag_bounds (readVarint16_lt first)
  rw [Int16.toInt_ofInt_of_le bounds.1 bounds.2, zigzag_unzigzag]
  exact readVarint_sound first

theorem readOpcode_sound {op : Opcode} {bytes rest : List UInt8}
    (h : readOpcode bytes = .ok (op, rest)) : Spelled [.number width32 op.index] bytes rest := by
  obtain ⟨n, mid, first, done⟩ := ok_of_bind h
  cases known : Opcode.ofIndex? n with
  | none =>
      rw [known] at done
      cases done
  | some op' =>
      rw [known] at done
      obtain ⟨rfl, rfl⟩ := ok_of_pure done
      obtain ⟨inside, rfl⟩ := List.getElem?_eq_some_iff.1 known
      have nodup : Opcode.all.Nodup := by decide
      rw [Opcode.index, nodup.idxOf_getElem n inside]
      exact readVarint_sound first

theorem readInstruction_sound {i : Instruction} {bytes rest : List UInt8}
    (h : readInstruction bytes = .ok (i, rest)) : Spelled (instructionPieces i) bytes rest := by
  obtain ⟨op, _, opcode, more⟩ := ok_of_bind h
  obtain ⟨x, _, first, more⟩ := ok_of_bind more
  obtain ⟨y, _, second, more⟩ := ok_of_bind more
  obtain ⟨z, _, third, more⟩ := ok_of_bind more
  obtain ⟨n, _, metadata, done⟩ := ok_of_bind more
  obtain ⟨rfl, rfl⟩ := ok_of_pure done
  have word : (UInt16.ofNat n).toNat = n := UInt16.toNat_ofNat_of_lt' (readVarint16_lt metadata)
  have last := readVarint_sound metadata
  rw [← word] at last
  exact (readOpcode_sound opcode).append <| (readInt16_sound first).append <|
    (readInt16_sound second).append <| (readInt16_sound third).append last

theorem readFlag_sound {defect : Defect} {b : Bool} {bytes rest : List UInt8}
    (h : readFlag defect bytes = .ok (b, rest)) : Spelled [.fixed (writeFlag b)] bytes rest := by
  obtain ⟨byte, mid, first, done⟩ := ok_of_bind h
  obtain rfl := readByte_sound first
  by_cases zero : byte = 0
  · rw [if_pos zero] at done
    obtain ⟨rfl, rfl⟩ := ok_of_pure done
    obtain rfl := zero
    exact .one (x := .fixed (writeFlag false)) rfl mid
  rw [if_neg zero] at done
  by_cases one : byte = 1
  · rw [if_pos one] at done
    obtain ⟨rfl, rfl⟩ := ok_of_pure done
    obtain rfl := one
    exact .one (x := .fixed (writeFlag true)) rfl mid
  · rw [if_neg one] at done
    cases done

theorem readBits_sound {count n : Nat} {bytes rest : List UInt8}
    (h : readBits count bytes = .ok (n, rest)) :
    n < 256 ^ count ∧ bytes = writeBits count n ++ rest := by
  induction count generalizing n bytes with
  | zero =>
      obtain ⟨rfl, rfl⟩ := ok_of_pure h
      exact ⟨by decide, rfl⟩
  | succ count ih =>
      obtain ⟨b, mid, first, more⟩ := ok_of_bind h
      obtain rfl := readByte_sound first
      obtain ⟨v, mid', others, done⟩ := ok_of_bind more
      obtain ⟨rfl, rfl⟩ := ok_of_pure done
      obtain ⟨bound, rfl⟩ := ih others
      have most : b.toNat < 256 := b.toNat_lt
      have above : (b.toNat + 256 * v) / 256 = v := by omega
      have low : UInt8.ofNat (b.toNat + 256 * v) = b := by
        apply UInt8.toNat_inj.1
        rw [UInt8.toNat_ofNat']
        omega
      rw [Nat.pow_succ, writeBits, above, low]
      exact ⟨by omega, rfl⟩

theorem readValue_sound {v : Value} {bytes rest : List UInt8}
    (h : readValue bytes = .ok (v, rest)) : Spelled (valuePieces v) bytes rest := by
  obtain ⟨variant, mid, first, more⟩ := ok_of_bind h
  have kind := readVarint_sound first
  split at more
  · obtain ⟨rfl, rfl⟩ := ok_of_pure more
    exact kind
  · obtain ⟨b, _, second, done⟩ := ok_of_bind more
    obtain ⟨rfl, rfl⟩ := ok_of_pure done
    exact kind.append (readFlag_sound second)
  · obtain ⟨n, _, second, done⟩ := ok_of_bind more
    obtain ⟨rfl, rfl⟩ := ok_of_pure done
    have bounds : -2 ^ 31 ≤ unzigzag n ∧ unzigzag n < 2 ^ 31 :=
      unzigzag_bounds (readVarint32_lt second)
    have number := readVarint_sound second
    rw [← zigzag_unzigzag n, ← Int32.toInt_ofInt_of_le bounds.1 bounds.2] at number
    exact kind.append number
  · obtain ⟨n, behind, second, done⟩ := ok_of_bind more
    obtain ⟨rfl, rfl⟩ := ok_of_pure done
    obtain ⟨bound, rfl⟩ := readBits_sound second
    have word : (UInt64.ofNat n).toNat = n := UInt64.toNat_ofNat_of_lt' bound
    have bits : Spelled [.fixed (writeBits 8 n)] (writeBits 8 n ++ behind) behind :=
      .one (x := .fixed _) rfl behind
    refine kind.append (?_ : Spelled [.fixed (writeBits 8 (UInt64.ofNat n).toNat)] _ _)
    rwa [word]
  · obtain ⟨n, _, second, done⟩ := ok_of_bind more
    obtain ⟨rfl, rfl⟩ := ok_of_pure done
    have word : (UInt32.ofNat n).toNat = n := UInt32.toNat_ofNat_of_lt' (readVarint32_lt second)
    have number := readVarint_sound second
    rw [← word] at number
    exact kind.append number
  · cases more

theorem readMany_sound {item : Reader α} {pieces : α → List Piece}
    (sound : ∀ {bytes rest x}, item bytes = .ok (x, rest) → Spelled (pieces x) bytes rest)
    {count : Nat} {read xs : Array α} {bytes rest : List UInt8}
    (h : readMany item count read bytes = .ok (xs, rest)) :
    ∃ ys : List α, xs = read ++ ys ∧ ys.length = count ∧
      Spelled (ys.flatMap pieces) bytes rest := by
  induction count generalizing read bytes with
  | zero =>
      obtain ⟨rfl, rfl⟩ := ok_of_pure h
      exact ⟨[], Array.appendList_nil.symm, rfl, .nil _⟩
  | succ count ih =>
      obtain ⟨x, mid, first, more⟩ := ok_of_bind h
      obtain ⟨ys, rfl, rfl, spelled⟩ := ih more
      exact ⟨x :: ys, Array.appendList_cons.symm, rfl, (sound first).append spelled⟩

theorem readRow_sound {item : Reader α} {pieces : α → List Piece}
    (sound : ∀ {bytes rest x}, item bytes = .ok (x, rest) → Spelled (pieces x) bytes rest)
    {xs : Array α} {bytes rest : List UInt8} (h : readRow item bytes = .ok (xs, rest)) :
    Spelled (rowPieces pieces xs) bytes rest := by
  obtain ⟨n, mid, first, more⟩ := ok_of_bind h
  obtain ⟨ys, rfl, rfl, spelled⟩ := readMany_sound sound more
  have all : ((#[] : Array α) ++ ys).toList = ys := by simp
  rw [rowPieces, ← Array.length_toList, all]
  exact (readVarint_sound first).append spelled

theorem readEntry_sound {entry : Option UInt64} {bytes rest : List UInt8}
    (h : readEntry bytes = .ok (entry, rest)) : Spelled (entryPieces entry) bytes rest := by
  obtain ⟨b, mid, first, more⟩ := ok_of_bind h
  cases b with
  | false =>
      obtain ⟨rfl, rfl⟩ := ok_of_pure more
      exact readFlag_sound first
  | true =>
      obtain ⟨n, mid', second, done⟩ := ok_of_bind more
      obtain ⟨rfl, rfl⟩ := ok_of_pure done
      have word : (UInt64.ofNat n).toNat = n := UInt64.toNat_ofNat_of_lt' (readVarint64_lt second)
      have number := readVarint_sound second
      rw [← word] at number
      exact (readFlag_sound first).append number

/-- What is read as the body of an image spells the pieces of the program that it gives. -/
theorem readBody_sound {p : Program} {bytes rest : List UInt8}
    (h : readBody bytes = .ok (p, rest)) : Spelled (bodyPieces p) bytes rest := by
  obtain ⟨chunks, _, first, more⟩ := ok_of_bind h
  obtain ⟨constants, _, second, more⟩ := ok_of_bind more
  obtain ⟨entry, _, third, done⟩ := ok_of_bind more
  obtain ⟨rfl, rfl⟩ := ok_of_pure done
  have code := readRow_sound (readRow_sound readInstruction_sound) first
  exact (code.append (readRow_sound readValue_sound second)).append (readEntry_sound third)

/-- A length that has a spelling is a word. -/
theorem Spelling.word {pieces : List Piece} {parts : List (List UInt8)}
    (h : Spelling pieces parts) {n : Nat} (mem : .number width64 n ∈ pieces) :
    n < UInt64.size := by
  induction h with
  | nil => cases mem
  | cons first _ ih =>
      rcases List.mem_cons.1 mem with rfl | mem
      · have spells : Spells 1 (9 + 1) n _ := first
        exact spells.short
      · exact ih mem

theorem Spelling.stored {p : Program} {parts : List (List UInt8)}
    (h : Spelling (bodyPieces p) parts) : p.Stored where
  chunks := h.word <| List.mem_append_left _ <| List.mem_append_left _ List.mem_cons_self
  code chunk mem := by
    refine h.word <| List.mem_append_left _ <| List.mem_append_left _ <| List.mem_cons_of_mem _ ?_
    exact List.mem_flatMap.2 ⟨chunk, Array.mem_toList_iff.2 mem, List.mem_cons_self⟩
  constants := h.word <| List.mem_append_left _ <| List.mem_append_right _ List.mem_cons_self

end Image

/-! ### Writing again -/

theorem readBody_of_ofBytes {bytes : List UInt8} {p : Program}
    (read : Program.ofBytes bytes = .ok p) :
    bytes = Image.mark ++ bytes.drop 4 ∧
      ∃ rest, Image.readBody (bytes.drop 4) = .ok (p, rest) := by
  rw [Program.ofBytes] at read
  by_cases marked : bytes.take 4 = Image.mark
  · rw [if_pos marked] at read
    refine ⟨by rw [← marked, List.take_append_drop], ?_⟩
    cases body : Image.readBody (bytes.drop 4) with
    | ok x =>
        rw [body] at read
        cases read
        exact ⟨x.2, rfl⟩
    | error d =>
        rw [body] at read
        cases read
  · rw [if_neg marked] at read
    cases read

/-- The image of what some bytes are read as. -/
def rewritten (bytes : List UInt8) : Except ImageError (List UInt8) :=
  (Program.ofBytes bytes).map Program.toBytes

/-- Bytes that are read as a program are a mark and a spelling of the program's pieces, with
more bytes behind that are not looked at; there is only one way to take them apart like this.
The program's own image is read as the program again. It is not longer than the mark and
the spelling, and it is the same just when each number is spelled in as few bytes as it can be.
So to read and write bytes twice gives what doing it once gives. -/
theorem rewritten_of_ofBytes {bytes : List UInt8} {p : Program}
    (read : Program.ofBytes bytes = .ok p) :
    Program.ofBytes p.toBytes = .ok p ∧ (rewritten bytes).bind rewritten = rewritten bytes ∧
      ∃ parts rest, Image.Spelling (Image.bodyPieces p) parts ∧
        bytes = Image.mark ++ parts.flatten ++ rest ∧
        Image.readBody (bytes.drop 4) = .ok (p, rest) ∧
        (∀ parts' rest', Image.Spelling (Image.bodyPieces p) parts' →
          bytes = Image.mark ++ parts'.flatten ++ rest' → parts' = parts ∧ rest' = rest) ∧
        p.toBytes.length ≤ (Image.mark ++ parts.flatten).length ∧
        (p.toBytes = Image.mark ++ parts.flatten ↔
          List.Forall₂ Image.Piece.Briefly (Image.bodyPieces p) parts) := by
  obtain ⟨marked, rest, body⟩ := readBody_of_ofBytes read
  obtain ⟨parts, spelling, behind⟩ := Image.readBody_sound body
  have again : Program.ofBytes p.toBytes = .ok p := by
    have recovers := readBody_recovers spelling.stored []
    rw [List.append_nil] at recovers
    have mark : p.toBytes.take 4 = Image.mark := rfl
    have after : p.toBytes.drop 4 = Image.writeBody p := rfl
    rw [Program.ofBytes, if_pos mark, after, recovers]
  have image : p.toBytes = Image.mark ++ (Image.bodyPieces p).flatMap Image.Piece.write := by
    rw [Image.bodyPieces_write, Program.toBytes]
  have whole : bytes = Image.mark ++ parts.flatten ++ rest := by
    rw [List.append_assoc, ← behind]
    exact marked
  refine ⟨again, ?_, parts, rest, spelling, whole, body, ?_, ?_, ?_⟩
  · have once : rewritten bytes = .ok p.toBytes := by rw [rewritten, read]; rfl
    rw [once]
    show rewritten p.toBytes = .ok p.toBytes
    rw [rewritten, again]
    rfl
  · intro parts' rest' spelling' whole'
    rw [whole, List.append_assoc, List.append_assoc] at whole'
    exact spelling'.unique spelling (List.append_cancel_left whole').symm
  · rw [image, List.length_append, List.length_append]
    exact Nat.add_le_add_left spelling.length_le _
  · rw [image, List.append_cancel_left_eq]
    exact spelling.eq_write_iff

/-- A program of one instruction, and an image of it with its numbers drawn out. -/
def Program.halting : Program := ⟨#[#[⟨.halt, ⟨-1, 0, 0⟩, 0⟩]], #[], some 0⟩

def Program.halting.drawnOut : List UInt8 :=
  [0x4d, 0x4e, 0x42, 0x31, 0x81, 0x80, 0x00, 0x01, 0x95, 0x80, 0x80, 0x80, 0x00, 0x81, 0x00, 0x00,
    0x80, 0x80, 0x00, 0x00, 0x80, 0x00, 0x01, 0x00, 0xff]

theorem rewritten_of_drawnOut :
    Program.ofBytes Program.halting.drawnOut = .ok Program.halting ∧
      Program.ofBytes Program.halting.toBytes = .ok Program.halting ∧
      ∃ parts, Image.Spelling (Image.bodyPieces Program.halting) parts ∧
        Program.halting.drawnOut = Image.mark ++ parts.flatten ++ [0xff] ∧
        Program.halting.toBytes.length ≤ (Image.mark ++ parts.flatten).length := by
  have read : Program.ofBytes Program.halting.drawnOut = .ok Program.halting := by
    decide +kernel
  have body : Image.readBody (Program.halting.drawnOut.drop 4) =
      .ok (Program.halting, [0xff]) := by
    decide +kernel
  obtain ⟨again, -, parts, rest, spelling, whole, body', -, length, -⟩ :=
    rewritten_of_ofBytes read
  rw [body] at body'
  cases body'
  exact ⟨read, again, parts, spelling, whole, length⟩

end RegisterCode
