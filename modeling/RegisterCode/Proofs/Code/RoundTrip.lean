import Mathlib.Algebra.Group.Nat.Defs
import RegisterCode.Code.Image

/-!
Reading an image gives back the program that was written (`ofBytes_toBytes`). Each
part of the format is looked at with arbitrary bytes behind it (`Recovers`), so what
reads one part always stops where the next one begins.
-/

namespace RegisterCode

namespace Image

variable {α β : Type}

/-- Reading gives back what was written, and stops behind it. -/
def Recovers (read : Reader α) (bytes : List UInt8) (x : α) : Prop :=
  ∀ rest, read (bytes ++ rest) = .ok (x, rest)

namespace Recovers

theorem pure (x : α) : Recovers (pure x) [] x := fun _ => rfl

/-- What is written one after the other is read one after the other. -/
theorem bind {read : Reader α} {k : α → Reader β} {bytes bytes' : List UInt8} {x : α} {y : β}
    (h : Recovers read bytes x) (h' : Recovers (k x) bytes' y) :
    Recovers (read >>= k) (bytes ++ bytes') y := by
  intro rest
  have first := h (bytes' ++ rest)
  rw [List.append_assoc]
  show (read (bytes ++ (bytes' ++ rest))).bind (fun p => k p.1 p.2) = _
  rw [first]
  exact h' rest

/-- What is written tells already how to go on without reading more. -/
theorem done {read : Reader α} {k : α → Reader β} {bytes : List UInt8} {x : α} {y : β}
    (h : Recovers read bytes x) (h' : Recovers (k x) [] y) : Recovers (read >>= k) bytes y := by
  have both := h.bind h'
  rwa [List.append_nil] at both

/-- What is read is only looked at in another way. -/
theorem map {read : Reader α} {f : α → β} {bytes : List UInt8} {x : α} (h : Recovers read bytes x) :
    Recovers (read >>= fun x => Pure.pure (f x)) bytes (f x) :=
  h.done (k := fun x => Pure.pure (f x)) (Recovers.pure (f x))

end Recovers

/-! ### Numbers -/

theorem readByte_recovers (b : UInt8) : Recovers readByte [b] b := fun _ => rfl

/-- A number has a form of at most `n + 1` bytes, the last of which is small enough. -/
def Short (lastByte : UInt8) (n v : Nat) : Prop := v < 128 ^ n * (lastByte.toNat + 1)

theorem readVarintBytes_recovers {lastByte : UInt8} (small : lastByte < 128) {n v : Nat}
    (short : Short lastByte n v) :
    Recovers (readVarintBytes lastByte (n + 1)) (writeVarint v) v := by
  have small : lastByte.toNat < 128 := UInt8.lt_iff_toNat_lt.1 small
  have below (b : UInt8) : b < 128 ↔ b.toNat < 128 := UInt8.lt_iff_toNat_lt
  induction n generalizing v with
  | zero =>
      have lt : v < lastByte.toNat + 1 := by simpa [Short] using short
      have byte : (UInt8.ofNat v).toNat = v := UInt8.toNat_ofNat_of_lt' (by simp [UInt8.size]; omega)
      have low : UInt8.ofNat v < 128 := by
        rw [below, byte]
        omega
      have last : ¬ lastByte < UInt8.ofNat v := by
        rw [UInt8.lt_iff_toNat_lt, byte]
        omega
      rw [writeVarint, if_pos (by omega), readVarintBytes]
      have ends : Recovers (if UInt8.ofNat v < 128 then
          if 0 = 0 ∧ lastByte < UInt8.ofNat v then throw .badVarint
          else Pure.pure (UInt8.ofNat v).toNat
          else do
            let rest ← readVarintBytes lastByte 0
            return (UInt8.ofNat v).toNat - 128 + 128 * rest) [] v := by
        rw [if_pos low, if_neg fun h => last h.2, byte]
        exact .pure v
      exact (readByte_recovers _).done ends
  | succ n ih =>
      rw [readVarintBytes, writeVarint]
      by_cases one : v < 128
      · have byte : (UInt8.ofNat v).toNat = v :=
          UInt8.toNat_ofNat_of_lt' (by simp [UInt8.size]; omega)
        have low : UInt8.ofNat v < 128 := by rwa [below, byte]
        rw [if_pos one]
        refine (readByte_recovers _).done ?_
        rw [if_pos low, if_neg (by omega), byte]
        exact .pure v
      · have lt : 128 + v % 128 < UInt8.size := by simp only [UInt8.size]; omega
        have byte : (UInt8.ofNat (128 + v % 128)).toNat = 128 + v % 128 :=
          UInt8.toNat_ofNat_of_lt' lt
        have high : ¬ UInt8.ofNat (128 + v % 128) < 128 := by
          rw [below, byte]
          exact Nat.not_lt.2 (Nat.le_add_right _ _)
        have fewer : Short lastByte n (v / 128) := by
          rw [Short, Nat.div_lt_iff_lt_mul (by decide)]
          rw [Short, Nat.pow_succ] at short
          calc v < 128 ^ n * 128 * (lastByte.toNat + 1) := short
            _ = 128 ^ n * (lastByte.toNat + 1) * 128 := Nat.mul_right_comm _ _ _
        rw [if_neg one]
        have same : (UInt8.ofNat (128 + v % 128)).toNat - 128 + 128 * (v / 128) = v := by
          rw [byte]
          omega
        have rest := (ih fewer).map (f := fun rest =>
          (UInt8.ofNat (128 + v % 128)).toNat - 128 + 128 * rest)
        rw [same] at rest
        refine (readByte_recovers _).bind (?_ : Recovers _ (writeVarint (v / 128)) v)
        rwa [if_neg high]

theorem readVarint16_recovers {v : Nat} (h : v < UInt16.size) :
    Recovers (readVarint width16) (writeVarint v) v :=
  readVarintBytes_recovers (n := 2) (by decide) h

theorem readVarint32_recovers {v : Nat} (h : v < UInt32.size) :
    Recovers (readVarint width32) (writeVarint v) v :=
  readVarintBytes_recovers (n := 4) (by decide) h

theorem readVarint64_recovers {v : Nat} (h : v < UInt64.size) :
    Recovers (readVarint width64) (writeVarint v) v :=
  readVarintBytes_recovers (n := 9) (by decide) h

/-- A signed number of `2 * bound` values takes as many unsigned ones. -/
theorem zigzag_lt {n : Int} {bound : Nat} (low : -(bound : Int) ≤ n) (high : n < bound) :
    zigzag n < 2 * bound := by
  unfold zigzag
  split <;> omega

theorem readInt16_recovers (n : Int16) : Recovers readInt16 (writeInt16 n) n := by
  have low := n.le_toInt
  have high := n.toInt_lt
  have word : zigzag n.toInt < UInt16.size := zigzag_lt low high
  have read := (readVarint16_recovers word).map (f := fun n => Int16.ofInt (unzigzag n))
  rwa [unzigzag_zigzag, Int16.ofInt_toInt] at read

theorem readBits_recovers (n bits : Nat) (h : bits < 256 ^ n) :
    Recovers (readBits n) (writeBits n bits) bits := by
  induction n generalizing bits with
  | zero =>
      obtain rfl : bits = 0 := by simpa using h
      exact .pure 0
  | succ n ih =>
      have fewer : bits / 256 < 256 ^ n := by
        rw [Nat.div_lt_iff_lt_mul (by decide)]
        rwa [Nat.pow_succ] at h
      have low : (UInt8.ofNat bits).toNat = bits % 256 := UInt8.toNat_ofNat'
      have same : (UInt8.ofNat bits).toNat + 256 * (bits / 256) = bits := by
        rw [low]
        omega
      have rest := (ih _ fewer).map (f := fun rest => (UInt8.ofNat bits).toNat + 256 * rest)
      rw [same] at rest
      exact (readByte_recovers _).bind rest

/-! ### Parts of a program -/

theorem readFlag_recovers (defect : Defect) (b : Bool) :
    Recovers (readFlag defect) (writeFlag b) b := by
  cases b <;> exact fun _ => rfl

theorem readOpcode_recovers (op : Opcode) : Recovers readOpcode (writeVarint op.index) op := by
  have small : op.index < UInt32.size := by
    have inside := (List.getElem?_eq_some_iff.1 (Opcode.ofIndex?_index op)).1
    exact Nat.lt_trans inside (by decide)
  refine (readVarint32_recovers small).done ?_
  rw [Opcode.ofIndex?_index]
  exact .pure op

theorem readInstruction_recovers (i : Instruction) :
    Recovers readInstruction (writeInstruction i) i := by
  rw [writeInstruction, List.append_assoc, List.append_assoc, List.append_assoc]
  refine (readOpcode_recovers i.op).bind ?_
  refine (readInt16_recovers i.args.first).bind ?_
  refine (readInt16_recovers i.args.second).bind ?_
  refine (readInt16_recovers i.args.third).bind ?_
  have word : i.metadata.toNat < UInt16.size := i.metadata.toNat_lt
  have read := (readVarint16_recovers word).map (f := fun metadata =>
    (⟨i.op, ⟨i.args.first, i.args.second, i.args.third⟩, UInt16.ofNat metadata⟩ : Instruction))
  rwa [UInt16.ofNat_toNat] at read

theorem readValue_recovers (v : Value) : Recovers readValue (writeValue v) v := by
  cases v with
  | dud => exact (readVarint32_recovers (v := 0) (by decide)).done (.pure _)
  | bool b =>
      exact (readVarint32_recovers (v := 1) (by decide)).bind (readFlag_recovers .badBool b).map
  | int n =>
      have low := n.le_toInt
      have high := n.toInt_lt
      have word : zigzag n.toInt < UInt32.size := zigzag_lt low high
      have read := (readVarint32_recovers word).map (f := fun n =>
        Value.int (Int32.ofInt (unzigzag n)))
      rw [unzigzag_zigzag, Int32.ofInt_toInt] at read
      exact (readVarint32_recovers (v := 2) (by decide)).bind read
  | float x =>
      have read := (readBits_recovers 8 x.bits.toNat x.bits.toNat_lt).map (f := fun bits =>
        Value.float ⟨UInt64.ofNat bits⟩)
      rw [UInt64.ofNat_toNat] at read
      exact (readVarint32_recovers (v := 3) (by decide)).bind read
  | object id =>
      have read := (readVarint32_recovers id.toNat_lt).map (f := fun n =>
        Value.object (UInt32.ofNat n))
      rw [UInt32.ofNat_toNat] at read
      exact (readVarint32_recovers (v := 4) (by decide)).bind read

theorem readMany_recovers {item : Reader α} {write : α → List UInt8} {xs : List α}
    (h : ∀ x ∈ xs, Recovers item (write x) x) (read : Array α) :
    Recovers (readMany item xs.length read) (xs.flatMap write) (read ++ xs) := by
  induction xs generalizing read with
  | nil =>
      rw [Array.appendList_nil]
      exact .pure read
  | cons x xs ih =>
      have rest := ih (fun y mem => h y (List.mem_cons_of_mem _ mem)) (read.push x)
      rw [← Array.appendList_cons] at rest
      exact (h x List.mem_cons_self).bind rest

/-- A row whose length is a word. -/
theorem readRow_recovers {item : Reader α} {write : α → List UInt8} {xs : Array α}
    (size : xs.size < UInt64.size) (h : ∀ x ∈ xs, Recovers item (write x) x) :
    Recovers (readRow item) (writeRow write xs) xs := by
  have items := readMany_recovers (fun x mem => h x (Array.mem_toList_iff.1 mem)) #[]
  have all : (#[] : Array α) ++ xs.toList = xs := by simp
  rw [Array.length_toList, all] at items
  exact (readVarint64_recovers size).bind items

theorem readEntry_recovers (entry : Option UInt64) :
    Recovers readEntry (writeEntry entry) entry := by
  cases entry with
  | none => exact fun _ => rfl
  | some id =>
      have read := (readVarint64_recovers id.toNat_lt).map (f := fun n =>
        some (UInt64.ofNat n))
      rw [UInt64.ofNat_toNat] at read
      exact (readFlag_recovers .badOption true).bind read

end Image

/-! ### Programs -/

/-- The lengths in a program are words of 64 bits, as those of all rows in a machine's
memory are. -/
structure Program.Stored (p : Program) : Prop where
  chunks : p.chunks.size < UInt64.size
  code : ∀ chunk ∈ p.chunks, chunk.size < UInt64.size
  constants : p.constants.size < UInt64.size

open Image in
theorem readBody_recovers {p : Program} (stored : p.Stored) :
    Recovers readBody (writeBody p) p := by
  rw [writeBody, List.append_assoc]
  refine (readRow_recovers stored.chunks fun chunk mem =>
    readRow_recovers (stored.code chunk mem) fun i _ => readInstruction_recovers i).bind ?_
  refine (readRow_recovers stored.constants fun v _ => readValue_recovers v).bind ?_
  exact (readEntry_recovers p.entry).map

/-- Reading the image of a program gives the program back, whatever its instructions,
constants and entry are, and whatever bytes stand behind the image. -/
theorem ofBytes_toBytes {p : Program} (stored : p.Stored) (rest : List UInt8) :
    Program.ofBytes (p.toBytes ++ rest) = .ok p := by
  have read := readBody_recovers stored rest
  have marked : (p.toBytes ++ rest).take 4 = Image.mark := rfl
  have behind : (p.toBytes ++ rest).drop 4 = Image.writeBody p ++ rest := rfl
  rw [Program.ofBytes, if_pos marked, behind, read]

/-- A program of the largest and smallest numbers: bit patterns that no instruction
has, a quiet nothing with a payload, the last object and the last entry. -/
def Program.extremes : Program where
  chunks := #[#[⟨.jumpElse, ⟨-32768, 32767, -1⟩, 65535⟩, ⟨.nop, ⟨0, 0, 0⟩, 0⟩], #[]]
  constants := #[.dud, .bool true, .int (-2147483648), .int 2147483647,
    .float ⟨0x7ff8000000000001⟩, .float ⟨0x8000000000000000⟩, .object 4294967295]
  entry := some 18446744073709551615

theorem ofBytes_toBytes_extremes :
    Program.extremes.Stored ∧
      Program.ofBytes (Program.extremes.toBytes ++ [0x80, 0xff]) = .ok Program.extremes := by
  have stored : Program.extremes.Stored :=
    ⟨by decide, by decide, by decide⟩
  exact ⟨stored, ofBytes_toBytes stored _⟩

end RegisterCode
