/-!
Numbers of variable length: seven bits to a byte, low bits first, the eighth
bit set on every byte but the last. Also the reader of bytes that the image
format is written with, and its ways to fail.
-/

namespace RegisterCode.Image

/-- What can be wrong with the bytes of an image. -/
inductive Defect where
  | endOfBytes
  | badVarint
  | badBool
  | badOption
  /-- A number that stands for no opcode, or for no kind of value. -/
  | unknownVariant
deriving DecidableEq, Repr

/-- Reading from the front of a row of bytes. -/
abbrev Reader := StateT (List UInt8) (Except Defect)

def readByte : Reader UInt8 := fun bytes =>
  match bytes with
  | [] => .error .endOfBytes
  | b :: rest => .ok (b, rest)

/-- How long a number may be, and how large its last allowed byte. -/
structure Width where
  bytes : Nat
  lastByte : UInt8
deriving DecidableEq, Repr

def width16 : Width := ⟨3, 3⟩

def width32 : Width := ⟨5, 15⟩

def width64 : Width := ⟨10, 1⟩

/-- Reads a number of at most the given count of bytes. Forms longer than
needed are accepted up to that count. -/
def readVarintBytes (lastByte : UInt8) : Nat → Reader Nat
  | 0 => throw .badVarint
  | n + 1 => do
    let b ← readByte
    if b < 128 then
      if n = 0 ∧ lastByte < b then throw .badVarint else return b.toNat
    else
      let rest ← readVarintBytes lastByte n
      return b.toNat - 128 + 128 * rest

def readVarint (w : Width) : Reader Nat := readVarintBytes w.lastByte w.bytes

/-- The shortest form of a number. -/
def writeVarint (n : Nat) : List UInt8 :=
  if n < 128 then [UInt8.ofNat n]
  else UInt8.ofNat (128 + n % 128) :: writeVarint (n / 128)
termination_by n
decreasing_by omega

/-- Signed numbers in the order 0, -1, 1, -2, 2, … -/
def zigzag (n : Int) : Nat :=
  if 0 ≤ n then 2 * n.toNat else 2 * (-n).toNat - 1

def unzigzag (n : Nat) : Int :=
  if n % 2 = 0 then n / 2 else -((n + 1) / 2 : Nat)

theorem unzigzag_zigzag (n : Int) : unzigzag (zigzag n) = n := by
  unfold zigzag unzigzag
  split <;> split <;> omega

/-- Runs a reader a number of times. -/
def readMany {α : Type} (item : Reader α) : Nat → Array α → Reader (Array α)
  | 0, read => return read
  | n + 1, read => do
    let x ← item
    readMany item n (read.push x)

end RegisterCode.Image
