import RegisterCode.Code.Program
import RegisterCode.Code.Varint

/-!
Images: programs as bytes. An image is a mark of four bytes, the chunks, the
pool and the entry, each row of things with its length in front. What follows
is ignored when an image is read.
-/

namespace RegisterCode

namespace Image

def readInt16 : Reader Int16 := do
  let n ← readVarint width16
  return Int16.ofInt (unzigzag n)

def writeInt16 (n : Int16) : List UInt8 := writeVarint (zigzag n.toInt)

def readOpcode : Reader Opcode := do
  let n ← readVarint width32
  match Opcode.ofIndex? n with
  | some op => return op
  | none => throw .unknownVariant

def readInstruction : Reader Instruction := do
  let op ← readOpcode
  let first ← readInt16
  let second ← readInt16
  let third ← readInt16
  let metadata ← readVarint width16
  return ⟨op, ⟨first, second, third⟩, UInt16.ofNat metadata⟩

def writeInstruction (i : Instruction) : List UInt8 :=
  writeVarint i.op.index ++ writeInt16 i.args.first ++ writeInt16 i.args.second ++
    writeInt16 i.args.third ++ writeVarint i.metadata.toNat

/-- One byte for a truth value, or for whether something follows. -/
def readFlag (defect : Defect) : Reader Bool := do
  let b ← readByte
  if b = 0 then return false
  else if b = 1 then return true
  else throw defect

def writeFlag (b : Bool) : List UInt8 := [if b then 1 else 0]

/-- Eight bytes, the lowest first. -/
def readBits : Nat → Reader Nat
  | 0 => return 0
  | n + 1 => do
    let b ← readByte
    let rest ← readBits n
    return b.toNat + 256 * rest

def writeBits : Nat → Nat → List UInt8
  | 0, _ => []
  | n + 1, bits => UInt8.ofNat bits :: writeBits n (bits / 256)

def readValue : Reader Value := do
  let variant ← readVarint width32
  match variant with
  | 0 => return .dud
  | 1 => return .bool (← readFlag .badBool)
  | 2 => return .int (Int32.ofInt (unzigzag (← readVarint width32)))
  | 3 => return .float ⟨UInt64.ofNat (← readBits 8)⟩
  | 4 => return .object (UInt32.ofNat (← readVarint width32))
  | _ => throw .unknownVariant

def writeValue : Value → List UInt8
  | .dud => writeVarint 0
  | .bool b => writeVarint 1 ++ writeFlag b
  | .int n => writeVarint 2 ++ writeVarint (zigzag n.toInt)
  | .float x => writeVarint 3 ++ writeBits 8 x.bits.toNat
  | .object id => writeVarint 4 ++ writeVarint id.toNat

/-- A row of things, its length in front. -/
def readRow {α : Type} (item : Reader α) : Reader (Array α) := do
  let n ← readVarint width64
  readMany item n #[]

def writeRow {α : Type} (item : α → List UInt8) (xs : Array α) : List UInt8 :=
  writeVarint xs.size ++ xs.toList.flatMap item

def readEntry : Reader (Option UInt64) := do
  if ← readFlag .badOption then
    return some (UInt64.ofNat (← readVarint width64))
  else return none

def writeEntry : Option UInt64 → List UInt8
  | none => writeFlag false
  | some n => writeFlag true ++ writeVarint n.toNat

def readBody : Reader Program := do
  let chunks ← readRow (readRow readInstruction)
  let constants ← readRow readValue
  let entry ← readEntry
  return ⟨chunks, constants, entry⟩

def writeBody (p : Program) : List UInt8 :=
  writeRow (writeRow writeInstruction) p.chunks ++ writeRow writeValue p.constants ++
    writeEntry p.entry

/-- The bytes every image starts with. -/
def mark : List UInt8 := [0x4d, 0x4e, 0x42, 0x31]

/-- The wording of a defect. -/
def Defect.message : Defect → String
  | endOfBytes => "Hit the end of buffer, expected more data"
  | badVarint => "Found a varint that didn't terminate. Is the usize too big for this platform?"
  | badBool => "Found a bool that wasn't 0 or 1"
  | badOption => "Found an Option discriminant that wasn't 0 or 1"
  | unknownVariant => "Serde Deserialization Error"

end Image

/-- Why some bytes are not an image. -/
inductive ImageError where
  /-- The mark is missing in front. -/
  | badMark
  | defect (d : Image.Defect)
deriving DecidableEq, Repr

def ImageError.message : ImageError → String
  | badMark => "image error: not a minuet bytecode image"
  | defect d => "image error: cannot decode program: " ++ d.message

namespace Program

def toBytes (p : Program) : List UInt8 := Image.mark ++ Image.writeBody p

def ofBytes (bytes : List UInt8) : Except ImageError Program :=
  if bytes.take 4 = Image.mark then
    match Image.readBody (bytes.drop 4) with
    | .ok (p, _) => .ok p
    | .error d => .error (.defect d)
  else .error .badMark

end Program

end RegisterCode
