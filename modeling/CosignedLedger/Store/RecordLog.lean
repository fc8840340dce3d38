import CosignedLedger.Hash.Crc32
import CosignedLedger.Store.Log
import CosignedLedger.Wire.Record

/-!
# Logs in a file

A record is the length of an encoded block, its CRC-32, each in four bytes, and the encoded block.
Loading removes a last record that is cut short; a complete record that is wrong is an error.
-/

namespace CosignedLedger

namespace Record

def frame (body : Bytes) : Bytes :=
  Bytes.ofNatLE 4 body.length ++ Bytes.ofNatLE 4 (Crc32.checksum body).toNat ++ body

/-- A complete record off the front of `bytes`: the checksum it states, its body, and the rest. -/
def split? (bytes : Bytes) : Option (Nat × Bytes × Bytes) :=
  let size := Bytes.toNatLE (bytes.take 4)
  let rest := bytes.drop 8
  let body := rest.take size
  if (bytes.take 8).length = 8 ∧ body.length = size then
    some (Bytes.toNatLE ((bytes.drop 4).take 4), body, rest.drop size)
  else none

theorem length_of_split? {bytes body rest : Bytes} {sum : Nat}
    (h : split? bytes = some (sum, body, rest)) : bytes.length = 8 + body.length + rest.length := by
  simp only [split?] at h
  split at h
  · rename_i hb
    simp only [Option.some.injEq, Prod.mk.injEq] at h
    obtain ⟨-, rfl, rfl⟩ := h
    simp only [List.length_take, List.length_drop] at hb ⊢
    omega
  · cases h

def block (path : String) (offset sum : Nat) (body : Bytes) : Except LogFault Block :=
  if (Crc32.checksum body).toNat ≠ sum then .error (.corrupt offset path)
  else (Block.format.decode body).mapError (.undecodable offset)

/-- The blocks in the complete records of `bytes`, which stand at `offset` of the file, and how
many bytes those records take. -/
def scan (path : String) (offset : Nat) (bytes : Bytes) : Except LogFault (List Block × Nat) :=
  match h : split? bytes with
  | none => .ok ([], 0)
  | some (sum, body, rest) => do
    let b ← block path offset sum body
    let size := 8 + body.length
    have : rest.length < bytes.length := by have := length_of_split? h; omega
    let (bs, length) ← scan path (offset + size) rest
    return (b :: bs, size + length)
termination_by bytes.length

end Record

/-- An attempt to write a record at the end of some contents, and the contents afterwards. -/
abbrev RecordWriter := (contents record : Bytes) → Except FileFault Unit × Bytes

def RecordWriter.upTo (limit : Option Nat) : RecordWriter := fun contents record =>
  match limit with
  | none => (.ok (), contents ++ record)
  | some limit =>
    if contents.length + record.length ≤ limit then (.ok (), contents ++ record)
    else (.error .tooLarge, contents ++ record.take (limit - contents.length))

namespace BlockLog

/-- The blocks in the contents of a file, and the contents without a record that is cut short. -/
def loadRecords (path : String) (contents : Bytes) : Except StoreError (List Block) × Bytes :=
  match Record.scan path 0 contents with
  | .error fault => (.error (.log fault), contents)
  | .ok (blocks, length) => (.ok blocks, contents.take length)

/-- Writes the record of a block; a failed write is cut back to the length before it. -/
def appendRecord (path : String) (write : RecordWriter) (b : Block) (contents : Bytes) :
    Except StoreError Unit × Bytes :=
  let body := Block.format.write b
  if UInt32.size ≤ body.length then (.error (.log (.recordTooLarge body.length)), contents)
  else match write contents (Record.frame body) with
    | (.ok (), contents) => (.ok (), contents)
    | (.error fault, written) => (.error (.log (.file path fault)), written.take contents.length)

def records (path : String) (write : RecordWriter) : BlockLog Bytes where
  load := loadRecords path
  append := appendRecord path write

end BlockLog

end CosignedLedger
