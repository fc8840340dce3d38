import CosignedLedger.Digest
import CosignedLedger.Wire.Utf8

/-!
# Wire formats

How a value is written and how one is read off the front of a byte string. Byte strings, texts and
lists follow their length in eight bytes, an optional value follows a byte that is zero or one.
-/

namespace CosignedLedger

inductive WireFault where
  | unexpectedEnd
  | textTooLong
  | badText (fault : Utf8Fault)
  | badOption (tag : Nat)
  | badVariant (tag : Nat)
  | other (text : String)
deriving DecidableEq

def WireFault.message : WireFault → String
  | unexpectedEnd => "io error: unexpected end of file"
  | textTooLong => "io error: "
  | badText fault => s!"string is not valid utf8: {fault.message}"
  | badOption tag => s!"tag for enum is not valid, found {tag}"
  | badVariant tag => s!"invalid value: integer `{tag}`, expected variant index 0 <= i < 3"
  | other text => text

structure Format (α : Type) where
  write : α → Bytes
  read : Bytes → Except WireFault (α × Bytes)

namespace Format
variable {α β : Type}

def decode (f : Format α) (bytes : Bytes) : Except WireFault α :=
  (f.read bytes).map (·.1)

/-- The first `count` bytes and the rest, or `fault` if there are fewer. -/
def split (fault : WireFault) (count : Nat) (bytes : Bytes) : Except WireFault (Bytes × Bytes) :=
  let front := bytes.take count
  if front.length = count then .ok (front, bytes.drop count) else .error fault

def fixed (width : Nat) : Format Nat where
  write n := Bytes.ofNatLE width n
  read bytes := do
    let (front, rest) ← split .unexpectedEnd width bytes
    return (Bytes.toNatLE front, rest)

def word : Format UInt64 where
  write n := Bytes.ofNatLE 8 n.toNat
  read bytes := do
    let (n, rest) ← (fixed 8).read bytes
    return (UInt64.ofNat n, rest)

def digest : Format Digest where
  write d := d.bytes
  read bytes :=
    match Digest.ofBytes? (bytes.take 32) with
    | some d => .ok (d, bytes.drop 32)
    | none => .error .unexpectedEnd

def blob : Format Bytes where
  write b := Bytes.ofNatLE 8 b.length ++ b
  read bytes := do
    let (count, rest) ← (fixed 8).read bytes
    split .unexpectedEnd count rest

def text : Format String where
  write s := blob.write (Bytes.ofText s)
  read bytes := do
    let (count, rest) ← (fixed 8).read bytes
    let (front, rest) ← split .textTooLong count rest
    match Bytes.toText? front with
    | some s => return (s, rest)
    | none => .error (.badText (Utf8Fault.find 0 front))

def option (f : Format α) : Format (Option α) where
  write
    | none => [0]
    | some a => 1 :: f.write a
  read
    | [] => .error .unexpectedEnd
    | tag :: rest =>
      if tag = 0 then .ok (none, rest)
      else if tag = 1 then do
        let (a, rest) ← f.read rest
        return (some a, rest)
      else .error (.badOption tag.toNat)

def readMany (f : Format α) : (count : Nat) → Bytes → Except WireFault (List α × Bytes)
  | 0, bytes => .ok ([], bytes)
  | count + 1, bytes => do
    let (a, bytes) ← f.read bytes
    let (as, bytes) ← readMany f count bytes
    return (a :: as, bytes)

def list (f : Format α) : Format (List α) where
  write as := Bytes.ofNatLE 8 as.length ++ as.flatMap f.write
  read bytes := do
    let (count, rest) ← (fixed 8).read bytes
    f.readMany count rest

def pair (f : Format α) (g : Format β) : Format (α × β) where
  write p := f.write p.1 ++ g.write p.2
  read bytes := do
    let (a, bytes) ← f.read bytes
    let (b, bytes) ← g.read bytes
    return ((a, b), bytes)

def along (f : Format α) (make : α → β) (parts : β → α) : Format β where
  write b := f.write (parts b)
  read bytes := do
    let (a, bytes) ← f.read bytes
    return (make a, bytes)

end Format

end CosignedLedger
