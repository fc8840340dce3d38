import CosignedLedger.Bytes

/-!
# Digests

The hash of a block, a payload or a header: thirty-two bytes, written as hexadecimal digits.
-/

namespace CosignedLedger

structure Digest where
  bytes : Bytes
  length_eq : bytes.length = 32
deriving DecidableEq

namespace Digest

instance : Hashable Digest := ⟨fun d => hash d.bytes⟩

@[ext] theorem ext {a b : Digest} (h : a.bytes = b.bytes) : a = b := by
  cases a
  cases b
  cases h
  rfl

def fill (b : UInt8) : Digest :=
  ⟨List.replicate 32 b, by simp⟩

/-- The digest that stands before the first block. -/
def zero : Digest := fill 0

instance : Inhabited Digest := ⟨zero⟩

/-- Only strings of thirty-two bytes are digests. -/
def ofBytes? (bytes : Bytes) : Option Digest :=
  if h : bytes.length = 32 then some ⟨bytes, h⟩ else none

theorem ofBytes?_bytes (d : Digest) : ofBytes? d.bytes = some d := by
  simp [ofBytes?, d.length_eq]

def isZero (d : Digest) : Bool :=
  d = zero

def toHex (d : Digest) : String :=
  d.bytes.toHex

def short (d : Digest) : String :=
  Bytes.toHex (d.bytes.take 4)

instance : ToString Digest := ⟨toHex⟩

def describe (d : Digest) : String :=
  "Digest(" ++ d.short ++ "..)"

end Digest

end CosignedLedger
