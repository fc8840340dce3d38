import CosignedLedger.Crypto.Basic

/-!
# Blocks

A header names the block before it, the hash of the payload and the authority that signs the next
block. `Header.canonicalBytes` is what is hashed and signed; the signature is outside it.
-/

namespace CosignedLedger

structure Header where
  index : UInt64
  previousHash : Digest
  payloadHash : Digest
  authority : Roster
deriving DecidableEq

namespace Header

/-- The header in the form that is hashed: the index, both hashes, and the roster after its
length. -/
def canonicalBytes (h : Header) : Bytes :=
  let roster := h.authority.canonicalBytes
  Bytes.ofNatLE 8 h.index.toNat ++ h.previousHash.bytes ++ h.payloadHash.bytes
    ++ Bytes.count32 roster.length ++ roster

end Header

structure Block where
  header : Header
  hash : Digest
  payload : Bytes
  signature : Option Bytes
deriving DecidableEq

namespace Block

def index (b : Block) : Nat := b.header.index.toNat

def previousHash (b : Block) : Digest := b.header.previousHash

def authority (b : Block) : Roster := b.header.authority

def isGenesis (b : Block) : Bool := b.index = 0

/-- The unsigned block with the given contents, its payload and header hashed by `c`. -/
def draft (c : Crypto) (index : UInt64) (previousHash : Digest) (authority : Roster)
    (payload : Bytes) : Block :=
  let header := ⟨index, previousHash, c.hash payload, authority⟩
  ⟨header, c.hash header.canonicalBytes, payload, none⟩

/-- Drafting hashes the payload and the header. -/
def draftCalls : Calls := ⟨2, 0, 0⟩

def genesis (c : Crypto) (authority : Roster) (payload : Bytes) : Block :=
  draft c 0 .zero authority payload

def withSignature (b : Block) (signature : Bytes) : Block :=
  { b with signature := some signature }

end Block

end CosignedLedger
