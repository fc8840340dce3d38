import CosignedLedger.Wire.Record

/-!
# Decoding with validation

A decoded block has the hashes that it claims. Chains are only decoded here; their links are
verified against a store.
-/

namespace CosignedLedger

inductive CodecError where
  | malformed (fault : WireFault)
  | tooLarge (size limit : Nat)
  | hashMismatch (index : Nat) (claimed computed : Digest)
  | payloadMismatch (index : Nat)
  | missingChain (index : Nat)
  | unencodable (cause : String)
deriving DecidableEq

def CodecError.message : CodecError → String
  | malformed fault => s!"Malformed encoding: {fault.message}"
  | tooLarge size limit => s!"Encoded size {size} exceeds limit {limit}"
  | hashMismatch index claimed computed =>
    s!"Hash mismatch at index {index}: claimed {claimed}, computed {computed}"
  | payloadMismatch index => s!"Payload hash mismatch at index {index}"
  | missingChain index => s!"Chain required for block {index}"
  | unencodable cause => s!"Encoding failed: {cause}"

def Format.decodeWithin {α : Type} (f : Format α) (limit : Nat) (bytes : Bytes) :
    Except CodecError α :=
  if limit < bytes.length then .error (.tooLarge bytes.length limit)
  else (f.decode bytes).mapError .malformed

/-- The block that `bytes` encode, if its payload and header have the hashes it claims. -/
def decodeBlock (c : Crypto) (limit : Nat) (bytes : Bytes) : Metered CodecError Block := do
  let block ← .ofExcept (Block.format.decodeWithin limit bytes)
  let payloadHash ← c.runHash block.payload
  if payloadHash ≠ block.header.payloadHash then
    .fail (.payloadMismatch block.index)
  else
    let computed ← c.runHash block.header.canonicalBytes
    if computed ≠ block.hash then .fail (.hashMismatch block.index block.hash computed)
    else return block

def decodeChain (limit : Nat) (bytes : Bytes) : Except CodecError Chain :=
  Chain.format.decodeWithin limit bytes

def packResponse (block : Block) (chain : Option Chain) : Except CodecError Message :=
  let encoded := Block.format.write block
  if block.isGenesis then .ok (.blockResponse encoded none)
  else match chain with
    | none => .error (.missingChain block.index)
    | some chain => .ok (.blockResponse encoded (some (Chain.format.write chain)))

end CosignedLedger
